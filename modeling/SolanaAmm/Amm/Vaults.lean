import SolanaAmm.Amm.Freshness

/-!
# Amm — Vaults

Every reserve has a vault, a token account of its mint that only the
pool's signer can use, and the pool records how much it owns of what the
vault holds. The liquidity endpoints take the vaults from the caller, in
pairs with the wallets: that each vault takes part exactly once follows
from a count of mints, a length and one check a pair.
-/

namespace SolanaAmm.Amm

open Result Decimal Token Pool

/-! ## Pairs of accounts -/

section Pairs

variable {α : Type} {l : List α} {n : ℕ}

theorem chunksOfTwo_length (h : l.length = 2 * n) : (chunksOfTwo l).length = n := by
  induction l using chunksOfTwo.induct generalizing n with
  | case1 a b l ih =>
      rw [List.length_cons, List.length_cons] at h
      rw [chunksOfTwo, List.length_cons, ih (n := n - 1) (by omega)]
      omega
  | case2 l hl =>
      cases l with
      | nil => rw [List.length_nil] at h; rw [chunksOfTwo.eq_2 _ hl, List.length_nil]; omega
      | cons a l =>
          cases l with
          | nil => rw [List.length_singleton] at h; omega
          | cons b l => exact absurd rfl (hl a b l)

theorem mem_of_mem_chunksOfTwo {p : α × α} (h : p ∈ chunksOfTwo l) : p.1 ∈ l ∧ p.2 ∈ l := by
  induction l using chunksOfTwo.induct with
  | case1 a b l ih =>
      rw [chunksOfTwo] at h
      rcases List.mem_cons.mp h with rfl | h
      · simp
      · have := ih h
        simp [this]
  | case2 l hl =>
      rw [chunksOfTwo.eq_2 _ hl] at h
      cases h

theorem exists_chunk_of_mem (hl : l.length = 2 * n) {a : α} (h : a ∈ l) :
    ∃ p ∈ chunksOfTwo l, a = p.1 ∨ a = p.2 := by
  induction l using chunksOfTwo.induct generalizing n with
  | case1 b c l ih =>
      rw [List.length_cons, List.length_cons] at hl
      rw [chunksOfTwo]
      rcases List.mem_cons.mp h with rfl | h
      · exact ⟨(a, c), List.mem_cons_self, .inl rfl⟩
      rcases List.mem_cons.mp h with rfl | h
      · exact ⟨(b, a), List.mem_cons_self, .inr rfl⟩
      obtain ⟨p, hp, hap⟩ := ih (n := n - 1) (by omega) h
      exact ⟨p, List.mem_cons_of_mem _ hp, hap⟩
  | case2 l hne =>
      cases l with
      | nil => cases h
      | cons b l =>
          cases l with
          | nil => rw [List.length_singleton] at hl; omega
          | cons c l => exact absurd rfl (hne b c l)

end Pairs

/-- Twice as many accounts as mints, in pairs of one mint: no two pairs
share theirs. -/
theorem pair_mints_nodup {accounts : List LoadedAccount} {n : ℕ}
    (hlen : accounts.length = 2 * n) (hunique : uniqueMints accounts = n)
    (hpairs : ∀ p ∈ chunksOfTwo accounts, p.1.data.mint = p.2.data.mint) :
    ((chunksOfTwo accounts).map (·.1.data.mint)).Nodup := by
  have hsub : (accounts.map (·.data.mint)).dedup
      ⊆ ((chunksOfTwo accounts).map (·.1.data.mint)).dedup := by
    intro m hm
    obtain ⟨a, ha, rfl⟩ := List.mem_map.mp (List.mem_dedup.mp hm)
    obtain ⟨p, hp, rfl | rfl⟩ := exists_chunk_of_mem hlen ha
    · exact List.mem_dedup.mpr (List.mem_map_of_mem hp)
    · exact List.mem_dedup.mpr (List.mem_map.mpr ⟨p, hp, hpairs p hp⟩)
  have hle := ((List.nodup_dedup _).subperm hsub).length_le
  have hsublist := List.dedup_sublist ((chunksOfTwo accounts).map (·.1.data.mint))
  have hcount : ((chunksOfTwo accounts).map (·.1.data.mint)).length = n := by
    rw [List.length_map, chunksOfTwo_length hlen]
  have heq := hsublist.eq_of_length
    (Nat.le_antisymm hsublist.length_le (hcount.trans_le (hunique.symm.trans_le hle)))
  exact heq ▸ List.nodup_dedup _

/-! ## The vaults of one pool -/

/-- The vaults of a pool answer to its signer and hold what it records. -/
structure Vaulted (env : Env) (l : Ledger Pubkey Pubkey) (key : Pubkey) (pool : Pool) :
    Prop where
  wellFormed : pool.WellFormed
  held : ∀ r ∈ pool.activeReserves, Held l r.vault r.mint (env.signerPda key)
  covered : ∀ r ∈ pool.activeReserves, r.tokens.val ≤ l.balance r.vault

namespace Vaulted

variable {env : Env} {l l' : Ledger Pubkey Pubkey} {key : Pubkey} {pool : Pool}

/-- The mint of an account that is the vault of a reserve. -/
theorem mint_eq (h : Vaulted env l key pool) {r : Reserve} (hr : r ∈ pool.activeReserves)
    {a : TokenAccount Pubkey Pubkey} (ha : l.accounts.lookup r.vault = some a) :
    a.mint = r.mint := by
  obtain ⟨b, hb, hmint, -⟩ := h.held r hr
  rw [ha] at hb
  cases hb
  exact hmint

theorem owner_eq (h : Vaulted env l key pool) {r : Reserve} (hr : r ∈ pool.activeReserves)
    {a : TokenAccount Pubkey Pubkey} (ha : l.accounts.lookup r.vault = some a) :
    a.owner = env.signerPda key := by
  obtain ⟨b, hb, -, howner, -⟩ := h.held r hr
  rw [ha] at hb
  cases hb
  exact howner

/-- No vault serves two reserves. -/
theorem mint_iff_vault (h : Vaulted env l key pool) {r r' : Reserve}
    (hr : r ∈ pool.activeReserves) (hr' : r' ∈ pool.activeReserves) :
    r.mint = r'.mint ↔ r.vault = r'.vault := by
  constructor
  · intro hm
    have hinj := List.inj_on_of_nodup_map h.wellFormed.mints_nodup hr hr' hm
    rw [hinj]
  · intro hv
    obtain ⟨a, ha, hmint, -⟩ := h.held r hr
    rw [← hmint]
    exact h.mint_eq hr' (hv ▸ ha)

theorem vaults_nodup (h : Vaulted env l key pool) :
    (pool.activeReserves.map (·.vault)).Nodup := by
  have hm := h.wellFormed.mints_nodup
  refine List.Nodup.map_on (fun r hr r' hr' hv => ?_) (List.Nodup.of_map _ hm)
  exact List.inj_on_of_nodup_map hm hr hr' ((h.mint_iff_vault hr hr').mpr hv)

/-- What spares the signer keeps the vaults. -/
theorem spared (h : Vaulted env l key pool) (hs : Spares l l' (env.signerPda key)) :
    Vaulted env l' key pool where
  wellFormed := h.wellFormed
  held := fun r hr => (hs r.vault r.mint (h.held r hr)).1
  covered := fun r hr => (h.covered r hr).trans (hs r.vault r.mint (h.held r hr)).2

end Vaulted

/-! ## The transfers of a deposit or a redemption -/

/-- Every vault of the pool takes part in one order, with the tokens of
its mint. `vaultOf` is the side of an order the vaults are on. -/
def OncePerVault (pool : Pool) (tokens : BTreeMap TokenAmount)
    (orders : List (TransferOrder Pubkey)) (vaultOf : TransferOrder Pubkey → Pubkey) : Prop :=
  (orders.map (fun o => (vaultOf o, some o.amount))).Perm
    (pool.activeReserves.map (fun r => (r.vault, tokens[r.mint]?)))

/-- What both loops check of a pair. -/
structure PairChecked (pool : Pool) (user : Pubkey) (tokens : BTreeMap TokenAmount)
    (pair : LoadedAccount × LoadedAccount) : Prop where
  mint : pair.1.data.mint = pair.2.data.mint
  owner : pair.2.data.owner = user
  vault : ∃ r ∈ pool.activeReserves, r.vault = pair.1.key
  tokens : ∃ t, tokens[pair.1.data.mint]? = some t

theorem checkVaultWallet_ok {pool : Pool} {user : Pubkey} {vault wallet : LoadedAccount}
    {u : Unit} (h : checkVaultWallet pool user vault wallet = .ok u) :
    vault.data.mint = wallet.data.mint ∧ wallet.data.owner = user
      ∧ ∃ r ∈ pool.activeReserves, r.vault = vault.key := by
  simp only [checkVaultWallet, bind_eq_ok, ensure_eq_ok, List.any_eq_true,
    decide_eq_true_eq] at h
  obtain ⟨-, hmint, -, howner, hvault⟩ := h
  exact ⟨hmint, howner, hvault⟩

/-- The order of a pair, with the tokens of its mint. -/
def depositOrder (user : Pubkey) (tokens : BTreeMap TokenAmount)
    (pair : LoadedAccount × LoadedAccount) : TransferOrder Pubkey where
  source := pair.2.key
  destination := pair.1.key
  authority := user
  amount := tokens[pair.1.data.mint]?.getD 0

def redeemOrder (poolSigner : Pubkey) (tokens : BTreeMap TokenAmount)
    (pair : LoadedAccount × LoadedAccount) : TransferOrder Pubkey where
  source := pair.1.key
  destination := pair.2.key
  authority := poolSigner
  amount := tokens[pair.1.data.mint]?.getD 0

section Loops

variable {env : Env} {pool : Pool} {user : Pubkey} {tokens : BTreeMap TokenAmount}
  {l l' : Ledger Pubkey Pubkey} {pairs : List (LoadedAccount × LoadedAccount)}

/-- **The loop** over the pairs checks every pair and makes its transfer. -/
theorem transferLoop {f : Ledger Pubkey Pubkey → LoadedAccount × LoadedAccount →
      Except AmmError (Ledger Pubkey Pubkey)}
    {o : LoadedAccount × LoadedAccount → TransferOrder Pubkey}
    (hf : ∀ l pair l', f l pair = .ok l' → PairChecked pool user tokens pair
      ∧ env.tokenProgram.transfer l (o pair).source (o pair).destination
        (o pair).authority (o pair).amount = some l')
    (h : pairs.foldlM f l = .ok l') :
    (∀ pair ∈ pairs, PairChecked pool user tokens pair)
      ∧ transferAll env.tokenProgram l (pairs.map o) = some l' := by
  induction pairs generalizing l with
  | nil =>
      rw [List.foldlM_nil, pure_eq_ok] at h
      subst h
      refine ⟨fun pair hp => ?_, rfl⟩
      cases hp
  | cons pair pairs ih =>
      rw [List.foldlM_cons, bind_eq_ok] at h
      obtain ⟨l₁, h₁, h₂⟩ := h
      obtain ⟨hchecked, htransfer⟩ := hf _ _ _ h₁
      obtain ⟨hall, hrest⟩ := ih h₂
      refine ⟨fun q hq => ?_, transferAll_cons_eq_some.mpr ⟨l₁, htransfer, hrest⟩⟩
      rcases List.mem_cons.mp hq with rfl | hq
      · exact hchecked
      · exact hall q hq

theorem depositTransfer_ok {pair : LoadedAccount × LoadedAccount}
    (h : depositTransfer env pool user tokens l pair = .ok l') :
    PairChecked pool user tokens pair
      ∧ env.tokenProgram.transfer l pair.2.key pair.1.key user
        (tokens[pair.1.data.mint]?.getD 0) = some l' := by
  simp only [depositTransfer, bind_eq_ok, okOr_eq_ok] at h
  obtain ⟨_, hcheck, t, ht, -, -, htransfer⟩ := h
  obtain ⟨hmint, howner, hvault⟩ := checkVaultWallet_ok hcheck
  refine ⟨⟨hmint, howner, hvault, t, ht⟩, ?_⟩
  rw [ht]
  exact htransfer

theorem redeemTransfer_ok {poolSigner : Pubkey} {pair : LoadedAccount × LoadedAccount}
    (h : redeemTransfer env poolSigner pool user tokens l pair = .ok l') :
    PairChecked pool user tokens pair
      ∧ env.tokenProgram.transfer l pair.1.key pair.2.key poolSigner
        (tokens[pair.1.data.mint]?.getD 0) = some l' := by
  simp only [redeemTransfer, bind_eq_ok, okOr_eq_ok] at h
  obtain ⟨_, hcheck, t, ht, htransfer⟩ := h
  obtain ⟨hmint, howner, hvault⟩ := checkVaultWallet_ok hcheck
  refine ⟨⟨hmint, howner, hvault, t, ht⟩, ?_⟩
  rw [ht]
  exact htransfer

end Loops

/-- The accounts of a call, as they were loaded. -/
theorem loaded {s : AmmState} {keys : List Pubkey} {accounts : List LoadedAccount}
    (h : keys.mapM s.tokenAccount = .ok accounts) :
    ∀ a ∈ accounts, s.ledger.accounts.lookup a.key = some a.data := by
  intro a ha
  obtain ⟨key, -, hkey⟩ := Lists.forall₂_exists_right (mapM_eq_ok.mp h).flip ha
  simp only [AmmState.tokenAccount, bind_eq_ok, okOr_eq_ok, pure_eq_ok] at hkey
  obtain ⟨data, hdata, rfl⟩ := hkey
  exact hdata

section OncePerVault

variable {env : Env} {s : AmmState} {key user : Pubkey} {pool : Pool}
  {tokens : BTreeMap TokenAmount} {accounts : List LoadedAccount}

/-- **Once a vault**: the vaults of the pairs are those of the pool. -/
theorem vaults_perm (hv : Vaulted env s.ledger key pool)
    (hloaded : ∀ a ∈ accounts, s.ledger.accounts.lookup a.key = some a.data)
    (hunique : uniqueMints accounts = pool.dimension.val)
    (hlen : accounts.length = 2 * pool.dimension.val)
    (hchecked : ∀ pair ∈ chunksOfTwo accounts, PairChecked pool user tokens pair) :
    ((chunksOfTwo accounts).map (fun p => (p.1.key, p.1.data.mint))).Perm
      (pool.activeReserves.map (fun r => (r.vault, r.mint))) := by
  have hmints := pair_mints_nodup hlen hunique (fun p hp => (hchecked p hp).mint)
  have hnodup : ((chunksOfTwo accounts).map (fun p => (p.1.key, p.1.data.mint))).Nodup := by
    refine List.Nodup.of_map Prod.snd ?_
    rw [List.map_map]
    exact hmints
  have hsub : (chunksOfTwo accounts).map (fun p => (p.1.key, p.1.data.mint))
      ⊆ pool.activeReserves.map (fun r => (r.vault, r.mint)) := by
    intro km hkm
    obtain ⟨p, hp, rfl⟩ := List.mem_map.mp hkm
    obtain ⟨r, hr, hrv⟩ := (hchecked p hp).vault
    have hdata := hloaded p.1 (mem_of_mem_chunksOfTwo hp).1
    refine List.mem_map.mpr ⟨r, hr, ?_⟩
    rw [hrv, hv.mint_eq hr (hrv ▸ hdata)]
  refine (hnodup.subperm hsub).perm_of_length_le (Nat.le_of_eq ?_)
  rw [List.length_map, List.length_map, hv.wellFormed.length, chunksOfTwo_length hlen]

/-- The orders of the pairs, on the side of the vaults. -/
theorem oncePerVault {order : LoadedAccount × LoadedAccount → TransferOrder Pubkey}
    {vaultOf : TransferOrder Pubkey → Pubkey} (hside : ∀ p, vaultOf (order p) = p.1.key)
    (hamount : ∀ p, (order p).amount = tokens[p.1.data.mint]?.getD 0)
    (hchecked : ∀ pair ∈ chunksOfTwo accounts, PairChecked pool user tokens pair)
    (hperm : ((chunksOfTwo accounts).map (fun p => (p.1.key, p.1.data.mint))).Perm
      (pool.activeReserves.map (fun r => (r.vault, r.mint)))) :
    OncePerVault pool tokens ((chunksOfTwo accounts).map order) vaultOf := by
  have h := hperm.map (fun km => (km.1, tokens[km.2]?))
  rw [List.map_map, List.map_map] at h
  unfold OncePerVault
  rw [List.map_map]
  refine (List.Perm.of_eq (List.map_congr_left (fun p hp => ?_))).trans h
  obtain ⟨t, ht⟩ := (hchecked p hp).tokens
  simp only [Function.comp_apply, hside, hamount, ht, Option.getD_some]

/-- No wallet of a pair is a vault of the pool. -/
theorem wallet_ne_vault (hv : Vaulted env s.ledger key pool)
    (hloaded : ∀ a ∈ accounts, s.ledger.accounts.lookup a.key = some a.data)
    (hchecked : ∀ pair ∈ chunksOfTwo accounts, PairChecked pool user tokens pair)
    (huser : user ≠ env.signerPda key) {p : LoadedAccount × LoadedAccount}
    (hp : p ∈ chunksOfTwo accounts) {r : Reserve} (hr : r ∈ pool.activeReserves) :
    p.2.key ≠ r.vault := by
  intro he
  have hdata := hloaded p.2 (mem_of_mem_chunksOfTwo hp).2
  have howner := hv.owner_eq hr (he ▸ hdata)
  exact huser ((hchecked p hp).owner ▸ howner)

section Sums

variable {orders : List (TransferOrder Pubkey)} {vaultOf : TransferOrder Pubkey → Pubkey}

/-- What the orders move at a vault, as amounts by vault. -/
theorem OncePerVault.amounts (hv : Vaulted env s.ledger key pool)
    (h : OncePerVault pool tokens orders vaultOf) {r : Reserve} (hr : r ∈ pool.activeReserves) :
    (orders.map (fun o => if r.vault = vaultOf o then o.amount.val else 0)).sum
      = mapAmounts tokens r.mint := by
  have hmoved := (h.map (fun ka => if r.vault = ka.1 then (ka.2.map (·.val)).getD 0 else 0)).sum_eq
  rw [List.map_map, List.map_map] at hmoved
  refine hmoved.trans ?_
  rw [mapAmounts_eq]
  exact Lists.sum_map_ite_key (g := fun b => ((tokens[b.mint]?).map (·.val)).getD 0)
    hv.vaults_nodup hr

end Sums

end OncePerVault

end SolanaAmm.Amm
