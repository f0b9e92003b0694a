import SolanaAmm.Amm.Outflows
import SolanaAmm.Amm.Proportion
import SolanaAmm.Lib.Circulation

/-!
# Amm — Exits

Whoever holds LP tokens can redeem them. The pool's part of a redemption
fails for bad arguments only, the vaults hold what the pool records, and
the token program has no other reason to refuse. What is left is the
invariant of a stable curve, which must be computed for the reserves that
remain; nothing remains when all LP tokens are redeemed, and a constant
product has no invariant to compute.
-/

namespace SolanaAmm.Amm

open Result Decimal Token Machine

/-! ## The pool's part -/

/-- The tokens that a redemption pays of a reserve. -/
def redeemShare (burned supply x : ℕ) : ℕ := x * (burned * wad / supply) / wad

theorem redeemShare_le {burned supply x : ℕ} (h : burned ≤ supply) :
    redeemShare burned supply x ≤ x := by
  unfold redeemShare
  generalize wad = w
  have hweight : burned * w / supply ≤ w := Nat.div_le_of_le_mul (Nat.mul_le_mul_right _ h)
  exact Nat.div_le_of_le_mul (Nat.mul_comm w x ▸ Nat.mul_le_mul_left x hweight)

theorem redeemShare_all {n x : ℕ} (hn : 0 < n) : redeemShare n n x = x := by
  rw [redeemShare, Nat.mul_div_cancel_left _ hn, Nat.mul_div_cancel _ wad_pos]

theorem mapPairs_isOk {α β : Type} {f : Pubkey → α → Except AmmError β} {l : List (Pubkey × α)}
    (h : ∀ p ∈ l, ∃ b, f p.1 p.2 = .ok b) : ∃ t, mapPairs f l = .ok t := by
  obtain ⟨pairs, hpairs⟩ := mapM_exists_ok (f := fun p : Pubkey × α => do
      let b ← f p.1 p.2
      pure (p.1, b)) (fun p hp => by
    obtain ⟨b, hb⟩ := h p hp
    exact ⟨(p.1, b), by rw [hb]; rfl⟩)
  exact ⟨.ofList pairs, by rw [mapPairs, hpairs]; rfl⟩

namespace Pool

variable {pool pool' : Pool} {minTokens tokens : BTreeMap TokenAmount} {burned supply : TokenAmount}

/-- No redeemed amount is below its minimum. -/
theorem notBelow_isOk (minTokens : BTreeMap TokenAmount) (l : List (Pubkey × TokenAmount))
    (h : ∀ mt ∈ l, ∃ t, minTokens[mt.1]? = some t ∧ t ≤ mt.2) :
    l.foldlM (fun below mt =>
      if below = true then (pure true : Except AmmError Bool)
      else do
        let minToken ← okOr minTokens[mt.1]? .panicked
        pure (mt.2 < minToken : Bool)) false = .ok false := by
  induction l with
  | nil => rfl
  | cons mt l ih =>
      obtain ⟨t, ht, hle⟩ := h mt List.mem_cons_self
      have hread : okOr minTokens[mt.1]? AmmError.panicked = .ok t := okOr_eq_ok.mpr ht
      rw [List.foldlM_cons, if_neg Bool.false_ne_true, hread, ok_bind,
        decide_eq_false (not_lt.mpr hle)]
      exact ih (fun mt' hmt' => h mt' (List.mem_cons_of_mem _ hmt'))

theorem updateReserve_isOk {r : Reserve} (hr : r ∈ pool.activeReserves) (e : AmmError)
    {f : Reserve → Except AmmError Reserve} (hp : (pool.activeReserves.map (·.mint)).Nodup)
    {r' : Reserve} (hf : f r = .ok r') : ∃ p, pool.updateReserve r.mint e f = .ok p := by
  obtain ⟨l₁, l₂, hl⟩ := List.append_of_mem hr
  rw [hl, List.map_append, List.map_cons, List.nodup_append] at hp
  have hfirst : ∀ b ∈ l₁, decide (b.mint = r.mint) = false := fun b hb =>
    decide_eq_false (hp.2.2 b.mint (List.mem_map_of_mem hb) r.mint List.mem_cons_self)
  have hupdate : Lists.updateFirst (fun b : Reserve => b.mint = r.mint) f e pool.activeReserves
      = .ok (l₁ ++ r' :: l₂) :=
    Lists.updateFirst_eq_ok.mpr ⟨l₁, r, l₂, r', hl, hfirst, decide_eq_true rfl, hf, rfl⟩
  exact ⟨_, by rw [updateReserve, hupdate]; rfl⟩

/-- Every reserve has the tokens that are removed. -/
theorem removeAll_isOk {l : List (Pubkey × TokenAmount)} (hp : pool.WellFormed)
    (hl : (l.map Prod.fst).Nodup)
    (h : ∀ mt ∈ l, ∃ r ∈ pool.activeReserves, r.mint = mt.1 ∧ mt.2 ≤ r.tokens) :
    ∃ p, pool.removeAll l = .ok p := by
  induction l generalizing pool with
  | nil => exact ⟨pool, rfl⟩
  | cons mt l ih =>
      rw [List.map_cons, List.nodup_cons] at hl
      obtain ⟨r, hr, hmint, hle⟩ := h mt List.mem_cons_self
      obtain ⟨rest, hrest⟩ := Word.checkedSub_isSome hle
      have hremove : r.removeTokens mt.2 = .ok { r with tokens := rest } :=
        Reserve.removeTokens_eq_ok.mpr ⟨hle, (Word.checkedSub_eq_some.mp hrest).2, rfl, rfl⟩
      obtain ⟨p, hp₁⟩ := updateReserve_isOk (f := fun r => r.removeTokens mt.2) hr missingMint
        hp.mints_nodup hremove
      rw [hmint] at hp₁
      have hmoved := updateReserve_moved hp.mints_nodup removeTokens_moved hp₁
      obtain ⟨p', hp'⟩ := ih (hmoved.wellFormed hp) hl.2 (fun mt' hmt' => by
        obtain ⟨r₁, hr₁, hmint₁, hle₁⟩ := h mt' (List.mem_cons_of_mem _ hmt')
        obtain ⟨r₂, hr₂, hrm⟩ := Lists.forall₂_exists_right hmoved.reserves hr₁
        refine ⟨r₂, hr₂, hrm.mint.trans hmint₁, ?_⟩
        have hne : mt'.1 ≠ mt.1 := fun he => hl.1 (he ▸ List.mem_map_of_mem hmt')
        have htokens := hrm.tokens
        rw [hmint₁, single_ne hne, single_ne hne] at htokens
        rw [Word.le_def] at hle₁ ⊢
        omega)
      exact ⟨p', by rw [removeAll, List.foldlM_cons, hp₁, ok_bind]; exact hp'⟩

theorem weight_le (hb : burned ≤ supply) : burned.val * wad / supply.val ≤ wad :=
  Nat.div_le_of_le_mul (Nat.mul_le_mul_right _ hb)

theorem weight_isOk (hs : supply ≠ 0) (hb : burned ≤ supply) :
    ∃ w, tryDiv (ε := AmmError) (ofU64 burned) (ofU64 supply) = .ok w
      ∧ w.raw = burned.val * wad / supply.val := by
  have hpos : supply.val ≠ 0 := fun h => hs (Word.val_eq_zero.mp h)
  obtain ⟨w, hw⟩ := exists_tryDiv (ε := AmmError) (x := ofU64 burned) (y := ofU64 supply)
    (by rw [ofU64_raw]; exact Nat.mul_ne_zero hpos wad_pos.ne')
    (by
      rw [Fixed.div_whole_raw wad_pos (ofU64_raw burned) (ofU64_raw supply)]
      exact (weight_le hb).trans_lt (by decide))
  exact ⟨w, hw, (tryDiv_ofU64 hw).2⟩

/-- The share of one reserve. -/
theorem share_isOk {w : Decimal} (hw : w.raw = burned.val * wad / supply.val)
    (hb : burned ≤ supply) (x : TokenAmount) :
    ∃ d, (do
      let share ← tryMul (ofU64 x) w
      tryFloor share : Except AmmError TokenAmount) = .ok d
        ∧ d.val = redeemShare burned.val supply.val x.val := by
  have hshare := redeemShare_le (x := x.val) (Word.le_def.mp hb)
  obtain ⟨z, hz⟩ := exists_tryMul (ε := AmmError) (x := ofU64 x) (y := w) (by
    rw [Fixed.mul_whole_raw wad_pos (ofU64_raw x), hw]
    exact (Nat.mul_le_mul x.isLt.le (weight_le hb)).trans_lt (by decide))
  have hraw := tryMul_eq_ok.mp hz
  rw [Fixed.mul_whole_raw wad_pos (ofU64_raw x), hw] at hraw
  have hfloor : Fixed.floor z = redeemShare burned.val supply.val x.val := by
    rw [Fixed.floor, hraw]
    rfl
  let d : TokenAmount := ⟨redeemShare burned.val supply.val x.val, hshare.trans_lt x.isLt⟩
  have hd : tryFloor (ε := AmmError) z = .ok d := tryFloor_eq_ok.mpr hfloor.symm
  exact ⟨d, by rw [hz, ok_bind, hd], rfl⟩

/-- **A redemption** of the pool succeeds: the LP tokens are in supply, and
the minima are for the mints of the pool and within the shares. -/
theorem redeemTokens_isOk (hp : pool.WellFormed) (hs : supply ≠ 0) (hb : burned ≤ supply)
    (hsize : minTokens.size = pool.dimension.val)
    (hmin : ∀ r ∈ pool.activeReserves, ∃ t, minTokens[r.mint]? = some t
      ∧ t.val ≤ redeemShare burned.val supply.val r.tokens.val) :
    ∃ p tokens, pool.redeemTokens minTokens burned supply = .ok (p, tokens)
      ∧ ∀ r ∈ pool.activeReserves, ∃ t, tokens[r.mint]? = some t := by
  have hcontains : ¬ pool.activeReserves.any (fun r => ! minTokens.contains r.mint) = true := by
    intro hany
    obtain ⟨r, hr, hnot⟩ := List.any_eq_true.mp hany
    obtain ⟨t, ht, -⟩ := hmin r hr
    rw [Std.TreeMap.contains_eq_isSome_getElem?, ht] at hnot
    cases hnot
  have hnodup : ((pool.activeReserves.map (fun r => (r.mint, r.tokens))).map Prod.fst).Nodup := by
    rw [List.map_map]
    exact hp.mints_nodup
  obtain ⟨w, hweight, hw⟩ := weight_isOk hs hb
  obtain ⟨tokens, htokens⟩ := mapPairs_isOk (f := fun _ x => do
      let share ← tryMul (ofU64 x) w
      tryFloor share) (l := pool.activeReserves.map (fun r => (r.mint, r.tokens)))
    (fun p _ => (share_isOk hw hb p.2).imp (fun _ h => h.1))
  -- the map has the share of every reserve
  have hshares : ∀ mt ∈ tokens.toList, ∃ r ∈ pool.activeReserves, r.mint = mt.1
      ∧ mt.2.val = redeemShare burned.val supply.val r.tokens.val := by
    rintro ⟨k, t⟩ hmem
    obtain ⟨x, hx, ht⟩ := (mapPairs_eq_ok hnodup htokens k t).mp (Maps.mem_toList.mp hmem)
    obtain ⟨r, hr, he⟩ := List.mem_map.mp hx
    obtain ⟨rfl, rfl⟩ := Prod.mk.inj he
    obtain ⟨d, hd, hval⟩ := share_isOk hw hb r.tokens
    obtain rfl := Except.ok.inj (hd.symm.trans ht)
    exact ⟨r, hr, rfl, hval⟩
  have hbelow := notBelow_isOk minTokens tokens.toList (fun mt hmt => by
    obtain ⟨r, hr, hmint, hval⟩ := hshares mt hmt
    obtain ⟨t, ht, hle⟩ := hmin r hr
    exact ⟨t, hmint ▸ ht, Word.le_def.mpr (hle.trans_eq hval.symm)⟩)
  obtain ⟨p, hremove⟩ := removeAll_isOk hp (Maps.keys_nodup tokens) (fun mt hmt => by
    obtain ⟨r, hr, hmint, hval⟩ := hshares mt hmt
    exact ⟨r, hr, hmint, Word.le_def.mpr (hval.trans_le (redeemShare_le (Word.le_def.mp hb)))⟩)
  refine ⟨p, tokens, ?_, fun r hr => ?_⟩
  · simp only [redeemTokens, bind_eq_ok, ensure_eq_ok, pure_eq_ok, Prod.mk.injEq]
    exact ⟨⟨⟩, hs, ⟨⟩, hb, ⟨⟩, hsize, ⟨⟩, hcontains, w, hweight, tokens, htokens, false, hbelow,
      ⟨⟩, rfl, p, hremove, rfl, rfl⟩
  · obtain ⟨t, -, ht⟩ := mapPairs_total hnodup htokens
      (List.mem_map_of_mem (f := fun r : Reserve => (r.mint, r.tokens)) hr)
    exact ⟨t, ht⟩

/-- What a redemption leaves of a reserve. -/
def remaining (burned supply : ℕ) (r : Reserve) : TokenAmount :=
  Word.wrap (r.tokens.val - redeemShare burned supply r.tokens.val)

theorem remaining_val (burned supply : ℕ) (r : Reserve) :
    (remaining burned supply r).val
      = r.tokens.val - redeemShare burned supply r.tokens.val :=
  Word.wrap_val ((Nat.sub_le _ _).trans_lt r.tokens.isLt)

/-- The limits are within the shares, and a stable curve has an invariant
for what remains. -/
structure Redeemable (m : PowSqrt) (pool : Pool) (burned supply : ℕ)
    (atLeast : Pubkey → TokenAmount) : Prop where
  limits : ∀ r ∈ pool.activeReserves,
    (atLeast r.mint).val ≤ redeemShare burned supply r.tokens.val
  invariant : ∀ amplifier cached, pool.curve = .stable amplifier cached →
    ∃ z, freshInvariant m amplifier (pool.activeReserves.map (remaining burned supply)) = .ok z

theorem Redeemed.remaining (h : Redeemed pool burned supply pool' tokens) :
    pool'.activeReserves.map (·.tokens)
      = pool.activeReserves.map (Pool.remaining burned.val supply.val) := by
  refine (Lists.forall₂_map_eq (fun _ _ he => he)
    (Lists.forall₂_mono_of_mem (fun r hr r' hmoved => ?_) h.moved.reserves)).symm
  have htokens := hmoved.tokens
  rw [h.amount r hr] at htokens
  refine Word.ext ((remaining_val _ _ _).trans ?_)
  rw [redeemShare]
  omega

theorem updateCurveInvariant_isOk_iff {m : PowSqrt} :
    (∃ p, pool.updateCurveInvariant m = .ok p) ↔ ∀ amplifier cached,
      pool.curve = .stable amplifier cached →
        ∃ z, freshInvariant m amplifier (pool.activeReserves.map (·.tokens)) = .ok z := by
  unfold updateCurveInvariant
  cases hcurve : pool.curve with
  | constProd =>
      refine ⟨fun _ amplifier cached h => ?_, fun _ => ⟨pool, rfl⟩⟩
      cases h
  | stable amplifier cached =>
      constructor
      · rintro ⟨p, hupdate⟩ _ _ ⟨⟩
        obtain ⟨z, hz, -⟩ := bind_eq_ok.mp hupdate
        exact ⟨z, hz⟩
      · intro h
        obtain ⟨z, hz⟩ := h _ _ rfl
        exact ⟨{ pool with curve := .stable amplifier z }, by dsimp only; rw [hz]; rfl⟩

/-- Nothing remains of a pool all of whose LP tokens are redeemed. -/
theorem Redeemable.of_all {m : PowSqrt} (hp : pool.WellFormed) {atLeast : Pubkey → TokenAmount}
    {n : ℕ} (hn : 0 < n) (h : ∀ r ∈ pool.activeReserves, atLeast r.mint ≤ r.tokens) :
    Redeemable m pool n n atLeast := by
  refine ⟨fun r hr => ?_, fun amplifier cached _ => ⟨Decimal.zero, if_pos ?_⟩⟩
  · rw [redeemShare_all hn]
    exact h r hr
  · obtain ⟨r, -, hr⟩ := hp.head?
    refine List.any_eq_true.mpr ⟨_, List.mem_map_of_mem hr, decide_eq_true ?_⟩
    rw [← Word.val_eq_zero, remaining_val, redeemShare_all hn, Nat.sub_self]

end Pool

variable {env : Env} {s s' : AmmState} {i : Instr} {key user lpWallet : Pubkey} {pool pool' : Pool}
  {walletOf : Pubkey → Pubkey} {tokens : BTreeMap TokenAmount} {l l' : Ledger Pubkey Pubkey}

/-! ## Mints stay backed -/

section Backed

variable (hp : env.tokenProgram.Lawful)
  (hcurve : ∀ key, env.isOnCurve (env.signerPda key) = false)

include hp hcurve

theorem step_backed (hs : Custody env s) (h : step env s i = .ok s') (hl : s.ledger.Backed) :
    s'.ledger.Backed := by
  obtain ⟨hsigner, he⟩ := step_ok h
  cases he with
  | settings hpools hledger => exact hledger ▸ hl
  | createPool h =>
      obtain ⟨_, _, -, -, -, -, -, -, rfl⟩ := createPool_ok h
      exact hl
  | setPoolSwapFee _ _ => exact hl
  | depositLiquidity h =>
      obtain ⟨_, _, _, _, _, _, _, hmoved⟩ :=
        depositLiquidity_moved hs (ne_signerPda hcurve (hsigner _ rfl) _) h
      exact (hp.mintTo_ok hmoved.mints).backed (transferAll_backed hp hmoved.transfers hl)
  | redeemLiquidity h =>
      obtain ⟨_, _, _, _, _, _, hmoved⟩ :=
        redeemLiquidity_moved hs (ne_signerPda hcurve (hsigner _ rfl) _) h
      exact (hp.burn_ok hmoved.burns).backed (transferAll_backed hp hmoved.transfers hl)
  | swap h =>
      obtain ⟨_, _, _, _, _, _, _, _, _, hmoved, -⟩ :=
        swap_moved hp hs (ne_signerPda hcurve (hsigner _ rfl) _) h
      have hreceived := (hp.transfer_ok hmoved.receives).backed
        ((hp.transfer_ok hmoved.pays).backed hl)
      rcases payToll_ok hp hmoved.tolls with ⟨-, hsame⟩ | ⟨n, -, hminted⟩
      · exact hsame ▸ hreceived
      · exact hminted.backed hreceived
  | token hop hl' => exact TokenOp.apply_backed hp hl' hl

end Backed

/-! ## The caller's part -/

/-- Each vault of the pool, with a wallet of its mint. -/
def vaultsAndWallets (walletOf : Pubkey → Pubkey) (rs : List Reserve) : List Pubkey :=
  rs.flatMap (fun r => [r.vault, walletOf r.mint])

/-- At least so many tokens of each mint. -/
def limitsOf (atLeast : Pubkey → TokenAmount) (rs : List Reserve) : List TokenLimit :=
  rs.map (fun r => ⟨r.mint, atLeast r.mint⟩)

/-- The user has the LP tokens, and a wallet for every mint of the pool. -/
structure CanRedeem (l : Ledger Pubkey Pubkey) (pool : Pool) (user lpWallet : Pubkey)
    (walletOf : Pubkey → Pubkey) (burned : TokenAmount) : Prop where
  lpKind : l.kind lpWallet = some (pool.mint, user)
  lpThawed : l.isFrozen lpWallet = false
  positive : 0 < burned.val
  funds : burned.val ≤ l.balance lpWallet
  wallets : ∀ r ∈ pool.activeReserves, l.kind (walletOf r.mint) = some (r.mint, user)
  thawed : ∀ r ∈ pool.activeReserves, l.isFrozen r.vault = false
    ∧ l.isFrozen (walletOf r.mint) = false

/-- A reserve's vault and wallet, as they are loaded. -/
structure LoadedPair (s : AmmState) (walletOf : Pubkey → Pubkey) (user : Pubkey) (r : Reserve)
    (pair : LoadedAccount × LoadedAccount) : Prop where
  vault : pair.1.key = r.vault
  wallet : pair.2.key = walletOf r.mint
  vaultMint : pair.1.data.mint = r.mint
  walletMint : pair.2.data.mint = r.mint
  owner : pair.2.data.owner = user

theorem tokenAccount_of_kind {k m owner : Pubkey} (h : s.ledger.kind k = some (m, owner)) :
    ∃ a : LoadedAccount, s.tokenAccount k = .ok a ∧ a.key = k ∧ a.data.mint = m
      ∧ a.data.owner = owner ∧ a.data.amount.val = s.ledger.balance k := by
  obtain ⟨data, hdata, hkind⟩ := Option.map_eq_some_iff.mp h
  obtain ⟨hm, ho⟩ := Prod.mk.inj hkind
  refine ⟨⟨k, data⟩, ?_, rfl, hm, ho, (Ledger.balance_of_lookup hdata).symm⟩
  have hread : okOr (s.ledger.accounts.lookup k) AmmError.anchor = .ok data :=
    okOr_eq_ok.mpr hdata
  rw [AmmState.tokenAccount, hread, ok_bind]
  rfl

/-- The accounts are loaded in their pairs. -/
theorem load_pairs (signer : Pubkey) {rs : List Reserve}
    (hv : ∀ r ∈ rs, s.ledger.kind r.vault = some (r.mint, signer))
    (hw : ∀ r ∈ rs, s.ledger.kind (walletOf r.mint) = some (r.mint, user)) :
    ∃ accounts, (vaultsAndWallets walletOf rs).mapM s.tokenAccount = .ok accounts
      ∧ accounts.map (·.data.mint) = (rs.map (·.mint)).flatMap (fun m => [m, m])
      ∧ List.Forall₂ (LoadedPair s walletOf user) rs (chunksOfTwo accounts) := by
  induction rs with
  | nil => exact ⟨[], rfl, rfl, .nil⟩
  | cons r rs ih =>
      obtain ⟨accounts, hload, hmints, hpairs⟩ := ih
        (fun r' hr' => hv r' (List.mem_cons_of_mem _ hr'))
        (fun r' hr' => hw r' (List.mem_cons_of_mem _ hr'))
      obtain ⟨vault, hvault, hvk, hvm, -, -⟩ := tokenAccount_of_kind (hv r List.mem_cons_self)
      obtain ⟨wallet, hwallet, hwk, hwm, hwo, -⟩ := tokenAccount_of_kind (hw r List.mem_cons_self)
      refine ⟨vault :: wallet :: accounts, ?_, ?_, .cons ⟨hvk, hwk, hvm, hwm, hwo⟩ hpairs⟩
      · show (r.vault :: walletOf r.mint :: vaultsAndWallets walletOf rs).mapM s.tokenAccount = _
        rw [List.mapM_cons, hvault, ok_bind, List.mapM_cons, hwallet, ok_bind, hload]
        rfl
      · rw [List.map_cons, List.map_cons, hmints, hvm, hwm]
        rfl

/-- Two accounts of each mint. -/
theorem dedup_twice {ms : List Pubkey} (h : ms.Nodup) :
    (ms.flatMap (fun m => [m, m])).dedup = ms := by
  induction ms with
  | nil => rfl
  | cons m ms ih =>
      obtain ⟨hm, hms⟩ := List.nodup_cons.mp h
      have hnot : m ∉ ms.flatMap (fun m => [m, m]) := by
        simpa using hm
      show (m :: m :: ms.flatMap (fun m => [m, m])).dedup = m :: ms
      rw [List.dedup_cons_of_mem List.mem_cons_self, List.dedup_cons_of_notMem hnot, ih hms]

/-! ## The transfers -/

/-- The order that pays a reserve's share. -/
def exitOrder (signer : Pubkey) (walletOf : Pubkey → Pubkey) (tokens : BTreeMap TokenAmount)
    (r : Reserve) : TransferOrder Pubkey :=
  ⟨r.vault, walletOf r.mint, signer, tokens[r.mint]?.getD 0⟩

theorem LoadedPair.order {signer : Pubkey} {r : Reserve} {pair : LoadedAccount × LoadedAccount}
    (h : LoadedPair s walletOf user r pair) :
    redeemOrder signer tokens pair = exitOrder signer walletOf tokens r := by
  rw [redeemOrder, exitOrder, h.vault, h.wallet, h.vaultMint]

/-- A pair passes the checks, and its transfer is made. -/
theorem redeemTransfer_isOk {signer : Pubkey} {pair : LoadedAccount × LoadedAccount}
    (h : PairChecked pool user tokens pair)
    (ht : env.tokenProgram.transfer l (redeemOrder signer tokens pair).source
      (redeemOrder signer tokens pair).destination signer
      (redeemOrder signer tokens pair).amount = some l') :
    redeemTransfer env signer pool user tokens l pair = .ok l' := by
  obtain ⟨r, hr, hvault⟩ := h.vault
  obtain ⟨t, hget⟩ := h.tokens
  simp only [redeemOrder, hget, Option.getD_some] at ht
  have hany : pool.activeReserves.any (fun r => r.vault = pair.1.key) = true :=
    List.any_eq_true.mpr ⟨r, hr, decide_eq_true hvault⟩
  simp only [redeemTransfer, checkVaultWallet, bind_eq_ok, okOr_eq_ok, ensure_eq_ok]
  exact ⟨⟨⟩, ⟨⟨⟩, h.mint, ⟨⟩, h.owner, hany⟩, t, hget, ht⟩

/-- **The loop** makes the transfers of its pairs. -/
theorem redeemLoop_isOk {signer : Pubkey} {pairs : List (LoadedAccount × LoadedAccount)}
    (h : ∀ pair ∈ pairs, PairChecked pool user tokens pair)
    (ht : transferAll env.tokenProgram l (pairs.map (redeemOrder signer tokens)) = some l') :
    pairs.foldlM (redeemTransfer env signer pool user tokens) l = .ok l' := by
  induction pairs generalizing l with
  | nil =>
      cases ht
      rfl
  | cons pair pairs ih =>
      obtain ⟨l₁, h₁, h₂⟩ := transferAll_cons_eq_some.mp ht
      rw [List.foldlM_cons, redeemTransfer_isOk (h pair List.mem_cons_self) h₁, ok_bind]
      exact ih (fun pair' hp => h pair' (List.mem_cons_of_mem _ hp)) h₂

/-! ## The arguments of the call -/

section Arguments

variable {atLeast : Pubkey → TokenAmount}

theorem limits_nodup (hp : pool.WellFormed) (atLeast : Pubkey → TokenAmount) :
    (((limitsOf atLeast pool.activeReserves).map (fun h => (h.mint, h.tokens))).map
      Prod.fst).Nodup := by
  rw [limitsOf, List.map_map, List.map_map]
  exact hp.mints_nodup

theorem limitsMap_limitsOf (hp : pool.WellFormed) {r : Reserve} (hr : r ∈ pool.activeReserves) :
    (limitsMap (limitsOf atLeast pool.activeReserves))[r.mint]? = some (atLeast r.mint) := by
  refine Maps.getElem?_ofList_of_mem (limits_nodup hp atLeast) ?_
  rw [limitsOf, List.map_map]
  exact List.mem_map_of_mem (f := fun r : Reserve => (r.mint, atLeast r.mint)) hr

theorem limitsMap_size (hp : pool.WellFormed) :
    (limitsMap (limitsOf atLeast pool.activeReserves)).size = pool.dimension.val := by
  have hlen := (Maps.toList_ofList_perm (limits_nodup hp atLeast)).length_eq
  rw [Std.TreeMap.length_toList, List.length_map, limitsOf, List.length_map, hp.length] at hlen
  exact hlen

theorem limits_valid (hp : pool.WellFormed) :
    pool.checkAmountTokensIsValid (limitsMap (limitsOf atLeast pool.activeReserves)) = .ok () := by
  have hall : pool.activeReserves.filter (fun r =>
      (limitsMap (limitsOf atLeast pool.activeReserves)).contains r.mint)
        = pool.activeReserves := by
    refine List.filter_eq_self.mpr (fun r hr => ?_)
    rw [Std.TreeMap.contains_eq_isSome_getElem?, limitsMap_limitsOf hp hr]
    rfl
  refine ensure_eq_ok.mpr ?_
  rw [hall, limitsMap_size hp, hp.length]

/-- There are as many mints as reserves, and two accounts of each. -/
theorem accounts_count (hp : pool.WellFormed) {accounts : List LoadedAccount}
    (h : accounts.map (·.data.mint)
      = (pool.activeReserves.map (·.mint)).flatMap (fun m => [m, m])) :
    uniqueMints accounts = pool.dimension.val ∧ accounts.length = 2 * pool.dimension.val := by
  constructor
  · rw [uniqueMints, h, dedup_twice hp.mints_nodup, List.length_map, hp.length]
  · have hlen := congrArg List.length h
    rw [List.length_map, List.length_flatMap] at hlen
    simp only [List.length_cons, List.length_nil, List.map_const', List.sum_replicate_nat,
      List.length_map, hp.length] at hlen
    omega

end Arguments

section Orders

variable {signer : Pubkey} {rs : List Reserve} {k : Pubkey}

theorem sent_exitOrders : sent (rs.map (exitOrder signer walletOf tokens)) k
    = (rs.map (fun r => if k = r.vault then (tokens[r.mint]?.getD 0).val else 0)).sum := by
  rw [sent, List.map_map]
  rfl

theorem received_exitOrders : received (rs.map (exitOrder signer walletOf tokens)) k
    = (rs.map (fun r => if k = walletOf r.mint then (tokens[r.mint]?.getD 0).val else 0)).sum := by
  rw [received, List.map_map]
  rfl

theorem mapAmounts_getD {k : Pubkey} : (tokens[k]?.getD 0).val = mapAmounts tokens k := by
  rw [mapAmounts_eq]
  cases tokens[k]? <;> rfl

/-- The orders are in order. -/
theorem exitOrders_inOrder {burned : TokenAmount} (hv : Vaulted env l key pool)
    (hcan : CanRedeem l pool user lpWallet walletOf burned) :
    ∀ o ∈ pool.activeReserves.map (exitOrder (env.signerPda key) walletOf tokens),
      o.InOrder l := by
  intro o ho
  obtain ⟨r, hr, rfl⟩ := List.mem_map.mp ho
  obtain ⟨a, ha, hmint, howner, -⟩ := hv.held r hr
  have hvault : l.kind r.vault = some (r.mint, env.signerPda key) := by
    rw [Ledger.kind_of_lookup ha, hmint, howner]
  have hwallet : l.Of r.mint (walletOf r.mint) := by
    rw [Ledger.Of, hcan.wallets r hr]
    rfl
  exact ⟨⟨r.mint, hvault, hwallet, (hcan.thawed r hr).2⟩, (hcan.thawed r hr).1⟩

/-- Nothing but vaults pays. -/
theorem sent_exitOrders_eq_zero (h : ∀ r ∈ rs, k ≠ r.vault) :
    sent (rs.map (exitOrder signer walletOf tokens)) k = 0 := by
  refine sent_eq_zero (fun o ho => ?_)
  obtain ⟨r, hr, rfl⟩ := List.mem_map.mp ho
  exact Ne.symm (h r hr)

/-- No vault is asked for more than it holds. -/
theorem exitOrders_funds (hv : Vaulted env l key pool)
    (hle : ∀ r ∈ pool.activeReserves, mapAmounts tokens r.mint ≤ r.tokens.val) (k : Pubkey) :
    sent (pool.activeReserves.map (exitOrder signer walletOf tokens)) k ≤ l.balance k := by
  by_cases hk : ∃ r ∈ pool.activeReserves, k = r.vault
  · obtain ⟨r, hr, rfl⟩ := hk
    rw [sent_exitOrders, Lists.sum_map_ite_key hv.vaults_nodup hr, mapAmounts_getD]
    exact (hle r hr).trans (hv.covered r hr)
  · rw [sent_exitOrders_eq_zero (fun r hr he => hk ⟨r, hr, he⟩)]
    exact Nat.zero_le _

/-- **The transfers** of a redemption are made. -/
theorem exitOrders_isSome (hp : env.tokenProgram.Lawful) (hlive : env.tokenProgram.Live)
    (hl : l.Backed) {burned : TokenAmount} (hv : Vaulted env l key pool)
    (hcan : CanRedeem l pool user lpWallet walletOf burned)
    (hle : ∀ r ∈ pool.activeReserves, mapAmounts tokens r.mint ≤ r.tokens.val) :
    ∃ l', transferAll env.tokenProgram l
      (pool.activeReserves.map (exitOrder (env.signerPda key) walletOf tokens)) = some l' :=
  transferAll_isSome hp hlive hl (exitOrders_inOrder hv hcan) (exitOrders_funds hv hle)

end Orders

/-! ## The call -/

/-- What a redemption did to the books: every vault paid its share into the
wallet of its mint, and the LP tokens are gone. -/
structure Exited (s t : AmmState) (pool : Pool) (lpWallet : Pubkey)
    (walletOf : Pubkey → Pubkey) (burned : TokenAmount) : Prop where
  supply : t.ledger.supply pool.mint + burned.val = s.ledger.supply pool.mint
  balances : ∀ k, t.ledger.balance k
      + (pool.activeReserves.map (fun r => if k = r.vault then
          redeemShare burned.val (s.ledger.supply pool.mint) r.tokens.val else 0)).sum
      + (if k = lpWallet then burned.val else 0)
    = s.ledger.balance k
      + (pool.activeReserves.map (fun r => if k = walletOf r.mint then
          redeemShare burned.val (s.ledger.supply pool.mint) r.tokens.val else 0)).sum

/-- The redemption of LP tokens of a pool, with its vaults in order. -/
def redemption (key user lpWallet : Pubkey) (walletOf : Pubkey → Pubkey) (pool : Pool) :
    RedeemLiquidity where
  user := user
  pool := key
  lpMint := pool.mint
  lpTokenWallet := lpWallet
  remainingAccounts := vaultsAndWallets walletOf pool.activeReserves

section Call

open Pool

variable {burned : TokenAmount} {atLeast : Pubkey → TokenAmount}

/-- Whatever is redeemed is within the limits, and leaves a pool that has
an invariant. -/
theorem redeemable_of_ok (hs : Custody env s) (hpool : s.pools.lookup key = some pool)
    (huser : user ≠ env.signerPda key)
    (h : redeemLiquidity env s (redemption key user lpWallet walletOf pool) burned
      (limitsOf atLeast pool.activeReserves) = .ok s') :
    pool.Redeemable env.powSqrt burned.val (s.ledger.supply pool.mint) atLeast := by
  obtain ⟨p, p', supply, tokens, orders, ledger, hmoved⟩ := redeemLiquidity_moved hs huser h
  have hsame := hmoved.before
  rw [show (redemption key user lpWallet walletOf pool).pool = key from rfl, hpool,
    Option.some.injEq] at hsame
  subst hsame
  have hp := (hs.vaulted _ _ hpool).wellFormed
  obtain ⟨q, hredeem, hupdate⟩ := hmoved.plan
  obtain ⟨lpMint, hlpMint, rfl⟩ := hmoved.lpSupply
  have hr := redeemed hp hredeem
  rw [Ledger.supply_of_lookup hlpMint]
  refine ⟨fun r hmem => ?_, fun amplifier cached hcurve => ?_⟩
  · have hle := redeem_minimum hp hredeem r hmem
    rw [mapAmounts_of_getElem? (limitsMap_limitsOf hp hmem), hr.amount r hmem] at hle
    exact hle
  · rw [← hr.remaining]
    exact updateCurveInvariant_isOk_iff.mp ⟨p', hupdate⟩ amplifier cached
      (hr.moved.curve.trans hcurve)

/-- **The call** goes through. -/
theorem redeemLiquidity_isOk (hp : env.tokenProgram.Lawful) (hlive : env.tokenProgram.Live)
    (hs : Custody env s) (hl : s.ledger.Backed) (hpool : s.pools.lookup key = some pool)
    (huser : user ≠ env.signerPda key)
    (hcan : CanRedeem s.ledger pool user lpWallet walletOf burned)
    (hable : pool.Redeemable env.powSqrt burned.val (s.ledger.supply pool.mint) atLeast) :
    ∃ t, redeemLiquidity env s (redemption key user lpWallet walletOf pool) burned
        (limitsOf atLeast pool.activeReserves) = .ok t
      ∧ Exited s t pool lpWallet walletOf burned := by
  have hv := hs.vaulted _ _ hpool
  have hwf := hv.wellFormed
  -- what is loaded
  obtain ⟨lpMint, hlpMint, hissued⟩ := hl.issued (by rw [Ledger.Of, hcan.lpKind]; rfl)
    (hcan.positive.trans_le hcan.funds)
  have hsupply := Ledger.supply_of_lookup hlpMint
  rw [hsupply] at hable
  have hburned : burned ≤ lpMint.supply := hcan.funds.trans hissued
  have hsupplyPos : lpMint.supply ≠ 0 := fun h0 => by
    have := hcan.positive.trans_le hburned
    rw [h0, Word.val_zero] at this
    exact absurd this (Nat.lt_irrefl 0)
  obtain ⟨lpAccount, hlpAccount, -, hlpOf, -, hlpAmount⟩ := tokenAccount_of_kind hcan.lpKind
  obtain ⟨accounts, haccounts, hmints, hpairs⟩ := load_pairs (env.signerPda key)
    (fun r hr => by
      obtain ⟨a, ha, hmint, howner, -⟩ := hv.held r hr
      rw [Ledger.kind_of_lookup ha, hmint, howner]) hcan.wallets
  obtain ⟨hunique, hlen⟩ := accounts_count hwf hmints
  -- the pool's part
  obtain ⟨p, tokens, hredeem, hget⟩ := redeemTokens_isOk hwf hsupplyPos hburned
    (limitsMap_size hwf) (fun r hr => ⟨_, limitsMap_limitsOf hwf hr, hable.limits r hr⟩)
  have hr := redeemed hwf hredeem
  obtain ⟨p', hupdate⟩ : ∃ p', p.updateCurveInvariant env.powSqrt = .ok p' :=
    updateCurveInvariant_isOk_iff.mpr (fun amplifier cached hcurve => by
      rw [hr.remaining]
      exact hable.invariant amplifier cached (hr.moved.curve.symm.trans hcurve))
  have hamount : ∀ r ∈ pool.activeReserves, mapAmounts tokens r.mint
      = redeemShare burned.val lpMint.supply.val r.tokens.val := hr.amount
  -- the transfers
  obtain ⟨l', hl'⟩ : ∃ l', transferAll env.tokenProgram s.ledger (pool.activeReserves.map
      (exitOrder (env.signerPda key) walletOf tokens)) = some l' :=
    exitOrders_isSome hp hlive hl hv hcan
      (fun r hr => (hamount r hr).trans_le (redeemShare_le hburned))
  have horders : (chunksOfTwo accounts).map (redeemOrder (env.signerPda key) tokens)
      = pool.activeReserves.map (exitOrder (env.signerPda key) walletOf tokens) :=
    (Lists.forall₂_map_eq (fun _ _ hpair => hpair.order.symm) hpairs).symm
  have hchecked : ∀ pair ∈ chunksOfTwo accounts, PairChecked p user tokens pair := by
    intro pair hmem
    obtain ⟨r, hrmem, hpair⟩ := Lists.forall₂_exists_right hpairs.flip hmem
    obtain ⟨r', hr', hmoved⟩ := hr.moved.reserve hrmem
    exact ⟨hpair.vaultMint.trans hpair.walletMint.symm, hpair.owner,
      ⟨r', hr', hmoved.vault.trans hpair.vault.symm⟩, hpair.vaultMint ▸ hget r hrmem⟩
  have hloop := redeemLoop_isOk hchecked (horders ▸ hl')
  -- the burn
  have hbalances := fun k => transferAll_balances (k := k) hp hl'
  have hlpNot : ∀ r ∈ pool.activeReserves, lpWallet ≠ r.vault := by
    rintro r hmem rfl
    obtain ⟨a, ha, -, howner, -⟩ := hv.held r hmem
    have hkind := hcan.lpKind
    rw [Ledger.kind_of_lookup ha, Option.some.injEq, Prod.mk.injEq] at hkind
    exact huser (hkind.2.symm.trans howner)
  have hfunds : burned.val ≤ l'.balance lpWallet := by
    have hb := hbalances lpWallet
    have hle := hcan.funds
    rw [sent_exitOrders_eq_zero hlpNot] at hb
    omega
  obtain ⟨l'', hl''⟩ := burn_isSome hlive (transferAll_backed hp hl' hl)
    ((transferAll_kind hp hl').trans hcan.lpKind)
    ((transferAll_isFrozen hlive hl').trans hcan.lpThawed) hcan.positive hfunds
  have hb := hp.burn_ok hl''
  refine ⟨(s.setLedger l'').setPool key p', ?_, ?_, fun k => ?_⟩
  · have hpoolRead : s.pool key = .ok pool := okOr_eq_ok.mpr hpool
    have hmintRead : s.mint pool.mint = .ok lpMint := okOr_eq_ok.mpr hlpMint
    have hwithin : burned ≤ lpAccount.data.amount :=
      Word.le_def.mpr (hcan.funds.trans_eq hlpAmount.symm)
    simp only [redeemLiquidity, redemption, hpoolRead, hmintRead, hlpAccount, haccounts, bind_eq_ok,
      ensure_eq_ok, okOr_eq_ok, pure_eq_ok]
    exact ⟨_, rfl, _, rfl, ⟨⟩, ensure_eq_ok.mpr rfl, _, rfl, ⟨⟩, hlpOf, _, rfl, ⟨⟩, hunique, ⟨⟩,
      hburned, ⟨⟩, hwithin, ⟨⟩, hlen, ⟨⟩, limits_valid hwf, _, hredeem, _, hloop, _, hl'', _,
      hupdate, rfl⟩
  · obtain ⟨a, a', ha, ha', hle, hless, -⟩ := hb.mint
    rw [transferAll_mints hp hl', hlpMint, Option.some.injEq] at ha
    subst ha
    show l''.supply pool.mint + burned.val = s.ledger.supply pool.mint
    rw [Ledger.supply_of_lookup ha', hsupply, hless]
    exact Nat.sub_add_cancel hle
  · have hmoved := hbalances k
    have hburn := hb.balances k
    rw [sent_exitOrders, received_exitOrders] at hmoved
    have hsum : ∀ key : Reserve → Pubkey, (pool.activeReserves.map (fun r =>
        if k = key r then (tokens[r.mint]?.getD 0).val else 0)).sum
        = (pool.activeReserves.map (fun r => if k = key r then
            redeemShare burned.val lpMint.supply.val r.tokens.val else 0)).sum := fun key =>
      congrArg List.sum (List.map_congr_left (fun r hr => by rw [mapAmounts_getD, hamount r hr]))
    rw [hsum, hsum (fun r => walletOf r.mint)] at hmoved
    show l''.balance k + _ + _ = s.ledger.balance k + _
    rw [hsupply]
    omega

/-- **LP tokens can be redeemed.** In every state that is reached from one
without pools, whoever holds LP tokens of a pool, and a wallet for each of
its mints, can redeem any of them if and only if the limits are within the
shares and a stable curve has an invariant for what remains. The wallets
gain the shares of the reserves, and nobody else gains or loses anything.
All LP tokens can always be redeemed, for all that the reserves have. -/
theorem liquidity_redeemable (hp : env.tokenProgram.Lawful) (hlive : env.tokenProgram.Live)
    (hcurve : ∀ key, env.isOnCurve (env.signerPda key) = false) (hstart : s.pools = ∅)
    (hl : s.ledger.Backed) {is : List Instr} (his : Guarded (step env) (DistinctSigners env) s is)
    (hpool : (run (step env) s is).pools.lookup key = some pool)
    (huser : env.isOnCurve user = true)
    (hcan : CanRedeem (run (step env) s is).ledger pool user lpWallet walletOf burned) :
    let t := run (step env) s is
    let redeem := step env t (.redeemLiquidity (redemption key user lpWallet walletOf pool) burned
      (limitsOf atLeast pool.activeReserves))
    ((∃ t', redeem = .ok t')
        ↔ pool.Redeemable env.powSqrt burned.val (t.ledger.supply pool.mint) atLeast)
      ∧ (∀ t', redeem = .ok t' → Exited t t' pool lpWallet walletOf burned)
      ∧ (burned.val = t.ledger.supply pool.mint →
        (∀ r ∈ pool.activeReserves, atLeast r.mint ≤ r.tokens) → ∃ t', redeem = .ok t') := by
  obtain ⟨hs, hbacked⟩ : Custody env (run (step env) s is) ∧ (run (step env) s is).ledger.Backed :=
    run_invariant (I := fun s => Custody env s ∧ s.ledger.Backed)
      (fun s i s' hI hG h => ⟨step_custody hp hcurve hI.1 hG h, step_backed hp hcurve hI.1 h hI.2⟩)
      ⟨.of_empty hstart, hl⟩ his
  generalize run (step env) s is = t at *
  have hne := ne_signerPda hcurve huser key
  have hsigned : ∀ t', step env t (.redeemLiquidity (redemption key user lpWallet walletOf pool)
      burned (limitsOf atLeast pool.activeReserves)) = .ok t'
      ↔ redeemLiquidity env t (redemption key user lpWallet walletOf pool) burned
        (limitsOf atLeast pool.activeReserves) = .ok t' := fun t' => by
    simp only [step, bind_eq_ok, ensure_eq_ok]
    exact ⟨fun h => h.choose_spec.2, fun h => ⟨⟨⟩, huser, h⟩⟩
  intro t₀ redeem
  have hok : pool.Redeemable env.powSqrt burned.val (t.ledger.supply pool.mint) atLeast → _ :=
    redeemLiquidity_isOk hp hlive hs hbacked hpool hne hcan
  have hiff : (∃ t', redeem = .ok t')
      ↔ pool.Redeemable env.powSqrt burned.val (t.ledger.supply pool.mint) atLeast := by
    constructor
    · rintro ⟨t', h⟩
      exact redeemable_of_ok hs hpool hne ((hsigned t').mp h)
    · intro hable
      obtain ⟨t', h, -⟩ := hok hable
      exact ⟨t', (hsigned t').mpr h⟩
  refine ⟨hiff, fun t' h => ?_, fun hall hlimits => hiff.mpr ?_⟩
  · obtain ⟨t'', h'', hexited⟩ := hok (hiff.mp ⟨t', h⟩)
    rw [(hsigned t').mp h] at h''
    cases h''
    exact hexited
  · rw [← hall]
    exact .of_all (hs.vaulted _ _ hpool).wellFormed hcan.positive hlimits

end Call

/-! ## A pool that is left by its last holder -/

/-- The mints of the wallets issued what is in them, and user 51 has wallets
too. -/
def backedState : AmmState :=
  { listedState 0 0 with ledger :=
      { accounts := List.toAList [⟨10, tokenAccount 5 7 0⟩, ⟨11, tokenAccount 1 99 0⟩,
          ⟨12, tokenAccount 2 99 0⟩, ⟨31, tokenAccount 1 50 5000⟩, ⟨32, tokenAccount 2 50 5000⟩,
          ⟨33, tokenAccount 5 50 0⟩, ⟨41, tokenAccount 1 51 5000⟩, ⟨42, tokenAccount 2 51 5000⟩]
        mints := List.toAList [⟨1, ⟨10000, none, none⟩⟩, ⟨2, ⟨10000, none, none⟩⟩,
          ⟨5, ⟨0, some 99, none⟩⟩] } }

theorem backedState_backed : backedState.ledger.Backed := by decide +kernel

/-- The wallets of user 50. -/
def sampleWallet (mint : Pubkey) : Pubkey := if mint = 1 then 31 else 32

/-- The only holder of LP tokens redeems all of them, and the reserves are
paid out in full. -/
theorem liquidity_redeemable_sample :
    ∃ pool, (run (step sampleEnv) backedState [createStable, depositThousand]).pools.lookup 20
        = some pool
      ∧ ∃ t, step sampleEnv (run (step sampleEnv) backedState [createStable, depositThousand])
        (.redeemLiquidity (redemption 20 50 33 sampleWallet pool) 1000
          (limitsOf (fun _ => 1000) pool.activeReserves)) = .ok t := by
  have hguarded : Guarded (step sampleEnv) (DistinctSigners sampleEnv) backedState
      [createStable, depositThousand] := by
    refine ⟨?_, trivial, trivial⟩
    intro e he
    cases he
  obtain ⟨pool, hpool⟩ := Option.isSome_iff_exists.mp (show ((run (step sampleEnv) backedState
    [createStable, depositThousand]).pools.lookup 20).isSome = true by decide +kernel)
  have hlp : ∀ pool ∈ (run (step sampleEnv) backedState
      [createStable, depositThousand]).pools.lookup 20,
      (run (step sampleEnv) backedState [createStable, depositThousand]).ledger.kind 33
        = some (pool.mint, 50)
      ∧ (1000 : TokenAmount).val = (run (step sampleEnv) backedState
        [createStable, depositThousand]).ledger.supply pool.mint := by decide +kernel
  have hwallets : ∀ pool ∈ (run (step sampleEnv) backedState
      [createStable, depositThousand]).pools.lookup 20, ∀ r ∈ pool.activeReserves,
      (run (step sampleEnv) backedState [createStable, depositThousand]).ledger.kind
        (sampleWallet r.mint) = some (r.mint, 50) ∧ (1000 : TokenAmount) ≤ r.tokens := by
    decide +kernel
  have hthawed : ∀ pool ∈ (run (step sampleEnv) backedState
      [createStable, depositThousand]).pools.lookup 20, ∀ r ∈ pool.activeReserves,
      (run (step sampleEnv) backedState [createStable, depositThousand]).ledger.isFrozen r.vault
        = false
      ∧ (run (step sampleEnv) backedState [createStable, depositThousand]).ledger.isFrozen
        (sampleWallet r.mint) = false := by decide +kernel
  have hcan : CanRedeem (run (step sampleEnv) backedState [createStable, depositThousand]).ledger
      pool 50 33 sampleWallet 1000 :=
    ⟨(hlp pool hpool).1, by decide +kernel, by decide, by decide +kernel,
      fun r hr => (hwallets pool hpool r hr).1, hthawed pool hpool⟩
  exact ⟨pool, hpool, (liquidity_redeemable Token.Reference.lawful Token.Reference.live
    (fun _ => rfl) rfl backedState_backed hguarded hpool rfl hcan).2.2
    (hlp pool hpool).2 (fun r hr => (hwallets pool hpool r hr).2)⟩

end SolanaAmm.Amm
