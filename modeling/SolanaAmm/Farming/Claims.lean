import SolanaAmm.Farming.Steps

/-!
# Farming — Claims

The loop of a claim as a list of transfers. The pairs of accounts are the
caller's choice; the first pair of a mint is paid all that is credited of
it and later ones find the entry at zero. `payouts` reads the transfers
off the pairs and the farmer's map alone, and a successful loop made
exactly these (`Settles`).
-/

namespace SolanaAmm.Farming

open Result Token

/-- A transfer out of a harvest vault. -/
structure Payout where
  vault : Address
  wallet : Address
  tokens : TokenAmount
deriving DecidableEq

/-- What the pairs of a claim are paid. -/
def payouts : Harvested → List (Address × Address) → List Payout
  | _, [] => []
  | t, (.harvestVault farm m, wallet) :: pairs =>
      match t[m]?.filter (fun tokens => 0 < tokens) with
      | some tokens => ⟨.harvestVault farm m, wallet, tokens⟩ :: payouts (t.insert m 0) pairs
      | none => payouts t pairs
  | t, _ :: pairs => payouts t pairs

def pay (env : Env) (farmKey : Pubkey) (l : Ledger Address Pubkey) (p : Payout) :
    Except FarmingError (Ledger Address Pubkey) :=
  transfer env l p.vault p.wallet (.farmSigner farmKey) p.tokens

/-- The tokens of some payouts. -/
def paid (ps : List Payout) (q : Payout → Bool) : ℕ :=
  ((ps.filter q).map (fun p => p.tokens.val)).sum

def paidFrom (ps : List Payout) (v : Address) : ℕ := paid ps (fun p => p.vault = v)

def paidTo (ps : List Payout) (v : Address) : ℕ := paid ps (fun p => p.wallet = v)

/-- The vault of a mint comes first in one of the pairs. -/
def Listed (farmKey : Pubkey) (pairs : List (Address × Address)) (m : Pubkey) : Prop :=
  .harvestVault farmKey m ∈ pairs.map Prod.fst

instance (farmKey : Pubkey) (pairs : List (Address × Address)) (m : Pubkey) :
    Decidable (Listed farmKey pairs m) :=
  inferInstanceAs (Decidable (_ ∈ _))

variable {env : Env} {F m k : Pubkey} {l l' : Ledger Address Pubkey} {t t' : Harvested}
  {vault wallet v : Address} {pairs : List (Address × Address)} {p : Payout} {ps : List Payout}
  {q : Payout → Bool} {n : TokenAmount}

theorem paid_cons : paid (p :: ps) q = (if q p then p.tokens.val else 0) + paid ps q := by
  unfold paid
  cases h : q p with
  | true => rw [List.filter_cons_of_pos h, List.map_cons, List.sum_cons, if_pos rfl]
  | false =>
      rw [List.filter_cons_of_neg (by rw [h]; exact Bool.false_ne_true), if_neg Bool.false_ne_true,
        Nat.zero_add]

theorem listed_cons :
    Listed F ((vault, wallet) :: pairs) m ↔ .harvestVault F m = vault ∨ Listed F pairs m :=
  List.mem_cons

/-! ## What the map holds -/

theorem filter_pos_eq_some :
    t[m]?.filter (fun tokens => 0 < tokens) = some n ↔ t[m]? = some n ∧ 0 < n := by
  rw [Option.filter_eq_some_iff, decide_eq_true_eq]

theorem filter_pos_eq_none :
    t[m]?.filter (fun tokens => 0 < tokens) = none ↔ tokensOf t m = 0 := by
  cases h : t[m]? with
  | none => exact iff_of_true rfl (tokensOf_of_none h)
  | some n =>
      rw [tokensOf_of_getElem? h, Option.filter_some]
      by_cases hn : 0 < n
      · rw [if_pos (decide_eq_true hn)]
        exact iff_of_false (Option.some_ne_none n) (Nat.ne_of_gt (Word.lt_def.mp hn))
      · rw [if_neg (by simpa using hn)]
        exact iff_of_true rfl (Nat.eq_zero_of_not_pos (fun h => hn (Word.lt_def.mpr h)))

/-! ## Totals -/

/-- **The payouts from one vault** add up to the credited tokens of its
mint, however often it is listed. -/
theorem paidFrom_payouts (hown : ∀ pair ∈ pairs, ∃ m, pair.1 = .harvestVault F m) :
    paidFrom (payouts t pairs) (.harvestVault F m)
      = if Listed F pairs m then tokensOf t m else 0 := by
  induction pairs generalizing t with
  | nil => exact (if_neg List.not_mem_nil).symm
  | cons pair pairs ih =>
      obtain ⟨vault, wallet⟩ := pair
      obtain ⟨m', rfl⟩ : ∃ m', vault = .harvestVault F m' := hown _ List.mem_cons_self
      have hrest := fun pair hpair => hown pair (List.mem_cons_of_mem _ hpair)
      rw [payouts]
      by_cases hm : m' = m
      · -- the first listing pays all, any later one nothing
        subst hm
        rw [if_pos (listed_cons.mpr (.inl rfl))]
        split
        · rename_i n hn
          have htokens := tokensOf_of_getElem? (filter_pos_eq_some.mp hn).1
          have hzero : tokensOf (t.insert m' 0) m' = 0 := by
            rw [tokensOf_insert, if_pos rfl, Word.val_zero]
          rw [paidFrom, paid_cons, if_pos (decide_eq_true rfl), ← paidFrom, ih hrest, hzero,
            ite_self, htokens, Nat.add_zero]
        · rename_i hn
          rw [ih hrest, filter_pos_eq_none.mp hn, ite_self]
      · have hne : Address.harvestVault F m' ≠ .harvestVault F m := by
          intro he
          cases he
          exact hm rfl
        have hlisted : Listed F ((.harvestVault F m', wallet) :: pairs) m ↔ Listed F pairs m :=
          listed_cons.trans (or_iff_right hne.symm)
        simp only [hlisted]
        split
        · rw [paidFrom, paid_cons, if_neg (by simpa using hne), Nat.zero_add, ← paidFrom,
            ih hrest, tokensOf_insert, if_neg hm]
        · exact ih hrest

/-- Only vaults that are listed pay. -/
theorem vault_of_mem_payouts (hown : ∀ pair ∈ pairs, ∃ m, pair.1 = .harvestVault F m)
    (hp : p ∈ payouts t pairs) : ∃ m, p.vault = .harvestVault F m := by
  induction pairs generalizing t with
  | nil => cases hp
  | cons pair pairs ih =>
      obtain ⟨vault, wallet⟩ := pair
      obtain ⟨m, rfl⟩ : ∃ m, vault = .harvestVault F m := hown _ List.mem_cons_self
      have hrest := fun pair hpair => hown pair (List.mem_cons_of_mem _ hpair)
      rw [payouts] at hp
      split at hp
      · rcases List.mem_cons.mp hp with rfl | hp
        · exact ⟨m, rfl⟩
        · exact ih hrest hp
      · exact ih hrest hp

theorem paidFrom_eq_zero (h : ∀ p ∈ ps, p.vault ≠ v) : paidFrom ps v = 0 := by
  have hnil : ps.filter (fun p => p.vault = v) = [] := by
    rw [List.filter_eq_nil_iff]
    intro p hp
    simpa using h p hp
  rw [paidFrom, paid, hnil]
  rfl

/-- What the payouts do to every balance. -/
theorem balance_pays (hp : env.tokenProgram.Lawful) (h : ps.foldlM (pay env F) l = .ok l') :
    l'.balance v + paidFrom ps v = l.balance v + paidTo ps v := by
  induction ps generalizing l with
  | nil =>
      rw [List.foldlM_nil, pure_eq_ok] at h
      rw [h]
      rfl
  | cons p ps ih =>
      rw [List.foldlM_cons, bind_eq_ok] at h
      obtain ⟨l₁, hpay, h⟩ := h
      have hrest := ih h
      have hone := (transferred hp hpay).balances v
      unfold paidFrom paidTo at hrest ⊢
      simp only [paid_cons, decide_eq_true_eq, eq_comm (a := v)] at hone ⊢
      omega

/-! ## The loop -/

/-- **One pair**: the vault is the farm's own vault of its mint, and what is
credited of the mint is paid and gone. -/
theorem claimPair_cases (h : claimPair env F (l, t) (vault, wallet) = .ok (l', t')) :
    ∃ m, vault = .harvestVault F m
      ∧ ((∃ n, t[m]?.filter (fun tokens => 0 < tokens) = some n
          ∧ pay env F l ⟨vault, wallet, n⟩ = .ok l' ∧ t' = t.insert m 0)
        ∨ t[m]?.filter (fun tokens => 0 < tokens) = none ∧ l' = l ∧ t' = t) := by
  simp only [claimPair, bind_eq_ok, okOr_eq_ok, ensure_eq_ok] at h
  obtain ⟨account, -, -, rfl, h⟩ := h
  refine ⟨account.mint, rfl, ?_⟩
  split at h
  · rename_i n hn
    simp only [bind_eq_ok, pure_eq_ok, Prod.mk.injEq] at h
    obtain ⟨l₁, hpay, rfl, rfl⟩ := h
    exact .inl ⟨n, hn, hpay, rfl⟩
  · rename_i hn
    rw [pure_eq_ok, Prod.mk.injEq] at h
    exact .inr ⟨hn, h.1.symm, h.2.symm⟩

/-- What one pair leaves in the map. -/
theorem getElem?_insert_zero (hn : t[m]?.filter (fun tokens => 0 < tokens) = some n) :
    (t.insert m 0)[k]? = if k = m then t[k]?.map (fun _ => 0) else t[k]? := by
  by_cases hk : k = m
  · subst hk
    rw [if_pos rfl, Std.TreeMap.getElem?_insert_self, (filter_pos_eq_some.mp hn).1]
    rfl
  · rw [if_neg hk, getElem?_insert_ne hk]

theorem getElem?_eq_zeroed (hn : t[m]?.filter (fun tokens => 0 < tokens) = none) :
    t[k]? = if k = m then t[k]?.map (fun _ => 0) else t[k]? := by
  split
  · rename_i hk
    subst hk
    have hzero := filter_pos_eq_none.mp hn
    cases hv : t[k]? with
    | none => rfl
    | some v =>
        rw [tokensOf_of_getElem? hv] at hzero
        rw [Option.map_some, Word.val_eq_zero.mp hzero]
  · rfl

/-- What a successful loop over the pairs of a claim did. -/
structure Settles (env : Env) (F : Pubkey) (pairs : List (Address × Address))
    (l l' : Ledger Address Pubkey) (t t' : Harvested) : Prop where
  own : ∀ pair ∈ pairs, ∃ m, pair.1 = .harvestVault F m
  transfers : (payouts t pairs).foldlM (pay env F) l = .ok l'
  tokens : ∀ k : Pubkey, t'[k]? = if Listed F pairs k then t[k]?.map (fun _ => 0) else t[k]?

/-- The map after a claim. -/
theorem Settles.tokensOf (h : Settles env F pairs l l' t t') :
    tokensOf t' k = if Listed F pairs k then 0 else tokensOf t k := by
  have hk := h.tokens k
  by_cases hlisted : Listed F pairs k
  · rw [if_pos hlisted] at hk ⊢
    cases hv : t[k]? with
    | none => exact tokensOf_of_none (hk.trans (by rw [hv]; rfl))
    | some n => exact tokensOf_of_getElem? (n := 0) (hk.trans (by rw [hv]; rfl))
  · rw [if_neg hlisted] at hk ⊢
    unfold Farming.tokensOf
    rw [Std.TreeMap.getD_eq_getD_getElem?, Std.TreeMap.getD_eq_getD_getElem?, hk]

theorem Settles.contains (h : Settles env F pairs l l' t t') : t'.contains k = t.contains k := by
  rw [Std.TreeMap.contains_eq_isSome_getElem?, Std.TreeMap.contains_eq_isSome_getElem?, h.tokens]
  split
  · exact Option.isSome_map
  · rfl

/-- **The loop**: a successful claim made exactly the payouts, one after the
other, and zeroed the mints that are listed. -/
theorem claimPairs_settle (h : pairs.foldlM (claimPair env F) (l, t) = .ok (l', t')) :
    Settles env F pairs l l' t t' := by
  induction pairs generalizing l t with
  | nil =>
      rw [List.foldlM_nil, pure_eq_ok, Prod.mk.injEq] at h
      obtain ⟨rfl, rfl⟩ := h
      exact ⟨fun _ h => absurd h List.not_mem_nil, rfl, fun _ => (if_neg List.not_mem_nil).symm⟩
  | cons pair pairs ih =>
      obtain ⟨vault, wallet⟩ := pair
      rw [List.foldlM_cons, bind_eq_ok] at h
      obtain ⟨⟨l₁, t₁⟩, hpair, h⟩ := h
      obtain ⟨hown, htransfers, htokens⟩ := ih h
      obtain ⟨m, rfl, hpair⟩ := claimPair_cases hpair
      have hhead : ∀ k, t₁[k]? = if k = m then t[k]?.map (fun _ => 0) else t[k]? := by
        intro k
        rcases hpair with ⟨n, hn, -, rfl⟩ | ⟨hn, -, rfl⟩
        · exact getElem?_insert_zero hn
        · exact getElem?_eq_zeroed hn
      refine ⟨List.forall_mem_cons.mpr ⟨⟨m, rfl⟩, hown⟩, ?_, fun k => ?_⟩
      · rw [payouts]
        rcases hpair with ⟨n, hn, hpay, rfl⟩ | ⟨hn, rfl, rfl⟩
        · rw [hn, List.foldlM_cons]
          exact bind_eq_ok.mpr ⟨l₁, hpay, htransfers⟩
        · rw [hn]
          exact htransfers
      · rw [htokens, hhead]
        by_cases hk : k = m
        · subst hk
          rw [if_pos rfl, if_pos (listed_cons.mpr (.inl rfl)), Option.map_map]
          exact ite_self _
        · have hlisted : Listed F ((.harvestVault F m, wallet) :: pairs) k ↔ Listed F pairs k :=
            listed_cons.trans (or_iff_right (fun he => hk (by cases he; rfl)))
          simp only [hlisted, if_neg hk]

end SolanaAmm.Farming
