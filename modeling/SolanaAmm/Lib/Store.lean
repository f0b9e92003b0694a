import Mathlib.Data.List.AList
import Mathlib.Algebra.BigOperators.Group.Finset.Basic
import Mathlib.Algebra.Order.BigOperators.Group.Finset
import Mathlib.Algebra.Order.BigOperators.Group.List
import Mathlib.Algebra.Order.Ring.Nat
import Mathlib.Tactic.Common

/-!
# Store — finite maps with totals

A store maps keys to values, one value a key. `total g` sums a quantity
over all entries; writing one key changes the total by the difference at
that key (`total_insert`), which is how a sum over all accounts follows
an operation on one of them.
-/

namespace SolanaAmm

abbrev Store (κ α : Type) := AList (fun _ : κ => α)

namespace Store

variable {κ α : Type}

def total (g : κ → α → ℕ) (s : Store κ α) : ℕ :=
  (s.entries.map (fun e => g e.1 e.2)).sum

/-- Rounding down every term loses no less than rounding down the total. -/
theorem total_mul_div_le (g : κ → α → ℕ) (s : Store κ α) (a d : ℕ) :
    total (fun k v => g k v * a / d) s ≤ total g s * a / d := by
  unfold total
  induction s.entries with
  | nil => exact Nat.zero_le _
  | cons e l ih =>
      simp only [List.map_cons, List.sum_cons, Nat.add_mul]
      exact (Nat.add_le_add_left ih _).trans Nat.div_add_div_le_add_div

variable [DecidableEq κ] {g : κ → α → ℕ} {s : Store κ α} {k : κ} {v w : α}

/-- Taking an entry out takes its share out of the total. -/
theorem total_erase (h : s.lookup k = some v) :
    total g s = g k v + total g (s.erase k) := by
  have hk : k ∈ s.entries.keys := by
    rw [← AList.keys, ← AList.mem_keys, ← AList.lookup_isSome, h]
    rfl
  obtain ⟨b, l₁, l₂, -, hl, herase⟩ := List.exists_of_kerase hk
  have hb : v = b := by
    have hmem : (⟨k, b⟩ : Sigma fun _ : κ => α) ∈ s.entries := by simp [hl]
    have hb := (List.mem_dlookup_iff s.nodupKeys).mpr hmem
    exact Option.some.inj (h.symm.trans hb)
  have hs : (s.erase k).entries = l₁ ++ l₂ := herase
  rw [total, total, hl, hs, hb]
  simp only [List.map_append, List.map_cons, List.sum_append, List.sum_cons]
  omega

theorem total_insert_erase : total g (s.insert k v) = g k v + total g (s.erase k) := by
  rw [total, AList.entries_insert]
  rfl

/-- Rewriting an entry. -/
theorem total_insert (h : s.lookup k = some v) :
    total g (s.insert k w) + g k v = total g s + g k w := by
  rw [total_insert_erase, total_erase h]
  omega

/-- Adding an entry. -/
theorem total_insert_new (h : s.lookup k = none) :
    total g (s.insert k w) = total g s + g k w := by
  have hk : k ∉ s := AList.lookup_eq_none.mp h
  rw [total, AList.entries_insert_of_notMem hk, List.map_cons, List.sum_cons]
  exact Nat.add_comm _ _

theorem le_total (h : s.lookup k = some v) : g k v ≤ total g s := by
  rw [total_erase h]
  omega

/-- Two quantities that agree on every entry have the same total. -/
theorem total_congr {f : κ → α → ℕ} (h : ∀ k v, s.lookup k = some v → f k v = g k v) :
    total f s = total g s := by
  unfold total
  congr 1
  refine List.map_congr_left ?_
  rintro ⟨k, v⟩ hmem
  exact h k v ((List.mem_dlookup_iff s.nodupKeys).mpr hmem)

/-- The total, key by key. -/
theorem total_eq_sum (ks : Finset κ) (h : ∀ k, k ∈ s → k ∈ ks) :
    total g s = ∑ k ∈ ks, (s.lookup k).elim 0 (g k) := by
  have hkeys : total g s = ∑ k ∈ s.keys.toFinset, (s.lookup k).elim 0 (g k) := by
    rw [List.sum_toFinset _ s.keys_nodup, total, AList.keys, List.keys, List.map_map]
    congr 1
    refine List.map_congr_left ?_
    rintro ⟨k, v⟩ hmem
    have hk : s.lookup k = some v := (List.mem_dlookup_iff s.nodupKeys).mpr hmem
    rw [Function.comp_apply, hk]
    rfl
  rw [hkeys]
  refine Finset.sum_subset (fun k hk => h k (List.mem_toFinset.mp hk)) (fun k _ hk => ?_)
  have hnone : s.lookup k = none :=
    AList.lookup_eq_none.mpr (fun hmem => hk (List.mem_toFinset.mpr hmem))
  rw [hnone]
  rfl

/-- What does not grow at any key does not grow in total. -/
theorem total_le_of_lookup {f : κ → α → ℕ} {t : Store κ α}
    (h : ∀ k, (t.lookup k).elim 0 (f k) ≤ (s.lookup k).elim 0 (g k)) :
    total f t ≤ total g s := by
  rw [total_eq_sum (s := t) (t.keys.toFinset ∪ s.keys.toFinset)
      (fun k hk => Finset.mem_union_left _ (List.mem_toFinset.mpr hk)),
    total_eq_sum (s := s) (t.keys.toFinset ∪ s.keys.toFinset)
      (fun k hk => Finset.mem_union_right _ (List.mem_toFinset.mpr hk))]
  exact Finset.sum_le_sum (fun k _ => h k)

/-- What a lookup finds after a write. -/
theorem lookup_insert_cases {k' : κ} (h : (s.insert k w).lookup k' = some v) :
    k' = k ∧ v = w ∨ k' ≠ k ∧ s.lookup k' = some v := by
  by_cases hk : k' = k
  · subst hk
    rw [AList.lookup_insert] at h
    exact .inl ⟨rfl, (Option.some.inj h).symm⟩
  · rw [AList.lookup_insert_ne hk] at h
    exact .inr ⟨hk, h⟩

/-- What holds of every value holds of all after a write. -/
theorem forall_insert {P : κ → α → Prop} (hs : ∀ k v, s.lookup k = some v → P k v)
    (hw : P k w) : ∀ k' v, (s.insert k w).lookup k' = some v → P k' v := by
  intro k' v h
  rcases lookup_insert_cases h with ⟨rfl, rfl⟩ | ⟨-, h⟩
  · exact hw
  · exact hs k' v h

/-- What is left after an erasure was there before. -/
theorem lookup_of_erase {k' : κ} (h : (s.erase k).lookup k' = some v) :
    s.lookup k' = some v := by
  by_cases hk : k' = k
  · subst hk
    rw [AList.lookup_erase] at h
    cases h
  · rwa [AList.lookup_erase_ne hk] at h

/-! ## Updating entries one by one -/

/-- An update may apply to an entry or not; once applied, it changes nothing
when it is applied again. -/
def Idempotent (u : κ → α → Option α) : Prop :=
  ∀ k a a', u k a = some a' → u k a' = some a'

/-- The entry after an attempt to update it. -/
def attempt (u : κ → α → Option α) (k : κ) (a : α) : α := (u k a).getD a

/-- Attempt to update the entry of one key. -/
def touch (u : κ → α → Option α) (s : Store κ α) (k : κ) : Store κ α :=
  match (s.lookup k).bind (u k) with
  | some a => s.insert k a
  | none => s

section Touch

variable {u : κ → α → Option α} {k' : κ} {ks ks' : List κ}

omit [DecidableEq κ] in
theorem Idempotent.attempt_attempt (hu : Idempotent u) {a : α} :
    attempt u k (attempt u k a) = attempt u k a := by
  unfold attempt
  cases ha : u k a with
  | none => rw [Option.getD_none, ha, Option.getD_none]
  | some a' => rw [Option.getD_some, hu k a a' ha, Option.getD_some]

theorem lookup_touch :
    (touch u s k).lookup k' = if k' = k then (s.lookup k').map (attempt u k') else s.lookup k' := by
  unfold touch attempt
  by_cases hk : k' = k
  · subst hk
    rw [if_pos rfl]
    cases hs : s.lookup k' with
    | none => exact hs
    | some a =>
        rw [Option.bind_some, Option.map_some]
        cases ha : u k' a with
        | none => exact hs
        | some a' => exact AList.lookup_insert _
  · rw [if_neg hk]
    split
    · exact AList.lookup_insert_ne hk
    · rfl

/-- **A batch of updates** does at each key what one update does, whatever
their order and however often a key is named. -/
theorem lookup_foldl_touch (hu : Idempotent u) :
    (k ∈ ks → (ks.foldl (touch u) s).lookup k = (s.lookup k).map (attempt u k))
    ∧ (k ∉ ks → (ks.foldl (touch u) s).lookup k = s.lookup k) := by
  induction ks generalizing s with
  | nil => exact ⟨fun h => absurd h List.not_mem_nil, fun _ => rfl⟩
  | cons k₁ ks ih =>
      obtain ⟨hmem, hother⟩ := ih (s := touch u s k₁)
      rw [lookup_touch] at hmem hother
      rw [List.foldl_cons, List.mem_cons]
      by_cases hk : k = k₁
      · subst hk
        rw [if_pos rfl] at hmem hother
        refine ⟨fun _ => ?_, fun hnot => absurd (.inl rfl) hnot⟩
        by_cases hks : k ∈ ks
        · rw [hmem hks, Option.map_map]
          exact congrArg (fun g => (s.lookup k).map g) (funext (fun _ => hu.attempt_attempt))
        · exact hother hks
      · rw [if_neg hk] at hmem hother
        exact ⟨fun h => hmem (h.resolve_left hk), fun hnot => hother (fun h => hnot (.inr h))⟩

/-- Touching one key again and again is touching it once, or nothing. -/
theorem foldl_touch_same (hu : Idempotent u) (hks : ∀ k' ∈ ks, k' = k) :
    ks.foldl (touch u) s = s ∨ ∃ a a', s.lookup k = some a ∧ u k a = some a'
      ∧ ks.foldl (touch u) s = s.insert k a' := by
  induction ks generalizing s with
  | nil => exact .inl rfl
  | cons k₁ ks ih =>
      obtain rfl : k₁ = k := hks k₁ List.mem_cons_self
      have hrest := fun s => ih (s := s) (fun k' h => hks k' (List.mem_cons_of_mem _ h))
      rw [List.foldl_cons]
      cases ht : (s.lookup k₁).bind (u k₁) with
      | none =>
          have hsame : touch u s k₁ = s := by
            unfold touch
            rw [ht]
          rw [hsame]
          exact hrest s
      | some a' =>
          obtain ⟨a, ha, hua⟩ := Option.bind_eq_some_iff.mp ht
          have hinsert : touch u s k₁ = s.insert k₁ a' := by
            unfold touch
            rw [ht]
          rw [hinsert]
          refine .inr ⟨a, a', ha, hua, ?_⟩
          rcases hrest (s.insert k₁ a') with hsame | ⟨b, b', hb, hub, hsame⟩
          · exact hsame
          · rw [AList.lookup_insert] at hb
            cases hb
            rw [hu k₁ a a' hua] at hub
            cases hub
            rw [hsame, AList.insert_insert]

end Touch

end Store

end SolanaAmm
