import SolanaAmm.Lib.Lists

/-!
# Slots — arrays of keyed slots

An array of slots is a map of a fixed size: a slot is free, which a key of
its own says, or holds the one entry of its key. Reading the array by its
keys is sound as long as no two occupied slots share one (`Distinct`).
Writing a slot keeps that when the key is written over, given up or new.
-/

namespace SolanaAmm.Slots

variable {α β κ : Type} {key : α → κ} {free : κ} {l l₁ l₂ r : List α} {a b : α} {n : ℕ}

/-- Two slots with one key are free. -/
def Distinct (key : α → κ) (free : κ) (l : List α) : Prop :=
  l.Pairwise (fun a b => key a = key b → key a = free)

theorem Distinct.of_free (h : ∀ a ∈ l, key a = free) : Distinct key free l :=
  List.pairwise_of_forall_mem_list (fun a ha _ _ _ => h a ha)

theorem Distinct.of_nodup (h : (l.map key).Nodup) : Distinct key free l :=
  (List.pairwise_map.mp h).imp (fun hne he => absurd he hne)

theorem distinct_map {f : β → α} {l : List β} :
    Distinct key free (l.map f) ↔ Distinct (fun b => key (f b)) free l :=
  List.pairwise_map

/-- Free slots may follow. -/
theorem Distinct.append_free (h : Distinct key free l) (hr : ∀ b ∈ r, key b = free) :
    Distinct key free (l ++ r) :=
  List.pairwise_append.mpr
    ⟨h, Distinct.of_free hr, fun _ _ b hb he => he.trans (hr b hb)⟩

/-- **One write**: the slot keeps its key, is given up or takes a new key. -/
theorem Distinct.write (h : Distinct key free (l₁ ++ a :: l₂))
    (hb : key b = key a ∨ key b = free ∨ ∀ c ∈ l₁ ++ a :: l₂, key c ≠ key b) :
    Distinct key free (l₁ ++ b :: l₂) := by
  obtain ⟨hbefore, hcons, hcross⟩ := List.pairwise_append.mp h
  obtain ⟨hafter, hrest⟩ := List.pairwise_cons.mp hcons
  refine List.pairwise_append.mpr ⟨hbefore, List.pairwise_cons.mpr ⟨fun c hc he => ?_, hrest⟩,
    fun c hc d hd he => ?_⟩
  · rcases hb with hb | hb | hb
    · exact hb.trans (hafter c hc (hb.symm.trans he))
    · exact hb
    · exact absurd he.symm (hb c (List.mem_append_right _ (List.mem_cons_of_mem _ hc)))
  · rcases List.mem_cons.mp hd with rfl | hd
    · rcases hb with hb | hb | hb
      · exact hcross c hc a List.mem_cons_self (he.trans hb)
      · exact he.trans hb
      · exact absurd he (hb c (List.mem_append_left _ hc))
    · exact hcross c hc d (List.mem_cons_of_mem _ hd) he

/-- The same for a write to the first slot that is found. -/
theorem Distinct.setFirst {p : α → Bool} (h : Distinct key free l) (hfind : l.find? p = some a)
    (hb : key b = key a ∨ key b = free ∨ ∀ c ∈ l, key c ≠ key b) :
    Distinct key free (Lists.setFirst p b l) := by
  obtain ⟨-, l₁, l₂, rfl, hset⟩ := Lists.setFirst_of_find? hfind
  rw [hset]
  exact h.write hb

/-- No other slot has the key of an occupied one. -/
theorem Distinct.key_ne (h : Distinct key free (l₁ ++ a :: l₂)) (ha : key a ≠ free) :
    ∀ c ∈ l₁ ++ l₂, key c ≠ key a := by
  obtain ⟨-, hcons, hcross⟩ := List.pairwise_append.mp h
  intro c hc he
  rcases List.mem_append.mp hc with hc | hc
  · exact ha (he.symm.trans (hcross c hc a List.mem_cons_self he))
  · exact ha ((List.pairwise_cons.mp hcons).1 c hc he.symm)

/-! ## Reading by key -/

/-- An occupied slot is the only one with its key. -/
theorem Distinct.filter_eq [DecidableEq κ] (h : Distinct key free l) (ha : a ∈ l)
    (hk : key a ≠ free) : l.filter (fun b => key b = key a) = [a] := by
  induction l with
  | nil => cases ha
  | cons c l ih =>
      obtain ⟨hc, hl⟩ := List.pairwise_cons.mp h
      rcases List.mem_cons.mp ha with rfl | ha
      · have hnil : l.filter (fun b => key b = key a) = [] := by
          rw [List.filter_eq_nil_iff]
          intro b hb
          rw [decide_eq_true_eq]
          exact fun he => hk (hc b hb he.symm)
        rw [List.filter_cons_of_pos (by simp), hnil]
      · have hne : key c ≠ key a := fun he => hk (he.symm.trans (hc a ha he))
        rw [List.filter_cons_of_neg (by simpa using hne), ih hl ha]

theorem Distinct.count_eq_one [DecidableEq κ] (h : Distinct key free l) (ha : a ∈ l)
    (hk : key a ≠ free) : l.countP (fun b => key b = key a) = 1 := by
  rw [List.countP_eq_length_filter, h.filter_eq ha hk]
  rfl

theorem Distinct.eq_of_key [DecidableEq κ] (h : Distinct key free l) (ha : a ∈ l) (hb : b ∈ l)
    (hk : key b ≠ free) (he : key a = key b) : a = b := by
  have hmem : a ∈ l.filter (fun c => key c = key b) :=
    List.mem_filter.mpr ⟨ha, decide_eq_true he⟩
  rw [h.filter_eq hb hk] at hmem
  exact List.mem_singleton.mp hmem

/-- A sum over the slots with one key has one term. -/
theorem Distinct.sum_filter [DecidableEq κ] (h : Distinct key free l) (ha : a ∈ l)
    (hk : key a ≠ free) (g : α → ℕ) :
    ((l.filter (fun b => key b = key a)).map g).sum = g a := by
  rw [h.filter_eq ha hk]
  exact List.sum_singleton

end SolanaAmm.Slots
