import SolanaAmm.Lib.Result
import Mathlib.Data.List.Basic
import Mathlib.Data.List.Nodup
import Mathlib.Data.List.TakeWhile
import Mathlib.Algebra.BigOperators.Group.List.Basic
import Mathlib.Algebra.Order.BigOperators.GroupWithZero.List
import Mathlib.Algebra.Order.Ring.Nat

/-!
# Lists — element-wise relations and in-place updates

A few facts about lists related element by element, and `updateFirst`,
which is `iter_mut().find(p)` followed by a fallible write through the
reference it returns. The inversion lemma says everything it can do.
-/

namespace SolanaAmm.Lists

open Result

variable {ε α β γ : Type}

/-! ## Related element by element -/

theorem forall₂_exists_right {R : α → β → Prop} {l : List α} {l' : List β} {a : α}
    (h : List.Forall₂ R l l') (ha : a ∈ l) : ∃ b ∈ l', R a b := by
  induction h with
  | nil => cases ha
  | cons hr _ ih =>
      rcases List.mem_cons.mp ha with rfl | ha
      · exact ⟨_, List.mem_cons_self, hr⟩
      · obtain ⟨b, hb, hab⟩ := ih ha
        exact ⟨b, List.mem_cons_of_mem _ hb, hab⟩

theorem forall₂_map_eq {R : α → β → Prop} {f : α → γ} {g : β → γ}
    (hR : ∀ a b, R a b → f a = g b) {l : List α} {l' : List β}
    (h : List.Forall₂ R l l') : l.map f = l'.map g := by
  induction h with
  | nil => rfl
  | cons hr _ ih => rw [List.map_cons, List.map_cons, ih, hR _ _ hr]

theorem forall₂_trans {R : α → β → Prop} {S : β → γ → Prop} {T : α → γ → Prop}
    (hT : ∀ a b c, R a b → S b c → T a c) {l₁ : List α} {l₂ : List β} {l₃ : List γ}
    (h : List.Forall₂ R l₁ l₂) (h' : List.Forall₂ S l₂ l₃) : List.Forall₂ T l₁ l₃ := by
  induction h generalizing l₃ with
  | nil => cases h'; exact .nil
  | cons hr _ ih =>
      cases h' with
      | cons hs h' => exact .cons (hT _ _ _ hr hs) (ih h')

theorem forall₂_mono_of_mem {R S : α → β → Prop} {l : List α} {l' : List β}
    (hRS : ∀ a ∈ l, ∀ b, R a b → S a b) (h : List.Forall₂ R l l') :
    List.Forall₂ S l l' := by
  induction h with
  | nil => exact .nil
  | cons hr _ ih =>
      exact .cons (hRS _ List.mem_cons_self _ hr)
        (ih (fun a ha => hRS a (List.mem_cons_of_mem _ ha)))

/-! ## The first elements -/

/-- The first element that is dropped ends the part that is taken. -/
theorem takeWhile_append {p : α → Bool} {l l' : List α} (hl : ∀ a ∈ l, p a = true)
    (hl' : ∀ a ∈ l'.head?, p a = false) : (l ++ l').takeWhile p = l := by
  rw [List.takeWhile_append_of_pos hl]
  cases l' with
  | nil => exact List.append_nil l
  | cons a l' =>
      have ha : ¬ p a = true := by
        rw [hl' a rfl]
        exact Bool.false_ne_true
      rw [List.takeWhile_cons_of_neg ha, List.append_nil]

theorem exists_takeWhile (p : α → Bool) (l : List α) :
    ∃ r, l = l.takeWhile p ++ r ∧ (∀ a ∈ l.takeWhile p, p a = true)
      ∧ ∀ a ∈ r.head?, p a = false := by
  refine ⟨l.dropWhile p, List.takeWhile_append_dropWhile.symm,
    fun a ha => List.mem_takeWhile_imp ha, fun a ha => ?_⟩
  have hhead := List.head?_dropWhile_not p l
  rw [Option.mem_def.mp ha] at hhead
  exact hhead

/-! ## Distinct keys -/

/-- With distinct keys, one element has the key of `a`. -/
theorem filter_key_eq {κ : Type} [DecidableEq κ] {key : α → κ} {l : List α} {a : α}
    (hl : (l.map key).Nodup) (ha : a ∈ l) : l.filter (fun b => key b = key a) = [a] := by
  induction l with
  | nil => cases ha
  | cons b l ih =>
      rw [List.map_cons, List.nodup_cons] at hl
      rcases List.mem_cons.mp ha with rfl | ha
      · have hnil : l.filter (fun c => key c = key a) = [] := by
          rw [List.filter_eq_nil_iff]
          intro c hc
          rw [decide_eq_true_eq]
          intro he
          exact hl.1 (he ▸ List.mem_map_of_mem hc)
        rw [List.filter_cons_of_pos (by simp), hnil]
      · have hne : key b ≠ key a := fun h => hl.1 (h ▸ List.mem_map_of_mem ha)
        rw [List.filter_cons_of_neg (by simpa using hne), ih hl.2 ha]

/-- With distinct keys, a sum over the elements with the key of `a` has one
term. -/
theorem sum_map_ite_key {κ : Type} [DecidableEq κ] {key : α → κ} {g : α → ℕ} {l : List α}
    {a : α} (hl : (l.map key).Nodup) (ha : a ∈ l) :
    (l.map (fun b => if key a = key b then g b else 0)).sum = g a := by
  induction l with
  | nil => cases ha
  | cons b l ih =>
      rw [List.map_cons, List.nodup_cons] at hl
      rw [List.map_cons, List.sum_cons]
      rcases List.mem_cons.mp ha with rfl | ha
      · have hzero : (l.map (fun c => if key a = key c then g c else 0)).sum = 0 := by
          refine List.sum_eq_zero_iff_forall_eq_nat.mpr (fun n hn => ?_)
          obtain ⟨c, hc, rfl⟩ := List.mem_map.mp hn
          refine if_neg (fun he => hl.1 ?_)
          rw [he]
          exact List.mem_map_of_mem hc
        rw [if_pos rfl, hzero, Nat.add_zero]
      · have hne : key a ≠ key b := fun h => hl.1 (h ▸ List.mem_map_of_mem ha)
        rw [if_neg hne, Nat.zero_add, ih hl.2 ha]

/-- A sum of which at most the first element that satisfies `p` counts. -/
theorem sum_map_eq_find? {p : α → Bool} {g : α → ℕ} {l : List α}
    (hzero : ∀ a ∈ l, p a = false → g a = 0)
    (honce : l.Pairwise (fun a b => p a = true → g b = 0)) :
    (l.map g).sum = (l.find? p).elim 0 g := by
  induction l with
  | nil => rfl
  | cons a l ih =>
      obtain ⟨hrest, honce⟩ := List.pairwise_cons.mp honce
      rw [List.map_cons, List.sum_cons]
      cases ha : p a with
      | false =>
          rw [List.find?_cons_of_neg (by rw [ha]; exact Bool.false_ne_true),
            hzero a List.mem_cons_self ha, Nat.zero_add]
          exact ih (fun b hb => hzero b (List.mem_cons_of_mem _ hb)) honce
      | true =>
          have hnone : (l.map g).sum = 0 := by
            refine List.sum_eq_zero_iff_forall_eq_nat.mpr (fun n hn => ?_)
            obtain ⟨b, hb, rfl⟩ := List.mem_map.mp hn
            exact hrest b hb ha
          rw [List.find?_cons_of_pos ha, hnone, Nat.add_zero]
          rfl

/-- One element taken out of a sum over the elements that satisfy `p`. -/
theorem sum_filter_append_cons {p : α → Bool} {g : α → ℕ} {l₁ l₂ : List α} {a : α} :
    (((l₁ ++ a :: l₂).filter p).map g).sum
      = (((l₁ ++ l₂).filter p).map g).sum + if p a then g a else 0 := by
  rw [List.filter_append, List.filter_append, List.map_append, List.map_append, List.sum_append,
    List.sum_append]
  by_cases ha : p a = true
  · rw [List.filter_cons_of_pos ha, List.map_cons, List.sum_cons, if_pos ha]
    omega
  · rw [List.filter_cons_of_neg ha, if_neg ha, Nat.add_zero]

/-- With distinct keys, one element comes before all of other keys. -/
theorem perm_cons_filter_key {κ : Type} [DecidableEq κ] {key : α → κ} {l : List α} {a : α}
    (hl : (l.map key).Nodup) (ha : a ∈ l) :
    l.Perm (a :: l.filter (fun b => key b ≠ key a)) := by
  have hperm := List.filter_append_perm (fun b => decide (key b = key a)) l
  rw [filter_key_eq hl ha, List.singleton_append] at hperm
  simp only [← decide_not] at hperm
  exact hperm.symm

/-- All elements but one have other keys. -/
theorem length_filter_key {κ : Type} [DecidableEq κ] {key : α → κ} {l : List α} {a : α}
    (hl : (l.map key).Nodup) (ha : a ∈ l) :
    (l.filter (fun b => key b ≠ key a)).length + 1 = l.length :=
  (perm_cons_filter_key hl ha).length_eq.symm

/-! ## Products -/

/-- One factor taken out of a product over elements with distinct keys. -/
theorem prod_map_eq_mul_filter {κ : Type} [DecidableEq κ] {key : α → κ} {f : α → ℕ}
    {l : List α} {a : α} (hl : (l.map key).Nodup) (ha : a ∈ l) :
    (l.map f).prod = f a * ((l.filter (fun b => key b ≠ key a)).map f).prod := by
  rw [((perm_cons_filter_key hl ha).map f).prod_eq, List.map_cons, List.prod_cons]

theorem prod_map_le {f : α → ℕ} {g : β → ℕ} {l : List α} {l' : List β}
    (h : List.Forall₂ (fun a b => f a ≤ g b) l l') : (l.map f).prod ≤ (l'.map g).prod := by
  induction h with
  | nil => exact Nat.le_refl _
  | cons hab _ ih =>
      rw [List.map_cons, List.map_cons, List.prod_cons, List.prod_cons]
      exact Nat.mul_le_mul hab ih

/-- Positive factors that do not grow, with a product that does not fall,
stayed as they were. -/
theorem eq_of_le_of_prod_le {l l' : List ℕ} (h : List.Forall₂ (fun a b => b ≤ a) l l')
    (hpos : ∀ a ∈ l, 0 < a) (hprod : l.prod ≤ l'.prod) : l' = l := by
  induction h with
  | nil => rfl
  | @cons a b l l' hab h ih =>
      rw [List.prod_cons, List.prod_cons] at hprod
      have ha := hpos a List.mem_cons_self
      have hposl : ∀ c ∈ l, 0 < c := fun c hc => hpos c (List.mem_cons_of_mem _ hc)
      have hle : l'.prod ≤ l.prod := by
        simpa using prod_map_le (f := id) (g := id) h.flip
      have hb : b = a := by
        refine Nat.le_antisymm hab ?_
        exact Nat.le_of_mul_le_mul_right (hprod.trans (Nat.mul_le_mul_left _ hle))
          (List.prod_pos hposl)
      subst hb
      rw [ih hposl (Nat.le_of_mul_le_mul_left hprod ha)]

/-! ## updateFirst -/

/-- Replace the first element satisfying `p` by what `f` makes of it; the
error `missing` if there is none. -/
def updateFirst (p : α → Bool) (f : α → Except ε α) (missing : ε) :
    List α → Except ε (List α)
  | [] => .error missing
  | a :: l =>
      if p a then do
        let a' ← f a
        pure (a' :: l)
      else do
        let l' ← updateFirst p f missing l
        pure (a :: l')

/-- **Inversion**: a successful update rewrote exactly one element, the
first match. -/
theorem updateFirst_eq_ok {p : α → Bool} {f : α → Except ε α} {e : ε}
    {l l' : List α} :
    updateFirst p f e l = .ok l' ↔
      ∃ l₁ a l₂ a', l = l₁ ++ a :: l₂ ∧ (∀ b ∈ l₁, p b = false)
        ∧ p a = true ∧ f a = .ok a' ∧ l' = l₁ ++ a' :: l₂ := by
  induction l generalizing l' with
  | nil => simp [updateFirst]
  | cons b l ih =>
      unfold updateFirst
      by_cases hb : p b = true
      · simp only [hb, if_true, bind_eq_ok, pure_eq_ok]
        constructor
        · rintro ⟨a', ha, rfl⟩
          exact ⟨[], b, l, a', rfl, by simp, hb, ha, rfl⟩
        · rintro ⟨_ | ⟨c, l₁⟩, a, l₂, a', hl, hp, _, hf, rfl⟩
          · cases hl
            exact ⟨a', hf, rfl⟩
          · cases hl
            have hc := hp b (by simp)
            rw [hb] at hc
            cases hc
      · simp only [hb, Bool.false_eq_true, if_false, bind_eq_ok, pure_eq_ok, ih]
        constructor
        · rintro ⟨m, ⟨l₁, a, l₂, a', rfl, hp, ha, hf, rfl⟩, rfl⟩
          refine ⟨b :: l₁, a, l₂, a', rfl, ?_, ha, hf, rfl⟩
          intro c hc
          rcases List.mem_cons.mp hc with rfl | hc
          · simpa using hb
          · exact hp c hc
        · rintro ⟨_ | ⟨c, l₁⟩, a, l₂, a', hl, hp, ha, hf, rfl⟩
          · cases hl
            exact absurd ha hb
          · cases hl
            exact ⟨_, ⟨l₁, a, l₂, a', rfl, fun d hd => hp d (by simp [hd]),
              ha, hf, rfl⟩, rfl⟩

theorem updateFirst_length {p : α → Bool} {f : α → Except ε α} {e : ε}
    {l l' : List α} (h : updateFirst p f e l = .ok l') :
    l'.length = l.length := by
  obtain ⟨l₁, a, l₂, a', rfl, -, -, -, rfl⟩ := updateFirst_eq_ok.mp h
  simp

/-- **Another order**: with distinct keys the same element is updated. -/
theorem updateFirst_perm {κ : Type} [DecidableEq κ] {key : α → κ} {k : κ} {f : α → Except ε α}
    {e : ε} {l l' m : List α} (hl : (l.map key).Nodup) (hperm : l.Perm l')
    (h : updateFirst (fun a => key a = k) f e l = .ok m) :
    ∃ m', updateFirst (fun a => key a = k) f e l' = .ok m' ∧ m.Perm m' := by
  obtain ⟨l₁, a, l₂, a', rfl, -, ha, hf, rfl⟩ := updateFirst_eq_ok.mp h
  obtain ⟨m₁, m₂, rfl⟩ :=
    List.append_of_mem (hperm.subset (List.mem_append_right _ List.mem_cons_self))
  refine ⟨m₁ ++ a' :: m₂, updateFirst_eq_ok.mpr ⟨m₁, a, m₂, a', rfl, ?_, ha, hf, rfl⟩, ?_⟩
  · intro b hb
    have hnodup := (hperm.map key).nodup_iff.mp hl
    rw [List.map_append, List.map_cons, List.nodup_append] at hnodup
    have hne := hnodup.2.2 (key b) (List.mem_map_of_mem hb) (key a) List.mem_cons_self
    rw [decide_eq_true_eq] at ha
    rw [← ha]
    exact decide_eq_false hne
  · have hrest := (List.perm_middle.symm.trans (hperm.trans List.perm_middle)).cons_inv
    exact List.perm_middle.trans ((hrest.cons a').trans List.perm_middle.symm)

/-! ## Folds in another order -/

/-- A fallible fold whose steps commute gives the same in any order. -/
theorem foldlM_perm {f : β → α → Except ε β} {l l' : List α}
    (hcomm : ∀ b a a', (f b a >>= fun c => f c a') = (f b a' >>= fun c => f c a))
    (h : l.Perm l') (b : β) : l.foldlM f b = l'.foldlM f b := by
  induction h generalizing b with
  | nil => rfl
  | cons a _ ih =>
      rw [List.foldlM_cons, List.foldlM_cons]
      exact bind_congr (fun c => ih c)
  | swap a a' l =>
      simp only [List.foldlM_cons]
      rw [← bind_assoc, ← bind_assoc, hcomm]
  | trans _ _ ih ih' => rw [ih, ih']

/-! ## setFirst -/

/-- Write `b` over the first element satisfying `p`. -/
def setFirst (p : α → Bool) (b : α) : List α → List α
  | [] => []
  | a :: l => if p a then b :: l else a :: setFirst p b l

/-- The element found is the one written over. -/
theorem setFirst_of_find? {p : α → Bool} {l : List α} {a : α} (h : l.find? p = some a) :
    p a = true ∧ ∃ l₁ l₂, l = l₁ ++ a :: l₂ ∧ ∀ b, setFirst p b l = l₁ ++ b :: l₂ := by
  induction l with
  | nil => cases h
  | cons c l ih =>
      by_cases hc : p c = true
      · rw [List.find?_cons_of_pos hc, Option.some.injEq] at h
        subst h
        exact ⟨hc, [], l, rfl, fun b => by rw [setFirst, if_pos hc]; rfl⟩
      · rw [List.find?_cons_of_neg hc] at h
        obtain ⟨ha, l₁, l₂, rfl, hset⟩ := ih h
        exact ⟨ha, c :: l₁, l₂, rfl, fun b => by rw [setFirst, if_neg hc, hset]; rfl⟩

/-- Elements are looked up by their key. -/
theorem find?_setFirst {κ : Type} [DecidableEq κ] {key : α → κ} {k k' : κ} {a b : α}
    {l : List α} (h : l.find? (fun c => key c = k) = some a) (hb : key b = k) :
    (setFirst (fun c => key c = k) b l).find? (fun c => key c = k')
      = if k' = k then some b else l.find? (fun c => key c = k') := by
  induction l with
  | nil => cases h
  | cons c l ih =>
      by_cases hc : key c = k
      · rw [setFirst, if_pos (decide_eq_true hc)]
        by_cases hk : k' = k
        · rw [if_pos hk, List.find?_cons_of_pos (by simpa using hb.trans hk.symm)]
        · rw [if_neg hk, List.find?_cons_of_neg (by simpa [hb] using Ne.symm hk),
            List.find?_cons_of_neg (by simpa [hc] using Ne.symm hk)]
      · rw [List.find?_cons_of_neg (by simpa using hc)] at h
        rw [setFirst, if_neg (by simpa using hc)]
        by_cases hck : key c = k'
        · have hk : k' ≠ k := fun he => hc (hck.trans he)
          rw [if_neg hk, List.find?_cons_of_pos (by simpa using hck),
            List.find?_cons_of_pos (by simpa using hck)]
        · rw [List.find?_cons_of_neg (by simpa using hck),
            List.find?_cons_of_neg (by simpa using hck), ih h]

theorem length_setFirst {p : α → Bool} {b : α} {l : List α} :
    (setFirst p b l).length = l.length := by
  induction l with
  | nil => rfl
  | cons a l ih =>
      unfold setFirst
      split
      · rfl
      · rw [List.length_cons, ih, List.length_cons]

end SolanaAmm.Lists
