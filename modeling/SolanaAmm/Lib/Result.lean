import Mathlib.Logic.Basic
import Mathlib.Data.List.Forall2
import Mathlib.Tactic.Common

/-!
# Result — early returns and what a successful run tells

The vocabulary of fallible straight-line code over `Except ε`: a guard
that returns early (`ensure`), an option turned into an error (`okOr`),
and the inversion facts that peel a successful computation apart one
step at a time. Nothing here names a program.
-/

namespace SolanaAmm.Result

variable {ε α β γ : Type}

/-- Return early with `e` unless `c` holds. -/
def ensure (c : Prop) [Decidable c] (e : ε) : Except ε Unit :=
  if c then .ok () else .error e

/-- The value of an option, or the error `e`. -/
def okOr (o : Option α) (e : ε) : Except ε α :=
  match o with
  | some a => .ok a
  | none => .error e

@[simp] theorem ensure_eq_ok {c : Prop} [Decidable c] {e : ε} {u : Unit} :
    ensure c e = .ok u ↔ c := by
  by_cases h : c <;> simp [ensure, h]

@[simp] theorem okOr_eq_ok {o : Option α} {e : ε} {a : α} :
    okOr o e = .ok a ↔ o = some a := by
  cases o <;> simp [okOr]

@[simp] theorem bind_eq_ok {x : Except ε α} {f : α → Except ε β} {b : β} :
    x >>= f = .ok b ↔ ∃ a, x = .ok a ∧ f a = .ok b := by
  cases x <;> simp [Bind.bind, Except.bind]

@[simp] theorem pure_eq_ok {a b : α} :
    (pure a : Except ε α) = .ok b ↔ a = b := by
  simp [pure, Except.pure]

@[simp] theorem ok_bind {a : α} {f : α → Except ε β} :
    (Except.ok a >>= f) = f a := rfl

@[simp] theorem error_bind {e : ε} {f : α → Except ε β} :
    (Except.error e >>= f) = .error e := rfl

theorem guard_eq_some {c : Prop} [Decidable c] {u : Unit} :
    (guard c : Option Unit) = some u ↔ c := by
  by_cases h : c <;> simp [guard, h]

/-- A successful traversal succeeded at every element. -/
theorem mapM_eq_ok {f : α → Except ε β} {l : List α} {r : List β} :
    l.mapM f = .ok r ↔ List.Forall₂ (fun a b => f a = .ok b) l r := by
  induction l generalizing r with
  | nil =>
      rw [List.mapM_nil, pure_eq_ok, List.forall₂_nil_left_iff]
      exact eq_comm
  | cons a l ih =>
      simp only [List.mapM_cons, bind_eq_ok, pure_eq_ok, ih]
      constructor
      · rintro ⟨b, hb, r', hr, rfl⟩
        exact .cons hb hr
      · rintro (_ | ⟨hb, hr⟩)
        exact ⟨_, hb, _, hr, rfl⟩

/-- A traversal that can succeed at every element succeeds. -/
theorem mapM_exists_ok {f : α → Except ε β} {l : List α} (h : ∀ a ∈ l, ∃ b, f a = .ok b) :
    ∃ r, l.mapM f = .ok r := by
  induction l with
  | nil => exact ⟨[], rfl⟩
  | cons a l ih =>
      obtain ⟨b, hb⟩ := h a List.mem_cons_self
      obtain ⟨r, hr⟩ := ih (fun a ha => h a (List.mem_cons_of_mem _ ha))
      exact ⟨b :: r, by rw [List.mapM_cons, hb, hr]; rfl⟩

/-- **The loop rule**: what holds at entry and survives every iteration
holds of the accumulator a fallible fold returns. -/
theorem foldlM_invariant {f : β → α → Except ε β} {P : List α → β → Prop}
    (hstep : ∀ done a b b', P done b → f b a = .ok b' → P (done ++ [a]) b') :
    ∀ (l done : List α) (b b' : β), P done b → l.foldlM f b = .ok b' →
      P (done ++ l) b' := by
  intro l
  induction l with
  | nil =>
      intro done b b' hP h
      simp only [List.foldlM_nil, pure_eq_ok] at h
      simpa [← h] using hP
  | cons a l ih =>
      intro done b b' hP h
      simp only [List.foldlM_cons, bind_eq_ok] at h
      obtain ⟨b1, h1, h2⟩ := h
      simpa using ih (done ++ [a]) b1 b' (hstep done a b b1 hP h1) h2

end SolanaAmm.Result
