import Mathlib.Order.Basic
import Mathlib.Order.Nat
import Mathlib.Order.MinMax
import Mathlib.Algebra.Order.Ring.Nat
import Mathlib.Tactic.Common

/-!
# Word — unsigned machine words with checked arithmetic

A `Word bits` is a natural number below `2 ^ bits`; the bound is a field,
so an out-of-range word cannot be built. All arithmetic goes through
`ofNat?`, which is `none` exactly when the result does not fit: this is
what `checked_add` and friends return, and what a build with overflow
checks aborts on.
-/

namespace SolanaAmm

/-- An unsigned machine word of the given width. -/
structure Word (bits : ℕ) where
  val : ℕ
  isLt : val < 2 ^ bits
deriving DecidableEq

/-- The 64-bit words. -/
abbrev U64 := Word 64

namespace Word

variable {bits : ℕ}

@[ext] theorem ext {a b : Word bits} (h : a.val = b.val) : a = b := by
  cases a; cases b; cases h; rfl

theorem val_injective : Function.Injective (val : Word bits → ℕ) :=
  fun _ _ => ext

instance : LinearOrder (Word bits) := LinearOrder.lift' val val_injective

/-- The low bits of `n`, which is what a cast to the width keeps. -/
def wrap (n : ℕ) : Word bits := ⟨n % 2 ^ bits, Nat.mod_lt _ (Nat.two_pow_pos bits)⟩

instance (n : ℕ) : OfNat (Word bits) n := ⟨wrap n⟩

theorem wrap_val {n : ℕ} (h : n < 2 ^ bits) : (wrap n : Word bits).val = n :=
  Nat.mod_eq_of_lt h

instance : Inhabited (Word bits) := ⟨0⟩

theorem le_def {a b : Word bits} : a ≤ b ↔ a.val ≤ b.val := Iff.rfl

theorem lt_def {a b : Word bits} : a < b ↔ a.val < b.val := Iff.rfl

theorem val_mono : Monotone (val : Word bits → ℕ) := fun _ _ => le_def.mp

theorem val_min (a b : Word bits) : (min a b).val = min a.val b.val := val_mono.map_min

theorem val_max (a b : Word bits) : (max a b).val = max a.val b.val := val_mono.map_max

@[simp] theorem val_zero : (0 : Word bits).val = 0 := Nat.zero_mod _

theorem val_eq_zero {a : Word bits} : a.val = 0 ↔ a = 0 :=
  ⟨fun h => ext (by simpa using h), fun h => by simp [h]⟩

/-- The word with value `n`, if `n` fits. -/
def ofNat? (n : ℕ) : Option (Word bits) :=
  if h : n < 2 ^ bits then some ⟨n, h⟩ else none

@[simp] theorem ofNat?_eq_some {n : ℕ} {a : Word bits} :
    ofNat? n = some a ↔ a.val = n := by
  unfold ofNat?
  split
  · rename_i h
    constructor
    · rintro ⟨⟩; rfl
    · rintro rfl; rfl
  · rename_i h
    constructor
    · intro hn; cases hn
    · rintro rfl; exact absurd a.isLt h

/-- The largest word of the width. -/
def maxValue : Word bits := ⟨2 ^ bits - 1, by
  have := Nat.two_pow_pos bits; omega⟩

def checkedAdd (a b : Word bits) : Option (Word bits) := ofNat? (a.val + b.val)

def checkedMul (a b : Word bits) : Option (Word bits) := ofNat? (a.val * b.val)

def checkedSub (a b : Word bits) : Option (Word bits) :=
  if b.val ≤ a.val then ofNat? (a.val - b.val) else none

@[simp] theorem checkedAdd_eq_some {a b c : Word bits} :
    a.checkedAdd b = some c ↔ c.val = a.val + b.val := by
  simp [checkedAdd]

@[simp] theorem checkedMul_eq_some {a b c : Word bits} :
    a.checkedMul b = some c ↔ c.val = a.val * b.val := by
  simp [checkedMul]

@[simp] theorem checkedSub_eq_some {a b c : Word bits} :
    a.checkedSub b = some c ↔ b.val ≤ a.val ∧ c.val = a.val - b.val := by
  unfold checkedSub
  split <;> simp [*]

theorem checkedAdd_isSome {a b : Word bits} (h : a.val + b.val < 2 ^ bits) :
    ∃ c, a.checkedAdd b = some c :=
  ⟨⟨_, h⟩, checkedAdd_eq_some.mpr rfl⟩

theorem checkedSub_isSome {a b : Word bits} (h : b.val ≤ a.val) :
    ∃ c, a.checkedSub b = some c :=
  ⟨⟨_, (Nat.sub_le _ _).trans_lt a.isLt⟩, checkedSub_eq_some.mpr ⟨h, rfl⟩⟩

end Word

end SolanaAmm
