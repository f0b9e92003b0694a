import Mathlib.Tactic.GCongr
import Mathlib.Tactic.Linarith
import Mathlib.Tactic.Ring

/-!
# Exchange — what a constant product pays

`quote x y n` are the tokens that `n` tokens buy from a reserve of `y`, when
they are sold to a reserve of `x` and the product of the two must not fall.
It grows with what is sold and with the bought reserve and falls with the
sold one, so whoever trades first in one direction makes the price worse
for the next, and a trade in parts (`Sold`) buys no more than one at once.
-/

namespace SolanaAmm.Exchange

variable {x x' x'' y y' n n' a b r : ℕ}

/-- The tokens bought, rounded down. -/
def quote (x y n : ℕ) : ℕ := y * n / (x + n)

theorem quote_mul_le (x y n : ℕ) : quote x y n * (x + n) ≤ y * n :=
  Nat.div_mul_le_self _ _

/-- The quote by what is left of the bought reserve. -/
theorem sub_eq_quote {left : ℕ} (hle : left ≤ y) (hlow : y * x ≤ (x + n) * left)
    (hhigh : (x + n) * left < y * x + (x + n)) : y - left = quote x y n := by
  obtain ⟨q, rfl⟩ := Nat.exists_eq_add_of_le hle
  rw [Nat.add_sub_cancel_left]
  symm
  refine Nat.div_eq_of_lt_le ?_ ?_
  · nlinarith
  · nlinarith

/-- Reserves that are not traded are factors of both products. -/
theorem sub_eq_quote_of_mul {rest left : ℕ} (hrest : 0 < rest) (hle : left ≤ y)
    (hlow : y * x * rest ≤ (x + n) * rest * left)
    (hhigh : (x + n) * rest * left < y * x * rest + (x + n) * rest) :
    y - left = quote x y n := by
  rw [Nat.mul_right_comm (x + n)] at hlow hhigh
  refine sub_eq_quote hle (Nat.le_of_mul_le_mul_right hlow hrest) ?_
  rw [← Nat.add_mul] at hhigh
  exact Nat.lt_of_mul_lt_mul_right hhigh

theorem quote_le_quote (hx : x ≤ x') (hy : y' ≤ y) (hn : n' ≤ n) (hpos : 0 < x) :
    quote x' y' n' ≤ quote x y n := by
  refine (Nat.le_div_iff_mul_le (by omega)).mpr ?_
  refine Nat.le_of_mul_le_mul_right ?_ (show 0 < x' + n' by omega)
  have hquote := quote_mul_le x' y' n'
  calc quote x' y' n' * (x + n) * (x' + n') = quote x' y' n' * (x' + n') * (x + n) := by ring
    _ ≤ y' * n' * (x + n) := Nat.mul_le_mul_right _ hquote
    _ = y' * (n' * x + n' * n) := by ring
    _ ≤ y * (n * x' + n' * n) :=
        Nat.mul_le_mul hy (Nat.add_le_add_right (Nat.mul_le_mul hn hx) _)
    _ = y * n * (x' + n') := by ring

/-- `a` tokens were sold in parts, for what `y'` is below `y`. -/
structure Sold (x y a x' y' : ℕ) : Prop where
  sold : x + a ≤ x'
  left : y' ≤ y
  paid : (y - y') * (x + a) ≤ y * a

namespace Sold

theorem refl (x y : ℕ) : Sold x y 0 x y :=
  ⟨Nat.le_refl _, Nat.le_refl _, by rw [Nat.sub_self, Nat.zero_mul]; exact Nat.zero_le _⟩

/-- **One more part** at the price that the others left. -/
theorem step (h : Sold x y a x' y') (hr : r ≤ quote x' y' b) (hle : r ≤ y') (hx : x' + b ≤ x'') :
    Sold x y (a + b) x'' (y' - r) where
  sold := by
    have := h.sold
    omega
  left := (Nat.sub_le _ _).trans h.left
  paid := by
    have hprice : r * (x + a + b) ≤ y' * b :=
      calc r * (x + a + b) ≤ quote x' y' b * (x' + b) :=
            Nat.mul_le_mul hr (Nat.add_le_add_right h.sold b)
        _ ≤ y' * b := quote_mul_le _ _ _
    obtain ⟨d, hd⟩ := Nat.exists_eq_add_of_le h.left
    have hpaid := h.paid
    have hgone : y - (y' - r) = d + r := by omega
    rw [hd, Nat.add_sub_cancel_left] at hpaid
    rw [hgone, hd]
    calc (d + r) * (x + (a + b)) = d * (x + a) + d * b + r * (x + a + b) := by ring
      _ ≤ (y' + d) * a + d * b + y' * b := by gcongr
      _ = (y' + d) * (a + b) := by ring

/-- **In parts** no more is bought than at once. -/
theorem le_quote (h : Sold x y a x' y') (hpos : 0 < x) (hn : a ≤ n) : y - y' ≤ quote x y n :=
  calc y - y' ≤ quote x y a := (Nat.le_div_iff_mul_le (by omega)).mpr h.paid
    _ ≤ quote x y n := quote_le_quote (Nat.le_refl _) (Nat.le_refl _) hn hpos

end Sold

end SolanaAmm.Exchange
