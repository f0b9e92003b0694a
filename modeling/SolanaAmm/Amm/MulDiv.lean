import SolanaAmm.Amm.Helpers
import SolanaAmm.Lib.Value
import Mathlib.Data.Nat.Size

/-!
# Amm — MulDiv

`try_mul_div`: the order of evaluation is picked by the bit lengths of the
factors. Below the threshold the product fits; from the threshold on the
factor that is divided first is at least half of the other one, and the
quotient by a divisor of at least one only gets smaller. So every order
succeeds whenever the exact result fits, and loses a few units at most.
-/

namespace SolanaAmm.Amm

open Result Decimal

variable {a b c z : Decimal}

/-! ## Bit lengths -/

/-- Dropping the low bits of a number. -/
theorem size_div_two_pow (n k : ℕ) : Nat.size (n / 2 ^ k) = Nat.size n - k := by
  refine eq_of_forall_ge_iff fun m => ?_
  rw [Nat.size_le, Nat.div_lt_iff_lt_mul (Nat.two_pow_pos k), ← Nat.pow_add, ← Nat.size_le,
    Nat.sub_le_iff_le_add]

theorem size_eq_log2 {n : ℕ} (h : n ≠ 0) : Nat.size n = Nat.log2 n + 1 := by
  refine eq_of_forall_ge_iff fun m => ?_
  rw [Nat.size_le, Nat.succ_le_iff, Nat.log2_lt h]

theorem leadingZeros64_eq (limb : ℕ) : leadingZeros64 limb = 64 - Nat.size limb := by
  unfold leadingZeros64
  split
  · rename_i h
    rw [h, Nat.size_zero]
  · rename_i h
    rw [size_eq_log2 h]
    omega

/-- The three limbs together: the bit length beyond the sixty bits that
stand for the decimals. -/
theorem integerLeadingZeros_eq (x : Decimal) :
    integerLeadingZeros x = Nat.size x.raw - 60 := by
  have hsize : Nat.size x.raw ≤ 192 := Nat.size_le.mpr x.raw_lt
  have hupper : Nat.size (x.raw / 2 ^ 128) = Nat.size x.raw - 128 := size_div_two_pow _ _
  have hmiddle : Nat.size (x.raw / 2 ^ 64) = Nat.size x.raw - 64 := size_div_two_pow _ _
  unfold integerLeadingZeros
  simp only [leadingZeros64_eq]
  by_cases hu : x.raw / 2 ^ 128 = 0
  · have h128 : Nat.size x.raw ≤ 128 := by
      rw [hu, Nat.size_zero] at hupper
      omega
    have hfit : x.raw / 2 ^ 64 < 2 ^ 64 := by
      rw [← Nat.size_le]
      omega
    rw [if_pos hu, Nat.mod_eq_of_lt hfit]
    by_cases hm : x.raw / 2 ^ 64 = 0
    · have h64 : Nat.size x.raw ≤ 64 := by
        rw [hm, Nat.size_zero] at hmiddle
        omega
      rw [if_pos hm, Nat.mod_eq_of_lt (Nat.size_le.mp h64)]
      omega
    · have hpos : 0 < Nat.size (x.raw / 2 ^ 64) := Nat.size_pos.mpr (Nat.pos_of_ne_zero hm)
      rw [if_neg hm]
      omega
  · have hpos : 0 < Nat.size (x.raw / 2 ^ 128) := Nat.size_pos.mpr (Nat.pos_of_ne_zero hu)
    rw [if_neg hu]
    omega

example : integerLeadingZeros (ofU64 100) = 7 := by decide

theorem integerLeadingZeros_le {n : ℕ} :
    integerLeadingZeros a ≤ n ↔ a.raw < 2 ^ (60 + n) := by
  rw [integerLeadingZeros_eq, ← Nat.size_le]
  omega

/-- A whole number below `2 ^ 64` counts for at most 64 bits. -/
theorem integerLeadingZeros_ofU64 (n : U64) : integerLeadingZeros (ofU64 n) ≤ 64 :=
  integerLeadingZeros_le.mpr <| calc
    n.val * wad < 2 ^ 64 * 2 ^ 60 :=
      Nat.mul_lt_mul_of_lt_of_le n.isLt (by decide) (by decide)
    _ = 2 ^ (60 + 64) := by decide

/-- **Below the threshold** the product fits. -/
theorem mul_fits (h : integerLeadingZeros a + integerLeadingZeros b < 130) :
    a.raw * b.raw / wad < 2 ^ 192 := by
  have ha : a.raw < 2 ^ (60 + integerLeadingZeros a) := integerLeadingZeros_le.mp le_rfl
  have hb : b.raw < 2 ^ (60 + integerLeadingZeros b) := integerLeadingZeros_le.mp le_rfl
  refine Nat.div_lt_of_lt_mul ?_
  calc a.raw * b.raw
      < 2 ^ (60 + integerLeadingZeros a) * 2 ^ (60 + integerLeadingZeros b) :=
        Nat.mul_lt_mul'' ha hb
    _ = 2 ^ (120 + (integerLeadingZeros a + integerLeadingZeros b)) := by
        rw [← Nat.pow_add]
        congr 1
        omega
    _ ≤ 2 ^ 249 := Nat.pow_le_pow_right (by decide) (by omega)
    _ ≤ wad * 2 ^ 192 := by decide

/-- **From the threshold on** the longer factor is at least half of the
other: its length counts in full, since it is not the shorter one. -/
theorem le_two_mul (h : 130 ≤ integerLeadingZeros a + integerLeadingZeros b)
    (hab : integerLeadingZeros b ≤ integerLeadingZeros a) : b.raw ≤ 2 * a.raw := by
  have hb : b.raw < 2 ^ (60 + integerLeadingZeros a) := integerLeadingZeros_le.mp hab
  have ha : 2 ^ (60 + (integerLeadingZeros a - 1)) ≤ a.raw := by
    rw [← Nat.not_lt, ← integerLeadingZeros_le]
    omega
  calc b.raw ≤ 2 ^ (60 + integerLeadingZeros a) := hb.le
    _ = 2 * 2 ^ (60 + (integerLeadingZeros a - 1)) := by
        rw [← Nat.pow_succ']
        congr 1
        omega
    _ ≤ 2 * a.raw := Nat.mul_le_mul_left 2 ha

/-! ## The two orders -/

/-- `a * b -> / c` -/
def mulThenDiv (a b c : Decimal) : Except AmmError Decimal := do
  let ab ← tryMul a b
  tryDiv ab c

/-- `a / c -> * b` -/
def divThenMul (a b c : Decimal) : Except AmmError Decimal := do
  let ac ← tryDiv a c
  tryMul ac b

/-- The paths for a divisor of at least one, and what the choice of each
says about the factors. -/
theorem tryMulDiv_paths (h : Decimal.one ≤ c) :
    (a.raw * b.raw / wad < 2 ^ 192 ∧ tryMulDiv a b c = mulThenDiv a b c)
    ∨ (b.raw ≤ 2 * a.raw ∧ tryMulDiv a b c = divThenMul a b c)
    ∨ (a.raw ≤ 2 * b.raw ∧ tryMulDiv a b c = divThenMul b a c) := by
  unfold tryMulDiv
  rw [if_neg (not_lt.mpr h)]
  by_cases hlong : integerLeadingZeros a + integerLeadingZeros b ≥ 130
  · by_cases hab : integerLeadingZeros a ≥ integerLeadingZeros b
    · refine Or.inr (Or.inl ⟨le_two_mul hlong hab, ?_⟩)
      simp only [if_pos hlong, if_pos hab]
      rfl
    · refine Or.inr (Or.inr ⟨le_two_mul ?_ (Nat.le_of_not_ge hab), ?_⟩)
      · rwa [Nat.add_comm]
      · simp only [if_pos hlong, if_neg hab]
        rfl
  · refine Or.inl ⟨mul_fits (Nat.lt_of_not_ge hlong), ?_⟩
    simp only [if_neg hlong]
    rfl

/-- Dividing by at least one makes nothing larger. -/
theorem div_le_raw (h : Decimal.one ≤ c) (n : ℕ) : n * wad / c.raw ≤ n := by
  have hc : wad ≤ c.raw := Fixed.le_def.mp h
  refine Nat.div_le_of_le_mul ?_
  calc n * wad ≤ n * c.raw := Nat.mul_le_mul_left n hc
    _ = c.raw * n := Nat.mul_comm n c.raw

theorem one_le_value (h : Decimal.one ≤ c) : 1 ≤ c.value := by
  have hone : Decimal.one.value = (1 : ℕ) := Fixed.value_whole wad_pos (one_mul wad).symm
  have hle : Decimal.one.value ≤ c.value := (Fixed.value_le_value wad_pos).mpr (Fixed.le_def.mp h)
  rw [hone] at hle
  exact_mod_cast hle

/-- `z` is `a * b / c` rounded down, short by less than `k` units. -/
def Within (k : ℚ) (a b c z : Decimal) : Prop :=
  z.value * c.value ≤ a.value * b.value
    ∧ a.value * b.value < (z.value + k * Fixed.unit wad) * c.value

theorem Within.comm {k : ℚ} (h : Within k b a c z) : Within k a b c z := by
  unfold Within
  rw [mul_comm a.value b.value]
  exact h

theorem Within.mono {k k' : ℚ} (h : Within k a b c z) (hk : k ≤ k') : Within k' a b c z := by
  obtain ⟨hle, hlt⟩ := h
  refine ⟨hle, hlt.trans_le ?_⟩
  have hc : 0 ≤ c.value := Fixed.value_nonneg c
  have hu : 0 ≤ Fixed.unit wad := (Fixed.unit_pos wad_pos).le
  have hscaled : k * Fixed.unit wad ≤ k' * Fixed.unit wad := mul_le_mul_of_nonneg_right hk hu
  exact mul_le_mul_of_nonneg_right (by linarith) hc

/-- **The product first** drops less than one unit, and the quotient less
than another. -/
theorem mulThenDiv_within (h : Decimal.one ≤ c) (hfit : a.raw * b.raw / wad < 2 ^ 192) :
    ∃ z, mulThenDiv a b c = .ok z ∧ Within 2 a b c z := by
  have hc : wad ≤ c.raw := Fixed.le_def.mp h
  have hne : c.raw ≠ 0 := (wad_pos.trans_le hc).ne'
  obtain ⟨ab, hab⟩ := exists_tryMul (ε := AmmError) hfit
  obtain ⟨z, hz⟩ := exists_tryDiv (ε := AmmError) hne ((div_le_raw h ab.raw).trans_lt ab.raw_lt)
  refine ⟨z, bind_eq_ok.mpr ⟨ab, hab, hz⟩, ?_⟩
  have hmul := tryMul_eq_ok.mp hab
  have hdiv := (tryDiv_eq_ok.mp hz).2
  have hmulLe : ab.value ≤ a.value * b.value := Fixed.value_mul_le wad_pos hmul
  have hmulLt : a.value * b.value < ab.value + Fixed.unit wad := Fixed.lt_value_mul wad_pos hmul
  have hdivLe : z.value * c.value ≤ ab.value := Fixed.value_div_le wad_pos hdiv
  have hdivLt : ab.value < (z.value + Fixed.unit wad) * c.value :=
    Fixed.lt_value_div wad_pos hne hdiv
  have hunit : Fixed.unit wad ≤ Fixed.unit wad * c.value :=
    le_mul_of_one_le_right (Fixed.unit_pos wad_pos).le (one_le_value h)
  exact ⟨hdivLe.trans hmulLe, by linarith⟩

/-- **The quotient first** drops less than one unit, which the product
multiplies by the other factor. -/
theorem divThenMul_within (h : Decimal.one ≤ c) (hfit : a.raw * b.raw < 2 ^ 192 * c.raw) :
    ∃ z, divThenMul a b c = .ok z ∧ Within (1 + b.value) a b c z := by
  have hc : wad ≤ c.raw := Fixed.le_def.mp h
  have hne : c.raw ≠ 0 := (wad_pos.trans_le hc).ne'
  obtain ⟨ac, hac⟩ := exists_tryDiv (ε := AmmError) hne ((div_le_raw h a.raw).trans_lt a.raw_lt)
  have hdiv := (tryDiv_eq_ok.mp hac).2
  have hprod : ac.raw * b.raw / wad < 2 ^ 192 := by
    refine Nat.div_lt_of_lt_mul (Nat.lt_of_mul_lt_mul_right (a := c.raw) ?_)
    calc ac.raw * b.raw * c.raw = ac.raw * c.raw * b.raw := by ring
      _ ≤ a.raw * wad * b.raw :=
          Nat.mul_le_mul_right _ (hdiv ▸ Nat.div_mul_le_self _ _)
      _ = wad * (a.raw * b.raw) := by ring
      _ < wad * (2 ^ 192 * c.raw) := Nat.mul_lt_mul_of_pos_left hfit wad_pos
      _ = wad * 2 ^ 192 * c.raw := by ring
  obtain ⟨z, hz⟩ := exists_tryMul (ε := AmmError) hprod
  refine ⟨z, bind_eq_ok.mpr ⟨ac, hac, hz⟩, ?_⟩
  have hmul := tryMul_eq_ok.mp hz
  have hb : 0 ≤ b.value := Fixed.value_nonneg b
  have hcpos : 0 < c.value := one_pos.trans_le (one_le_value h)
  have hdivLe : ac.value * c.value ≤ a.value := Fixed.value_div_le wad_pos hdiv
  have hdivLt : a.value < (ac.value + Fixed.unit wad) * c.value :=
    Fixed.lt_value_div wad_pos hne hdiv
  have hmulLe : z.value ≤ ac.value * b.value := Fixed.value_mul_le wad_pos hmul
  have hmulLt : ac.value * b.value < z.value + Fixed.unit wad := Fixed.lt_value_mul wad_pos hmul
  constructor
  · calc z.value * c.value ≤ ac.value * b.value * c.value :=
          mul_le_mul_of_nonneg_right hmulLe hcpos.le
      _ = ac.value * c.value * b.value := by ring
      _ ≤ a.value * b.value := mul_le_mul_of_nonneg_right hdivLe hb
  · calc a.value * b.value
        ≤ (ac.value + Fixed.unit wad) * c.value * b.value :=
          mul_le_mul_of_nonneg_right hdivLt.le hb
      _ = (ac.value * b.value + b.value * Fixed.unit wad) * c.value := by ring
      _ < (z.value + Fixed.unit wad + b.value * Fixed.unit wad) * c.value :=
          mul_lt_mul_of_pos_right (by linarith) hcpos
      _ = (z.value + (1 + b.value) * Fixed.unit wad) * c.value := by ring

/-- The factor that is multiplied last is at most twice the smaller one. -/
theorem value_le_two_mul_min (h : b.raw ≤ 2 * a.raw) :
    b.value ≤ 2 * min a.value b.value := by
  have hw : (0 : ℚ) < wad := by exact_mod_cast wad_pos
  have hdouble : b.value ≤ 2 * a.value := by
    have hcast : (b.raw : ℚ) ≤ 2 * a.raw := by exact_mod_cast h
    unfold Fixed.value
    rw [← mul_div_assoc]
    exact div_le_div_of_nonneg_right hcast hw.le
  rcases min_cases a.value b.value with ⟨hmin, -⟩ | ⟨hmin, -⟩
  · rwa [hmin]
  · rw [hmin]
    linarith [Fixed.value_nonneg b]

/-- **Every path** succeeds when the exact result fits, and is close to
it. -/
theorem tryMulDiv_within (h : Decimal.one ≤ c) (hfit : a.raw * b.raw < 2 ^ 192 * c.raw) :
    ∃ z, tryMulDiv a b c = .ok z ∧ Within (2 + 2 * min a.value b.value) a b c z := by
  have ha : 0 ≤ a.value := Fixed.value_nonneg a
  have hb : 0 ≤ b.value := Fixed.value_nonneg b
  have hmin : 0 ≤ min a.value b.value := le_min ha hb
  rcases tryMulDiv_paths (a := a) (b := b) h with ⟨hab, hpath⟩ | ⟨hab, hpath⟩ | ⟨hab, hpath⟩
  · obtain ⟨z, hz, hnear⟩ := mulThenDiv_within h hab
    exact ⟨z, hpath.trans hz, hnear.mono (by linarith)⟩
  · obtain ⟨z, hz, hnear⟩ := divThenMul_within h hfit
    have hlast := value_le_two_mul_min hab
    exact ⟨z, hpath.trans hz, hnear.mono (by linarith)⟩
  · obtain ⟨z, hz, hnear⟩ := divThenMul_within h (Nat.mul_comm a.raw b.raw ▸ hfit)
    have hlast := value_le_two_mul_min hab
    rw [min_comm] at hlast
    exact ⟨z, hpath.trans hz, hnear.comm.mono (by linarith)⟩

/-- **The rule of three** on whole numbers always multiplies first, and
succeeds unless the divisor is zero. -/
theorem tryMulDiv_ofU64_eq_ok {a b c : U64} {z : Decimal} :
    tryMulDiv (ofU64 a) (ofU64 b) (ofU64 c) = .ok z ↔
      c.val ≠ 0 ∧ z.raw = a.val * b.val * wad / c.val := by
  have ha := integerLeadingZeros_ofU64 a
  have hb := integerLeadingZeros_ofU64 b
  unfold tryMulDiv
  simp only [show ¬ (integerLeadingZeros (ofU64 a) + integerLeadingZeros (ofU64 b) ≥ 130) by
    omega, if_false, ite_self, bind_eq_ok, tryMul_eq_ok, tryDiv_eq_ok, ofU64_raw]
  have hmul : a.val * wad * (b.val * wad) / wad = a.val * b.val * wad := by
    rw [Nat.mul_right_comm, Nat.mul_div_cancel _ wad_pos, ← Nat.mul_assoc]
  have hdiv : a.val * b.val * wad * wad / (c.val * wad) = a.val * b.val * wad / c.val :=
    Nat.mul_div_mul_right _ _ wad_pos
  constructor
  · rintro ⟨ab, hab, hne, hz⟩
    rw [hab, hmul, hdiv] at hz
    exact ⟨fun h0 => hne (by rw [h0, Nat.zero_mul]), hz⟩
  · rintro ⟨hne, hz⟩
    have hfit : a.val * b.val * wad < 2 ^ 192 := calc
      a.val * b.val * wad < 2 ^ 64 * 2 ^ 64 * 2 ^ 60 :=
        Nat.mul_lt_mul_of_lt_of_le (Nat.mul_lt_mul'' a.isLt b.isLt) (by decide) (by decide)
      _ ≤ 2 ^ 192 := by decide
    refine ⟨⟨_, hfit⟩, hmul.symm, fun h0 => ?_, ?_⟩
    · exact (Nat.mul_eq_zero.mp h0).elim hne (fun h => absurd h wad_pos.ne')
    · rw [hdiv, hz]

/-- The whole part of the rule of three. -/
theorem floor_ruleOfThree {a b c : ℕ} (h : z.raw = a * b * wad / c) :
    Fixed.floor z = a * b / c := by
  rw [Fixed.floor, h, Nat.div_div_eq_div_mul, Nat.mul_comm c, ← Nat.div_div_eq_div_mul,
    Nat.mul_div_cancel _ wad_pos]

theorem exists_tryMulDiv_ofU64 {a b c : U64} (hc : c.val ≠ 0) :
    ∃ z, tryMulDiv (ofU64 a) (ofU64 b) (ofU64 c) = .ok z
      ∧ Fixed.floor z = a.val * b.val / c.val := by
  have hfit : a.val * b.val * wad / c.val < 2 ^ 192 := by
    refine (Nat.div_le_self _ _).trans_lt ?_
    calc a.val * b.val * wad < 2 ^ 64 * 2 ^ 64 * 2 ^ 60 :=
          Nat.mul_lt_mul_of_lt_of_le (Nat.mul_lt_mul'' a.isLt b.isLt) (by decide) (by decide)
      _ ≤ 2 ^ 192 := by decide
  exact ⟨⟨_, hfit⟩, tryMulDiv_ofU64_eq_ok.mpr ⟨hc, rfl⟩, floor_ruleOfThree rfl⟩

/-- **No spurious overflow.** With a divisor of at least one, a result that
fits is returned whatever the order of evaluation: rounded down, and short
by less than `2 + 2 * min(a, b)` units. On whole numbers its whole part is
exact. -/
theorem tryMulDiv_accurate :
    (∀ a b c : Decimal, Decimal.one ≤ c → a.value * b.value / c.value < 2 ^ 192 / 10 ^ 18 →
      ∃ z, tryMulDiv a b c = .ok z ∧ z.value ≤ a.value * b.value / c.value
        ∧ a.value * b.value / c.value - z.value
            < (2 + 2 * min a.value b.value) * (1 / 10 ^ 18))
    ∧ ∀ a b c : U64, 0 < c.val →
      ∃ z, tryMulDiv (ofU64 a) (ofU64 b) (ofU64 c) = .ok z
        ∧ Fixed.floor z = a.val * b.val / c.val := by
  constructor
  · intro a b c hone hexact
    have hc : 0 < c.value := one_pos.trans_le (one_le_value hone)
    have hfit : a.raw * b.raw < 2 ^ 192 * c.raw := by
      have hcast : (a.raw : ℚ) * b.raw < 2 ^ 192 * c.raw := by
        unfold Fixed.value at hexact hc
        rw [div_lt_iff₀ hc] at hexact
        push_cast at hexact
        linarith
      exact_mod_cast hcast
    obtain ⟨z, hz, hle, hlt⟩ := tryMulDiv_within hone hfit
    have hunit : Fixed.unit wad = 1 / 10 ^ 18 := by
      unfold Fixed.unit
      push_cast
      rfl
    rw [hunit] at hlt
    refine ⟨z, hz, (le_div_iff₀ hc).mpr hle, ?_⟩
    rw [sub_lt_iff_lt_add', div_lt_iff₀ hc]
    exact hlt
  · intro a b c hc
    exact exists_tryMulDiv_ofU64 hc.ne'

/-- A numerator near the ceiling, whose product with five does not fit. -/
def nearCeiling : Decimal := ⟨2 ^ 190, by decide⟩

theorem tryMulDiv_accurate_near_ceiling :
    (tryMul (ε := AmmError) nearCeiling (ofU64 5) = .error DecimalError.mathOverflow
      ∧ ∃ z, tryMulDiv nearCeiling (ofU64 5) (ofU64 7) = .ok z
        ∧ z.value ≤ nearCeiling.value * (ofU64 5).value / (ofU64 7).value
        ∧ nearCeiling.value * (ofU64 5).value / (ofU64 7).value - z.value
            < (2 + 2 * min nearCeiling.value (ofU64 5).value) * (1 / 10 ^ 18))
    ∧ ∃ z, tryMulDiv (ofU64 7) (ofU64 9) (ofU64 5) = .ok z
        ∧ Fixed.floor z = (7 : U64).val * (9 : U64).val / (5 : U64).val := by
  refine ⟨⟨by decide, tryMulDiv_accurate.1 _ _ _ (by decide) ?_⟩,
    tryMulDiv_accurate.2 7 9 5 (by decide)⟩
  have hfive : (ofU64 5).value = (5 : ℕ) := Fixed.value_whole wad_pos rfl
  have hseven : (ofU64 7).value = (7 : ℕ) := Fixed.value_whole wad_pos rfl
  rw [hfive, hseven, Fixed.value, nearCeiling]
  norm_num

end SolanaAmm.Amm
