import SolanaAmm.Amm.StableCurveInvariant
import Mathlib.Algebra.Order.BigOperators.Group.List
import Mathlib.Tactic.NormNum

/-!
# Amm — Scaling

What `StableCurveInvariant::new` starts from, in whole numbers of
`10 ^ -18`: how often the sum of the reserves is divided by a thousand,
the scaled sum, and the product of the scaled reserves, truncated after
each factor. None of it needs the code: it is arithmetic of the balances.
-/

namespace SolanaAmm.Amm

open Result Decimal

/-! ## Dividing by a thousand -/

theorem tryDiv_thousand {val val' : Decimal}
    (h : tryDiv (ε := AmmError) val thousand = .ok val') : val'.raw = val.raw / 1000 := by
  rw [tryDiv_eq_ok] at h
  rw [h.2, show thousand.raw = 1000 * wad from rfl, Nat.mul_comm 1000,
    ← Nat.div_div_eq_div_mul, Nat.mul_div_cancel _ wad_pos]

/-- One pass of the loop: it ends at a value of at most a thousand, or goes on
with a thousandth. -/
theorem scaleDownLoop_cases {fuel n : ℕ} {val : Decimal} {out : ScaleDownOutput}
    (h : scaleDownLoop (fuel + 1) val n = .ok out) :
    (val ≤ thousand ∧ out = ⟨val, n⟩)
      ∨ (thousand < val ∧ ∃ val', val'.raw = val.raw / 1000
        ∧ scaleDownLoop fuel val' (n + 1) = .ok out) := by
  unfold scaleDownLoop at h
  by_cases hgt : val > thousand
  · simp only [hgt, if_true, bind_eq_ok] at h
    obtain ⟨val', hval', h⟩ := h
    exact .inr ⟨hgt, val', tryDiv_thousand hval', h⟩
  · simp only [hgt, if_false, pure_eq_ok] at h
    exact .inl ⟨not_lt.mp hgt, h.symm⟩

/-- A value scaled down `e` times by a thousand: the quotient, and at least
one if the value was. -/
theorem scaleDownLoop_spec {fuel n : ℕ} {val : Decimal} {out : ScaleDownOutput}
    (h : scaleDownLoop fuel val n = .ok out) :
    ∃ e, out.exponent = n + e ∧ out.scaleDown.raw = val.raw / 1000 ^ e
      ∧ (wad ≤ val.raw → wad ≤ out.scaleDown.raw) := by
  induction fuel generalizing val n with
  | zero => cases h
  | succ fuel ih =>
      rcases scaleDownLoop_cases h with ⟨-, rfl⟩ | ⟨hgt, val', hraw, h⟩
      · exact ⟨0, rfl, by simp, id⟩
      · obtain ⟨e, he, hout, hwad⟩ := ih h
        refine ⟨e + 1, by omega, ?_, fun _ => hwad ?_⟩
        · rw [hout, hraw, Nat.div_div_eq_div_mul, ← Nat.pow_succ']
        · rw [hraw, Nat.le_div_iff_mul_le (by decide)]
          have : thousand.raw < val.raw := hgt
          rw [show thousand.raw = wad * 1000 from rfl] at this
          exact this.le

theorem scaleDownLoop_le {fuel n : ℕ} {val : Decimal} {out : ScaleDownOutput}
    (h : scaleDownLoop fuel val n = .ok out) : out.scaleDown ≤ thousand := by
  induction fuel generalizing val n with
  | zero => cases h
  | succ fuel ih =>
      rcases scaleDownLoop_cases h with ⟨hle, rfl⟩ | ⟨-, val', -, h⟩
      · exact hle
      · exact ih h

/-- The loop ends: a 192-bit number is above a thousand at most 13 times. -/
theorem scaleDownLoop_ok {fuel k n : ℕ} {val : Decimal} (hk : k < fuel)
    (hval : val.raw < 1000 ^ k * (1000 * wad)) :
    ∃ out, scaleDownLoop fuel val n = .ok out := by
  induction fuel generalizing k val n with
  | zero => omega
  | succ fuel ih =>
      unfold scaleDownLoop
      by_cases hgt : val > thousand
      · have hfit : val.raw * wad / thousand.raw < 2 ^ 192 := by
          rw [show thousand.raw = 1000 * wad from rfl, Nat.mul_comm 1000,
            ← Nat.div_div_eq_div_mul, Nat.mul_div_cancel _ wad_pos]
          exact (Nat.div_le_self _ _).trans_lt val.raw_lt
        obtain ⟨val', hval'⟩ := exists_tryDiv (ε := AmmError) (y := thousand) (by decide) hfit
        simp only [hgt, if_true, hval', ok_bind]
        cases k with
        | zero =>
            have : thousand.raw < val.raw := hgt
            rw [show thousand.raw = 1000 * wad from rfl] at this
            omega
        | succ k =>
            refine ih (by omega : k < fuel) ?_
            rw [tryDiv_thousand hval']
            refine Nat.div_lt_of_lt_mul ?_
            rwa [Nat.pow_succ', Nat.mul_assoc] at hval
      · simp only [hgt, if_false]
        exact ⟨_, rfl⟩

theorem scaleDownValue_fuel (val : Decimal) : ∃ out, scaleDownValue val = .ok out :=
  scaleDownLoop_ok (k := 13) (by decide) (val.raw_lt.trans (by norm_num [wad]))

theorem scaleDownValue_small {val : Decimal} (h : val ≤ thousand) :
    scaleDownValue val = .ok ⟨val, 0⟩ := by
  show scaleDownLoop (19 + 1) val 0 = _
  rw [scaleDownLoop, if_neg (not_lt.mpr h)]
  rfl

/-- A power of a whole number is a whole number. -/
theorem pow_whole {m : PowSqrt} (hm : m.Lawful) {x z : Decimal} {k n : ℕ}
    (hx : x.raw = k * wad) (h : m.tryPow x n = some z) : z.raw = k ^ n * wad := by
  rcases Nat.eq_zero_or_pos n with rfl | hn
  · rw [hm.pow_zero h, one_raw, Nat.pow_zero, Nat.one_mul]
  · exact (hm.pow_chain hn h).whole wad_pos hx

/-! ## The exponent -/

/-- How often a number of `10 ^ -18` units is divided by a thousand until it
is at most a thousand. -/
def scaleExponent (raw : ℕ) : ℕ :=
  (List.range 20).countP (fun e => 1000 * wad < raw / 1000 ^ e)

theorem scaleDownLoop_exponent {fuel n : ℕ} {val : Decimal} {out : ScaleDownOutput}
    (h : scaleDownLoop fuel val n = .ok out) :
    out.exponent
      = n + (List.range fuel).countP (fun e => 1000 * wad < val.raw / 1000 ^ e) := by
  induction fuel generalizing val n with
  | zero => cases h
  | succ fuel ih =>
      rcases scaleDownLoop_cases h with ⟨hsmall, rfl⟩ | ⟨hgt, val', hraw, h⟩
      · have hle : val.raw ≤ 1000 * wad := hsmall
        rw [List.countP_eq_zero.mpr (fun e _ => ?_), Nat.add_zero]
        have hdiv : val.raw / 1000 ^ e ≤ val.raw := Nat.div_le_self _ _
        rw [decide_eq_true_eq, not_lt]
        exact hdiv.trans hle
      · have habove : 1000 * wad < val.raw := hgt
        rw [ih h, hraw, List.range_succ_eq_map, List.countP_cons, List.countP_map,
          Nat.pow_zero, Nat.div_one, if_pos (decide_eq_true habove)]
        simp only [Nat.div_div_eq_div_mul, ← Nat.pow_succ', Function.comp_def]
        omega

/-- **Scaling down** in whole numbers. -/
theorem scaleDownValue_eq {val : Decimal} {out : ScaleDownOutput}
    (h : scaleDownValue val = .ok out) : out.exponent = scaleExponent val.raw
      ∧ out.scaleDown.raw = val.raw / 1000 ^ scaleExponent val.raw
      ∧ (wad ≤ val.raw → wad ≤ out.scaleDown.raw) := by
  obtain ⟨e, he, hraw, hwad⟩ := scaleDownLoop_spec h
  have hexp := scaleDownLoop_exponent h
  rw [he, Nat.zero_add, Nat.zero_add] at hexp
  subst hexp
  exact ⟨by rw [he, Nat.zero_add]; rfl, hraw, hwad⟩

theorem scaleExponent_le {raw k : ℕ} (hk : k ≤ 20) (h : raw ≤ 1000 ^ (k + 1) * wad) :
    scaleExponent raw ≤ k := by
  have hrange : List.range 20 = List.range k ++ (List.range (20 - k)).map (k + ·) := by
    rw [← List.range_add, Nat.add_sub_of_le hk]
  have hrest : (List.range (20 - k)).countP
      ((fun e => decide (1000 * wad < raw / 1000 ^ e)) ∘ (k + ·)) = 0 := by
    refine List.countP_eq_zero.mpr (fun e _ => ?_)
    rw [Function.comp_apply, decide_eq_true_eq, not_lt]
    refine Nat.div_le_of_le_mul (h.trans ?_)
    rw [Nat.pow_succ, Nat.mul_assoc]
    exact Nat.mul_le_mul_right _ (Nat.pow_le_pow_right (by norm_num) (Nat.le_add_right k e))
  rw [scaleExponent, hrange, List.countP_append, List.countP_map, hrest, Nat.add_zero]
  exact List.countP_le_length.trans_eq List.length_range

/-- What is scaled down is at most a thousand. -/
theorem div_scaleExponent_le (val : Decimal) :
    val.raw / 1000 ^ scaleExponent val.raw ≤ 1000 * wad := by
  obtain ⟨out, hout⟩ := scaleDownValue_fuel val
  have hle : out.scaleDown.raw ≤ 1000 * wad := scaleDownLoop_le hout
  rw [(scaleDownValue_eq hout).2.1] at hle
  exact hle

/-! ## The sum -/

theorem sum_whole {l : List TokenAmount} {acc z : Decimal} {n : ℕ} (hacc : acc.raw = n * wad)
    (h : l.foldlM (fun acc el => tryAdd (ε := AmmError) acc (ofU64 el)) acc = .ok z) :
    z.raw = (n + (l.map (·.val)).sum) * wad := by
  induction l generalizing acc n with
  | nil =>
      simp only [List.foldlM_nil, pure_eq_ok] at h
      rw [← h, hacc, List.map_nil, List.sum_nil, Nat.add_zero]
  | cons a l ih =>
      simp only [List.foldlM_cons, bind_eq_ok, tryAdd_eq_ok] at h
      obtain ⟨acc', hacc', h⟩ := h
      rw [hacc, ofU64_raw, ← Nat.add_mul] at hacc'
      rw [ih hacc' h, List.map_cons, List.sum_cons, Nat.add_assoc]

/-- How often the reserves are scaled down. -/
def sumExponent (reserves : List ℕ) : ℕ := scaleExponent (reserves.sum * wad)

/-- Up to four reserves are scaled down at most six times. -/
theorem sumExponent_le {l : List TokenAmount} (hlen : l.length ≤ 4) :
    sumExponent (l.map (·.val)) ≤ 6 := by
  have hsum : (l.map (·.val)).sum ≤ (l.map (·.val)).length • 2 ^ 64 :=
    List.sum_le_card_nsmul _ _ (fun y hy => by
      obtain ⟨n, -, rfl⟩ := List.mem_map.mp hy
      exact n.isLt.le)
  rw [List.length_map, nsmul_eq_mul, Nat.cast_id] at hsum
  exact scaleExponent_le (by norm_num) (Nat.mul_le_mul_right wad
    (hsum.trans ((Nat.mul_le_mul_right _ hlen).trans (by norm_num))))

/-- The scaled sum, the first guess. -/
def scaledSum (reserves : List ℕ) : ℕ := reserves.sum * wad / 1000 ^ sumExponent reserves

/-! ## The product -/

theorem div_thousands {e x : ℕ} (he : 3 * e ≤ 18) :
    x * wad / 1000 ^ e = x * 10 ^ (18 - 3 * e) := by
  have hsplit : wad = 10 ^ (18 - 3 * e) * 1000 ^ e := by
    rw [show (1000 : ℕ) = 10 ^ 3 by norm_num, ← Nat.pow_mul, ← Nat.pow_add, Nat.sub_add_cancel he]
  rw [hsplit, ← Nat.mul_assoc, Nat.mul_div_cancel _ (Nat.pow_pos (by norm_num))]

/-- The product of the reserves, each scaled down `e` times, truncated after
each factor. -/
def truncatedProduct (e : ℕ) (reserves : List ℕ) : ℕ :=
  reserves.foldl (fun p x => p * (x * wad / 1000 ^ e) / wad) wad

/-- While the decimals suffice nothing is truncated. -/
theorem foldl_product_exact {e j q : ℕ} {l : List ℕ} (h : 3 * (e * (j + l.length)) ≤ 18) :
    l.foldl (fun p x => p * (x * wad / 1000 ^ e) / wad) (q * 10 ^ (18 - 3 * (e * j)))
      = q * l.prod * 10 ^ (18 - 3 * (e * (j + l.length))) := by
  induction l generalizing j q with
  | nil => rw [List.foldl_nil, List.prod_nil, Nat.mul_one]; rfl
  | cons x l ih =>
      rw [List.length_cons, Nat.add_comm l.length, ← Nat.add_assoc] at h ⊢
      have he : 3 * (e * (j + 1)) ≤ 18 :=
        (Nat.mul_le_mul_left 3 (Nat.mul_le_mul_left e (Nat.le_add_right _ _))).trans h
      rw [Nat.mul_add, Nat.mul_one] at he
      have hfactor : q * 10 ^ (18 - 3 * (e * j)) * (x * wad / 1000 ^ e) / wad
          = q * x * 10 ^ (18 - 3 * (e * (j + 1))) := by
        rw [div_thousands (by omega), Nat.mul_mul_mul_comm, ← Nat.pow_add,
          show 18 - 3 * (e * j) + (18 - 3 * e) = 18 - 3 * (e * (j + 1)) + 18 by
            rw [Nat.mul_add, Nat.mul_one]; omega,
          Nat.pow_add, ← Nat.mul_assoc, Nat.mul_div_cancel _ wad_pos]
      rw [List.foldl_cons, hfactor, ih h, List.prod_cons, Nat.mul_assoc q]

/-- **The exact product**, truncated once, as long as all factors but the
last fit into 18 decimals. -/
theorem truncatedProduct_exact {e : ℕ} {l : List ℕ} (hlen : 2 ≤ l.length)
    (h : 3 * (e * (l.length - 1)) ≤ 18) :
    truncatedProduct e l = l.prod * 10 ^ (36 - 3 * (e * l.length)) / wad := by
  obtain ⟨init, x, rfl⟩ : ∃ init x, l = init ++ [x] :=
    ⟨_, _, (List.dropLast_append_getLast (List.length_pos_iff.mp (by omega))).symm⟩
  rw [List.length_append, List.length_singleton, Nat.add_sub_cancel] at h
  rw [List.length_append, List.length_singleton] at hlen ⊢
  have he : 3 * e ≤ 18 :=
    (Nat.mul_le_mul_left 3 (Nat.le_mul_of_pos_right e (by omega : 0 < init.length))).trans h
  have hinit := foldl_product_exact (e := e) (j := 0) (q := 1) (l := init)
    (by rwa [Nat.zero_add])
  rw [Nat.mul_zero, Nat.mul_zero, Nat.sub_zero, Nat.one_mul, Nat.one_mul, Nat.zero_add] at hinit
  rw [truncatedProduct, List.foldl_append, hinit, List.foldl_cons, List.foldl_nil, div_thousands he,
    Nat.mul_mul_mul_comm, ← Nat.pow_add, List.prod_append, List.prod_singleton,
    show 18 - 3 * (e * init.length) + (18 - 3 * e) = 36 - 3 * (e * (init.length + 1)) by
      rw [Nat.mul_add, Nat.mul_one]; omega]

/-- Nothing is truncated as long as all factors fit. -/
theorem truncatedProduct_whole {e : ℕ} {l : List ℕ} (hlen : 2 ≤ l.length)
    (h : 3 * (e * l.length) ≤ 18) :
    truncatedProduct e l * 1000 ^ (e * l.length) = l.prod * wad := by
  have hinit : 3 * (e * (l.length - 1)) ≤ 18 :=
    (Nat.mul_le_mul_left 3 (Nat.mul_le_mul_left e (Nat.sub_le _ _))).trans h
  rw [truncatedProduct_exact hlen hinit,
    show 36 - 3 * (e * l.length) = 18 - 3 * (e * l.length) + 18 by omega, Nat.pow_add,
    ← Nat.mul_assoc, Nat.mul_div_cancel _ wad_pos, show (1000 : ℕ) = 10 ^ 3 by norm_num,
    ← Nat.pow_mul, Nat.mul_assoc, ← Nat.pow_add, Nat.sub_add_cancel h]

section Product

variable {coef acc z : Decimal} {l : List TokenAmount} {e a : ℕ}

theorem scaledFactor_eq_ok {x scaled : Decimal} {n : TokenAmount}
    (hcoef : coef.raw = 1000 ^ e * wad) :
    (tryDiv (ε := AmmError) (ofU64 n) coef = .ok scaled ∧ tryMul (ε := AmmError) acc scaled = .ok x)
      ↔ scaled.raw = n.val * wad / 1000 ^ e
        ∧ x.raw = acc.raw * (n.val * wad / 1000 ^ e) / wad := by
  have hne : coef.raw ≠ 0 := by
    rw [hcoef]
    exact (Nat.mul_pos (Nat.pow_pos (by norm_num)) wad_pos).ne'
  rw [tryDiv_eq_ok, tryMul_eq_ok, hcoef, ofU64_raw, Nat.mul_div_mul_right _ _ wad_pos,
    ← hcoef, and_iff_right hne]
  exact and_congr_right (fun h => by rw [h])

/-- The product of `new` in whole numbers. -/
theorem scaledProduct_raw (hcoef : coef.raw = 1000 ^ e * wad)
    (h : StableCurveInvariant.scaledProduct coef l = .ok z) :
    z.raw = truncatedProduct e (l.map (·.val)) := by
  unfold StableCurveInvariant.scaledProduct at h
  show z.raw = (l.map (·.val)).foldl _ Decimal.one.raw
  generalize Decimal.one = acc at h ⊢
  induction l generalizing acc with
  | nil =>
      rw [List.foldlM_nil, pure_eq_ok] at h
      rw [← h]
      rfl
  | cons n l ih =>
      simp only [List.foldlM_cons, bind_eq_ok] at h
      obtain ⟨acc', ⟨scaled, hfactor⟩, h⟩ := h
      rw [ih acc' h, List.map_cons, List.foldl_cons, ((scaledFactor_eq_ok hcoef).mp hfactor).2]

/-- It fits: no factor is above a thousand. -/
theorem scaledProduct_ok (hcoef : coef.raw = 1000 ^ e * wad)
    (hl : ∀ x ∈ l, x.val * wad / 1000 ^ e ≤ 1000 * wad) (hlen : l.length ≤ 10) :
    ∃ z, StableCurveInvariant.scaledProduct coef l = .ok z ∧ z.raw ≤ 1000 ^ l.length * wad := by
  unfold StableCurveInvariant.scaledProduct
  have hacc : Decimal.one.raw ≤ 1000 ^ 0 * wad := by rw [one_raw, Nat.pow_zero, Nat.one_mul]
  rw [← Nat.zero_add l.length] at hlen ⊢
  generalize Decimal.one = acc at hacc ⊢
  generalize 0 = a at hacc hlen ⊢
  induction l generalizing acc a with
  | nil => exact ⟨acc, rfl, hacc⟩
  | cons n l ih =>
      rw [List.length_cons, Nat.add_comm l.length, ← Nat.add_assoc] at hlen ⊢
      have hn := hl n List.mem_cons_self
      have hle : acc.raw * (n.val * wad / 1000 ^ e) / wad ≤ 1000 ^ (a + 1) * wad := by
        refine Nat.div_le_of_le_mul ?_
        calc acc.raw * (n.val * wad / 1000 ^ e) ≤ 1000 ^ a * wad * (1000 * wad) :=
              Nat.mul_le_mul hacc hn
          _ = wad * (1000 ^ (a + 1) * wad) := by ring
      have hfit : 1000 ^ (a + 1) * wad < 2 ^ 192 :=
        (Nat.mul_le_mul_right _
          (Nat.pow_le_pow_right (by norm_num) (by omega : a + 1 ≤ 10))).trans_lt (by norm_num)
      have hfactor : tryDiv (ε := AmmError) (ofU64 n) coef
            = .ok ⟨n.val * wad / 1000 ^ e, hn.trans_lt (by norm_num)⟩
          ∧ tryMul (ε := AmmError) acc ⟨n.val * wad / 1000 ^ e, hn.trans_lt (by norm_num)⟩
            = .ok ⟨_, hle.trans_lt hfit⟩ := (scaledFactor_eq_ok hcoef).mpr ⟨rfl, rfl⟩
      obtain ⟨z, hz, hzle⟩ := ih (fun x hx => hl x (List.mem_cons_of_mem _ hx))
        ⟨_, hle.trans_lt hfit⟩ (a + 1) hle hlen
      refine ⟨z, ?_, hzle⟩
      simp only [List.foldlM_cons, bind_eq_ok]
      exact ⟨_, ⟨_, hfactor⟩, hz⟩

end Product

end SolanaAmm.Amm
