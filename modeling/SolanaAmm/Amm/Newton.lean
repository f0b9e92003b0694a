import SolanaAmm.Amm.Scaling
import Mathlib.Tactic.Positivity

/-!
# Amm — Newton

The stable invariant in whole numbers: what `StableCurveInvariant::new`
computes from the reserves, and that Newton's iterates never reach zero.
Hence an invariant that was computed is positive.
-/

namespace SolanaAmm.Amm

open Result Decimal

/-- Reserves that are not empty sum up to a token at least. -/
theorem one_le_sum_reserves {reserves : List TokenAmount} (hne : reserves ≠ [])
    (hpos : ∀ x ∈ reserves, 1 ≤ x.val) : 1 ≤ (reserves.map (·.val)).sum := by
  obtain ⟨r, hr⟩ := List.exists_mem_of_ne_nil _ hne
  exact (hpos r hr).trans (List.le_sum_of_mem (List.mem_map.mpr ⟨r, hr, rfl⟩))

namespace StableCurveInvariant

/-! ## The coefficients -/

/-- `(amplifier * n^n - 1) * n^n * product`, in units of `10 ^ -18`. -/
def linearCoeff (amp : ℕ) (reserves : List ℕ) : ℕ :=
  (amp * reserves.length ^ reserves.length - 1)
    * (reserves.length ^ reserves.length * truncatedProduct (sumExponent reserves) reserves)

/-- `amplifier * n^n * sum * n^n * product`, scaled down, in the same units. -/
def constantTerm (amp : ℕ) (reserves : List ℕ) : ℕ :=
  amp * reserves.length ^ reserves.length * reserves.sum
    * (reserves.length ^ reserves.length * truncatedProduct (sumExponent reserves) reserves)
    / 1000 ^ sumExponent reserves

/-- The terms of the polynomial at the scaled sum but the constant one. -/
def leadingTerms (m : PowSqrt) (amp : ℕ) (reserves : List ℕ) : ℕ :=
  m.powRaw (scaledSum reserves) (reserves.length + 1)
    + scaledSum reserves * linearCoeff amp reserves / wad

/-- What `new` computed for an amplifier, with `x` tokens in all and `n`
reserves: `e` is the scaling exponent and `p` the scaled product, in
units of `10 ^ -18`. -/
structure Constructed (amp x n : ℕ) (s : StableCurveInvariant) (e p : ℕ) : Prop where
  exponent : s.exponent.val = n
  coef : s.sclDownCoef.raw = 1000 ^ e * wad
  scale_le : 1000 ^ e ≤ x
  guess : s.initialGuess.raw = x * wad / 1000 ^ e
  guess_ge : wad ≤ s.initialGuess.raw
  product_ge : 10 ^ 6 ≤ p
  linear : s.firstOrderCoeff.raw = (amp * n ^ n - 1) * (n ^ n * p)
  constant : s.polynomialThirdTerm.raw = amp * n ^ n * x * (n ^ n * p) / 1000 ^ e

/-- The intermediate values of `new`, and what it computed from them. -/
theorem constructed_from {m : PowSqrt} (hm : m.Lawful) {amp : U64} {reserves : List TokenAmount}
    {s : StableCurveInvariant} (hlen : reserves.length < 2 ^ 64)
    (hsum : 1 ≤ (reserves.map (·.val)).sum) (h : new m amp reserves = .ok s) :
    ∃ sum out coef p, sum.raw = (reserves.map (·.val)).sum * wad
      ∧ scaleDownValue sum = .ok out ∧ m.tryPow thousand out.exponent = some coef
      ∧ scaledProduct coef reserves = .ok p
      ∧ Constructed amp.val (reserves.map (·.val)).sum reserves.length s out.exponent p.raw := by
  simp only [new, bind_eq_ok, ensure_eq_ok, pure_eq_ok, PowSqrt.pow_eq_ok, tryMul_eq_ok,
    tryDiv_eq_ok, trySub_eq_ok] at h
  obtain ⟨sum, hsumok, out, hout, coef, hcoef, p, hproduct, -, hp, n, hn, nnp, hnnp, an, han, an1,
    ⟨-, han1⟩, c, hc, ans, hans, ansp, hansp, t, ⟨-, ht⟩, rfl⟩ := h
  have hx := sum_whole (n := 0) (by rw [zero_raw, Nat.zero_mul]) hsumok
  rw [Nat.zero_add] at hx
  generalize (reserves.map (·.val)).sum = x at hsum hx ⊢
  obtain ⟨e, he, hguess, hge⟩ := scaleDownLoop_spec hout
  rw [Nat.zero_add] at he
  have hge' := hge (by rw [hx]; exact Nat.le_mul_of_pos_left _ hsum)
  have hexp : (Word.wrap reserves.length : U64).val = reserves.length := Word.wrap_val hlen
  rw [hexp] at hn
  have hcoef' := pow_whole hm (k := 1000) rfl hcoef
  rw [he] at hcoef'
  have hn' := pow_whole hm (k := reserves.length) (by rw [ofU64_raw, hexp]) hn
  generalize reserves.length = k at hn' hexp ⊢
  rw [Fixed.mul_whole_raw wad_pos hn'] at hnnp
  rw [Fixed.mul_whole_raw wad_pos (ofU64_raw amp), hn', ← Nat.mul_assoc] at han
  have han1' : an1.raw = (amp.val * k ^ k - 1) * wad := by
    rw [han1, han, one_raw, Nat.sub_mul, Nat.one_mul]
  rw [Fixed.mul_whole_raw wad_pos han1', hnnp] at hc
  rw [Fixed.mul_whole_raw wad_pos han, hx, ← Nat.mul_assoc] at hans
  rw [Fixed.mul_whole_raw wad_pos hans, hnnp] at hansp
  refine ⟨sum, out, coef, p, hx, hout, hcoef, hproduct, ?_⟩
  rw [he]
  refine
    { exponent := hexp
      coef := hcoef'
      scale_le := ?_
      guess := by rw [hguess, hx]
      guess_ge := hge'
      product_ge := hp
      linear := hc
      constant := ?_ }
  · -- the scaled sum is at least one
    rw [hguess, hx] at hge'
    have := (Nat.le_div_iff_mul_le (Nat.pow_pos (by decide))).mp hge'
    rw [Nat.mul_comm] at this
    exact Nat.le_of_mul_le_mul_right this wad_pos
  · rw [ht, hansp, hcoef', Nat.mul_div_mul_right _ _ wad_pos]

/-- **What `new` computed**, in arithmetic of the amplifier and the
reserves. -/
theorem constructed {m : PowSqrt} (hm : m.Lawful) {amp : U64} {reserves : List TokenAmount}
    {s : StableCurveInvariant} (hlen : reserves.length < 2 ^ 64)
    (hsum : 1 ≤ (reserves.map (·.val)).sum) (h : new m amp reserves = .ok s) :
    Constructed amp.val (reserves.map (·.val)).sum reserves.length s
      (sumExponent (reserves.map (·.val)))
      (truncatedProduct (sumExponent (reserves.map (·.val))) (reserves.map (·.val))) := by
  obtain ⟨sum, out, coef, p, hx, hout, hcoef, hp, hc⟩ := constructed_from hm hlen hsum h
  have he : out.exponent = sumExponent (reserves.map (·.val)) := by
    rw [(scaleDownValue_eq hout).1, hx]
    rfl
  rw [he] at hc hcoef
  rw [scaledProduct_raw (pow_whole hm rfl hcoef) hp] at hc
  exact hc

theorem coefficients_eq {m : PowSqrt} (hm : m.Lawful) {amp : U64} {reserves : List TokenAmount}
    {s : StableCurveInvariant} (hlen : reserves.length < 2 ^ 64)
    (hsum : 1 ≤ (reserves.map (·.val)).sum) (h : new m amp reserves = .ok s) :
    s.firstOrderCoeff.raw = linearCoeff amp.val (reserves.map (·.val))
      ∧ s.polynomialThirdTerm.raw = constantTerm amp.val (reserves.map (·.val)) := by
  have hc := constructed hm hlen hsum h
  rw [linearCoeff, constantTerm, List.length_map]
  exact ⟨hc.linear, hc.constant⟩

/-- The constant term is not negligible. -/
theorem Constructed.constant_ge {amp x n e p : ℕ} {s : StableCurveInvariant}
    (h : Constructed amp x n s e p) (hamp : 0 < amp) (hn : 0 < n) :
    10 ^ 6 ≤ s.polynomialThirdTerm.raw := by
  rw [h.constant, Nat.le_div_iff_mul_le (Nat.pow_pos (by decide))]
  have hnn : 1 ≤ n ^ n := Nat.pow_pos hn
  have h1 : 1 ≤ amp * n ^ n := Nat.mul_pos hamp hnn
  calc 10 ^ 6 * 1000 ^ e ≤ p * x := Nat.mul_le_mul h.product_ge h.scale_le
    _ = x * p := Nat.mul_comm _ _
    _ ≤ amp * n ^ n * x * (n ^ n * p) :=
        Nat.mul_le_mul (Nat.le_mul_of_pos_left _ h1) (Nat.le_mul_of_pos_left _ hnn)

/-! ## One iteration -/

/-- The derivative at a point outweighs the polynomial there by what one
truncation of a power can hide. -/
theorem power_lt {p : Decimal} {n : ℕ} {pn pn1 : Decimal} {t : ℕ} (hn : 0 < n)
    (hsmall : 2 * n ≤ wad) (ht : n ≤ t)
    (hpn : Fixed.PowChain p n pn) (hpn1 : Fixed.PowChain p (n + 1) pn1) :
    pn1.raw * wad < (n + 1) * (p.raw * pn.raw) + t * wad := by
  have hw := wad_pos
  have hle := hpn1.le_pow
  have hge := hpn.pow_le wad_pos
  clear hpn hpn1
  generalize p.raw = a at hle hge ⊢
  generalize pn.raw = b at hge ⊢
  generalize pn1.raw = c at hle ⊢
  generalize wad = w at hw hsmall hle hge ⊢
  obtain ⟨k, rfl⟩ := Nat.exists_eq_add_of_le' hn
  simp only [Nat.add_sub_cancel] at hle hge
  have hwk : 0 < w ^ k := Nat.pow_pos hw
  refine Nat.lt_of_mul_lt_mul_right (a := w ^ k) ?_
  have hcw : c * w * w ^ k ≤ a * a ^ (k + 1) := by
    rw [Nat.mul_assoc, ← Nat.pow_succ', ← Nat.pow_succ']
    exact hle
  have htw : (k + 1) * w ^ (k + 1) ≤ t * w * w ^ k := by
    rw [Nat.mul_assoc, ← Nat.pow_succ']
    exact Nat.mul_le_mul_right _ ht
  change a ^ (k + 1) ≤ b * w ^ k + k * max a w ^ k at hge
  set q := b * w ^ k with hq
  have hexpand : ((k + 1 + 1) * (a * b) + t * w) * w ^ k
      = (k + 1) * (a * q) + a * q + t * w * w ^ k := by rw [hq]; ring
  rw [hexpand]
  -- what the truncation hides is either below the constant term or below the derivative
  have hhidden : k * (a * max a w ^ k) < (k + 1) * (a * q) + t * w * w ^ k := by
    rcases Nat.le_total a w with haw | haw
    · rw [Nat.max_eq_right haw]
      have h1 : k * (a * w ^ k) ≤ k * w ^ (k + 1) := by
        rw [Nat.pow_succ']
        exact Nat.mul_le_mul_left _ (Nat.mul_le_mul_right _ haw)
      have h2 : 0 < w ^ (k + 1) := Nat.pow_pos hw
      rw [Nat.add_mul, Nat.one_mul] at htw
      omega
    · rw [Nat.max_eq_left haw] at hge ⊢
      have hpos : 0 < a ^ (k + 1) := Nat.pow_pos (hw.trans_le haw)
      have hhalf : 2 * (k * a ^ k) ≤ a ^ (k + 1) := by
        rw [Nat.pow_succ', ← Nat.mul_assoc]
        exact Nat.mul_le_mul_right _ (by omega)
      have hq2 : a ^ (k + 1) ≤ 2 * q := by omega
      have ha2 : 2 ≤ a := by omega
      have h1 : k * (a * a ^ k) ≤ k * (2 * q) := by
        rw [← Nat.pow_succ']
        exact Nat.mul_le_mul_left _ hq2
      have h2 : k * (2 * q) ≤ k * (a * q) :=
        Nat.mul_le_mul_left _ (Nat.mul_le_mul_right _ ha2)
      have h3 : 0 < a * q := Nat.mul_pos (by omega) (by omega)
      rw [Nat.add_mul, Nat.one_mul]
      omega
  have hmul : a * a ^ (k + 1) ≤ a * q + k * (a * max a w ^ k) := calc
    a * a ^ (k + 1) ≤ a * (q + k * max a w ^ k) := Nat.mul_le_mul_left _ hge
    _ = a * q + k * (a * max a w ^ k) := by ring
  omega

/-- The whole iterate is worth more than the polynomial there. -/
theorem poly_mul_lt {m : PowSqrt} (hm : m.Lawful) {s : StableCurveInvariant} {n : ℕ}
    (hexp : s.exponent.val = n) (hn : 0 < n) (hsmall : 2 * n ≤ wad)
    (ht : n ≤ s.polynomialThirdTerm.raw) {val poly deriv : Decimal} (hval : 0 < val.raw)
    (hpoly : s.getStableSwapPolynomial m val = .ok poly)
    (hderiv : s.getDerivateStableSwapPolynomial m val = .ok deriv) (hne : deriv.raw ≠ 0) :
    poly.raw * wad < val.raw * deriv.raw := by
  simp only [getStableSwapPolynomial, getDerivateStableSwapPolynomial, bind_eq_ok,
    PowSqrt.pow_eq_ok, tryMul_eq_ok, tryAdd_eq_ok, trySub_eq_ok, hexp] at hpoly hderiv
  obtain ⟨pn1, hpn1, second, hsecond, sum, hsum, -, hpoly⟩ := hpoly
  obtain ⟨n1, hn1, pn, hpn, first, hfirst, hderiv⟩ := hderiv
  have hn1' : n1.raw = (n + 1) * wad := by
    rw [hn1, ofU64_raw, hexp, one_raw, Nat.add_mul, Nat.one_mul]
  rw [Fixed.mul_whole_raw wad_pos hn1'] at hfirst
  have hlt := power_lt hn hsmall ht (hm.pow_chain hn hpn) (hm.pow_chain (Nat.succ_pos n) hpn1)
  have hsecond' : second.raw * wad ≤ val.raw * s.firstOrderCoeff.raw := by
    rw [hsecond]
    exact Nat.div_mul_le_self _ _
  have hexpand : val.raw * deriv.raw
      = (n + 1) * (val.raw * pn.raw) + val.raw * s.firstOrderCoeff.raw := by
    rw [hderiv, hfirst]
    ring
  rw [hpoly, hsum, hexpand, Nat.sub_mul, Nat.add_mul]
  have : 0 < val.raw * s.firstOrderCoeff.raw ∨ val.raw * s.firstOrderCoeff.raw = 0 := by omega
  have hpos : 0 < (n + 1) * (val.raw * pn.raw) + val.raw * s.firstOrderCoeff.raw := by
    rw [← hexpand]
    exact Nat.mul_pos hval (Nat.pos_of_ne_zero hne)
  omega

/-- **One iteration** keeps the iterate positive. -/
theorem newton_pos {m : PowSqrt} (hm : m.Lawful) {s : StableCurveInvariant} {n : ℕ}
    (hexp : s.exponent.val = n) (hn : 0 < n) (hsmall : 2 * n ≤ wad)
    (ht : n ≤ s.polynomialThirdTerm.raw) {val val' : Decimal} (hval : 0 < val.raw)
    (h : s.newtonMethodSingleIteration m val = .ok val') : 0 < val'.raw := by
  simp only [newtonMethodSingleIteration, bind_eq_ok, trySub_eq_ok, tryDiv_eq_ok] at h
  obtain ⟨poly, hpoly, deriv, hderiv, step, ⟨hne, hstep⟩, -, hval'⟩ := h
  have hpolyw := poly_mul_lt hm hexp hn hsmall ht hval hpoly hderiv hne
  have hsteplt : step.raw < val.raw := by
    rw [hstep]
    exact Nat.div_lt_of_lt_mul (by rwa [Nat.mul_comm deriv.raw])
  rw [hval']
  omega

/-! ## The loop -/

theorem computeLoop_pos {m : PowSqrt} (hm : m.Lawful) {s : StableCurveInvariant} {n e : ℕ}
    (hexp : s.exponent.val = n) (hn : 0 < n) (hsmall : 2 * n ≤ wad)
    (ht : n ≤ s.polynomialThirdTerm.raw) (hcoef : s.sclDownCoef.raw = 1000 ^ e * wad)
    {admissible : Decimal} {fuel : ℕ} {val d : Decimal} (hval : 0 < val.raw)
    (h : s.computeLoop m admissible fuel val = .ok d) : 0 < d.raw := by
  have hscale : ∀ {v d : Decimal}, 0 < v.raw →
      tryMul (ε := AmmError) v s.sclDownCoef = .ok d → 0 < d.raw := by
    intro v d hv hd
    rw [tryMul_eq_ok] at hd
    rw [hd, Nat.mul_comm, Fixed.mul_whole_raw wad_pos hcoef]
    exact Nat.mul_pos (Nat.pow_pos (by decide)) hv
  induction fuel generalizing val with
  | zero => exact hscale hval h
  | succ fuel ih =>
      simp only [computeLoop, bind_eq_ok] at h
      obtain ⟨val', hnewton, h⟩ := h
      have hval' := newton_pos hm hexp hn hsmall ht hval hnewton
      split at h
      · simp only [bind_eq_ok] at h
        obtain ⟨poly, -, h⟩ := h
        split at h
        · exact hscale hval h
        · cases h
      · simp only [bind_eq_ok] at h
        obtain ⟨diff, -, h⟩ := h
        split at h
        · exact hscale hval' h
        · exact ih hval' h

end StableCurveInvariant

/-- **A computed invariant is positive**: for at most `10 ^ 6` reserves, not
all of them empty. -/
theorem computeInvariant_pos {m : PowSqrt} (hm : m.Lawful) {amp : U64}
    {reserves : List TokenAmount} {d : Decimal} (hne : reserves ≠ [])
    (hlen : reserves.length ≤ 10 ^ 6) (hsum : 1 ≤ (reserves.map (·.val)).sum)
    (h : computeInvariant m amp reserves = .ok d) : 0 < d.raw := by
  simp only [computeInvariant, bind_eq_ok, ensure_eq_ok] at h
  obtain ⟨-, hamp, s, hs, h⟩ := h
  simp only [StableCurveInvariant.compute, bind_eq_ok] at h
  obtain ⟨admissible, -, h⟩ := h
  have hc := StableCurveInvariant.constructed hm (hlen.trans_lt (by decide)) hsum hs
  have hn : 0 < reserves.length := List.length_pos_iff.mpr hne
  have hamp' : 0 < amp.val := Nat.pos_of_ne_zero (mt Word.val_eq_zero.mp hamp)
  refine StableCurveInvariant.computeLoop_pos hm hc.exponent hn ?_
    (hlen.trans (hc.constant_ge hamp' hn)) hc.coef (wad_pos.trans_le hc.guess_ge) h
  calc 2 * reserves.length ≤ 2 * 10 ^ 6 := Nat.mul_le_mul_left _ hlen
    _ ≤ wad := by decide

end SolanaAmm.Amm
