import SolanaAmm.Amm.Descent
import Mathlib.Tactic.NormNum

/-!
# Amm — Convergence

The loop of `compute` is never left for want of iterations. It is run here
with a record of its iterates and of the way it is left. An iteration that
does not end the loop moves by more than one half, and one that starts at
a distance from the zero makes it shorter by a fifth at least. So 32 of
them start 5/2 above where the last five lead, and that far was reached by
27 factors of 5/4: more than the thousand that a scaled sum can be.
-/

namespace SolanaAmm.Amm

open Result Decimal

namespace StableCurveInvariant

/-- How the loop of `compute` is left. -/
inductive Exit
  | exactRoot
  | tolerance
  | exhausted
deriving DecidableEq

variable (m : PowSqrt) (s : StableCurveInvariant)

/-- The loop with what it returns, how it is left, and its iterates. -/
def computeLoopTraced (admissibleError : Decimal) :
    ℕ → Decimal → Except AmmError (Decimal × Exit × List Decimal)
  | 0, val => do
      let d ← tryMul val s.sclDownCoef
      pure (d, .exhausted, [val])
  | fuel + 1, prevVal => do
      let newVal ← s.newtonMethodSingleIteration m prevVal
      if prevVal ≤ newVal then do
        let poly ← s.getStableSwapPolynomial m prevVal
        if poly = Decimal.zero then do
          let d ← tryMul prevVal s.sclDownCoef
          pure (d, .exactRoot, [prevVal])
        else .error (.invariantViolation
          "Invalid mathematical assumption: previous value cannot be less or equal to new value")
      else do
        let diff ← trySub prevVal newVal
        if diff ≤ admissibleError then do
          let d ← tryMul newVal s.sclDownCoef
          pure (d, .tolerance, [prevVal, newVal])
        else do
          let (d, exit, iterates) ← computeLoopTraced admissibleError fuel newVal
          pure (d, exit, prevVal :: iterates)

def computeTraced : Except AmmError (Decimal × Exit × List Decimal) := do
  let admissibleError ← okOr (Fixed.tryDiv (ofU64 1) (ofU64 2)) .panicked
  s.computeLoopTraced m admissibleError MAX_ITERATIONS s.initialGuess

variable {m : PowSqrt} {s : StableCurveInvariant} {k fuel : ℕ} {r : ℚ}
  {val val' out admissible d : Decimal} {exit : Exit} {iterates : List Decimal}

/-! ## The record changes nothing -/

theorem computeLoop_eq_traced :
    s.computeLoop m admissible fuel val
      = Prod.fst <$> s.computeLoopTraced m admissible fuel val := by
  induction fuel generalizing val with
  | zero => simp only [computeLoop, computeLoopTraced, map_bind, map_pure, bind_pure]
  | succ fuel ih =>
      unfold computeLoop computeLoopTraced
      rw [map_bind]
      congr 1
      funext val'
      split
      · rw [map_bind]
        congr 1
        funext poly
        split
        · simp only [map_bind, map_pure, bind_pure]
        · rfl
      · rw [map_bind]
        congr 1
        funext diff
        split
        · simp only [map_bind, map_pure, bind_pure]
        · rw [ih]
          cases s.computeLoopTraced m admissible fuel val' <;> rfl

theorem compute_eq_traced : s.compute m = Prod.fst <$> s.computeTraced m := by
  unfold compute computeTraced
  rw [map_bind]
  congr 1
  funext admissible
  exact computeLoop_eq_traced

/-! ## One iteration of the record -/

/-- How the loop was left, by the way it was: its last iterate scaled up is
what it returns, and is a root of the polynomial as the code evaluates it, or
comes after a step of at most one half, or is where the iterations ended. -/
inductive LeftBy (m : PowSqrt) (s : StableCurveInvariant) (d : Decimal) :
    Exit → List Decimal → Prop
  | root (before : List Decimal) {last : Decimal}
      (hroot : s.getStableSwapPolynomial m last = .ok Decimal.zero)
      (hd : tryMul (ε := AmmError) last s.sclDownCoef = .ok d) :
      LeftBy m s d .exactRoot (before ++ [last])
  | short (before : List Decimal) {prev last : Decimal}
      (hshort : 2 * (prev.raw - last.raw) ≤ wad)
      (hd : tryMul (ε := AmmError) last s.sclDownCoef = .ok d) :
      LeftBy m s d .tolerance (before ++ [prev, last])
  | spent (before : List Decimal) {last : Decimal}
      (hd : tryMul (ε := AmmError) last s.sclDownCoef = .ok d) :
      LeftBy m s d .exhausted (before ++ [last])

theorem LeftBy.cons (h : LeftBy m s d exit iterates) : LeftBy m s d exit (val :: iterates) := by
  cases h with
  | root before hroot hd => exact .root (val :: before) hroot hd
  | short before hshort hd => exact .short (val :: before) hshort hd
  | spent before hd => exact .spent (val :: before) hd

/-- The ways an iteration can go: it ends the loop at a root, it ends the
loop after a short step, or it is long and the loop goes on. -/
theorem computeLoopTraced_cases
    (h : s.computeLoopTraced m admissible (fuel + 1) val = .ok (d, exit, iterates)) :
    (exit = .exactRoot ∧ iterates = [val]
        ∧ s.getStableSwapPolynomial m val = .ok Decimal.zero
        ∧ tryMul (ε := AmmError) val s.sclDownCoef = .ok d)
    ∨ ∃ val', s.newtonMethodSingleIteration m val = .ok val' ∧ val' < val
      ∧ ((exit = .tolerance ∧ iterates = [val, val'] ∧ val.raw - val'.raw ≤ admissible.raw
          ∧ tryMul (ε := AmmError) val' s.sclDownCoef = .ok d)
        ∨ (admissible.raw < val.raw - val'.raw ∧ ∃ rest, iterates = val :: rest
          ∧ s.computeLoopTraced m admissible fuel val' = .ok (d, exit, rest))) := by
  unfold computeLoopTraced at h
  simp only [bind_eq_ok] at h
  obtain ⟨val', hstep, h⟩ := h
  split at h
  · simp only [bind_eq_ok] at h
    obtain ⟨poly, hpoly, h⟩ := h
    split at h
    · rename_i hzero
      simp only [bind_eq_ok, pure_eq_ok, Prod.mk.injEq] at h
      obtain ⟨_, hd, rfl, rfl, rfl⟩ := h
      exact Or.inl ⟨rfl, rfl, hzero ▸ hpoly, hd⟩
    · cases h
  · rename_i hdown
    simp only [bind_eq_ok, trySub_eq_ok] at h
    obtain ⟨diff, ⟨-, hdiff⟩, h⟩ := h
    refine Or.inr ⟨val', hstep, not_le.mp hdown, ?_⟩
    split at h
    · rename_i hshort
      simp only [bind_eq_ok, pure_eq_ok, Prod.mk.injEq] at h
      obtain ⟨_, hd, rfl, rfl, rfl⟩ := h
      exact Or.inl ⟨rfl, rfl, hdiff ▸ hshort, hd⟩
    · rename_i hlong
      simp only [bind_eq_ok, pure_eq_ok] at h
      obtain ⟨⟨d', exit', rest⟩, hrest, h⟩ := h
      cases h
      refine Or.inr ⟨?_, rest, rfl, hrest⟩
      rw [← hdiff]
      exact not_le.mp hlong

/-- **The iterates** start where the loop was entered; each is one step of
Newton's method from the one before, and below it. -/
theorem computeLoopTraced_iterates
    (h : s.computeLoopTraced m admissible fuel val = .ok (d, exit, iterates)) :
    iterates.head? = some val ∧ iterates.IsChain (· > ·)
      ∧ iterates.IsChain (fun val val' => s.newtonMethodSingleIteration m val = .ok val') := by
  induction fuel generalizing val iterates with
  | zero =>
      simp only [computeLoopTraced, bind_eq_ok, pure_eq_ok, Prod.mk.injEq] at h
      obtain ⟨_, -, -, -, rfl⟩ := h
      exact ⟨rfl, List.isChain_singleton val, List.isChain_singleton val⟩
  | succ fuel ih =>
      rcases computeLoopTraced_cases h with ⟨-, rfl, -⟩ | ⟨val', hstep, hdown, hend | hlong⟩
      · exact ⟨rfl, List.isChain_singleton val, List.isChain_singleton val⟩
      · obtain ⟨-, rfl, -⟩ := hend
        exact ⟨rfl, List.isChain_pair.mpr hdown, List.isChain_pair.mpr hstep⟩
      · obtain ⟨-, rest, rfl, hrest⟩ := hlong
        obtain ⟨hhead, hchain, hsteps⟩ := ih hrest
        refine ⟨rfl, List.isChain_cons.mpr ⟨?_, hchain⟩, List.isChain_cons.mpr ⟨?_, hsteps⟩⟩
        all_goals
          intro y hy
          rw [hhead] at hy
          cases hy
        · exact hdown
        · exact hstep

/-- **The exit** of the record is how the loop was left. -/
theorem computeLoopTraced_leftBy (hadm : 2 * admissible.raw ≤ wad)
    (h : s.computeLoopTraced m admissible fuel val = .ok (d, exit, iterates)) :
    LeftBy m s d exit iterates := by
  induction fuel generalizing val iterates with
  | zero =>
      simp only [computeLoopTraced, bind_eq_ok, pure_eq_ok, Prod.mk.injEq] at h
      obtain ⟨_, hd, rfl, rfl, rfl⟩ := h
      exact .spent [] hd
  | succ fuel ih =>
      rcases computeLoopTraced_cases h with ⟨rfl, rfl, hroot, hd⟩ | ⟨val', -, -, hend | hlong⟩
      · exact .root [] hroot hd
      · obtain ⟨rfl, rfl, hshort, hd⟩ := hend
        exact .short [] (by omega) hd
      · obtain ⟨-, rest, rfl, hrest⟩ := hlong
        exact (ih hrest).cons

/-- No iterate is above the first. -/
theorem iterate_le (hhead : iterates.head? = some val) (hchain : iterates.IsChain (· > ·))
    (hout : out ∈ iterates) : out ≤ val := by
  cases iterates with
  | nil => cases hhead
  | cons first rest =>
      obtain rfl : first = val := Option.some.inj hhead
      rcases List.mem_cons.mp hout with rfl | hrest
      · exact le_rfl
      · exact (List.rel_of_pairwise_cons (List.isChain_iff_pairwise.mp hchain) hrest).le

/-- What was returned is an iterate scaled up. -/
theorem LeftBy.scaled (h : LeftBy m s d exit iterates) :
    ∃ last ∈ iterates, tryMul (ε := AmmError) last s.sclDownCoef = .ok d := by
  cases h with
  | root before hroot hd => exact ⟨_, by simp, hd⟩
  | short before hshort hd => exact ⟨_, by simp, hd⟩
  | spent before hd => exact ⟨_, by simp, hd⟩

/-! ## Long steps -/

/-- `fuel` iterations in a row, none of which ends the loop. -/
inductive LongSteps (m : PowSqrt) (s : StableCurveInvariant) (admissible : Decimal) :
    ℕ → Decimal → Decimal → Prop
  | nil {val : Decimal} : LongSteps m s admissible 0 val val
  | cons {fuel : ℕ} {val val' out : Decimal}
      (hstep : s.newtonMethodSingleIteration m val = .ok val')
      (hlong : admissible.raw < val.raw - val'.raw)
      (hrest : LongSteps m s admissible fuel val' out) : LongSteps m s admissible (fuel + 1) val out

/-- A loop that runs out of iterations made long steps only. -/
theorem computeLoopTraced_exhausted
    (h : s.computeLoopTraced m admissible fuel val = .ok (d, .exhausted, iterates)) :
    ∃ out, LongSteps m s admissible fuel val out := by
  induction fuel generalizing val iterates with
  | zero => exact ⟨val, .nil⟩
  | succ fuel ih =>
      rcases computeLoopTraced_cases h with ⟨hexit, -, -⟩ | ⟨val', hstep, -, hend | hlong⟩
      · cases hexit
      · cases hend.1
      · obtain ⟨hdist, rest, -, hrest⟩ := hlong
        obtain ⟨out, hsteps⟩ := ih hrest
        exact ⟨out, .cons hstep hdist hsteps⟩

/-- The first of the steps, and the others. -/
theorem LongSteps.split {i j : ℕ} (h : LongSteps m s admissible (i + j) val out) :
    ∃ mid, LongSteps m s admissible i val mid ∧ LongSteps m s admissible j mid out := by
  induction i generalizing val with
  | zero =>
      rw [Nat.zero_add] at h
      exact ⟨val, .nil, h⟩
  | succ i ih =>
      rw [Nat.succ_add] at h
      cases h with
      | cons hstep hlong hrest =>
          obtain ⟨mid, hfirst, hlast⟩ := ih hrest
          exact ⟨mid, .cons hstep hlong hfirst, hlast⟩

theorem long_value (hlong : admissible.raw < val.raw - val'.raw) :
    admissible.value ≤ val.value - val'.value := by
  have hcast : (admissible.raw : ℚ) ≤ val.raw - val'.raw := by
    rw [← Nat.cast_sub (by omega)]
    exact_mod_cast hlong.le
  unfold Fixed.value
  rw [← sub_div]
  exact div_le_div_of_nonneg_right hcast (Nat.cast_nonneg _)

/-- Every long step counts for a half. -/
theorem LongSteps.half (hadm : 1 / 2 ≤ admissible.value)
    (h : LongSteps m s admissible fuel val out) : (fuel : ℚ) / 2 ≤ val.value - out.value := by
  induction h with
  | nil => simp
  | cons _ hlong _ ih =>
      have hstep := hadm.trans (long_value hlong)
      push_cast
      linarith

section Steps

variable (hm : m.Lawful) (hexp : s.exponent.val = k + 1) (hk3 : k ≤ 3)

include hm hexp hk3

/-- **Above the zero**: a hundredth more than where long steps lead, the
polynomial is not negative. -/
theorem LongSteps.above (hc : 1500 * ulp ≤ s.firstOrderCoeff.value)
    (h : LongSteps m s admissible (fuel + 1) val out) :
    0 ≤ Newton.poly k s.firstOrderCoeff.value s.polynomialThirdTerm.value
      (out.value + 1 / 100) := by
  obtain ⟨before, -, hlast⟩ := h.split
  cases hlast with
  | cons hstep _ hrest =>
      cases hrest
      obtain ⟨_, _, -, -, -, hnewton⟩ := iteration_step hm hexp hstep
      have hkq : (k : ℚ) ≤ 3 := by exact_mod_cast hk3
      have hu0 := ulp_nonneg
      have hc0 : 0 ≤ s.firstOrderCoeff.value := s.firstOrderCoeff.value_nonneg
      have hku : (k : ℚ) * ulp ≤ 3 * ulp := mul_le_mul_of_nonneg_right hkq hu0
      have hsmall : 3 * ulp ≤ 1 / 100 := by norm_num [ulp_eq]
      have hcu : (k + 2) * (k * ulp) ≤ 1 / 100 * s.firstOrderCoeff.value := by
        calc (k + 2) * (k * ulp) ≤ 5 * (3 * ulp) := by
              refine mul_le_mul (by linarith) hku (by positivity) (by norm_num)
          _ ≤ 1 / 100 * s.firstOrderCoeff.value := by linarith
      have habove := hnewton.poly_add_nonneg (hku.trans hsmall) hcu hc0 hu0
      rwa [sub_sub_cancel] at habove

/-- Every long step towards what is not below the zero starts at five
quarters of the distance that it leaves, but for what truncation adds. -/
theorem LongSteps.far (hr : 0 ≤ r) (hpoly : 0 ≤ Newton.poly k s.firstOrderCoeff.value
      s.polynomialThirdTerm.value r) (h : LongSteps m s admissible fuel val out)
    (hout : r + 1 ≤ out.value) :
    (5 / 4) ^ fuel * (out.value - r - 10 * ulp) ≤ val.value - r - 10 * ulp
      ∧ r + 1 ≤ val.value := by
  induction h with
  | nil => exact ⟨by simp, hout⟩
  | @cons fuel val val' out hstep hlong _ ih =>
      obtain ⟨hfar, hval'⟩ := ih hout
      obtain ⟨_, _, -, -, hle, hnewton⟩ := iteration_step hm hexp hstep
      have hval : r + 1 ≤ val.value :=
        hval'.trans ((Fixed.value_le_value wad_pos).mpr hle)
      have hcloser := hnewton.closer ulp_nonneg s.firstOrderCoeff.value_nonneg hr hval hpoly
      rw [sub_sub_cancel] at hcloser
      have hq : ((k + 1) / (k + 2) : ℚ) ≤ 4 / 5 := by
        have hkq : (k : ℚ) ≤ 3 := by exact_mod_cast hk3
        rw [div_le_div_iff₀ (by positivity) (by norm_num)]
        linarith
      have hfifth : (k + 1) / (k + 2) * (val.value - r) ≤ 4 / 5 * (val.value - r) :=
        mul_le_mul_of_nonneg_right hq (by linarith)
      refine ⟨?_, hval⟩
      calc (5 / 4) ^ (fuel + 1) * (out.value - r - 10 * ulp)
          = 5 / 4 * ((5 / 4) ^ fuel * (out.value - r - 10 * ulp)) := by ring
        _ ≤ 5 / 4 * (val'.value - r - 10 * ulp) :=
            mul_le_mul_of_nonneg_left hfar (by norm_num)
        _ ≤ val.value - r - 10 * ulp := by linarith

/-- **The budget is enough**: from a thousand, there are no 32 long steps. -/
theorem LongSteps.not_spent (hc : 1500 * ulp ≤ s.firstOrderCoeff.value)
    (hadm : 1 / 2 ≤ admissible.value) (hval : val.value ≤ 1000) :
    ¬ LongSteps m s admissible MAX_ITERATIONS val out := by
  intro h
  have habove := h.above hm hexp hk3 hc
  obtain ⟨mid, hfirst, hlast⟩ := LongSteps.split (i := 27) (j := 5) h
  have hhalf := hlast.half hadm
  have hout := out.value_nonneg
  push_cast at hhalf
  obtain ⟨hfar, -⟩ := hfirst.far hm hexp hk3 (by linarith) habove (by linarith)
  have hu : 10 * ulp ≤ 1 / 100 := by norm_num [ulp_eq]
  have hpow : (5 / 4 : ℚ) ^ 27 * (49 / 20) ≤ (5 / 4) ^ 27 * (mid.value - (out.value + 1 / 100)
      - 10 * ulp) := mul_le_mul_of_nonneg_left (by linarith) (by norm_num)
  have hnum : (1000 : ℚ) < (5 / 4) ^ 27 * (49 / 20) := by norm_num
  linarith [ulp_nonneg]

end Steps

/-! ## The loop is left in time -/

/-- The linear coefficient is not negligible. -/
theorem Constructed.linear_ge {amp x n e p : ℕ} (h : Constructed amp x n s e p) (hamp : 0 < amp)
    (hn : 2 ≤ n) : 10 ^ 6 ≤ s.firstOrderCoeff.raw := by
  have hnn : 2 ≤ n ^ n := hn.trans (Nat.le_self_pow (by omega) n)
  have hle : n ^ n ≤ amp * n ^ n := Nat.le_mul_of_pos_left _ hamp
  rw [h.linear]
  calc 10 ^ 6 ≤ p := h.product_ge
    _ ≤ n ^ n * p := Nat.le_mul_of_pos_left _ (by omega)
    _ ≤ (amp * n ^ n - 1) * (n ^ n * p) := Nat.le_mul_of_pos_left _ (by omega)

theorem initialGuess_le {amp : U64} {reserves : List TokenAmount}
    (h : new m amp reserves = .ok s) : s.initialGuess ≤ thousand := by
  simp only [new, bind_eq_ok, pure_eq_ok] at h
  obtain ⟨_, -, out, hout, _, -, _, -, _, -, _, -, _, -, _, -, _, -, _, -, _, -, _, -, _, -,
    rfl⟩ := h
  exact scaleDownLoop_le hout

/-- Scaled up again, what the loop returns is at most the sum. -/
theorem scaledUp_le {amp x n e p : ℕ} (h : Constructed amp x n s e p)
    (hd : tryMul (ε := AmmError) out s.sclDownCoef = .ok d) (hout : out ≤ s.initialGuess) :
    d.value ≤ x := by
  rw [tryMul_eq_ok, Nat.mul_comm, Fixed.mul_whole_raw wad_pos h.coef] at hd
  have hraw : d.raw ≤ x * wad := by
    calc d.raw = 1000 ^ e * out.raw := hd
      _ ≤ 1000 ^ e * (x * wad / 1000 ^ e) :=
          Nat.mul_le_mul_left _ ((Fixed.le_def.mp hout).trans h.guess.le)
      _ ≤ x * wad := Nat.mul_div_le _ _
  have hw : (0 : ℚ) < wad := by exact_mod_cast wad_pos
  unfold Fixed.value
  rw [div_le_iff₀ hw]
  exact_mod_cast hraw

/-- **The loop is left in time**, and what it returns is at most the sum. -/
theorem computeTraced_left (hm : m.Lawful) {amp x n e p : ℕ} (hc : Constructed amp x n s e p)
    (hamp : 0 < amp) (hn : 2 ≤ n) (hn4 : n ≤ 4) (hguess : s.initialGuess ≤ thousand)
    (h : s.computeTraced m = .ok (d, exit, iterates)) :
    exit ≠ .exhausted ∧ LeftBy m s d exit iterates ∧ iterates.head? = some s.initialGuess
      ∧ iterates.IsChain (· > ·)
      ∧ iterates.IsChain (fun val val' => s.newtonMethodSingleIteration m val = .ok val')
      ∧ d.value ≤ x := by
  obtain ⟨k, rfl⟩ : ∃ k, n = k + 1 := ⟨n - 1, by omega⟩
  have hexp : s.exponent.val = k + 1 := hc.exponent
  simp only [computeTraced, bind_eq_ok, okOr_eq_ok, Fixed.tryDiv_eq_some] at h
  obtain ⟨admissible, ⟨-, hadm⟩, h⟩ := h
  obtain ⟨hhead, hchain, hsteps⟩ := computeLoopTraced_iterates h
  have hleft := computeLoopTraced_leftBy (by
    rw [show admissible.raw = wad / 2 from hadm]
    norm_num) h
  refine ⟨?_, hleft, hhead, hchain, hsteps, ?_⟩
  · rintro rfl
    obtain ⟨out, hsteps⟩ := computeLoopTraced_exhausted h
    have hlinear : 1500 * ulp ≤ s.firstOrderCoeff.value := by
      have hcast : (10 ^ 6 : ℚ) ≤ s.firstOrderCoeff.raw := by exact_mod_cast hc.linear_ge hamp hn
      rw [ulp_eq, Fixed.value, ← mul_div_assoc, mul_one]
      push_cast
      exact div_le_div_of_nonneg_right (by linarith) (by norm_num)
    have hhalf : 1 / 2 ≤ admissible.value := by
      rw [Fixed.value, show admissible.raw = wad / 2 from hadm]
      norm_num
    have hthousand : s.initialGuess.value ≤ 1000 := by
      have hvalue : thousand.value = (1000 : ℕ) := Fixed.value_whole wad_pos rfl
      have hle := (Fixed.value_le_value wad_pos).mpr (Fixed.le_def.mp hguess)
      rw [hvalue] at hle
      exact_mod_cast hle
    exact LongSteps.not_spent hm hexp (by omega) hlinear hhalf hthousand hsteps
  · obtain ⟨last, hlast, hd⟩ := hleft.scaled
    exact scaledUp_le hc hd (iterate_le hhead hchain hlast)

end StableCurveInvariant

/-- **Convergence.** Where the invariant of two to four positive reserves is
computed, the loop of `compute` was left at an exact root or by the
tolerance; its iterates decrease, each one step of Newton's method from the
one before, and the result, the last of them scaled up, is positive and at
most the sum of the reserves. -/
theorem invariant_converges {m : PowSqrt} (hm : m.Lawful) {amp : U64}
    {reserves : List TokenAmount} {d : Decimal} (hlen : 2 ≤ reserves.length)
    (hlen4 : reserves.length ≤ 4) (hpos : ∀ x ∈ reserves, 1 ≤ x.val)
    (h : computeInvariant m amp reserves = .ok d) :
    ∃ s exit iterates, StableCurveInvariant.new m amp reserves = .ok s
      ∧ s.compute m = Prod.fst <$> s.computeTraced m
      ∧ s.computeTraced m = .ok (d, exit, iterates) ∧ exit ≠ .exhausted
      ∧ StableCurveInvariant.LeftBy m s d exit iterates
      ∧ iterates.head? = some s.initialGuess ∧ iterates.IsChain (· > ·)
      ∧ iterates.IsChain (fun val val' => s.newtonMethodSingleIteration m val = .ok val')
      ∧ 0 < d.value ∧ d.value ≤ (reserves.map (·.val)).sum := by
  have hne : reserves ≠ [] := List.length_pos_iff.mp (by omega)
  have hsum := one_le_sum_reserves hne hpos
  have hdpos : 0 < d.raw := computeInvariant_pos hm hne (by omega) hsum h
  simp only [computeInvariant, bind_eq_ok, ensure_eq_ok] at h
  obtain ⟨-, hamp, s, hs, h⟩ := h
  have hamp' : 0 < amp.val := Nat.pos_of_ne_zero (mt Word.val_eq_zero.mp hamp)
  have hc := StableCurveInvariant.constructed hm (by omega) hsum hs
  rw [StableCurveInvariant.compute_eq_traced] at h
  cases htraced : s.computeTraced m with
  | error err =>
      rw [htraced] at h
      cases h
  | ok run =>
      obtain ⟨d', exit, iterates⟩ := run
      rw [htraced] at h
      cases h
      obtain ⟨hexit, hleft, hhead, hchain, hsteps, hle⟩ :=
        StableCurveInvariant.computeTraced_left hm hc hamp' hlen hlen4
          (StableCurveInvariant.initialGuess_le hs) htraced
      have hvalue : 0 < d'.value := by
        have hraw : (0 : ℚ) < d'.raw := by exact_mod_cast hdpos
        unfold Fixed.value
        positivity
      exact ⟨s, exit, iterates, hs, StableCurveInvariant.compute_eq_traced, htraced, hexit,
        hleft, hhead, hchain, hsteps, hvalue, hle⟩

/-- Reserves so uneven that the loop makes 28 iterations. -/
def uneven : List TokenAmount := [962060129529, 12, 12271, 21376197]

theorem invariant_converges_uneven :
    ∃ d s exit iterates, computeInvariant PowSqrt.digitwise 1 uneven = .ok d
      ∧ StableCurveInvariant.new PowSqrt.digitwise 1 uneven = .ok s
      ∧ s.compute PowSqrt.digitwise = Prod.fst <$> s.computeTraced PowSqrt.digitwise
      ∧ s.computeTraced PowSqrt.digitwise = .ok (d, exit, iterates) ∧ exit ≠ .exhausted
      ∧ StableCurveInvariant.LeftBy PowSqrt.digitwise s d exit iterates
      ∧ iterates.head? = some s.initialGuess ∧ iterates.IsChain (· > ·)
      ∧ iterates.IsChain
        (fun val val' => s.newtonMethodSingleIteration PowSqrt.digitwise val = .ok val')
      ∧ 0 < d.value ∧ d.value ≤ (uneven.map (·.val)).sum := by
  have hok : (computeInvariant PowSqrt.digitwise 1 uneven).isOk = true := by
    decide +kernel
  cases h : computeInvariant PowSqrt.digitwise 1 uneven with
  | error e =>
      rw [h] at hok
      cases hok
  | ok d =>
      obtain ⟨s, exit, iterates, hrun⟩ := invariant_converges PowSqrt.digitwise_lawful
        (by decide) (by decide) (by decide) h
      exact ⟨d, s, exit, iterates, rfl, hrun⟩

end SolanaAmm.Amm
