import Mathlib.Algebra.BigOperators.Group.List.Basic
import Mathlib.Algebra.Order.Ring.Canonical
import Mathlib.Tactic.Ring

/-!
# Fund — what a share is worth

A fund has assets of several kinds and shares in issue. The worth of a
share is the product of the assets by as many powers of the shares as there
are assets, the measure in which a trade between two assets at the price of
a constant product neither gains nor loses. `Fund.WorthLe` compares two
funds by it without dividing, and the lemmas say what keeps the worth of a
share: assets that grow with the shares, shares that are given up, trades,
and new shares that are paid for by a part of what an asset gained.
-/

namespace SolanaAmm

/-- Assets of several kinds, and the shares in them. -/
structure Fund (R : Type) where
  assets : List R
  shares : R

namespace Fund

variable {R : Type} [CommSemiring R] [LinearOrder R] {f g h : Fund R}

/-- A share of `g` is worth no less than a share of `f`, which has assets
of the same kinds. -/
structure WorthLe (f g : Fund R) : Prop where
  kinds : g.assets.length = f.assets.length
  worth : f.assets.prod * g.shares ^ f.assets.length ≤ g.assets.prod * f.shares ^ f.assets.length

theorem WorthLe.refl (f : Fund R) : WorthLe f f := ⟨rfl, le_refl _⟩

section Kept

variable [CanonicallyOrderedAdd R]

theorem prod_mul_pow_le {c d : R} {xs ys : List R}
    (h : List.Forall₂ (fun x y => x * c ≤ y * d) xs ys) :
    xs.prod * c ^ xs.length ≤ ys.prod * d ^ xs.length := by
  induction h with
  | nil => simp
  | @cons x y xs ys hxy _ ih =>
      rw [List.prod_cons, List.prod_cons, List.length_cons, pow_succ, pow_succ]
      calc x * xs.prod * (c ^ xs.length * c)
          = x * c * (xs.prod * c ^ xs.length) := by ring
        _ ≤ y * d * (ys.prod * d ^ xs.length) := mul_le_mul' hxy ih
        _ = y * ys.prod * (d ^ xs.length * d) := by ring

/-- Every asset has grown at least as the shares have. -/
theorem WorthLe.of_backed
    (hb : List.Forall₂ (fun x y => x * g.shares ≤ y * f.shares) f.assets g.assets) :
    WorthLe f g :=
  ⟨hb.length_eq.symm, prod_mul_pow_le hb⟩

/-- A trade. -/
theorem WorthLe.of_product_le (hkinds : g.assets.length = f.assets.length)
    (hshares : g.shares = f.shares) (hprod : f.assets.prod ≤ g.assets.prod) : WorthLe f g where
  kinds := hkinds
  worth := by
    rw [hshares]
    exact mul_le_mul_left hprod _

/-- Shares that are given up. -/
theorem WorthLe.of_shares_le (hassets : g.assets = f.assets) (hshares : g.shares ≤ f.shares) :
    WorthLe f g where
  kinds := by rw [hassets]
  worth := by
    rw [hassets]
    exact mul_le_mul_right (pow_le_pow_left' hshares _) _

end Kept

variable [CanonicallyOrderedAdd R] [IsStrictOrderedRing R]

/-- The fund in between has shares to compare by. -/
theorem WorthLe.trans (hg : 0 < g.shares) (hfg : WorthLe f g) (hgh : WorthLe g h) :
    WorthLe f h where
  kinds := hgh.kinds.trans hfg.kinds
  worth := by
    have h₁ := hfg.worth
    have h₂ := hgh.worth
    rw [hfg.kinds] at h₂
    generalize f.assets.length = n at h₁ h₂ ⊢
    refine le_of_mul_le_mul_right ?_ (pow_pos hg n)
    calc f.assets.prod * h.shares ^ n * g.shares ^ n
        = f.assets.prod * g.shares ^ n * h.shares ^ n := by ring
      _ ≤ g.assets.prod * f.shares ^ n * h.shares ^ n := mul_le_mul_left h₁ _
      _ = g.assets.prod * h.shares ^ n * f.shares ^ n := by ring
      _ ≤ h.assets.prod * g.shares ^ n * f.shares ^ n := mul_le_mul_left h₂ _
      _ = h.assets.prod * f.shares ^ n * g.shares ^ n := by ring

/-! ## Shares that are paid for by a gain -/

/-- Against `n` parts of an asset that are taken away, `n` times a part is
added: the square of the part is lost every time. -/
theorem add_pow_mul_le {x y t : R} (n : ℕ) (h : y + n * t ≤ x) : (x + t) ^ n * y ≤ x ^ (n + 1) := by
  induction n generalizing y with
  | zero => simpa using h
  | succ n ih =>
      have hle : y ≤ x := le_self_add.trans h
      have hnext : y + t + n * t ≤ x := by
        refine le_trans (le_of_eq ?_) h
        push_cast
        ring
      calc (x + t) ^ (n + 1) * y
          = (x + t) ^ n * (x * y + t * y) := by ring
        _ ≤ (x + t) ^ n * (x * y + t * x) := by gcongr
        _ = x * ((x + t) ^ n * (y + t)) := by ring
        _ ≤ x * x ^ (n + 1) := mul_le_mul_right (ih hnext) x
        _ = x ^ (n + 1 + 1) := by ring

/-- New shares for `t` of an asset `y`, of what it gained at least `n`
times as much. -/
theorem mul_shares_pow_le {y gain t issued shares : R} (n : ℕ)
    (hissued : issued * (y + gain) ≤ shares * t) (hgain : n * t ≤ gain) :
    y * (shares + issued) ^ n ≤ (y + gain) * shares ^ n := by
  rcases eq_or_ne (y + gain) 0 with hzero | hne
  · have hy : y = 0 := (add_eq_zero.mp hzero).1
    rw [hy, zero_mul]
    exact zero_le
  · have hpos : 0 < (y + gain) ^ n := pow_pos (pos_iff_ne_zero.mpr hne) n
    refine le_of_mul_le_mul_right ?_ hpos
    have hper : (shares + issued) * (y + gain) ≤ shares * (y + gain + t) := by
      rw [add_mul, mul_add shares _ t]
      exact add_le_add_right hissued _
    calc y * (shares + issued) ^ n * (y + gain) ^ n
        = y * ((shares + issued) * (y + gain)) ^ n := by rw [mul_pow, mul_assoc]
      _ ≤ y * (shares * (y + gain + t)) ^ n := mul_le_mul_right (pow_le_pow_left' hper n) y
      _ = shares ^ n * ((y + gain + t) ^ n * y) := by rw [mul_pow]; ring
      _ ≤ shares ^ n * (y + gain) ^ (n + 1) :=
          mul_le_mul_right (add_pow_mul_le n (add_le_add_right hgain y)) _
      _ = (y + gain) * shares ^ n * (y + gain) ^ n := by ring

/-- A trade whose bought asset gained a fee, of which a part for every
asset is given out in shares. -/
theorem WorthLe.of_fee {rest y fee t issued : R} (hkinds : g.assets.length = f.assets.length)
    (hbefore : f.assets.prod ≤ rest * y) (hafter : g.assets.prod = rest * (y + fee))
    (hshares : g.shares = f.shares + issued) (hissued : issued * (y + fee) ≤ f.shares * t)
    (hfee : f.assets.length * t ≤ fee) : WorthLe f g where
  kinds := hkinds
  worth := by
    rw [hafter, hshares]
    calc f.assets.prod * (f.shares + issued) ^ f.assets.length
        ≤ rest * y * (f.shares + issued) ^ f.assets.length := mul_le_mul_left hbefore _
      _ = rest * (y * (f.shares + issued) ^ f.assets.length) := mul_assoc _ _ _
      _ ≤ rest * ((y + fee) * f.shares ^ f.assets.length) :=
          mul_le_mul_right (mul_shares_pow_le _ hissued hfee) _
      _ = rest * (y + fee) * f.shares ^ f.assets.length := (mul_assoc _ _ _).symm

/-! ## What the worth says of the assets -/

/-- Assets that all fell by the share lower the worth. -/
theorem prod_lt_of_forall₂ {c d : R} {xs ys : List R} (hne : xs ≠ [])
    (hlt : List.Forall₂ (fun x y => y * c < x * d) xs ys) :
    ys.prod * c ^ xs.length < xs.prod * d ^ xs.length := by
  induction hlt with
  | nil => exact absurd rfl hne
  | @cons x y xs ys hxy hrest ih =>
      rw [List.prod_cons, List.prod_cons, List.length_cons, pow_succ, pow_succ]
      have hhead : y * ys.prod * (c ^ xs.length * c) = y * c * (ys.prod * c ^ xs.length) := by ring
      have htail : x * xs.prod * (d ^ xs.length * d) = x * d * (xs.prod * d ^ xs.length) := by ring
      rw [hhead, htail]
      cases hrest with
      | nil => simpa using hxy
      | cons h₁ h₂ =>
          exact mul_lt_mul'' hxy (ih (List.cons_ne_nil _ _)) zero_le zero_le

/-- Of some asset there is no less to a share. -/
theorem WorthLe.exists_backed (hfg : WorthLe f g) (hne : f.assets ≠ []) :
    ∃ p ∈ f.assets.zip g.assets, p.1 * g.shares ≤ p.2 * f.shares := by
  by_contra hall
  push Not at hall
  have hzip : List.Forall₂ (fun x y => y * f.shares < x * g.shares) f.assets g.assets :=
    List.forall₂_iff_zip.mpr ⟨hfg.kinds.symm, fun hmem => hall _ hmem⟩
  exact absurd hfg.worth (not_le.mpr (prod_lt_of_forall₂ hne hzip))

end Fund

end SolanaAmm
