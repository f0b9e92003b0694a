import SolanaAmm.Amm.Pool
import SolanaAmm.Lib.Maps

/-!
# Amm — What the pool's methods move

Every method of the pool that changes reserves adds tokens to some of
them and removes tokens from others, and touches nothing else. `Moved`
says so with two functions of the mint, what was added and what was
removed; it composes, so a loop over reserves moves the sum of what its
iterations move.
-/

namespace SolanaAmm.Amm

open Result Decimal

/-- `n` at one mint and nothing elsewhere. -/
def single (mint : Pubkey) (n : ℕ) : Pubkey → ℕ :=
  fun k => if k = mint then n else 0

@[simp] theorem single_self {mint : Pubkey} {n : ℕ} : single mint n mint = n := if_pos rfl

theorem single_ne {mint k : Pubkey} {n : ℕ} (h : k ≠ mint) : single mint n k = 0 := if_neg h

@[simp] theorem single_zero {mint k : Pubkey} : single mint 0 k = 0 := ite_self 0

/-- The amounts of a list of pairs, by mint. -/
def amounts (l : List (Pubkey × TokenAmount)) : Pubkey → ℕ :=
  fun k => (l.map (fun mt => single mt.1 mt.2.val k)).sum

theorem amounts_cons (mt : Pubkey × TokenAmount) (l : List (Pubkey × TokenAmount))
    (k : Pubkey) : amounts (mt :: l) k = single mt.1 mt.2.val k + amounts l k := rfl

/-- A mint that is not listed has no amount. -/
theorem amounts_of_notMem {l : List (Pubkey × TokenAmount)} {k : Pubkey}
    (h : k ∉ l.map Prod.fst) : amounts l k = 0 := by
  induction l with
  | nil => rfl
  | cons mt l ih =>
      rw [List.map_cons, List.mem_cons, not_or] at h
      rw [amounts_cons, single_ne h.1, ih h.2]

/-- A mint that is listed once has the amount it is listed with. -/
theorem amounts_of_mem {l : List (Pubkey × TokenAmount)} {k : Pubkey} {t : TokenAmount}
    (hl : (l.map Prod.fst).Nodup) (h : (k, t) ∈ l) : amounts l k = t.val := by
  induction l with
  | nil => cases h
  | cons mt l ih =>
      rw [List.map_cons, List.nodup_cons] at hl
      rw [amounts_cons]
      rcases List.mem_cons.mp h with rfl | h
      · rw [single_self, amounts_of_notMem hl.1, Nat.add_zero]
      · have hne : k ≠ mt.1 := by
          rintro rfl
          exact hl.1 (List.mem_map.mpr ⟨(mt.1, t), h, rfl⟩)
        rw [single_ne hne, ih hl.2 h, Nat.zero_add]

/-- The amounts of a map of token amounts. -/
def mapAmounts (t : BTreeMap TokenAmount) : Pubkey → ℕ := amounts t.toList

theorem mapAmounts_of_getElem? {t : BTreeMap TokenAmount} {k : Pubkey} {a : TokenAmount}
    (h : t[k]? = some a) : mapAmounts t k = a.val :=
  amounts_of_mem (Maps.keys_nodup t) (Maps.mem_toList.mpr h)

theorem mapAmounts_eq (t : BTreeMap TokenAmount) (k : Pubkey) :
    mapAmounts t k = (t[k]?.map (·.val)).getD 0 := by
  cases hk : t[k]? with
  | some a => exact mapAmounts_of_getElem? hk
  | none =>
      refine amounts_of_notMem (fun hmem => ?_)
      obtain ⟨⟨k', a⟩, hka, rfl⟩ := List.mem_map.mp hmem
      rw [Maps.mem_toList.mp hka] at hk
      cases hk

namespace Pool

/-- The pool with other initialised reserves. -/
def withActive (pool : Pool) (rs : List Reserve) : Pool :=
  { pool with reserves := rs ++ pool.unusedReserves }

variable {pool pool' pool'' : Pool} {rs : List Reserve}

theorem withActive_activeReserves (h : rs.length = pool.activeReserves.length) :
    (pool.withActive rs).activeReserves = rs := by
  show (rs ++ pool.unusedReserves).take pool.dimension.val = rs
  rw [activeReserves, List.length_take] at h
  rcases Nat.le_total pool.dimension.val pool.reserves.length with hd | hd
  · rw [Nat.min_eq_left hd] at h
    rw [← h, List.take_left']
    rfl
  · rw [Nat.min_eq_right hd] at h
    rw [unusedReserves, List.drop_eq_nil_of_le hd, List.append_nil,
      List.take_of_length_le (by omega)]

theorem withActive_unusedReserves (h : rs.length = pool.activeReserves.length) :
    (pool.withActive rs).unusedReserves = pool.unusedReserves := by
  show (rs ++ pool.unusedReserves).drop pool.dimension.val = pool.unusedReserves
  rw [activeReserves, List.length_take] at h
  rcases Nat.le_total pool.dimension.val pool.reserves.length with hd | hd
  · rw [Nat.min_eq_left hd] at h
    rw [← h, List.drop_left']
    rfl
  · rw [Nat.min_eq_right hd] at h
    rw [unusedReserves, List.drop_eq_nil_of_le hd, List.append_nil,
      List.drop_eq_nil_of_le (by omega)]

theorem withActive_length (h : rs.length = pool.activeReserves.length) :
    (pool.withActive rs).reserves.length = pool.reserves.length := by
  show (rs ++ pool.unusedReserves).length = _
  rw [List.length_append, h, ← List.length_append, activeReserves, unusedReserves,
    List.take_append_drop]

/-- One reserve, before and after: the same mint and vault, `up` tokens
more and `down` fewer. -/
structure ReserveMoved (up down : Pubkey → ℕ) (r r' : Reserve) : Prop where
  mint : r'.mint = r.mint
  vault : r'.vault = r.vault
  tokens : r'.tokens.val + down r.mint = r.tokens.val + up r.mint

/-- The pool after tokens were added to and removed from its initialised
reserves, and nothing else happened. -/
structure Moved (pool pool' : Pool) (up down : Pubkey → ℕ) : Prop where
  reserves : List.Forall₂ (ReserveMoved up down) pool.activeReserves pool'.activeReserves
  rest : pool' = pool.withActive pool'.activeReserves

namespace Moved

variable {up down up' down' : Pubkey → ℕ}

theorem length (h : Moved pool pool' up down) :
    pool'.activeReserves.length = pool.activeReserves.length :=
  h.reserves.length_eq.symm

theorem mints (h : Moved pool pool' up down) :
    pool'.activeReserves.map (·.mint) = pool.activeReserves.map (·.mint) :=
  (Lists.forall₂_map_eq (fun _ _ hr => hr.mint.symm) h.reserves).symm

theorem dimension (h : Moved pool pool' up down) : pool'.dimension = pool.dimension := by
  rw [h.rest]
  rfl

theorem curve (h : Moved pool pool' up down) : pool'.curve = pool.curve := by
  rw [h.rest]
  rfl

theorem wellFormed (h : Moved pool pool' up down) (hp : pool.WellFormed) :
    pool'.WellFormed where
  slots := by
    rw [h.rest, withActive_length h.length, hp.slots]
  two_le := by rw [h.dimension]; exact hp.two_le
  le_max := by rw [h.dimension]; exact hp.le_max
  mints_nodup := by rw [h.mints]; exact hp.mints_nodup

theorem trans (h : Moved pool pool' up down) (h' : Moved pool' pool'' up' down') :
    Moved pool pool'' (fun k => up k + up' k) (fun k => down k + down' k) where
  reserves := by
    refine Lists.forall₂_trans (fun a b c hab hbc => ?_) h.reserves h'.reserves
    refine ⟨hbc.mint.trans hab.mint, hbc.vault.trans hab.vault, ?_⟩
    have h₁ := hab.tokens
    have h₂ := hbc.tokens
    rw [hab.mint] at h₂
    omega
  rest := by
    conv_lhs => rw [h'.rest, h.rest]
    unfold withActive
    have hu : (pool.withActive _).unusedReserves = _ := withActive_unusedReserves h.length
    unfold withActive at hu
    rw [hu]

theorem refl (pool : Pool) : Moved pool pool (fun _ => 0) (fun _ => 0) where
  reserves := List.forall₂_same.mpr (fun _ _ => ⟨rfl, rfl, rfl⟩)
  rest := by
    show pool = { pool with reserves := pool.activeReserves ++ pool.unusedReserves }
    rw [activeReserves, unusedReserves, List.take_append_drop]

/-- What happened to the reserve of a given mint. -/
theorem reserve (h : Moved pool pool' up down) {r : Reserve} (hr : r ∈ pool.activeReserves) :
    ∃ r' ∈ pool'.activeReserves, ReserveMoved up down r r' :=
  Lists.forall₂_exists_right h.reserves hr

end Moved

/-- **One reserve moves**: a write through `reserve_mut` moves what it
moves in the reserve of that mint. -/
theorem updateReserve_moved {mint : Pubkey} {e : AmmError}
    {f : Reserve → Except AmmError Reserve} {up down : ℕ}
    (hp : (pool.activeReserves.map (·.mint)).Nodup)
    (hf : ∀ r r', f r = .ok r' → ReserveMoved (fun _ => up) (fun _ => down) r r')
    (h : pool.updateReserve mint e f = .ok pool') :
    Moved pool pool' (single mint up) (single mint down) := by
  simp only [updateReserve, bind_eq_ok, pure_eq_ok] at h
  obtain ⟨rs, hrs, rfl⟩ := h
  have hlen := Lists.updateFirst_length hrs
  obtain ⟨l₁, r, l₂, r', hl, -, hr, hfr, rfl⟩ := Lists.updateFirst_eq_ok.mp hrs
  have hm : r.mint = mint := by simpa using hr
  have hactive := withActive_activeReserves hlen
  -- the other reserves have other mints, and stay
  have hother : ∀ l : List Reserve, (∀ b ∈ l, b.mint ≠ mint) →
      List.Forall₂ (ReserveMoved (single mint up) (single mint down)) l l :=
    fun l hl => List.forall₂_same.mpr (fun b hb =>
      ⟨rfl, rfl, by rw [single_ne (hl b hb), single_ne (hl b hb)]⟩)
  rw [hl, List.map_append, List.map_cons, List.nodup_append] at hp
  obtain ⟨-, hp₂, hp₁⟩ := hp
  rw [List.nodup_cons] at hp₂
  refine ⟨?_, ?_⟩
  · show List.Forall₂ _ _ (pool.withActive (l₁ ++ r' :: l₂)).activeReserves
    rw [hactive, hl]
    refine List.rel_append (hother l₁ ?_) (.cons ?_ (hother l₂ ?_))
    · intro b hb hbm
      exact hp₁ b.mint (List.mem_map_of_mem hb) r.mint List.mem_cons_self (by rw [hbm, hm])
    · have hmove := hf r r' hfr
      refine ⟨hmove.mint, hmove.vault, ?_⟩
      rw [hm, single_self, single_self]
      exact hmove.tokens
    · intro b hb hbm
      exact hp₂.1 (List.mem_map.mpr ⟨b, hb, by rw [hbm, hm]⟩)
  · show pool.withActive (l₁ ++ r' :: l₂) = _
    rw [show ({ pool with reserves := (l₁ ++ r' :: l₂) ++ pool.unusedReserves } : Pool)
      = pool.withActive (l₁ ++ r' :: l₂) from rfl, hactive]

theorem addTokens_moved {t : TokenAmount} (r r' : Reserve) (h : r.addTokens t = .ok r') :
    ReserveMoved (fun _ => t.val) (fun _ => 0) r r' := by
  obtain ⟨ht, hm, hv⟩ := Reserve.addTokens_eq_ok.mp h
  exact ⟨hm, hv, by simpa using ht⟩

theorem removeTokens_moved {t : TokenAmount} (r r' : Reserve)
    (h : r.removeTokens t = .ok r') : ReserveMoved (fun _ => 0) (fun _ => t.val) r r' := by
  obtain ⟨hle, ht, hm, hv⟩ := Reserve.removeTokens_eq_ok.mp h
  exact ⟨hm, hv, by show _ + t.val = _ + 0; omega⟩

theorem addAll_moved {l : List (Pubkey × TokenAmount)} (hp : pool.WellFormed)
    (h : pool.addAll l = .ok pool') : Moved pool pool' (amounts l) (fun _ => 0) := by
  unfold addAll at h
  induction l generalizing pool with
  | nil =>
      simp only [List.foldlM_nil, pure_eq_ok] at h
      subst h
      exact .refl pool
  | cons mt l ih =>
      simp only [List.foldlM_cons, bind_eq_ok] at h
      obtain ⟨p, hmt, hl⟩ := h
      have hmoved := updateReserve_moved hp.mints_nodup addTokens_moved hmt
      rw [funext (amounts_cons mt l)]
      simpa using hmoved.trans (ih (hmoved.wellFormed hp) hl)

theorem removeAll_moved {l : List (Pubkey × TokenAmount)} (hp : pool.WellFormed)
    (h : pool.removeAll l = .ok pool') : Moved pool pool' (fun _ => 0) (amounts l) := by
  unfold removeAll at h
  induction l generalizing pool with
  | nil =>
      simp only [List.foldlM_nil, pure_eq_ok] at h
      subst h
      exact .refl pool
  | cons mt l ih =>
      simp only [List.foldlM_cons, bind_eq_ok] at h
      obtain ⟨p, hmt, hl⟩ := h
      have hmoved := updateReserve_moved hp.mints_nodup removeTokens_moved hmt
      rw [funext (amounts_cons mt l)]
      simpa using hmoved.trans (ih (hmoved.wellFormed hp) hl)

end Pool

end SolanaAmm.Amm
