import SolanaAmm.Amm.Pool
import SolanaAmm.Lib.Maps

/-!
# Amm — Maps

The maps the pool's methods build: collecting over the pairs of another
map, and the map of a pool's own reserves.
-/

namespace SolanaAmm.Amm

open Result Decimal

/-! ## Collecting into a map -/

theorem mapPairs_eq_ok {α β : Type} {f : Pubkey → α → Except AmmError β}
    {l : List (Pubkey × α)} {t : BTreeMap β} (hl : (l.map Prod.fst).Nodup)
    (h : mapPairs f l = .ok t) (k : Pubkey) (b : β) :
    t[k]? = some b ↔ ∃ a, (k, a) ∈ l ∧ f k a = .ok b := by
  simp only [mapPairs, bind_eq_ok, mapM_eq_ok, pure_eq_ok] at h
  obtain ⟨pairs, hpairs, rfl⟩ := h
  have hkeys : l.map Prod.fst = pairs.map Prod.fst := by
    refine Lists.forall₂_map_eq ?_ hpairs
    rintro a b ⟨c, -, rfl⟩
    rfl
  rw [Maps.getElem?_ofList (hkeys ▸ hl)]
  constructor
  · intro hb
    obtain ⟨⟨k', a⟩, ha, c, hc, heq⟩ := Lists.forall₂_exists_right hpairs.flip hb
    cases heq
    exact ⟨a, ha, hc⟩
  · rintro ⟨a, ha, hb⟩
    obtain ⟨p, hp, c, hc, rfl⟩ := Lists.forall₂_exists_right hpairs ha
    rw [hb] at hc
    cases hc
    exact hp

/-- Every pair was mapped. -/
theorem mapPairs_total {α β : Type} {f : Pubkey → α → Except AmmError β}
    {l : List (Pubkey × α)} {t : BTreeMap β} (hl : (l.map Prod.fst).Nodup)
    (h : mapPairs f l = .ok t) {k : Pubkey} {a : α} (ha : (k, a) ∈ l) :
    ∃ b, f k a = .ok b ∧ t[k]? = some b := by
  have h' := h
  simp only [mapPairs, bind_eq_ok, mapM_eq_ok, pure_eq_ok] at h'
  obtain ⟨pairs, hpairs, rfl⟩ := h'
  obtain ⟨p, -, b, hb, -⟩ := Lists.forall₂_exists_right hpairs ha
  exact ⟨b, hb, (mapPairs_eq_ok hl h k b).mpr ⟨a, ha, hb⟩⟩

theorem mem_values {α : Type} {t : BTreeMap α} {v : α} :
    v ∈ t.values ↔ ∃ k : Pubkey, t[k]? = some v := by
  rw [Maps.values_eq, List.mem_map]
  constructor
  · rintro ⟨⟨k, w⟩, hp, rfl⟩
    exact ⟨k, Maps.mem_toList.mp hp⟩
  · rintro ⟨k, hk⟩
    exact ⟨(k, v), Maps.mem_toList.mpr hk, rfl⟩

theorem values_any {α : Type} {t : BTreeMap α} {p : α → Bool} :
    t.values.any p = true ↔ ∃ (k : Pubkey) (v : α), t[k]? = some v ∧ p v = true := by
  rw [List.any_eq_true]
  constructor
  · rintro ⟨v, hv, hp⟩
    obtain ⟨k, hk⟩ := mem_values.mp hv
    exact ⟨k, v, hk, hp⟩
  · rintro ⟨k, v, hk, hp⟩
    exact ⟨v, mem_values.mpr ⟨k, hk⟩, hp⟩

namespace Pool

variable {pool : Pool}

theorem reservesHashmap_getElem? (hp : pool.WellFormed) {k : Pubkey} {t : TokenAmount} :
    pool.reservesHashmap[k]? = some t ↔
      ∃ r ∈ pool.activeReserves, r.mint = k ∧ r.tokens = t := by
  have hnodup : ((pool.activeReserves.map (fun r => (r.mint, r.tokens))).map Prod.fst).Nodup := by
    rw [List.map_map]
    exact hp.mints_nodup
  rw [reservesHashmap, Maps.getElem?_ofList hnodup, List.mem_map]
  constructor
  · rintro ⟨r, hr, heq⟩
    cases heq
    exact ⟨r, hr, rfl, rfl⟩
  · rintro ⟨r, hr, rfl, rfl⟩
    exact ⟨r, hr, rfl⟩

theorem reservesHashmap_mint (hp : pool.WellFormed) {r : Reserve}
    (hr : r ∈ pool.activeReserves) : pool.reservesHashmap[r.mint]? = some r.tokens :=
  (reservesHashmap_getElem? hp).mpr ⟨r, hr, rfl, rfl⟩

/-- The first reserve, the one LP tokens are computed from. -/
theorem WellFormed.head? (hp : pool.WellFormed) :
    ∃ r, pool.reserves.head? = some r ∧ r ∈ pool.activeReserves := by
  have hlen := hp.slots
  have h2 := hp.two_le
  unfold activeReserves
  cases hrs : pool.reserves with
  | nil => rw [hrs] at hlen; cases hlen
  | cons r l =>
      refine ⟨r, rfl, ?_⟩
      obtain ⟨d, hd⟩ : ∃ d, pool.dimension.val = d + 1 := ⟨_, (Nat.succ_pred (by omega)).symm⟩
      rw [hd, List.take_succ_cons]
      exact List.mem_cons_self

/-- The pairs of the map of reserves are the reserves, in another order. -/
theorem reservesHashmap_perm (hp : pool.WellFormed) :
    pool.reservesHashmap.toList.Perm (pool.activeReserves.map (fun r => (r.mint, r.tokens))) := by
  refine Maps.toList_ofList_perm ?_
  rw [List.map_map]
  exact hp.mints_nodup

end Pool

end SolanaAmm.Amm
