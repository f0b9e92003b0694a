import SolanaAmm.Amm.ConstantProduct
import SolanaAmm.Amm.Custody
import SolanaAmm.Amm.Quadratic

/-!
# Amm — Outstanding

While LP tokens are outstanding no reserve may be empty. Deposits and
redemptions see to it, and so does a swap on a constant-product pool. A
swap on a stable pool leaves what the curve's quadratic says, truncated
to 18 decimals: nothing if its root is below the last of them, which it is
not as long as the invariant is not small next to the other balances.
-/

namespace SolanaAmm.Amm

open Result Decimal Token Pool

/-! ## One swap -/

namespace Pool

variable {pool pool' : Pool} {sellMint buyMint : Pubkey}

/-- **The condition** on a swap: on a stable pool, the root of its quadratic
is in sight. -/
def rootVisible (pool : Pool) (sellMint : Pubkey) (n : ℕ) (buyMint : Pubkey) : Bool :=
  match pool.curve with
  | .constProd => true
  | .stable amplifier invariant =>
      RootVisible pool.dimension.val amplifier.val invariant.raw
        (pool.otherSum sellMint n buyMint) (pool.otherProduct sellMint n buyMint)

/-- Selling less than the reserve holds at most doubles each balance. -/
theorem otherProduct_le (hp : pool.WellFormed) {n : TokenAmount}
    (hpos : ∀ r ∈ pool.activeReserves, 0 < r.tokens.val)
    (hsold : ∃ r ∈ pool.activeReserves, r.mint = sellMint ∧ n.val < r.tokens.val)
    {r : Reserve} (hr : r ∈ pool.activeReserves) :
    pool.otherProduct sellMint n.val r.mint ≤ 2 ^ 4 * pool.product := by
  obtain ⟨rs, hrs, hmint, hlt⟩ := hsold
  have hdouble : ∀ r ∈ pool.activeReserves,
      r.tokens.val + single sellMint n.val r.mint ≤ 2 * r.tokens.val := by
    intro r hr
    by_cases hm : r.mint = sellMint
    · have heq := List.inj_on_of_nodup_map hp.mints_nodup hr hrs (hm.trans hmint.symm)
      rw [hm, single_self, heq]
      omega
    · rw [single_ne hm]
      omega
  have hlen : (pool.activeReserves.filter (fun b => b.mint ≠ r.mint)).length ≤ 4 :=
    (List.length_filter_le _ _).trans (hp.length.trans_le hp.le_max)
  have hfilter : pool.otherProduct sellMint n.val r.mint
      ≤ ((pool.activeReserves.filter (fun b => b.mint ≠ r.mint)).map
        (fun b => 2 * b.tokens.val)).prod :=
    Lists.prod_map_le (List.forall₂_same.mpr (fun b hb => hdouble b (List.mem_filter.mp hb).1))
  have hprod : pool.product = r.tokens.val
      * ((pool.activeReserves.filter (fun b => b.mint ≠ r.mint)).map (·.tokens.val)).prod :=
    Lists.prod_map_eq_mul_filter hp.mints_nodup hr
  rw [List.prod_map_mul, List.map_const', List.prod_replicate] at hfilter
  calc _ ≤ _ := hfilter
    _ ≤ 2 ^ 4 * pool.product := by
      rw [hprod]
      exact Nat.mul_le_mul (Nat.pow_le_pow_right (by decide) hlen)
        (Nat.le_mul_of_pos_left _ (hpos r hr))

/-- **One swap** leaves some of the bought reserve. -/
theorem swap_leaves {m : PowSqrt} (hm : m.Lawful) {n received : TokenAmount}
    (hp : pool.WellFormed) (h : Swapped m pool sellMint n buyMint pool' received)
    (hvisible : pool.rootVisible sellMint n.val buyMint = true) {r : Reserve}
    (hr : r ∈ pool.activeReserves) (hmint : r.mint = buyMint) : received.val < r.tokens.val := by
  obtain ⟨r', hr', hmint', balances, product, b, hbal, hprod, hb, hle, hrec⟩ := h.bought
  obtain rfl := List.inj_on_of_nodup_map hp.mints_nodup hr hr' (hmint.trans hmint'.symm)
  have hproduct := product_soldOrNeutral hp hbal hprod
  -- all is received only if the balance is zero
  suffices hpos : 0 < b.raw by
    rw [hrec, Nat.div_lt_iff_lt_mul wad_pos]
    omega
  unfold rootVisible at hvisible
  unfold boughtBalanceAfterSwap at hb
  cases hcurve : pool.curve with
  | constProd =>
      rw [hcurve] at hb
      simp only [bind_eq_ok, tryDiv_eq_ok] at hb
      obtain ⟨k, hk, hne, hb⟩ := hb
      have hkraw := product_reservesHashmap hp hk
      rw [Fixed.div_whole_raw wad_pos hkraw hproduct] at hb
      have hother := otherProduct_le hp h.positive h.sold hr
      rw [hmint] at hother
      rw [hb, Nat.div_pos_iff]
      refine ⟨Nat.pos_of_ne_zero (fun h0 => hne ?_), hother.trans ?_⟩
      · rw [hproduct, h0, Nat.zero_mul]
      · rw [Nat.mul_comm]
        exact Nat.mul_le_mul_left _ (by decide)
  | stable amplifier invariant =>
      rw [hcurve] at hb hvisible
      simp only [bind_eq_ok] at hb
      obtain ⟨sum, hsum, hb⟩ := hb
      obtain ⟨out, dPow, hsolved⟩ := getBuyReserveBalanceAfterSwap_solved hm
        (sum_soldOrNeutral hp hbal hsum) hproduct hb
      rw [reservesHashmap_size hp] at hsolved
      exact hsolved.balance_pos hm hp.two_le hp.le_max (of_decide_eq_true hvisible)

/-- Reserves that only lose some of the bought one stay positive. -/
theorem positive_of_moved (hp : pool.WellFormed) {up : Pubkey → ℕ} {received : ℕ}
    (h : List.Forall₂ (ReserveMoved up (single buyMint received)) pool.activeReserves
      pool'.activeReserves)
    (hpos : ∀ r ∈ pool.activeReserves, 0 < r.tokens.val) {r : Reserve}
    (hr : r ∈ pool.activeReserves) (hmint : r.mint = buyMint) (hlt : received < r.tokens.val) :
    ∀ r' ∈ pool'.activeReserves, 0 < r'.tokens.val := by
  intro r' hr'
  obtain ⟨b, hb, hmoved⟩ := Lists.forall₂_exists_right h.flip hr'
  have htokens := hmoved.tokens
  have hbpos := hpos b hb
  by_cases hbuy : b.mint = buyMint
  · have heq := List.inj_on_of_nodup_map hp.mints_nodup hb hr (hbuy.trans hmint.symm)
    rw [hbuy, single_self, heq] at htokens
    omega
  · rw [single_ne hbuy] at htokens
    omega

end Pool

/-! ## The program -/

variable {env : Env} {s s' : AmmState}

/-- The reserves are empty without LP tokens and positive with them. -/
structure SupplyTells (supply : U64) (pool : Pool) : Prop where
  empty : supply = 0 → ∀ r ∈ pool.activeReserves, r.tokens.val = 0
  positive : supply ≠ 0 → ∀ r ∈ pool.activeReserves, 0 < r.tokens.val

/-- The LP mint of a pool answers to its signer, and its supply tells. -/
def Outstanding (env : Env) (l : Ledger Pubkey Pubkey) (key : Pubkey) (pool : Pool) : Prop :=
  ∃ lpMint, l.mints.lookup pool.mint = some lpMint
    ∧ lpMint.mintAuthority = some (env.signerPda key) ∧ SupplyTells lpMint.supply pool

structure Stocked (env : Env) (s : AmmState) : Prop extends Custody env s where
  outstanding : ∀ key pool, s.pools.lookup key = some pool → Outstanding env s.ledger key pool

/-- Two pools have different LP mints, since these answer to their
signers. -/
theorem Stocked.mint_ne (hs : Stocked env s) {key key' : Pubkey} {pool pool' : Pool}
    (hpool : s.pools.lookup key = some pool) (hpool' : s.pools.lookup key' = some pool')
    (hne : key ≠ key') : pool.mint ≠ pool'.mint := by
  intro hm
  obtain ⟨a, ha, hauth, -⟩ := hs.outstanding _ _ hpool
  obtain ⟨a', ha', hauth', -⟩ := hs.outstanding _ _ hpool'
  rw [hm, ha'] at ha
  cases ha
  rw [hauth', Option.some.injEq] at hauth
  exact hne (hs.signers _ _ _ _ hpool hpool' hauth.symm)

/-- Writing one pool and moving no LP tokens but its own. -/
theorem Stocked.setPool (hs : Stocked env s) {key : Pubkey} {pool pool' : Pool}
    {l : Ledger Pubkey Pubkey} (hc : Custody env ((s.setLedger l).setPool key pool'))
    (hpool : s.pools.lookup key = some pool)
    (hmints : ∀ m, m ≠ pool.mint → l.mints.lookup m = s.ledger.mints.lookup m)
    (ho : Outstanding env l key pool') : Stocked env ((s.setLedger l).setPool key pool') where
  toCustody := hc
  outstanding := by
    intro k p hk
    rcases Store.lookup_insert_cases hk with ⟨rfl, rfl⟩ | ⟨hne, hk⟩
    · exact ho
    · obtain ⟨a, ha, hrest⟩ := hs.outstanding k p hk
      exact ⟨a, (hmints _ (hs.mint_ne hk hpool hne)).trans ha, hrest⟩

/-- The first deposit into a pool: all that is offered, and something. -/
theorem first_deposit {pool p : Pool} {maxTokens : BTreeMap TokenAmount}
    {result : DepositResult} {lp : TokenAmount} (hp : pool.WellFormed)
    (h : pool.depositTokens maxTokens 0 = .ok (p, result))
    (hlp : result.lpTokensToDistribute = some lp) :
    0 < lp.val ∧ ∀ r ∈ pool.activeReserves, 0 < mapAmounts result.tokensToDeposit r.mint := by
  simp only [depositTokens, depositPlan, bind_eq_ok, ensure_eq_ok, okOr_eq_ok, pure_eq_ok,
    Prod.exists, Prod.mk.injEq, if_true] at h
  obtain ⟨-, hpos, -, hsize, -, hmints, tokens, lp', ⟨n, hn, rfl, rfl⟩, p', -, rfl, rfl⟩ := h
  have hcovers := covers_of_checks hp hpos hsize hmints
  rw [Option.some.injEq] at hlp
  subst hlp
  refine ⟨Nat.pos_of_ne_zero (fun h0 => hpos ?_), fun r hr => ?_⟩
  · have hmem := (List.min?_eq_some_iff.mp hn).1
    refine List.any_eq_true.mpr ⟨n, hmem, ?_⟩
    simpa using Word.val_eq_zero.mp h0
  · obtain ⟨t, ht, hne⟩ := hcovers.limit r hr
    rw [mapAmounts_of_getElem? ht]
    exact Nat.pos_of_ne_zero (fun h0 => hne (Word.val_eq_zero.mp h0))

/-- What is left of a reserve after a redemption. -/
theorem redeemed_lt_iff {x burned supply : ℕ} (hx : 0 < x) (hs : 0 < supply)
    (hle : burned ≤ supply) :
    x * (burned * wad / supply) / wad < x ↔ burned < supply := by
  constructor
  · intro hlt
    refine lt_of_le_of_ne hle (fun he => ?_)
    rw [he, Nat.mul_div_cancel_left _ hs, Nat.mul_div_cancel _ wad_pos] at hlt
    exact absurd hlt (Nat.lt_irrefl _)
  · intro hlt
    rw [Nat.div_lt_iff_lt_mul wad_pos]
    refine Nat.mul_lt_mul_of_pos_left ?_ hx
    rw [Nat.div_lt_iff_lt_mul hs, Nat.mul_comm wad]
    exact Nat.mul_lt_mul_of_pos_right hlt wad_pos

/-! ## What the endpoints leave -/

section Left

variable (hp : env.tokenProgram.Lawful)

include hp

theorem DepositMoved.outstanding {accs : DepositLiquidity} {limits : List TokenLimit}
    {pool pool' : Pool} {supply lp : TokenAmount} {result : DepositResult}
    {orders : List (TransferOrder Pubkey)} {ledger : Ledger Pubkey Pubkey} (hs : Stocked env s)
    (hc : Custody env s')
    (h : DepositMoved env s accs limits s' pool pool' supply lp result orders ledger) :
    Stocked env s' := by
  have hwf := (hs.vaulted _ _ h.before).wellFormed
  obtain ⟨a, ha, hauth, htells⟩ := hs.outstanding _ _ h.before
  obtain ⟨lpMint, hlpMint, hsupply⟩ := h.lpSupply
  rw [ha, Option.some.injEq] at hlpMint
  subst hlpMint
  obtain ⟨p, hd, hu⟩ := h.plan
  have hminted := hp.mintTo_ok h.mints
  obtain ⟨b, b', hb, hb', -, hadd, hsame⟩ := hminted.mint
  rw [h.mint, transferAll_mints hp h.transfers, ha, Option.some.injEq] at hb
  subst hb
  have hpositive : ∀ r' ∈ pool'.activeReserves, 0 < r'.tokens.val := by
    intro r' hr'
    obtain ⟨r, hr, hmoved⟩ := Lists.forall₂_exists_right h.reserves.flip hr'
    have htokens := hmoved.tokens
    by_cases h0 : a.supply = 0
    · rw [← hsupply, h0] at hd
      have := (first_deposit hwf hd h.given).2 r hr
      omega
    · have := htells.positive h0 r hr
      omega
  have hnonzero : b'.supply ≠ 0 := by
    intro h0
    have hval := Word.val_eq_zero.mpr h0
    rw [hadd] at hval
    have hzero : a.supply = 0 := Word.val_eq_zero.mp (by omega)
    rw [← hsupply, hzero] at hd
    have := (first_deposit hwf hd h.given).1
    omega
  have hmint : pool'.mint = pool.mint := by
    rw [(updateCurveInvariant_mint hu), (deposit_moved hwf hd).rest]
    rfl
  have hstate := h.state
  rw [hstate] at hc ⊢
  refine hs.setPool hc h.before (fun m hm => ?_) ⟨b', ?_, hsame.trans hauth, ?_⟩
  · rw [hminted.supplies m (by simpa [h.mint] using hm), transferAll_mints hp h.transfers]
  · rw [hmint, ← h.mint]
    exact hb'
  · exact ⟨fun h0 => absurd h0 hnonzero, fun _ => hpositive⟩

theorem RedemptionMoved.outstanding {accs : RedeemLiquidity} {burned : TokenAmount}
    {limits : List TokenLimit} {pool pool' : Pool} {supply : TokenAmount}
    {tokens : BTreeMap TokenAmount} {orders : List (TransferOrder Pubkey)}
    {ledger : Ledger Pubkey Pubkey} (hs : Stocked env s) (hc : Custody env s')
    (h : RedemptionMoved env s accs burned limits s' pool pool' supply tokens orders ledger) :
    Stocked env s' := by
  have hwf := (hs.vaulted _ _ h.before).wellFormed
  obtain ⟨a, ha, hauth, htells⟩ := hs.outstanding _ _ h.before
  obtain ⟨lpMint, hlpMint, hsupply⟩ := h.lpSupply
  rw [ha, Option.some.injEq] at hlpMint
  subst hlpMint
  obtain ⟨p, hr, hu⟩ := h.plan
  have hredeemed := redeemed hwf hr
  have hburned := hp.burn_ok h.burns
  obtain ⟨b, b', hb, hb', -, hsub, hsame⟩ := hburned.mint
  rw [h.mint, transferAll_mints hp h.transfers, ha, Option.some.injEq] at hb
  subst hb
  rw [hsupply] at hsub
  have hpos : 0 < supply.val :=
    Nat.pos_of_ne_zero (fun h0 => hredeemed.supply_pos (Word.val_eq_zero.mp h0))
  have hle : burned.val ≤ supply.val := hredeemed.burned_le
  -- a reserve is emptied exactly if all LP tokens are burned
  have hleft : ∀ r' ∈ pool'.activeReserves, 0 < r'.tokens.val ↔ burned.val < supply.val := by
    intro r' hr'
    obtain ⟨r, hmem, hmoved⟩ := Lists.forall₂_exists_right h.reserves.flip hr'
    have htokens := hmoved.tokens
    have hrpos := htells.positive (hsupply ▸ hredeemed.supply_pos) r hmem
    rw [hredeemed.amount r hmem] at htokens
    rw [← redeemed_lt_iff hrpos hpos hle]
    omega
  have hmint : pool'.mint = pool.mint := by
    rw [(updateCurveInvariant_mint hu), hredeemed.moved.rest]
    rfl
  have hstate := h.state
  rw [hstate] at hc ⊢
  refine hs.setPool hc h.before (fun m hm => ?_) ⟨b', ?_, hsame.trans hauth, ?_⟩
  · rw [hburned.supplies m (by simpa [h.mint] using hm), transferAll_mints hp h.transfers]
  · rw [hmint, ← h.mint]
    exact hb'
  · refine ⟨fun h0 r' hr' => ?_, fun hne r' hr' => ?_⟩
    · have hzero := Word.val_eq_zero.mpr h0
      refine Nat.eq_zero_of_not_pos (fun hlt => ?_)
      have := (hleft r' hr').mp hlt
      omega
    · refine (hleft r' hr').mpr ?_
      have hne' : b'.supply.val ≠ 0 := fun h0 => hne (Word.val_eq_zero.mp h0)
      omega

theorem SwapMoved.outstanding (hm : env.powSqrt.Lawful) {accs : Swap} {sell : TokenAmount}
    {pool pool' : Pool} {sold boughtOf : Reserve} {fee bought : TokenAmount}
    {toll : Option TokenAmount} {paid received : Ledger Pubkey Pubkey} (hs : Stocked env s)
    (hc : Custody env s')
    (hvisible : pool.rootVisible sold.mint (sell.val - fee.val) boughtOf.mint = true)
    (h : SwapMoved env s accs sell s' pool pool' sold boughtOf fee bought toll paid received) :
    Stocked env s' := by
  have hwf := (hs.vaulted _ _ h.before).wellFormed
  obtain ⟨a, ha, hauth, htells⟩ := hs.outstanding _ _ h.before
  obtain ⟨toSwap, p, hsum, hswap⟩ := h.swap
  have hswapped := swapped hwf hswap
  obtain ⟨hboughtOf, -, hne⟩ := h.buys
  have hsell : toSwap.val = sell.val - fee.val := by omega
  rw [← hsell] at hvisible
  have hlt := swap_leaves hm hwf hswapped hvisible hboughtOf rfl
  have hpositive := positive_of_moved hwf h.reserves hswapped.positive hboughtOf rfl hlt
  -- a swap finds positive reserves, so there are LP tokens
  have hsupply : a.supply.val ≠ 0 := by
    intro h0
    have hempty := htells.empty (Word.val_eq_zero.mp h0) _ hboughtOf
    omega
  have hkept : ∀ m, received.mints.lookup m = s.ledger.mints.lookup m := by
    intro m
    rw [(hp.transfer_ok h.receives).supplies m List.not_mem_nil,
      (hp.transfer_ok h.pays).supplies m List.not_mem_nil]
  have hmint : pool'.mint = pool.mint := h.sameMint
  obtain ⟨hothers, b, hb, hbauth, hble⟩ :
      (∀ m, m ≠ pool.mint → s'.ledger.mints.lookup m = s.ledger.mints.lookup m)
        ∧ ∃ b, s'.ledger.mints.lookup pool.mint = some b
          ∧ b.mintAuthority = a.mintAuthority ∧ a.supply.val ≤ b.supply.val := by
    have htolls := h.tolls
    unfold payToll at htolls
    cases toll with
    | none =>
        rw [pure_eq_ok] at htolls
        rw [← htolls]
        exact ⟨fun m _ => hkept m, a, (hkept _).trans ha, rfl, Nat.le_refl _⟩
    | some tokens =>
        have hminted := hp.mintTo_ok (okOr_eq_ok.mp htolls)
        obtain ⟨b, b', hb, hb', -, hadd, hsame⟩ := hminted.mint
        rw [h.mint, hkept, ha, Option.some.injEq] at hb
        subst hb
        refine ⟨fun m hm => ?_, b', h.mint ▸ hb', hsame, by omega⟩
        rw [hminted.supplies m (by simpa [h.mint] using hm), hkept]
  have hstate := h.state
  rw [hstate] at hc ⊢
  refine hs.setPool hc h.before hothers ⟨b, ?_, hbauth.trans hauth, ?_⟩
  · rw [hmint]
    exact hb
  · refine ⟨fun h0 => ?_, fun _ => hpositive⟩
    have := Word.val_eq_zero.mpr h0
    omega

end Left

/-! ## Runs -/

/-- LP tokens are burned by redemptions only. -/
def BurnsByRedemption (s : AmmState) : Instr → Prop
  | .burn mint _ _ _ => ∀ e ∈ s.pools.entries, e.2.mint ≠ mint
  | _ => True

/-- The condition, whichever reserves the vaults are. -/
def RootInSight (s : AmmState) (accs : Swap) (sell : TokenAmount) : Prop :=
  ∀ pool ∈ s.pools.lookup accs.pool,
    ∀ fee ∈ (calculateSwapFee s.slot sell pool.swapFee (s.discounts.lookup accs.user)).toOption,
    ∀ sold ∈ pool.activeReserves, sold.vault = accs.sellVault →
    ∀ bought ∈ pool.activeReserves, bought.vault = accs.buyVault →
      pool.rootVisible sold.mint (sell.val - fee.val) bought.mint = true

instance (s : AmmState) (accs : Swap) (sell : TokenAmount) :
    Decidable (RootInSight s accs sell) :=
  inferInstanceAs (Decidable (∀ pool ∈ _, ∀ fee ∈ _, ∀ sold ∈ _, _ → ∀ bought ∈ _, _ → _ = true))

/-- Swaps on stable pools have their root in sight. -/
def SwapRootInSight (s : AmmState) : Instr → Prop
  | .swap accs sell _ => RootInSight s accs sell
  | _ => True

theorem createPool_stocked (hs : Stocked env s) {accs : CreatePool} {amplifier : U64}
    (hc : Custody env s') (h : createPool env s accs amplifier = .ok s') : Stocked env s' where
  toCustody := hc
  outstanding := by
    obtain ⟨lpMint, reserves, -, hmint, hauth, hres, -, hfour, rfl⟩ := createPool_ok h
    obtain ⟨-, hcreated⟩ := createReserve_ok hres
    have hactive : (newPool env accs amplifier reserves).activeReserves = reserves :=
      newPool_activeReserves accs amplifier hfour
    intro k p hk
    rcases Store.lookup_insert_cases hk with ⟨rfl, rfl⟩ | ⟨-, hk⟩
    · refine ⟨lpMint, hmint, hauth, fun h0 => ?_, fun hne => ?_⟩
      · rw [hactive]
        exact hcreated.empty (decide_eq_true h0)
      · rw [hactive]
        exact hcreated.positive (decide_eq_false hne)
    · exact hs.outstanding k p hk

section Runs

variable (hp : env.tokenProgram.Lawful) (hm : env.powSqrt.Lawful)
  (hcurve : ∀ key, env.isOnCurve (env.signerPda key) = false)

include hp hcurve

/-- Nobody else touches the LP mints. -/
theorem token_mints (hs : Stocked env s) {i : Instr} {op : TokenOp Pubkey Pubkey}
    {l : Ledger Pubkey Pubkey} (hop : i.tokenOp = some op)
    (hsigner : ∀ a ∈ i.signer, env.isOnCurve a = true) (hi : BurnsByRedemption s i)
    (h : op.apply env.tokenProgram s.ledger = some l) {key : Pubkey} {pool : Pool}
    (hpool : s.pools.lookup key = some pool) :
    l.mints.lookup pool.mint = s.ledger.mints.lookup pool.mint := by
  obtain ⟨a, ha, hauth, -⟩ := hs.outstanding _ _ hpool
  -- the LP mint answers to a key that nobody holds
  have hother : ∀ mint authority, i.signer = some authority →
      (∃ b, s.ledger.mints.lookup mint = some b ∧ b.mintAuthority = some authority) →
      pool.mint ≠ mint := by
    rintro mint authority hsign ⟨b, hb, hbauth⟩ rfl
    rw [ha, Option.some.injEq] at hb
    subst hb
    rw [hauth, Option.some.injEq] at hbauth
    have := hsigner _ hsign
    rw [← hbauth, hcurve] at this
    cases this
  cases i with
  | openAccount key' account =>
      cases hop
      simp only [TokenOp.apply, Option.bind_eq_bind, Option.bind_eq_some_iff] at h
      obtain ⟨-, -, h⟩ := h
      cases h
      rfl
  | openMint key' mint =>
      cases hop
      simp only [TokenOp.apply, Option.bind_eq_bind, Option.bind_eq_some_iff,
        Result.guard_eq_some] at h
      obtain ⟨-, ⟨habsent, -⟩, h⟩ := h
      cases h
      refine AList.lookup_insert_ne ?_
      rintro rfl
      rw [ha] at habsent
      cases habsent
  | transfer source destination authority amount =>
      cases hop
      exact (hp.transfer_ok h).supplies _ List.not_mem_nil
  | mintTo mint destination authority amount =>
      cases hop
      have hminted := hp.mintTo_ok h
      obtain ⟨b, -, hb, -, hbauth, -⟩ := hminted.mint
      exact hminted.supplies _ (by simpa using hother mint authority rfl ⟨b, hb, hbauth⟩)
  | burn mint source authority amount =>
      cases hop
      have hne := hi ⟨key, pool⟩ ((List.mem_dlookup_iff s.pools.nodupKeys).mp hpool)
      exact (hp.burn_ok h).supplies _ (by simpa using hne)
  | setMintAuthority mint authority newAuthority =>
      cases hop
      have hset := hp.setMintAuthority_ok h
      obtain ⟨b, hb, hbauth, -⟩ := hset.mint
      exact hset.others _ (hother mint authority rfl ⟨b, hb, hbauth⟩)
  | createProgramToll | createDiscountSettings | putDiscount | createPool | setPoolSwapFee
  | depositLiquidity | redeemLiquidity | swap | tick => cases hop

include hm

/-- **The step**: the supply keeps telling whether the reserves are
empty. -/
theorem step_stocked (hs : Stocked env s) {i : Instr} (hi : DistinctSigners env s i)
    (hburn : BurnsByRedemption s i) (hvisible : SwapRootInSight s i)
    (h : step env s i = .ok s') : Stocked env s' := by
  have hc := step_custody hp hcurve hs.toCustody hi h
  obtain ⟨hsigner, he⟩ := step_ok h
  cases he with
  | settings hpools hledger =>
      refine ⟨hc, fun k p hk => ?_⟩
      rw [hledger]
      exact hs.outstanding k p (hpools ▸ hk)
  | createPool h => exact createPool_stocked hs hc h
  | setPoolSwapFee hpool _ =>
      obtain ⟨a, ha, hauth, htells⟩ := hs.outstanding _ _ hpool
      exact hs.setPool (l := s.ledger) hc hpool (fun _ _ => rfl)
        ⟨a, ha, hauth, htells.empty, htells.positive⟩
  | depositLiquidity h =>
      obtain ⟨_, _, _, _, _, _, _, hmoved⟩ :=
        depositLiquidity_moved hs.toCustody (ne_signerPda hcurve (hsigner _ rfl) _) h
      exact hmoved.outstanding hp hs hc
  | redeemLiquidity h =>
      obtain ⟨_, _, _, _, _, _, hmoved⟩ :=
        redeemLiquidity_moved hs.toCustody (ne_signerPda hcurve (hsigner _ rfl) _) h
      exact hmoved.outstanding hp hs hc
  | swap h =>
      obtain ⟨_, _, sold, boughtOf, fee, _, _, _, _, hmoved, -⟩ :=
        swap_moved hp hs.toCustody (ne_signerPda hcurve (hsigner _ rfl) _) h
      refine hmoved.outstanding hp hm hs hc (hvisible _ hmoved.before fee ?_ sold
        hmoved.sells.1 hmoved.sells.2 boughtOf hmoved.buys.1 hmoved.buys.2.1)
      rw [hmoved.fees]
      rfl
  | token hop hl =>
      refine ⟨hc, fun k p hk => ?_⟩
      obtain ⟨a, ha, hrest⟩ := hs.outstanding k p hk
      exact ⟨a, (token_mints hp hcurve hs hop hsigner hburn hl hk).trans ha, hrest⟩

/-- **Outstanding LP tokens.** A swap whose root is in sight leaves every
reserve positive; and along every run of such swaps, in which LP tokens are
burned by redemptions only, the reserves of every pool are all empty
without LP tokens and all positive with them. -/
theorem reserves_outstanding :
    (∀ (pool : Pool) sellMint n buyMint pool' received, pool.WellFormed →
      pool.swap env.powSqrt sellMint n buyMint = .ok (pool', received) →
      pool.rootVisible sellMint n.val buyMint = true →
      ∀ r ∈ pool'.activeReserves, 0 < r.tokens.val)
    ∧ (∀ s is, s.pools = ∅ → Machine.Guarded (step env) (fun s i => DistinctSigners env s i
        ∧ BurnsByRedemption s i ∧ SwapRootInSight s i) s is →
      ∀ key pool, (Machine.run (step env) s is).pools.lookup key = some pool →
        ∃ lpMint, (Machine.run (step env) s is).ledger.mints.lookup pool.mint = some lpMint
          ∧ SupplyTells lpMint.supply pool) := by
  refine ⟨fun pool sellMint n buyMint pool' received hwf h hvisible => ?_,
    fun s is hstart his key pool hkey => ?_⟩
  · have hs := swapped hwf h
    obtain ⟨r, hr, hmint, -⟩ := hs.bought
    exact positive_of_moved hwf hs.moved.reserves hs.positive hr hmint
      (swap_leaves hm hwf hs hvisible hr hmint)
  have hstocked : Stocked env (Machine.run (step env) s is) := by
    refine Machine.run_invariant (fun _ _ _ hI hG h =>
      step_stocked hp hm hcurve hI hG.1 hG.2.1 hG.2.2 h) ⟨⟨?_, ?_⟩, ?_⟩ his
    · intro key pool hkey
      rw [hstart] at hkey
      cases hkey
    · intro key _ pool _ hkey
      rw [hstart] at hkey
      cases hkey
    · intro key pool hkey
      rw [hstart] at hkey
      cases hkey
  obtain ⟨lpMint, hlpMint, -, htells⟩ := hstocked.outstanding key pool hkey
  exact ⟨lpMint, hlpMint, htells⟩

end Runs

/-! ## One program, two LP mints -/

/-- The user 50 sells tokens of the first mint for the second. -/
def sellFirst (sell : TokenAmount) : Instr :=
  .swap
    { user := 50
      pool := 20
      sellWallet := 31
      buyWallet := 32
      sellVault := 11
      buyVault := 12
      lpMint := 5
      programTollWallet := 10 } sell 1

/-- The program with square roots to evaluate. -/
def swapEnv : Env := { sampleEnv with powSqrt := .digitwise }

/-- A swap on a pool that a deposit funded has its root in sight. -/
theorem reserves_outstanding_funded :
    (∀ key pool, (Machine.run (step swapEnv) (listedState 0 0)
        [createStable, depositThousand, sellFirst 500]).pools.lookup key = some pool →
      ∃ lpMint, (Machine.run (step swapEnv) (listedState 0 0)
          [createStable, depositThousand, sellFirst 500]).ledger.mints.lookup pool.mint
            = some lpMint ∧ SupplyTells lpMint.supply pool)
      ∧ ((Machine.run (step swapEnv) (listedState 0 0)
          [createStable, depositThousand, sellFirst 500]).pools.lookup 20).any (fun pool =>
            pool.activeReserves.map (·.tokens.val) = [1500, 515]) = true := by
  refine ⟨(reserves_outstanding Reference.lawful PowSqrt.digitwise_lawful (fun key => by rfl)).2
    (listedState 0 0) [createStable, depositThousand, sellFirst 500] rfl ?_, by decide +kernel⟩
  refine ⟨⟨?_, trivial, trivial⟩, ⟨trivial, trivial, trivial⟩, ⟨trivial, trivial, ?_⟩, trivial⟩
  · intro e he
    cases he
  · show RootInSight _ _ _
    decide +kernel

/-- Created over an LP mint with supply, a stable pool has invariant zero
and sells a whole reserve. -/
theorem reserve_bought_out :
    ¬ ∀ (env : Env) (s : AmmState) (is : List Instr), env.tokenProgram.Lawful →
      env.powSqrt.Lawful → (∀ key, env.isOnCurve (env.signerPda key) = false) → s.pools = ∅ →
      Machine.Guarded (step env) (fun s i => DistinctSigners env s i ∧ BurnsByRedemption s i)
        s is →
      ∀ key pool, (Machine.run (step env) s is).pools.lookup key = some pool →
        ∃ lpMint, (Machine.run (step env) s is).ledger.mints.lookup pool.mint = some lpMint
          ∧ SupplyTells lpMint.supply pool := by
  intro h
  have htells := h swapEnv (listedState 100 1000) [createStable, sellFirst 500] Reference.lawful
    PowSqrt.digitwise_lawful (fun key => by rfl) rfl
    ⟨⟨fun e he => (by cases he), trivial⟩, ⟨trivial, trivial⟩, trivial⟩
  have hempty : ((Machine.run (step swapEnv) (listedState 100 1000)
      [createStable, sellFirst 500]).pools.lookup 20).any (fun pool => pool.mint = 5
        ∧ pool.activeReserves.any (fun r => r.tokens.val = 0)) = true := by
    decide +kernel
  have hsupply : ((Machine.run (step swapEnv) (listedState 100 1000)
      [createStable, sellFirst 500]).ledger.mints.lookup 5).any (fun a => a.supply ≠ 0)
        = true := by
    decide +kernel
  cases hpool : (Machine.run (step swapEnv) (listedState 100 1000)
      [createStable, sellFirst 500]).pools.lookup 20 with
  | none => rw [hpool] at hempty; cases hempty
  | some pool =>
      rw [hpool, Option.any_some, decide_eq_true_eq] at hempty
      obtain ⟨hmint, hany⟩ := hempty
      obtain ⟨lpMint, hlpMint, hpositive⟩ := htells 20 pool hpool
      rw [hmint] at hlpMint
      rw [hlpMint, Option.any_some, decide_eq_true_eq] at hsupply
      obtain ⟨r, hr, h0⟩ := List.any_eq_true.mp hany
      have hpos := hpositive.positive hsupply r hr
      rw [decide_eq_true_eq] at h0
      omega

end SolanaAmm.Amm
