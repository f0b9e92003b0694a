import SolanaAmm.Amm.Outflows
import SolanaAmm.Amm.Toll
import SolanaAmm.Amm.Exits
import SolanaAmm.Lib.Fund

/-!
# Amm — Holding

What becomes of LP tokens that somebody holds and leaves alone, while
others deposit, redeem and swap. A pool is a fund whose shares are its LP
tokens: liquidity moves the reserves in proportion to the supply, a swap
keeps their product, and the toll is a part of what the fee adds to it. So
on a constant-product pool an LP token keeps its worth wherever the
rounding of the calls is covered.
-/

namespace SolanaAmm.Amm

open Result Decimal Machine Token Pool

/-! ## A pool as a fund -/

/-- The reserves, owned in equal parts by the LP tokens. -/
def Pool.fund (pool : Pool) (supply : ℕ) : Fund ℕ :=
  ⟨pool.activeReserves.map (·.tokens.val), supply⟩

variable {pool pool' p : Pool} {m : PowSqrt}

theorem Pool.fund_length (pool : Pool) (supply : ℕ) :
    (pool.fund supply).assets.length = pool.activeReserves.length := List.length_map _

/-- Operations on the liquidity that keep the backing of every reserve. -/
theorem BackingKept.worthLe {s s' : LiquidityState} (h : BackingKept s s') :
    (s.pool.fund s.lpSupply.val).WorthLe (s'.pool.fund s'.lpSupply.val) := by
  refine Fund.WorthLe.of_backed ?_
  simp only [fund, List.forall₂_map_left_iff, List.forall₂_map_right_iff]
  exact h.imp (fun _ _ hr => hr.2)

/-- A write through `reserve_mut` that adds tokens. -/
theorem Pool.updateReserve_product {mint : Pubkey} {e : AmmError} {t : TokenAmount}
    (h : pool.updateReserve mint e (fun r => r.addTokens t) = .ok pool') :
    ∃ r' ∈ pool'.activeReserves, r'.mint = mint ∧ ∃ y rest, r'.tokens.val = y + t.val
      ∧ pool.product = rest * y ∧ pool'.product = rest * (y + t.val) := by
  simp only [updateReserve, bind_eq_ok, pure_eq_ok] at h
  obtain ⟨rs, hrs, rfl⟩ := h
  have hactive := withActive_activeReserves (Lists.updateFirst_length hrs)
  obtain ⟨l₁, r, l₂, r', hl, -, hr, hadd, rfl⟩ := Lists.updateFirst_eq_ok.mp hrs
  obtain ⟨htokens, hmint, -⟩ := Reserve.addTokens_eq_ok.mp hadd
  have hprod : ∀ b : Reserve, ((l₁ ++ b :: l₂).map (·.tokens.val)).prod
      = (l₁.map (·.tokens.val)).prod * (l₂.map (·.tokens.val)).prod * b.tokens.val := by
    intro b
    rw [List.map_append, List.map_cons, List.prod_append, List.prod_cons]
    ring
  change (pool.withActive (l₁ ++ r' :: l₂)).activeReserves = l₁ ++ r' :: l₂ at hactive
  change ∃ b ∈ (pool.withActive (l₁ ++ r' :: l₂)).activeReserves, _ ∧ ∃ y rest, _ ∧ _
    ∧ (pool.withActive (l₁ ++ r' :: l₂)).product = _
  rw [product, product, hactive, hl, hprod, hprod, htokens]
  exact ⟨r', by simp, hmint.trans (by simpa using hr), _, _, htokens, rfl, rfl⟩

/-- The parts of a toll are not more than the fee. -/
theorem tollPerReserve_le (hp : pool.WellFormed) (fee : TokenAmount) :
    pool.dimension.val * tollPerReserve pool fee ≤ fee.val := by
  have hd : 0 < pool.dimension.val := Nat.zero_lt_of_lt hp.two_le
  have hshare : pool.dimension.val * (fee.val * (333333 * 10 ^ 12) / pool.dimension.val)
      ≤ fee.val * (333333 * 10 ^ 12) := Nat.mul_div_le _ _
  unfold tollPerReserve
  generalize fee.val * (333333 * 10 ^ 12) / pool.dimension.val = q at hshare ⊢
  rcases Nat.eq_zero_or_pos ((q + wad / 2) / wad) with hzero | hpos
  · rw [hzero, Nat.mul_zero]
    exact Nat.zero_le _
  · -- what is rounded up is at least a half, so that rounding at most doubles
    have hround := Nat.div_mul_le_self (q + wad / 2) wad
    generalize (q + wad / 2) / wad = t at hpos hround ⊢
    have hdouble : t * wad ≤ 2 * q := by
      have : wad ≤ t * wad := Nat.le_mul_of_pos_left _ hpos
      omega
    refine Nat.le_of_mul_le_mul_right ?_ wad_pos
    calc pool.dimension.val * t * wad = pool.dimension.val * (t * wad) := Nat.mul_assoc _ _ _
      _ ≤ pool.dimension.val * (2 * q) := Nat.mul_le_mul_left _ hdouble
      _ = 2 * (pool.dimension.val * q) := Nat.mul_left_comm _ _ _
      _ ≤ 2 * (fee.val * (333333 * 10 ^ 12)) := Nat.mul_le_mul_left _ hshare
      _ ≤ fee.val * wad := by unfold wad; omega

/-- The LP tokens of a toll that is covered take no more of the sold reserve
than its part of the toll. -/
theorem Tolled.le {fee supply lp toll : TokenAmount} {sell : Reserve} (hp : pool.WellFormed)
    (hs : supply ≠ 0) (h : Tolled pool fee sell.mint supply lp toll)
    (hcovered : TollCovered pool fee sell supply) :
    lp.val * sell.tokens.val ≤ supply.val * tollPerReserve pool fee := by
  obtain ⟨pool', result, hdep, hlp⟩ := h.deposit
  have hd := deposited hp hs hdep
  obtain ⟨first, hfirst, -, hpos, hgiven⟩ := hd.lp
  have hhead : pool.reserves.headD default = first := by
    rw [List.headD_eq_head?_getD, hfirst]
    rfl
  have hwrap : (.wrap (tollPerReserve pool fee) : TokenAmount) = toll :=
    Word.ext ((Word.wrap_val (h.amount ▸ toll.isLt)).trans h.amount.symm)
  simp only [TollCovered, hwrap, hhead] at hcovered
  rw [hlp] at hgiven
  rw [← h.amount, show lp.val = _ from hgiven]
  exact (lp_le_iff hd.ratio_pos (Nat.pos_of_ne_zero hpos)).mpr hcovered

/-- A toll is paid for something. -/
theorem Tolled.pos {fee supply lp toll : TokenAmount} {sell : Reserve} (hp : pool.WellFormed)
    (hs : supply ≠ 0) (hsell : sell ∈ pool.activeReserves)
    (h : Tolled pool fee sell.mint supply lp toll) : 0 < tollPerReserve pool fee := by
  obtain ⟨pool', result, hdep, -⟩ := h.deposit
  obtain ⟨t, ht, hpos⟩ := (deposited hp hs hdep).covers.limit sell hsell
  have hnodup : ((pool.activeReserves.map (fun r =>
      (r.mint, if r.mint = sell.mint then toll else Word.maxValue))).map Prod.fst).Nodup := by
    rw [List.map_map]
    exact hp.mints_nodup
  have hget : (tollLimits pool sell.mint toll)[sell.mint]? = some toll :=
    Maps.getElem?_ofList_of_mem hnodup (List.mem_map.mpr ⟨sell, hsell, by rw [if_pos rfl]⟩)
  rw [hget, Option.some.injEq] at ht
  subst ht
  rw [← h.amount]
  exact Nat.pos_of_ne_zero (fun h0 => hpos (Word.val_eq_zero.mp h0))

/-- **The condition**: the quotient of the swap shows its remainder, and the
toll, if there is one, is covered. -/
def CoveredSwap (m : PowSqrt) (pool : Pool) (op : SwapOp) (supply : TokenAmount) : Prop :=
  QuotientVisible pool.product (pool.otherProduct op.sellMint op.tokensToSwap.val op.buyMint)
    ∧ ∀ p ∈ (swapStep m pool op).toOption, ∀ sold ∈ p.activeReserves, sold.mint = op.sellMint →
      0 < tollPerReserve p op.swapFee → TollCovered p op.swapFee sold supply

instance (m : PowSqrt) (pool : Pool) (op : SwapOp) (supply : TokenAmount) :
    Decidable (CoveredSwap m pool op supply) :=
  inferInstanceAs (Decidable (_ ∧ ∀ p ∈ _, ∀ sold ∈ _, _))

/-- **A swap** and its toll keep the worth of an LP token. -/
theorem swapStep_worthLe {op : SwapOp} {supply : TokenAmount} {toll : Option TokenAmount}
    (hp : pool.WellFormed) (hcurve : pool.curve = .constProd) (hs : supply ≠ 0)
    (hne : op.sellMint ≠ op.buyMint) (hc : CoveredSwap m pool op supply)
    (h : swapStep m pool op = .ok p)
    (htoll : calculateTollInLpTokens p op.swapFee op.sellMint supply = .ok toll) :
    (pool.fund supply.val).WorthLe (p.fund (supply.val + lpTokens toll)) := by
  obtain ⟨hvisible, hcovered⟩ := hc
  replace hcovered := hcovered p (by rw [h]; rfl)
  simp only [swapStep, bind_eq_ok, Prod.exists] at h
  obtain ⟨p₁, received, hswap, hfee⟩ := h
  have hswapped := swapped hp hswap
  have hwf₁ := hswapped.moved.wellFormed hp
  have hmoved := updateReserve_moved hwf₁.mints_nodup addTokens_moved hfee
  have hwf := hmoved.wellFormed hwf₁
  have hkinds : (p.fund (supply.val + lpTokens toll)).assets.length
      = (pool.fund supply.val).assets.length := by
    rw [fund_length, fund_length, hmoved.length, hswapped.moved.length]
  have hkept : pool.product ≤ p₁.product :=
    (swap_product_iff hp hcurve hne hswapped).mpr hvisible
  obtain ⟨sold, hsold, hmint, y, rest, hy, hbefore, hafter⟩ := updateReserve_product hfee
  cases toll with
  | none =>
      refine .of_product_le hkinds rfl (hkept.trans ?_)
      rw [hbefore]
      exact (Nat.mul_le_mul_left _ (Nat.le_add_right _ _)).trans_eq hafter.symm
  | some lp =>
      rw [← hmint] at htoll
      obtain ⟨t, ht⟩ := tolled hwf htoll
      have hissued := ht.le hwf hs (hcovered sold hsold hmint (ht.pos hwf hs hsold))
      have hparts := tollPerReserve_le hwf op.swapFee
      refine .of_fee hkinds (hkept.trans_eq hbefore) hafter rfl (hy ▸ hissued) ?_
      rw [← hkinds, fund_length, hwf.length]
      exact hparts

/-! ## One step -/

variable {env : Env} {s s' : AmmState} {i : Instr} {key : Pubkey}

/-- **The condition** on the calls for one pool: the rounding of a deposit
and of a swap is covered. -/
def Covered (env : Env) (key : Pubkey) (s : AmmState) : Instr → Prop
  | .depositLiquidity accs limits => accs.pool = key → ∀ pool ∈ s.pools.lookup key,
      ∀ lpMint ∈ s.ledger.mints.lookup pool.mint,
        RoundingCovered pool (limitsMap limits) lpMint.supply
  | .swap accs sell _ => accs.pool = key → ∀ pool ∈ s.pools.lookup key,
      ∀ lpMint ∈ s.ledger.mints.lookup pool.mint, ∀ op ∈ swapOp s accs pool sell,
        CoveredSwap env.powSqrt pool op lpMint.supply
  | _ => True

instance (env : Env) (key : Pubkey) (s : AmmState) (i : Instr) :
    Decidable (Covered env key s i) := by
  cases i <;> unfold Covered <;> infer_instance

/-- The pool is still there, with a constant product, and an LP token is
worth no less. -/
def WorthKept (key : Pubkey) (pool : Pool) (s s' : AmmState) : Prop :=
  ∃ pool', s'.pools.lookup key = some pool' ∧ pool'.mint = pool.mint ∧ pool'.curve = .constProd
    ∧ (pool.fund (s.ledger.supply pool.mint)).WorthLe (pool'.fund (s'.ledger.supply pool.mint))

/-- A step that leaves the reserves alone and issues nothing. -/
theorem WorthKept.of_same {pool' : Pool} (hcurve : pool'.curve = .constProd)
    (hpool' : s'.pools.lookup key = some pool') (hmint : pool'.mint = pool.mint)
    (hreserves : pool'.activeReserves = pool.activeReserves)
    (hsupply : s'.ledger.supply pool.mint ≤ s.ledger.supply pool.mint) :
    WorthKept key pool s s' :=
  ⟨pool', hpool', hmint, hcurve, .of_shares_le (by rw [fund, fund, hreserves]) hsupply⟩

/-- A step that moves the reserves as it moves the supply. -/
theorem WorthKept.of_backing {pool' : Pool} {up down : Pubkey → ℕ} {a a' : Mint Pubkey}
    (hcurve : pool.curve = .constProd) (hmoved : Moved pool pool' up down)
    (hpool' : s'.pools.lookup key = some pool') (ha : s.ledger.mints.lookup pool.mint = some a)
    (ha' : s'.ledger.mints.lookup pool.mint = some a')
    (h : BackingKept ⟨pool, a.supply⟩ ⟨pool', a'.supply⟩) : WorthKept key pool s s' := by
  refine ⟨pool', hpool', ?_, hmoved.curve.trans hcurve, ?_⟩
  · rw [hmoved.rest]
    rfl
  · rw [Ledger.supply_of_lookup ha, Ledger.supply_of_lookup ha']
    exact h.worthLe

/-- Only deposits and swaps issue LP tokens, those of their pool. -/
theorem SupplyChange.le (h : SupplyChange env ⟨s, i, s'⟩ key pool)
    (hd : ∀ accs limits, i = .depositLiquidity accs limits → accs.pool ≠ key)
    (hw : ∀ accs sell minBuy, i = .swap accs sell minBuy → accs.pool ≠ key) :
    s'.ledger.supply pool.mint ≤ s.ledger.supply pool.mint := by
  cases h with
  | kept h => exact Nat.le_of_eq h
  | deposit hinstr hpool => exact absurd hpool (hd _ _ hinstr)
  | redemption hinstr hpool h => exact (Nat.le_add_right _ _).trans_eq h
  | toll hinstr hpool => exact absurd hpool (hw _ _ _ hinstr)
  | burned hinstr h => exact (Nat.le_add_right _ _).trans_eq h

theorem constProd_updated (hcurve : p.curve = .constProd)
    (h : p.updateCurveInvariant m = .ok pool') : pool' = p := by
  unfold updateCurveInvariant at h
  rw [hcurve] at h
  exact (pure_eq_ok.mp h).symm

section Step

variable (hp : env.tokenProgram.Lawful)

include hp

/-- A deposit whose rounding is covered. -/
theorem DepositMoved.worthKept {accs : DepositLiquidity} {limits : List TokenLimit}
    {pool pool' : Pool} {supply lp : TokenAmount} {result : DepositResult}
    {orders : List (TransferOrder Pubkey)} {ledger : Ledger Pubkey Pubkey} (hwf : pool.WellFormed)
    (hcurve : pool.curve = .constProd) (hs : supply ≠ 0)
    (h : DepositMoved env s accs limits s' pool pool' supply lp result orders ledger)
    (hc : RoundingCovered pool (limitsMap limits) supply) : WorthKept accs.pool pool s s' := by
  obtain ⟨p, hplan, hupdate⟩ := h.plan
  obtain ⟨lpMint, hlpMint, rfl⟩ := h.lpSupply
  have hmoved := (deposited hwf hs hplan).moved
  obtain rfl := constProd_updated (hmoved.curve.trans hcurve) hupdate
  obtain ⟨a, a', ha, ha', -, hadd, -⟩ := (hp.mintTo_ok h.mints).mint
  rw [h.mint, transferAll_mints hp h.transfers, hlpMint, Option.some.injEq] at ha
  subst ha
  have hstep : liquidityStep ⟨pool, lpMint.supply⟩ (.deposit (limitsMap limits))
      = .ok ⟨pool', a'.supply⟩ := by
    simp only [liquidityStep, bind_eq_ok, okOr_eq_ok, Word.checkedAdd_eq_some, Prod.exists,
      pure_eq_ok]
    exact ⟨pool', result, hplan, lp, h.given, a'.supply, hadd, rfl⟩
  have hcovered : CoveredOp ⟨pool, lpMint.supply⟩ (.deposit (limitsMap limits)) := ⟨hs, hc⟩
  exact .of_backing hcurve hmoved (h.state ▸ AList.lookup_insert _) hlpMint (h.mint ▸ ha')
    (liquidityStep_backing hwf hcovered hstep)

/-- A redemption. -/
theorem RedemptionMoved.worthKept {accs : RedeemLiquidity} {burned : TokenAmount}
    {limits : List TokenLimit} {pool pool' : Pool} {supply : TokenAmount}
    {tokens : BTreeMap TokenAmount} {orders : List (TransferOrder Pubkey)}
    {ledger : Ledger Pubkey Pubkey} (hwf : pool.WellFormed) (hcurve : pool.curve = .constProd)
    (h : RedemptionMoved env s accs burned limits s' pool pool' supply tokens orders ledger) :
    WorthKept accs.pool pool s s' := by
  obtain ⟨p, hplan, hupdate⟩ := h.plan
  obtain ⟨lpMint, hlpMint, rfl⟩ := h.lpSupply
  have hredeemed := redeemed hwf hplan
  have hmoved := hredeemed.moved
  obtain rfl := constProd_updated (hmoved.curve.trans hcurve) hupdate
  obtain ⟨a, a', ha, ha', hle, hsub, -⟩ := (hp.burn_ok h.burns).mint
  rw [h.mint, transferAll_mints hp h.transfers, hlpMint, Option.some.injEq] at ha
  subst ha
  have hstep : liquidityStep ⟨pool, lpMint.supply⟩ (.redeem (limitsMap limits) burned)
      = .ok ⟨pool', a'.supply⟩ := by
    simp only [liquidityStep, bind_eq_ok, okOr_eq_ok, Word.checkedSub_eq_some, Prod.exists,
      pure_eq_ok]
    exact ⟨pool', tokens, hplan, a'.supply, ⟨hle, hsub⟩, rfl⟩
  have hcovered : CoveredOp ⟨pool, lpMint.supply⟩ (.redeem (limitsMap limits) burned) :=
    hredeemed.supply_pos
  exact .of_backing hcurve hmoved (h.state ▸ AList.lookup_insert _) hlpMint (h.mint ▸ ha')
    (liquidityStep_backing hwf hcovered hstep)

/-- A swap whose rounding is covered. -/
theorem swap_worthKept {accs : Swap} {sell minBuy : TokenAmount}
    (h : swap env s accs sell minBuy = .ok s') (hpool : s.pools.lookup accs.pool = some pool)
    (hwf : pool.WellFormed) (hcurve : pool.curve = .constProd)
    (hs : s.ledger.supply pool.mint ≠ 0)
    (hc : Covered env accs.pool s (.swap accs sell minBuy)) : WorthKept accs.pool pool s s' := by
  obtain ⟨q, op, p, lpMint, toll, ledger, pool', hbefore, hmint, hop, hne, -, hstep, hlpMint,
    htoll, hledger, htolled, hupdate, hstate⟩ := swap_made hp h
  rw [hpool, Option.some.injEq] at hbefore
  subst hbefore
  have hsupply := Ledger.supply_of_lookup hlpMint
  have hpositive : lpMint.supply ≠ 0 := fun h0 => hs (by rw [hsupply, h0, Word.val_zero])
  have hworth := swapStep_worthLe hwf hcurve hpositive hne (hc rfl pool hpool lpMint hlpMint op hop)
    hstep htoll
  obtain ⟨hsame, hpcurve⟩ : p.mint = pool.mint ∧ p.curve = pool.curve := by
    simp only [swapStep, bind_eq_ok, Prod.exists] at hstep
    obtain ⟨p₁, received, hswap, hfee⟩ := hstep
    have hmoved₁ := (swapped hwf hswap).moved
    have hmoved := updateReserve_moved (hmoved₁.wellFormed hwf).mints_nodup addTokens_moved hfee
    refine ⟨?_, hmoved.curve.trans hmoved₁.curve⟩
    rw [hmoved.rest, show (p₁.withActive p.activeReserves).mint = p₁.mint from rfl, hmoved₁.rest]
    rfl
  obtain rfl := constProd_updated (hpcurve.trans hcurve) hupdate
  refine ⟨pool', by rw [hstate]; exact AList.lookup_insert _, hsame, hpcurve.trans hcurve, ?_⟩
  have hafter : s'.ledger.supply pool.mint = lpMint.supply.val + lpTokens toll := by
    rcases payToll_ok hp htolled with ⟨rfl, hl⟩ | ⟨n, rfl, hminted⟩
    · rw [hl, Ledger.supply_congr (hledger _), hsupply]
      rfl
    · obtain ⟨a, a', ha, ha', -, hadd, -⟩ := hminted.mint
      rw [hmint, hledger, hlpMint, Option.some.injEq] at ha
      subst ha
      rw [Ledger.supply_of_lookup (hmint ▸ ha'), hadd]
      rfl
  rw [hsupply, hafter]
  exact hworth

variable (hcurve : ∀ key, env.isOnCurve (env.signerPda key) = false)

include hcurve

/-- **The step**: a covered call keeps the worth of an LP token. -/
theorem step_worthKept (hs : Issuing env s) (h : step env s i = .ok s')
    (hc : Covered env key s i) (hpool : s.pools.lookup key = some pool)
    (hprod : pool.curve = .constProd) (hsupply : s.ledger.supply pool.mint ≠ 0) :
    WorthKept key pool s s' := by
  have hwf := (hs.vaulted key pool hpool).wellFormed
  have hchange := (step_supply hp hcurve hs h hpool).2
  obtain ⟨hsigner, he⟩ := step_ok h
  -- another pool is written
  have hother : ∀ {k : Pubkey} {l : Ledger Pubkey Pubkey} {q : Pool}, k ≠ key →
      s' = (s.setLedger l).setPool k q → s'.ledger.supply pool.mint ≤ s.ledger.supply pool.mint →
      WorthKept key pool s s' := by
    rintro k l q hne rfl hle
    exact .of_same hprod ((AList.lookup_insert_ne (Ne.symm hne)).trans hpool) rfl rfl hle
  cases he with
  | settings hpools hledger =>
      exact .of_same hprod (by rw [hpools, hpool]) rfl rfl (by rw [hledger])
  | @createPool accs amplifier _ h =>
      obtain ⟨_, _, hnew, -, -, -, -, -, rfl⟩ := createPool_ok h
      refine hother (l := s.ledger) (fun he => ?_) rfl (Nat.le_refl _)
      rw [he, hpool] at hnew
      cases hnew
  | @setPoolSwapFee admin k fee q hq _ =>
      by_cases hkey : k = key
      · subst hkey
        rw [hpool, Option.some.injEq] at hq
        subst hq
        exact .of_same (show ({ pool with swapFee := fee } : Pool).curve = .constProd from hprod)
          (AList.lookup_insert _) rfl rfl (Nat.le_refl _)
      · exact hother (l := s.ledger) hkey rfl (Nat.le_refl _)
  | @depositLiquidity accs limits _ h =>
      obtain ⟨q, q', supply, lp, result, orders, ledger, hmoved⟩ :=
        depositLiquidity_moved hs.toCustody (ne_signerPda hcurve (hsigner _ rfl) _) h
      by_cases hkey : accs.pool = key
      · subst hkey
        have hsame := hmoved.before
        rw [hpool, Option.some.injEq] at hsame
        subst hsame
        obtain ⟨lpMint, hlpMint, rfl⟩ := hmoved.lpSupply
        refine hmoved.worthKept hp hwf hprod (fun h0 => hsupply ?_) (hc rfl pool hpool _ hlpMint)
        rw [Ledger.supply_of_lookup hlpMint, h0, Word.val_zero]
      · refine hother hkey hmoved.state (hchange.le (fun _ _ he => ?_) (fun _ _ _ he => ?_))
        · cases he
          exact hkey
        · cases he
  | @redeemLiquidity accs burned limits _ h =>
      obtain ⟨q, q', supply, tokens, orders, ledger, hmoved⟩ :=
        redeemLiquidity_moved hs.toCustody (ne_signerPda hcurve (hsigner _ rfl) _) h
      by_cases hkey : accs.pool = key
      · subst hkey
        have hsame := hmoved.before
        rw [hpool, Option.some.injEq] at hsame
        subst hsame
        exact hmoved.worthKept hp hwf hprod
      · refine hother hkey hmoved.state (hchange.le (fun _ _ he => ?_) (fun _ _ _ he => ?_))
        · cases he
        · cases he
  | @swap accs sell minBuy _ h =>
      by_cases hkey : accs.pool = key
      · subst hkey
        exact swap_worthKept hp h hpool hwf hprod hsupply hc
      · obtain ⟨_, _, _, _, _, _, _, -, -, -, -, -, -, -, -, -, -, -, hstate⟩ := swap_made hp h
        refine hother hkey hstate (hchange.le (fun _ _ he => ?_) (fun _ _ _ he => ?_))
        · cases he
        · cases he
          exact hkey
  | token hop hl =>
      refine .of_same hprod hpool rfl rfl (hchange.le (fun _ _ he => ?_) (fun _ _ _ he => ?_))
      · rw [he] at hop
        cases hop
      · rw [he] at hop
        cases hop

/-- What others sign takes nothing from an account. -/
theorem step_spares {A : Pubkey} (hs : Custody env s) (hA : env.isOnCurve A = true)
    (h : step env s i = .ok s') (hi : i.signer ≠ some A) : Spares s.ledger s'.ledger A := by
  obtain ⟨hsigner, he⟩ := step_ok h
  cases he with
  | settings hpools hledger => exact hledger ▸ .refl _ _
  | createPool h =>
      obtain ⟨_, _, -, -, -, -, -, -, rfl⟩ := createPool_ok h
      exact .refl _ _
  | setPoolSwapFee _ _ => exact .refl _ _
  | @depositLiquidity accs _ _ h =>
      obtain ⟨_, _, _, _, _, _, _, hmoved⟩ :=
        depositLiquidity_moved hs (ne_signerPda hcurve (hsigner _ rfl) _) h
      refine (transferAll_spares hp hmoved.transfers (fun o ho he => hi ?_)).trans
        (.of_minted (hp.mintTo_ok hmoved.mints))
      exact congrArg some ((hmoved.authority o ho).symm.trans he)
  | @redeemLiquidity accs burned _ _ h =>
      obtain ⟨_, _, _, _, _, _, hmoved⟩ :=
        redeemLiquidity_moved hs (ne_signerPda hcurve (hsigner _ rfl) _) h
      refine (transferAll_spares hp hmoved.transfers (fun o ho he => ?_)).trans
        (.of_op (o := .burn accs.lpMint accs.lpTokenWallet accs.user burned) hp hmoved.burns hi)
      exact ne_signerPda hcurve hA accs.pool (he.symm.trans (hmoved.authority o ho))
  | @swap accs sell _ _ h =>
      obtain ⟨_, _, _, _, _, bought, _, paid, received, hmoved, -⟩ :=
        swap_moved hp hs (ne_signerPda hcurve (hsigner _ rfl) _) h
      have hpays : Spares s.ledger paid A :=
        .of_op (o := .transfer accs.sellWallet accs.sellVault accs.user sell) hp hmoved.pays hi
      have hreceives : Spares paid received A :=
        .of_op (o := .transfer accs.buyVault accs.buyWallet (env.signerPda accs.pool) bought) hp
          hmoved.receives (fun he => ne_signerPda hcurve hA _ (Option.some.inj he).symm)
      rcases payToll_ok hp hmoved.tolls with ⟨-, hsame⟩ | ⟨n, -, hminted⟩
      · exact hsame ▸ hpays.trans hreceives
      · exact (hpays.trans hreceives).trans (.of_minted hminted)
  | token hop hl =>
      rcases Instr.tokenOp_signer hop with hsame | ⟨k, account, rfl⟩
      · exact .of_op hp hl (hsame ▸ hi)
      · exact .of_openAccount hl

end Step

/-! ## Runs -/

/-- Somebody holds LP tokens of a pool in an account that only they can use. -/
structure Holds (s : AmmState) (A k : Pubkey) (pool : Pool) (b : ℕ) : Prop where
  held : Held s.ledger k pool.mint A
  amount : b ≤ s.ledger.balance k

/-- LP tokens that somebody holds are in supply. -/
theorem Holds.supply_ne {A k : Pubkey} {b : ℕ} (h : Holds s A k pool b) (hb : 0 < b)
    (hl : s.ledger.Backed) : s.ledger.supply pool.mint ≠ 0 := by
  obtain ⟨a, ha, hmint, -⟩ := h.held
  have hof : s.ledger.Of pool.mint k := by
    rw [Ledger.Of, Ledger.kind_of_lookup ha, hmint]
    rfl
  have hle := (Ledger.balance_le hof).trans (hl pool.mint)
  have hamount := h.amount
  omega

/-- The calls of others, whose rounding is covered. -/
def OthersCovered (env : Env) (A key : Pubkey) (s : AmmState) (i : Instr) : Prop :=
  DistinctSigners env s i ∧ i.signer ≠ some A ∧ Covered env key s i

/-- **LP tokens keep their worth.** In every state that is reached from one
without pools, somebody who holds LP tokens of a constant-product pool, in
an account of their own, can leave them there. Whatever others do to the
program after that, in any order, as long as the rounding of the deposits,
swaps and tolls on this pool is covered: the holder still has the tokens,
the product of the reserves by as many powers of the LP supply has not
fallen, and there is a reserve of which an LP token is backed by no fewer
tokens than before. -/
theorem lp_tokens_keep_worth (hp : env.tokenProgram.Lawful)
    (hcurve : ∀ key, env.isOnCurve (env.signerPda key) = false) (hstart : s.pools = ∅)
    (hl : s.ledger.Backed) {is : List Instr} (his : Guarded (step env) (DistinctSigners env) s is)
    (hpool : (run (step env) s is).pools.lookup key = some pool)
    (hprod : pool.curve = .constProd) {A k : Pubkey} {b : ℕ} (hA : env.isOnCurve A = true)
    (hb : 0 < b) (hholds : Holds (run (step env) s is) A k pool b) {js : List Instr}
    (hjs : Guarded (step env) (OthersCovered env A key) (run (step env) s is) js) :
    let t := run (step env) s is
    let t' := run (step env) t js
    ∃ pool', t'.pools.lookup key = some pool' ∧ Holds t' A k pool b
      ∧ (pool.fund (t.ledger.supply pool.mint)).WorthLe
        (pool'.fund (t'.ledger.supply pool.mint))
      ∧ ∃ p ∈ pool.activeReserves.zip pool'.activeReserves,
        p.1.tokens.val * t'.ledger.supply pool.mint
          ≤ p.2.tokens.val * t.ledger.supply pool.mint := by
  have hissued : ∀ key pool, s.pools.lookup key = some pool →
      Issued s.ledger pool.mint (env.signerPda key) := fun key pool hpool => by
    rw [hstart] at hpool
    cases hpool
  obtain ⟨hs, hbacked⟩ : Issuing env (run (step env) s is) ∧ (run (step env) s is).ledger.Backed :=
    run_invariant (I := fun s => Issuing env s ∧ s.ledger.Backed)
      (fun s i s' hI hG h => ⟨step_issuing hp hcurve hI.1 hG h,
        step_backed hp hcurve hI.1.toCustody h hI.2⟩) ⟨⟨.of_empty hstart, hissued⟩, hl⟩ his
  generalize run (step env) s is = t at *
  intro t₀ t'
  have hrun : (Issuing env t' ∧ t'.ledger.Backed) ∧ Holds t' A k pool b
      ∧ WorthKept key pool t t' := by
    refine run_invariant (I := fun t' => (Issuing env t' ∧ t'.ledger.Backed) ∧ Holds t' A k pool b
      ∧ WorthKept key pool t t') (fun u i u' hI hG h => ?_)
      ⟨⟨hs, hbacked⟩, hholds, pool, hpool, rfl, hprod, .refl _⟩ hjs
    obtain ⟨⟨hu, hub⟩, huh, p, hp', hmint, hpcurve, hworth⟩ := hI
    have hsupply := huh.supply_ne hb hub
    obtain ⟨hheld, hle⟩ := step_spares hp hcurve hu.toCustody hA h hG.2.1 k pool.mint huh.held
    obtain ⟨p', hp'', hmint', hpcurve', hworth'⟩ :=
      step_worthKept hp hcurve hu h hG.2.2 hp' hpcurve (hmint ▸ hsupply)
    rw [hmint] at hmint' hworth'
    exact ⟨⟨step_issuing hp hcurve hu hG.1 h, step_backed hp hcurve hu.toCustody h hub⟩,
      ⟨hheld, huh.amount.trans hle⟩, p', hp'', hmint', hpcurve',
      hworth.trans (Nat.pos_of_ne_zero hsupply) hworth'⟩
  obtain ⟨-, hholds', pool', hpool', -, -, hworth⟩ := hrun
  refine ⟨pool', hpool', hholds', hworth, ?_⟩
  obtain ⟨r, -, hr⟩ := (hs.vaulted key pool hpool).wellFormed.head?
  obtain ⟨xy, hxy, hle⟩ := hworth.exists_backed (List.ne_nil_of_mem (List.mem_map_of_mem hr))
  rw [fund, fund, List.zip_map] at hxy
  obtain ⟨p, hmem, rfl⟩ := List.mem_map.mp hxy
  exact ⟨p, hmem, hle⟩

def createConstProd : Instr :=
  .createPool
    { admin := 60
      pool := 20
      programTollWallet := 10
      lpMint := 5
      remainingAccounts := [11, 12] } 0

/-- User 50 deposits all they have. -/
def depositAll : Instr :=
  .depositLiquidity
    { user := 50
      pool := 20
      lpMint := 5
      lpTokenWallet := 33
      remainingAccounts := [11, 31, 12, 32] } [⟨1, 5000⟩, ⟨2, 5000⟩]

/-- User 51 trades with the pool. -/
def traderAccounts : Swap where
  user := 51
  pool := 20
  sellWallet := 41
  buyWallet := 42
  sellVault := 11
  buyVault := 12
  lpMint := 5
  programTollWallet := 10

/-- The admin sets a fee, and user 51 sells 4000 tokens. -/
def feeAndTrade : List Instr :=
  [.setPoolSwapFee 60 20 ⟨10000⟩, .swap traderAccounts 4000 0]

/-- The toll gives out three LP tokens, and those of user 50 are worth more
than before. -/
theorem lp_tokens_keep_worth_traded :
    let t := run (step sampleEnv) backedState [createConstProd, depositAll]
    let t' := run (step sampleEnv) t feeAndTrade
    t.ledger.supply 5 = 5000 ∧ t'.ledger.supply 5 = 5003
      ∧ ∃ pool pool', t.pools.lookup 20 = some pool ∧ t'.pools.lookup 20 = some pool'
        ∧ (pool.fund 5000).WorthLe (pool'.fund 5003) := by
  intro t t'
  obtain ⟨pool, hpool⟩ := Option.isSome_iff_exists.mp
    (show (t.pools.lookup 20).isSome = true by decide +kernel)
  have hfacts : ∀ pool ∈ t.pools.lookup 20, pool.curve = .constProd ∧ pool.mint = 5 := by
    decide +kernel
  obtain ⟨hprod, hmint⟩ := hfacts pool hpool
  have hguarded : Guarded (step sampleEnv) (DistinctSigners sampleEnv) backedState
      [createConstProd, depositAll] := by
    refine ⟨?_, trivial, trivial⟩
    intro e he
    cases he
  have hsupply : t.ledger.supply 5 = 5000 := by decide +kernel
  have hsupply' : t'.ledger.supply 5 = 5003 := by decide +kernel
  have hholds : Holds t 50 33 pool 5000 := by
    obtain ⟨a, ha⟩ := Option.isSome_iff_exists.mp
      (show (t.ledger.accounts.lookup 33).isSome = true by decide +kernel)
    have haccount : ∀ a ∈ t.ledger.accounts.lookup 33, a.mint = 5 ∧ a.owner = 50
        ∧ a.delegate = none ∧ a.closeAuthority = none := by decide +kernel
    exact ⟨⟨a, ha, hmint ▸ haccount a ha⟩, by decide +kernel⟩
  have hcovered : Guarded (step sampleEnv) (OthersCovered sampleEnv 50 20) t feeAndTrade :=
    ⟨⟨trivial, by decide, trivial⟩, ⟨trivial, by decide, by decide +kernel⟩, trivial⟩
  obtain ⟨pool', hpool', -, hworth, -⟩ := lp_tokens_keep_worth Reference.lawful (fun _ => rfl) rfl
    backedState_backed hguarded hpool hprod rfl (by decide) hholds hcovered
  rw [hmint] at hworth
  refine ⟨hsupply, hsupply', pool, pool', hpool, hpool', ?_⟩
  rw [← hsupply, ← hsupply']
  exact hworth

end SolanaAmm.Amm
