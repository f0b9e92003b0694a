import SolanaAmm.Amm.Holding
import SolanaAmm.Lib.Exchange

/-!
# Amm — Quotes

What a swap on a constant-product pool pays. The curve multiplies all
reserves and divides by all balances but one, in 18 decimals, and yet the
trader gets what the two reserves they trade between quote, or a token more
where the decimals do not show the remainder. So prices can be compared
over a run: who trades first gets the better price, and to trade in parts
does not pay.
-/

namespace SolanaAmm.Amm

open Result Decimal Machine Token Pool Exchange

variable {m : PowSqrt} {pool pool' p : Pool} {sellMint buyMint mint : Pubkey}

/-! ## The recorded balances -/

/-- What the pool records as its tokens of a mint. -/
def Pool.balance (pool : Pool) (mint : Pubkey) : ℕ := mapAmounts pool.reservesHashmap mint

theorem Pool.balance_of_mem (hp : pool.WellFormed) {r : Reserve} (hr : r ∈ pool.activeReserves) :
    pool.balance r.mint = r.tokens.val :=
  mapAmounts_of_getElem? (reservesHashmap_mint hp hr)

theorem Pool.Moved.balance {up down : Pubkey → ℕ} (hp : pool.WellFormed)
    (h : Moved pool pool' up down) (hmint : mint ∈ pool.activeReserves.map (·.mint)) :
    pool'.balance mint + down mint = pool.balance mint + up mint := by
  obtain ⟨r, hr, rfl⟩ := List.mem_map.mp hmint
  obtain ⟨r', hr', hmoved⟩ := Lists.forall₂_exists_right h.reserves hr
  rw [balance_of_mem hp hr, ← hmoved.mint, balance_of_mem (h.wellFormed hp) hr', hmoved.mint]
  exact hmoved.tokens

/-! ## The price -/

/-- What a swap pays more than the quote: a token, where the quotient does
not show its remainder. -/
def Pool.roundedUp (pool : Pool) (sellMint : Pubkey) (n : ℕ) (buyMint : Pubkey) : ℕ :=
  if QuotientVisible pool.product (pool.otherProduct sellMint n buyMint) then 0 else 1

/-- What is neither sold nor bought is a factor of both products. -/
theorem products_eq (hp : pool.WellFormed) {sold bought : Reserve}
    (hsold : sold ∈ pool.activeReserves) (hbought : bought ∈ pool.activeReserves)
    (hne : sold.mint ≠ bought.mint) (hpos : ∀ r ∈ pool.activeReserves, 0 < r.tokens.val) (n : ℕ) :
    ∃ rest, 0 < rest ∧ pool.product = bought.tokens.val * sold.tokens.val * rest
      ∧ pool.otherProduct sold.mint n bought.mint = (sold.tokens.val + n) * rest := by
  let others := (pool.activeReserves.filter (fun r => r.mint ≠ bought.mint)).filter
    (fun r => r.mint ≠ sold.mint)
  have hkeep : sold ∈ pool.activeReserves.filter (fun r => r.mint ≠ bought.mint) :=
    List.mem_filter.mpr ⟨hsold, by simpa using hne⟩
  have hnodup : ((pool.activeReserves.filter (fun r => r.mint ≠ bought.mint)).map (·.mint)).Nodup :=
    hp.mints_nodup.sublist (List.filter_sublist.map _)
  refine ⟨(others.map (·.tokens.val)).prod, ?_, ?_, ?_⟩
  · refine List.prod_pos (fun b hb => ?_)
    obtain ⟨r, hr, rfl⟩ := List.mem_map.mp hb
    exact hpos r (List.mem_of_mem_filter (List.mem_of_mem_filter hr))
  · rw [product, Lists.prod_map_eq_mul_filter hp.mints_nodup hbought,
      Lists.prod_map_eq_mul_filter hnodup hkeep, Nat.mul_assoc]
  · rw [otherProduct, Lists.prod_map_eq_mul_filter hnodup hkeep, single_self]
    congr 2
    refine List.map_congr_left (fun r hr => ?_)
    have hother : r.mint ≠ sold.mint := by simpa using (List.mem_filter.mp hr).2
    rw [single_ne hother, Nat.add_zero]

/-- The truncated quotient, rounded up, is off by less than one. -/
theorem mul_ceil_bounds {k q : ℕ} (hq : 0 < q) :
    q * ((k * wad / q + (wad - 1)) / wad) < k + q
      ∧ k < q * ((k * wad / q + (wad - 1)) / wad + 1) := by
  have hw := wad_pos
  generalize wad = w at hw ⊢
  have hlow : k * w < q * (k * w / q + 1) := Nat.lt_mul_div_succ _ hq
  have hhigh : q * (k * w / q) ≤ k * w := Nat.mul_div_le _ _
  generalize k * w / q = z at *
  have hceil := Nat.div_mul_le_self (z + (w - 1)) w
  have hfloor := Nat.lt_mul_div_succ (z + (w - 1)) hw
  generalize (z + (w - 1)) / w = c at *
  constructor
  · refine Nat.lt_of_mul_lt_mul_right (a := w) ?_
    calc q * c * w = q * (c * w) := Nat.mul_assoc _ _ _
      _ < q * (z + w) := Nat.mul_lt_mul_of_pos_left (by omega) hq
      _ = q * z + q * w := Nat.mul_add _ _ _
      _ ≤ k * w + q * w := Nat.add_le_add_right hhigh _
      _ = (k + q) * w := (Nat.add_mul _ _ _).symm
  · refine Nat.lt_of_mul_lt_mul_right (a := w) ?_
    calc k * w < q * (z + 1) := hlow
      _ ≤ q * (w * (c + 1)) := Nat.mul_le_mul_left _ (by omega)
      _ = q * (c + 1) * w := by ring

/-- **The price** of a swap is the quote, and the token more where the
quotient does not show its remainder. -/
theorem Pool.Swapped.received_eq {n received : TokenAmount} (hp : pool.WellFormed)
    (hcurve : pool.curve = .constProd) (hne : sellMint ≠ buyMint)
    (h : Swapped m pool sellMint n buyMint pool' received) :
    received.val = quote (pool.balance sellMint) (pool.balance buyMint) n.val
      + pool.roundedUp sellMint n.val buyMint := by
  obtain ⟨bought, hbought, hm, balances, product, b, hbal, hprod, hb, hle, hrec⟩ := h.bought
  obtain ⟨sold, hsold, hm', -⟩ := h.sold
  subst hm hm'
  rw [balance_of_mem hp hsold, balance_of_mem hp hbought]
  obtain ⟨rest, hrest, hk, hq⟩ := products_eq hp hsold hbought hne h.positive n.val
  have hsoldPos := h.positive sold hsold
  have hqpos : 0 < pool.otherProduct sold.mint n.val bought.mint :=
    hq ▸ Nat.mul_pos (Nat.add_pos_left hsoldPos _) hrest
  -- what the curve leaves of the bought reserve
  have hleft : bought.tokens.val - received.val = (pool.product * wad
      / pool.otherProduct sold.mint n.val bought.mint + (wad - 1)) / wad := by
    have hproduct := product_soldOrNeutral hp hbal hprod
    simp only [boughtBalanceAfterSwap, hcurve, bind_eq_ok, tryDiv_eq_ok] at hb
    obtain ⟨k, hk, -, hb⟩ := hb
    rw [Fixed.div_whole_raw wad_pos (product_reservesHashmap hp hk) hproduct] at hb
    rw [hrec, Fixed.sub_sub_div wad_pos hle, hb]
  have hreceived : received.val ≤ bought.tokens.val := by
    rw [hrec]
    exact Nat.div_le_of_le_mul (by rw [Nat.mul_comm]; exact Nat.sub_le _ _)
  obtain ⟨hhigh, hlow⟩ := mul_ceil_bounds (k := pool.product) hqpos
  have hvisible := le_mul_ceil_iff (k := pool.product) hqpos
  rw [← hleft] at hhigh hlow hvisible
  unfold roundedUp
  generalize hl : bought.tokens.val - received.val = left at *
  rw [hk, hq] at hhigh hlow hvisible
  generalize bought.tokens.val = y at *
  generalize sold.tokens.val = x at *
  split
  · -- what is left is the exact quotient, rounded up
    rename_i hv
    rw [hk, hq] at hv
    rw [Nat.add_zero, ← sub_eq_quote_of_mul hrest (by omega) (hvisible.mpr hv) hhigh]
    omega
  · -- it is a token short of that
    rename_i hv
    rw [hk, hq] at hv
    have hshort := Nat.lt_of_not_le (fun h => hv (hvisible.mp h))
    have hless : left < y := by
      refine Nat.lt_of_mul_lt_mul_left (a := (x + n.val) * rest) (hshort.trans_le ?_)
      rw [Nat.mul_assoc y, Nat.mul_comm y]
      exact Nat.mul_le_mul_right _ (Nat.mul_le_mul_right _ (Nat.le_add_right _ _))
    rw [← sub_eq_quote_of_mul hrest (show left + 1 ≤ y from hless) hlow.le]
    · omega
    · rw [Nat.mul_add_one]
      omega

/-! ## The endpoint -/

variable {env : Env} {s t u : AmmState} {key : Pubkey}

/-- What a swap of `sell` tokens did, in closed form. -/
structure Traded (accs : Swap) (sell : ℕ) (t u : AmmState) (pool pool' : Pool)
    (sold bought : Reserve) (fee received toll : ℕ) : Prop where
  sells : sold ∈ pool.activeReserves ∧ sold.vault = accs.sellVault
  buys : bought ∈ pool.activeReserves ∧ bought.vault = accs.buyVault
  others : sold.mint ≠ bought.mint
  fees : fee = (sell * (pool.swapFee.permillion.val
    * (10 ^ 6 - discountOff t.slot (t.discounts.lookup accs.user))) + (10 ^ 12 - 1)) / 10 ^ 12
  paid : fee ≤ sell
  price : received = quote sold.tokens.val bought.tokens.val (sell - fee)
    + pool.roundedUp sold.mint (sell - fee) bought.mint
  after : u.pools.lookup accs.pool = some pool'
  reserves : List.Forall₂ (ReserveMoved (single sold.mint sell) (single bought.mint received))
    pool.activeReserves pool'.activeReserves
  supply : u.ledger.supply pool.mint = t.ledger.supply pool.mint + toll
  balances : ∀ k, u.ledger.balance k + (if k = accs.sellWallet then sell else 0)
      + (if k = accs.buyVault then received else 0)
    = t.ledger.balance k + (if k = accs.sellVault then sell else 0)
      + (if k = accs.buyWallet then received else 0)
      + (if k = accs.programTollWallet then toll else 0)

/-- What a toll adds to the supply and to the wallet it is paid to. -/
theorem payToll_supply (hp : env.tokenProgram.Lawful) {l l' : Ledger Pubkey Pubkey} {accs : Swap}
    {toll : Option TokenAmount} (h : payToll env l accs toll = .ok l') :
    l'.supply accs.lpMint = l.supply accs.lpMint + lpTokens toll
      ∧ ∀ k, l'.balance k
        = l.balance k + (if k = accs.programTollWallet then lpTokens toll else 0) := by
  rcases payToll_ok hp h with ⟨rfl, rfl⟩ | ⟨n, rfl, hminted⟩
  · exact ⟨rfl, fun k => (ite_self (c := k = accs.programTollWallet) 0).symm ▸ rfl⟩
  · obtain ⟨a, a', ha, ha', -, hadd, -⟩ := hminted.mint
    rw [Ledger.supply_of_lookup ha, Ledger.supply_of_lookup ha', hadd]
    exact ⟨rfl, hminted.balances⟩

theorem step_swap {accs : Swap} {sell minBuy : TokenAmount}
    (h : step env t (.swap accs sell minBuy) = .ok u) :
    env.isOnCurve accs.user = true ∧ swap env t accs sell minBuy = .ok u := by
  simp only [step, bind_eq_ok, ensure_eq_ok] at h
  obtain ⟨-, hsigner, h⟩ := h
  exact ⟨hsigner, h⟩

/-- **A swap, in closed form.** In every state that is reached, a swap on a
constant-product pool takes the fee off what is sold, rounded up, and pays
what the sold and the bought reserve quote for the rest, or a token more
where the quotient does not show its remainder. The reserves, the token
accounts and the LP supply change by just that and the toll. -/
theorem swap_at_quote (hp : env.tokenProgram.Lawful)
    (hcurve : ∀ key, env.isOnCurve (env.signerPda key) = false) (hpools : s.pools = ∅)
    (hdiscounts : s.discounts = ∅) {is : List Instr}
    (his : Guarded (step env) (DistinctSigners env) s is) {accs : Swap} {sell minBuy : TokenAmount}
    (hpool : (run (step env) s is).pools.lookup accs.pool = some pool)
    (hprod : pool.curve = .constProd)
    (h : step env (run (step env) s is) (.swap accs sell minBuy) = .ok u) :
    ∃ pool' sold bought fee received toll,
      Traded accs sell.val (run (step env) s is) u pool pool' sold bought fee received toll := by
  have hs : Custody env (run (step env) s is) :=
    run_invariant (fun _ _ _ hI hG h => step_custody hp hcurve hI hG h) (.of_empty hpools) his
  have hlimits : WithinLimits (run (step env) s is) :=
    run_withinLimits (.of_empty hpools hdiscounts) is
  generalize run (step env) s is = t at *
  obtain ⟨hsigner, hswap⟩ := step_swap h
  obtain ⟨q, pool', sold, bought, fee, received, toll, paid, ledger, hmoved, -⟩ :=
    swap_moved hp hs (ne_signerPda hcurve hsigner _) hswap
  have hsame := hmoved.before
  rw [hpool, Option.some.injEq] at hsame
  subst hsame
  have hwf := (hs.vaulted _ _ hpool).wellFormed
  obtain ⟨n, p, hn, hswap⟩ := hmoved.swap
  obtain ⟨hbought, hbuyVault, hne⟩ := hmoved.buys
  obtain ⟨fee', hfee, hval⟩ := calculateSwapFee_exact t.slot sell
    (hlimits.fee _ _ hpool) (hlimits.discount accs.user)
  obtain rfl : fee = fee' := Except.ok.inj (hmoved.fees.symm.trans hfee)
  have hprice := (swapped hwf hswap).received_eq hwf hprod (Ne.symm hne)
  rw [balance_of_mem hwf hmoved.sells.1, balance_of_mem hwf hbought,
    show n.val = sell.val - fee.val by omega] at hprice
  have hpaid := hp.transfer_ok hmoved.pays
  have hreceived := hp.transfer_ok hmoved.receives
  have hledger : ledger.supply pool.mint = t.ledger.supply pool.mint :=
    Ledger.supply_congr ((hreceived.supplies _ List.not_mem_nil).trans
      (hpaid.supplies _ List.not_mem_nil))
  obtain ⟨hsupply, htolled⟩ := payToll_supply hp hmoved.tolls
  rw [hmoved.mint, hledger] at hsupply
  exact ⟨pool', sold, bought, fee.val, received.val, lpTokens toll,
    { sells := hmoved.sells
      buys := ⟨hbought, hbuyVault⟩
      others := Ne.symm hne
      fees := hval
      paid := by omega
      price := hprice
      after := hmoved.state ▸ AList.lookup_insert _
      reserves := hmoved.reserves
      supply := hsupply
      balances := fun k => by
        have := hpaid.balances k
        have := hreceived.balances k
        have := htolled k
        omega }⟩

/-- User 51 sells tokens of the first mint. -/
def tradeFirst (sell : TokenAmount) : Instr := .swap traderAccounts sell 0

/-- A pool of 5000 tokens each, which takes 1%. -/
def pricedPool : List Instr :=
  [createConstProd, depositAll, .setPoolSwapFee 60 20 ⟨10000⟩]

theorem pricedPool_guarded :
    Guarded (step sampleEnv) (DistinctSigners sampleEnv) backedState pricedPool := by
  refine ⟨?_, trivial, trivial, trivial⟩
  intro e he
  cases he

/-- The pool as it is before anybody trades. -/
theorem pricedPool_pool : ∃ pool,
    (run (step sampleEnv) backedState pricedPool).pools.lookup 20 = some pool
      ∧ pool.curve = .constProd := by
  have hpool : ((run (step sampleEnv) backedState pricedPool).pools.lookup 20).map (·.curve)
      = some .constProd := by decide +kernel
  exact Option.map_eq_some_iff.mp hpool

/-- Of 4000 tokens 40 are the fee, and the rest buys 2209. -/
theorem swap_at_quote_sold :
    ∃ u pool pool' sold bought fee received toll,
      step sampleEnv (run (step sampleEnv) backedState pricedPool) (tradeFirst 4000) = .ok u
        ∧ Traded traderAccounts 4000 (run (step sampleEnv) backedState pricedPool) u pool pool'
          sold bought fee received toll
        ∧ fee = 40 := by
  obtain ⟨pool, hpool, hprod⟩ := pricedPool_pool
  have hok : (step sampleEnv (run (step sampleEnv) backedState pricedPool) (tradeFirst 4000)).isOk
      = true := by decide +kernel
  have hstep := step_of_isOk hok
  obtain ⟨pool', sold, bought, fee, received, toll, htraded⟩ := swap_at_quote Reference.lawful
    (fun _ => rfl) rfl rfl pricedPool_guarded hpool hprod hstep
  refine ⟨_, pool, pool', sold, bought, fee, received, toll, hstep, htraded, ?_⟩
  have hrate : ∀ pool ∈ (run (step sampleEnv) backedState pricedPool).pools.lookup 20,
      pool.swapFee = ⟨10000⟩ := by decide +kernel
  have hdiscount : discountOff (run (step sampleEnv) backedState pricedPool).slot
      ((run (step sampleEnv) backedState pricedPool).discounts.lookup 51) = 0 := by decide +kernel
  rw [htraded.fees, hrate pool hpool, show traderAccounts.user = 51 from rfl, hdiscount]
  decide +kernel

/-! ## Prices over a run -/

/-- What a swap and its fee did to a constant-product pool. -/
structure Swap.Effect (pool : Pool) (op : SwapOp) (p : Pool) (received : ℕ) : Prop where
  wellFormed : p.WellFormed
  curve : p.curve = pool.curve
  mints : p.activeReserves.map (·.mint) = pool.activeReserves.map (·.mint)
  swapFee : p.swapFee = pool.swapFee
  sells : op.sellMint ∈ pool.activeReserves.map (·.mint) ∧ 0 < pool.balance op.sellMint
  buys : op.buyMint ∈ pool.activeReserves.map (·.mint)
  price : received = quote (pool.balance op.sellMint) (pool.balance op.buyMint) op.tokensToSwap.val
    + pool.roundedUp op.sellMint op.tokensToSwap.val op.buyMint
  balances : ∀ mint ∈ pool.activeReserves.map (·.mint),
    p.balance mint + single op.buyMint received mint
      = pool.balance mint + single op.sellMint (op.tokensToSwap.val + op.swapFee.val) mint

theorem swapStep_effect {op : SwapOp} (hp : pool.WellFormed) (hcurve : pool.curve = .constProd)
    (hne : op.sellMint ≠ op.buyMint) (h : swapStep m pool op = .ok p) :
    ∃ received, Swap.Effect pool op p received := by
  simp only [swapStep, bind_eq_ok, Prod.exists] at h
  obtain ⟨p₁, received, hswap, hfee⟩ := h
  have hswapped := swapped hp hswap
  have hwf₁ := hswapped.moved.wellFormed hp
  have hall := hswapped.moved.trans (updateReserve_moved hwf₁.mints_nodup addTokens_moved hfee)
  obtain ⟨sold, hsold, hsoldMint, -⟩ := hswapped.sold
  obtain ⟨bought, hbought, hboughtMint, -⟩ := hswapped.bought
  refine ⟨received.val,
    { wellFormed := hall.wellFormed hp
      curve := hall.curve
      mints := hall.mints
      swapFee := by rw [hall.rest]; rfl
      sells := ⟨List.mem_map.mpr ⟨sold, hsold, hsoldMint⟩, ?_⟩
      buys := List.mem_map.mpr ⟨bought, hbought, hboughtMint⟩
      price := hswapped.received_eq hp hcurve hne
      balances := fun mint hmint => ?_ }⟩
  · rw [← hsoldMint, balance_of_mem hp hsold]
    exact hswapped.positive sold hsold
  · have hbalance := hall.balance hp hmint
    by_cases hmint : mint = op.sellMint
    · subst hmint
      simp only [single_self, Nat.add_zero] at hbalance ⊢
      omega
    · simpa only [single_ne hmint, single_zero, Nat.add_zero] using hbalance

/-- The calls that leave the liquidity of a pool alone and neither sell the
one mint to it nor buy the other from it. -/
def OnlyTrades (key sellMint buyMint : Pubkey) (s : AmmState) : Instr → Prop
  | .depositLiquidity accs _ => accs.pool ≠ key
  | .redeemLiquidity accs _ _ => accs.pool ≠ key
  | .swap accs sell _ => accs.pool = key → ∀ pool ∈ s.pools.lookup key,
      ∀ op ∈ swapOp s accs pool sell, op.sellMint ≠ buyMint ∧ op.buyMint ≠ sellMint
  | _ => True

instance (key sellMint buyMint : Pubkey) (s : AmmState) :
    (i : Instr) → Decidable (OnlyTrades key sellMint buyMint s i)
  | .depositLiquidity accs _ => inferInstanceAs (Decidable (accs.pool ≠ key))
  | .redeemLiquidity accs _ _ => inferInstanceAs (Decidable (accs.pool ≠ key))
  | .swap accs _ _ =>
      inferInstanceAs (Decidable (accs.pool = key → ∀ _ ∈ _, ∀ _ ∈ _, _ ≠ _ ∧ _ ≠ _))
  | .createProgramToll .. | .createDiscountSettings .. | .putDiscount .. | .createPool ..
  | .setPoolSwapFee .. | .tick _ | .openAccount .. | .openMint .. | .transfer ..
  | .mintTo .. | .burn .. | .setMintAuthority .. => isTrue trivial

/-- The pool still has a constant product, and what can be bought from it
has become dearer. -/
structure Dearer (sellMint buyMint : Pubkey) (pool pool' : Pool) : Prop where
  curve : pool'.curve = .constProd
  mints : pool'.activeReserves.map (·.mint) = pool.activeReserves.map (·.mint)
  sold : pool.balance sellMint ≤ pool'.balance sellMint
  bought : pool'.balance buyMint ≤ pool.balance buyMint

theorem Dearer.of_reserves (hcurve : pool'.curve = .constProd)
    (h : pool'.activeReserves = pool.activeReserves) : Dearer sellMint buyMint pool pool' where
  curve := hcurve
  mints := by rw [h]
  sold := by rw [balance, balance, reservesHashmap, reservesHashmap, h]
  bought := by rw [balance, balance, reservesHashmap, reservesHashmap, h]

theorem Dearer.trans {pool'' : Pool} (h : Dearer sellMint buyMint pool pool')
    (h' : Dearer sellMint buyMint pool' pool'') : Dearer sellMint buyMint pool pool'' :=
  ⟨h'.curve, h'.mints.trans h.mints, h.sold.trans h'.sold, h'.bought.trans h.bought⟩

/-- A swap that sells and buys other mints, or these two the same way. -/
theorem Swap.Effect.dearer {op : SwapOp} {received : ℕ} (h : Swap.Effect pool op p received)
    (hcurve : pool.curve = .constProd) (hsell : sellMint ∈ pool.activeReserves.map (·.mint))
    (hbuy : buyMint ∈ pool.activeReserves.map (·.mint))
    (hop : op.sellMint ≠ buyMint ∧ op.buyMint ≠ sellMint) : Dearer sellMint buyMint pool p where
  curve := h.curve.trans hcurve
  mints := h.mints
  sold := by
    have hbalance := h.balances sellMint hsell
    rw [single_ne (Ne.symm hop.2)] at hbalance
    omega
  bought := by
    have hbalance := h.balances buyMint hbuy
    rw [single_ne (Ne.symm hop.1)] at hbalance
    omega

section Runs

variable (hp : env.tokenProgram.Lawful)
  (hcurve : ∀ key, env.isOnCurve (env.signerPda key) = false)

include hp in
/-- What a call of the endpoint does to a constant-product pool. -/
theorem swap_effect {accs : Swap} {sell minBuy : TokenAmount}
    (h : swap env s accs sell minBuy = .ok t) (hpool : s.pools.lookup accs.pool = some pool)
    (hwf : pool.WellFormed) (hprod : pool.curve = .constProd) :
    ∃ op pool' received, swapOp s accs pool sell = some op ∧ op.sellMint ≠ op.buyMint
      ∧ calculateSwapFee s.slot sell pool.swapFee (s.discounts.lookup accs.user) = .ok op.swapFee
      ∧ Swap.Effect pool op pool' received
      ∧ t = (s.setLedger t.ledger).setPool accs.pool pool' := by
  obtain ⟨q, op, p, lpMint, toll, ledger, pool', hbefore, -, hop, hne, hfee, hstep, -, -, -, -,
    hupdate, hstate⟩ := swap_made hp h
  rw [hpool, Option.some.injEq] at hbefore
  subst hbefore
  obtain ⟨received, heffect⟩ := swapStep_effect hwf hprod hne hstep
  obtain rfl := constProd_updated (heffect.curve.trans hprod) hupdate
  exact ⟨op, pool', received, hop, hne, hfee, heffect, hstate⟩

include hp in
/-- **One step** of trading the same way makes the pool dearer. -/
theorem step_dearer {i : Instr} (hs : Custody env s) (h : step env s i = .ok t)
    (hi : OnlyTrades key sellMint buyMint s i) (hpool : s.pools.lookup key = some pool)
    (hprod : pool.curve = .constProd) (hsell : sellMint ∈ pool.activeReserves.map (·.mint))
    (hbuy : buyMint ∈ pool.activeReserves.map (·.mint)) :
    ∃ pool', t.pools.lookup key = some pool' ∧ Dearer sellMint buyMint pool pool' := by
  have hsame : t.pools.lookup key = some pool →
      ∃ pool', t.pools.lookup key = some pool' ∧ Dearer sellMint buyMint pool pool' :=
    fun h => ⟨pool, h, .of_reserves hprod rfl⟩
  have hother : ∀ {k : Pubkey} {l : Ledger Pubkey Pubkey} {q : Pool}, k ≠ key →
      t = (s.setLedger l).setPool k q → t.pools.lookup key = some pool := by
    rintro k l q hne rfl
    exact (AList.lookup_insert_ne (Ne.symm hne)).trans hpool
  obtain ⟨-, he⟩ := step_ok h
  cases he with
  | settings hpools _ => exact hsame (by rw [hpools, hpool])
  | createPool h =>
      obtain ⟨_, _, hnew, -, -, -, -, -, rfl⟩ := createPool_ok h
      refine hsame (hother (l := s.ledger) (fun he => ?_) rfl)
      rw [he, hpool] at hnew
      cases hnew
  | @setPoolSwapFee admin k fee q hq _ =>
      by_cases hkey : k = key
      · subst hkey
        rw [hpool, Option.some.injEq] at hq
        subst hq
        exact ⟨_, AList.lookup_insert _, .of_reserves hprod rfl⟩
      · exact hsame (hother (l := s.ledger) hkey rfl)
  | depositLiquidity h =>
      obtain ⟨_, _, _, -, -, rfl⟩ := depositLiquidity_rebalanced h
      exact hsame (hother hi rfl)
  | redeemLiquidity h =>
      obtain ⟨_, _, _, -, -, rfl⟩ := redeemLiquidity_rebalanced h
      exact hsame (hother hi rfl)
  | @swap accs sell minBuy _ h =>
      by_cases hkey : accs.pool = key
      · subst hkey
        obtain ⟨op, pool', received, hop, -, -, heffect, hstate⟩ :=
          swap_effect hp h hpool (hs.vaulted _ _ hpool).wellFormed hprod
        exact ⟨pool', by rw [hstate]; exact AList.lookup_insert _,
          heffect.dearer hprod hsell hbuy (hi rfl pool hpool op hop)⟩
      · obtain ⟨_, _, _, -, -, rfl⟩ := swap_rebalanced h
        exact hsame (hother hkey rfl)
  | token _ _ => exact hsame hpool

include hp hcurve

/-- Along a run of such calls. -/
theorem run_dearer (hs : Custody env s) (hpool : s.pools.lookup key = some pool)
    (hprod : pool.curve = .constProd) (hsell : sellMint ∈ pool.activeReserves.map (·.mint))
    (hbuy : buyMint ∈ pool.activeReserves.map (·.mint)) {is : List Instr}
    (his : Guarded (step env)
      (fun s i => DistinctSigners env s i ∧ OnlyTrades key sellMint buyMint s i) s is) :
    Custody env (run (step env) s is) ∧ ∃ pool',
      (run (step env) s is).pools.lookup key = some pool' ∧ Dearer sellMint buyMint pool pool' := by
  refine run_invariant (I := fun t => Custody env t ∧ ∃ pool', t.pools.lookup key = some pool'
    ∧ Dearer sellMint buyMint pool pool') (fun t i t' hI hG h => ?_)
    ⟨hs, pool, hpool, .of_reserves hprod rfl⟩ his
  obtain ⟨ht, p, hp', hdearer⟩ := hI
  obtain ⟨p', hp'', hdearer'⟩ := step_dearer hp ht h hG.2 hp' hdearer.curve
    (hdearer.mints ▸ hsell) (hdearer.mints ▸ hbuy)
  exact ⟨step_custody hp hcurve ht hG.1 h, p', hp'', hdearer.trans hdearer'⟩

/-- **Who trades first.** In every state that is reached, whatever others
call from then on, as long as they neither deposit into nor redeem from a
constant-product pool and neither sell the one mint to it nor buy the other
from it: to trade the way they do never pays more than before, and to trade
the other way never less, but for the token more of a remainder that the
quotient does not show. -/
theorem price_by_order (hpools : s.pools = ∅) {is : List Instr}
    (his : Guarded (step env) (DistinctSigners env) s is)
    (hpool : (run (step env) s is).pools.lookup key = some pool) (hprod : pool.curve = .constProd)
    (hne : sellMint ≠ buyMint) {js : List Instr}
    (hjs : Guarded (step env)
      (fun s i => DistinctSigners env s i ∧ OnlyTrades key sellMint buyMint s i)
      (run (step env) s is) js) :
    ∀ n first second p p',
      (pool.swap m sellMint n buyMint = .ok (p, first) →
        ∀ pool' ∈ (run (step env) (run (step env) s is) js).pools.lookup key,
        pool'.swap m sellMint n buyMint = .ok (p', second) →
        second.val ≤ first.val + pool'.roundedUp sellMint n.val buyMint)
      ∧ (pool.swap m buyMint n sellMint = .ok (p, first) →
        ∀ pool' ∈ (run (step env) (run (step env) s is) js).pools.lookup key,
        pool'.swap m buyMint n sellMint = .ok (p', second) →
        first.val ≤ second.val + pool.roundedUp buyMint n.val sellMint) := by
  have hs : Custody env (run (step env) s is) :=
    run_invariant (fun _ _ _ hI hG h => step_custody hp hcurve hI hG h) (.of_empty hpools) his
  generalize run (step env) s is = t at *
  have hwf := (hs.vaulted _ _ hpool).wellFormed
  intro n first second p p'
  constructor
  · intro hfirst pool' hpool' hsecond
    have hswapped := swapped hwf hfirst
    obtain ⟨sold, hsold, rfl, -⟩ := hswapped.sold
    obtain ⟨bought, hbought, rfl, -⟩ := hswapped.bought
    obtain ⟨ht, q, hq, hdearer⟩ := run_dearer hp hcurve hs hpool hprod
      (List.mem_map_of_mem hsold) (List.mem_map_of_mem hbought) hjs
    obtain rfl : q = pool' := Option.some.inj (hq.symm.trans hpool')
    have hwf' := (ht.vaulted _ _ hpool').wellFormed
    rw [hswapped.received_eq hwf hprod hne,
      (swapped hwf' hsecond).received_eq hwf' hdearer.curve hne]
    have hpositive := hswapped.positive sold hsold
    rw [← balance_of_mem hwf hsold] at hpositive
    have hquote := quote_le_quote hdearer.sold hdearer.bought (Nat.le_refl n.val) hpositive
    omega
  · intro hfirst pool' hpool' hsecond
    have hswapped := swapped hwf hfirst
    obtain ⟨bought, hbought, rfl, -⟩ := hswapped.sold
    obtain ⟨sold, hsold, rfl, -⟩ := hswapped.bought
    obtain ⟨ht, q, hq, hdearer⟩ := run_dearer hp hcurve hs hpool hprod
      (List.mem_map_of_mem hsold) (List.mem_map_of_mem hbought) hjs
    obtain rfl : q = pool' := Option.some.inj (hq.symm.trans hpool')
    have hwf' := (ht.vaulted _ _ hpool').wellFormed
    have hswapped' := swapped hwf' hsecond
    rw [hswapped.received_eq hwf hprod (Ne.symm hne),
      hswapped'.received_eq hwf' hdearer.curve (Ne.symm hne)]
    obtain ⟨r, hr, hmint, -⟩ := hswapped'.sold
    have hpositive := hswapped'.positive r hr
    rw [← balance_of_mem hwf' hr, hmint] at hpositive
    have hquote := quote_le_quote hdearer.bought hdearer.sold (Nat.le_refl n.val) hpositive
    omega

end Runs

/-- After a trade of 4000 tokens the next 1000 buy 279 instead of 833. -/
theorem price_by_order_second :
    let t := run (step sampleEnv) backedState pricedPool
    ∃ pool pool' p p' first second, t.pools.lookup 20 = some pool
      ∧ (run (step sampleEnv) t [tradeFirst 4000]).pools.lookup 20 = some pool'
      ∧ pool.swap .reference 1 1000 2 = .ok (p, first)
      ∧ pool'.swap .reference 1 1000 2 = .ok (p', second)
      ∧ second.val ≤ first.val + pool'.roundedUp 1 1000 2 := by
  intro t
  obtain ⟨pool, hpool, hprod⟩ := pricedPool_pool
  obtain ⟨pool', hpool'⟩ := Option.isSome_iff_exists.mp
    (show ((run (step sampleEnv) t [tradeFirst 4000]).pools.lookup 20).isSome = true by
      decide +kernel)
  have hfirst : ∀ pool ∈ t.pools.lookup 20, (pool.swap .reference 1 1000 2).isOk = true := by
    decide +kernel
  have hsecond : ∀ pool' ∈ (run (step sampleEnv) t [tradeFirst 4000]).pools.lookup 20,
      (pool'.swap .reference 1 1000 2).isOk = true := by decide +kernel
  have hguarded : Guarded (step sampleEnv)
      (fun s i => DistinctSigners sampleEnv s i ∧ OnlyTrades 20 1 2 s i) t [tradeFirst 4000] :=
    ⟨⟨trivial, by decide +kernel⟩, trivial⟩
  cases hf : pool.swap .reference 1 1000 2 with
  | error e =>
      have hok := hfirst pool hpool
      rw [hf] at hok
      cases hok
  | ok pf =>
      cases hn : pool'.swap .reference 1 1000 2 with
      | error e =>
          have hok := hsecond pool' hpool'
          rw [hn] at hok
          cases hok
      | ok pn =>
          exact ⟨pool, pool', pf.1, pn.1, pf.2, pn.2, hpool, hpool', hf, hn,
            (price_by_order Reference.lawful (fun _ => rfl) rfl pricedPool_guarded hpool hprod
              (by decide) hguarded 1000 pf.2 pn.2 pf.1 pn.1).1 hf pool' hpool' hn⟩

/-! ## A trade in parts -/

/-- A swap by the user that sells the one mint for the other, and whose
quotient shows its remainder. -/
def PartOf (user key sellMint buyMint : Pubkey) (s : AmmState) : Instr → Prop
  | .swap accs sell _ => accs.user = user ∧ accs.pool = key ∧ ∀ pool ∈ s.pools.lookup key,
      ∀ op ∈ swapOp s accs pool sell, op.sellMint = sellMint ∧ op.buyMint = buyMint
        ∧ QuotientVisible pool.product (pool.otherProduct sellMint op.tokensToSwap.val buyMint)
  | _ => False

instance (user key sellMint buyMint : Pubkey) (s : AmmState) :
    (i : Instr) → Decidable (PartOf user key sellMint buyMint s i)
  | .swap accs _ _ => inferInstanceAs
      (Decidable (accs.user = user ∧ accs.pool = key ∧ ∀ _ ∈ _, ∀ _ ∈ _, _ ∧ _ ∧ _))
  | .createProgramToll .. | .createDiscountSettings .. | .putDiscount .. | .createPool ..
  | .setPoolSwapFee .. | .depositLiquidity .. | .redeemLiquidity .. | .tick _
  | .openAccount .. | .openMint .. | .transfer .. | .mintTo .. | .burn ..
  | .setMintAuthority .. => isFalse id

theorem swapOp_sell {accs : Swap} {sell : TokenAmount} {op : SwapOp}
    (h : swapOp s accs pool sell = some op) : op.tokensToSwap.val + op.swapFee.val = sell.val := by
  simp only [swapOp, Option.bind_eq_bind, Option.bind_eq_some_iff, Word.checkedSub_eq_some,
    Option.pure_def, Option.some.injEq] at h
  obtain ⟨_, -, _, -, fee, -, toSwap, ⟨hle, hsub⟩, rfl⟩ := h
  show toSwap.val + fee.val = sell.val
  omega

/-- What the fee of a pool and the discount of a user take of a million
millionths of a million. -/
def feeRate (t : AmmState) (pool : Pool) (user : Pubkey) : ℕ :=
  pool.swapFee.permillion.val * (10 ^ 6 - discountOff t.slot (t.discounts.lookup user))

theorem fee_covers {fee sell rate : ℕ} (h : fee = (sell * rate + (10 ^ 12 - 1)) / 10 ^ 12) :
    sell * rate ≤ fee * 10 ^ 12 := by
  generalize sell * rate = share at h ⊢
  omega

theorem fee_le {fee sell rate paid : ℕ} (h : fee = (sell * rate + (10 ^ 12 - 1)) / 10 ^ 12)
    (hpaid : sell * rate ≤ paid * 10 ^ 12) : fee ≤ paid := by
  generalize sell * rate = share at h hpaid
  omega

/-- Where a trade in parts stands: of what the pool received, `net` tokens
were sold and the rest were fees. -/
structure InParts (key sellMint buyMint : Pubkey) (rate : ℕ) (s : AmmState) (pool : Pool)
    (t : AmmState) (pool' : Pool) (net : ℕ) : Prop where
  after : t.pools.lookup key = some pool'
  wellFormed : pool'.WellFormed
  curve : pool'.curve = .constProd
  swapFee : pool'.swapFee = pool.swapFee
  slot : t.slot = s.slot
  discounts : t.discounts = s.discounts
  traded : Sold (pool.balance sellMint) (pool.balance buyMint) net
    (pool'.balance sellMint) (pool'.balance buyMint)
  fees : (pool'.balance sellMint - pool.balance sellMint) * rate
    ≤ (pool'.balance sellMint - pool.balance sellMint - net) * 10 ^ 12

section Parts

variable (hp : env.tokenProgram.Lawful)

include hp

/-- **One more part**. -/
theorem InParts.step {user : Pubkey} {u : AmmState} {i : Instr} {net : ℕ}
    (hlimits : WithinLimits s) (hpool : s.pools.lookup key = some pool)
    (h : InParts key sellMint buyMint (feeRate s pool user) s pool t pool' net)
    (hi : PartOf user key sellMint buyMint t i) (hstep : step env t i = .ok u) :
    ∃ pool'' net', InParts key sellMint buyMint (feeRate s pool user) s pool u pool'' net' := by
  cases i with
  | swap accs sell minBuy =>
      obtain ⟨huser, hkey, hpart⟩ := hi
      subst huser hkey
      obtain ⟨-, hswap⟩ := step_swap hstep
      obtain ⟨op, pool'', received, hop, hne, hfee, heffect, hstate⟩ :=
        swap_effect hp hswap h.after h.wellFormed h.curve
      obtain ⟨rfl, rfl, hvisible⟩ := hpart pool' h.after op hop
      have hsell := swapOp_sell hop
      obtain ⟨fee, hfee', hval⟩ := calculateSwapFee_exact s.slot sell
        (hlimits.fee _ _ hpool) (hlimits.discount accs.user)
      rw [h.swapFee, h.slot, h.discounts, hfee', Except.ok.injEq] at hfee
      subst hfee
      have hcovers : sell.val * feeRate s pool accs.user ≤ op.swapFee.val * 10 ^ 12 :=
        fee_covers hval
      have hprice := heffect.price
      rw [roundedUp, if_pos hvisible, Nat.add_zero] at hprice
      have hx := heffect.balances _ heffect.sells.1
      have hy := heffect.balances _ heffect.buys
      rw [single_self, single_ne hne, Nat.add_zero] at hx
      rw [single_self, single_ne (Ne.symm hne), Nat.add_zero] at hy
      have hold := h.fees
      have hsold := h.traded.sold
      refine ⟨pool'', net + op.tokensToSwap.val,
        { after := by rw [hstate]; exact AList.lookup_insert _
          wellFormed := heffect.wellFormed
          curve := heffect.curve.trans h.curve
          swapFee := heffect.swapFee.trans h.swapFee
          slot := by rw [hstate]; exact h.slot
          discounts := by rw [hstate]; exact h.discounts
          traded := ?_
          fees := ?_ }⟩
      · have hleft : pool''.balance op.buyMint = pool'.balance op.buyMint - received := by omega
        rw [hleft]
        exact h.traded.step hprice.le (by omega) (by omega)
      · have hall : pool''.balance op.sellMint - pool.balance op.sellMint
            = pool'.balance op.sellMint - pool.balance op.sellMint + sell.val := by omega
        have hkept : pool'.balance op.sellMint - pool.balance op.sellMint + sell.val
              - (net + op.tokensToSwap.val)
            = pool'.balance op.sellMint - pool.balance op.sellMint - net + op.swapFee.val := by
          omega
        rw [hall, hkept, Nat.add_mul, Nat.add_mul]
        exact Nat.add_le_add hold hcovers
  | _ => exact hi.elim

/-- **A trade in parts** does not pay. In every state that is reached, a user
who sells one mint for another in as many swaps as they like, all of which
show their remainder, leaves a constant-product pool with no less of the
bought mint than one swap of all that they sold would have: the discount is
the same, the fees are rounded up each time, and the price gets worse. -/
theorem trade_in_parts (hcurve : ∀ key, env.isOnCurve (env.signerPda key) = false)
    (hpools : s.pools = ∅) (hdiscounts : s.discounts = ∅) {is : List Instr}
    (his : Guarded (step env) (DistinctSigners env) s is) {accs : Swap} {sell minBuy : TokenAmount}
    (hpool : (run (step env) s is).pools.lookup accs.pool = some pool)
    (hprod : pool.curve = .constProd)
    (hmints : ∀ op ∈ swapOp (run (step env) s is) accs pool sell,
      op.sellMint = sellMint ∧ op.buyMint = buyMint)
    (h : step env (run (step env) s is) (.swap accs sell minBuy) = .ok u) {parts : List Instr}
    (hparts : Guarded (step env) (PartOf accs.user accs.pool sellMint buyMint)
      (run (step env) s is) parts) :
    ∃ whole inParts, u.pools.lookup accs.pool = some whole
      ∧ (run (step env) (run (step env) s is) parts).pools.lookup accs.pool = some inParts
      ∧ (inParts.balance sellMint = whole.balance sellMint →
        whole.balance buyMint ≤ inParts.balance buyMint) := by
  have hs : Custody env (run (step env) s is) :=
    run_invariant (fun _ _ _ hI hG h => step_custody hp hcurve hI hG h) (.of_empty hpools) his
  have hlimits : WithinLimits (run (step env) s is) :=
    run_withinLimits (.of_empty hpools hdiscounts) is
  generalize run (step env) s is = t at *
  have hwf := (hs.vaulted _ _ hpool).wellFormed
  obtain ⟨-, hswap⟩ := step_swap h
  obtain ⟨op, whole, received, hop, hne, hfee, heffect, hstate⟩ :=
    swap_effect hp hswap hpool hwf hprod
  obtain ⟨rfl, rfl⟩ := hmints op hop
  obtain ⟨inParts, net, hnet⟩ : ∃ inParts net, InParts accs.pool op.sellMint op.buyMint
      (feeRate t pool accs.user) t pool (run (step env) t parts) inParts net := by
    refine run_invariant (I := fun t' => ∃ pool' net, InParts accs.pool op.sellMint op.buyMint
      (feeRate t pool accs.user) t pool t' pool' net) (fun t' i u hI hG h => ?_)
      ⟨pool, 0, hpool, hwf, hprod, rfl, rfl, rfl, .refl _ _, by simp⟩ hparts
    obtain ⟨pool', net, hI⟩ := hI
    exact hI.step hp hlimits hpool hG h
  refine ⟨whole, inParts, by rw [hstate]; exact AList.lookup_insert _, hnet.after, fun hall => ?_⟩
  obtain ⟨fee, hfee', hval⟩ := calculateSwapFee_exact t.slot sell
    (hlimits.fee _ _ hpool) (hlimits.discount accs.user)
  obtain rfl : fee = op.swapFee := Except.ok.inj (hfee'.symm.trans hfee)
  have hsell := swapOp_sell hop
  have hx := heffect.balances _ heffect.sells.1
  have hy := heffect.balances _ heffect.buys
  rw [single_self, single_ne hne, Nat.add_zero] at hx
  rw [single_self, single_ne (Ne.symm hne), Nat.add_zero] at hy
  have hsold := hnet.traded.sold
  -- one fee is at most the fees of the parts, so no less is sold
  have htotal : inParts.balance op.sellMint - pool.balance op.sellMint = sell.val := by omega
  have hfees := hnet.fees
  rw [htotal] at hfees
  have hless : op.swapFee.val ≤ sell.val - net := fee_le hval hfees
  have hquote := hnet.traded.le_quote heffect.sells.2 (n := op.tokensToSwap.val) (by omega)
  have hprice := heffect.price
  have hleft := hnet.traded.left
  omega


end Parts

/-- Two trades of 2000 tokens leave two tokens more than one of 4000. -/
theorem trade_in_parts_halves :
    let t := run (step sampleEnv) backedState pricedPool
    ∃ whole inParts, (exec (step sampleEnv) t (tradeFirst 4000)).pools.lookup 20 = some whole
      ∧ (run (step sampleEnv) t [tradeFirst 2000, tradeFirst 2000]).pools.lookup 20 = some inParts
      ∧ whole.balance 2 ≤ inParts.balance 2
      ∧ whole.balance 2 = 2791 ∧ inParts.balance 2 = 2793 := by
  intro t
  obtain ⟨pool, hpool, hprod⟩ := pricedPool_pool
  have hok : (step sampleEnv t (tradeFirst 4000)).isOk = true := by decide +kernel
  have hmints : ∀ pool ∈ t.pools.lookup 20, ∀ op ∈ swapOp t traderAccounts pool 4000,
      op.sellMint = 1 ∧ op.buyMint = 2 := by decide +kernel
  have hparts : Guarded (step sampleEnv) (PartOf 51 20 1 2) t
      [tradeFirst 2000, tradeFirst 2000] := by
    decide +kernel
  obtain ⟨whole, inParts, hwhole, hinParts, hle⟩ := trade_in_parts Reference.lawful (fun _ => rfl)
    rfl rfl pricedPool_guarded hpool hprod (hmints pool hpool) (step_of_isOk hok) hparts
  have hfacts : ∀ whole ∈ (exec (step sampleEnv) t (tradeFirst 4000)).pools.lookup 20,
      whole.balance 1 = 9000 ∧ whole.balance 2 = 2791 := by decide +kernel
  have hfacts' : ∀ inParts ∈
      (run (step sampleEnv) t [tradeFirst 2000, tradeFirst 2000]).pools.lookup 20,
      inParts.balance 1 = 9000 ∧ inParts.balance 2 = 2793 := by decide +kernel
  obtain ⟨hsold, hleft⟩ := hfacts whole hwhole
  obtain ⟨hsold', hleft'⟩ := hfacts' inParts hinParts
  exact ⟨whole, inParts, hwhole, hinParts, hle (hsold'.trans hsold.symm), hleft, hleft'⟩

end SolanaAmm.Amm
