import SolanaAmm.Amm.Governance

/-!
# Amm — Outflows

How tokens leave a pool's vaults, and how LP tokens come and go. A vault
pays for LP tokens that are burned, or for a swap at the curve's price, and
never otherwise; LP tokens are issued for deposits and tolls only, since
the mint answers to an address nobody holds a key for.
-/

namespace SolanaAmm.Amm

open Result Decimal Machine Token Pool

variable {env : Env} {s s' : AmmState} {i : Instr} {key : Pubkey} {pool : Pool}

/-! ## What leaves a vault -/

/-- Why the vault of a reserve held less after a step. -/
inductive PoolPayout (env : Env) (e : Event AmmState Instr) (key : Pubkey) (pool : Pool)
    (r : Reserve) : Prop
  /-- LP tokens were burned, and the vault paid their share of the reserve. -/
  | redemption {accs : RedeemLiquidity} {burned supply : TokenAmount} {limits : List TokenLimit}
      (hinstr : e.instr = .redeemLiquidity accs burned limits) (hpool : accs.pool = key)
      (hsupply : e.before.ledger.supply pool.mint = supply.val)
      (hburned : e.after.ledger.supply pool.mint + burned.val = supply.val)
      (hpaid : e.after.ledger.balance r.vault
          + r.tokens.val * (burned.val * wad / supply.val) / wad
        = e.before.ledger.balance r.vault)
  /-- Another vault received what was sold, fee included, and this one paid
  what the curve gives for the rest. -/
  | swap {accs : Swap} {sell minBuy fee toSwap bought : TokenAmount} {sold : Reserve} {p : Pool}
      (hinstr : e.instr = .swap accs sell minBuy) (hpool : accs.pool = key)
      (hsold : sold ∈ pool.activeReserves) (hother : sold.mint ≠ r.mint)
      (hfee : calculateSwapFee e.before.slot sell pool.swapFee
        (e.before.discounts.lookup accs.user) = .ok fee)
      (hsell : toSwap.val + fee.val = sell.val)
      (hcurve : pool.swap env.powSqrt sold.mint toSwap r.mint = .ok (p, bought))
      (hreceived : e.before.ledger.balance sold.vault + sell.val
        ≤ e.after.ledger.balance sold.vault)
      (hpaid : e.before.ledger.balance r.vault ≤ e.after.ledger.balance r.vault + bought.val)

/-- A vault that a step spares held no less. -/
theorem Custody.not_lost (hs : Custody env s) (hpool : s.pools.lookup key = some pool) {r : Reserve}
    (hr : r ∈ pool.activeReserves) (h : Spares s.ledger s'.ledger (env.signerPda key))
    (hlt : s'.ledger.balance r.vault < s.ledger.balance r.vault) : False := by
  have hle := (h r.vault r.mint ((hs.vaulted key pool hpool).held r hr)).2
  omega

theorem Custody.of_empty (hstart : s.pools = ∅) : Custody env s where
  vaulted := by
    intro key pool hpool
    rw [hstart] at hpool
    cases hpool
  signers := by
    intro key _ pool _ hpool
    rw [hstart] at hpool
    cases hpool

section Payouts

variable (hp : env.tokenProgram.Lawful)
  (hcurve : ∀ key, env.isOnCurve (env.signerPda key) = false)

include hp hcurve

/-- A redemption pays its share of each reserve. -/
theorem RedemptionMoved.payout (hs : Custody env s) {accs : RedeemLiquidity}
    {burned : TokenAmount} {limits : List TokenLimit} {p p' : Pool} {supply : TokenAmount}
    {tokens : BTreeMap TokenAmount} {orders : List (TransferOrder Pubkey)}
    {ledger : Ledger Pubkey Pubkey} (huser : env.isOnCurve accs.user = true)
    (h : RedemptionMoved env s accs burned limits s' p p' supply tokens orders ledger)
    (hpool : s.pools.lookup key = some pool) {r : Reserve} (hr : r ∈ pool.activeReserves)
    (hlt : s'.ledger.balance r.vault < s.ledger.balance r.vault) :
    PoolPayout env ⟨s, .redeemLiquidity accs burned limits, s'⟩ key pool r := by
  have hburned := hp.burn_ok h.burns
  have hburn : ∀ k, Spares ledger s'.ledger (env.signerPda k) := fun k =>
    .of_op (o := .burn accs.lpMint accs.lpTokenWallet accs.user burned) hp h.burns
      (fun he => ne_signerPda hcurve huser k (Option.some.inj he))
  by_cases hkey : accs.pool = key
  · subst hkey
    have hsame := h.before
    rw [hpool, Option.some.injEq] at hsame
    subst hsame
    have hv := hs.vaulted _ _ hpool
    obtain ⟨lpMint, hlpMint, rfl⟩ := h.lpSupply
    obtain ⟨q, hq, -⟩ := h.plan
    -- the vault pays, and nothing comes back
    have hsent : sent orders r.vault = mapAmounts tokens r.mint := h.once.amounts hv hr
    have hreceived : received orders r.vault = 0 :=
      received_eq_zero (fun o ho => h.outside o ho r hr)
    have hbalances := transferAll_balances (k := r.vault) hp h.transfers
    have hkept := hburned.balances r.vault
    rw [if_neg (by
      rintro he
      obtain ⟨a, ha, hmove, -⟩ := hburned.source
      exact ne_signerPda hcurve huser accs.pool
        ((transferAll_held hp h.transfers (hv.held r hr)).owner_eq (he ▸ ha) hmove))] at hkept
    rw [hsent, hreceived, (redeemed hv.wellFormed hq).amount r hr] at hbalances
    obtain ⟨a, a', ha, ha', hle, hsupply, -⟩ := hburned.mint
    rw [h.mint] at ha ha'
    rw [transferAll_mints hp h.transfers, hlpMint, Option.some.injEq] at ha
    subst ha
    refine .redemption rfl rfl (Ledger.supply_of_lookup hlpMint) ?_ ?_
    · rw [Ledger.supply_of_lookup ha', hsupply]
      omega
    · show s'.ledger.balance r.vault + _ = s.ledger.balance r.vault
      omega
  · refine (hs.not_lost hpool hr ((transferAll_spares hp h.transfers (fun o ho => ?_)).trans
      (hburn key)) hlt).elim
    rw [h.authority o ho]
    exact fun he => hkey (hs.signers _ _ _ _ h.before hpool he)

omit hcurve in
/-- What paying the toll did: nothing, or an issue of new LP tokens. -/
theorem payToll_ok {l l' : Ledger Pubkey Pubkey} {accs : Swap} {toll : Option TokenAmount}
    (h : payToll env l accs toll = .ok l') :
    toll = none ∧ l' = l ∨ ∃ n, toll = some n
      ∧ Minted l l' accs.lpMint accs.programTollWallet (env.signerPda accs.pool) n := by
  cases toll with
  | none => exact .inl ⟨rfl, (pure_eq_ok.mp h).symm⟩
  | some n => exact .inr ⟨n, rfl, hp.mintTo_ok (okOr_eq_ok.mp h)⟩

/-- A swap pays for what it receives. -/
theorem SwapMoved.payout (hs : Custody env s) {accs : Swap} {sell minBuy : TokenAmount}
    {p p' : Pool} {sold boughtOf : Reserve} {fee bought : TokenAmount} {toll : Option TokenAmount}
    {paid received : Ledger Pubkey Pubkey} (huser : env.isOnCurve accs.user = true)
    (h : SwapMoved env s accs sell s' p p' sold boughtOf fee bought toll paid received)
    (hpool : s.pools.lookup key = some pool) {r : Reserve} (hr : r ∈ pool.activeReserves)
    (hlt : s'.ledger.balance r.vault < s.ledger.balance r.vault) :
    PoolPayout env ⟨s, .swap accs sell minBuy, s'⟩ key pool r := by
  have hpaid := hp.transfer_ok h.pays
  have hreceived := hp.transfer_ok h.receives
  have htolled := payToll_ok hp h.tolls
  have htoll : ∀ k, received.balance k ≤ s'.ledger.balance k := by
    intro k
    rcases htolled with ⟨-, hsame⟩ | ⟨n, -, hminted⟩
    · rw [hsame]
    · have hb := hminted.balances k
      omega
  by_cases hkey : accs.pool = key
  · subst hkey
    have hsame := h.before
    rw [hpool, Option.some.injEq] at hsame
    subst hsame
    have hv := hs.vaulted _ _ hpool
    obtain ⟨hsold, hsellVault⟩ := h.sells
    obtain ⟨hbought, hbuyVault, hmints⟩ := h.buys
    obtain ⟨toSwap, q, hsum, hswap⟩ := h.swap
    have hvaults : accs.buyVault ≠ accs.sellVault := by
      rw [← hsellVault, ← hbuyVault]
      exact fun he => hmints ((hv.mint_iff_vault hbought hsold).mpr he)
    have hb₁ := hpaid.balances r.vault
    have hb₂ := hreceived.balances r.vault
    have hb₃ := htoll r.vault
    rw [if_neg (Ne.symm (h.outside r hr))] at hb₁
    by_cases hr' : r.vault = accs.buyVault
    · obtain rfl : r = boughtOf := List.inj_on_of_nodup_map hv.wellFormed.mints_nodup hr hbought
        ((hv.mint_iff_vault hr hbought).mpr (hr'.trans hbuyVault.symm))
      have hs₁ := hpaid.balances sold.vault
      have hs₂ := hreceived.balances sold.vault
      have hs₃ := htoll sold.vault
      rw [if_neg (Ne.symm (h.outside sold hsold)), if_pos hsellVault] at hs₁
      rw [if_neg (by rw [hsellVault]; exact Ne.symm hvaults)] at hs₂
      rw [if_pos hr'] at hb₂
      refine .swap rfl rfl hsold (Ne.symm hmints) h.fees hsum hswap ?_ ?_
      · show s.ledger.balance sold.vault + sell.val ≤ s'.ledger.balance sold.vault
        omega
      · show s.ledger.balance r.vault ≤ s'.ledger.balance r.vault + bought.val
        omega
    · rw [if_neg hr'] at hb₂
      omega
  · have hpays : Spares s.ledger paid (env.signerPda key) :=
      .of_op (o := .transfer accs.sellWallet accs.sellVault accs.user sell) hp h.pays
        (fun he => ne_signerPda hcurve huser key (Option.some.inj he))
    have hreceives : Spares paid received (env.signerPda key) :=
      .of_op (o := .transfer accs.buyVault accs.buyWallet (env.signerPda accs.pool) bought) hp
        h.receives (fun he => hkey (hs.signers _ _ _ _ h.before hpool (Option.some.inj he)))
    have htolls : Spares received s'.ledger (env.signerPda key) := by
      rcases htolled with ⟨-, hsame⟩ | ⟨n, -, hminted⟩
      · rw [hsame]
        exact .refl _ _
      · exact .of_minted hminted
    exact (hs.not_lost hpool hr ((hpays.trans hreceives).trans htolls) hlt).elim

/-- **One step**: whatever leaves a vault is a payout of its pool. -/
theorem step_payout (hs : Custody env s) (h : step env s i = .ok s')
    (hpool : s.pools.lookup key = some pool) {r : Reserve} (hr : r ∈ pool.activeReserves)
    (hlt : s'.ledger.balance r.vault < s.ledger.balance r.vault) :
    PoolPayout env ⟨s, i, s'⟩ key pool r := by
  have hspared : Spares s.ledger s'.ledger (env.signerPda key) →
      PoolPayout env ⟨s, i, s'⟩ key pool r := fun h => (hs.not_lost hpool hr h hlt).elim
  obtain ⟨hsigner, he⟩ := step_ok h
  cases he with
  | settings hpools hledger => exact hspared (hledger ▸ .refl _ _)
  | createPool h =>
      obtain ⟨_, _, -, -, -, -, -, -, rfl⟩ := createPool_ok h
      exact hspared (.refl _ _)
  | setPoolSwapFee hp _ => exact hspared (.refl _ _)
  | depositLiquidity h =>
      obtain ⟨_, _, _, _, _, _, _, hmoved⟩ :=
        depositLiquidity_moved hs (ne_signerPda hcurve (hsigner _ rfl) _) h
      refine hspared ((transferAll_spares hp hmoved.transfers (fun o ho => ?_)).trans
        (.of_minted (hp.mintTo_ok hmoved.mints)))
      rw [hmoved.authority o ho]
      exact ne_signerPda hcurve (hsigner _ rfl) _
  | redeemLiquidity h =>
      obtain ⟨_, _, _, _, _, _, hmoved⟩ :=
        redeemLiquidity_moved hs (ne_signerPda hcurve (hsigner _ rfl) _) h
      exact hmoved.payout hp hcurve hs (hsigner _ rfl) hpool hr hlt
  | swap h =>
      obtain ⟨_, _, _, _, _, _, _, _, _, hmoved, -⟩ :=
        swap_moved hp hs (ne_signerPda hcurve (hsigner _ rfl) _) h
      exact hmoved.payout hp hcurve hs (hsigner _ rfl) hpool hr hlt
  | token hop hl =>
      refine hspared ?_
      rcases Instr.tokenOp_signer hop with hsame | ⟨k, account, rfl⟩
      · exact .of_op hp hl (fun hk => ne_signerPda hcurve (hsigner _ (hsame ▸ hk)) _ rfl)
      · exact .of_openAccount hl

/-- **Payouts.** In every run from a state without pools, by any callers in
any order, a vault of a pool holds less after a step only if the step
burned LP tokens of that pool and the vault paid their share of its
reserve, or was a swap on that pool, another vault of which received all
that was sold. -/
theorem pool_payouts (hstart : s.pools = ∅) {is : List Instr}
    (his : Guarded (step env) (DistinctSigners env) s is) :
    ∀ e ∈ (run (traced (step env)) (s, []) is).2, ∀ key pool,
      e.before.pools.lookup key = some pool → ∀ r ∈ pool.activeReserves,
      e.after.ledger.balance r.vault < e.before.ledger.balance r.vault →
      PoolPayout env e key pool r :=
  history_guarded (I := Custody env) (fun _ _ _ hI hG h => ⟨step_custody hp hcurve hI hG h,
    fun _ _ hpool _ hr hlt => step_payout hp hcurve hI h hpool hr hlt⟩) (.of_empty hstart) his

end Payouts

/-- A pool is created and funded, and the user 50 sells 500 tokens to it. -/
def fundedAndSold : List Instr :=
  [createStable, depositThousand, sellFirst 500]

theorem fundedAndSold_guarded :
    Guarded (step swapEnv) (DistinctSigners swapEnv) (listedState 0 0) fundedAndSold := by
  refine ⟨?_, trivial, trivial, trivial⟩
  intro e he
  cases he

theorem pool_payouts_sold :
    ∃ e ∈ (run (traced (step swapEnv)) (listedState 0 0, []) fundedAndSold).2,
      ∃ pool, e.before.pools.lookup 20 = some pool ∧ ∃ r ∈ pool.activeReserves, r.vault = 12
        ∧ e.after.ledger.balance 12 + 485 = e.before.ledger.balance 12
        ∧ PoolPayout swapEnv e 20 pool r := by
  have hany : (run (traced (step swapEnv)) (listedState 0 0, []) fundedAndSold).2.any (fun e =>
      (e.before.pools.lookup 20).any (fun pool => pool.activeReserves.any (fun r => r.vault = 12))
        && e.after.ledger.balance 12 + 485 = e.before.ledger.balance 12) = true := by
    decide +kernel
  obtain ⟨e, he, h⟩ := List.any_eq_true.mp hany
  obtain ⟨h, hpaid⟩ := Bool.and_eq_true_iff.mp h
  obtain ⟨pool, hpool, h⟩ := (Option.any_eq_true _ _).mp h
  obtain ⟨r, hr, h⟩ := List.any_eq_true.mp h
  have hvault := of_decide_eq_true h
  have hpaid := of_decide_eq_true hpaid
  refine ⟨e, he, pool, hpool, r, hr, hvault, hpaid, ?_⟩
  refine pool_payouts Reference.lawful (fun _ => rfl) rfl fundedAndSold_guarded e he 20 pool hpool
    r hr ?_
  rw [hvault]
  omega

/-! ## How LP tokens come and go -/

/-- The swap that a call of the endpoint makes on its pool. -/
def swapOp (s : AmmState) (accs : Swap) (pool : Pool) (sell : TokenAmount) : Option SwapOp := do
  let sellVault ← s.ledger.accounts.lookup accs.sellVault
  let buyVault ← s.ledger.accounts.lookup accs.buyVault
  let swapFee ← (calculateSwapFee s.slot sell pool.swapFee (s.discounts.lookup accs.user)).toOption
  let tokensToSwap ← sell.checkedSub swapFee
  pure ⟨sellVault.mint, tokensToSwap, swapFee, buyVault.mint⟩

/-- Why there are as many LP tokens of a pool after a step as there are. -/
inductive SupplyChange (env : Env) (e : Event AmmState Instr) (key : Pubkey) (pool : Pool) : Prop
  | kept (h : e.after.ledger.supply pool.mint = e.before.ledger.supply pool.mint)
  /-- A deposit was given what the pool's method planned for it. -/
  | deposit {accs : DepositLiquidity} {limits : List TokenLimit} {supply lp : TokenAmount}
      {result : DepositResult} {p : Pool} (hinstr : e.instr = .depositLiquidity accs limits)
      (hpool : accs.pool = key) (hsupply : e.before.ledger.supply pool.mint = supply.val)
      (hplan : pool.depositTokens (limitsMap limits) supply = .ok (p, result))
      (hlp : result.lpTokensToDistribute = some lp)
      (h : e.after.ledger.supply pool.mint = e.before.ledger.supply pool.mint + lp.val)
  | redemption {accs : RedeemLiquidity} {burned : TokenAmount} {limits : List TokenLimit}
      (hinstr : e.instr = .redeemLiquidity accs burned limits) (hpool : accs.pool = key)
      (h : e.after.ledger.supply pool.mint + burned.val = e.before.ledger.supply pool.mint)
  /-- The toll of a swap, for the fee that stays in the pool. -/
  | toll {accs : Swap} {sell minBuy fee supply toSwap bought n : TokenAmount}
      {sellMint buyMint : Pubkey} {p p' : Pool} (hinstr : e.instr = .swap accs sell minBuy)
      (hpool : accs.pool = key)
      (hfee : calculateSwapFee e.before.slot sell pool.swapFee
        (e.before.discounts.lookup accs.user) = .ok fee)
      (hswap : pool.swap env.powSqrt sellMint toSwap buyMint = .ok (p, bought))
      (hadd : p.updateReserve sellMint .panicked (fun r => r.addTokens fee) = .ok p')
      (hsupply : e.before.ledger.supply pool.mint = supply.val)
      (htoll : calculateTollInLpTokens p' fee sellMint supply = .ok (some n))
      (h : e.after.ledger.supply pool.mint = e.before.ledger.supply pool.mint + n.val)
  /-- Somebody burned tokens of their own. -/
  | burned {source authority : Pubkey} {n : TokenAmount}
      (hinstr : e.instr = .burn pool.mint source authority n)
      (h : e.after.ledger.supply pool.mint + n.val = e.before.ledger.supply pool.mint)

/-- Each pool's LP mint answers to its signer. -/
structure Issuing (env : Env) (s : AmmState) : Prop extends Custody env s where
  issued : ∀ key pool, s.pools.lookup key = some pool →
    Issued s.ledger pool.mint (env.signerPda key)

/-- Two pools have different LP mints. -/
theorem Issuing.mint_ne (hs : Issuing env s) {k : Pubkey} {p : Pool}
    (hpool : s.pools.lookup key = some pool) (hp : s.pools.lookup k = some p) (hne : key ≠ k) :
    pool.mint ≠ p.mint := by
  intro hm
  obtain ⟨a, ha, hauth⟩ := hs.issued k p hp
  rw [← hm] at ha
  exact hne (hs.signers _ _ _ _ hpool hp ((hs.issued key pool hpool).authority_eq ha hauth).symm)

theorem Instr.eq_burn {mint source authority : Pubkey} {n : TokenAmount}
    (h : i.tokenOp = some (.burn mint source authority n)) :
    i = .burn mint source authority n := by
  cases i <;> cases h
  rfl

section Supply

variable (hp : env.tokenProgram.Lawful)
  (hcurve : ∀ key, env.isOnCurve (env.signerPda key) = false)

include hp

/-- What a swap does to its pool, and what it issues for that. -/
theorem swap_made {accs : Swap} {sell minBuy : TokenAmount}
    (h : swap env s accs sell minBuy = .ok s') :
    ∃ pool op p lpMint toll ledger pool',
      s.pools.lookup accs.pool = some pool ∧ accs.lpMint = pool.mint
      ∧ swapOp s accs pool sell = some op ∧ op.sellMint ≠ op.buyMint
      ∧ calculateSwapFee s.slot sell pool.swapFee (s.discounts.lookup accs.user) = .ok op.swapFee
      ∧ swapStep env.powSqrt pool op = .ok p
      ∧ s.ledger.mints.lookup pool.mint = some lpMint
      ∧ calculateTollInLpTokens p op.swapFee op.sellMint lpMint.supply = .ok toll
      ∧ (∀ m, ledger.mints.lookup m = s.ledger.mints.lookup m)
      ∧ payToll env ledger accs toll = .ok s'.ledger
      ∧ p.updateCurveInvariant env.powSqrt = .ok pool'
      ∧ s' = (s.setLedger s'.ledger).setPool accs.pool pool' := by
  simp only [swap, checkSwapAccounts, AmmState.pool, AmmState.mint, AmmState.tokenAccount,
    bind_eq_ok, okOr_eq_ok, ensure_eq_ok, pure_eq_ok, Prod.exists] at h
  obtain ⟨pool, hpool, _, ⟨_, -, rfl⟩, _, ⟨_, -, rfl⟩, _, ⟨sellVault, hsellVault, rfl⟩, _,
    ⟨buyVault, hbuyVault, rfl⟩, lpMint, hlpMint, _, -, _, ⟨-, hne, -, hsold, -, hbuys, -, -, -, -,
    -, hmint, -⟩, -, -, fee, hfee, toSwap, htoSwap, p, bought, hswap, p', hadd, -, -, paid, hpaid,
    received, hreceived, toll, htoll, ledger, htolled, pool', hupdate, rfl⟩ := h
  refine ⟨pool, ⟨sellVault.mint, toSwap, fee, buyVault.mint⟩, p', lpMint, toll, received, pool',
    hpool, hmint.symm, ?_, fun he => hne (hsold.trans (he.trans hbuys.symm)), hfee, ?_,
    hmint ▸ hlpMint, htoll, fun m => ?_, htolled, hupdate, rfl⟩
  · simp only [swapOp, hsellVault, hbuyVault, hfee, Except.toOption, Option.bind_eq_bind,
      Option.bind_some, htoSwap]
    rfl
  · rw [swapStep, hswap]
    exact hadd
  · rw [(hp.transfer_ok hreceived).supplies m List.not_mem_nil,
      (hp.transfer_ok hpaid).supplies m List.not_mem_nil]

include hcurve

/-- **One step**: the LP mint stays the signer's, and its supply changes for
one of the reasons. -/
theorem step_supply (hs : Issuing env s) (h : step env s i = .ok s')
    (hpool : s.pools.lookup key = some pool) :
    Issued s'.ledger pool.mint (env.signerPda key) ∧ SupplyChange env ⟨s, i, s'⟩ key pool := by
  have hissued := hs.issued key pool hpool
  have hkept : s'.ledger.mints.lookup pool.mint = s.ledger.mints.lookup pool.mint →
      Issued s'.ledger pool.mint (env.signerPda key) ∧ SupplyChange env ⟨s, i, s'⟩ key pool :=
    fun hl => ⟨hissued.congr hl, .kept (Ledger.supply_congr hl)⟩
  obtain ⟨hsigner, he⟩ := step_ok h
  cases he with
  | settings hpools hledger => exact hkept (by rw [hledger])
  | createPool h =>
      obtain ⟨_, _, -, -, -, -, -, -, rfl⟩ := createPool_ok h
      exact hkept rfl
  | setPoolSwapFee hp _ => exact hkept rfl
  | @depositLiquidity accs limits _ h =>
      obtain ⟨p, _, supply, lp, result, _, ledger, hmoved⟩ :=
        depositLiquidity_moved hs.toCustody (ne_signerPda hcurve (hsigner _ rfl) _) h
      have hminted := hp.mintTo_ok hmoved.mints
      rw [hmoved.mint] at hminted
      have hledger := transferAll_mints hp hmoved.transfers
      by_cases hkey : accs.pool = key
      · subst hkey
        have hsame := hmoved.before
        rw [hpool, Option.some.injEq] at hsame
        subst hsame
        obtain ⟨lpMint, hlpMint, rfl⟩ := hmoved.lpSupply
        obtain ⟨q, hd, -⟩ := hmoved.plan
        obtain ⟨hissued', hsupply⟩ := (hissued.congr (hledger _)).minted hminted
        refine ⟨hissued', .deposit rfl rfl (Ledger.supply_of_lookup hlpMint) hd hmoved.given ?_⟩
        rw [← Ledger.supply_congr (hledger pool.mint)]
        exact hsupply
      · refine hkept ((hminted.supplies _ ?_).trans (hledger _))
        rw [List.mem_singleton]
        exact hs.mint_ne hpool hmoved.before (Ne.symm hkey)
  | @redeemLiquidity accs burned limits _ h =>
      obtain ⟨p, _, supply, tokens, _, ledger, hmoved⟩ :=
        redeemLiquidity_moved hs.toCustody (ne_signerPda hcurve (hsigner _ rfl) _) h
      have hburned := hp.burn_ok hmoved.burns
      rw [hmoved.mint] at hburned
      have hledger := transferAll_mints hp hmoved.transfers
      by_cases hkey : accs.pool = key
      · subst hkey
        have hsame := hmoved.before
        rw [hpool, Option.some.injEq] at hsame
        subst hsame
        obtain ⟨hissued', hsupply⟩ := (hissued.congr (hledger _)).burned hburned
        refine ⟨hissued', .redemption rfl rfl ?_⟩
        rw [← Ledger.supply_congr (hledger pool.mint)]
        exact hsupply
      · refine hkept ((hburned.supplies _ ?_).trans (hledger _))
        rw [List.mem_singleton]
        exact hs.mint_ne hpool hmoved.before (Ne.symm hkey)
  | @swap accs sell minBuy _ h =>
      obtain ⟨p, op, q', lpMint, toll, ledger, _, hbefore, hmint, -, -, hfee, hstep, hlpMint, htoll,
        hledger, htolled, -, -⟩ := swap_made hp h
      simp only [swapStep, bind_eq_ok, Prod.exists] at hstep
      obtain ⟨q, bought, hswap, hadd⟩ := hstep
      rcases payToll_ok hp htolled with ⟨-, hsame⟩ | ⟨n, rfl, hminted⟩
      · exact hkept (by rw [hsame, hledger])
      · rw [hmint] at hminted
        by_cases hkey : accs.pool = key
        · subst hkey
          rw [hpool, Option.some.injEq] at hbefore
          subst hbefore
          obtain ⟨hissued', hsupply⟩ := (hissued.congr (hledger _)).minted hminted
          refine ⟨hissued', .toll rfl rfl hfee hswap hadd (Ledger.supply_of_lookup hlpMint)
            htoll ?_⟩
          rw [← Ledger.supply_congr (hledger pool.mint)]
          exact hsupply
        · refine hkept ((hminted.supplies _ ?_).trans (hledger _))
          rw [List.mem_singleton]
          exact hs.mint_ne hpool hbefore (Ne.symm hkey)
  | @token _ op l hop hl =>
      have hsign : op.signer ≠ some (env.signerPda key)
          ∨ ∃ k account, op = .openAccount k account := by
        rcases Instr.tokenOp_signer hop with hsame | hopen
        · exact .inl (fun hk => ne_signerPda hcurve (hsigner _ (hsame ▸ hk)) _ rfl)
        · exact .inr hopen
      rcases hsign with hsign | ⟨k, account, rfl⟩
      · obtain ⟨hissued', hsame | ⟨source, authority, n, rfl, hsupply⟩⟩ :=
          TokenOp.apply_issued hp hl hissued hsign
        · exact ⟨hissued', .kept hsame⟩
        · exact ⟨hissued', .burned (Instr.eq_burn hop) hsupply⟩
      · simp only [TokenOp.apply, Option.bind_eq_bind, Option.bind_eq_some_iff] at hl
        obtain ⟨-, -, hl⟩ := hl
        cases hl
        exact hkept rfl

theorem step_issuing (hs : Issuing env s) (hi : DistinctSigners env s i)
    (h : step env s i = .ok s') : Issuing env s' where
  toCustody := step_custody hp hcurve hs.toCustody hi h
  issued := by
    intro key pool' hpool'
    cases hpool : s.pools.lookup key with
    | none =>
        obtain ⟨accs, amplifier, reserves, rfl, rfl, hcreate, rfl⟩ := step_newPool h hpool hpool'
        obtain ⟨lpMint, _, -, hmint, hauthority, -, -, -, rfl⟩ := createPool_ok hcreate
        exact ⟨lpMint, hmint, hauthority⟩
    | some pool =>
        obtain ⟨p, hp', hsame, -⟩ := step_pool h hpool
        rw [hpool', Option.some.injEq] at hp'
        subst hp'
        rw [hsame.mint]
        exact (step_supply hp hcurve hs h hpool).1

/-- **LP supply.** In every run from a state without pools, by any callers
in any order, the LP mint of every pool answers to the pool's signer alone,
and its supply changes only by a deposit into that pool, a redemption from
it, the toll of a swap on it, or by holders who burn their own tokens. -/
theorem lp_supply_accounted (hstart : s.pools = ∅) {is : List Instr}
    (his : Guarded (step env) (DistinctSigners env) s is) :
    ∀ e ∈ (run (traced (step env)) (s, []) is).2, ∀ key pool,
      e.before.pools.lookup key = some pool →
      Issued e.after.ledger pool.mint (env.signerPda key) ∧ SupplyChange env e key pool := by
  refine history_guarded (I := Issuing env) (fun _ _ _ hI hG h => ⟨step_issuing hp hcurve hI hG h,
    fun _ _ hpool => step_supply hp hcurve hI h hpool⟩) ⟨.of_empty hstart, ?_⟩ his
  intro key pool hpool
  rw [hstart] at hpool
  cases hpool

end Supply

theorem lp_supply_accounted_deposit :
    ∃ e ∈ (run (traced (step swapEnv)) (listedState 0 0, []) fundedAndSold).2,
      ∃ pool, e.before.pools.lookup 20 = some pool
        ∧ e.before.ledger.supply pool.mint = 0 ∧ e.after.ledger.supply pool.mint = 1000
        ∧ SupplyChange swapEnv e 20 pool := by
  have hany : (run (traced (step swapEnv)) (listedState 0 0, []) fundedAndSold).2.any (fun e =>
      (e.before.pools.lookup 20).any (fun pool => e.before.ledger.supply pool.mint = 0
        && e.after.ledger.supply pool.mint = 1000)) = true := by
    decide +kernel
  obtain ⟨e, he, h⟩ := List.any_eq_true.mp hany
  obtain ⟨pool, hpool, h⟩ := (Option.any_eq_true _ _).mp h
  obtain ⟨hbefore, hafter⟩ := Bool.and_eq_true_iff.mp h
  obtain ⟨-, hchange⟩ := lp_supply_accounted Reference.lawful (fun _ => rfl) rfl
    fundedAndSold_guarded e he 20 pool hpool
  exact ⟨e, he, pool, hpool, of_decide_eq_true hbefore, of_decide_eq_true hafter, hchange⟩

end SolanaAmm.Amm
