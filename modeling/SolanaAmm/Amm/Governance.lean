import SolanaAmm.Amm.Outstanding

/-!
# Amm — Governance

What the program's users cannot change. A pool keeps its admin, its signer,
its mints and vaults, its curve and its toll wallet for as long as the
program runs; its fee follows its admin, and discounts follow the authority
of the discount settings. Nothing here depends on the token program.
-/

namespace SolanaAmm.Amm

open Result Decimal Machine Pool

variable {env : Env} {s s' : AmmState} {i : Instr} {key user : Pubkey}

/-! ## Who may change what -/

/-- The pool whose fee an instruction sets, and the admin who signs for it. -/
def Instr.setsFee : Instr → Option (Pubkey × Pubkey)
  | .setPoolSwapFee admin poolKey _ => some (poolKey, admin)
  | _ => none

/-- The user whom an instruction gives a discount, and the authority who
signs for it. -/
def Instr.putsDiscount : Instr → Option (Pubkey × Pubkey)
  | .putDiscount authority _ user _ _ => some (user, authority)
  | _ => none

/-- The curve but for the invariant it caches: the amplifier of a stable one. -/
def Curve.amplifier? : Curve → Option U64
  | .constProd => none
  | .stable amplifier _ => some amplifier

/-! ## One pool -/

namespace Pool

/-- The same pool but for its fee, its tokens and the cached invariant. -/
structure Same (pool pool' : Pool) : Prop where
  admin : pool'.admin = pool.admin
  signer : pool'.signer = pool.signer
  mint : pool'.mint = pool.mint
  programTollWallet : pool'.programTollWallet = pool.programTollWallet
  dimension : pool'.dimension = pool.dimension
  reserves : pool'.activeReserves.map (fun r => (r.mint, r.vault))
    = pool.activeReserves.map (fun r => (r.mint, r.vault))
  amplifier : pool'.curve.amplifier? = pool.curve.amplifier?

/-- Its tokens and the cached invariant may have changed. -/
structure Rebalanced (pool pool' : Pool) : Prop extends Same pool pool' where
  swapFee : pool'.swapFee = pool.swapFee

variable {pool pool' pool'' : Pool}

theorem Same.refl (pool : Pool) : Same pool pool :=
  ⟨rfl, rfl, rfl, rfl, rfl, rfl, rfl⟩

theorem Same.trans (h : Same pool pool') (h' : Same pool' pool'') : Same pool pool'' where
  admin := h'.admin.trans h.admin
  signer := h'.signer.trans h.signer
  mint := h'.mint.trans h.mint
  programTollWallet := h'.programTollWallet.trans h.programTollWallet
  dimension := h'.dimension.trans h.dimension
  reserves := h'.reserves.trans h.reserves
  amplifier := h'.amplifier.trans h.amplifier

namespace Rebalanced

theorem refl (pool : Pool) : Rebalanced pool pool :=
  ⟨.refl pool, rfl⟩

theorem trans (h : Rebalanced pool pool') (h' : Rebalanced pool' pool'') :
    Rebalanced pool pool'' :=
  ⟨h.toSame.trans h'.toSame, h'.swapFee.trans h.swapFee⟩

/-- A write through `reserve_mut`. -/
theorem updateReserve {mint : Pubkey} {e : AmmError} {f : Reserve → Except AmmError Reserve}
    (hf : ∀ r r', f r = .ok r' → r'.mint = r.mint ∧ r'.vault = r.vault)
    (h : pool.updateReserve mint e f = .ok pool') : Rebalanced pool pool' := by
  simp only [Pool.updateReserve, bind_eq_ok, pure_eq_ok] at h
  obtain ⟨rs, hrs, rfl⟩ := h
  have hactive := withActive_activeReserves (Lists.updateFirst_length hrs)
  obtain ⟨l₁, r, l₂, r', hl, -, -, hfr, rfl⟩ := Lists.updateFirst_eq_ok.mp hrs
  obtain ⟨hmint, hvault⟩ := hf r r' hfr
  refine ⟨⟨rfl, rfl, rfl, rfl, rfl, ?_, rfl⟩, rfl⟩
  show (pool.withActive (l₁ ++ r' :: l₂)).activeReserves.map _ = _
  rw [hactive, hl, List.map_append, List.map_append, List.map_cons, List.map_cons, hmint, hvault]

/-- Reserve after reserve. -/
theorem updateAll {e : AmmError} {f : TokenAmount → Reserve → Except AmmError Reserve}
    (hf : ∀ t r r', f t r = .ok r' → r'.mint = r.mint ∧ r'.vault = r.vault)
    {l : List (Pubkey × TokenAmount)}
    (h : l.foldlM (fun p mt => p.updateReserve mt.1 e (f mt.2)) pool = .ok pool') :
    Rebalanced pool pool' := by
  induction l generalizing pool with
  | nil =>
      simp only [List.foldlM_nil, pure_eq_ok] at h
      subst h
      exact .refl pool
  | cons mt l ih =>
      simp only [List.foldlM_cons, bind_eq_ok] at h
      obtain ⟨p, hmt, hl⟩ := h
      exact (updateReserve (hf mt.2) hmt).trans (ih hl)

theorem addTokens (t : TokenAmount) (r r' : Reserve) (h : r.addTokens t = .ok r') :
    r'.mint = r.mint ∧ r'.vault = r.vault :=
  (Reserve.addTokens_eq_ok.mp h).2

theorem removeTokens (t : TokenAmount) (r r' : Reserve) (h : r.removeTokens t = .ok r') :
    r'.mint = r.mint ∧ r'.vault = r.vault :=
  (Reserve.removeTokens_eq_ok.mp h).2.2

theorem updateCurveInvariant {m : PowSqrt} (h : pool.updateCurveInvariant m = .ok pool') :
    Rebalanced pool pool' := by
  unfold Pool.updateCurveInvariant at h
  split at h
  · rw [pure_eq_ok] at h
    subst h
    exact .refl pool
  · rename_i hcurve
    simp only [bind_eq_ok, pure_eq_ok] at h
    obtain ⟨invariant, -, rfl⟩ := h
    refine ⟨⟨rfl, rfl, rfl, rfl, rfl, rfl, ?_⟩, rfl⟩
    rw [hcurve]
    rfl

theorem depositTokens {maxTokens : BTreeMap TokenAmount} {supply : TokenAmount}
    {result : DepositResult} (h : pool.depositTokens maxTokens supply = .ok (pool', result)) :
    Rebalanced pool pool' := by
  simp only [Pool.depositTokens, bind_eq_ok, pure_eq_ok, Prod.exists, Prod.mk.injEq] at h
  obtain ⟨-, -, -, -, -, -, _, _, -, _, hadd, rfl, -⟩ := h
  exact updateAll addTokens hadd

theorem redeemTokens {minTokens tokens : BTreeMap TokenAmount} {burned supply : TokenAmount}
    (h : pool.redeemTokens minTokens burned supply = .ok (pool', tokens)) :
    Rebalanced pool pool' := by
  simp only [Pool.redeemTokens, bind_eq_ok, pure_eq_ok, Prod.mk.injEq] at h
  obtain ⟨-, -, -, -, -, -, -, -, _, -, _, -, _, -, -, -, _, hremove, rfl, -⟩ := h
  exact updateAll removeTokens hremove

theorem swap {m : PowSqrt} {sellMint buyMint : Pubkey} {n received : TokenAmount}
    (h : pool.swap m sellMint n buyMint = .ok (pool', received)) : Rebalanced pool pool' := by
  simp only [Pool.swap, bind_eq_ok, pure_eq_ok, Prod.mk.injEq] at h
  obtain ⟨_, -, _, hsold, _, hbought, rfl, -⟩ := h
  exact (updateReserve (addTokens _) hsold).trans (updateReserve (removeTokens _) hbought)

end Rebalanced

end Pool

/-! ## One step -/

/-- What a step left at the key of a pool: the same pool, with the same fee
unless the pool's admin set it. -/
def PoolKept (i : Instr) (key : Pubkey) (pool : Pool) (s' : AmmState) : Prop :=
  ∃ pool', s'.pools.lookup key = some pool' ∧ Same pool pool'
    ∧ (pool'.swapFee = pool.swapFee
      ∨ i.setsFee = some (key, pool.admin) ∧ pool'.swapFee.permillion ≤ MAX_SWAP_FEE.permillion)

section Step

variable {pool pool' : Pool}

theorem PoolKept.of_eq (h : s'.pools.lookup key = some pool) : PoolKept i key pool s' :=
  ⟨pool, h, .refl pool, .inl rfl⟩

/-- Another pool was written, or this one and it is the same. -/
theorem PoolKept.of_setPool {k : Pubkey} {p p' : Pool} {l : Token.Ledger Pubkey Pubkey}
    (hpool : s.pools.lookup key = some pool) (hp : s.pools.lookup k = some p)
    (h : Rebalanced p p') : PoolKept i key pool ((s.setLedger l).setPool k p') := by
  by_cases hk : key = k
  · subst hk
    rw [hp, Option.some.injEq] at hpool
    subst hpool
    exact ⟨p', AList.lookup_insert _, h.toSame, .inl h.swapFee⟩
  · exact .of_eq ((AList.lookup_insert_ne hk).trans hpool)

theorem depositLiquidity_rebalanced {accs : DepositLiquidity} {limits : List TokenLimit}
    (h : depositLiquidity env s accs limits = .ok s') :
    ∃ p p' l, s.pools.lookup accs.pool = some p ∧ Rebalanced p p'
      ∧ s' = (s.setLedger l).setPool accs.pool p' := by
  simp only [depositLiquidity, AmmState.pool, bind_eq_ok, okOr_eq_ok, pure_eq_ok,
    Prod.exists] at h
  obtain ⟨p, hp, _, -, -, -, _, -, -, -, _, -, -, -, -, -, -, -, _, _, hd, _, -, _, -, l, -, p',
    hu, rfl⟩ := h
  exact ⟨p, p', l, hp, (Rebalanced.depositTokens hd).trans (.updateCurveInvariant hu), rfl⟩

theorem redeemLiquidity_rebalanced {accs : RedeemLiquidity} {burned : TokenAmount}
    {limits : List TokenLimit} (h : redeemLiquidity env s accs burned limits = .ok s') :
    ∃ p p' l, s.pools.lookup accs.pool = some p ∧ Rebalanced p p'
      ∧ s' = (s.setLedger l).setPool accs.pool p' := by
  simp only [redeemLiquidity, AmmState.pool, bind_eq_ok, okOr_eq_ok, pure_eq_ok,
    Prod.exists] at h
  obtain ⟨p, hp, _, -, -, -, _, -, -, -, _, -, -, -, -, -, -, -, -, -, -, -, _, _, hr, _, -, l, -,
    p', hu, rfl⟩ := h
  exact ⟨p, p', l, hp, (Rebalanced.redeemTokens hr).trans (.updateCurveInvariant hu), rfl⟩

theorem swap_rebalanced {accs : Swap} {sell minBuy : TokenAmount}
    (h : swap env s accs sell minBuy = .ok s') :
    ∃ p p' l, s.pools.lookup accs.pool = some p ∧ Rebalanced p p'
      ∧ s' = (s.setLedger l).setPool accs.pool p' := by
  simp only [swap, AmmState.pool, bind_eq_ok, okOr_eq_ok, pure_eq_ok, Prod.exists] at h
  obtain ⟨p, hp, _, -, _, -, _, -, _, -, _, -, _, -, -, -, -, -, _, -, _, -, _, _, hswap, _, hadd,
    -, -, _, -, _, -, _, -, l, -, p', hu, rfl⟩ := h
  exact ⟨p, p', l, hp, ((Rebalanced.swap hswap).trans (.updateReserve
    (Rebalanced.addTokens _) hadd)).trans (.updateCurveInvariant hu), rfl⟩

/-- **One step** keeps every pool there is. -/
theorem step_pool (h : step env s i = .ok s') (hpool : s.pools.lookup key = some pool) :
    PoolKept i key pool s' := by
  obtain ⟨-, he⟩ := step_ok h
  cases he with
  | settings hpools _ => exact .of_eq (by rw [hpools, hpool])
  | @createPool accs amplifier _ h =>
      obtain ⟨_, _, hnew, -, -, -, -, -, rfl⟩ := createPool_ok h
      refine .of_eq ((AList.lookup_insert_ne ?_).trans hpool)
      rintro rfl
      rw [hpool] at hnew
      cases hnew
  | @setPoolSwapFee admin k fee p hp hfee =>
      simp only [step, dispatch, setPoolSwapFee, AmmState.pool, bind_eq_ok, okOr_eq_ok,
        ensure_eq_ok] at h
      obtain ⟨-, -, q, hq, -, hadmin, -⟩ := h
      rw [hp, Option.some.injEq] at hq
      subst hq
      by_cases hk : key = k
      · subst hk
        rw [hp, Option.some.injEq] at hpool
        subst hpool
        refine ⟨_, AList.lookup_insert _, ⟨rfl, rfl, rfl, rfl, rfl, rfl, rfl⟩, .inr ⟨?_, hfee⟩⟩
        rw [hadmin]
        rfl
      · exact .of_eq ((AList.lookup_insert_ne hk).trans hpool)
  | depositLiquidity h =>
      obtain ⟨_, _, _, hp, hsame, rfl⟩ := depositLiquidity_rebalanced h
      exact .of_setPool hpool hp hsame
  | redeemLiquidity h =>
      obtain ⟨_, _, _, hp, hsame, rfl⟩ := redeemLiquidity_rebalanced h
      exact .of_setPool hpool hp hsame
  | swap h =>
      obtain ⟨_, _, _, hp, hsame, rfl⟩ := swap_rebalanced h
      exact .of_setPool hpool hp hsame
  | token _ _ => exact .of_eq hpool

/-- A step that left everything but the pools and the ledger alone. -/
def OnlyPools (s s' : AmmState) : Prop :=
  ∃ l pools, s' = { s with ledger := l, pools }

/-- What a step left of the authorities and the discounts: a singleton is
created once, and a discount is put by the authority of their settings. -/
structure AuthoritiesKept (s : AmmState) (i : Instr) (s' : AmmState) : Prop where
  upgradeAuthority : s'.upgradeAuthority = s.upgradeAuthority
  programToll : s.programToll ≠ none → s'.programToll = s.programToll
  discountSettings : s.discountSettings ≠ none → s'.discountSettings = s.discountSettings
  discount : ∀ user, s'.discounts.lookup user = s.discounts.lookup user
    ∨ (∃ a, s.discountSettings = some a ∧ i.putsDiscount = some (user, a))
      ∧ ∀ d, s'.discounts.lookup user = some d → d.amount.permillion ≤ maxDiscount.permillion

theorem OnlyPools.kept (h : OnlyPools s s') : AuthoritiesKept s i s' := by
  obtain ⟨l, pools, rfl⟩ := h
  exact ⟨rfl, fun _ => rfl, fun _ => rfl, fun _ => .inl rfl⟩

/-- **One step** keeps the authorities, and the discounts they did not put. -/
theorem step_authorities (h : step env s i = .ok s') : AuthoritiesKept s i s' := by
  simp only [step, bind_eq_ok] at h
  obtain ⟨-, -, h⟩ := h
  cases i with
  | createProgramToll programAuthority tollAuthority =>
      simp only [dispatch, createProgramToll, bind_eq_ok, ensure_eq_ok, pure_eq_ok] at h
      obtain ⟨-, -, -, hnone, rfl⟩ := h
      exact ⟨rfl, fun hsome => absurd hnone hsome, fun _ => rfl, fun _ => .inl rfl⟩
  | createDiscountSettings programAuthority settingsAuthority =>
      simp only [dispatch, createDiscountSettings, bind_eq_ok, ensure_eq_ok, pure_eq_ok] at h
      obtain ⟨-, -, -, hnone, rfl⟩ := h
      exact ⟨rfl, fun _ => rfl, fun hsome => absurd hnone hsome, fun _ => .inl rfl⟩
  | putDiscount authority isWritable u amount validUntil =>
      simp only [dispatch, putDiscount, bind_eq_ok, okOr_eq_ok, ensure_eq_ok, pure_eq_ok] at h
      obtain ⟨a, ha, -, rfl, -, -, -, hmax, -, -, rfl⟩ := h
      refine ⟨rfl, fun _ => rfl, fun _ => rfl, fun user => ?_⟩
      by_cases hu : user = u
      · subst hu
        refine .inr ⟨⟨_, ha, rfl⟩, fun d hd => ?_⟩
        have hput := AList.lookup_insert (a := user) (b := (⟨amount, validUntil⟩ : Discount))
          s.discounts
        rw [hput, Option.some.injEq] at hd
        rw [← hd]
        exact hmax
      · exact .inl (AList.lookup_insert_ne hu)
  | createPool accs amplifier =>
      obtain ⟨_, _, -, -, -, -, -, -, rfl⟩ := createPool_ok h
      exact OnlyPools.kept ⟨s.ledger, _, rfl⟩
  | setPoolSwapFee admin poolKey fee =>
      simp only [dispatch, setPoolSwapFee, bind_eq_ok, pure_eq_ok] at h
      obtain ⟨_, -, -, -, -, -, rfl⟩ := h
      exact OnlyPools.kept ⟨s.ledger, _, rfl⟩
  | depositLiquidity accs limits =>
      obtain ⟨_, _, l, -, -, rfl⟩ := depositLiquidity_rebalanced h
      exact OnlyPools.kept ⟨l, _, rfl⟩
  | redeemLiquidity accs burned limits =>
      obtain ⟨_, _, l, -, -, rfl⟩ := redeemLiquidity_rebalanced h
      exact OnlyPools.kept ⟨l, _, rfl⟩
  | swap accs sell minBuy =>
      obtain ⟨_, _, l, -, -, rfl⟩ := swap_rebalanced h
      exact OnlyPools.kept ⟨l, _, rfl⟩
  | tick slot =>
      simp only [dispatch, bind_eq_ok, pure_eq_ok] at h
      obtain ⟨-, -, rfl⟩ := h
      exact ⟨rfl, fun _ => rfl, fun _ => rfl, fun _ => .inl rfl⟩
  | openAccount | openMint | transfer | mintTo | burn | setMintAuthority =>
      simp only [dispatch, bind_eq_ok, pure_eq_ok] at h
      obtain ⟨_, -, rfl⟩ := h
      exact OnlyPools.kept ⟨_, s.pools, rfl⟩

end Step

/-! ## Runs -/

/-- The run rule for what a step keeps of one pool. -/
theorem run_pool {pool : Pool} {is : List Instr} (hpool : s.pools.lookup key = some pool) :
    ∃ pool', (run (step env) s is).pools.lookup key = some pool' ∧ Same pool pool'
      ∧ ((∀ i ∈ is, i.setsFee ≠ some (key, pool.admin)) → pool'.swapFee = pool.swapFee) := by
  induction is generalizing s pool with
  | nil => exact ⟨pool, hpool, .refl pool, fun _ => rfl⟩
  | cons i is ih =>
      rcases exec_cases (step env) s i with hok | hsame
      · obtain ⟨p, hp, hsame, hfee⟩ := step_pool hok hpool
        obtain ⟨pool', hpool', hsame', hfee'⟩ := ih hp
        refine ⟨pool', hpool', hsame.trans hsame', fun his => ?_⟩
        rw [hsame.admin] at hfee'
        rw [hfee' (fun j hj => his j (List.mem_cons_of_mem _ hj))]
        exact hfee.resolve_right (fun h => his i List.mem_cons_self h.1)
      · obtain ⟨pool', hpool', hkept, hfee⟩ := ih hpool
        rw [run_cons, hsame]
        exact ⟨pool', hpool', hkept, fun his =>
          hfee (fun j hj => his j (List.mem_cons_of_mem _ hj))⟩

/-- The run rule for the authorities. -/
theorem run_authorities (is : List Instr) :
    (run (step env) s is).upgradeAuthority = s.upgradeAuthority
    ∧ (s.programToll ≠ none → (run (step env) s is).programToll = s.programToll)
    ∧ (s.discountSettings ≠ none →
      (run (step env) s is).discountSettings = s.discountSettings) := by
  refine run_invariant' (I := fun t : AmmState => t.upgradeAuthority = s.upgradeAuthority
    ∧ (s.programToll ≠ none → t.programToll = s.programToll)
    ∧ (s.discountSettings ≠ none → t.discountSettings = s.discountSettings))
    (fun t i t' hI h => ?_) ⟨rfl, fun _ => rfl, fun _ => rfl⟩ is
  obtain ⟨hupgrade, htoll, hsettings⟩ := hI
  have hkept := step_authorities h
  refine ⟨hkept.upgradeAuthority.trans hupgrade, fun hne => ?_, fun hne => ?_⟩
  · rw [hkept.programToll (by rw [htoll hne]; exact hne), htoll hne]
  · rw [hkept.discountSettings (by rw [hsettings hne]; exact hne), hsettings hne]

/-- The run rule for one discount: only the authority that the settings
have in the end has ever put any. -/
theorem run_discount {is : List Instr} (his : ∀ i ∈ is, ∀ a,
      (run (step env) s is).discountSettings = some a → i.putsDiscount ≠ some (user, a)) :
    (run (step env) s is).discounts.lookup user = s.discounts.lookup user := by
  induction is generalizing s with
  | nil => rfl
  | cons i is ih =>
      rw [run_cons] at his ⊢
      rw [ih (fun j hj => his j (List.mem_cons_of_mem _ hj))]
      rcases exec_cases (step env) s i with hok | hsame
      · have hkept := step_authorities hok
        rcases hkept.discount user with hkeep | ⟨⟨a, ha, hput⟩, -⟩
        · exact hkeep
        · have hstays := hkept.discountSettings (by rw [ha]; exact Option.some_ne_none a)
          have hlast : _ → (run (step env) (exec (step env) s i) is).discountSettings = _ :=
            (run_authorities is).2.2
          refine absurd hput (his i List.mem_cons_self a ?_)
          rw [hlast (by rw [hstays, ha]; exact Option.some_ne_none a), hstays, ha]
      · rw [hsame]

/-- No fee is above 1% and no discount above 100%. -/
structure WithinLimits (s : AmmState) : Prop where
  fee : ∀ key pool, s.pools.lookup key = some pool →
    pool.swapFee.permillion ≤ MAX_SWAP_FEE.permillion
  discount : ∀ user d, s.discounts.lookup user = some d →
    d.amount.permillion ≤ maxDiscount.permillion

/-- A pool that a step left where there was none was created. -/
theorem step_newPool {pool' : Pool} (h : step env s i = .ok s')
    (hnone : s.pools.lookup key = none) (hpool' : s'.pools.lookup key = some pool') :
    ∃ accs amplifier reserves, i = .createPool accs amplifier ∧ accs.pool = key
      ∧ createPool env s accs amplifier = .ok s'
      ∧ pool' = newPool env accs amplifier reserves := by
  have habsurd : ∀ {k p p'} {l : Token.Ledger Pubkey Pubkey}, s.pools.lookup k = some p →
      ((s.setLedger l).setPool k p').pools.lookup key = some pool' → False := by
    intro k p p' l hp hlookup
    rcases Store.lookup_insert_cases hlookup with ⟨rfl, -⟩ | ⟨-, hlookup⟩
    · rw [hp] at hnone
      cases hnone
    · rw [AmmState.setLedger_pools, hnone] at hlookup
      cases hlookup
  obtain ⟨-, he⟩ := step_ok h
  cases he with
  | settings hpools _ =>
      rw [hpools, hnone] at hpool'
      cases hpool'
  | @createPool accs amplifier _ h =>
      obtain ⟨_, reserves, -, -, -, -, -, -, hs'⟩ := createPool_ok h
      rw [hs'] at hpool'
      rcases Store.lookup_insert_cases hpool' with ⟨rfl, rfl⟩ | ⟨-, hlookup⟩
      · exact ⟨accs, amplifier, reserves, rfl, rfl, h, rfl⟩
      · rw [hnone] at hlookup
        cases hlookup
  | setPoolSwapFee hp _ => exact (habsurd (l := s.ledger) hp hpool').elim
  | depositLiquidity h =>
      obtain ⟨_, _, _, hp, -, rfl⟩ := depositLiquidity_rebalanced h
      exact (habsurd hp hpool').elim
  | redeemLiquidity h =>
      obtain ⟨_, _, _, hp, -, rfl⟩ := redeemLiquidity_rebalanced h
      exact (habsurd hp hpool').elim
  | swap h =>
      obtain ⟨_, _, _, hp, -, rfl⟩ := swap_rebalanced h
      exact (habsurd hp hpool').elim
  | token _ _ =>
      rw [AmmState.setLedger_pools, hnone] at hpool'
      cases hpool'

theorem step_withinLimits (hs : WithinLimits s) (h : step env s i = .ok s') :
    WithinLimits s' where
  fee := by
    intro key pool' hpool'
    cases hpool : s.pools.lookup key with
    | none =>
        obtain ⟨_, _, _, -, -, -, rfl⟩ := step_newPool h hpool hpool'
        exact Nat.zero_le _
    | some pool =>
        obtain ⟨p, hp, -, hfee⟩ := step_pool h hpool
        rw [hpool', Option.some.injEq] at hp
        subst hp
        rcases hfee with hsame | ⟨-, hmax⟩
        · rw [hsame]
          exact hs.fee key pool hpool
        · exact hmax
  discount := by
    intro user d hd
    rcases (step_authorities h).discount user with hsame | ⟨-, hmax⟩
    · exact hs.discount user d (hsame ▸ hd)
    · exact hmax d hd

theorem run_withinLimits (hs : WithinLimits s) (is : List Instr) :
    WithinLimits (run (step env) s is) :=
  run_invariant' (fun _ _ _ hI h => step_withinLimits hI h) hs is

theorem WithinLimits.of_empty (hpools : s.pools = ∅) (hdiscounts : s.discounts = ∅) :
    WithinLimits s where
  fee := by
    intro key pool hpool
    rw [hpools] at hpool
    cases hpool
  discount := by
    intro user d hd
    rw [hdiscounts] at hd
    cases hd

/-- **Governance.** Whatever is called, and by whomever: a pool keeps its
admin, signer, LP mint, toll wallet, reserve mints and vaults, and curve;
its fee changes only by its admin's signature, a discount only by that of
the authority of the discount settings, and these authorities not at all;
no fee ever exceeds 1%, and no discount 100%. -/
theorem amm_answers_to_authorities (is : List Instr) :
    let t := run (step env) s is
    (∀ key pool, s.pools.lookup key = some pool →
      ∃ pool', t.pools.lookup key = some pool' ∧ Same pool pool'
        ∧ ((∀ i ∈ is, i.setsFee ≠ some (key, pool.admin)) → pool'.swapFee = pool.swapFee))
    ∧ (t.upgradeAuthority = s.upgradeAuthority
      ∧ (s.programToll ≠ none → t.programToll = s.programToll)
      ∧ (s.discountSettings ≠ none → t.discountSettings = s.discountSettings))
    ∧ (∀ user, (∀ i ∈ is, ∀ a, t.discountSettings = some a → i.putsDiscount ≠ some (user, a)) →
      t.discounts.lookup user = s.discounts.lookup user)
    ∧ (WithinLimits s → WithinLimits t) :=
  ⟨fun _ _ hpool => run_pool hpool, run_authorities is, fun _ his => run_discount his,
    fun hs => run_withinLimits hs is⟩

/-- The user 50 trades with the pool 20, and tries to set its fee. -/
def strangerAtPool : List Instr :=
  [depositThousand, .setPoolSwapFee 50 20 ⟨10000⟩, sellFirst 500]

theorem amm_answers_to_authorities_stranger :
    ∃ pool pool', (run (step swapEnv) (listedState 0 0) [createStable]).pools.lookup 20 = some pool
      ∧ (run (step swapEnv) (run (step swapEnv) (listedState 0 0) [createStable])
        strangerAtPool).pools.lookup 20 = some pool'
      ∧ Same pool pool' ∧ pool'.swapFee = pool.swapFee := by
  obtain ⟨pool, hpool, hadmin⟩ := Option.map_eq_some_iff.mp (show
    ((run (step swapEnv) (listedState 0 0) [createStable]).pools.lookup 20).map (·.admin)
      = some 60 by decide +kernel)
  obtain ⟨pool', hpool', hsame, hfee⟩ : ∃ pool', (run (step swapEnv)
      (run (step swapEnv) (listedState 0 0) [createStable]) strangerAtPool).pools.lookup 20
        = some pool' ∧ Same pool pool' ∧ ((∀ i ∈ strangerAtPool, i.setsFee ≠ some (20, pool.admin))
          → pool'.swapFee = pool.swapFee) :=
    (amm_answers_to_authorities strangerAtPool).1 20 pool hpool
  refine ⟨pool, pool', hpool, hpool', hsame, hfee ?_⟩
  rw [hadmin]
  decide

/-! ## The fee of a swap -/

/-- The millionths that a discount takes off a fee. -/
def discountOff (time : Slot) : Option Discount → ℕ
  | some d => if d.doesApply time then d.amount.permillion.val else 0
  | none => 0

/-- The share of the fee is exact: no digit of it is cut off. -/
theorem discountedFeeShare_exact (time : Slot) {discount : Option Discount} {fee : Permillion}
    (hfee : fee.permillion ≤ MAX_SWAP_FEE.permillion)
    (hmax : ∀ d, discount = some d → d.amount.permillion ≤ maxDiscount.permillion) :
    ∃ share, discountedFeeShare time discount fee.toDecimal = .ok share
      ∧ share.raw = fee.permillion.val * (10 ^ 6 - discountOff time discount) * 10 ^ 6 := by
  have hraw : fee.toDecimal.raw = fee.permillion.val * 10 ^ 12 := rfl
  unfold discountedFeeShare
  cases discount with
  | none => exact ⟨_, rfl, by rw [hraw, discountOff]; omega⟩
  | some d =>
      by_cases happlies : d.doesApply time = true
      · have hdisc : d.amount.permillion.val ≤ 10 ^ 6 := hmax d rfl
        have hdraw : d.amount.toDecimal.raw = d.amount.permillion.val * 10 ^ 12 := rfl
        have hfit : fee.permillion.val * d.amount.permillion.val
            ≤ fee.permillion.val * 10 ^ 6 := Nat.mul_le_mul_left _ hdisc
        have hcut : fee.toDecimal.raw * d.amount.toDecimal.raw / wad
            = fee.permillion.val * d.amount.permillion.val * 10 ^ 6 := by
          rw [hraw, hdraw, show fee.permillion.val * 10 ^ 12 * (d.amount.permillion.val * 10 ^ 12)
            = fee.permillion.val * d.amount.permillion.val * 10 ^ 6 * wad by ring,
            Nat.mul_div_cancel _ wad_pos]
        have hsmall : fee.permillion.val ≤ 10000 := hfee
        obtain ⟨off, hoff⟩ := exists_tryMul (ε := AmmError) (x := fee.toDecimal)
          (y := d.amount.toDecimal) (by rw [hcut]; omega)
        have hoffraw := tryMul_eq_ok.mp hoff
        rw [hcut] at hoffraw
        obtain ⟨share, hshare⟩ := exists_trySub (ε := AmmError) (x := fee.toDecimal) (y := off)
          (by rw [hoffraw, hraw]; omega)
        refine ⟨share, ?_, ?_⟩
        · simp only [happlies, if_true]
          rw [hoff]
          exact hshare
        · rw [(trySub_eq_ok.mp hshare).2, hraw, hoffraw, discountOff, if_pos happlies,
            Nat.mul_sub]
          omega
      · rw [Bool.not_eq_true] at happlies
        simp only [happlies, Bool.false_eq_true, if_false, discountOff]
        exact ⟨_, rfl, by rw [hraw]; omega⟩

/-- **The fee**, rounded up once, at the end. -/
theorem calculateSwapFee_exact (time : Slot) (sell : TokenAmount) {discount : Option Discount}
    {fee : Permillion} (hfee : fee.permillion ≤ MAX_SWAP_FEE.permillion)
    (hmax : ∀ d, discount = some d → d.amount.permillion ≤ maxDiscount.permillion) :
    ∃ n, calculateSwapFee time sell fee discount = .ok n
      ∧ n.val = (sell.val * (fee.permillion.val * (10 ^ 6 - discountOff time discount))
        + (10 ^ 12 - 1)) / 10 ^ 12 := by
  obtain ⟨share, hshare, hraw⟩ := discountedFeeShare_exact time hfee hmax
  have hwhole : (ofU64 sell).raw * share.raw / wad = sell.val * share.raw :=
    Fixed.mul_whole_raw wad_pos (ofU64_raw sell)
  have hsmall : fee.permillion.val ≤ 10000 := hfee
  have hrate : fee.permillion.val * (10 ^ 6 - discountOff time discount) ≤ 10 ^ 10 :=
    (Nat.mul_le_mul hsmall (Nat.sub_le _ _)).trans (by decide)
  have hsell := sell.isLt
  generalize fee.permillion.val * (10 ^ 6 - discountOff time discount) = rate at *
  have hproduct : sell.val * rate ≤ sell.val * 10 ^ 10 := Nat.mul_le_mul_left _ hrate
  have hshift : sell.val * share.raw = sell.val * rate * 10 ^ 6 := by rw [hraw]; ring
  obtain ⟨z, hz⟩ := exists_tryMul (ε := AmmError) (x := ofU64 sell) (y := share)
    (by rw [hwhole, hshift]; omega)
  have hzraw := tryMul_eq_ok.mp hz
  rw [hwhole, hshift] at hzraw
  have hceil : Fixed.ceil z = (sell.val * rate + (10 ^ 12 - 1)) / 10 ^ 12 := by
    unfold Fixed.ceil
    rw [hzraw]
    show (_ + (10 ^ 18 - 1)) / 10 ^ 18 = _
    omega
  refine ⟨⟨Fixed.ceil z, by rw [hceil]; omega⟩, ?_, hceil⟩
  unfold calculateSwapFee
  rw [bind_eq_ok]
  refine ⟨share, hshare, bind_eq_ok.mpr ⟨z, hz, tryCeil_eq_ok.mpr rfl⟩⟩

/-- **The fee of a swap.** In every state that is reached, for every user
and every amount to sell, the fee is computed, and is the pool's share of
the amount less the user's discount, rounded up: never more than a
hundredth, rounded up, and so never more than what is sold. -/
theorem swap_fee_exact (hpools : s.pools = ∅) (hdiscounts : s.discounts = ∅) (is : List Instr)
    {pool : Pool} (hpool : (run (step env) s is).pools.lookup key = some pool) (user : Pubkey)
    (sell : TokenAmount) :
    let t := run (step env) s is
    ∃ fee tokensToSwap, calculateSwapFee t.slot sell pool.swapFee (t.discounts.lookup user)
        = .ok fee
      ∧ fee.val = (sell.val * (pool.swapFee.permillion.val
          * (10 ^ 6 - discountOff t.slot (t.discounts.lookup user))) + (10 ^ 12 - 1)) / 10 ^ 12
      ∧ fee.val ≤ (sell.val + 99) / 100
      ∧ sell.checkedSub fee = some tokensToSwap := by
  intro t
  have hlimits : WithinLimits t := run_withinLimits (.of_empty hpools hdiscounts) is
  have hsmall : pool.swapFee.permillion.val ≤ 10000 := hlimits.fee key pool hpool
  obtain ⟨fee, hfee, hval⟩ := calculateSwapFee_exact t.slot sell
    (hlimits.fee key pool hpool) (hlimits.discount user)
  have hrate : pool.swapFee.permillion.val
      * (10 ^ 6 - discountOff t.slot (t.discounts.lookup user)) ≤ 10 ^ 10 :=
    (Nat.mul_le_mul hsmall (Nat.sub_le _ _)).trans (by decide)
  have hproduct := Nat.mul_le_mul_left sell.val hrate
  have hhundredth : fee.val ≤ (sell.val + 99) / 100 := by omega
  refine ⟨fee, ⟨sell.val - fee.val, (Nat.sub_le _ _).trans_lt sell.isLt⟩, hfee, hval, hhundredth,
    Word.checkedSub_eq_some.mpr ⟨by omega, rfl⟩⟩

/-- The pool takes 1%, and the user 50 pays half of it: 5.005 of 1001,
rounded up. -/
def discounted : List Instr :=
  [createStable, .setPoolSwapFee 60 20 ⟨10000⟩, .createDiscountSettings 7 8,
    .putDiscount 8 true 50 ⟨500000⟩ 100]

theorem swap_fee_exact_discounted :
    ∃ pool fee, (run (step swapEnv) (listedState 0 0) discounted).pools.lookup 20 = some pool
      ∧ calculateSwapFee (run (step swapEnv) (listedState 0 0) discounted).slot 1001 pool.swapFee
        ((run (step swapEnv) (listedState 0 0) discounted).discounts.lookup 50) = .ok fee
      ∧ fee.val = 6 := by
  obtain ⟨pool, hpool, hrate⟩ := Option.map_eq_some_iff.mp (show
    ((run (step swapEnv) (listedState 0 0) discounted).pools.lookup 20).map (·.swapFee)
      = some ⟨10000⟩ by decide +kernel)
  obtain ⟨fee, -, hfee, hval, -⟩ := swap_fee_exact rfl rfl discounted hpool 50 1001
  refine ⟨pool, fee, hpool, hfee, ?_⟩
  rw [hval, hrate]
  decide +kernel

end SolanaAmm.Amm
