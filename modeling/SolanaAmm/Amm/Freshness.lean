import SolanaAmm.Amm.Effects
import SolanaAmm.Amm.Newton
import SolanaAmm.Amm.Swapping

/-!
# Amm — Freshness

A stable pool caches its invariant. Deposits, redemptions and swaps end by
recomputing it from the reserves they leave, and setting the fee touches
neither; creating a pool stores zero, whatever the vaults hold. So the
cache is fresh along every run in which no stable pool is created over an
LP mint that already has supply.
-/

namespace SolanaAmm.Amm

open Result Decimal Pool

/-- The stored invariant is the one of the current reserves if these are
all positive, and is zero only if one of them is empty. -/
structure PoolFresh (m : PowSqrt) (pool : Pool) : Prop where
  wellFormed : pool.WellFormed
  computed : ∀ amplifier invariant, pool.curve = .stable amplifier invariant →
    (∀ r ∈ pool.activeReserves, 0 < r.tokens.val) →
    computeInvariant m amplifier (pool.activeReserves.map (·.tokens)) = .ok invariant
  zero_only : ∀ amplifier, pool.curve = .stable amplifier Decimal.zero →
    ∃ r ∈ pool.activeReserves, r.tokens.val = 0

/-- Every pool of the program has a fresh invariant. -/
def AllFresh (env : Env) (s : AmmState) : Prop :=
  ∀ key pool, s.pools.lookup key = some pool → PoolFresh env.powSqrt pool

variable {env : Env} {s s' : AmmState}

theorem AllFresh.setPool (h : AllFresh env s) {l : Token.Ledger Pubkey Pubkey} {key : Pubkey}
    {pool : Pool} (hp : PoolFresh env.powSqrt pool) :
    AllFresh env ((s.setLedger l).setPool key pool) :=
  Store.forall_insert h hp

/-! ## Recomputing -/

/-- **Recomputing** makes the invariant of any pool fresh. -/
theorem updateCurveInvariant_fresh {m : PowSqrt} (hm : m.Lawful) {pool pool' : Pool}
    (hp : pool.WellFormed) (h : pool.updateCurveInvariant m = .ok pool') :
    PoolFresh m pool' := by
  unfold updateCurveInvariant at h
  split at h
  · rename_i hcurve
    rw [pure_eq_ok] at h
    subst h
    exact ⟨hp, fun _ _ hc => (by rw [hcurve] at hc; cases hc),
      fun _ hc => (by rw [hcurve] at hc; cases hc)⟩
  · rename_i amplifier old hcurve
    simp only [bind_eq_ok, pure_eq_ok] at h
    obtain ⟨invariant, hinv, rfl⟩ := h
    unfold freshInvariant at hinv
    by_cases hany : (pool.activeReserves.map (·.tokens)).any (fun tokens => tokens = 0) = true
    · -- some reserve is empty
      obtain ⟨t, ht, h0⟩ := List.any_eq_true.mp hany
      obtain ⟨r, hr, rfl⟩ := List.mem_map.mp ht
      have hzero : r.tokens.val = 0 := Word.val_eq_zero.mpr (by simpa using h0)
      exact ⟨⟨hp.slots, hp.two_le, hp.le_max, hp.mints_nodup⟩,
        fun _ _ _ hpos => absurd (hpos r hr) (by omega), fun _ _ => ⟨r, hr, hzero⟩⟩
    · rw [if_neg hany] at hinv
      refine ⟨⟨hp.slots, hp.two_le, hp.le_max, hp.mints_nodup⟩, ?_, ?_⟩
      · intro amplifier' invariant' hc _
        cases hc
        exact hinv
      · -- a computed invariant is positive
        intro amplifier' hc
        cases hc
        have hlen := hp.length
        have h2 := hp.two_le
        have h4 := hp.le_max
        have hne : pool.activeReserves ≠ [] := by
          intro hnil
          rw [hnil] at hlen
          simp at hlen
          omega
        have hsum : 1 ≤ ((pool.activeReserves.map (·.tokens)).map (·.val)).sum := by
          refine one_le_sum_reserves (by simpa using hne) (fun x hx => ?_)
          by_contra h0
          refine hany (List.any_eq_true.mpr ⟨x, hx, ?_⟩)
          simpa using Word.val_eq_zero.mp (Nat.lt_one_iff.mp (not_le.mp h0))
        have hpos := computeInvariant_pos hm (by simpa using hne)
          (by rw [List.length_map, hlen]; exact h4.trans (by decide)) hsum hinv
        rw [zero_raw] at hpos
        omega

/-! ## What the endpoints do to the pools -/

theorem deposit_wellFormed {pool pool' : Pool} {maxTokens : BTreeMap TokenAmount}
    {supply : TokenAmount} {result : DepositResult} (hp : pool.WellFormed)
    (h : pool.depositTokens maxTokens supply = .ok (pool', result)) : pool'.WellFormed := by
  simp only [depositTokens, bind_eq_ok, ensure_eq_ok, pure_eq_ok, Prod.exists,
    Prod.mk.injEq] at h
  obtain ⟨-, -, -, -, -, -, _, _, -, _, hadd, rfl, -⟩ := h
  exact (addAll_moved hp hadd).wellFormed hp

theorem depositLiquidity_fresh (hm : env.powSqrt.Lawful) (hs : AllFresh env s)
    {accs : DepositLiquidity} {limits : List TokenLimit}
    (h : depositLiquidity env s accs limits = .ok s') : AllFresh env s' := by
  simp only [depositLiquidity, AmmState.pool, bind_eq_ok, okOr_eq_ok, pure_eq_ok,
    Prod.exists] at h
  obtain ⟨pool, hpool, _, -, -, -, _, -, -, -, _, -, -, -, -, -, -, -, p, _, hd, _, -, _, -, _,
    -, p', hu, rfl⟩ := h
  exact hs.setPool (updateCurveInvariant_fresh hm
    (deposit_wellFormed (hs _ _ hpool).wellFormed hd) hu)

theorem redeemLiquidity_fresh (hm : env.powSqrt.Lawful) (hs : AllFresh env s)
    {accs : RedeemLiquidity} {burned : TokenAmount} {limits : List TokenLimit}
    (h : redeemLiquidity env s accs burned limits = .ok s') : AllFresh env s' := by
  simp only [redeemLiquidity, AmmState.pool, bind_eq_ok, okOr_eq_ok, pure_eq_ok,
    Prod.exists] at h
  obtain ⟨pool, hpool, _, -, -, -, _, -, -, -, _, -, -, -, -, -, -, -, -, -, -, -, p, _, hr, _,
    -, _, -, p', hu, rfl⟩ := h
  have hwf := (hs _ _ hpool).wellFormed
  simp only [redeemTokens, bind_eq_ok, pure_eq_ok, Prod.mk.injEq] at hr
  obtain ⟨-, -, -, -, -, -, -, -, _, -, _, -, _, -, -, -, _, hremove, rfl, -⟩ := hr
  exact hs.setPool (updateCurveInvariant_fresh hm
    ((removeAll_moved hwf hremove).wellFormed hwf) hu)

theorem swap_fresh (hm : env.powSqrt.Lawful) (hs : AllFresh env s) {accs : Swap}
    {sell minBuy : TokenAmount} (h : swap env s accs sell minBuy = .ok s') :
    AllFresh env s' := by
  simp only [swap, AmmState.pool, bind_eq_ok, okOr_eq_ok, pure_eq_ok, Prod.exists] at h
  obtain ⟨pool, hpool, _, -, _, -, _, -, _, -, _, -, _, -, -, -, -, -, _, -, _, -, p₁, _, hswap,
    p₂, hfee, -, -, _, -, _, -, _, -, _, -, p', hu, rfl⟩ := h
  have hwf := (hs _ _ hpool).wellFormed
  have hwf₁ := (swapped hwf hswap).moved.wellFormed hwf
  exact hs.setPool (updateCurveInvariant_fresh hm
    ((updateReserve_moved hwf₁.mints_nodup addTokens_moved hfee).wellFormed hwf₁) hu)

theorem setPoolSwapFee_fresh (hs : AllFresh env s) {key : Pubkey} {pool : Pool}
    {fee : Permillion} (hpool : s.pools.lookup key = some pool) :
    AllFresh env (s.setPool key { pool with swapFee := fee }) := by
  have hf := hs _ _ hpool
  exact hs.setPool (l := s.ledger)
    ⟨⟨hf.wellFormed.slots, hf.wellFormed.two_le, hf.wellFormed.le_max,
      hf.wellFormed.mints_nodup⟩, hf.computed, hf.zero_only⟩

/-! ## Creating a pool -/

/-- What the loop over the vaults builds: reserves of distinct mints, all
empty if the LP mint has no supply and none empty if it has. -/
structure CreatedReserves (isLpMintWithoutSupply : Bool) (reserves : List Reserve) : Prop where
  nodup : (reserves.map (·.mint)).Nodup
  empty : isLpMintWithoutSupply = true → ∀ r ∈ reserves, r.tokens.val = 0
  positive : isLpMintWithoutSupply = false → ∀ r ∈ reserves, 0 < r.tokens.val

theorem createReserve_ok {signer : Pubkey} {noSupply : Bool} {vaults : List Pubkey}
    {reserves : List Reserve}
    (h : vaults.foldlM (createReserve s signer noSupply) [] = .ok reserves) :
    reserves.length = vaults.length ∧ CreatedReserves noSupply reserves := by
  refine foldlM_invariant (f := createReserve s signer noSupply)
    (P := fun done rs => rs.length = done.length ∧ CreatedReserves noSupply rs)
    ?_ vaults [] [] reserves ⟨rfl, List.nodup_nil, nofun, nofun⟩ h
  rintro done key rs rs' ⟨hlen, hrs⟩ hstep
  simp only [createReserve, bind_eq_ok, ensure_eq_ok, pure_eq_ok] at hstep
  obtain ⟨vault, -, -, hempty, -, hfull, -, hmint, -, -, -, -, -, -, -, -, rfl⟩ := hstep
  refine ⟨by rw [List.length_append, List.length_append, hlen]; rfl, ?_, ?_, ?_⟩
  · rw [List.map_append, List.map_singleton, List.nodup_append]
    refine ⟨hrs.nodup, List.nodup_singleton _, ?_⟩
    intro a ha b hb hab
    rw [List.mem_singleton] at hb
    have hmem : a = vault.data.mint := hab.trans hb
    exact hmint (hmem ▸ ha)
  · intro hno r hr
    rcases List.mem_append.mp hr with hr | hr
    · exact hrs.empty hno r hr
    · rw [List.mem_singleton] at hr
      subst hr
      rw [not_and, not_not] at hempty
      exact Word.val_eq_zero.mpr (hempty hno)
  · intro hno r hr
    rcases List.mem_append.mp hr with hr | hr
    · exact hrs.positive hno r hr
    · rw [List.mem_singleton] at hr
      subst hr
      exact Nat.pos_of_ne_zero (fun h0 => hfull ⟨hno, Word.val_eq_zero.mp h0⟩)

/-- The pool that is created with given reserves. -/
def newPool (env : Env) (accs : CreatePool) (amplifier : U64) (reserves : List Reserve) : Pool where
  admin := accs.admin
  signer := env.signerPda accs.pool
  mint := accs.lpMint
  programTollWallet := accs.programTollWallet
  dimension := Word.wrap reserves.length
  reserves := reserves ++ List.replicate (MAX_RESERVES - reserves.length) default
  curve := if amplifier = 0 then .constProd else .stable amplifier Decimal.zero
  swapFee := ⟨0⟩

theorem newPool_dimension (accs : CreatePool) (amplifier : U64) {reserves : List Reserve}
    (h : reserves.length ≤ MAX_RESERVES) :
    (newPool env accs amplifier reserves).dimension.val = reserves.length :=
  Word.wrap_val (h.trans_lt (by decide))

theorem newPool_activeReserves (accs : CreatePool) (amplifier : U64) {reserves : List Reserve}
    (h : reserves.length ≤ MAX_RESERVES) :
    (newPool env accs amplifier reserves).activeReserves = reserves := by
  rw [activeReserves, newPool_dimension _ _ h, newPool, List.take_left']
  rfl

/-- What the endpoint checks and builds. -/
theorem createPool_ok {accs : CreatePool} {amplifier : U64}
    (h : createPool env s accs amplifier = .ok s') :
    ∃ lpMint reserves, s.pools.lookup accs.pool = none
      ∧ s.ledger.mints.lookup accs.lpMint = some lpMint
      ∧ lpMint.mintAuthority = some (env.signerPda accs.pool)
      ∧ accs.remainingAccounts.foldlM
        (createReserve s (env.signerPda accs.pool) (lpMint.supply = 0)) [] = .ok reserves
      ∧ 2 ≤ reserves.length ∧ reserves.length ≤ MAX_RESERVES
      ∧ s' = s.setPool accs.pool (newPool env accs amplifier reserves) := by
  simp only [createPool, AmmState.mint, bind_eq_ok, ensure_eq_ok, okOr_eq_ok, pure_eq_ok] at h
  obtain ⟨-, hnew, toll, -, wallet, -, lpMint, hmint, -, -, -, -, -, hauthority, -, -, -, hmax,
    reserves, hres, -, htwo, rfl⟩ := h
  obtain ⟨hlen, -⟩ := createReserve_ok hres
  exact ⟨lpMint, reserves, hnew, hmint, hauthority, hres, htwo, hlen ▸ hmax, rfl⟩

/-- What a successful creation did. -/
structure Created (env : Env) (s : AmmState) (accs : CreatePool) (amplifier : U64)
    (s' : AmmState) (lpMint : Token.Mint Pubkey) (pool : Pool) : Prop where
  mint : s.ledger.mints.lookup accs.lpMint = some lpMint
  state : s' = s.setPool accs.pool pool
  wellFormed : pool.WellFormed
  curve : pool.curve = if amplifier = 0 then .constProd else .stable amplifier Decimal.zero
  reserves : CreatedReserves (lpMint.supply = 0) pool.activeReserves

theorem created {accs : CreatePool} {amplifier : U64}
    (h : createPool env s accs amplifier = .ok s') :
    ∃ lpMint pool, Created env s accs amplifier s' lpMint pool := by
  obtain ⟨lpMint, reserves, -, hmint, -, hres, htwo, hfour, rfl⟩ := createPool_ok h
  obtain ⟨-, hcreated⟩ := createReserve_ok hres
  have hdim : (newPool env accs amplifier reserves).dimension.val = _ :=
    newPool_dimension accs amplifier hfour
  have hactive : (newPool env accs amplifier reserves).activeReserves = _ :=
    newPool_activeReserves accs amplifier hfour
  refine ⟨lpMint, _,
    { mint := hmint
      state := rfl
      wellFormed := ⟨?_, htwo.trans_eq hdim.symm, hdim.trans_le hfour, ?_⟩
      curve := rfl
      reserves := ?_ }⟩
  · rw [newPool, List.length_append, List.length_replicate]
    omega
  · rw [hactive]
    exact hcreated.nodup
  · rw [hactive]
    exact hcreated

/-- **Creation**: the invariant of a new pool is fresh if and only if the
pool is a constant-product pool or its LP mint has no supply. -/
theorem created_fresh_iff {accs : CreatePool} {amplifier : U64} {lpMint : Token.Mint Pubkey}
    {pool : Pool} (h : Created env s accs amplifier s' lpMint pool) :
    PoolFresh env.powSqrt pool ↔ amplifier = 0 ∨ lpMint.supply = 0 := by
  obtain ⟨r, -, hr⟩ := h.wellFormed.head?
  have hcurve := h.curve
  by_cases hamp : amplifier = 0
  · rw [if_pos hamp] at hcurve
    exact iff_of_true ⟨h.wellFormed, fun _ _ hc => (by rw [hcurve] at hc; cases hc),
      fun _ hc => (by rw [hcurve] at hc; cases hc)⟩ (.inl hamp)
  · rw [if_neg hamp] at hcurve
    by_cases hsupply : lpMint.supply = 0
    · have hzero := h.reserves.empty (by simpa using hsupply)
      exact iff_of_true ⟨h.wellFormed,
        fun _ _ _ hpos => absurd (hpos r hr) (by have := hzero r hr; omega),
        fun _ _ => ⟨r, hr, hzero r hr⟩⟩ (.inr hsupply)
    · have hpos := h.reserves.positive (by simpa using hsupply)
      refine iff_of_false (fun hf => ?_) (by simp [hamp, hsupply])
      obtain ⟨r', hr', h0⟩ := hf.zero_only amplifier hcurve
      have := hpos r' hr'
      omega

/-! ## Runs -/

/-- No stable pool is created over an LP mint that has supply. -/
def FreshCreation (s : AmmState) : Instr → Prop
  | .createPool accs amplifier => amplifier = 0 ∨
      ∀ lpMint ∈ s.ledger.mints.lookup accs.lpMint, lpMint.supply = 0
  | _ => True

/-- **The step**: what any instruction does to the pools keeps every
invariant fresh, creation under its condition. -/
theorem step_fresh (hm : env.powSqrt.Lawful) (hs : AllFresh env s) {i : Instr}
    (hi : FreshCreation s i) (h : step env s i = .ok s') : AllFresh env s' := by
  obtain ⟨-, he⟩ := step_ok h
  cases he with
  | settings hpools _ =>
      intro key pool hpool
      exact hs key pool (hpools ▸ hpool)
  | @createPool accs amplifier _ h =>
      obtain ⟨lpMint, pool, hc⟩ := created h
      rw [hc.state]
      refine hs.setPool (l := s.ledger) ((created_fresh_iff hc).mpr ?_)
      exact hi.imp id (fun hsupply => hsupply lpMint hc.mint)
  | setPoolSwapFee hpool _ => exact setPoolSwapFee_fresh hs hpool
  | depositLiquidity h => exact depositLiquidity_fresh hm hs h
  | redeemLiquidity h => exact redeemLiquidity_fresh hm hs h
  | swap h => exact swap_fresh hm hs h
  | token _ _ => exact hs

theorem run_fresh (hm : env.powSqrt.Lawful) (hs : AllFresh env s) {is : List Instr}
    (his : Machine.Guarded (step env) FreshCreation s is) :
    AllFresh env (Machine.run (step env) s is) :=
  Machine.run_invariant (fun _ _ _ hI hG h => step_fresh hm hI hG h) hs his

/-- **The cached invariant.** A new pool has a fresh invariant exactly if
it is a constant-product pool or its LP mint has no supply; and along
every run in which pools are created so, every pool's invariant stays
fresh, and every swap on a stable pool is priced against the positive
invariant of the reserves it finds. -/
theorem invariant_fresh (hm : env.powSqrt.Lawful) :
    (∀ s accs amplifier s', createPool env s accs amplifier = .ok s' →
      ∃ lpMint pool, s.ledger.mints.lookup accs.lpMint = some lpMint
        ∧ s'.pools.lookup accs.pool = some pool
        ∧ (PoolFresh env.powSqrt pool ↔ amplifier = 0 ∨ lpMint.supply = 0))
    ∧ (∀ s is, AllFresh env s → Machine.Guarded (step env) FreshCreation s is →
      AllFresh env (Machine.run (step env) s is)
      ∧ ∀ key pool, (Machine.run (step env) s is).pools.lookup key = some pool →
        ∀ amplifier invariant, pool.curve = .stable amplifier invariant →
        ∀ sellMint n buyMint r, pool.swap env.powSqrt sellMint n buyMint = .ok r →
          computeInvariant env.powSqrt amplifier (pool.activeReserves.map (·.tokens))
            = .ok invariant ∧ invariant ≠ Decimal.zero) := by
  refine ⟨fun s accs amplifier s' h => ?_, fun s is hs his => ?_⟩
  · obtain ⟨lpMint, pool, hc⟩ := created h
    refine ⟨lpMint, pool, hc.mint, ?_, created_fresh_iff hc⟩
    rw [hc.state]
    exact AList.lookup_insert _
  · have hfresh := run_fresh hm hs his
    refine ⟨hfresh, ?_⟩
    intro key pool hpool amplifier invariant hcurve sellMint n buyMint r hswap
    have hp := hfresh key pool hpool
    have hpos := (swapped hp.wellFormed hswap).positive
    refine ⟨hp.computed amplifier invariant hcurve hpos, ?_⟩
    rintro rfl
    obtain ⟨r, hr, h0⟩ := hp.zero_only amplifier hcurve
    have := hpos r hr
    omega

/-! ## One program, two LP mints -/

/-- Derived addresses are all key 99, which nobody holds. -/
def sampleEnv : Env where
  powSqrt := .reference
  tokenProgram := Token.Reference.tokenProgram
  signerPda _ := 99
  isOnCurve key := key ≠ 99

def tokenAccount (mint owner : Pubkey) (amount : TokenAmount) :
    Token.TokenAccount Pubkey Pubkey :=
  ⟨mint, owner, amount, none, none, false⟩

/-- No pool yet: the LP mint 5 has the given supply and the vaults 11 and
12 the given balances; user 50 has wallets 31, 32 and 33. -/
def listedState (supply vaults : TokenAmount) : AmmState where
  upgradeAuthority := 7
  programToll := some 7
  discountSettings := none
  discounts := ∅
  pools := ∅
  ledger :=
    { accounts := List.toAList [⟨10, tokenAccount 5 7 0⟩, ⟨11, tokenAccount 1 99 vaults⟩,
        ⟨12, tokenAccount 2 99 vaults⟩, ⟨31, tokenAccount 1 50 5000⟩,
        ⟨32, tokenAccount 2 50 5000⟩, ⟨33, tokenAccount 5 50 0⟩]
      mints := List.toAList [⟨5, ⟨supply, some 99, none⟩⟩] }
  slot := 1

def createStable : Instr :=
  .createPool
    { admin := 60
      pool := 20
      programTollWallet := 10
      lpMint := 5
      remainingAccounts := [11, 12] } 10

def depositThousand : Instr :=
  .depositLiquidity
    { user := 50
      pool := 20
      lpMint := 5
      lpTokenWallet := 33
      remainingAccounts := [11, 31, 12, 32] } [⟨1, 1000⟩, ⟨2, 1000⟩]

/-- Created over an LP mint without supply and funded by a deposit: the
invariant is fresh, and no longer zero. -/
theorem invariant_fresh_funded :
    AllFresh sampleEnv
        (Machine.run (step sampleEnv) (listedState 0 0) [createStable, depositThousand])
      ∧ ((Machine.run (step sampleEnv) (listedState 0 0)
          [createStable, depositThousand]).pools.lookup 20).any (fun pool =>
            pool.curve ≠ .constProd ∧ pool.curve ≠ .stable 10 Decimal.zero) = true := by
  refine ⟨((invariant_fresh PowSqrt.reference_lawful).2 (listedState 0 0) _ ?_ ?_).1, ?_⟩
  · rintro key pool ⟨⟩
  · refine ⟨.inr ?_, trivial, trivial⟩
    rintro lpMint ⟨⟩
    rfl
  · decide +kernel

/-- Created over an LP mint with supply, the pool has full vaults and the
invariant zero. -/
theorem created_stale :
    ¬ ∀ (env : Env) (s : AmmState) (is : List Instr), env.powSqrt.Lawful →
      env.tokenProgram.Lawful → AllFresh env s → AllFresh env (Machine.run (step env) s is) := by
  intro h
  have hfresh := h sampleEnv (listedState 100 1000) [createStable] PowSqrt.reference_lawful
    Token.Reference.lawful (by rintro key pool ⟨⟩)
  have hstale : ((Machine.run (step sampleEnv) (listedState 100 1000)
      [createStable]).pools.lookup 20).any (fun pool =>
        pool.curve = .stable 10 Decimal.zero
          ∧ pool.activeReserves.all (fun r => 0 < r.tokens.val)) = true := by
    decide +kernel
  cases hpool : (Machine.run (step sampleEnv) (listedState 100 1000)
      [createStable]).pools.lookup 20 with
  | none => rw [hpool] at hstale; cases hstale
  | some pool =>
      rw [hpool, Option.any_some, decide_eq_true_eq] at hstale
      obtain ⟨r, hr, h0⟩ := (hfresh 20 pool hpool).zero_only 10 hstale.1
      have hpos := List.all_eq_true.mp hstale.2 r hr
      rw [decide_eq_true_eq] at hpos
      omega

end SolanaAmm.Amm
