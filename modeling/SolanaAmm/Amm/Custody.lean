import SolanaAmm.Amm.Liquidity
import SolanaAmm.Amm.Vaults

/-!
# Amm — Custody

What the endpoints do to the pools and the ledger together. A deposit or
a redemption changes a reserve by what it transfers at the reserve's
vault, and a swap by what the user pays and receives; nothing else moves
tokens out of a vault. So no pool ever records more than its vaults hold.
-/

namespace SolanaAmm.Amm

open Result Decimal Token Pool

variable {env : Env} {s s' : AmmState}

/-! ## What the endpoints move -/

/-- A deposit: the reserves gain the tokens to deposit, each vault
receives them once from a wallet that is no vault of the pool, and LP
tokens are minted. -/
structure DepositMoved (env : Env) (s : AmmState) (accs : DepositLiquidity)
    (limits : List TokenLimit) (s' : AmmState) (pool pool' : Pool) (supply lp : TokenAmount)
    (result : DepositResult) (orders : List (TransferOrder Pubkey))
    (ledger : Ledger Pubkey Pubkey) : Prop where
  before : s.pools.lookup accs.pool = some pool
  state : s' = (s.setLedger s'.ledger).setPool accs.pool pool'
  mint : accs.lpMint = pool.mint
  lpSupply : ∃ lpMint, s.ledger.mints.lookup pool.mint = some lpMint ∧ lpMint.supply = supply
  plan : ∃ p, pool.depositTokens (limitsMap limits) supply = .ok (p, result)
    ∧ p.updateCurveInvariant env.powSqrt = .ok pool'
  given : result.lpTokensToDistribute = some lp
  reserves : List.Forall₂ (ReserveMoved (mapAmounts result.tokensToDeposit) (fun _ => 0))
    pool.activeReserves pool'.activeReserves
  transfers : transferAll env.tokenProgram s.ledger orders = some ledger
  authority : ∀ o ∈ orders, o.authority = accs.user
  once : OncePerVault pool result.tokensToDeposit orders (·.destination)
  outside : ∀ o ∈ orders, ∀ r ∈ pool.activeReserves, o.source ≠ r.vault
  mints : env.tokenProgram.mintTo ledger accs.lpMint accs.lpTokenWallet
    (env.signerPda accs.pool) lp = some s'.ledger

/-- A redemption: the reserves lose the tokens to redeem, each vault pays
them once into a wallet that is no vault of the pool, and the user's LP
tokens are burned. -/
structure RedemptionMoved (env : Env) (s : AmmState) (accs : RedeemLiquidity)
    (burned : TokenAmount) (limits : List TokenLimit) (s' : AmmState) (pool pool' : Pool)
    (supply : TokenAmount) (tokens : BTreeMap TokenAmount)
    (orders : List (TransferOrder Pubkey)) (ledger : Ledger Pubkey Pubkey) : Prop where
  before : s.pools.lookup accs.pool = some pool
  state : s' = (s.setLedger s'.ledger).setPool accs.pool pool'
  mint : accs.lpMint = pool.mint
  lpSupply : ∃ lpMint, s.ledger.mints.lookup pool.mint = some lpMint ∧ lpMint.supply = supply
  plan : ∃ p, pool.redeemTokens (limitsMap limits) burned supply = .ok (p, tokens)
    ∧ p.updateCurveInvariant env.powSqrt = .ok pool'
  reserves : List.Forall₂ (ReserveMoved (fun _ => 0) (mapAmounts tokens))
    pool.activeReserves pool'.activeReserves
  transfers : transferAll env.tokenProgram s.ledger orders = some ledger
  authority : ∀ o ∈ orders, o.authority = env.signerPda accs.pool
  once : OncePerVault pool tokens orders (·.source)
  outside : ∀ o ∈ orders, ∀ r ∈ pool.activeReserves, o.destination ≠ r.vault
  burns : env.tokenProgram.burn ledger accs.lpMint accs.lpTokenWallet accs.user burned
    = some s'.ledger

/-- A swap: the sold reserve gains all the user pays, fee included, the
bought one loses what the user receives, and the toll is minted. -/
structure SwapMoved (env : Env) (s : AmmState) (accs : Swap) (sell : TokenAmount)
    (s' : AmmState) (pool pool' : Pool) (sold boughtOf : Reserve) (fee bought : TokenAmount)
    (toll : Option TokenAmount) (paid received : Ledger Pubkey Pubkey) : Prop where
  before : s.pools.lookup accs.pool = some pool
  state : s' = (s.setLedger s'.ledger).setPool accs.pool pool'
  mint : accs.lpMint = pool.mint
  sells : sold ∈ pool.activeReserves ∧ sold.vault = accs.sellVault
  buys : boughtOf ∈ pool.activeReserves ∧ boughtOf.vault = accs.buyVault
    ∧ boughtOf.mint ≠ sold.mint
  fees : calculateSwapFee s.slot sell pool.swapFee (s.discounts.lookup accs.user) = .ok fee
  swap : ∃ toSwap p, toSwap.val + fee.val = sell.val
    ∧ pool.swap env.powSqrt sold.mint toSwap boughtOf.mint = .ok (p, bought)
  sameMint : pool'.mint = pool.mint
  reserves : List.Forall₂ (ReserveMoved (single sold.mint sell.val)
    (single boughtOf.mint bought.val)) pool.activeReserves pool'.activeReserves
  pays : env.tokenProgram.transfer s.ledger accs.sellWallet accs.sellVault accs.user sell
    = some paid
  outside : ∀ r ∈ pool.activeReserves, accs.sellWallet ≠ r.vault
  receives : env.tokenProgram.transfer paid accs.buyVault accs.buyWallet
    (env.signerPda accs.pool) bought = some received
  tolls : payToll env received accs toll = .ok s'.ledger

/-! ## The pool's part -/

theorem updateCurveInvariant_reserves {m : PowSqrt} {pool pool' : Pool}
    (h : pool.updateCurveInvariant m = .ok pool') :
    pool'.activeReserves = pool.activeReserves ∧ (pool.WellFormed → pool'.WellFormed) := by
  unfold updateCurveInvariant at h
  split at h
  · rw [pure_eq_ok] at h
    subst h
    exact ⟨rfl, id⟩
  · simp only [bind_eq_ok, pure_eq_ok] at h
    obtain ⟨invariant, -, rfl⟩ := h
    exact ⟨rfl, fun hp => ⟨hp.slots, hp.two_le, hp.le_max, hp.mints_nodup⟩⟩

theorem updateCurveInvariant_mint {m : PowSqrt} {pool pool' : Pool}
    (h : pool.updateCurveInvariant m = .ok pool') : pool'.mint = pool.mint := by
  unfold updateCurveInvariant at h
  split at h
  · rw [pure_eq_ok] at h
    rw [h]
  · simp only [bind_eq_ok, pure_eq_ok] at h
    obtain ⟨invariant, -, rfl⟩ := h
    rfl

/-- A deposit moves what it plans to, whatever the LP supply is. -/
theorem deposit_moved {pool pool' : Pool} {maxTokens : BTreeMap TokenAmount}
    {supply : TokenAmount} {result : DepositResult} (hp : pool.WellFormed)
    (h : pool.depositTokens maxTokens supply = .ok (pool', result)) :
    Moved pool pool' (mapAmounts result.tokensToDeposit) (fun _ => 0) := by
  simp only [depositTokens, bind_eq_ok, ensure_eq_ok, pure_eq_ok, Prod.exists,
    Prod.mk.injEq] at h
  obtain ⟨-, -, -, -, -, -, _, _, -, _, hadd, rfl, rfl⟩ := h
  exact addAll_moved hp hadd

/-- A pair that was checked against the moved pool names a vault of the
pool. -/
theorem PairChecked.of_moved {pool pool' : Pool} {up down : Pubkey → ℕ} {user : Pubkey}
    {tokens : BTreeMap TokenAmount} {pair : LoadedAccount × LoadedAccount}
    (hm : Moved pool pool' up down) (h : PairChecked pool' user tokens pair) :
    PairChecked pool user tokens pair where
  mint := h.mint
  owner := h.owner
  vault := by
    obtain ⟨r', hr', hvault⟩ := h.vault
    obtain ⟨r, hr, hrr'⟩ := Lists.forall₂_exists_right hm.reserves.flip hr'
    exact ⟨r, hr, hrr'.vault.symm.trans hvault⟩
  tokens := h.tokens

/-! ## Every vault keeps what its pool records -/

section Covered

variable {l l' : Ledger Pubkey Pubkey} {key : Pubkey} {pool pool' : Pool}
  {up down : Pubkey → ℕ}

/-- Vaults that move like their reserves stay covered. -/
theorem Vaulted.moved (h : Vaulted env l key pool)
    (hp : pool'.WellFormed)
    (hr : List.Forall₂ (ReserveMoved up down) pool.activeReserves pool'.activeReserves)
    (hheld : ∀ k m, Held l k m (env.signerPda key) → Held l' k m (env.signerPda key))
    (hbalance : ∀ r ∈ pool.activeReserves,
      l.balance r.vault + up r.mint ≤ l'.balance r.vault + down r.mint) :
    Vaulted env l' key pool' where
  wellFormed := hp
  held := by
    intro r' hr'
    obtain ⟨r, hmem, hrr'⟩ := Lists.forall₂_exists_right hr.flip hr'
    rw [hrr'.mint, hrr'.vault]
    exact hheld _ _ (h.held r hmem)
  covered := by
    intro r' hr'
    obtain ⟨r, hmem, hrr'⟩ := Lists.forall₂_exists_right hr.flip hr'
    have hcovered := h.covered r hmem
    have hb := hbalance r hmem
    have htokens := hrr'.tokens
    rw [hrr'.vault]
    omega

end Covered

/-! ## The steps -/

/-- Every pool's vaults answer to its signer and hold what it records, and
no two pools have the same signer. -/
structure Custody (env : Env) (s : AmmState) : Prop where
  vaulted : ∀ key pool, s.pools.lookup key = some pool → Vaulted env s.ledger key pool
  signers : ∀ key key' pool pool', s.pools.lookup key = some pool →
    s.pools.lookup key' = some pool' → env.signerPda key = env.signerPda key' → key = key'

theorem depositLiquidity_moved (hs : Custody env s) {accs : DepositLiquidity}
    {limits : List TokenLimit} (huser : accs.user ≠ env.signerPda accs.pool)
    (h : depositLiquidity env s accs limits = .ok s') :
    ∃ pool pool' supply lp result orders ledger,
      DepositMoved env s accs limits s' pool pool' supply lp result orders ledger := by
  simp only [depositLiquidity, AmmState.pool, AmmState.mint, bind_eq_ok, okOr_eq_ok,
    ensure_eq_ok, pure_eq_ok, Prod.exists] at h
  obtain ⟨pool, hpool, lpMint, hlpMint, -, hmint, _, -, -, -, accounts, haccounts, -, hunique,
    -, hlen, -, -, p, result, hd, lp, hlp, ledger, hloop, ledger', hmintTo, pool', hu, rfl⟩ := h
  have hv := hs.vaulted _ _ hpool
  have hmoved := deposit_moved hv.wellFormed hd
  obtain ⟨hreserves, -⟩ := updateCurveInvariant_reserves hu
  have hloaded := loaded haccounts
  obtain ⟨hchecked, htransfers⟩ := transferLoop
    (o := depositOrder accs.user result.tokensToDeposit)
    (fun _ _ _ h => depositTransfer_ok h) hloop
  have hpairs : ∀ pair ∈ chunksOfTwo accounts,
      PairChecked pool accs.user result.tokensToDeposit pair :=
    fun pair hpair => (hchecked pair hpair).of_moved hmoved
  refine ⟨pool, pool', lpMint.supply, lp, result, _, ledger,
    { before := hpool
      state := rfl
      mint := hmint
      lpSupply := ⟨lpMint, hmint ▸ hlpMint, rfl⟩
      plan := ⟨p, hd, hu⟩
      given := hlp
      reserves := hreserves ▸ hmoved.reserves
      transfers := htransfers
      authority := ?_
      once := oncePerVault (fun _ => rfl) (fun _ => rfl) hpairs
        (vaults_perm hv hloaded hunique hlen hpairs)
      outside := ?_
      mints := hmintTo }⟩
  · intro o ho
    obtain ⟨pair, -, rfl⟩ := List.mem_map.mp ho
    rfl
  · intro o ho r hr
    obtain ⟨pair, hpair, rfl⟩ := List.mem_map.mp ho
    exact wallet_ne_vault hv hloaded hpairs huser hpair hr

theorem redeemLiquidity_moved (hs : Custody env s) {accs : RedeemLiquidity}
    {burned : TokenAmount} {limits : List TokenLimit}
    (huser : accs.user ≠ env.signerPda accs.pool)
    (h : redeemLiquidity env s accs burned limits = .ok s') :
    ∃ pool pool' supply tokens orders ledger,
      RedemptionMoved env s accs burned limits s' pool pool' supply tokens orders ledger := by
  simp only [redeemLiquidity, AmmState.pool, AmmState.mint, bind_eq_ok, okOr_eq_ok,
    ensure_eq_ok, pure_eq_ok, Prod.exists] at h
  obtain ⟨pool, hpool, lpMint, hlpMint, -, hmint, _, -, -, -, accounts, haccounts, -, hunique,
    -, -, -, -, -, hlen, -, -, p, tokens, hr, ledger, hloop, ledger', hburn, pool', hu, rfl⟩ := h
  have hv := hs.vaulted _ _ hpool
  have hmoved := (redeemed hv.wellFormed hr).moved
  obtain ⟨hreserves, -⟩ := updateCurveInvariant_reserves hu
  have hloaded := loaded haccounts
  obtain ⟨hchecked, htransfers⟩ := transferLoop
    (o := redeemOrder (env.signerPda accs.pool) tokens)
    (fun _ _ _ h => redeemTransfer_ok h) hloop
  have hpairs : ∀ pair ∈ chunksOfTwo accounts, PairChecked pool accs.user tokens pair :=
    fun pair hpair => (hchecked pair hpair).of_moved hmoved
  refine ⟨pool, pool', lpMint.supply, tokens, _, ledger,
    { before := hpool
      state := rfl
      mint := hmint
      lpSupply := ⟨lpMint, hmint ▸ hlpMint, rfl⟩
      plan := ⟨p, hr, hu⟩
      reserves := hreserves ▸ hmoved.reserves
      transfers := htransfers
      authority := ?_
      once := oncePerVault (fun _ => rfl) (fun _ => rfl) hpairs
        (vaults_perm hv hloaded hunique hlen hpairs)
      outside := ?_
      burns := hburn }⟩
  · intro o ho
    obtain ⟨pair, -, rfl⟩ := List.mem_map.mp ho
    rfl
  · intro o ho r hr
    obtain ⟨pair, hpair, rfl⟩ := List.mem_map.mp ho
    exact wallet_ne_vault hv hloaded hpairs huser hpair hr

/-- The vault that a mint's reserve names. -/
theorem reserveVault_eq_some {pool : Pool} {mint vault : Pubkey}
    (h : pool.reserveVault mint = some vault) :
    ∃ r ∈ pool.activeReserves, r.mint = mint ∧ r.vault = vault := by
  obtain ⟨r, hr, rfl⟩ := Option.map_eq_some_iff.mp h
  exact ⟨r, List.mem_of_find?_eq_some hr, by simpa using List.find?_some hr, rfl⟩

theorem swap_moved (hp : env.tokenProgram.Lawful) (hs : Custody env s) {accs : Swap}
    {sell minBuy : TokenAmount} (huser : accs.user ≠ env.signerPda accs.pool)
    (h : swap env s accs sell minBuy = .ok s') :
    ∃ pool pool' sold boughtOf fee bought toll paid received,
      SwapMoved env s accs sell s' pool pool' sold boughtOf fee bought toll paid received
        ∧ pool'.WellFormed := by
  simp only [swap, checkSwapAccounts, AmmState.pool, AmmState.mint, AmmState.tokenAccount,
    bind_eq_ok, okOr_eq_ok, ensure_eq_ok, pure_eq_ok, Prod.exists] at h
  obtain ⟨pool, hpool, sellWallet, -, buyWallet, -, _, ⟨sellVault, -, rfl⟩, _,
    ⟨buyVault, -, rfl⟩, lpMint, hlpMint, _, -, _, ⟨-, hne, -, hsm, -, hbm, -, hsold, -, hbought, -,
    hmint, -⟩, -, -, fee, hfee, toSwap, hto, p, bought, hswap, p', hadd, -, -, paid, hpaid,
    received, hreceived, toll, htoll, ledger, htolled, pool', hu, rfl⟩ := h
  have hv := hs.vaulted _ _ hpool
  obtain ⟨rs, hrs, hrsm, hrsv⟩ := reserveVault_eq_some hsold
  obtain ⟨rb, hrb, hrbm, hrbv⟩ := reserveVault_eq_some hbought
  obtain ⟨hle, hval⟩ := Word.checkedSub_eq_some.mp hto
  have hmoved := (swapped hv.wellFormed hswap).moved
  have hwf := hmoved.wellFormed hv.wellFormed
  -- the fee stays in the sold reserve: together all that the user pays
  have hall := hmoved.trans (updateReserve_moved hwf.mints_nodup addTokens_moved hadd)
  have hup : (fun k => single sellVault.mint toSwap.val k + single sellVault.mint fee.val k)
      = single sellVault.mint sell.val := by
    funext k
    by_cases hk : k = sellVault.mint
    · rw [hk, single_self, single_self, single_self]
      omega
    · rw [single_ne hk, single_ne hk, single_ne hk]
  have hdown : (fun k => single buyVault.mint bought.val k + single sellVault.mint 0 k)
      = single buyVault.mint bought.val := by
    funext k
    rw [single_zero, Nat.add_zero]
  rw [hup, hdown] at hall
  obtain ⟨hreserves, hkept⟩ := updateCurveInvariant_reserves hu
  refine ⟨pool, pool', rs, rb, fee, bought, toll, paid, received,
    { before := hpool
      state := rfl
      mint := hmint.symm
      sells := ⟨hrs, hrsv⟩
      buys := ⟨hrb, hrbv, ?_⟩
      fees := hfee
      swap := ⟨toSwap, p, by omega, by rw [hrsm, hrbm]; exact hswap⟩
      sameMint := ?_
      reserves := ?_
      pays := hpaid
      outside := ?_
      receives := hreceived
      tolls := htolled }, hkept (hall.wellFormed hv.wellFormed)⟩
  · rw [hrsm, hrbm, ← hsm, ← hbm]
    exact Ne.symm hne
  · rw [updateCurveInvariant_mint hu, hall.rest]
    rfl
  · rw [hrsm, hrbm, hreserves]
    exact hall.reserves
  · intro r hr
    exact (hv.held r hr).source_ne (hp.transfer_ok hpaid) huser

/-! ## Custody is kept -/

/-- What another pool's signer does to the ledger leaves a pool's vaults
alone: writing one pool, it is enough to look at its own. -/
theorem Custody.setPool (hs : Custody env s) {key : Pubkey} {pool pool' : Pool}
    {l : Ledger Pubkey Pubkey} (hpool : s.pools.lookup key = some pool)
    (hspares : ∀ k, env.signerPda k ≠ env.signerPda key →
      Spares s.ledger l (env.signerPda k))
    (hv : Vaulted env l key pool') : Custody env ((s.setLedger l).setPool key pool') where
  vaulted := by
    intro k p hk
    rcases Store.lookup_insert_cases hk with ⟨rfl, rfl⟩ | ⟨hne, hk⟩
    · exact hv
    · exact (hs.vaulted k p hk).spared
        (hspares k (fun he => hne (hs.signers _ _ _ _ hk hpool he)))
  signers := by
    intro k k' p p' hk hk' he
    have hexists : ∀ k p, ((s.setLedger l).setPool key pool').pools.lookup k = some p →
        ∃ q, s.pools.lookup k = some q := by
      intro k p hk
      rcases Store.lookup_insert_cases hk with ⟨rfl, -⟩ | ⟨-, hk⟩
      · exact ⟨pool, hpool⟩
      · exact ⟨p, hk⟩
    obtain ⟨q, hq⟩ := hexists k p hk
    obtain ⟨q', hq'⟩ := hexists k' p' hk'
    exact hs.signers k k' q q' hq hq' he

/-- What spares every pool's signer. -/
theorem Custody.spared (hs : Custody env s) (hpools : s'.pools = s.pools)
    (hspares : ∀ k, Spares s.ledger s'.ledger (env.signerPda k)) : Custody env s' where
  vaulted := fun k p hk => (hs.vaulted k p (hpools ▸ hk)).spared (hspares k)
  signers := fun k k' p p' hk hk' =>
    hs.signers k k' p p' (hpools ▸ hk) (hpools ▸ hk')

section Kept

variable (hp : env.tokenProgram.Lawful)
  (hcurve : ∀ key, env.isOnCurve (env.signerPda key) = false)

include hp hcurve

theorem DepositMoved.custody {accs : DepositLiquidity} {limits : List TokenLimit}
    {pool pool' : Pool} {supply lp : TokenAmount} {result : DepositResult}
    {orders : List (TransferOrder Pubkey)} {ledger : Ledger Pubkey Pubkey} (hs : Custody env s)
    (huser : env.isOnCurve accs.user = true)
    (h : DepositMoved env s accs limits s' pool pool' supply lp result orders ledger) :
    Custody env s' := by
  have hv := hs.vaulted _ _ h.before
  have hauth : ∀ k, ∀ o ∈ orders, o.authority ≠ env.signerPda k := by
    intro k o ho he
    rw [h.authority o ho] at he
    rw [he, hcurve] at huser
    cases huser
  have hminted := hp.mintTo_ok h.mints
  rw [h.state]
  refine hs.setPool h.before (fun k _ =>
    (transferAll_spares hp h.transfers (hauth k)).trans (.of_minted hminted)) ?_
  obtain ⟨p, hd, hu⟩ := h.plan
  refine hv.moved ((updateCurveInvariant_reserves hu).2 (deposit_wellFormed hv.wellFormed hd))
    h.reserves (fun k m hk => ?_) (fun r hr => ?_)
  · exact (transferAll_held hp h.transfers hk).frame hminted.toFrame
  · have hbalances := transferAll_balances (k := r.vault) hp h.transfers
    rw [transferAll_sent_eq_zero hp h.transfers (hv.held r hr) (hauth _)] at hbalances
    have hreceived : received orders r.vault = _ := h.once.amounts hv hr
    have hb := hminted.balances r.vault
    omega

theorem RedemptionMoved.custody {accs : RedeemLiquidity} {burned : TokenAmount}
    {limits : List TokenLimit} {pool pool' : Pool} {supply : TokenAmount}
    {tokens : BTreeMap TokenAmount} {orders : List (TransferOrder Pubkey)}
    {ledger : Ledger Pubkey Pubkey} (hs : Custody env s)
    (huser : env.isOnCurve accs.user = true)
    (h : RedemptionMoved env s accs burned limits s' pool pool' supply tokens orders ledger) :
    Custody env s' := by
  have hv := hs.vaulted _ _ h.before
  have hne : ∀ k, some accs.user ≠ some (env.signerPda k) := by
    intro k he
    rw [Option.some.inj he, hcurve] at huser
    cases huser
  have hburn : ∀ k, Spares ledger s'.ledger (env.signerPda k) := fun k =>
    .of_op (o := .burn accs.lpMint accs.lpTokenWallet accs.user burned) hp h.burns (hne k)
  rw [h.state]
  refine hs.setPool h.before (fun k hk => (transferAll_spares hp h.transfers (fun o ho => ?_)).trans
    (hburn k)) ?_
  · rw [h.authority o ho]
    exact Ne.symm hk
  obtain ⟨p, hr, hu⟩ := h.plan
  refine hv.moved ((updateCurveInvariant_reserves hu).2
      ((redeemed hv.wellFormed hr).moved.wellFormed hv.wellFormed))
    h.reserves (fun k m hk => ?_) (fun r hr => ?_)
  · exact (hburn _ k m (transferAll_held hp h.transfers hk)).1
  · have hbalances := transferAll_balances (k := r.vault) hp h.transfers
    have hsent : sent orders r.vault = _ := h.once.amounts hv hr
    have hb := (hburn _ _ _ (transferAll_held hp h.transfers (hv.held r hr))).2
    omega

theorem SwapMoved.custody {accs : Swap} {sell : TokenAmount} {pool pool' : Pool}
    {sold boughtOf : Reserve} {fee bought : TokenAmount} {toll : Option TokenAmount}
    {paid received : Ledger Pubkey Pubkey} (hs : Custody env s)
    (huser : env.isOnCurve accs.user = true) (hwf : pool'.WellFormed)
    (h : SwapMoved env s accs sell s' pool pool' sold boughtOf fee bought toll paid received) :
    Custody env s' := by
  have hv := hs.vaulted _ _ h.before
  have hpaid := hp.transfer_ok h.pays
  have hreceived := hp.transfer_ok h.receives
  have hpays : ∀ k, Spares s.ledger paid (env.signerPda k) := by
    refine fun k => .of_op (o := .transfer accs.sellWallet accs.sellVault accs.user sell) hp
      h.pays (fun he => ?_)
    rw [Option.some.inj he, hcurve] at huser
    cases huser
  have htoll : ∀ k, Spares received s'.ledger (env.signerPda k) := by
    have htolls := h.tolls
    unfold payToll at htolls
    intro k
    cases toll with
    | none =>
        rw [pure_eq_ok] at htolls
        rw [← htolls]
        exact .refl _ _
    | some tokens => exact .of_minted (hp.mintTo_ok (okOr_eq_ok.mp htolls))
  rw [h.state]
  refine hs.setPool h.before (fun k hk => ?_) ?_
  · refine ((hpays k).trans ?_).trans (htoll k)
    exact .of_op (o := .transfer accs.buyVault accs.buyWallet (env.signerPda accs.pool) bought) hp
      h.receives (fun he => hk (Option.some.inj he).symm)
  · have hkept : ∀ k m, Held s.ledger k m (env.signerPda accs.pool) →
        Held received k m (env.signerPda accs.pool) := fun k m hk =>
      (hk.frame hpaid.toFrame).frame hreceived.toFrame
    refine hv.moved hwf h.reserves (fun k m hk => (htoll _ k m (hkept k m hk)).1) (fun r hr => ?_)
    have hb₁ := hpaid.balances r.vault
    have hb₂ := hreceived.balances r.vault
    have hb₃ := (htoll _ _ _ (hkept _ _ (hv.held r hr))).2
    rw [if_neg (Ne.symm (h.outside r hr)), ← h.sells.2] at hb₁
    rw [← h.buys.2.1] at hb₂
    -- a vault moves when its reserve's mint is the one sold or bought
    simp only [single, hv.mint_iff_vault hr h.sells.1, hv.mint_iff_vault hr h.buys.1]
    split_ifs at hb₁ hb₂ ⊢ <;> omega

end Kept

/-! ## Creating a pool -/

/-- The reserves of a new pool record all that their vaults hold. -/
theorem createReserve_held {signer : Pubkey} {noSupply : Bool} {vaults : List Pubkey}
    {reserves : List Reserve}
    (h : vaults.foldlM (createReserve s signer noSupply) [] = .ok reserves) :
    ∀ r ∈ reserves, Held s.ledger r.vault r.mint signer
      ∧ r.tokens.val = s.ledger.balance r.vault := by
  refine foldlM_invariant (f := createReserve s signer noSupply)
    (P := fun _ rs => ∀ r ∈ rs, Held s.ledger r.vault r.mint signer
      ∧ r.tokens.val = s.ledger.balance r.vault) ?_ vaults [] [] reserves
    (fun r hr => by cases hr) h
  intro done key rs rs' hrs hstep r hr
  simp only [createReserve, AmmState.tokenAccount, bind_eq_ok, okOr_eq_ok, ensure_eq_ok,
    pure_eq_ok] at hstep
  obtain ⟨_, ⟨vault, hvault, rfl⟩, -, -, -, -, -, -, -, hclose, -, hdelegate, -, howner, -, -,
    rfl⟩ := hstep
  rcases List.mem_append.mp hr with hr | hr
  · exact hrs r hr
  · rw [List.mem_singleton] at hr
    subst hr
    exact ⟨⟨vault, hvault, rfl, howner, hdelegate, hclose⟩,
      (Ledger.balance_of_lookup hvault).symm⟩

theorem createPool_vaulted {accs : CreatePool} {amplifier : U64}
    (h : createPool env s accs amplifier = .ok s') :
    s.pools.lookup accs.pool = none
      ∧ ∃ pool, s' = s.setPool accs.pool pool ∧ Vaulted env s.ledger accs.pool pool := by
  obtain ⟨lpMint, pool, hc⟩ := created h
  obtain ⟨_, reserves, hnew, -, -, hres, -, hfour, rfl⟩ := createPool_ok h
  have hheld := createReserve_held hres
  -- the pool of `Created` is the one that was stored
  have hpool := congrArg (fun t : AmmState => t.pools.lookup accs.pool) hc.state
  simp only [AmmState.setPool_pools, AList.lookup_insert, Option.some.injEq] at hpool
  have hactive : (newPool env accs amplifier reserves).activeReserves = reserves :=
    newPool_activeReserves accs amplifier hfour
  rw [← hactive, hpool] at hheld
  exact ⟨hnew, pool, hc.state,
    { wellFormed := hc.wellFormed
      held := fun r hr => (hheld r hr).1
      covered := fun r hr => Nat.le_of_eq (hheld r hr).2 }⟩

/-! ## Runs -/

/-- A pool is created at a key whose derived address no other pool has:
derived addresses of different keys differ. -/
def DistinctSigners (env : Env) (s : AmmState) : Instr → Prop
  | .createPool accs _ => ∀ e ∈ s.pools.entries, env.signerPda e.1 ≠ env.signerPda accs.pool
  | _ => True

theorem createPool_custody (hs : Custody env s) {accs : CreatePool} {amplifier : U64}
    (hdistinct : DistinctSigners env s (.createPool accs amplifier))
    (h : createPool env s accs amplifier = .ok s') : Custody env s' := by
  obtain ⟨-, pool, rfl, hv⟩ := createPool_vaulted h
  have hother : ∀ k p, s.pools.lookup k = some p → env.signerPda k ≠ env.signerPda accs.pool :=
    fun k p hk => hdistinct ⟨k, p⟩ ((List.mem_dlookup_iff s.pools.nodupKeys).mp hk)
  refine ⟨Store.forall_insert hs.vaulted hv, fun k k' p p' hk hk' he => ?_⟩
  · rcases Store.lookup_insert_cases hk with ⟨rfl, -⟩ | ⟨-, hk⟩
    · rcases Store.lookup_insert_cases hk' with ⟨rfl, -⟩ | ⟨-, hk'⟩
      · rfl
      · exact absurd he.symm (hother k' p' hk')
    · rcases Store.lookup_insert_cases hk' with ⟨rfl, -⟩ | ⟨-, hk'⟩
      · exact absurd he (hother k p hk)
      · exact hs.signers k k' p p' hk hk' he

/-- Who signs a call of the token program. -/
theorem Instr.tokenOp_signer {i : Instr} {op : TokenOp Pubkey Pubkey} (h : i.tokenOp = some op) :
    op.signer = i.signer ∨ ∃ key account, op = .openAccount key account := by
  cases i <;> cases h <;> first | exact .inl rfl | exact .inr ⟨_, _, rfl⟩

section Runs

variable (hp : env.tokenProgram.Lawful)
  (hcurve : ∀ key, env.isOnCurve (env.signerPda key) = false)

include hp hcurve

omit hp in
/-- Who signs is no derived address. -/
theorem ne_signerPda {user : Pubkey} (hu : env.isOnCurve user = true) (key : Pubkey) :
    user ≠ env.signerPda key := by
  rintro rfl
  rw [hcurve] at hu
  cases hu

/-- **The step**: no instruction takes from a vault what its pool still
records. -/
theorem step_custody (hs : Custody env s) {i : Instr} (hi : DistinctSigners env s i)
    (h : step env s i = .ok s') : Custody env s' := by
  obtain ⟨hsigner, he⟩ := step_ok h
  cases he with
  | settings hpools hledger =>
      exact hs.spared hpools (fun k => hledger ▸ .refl _ _)
  | createPool h => exact createPool_custody hs hi h
  | setPoolSwapFee hpool _ =>
      have hv := hs.vaulted _ _ hpool
      exact hs.setPool (l := s.ledger) hpool (fun _ _ => .refl _ _)
        ⟨⟨hv.wellFormed.slots, hv.wellFormed.two_le, hv.wellFormed.le_max,
          hv.wellFormed.mints_nodup⟩, hv.held, hv.covered⟩
  | depositLiquidity h =>
      obtain ⟨_, _, _, _, _, _, _, hmoved⟩ :=
        depositLiquidity_moved hs (ne_signerPda hcurve (hsigner _ rfl) _) h
      exact hmoved.custody hp hcurve hs (hsigner _ rfl)
  | redeemLiquidity h =>
      obtain ⟨_, _, _, _, _, _, hmoved⟩ :=
        redeemLiquidity_moved hs (ne_signerPda hcurve (hsigner _ rfl) _) h
      exact hmoved.custody hp hcurve hs (hsigner _ rfl)
  | swap h =>
      obtain ⟨_, _, _, _, _, _, _, _, _, hmoved, hwf⟩ :=
        swap_moved hp hs (ne_signerPda hcurve (hsigner _ rfl) _) h
      exact hmoved.custody hp hcurve hs (hsigner _ rfl) hwf
  | token hop hl =>
      refine hs.spared rfl (fun k => ?_)
      rcases Instr.tokenOp_signer hop with hsame | ⟨key, account, rfl⟩
      · exact .of_op hp hl (fun hk => ne_signerPda hcurve (hsigner _ (hsame ▸ hk)) k rfl)
      · exact .of_openAccount hl

theorem run_custody (hs : Custody env s) {is : List Instr}
    (his : Machine.Guarded (step env) (DistinctSigners env) s is) :
    Custody env (Machine.run (step env) s is) :=
  Machine.run_invariant (fun _ _ _ hI hG h => step_custody hp hcurve hI hG h) hs his

/-- **Solvency.** In every state reached from one without pools, every
reserve's tokens are in its vault; and what a deposit, a redemption or a
swap does to the reserves it does to the vaults, once each. -/
theorem vaults_cover_reserves (hstart : s.pools = ∅) {is : List Instr}
    (his : Machine.Guarded (step env) (DistinctSigners env) s is) :
    let t := Machine.run (step env) s is
    (∀ key pool, t.pools.lookup key = some pool →
        ∀ r ∈ pool.activeReserves, r.tokens.val ≤ t.ledger.balance r.vault)
    ∧ (∀ accs limits t', step env t (.depositLiquidity accs limits) = .ok t' →
        ∃ pool pool' supply lp result orders ledger,
          DepositMoved env t accs limits t' pool pool' supply lp result orders ledger)
    ∧ (∀ accs burned limits t', step env t (.redeemLiquidity accs burned limits) = .ok t' →
        ∃ pool pool' supply tokens orders ledger,
          RedemptionMoved env t accs burned limits t' pool pool' supply tokens orders ledger)
    ∧ (∀ accs sell minBuy t', step env t (.swap accs sell minBuy) = .ok t' →
        ∃ pool pool' sold boughtOf fee bought toll paid received,
          SwapMoved env t accs sell t' pool pool' sold boughtOf fee bought toll paid
            received) := by
  intro t
  have hc : Custody env t := by
    refine run_custody hp hcurve ⟨fun key pool hkey => ?_, fun key _ pool _ hkey => ?_⟩ his
    · rw [hstart] at hkey
      cases hkey
    · rw [hstart] at hkey
      cases hkey
  refine ⟨fun key pool hkey => (hc.vaulted key pool hkey).covered, ?_, ?_, ?_⟩
  · intro accs limits t' h
    obtain ⟨hsigner, -⟩ := step_ok h
    simp only [step, bind_eq_ok] at h
    obtain ⟨-, -, h⟩ := h
    exact depositLiquidity_moved hc (ne_signerPda hcurve (hsigner _ rfl) _) h
  · intro accs burned limits t' h
    obtain ⟨hsigner, -⟩ := step_ok h
    simp only [step, bind_eq_ok] at h
    obtain ⟨-, -, h⟩ := h
    exact redeemLiquidity_moved hc (ne_signerPda hcurve (hsigner _ rfl) _) h
  · intro accs sell minBuy t' h
    obtain ⟨hsigner, -⟩ := step_ok h
    simp only [step, bind_eq_ok] at h
    obtain ⟨-, -, h⟩ := h
    obtain ⟨_, _, _, _, _, _, _, _, _, hmoved, -⟩ :=
      swap_moved hp hc (ne_signerPda hcurve (hsigner _ rfl) _) h
    exact ⟨_, _, _, _, _, _, _, _, _, hmoved⟩

end Runs

/-- A pool that was created and funded: a thousand tokens in each vault. -/
theorem vaults_cover_reserves_funded :
    (∀ key pool, (Machine.run (step sampleEnv) (listedState 0 0)
        [createStable, depositThousand]).pools.lookup key = some pool →
      ∀ r ∈ pool.activeReserves, r.tokens.val ≤ (Machine.run (step sampleEnv) (listedState 0 0)
        [createStable, depositThousand]).ledger.balance r.vault)
      ∧ (Machine.run (step sampleEnv) (listedState 0 0)
        [createStable, depositThousand]).ledger.balance 12 = 1000 := by
  have hguarded : Machine.Guarded (step sampleEnv) (DistinctSigners sampleEnv) (listedState 0 0)
      [createStable, depositThousand] := by
    refine ⟨?_, trivial, trivial⟩
    intro e he
    cases he
  exact ⟨(vaults_cover_reserves Reference.lawful (fun key => by rfl) rfl hguarded).1,
    by decide +kernel⟩

end SolanaAmm.Amm
