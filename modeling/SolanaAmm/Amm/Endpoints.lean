import SolanaAmm.Amm.Pool
import SolanaAmm.Lib.Machine
import SolanaAmm.Lib.Token

/-!
# Amm — Endpoints

The program as a state machine. The state holds the program's accounts,
the token ledger and the clock; an instruction is an endpoint call with
the accounts and arguments its caller chooses, or something that happens
outside the program. Anchor deserialises the accounts when an endpoint is
entered and writes the pool back when it returns, so amounts are read
from the ledger at entry while the transfers thread it.
-/

namespace SolanaAmm.Amm

open Result Decimal Token

/-- What the program calls and does not define. -/
structure Env where
  powSqrt : PowSqrt
  tokenProgram : TokenProgram Pubkey Pubkey
  /-- The address derived from a pool, which signs for the pool. -/
  signerPda : Pubkey → Pubkey
  /-- Whether a key lies on the curve: derived addresses do not, so nobody
  holds a key for them. -/
  isOnCurve : Pubkey → Bool

structure Discount where
  amount : Permillion
  validUntil : Slot
deriving DecidableEq

def Discount.doesApply (d : Discount) (time : Slot) : Bool :=
  0 < d.amount.permillion && time ≤ d.validUntil

structure AmmState where
  /-- Who can upgrade the program. -/
  upgradeAuthority : Pubkey
  /-- The singleton `ProgramToll`: its authority. -/
  programToll : Option Pubkey
  /-- The singleton `DiscountSettings`: its authority. -/
  discountSettings : Option Pubkey
  /-- The discount accounts, by user. -/
  discounts : Store Pubkey Discount
  pools : Store Pubkey Pool
  ledger : Ledger Pubkey Pubkey
  slot : Slot

/-- A token account as an endpoint sees it: its key and its data at entry. -/
structure LoadedAccount where
  key : Pubkey
  data : TokenAccount Pubkey Pubkey

namespace AmmState

def tokenAccount (s : AmmState) (key : Pubkey) : Except AmmError LoadedAccount := do
  let data ← okOr (s.ledger.accounts.lookup key) .anchor
  pure { key, data }

def mint (s : AmmState) (key : Pubkey) : Except AmmError (Mint Pubkey) :=
  okOr (s.ledger.mints.lookup key) .anchor

def pool (s : AmmState) (key : Pubkey) : Except AmmError Pool :=
  okOr (s.pools.lookup key) .anchor

def setPool (s : AmmState) (key : Pubkey) (pool : Pool) : AmmState :=
  { s with pools := s.pools.insert key pool }

def setLedger (s : AmmState) (ledger : Ledger Pubkey Pubkey) : AmmState :=
  { s with ledger }

@[simp] theorem setPool_pools (s : AmmState) (key : Pubkey) (pool : Pool) :
    (s.setPool key pool).pools = s.pools.insert key pool := rfl

@[simp] theorem setPool_ledger (s : AmmState) (key : Pubkey) (pool : Pool) :
    (s.setPool key pool).ledger = s.ledger := rfl

@[simp] theorem setLedger_pools (s : AmmState) (ledger : Ledger Pubkey Pubkey) :
    (s.setLedger ledger).pools = s.pools := rfl

@[simp] theorem setLedger_ledger (s : AmmState) (ledger : Ledger Pubkey Pubkey) :
    (s.setLedger ledger).ledger = ledger := rfl

end AmmState

/-- `chunks(2)`, of an even number of accounts. -/
def chunksOfTwo {α : Type} : List α → List (α × α)
  | a :: b :: l => (a, b) :: chunksOfTwo l
  | _ => []

section Endpoints

variable (env : Env)

/-! ## create_program_toll, create_discount_settings, put_discount -/

def createProgramToll (s : AmmState) (programAuthority tollAuthority : Pubkey) :
    Except AmmError AmmState := do
  ensure (s.upgradeAuthority = programAuthority) (acc "Signer isn't program's authority")
  ensure (s.programToll = none) .anchor
  pure { s with programToll := some tollAuthority }

def createDiscountSettings (s : AmmState) (programAuthority settingsAuthority : Pubkey) :
    Except AmmError AmmState := do
  ensure (s.upgradeAuthority = programAuthority) (acc "Signer isn't program's authority")
  ensure (s.discountSettings = none) .anchor
  pure { s with discountSettings := some settingsAuthority }

/-- `Permillion::from_percent(100)` -/
def maxDiscount : Permillion := ⟨1000000⟩

def putDiscount (s : AmmState) (authority : Pubkey) (isWritable : Bool) (user : Pubkey)
    (discountAmount : Permillion) (validUntil : Slot) : Except AmmError AmmState := do
  let settings ← okOr s.discountSettings .anchor
  ensure (authority = settings)
    (acc "The authority must be the discount settings authority")
  ensure (s.slot < validUntil)
    (arg "The slot until which the discount is valid must be in the future")
  ensure (discountAmount.permillion ≤ maxDiscount.permillion)
    (arg "Maximum discount can be 100%, ie. 1,000,000 permillion")
  ensure (s.discounts.lookup user ≠ none ∨ isWritable = true)
    (acc "Authority must be writable because discount account doesn't exist yet")
  pure { s with discounts := s.discounts.insert user ⟨discountAmount, validUntil⟩ }

/-! ## create_pool -/

structure CreatePool where
  admin : Pubkey
  pool : Pubkey
  programTollWallet : Pubkey
  lpMint : Pubkey
  /-- The vaults. -/
  remainingAccounts : List Pubkey

/-- One iteration of the loop over the vaults: check the vault and append
its reserve. -/
def createReserve (s : AmmState) (poolSigner : Pubkey) (isLpMintWithoutSupply : Bool)
    (reserves : List Reserve) (vaultKey : Pubkey) : Except AmmError (List Reserve) := do
  let vault ← s.tokenAccount vaultKey
  let vault := vault.data
  ensure (¬ (isLpMintWithoutSupply = true ∧ vault.amount ≠ 0))
    (acc "If LP mint supply is zero, then vault amount must too")
  ensure (¬ (isLpMintWithoutSupply = false ∧ vault.amount = 0))
    (acc "If LP mint supply is not zero then vault amount mustn't either")
  ensure (vault.mint ∉ reserves.map (·.mint)) (acc "Duplicate reserve mint")
  ensure (vault.closeAuthority = none) (acc "Vault mustn't have a close authority")
  ensure (vault.delegate = none) (acc "Vault mustn't have a delegate")
  ensure (vault.owner = poolSigner) (acc "Vault owner must be pool signer")
  ensure (vault.isFrozen = false) (acc "Vault mustn't be frozen")
  pure (reserves ++ [{ tokens := vault.amount, mint := vault.mint, vault := vaultKey }])

def createPool (s : AmmState) (accs : CreatePool) (amplifier : U64) :
    Except AmmError AmmState := do
  ensure (s.pools.lookup accs.pool = none) .anchor
  let programToll ← okOr s.programToll .anchor
  let tollWallet ← s.tokenAccount accs.programTollWallet
  let lpMint ← s.mint accs.lpMint
  let poolSigner := env.signerPda accs.pool
  ensure (tollWallet.data.mint = accs.lpMint) (acc "Toll wallet must be of LP mint")
  ensure (tollWallet.data.owner = programToll)
    (acc "Toll wallet authority must match program toll authority")
  ensure (lpMint.mintAuthority = some poolSigner)
    (acc "LP mint authority must be the pool signer")
  ensure (lpMint.freezeAuthority = none) (acc "LP mint mustn't have a freeze authority")
  let curve := if amplifier = 0 then .constProd else .stable amplifier Decimal.zero
  ensure (accs.remainingAccounts.length ≤ MAX_RESERVES) (acc "Too many reserves")
  let reserves ← accs.remainingAccounts.foldlM
    (createReserve s poolSigner (lpMint.supply = 0)) []
  ensure (2 ≤ reserves.length) (acc "At least 2 vaults must be provided")
  pure (s.setPool accs.pool
    { admin := accs.admin
      signer := poolSigner
      mint := accs.lpMint
      programTollWallet := accs.programTollWallet
      dimension := Word.wrap reserves.length
      reserves := reserves ++ List.replicate (MAX_RESERVES - reserves.length) default
      curve
      swapFee := ⟨0⟩ })

/-! ## set_pool_swap_fee -/

def setPoolSwapFee (s : AmmState) (admin poolKey : Pubkey) (fee : Permillion) :
    Except AmmError AmmState := do
  let pool ← s.pool poolKey
  ensure (pool.admin = admin) (acc "The signer must match pool's admin")
  ensure (fee.permillion ≤ MAX_SWAP_FEE.permillion)
    (arg "Maximum fee can be 10000 permillion")
  pure (s.setPool poolKey { pool with swapFee := fee })

/-! ## deposit_liquidity and redeem_liquidity -/

/-- The checks that the two liquidity endpoints make of every vault-wallet
pair. -/
def checkVaultWallet (pool : Pool) (user : Pubkey) (vault wallet : LoadedAccount) :
    Except AmmError Unit := do
  ensure (vault.data.mint = wallet.data.mint)
    (acc "Each vault wallet pair must match in mint")
  ensure (wallet.data.owner = user) (acc "User must be authority over all wallets")
  ensure (pool.activeReserves.any (fun r => r.vault = vault.key))
    (acc
      "At least one of the vaults in remaining account does not correspond to any vaul in the pool reserves")

def mintNotInPool (mint : Pubkey) : AmmError :=
  acc ("Mint '" ++ mint.display ++ "' is not part of this pool")

def remainingAccsLength (dimension : U64) : AmmError :=
  acc ("The remaining accs must be of length " ++ toString (2 * dimension.val))

/-- How many different mints the accounts have. -/
def uniqueMints (accounts : List LoadedAccount) : ℕ :=
  (accounts.map (·.data.mint)).dedup.length

structure DepositLiquidity where
  user : Pubkey
  pool : Pubkey
  lpMint : Pubkey
  lpTokenWallet : Pubkey
  /-- Pairs of a vault of the pool and a wallet of the user. -/
  remainingAccounts : List Pubkey

def depositTransfer (pool : Pool) (user : Pubkey) (tokensToDeposit : BTreeMap TokenAmount)
    (ledger : Ledger Pubkey Pubkey) (pair : LoadedAccount × LoadedAccount) :
    Except AmmError (Ledger Pubkey Pubkey) := do
  let (vault, wallet) := pair
  checkVaultWallet pool user vault wallet
  let tokens ← okOr tokensToDeposit[vault.data.mint]? (mintNotInPool vault.data.mint)
  ensure (tokens ≤ wallet.data.amount)
    (.invalidArg "Not enough funds in user wallet for this deposit")
  okOr (env.tokenProgram.transfer ledger wallet.key vault.key user tokens) .tokenProgram

def depositLiquidity (s : AmmState) (accs : DepositLiquidity)
    (maxAmountTokens : List TokenLimit) : Except AmmError AmmState := do
  let pool ← s.pool accs.pool
  let poolSigner := env.signerPda accs.pool
  let lpMint ← s.mint accs.lpMint
  ensure (accs.lpMint = pool.mint) (acc "LP mint must match pool's mint")
  let lpTokenWallet ← s.tokenAccount accs.lpTokenWallet
  ensure (lpTokenWallet.data.mint = pool.mint)
    (acc "LP wallet must be of the same mint as pool's mint")
  let vaultsWallets ← accs.remainingAccounts.mapM s.tokenAccount
  ensure (uniqueMints vaultsWallets = pool.dimension.val)
    (acc "Invalid use of API, same mint deposit for different tokens")
  ensure (vaultsWallets.length = 2 * pool.dimension.val)
    (remainingAccsLength pool.dimension)
  let maxTokens := limitsMap maxAmountTokens
  pool.checkAmountTokensIsValid maxTokens
  let (pool, result) ← pool.depositTokens maxTokens lpMint.supply
  let lpTokens ← okOr result.lpTokensToDistribute
    (.invalidArg "Provided liquidity is too small to be represented")
  let ledger ← (chunksOfTwo vaultsWallets).foldlM
    (depositTransfer env pool accs.user result.tokensToDeposit) s.ledger
  let ledger ← okOr (env.tokenProgram.mintTo ledger accs.lpMint accs.lpTokenWallet
    poolSigner lpTokens) .tokenProgram
  let pool ← pool.updateCurveInvariant env.powSqrt
  pure ((s.setLedger ledger).setPool accs.pool pool)

structure RedeemLiquidity where
  user : Pubkey
  pool : Pubkey
  lpMint : Pubkey
  lpTokenWallet : Pubkey
  /-- Pairs of a vault of the pool and a wallet of the user. -/
  remainingAccounts : List Pubkey

def redeemTransfer (poolSigner : Pubkey) (pool : Pool) (user : Pubkey)
    (tokensToRedeem : BTreeMap TokenAmount) (ledger : Ledger Pubkey Pubkey)
    (pair : LoadedAccount × LoadedAccount) : Except AmmError (Ledger Pubkey Pubkey) := do
  let (vault, wallet) := pair
  checkVaultWallet pool user vault wallet
  let tokens ← okOr tokensToRedeem[vault.data.mint]? (mintNotInPool vault.data.mint)
  okOr (env.tokenProgram.transfer ledger vault.key wallet.key poolSigner tokens)
    .tokenProgram

def redeemLiquidity (s : AmmState) (accs : RedeemLiquidity) (lpTokensToBurn : TokenAmount)
    (minAmountTokens : List TokenLimit) : Except AmmError AmmState := do
  let pool ← s.pool accs.pool
  let poolSigner := env.signerPda accs.pool
  let lpMint ← s.mint accs.lpMint
  ensure (accs.lpMint = pool.mint) (acc "LP mint must match pool's mint")
  let lpTokenWallet ← s.tokenAccount accs.lpTokenWallet
  ensure (lpTokenWallet.data.mint = pool.mint)
    (acc "LP wallet must be of the same mint as pool's mint")
  let vaultsWallets ← accs.remainingAccounts.mapM s.tokenAccount
  ensure (uniqueMints vaultsWallets = pool.dimension.val)
    (acc ("There must be exactly " ++ toString pool.dimension.val ++
      " unique mints in remaining accs, not " ++ toString (uniqueMints vaultsWallets)))
  ensure (lpTokensToBurn ≤ lpMint.supply)
    (arg "The amount of lp tokens to burn cannot surpass current supply.")
  ensure (lpTokensToBurn ≤ lpTokenWallet.data.amount) .invalidLpTokenAmount
  ensure (vaultsWallets.length = 2 * pool.dimension.val)
    (remainingAccsLength pool.dimension)
  let minTokens := limitsMap minAmountTokens
  pool.checkAmountTokensIsValid minTokens
  let (pool, tokensToRedeem) ← pool.redeemTokens minTokens lpTokensToBurn lpMint.supply
  let ledger ← (chunksOfTwo vaultsWallets).foldlM
    (redeemTransfer env poolSigner pool accs.user tokensToRedeem) s.ledger
  let ledger ← okOr (env.tokenProgram.burn ledger accs.lpMint accs.lpTokenWallet
    accs.user lpTokensToBurn) .tokenProgram
  let pool ← pool.updateCurveInvariant env.powSqrt
  pure ((s.setLedger ledger).setPool accs.pool pool)

/-! ## swap -/

/-- The share of the fee that a discounted user pays. -/
def discountedFeeShare (time : Slot) (discount : Option Discount) (share : Decimal) :
    Except AmmError Decimal :=
  match discount with
  | none => pure share
  | some d =>
      if d.doesApply time then do
        let off ← tryMul share d.amount.toDecimal
        trySub share off
      else pure share

def calculateSwapFee (time : Slot) (sell : TokenAmount) (swapFeeShare : Permillion)
    (discount : Option Discount) : Except AmmError TokenAmount := do
  let share ← discountedFeeShare time discount swapFeeShare.toDecimal
  let fee ← tryMul (ofU64 sell) share
  tryCeil fee

/-- The LP tokens for the toll, by a deposit that is only pretended. -/
def calculateTollInLpTokens (pool : Pool) (swapFee : TokenAmount) (sellMint : Pubkey)
    (lpSupply : TokenAmount) : Except AmmError (Option TokenAmount) := do
  let toll ← tryMul (ofU64 swapFee) PROGRAM_TOLL_SWAP_FEE_SHARE.toDecimal
  let share ← tryDiv toll (ofU64 pool.dimension)
  let tollInSellTokens ← tryRound share
  if tollInSellTokens = 0 then pure none
  else do
    let maxDeposits := .ofList (pool.activeReserves.map (fun r =>
      (r.mint, if r.mint = sellMint then tollInSellTokens else Word.maxValue)))
    let (_, result) ← pool.depositTokens maxDeposits lpSupply
    pure result.lpTokensToDistribute

structure Swap where
  user : Pubkey
  pool : Pubkey
  sellWallet : Pubkey
  buyWallet : Pubkey
  sellVault : Pubkey
  buyVault : Pubkey
  lpMint : Pubkey
  programTollWallet : Pubkey

/-- The constraints on the accounts of a swap. -/
def checkSwapAccounts (s : AmmState) (accs : Swap) (pool : Pool)
    (sellWallet buyWallet sellVault buyVault : LoadedAccount) : Except AmmError Unit := do
  ensure (sellWallet.data.mint ≠ buyWallet.data.mint)
    (acc "Mint to swap from mustn't equal the mint to swap to")
  ensure (sellWallet.data.mint = sellVault.data.mint)
    (acc "Sell wallet mint must match sell vault mint")
  ensure (buyWallet.data.mint = buyVault.data.mint)
    (acc "Buy wallet mint must match buy vault mint")
  ensure (pool.reserveVault sellVault.data.mint = some accs.sellVault)
    (acc "Sell vault is not reserve's vault")
  ensure (pool.reserveVault buyVault.data.mint = some accs.buyVault)
    (acc "Buy vault is not reserve's vault")
  ensure (pool.mint = accs.lpMint) (acc "LP mint mismatch")
  let lpMint ← s.mint accs.lpMint
  ensure (0 < lpMint.supply) (acc "No liquidity provided yet")
  ensure (pool.programTollWallet = accs.programTollWallet)
    (acc "Program toll wallet mismatch")

/-- Pay the toll in new LP tokens, if there is one. -/
def payToll (ledger : Ledger Pubkey Pubkey) (accs : Swap) (toll : Option TokenAmount) :
    Except AmmError (Ledger Pubkey Pubkey) :=
  match toll with
  | none => pure ledger
  | some tokens =>
      okOr (env.tokenProgram.mintTo ledger accs.lpMint accs.programTollWallet
        (env.signerPda accs.pool) tokens) .tokenProgram

def swap (s : AmmState) (accs : Swap) (sell minBuy : TokenAmount) :
    Except AmmError AmmState := do
  let pool ← s.pool accs.pool
  let sellWallet ← s.tokenAccount accs.sellWallet
  let buyWallet ← s.tokenAccount accs.buyWallet
  let sellVault ← s.tokenAccount accs.sellVault
  let buyVault ← s.tokenAccount accs.buyVault
  let lpMint ← s.mint accs.lpMint
  let _ ← s.tokenAccount accs.programTollWallet
  checkSwapAccounts s accs pool sellWallet buyWallet sellVault buyVault
  let sellMint := sellVault.data.mint
  ensure (sell ≠ 0) (arg "Sell amount mustn't be zero")
  let swapFee ← calculateSwapFee s.slot sell pool.swapFee (s.discounts.lookup accs.user)
  let tokensToSwap ← okOr (sell.checkedSub swapFee) .panicked
  let (pool, bought) ← pool.swap env.powSqrt sellMint tokensToSwap buyVault.data.mint
  -- the fee stays in the pool, as part of the sold reserve
  let pool ← pool.updateReserve sellMint .panicked (fun r => r.addTokens swapFee)
  ensure (minBuy ≤ bought)
    (.slippageExceeded ("For " ++ toString sell.val ++ " would receive " ++
      toString bought.val ++ ", but requested minimum of " ++ toString minBuy.val))
  let ledger ← okOr (env.tokenProgram.transfer s.ledger accs.sellWallet accs.sellVault
    accs.user sell) .tokenProgram
  let ledger ← okOr (env.tokenProgram.transfer ledger accs.buyVault accs.buyWallet
    (env.signerPda accs.pool) bought) .tokenProgram
  let toll ← calculateTollInLpTokens pool swapFee sellMint lpMint.supply
  let ledger ← payToll env ledger accs toll
  let pool ← pool.updateCurveInvariant env.powSqrt
  pure ((s.setLedger ledger).setPool accs.pool pool)

/-! ## Instructions and runs -/

/-- An endpoint call, or one of the things that happen outside the
program: the clock advances, keys are given token accounts and mints, and
their owners call the token program directly. -/
inductive Instr
  | createProgramToll (programAuthority tollAuthority : Pubkey)
  | createDiscountSettings (programAuthority settingsAuthority : Pubkey)
  | putDiscount (authority : Pubkey) (isWritable : Bool) (user : Pubkey)
      (discountAmount : Permillion) (validUntil : Slot)
  | createPool (accs : CreatePool) (amplifier : U64)
  | setPoolSwapFee (admin poolKey : Pubkey) (fee : Permillion)
  | depositLiquidity (accs : DepositLiquidity) (maxAmountTokens : List TokenLimit)
  | redeemLiquidity (accs : RedeemLiquidity) (lpTokensToBurn : TokenAmount)
      (minAmountTokens : List TokenLimit)
  | swap (accs : Swap) (sell minBuy : TokenAmount)
  | tick (slot : Slot)
  | openAccount (key : Pubkey) (account : TokenAccount Pubkey Pubkey)
  | openMint (key : Pubkey) (mint : Mint Pubkey)
  | transfer (source destination authority : Pubkey) (amount : TokenAmount)
  | mintTo (mint destination authority : Pubkey) (amount : TokenAmount)
  | burn (mint source authority : Pubkey) (amount : TokenAmount)
  | setMintAuthority (mint authority : Pubkey) (newAuthority : Option Pubkey)

/-- Who signs an instruction. -/
def Instr.signer : Instr → Option Pubkey
  | .createProgramToll programAuthority _ => some programAuthority
  | .createDiscountSettings programAuthority _ => some programAuthority
  | .putDiscount authority _ _ _ _ => some authority
  | .createPool accs _ => some accs.admin
  | .setPoolSwapFee admin _ _ => some admin
  | .depositLiquidity accs _ => some accs.user
  | .redeemLiquidity accs _ _ => some accs.user
  | .swap accs _ _ => some accs.user
  | .tick _ => none
  | .openAccount _ _ => none
  | .openMint _ _ => none
  | .transfer _ _ authority _ => some authority
  | .mintTo _ _ authority _ => some authority
  | .burn _ _ authority _ => some authority
  | .setMintAuthority _ authority _ => some authority

def dispatch (s : AmmState) : Instr → Except AmmError AmmState
  | .createProgramToll programAuthority tollAuthority =>
      createProgramToll s programAuthority tollAuthority
  | .createDiscountSettings programAuthority settingsAuthority =>
      createDiscountSettings s programAuthority settingsAuthority
  | .putDiscount authority isWritable user discountAmount validUntil =>
      putDiscount s authority isWritable user discountAmount validUntil
  | .createPool accs amplifier => createPool env s accs amplifier
  | .setPoolSwapFee admin poolKey fee => setPoolSwapFee s admin poolKey fee
  | .depositLiquidity accs maxAmountTokens => depositLiquidity env s accs maxAmountTokens
  | .redeemLiquidity accs lpTokensToBurn minAmountTokens =>
      redeemLiquidity env s accs lpTokensToBurn minAmountTokens
  | .swap accs sell minBuy => swap env s accs sell minBuy
  | .tick slot => do
      ensure (s.slot ≤ slot) .panicked
      pure { s with slot }
  | .openAccount key account => do
      ensure (s.ledger.accounts.lookup key = none ∧ account.amount = 0) .tokenProgram
      pure (s.setLedger { s.ledger with accounts := s.ledger.accounts.insert key account })
  | .openMint key mint => do
      ensure (s.ledger.mints.lookup key = none ∧ mint.supply = 0) .tokenProgram
      pure (s.setLedger { s.ledger with mints := s.ledger.mints.insert key mint })
  | .transfer source destination authority amount => do
      let ledger ← okOr (env.tokenProgram.transfer s.ledger source destination authority
        amount) .tokenProgram
      pure (s.setLedger ledger)
  | .mintTo mint destination authority amount => do
      let ledger ← okOr (env.tokenProgram.mintTo s.ledger mint destination authority
        amount) .tokenProgram
      pure (s.setLedger ledger)
  | .burn mint source authority amount => do
      let ledger ← okOr (env.tokenProgram.burn s.ledger mint source authority amount)
        .tokenProgram
      pure (s.setLedger ledger)
  | .setMintAuthority mint authority newAuthority => do
      let ledger ← okOr (env.tokenProgram.setMintAuthority s.ledger mint authority
        newAuthority) .tokenProgram
      pure (s.setLedger ledger)

/-- Execute one instruction; its signer must hold a key. -/
def step (s : AmmState) (i : Instr) : Except AmmError AmmState := do
  ensure (i.signer.all env.isOnCurve) .panicked
  dispatch env s i

end Endpoints

end SolanaAmm.Amm
