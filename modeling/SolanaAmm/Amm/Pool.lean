import SolanaAmm.Amm.SwapEquation

/-!
# Amm — Pool

The methods of `Pool` that move reserves: depositing, redeeming, swapping,
and recomputing the cached invariant of a stable curve. Maps are kept in
key order, which is the order their fallible loops run in.
-/

namespace SolanaAmm.Amm

open Result Decimal

/-- `map(f).collect::<Result<BTreeMap<_, _>>>()` over the pairs of a map. -/
def mapPairs {α β : Type} (f : Pubkey → α → Except AmmError β)
    (l : List (Pubkey × α)) : Except AmmError (BTreeMap β) := do
  let pairs ← l.mapM (fun p => do
    let b ← f p.1 p.2
    pure (p.1, b))
  pure (.ofList pairs)

/-- `values().min()`. -/
def minValue {α : Type} [LinearOrder α] (t : BTreeMap α) : Option α :=
  t.values.min?

/-- `values().max()`. -/
def maxValue {α : Type} [LinearOrder α] (t : BTreeMap α) : Option α :=
  t.values.max?

structure DepositResult where
  /-- `none` when the tokens to deposit are too few for the LP tokens to
  represent. -/
  lpTokensToDistribute : Option TokenAmount
  tokensToDeposit : BTreeMap TokenAmount

namespace Pool

/-- A map that lacks a mint the checks have promised. -/
abbrev missingMint : AmmError := .invariantViolation ""

/-! ## Depositing -/

/-- The largest balance whose ratios are taken the direct way. -/
def invertAbove : TokenAmount := 10000000000

def getDepositRatio (reserves maxDeposits : BTreeMap TokenAmount) :
    Except AmmError (Decimal × Bool) :=
  let isInverted := reserves.values.any (fun t => t > invertAbove)
  if isInverted = false then do
    let ratio ← mapPairs (fun mint maxToken => do
      let tokenReserve ← okOr reserves[mint]? missingMint
      tryDiv (ofU64 maxToken) (ofU64 tokenReserve)) maxDeposits.toList
    let minRatio ← okOr (minValue ratio) missingMint
    pure (minRatio, isInverted)
  else do
    let invertRatio ← mapPairs (fun mint maxToken => do
      let tokenReserve ← okOr reserves[mint]? missingMint
      tryDiv (ofU64 tokenReserve) (ofU64 maxToken)) maxDeposits.toList
    let maxRatio ← okOr (maxValue invertRatio) missingMint
    pure (maxRatio, isInverted)

/-- The tokens of one reserve that are deposited at the given ratio,
rounded up to prevent a deposit of no tokens. -/
def depositAmount (ratio : Decimal) (isInverted : Bool) (tokenReserve : TokenAmount) :
    Except AmmError TokenAmount :=
  if isInverted = false then do
    let amount ← tryMul (ofU64 tokenReserve) ratio
    tryCeil amount
  else do
    let amount ← tryDiv (ofU64 tokenReserve) ratio
    tryCeil amount

/-- The LP tokens for a deposit, by the rule of three over the first
reserve. -/
def getEligibleLpTokens (pool : Pool) (tokensDeposited : BTreeMap TokenAmount)
    (lpMintSupply : TokenAmount) : Except AmmError (Option TokenAmount) := do
  let anyReserve ← okOr pool.reserves.head? .panicked
  let reserveDeposit ← okOr tokensDeposited[anyReserve.mint]? missingMint
  let eligible ← tryMulDiv (ofU64 lpMintSupply) (ofU64 reserveDeposit)
    (ofU64 anyReserve.tokens)
  let tokens ← tryFloor eligible
  pure (if tokens = 0 then none else some tokens)

/-- Add the tokens of every pair to the reserve of its mint. -/
def addAll (pool : Pool) (tokens : List (Pubkey × TokenAmount)) : Except AmmError Pool :=
  tokens.foldlM (fun p mt =>
    p.updateReserve mt.1 missingMint (fun r => r.addTokens mt.2)) pool

/-- What is deposited and what is minted for it, before the reserves
move. -/
def depositPlan (pool : Pool) (maxTokens : BTreeMap TokenAmount)
    (lpMintSupply : TokenAmount) :
    Except AmmError (BTreeMap TokenAmount × Option TokenAmount) :=
  if lpMintSupply = 0 then do
    let lpTokens ← okOr (minValue maxTokens) missingMint
    pure (maxTokens, some lpTokens)
  else do
    let reserves := pool.reservesHashmap
    let (ratio, isInverted) ← getDepositRatio reserves maxTokens
    let tokensToDeposit ← mapPairs (fun _ tokenReserve =>
      depositAmount ratio isInverted tokenReserve) reserves.toList
    let lpTokens ← pool.getEligibleLpTokens tokensToDeposit lpMintSupply
    pure (tokensToDeposit, lpTokens)

def depositTokens (pool : Pool) (maxTokens : BTreeMap TokenAmount)
    (lpMintSupply : TokenAmount) : Except AmmError (Pool × DepositResult) := do
  ensure (¬ maxTokens.values.any (fun v => v = 0))
    (arg "Must deposit positive amount of tokens for each mint")
  ensure (maxTokens.size = pool.dimension.val)
    (arg "Max tokens map does not match pool dimension")
  ensure (¬ pool.activeReserves.any (fun r => ! maxTokens.contains r.mint))
    (arg "Not all reserve mints are represented in the max tokens map")
  let (tokensToDeposit, lpTokensToDistribute) ← pool.depositPlan maxTokens lpMintSupply
  let pool' ← pool.addAll tokensToDeposit.toList
  pure (pool', { lpTokensToDistribute, tokensToDeposit })

/-! ## Redeeming -/

/-- Remove the tokens of every pair from the reserve of its mint. -/
def removeAll (pool : Pool) (tokens : List (Pubkey × TokenAmount)) : Except AmmError Pool :=
  tokens.foldlM (fun p mt =>
    p.updateReserve mt.1 missingMint (fun r => r.removeTokens mt.2)) pool

def redeemTokens (pool : Pool) (minTokens : BTreeMap TokenAmount)
    (lpTokensToBurn lpMintSupply : TokenAmount) :
    Except AmmError (Pool × BTreeMap TokenAmount) := do
  ensure (lpMintSupply ≠ 0) (arg "There are no lp tokens currently in supply.")
  ensure (lpTokensToBurn ≤ lpMintSupply)
    (arg
      "The amount of lp tokens to burn cannot surpass current supply.")
  ensure (minTokens.size = pool.dimension.val)
    (arg "Length of min tokens map does not match pool dimension")
  ensure (¬ pool.activeReserves.any (fun r => ! minTokens.contains r.mint))
    (arg "Not all reserve mints are represented in the min tokens map")
  let weight ← tryDiv (ofU64 lpTokensToBurn) (ofU64 lpMintSupply)
  let tokensToRedeem ← mapPairs (fun _ tokens => do
    let share ← tryMul (ofU64 tokens) weight
    tryFloor share) (pool.activeReserves.map (fun r => (r.mint, r.tokens)))
  let isBelow ← tokensToRedeem.toList.foldlM (fun below mt =>
    if below then pure true
    else do
      let minToken ← okOr minTokens[mt.1]? .panicked
      pure (mt.2 < minToken : Bool)) false
  ensure (isBelow = false)
    (arg
      "The amount of tokens to be redeemed is below the min_tokens parameter for at least one of the reserves.")
  let pool' ← pool.removeAll tokensToRedeem.toList
  pure (pool', tokensToRedeem)

/-! ## The cached invariant -/

/-- The invariant a stable curve should store for the given reserves:
zero when one of them is empty. -/
def freshInvariant (m : PowSqrt) (amplifier : U64) (reserves : List TokenAmount) :
    Except AmmError Decimal :=
  if reserves.any (fun tokens => tokens = 0) then pure Decimal.zero
  else computeInvariant m amplifier reserves

def updateCurveInvariant (m : PowSqrt) (pool : Pool) : Except AmmError Pool :=
  match pool.curve with
  | .constProd => pure pool
  | .stable amplifier _ => do
      let invariant ← freshInvariant m amplifier (pool.activeReserves.map (·.tokens))
      pure { pool with curve := .stable amplifier invariant }

def checkAmountTokensIsValid (pool : Pool) (amountTokens : BTreeMap TokenAmount) :
    Except AmmError Unit :=
  let numAvailableMints :=
    (pool.activeReserves.filter (fun r => amountTokens.contains r.mint)).length
  ensure (numAvailableMints = amountTokens.size) .invalidTokenMints

/-! ## Swapping -/

/-- The balances after the swap of every reserve but the bought one. -/
def soldOrNeutralBalances (reserves : BTreeMap TokenAmount) (sellMint : Pubkey)
    (tokensToSwap : TokenAmount) (buyMint : Pubkey) : Except AmmError (List Decimal) :=
  (reserves.toList.filter (fun mt => mt.1 ≠ buyMint)).mapM (fun mt =>
    if mt.1 = sellMint then do
      let sum ← okOr (mt.2.checkedAdd tokensToSwap) .panicked
      pure (ofU64 sum)
    else pure (ofU64 mt.2))

/-- The balance of the bought reserve after the swap, by the curve. -/
def boughtBalanceAfterSwap (m : PowSqrt) (curve : Curve)
    (reserves : BTreeMap TokenAmount) (balances : List Decimal) (product : Decimal) :
    Except AmmError Decimal :=
  match curve with
  | .constProd => do
      let k ← foldProduct (reserves.values.map ofU64)
      tryDiv k product
  | .stable amplifier invariant => do
      let sum ← foldSum balances
      getBuyReserveBalanceAfterSwap m (Word.wrap reserves.size) (ofU64 amplifier)
        invariant sum product

def calculateSwap (m : PowSqrt) (pool : Pool) (sellMint : Pubkey)
    (tokensToSwap : TokenAmount) (buyMint : Pubkey) : Except AmmError TokenAmount := do
  let reserves := pool.reservesHashmap
  ensure (¬ reserves.values.any (fun v => v = 0))
    (.invalidArg "Need to provide positive token reserves deposits")
  ensure (reserves.contains buyMint)
    (.invalidArg "Provided long (buy) token mint is invalid")
  ensure (reserves.contains sellMint)
    (.invalidArg "Provided short (sell) token mint is invalid")
  let sellReserve ← okOr reserves[sellMint]? .panicked
  ensure (tokensToSwap < sellReserve)
    (.invalidArg ("The user tries to swap the total amount of a single\n" ++
      "                 token reserve within the pool"))
  let balances ← soldOrNeutralBalances reserves sellMint tokensToSwap buyMint
  let product ← foldProduct balances
  let bought ← boughtBalanceAfterSwap m pool.curve reserves balances product
  let delta ← computeDeltaWithdrawTokenAmount bought reserves buyMint
  tryFloor delta

def swap (m : PowSqrt) (pool : Pool) (sellMint : Pubkey) (tokensToSwap : TokenAmount)
    (buyMint : Pubkey) : Except AmmError (Pool × TokenAmount) := do
  let receiveTokens ← pool.calculateSwap m sellMint tokensToSwap buyMint
  let sold ← pool.updateReserve sellMint missingMint (fun r => r.addTokens tokensToSwap)
  let bought ← sold.updateReserve buyMint missingMint
    (fun r => r.removeTokens receiveTokens)
  pure (bought, receiveTokens)

end Pool

end SolanaAmm.Amm
