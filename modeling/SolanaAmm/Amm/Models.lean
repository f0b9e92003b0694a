import SolanaAmm.Common
import SolanaAmm.Decimal
import SolanaAmm.Lib.Lists

/-!
# Amm — Models

The AMM program's account data: a pool with its curve and its reserves,
and the errors of the program. An error carries the text the program
logs before returning it (the empty text where it logs none). A panic of
the build (overflow checks, an `unwrap`), an account that Anchor rejects
and an operation that the token program rejects abort the transaction in
the same way and have a constructor each.
-/

namespace SolanaAmm.Amm

open Result

inductive AmmError
  | mathOverflow (log : String)
  | invalidAccountInput (log : String)
  | invalidArg (log : String)
  | slippageExceeded (log : String)
  | invariantViolation (log : String)
  | invalidTokenMints
  | invalidLpTokenAmount
  | panicked
  | anchor
  | tokenProgram
deriving DecidableEq

instance : DecimalError AmmError := ⟨.mathOverflow ""⟩

/-- `err::acc`: log a message and fail with `AmmError::InvalidAccountInput`. -/
def acc (msg : String) : AmmError :=
  .invalidAccountInput ("[InvalidAccountInput] " ++ msg)

/-- `err::arg`: log a message and fail with `AmmError::InvalidArg`. -/
def arg (msg : String) : AmmError :=
  .invalidArg ("[InvalidArg] " ++ msg)

/-- A share in millionths: 1% is `10_000`. -/
structure Permillion where
  permillion : U64
deriving DecidableEq, Inhabited

namespace Permillion

def toDecimal (p : Permillion) : Decimal := Decimal.fromPermillion p.permillion

end Permillion

/-! ## consts.rs -/

def MAX_RESERVES : ℕ := 4

/-- 1% -/
def MAX_SWAP_FEE : Permillion := ⟨10000⟩

/-- 1/3 -/
def PROGRAM_TOLL_SWAP_FEE_SHARE : Permillion := ⟨333333⟩

/-! ## Reserves, curves, pools -/

structure Reserve where
  tokens : TokenAmount
  mint : Pubkey
  vault : Pubkey
deriving DecidableEq

instance : Inhabited Reserve := ⟨⟨0, default, default⟩⟩

inductive Curve
  | constProd
  | stable (amplifier : U64) (invariant : Decimal)
deriving DecidableEq, Inhabited

structure Pool where
  admin : Pubkey
  signer : Pubkey
  mint : Pubkey
  /-- Where the program owner's part of the swap fee goes. -/
  programTollWallet : Pubkey
  /-- How many reserves are initialised. -/
  dimension : U64
  /-- The four reserve slots; the initialised ones come first. -/
  reserves : List Reserve
  curve : Curve
  swapFee : Permillion
deriving DecidableEq, Inhabited

structure TokenLimit where
  mint : Pubkey
  tokens : TokenAmount

/-- `into_iter().map(|h| (h.mint, h.tokens)).collect()` -/
def limitsMap (limits : List TokenLimit) : BTreeMap TokenAmount :=
  .ofList (limits.map (fun h => (h.mint, h.tokens)))

namespace Reserve

def addTokens (r : Reserve) (tokens : TokenAmount) : Except AmmError Reserve := do
  let sum ← okOr (r.tokens.checkedAdd tokens)
    (.mathOverflow "Reserves cannot hold more than u64 amount of tokens")
  pure { r with tokens := sum }

def removeTokens (r : Reserve) (tokens : TokenAmount) : Except AmmError Reserve := do
  let rest ← okOr (r.tokens.checkedSub tokens)
    (.mathOverflow "Reserves cannot less than 0 tokens")
  pure { r with tokens := rest }

theorem addTokens_eq_ok {r r' : Reserve} {t : TokenAmount} :
    r.addTokens t = .ok r' ↔
      r'.tokens.val = r.tokens.val + t.val ∧ r'.mint = r.mint ∧ r'.vault = r.vault := by
  simp only [addTokens, bind_eq_ok, okOr_eq_ok, Word.checkedAdd_eq_some, pure_eq_ok]
  constructor
  · rintro ⟨s, hs, rfl⟩
    exact ⟨hs, rfl, rfl⟩
  · rintro ⟨hs, hm, hv⟩
    refine ⟨r'.tokens, hs, ?_⟩
    rw [← hm, ← hv]

theorem removeTokens_eq_ok {r r' : Reserve} {t : TokenAmount} :
    r.removeTokens t = .ok r' ↔
      t.val ≤ r.tokens.val ∧ r'.tokens.val = r.tokens.val - t.val
        ∧ r'.mint = r.mint ∧ r'.vault = r.vault := by
  simp only [removeTokens, bind_eq_ok, okOr_eq_ok, Word.checkedSub_eq_some, pure_eq_ok]
  constructor
  · rintro ⟨s, ⟨hle, hs⟩, rfl⟩
    exact ⟨hle, hs, rfl, rfl⟩
  · rintro ⟨hle, hs, hm, hv⟩
    refine ⟨r'.tokens, ⟨hle, hs⟩, ?_⟩
    rw [← hm, ← hv]

end Reserve

namespace Pool

/-- `Pool::reserves`: the initialised reserves only. -/
def activeReserves (pool : Pool) : List Reserve :=
  pool.reserves.take pool.dimension.val

/-- The slots past the initialised reserves. -/
def unusedReserves (pool : Pool) : List Reserve :=
  pool.reserves.drop pool.dimension.val

def reserveVault (pool : Pool) (mint : Pubkey) : Option Pubkey :=
  (pool.activeReserves.find? (fun r => r.mint = mint)).map (·.vault)

/-- A write through `Pool::reserve_mut`, which is `None` when no
initialised reserve has the mint. -/
def updateReserve (pool : Pool) (mint : Pubkey) (missing : AmmError)
    (f : Reserve → Except AmmError Reserve) : Except AmmError Pool := do
  let rs ← Lists.updateFirst (fun r => r.mint = mint) f missing pool.activeReserves
  pure { pool with reserves := rs ++ pool.unusedReserves }

def reservesHashmap (pool : Pool) : BTreeMap TokenAmount :=
  .ofList (pool.activeReserves.map (fun r => (r.mint, r.tokens)))

/-- What `create_pool` establishes and no endpoint changes: two to four
initialised reserves of distinct mints in the four slots. -/
structure WellFormed (pool : Pool) : Prop where
  slots : pool.reserves.length = MAX_RESERVES
  two_le : 2 ≤ pool.dimension.val
  le_max : pool.dimension.val ≤ MAX_RESERVES
  mints_nodup : (pool.activeReserves.map (·.mint)).Nodup

theorem WellFormed.length {pool : Pool} (h : pool.WellFormed) :
    pool.activeReserves.length = pool.dimension.val := by
  rw [activeReserves, List.length_take, h.slots]
  exact Nat.min_eq_left h.le_max

end Pool

end SolanaAmm.Amm
