import SolanaAmm.Amm.Endpoints

/-!
# Amm — Effects

What a successful instruction did, once for all invariants: it was one of
the endpoints that write a pool, an operation of the token program that
somebody called on their own, or it left both the pools and the ledger
alone.
-/

namespace SolanaAmm.Amm

open Result Token

/-- The operation that an instruction asks the token program for. -/
def Instr.tokenOp : Instr → Option (TokenOp Pubkey Pubkey)
  | .openAccount key account => some (.openAccount key account)
  | .openMint key mint => some (.openMint key mint)
  | .transfer source destination authority amount =>
      some (.transfer source destination authority amount)
  | .mintTo mint destination authority amount => some (.mintTo mint destination authority amount)
  | .burn mint source authority amount => some (.burn mint source authority amount)
  | .setMintAuthority mint authority newAuthority =>
      some (.setMintAuthority mint authority newAuthority)
  | _ => none

inductive Effect (env : Env) (s : AmmState) : Instr → AmmState → Prop
  | settings {i : Instr} {s' : AmmState} (hpools : s'.pools = s.pools)
      (hledger : s'.ledger = s.ledger) : Effect env s i s'
  | createPool {accs : CreatePool} {amplifier : U64} {s' : AmmState}
      (h : createPool env s accs amplifier = .ok s') :
      Effect env s (.createPool accs amplifier) s'
  | setPoolSwapFee {admin key : Pubkey} {fee : Permillion} {pool : Pool}
      (hpool : s.pools.lookup key = some pool)
      (hfee : fee.permillion ≤ MAX_SWAP_FEE.permillion) :
      Effect env s (.setPoolSwapFee admin key fee) (s.setPool key { pool with swapFee := fee })
  | depositLiquidity {accs : DepositLiquidity} {limits : List TokenLimit} {s' : AmmState}
      (h : depositLiquidity env s accs limits = .ok s') :
      Effect env s (.depositLiquidity accs limits) s'
  | redeemLiquidity {accs : RedeemLiquidity} {burned : TokenAmount} {limits : List TokenLimit}
      {s' : AmmState} (h : redeemLiquidity env s accs burned limits = .ok s') :
      Effect env s (.redeemLiquidity accs burned limits) s'
  | swap {accs : Swap} {sell minBuy : TokenAmount} {s' : AmmState}
      (h : swap env s accs sell minBuy = .ok s') : Effect env s (.swap accs sell minBuy) s'
  | token {i : Instr} {op : TokenOp Pubkey Pubkey} {l : Ledger Pubkey Pubkey}
      (hop : i.tokenOp = some op) (h : op.apply env.tokenProgram s.ledger = some l) :
      Effect env s i (s.setLedger l)

variable {env : Env} {s s' : AmmState} {i : Instr}

/-- **Inversion**: a successful step had the signature of a key holder and
one of the effects. -/
theorem step_ok (h : step env s i = .ok s') :
    (∀ a ∈ i.signer, env.isOnCurve a = true) ∧ Effect env s i s' := by
  simp only [step, bind_eq_ok, ensure_eq_ok, Option.all_eq_true] at h
  obtain ⟨-, hsigner, h⟩ := h
  refine ⟨fun a ha => hsigner a ha, ?_⟩
  cases i with
  | createProgramToll programAuthority tollAuthority =>
      simp only [dispatch, createProgramToll, bind_eq_ok, pure_eq_ok] at h
      obtain ⟨-, -, -, -, rfl⟩ := h
      exact .settings rfl rfl
  | createDiscountSettings programAuthority settingsAuthority =>
      simp only [dispatch, createDiscountSettings, bind_eq_ok, pure_eq_ok] at h
      obtain ⟨-, -, -, -, rfl⟩ := h
      exact .settings rfl rfl
  | putDiscount authority isWritable user discountAmount validUntil =>
      simp only [dispatch, putDiscount, bind_eq_ok, pure_eq_ok] at h
      obtain ⟨-, -, -, -, -, -, -, -, -, -, rfl⟩ := h
      exact .settings rfl rfl
  | createPool accs amplifier => exact .createPool h
  | setPoolSwapFee admin poolKey fee =>
      simp only [dispatch, setPoolSwapFee, AmmState.pool, bind_eq_ok, okOr_eq_ok, ensure_eq_ok,
        pure_eq_ok] at h
      obtain ⟨pool, hpool, -, -, -, hfee, rfl⟩ := h
      exact .setPoolSwapFee hpool hfee
  | depositLiquidity accs limits => exact .depositLiquidity h
  | redeemLiquidity accs burned limits => exact .redeemLiquidity h
  | swap accs sell minBuy => exact .swap h
  | tick slot =>
      simp only [dispatch, bind_eq_ok, pure_eq_ok] at h
      obtain ⟨-, -, rfl⟩ := h
      exact .settings rfl rfl
  | openAccount key account =>
      simp only [dispatch, bind_eq_ok, ensure_eq_ok, pure_eq_ok] at h
      obtain ⟨-, hnew, rfl⟩ := h
      refine .token rfl ?_
      simp [TokenOp.apply, hnew]
  | openMint key mint =>
      simp only [dispatch, bind_eq_ok, ensure_eq_ok, pure_eq_ok] at h
      obtain ⟨-, hnew, rfl⟩ := h
      refine .token rfl ?_
      simp [TokenOp.apply, hnew]
  | transfer source destination authority amount =>
      simp only [dispatch, bind_eq_ok, okOr_eq_ok, pure_eq_ok] at h
      obtain ⟨l, hl, rfl⟩ := h
      exact .token rfl hl
  | mintTo mint destination authority amount =>
      simp only [dispatch, bind_eq_ok, okOr_eq_ok, pure_eq_ok] at h
      obtain ⟨l, hl, rfl⟩ := h
      exact .token rfl hl
  | burn mint source authority amount =>
      simp only [dispatch, bind_eq_ok, okOr_eq_ok, pure_eq_ok] at h
      obtain ⟨l, hl, rfl⟩ := h
      exact .token rfl hl
  | setMintAuthority mint authority newAuthority =>
      simp only [dispatch, bind_eq_ok, okOr_eq_ok, pure_eq_ok] at h
      obtain ⟨l, hl, rfl⟩ := h
      exact .token rfl hl

end SolanaAmm.Amm
