import SolanaAmm.Lib.Result
import SolanaAmm.Lib.Store
import SolanaAmm.Lib.Word

/-!
# Token — ledgers of token accounts

A ledger holds token accounts (an amount of one mint under an owner) and
mints (a supply under an authority). The program that moves tokens is a
parameter: `TokenProgram` lists its operations, each of which fails or
returns the ledger it leaves, and `TokenProgram.Lawful` states what a
successful operation did: it moved, created or destroyed exactly the
requested amount, with the consent of the right authority, and changed
nothing else.
-/

namespace SolanaAmm.Token

/-- An account holding tokens of one mint. `κ` are the addresses of
accounts and authorities, `μ` those of mints. -/
structure TokenAccount (κ μ : Type) where
  mint : μ
  owner : κ
  amount : U64
  delegate : Option κ
  closeAuthority : Option κ
  isFrozen : Bool
deriving DecidableEq

structure Mint (κ : Type) where
  supply : U64
  mintAuthority : Option κ
  freezeAuthority : Option κ
deriving DecidableEq

structure Ledger (κ μ : Type) where
  accounts : Store κ (TokenAccount κ μ)
  mints : Store μ (Mint κ)

variable {κ μ : Type} [DecidableEq κ]

namespace Ledger

/-- The tokens an account holds, nothing if there is no such account. -/
def balance (l : Ledger κ μ) (k : κ) : ℕ :=
  match l.accounts.lookup k with
  | some a => a.amount.val
  | none => 0

/-- What a transfer never changes about an account: its mint and owner. -/
def kind (l : Ledger κ μ) (k : κ) : Option (μ × κ) :=
  (l.accounts.lookup k).map (fun a => (a.mint, a.owner))

theorem balance_lt (l : Ledger κ μ) (k : κ) : l.balance k < 2 ^ 64 := by
  unfold balance
  cases l.accounts.lookup k with
  | none => exact Nat.two_pow_pos 64
  | some a => exact a.amount.isLt

theorem balance_of_lookup {l : Ledger κ μ} {k : κ} {a : TokenAccount κ μ}
    (h : l.accounts.lookup k = some a) : l.balance k = a.amount.val := by
  simp [balance, h]

theorem balance_of_absent {l : Ledger κ μ} {k : κ} (h : l.accounts.lookup k = none) :
    l.balance k = 0 := by
  rw [balance, h]

theorem balance_congr {l l' : Ledger κ μ} {k : κ}
    (h : l'.accounts.lookup k = l.accounts.lookup k) : l'.balance k = l.balance k := by
  rw [balance, balance, h]

theorem kind_of_lookup {l : Ledger κ μ} {k : κ} {a : TokenAccount κ μ}
    (h : l.accounts.lookup k = some a) : l.kind k = some (a.mint, a.owner) := by
  simp [kind, h]

end Ledger

variable [DecidableEq μ]

/-- The operations of a token program; `none` fails the transaction. -/
structure TokenProgram (κ μ : Type) where
  /-- `initializeAccount ledger key mint owner` -/
  initializeAccount : Ledger κ μ → κ → μ → κ → Option (Ledger κ μ)
  /-- `closeAccount ledger key authority` -/
  closeAccount : Ledger κ μ → κ → κ → Option (Ledger κ μ)
  /-- `transfer ledger source destination authority amount` -/
  transfer : Ledger κ μ → κ → κ → κ → U64 → Option (Ledger κ μ)
  /-- `mintTo ledger mint destination authority amount` -/
  mintTo : Ledger κ μ → μ → κ → κ → U64 → Option (Ledger κ μ)
  /-- `burn ledger mint source authority amount` -/
  burn : Ledger κ μ → μ → κ → κ → U64 → Option (Ledger κ μ)
  /-- `setMintAuthority ledger mint authority newAuthority` -/
  setMintAuthority : Ledger κ μ → μ → κ → Option κ → Option (Ledger κ μ)

/-- An authority that may move tokens out of an account. -/
def mayMove (a : TokenAccount κ μ) (authority : κ) : Prop :=
  authority = a.owner ∨ a.delegate = some authority

instance (a : TokenAccount κ μ) (authority : κ) : Decidable (mayMove a authority) :=
  inferInstanceAs (Decidable (_ ∨ _))

/-- A new empty account that only its owner can use. -/
structure Initialized (l l' : Ledger κ μ) (k : κ) (m : μ) (owner : κ) : Prop where
  absent : l.accounts.lookup k = none
  created : l'.accounts.lookup k = some ⟨m, owner, 0, none, none, false⟩
  others : ∀ k', k' ≠ k → l'.accounts.lookup k' = l.accounts.lookup k'
  mints : l'.mints = l.mints

/-- An empty account was removed. -/
structure Closed (l l' : Ledger κ μ) (k authority : κ) : Prop where
  account : ∃ a, l.accounts.lookup k = some a ∧ a.amount = 0
    ∧ a.closeAuthority.getD a.owner = authority
  removed : l'.accounts.lookup k = none
  others : ∀ k', k' ≠ k → l'.accounts.lookup k' = l.accounts.lookup k'
  mints : l'.mints = l.mints

section Balances

variable {l l' : Ledger κ μ} {k authority owner : κ} {m : μ}

omit [DecidableEq μ] in
/-- A new account changes no balance. -/
theorem Initialized.balance (h : Initialized l l' k m owner) (k' : κ) :
    l'.balance k' = l.balance k' := by
  by_cases he : k' = k
  · rw [he, Ledger.balance_of_lookup h.created, Ledger.balance_of_absent h.absent, Word.val_zero]
  · exact Ledger.balance_congr (h.others k' he)

omit [DecidableEq μ] in
/-- Nor does closing an empty one. -/
theorem Closed.balance (h : Closed l l' k authority) (k' : κ) : l'.balance k' = l.balance k' := by
  by_cases he : k' = k
  · obtain ⟨a, ha, hzero, -⟩ := h.account
    rw [he, Ledger.balance_of_lookup ha, Ledger.balance_of_absent h.removed, hzero, Word.val_zero]
  · exact Ledger.balance_congr (h.others k' he)

end Balances

/-- What moving, creating and destroying tokens leaves alone: mints, owners
and close authorities of accounts, and the supplies of all mints outside
`ms`. No account gains a delegate. -/
structure Frame (l l' : Ledger κ μ) (ms : List μ) : Prop where
  kinds : ∀ k, l'.kind k = l.kind k
  authorities : ∀ k a a', l.accounts.lookup k = some a → l'.accounts.lookup k = some a' →
    (a'.delegate = a.delegate ∨ a'.delegate = none) ∧ a'.closeAuthority = a.closeAuthority
  supplies : ∀ m, m ∉ ms → l'.mints.lookup m = l.mints.lookup m

/-- A successful transfer of `n` tokens. -/
structure Transferred (l l' : Ledger κ μ) (src dst authority : κ) (n : U64) : Prop
    extends Frame l l' [] where
  source : ∃ a, l.accounts.lookup src = some a ∧ mayMove a authority ∧ n.val ≤ a.amount.val
  destination : (l.kind dst).map Prod.fst = (l.kind src).map Prod.fst
  balances : ∀ k, l'.balance k + (if k = src then n.val else 0)
    = l.balance k + (if k = dst then n.val else 0)

/-- `n` new tokens of `m`. -/
structure Minted (l l' : Ledger κ μ) (m : μ) (dst authority : κ) (n : U64) : Prop
    extends Frame l l' [m] where
  mint : ∃ a a', l.mints.lookup m = some a ∧ l'.mints.lookup m = some a'
    ∧ a.mintAuthority = some authority ∧ a'.supply.val = a.supply.val + n.val
    ∧ a'.mintAuthority = a.mintAuthority
  destination : (l.kind dst).map Prod.fst = some m
  balances : ∀ k, l'.balance k = l.balance k + (if k = dst then n.val else 0)

/-- `n` tokens of `m` fewer. -/
structure Burned (l l' : Ledger κ μ) (m : μ) (src authority : κ) (n : U64) : Prop
    extends Frame l l' [m] where
  mint : ∃ a a', l.mints.lookup m = some a ∧ l'.mints.lookup m = some a'
    ∧ n.val ≤ a.supply.val ∧ a'.supply.val = a.supply.val - n.val
    ∧ a'.mintAuthority = a.mintAuthority
  source : ∃ a, l.accounts.lookup src = some a ∧ mayMove a authority ∧ n.val ≤ a.amount.val
    ∧ a.mint = m
  balances : ∀ k, l'.balance k + (if k = src then n.val else 0) = l.balance k

/-- The mint `m` was handed to another authority. -/
structure AuthoritySet (l l' : Ledger κ μ) (m : μ) (authority : κ)
    (newAuthority : Option κ) : Prop where
  accounts : l'.accounts = l.accounts
  mint : ∃ a, l.mints.lookup m = some a ∧ a.mintAuthority = some authority
    ∧ l'.mints.lookup m = some { a with mintAuthority := newAuthority }
  others : ∀ m', m' ≠ m → l'.mints.lookup m' = l.mints.lookup m'

/-- The operations do exactly what they are asked to, or fail. -/
structure TokenProgram.Lawful (p : TokenProgram κ μ) : Prop where
  initializeAccount_ok : ∀ {l l' k m owner},
    p.initializeAccount l k m owner = some l' → Initialized l l' k m owner
  closeAccount_ok : ∀ {l l' k authority},
    p.closeAccount l k authority = some l' → Closed l l' k authority
  transfer_ok : ∀ {l l' src dst authority n},
    p.transfer l src dst authority n = some l' → Transferred l l' src dst authority n
  mintTo_ok : ∀ {l l' m dst authority n},
    p.mintTo l m dst authority n = some l' → Minted l l' m dst authority n
  burn_ok : ∀ {l l' m src authority n},
    p.burn l m src authority n = some l' → Burned l l' m src authority n
  setMintAuthority_ok : ∀ {l l' m authority newAuthority},
    p.setMintAuthority l m authority newAuthority = some l' →
      AuthoritySet l l' m authority newAuthority

/-! ## What a transfer does to one balance -/

namespace Transferred

variable {l l' : Ledger κ μ} {src dst authority k : κ} {n : U64}

/-- An account that is not the source loses nothing. -/
theorem balance_le (h : Transferred l l' src dst authority n) (hs : k ≠ src) :
    l.balance k ≤ l'.balance k := by
  have hb := h.balances k
  rw [if_neg hs] at hb
  omega

/-- Only the source loses tokens, and if it does, it loses all that is sent. -/
theorem lost (h : Transferred l l' src dst authority n) (hlt : l'.balance k < l.balance k) :
    k = src ∧ l'.balance k + n.val = l.balance k := by
  have hb := h.balances k
  by_cases hk : k = src
  · refine ⟨hk, ?_⟩
    rw [if_pos hk] at hb
    split at hb <;> omega
  · rw [if_neg hk] at hb
    omega

theorem source_owner (h : Transferred l l' src dst authority n) :
    ∃ a, l.accounts.lookup src = some a ∧ mayMove a authority := by
  obtain ⟨a, ha, hm, -⟩ := h.source
  exact ⟨a, ha, hm⟩

end Transferred

/-! ## Accounts that answer to one authority -/

/-- `k` is an account of `m` tokens that only `owner` can use. -/
def Held (l : Ledger κ μ) (k : κ) (m : μ) (owner : κ) : Prop :=
  ∃ a, l.accounts.lookup k = some a ∧ a.mint = m ∧ a.owner = owner
    ∧ a.delegate = none ∧ a.closeAuthority = none

namespace Held

variable {l l' : Ledger κ μ} {k src dst authority owner : κ} {m : μ} {n : U64} {ms : List μ}

omit [DecidableEq μ] in
theorem owner_eq (h : Held l k m owner) {a : TokenAccount κ μ}
    (ha : l.accounts.lookup k = some a) (hmove : mayMove a authority) : authority = owner := by
  obtain ⟨b, hb, -, hown, hdel, -⟩ := h
  rw [ha] at hb
  cases hb
  rcases hmove with rfl | hmove
  · exact hown
  · rw [hdel] at hmove
    cases hmove

/-- Nobody else moves tokens out of it. -/
theorem source_ne (h : Held l k m owner) (ht : Transferred l l' src dst authority n)
    (hauth : authority ≠ owner) : src ≠ k := by
  rintro rfl
  obtain ⟨a, ha, hmove⟩ := ht.source_owner
  exact hauth (h.owner_eq ha hmove)

theorem frame (h : Held l k m owner) (hf : Frame l l' ms) : Held l' k m owner := by
  obtain ⟨a, ha, hmint, hown, hdel, hclose⟩ := h
  have hkind := hf.kinds k
  rw [Ledger.kind_of_lookup ha, Ledger.kind, Option.map_eq_some_iff] at hkind
  obtain ⟨a', ha', heq⟩ := hkind
  obtain ⟨hmint', hown'⟩ := Prod.mk.injEq .. ▸ heq
  obtain ⟨hdel', hclose'⟩ := hf.authorities k a a' ha ha'
  rw [hdel, or_self] at hdel'
  exact ⟨a', ha', hmint'.trans hmint, hown'.trans hown, hdel', hclose'.trans hclose⟩

omit [DecidableEq μ] in
theorem congr (h : Held l k m owner)
    (hl : l'.accounts.lookup k = l.accounts.lookup k) : Held l' k m owner := by
  obtain ⟨a, ha, hrest⟩ := h
  exact ⟨a, hl.trans ha, hrest⟩

omit [DecidableEq μ] in
/-- A new account at another address leaves it alone. -/
theorem opened (h : Held l k m owner) {key : κ} (habsent : l.accounts.lookup key = none)
    (account : TokenAccount κ μ) :
    let l' : Ledger κ μ := { l with accounts := l.accounts.insert key account }
    Held l' k m owner ∧ l.balance k ≤ l'.balance k := by
  have hne : k ≠ key := by
    rintro rfl
    obtain ⟨a, ha, -⟩ := h
    rw [habsent] at ha
    cases ha
  have hl : (l.accounts.insert key account).lookup k = l.accounts.lookup k :=
    AList.lookup_insert_ne hne
  refine ⟨h.congr hl, Nat.le_of_eq ?_⟩
  rw [Ledger.balance, Ledger.balance, hl]

end Held

/-! ## Mints that answer to one authority -/

namespace Ledger

/-- The tokens of a mint there are, none if there is no such mint. -/
def supply (l : Ledger κ μ) (m : μ) : ℕ :=
  match l.mints.lookup m with
  | some a => a.supply.val
  | none => 0

omit [DecidableEq κ] in
theorem supply_of_lookup {l : Ledger κ μ} {m : μ} {a : Mint κ} (h : l.mints.lookup m = some a) :
    l.supply m = a.supply.val := by
  rw [supply, h]

omit [DecidableEq κ] in
theorem supply_congr {l l' : Ledger κ μ} {m : μ} (h : l'.mints.lookup m = l.mints.lookup m) :
    l'.supply m = l.supply m := by
  rw [supply, supply, h]

end Ledger

/-- `m` is a mint that only `owner` can issue. -/
def Issued (l : Ledger κ μ) (m : μ) (owner : κ) : Prop :=
  ∃ a, l.mints.lookup m = some a ∧ a.mintAuthority = some owner

namespace Issued

variable {l l' : Ledger κ μ} {m : μ} {owner authority dst src : κ} {n : U64}

omit [DecidableEq κ] in
theorem congr (h : Issued l m owner) (hl : l'.mints.lookup m = l.mints.lookup m) :
    Issued l' m owner := by
  obtain ⟨a, ha, howner⟩ := h
  exact ⟨a, hl.trans ha, howner⟩

omit [DecidableEq κ] in
theorem authority_eq (h : Issued l m owner) {a : Mint κ} (ha : l.mints.lookup m = some a)
    (hauth : a.mintAuthority = some authority) : authority = owner := by
  obtain ⟨b, hb, howner⟩ := h
  rw [ha, Option.some.injEq] at hb
  subst hb
  rw [howner, Option.some.injEq] at hauth
  exact hauth.symm

/-- New tokens of the mint itself. -/
theorem minted (h : Issued l m owner) (hm : Minted l l' m dst authority n) :
    Issued l' m owner ∧ l'.supply m = l.supply m + n.val := by
  obtain ⟨a, a', ha, ha', hauth, hsupply, hsame⟩ := hm.mint
  obtain ⟨b, hb, howner⟩ := h
  rw [ha, Option.some.injEq] at hb
  subst hb
  exact ⟨⟨a', ha', hsame.trans howner⟩,
    by rw [Ledger.supply_of_lookup ha, Ledger.supply_of_lookup ha', hsupply]⟩

theorem burned (h : Issued l m owner) (hb : Burned l l' m src authority n) :
    Issued l' m owner ∧ l'.supply m + n.val = l.supply m := by
  obtain ⟨a, a', ha, ha', hle, hsupply, hsame⟩ := hb.mint
  obtain ⟨b, hlookup, howner⟩ := h
  rw [ha, Option.some.injEq] at hlookup
  subst hlookup
  refine ⟨⟨a', ha', hsame.trans howner⟩, ?_⟩
  rw [Ledger.supply_of_lookup ha, Ledger.supply_of_lookup ha', hsupply]
  omega

end Issued

/-! ## What users do to the ledger on their own -/

inductive TokenOp (κ μ : Type)
  | openAccount (key : κ) (account : TokenAccount κ μ)
  | openMint (key : μ) (mint : Mint κ)
  | transfer (source destination authority : κ) (amount : U64)
  | mintTo (mint : μ) (destination authority : κ) (amount : U64)
  | burn (mint : μ) (source authority : κ) (amount : U64)
  | setMintAuthority (mint : μ) (authority : κ) (newAuthority : Option κ)
  | closeAccount (key authority : κ)

namespace TokenOp

/-- Whose signature the operation takes; a new account signs itself. -/
def signer : TokenOp κ μ → Option κ
  | .openAccount key _ => some key
  | .openMint _ _ => none
  | .transfer _ _ authority _ => some authority
  | .mintTo _ _ authority _ => some authority
  | .burn _ _ authority _ => some authority
  | .setMintAuthority _ authority _ => some authority
  | .closeAccount _ authority => some authority

def apply (p : TokenProgram κ μ) (l : Ledger κ μ) : TokenOp κ μ → Option (Ledger κ μ)
  | .openAccount key account => do
      guard (l.accounts.lookup key = none ∧ account.amount = 0)
      some { l with accounts := l.accounts.insert key account }
  | .openMint key mint => do
      guard (l.mints.lookup key = none ∧ mint.supply = 0)
      some { l with mints := l.mints.insert key mint }
  | .transfer source destination authority amount =>
      p.transfer l source destination authority amount
  | .mintTo mint destination authority amount => p.mintTo l mint destination authority amount
  | .burn mint source authority amount => p.burn l mint source authority amount
  | .setMintAuthority mint authority newAuthority =>
      p.setMintAuthority l mint authority newAuthority
  | .closeAccount key authority => p.closeAccount l key authority

variable {p : TokenProgram κ μ} {l l' : Ledger κ μ} {op : TokenOp κ μ} {k owner : κ} {m : μ}

/-- **Custody**: an account that answers to one authority loses nothing
without its signature. -/
theorem apply_held (hp : p.Lawful) (h : op.apply p l = some l') (hk : Held l k m owner)
    (hsign : op.signer ≠ some owner) : Held l' k m owner ∧ l.balance k ≤ l'.balance k := by
  cases op with
  | openAccount key account =>
      simp only [apply, Option.bind_eq_bind, Option.bind_eq_some_iff, Result.guard_eq_some] at h
      obtain ⟨-, ⟨habsent, -⟩, h⟩ := h
      cases h
      exact hk.opened habsent account
  | openMint key mint =>
      simp only [apply, Option.bind_eq_bind, Option.bind_eq_some_iff, Result.guard_eq_some] at h
      obtain ⟨-, -, h⟩ := h
      cases h
      exact ⟨hk, Nat.le_refl _⟩
  | transfer source destination authority amount =>
      have ht := hp.transfer_ok h
      have hne := hk.source_ne ht (fun he => hsign (he ▸ rfl))
      exact ⟨hk.frame ht.toFrame, ht.balance_le (Ne.symm hne)⟩
  | mintTo mint destination authority amount =>
      have hm := hp.mintTo_ok h
      have hb := hm.balances k
      exact ⟨hk.frame hm.toFrame, by omega⟩
  | burn mint source authority amount =>
      have hb := hp.burn_ok h
      refine ⟨hk.frame hb.toFrame, ?_⟩
      obtain ⟨a, ha, hmove, -, -⟩ := hb.source
      have hbal := hb.balances k
      have hne : k ≠ source := by
        rintro rfl
        exact hsign (hk.owner_eq ha hmove ▸ rfl)
      rw [if_neg hne] at hbal
      omega
  | setMintAuthority mint authority newAuthority =>
      have ha := (hp.setMintAuthority_ok h).accounts
      exact ⟨hk.congr (by rw [ha]), (Ledger.balance_congr (by rw [ha])).ge⟩
  | closeAccount key authority =>
      have hc := hp.closeAccount_ok h
      have hne : k ≠ key := by
        rintro rfl
        obtain ⟨a, ha, -, hauth⟩ := hc.account
        obtain ⟨b, hb, -, hown, -, hclose⟩ := hk
        rw [ha] at hb
        cases hb
        rw [hclose, Option.getD_none, hown] at hauth
        exact hsign (hauth ▸ rfl)
      exact ⟨hk.congr (hc.others k hne), (hc.balance k).ge⟩

/-- No account appears without its own signature. -/
theorem apply_absent (hp : p.Lawful) (h : op.apply p l = some l')
    (hk : l.accounts.lookup k = none) (hsign : op.signer ≠ some k) :
    l'.accounts.lookup k = none := by
  have hkind : ∀ {ms : List μ}, Frame l l' ms → l'.accounts.lookup k = none := by
    intro ms hf
    have := hf.kinds k
    rw [Ledger.kind, Ledger.kind, hk, Option.map_none, Option.map_eq_none_iff] at this
    exact this
  cases op with
  | openAccount key account =>
      simp only [apply, Option.bind_eq_bind, Option.bind_eq_some_iff, Result.guard_eq_some] at h
      obtain ⟨-, -, h⟩ := h
      cases h
      have hne : k ≠ key := by
        rintro rfl
        exact hsign rfl
      exact (AList.lookup_insert_ne hne).trans hk
  | openMint key mint =>
      simp only [apply, Option.bind_eq_bind, Option.bind_eq_some_iff, Result.guard_eq_some] at h
      obtain ⟨-, -, h⟩ := h
      cases h
      exact hk
  | transfer source destination authority amount => exact hkind (hp.transfer_ok h).toFrame
  | mintTo mint destination authority amount => exact hkind (hp.mintTo_ok h).toFrame
  | burn mint source authority amount => exact hkind (hp.burn_ok h).toFrame
  | setMintAuthority mint authority newAuthority =>
      rw [(hp.setMintAuthority_ok h).accounts]
      exact hk
  | closeAccount key authority =>
      have hc := hp.closeAccount_ok h
      by_cases he : k = key
      · rw [he]
        exact hc.removed
      · rw [hc.others k he]
        exact hk

/-- **Issuance**: of a mint that answers to one authority, others can only
burn tokens. -/
theorem apply_issued (hp : p.Lawful) (h : op.apply p l = some l') (hm : Issued l m owner)
    (hsign : op.signer ≠ some owner) :
    Issued l' m owner ∧ (l'.supply m = l.supply m
      ∨ ∃ source authority n, op = .burn m source authority n
        ∧ l'.supply m + n.val = l.supply m) := by
  have hkept : l'.mints.lookup m = l.mints.lookup m → Issued l' m owner ∧ (l'.supply m = l.supply m
      ∨ ∃ source authority n, op = .burn m source authority n
        ∧ l'.supply m + n.val = l.supply m) :=
    fun hl => ⟨hm.congr hl, .inl (Ledger.supply_congr hl)⟩
  cases op with
  | openAccount key account =>
      simp only [apply, Option.bind_eq_bind, Option.bind_eq_some_iff, Result.guard_eq_some] at h
      obtain ⟨-, -, h⟩ := h
      cases h
      exact hkept rfl
  | openMint key mint =>
      simp only [apply, Option.bind_eq_bind, Option.bind_eq_some_iff, Result.guard_eq_some] at h
      obtain ⟨-, ⟨habsent, -⟩, h⟩ := h
      cases h
      refine hkept (AList.lookup_insert_ne ?_)
      rintro rfl
      obtain ⟨a, ha, -⟩ := hm
      rw [habsent] at ha
      cases ha
  | transfer source destination authority amount =>
      exact hkept ((hp.transfer_ok h).supplies m List.not_mem_nil)
  | mintTo mint destination authority amount =>
      have hminted := hp.mintTo_ok h
      obtain ⟨b, -, hb, -, hauth, -⟩ := hminted.mint
      refine hkept (hminted.supplies m ?_)
      rw [List.mem_singleton]
      rintro rfl
      exact hsign (congrArg some (hm.authority_eq hb hauth))
  | burn mint source authority amount =>
      have hburned := hp.burn_ok h
      by_cases hmint : m = mint
      · subst hmint
        obtain ⟨hissued, hsupply⟩ := hm.burned hburned
        exact ⟨hissued, .inr ⟨source, authority, amount, rfl, hsupply⟩⟩
      · exact hkept (hburned.supplies m (by simpa using hmint))
  | setMintAuthority mint authority newAuthority =>
      have hset := hp.setMintAuthority_ok h
      obtain ⟨b, hb, hauth, -⟩ := hset.mint
      refine hkept (hset.others m ?_)
      rintro rfl
      exact hsign (congrArg some (hm.authority_eq hb hauth))
  | closeAccount key authority => exact hkept (by rw [(hp.closeAccount_ok h).mints])

end TokenOp

/-! ## What spares the accounts of an authority -/

/-- Every account that only `owner` can use stays so and loses nothing. -/
def Spares (l l' : Ledger κ μ) (owner : κ) : Prop :=
  ∀ k m, Held l k m owner → Held l' k m owner ∧ l.balance k ≤ l'.balance k

namespace Spares

variable {p : TokenProgram κ μ} {l l' l'' : Ledger κ μ} {owner : κ}

omit [DecidableEq μ] in
theorem refl (l : Ledger κ μ) (owner : κ) : Spares l l owner :=
  fun _ _ hk => ⟨hk, Nat.le_refl _⟩

omit [DecidableEq μ] in
theorem trans (h : Spares l l' owner) (h' : Spares l' l'' owner) : Spares l l'' owner := by
  intro k m hk
  obtain ⟨hheld, hle⟩ := h k m hk
  obtain ⟨hheld', hle'⟩ := h' k m hheld
  exact ⟨hheld', hle.trans hle'⟩

/-- What others do on their own. -/
theorem of_op (hp : p.Lawful) {o : TokenOp κ μ} (h : o.apply p l = some l')
    (hsign : o.signer ≠ some owner) : Spares l l' owner :=
  fun _ _ hk => o.apply_held hp h hk hsign

/-- A new account takes nothing, whoever opens it. -/
theorem of_openAccount {key : κ} {account : TokenAccount κ μ}
    (h : (TokenOp.openAccount key account).apply p l = some l') : Spares l l' owner := by
  simp only [TokenOp.apply, Option.bind_eq_bind, Option.bind_eq_some_iff,
    Result.guard_eq_some] at h
  obtain ⟨-, ⟨habsent, -⟩, h⟩ := h
  cases h
  exact fun _ _ hk => hk.opened habsent account

/-- New tokens are taken from nobody. -/
theorem of_minted {m : μ} {dst authority : κ} {n : U64}
    (h : Minted l l' m dst authority n) : Spares l l' owner := by
  intro k m' hk
  have hb := h.balances k
  exact ⟨hk.frame h.toFrame, by omega⟩

end Spares

/-! ## Batches of transfers -/

/-- A transfer, as it is asked for. -/
structure TransferOrder (κ : Type) where
  source : κ
  destination : κ
  authority : κ
  amount : U64

/-- Transfer after transfer; one that fails fails the batch. -/
def transferAll (p : TokenProgram κ μ) (l : Ledger κ μ) (orders : List (TransferOrder κ)) :
    Option (Ledger κ μ) :=
  orders.foldlM (fun l o => p.transfer l o.source o.destination o.authority o.amount) l

/-- The tokens the orders take out of an account. -/
def sent (orders : List (TransferOrder κ)) (k : κ) : ℕ :=
  (orders.map (fun o => if k = o.source then o.amount.val else 0)).sum

/-- The tokens the orders put into an account. -/
def received (orders : List (TransferOrder κ)) (k : κ) : ℕ :=
  (orders.map (fun o => if k = o.destination then o.amount.val else 0)).sum

section TransferAll

variable {p : TokenProgram κ μ} {l l' : Ledger κ μ} {orders : List (TransferOrder κ)}
  {k owner : κ} {m : μ}

omit [DecidableEq κ] [DecidableEq μ] in
theorem transferAll_cons_eq_some {o : TransferOrder κ} :
    transferAll p l (o :: orders) = some l' ↔
      ∃ l₁, p.transfer l o.source o.destination o.authority o.amount = some l₁
        ∧ transferAll p l₁ orders = some l' := by
  unfold transferAll
  rw [List.foldlM_cons, Option.bind_eq_bind, Option.bind_eq_some_iff]

/-- **A batch** moves what its orders say, together. -/
theorem transferAll_balances (hp : p.Lawful) (h : transferAll p l orders = some l') :
    l'.balance k + sent orders k = l.balance k + received orders k := by
  induction orders generalizing l with
  | nil =>
      cases h
      rfl
  | cons o orders ih =>
      obtain ⟨l₁, h₁, h₂⟩ := transferAll_cons_eq_some.mp h
      have hfirst := (hp.transfer_ok h₁).balances k
      have hrest := ih h₂
      unfold sent received at hrest ⊢
      rw [List.map_cons, List.map_cons, List.sum_cons, List.sum_cons]
      omega

theorem transferAll_held (hp : p.Lawful) (h : transferAll p l orders = some l')
    (hk : Held l k m owner) : Held l' k m owner := by
  induction orders generalizing l with
  | nil =>
      cases h
      exact hk
  | cons o orders ih =>
      obtain ⟨l₁, h₁, h₂⟩ := transferAll_cons_eq_some.mp h
      exact ih h₂ (hk.frame (hp.transfer_ok h₁).toFrame)

/-- Nobody else's orders take tokens out of the accounts of an owner. -/
theorem transferAll_sent_eq_zero (hp : p.Lawful) (h : transferAll p l orders = some l')
    (hk : Held l k m owner) (hauth : ∀ o ∈ orders, o.authority ≠ owner) :
    sent orders k = 0 := by
  induction orders generalizing l with
  | nil => rfl
  | cons o orders ih =>
      obtain ⟨l₁, h₁, h₂⟩ := transferAll_cons_eq_some.mp h
      have ht := hp.transfer_ok h₁
      have hne := hk.source_ne ht (hauth o List.mem_cons_self)
      have hrest := ih h₂ (hk.frame ht.toFrame)
        (fun o ho => hauth o (List.mem_cons_of_mem _ ho))
      unfold sent at hrest ⊢
      rw [List.map_cons, List.sum_cons, hrest, if_neg (Ne.symm hne)]

omit [DecidableEq μ] in
/-- An account that is no destination receives nothing. -/
theorem received_eq_zero (h : ∀ o ∈ orders, o.destination ≠ k) : received orders k = 0 := by
  refine List.sum_eq_zero (fun n hn => ?_)
  obtain ⟨o, ho, rfl⟩ := List.mem_map.mp hn
  exact if_neg (Ne.symm (h o ho))

/-- Transfers leave every mint alone. -/
theorem transferAll_mints (hp : p.Lawful) (h : transferAll p l orders = some l') (m : μ) :
    l'.mints.lookup m = l.mints.lookup m := by
  induction orders generalizing l with
  | nil =>
      cases h
      rfl
  | cons o orders ih =>
      obtain ⟨l₁, h₁, h₂⟩ := transferAll_cons_eq_some.mp h
      rw [ih h₂, (hp.transfer_ok h₁).supplies m List.not_mem_nil]

theorem transferAll_spares (hp : p.Lawful) (h : transferAll p l orders = some l')
    (hauth : ∀ o ∈ orders, o.authority ≠ owner) : Spares l l' owner := by
  intro k m hk
  have hb := transferAll_balances (k := k) hp h
  rw [transferAll_sent_eq_zero hp h hk hauth] at hb
  exact ⟨transferAll_held hp h hk, by omega⟩

end TransferAll

/-! ## A lawful token program

The checks and effects of the operations on accounts that nobody has
delegated. -/

namespace Reference

/-- The ledger with another amount in one account. -/
def setAmount (l : Ledger κ μ) (k : κ) (a : TokenAccount κ μ) (n : U64) : Ledger κ μ :=
  { l with accounts := l.accounts.insert k { a with amount := n } }

def setMint (l : Ledger κ μ) (m : μ) (a : Mint κ) : Ledger κ μ :=
  { l with mints := l.mints.insert m a }

def initializeAccount (l : Ledger κ μ) (k : κ) (m : μ) (owner : κ) :
    Option (Ledger κ μ) := do
  guard (l.accounts.lookup k = none)
  some { l with accounts := l.accounts.insert k ⟨m, owner, 0, none, none, false⟩ }

def closeAccount (l : Ledger κ μ) (k authority : κ) : Option (Ledger κ μ) := do
  let a ← l.accounts.lookup k
  guard (a.amount = 0 ∧ a.closeAuthority.getD a.owner = authority)
  some { l with accounts := l.accounts.erase k }

def transfer (l : Ledger κ μ) (src dst authority : κ) (n : U64) : Option (Ledger κ μ) := do
  let a ← l.accounts.lookup src
  let b ← l.accounts.lookup dst
  guard (a.isFrozen = false ∧ b.isFrozen = false ∧ a.mint = b.mint ∧ mayMove a authority)
  let less ← a.amount.checkedSub n
  if src = dst then some l
  else do
    let more ← b.amount.checkedAdd n
    some (setAmount (setAmount l src a less) dst b more)

def mintTo (l : Ledger κ μ) (m : μ) (dst authority : κ) (n : U64) :
    Option (Ledger κ μ) := do
  let a ← l.mints.lookup m
  let b ← l.accounts.lookup dst
  guard (b.isFrozen = false ∧ b.mint = m ∧ a.mintAuthority = some authority)
  let supply ← a.supply.checkedAdd n
  let more ← b.amount.checkedAdd n
  some (setMint (setAmount l dst b more) m { a with supply })

def burn (l : Ledger κ μ) (m : μ) (src authority : κ) (n : U64) :
    Option (Ledger κ μ) := do
  let a ← l.mints.lookup m
  let b ← l.accounts.lookup src
  guard (b.isFrozen = false ∧ b.mint = m ∧ mayMove b authority)
  let supply ← a.supply.checkedSub n
  let less ← b.amount.checkedSub n
  some (setMint (setAmount l src b less) m { a with supply })

def setMintAuthority (l : Ledger κ μ) (m : μ) (authority : κ) (newAuthority : Option κ) :
    Option (Ledger κ μ) := do
  let a ← l.mints.lookup m
  guard (a.mintAuthority = some authority)
  some (setMint l m { a with mintAuthority := newAuthority })

/-- A token program that meets the laws, to evaluate runs with. -/
def tokenProgram : TokenProgram κ μ :=
  { initializeAccount, closeAccount, transfer, mintTo, burn, setMintAuthority }

section SetAmount

variable {l : Ledger κ μ} {k k' : κ} {a : TokenAccount κ μ} {n : U64}

omit [DecidableEq μ] in
theorem setAmount_kind (h : l.accounts.lookup k = some a) :
    (setAmount l k a n).kind k' = l.kind k' := by
  unfold Ledger.kind setAmount
  by_cases hk : k' = k
  · rw [hk, AList.lookup_insert, h]
    rfl
  · rw [AList.lookup_insert_ne hk]

omit [DecidableEq μ] in
theorem setAmount_balance :
    (setAmount l k a n).balance k' = if k' = k then n.val else l.balance k' := by
  unfold Ledger.balance setAmount
  by_cases hk : k' = k
  · rw [if_pos hk, hk, AList.lookup_insert]
  · rw [if_neg hk, AList.lookup_insert_ne hk]

omit [DecidableEq μ] in
theorem setAmount_authorities (h : l.accounts.lookup k = some a) {b b' : TokenAccount κ μ}
    (hb : l.accounts.lookup k' = some b)
    (hb' : (setAmount l k a n).accounts.lookup k' = some b') :
    b'.delegate = b.delegate ∧ b'.closeAuthority = b.closeAuthority := by
  rcases Store.lookup_insert_cases hb' with ⟨rfl, rfl⟩ | ⟨-, h'⟩
  · rw [h] at hb
    cases hb
    exact ⟨rfl, rfl⟩
  · rw [hb] at h'
    cases h'
    exact ⟨rfl, rfl⟩

end SetAmount

omit [DecidableEq μ] in
theorem initializeAccount_ok {l l' : Ledger κ μ} {k : κ} {m : μ} {owner : κ}
    (h : initializeAccount l k m owner = some l') : Initialized l l' k m owner := by
  simp only [initializeAccount, Option.bind_eq_bind, Option.bind_eq_some_iff,
    Result.guard_eq_some] at h
  obtain ⟨-, habsent, h⟩ := h
  cases h
  exact
    { absent := habsent
      created := AList.lookup_insert _
      others := fun k' hk => AList.lookup_insert_ne hk
      mints := rfl }

omit [DecidableEq μ] in
theorem closeAccount_ok {l l' : Ledger κ μ} {k authority : κ}
    (h : closeAccount l k authority = some l') : Closed l l' k authority := by
  simp only [closeAccount, Option.bind_eq_bind, Option.bind_eq_some_iff,
    Result.guard_eq_some] at h
  obtain ⟨a, ha, -, hclose, h⟩ := h
  cases h
  exact
    { account := ⟨a, ha, hclose⟩
      removed := AList.lookup_erase _ _
      others := fun k' hk => AList.lookup_erase_ne hk
      mints := rfl }

theorem transfer_ok {l l' : Ledger κ μ} {src dst authority : κ} {n : U64}
    (h : transfer l src dst authority n = some l') :
    Transferred l l' src dst authority n := by
  simp only [transfer, Option.bind_eq_bind, Option.bind_eq_some_iff, Result.guard_eq_some] at h
  obtain ⟨a, ha, b, hb, -, ⟨-, -, hmint, hmove⟩, less, hless, h⟩ := h
  rw [Word.checkedSub_eq_some] at hless
  have hdest : (l.kind dst).map Prod.fst = (l.kind src).map Prod.fst := by
    rw [Ledger.kind_of_lookup ha, Ledger.kind_of_lookup hb, Option.map_some,
      Option.map_some, hmint]
  split at h
  · -- nothing moves
    rename_i hself
    cases h
    exact
      { kinds := fun _ => rfl
        authorities := fun k c c' hc hc' => by
          rw [hc] at hc'
          cases hc'
          exact ⟨.inl rfl, rfl⟩
        supplies := fun _ _ => rfl
        source := ⟨a, ha, hmove, hless.1⟩
        destination := hdest
        balances := fun k => by rw [hself] }
  · rename_i hne
    obtain ⟨more, hmore, h⟩ := Option.bind_eq_some_iff.mp h
    rw [Word.checkedAdd_eq_some] at hmore
    cases h
    have hb' : (setAmount l src a less).accounts.lookup dst = some b := by
      rw [setAmount, AList.lookup_insert_ne (Ne.symm hne), hb]
    refine
      { kinds := fun k => by rw [setAmount_kind hb', setAmount_kind ha]
        authorities := fun k c c' hc hc' => ?_
        supplies := fun _ _ => rfl
        source := ⟨a, ha, hmove, hless.1⟩
        destination := hdest
        balances := fun k => ?_ }
    · by_cases hk : k = dst
      · subst hk
        rw [hb] at hc
        cases hc
        exact (setAmount_authorities hb' hb' hc').imp .inl id
      · rw [setAmount, AList.lookup_insert_ne hk] at hc'
        exact (setAmount_authorities ha hc hc').imp .inl id
    · rw [setAmount_balance, setAmount_balance]
      have hba := Ledger.balance_of_lookup ha
      have hbb := Ledger.balance_of_lookup hb
      by_cases hk : k = dst
      · subst hk
        rw [if_pos rfl, if_neg (Ne.symm hne), if_pos rfl]
        omega
      · rw [if_neg hk, if_neg hk]
        by_cases hks : k = src
        · subst hks
          rw [if_pos rfl, if_pos rfl]
          omega
        · rw [if_neg hks, if_neg hks]

theorem mintTo_ok {l l' : Ledger κ μ} {m : μ} {dst authority : κ} {n : U64}
    (h : mintTo l m dst authority n = some l') : Minted l l' m dst authority n := by
  simp only [mintTo, Option.bind_eq_bind, Option.bind_eq_some_iff, Result.guard_eq_some] at h
  obtain ⟨a, ha, b, hb, -, ⟨-, hmint, hauth⟩, supply, hsupply, more, hmore, h⟩ := h
  rw [Word.checkedAdd_eq_some] at hsupply hmore
  cases h
  refine
    { kinds := fun k => setAmount_kind hb
      authorities := fun k c c' hc hc' => (setAmount_authorities hb hc hc').imp .inl id
      supplies := fun m' hm' => ?_
      mint := ⟨a, _, ha, AList.lookup_insert _, hauth, hsupply, rfl⟩
      destination := by rw [Ledger.kind_of_lookup hb, Option.map_some, hmint]
      balances := fun k => ?_ }
  · exact AList.lookup_insert_ne (by simpa using hm')
  · show (setAmount l dst b more).balance k = _
    rw [setAmount_balance]
    have hbb := Ledger.balance_of_lookup hb
    by_cases hk : k = dst
    · subst hk
      rw [if_pos rfl, if_pos rfl]
      omega
    · rw [if_neg hk, if_neg hk]
      rfl

theorem burn_ok {l l' : Ledger κ μ} {m : μ} {src authority : κ} {n : U64}
    (h : burn l m src authority n = some l') : Burned l l' m src authority n := by
  simp only [burn, Option.bind_eq_bind, Option.bind_eq_some_iff, Result.guard_eq_some] at h
  obtain ⟨a, ha, b, hb, -, ⟨-, hmint, hmove⟩, supply, hsupply, less, hless, h⟩ := h
  rw [Word.checkedSub_eq_some] at hsupply hless
  cases h
  refine
    { kinds := fun k => setAmount_kind hb
      authorities := fun k c c' hc hc' => (setAmount_authorities hb hc hc').imp .inl id
      supplies := fun m' hm' => ?_
      mint := ⟨a, _, ha, AList.lookup_insert _, hsupply.1, hsupply.2, rfl⟩
      source := ⟨b, hb, hmove, hless.1, hmint⟩
      balances := fun k => ?_ }
  · exact AList.lookup_insert_ne (by simpa using hm')
  · show (setAmount l src b less).balance k + _ = _
    rw [setAmount_balance]
    have hbb := Ledger.balance_of_lookup hb
    by_cases hk : k = src
    · subst hk
      rw [if_pos rfl, if_pos rfl]
      omega
    · rw [if_neg hk, if_neg hk]
      rfl

theorem setMintAuthority_ok {l l' : Ledger κ μ} {m : μ} {authority : κ}
    {newAuthority : Option κ} (h : setMintAuthority l m authority newAuthority = some l') :
    AuthoritySet l l' m authority newAuthority := by
  simp only [setMintAuthority, Option.bind_eq_bind, Option.bind_eq_some_iff,
    Result.guard_eq_some] at h
  obtain ⟨a, ha, -, hauth, h⟩ := h
  cases h
  exact
    { accounts := rfl
      mint := ⟨a, ha, hauth, AList.lookup_insert _⟩
      others := fun m' hm' => AList.lookup_insert_ne hm' }

theorem lawful : (tokenProgram : TokenProgram κ μ).Lawful where
  initializeAccount_ok := initializeAccount_ok
  closeAccount_ok := closeAccount_ok
  transfer_ok := transfer_ok
  mintTo_ok := mintTo_ok
  burn_ok := burn_ok
  setMintAuthority_ok := setMintAuthority_ok

end Reference

end SolanaAmm.Token
