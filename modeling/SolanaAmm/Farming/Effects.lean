import SolanaAmm.Farming.Endpoints
import SolanaAmm.Farming.Unclaimed

/-!
# Farming — Effects

What a successful instruction did, once for all invariants. Every
instruction that credits a farmer's harvest does so first (`Harvests`);
what it does after that is one of a few acts on the farms, the farmers and
the ledger (`Acts`). Of the ledger an act tells how much the vaults gained
and lost (`Flow`): they answer to the program alone (`Custody`), so they
lose nothing else.
-/

namespace SolanaAmm.Farming

open Result Token

/-! ## Custody of the vaults -/

/-- Who a vault answers to. -/
def Address.signer : Address → Address
  | .stakeVault farm => .farmSigner farm
  | .harvestVault farm _ => .farmSigner farm
  | address => address

theorem Address.signer_isKey {v : Address} (hv : v.isKey = false) : v.signer.isKey = false := by
  cases v <;> first | rfl | exact hv

/-- Every account at a derived address answers to its farm's signer. -/
def VaultsHeld (l : Ledger Address Pubkey) : Prop :=
  ∀ v : Address, v.isKey = false →
    l.accounts.lookup v = none ∨ ∃ m, Held l v m v.signer

structure Custody (s : FarmingState) : Prop where
  vaults : VaultsHeld s.ledger
  farm : ∀ F farm, s.farms.lookup F = some farm →
    farm.stakeVault = .stakeVault F ∧ Held s.ledger (.stakeVault F) farm.stakeMint (.farmSigner F)
  farmer : ∀ k f, s.farmers.lookup k = some f → f.farm = k.1

/-- An amount at one address. -/
def only (a : Address) (n : ℕ) : Address → ℕ := fun v => if v = a then n else 0

@[simp] theorem only_self {a : Address} {n : ℕ} : only a n a = n := if_pos rfl

@[simp] theorem only_ne {a v : Address} {n : ℕ} (h : v ≠ a) : only a n v = 0 := if_neg h

theorem only_add {a v : Address} {m n : ℕ} : only a (m + n) v = only a m v + only a n v := by
  unfold only
  split <;> rfl

theorem only_zero {a v : Address} : only a 0 v = 0 := ite_self 0

def nothing : Address → ℕ := fun _ => 0

/-- The vaults gained at least `inflow` and lost at most `outflow`. -/
structure Flow (l l' : Ledger Address Pubkey) (inflow outflow : Address → ℕ) : Prop where
  balance : ∀ v : Address, v.isKey = false →
    l.balance v + inflow v ≤ l'.balance v + outflow v
  held : ∀ (v : Address) m, v.isKey = false → Held l v m v.signer → Held l' v m v.signer
  absent : ∀ v : Address, v.isKey = false →
    l.accounts.lookup v = none → l'.accounts.lookup v = none

section Flows

variable {l l' l'' : Ledger Address Pubkey} {src dst v : Address} {k : Pubkey} {n : TokenAmount}
  {inflow inflow' outflow outflow' : Address → ℕ}

theorem Flow.refl (l : Ledger Address Pubkey) : Flow l l nothing nothing :=
  ⟨fun _ _ => Nat.le_refl _, fun _ _ _ h => h, fun _ _ h => h⟩

theorem Flow.mono (h : Flow l l' inflow outflow) (hin : ∀ v, inflow' v ≤ inflow v)
    (hout : ∀ v, outflow v ≤ outflow' v) : Flow l l' inflow' outflow' where
  balance v hv := by
    have := h.balance v hv
    have := hin v
    have := hout v
    omega
  held := h.held
  absent := h.absent

theorem Flow.trans (h : Flow l l' inflow outflow) (h' : Flow l' l'' inflow' outflow') :
    Flow l l'' (fun v => inflow v + inflow' v) (fun v => outflow v + outflow' v) where
  balance v hv := by
    have := h.balance v hv
    have := h'.balance v hv
    omega
  held v m hv hh := h'.held v m hv (h.held v m hv hh)
  absent v hv ha := h'.absent v hv (h.absent v hv ha)

theorem Flow.vaultsHeld (h : Flow l l' inflow outflow) (hl : VaultsHeld l) : VaultsHeld l' :=
  fun v hv => (hl v hv).imp (h.absent v hv) (fun ⟨m, hm⟩ => ⟨m, h.held v m hv hm⟩)

theorem absent_of_frame {ms : List Pubkey} (h : Frame l l' ms)
    (ha : l.accounts.lookup v = none) : l'.accounts.lookup v = none := by
  have hk := h.kinds v
  rwa [Ledger.kind, Ledger.kind, ha, Option.map_none, Option.map_eq_none_iff] at hk

/-- A transfer out of a vault. -/
theorem flow_of_program {authority : Address} (h : Transferred l l' src dst authority n) :
    Flow l l' (only dst n.val) (only src n.val) where
  balance v _ := (h.balances v).ge
  held _ _ _ hh := hh.frame h.toFrame
  absent _ _ ha := absent_of_frame h.toFrame ha

theorem held_signer_ne {v : Address} (hv : v.isKey = false) : Address.key k ≠ v.signer := by
  intro he
  have := Address.signer_isKey hv
  rw [← he] at this
  cases this

/-- A transfer that a user signs takes nothing from the vaults. -/
theorem flow_of_user (hl : VaultsHeld l) (h : Transferred l l' src dst (.key k) n) :
    Flow l l' (only dst n.val) nothing where
  balance v hv := by
    have hb := h.balances v
    have hsrc : v = src → n.val = 0 := by
      rintro rfl
      obtain ⟨a, ha, hmove⟩ := h.source_owner
      rcases hl v hv with hnone | ⟨m, hm⟩
      · rw [hnone] at ha
        cases ha
      · exact absurd (hm.owner_eq ha hmove) (held_signer_ne hv)
    unfold only nothing
    by_cases he : v = src
    · rw [hsrc he] at hb ⊢
      rw [ite_self] at hb ⊢
      rw [ite_self] at hb
      exact hb.ge
    · rw [if_neg he] at hb
      exact hb.ge
  held _ _ _ hh := hh.frame h.toFrame
  absent _ _ ha := absent_of_frame h.toFrame ha

/-- What users do on their own takes nothing from the vaults. -/
theorem flow_of_tokenOp {p : TokenProgram Address Pubkey} (hp : p.Lawful) (hl : VaultsHeld l)
    {op : TokenOp Address Pubkey} (hsign : op.signer.all Address.isKey = true)
    (h : op.apply p l = some l') : Flow l l' nothing nothing := by
  have hne : ∀ a : Address, a.isKey = false → op.signer ≠ some a := by
    intro a ha he
    rw [he, Option.all_some, ha] at hsign
    cases hsign
  refine ⟨fun v hv => ?_, fun v m hv hh => ?_, fun v hv ha => ?_⟩
  · rcases hl v hv with hnone | ⟨m, hm⟩
    · rw [Ledger.balance, hnone]
      exact Nat.zero_le _
    · exact (TokenOp.apply_held hp h hm (hne _ (Address.signer_isKey hv))).2
  · exact (TokenOp.apply_held hp h hh (hne _ (Address.signer_isKey hv))).1
  · exact TokenOp.apply_absent hp h ha (hne _ hv)

end Flows

/-! ## Acts -/

/-- The tokens that a period releases. -/
def HarvestPeriod.cost (p : HarvestPeriod) : ℕ :=
  (p.endsAt.val + 1 - p.startsAt.val) * p.tps.val

/-- A period was scheduled, in place of a later one (`old`) or in front of
the others, of which the oldest is dropped. -/
structure Scheduled (now : Slot) (h h' : Harvest) (p : HarvestPeriod)
    (old : Option HarvestPeriod) : Prop where
  mint : h'.mint = h.mint
  starts : now ≤ p.startsAt
  ends : p.startsAt < p.endsAt
  /-- The latest period that has started is over by then. -/
  follows : ∃ q, h.periods.toList.find? (fun p => p.startsAt ≤ now) = some q ∧ q.endsAt < p.startsAt
  started : old = none → h.periods.head.startsAt ≤ now
  periods : old = some h.periods.head ∧ now < h.periods.head.startsAt
      ∧ h'.periods.toList = p :: h.periods.toList.tail
    ∨ old = none ∧ h'.periods.toList = p :: h.periods.toList.dropLast

theorem Scheduled.head_eq {now : Slot} {h h' : Harvest} {p : HarvestPeriod}
    {old : Option HarvestPeriod} (hs : Scheduled now h h' p old) : h'.periods.head = p := by
  have hnew := h'.periods_eq_cons
  rcases hs.periods with ⟨-, -, hperiods⟩ | ⟨-, hperiods⟩
  all_goals
    rw [hperiods] at hnew
    exact (List.cons.inj hnew).1.symm

/-- Only the latest period is overwritten, and only before it starts. -/
theorem Scheduled.old_eq {now : Slot} {h h' : Harvest} {p q : HarvestPeriod}
    (hs : Scheduled now h h' p (some q)) : q = h.periods.head ∧ now < q.startsAt := by
  rcases hs.periods with ⟨hold, hlater, -⟩ | ⟨hold, -⟩
  · obtain rfl := Option.some.inj hold
    exact ⟨rfl, hlater⟩
  · cases hold

/-- A farmer without any tokens. -/
structure Fresh (k : FarmerKey) (f : Farmer) : Prop where
  farm : f.farm = k.1
  deposited : f.deposited = 0
  cursor : f.calculateNextHarvestFrom = 0
  unclaimed : ∀ m, f.unclaimed m = 0

theorem Fresh.staked_eq {k : FarmerKey} {f : Farmer} (h : Fresh k f) : f.staked = 0 := by
  have hd := h.deposited
  unfold Farmer.deposited at hd
  exact Word.val_eq_zero.mp (by omega)

theorem Fresh.vested_eq {k : FarmerKey} {f : Farmer} (h : Fresh k f) : f.vested = 0 := by
  have hd := h.deposited
  unfold Farmer.deposited at hd
  exact Word.val_eq_zero.mp (by omega)

/-- The same harvests and snapshots. -/
structure SameFarm (farm farm' : Farm) : Prop where
  stakeMint : farm'.stakeMint = farm.stakeMint
  stakeVault : farm'.stakeVault = farm.stakeVault
  harvests : farm'.harvests = farm.harvests
  snapshots : farm'.snapshots = farm.snapshots

inductive Act
  /-- Tokens were added to the vested tokens of a farmer. -/
  | deposit (k : FarmerKey)
  /-- A farm took a snapshot. -/
  | snapshot (F : Pubkey)
  | other
deriving DecidableEq

inductive Acts : Act → FarmingState → FarmingState → Prop
  | tick {s slot} (h : s.slot ≤ slot) : Acts .other s { s with slot }
  | whitelist {s w} : Acts .other s { s with whitelist := w }
  | token {s l'} (hflow : Flow s.ledger l' nothing nothing) : Acts .other s (s.setLedger l')
  | settings {s F farm farm'} (hfarm : s.farms.lookup F = some farm)
      (same : SameFarm farm farm') : Acts .other s (s.setFarm F farm')
  | createFarm {s F m admin l'} (hnew : s.farms.lookup F = none)
      (hinit : Initialized s.ledger l' (.stakeVault F) m (.farmSigner F)) :
      Acts .other s ((s.setLedger l').setFarm F
        { (default : Farm) with admin, stakeMint := m, stakeVault := .stakeVault F })
  | addHarvest {s F farm farm' m l'} (hfarm : s.farms.lookup F = some farm)
      (hadd : farm.addHarvest m (.harvestVault F m) = .ok farm')
      (hinit : Initialized s.ledger l' (.harvestVault F m) m (.farmSigner F)) :
      Acts .other s ((s.setLedger l').setFarm F farm')
  | removeHarvest {s F farm m h l'} (hfarm : s.farms.lookup F = some farm)
      (hfind : farm.findHarvest m = some h)
      (hclosed : Closed s.ledger l' (.harvestVault F m) (.farmSigner F)) :
      Acts .other s ((s.setLedger l').setFarm F (farm.setHarvest m default))
  | period {s F farm m h h' p old l'} (hfarm : s.farms.lookup F = some farm)
      (hfind : farm.findHarvest m = some h) (hsched : Scheduled s.slot h h' p old)
      (hflow : Flow s.ledger l' (only (.harvestVault F m) p.cost)
        (only (.harvestVault F m) ((old.map HarvestPeriod.cost).getD 0))) :
      Acts .other s ((s.setLedger l').setFarm F (farm.setHarvest m h'))
  | snapshot {s F farm farm' n} (hfarm : s.farms.lookup F = some farm)
      (hvault : n.val = s.ledger.balance (.stakeVault F))
      (hsnap : Farm.Snapped farm farm' s.slot n) : Acts (.snapshot F) s (s.setFarm F farm')
  | createFarmer {s k f} (hnew : s.farmers.lookup k = none) (hfresh : Fresh k f) :
      Acts .other s (s.setFarmer k f)
  | closeFarmer {s k f} (hf : s.farmers.lookup k = some f) (hdeposited : f.deposited = 0)
      (hunclaimed : ∀ m, f.unclaimed m = 0) :
      Acts .other s { s with farmers := s.farmers.erase k }
  | stake {s k f f' n l'} (hf : s.farmers.lookup k = some f)
      (hstaked : f.Staked f' s.slot n)
      (hflow : Flow s.ledger l' (only (.stakeVault k.1) n.val) nothing) :
      Acts (.deposit k) s ((s.setLedger l').setFarmer k f')
  | unstake {s k f f' max n l'} (hf : s.farmers.lookup k = some f)
      (hunstaked : f.Unstaked f' max n)
      (hflow : Flow s.ledger l' nothing (only (.stakeVault k.1) n.val)) :
      Acts .other s ((s.setLedger l').setFarmer k f')
  | claim {s k f f' paid l'} (hf : s.farmers.lookup k = some f) (same : f.SameStake f')
      (hpaid : ∀ m, f'.unclaimed m + paid (.harvestVault k.1 m) ≤ f.unclaimed m)
      (hothers : ∀ v, (∀ m, v ≠ .harvestVault k.1 m) → paid v = 0)
      (hflow : Flow s.ledger l' nothing paid) :
      Acts .other s ((s.setLedger l').setFarmer k f')
  | compound {s k₁ f₁ m n k₂ f₂ f₂' l'} (hf₁ : s.farmers.lookup k₁ = some f₁)
      (hfind : ∃ h, f₁.findHarvest m = some h ∧ h.tokens = n)
      (hf₂ : (s.setFarmer k₁ (f₁.setHarvestTokens m 0)).farmers.lookup k₂ = some f₂)
      (hstaked : f₂.Staked f₂' s.slot n)
      (hflow : Flow s.ledger l' (only (.stakeVault k₂.1) n.val)
        (only (.harvestVault k₁.1 m) n.val)) :
      Acts (.deposit k₂) s
        (((s.setLedger l').setFarmer k₁ (f₁.setHarvestTokens m 0)).setFarmer k₂ f₂')
  | airdrop {s k f m h t l'} {n : TokenAmount} (hf : s.farmers.lookup k = some f)
      (hfind : f.findHarvest m = some h) (ht : t.val = h.tokens.val + n.val)
      (hflow : Flow s.ledger l' (only (.harvestVault k.1 m) n.val) nothing) :
      Acts .other s ((s.setLedger l').setFarmer k (f.setHarvestTokens m t))

/-- Whose harvest an instruction credits first, and until when. -/
def Instr.harvests (now : Slot) : Instr → Option (FarmerKey × Slot)
  | .startFarming accs _ => some (accs.farmer, now)
  | .stopFarming accs _ => some (accs.farmer, now)
  | .updateEligibleHarvest _ farmer => some (farmer, now)
  | .updateEligibleHarvestUntil _ farmer til => some (farmer, min now til)
  | .compoundSameFarm accs => some (accs.farmer, now)
  | .compoundAcrossFarms accs => some (accs.sourceFarmer, now)
  | _ => none

/-- What it does after that. -/
def Instr.act : Instr → Act
  | .startFarming accs _ => .deposit accs.farmer
  | .compoundSameFarm accs => .deposit accs.farmer
  | .compoundAcrossFarms accs => .deposit accs.targetFarmer
  | .takeSnapshot farm _ => .snapshot farm
  | _ => .other

inductive Harvests (s : FarmingState) : Option (FarmerKey × Slot) → FarmingState → Prop
  | none : Harvests s none s
  | check {k til f farm f'} (hf : s.farmers.lookup k = some f)
      (hfarm : s.farms.lookup k.1 = some farm) (htil : til ≤ s.slot)
      (hcheck : f.checkVestedPeriodAndUpdateHarvest farm til = .ok f') :
      Harvests s (some (k, til)) (s.setFarmer k f')

end SolanaAmm.Farming
