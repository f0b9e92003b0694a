import SolanaAmm.Lib.Token

/-!
# Circulation — why a payment does not fail

`circulating l m` are the tokens of a mint in all accounts. A lawful token
program keeps them within the supply of the mint (`Ledger.Backed`), so a
transfer never overflows its destination. What else a transfer needs is
written down as `TransferOrder.InOrder`; a token program that needs no more
is `Live`, and carries out a batch of such orders if no account is asked
for more than it holds.
-/

namespace SolanaAmm.Token

variable {κ μ : Type} [DecidableEq κ] [DecidableEq μ] {p : TokenProgram κ μ}
  {l l' : Ledger κ μ} {k src dst authority owner : κ} {m : μ} {n : U64} {ms : List μ}

namespace Ledger

/-- The tokens of a mint in all accounts. -/
def circulating (l : Ledger κ μ) (m : μ) : ℕ :=
  Store.total (fun _ a => if a.mint = m then a.amount.val else 0) l.accounts

/-- No mint has more tokens in accounts than it issued. -/
def Backed (l : Ledger κ μ) : Prop := ∀ m, l.circulating m ≤ l.supply m

/-- The account holds tokens of the mint. -/
def Of (l : Ledger κ μ) (m : μ) (k : κ) : Prop := (l.kind k).map Prod.fst = some m

instance (l : Ledger κ μ) (m : μ) (k : κ) : Decidable (l.Of m k) :=
  inferInstanceAs (Decidable (_ = _))

def isFrozen (l : Ledger κ μ) (k : κ) : Bool := (l.accounts.lookup k).elim false (·.isFrozen)

/-- The account can be sent tokens of the mint. -/
structure Receives (l : Ledger κ μ) (m : μ) (k : κ) : Prop where
  of : l.Of m k
  thawed : l.isFrozen k = false

theorem circulating_eq_sum (ks : Finset κ) (h : ∀ k, k ∈ l.accounts → k ∈ ks) :
    l.circulating m = ∑ k ∈ ks, if l.Of m k then l.balance k else 0 := by
  rw [circulating, Store.total_eq_sum ks h]
  refine Finset.sum_congr rfl (fun k _ => ?_)
  cases ha : l.accounts.lookup k with
  | none => rw [Ledger.balance_of_absent ha, ite_self, Option.elim_none]
  | some a => simp [Of, Ledger.kind_of_lookup ha, Ledger.balance_of_lookup ha]

/-- An account holds no more than all of them. -/
theorem balance_le (h : l.Of m k) : l.balance k ≤ l.circulating m := by
  unfold Of kind at h
  rw [Option.map_map, Option.map_eq_some_iff] at h
  obtain ⟨a, ha, rfl⟩ := h
  have hle := Store.le_total (s := l.accounts)
    (g := fun _ c => if c.mint = a.mint then c.amount.val else 0) ha
  rw [if_pos rfl] at hle
  exact (balance_of_lookup ha).trans_le hle

/-- Neither do two of them. -/
theorem add_balance_le (hsrc : l.Of m src) (hdst : l.Of m dst) (hne : src ≠ dst) :
    l.balance src + l.balance dst ≤ l.circulating m := by
  unfold Of kind at hsrc hdst
  rw [Option.map_map, Option.map_eq_some_iff] at hsrc hdst
  obtain ⟨a, ha, rfl⟩ := hsrc
  obtain ⟨b, hb, hmint⟩ := hdst
  have hb' : (l.accounts.erase src).lookup dst = some b :=
    (AList.lookup_erase_ne (Ne.symm hne)).trans hb
  have hmint : b.mint = a.mint := hmint
  have hrest := Store.le_total (s := l.accounts.erase src)
    (g := fun _ c => if c.mint = a.mint then c.amount.val else 0) hb'
  rw [circulating, Store.total_erase ha, balance_of_lookup ha, balance_of_lookup hb]
  simp only [hmint, if_true, Function.comp_apply] at hrest ⊢
  omega

omit [DecidableEq κ] in
/-- Mints without accounts have no tokens to back. -/
theorem backed_iff : l.Backed ↔
    ∀ e ∈ l.accounts.entries, l.circulating e.2.mint ≤ l.supply e.2.mint := by
  refine ⟨fun hl e _ => hl e.2.mint, fun h m => ?_⟩
  by_cases hm : ∃ e ∈ l.accounts.entries, e.2.mint = m
  · obtain ⟨e, he, rfl⟩ := hm
    exact h e he
  · have hnone : l.circulating m = 0 := by
      refine List.sum_eq_zero (fun n hn => ?_)
      obtain ⟨e, he, rfl⟩ := List.mem_map.mp hn
      exact if_neg (fun he' => hm ⟨e, he, he'⟩)
    rw [hnone]
    exact Nat.zero_le _

instance (l : Ledger κ μ) : Decidable l.Backed := decidable_of_iff _ backed_iff.symm

/-- Tokens that an account holds were issued. -/
theorem Backed.issued (hl : l.Backed) (h : l.Of m k) (hpos : 0 < l.balance k) :
    ∃ a, l.mints.lookup m = some a ∧ l.balance k ≤ a.supply.val := by
  have hle := (balance_le h).trans (hl m)
  cases hmint : l.mints.lookup m with
  | some a => exact ⟨a, rfl, supply_of_lookup hmint ▸ hle⟩
  | none =>
      rw [supply, hmint] at hle
      exact absurd (hpos.trans_le hle) (Nat.lt_irrefl 0)

end Ledger

/-! ## A lawful token program keeps mints backed -/

section Backed

open Ledger

theorem Frame.of_iff (h : Frame l l' ms) : l'.Of m k ↔ l.Of m k := by
  unfold Of
  rw [h.kinds k]

/-- Tokens of one account that were sent to another one, created or
destroyed. -/
theorem Frame.circulating (h : Frame l l' ms) (src : κ) (out : ℕ) (dst : κ) (into : ℕ)
    (hb : ∀ k, l'.balance k + (if k = src then out else 0)
      = l.balance k + (if k = dst then into else 0)) :
    l'.circulating m + (if l.Of m src then out else 0)
      = l.circulating m + (if l.Of m dst then into else 0) := by
  have hsingle : ∀ (x : κ) (c : ℕ) {ks : Finset κ}, x ∈ ks →
      ∑ k ∈ ks, (if l.Of m k then (if k = x then c else 0) else 0) = if l.Of m x then c else 0 := by
    intro x c ks hx
    rw [Finset.sum_eq_single_of_mem x hx (fun k _ hk => by rw [if_neg hk, ite_self]), if_pos rfl]
  let ks : Finset κ :=
    insert src (insert dst (l.accounts.keys.toFinset ∪ l'.accounts.keys.toFinset))
  have hsrc : src ∈ ks := by simp [ks]
  have hdst : dst ∈ ks := by simp [ks]
  rw [circulating_eq_sum (l := l) ks (fun k hk => by simp [ks, AList.mem_keys.mp hk]),
    circulating_eq_sum (l := l') ks (fun k hk => by simp [ks, AList.mem_keys.mp hk]),
    ← hsingle src out hsrc, ← hsingle dst into hdst, ← Finset.sum_add_distrib,
    ← Finset.sum_add_distrib]
  refine Finset.sum_congr rfl (fun k _ => ?_)
  by_cases hk : l.Of m k
  · rw [if_pos hk, if_pos hk, if_pos hk, if_pos (h.of_iff.mpr hk)]
    exact hb k
  · rw [if_neg hk, if_neg hk, if_neg hk, if_neg (fun h' => hk (h.of_iff.mp h'))]

theorem Frame.supply (h : Frame l l' ms) (hm : m ∉ ms) : l'.supply m = l.supply m :=
  supply_congr (h.supplies m hm)

theorem Transferred.backed (h : Transferred l l' src dst authority n) (hl : l.Backed) :
    l'.Backed := by
  intro m
  have hmoved := h.circulating (m := m) src n.val dst n.val h.balances
  have hsame : l.Of m dst ↔ l.Of m src := by
    unfold Of
    rw [h.destination]
  simp only [hsame] at hmoved
  have hle := hl m
  rw [h.supply List.not_mem_nil]
  omega

theorem Minted.backed (h : Minted l l' m dst authority n) (hl : l.Backed) : l'.Backed := by
  intro m'
  have hmoved := h.circulating (m := m') dst 0 dst n.val
    (fun k => by rw [ite_self]; exact h.balances k)
  have hle := hl m'
  rw [ite_self, Nat.add_zero] at hmoved
  obtain ⟨a, a', ha, ha', -, hsupply, -⟩ := h.mint
  have hdst : l.Of m dst := h.destination
  by_cases hm : m' = m
  · subst hm
    rw [if_pos hdst] at hmoved
    rw [supply_of_lookup ha] at hle
    rw [supply_of_lookup ha']
    omega
  · rw [if_neg (fun hof => hm (Option.some.inj (hof.symm.trans hdst)))] at hmoved
    rw [h.supply (by simpa using hm)]
    omega

theorem Burned.backed (h : Burned l l' m src authority n) (hl : l.Backed) : l'.Backed := by
  intro m'
  have hmoved := h.circulating (m := m') src n.val src 0
    (fun k => by rw [ite_self]; exact h.balances k)
  have hle := hl m'
  rw [ite_self, Nat.add_zero] at hmoved
  obtain ⟨a, a', ha, ha', -, hsupply, -⟩ := h.mint
  obtain ⟨b, hb, -, -, hmint⟩ := h.source
  have hsrc : l.Of m src := by rw [Of, kind_of_lookup hb, ← hmint]; rfl
  by_cases hm : m' = m
  · subst hm
    rw [if_pos hsrc] at hmoved
    rw [supply_of_lookup ha] at hle
    rw [supply_of_lookup ha']
    omega
  · rw [h.supply (by simpa using hm)]
    omega

/-- No account gains tokens and no mint loses any. -/
theorem Ledger.Backed.mono (hl : l.Backed) (hmints : l'.mints = l.mints)
    (h : ∀ k a, l'.accounts.lookup k = some a → a.amount = 0 ∨ l.accounts.lookup k = some a) :
    l'.Backed := by
  intro m
  refine (Store.total_le_of_lookup (fun k => ?_)).trans ((hl m).trans (Nat.le_of_eq ?_))
  · cases ha : l'.accounts.lookup k with
    | none => exact Nat.zero_le _
    | some a =>
        rcases h k a ha with hzero | hsame
        · rw [Option.elim_some, hzero, Word.val_zero, ite_self]
          exact Nat.zero_le _
        · rw [hsame]
  · rw [supply_congr (by rw [hmints])]

theorem Initialized.backed (h : Initialized l l' k m owner) (hl : l.Backed) : l'.Backed := by
  refine hl.mono h.mints (fun k' a ha => ?_)
  by_cases hk : k' = k
  · rw [hk, h.created] at ha
    cases ha
    exact .inl rfl
  · exact .inr ((h.others k' hk).symm.trans ha)

theorem Closed.backed (h : Closed l l' k authority) (hl : l.Backed) : l'.Backed := by
  refine hl.mono h.mints (fun k' a ha => .inr ?_)
  by_cases hk : k' = k
  · rw [hk, h.removed] at ha
    cases ha
  · exact (h.others k' hk).symm.trans ha

omit [DecidableEq κ] in
theorem AuthoritySet.backed {newAuthority : Option κ}
    (h : AuthoritySet l l' m authority newAuthority) (hl : l.Backed) : l'.Backed := by
  intro m'
  have hcirculating : l'.circulating m' = l.circulating m' := by
    unfold circulating
    rw [h.accounts]
  obtain ⟨a, ha, -, ha'⟩ := h.mint
  rw [hcirculating]
  by_cases hm : m' = m
  · subst hm
    rw [supply_of_lookup ha', ← supply_of_lookup ha]
    exact hl m'
  · rw [supply_congr (h.others m' hm)]
    exact hl m'

/-- **Mints stay backed**, whatever users ask of the token program. -/
theorem TokenOp.apply_backed (hp : p.Lawful) {op : TokenOp κ μ} (h : op.apply p l = some l')
    (hl : l.Backed) : l'.Backed := by
  cases op with
  | openAccount key account =>
      simp only [apply, Option.bind_eq_bind, Option.bind_eq_some_iff, Result.guard_eq_some] at h
      obtain ⟨-, ⟨-, hzero⟩, h⟩ := h
      cases h
      refine hl.mono rfl (fun k a ha => ?_)
      rcases Store.lookup_insert_cases ha with ⟨-, rfl⟩ | ⟨-, ha⟩
      · exact .inl hzero
      · exact .inr ha
  | openMint key mint =>
      simp only [apply, Option.bind_eq_bind, Option.bind_eq_some_iff, Result.guard_eq_some] at h
      obtain ⟨-, ⟨habsent, -⟩, h⟩ := h
      cases h
      intro m
      have hle : l.supply m ≤ Ledger.supply { l with mints := l.mints.insert key mint } m := by
        by_cases hm : m = key
        · rw [hm, supply, habsent]
          exact Nat.zero_le _
        · exact (supply_congr (AList.lookup_insert_ne hm)).ge
      exact (hl m).trans hle
  | transfer source destination authority amount => exact (hp.transfer_ok h).backed hl
  | mintTo mint destination authority amount => exact (hp.mintTo_ok h).backed hl
  | burn mint source authority amount => exact (hp.burn_ok h).backed hl
  | setMintAuthority mint authority newAuthority => exact (hp.setMintAuthority_ok h).backed hl
  | closeAccount key authority => exact (hp.closeAccount_ok h).backed hl

theorem transferAll_backed (hp : p.Lawful) {orders : List (TransferOrder κ)}
    (h : transferAll p l orders = some l') (hl : l.Backed) : l'.Backed := by
  induction orders generalizing l with
  | nil =>
      cases h
      exact hl
  | cons o orders ih =>
      obtain ⟨l₁, h₁, h₂⟩ := transferAll_cons_eq_some.mp h
      exact ih h₂ ((hp.transfer_ok h₁).backed hl)

end Backed

/-! ## Orders that are carried out -/

/-- The authority owns the source, both accounts hold the same mint, and
neither is frozen. -/
structure TransferOrder.InOrder (l : Ledger κ μ) (o : TransferOrder κ) : Prop where
  kinds : ∃ m, l.kind o.source = some (m, o.authority) ∧ l.Receives m o.destination
  thawed : l.isFrozen o.source = false

/-- The token program has no other reason to refuse. -/
structure TokenProgram.Live (p : TokenProgram κ μ) : Prop where
  transfer : ∀ {l} {o : TransferOrder κ}, o.InOrder l → o.amount.val ≤ l.balance o.source →
    (o.source = o.destination ∨ l.balance o.destination + o.amount.val < 2 ^ 64) →
    ∃ l', p.transfer l o.source o.destination o.authority o.amount = some l'
  burn : ∀ {l m src authority} {n : U64}, l.kind src = some (m, authority) →
    l.isFrozen src = false → n.val ≤ l.balance src → (l.mints.lookup m).isSome →
    n.val ≤ l.supply m → ∃ l', p.burn l m src authority n = some l'
  /-- A transfer freezes no account. -/
  transfer_isFrozen : ∀ {l l' src dst authority n}, p.transfer l src dst authority n = some l' →
    ∀ k, l'.isFrozen k = l.isFrozen k

section Live

open Ledger

variable {o : TransferOrder κ} {orders : List (TransferOrder κ)}

theorem Ledger.Receives.frame (h : l.Receives m k) (hf : Frame l l' ms)
    (hfrozen : ∀ k, l'.isFrozen k = l.isFrozen k) : l'.Receives m k :=
  ⟨hf.of_iff.mpr h.of, (hfrozen k).trans h.thawed⟩

omit [DecidableEq μ] in
theorem sent_eq_zero (h : ∀ o ∈ orders, o.source ≠ k) : sent orders k = 0 := by
  refine List.sum_eq_zero (fun n hn => ?_)
  obtain ⟨o, ho, rfl⟩ := List.mem_map.mp hn
  exact if_neg (Ne.symm (h o ho))

/-- The destination has room for what the source holds. -/
theorem TransferOrder.InOrder.room (h : o.InOrder l) (hl : l.Backed)
    (hn : o.amount.val ≤ l.balance o.source) :
    o.source = o.destination ∨ l.balance o.destination + o.amount.val < 2 ^ 64 := by
  by_cases hne : o.source = o.destination
  · exact .inl hne
  · obtain ⟨m, hsrc, hdst⟩ := h.kinds
    have hsum := add_balance_le (l := l) (m := m) (by rw [Of, hsrc]; rfl) hdst.of hne
    have hlt : l.supply m < 2 ^ 64 := by
      unfold supply
      split
      · exact Word.isLt _
      · exact Nat.two_pow_pos 64
    have hle := hl m
    exact .inr (by omega)

/-- An account that only its owner can use pays what it holds. -/
theorem Held.pays (hlive : p.Live) (hl : l.Backed) (h : Held l src m owner)
    (hthawed : l.isFrozen src = false) (hdst : l.Receives m dst) (hn : n.val ≤ l.balance src) :
    ∃ l', p.transfer l src dst owner n = some l' := by
  obtain ⟨a, ha, rfl, rfl, -⟩ := h
  have ho : TransferOrder.InOrder l ⟨src, dst, a.owner, n⟩ :=
    ⟨⟨a.mint, kind_of_lookup ha, hdst⟩, hthawed⟩
  exact hlive.transfer ho hn (ho.room hl hn)

/-- **A batch** of orders that are in order goes through, if no account is
asked for more than it holds. -/
theorem transferAll_isSome (hp : p.Lawful) (hlive : p.Live) (hl : l.Backed)
    (ho : ∀ o ∈ orders, o.InOrder l) (hfunds : ∀ k, sent orders k ≤ l.balance k) :
    ∃ l', transferAll p l orders = some l' := by
  induction orders generalizing l with
  | nil => exact ⟨l, rfl⟩
  | cons o orders ih =>
      have hfirst := ho o List.mem_cons_self
      have hcons : ∀ k, (if k = o.source then o.amount.val else 0) + sent orders k
          ≤ l.balance k := hfunds
      have hn : o.amount.val ≤ l.balance o.source := by
        have := hcons o.source
        rw [if_pos rfl] at this
        omega
      obtain ⟨l₁, h₁⟩ := hlive.transfer hfirst hn (hfirst.room hl hn)
      have ht := hp.transfer_ok h₁
      have hfrozen := hlive.transfer_isFrozen h₁
      obtain ⟨l', h'⟩ := ih (ht.backed hl)
        (fun o' ho' => by
          obtain ⟨⟨m, hsrc, hdst⟩, hthawed⟩ := ho o' (List.mem_cons_of_mem _ ho')
          exact ⟨⟨m, (ht.kinds _).trans hsrc, hdst.frame ht.toFrame hfrozen⟩,
            (hfrozen _).trans hthawed⟩)
        (fun k => by
          have hb := ht.balances k
          have := hcons k
          omega)
      exact ⟨l', transferAll_cons_eq_some.mpr ⟨l₁, h₁, h'⟩⟩

theorem transferAll_kind (hp : p.Lawful) (h : transferAll p l orders = some l') :
    l'.kind k = l.kind k := by
  induction orders generalizing l with
  | nil =>
      cases h
      rfl
  | cons o orders ih =>
      obtain ⟨l₁, h₁, h₂⟩ := transferAll_cons_eq_some.mp h
      rw [ih h₂, (hp.transfer_ok h₁).kinds k]

theorem transferAll_isFrozen (hlive : p.Live) (h : transferAll p l orders = some l') :
    l'.isFrozen k = l.isFrozen k := by
  induction orders generalizing l with
  | nil =>
      cases h
      rfl
  | cons o orders ih =>
      obtain ⟨l₁, h₁, h₂⟩ := transferAll_cons_eq_some.mp h
      rw [ih h₂, hlive.transfer_isFrozen h₁ k]

/-- **A burn** of tokens that an account holds goes through: they are in
supply. -/
theorem burn_isSome (hlive : p.Live) (hl : l.Backed) (hkind : l.kind src = some (m, authority))
    (hthawed : l.isFrozen src = false) (hpos : 0 < n.val) (hn : n.val ≤ l.balance src) :
    ∃ l', p.burn l m src authority n = some l' := by
  obtain ⟨a, ha, hle⟩ := hl.issued (by rw [Of, hkind]; rfl) (hpos.trans_le hn)
  refine hlive.burn hkind hthawed hn ?_ ?_
  · rw [ha]
    rfl
  · rw [supply_of_lookup ha]
    exact hn.trans hle

end Live

namespace Reference

omit [DecidableEq μ] in
theorem setAmount_isFrozen {a : TokenAccount κ μ} (h : l.accounts.lookup src = some a) :
    (setAmount l src a n).isFrozen k = l.isFrozen k := by
  unfold Ledger.isFrozen setAmount
  by_cases hk : k = src
  · rw [hk, AList.lookup_insert, h]
    rfl
  · rw [AList.lookup_insert_ne hk]

theorem transfer_isSome {o : TransferOrder κ} (ho : o.InOrder l)
    (hn : o.amount.val ≤ l.balance o.source)
    (hroom : o.source = o.destination ∨ l.balance o.destination + o.amount.val < 2 ^ 64) :
    ∃ l', transfer l o.source o.destination o.authority o.amount = some l' := by
  obtain ⟨m, hsrc, hdst⟩ := ho.kinds
  have hof := hdst.of
  unfold Ledger.Of Ledger.kind at hof
  rw [Option.map_map, Option.map_eq_some_iff] at hof
  obtain ⟨b, hb, hmint⟩ := hof
  obtain ⟨a, ha, hkind⟩ := Option.map_eq_some_iff.mp hsrc
  obtain ⟨rfl, howner⟩ := Prod.mk.inj hkind
  have hmint : b.mint = a.mint := hmint
  have hthawed : a.isFrozen = false ∧ b.isFrozen = false := by
    have hs := ho.thawed
    have hd := hdst.thawed
    unfold Ledger.isFrozen at hs hd
    rw [ha] at hs
    rw [hb] at hd
    exact ⟨hs, hd⟩
  rw [Ledger.balance_of_lookup ha] at hn
  rw [Ledger.balance_of_lookup hb] at hroom
  obtain ⟨less, hless⟩ := Word.checkedSub_isSome hn
  have hchecks : a.isFrozen = false ∧ b.isFrozen = false ∧ a.mint = b.mint
      ∧ mayMove a o.authority := ⟨hthawed.1, hthawed.2, hmint.symm, .inl howner.symm⟩
  simp only [transfer, ha, hb, Option.bind_eq_bind, Option.bind_some, hless,
    (Result.guard_eq_some (u := ())).mpr hchecks]
  split
  · exact ⟨l, rfl⟩
  · rename_i hne
    obtain ⟨more, hmore⟩ := Word.checkedAdd_isSome (hroom.resolve_left hne)
    rw [hmore]
    exact ⟨_, rfl⟩

theorem burn_isSome (hkind : l.kind src = some (m, authority)) (hthawed : l.isFrozen src = false)
    (hn : n.val ≤ l.balance src) (hmint : (l.mints.lookup m).isSome)
    (hsupply : n.val ≤ l.supply m) :
    ∃ l', burn l m src authority n = some l' := by
  obtain ⟨b, hb, hkind⟩ := Option.map_eq_some_iff.mp hkind
  obtain ⟨hof, howner⟩ := Prod.mk.inj hkind
  obtain ⟨a, ha⟩ := Option.isSome_iff_exists.mp hmint
  rw [Ledger.balance_of_lookup hb] at hn
  rw [Ledger.supply_of_lookup ha] at hsupply
  have hthawed : b.isFrozen = false := by
    unfold Ledger.isFrozen at hthawed
    rw [hb] at hthawed
    exact hthawed
  obtain ⟨supply, hs⟩ := Word.checkedSub_isSome hsupply
  obtain ⟨less, hl⟩ := Word.checkedSub_isSome hn
  have hchecks : b.isFrozen = false ∧ b.mint = m ∧ mayMove b authority :=
    ⟨hthawed, hof, .inl howner.symm⟩
  simp only [burn, ha, hb, Option.bind_eq_bind, Option.bind_some, hs, hl,
    (Result.guard_eq_some (u := ())).mpr hchecks]
  exact ⟨_, rfl⟩

theorem transfer_isFrozen (h : transfer l src dst authority n = some l') :
    l'.isFrozen k = l.isFrozen k := by
  simp only [transfer, Option.bind_eq_bind, Option.bind_eq_some_iff, Result.guard_eq_some] at h
  obtain ⟨a, ha, b, hb, -, -, less, -, h⟩ := h
  split at h
  · cases h
    rfl
  · rename_i hne
    obtain ⟨more, -, h⟩ := Option.bind_eq_some_iff.mp h
    cases h
    have hb' : (setAmount l src a less).accounts.lookup dst = some b :=
      (AList.lookup_insert_ne (Ne.symm hne)).trans hb
    rw [setAmount_isFrozen hb', setAmount_isFrozen ha]

theorem live : (tokenProgram : TokenProgram κ μ).Live where
  transfer := transfer_isSome
  burn := burn_isSome
  transfer_isFrozen h _ := transfer_isFrozen h

end Reference

end SolanaAmm.Token
