import SolanaAmm.Lib.Result

/-!
# Machine — runs of an atomic step function

A machine is a step function `σ → ι → Except ε σ`. A transaction that
fails is rolled back, so an attempted instruction either takes the step
or leaves the state as it was (`exec`); a run attempts a list of
instructions in order. `Guarded` says that every instruction of a run
meets a condition in the state it is attempted in. The rules below are
the only inductions over runs.

What an invariant has to remember of the past is read off the history of
the run: `traced` is the same machine with the list of the steps taken
beside its state.
-/

namespace SolanaAmm.Machine

variable {σ ι ε : Type} (step : σ → ι → Except ε σ)

/-- One attempted instruction: a failing step changes nothing. -/
def exec (s : σ) (i : ι) : σ :=
  match step s i with
  | .ok s' => s'
  | .error _ => s

/-- The state after attempting the instructions of `is` in order. -/
def run (s : σ) (is : List ι) : σ :=
  is.foldl (exec step) s

/-- Every instruction of the run meets `G` in the state it is attempted
in. -/
def Guarded (G : σ → ι → Prop) : σ → List ι → Prop
  | _, [] => True
  | s, i :: is => G s i ∧ Guarded G (exec step s i) is

variable {step}

instance decidableGuarded {G : σ → ι → Prop} [∀ s i, Decidable (G s i)] :
    ∀ (s : σ) (is : List ι), Decidable (Guarded step G s is)
  | _, [] => inferInstanceAs (Decidable True)
  | s, i :: is =>
      have : Decidable (Guarded step G (exec step s i) is) :=
        decidableGuarded (exec step s i) is
      inferInstanceAs (Decidable (G s i ∧ Guarded step G (exec step s i) is))

theorem exec_ok {s s' : σ} {i : ι} (h : step s i = .ok s') :
    exec step s i = s' := by
  simp [exec, h]

theorem exec_error {s : σ} {i : ι} {err : ε} (h : step s i = .error err) :
    exec step s i = s := by
  simp [exec, h]

theorem step_of_isOk {s : σ} {i : ι} (h : (step s i).isOk = true) :
    step s i = .ok (exec step s i) := by
  cases hs : step s i with
  | error err =>
      rw [hs] at h
      cases h
  | ok s' => rw [exec_ok hs]

variable (step) in
/-- An attempted instruction either took its step or changed nothing. -/
theorem exec_cases (s : σ) (i : ι) :
    step s i = .ok (exec step s i) ∨ exec step s i = s := by
  unfold exec
  split
  · exact .inl ‹_›
  · exact .inr rfl

@[simp] theorem run_nil (s : σ) : run step s [] = s := rfl

@[simp] theorem run_cons (s : σ) (i : ι) (is : List ι) :
    run step s (i :: is) = run step (exec step s i) is := rfl

theorem run_append (s : σ) (is js : List ι) :
    run step s (is ++ js) = run step (run step s is) js := by
  simp [run, List.foldl_append]

/-- A guard on the instructions alone holds along every run of them. -/
theorem Guarded.of_forall {G : ι → Prop} {is : List ι} (h : ∀ i ∈ is, G i) {s : σ} :
    Guarded step (fun _ i => G i) s is := by
  induction is generalizing s with
  | nil => trivial
  | cons i is ih =>
      exact ⟨h i List.mem_cons_self, ih (fun j hj => h j (List.mem_cons_of_mem _ hj))⟩

/-- A guarded run goes on from where one ends. -/
theorem Guarded.append {G : σ → ι → Prop} {s : σ} {is js : List ι} (h : Guarded step G s is)
    (h' : Guarded step G (run step s is) js) : Guarded step G s (is ++ js) := by
  induction is generalizing s with
  | nil => exact h'
  | cons i is ih => exact ⟨h.1, ih h.2 h'⟩

/-- **The invariant rule**: what holds at the start and survives every
successful guarded step holds at the end of every guarded run. -/
theorem run_invariant {I : σ → Prop} {G : σ → ι → Prop}
    (hstep : ∀ s i s', I s → G s i → step s i = .ok s' → I s') :
    ∀ {s : σ} {is : List ι}, I s → Guarded step G s is →
      I (run step s is) := by
  intro s is
  induction is generalizing s with
  | nil => exact fun h _ => h
  | cons i is ih =>
      intro h hG
      refine ih ?_ hG.2
      rcases exec_cases step s i with hs | hs
      · exact hstep s i _ h hG.1 hs
      · rwa [hs]

/-- The invariant rule for runs without a guard. -/
theorem run_invariant' {I : σ → Prop}
    (hstep : ∀ s i s', I s → step s i = .ok s' → I s')
    {s : σ} (h : I s) (is : List ι) : I (run step s is) :=
  run_invariant (G := fun _ _ => True) (fun s i s' hs _ => hstep s i s' hs) h
    (.of_forall (fun _ _ => trivial))

/-! ## Histories -/

/-- A step that was taken. -/
structure Event (σ ι : Type) where
  before : σ
  instr : ι
  after : σ

/-- The steps taken, newest first. -/
abbrev History (σ ι : Type) := List (Event σ ι)

variable (step) in
/-- The machine that keeps its history. -/
def traced (p : σ × History σ ι) (i : ι) : Except ε (σ × History σ ι) := do
  let s' ← step p.1 i
  pure (s', ⟨p.1, i, s'⟩ :: p.2)

theorem traced_eq_ok {p p' : σ × History σ ι} {i : ι} :
    traced step p i = .ok p' ↔
      step p.1 i = .ok p'.1 ∧ p'.2 = ⟨p.1, i, p'.1⟩ :: p.2 := by
  simp only [traced, Result.bind_eq_ok, Result.pure_eq_ok]
  constructor
  · rintro ⟨s', hs, rfl⟩
    exact ⟨hs, rfl⟩
  · rintro ⟨hs, htr⟩
    exact ⟨p'.1, hs, Prod.ext rfl htr.symm⟩

/-- The history changes nothing. -/
theorem exec_traced_fst (p : σ × History σ ι) (i : ι) :
    (exec (traced step) p i).1 = exec step p.1 i := by
  unfold exec traced
  cases step p.1 i <;> rfl

theorem run_traced_fst (p : σ × History σ ι) (is : List ι) :
    (run (traced step) p is).1 = run step p.1 is := by
  induction is generalizing p with
  | nil => rfl
  | cons i is ih => rw [run_cons, run_cons, ih, exec_traced_fst]

/-- **The history rule**: what every guarded step from an invariant state
satisfies holds of every step in the history of a run. The guard and the
invariant may ask for the history. -/
theorem history_traced {I : σ × History σ ι → Prop} {G : σ × History σ ι → ι → Prop}
    {P : Event σ ι → Prop}
    (hstep : ∀ p i p', I p → G p i → traced step p i = .ok p' → I p' ∧ P ⟨p.1, i, p'.1⟩) {s : σ}
    (hs : I (s, [])) {is : List ι} (his : Guarded (traced step) G (s, []) is) :
    ∀ e ∈ (run (traced step) (s, []) is).2, P e := by
  have key : I (run (traced step) (s, []) is) ∧ ∀ e ∈ (run (traced step) (s, []) is).2, P e :=
    run_invariant (I := fun p : σ × History σ ι => I p ∧ ∀ e ∈ p.2, P e)
      (fun p i p' hp hG h => ?_)
      ⟨hs, fun e he => (List.not_mem_nil he).elim⟩ his
  · exact key.2
  · obtain ⟨hI, hP⟩ := hstep p i p' hp.1 hG h
    refine ⟨hI, fun e he => ?_⟩
    rw [(traced_eq_ok.mp h).2] at he
    rcases List.mem_cons.mp he with rfl | he
    · exact hP
    · exact hp.2 e he

/-- The history rule for runs without a guard. -/
theorem history_invariant {I : σ → Prop} {P : Event σ ι → Prop}
    (hstep : ∀ s i s', I s → step s i = .ok s' → I s' ∧ P ⟨s, i, s'⟩) {s : σ} (hs : I s)
    (is : List ι) : ∀ e ∈ (run (traced step) (s, []) is).2, P e :=
  history_traced (I := fun p => I p.1) (G := fun _ _ => True)
    (fun p i p' hp _ h => hstep p.1 i p'.1 hp (traced_eq_ok.mp h).1) hs
    (.of_forall (fun _ _ => trivial))

/-- The last step of a run is in its history. -/
theorem mem_history {s s' : σ} {is : List ι} {i : ι} (h : step (run step s is) i = .ok s') :
    ⟨run step s is, i, s'⟩ ∈ (run (traced step) (s, []) (is ++ [i])).2 := by
  rw [run_append, run_cons, run_nil]
  have hlast : traced step (run (traced step) (s, []) is) i
      = .ok (s', ⟨run step s is, i, s'⟩ :: (run (traced step) (s, []) is).2) := by
    rw [traced_eq_ok, run_traced_fst]
    exact ⟨h, rfl⟩
  rw [exec_ok hlast]
  exact List.mem_cons_self

/-- A guard on the states of a run is one on those of its history. -/
theorem guarded_traced {G : σ → ι → Prop} {p : σ × History σ ι} {is : List ι} :
    Guarded (traced step) (fun q i => G q.1 i) p is ↔ Guarded step G p.1 is := by
  induction is generalizing p with
  | nil => exact Iff.rfl
  | cons i is ih =>
      refine and_congr_right (fun _ => ?_)
      rw [ih, exec_traced_fst]

/-- The history rule for guarded runs. -/
theorem history_guarded {I : σ → Prop} {G : σ → ι → Prop} {P : Event σ ι → Prop}
    (hstep : ∀ s i s', I s → G s i → step s i = .ok s' → I s' ∧ P ⟨s, i, s'⟩) {s : σ} (hs : I s)
    {is : List ι} (his : Guarded step G s is) :
    ∀ e ∈ (run (traced step) (s, []) is).2, P e :=
  history_traced (I := fun p => I p.1) (G := fun p i => G p.1 i)
    (fun p i p' hp hG h => hstep p.1 i p'.1 hp hG (traced_eq_ok.mp h).1) hs
    (guarded_traced.mpr his)

end SolanaAmm.Machine
