import Mathlib

/-!
# Runs of a partial step function

A component whose operations may fail an assertion is a partial step function
`step : σ → ι → Option σ` on its state type `σ`, where `none` stands for the failed assertion. A run
executes a list of commands from left to right.

The two rules below package the induction over a run once. `runSteps_invariant` turns "one step
keeps the invariant and does not fail" into the same statement for a whole run, and
`runSteps_simulation` does this for a relation to the run of an abstract machine.
-/

namespace RainCall

open Option

variable {σ ι α : Type*}

/-- Execute the commands `ops` from left to right, stopping at the first failure. -/
def runSteps (step : σ → ι → Option σ) (s : σ) (ops : List ι) : Option σ :=
  ops.foldlM step s

@[simp] lemma runSteps_nil (step : σ → ι → Option σ) (s : σ) : runSteps step s [] = some s := rfl

@[simp] lemma runSteps_cons (step : σ → ι → Option σ) (s : σ) (op : ι) (ops : List ι) :
    runSteps step s (op :: ops) = (step s op).bind fun s' => runSteps step s' ops := rfl

/-- A run of `ops ++ ops'` is a run of `ops` followed by a run of `ops'`. -/
lemma runSteps_append (step : σ → ι → Option σ) (s : σ) (ops ops' : List ι) :
    runSteps step s (ops ++ ops') =
      (runSteps step s ops).bind fun s' => runSteps step s' ops' := by
  induction ops generalizing s with
  | nil => rfl
  | cons op ops ih =>
    simp only [List.cons_append, runSteps_cons]
    cases step s op with
    | none => rfl
    | some s' => simpa using ih s'

variable {step : σ → ι → Option σ} {s : σ} {ops : List ι} {P : σ → ι → Prop}

/-- Simulation rule for a run that is known to succeed. -/
lemma runSteps_simulation_of_some (astep : α → ι → α) (R : σ → α → Prop)
    (hstep : ∀ s a op s', R s a → step s op = some s' → R s' (astep a op)) {s' : σ} {a : α}
    (h : R s a) (hrun : runSteps step s ops = some s') :
    R s' (ops.foldl astep a) := by
  induction ops generalizing s a with
  | nil =>
    obtain rfl := some.inj hrun
    exact h
  | cons op ops ih =>
    rw [runSteps_cons, bind_eq_some_iff] at hrun
    obtain ⟨s1, hs1, hrest⟩ := hrun
    exact ih (hstep s a op s1 h hs1) hrest

/-- Every step of the run meets a condition on the state before it. -/
def RunSatisfies (step : σ → ι → Option σ) (P : σ → ι → Prop) : σ → List ι → Prop
  | _, [] => True
  | s, op :: ops => P s op ∧ ∀ s', step s op = some s' → RunSatisfies step P s' ops

instance RunSatisfies.decidable (step : σ → ι → Option σ) (P : σ → ι → Prop)
    [∀ s op, Decidable (P s op)] : ∀ s ops, Decidable (RunSatisfies step P s ops)
  | _, [] => isTrue trivial
  | s, op :: ops =>
    have : Decidable (∀ s', s' ∈ step s op → RunSatisfies step P s' ops) :=
      @Option.decidableForallMem _ _ (fun s' => RunSatisfies.decidable step P s' ops) _
    inferInstanceAs (Decidable (P s op ∧ ∀ s', s' ∈ step s op → RunSatisfies step P s' ops))

/-- Simulation rule for steps whose admissibility depends on the state. -/
lemma RunSatisfies.simulation (astep : α → ι → α) (R : σ → α → Prop)
    (hstep : ∀ s a op, P s op → R s a → ∃ s', step s op = some s' ∧ R s' (astep a op)) {a : α}
    (hrun : RunSatisfies step P s ops) (h : R s a) :
    ∃ s', runSteps step s ops = some s' ∧ R s' (ops.foldl astep a) := by
  induction ops generalizing s a with
  | nil => exact ⟨s, rfl, h⟩
  | cons op ops ih =>
    obtain ⟨s1, hs1, h1⟩ := hstep s a op hrun.1 h
    obtain ⟨s2, hs2, h2⟩ := ih (hrun.2 s1 hs1) h1
    exact ⟨s2, by rw [runSteps_cons, hs1, bind_some, hs2], h2⟩

/-- Invariant rule for steps whose admissibility depends on the state. -/
lemma RunSatisfies.invariant (I : σ → Prop)
    (hstep : ∀ s op, P s op → I s → ∃ s', step s op = some s' ∧ I s')
    (hrun : RunSatisfies step P s ops) (h : I s) : ∃ s', runSteps step s ops = some s' ∧ I s' := by
  obtain ⟨s', hs', hI⟩ := hrun.simulation (fun a _ => a) (fun s _ => I s)
    (fun s _ op hop hs => hstep s op hop hs) (a := ()) h
  exact ⟨s', hs', hI⟩

lemma RunSatisfies.of_forall {ok : ι → Prop} (hok : ∀ op ∈ ops, ok op) :
    RunSatisfies step (fun _ => ok) s ops := by
  induction ops generalizing s with
  | nil => trivial
  | cons op ops ih =>
    exact ⟨hok op (by simp), fun s' _ => ih fun op' hop' => hok op' (by simp [hop'])⟩

/-- Simulation rule: if one step is matched by a step of the abstract machine `astep`, then so is a
whole run, and the run does not fail. -/
lemma runSteps_simulation (astep : α → ι → α) (R : σ → α → Prop) (ok : ι → Prop)
    (hstep : ∀ s a op, ok op → R s a → ∃ s', step s op = some s' ∧ R s' (astep a op)) {a : α}
    (h : R s a) (hok : ∀ op ∈ ops, ok op) :
    ∃ s', runSteps step s ops = some s' ∧ R s' (ops.foldl astep a) :=
  (RunSatisfies.of_forall hok).simulation astep R hstep h

/-- Invariant rule: if every admissible step succeeds and keeps `I`, then every run of admissible
steps succeeds and keeps `I`. -/
lemma runSteps_invariant (I : σ → Prop) (ok : ι → Prop)
    (hstep : ∀ s op, ok op → I s → ∃ s', step s op = some s' ∧ I s') (h : I s)
    (hok : ∀ op ∈ ops, ok op) :
    ∃ s', runSteps step s ops = some s' ∧ I s' :=
  (RunSatisfies.of_forall hok).invariant I hstep h

/-- Invariant rule for a run that is known to succeed. -/
lemma RunSatisfies.invariant_of_some (I : σ → Prop)
    (hstep : ∀ s op s', P s op → I s → step s op = some s' → I s') {s' : σ}
    (hP : RunSatisfies step P s ops) (hrun : runSteps step s ops = some s') (h : I s) : I s' := by
  induction ops generalizing s with
  | nil =>
    obtain rfl := some.inj hrun
    exact h
  | cons op ops ih =>
    rw [runSteps_cons, bind_eq_some_iff] at hrun
    obtain ⟨s1, hs1, hrest⟩ := hrun
    exact ih (hP.2 s1 hs1) hrest (hstep s op s1 hP.1 h hs1)

/-- Two machines in lockstep: the relation `R` holds after the same commands. -/
lemma RunSatisfies.lockstep {σ' : Type*} {step' : σ' → ι → Option σ'} (R : σ → σ' → Prop)
    (hstep : ∀ s s' op, P s op → R s s' → ∃ t t', step s op = some t ∧ step' s' op = some t' ∧
      R t t') {s' : σ'} (hrun : RunSatisfies step P s ops) (h : R s s') :
    ∃ t t', runSteps step s ops = some t ∧ runSteps step' s' ops = some t' ∧ R t t' := by
  induction ops generalizing s s' with
  | nil => exact ⟨s, s', rfl, rfl, h⟩
  | cons op ops ih =>
    obtain ⟨s1, s1', hs1, hs1', h1⟩ := hstep s s' op hrun.1 h
    obtain ⟨t, t', ht, ht', hR⟩ := ih (hrun.2 s1 hs1) h1
    exact ⟨t, t', by rw [runSteps_cons, hs1, bind_some, ht],
      by rw [runSteps_cons, hs1', bind_some, ht'], hR⟩

/-- The parts of a run. -/
lemma RunSatisfies.of_append {ops' : List ι} (h : RunSatisfies step P s (ops ++ ops')) :
    RunSatisfies step P s ops ∧ ∀ s', runSteps step s ops = some s' →
    RunSatisfies step P s' ops' := by
  induction ops generalizing s with
  | nil => exact ⟨trivial, fun s' hs' => some.inj hs' ▸ h⟩
  | cons op ops ih =>
    refine ⟨⟨h.1, fun s1 hs1 => (ih (h.2 s1 hs1)).1⟩, fun s' hs' => ?_⟩
    obtain ⟨s1, hs1, hrest⟩ := bind_eq_some_iff.mp hs'
    exact (ih (h.2 s1 hs1)).2 s' hrest

lemma RunSatisfies.and {Q : σ → ι → Prop} (hP : RunSatisfies step P s ops)
    (hQ : RunSatisfies step Q s ops) :
    RunSatisfies step (fun s op => P s op ∧ Q s op) s ops := by
  induction ops generalizing s with
  | nil => exact trivial
  | cons op ops ih => exact ⟨⟨hP.1, hQ.1⟩, fun s' hs' => ih (hP.2 s' hs') (hQ.2 s' hs')⟩

end RainCall
