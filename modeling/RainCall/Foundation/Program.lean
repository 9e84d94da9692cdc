import Mathlib

/-!
# Programs over an interface

Code that works on a data structure only through the operations of an interface is a program over
that interface: a value, or a call of an operation followed by a program that depends on the result.
Such a program runs in every implementation of the interface, and `Program.wp` says what is known
about its result when all that is known about the operations is a specification. If an
implementation meets the specification, then `Program.wp_sound` turns every statement about `wp`
into one about its runs.
-/

namespace RainCall

/-- A program that calls the operations `o : Op` with results in `Res o`. -/
inductive Program (Op : Type) (Res : Op → Type) (α : Type) : Type
  | done (a : α)
  | call (o : Op) (k : Res o → Program Op Res α)

/-- What is known about the operations: when they may be called in a state, and to which states and
results a call can lead. -/
structure OpSpec (Op : Type) (Res : Op → Type) (τ : Type) where
  pre : τ → Op → Prop
  post : τ → (o : Op) → τ → Res o → Prop

namespace Program

variable {Op : Type} {Res : Op → Type} {α β σ τ : Type}

def bind : Program Op Res α → (α → Program Op Res β) → Program Op Res β
  | .done a, f => f a
  | .call o k, f => .call o fun r => (k r).bind f

instance : Monad (Program Op Res) where
  pure := .done
  bind := Program.bind

def perform (o : Op) : Program Op Res (Res o) := .call o .done

/-- Run a program only under a condition. -/
def when (c : Prop) [Decidable c] (p : Program Op Res Unit) : Program Op Res Unit :=
  if c then p else pure ()

/-- Run a program in an implementation of the operations. -/
def run (step : σ → (o : Op) → Option (σ × Res o)) : Program Op Res α → σ → Option (σ × α)
  | .done a, s => some (s, a)
  | .call o k, s =>
    match step s o with
    | none => none
    | some r => (k r.2).run step r.1

/-- Every run from the state `t` that the specification allows calls operations only when it may,
and ends with `Q`. -/
def wp (S : OpSpec Op Res τ) : Program Op Res α → (τ → α → Prop) → τ → Prop
  | .done a, Q, t => Q t a
  | .call o k, Q, t => S.pre t o ∧ ∀ t' r, S.post t o t' r → (k r).wp S Q t'

variable {S : OpSpec Op Res τ} {Q Q' : τ → α → Prop} {t : τ}

@[simp] lemma wp_pure (a : α) : (pure a : Program Op Res α).wp S Q t ↔ Q t a := Iff.rfl

lemma wp_perform (o : Op) {Q : τ → Res o → Prop} :
    (perform o).wp S Q t ↔ S.pre t o ∧ ∀ t' r, S.post t o t' r → Q t' r := Iff.rfl

/-- A program followed by another one. -/
@[simp] lemma wp_bind (p : Program Op Res α) (f : α → Program Op Res β) {Q : τ → β → Prop} :
    (p >>= f).wp S Q t ↔ p.wp S (fun t' a => (f a).wp S Q t') t := by
  induction p generalizing t with
  | done a => exact Iff.rfl
  | call o k ih =>
    exact and_congr_right fun _ => forall₂_congr fun t' r => imp_congr_right fun _ => ih r

lemma wp_when (c : Prop) [Decidable c] (p : Program Op Res Unit) {Q : τ → Unit → Prop} :
    (when c p).wp S Q t ↔ (c → p.wp S Q t) ∧ (¬ c → Q t ()) := by
  unfold when
  split_ifs with hc
  · simp [hc]
  · simp [hc]

/-- The rule of consequence. -/
lemma wp.mono {p : Program Op Res α} (h : p.wp S Q t) (hQ : ∀ t' a, Q t' a → Q' t' a) :
    p.wp S Q' t := by
  induction p generalizing t with
  | done a => exact hQ t a h
  | call o k ih => exact ⟨h.1, fun t' r hr => ih r (h.2 t' r hr)⟩

/-- The rule of consequence for a program whose result is known. -/
lemma wp.of_eq {p : Program Op Res α} {t' : τ} {a : α}
    (h : p.wp S (fun s r => s = t' ∧ r = a) t) (hQ : Q t' a) : p.wp S Q t := by
  refine h.mono ?_
  rintro _ _ ⟨rfl, rfl⟩
  exact hQ

/-- A program in an implementation that meets the specification. The relation `R` says which states
of the specification a state of the implementation stands for. -/
theorem wp_sound {step : σ → (o : Op) → Option (σ × Res o)} (R : σ → τ → Prop)
    (hstep : ∀ s t o, R s t → S.pre t o →
      ∃ s' r t', step s o = some (s', r) ∧ S.post t o t' r ∧ R s' t')
    {p : Program Op Res α} {s : σ} (h : p.wp S Q t) (hR : R s t) :
    ∃ s' t' a, p.run step s = some (s', a) ∧ R s' t' ∧ Q t' a := by
  induction p generalizing s t with
  | done a => exact ⟨s, t, a, rfl, hR, h⟩
  | call o k ih =>
    obtain ⟨hpre, hpost⟩ := h
    obtain ⟨s1, r, t1, hs1, ht1, hR1⟩ := hstep s t o hR hpre
    obtain ⟨s', t', a, hrun, hR', hQ⟩ := ih r (hpost t1 r ht1) hR1
    exact ⟨s', t', a, by rw [run, hs1]; exact hrun, hR', hQ⟩

end Program

end RainCall
