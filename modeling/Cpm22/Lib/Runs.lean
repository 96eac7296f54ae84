import Mathlib.Data.List.Induction

set_option relaxedAutoImplicit false
set_option autoImplicit false

/-!
# Runs of a step function

A system is given by a partial step function: `step s e` is the state after the event `e`, or
`none` where `e` cannot happen in the state `s`. A run is a list of events that can happen one
after the other. The invariant rule of this file carries the events that have happened along
with the state, so that an invariant may speak about the history of a run.

## Main definitions

* `Runs.run` — the state after a list of events.
* `Runs.Along` — a property of transitions holds at every step of a run.

## Main results

* `Runs.run_induction` — the invariant rule, with the history.
* `Runs.along_of_invariant` — a transition property from an invariant.
-/

namespace Runs

variable {σ ε : Type*}

/-- **The state after a list of events**, `none` where one of them cannot happen. -/
def run (step : σ → ε → Option σ) (s : σ) : List ε → Option σ
  | [] => some s
  | e :: es => (step s e).bind (run step · es)

/-- **The property `P` of a transition holds along the events** `es` from the state `s`. -/
def Along (step : σ → ε → Option σ) (P : σ → ε → σ → Prop) (s : σ) : List ε → Prop
  | [] => True
  | e :: es => ∀ s', step s e = some s' → P s e s' ∧ Along step P s' es

variable {step : σ → ε → Option σ} {P : σ → ε → σ → Prop} {s s' : σ}

/-- A run on `es ++ es'` is a run on `es`, then a run on `es'`. -/
lemma run_append (es es' : List ε) :
    run step s (es ++ es') = (run step s es).bind (run step · es') := by
  induction es generalizing s with
  | nil => rfl
  | cons e es ih =>
    simp only [List.cons_append, run]
    cases step s e with
    | none => rfl
    | some t => exact ih

/-- The last step of a run. -/
lemma run_snoc {es : List ε} {e : ε} (h : run step s (es ++ [e]) = some s') :
    ∃ t, run step s es = some t ∧ step t e = some s' := by
  rw [run_append] at h
  obtain ⟨t, ht, h⟩ := Option.bind_eq_some_iff.mp h
  refine ⟨t, ht, ?_⟩
  simpa [run] using h

/-- The first step of a run. -/
lemma run_cons {es : List ε} {e : ε} (h : run step s (e :: es) = some s') :
    ∃ t, step s e = some t ∧ run step t es = some s' :=
  Option.bind_eq_some_iff.mp h

/-- **The invariant rule.** What holds of the empty history in the first state, and is kept
when an event happens and is added to the history, holds after every run.

**Proof sketch.** Induction on the events from the end: the last event is one step from the
state the events before it reach. -/
theorem run_induction (I : List ε → σ → Prop) (h0 : I [] s)
    (hstep : ∀ es t e t', I es t → step t e = some t' → I (es ++ [e]) t') {es : List ε}
    (h : run step s es = some s') : I es s' := by
  induction es using List.reverseRecOn generalizing s' with
  | nil =>
    obtain rfl : s = s' := by simpa [run] using h
    exact h0
  | append_singleton es e ih =>
    obtain ⟨t, ht, he⟩ := run_snoc h
    exact hstep es t e s' (ih ht) he

/-- **A transition property from an invariant**: if the steps with an event of `es` keep `I`
and have `P` where `I` holds, then `P` holds along `es`. -/
theorem along_of_invariant (I : σ → Prop) (hs : I s) (es : List ε)
    (hstep : ∀ t, ∀ e ∈ es, ∀ t', I t → step t e = some t' → P t e t' ∧ I t') :
    Along step P s es := by
  induction es generalizing s with
  | nil => trivial
  | cons e es ih =>
    intro t ht
    obtain ⟨hP, hI⟩ := hstep s e List.mem_cons_self t hs ht
    exact ⟨hP, ih hI fun u f hf => hstep u f (List.mem_cons_of_mem _ hf)⟩

/-- **The property at one event of a run**: it holds of the step from a state that the events
before it reach.

**Proof sketch.** Induction on the events: the event is the first one, or it is one of the rest,
and the events that reach its state get the first one in front. -/
lemma Along.of_mem {es : List ε} (hrun : run step s es = some s') (h : Along step P s es) {e : ε}
    (he : e ∈ es) : ∃ before t t', run step s before = some t ∧ step t e = some t' ∧ P t e t' := by
  induction es generalizing s with
  | nil => simp at he
  | cons e' es ih =>
    obtain ⟨t, ht, hrest⟩ := run_cons hrun
    obtain ⟨hP, hal⟩ := h t ht
    rcases List.mem_cons.mp he with rfl | he
    · exact ⟨[], s, t, rfl, ht, hP⟩
    · obtain ⟨before, u, u', hu, hstep, hPu⟩ := ih hrest hal he
      exact ⟨e' :: before, u, u', by simp [run, ht, hu], hstep, hPu⟩

end Runs
