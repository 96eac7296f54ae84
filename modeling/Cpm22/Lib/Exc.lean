import Mathlib.Data.List.Basic

set_option relaxedAutoImplicit false
set_option autoImplicit false

/-!
# Programs with a state that survives an exception

`EStateM ε σ` models code that changes a state of type `σ` and may throw an exception of type
`ε`; the state at the throw is kept. This file has the rules the proofs about such programs use:
how a run that returned splits at a sequencing, and rules of pre- and postconditions that also say
what holds where an exception is thrown.

## Main definitions

* `Exc.final`, `Exc.isOk` — the state after a run, returned or thrown, and whether it returned.
* `Exc.Returns` — the run returned.
* `Exc.Triple` — pre- and postconditions.
* `Exc.Avoids` — a run that does not throw a given exception.
* `Exc.mapState` — a run with its state mapped.

## Main results

* `Exc.bind_ok`, `Exc.returns_bind` — a sequence returned iff both parts did.
* `Exc.Triple.bind`, `Exc.Triple.ite`, `Exc.Triple.weaken` — the rules for triples.
* `Exc.bind_mapState` — a sequence whose parts commute with a map of states does.
-/

namespace Exc

variable {ε σ α β : Type}

/-- The state after a run, however it ended. -/
def final : EStateM.Result ε σ α → σ
  | .ok _ s => s
  | .error _ s => s

/-- The final state of a run that returned. -/
@[simp]
lemma final_ok (a : α) (s : σ) : final (.ok a s : EStateM.Result ε σ α) = s := rfl

/-- The final state of a run that threw. -/
@[simp]
lemma final_error (e : ε) (s : σ) : final (.error e s : EStateM.Result ε σ α) = s := rfl

/-- The run returned. -/
def isOk : EStateM.Result ε σ α → Bool
  | .ok _ _ => true
  | .error _ _ => false

/-- What a run is that returned. -/
lemma ok_of_isOk {r : EStateM.Result ε σ α} (h : isOk r = true) : ∃ a, r = .ok a (final r) := by
  cases r with
  | ok a s => exact ⟨a, rfl⟩
  | error e s => cases h

/-- The fault that ended a run. -/
def fault : EStateM.Result ε σ α → Option ε
  | .ok _ _ => none
  | .error e _ => some e

/-- What a run is that threw. -/
lemma error_of_fault {r : EStateM.Result ε σ α} {e : ε} (h : fault r = some e) :
    r = .error e (final r) := by
  cases r with
  | ok a s => cases h
  | error e' s =>
    cases h
    rfl

/-- **The run returned**, as a proposition. -/
def Returns (r : EStateM.Result ε σ α) : Prop := ∃ a s, r = .ok a s

/-- A run that returned. -/
lemma returns_ok (a : α) (s : σ) : Returns (.ok a s : EStateM.Result ε σ α) := ⟨a, s, rfl⟩

/-- A run that threw did not return. -/
lemma not_returns_error (e : ε) (s : σ) : ¬ Returns (.error e s : EStateM.Result ε σ α) :=
  fun ⟨_, _, h⟩ => by cases h

/-- Sequencing, case by case. -/
lemma bind_apply (x : EStateM ε σ α) (f : α → EStateM ε σ β) (s : σ) :
    (x >>= f) s = match x s with
      | .ok a s' => f a s'
      | .error e s' => .error e s' := rfl

/-- A sequence whose first part returned goes on with the second. -/
lemma bind_of_ok {x : EStateM ε σ α} {f : α → EStateM ε σ β} {s s' : σ} {a : α}
    (h : x s = .ok a s') : (x >>= f) s = f a s' := by
  rw [bind_apply, h]

/-- A sequence that first reads the state. -/
lemma get_bind (f : σ → EStateM ε σ β) (s : σ) :
    ((MonadState.get : EStateM ε σ σ) >>= f) s = f s s := rfl

/-- A sequence whose first part threw has thrown. -/
lemma bind_of_error {x : EStateM ε σ α} {f : α → EStateM ε σ β} {s s' : σ} {e : ε}
    (h : x s = .error e s') : (x >>= f) s = .error e s' := by
  rw [bind_apply, h]

/-- Sequences that start in the same way and go on in the same way are the same. -/
lemma bind_congr_ok {x : EStateM ε σ α} {f g : α → EStateM ε σ β} {s : σ}
    (h : ∀ a s', f a s' = g a s') : (x >>= f) s = (x >>= g) s := by
  rw [bind_apply, bind_apply]
  cases x s with
  | ok a s' => exact h a s'
  | error e s' => rfl

/-- **A sequence returned iff both of its parts did.** -/
lemma bind_ok {x : EStateM ε σ α} {f : α → EStateM ε σ β} {s s' : σ} {b : β} :
    (x >>= f) s = .ok b s' ↔ ∃ a s₁, x s = .ok a s₁ ∧ f a s₁ = .ok b s' := by
  rw [bind_apply]
  cases hx : x s with
  | ok a s₁ => simp
  | error e s₁ => simp

/-- **A sequence returns iff its first part does**, and the second does after it. -/
lemma returns_bind {x : EStateM ε σ α} {f : α → EStateM ε σ β} {s : σ} :
    Returns ((x >>= f) s) ↔ Returns (x s) ∧ ∀ a s₁, x s = .ok a s₁ → Returns (f a s₁) := by
  rw [bind_apply]
  cases hx : x s with
  | ok a s₁ =>
    refine ⟨fun h => ⟨returns_ok a s₁, fun b s₂ hb => ?_⟩, fun h => h.2 a s₁ rfl⟩
    cases hb
    exact h
  | error e s₁ =>
    exact ⟨fun h => absurd h (not_returns_error e s₁), fun h => absurd h.1 (not_returns_error e s₁)⟩

/-- A conditional returns iff the case that is taken does. -/
lemma returns_ite {c : Prop} [Decidable c] {x y : EStateM ε σ α} {s : σ} :
    Returns ((if c then x else y) s) ↔ (c → Returns (x s)) ∧ (¬ c → Returns (y s)) := by
  by_cases h : c
  · simp [h]
  · simp [h]

/-! ## Pre- and postconditions -/

/-- **The triple** `{P} m {Q} {E}`: from a state with `P` the program returns a result and a state
with `Q`, or throws in a state with `E`. -/
def Triple (P : σ → Prop) (m : EStateM ε σ α) (Q : α → σ → Prop) (E : σ → Prop) : Prop :=
  ∀ s, P s → match m s with
    | .ok a s' => Q a s'
    | .error _ s' => E s'

/-- Returning a value. -/
lemma Triple.pure {P : σ → Prop} {Q : α → σ → Prop} {E : σ → Prop} {a : α}
    (h : ∀ s, P s → Q a s) : Triple P (Pure.pure a : EStateM ε σ α) Q E := h

/-- Throwing an exception. -/
lemma Triple.throw {P : σ → Prop} {Q : α → σ → Prop} {E : σ → Prop} {e : ε}
    (h : ∀ s, P s → E s) : Triple P (throw e : EStateM ε σ α) Q E := h

/-- Changing the state. -/
lemma Triple.modify {P : σ → Prop} {Q : PUnit → σ → Prop} {E : σ → Prop} {f : σ → σ}
    (h : ∀ s, P s → Q ⟨⟩ (f s)) : Triple P (modify f : EStateM ε σ PUnit) Q E := h

/-- Reading the state. -/
lemma Triple.get {P : σ → Prop} {E : σ → Prop} :
    Triple P (MonadState.get : EStateM ε σ σ) (fun a s => a = s ∧ P s) E := fun _ h => ⟨rfl, h⟩

/-- **The sequencing rule.** -/
lemma Triple.bind {P : σ → Prop} {R : α → σ → Prop} {Q : β → σ → Prop} {E : σ → Prop}
    {x : EStateM ε σ α} {f : α → EStateM ε σ β} (hx : Triple P x R E)
    (hf : ∀ a, Triple (R a) (f a) Q E) : Triple P (x >>= f) Q E := by
  intro s hs
  have h := hx s hs
  rw [bind_apply]
  cases hxs : x s with
  | ok a s₁ =>
    rw [hxs] at h
    exact hf a s₁ h
  | error e s₁ =>
    rw [hxs] at h
    exact h

/-- The rule for conditionals. -/
lemma Triple.ite {P : σ → Prop} {Q : α → σ → Prop} {E : σ → Prop} {c : Prop} [Decidable c]
    {x y : EStateM ε σ α} (hx : c → Triple P x Q E) (hy : ¬ c → Triple P y Q E) :
    Triple P (if c then x else y) Q E := by
  by_cases h : c
  · rw [if_pos h]
    exact hx h
  · rw [if_neg h]
    exact hy h

/-- The rule of consequence. -/
lemma Triple.weaken {P P' : σ → Prop} {Q Q' : α → σ → Prop} {E E' : σ → Prop}
    {m : EStateM ε σ α} (h : Triple P m Q E) (hP : ∀ s, P' s → P s)
    (hQ : ∀ a s, Q a s → Q' a s) (hE : ∀ s, E s → E' s) : Triple P' m Q' E' := by
  intro s hs
  have hm := h s (hP s hs)
  cases hms : m s with
  | ok a s' =>
    rw [hms] at hm
    exact hQ a s' hm
  | error e s' =>
    rw [hms] at hm
    exact hE s' hm

/-- A precondition and a postcondition that speak of the same thing. -/
lemma Triple.exists {ι : Sort*} {C : ι → Prop} {P : ι → σ → Prop} {Q : ι → α → σ → Prop}
    {E : σ → Prop} {m : EStateM ε σ α} (h : ∀ i, C i → Triple (P i) m (Q i) E) :
    Triple (fun s => ∃ i, C i ∧ P i s) m (fun a s => ∃ i, C i ∧ Q i a s) E := by
  rintro s ⟨i, hc, hp⟩
  have hm := h i hc s hp
  cases hms : m s with
  | ok a s' =>
    rw [hms] at hm
    exact ⟨i, hc, hm⟩
  | error e s' =>
    rw [hms] at hm
    exact hm

/-- What a triple says about the state after a run, however it ended. -/
lemma Triple.final {P I : σ → Prop} {m : EStateM ε σ α} (h : Triple P m (fun _ => I) I) {s : σ}
    (hs : P s) : I (final (m s)) := by
  have hm := h s hs
  cases hms : m s with
  | ok a s' =>
    rw [hms] at hm
    exact hm
  | error e s' =>
    rw [hms] at hm
    exact hm

/-! ## Exceptions that do not occur -/

/-- **The run returned with `Q`, or it threw something else than `bad`.** -/
def Avoids (bad : ε) (Q : α → σ → Prop) : EStateM.Result ε σ α → Prop
  | .ok a s => Q a s
  | .error e _ => e ≠ bad

/-- The sequencing rule. -/
lemma Avoids.bind {bad : ε} {R : α → σ → Prop} {Q : β → σ → Prop} {x : EStateM ε σ α}
    {f : α → EStateM ε σ β} {s : σ} (hx : Avoids bad R (x s))
    (hf : ∀ a s', R a s' → Avoids bad Q (f a s')) : Avoids bad Q ((x >>= f) s) := by
  rw [bind_apply]
  cases hxs : x s with
  | ok a s' =>
    rw [hxs] at hx
    exact hf a s' hx
  | error e s' =>
    rw [hxs] at hx
    exact hx

/-- The rule of consequence. -/
lemma Avoids.weaken {bad : ε} {Q Q' : α → σ → Prop} {r : EStateM.Result ε σ α}
    (h : Avoids bad Q r) (hQ : ∀ a s, Q a s → Q' a s) : Avoids bad Q' r := by
  cases r with
  | ok a s => exact hQ a s h
  | error e s => exact h

/-! ## Runs that commute with a map of states -/

/-- The same run with its state mapped. -/
def mapState (f : σ → σ) : EStateM.Result ε σ α → EStateM.Result ε σ α
  | .ok a s => .ok a (f s)
  | .error e s => .error e (f s)

/-- The final state of a mapped run. -/
@[simp]
lemma final_mapState (f : σ → σ) (r : EStateM.Result ε σ α) :
    final (mapState f r) = f (final r) := by
  cases r <;> rfl

/-- **A sequence commutes with a map of states** if its parts do. -/
lemma bind_mapState {f : σ → σ} {x : EStateM ε σ α} {g : α → EStateM ε σ β} {s : σ}
    (hx : x (f s) = mapState f (x s))
    (hg : ∀ a s', x s = .ok a s' → g a (f s') = mapState f (g a s')) :
    (x >>= g) (f s) = mapState f ((x >>= g) s) := by
  rw [bind_apply, bind_apply, hx]
  cases hxs : x s with
  | ok a s' => exact hg a s' hxs
  | error e s' => rfl

end Exc
