import Cpm22.Console.Server

set_option relaxedAutoImplicit false
set_option autoImplicit false

/-!
# Console output and the connection it goes to

`ConOut` writes to the descriptor `newsockfd`, which the server thread sets when it accepts a
client. The server closes that descriptor when the client is gone and does not reset the
variable, and the write loop of `ConOut` ends only when a byte has been written. This file has
the exact condition under which the output never uses a dead connection: no client connection
is ever closed, and no `write` fails for another reason than a full buffer.

## Main definitions

* `Cpm22.Console.Alive` — what one step must have: `write` is called on the open client
  connection, `IsConnected` is false without one, and a failing `write` ends `ConOut`.
* `Cpm22.Console.Attached` — the invariant of the runs in which no connection is closed.

## Main results

* `Cpm22.Console.output_alive_iff` — the condition, for every run.
* `Cpm22.Console.conOut_spins` — once a `write` fails for good, `ConOut` never returns.
* `Cpm22.Console.output_dead` — a client that leaves.
-/

namespace Cpm22.Console

open Runs

/-! ## The property -/

/-- **A step does not use a dead connection**: a `write` goes to the client connection that is
open, `IsConnected` is false when no client connection is open afterwards, and `ConOut` has
returned after a `write` that failed with another error than `EAGAIN`. -/
structure Alive (s : State) (e : Event) (s' : State) : Prop where
  open_ : ∀ r c fd, e = .write r → s.cpu = .writing c fd → ∃ d, fd = some d ∧ s.client = some d
  connected : s'.client = none → s'.isConnected = false
  returns : ∀ err, e = .write (.failed err) → err ≠ EAGAIN → s'.cpu = .running

/-! ## Runs without a lost connection -/

/-- **The invariant while no connection has been closed**: the variable names the open client
connection, the server listens only before there is one, and `ConOut` is in its write loop only
with one. -/
structure Attached (s : State) : Prop where
  socket : s.newsockfd = s.client
  listening : s.server = .listening → s.client = none
  looping : ∀ c, s.cpu = .looping c → s.client ≠ none
  writing : ∀ c fd, s.cpu = .writing c fd → fd = s.client ∧ s.client ≠ none

/-- A server step that is no `close` keeps the invariant. -/
lemma serverStep_attached {s s' : State} {e : Event} (h : Attached s) (hs : ServerStep s e s')
    (he : e ≠ .close) : Attached s' := by
  cases hs with
  | accept fd hs =>
    -- before the first connection `ConOut` is not in its loop
    have hnone := h.listening hs
    exact ⟨rfl, nofun, fun c hc => absurd hnone (h.looping c hc),
      fun c fd' hc => absurd hnone (h.writing c fd' hc).2⟩
  | acceptFails hs =>
    have hnone := h.listening hs
    exact ⟨hnone.symm, nofun, h.looping, h.writing⟩
  | lookup found hs => exact ⟨h.socket, by cases found <;> simp, h.looping, h.writing⟩
  | recv f r hs =>
    refine ⟨h.socket, ?_, h.looping, h.writing⟩
    cases r with
    | byte c => simp [received]
    | closed => simp [received]
    | failed err => by_cases herr : err = EINTR ∨ err = EAGAIN <;> simp [received, herr]
  | enqueue f b bs hs => exact ⟨h.socket, nofun, h.looping, h.writing⟩
  | close hs => exact absurd rfl he

/-- The invariant does not depend on where the CPU thread is outside the write loop. -/
lemma Attached.leave {s : State} (h : Attached s) (buf out : List UInt8) {t : Cpu}
    (hl : ∀ c, t ≠ .looping c) (hw : ∀ c fd, t ≠ .writing c fd) :
    Attached { s with consoleBuffer := buf, cpu := t, delivered := out } :=
  ⟨h.socket, h.listening, fun c hc => absurd hc (hl c), fun c fd hc => absurd hc (hw c fd)⟩

/-- A CPU step keeps the invariant.

**Proof sketch.** By the event. The write loop is entered only after `newsockfd` was seen to be
set, and the descriptor given to `write` is the value of `newsockfd`, the open connection. -/
lemma cpuStep_attached {s s' : State} {e : Event} (h : Attached s) (hs : CpuStep s e s') :
    Attached s' := by
  cases hs with
  | idle hs hb => exact h.leave _ _ nofun nofun
  | poll hs hb => exact h.leave _ _ nofun nofun
  | empty hs hb => exact h.leave _ _ nofun nofun
  | read c rest hs hb hc => exact h.leave _ _ nofun nofun
  | exit rest hs hb => exact h.leave _ _ nofun nofun
  | conOut c hs => exact h.leave _ _ nofun nofun
  | proceed t ht =>
    cases hcpu : s.cpu with
    | called c =>
      rw [hcpu, proceeded, Option.some.injEq] at ht
      by_cases hn : s.newsockfd = none
      · rw [if_pos hn] at ht
        exact ht ▸ h.leave _ _ nofun nofun
      · rw [if_neg hn] at ht
        exact ht ▸ h.leave _ _ nofun nofun
    | asleep c =>
      rw [hcpu, proceeded, Option.some.injEq] at ht
      exact ht ▸ h.leave _ _ nofun nofun
    | awake c =>
      rw [hcpu, proceeded, Option.some.injEq] at ht
      by_cases hn : s.newsockfd = none
      · rw [if_pos hn] at ht
        exact ht ▸ h.leave _ _ nofun nofun
      · rw [if_neg hn] at ht
        subst ht
        exact ⟨h.socket, h.listening, fun _ _ => h.socket ▸ hn, nofun⟩
    | looping c =>
      rw [hcpu, proceeded, Option.some.injEq] at ht
      subst ht
      refine ⟨h.socket, h.listening, nofun, ?_⟩
      rintro c' fd hw
      obtain ⟨-, rfl⟩ : c = c' ∧ s.newsockfd = fd := by simpa using hw
      exact ⟨h.socket, h.looping c hcpu⟩
    | running => simp [hcpu, proceeded] at ht
    | ready => simp [hcpu, proceeded] at ht
    | writing c fd => simp [hcpu, proceeded] at ht
    | ended => simp [hcpu, proceeded] at ht
  | write c fd r hs =>
    have hopen := (h.writing c fd hs).2
    rcases wrote_spec c r with hw | hw
    · exact hw ▸ h.leave _ _ nofun nofun
    · exact hw ▸ ⟨h.socket, h.listening, fun _ _ => hopen, nofun⟩

/-- **One step without a lost connection**: it keeps the invariant and uses no dead
connection. -/
lemma step_attached {s s' : State} {e : Event} (h : Attached s) (hstep : step s e = some s')
    (hclose : e ≠ .close) (hfail : ∀ err, e = .write (.failed err) → err = EAGAIN) :
    Alive s e s' ∧ Attached s' := by
  have h' : Attached s' := by
    rcases (step_cases hstep).2 with hs | hs
    · exact serverStep_attached h hs hclose
    · exact cpuStep_attached h hs
  refine ⟨⟨?_, ?_, fun err he hne => absurd (hfail err he) hne⟩, h'⟩
  · rintro r c fd - hcpu
    obtain ⟨rfl, hne⟩ := h.writing c fd hcpu
    obtain ⟨d, hd⟩ := Option.ne_none_iff_exists'.mp hne
    exact ⟨d, hd, hd⟩
  · intro hnone
    simp [State.isConnected, h'.socket, hnone]

/-! ## Runs with a lost connection -/

/-- After `accept` has succeeded, `newsockfd` is set until the process exits. -/
def Named (s : State) : Prop :=
  s.server = .listening ∨ s.server = .exited ∨ s.newsockfd ≠ none

/-- Every run keeps `newsockfd` set. -/
lemma run_named {es : List Event} {s : State} (h : run step .init es = some s) : Named s := by
  refine run_induction (fun _ t => Named t) (.inl rfl) ?_ h
  intro _ t e t' ht hstep
  obtain ⟨hx, hs | hs⟩ := step_cases hstep
  · cases hs with
    | accept fd _ => exact .inr (.inr (by simp))
    | acceptFails _ => exact .inr (.inl rfl)
    | close _ => exact .inl rfl
    | lookup found hs => exact .inr (.inr (by simpa [Named, hs] using ht))
    | recv f r hs => exact .inr (.inr (by simpa [Named, hs] using ht))
    | enqueue f b bs hs => exact .inr (.inr (by simpa [Named, hs] using ht))
  · cases hs <;> exact ht

/-- `close` leaves `IsConnected` true without a client. -/
lemma close_not_alive {es : List Event} {s s' : State} (h : run step .init es = some s)
    (hstep : step s .close = some s') : ¬ Alive s .close s' := by
  intro hal
  rcases (step_cases hstep).2 with hs | hs
  · cases hs with
    | close hs =>
      have hset : s.newsockfd ≠ none := by simpa [Named, hs] using run_named h
      have hconn := hal.connected rfl
      simp only [State.isConnected, Option.isSome_eq_false_iff, Option.isNone_iff_eq_none] at hconn
      exact hset hconn
  · cases hs

/-- A `write` that fails does not end `ConOut`. -/
lemma failed_not_alive {s s' : State} {err : ℕ} (hstep : step s (.write (.failed err)) = some s')
    (herr : err ≠ EAGAIN) : ¬ Alive s (.write (.failed err)) s' := by
  intro hal
  have hret := hal.returns err rfl herr
  rcases (step_cases hstep).2 with hs | hs
  · cases hs
  · cases hs with
    | write c fd _ hs => simp [wrote] at hret

/-- **When console output never uses a dead connection**: in a run of the two threads, every
`write` goes to the open client connection, `IsConnected` is false without one and a failing
`write` ends `ConOut`, if and only if the server closes no client connection in the run and no
`write` fails with another error than `EAGAIN`.

**Proof sketch.** Without these events the invariant `Attached` holds along the run, and each
step of it is alive. Either of them breaks the property where it happens: `close` because
`newsockfd` is set by then and stays set, the failing `write` because the loop goes on. -/
theorem output_alive_iff (es : List Event) (s : State) (h : run step .init es = some s) :
    Along step Alive .init es ↔
      Event.close ∉ es ∧ ∀ err, Event.write (.failed err) ∈ es → err = EAGAIN := by
  constructor
  · intro hal
    refine ⟨fun hclose => ?_, fun err hfail => ?_⟩
    · obtain ⟨before, t, t', ht, hstep, hP⟩ := hal.of_mem h hclose
      exact close_not_alive ht hstep hP
    · by_contra herr
      obtain ⟨before, t, t', -, hstep, hP⟩ := hal.of_mem h hfail
      exact failed_not_alive hstep herr hP
  · rintro ⟨hclose, hfail⟩
    have h0 : Attached .init := ⟨rfl, fun _ => rfl, nofun, nofun⟩
    refine along_of_invariant Attached h0 es fun t e he t' ht hstep => ?_
    refine step_attached ht hstep ?_ ?_
    · rintro rfl
      exact hclose he
    · rintro err rfl
      exact hfail err he

/-- A client that connects and is sent a byte, after a `write` that would have blocked. -/
def oneClient : List Event :=
  [.accept 5, .lookup true, .conOut 0x41, .proceed, .proceed, .proceed, .write (.failed EAGAIN),
    .proceed, .write (.count 1)]

/-- Console output in `oneClient` never uses a dead connection. -/
theorem output_alive_oneClient : Along step Alive .init oneClient :=
  (output_alive_iff oneClient ⟨some 5, some 5, .serving .init [], [], .running, []⟩
    (by decide)).mpr ⟨by decide, by simp [oneClient]⟩

/-! ## A client that leaves -/

/-- The error of a call on a descriptor that is not open. -/
def EBADF : ℕ := 9

/-- The client leaves, the server closes the connection, and the guest sends a byte. -/
def clientLeaves : List Event :=
  [.accept 5, .lookup true, .recv .closed, .close, .conOut 0x41, .proceed, .proceed, .proceed,
    .write (.failed EBADF)]

/-- The state in which `ConOut` calls `write` in `clientLeaves`: the client connection is
closed, and `newsockfd` still has its descriptor. -/
def leftState : State := ⟨some 5, none, .listening, [], .writing 0x41 (some 5), []⟩

/-- **A dead connection is used**: in `clientLeaves`, which can happen, `ConOut` calls `write` on
the descriptor the server has closed, while `IsConnected` is true, and does not return when the
call fails. -/
theorem output_dead :
    run step .init (clientLeaves.take 8) = some leftState ∧ leftState.isConnected = true ∧
      leftState.client = none ∧
      run step .init clientLeaves = some { leftState with cpu := .looping 0x41 } ∧
      ¬ Along step Alive .init clientLeaves := by
  have hrun : run step .init clientLeaves = some { leftState with cpu := .looping 0x41 } := by
    decide
  refine ⟨by decide, rfl, rfl, hrun, fun h => ?_⟩
  have hmem : Event.close ∈ clientLeaves := by decide
  obtain ⟨before, t, t', ht, hstep, hP⟩ := h.of_mem hrun hmem
  exact close_not_alive ht hstep hP

/-- **`ConOut` never returns while `write` does not succeed**: from the head of its loop every
sequence of results other than `1` leads back to the same state.

**Proof sketch.** Induction on the results; one turn of the loop reads `newsockfd`, calls `write`
and is back at the head of the loop. -/
lemma conOut_spins {s : State} {c : UInt8} (hs : s.server ≠ .exited) (hcpu : s.cpu = .looping c)
    (rs : List Wrote) (hrs : ∀ r ∈ rs, r ≠ .count 1) :
    run step s (rs.flatMap fun r => [.proceed, .write r]) = some s := by
  induction rs with
  | nil => rfl
  | cons r rs ih =>
    have hproceed : step s .proceed = some { s with cpu := .writing c s.newsockfd } := by
      simp [step, hs, serverStep, cpuStep, hcpu, proceeded]
    have hwrote : wrote c r = .looping c := by
      cases r with
      | count n =>
        have hn : n ≠ 1 := by simpa using hrs _ List.mem_cons_self
        simp [wrote, hn]
      | failed e => simp [wrote]
    have hwrite : step { s with cpu := .writing c s.newsockfd } (.write r) = some s := by
      have hsame : ({ s with cpu := .looping c } : State) = s := by rw [← hcpu]
      simp [step, hs, serverStep, cpuStep, hwrote, hsame]
    have hrest := ih fun r hr => hrs r (List.mem_cons_of_mem _ hr)
    simp only [List.flatMap_cons, List.cons_append, List.nil_append, run, hproceed, hwrite,
      Option.bind_some, hrest]

end Cpm22.Console
