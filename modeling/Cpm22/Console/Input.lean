import Cpm22.Console.Server

set_option relaxedAutoImplicit false
set_option autoImplicit false

/-!
# Console input is delivered once and in order

The server thread filters what a client sends and queues it; the BIOS routine `_CONIN` polls
`CONSTA` and then takes one byte from the queue through `CONDAT`. The queue is shared by all
connections, the filter belongs to one of them. This file relates what the guest has been given
to the byte streams of the connections, for every interleaving of the two threads.

## Main definitions

* `Cpm22.Console.streams` — the bytes received on each connection of a run.
* `Cpm22.Console.filtered` — what the filter lets through of the connections, one after the
  other, each with a fresh filter.
* `Cpm22.Console.Ordered` — the invariant.

## Main results

* `Cpm22.Console.step_ordered` — one step keeps the invariant.
* `Cpm22.Console.input_inOrder` — what `_CONIN` has returned is a prefix of the filtered
  streams, nothing is lost in between, and the next read yields the oldest byte that has not
  been delivered.
-/

namespace Cpm22.Console

open Transducer Runs

/-! ## The streams of a run -/

/-- The streams after one more event; the newest connection comes first. -/
def extend (conns : List (List UInt8)) : Event → List (List UInt8)
  | .accept _ => [] :: conns
  | .recv (.byte c) =>
    match conns with
    | [] => []
    | bs :: earlier => (bs ++ [c]) :: earlier
  | _ => conns

/-- **The bytes received on each connection** of a run, the newest connection first. -/
def streams (es : List Event) : List (List UInt8) := es.foldl extend []

/-- **What the filter lets through** of the connections, the oldest connection first, each
with a fresh filter. -/
def filtered (conns : List (List UInt8)) : List UInt8 :=
  conns.reverse.flatMap fun bs => (feed consoleByte .init bs).2

/-- One more event extends the streams. -/
lemma streams_snoc (es : List Event) (e : Event) :
    streams (es ++ [e]) = extend (streams es) e := by
  simp [streams]

/-- The newest connection comes last in what is let through. -/
lemma filtered_cons (bs : List UInt8) (earlier : List (List UInt8)) :
    filtered (bs :: earlier) = filtered earlier ++ (feed consoleByte .init bs).2 := by
  simp [filtered]

/-- A new connection has sent nothing yet. -/
lemma filtered_fresh (conns : List (List UInt8)) : filtered ([] :: conns) = filtered conns := by
  simp [filtered_cons]

/-- One more byte adds what the filter of the newest connection emits for it. -/
lemma filtered_snoc (bs : List UInt8) (c : UInt8) (earlier : List (List UInt8)) :
    filtered ((bs ++ [c]) :: earlier) =
      filtered (bs :: earlier) ++ (consoleByte (feed consoleByte .init bs).1 c).2 := by
  simp [filtered_cons, feed_append, List.append_assoc]

/-! ## The invariant -/

/-- The bytes the server thread has let through and not yet queued. -/
def Server.pending : Server → List UInt8
  | .serving _ pending => pending
  | _ => []

/-- The byte that ended the CPU thread, once it has been read. -/
def Cpu.last : Cpu → List UInt8
  | .ended => [0x11]
  | _ => []

/-- **The invariant of console input**: what has been let through is what was delivered, the
byte that ended the CPU thread, the queue and what the server has still to queue; the filter of
`console` is the one the newest connection's bytes lead to; and after a non-zero `CONSTA` the
queue is not empty. -/
structure Ordered (es : List Event) (s : State) : Prop where
  queued : filtered (streams es) =
    s.delivered ++ s.cpu.last ++ s.consoleBuffer ++ s.server.pending
  fresh : s.server = .accepted → ∃ earlier, streams es = [] :: earlier
  filter : ∀ f pending, s.server = .serving f pending →
    ∃ bs earlier, streams es = bs :: earlier ∧ (feed consoleByte .init bs).1 = f
  ready : s.cpu = .ready → s.consoleBuffer ≠ []

/-- In `ConOut` the CPU thread neither polls nor ends. -/
lemma proceeded_spec {fd : Option ℕ} {cpu t : Cpu} (h : proceeded fd cpu = some t) :
    cpu.last = [] ∧ t.last = [] ∧ t ≠ .ready := by
  cases cpu <;> simp only [proceeded, Option.some.injEq, reduceCtorEq] at h
  all_goals
    subst h
    refine ⟨rfl, ?_, ?_⟩
  all_goals first
    | rfl
    | (split <;> simp [Cpu.last])
    | simp

/-- A server step keeps the invariant.

**Proof sketch.** By the event. `accept` adds an empty stream; `recv` of a byte adds to the
newest stream what `consoleByte` emits, which is what `console` will queue; `enqueue` moves a
byte from the pending ones to the queue. -/
lemma serverStep_ordered {es : List Event} {s s' : State} {e : Event} (h : Ordered es s)
    (hstep : ServerStep s e s') : Ordered (es ++ [e]) s' := by
  cases hstep with
  | accept fd hs =>
    have hstr : streams (es ++ [.accept fd]) = [] :: streams es := streams_snoc es _
    refine ⟨?_, fun _ => ⟨_, hstr⟩, nofun, h.ready⟩
    have hq := h.queued
    rw [hs] at hq
    rw [hstr, filtered_fresh, hq]
    rfl
  | acceptFails hs =>
    have hstr : streams (es ++ [.acceptFails]) = streams es := streams_snoc es _
    refine ⟨?_, nofun, nofun, h.ready⟩
    have hq := h.queued
    rw [hs] at hq
    rw [hstr, hq]
    rfl
  | lookup found hs =>
    have hstr : streams (es ++ [.lookup found]) = streams es := streams_snoc es _
    obtain ⟨earlier, hfresh⟩ := h.fresh hs
    have hq := h.queued
    rw [hs] at hq
    cases found with
    | false =>
      refine ⟨?_, nofun, nofun, h.ready⟩
      rw [hstr, hq]
      rfl
    | true =>
      refine ⟨?_, nofun, ?_, h.ready⟩
      · rw [hstr, hq]
        rfl
      · rintro f pending hf
        obtain ⟨rfl, -⟩ : Filter.init = f ∧ [] = pending := by simpa using hf
        exact ⟨[], earlier, hstr.trans hfresh, rfl⟩
  | recv f r hs =>
    obtain ⟨bs, earlier, hbs, hf⟩ := h.filter f [] hs
    have hq := h.queued
    rw [hs] at hq
    have hq' : filtered (streams es) = s.delivered ++ s.cpu.last ++ s.consoleBuffer := by
      simpa [Server.pending] using hq
    cases r with
    | byte c =>
      have hstr : streams (es ++ [.recv (.byte c)]) = (bs ++ [c]) :: earlier := by
        rw [streams_snoc, hbs]
        rfl
      refine ⟨?_, nofun, ?_, h.ready⟩
      · rw [hstr, filtered_snoc, ← hbs, hq', hf]
        rfl
      · rintro f' pending hf'
        obtain ⟨rfl, -⟩ : (consoleByte f c).1 = f' ∧ (consoleByte f c).2 = pending := by
          simpa [received] using hf'
        refine ⟨bs ++ [c], earlier, hstr, ?_⟩
        simp [feed_append, hf]
    | closed =>
      have hstr : streams (es ++ [.recv .closed]) = streams es := streams_snoc es _
      refine ⟨?_, nofun, nofun, h.ready⟩
      rw [hstr, hq]
      rfl
    | failed err =>
      have hstr : streams (es ++ [.recv (.failed err)]) = streams es := streams_snoc es _
      by_cases herr : err = EINTR ∨ err = EAGAIN
      · have hsame : received f (.failed err) = s.server := by simp [received, herr, hs]
        rw [hsame]
        refine ⟨hstr ▸ h.queued, hstr ▸ h.fresh, hstr ▸ h.filter, h.ready⟩
      · have hret : received f (.failed err) = .returned := by simp [received, herr]
        rw [hret]
        refine ⟨?_, nofun, nofun, h.ready⟩
        rw [hstr, hq]
        rfl
  | enqueue f b bs hs =>
    have hstr : streams (es ++ [.enqueue]) = streams es := streams_snoc es _
    refine ⟨?_, nofun, ?_, fun _ => by simp⟩
    · have hq := h.queued
      rw [hs] at hq
      rw [hstr, hq]
      simp [Server.pending]
    · rintro f' pending hf'
      obtain ⟨rfl, -⟩ : f = f' ∧ bs = pending := by simpa using hf'
      rw [hstr]
      exact h.filter f _ hs
  | close hs =>
    have hstr : streams (es ++ [.close]) = streams es := streams_snoc es _
    refine ⟨?_, nofun, nofun, h.ready⟩
    have hq := h.queued
    rw [hs] at hq
    rw [hstr, hq]
    rfl

/-- A CPU step that leaves the queue alone keeps the invariant. -/
lemma Ordered.setCpu {es : List Event} {s : State} (h : Ordered es s) (e : Event) (t : Cpu)
    (hstr : extend (streams es) e = streams es) (hs : s.cpu.last = []) (ht : t.last = [])
    (hready : t = .ready → s.consoleBuffer ≠ []) : Ordered (es ++ [e]) { s with cpu := t } := by
  have hstr' : streams (es ++ [e]) = streams es := (streams_snoc es e).trans hstr
  refine ⟨?_, hstr' ▸ h.fresh, hstr' ▸ h.filter, hready⟩
  rw [hstr', h.queued, hs, ht]

/-- A CPU step keeps the invariant.

**Proof sketch.** By the event. Only `read` touches the queue: after a non-zero `CONSTA` the
queue is not empty, so that the byte moves from its head to what was delivered. -/
lemma cpuStep_ordered {es : List Event} {s s' : State} {e : Event} (h : Ordered es s)
    (hstep : CpuStep s e s') : Ordered (es ++ [e]) s' := by
  cases hstep with
  | idle hs hb => exact h.setCpu _ _ rfl (by rw [hs]; rfl) rfl nofun
  | poll hs hb => exact h.setCpu _ _ rfl (by rw [hs]; rfl) rfl fun _ => hb
  | empty hs hb => exact absurd hb (h.ready hs)
  | read c rest hs hb hc =>
    have hstr : streams (es ++ [.read]) = streams es := streams_snoc es _
    refine ⟨?_, hstr ▸ h.fresh, hstr ▸ h.filter, nofun⟩
    rw [hstr, h.queued, hs, hb]
    simp [Cpu.last]
  | exit rest hs hb =>
    have hstr : streams (es ++ [.read]) = streams es := streams_snoc es _
    refine ⟨?_, hstr ▸ h.fresh, hstr ▸ h.filter, nofun⟩
    rw [hstr, h.queued, hs, hb]
    simp [Cpu.last]
  | conOut c hs => exact h.setCpu _ _ rfl (by rw [hs]; rfl) rfl nofun
  | proceed t ht =>
    obtain ⟨hs, ht, hready⟩ := proceeded_spec ht
    exact h.setCpu _ _ rfl hs ht fun hr => absurd hr hready
  | write c fd r hs =>
    rcases wrote_spec c r with hw | hw
    · exact hw ▸ h.setCpu _ _ rfl (by rw [hs]; rfl) rfl nofun
    · exact hw ▸ h.setCpu _ _ rfl (by rw [hs]; rfl) rfl nofun

/-- **One step keeps the invariant.** -/
lemma step_ordered {es : List Event} {s s' : State} {e : Event} (h : Ordered es s)
    (hstep : step s e = some s') : Ordered (es ++ [e]) s' := by
  rcases (step_cases hstep).2 with hs | hs
  · exact serverStep_ordered h hs
  · exact cpuStep_ordered h hs

/-- Every run keeps the invariant. -/
lemma run_ordered {es : List Event} {s : State} (h : run step .init es = some s) :
    Ordered es s := by
  have h0 : Ordered [] State.init := by
    constructor <;> simp [State.init, streams, filtered, Cpu.last, Server.pending]
  exact run_induction Ordered h0 (fun _ _ _ _ => step_ordered) h

/-! ## The order of delivery -/

/-- **Console input is delivered exactly once and in order.** After every run of the two
threads, what `_CONIN` has returned is a prefix of what the filter lets through of the
connections so far; while the CPU thread runs, the rest of it is in the queue or about to be
queued; and a read of `CONDAT` after a non-zero `CONSTA` yields the oldest byte that has not been
delivered, which it returns to the guest unless it is the byte `0x11`, which ends the CPU
thread.

**Proof sketch.** The invariant `Ordered` gives all three: the queue follows what was delivered
in the filtered streams, and it is not empty after a non-zero `CONSTA`. -/
theorem input_inOrder (es : List Event) (s : State) (h : run step .init es = some s) :
    s.delivered <+: filtered (streams es) ∧
      (s.cpu ≠ .ended →
        filtered (streams es) = s.delivered ++ s.consoleBuffer ++ s.server.pending) ∧
      ∀ s', s.cpu = .ready → step s .read = some s' →
        ∃ c, (filtered (streams es))[s.delivered.length]? = some c ∧
          (c ≠ 0x11 → s'.delivered = s.delivered ++ [c] ∧ s'.cpu = .running) ∧
          (c = 0x11 → s'.delivered = s.delivered ∧ s'.cpu = .ended) := by
  have hord := run_ordered h
  refine ⟨?_, ?_, ?_⟩
  · rw [hord.queued, List.append_assoc, List.append_assoc]
    exact List.prefix_append _ _
  · intro hcpu
    have hlast : s.cpu.last = [] := by
      cases hc : s.cpu <;> simp [Cpu.last]
      exact hcpu hc
    rw [hord.queued, hlast, List.append_nil]
  · intro s' hready hread
    have hq := hord.queued
    rw [hready] at hq
    rcases (step_cases hread).2 with hs | hs
    · cases hs
    · cases hs with
      | empty _ hb => exact absurd hb (hord.ready hready)
      | read c rest _ hb hc =>
        refine ⟨c, ?_, fun _ => ⟨rfl, rfl⟩, fun h => absurd h hc⟩
        rw [hq, hb]
        simp [Cpu.last]
      | exit rest _ hb =>
        refine ⟨0x11, ?_, fun h => absurd rfl h, fun _ => ⟨rfl, rfl⟩⟩
        rw [hq, hb]
        simp [Cpu.last]

/-- Two connections, the first of which ends after a carriage return: the line feed the second
one starts with is no second half of a line end, and `_CONIN` returns a carriage return for
each. -/
def twoClients : List Event :=
  [.accept 5, .lookup true, .recv (.byte CR), .enqueue, .poll, .recv .closed, .close,
    .accept 5, .lookup true, .recv (.byte LF), .read, .enqueue, .poll]

/-- The state after `twoClients`: one byte delivered, one in the queue. -/
def afterTwoClients : State :=
  ⟨some 5, some 5, .serving ⟨.data, false⟩ [], [CR], .ready, [CR]⟩

/-- The order of delivery over the two connections of `twoClients`. -/
theorem input_inOrder_twoClients :
    run step .init twoClients = some afterTwoClients ∧ afterTwoClients.cpu = .ready ∧
      afterTwoClients.delivered <+: filtered (streams twoClients) ∧
      filtered (streams twoClients) = [CR, CR] := by
  have h := input_inOrder twoClients afterTwoClients (by decide)
  exact ⟨by decide, rfl, h.1, (h.2.1 (by decide)).trans (by decide)⟩

end Cpm22.Console
