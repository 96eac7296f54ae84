import Cpm22.Console.Telnet
import Cpm22.Lib.Runs

set_option relaxedAutoImplicit false
set_option autoImplicit false

/-!
# The console server and the CPU thread

The emulator runs the TCP server of the console and the Z80 in two threads. They share the
descriptor variable `newsockfd` and the queue `consoleBuffer` with its mutex. The server loop
accepts a connection, lets `console` read it to its end and closes it; the CPU thread polls and
reads the queue through the ports `CONSTA` and `CONDAT` and writes to the descriptor in `ConOut`.

The model has one event for each piece of the two threads that runs without the other seeing
its middle: a system call, a locked access to the queue, or one access to `newsockfd`. Every
interleaving of the threads is a list of events.

## Main definitions

* `Cpm22.Console.conChk`, `Cpm22.Console.conIn` — `ConChk` and `ConIn` on the queue.
* `Cpm22.Console.Server`, `Cpm22.Console.Cpu` — where the two threads stand.
* `Cpm22.Console.State`, `Cpm22.Console.Event`, `Cpm22.Console.step` — the shared state and its
  transitions.
-/

namespace Cpm22.Console

/-! ## The queue -/

/-- `dequeueConsoleByte`: the oldest byte of the queue and the rest, if there is one. -/
def dequeueConsoleByte : List UInt8 → Option (UInt8 × List UInt8)
  | [] => none
  | c :: rest => some (c, rest)

/-- `consoleByteAvailable`. -/
def consoleByteAvailable (buf : List UInt8) : Bool := !buf.isEmpty

/-- **`ConChk`**, the value of the port `CONSTA`. -/
def conChk (buf : List UInt8) : UInt8 := if consoleByteAvailable buf then 0xff else 0

/-- **`ConIn`**, the value of the port `CONDAT`, with the queue that is left; no value where
the byte `0x11` ends the CPU thread. -/
def conIn (buf : List UInt8) : Option UInt8 × List UInt8 :=
  match dequeueConsoleByte buf with
  | none => (some 0, buf)
  | some (c, rest) => if c = 0x11 then (none, rest) else (some c, rest)

/-! ## The threads -/

/-- Where the server thread stands in its loop. The bytes of one `recv` go to the filter at once and
are enqueued one after the other, so that the CPU thread can take a byte in between. -/
inductive Server
  /-- in `accept` -/
  | listening
  /-- after `accept`, looking up the client's name -/
  | accepted
  /-- in `console`, with its filter and the bytes it still has to enqueue before the next
  `recv` -/
  | serving (f : Filter) (pending : List UInt8)
  /-- `console` has returned, `close` comes next -/
  | returned
  /-- `error` has called `exit` -/
  | exited
  deriving DecidableEq, Repr

/-- Where the CPU thread stands. `ConOut` reads `newsockfd` several times without a lock; every one
of these reads is a state of its own, so that the server can change it in between. -/
inductive Cpu
  /-- in guest code -/
  | running
  /-- in `_CONIN`, after a non-zero `CONSTA` -/
  | ready
  /-- at the start of `ConOut` -/
  | called (c : UInt8)
  /-- in `sleep(1)` of `ConOut` -/
  | asleep (c : UInt8)
  /-- before the second test of `newsockfd` in `ConOut` -/
  | awake (c : UInt8)
  /-- at the head of the write loop of `ConOut` -/
  | looping (c : UInt8)
  /-- in the call of `write` with the descriptor it was given -/
  | writing (c : UInt8) (fd : Option ℕ)
  /-- `pthread_exit` has been called -/
  | ended
  deriving DecidableEq, Repr

/-- The state the two threads work on. `newsockfd` is the program's variable, with `none` for
`-1`; `client` is the descriptor of the client connection that is really open; `delivered` is
what `_CONIN` has returned to the guest so far. -/
structure State where
  newsockfd : Option ℕ
  client : Option ℕ
  server : Server
  consoleBuffer : List UInt8
  cpu : Cpu
  delivered : List UInt8
  deriving DecidableEq, Repr

/-- The state when the server first listens. -/
def State.init : State := ⟨none, none, .listening, [], .running, []⟩

/-- `IsConnected`. -/
def State.isConnected (s : State) : Bool := s.newsockfd.isSome

/-- The result of `write` for a single byte. -/
inductive Wrote
  | count (n : ℕ)
  | failed (errno : ℕ)
  deriving DecidableEq, Repr

/-- The steps of the two threads. The answers of the operating system are part of the event, so that
a list of events is an interleaving together with everything the sockets did. -/
inductive Event
  /-- `accept` returns a descriptor -/
  | accept (fd : ℕ)
  /-- `accept` fails -/
  | acceptFails
  /-- `gethostbyaddr` and `inet_ntoa` answer, or one of them fails -/
  | lookup (found : Bool)
  /-- `recv` returns to `console` -/
  | recv (r : Recv)
  /-- `enqueueConsoleByte` -/
  | enqueue
  /-- `close(newsockfd)` at the end of the server's loop body -/
  | close
  /-- `_CONIN` reads `CONSTA` -/
  | poll
  /-- `_CONIN` reads `CONDAT` -/
  | read
  /-- the guest writes `CONDAT`: `ConOut` is called -/
  | conOut (c : UInt8)
  /-- `ConOut` goes on to its next access of `newsockfd`, or wakes up -/
  | proceed
  /-- `write` returns to `ConOut` -/
  | write (r : Wrote)
  deriving DecidableEq, Repr

/-! ## The transitions -/

/-- The server thread after `recv` has returned: `console` filters a byte, tries again or
returns. -/
def received (f : Filter) : Recv → Server
  | .byte c => .serving (consoleByte f c).1 (consoleByte f c).2
  | .closed => .returned
  | .failed e => if e = EINTR ∨ e = EAGAIN then .serving f [] else .returned

/-- The CPU thread after its next access of `newsockfd` in `ConOut`. -/
def proceeded (newsockfd : Option ℕ) : Cpu → Option Cpu
  | .called c => some (if newsockfd = none then .asleep c else .awake c)
  | .asleep c => some (.awake c)
  | .awake c => some (if newsockfd = none then .running else .looping c)
  | .looping c => some (.writing c newsockfd)
  | _ => none

/-- The CPU thread after `write` has returned. The `continue` of the loop body goes to the loop
test, so that every result but `1` leads back to the head of the loop. -/
def wrote (c : UInt8) : Wrote → Cpu
  | .count n => if n = 1 then .running else .looping c
  | .failed e => if e = EAGAIN then .looping c else .looping c

/-- A step of the server thread; `none` where the event is not the next one of the thread. `accept`
stores its result in `newsockfd` before it is tested, so that a failure takes the descriptor away.
-/
def serverStep (s : State) : Event → Option State
  | .accept fd =>
    match s.server with
    | .listening => some { s with newsockfd := some fd, client := some fd, server := .accepted }
    | _ => none
  | .acceptFails =>
    match s.server with
    | .listening => some { s with newsockfd := none, server := .exited }
    | _ => none
  | .lookup found =>
    match s.server with
    | .accepted => some { s with server := if found then .serving .init [] else .exited }
    | _ => none
  | .recv r =>
    match s.server with
    | .serving f [] => some { s with server := received f r }
    | _ => none
  | .enqueue =>
    match s.server with
    | .serving f (b :: bs) =>
      some { s with consoleBuffer := s.consoleBuffer ++ [b], server := .serving f bs }
    | _ => none
  | .close =>
    match s.server with
    | .returned => some { s with client := none, server := .listening }
    | _ => none
  | _ => none

set_option maxRecDepth 2000 in
/-- A step of the CPU thread; `none` where the event is not the next one of the thread. A control-q
that is read ends the thread. -/
def cpuStep (s : State) : Event → Option State
  | .poll =>
    match s.cpu with
    | .running => some { s with cpu := if conChk s.consoleBuffer = 0 then .running else .ready }
    | _ => none
  | .read =>
    match s.cpu with
    | .ready =>
      match conIn s.consoleBuffer with
      | (some c, rest) =>
        some { s with consoleBuffer := rest, cpu := .running, delivered := s.delivered ++ [c] }
      | (none, rest) => some { s with consoleBuffer := rest, cpu := .ended }
    | _ => none
  | .conOut c =>
    match s.cpu with
    | .running => some { s with cpu := .called c }
    | _ => none
  | .proceed => (proceeded s.newsockfd s.cpu).map fun t => { s with cpu := t }
  | .write r =>
    match s.cpu with
    | .writing c _ => some { s with cpu := wrote c r }
    | _ => none
  | _ => none

/-- **One step of the system**: of the server or of the CPU thread, as long as the process has
not exited. -/
def step (s : State) (e : Event) : Option State :=
  if s.server = .exited then none else (serverStep s e).or (cpuStep s e)

/-! ## What a step can do -/

/-- **Inversion of a server step**, one case for each event that concerns the server thread. An
invariant of the server is proved for these cases and never unfolds `serverStep`. -/
inductive ServerStep (s : State) : Event → State → Prop
  | accept (fd : ℕ) : s.server = .listening →
      ServerStep s (.accept fd)
        { s with newsockfd := some fd, client := some fd, server := .accepted }
  | acceptFails : s.server = .listening →
      ServerStep s .acceptFails { s with newsockfd := none, server := .exited }
  | lookup (found : Bool) : s.server = .accepted →
      ServerStep s (.lookup found)
        { s with server := if found then .serving .init [] else .exited }
  | recv (f : Filter) (r : Recv) : s.server = .serving f [] →
      ServerStep s (.recv r) { s with server := received f r }
  | enqueue (f : Filter) (b : UInt8) (bs : List UInt8) : s.server = .serving f (b :: bs) →
      ServerStep s .enqueue
        { s with consoleBuffer := s.consoleBuffer ++ [b], server := .serving f bs }
  | close : s.server = .returned →
      ServerStep s .close { s with client := none, server := .listening }

/-- **Inversion of a CPU step**, one case for each event that concerns the CPU thread. A look at an
empty buffer and a read of one are cases of their own. -/
inductive CpuStep (s : State) : Event → State → Prop
  | idle : s.cpu = .running → s.consoleBuffer = [] → CpuStep s .poll { s with cpu := .running }
  | poll : s.cpu = .running → s.consoleBuffer ≠ [] → CpuStep s .poll { s with cpu := .ready }
  | empty : s.cpu = .ready → s.consoleBuffer = [] →
      CpuStep s .read { s with cpu := .running, delivered := s.delivered ++ [0] }
  | read (c : UInt8) (rest : List UInt8) : s.cpu = .ready → s.consoleBuffer = c :: rest →
      c ≠ 0x11 →
      CpuStep s .read
        { s with consoleBuffer := rest, cpu := .running, delivered := s.delivered ++ [c] }
  | exit (rest : List UInt8) : s.cpu = .ready → s.consoleBuffer = 0x11 :: rest →
      CpuStep s .read { s with consoleBuffer := rest, cpu := .ended }
  | conOut (c : UInt8) : s.cpu = .running → CpuStep s (.conOut c) { s with cpu := .called c }
  | proceed (t : Cpu) : proceeded s.newsockfd s.cpu = some t →
      CpuStep s .proceed { s with cpu := t }
  | write (c : UInt8) (fd : Option ℕ) (r : Wrote) : s.cpu = .writing c fd →
      CpuStep s (.write r) { s with cpu := wrote c r }

/-- `CONSTA` is zero exactly on the empty queue. -/
lemma conChk_eq_zero (buf : List UInt8) : conChk buf = 0 ↔ buf = [] := by
  cases buf <;> simp [conChk, consoleByteAvailable]

/-- After `write` the CPU thread is in guest code or at the head of the loop. -/
lemma wrote_spec (c : UInt8) (r : Wrote) : wrote c r = .running ∨ wrote c r = .looping c := by
  cases r with
  | count n => by_cases h : n = 1 <;> simp [wrote, h]
  | failed e => simp [wrote]

/-- A server step is one of the cases of `ServerStep`.

**Proof sketch.** By the event and what the server was doing. Each branch of the source that
returns a state is one case of the relation. -/
lemma serverStep_cases {s s' : State} {e : Event} (h : serverStep s e = some s') :
    ServerStep s e s' := by
  obtain ⟨fd, client, server, buf, cpu, out⟩ := s
  cases e with
  | accept fd =>
    cases server <;> simp only [serverStep, Option.some.injEq, reduceCtorEq] at h
    exact h ▸ .accept fd rfl
  | acceptFails =>
    cases server <;> simp only [serverStep, Option.some.injEq, reduceCtorEq] at h
    exact h ▸ .acceptFails rfl
  | lookup found =>
    cases server <;> simp only [serverStep, Option.some.injEq, reduceCtorEq] at h
    exact h ▸ .lookup found rfl
  | recv r =>
    cases server with
    | serving f pending =>
      cases pending <;> simp only [serverStep, Option.some.injEq, reduceCtorEq] at h
      exact h ▸ .recv f r rfl
    | _ => simp [serverStep] at h
  | enqueue =>
    cases server with
    | serving f pending =>
      cases pending with
      | nil => simp [serverStep] at h
      | cons b bs =>
        simp only [serverStep, Option.some.injEq] at h
        exact h ▸ .enqueue f b bs rfl
    | _ => simp [serverStep] at h
  | close =>
    cases server <;> simp only [serverStep, Option.some.injEq, reduceCtorEq] at h
    exact h ▸ .close rfl
  | _ => simp [serverStep] at h

/-- A CPU step is one of the cases of `CpuStep`.

**Proof sketch.** By the event and what the CPU was doing. Each branch of the source that returns a
state is one case of the relation; a poll and a read are split by what the buffer has. -/
lemma cpuStep_cases {s s' : State} {e : Event} (h : cpuStep s e = some s') :
    CpuStep s e s' := by
  obtain ⟨fd, client, server, buf, cpu, out⟩ := s
  cases e with
  | poll =>
    cases cpu <;> simp only [cpuStep, Option.some.injEq, reduceCtorEq] at h
    by_cases hb : buf = []
    · rw [if_pos ((conChk_eq_zero buf).mpr hb)] at h
      exact h ▸ .idle rfl hb
    · rw [if_neg ((conChk_eq_zero buf).not.mpr hb)] at h
      exact h ▸ .poll rfl hb
  | read =>
    cases cpu <;> simp only [cpuStep, reduceCtorEq] at h
    cases buf with
    | nil =>
      simp only [conIn, dequeueConsoleByte, Option.some.injEq] at h
      exact h ▸ .empty rfl rfl
    | cons c rest =>
      by_cases hc : c = 0x11
      · simp only [conIn, dequeueConsoleByte, if_pos hc, Option.some.injEq] at h
        subst hc
        exact h ▸ .exit rest rfl rfl
      · simp only [conIn, dequeueConsoleByte, if_neg hc, Option.some.injEq] at h
        exact h ▸ .read c rest rfl rfl hc
  | conOut c =>
    cases cpu <;> simp only [cpuStep, Option.some.injEq, reduceCtorEq] at h
    exact h ▸ .conOut c rfl
  | proceed =>
    obtain ⟨t, ht, h⟩ := Option.map_eq_some_iff.mp h
    exact h ▸ .proceed t ht
  | write r =>
    cases cpu <;> simp only [cpuStep, Option.some.injEq, reduceCtorEq] at h
    exact h ▸ .write _ _ r rfl
  | _ => simp [cpuStep] at h

/-- **A step is a server step or a CPU step**, and the process has not exited before it. -/
lemma step_cases {s s' : State} {e : Event} (h : step s e = some s') :
    s.server ≠ .exited ∧ (ServerStep s e s' ∨ CpuStep s e s') := by
  unfold step at h
  by_cases hx : s.server = .exited
  · simp [hx] at h
  · rw [if_neg hx] at h
    refine ⟨hx, ?_⟩
    cases hs : serverStep s e with
    | none => exact .inr (cpuStep_cases (by simpa [hs] using h))
    | some t =>
      obtain rfl : t = s' := by simpa [hs] using h
      exact .inl (serverStep_cases hs)

end Cpm22.Console
