import Cpm22.Bdos.LineEdit

set_option relaxedAutoImplicit false
set_option autoImplicit false

/-!
# Runs of console calls

A program makes console calls one after the other: it reads keys, prints, reads lines, asks whether
a key is there. Every call that prints may take a key into `CHARBUF` while it does so. This file
follows the keys through a whole run.

## Main definitions

* `Cpm22.Bdos.Con.Call`, `Cpm22.Bdos.Con.exec`, `Cpm22.Bdos.Con.run` — the calls and their runs.
* `Cpm22.Bdos.Con.Dealt` — the keys are dealt out to the answers, one after the other.
* `Cpm22.Bdos.Con.Blocks` — why a call does not come back.
* `Cpm22.Bdos.Con.Accounted` — all keys of a run are accounted for.

## Main results

* `Cpm22.Bdos.Con.run_dealt` — in every run, whenever the keys are typed, every key goes to exactly
  one call and in the order of typing, and a run stops only where it must.
-/

namespace Cpm22.Bdos.Con

/-! ## The calls -/

/-- The console functions of the BDOS that go through `CHARBUF`. The other console functions ask the
BIOS without a look into this buffer. -/
inductive Call
  /-- `GETCON`, function 1. -/
  | getCon
  /-- `OUTCON`, function 2. -/
  | outCon (c : UInt8)
  /-- `PRTSTR`, function 9. -/
  | prtStr (a : UInt16)
  /-- `RDBUFF`, function 10. -/
  | rdBuff (params : UInt16)
  /-- `GETCSTS`, function 11. -/
  | getCsts
  deriving DecidableEq

/-- What a program has of a call. A line comes with the room of the buffer as it was before the
call, since the keys that make it depend on this room. -/
inductive Answer
  /-- A key. -/
  | key (k : UInt8)
  /-- A line in the buffer, which had room for `max` characters. -/
  | line (max : UInt8) (cs : List UInt8)
  /-- Whether a key is there. -/
  | status (a : UInt8)
  /-- Nothing. -/
  | printed
  deriving DecidableEq

/-- **A call.** `PRTSTR` looks for the end of its text in at most 65536 cells, after which it would
be at the beginning again; the line is what `RDBUFF` has left in the buffer. -/
def exec : Call → M Answer
  | .getCon => do
    let k ← getEcho
    pure (.key k)
  | .outCon c => do
    Con.outCon c
    pure .printed
  | .prtStr a => do
    prtMesg 65536 a
    pure .printed
  | .rdBuff params => do
    let s ← get
    Con.rdBuff params
    let t ← get
    pure (.line (s.mem params) (chars t.mem (params + 1) (t.mem (params + 1)).toNat))
  | .getCsts => do
    let a ← ckConsol
    pure (.status a)

/-- How a run ends. -/
inductive End
  /-- All calls have come back, the last one in this state. -/
  | returned (s : Term)
  /-- The call made in the state `s` has not come back. -/
  | stopped (call : Call) (stop : Stop) (s : Term)

/-- **A run**: the answers to the calls, and how it ends. -/
def run : List Call → Term → List Answer × End
  | [], s => ([], .returned s)
  | call :: calls, s =>
    match exec call s with
    | .ok a t => (a :: (run calls t).1, (run calls t).2)
    | .error e _ => ([], .stopped call e s)

/-! ## The keys -/

/-- **The keys that an answer is made of**, with others after them: the key itself, the keys from
which the abstract editor makes the line, and none for a call that prints. A status that is not zero
means that a key is there. -/
def Takes (rest : List UInt8) : Answer → List UInt8 → Prop
  | .key k, ks => ks = [k]
  | .line max cs, ks => edit max.toNat [] ks = .done cs []
  | .status a, ks => ks = [] ∧ (a ≠ 0 → rest ≠ [])
  | .printed, ks => ks = []

/-- **The keys are dealt out to the answers** one after the other, and `rest` is left. -/
def Dealt (rest : List UInt8) : List Answer → List UInt8 → Prop
  | [], ks => ks = rest
  | a :: as, ks => ∃ piece ks', ks = piece ++ ks' ∧ Takes ks' a piece ∧ Dealt rest as ks'

/-- **Why a call does not come back**, with these keys pending: there is no key, no end of the line
among the keys, a control-c at its start, or no end of the message. -/
def Blocks (ks : List UInt8) (mem : UInt16 → UInt8) : Call → Stop → Prop
  | .getCon, stop => stop = .waits ∧ ks = []
  | .outCon _, _ => False
  | .prtStr a, stop => stop = .endless ∧ ∀ i < 65536, mem (a + UInt16.ofNat i) ≠ 0x24
  | .rdBuff params, stop =>
    stop = .waits ∧ (∃ line, edit (mem params).toNat [] ks = .waits line) ∨
      stop = .reboots ∧ edit (mem params).toNat [] ks = .reboots
  | .getCsts, _ => False

/-- **A call has gone as it should**: it has come back, the keys its answer is made of taken, or it
has not come back, for a reason. -/
def Served (s : Term) (call : Call) : EStateM.Result Stop Term Answer → Prop
  | .ok a t => ∃ piece, s.pending = piece ++ t.pending ∧ Takes t.pending a piece
  | .error e _ => Blocks s.pending s.mem call e

/-- **All keys of a run are accounted for**: they are dealt out to the answers, to every call or to
those before one that has a reason not to come back. -/
structure Accounted (calls : List Call) (ks : List UInt8) (r : List Answer × End) : Prop where
  /-- A run that came to its end. -/
  returned : ∀ t, r.2 = .returned t → r.1.length = calls.length ∧ Dealt t.pending r.1 ks
  /-- A run that did not. -/
  stopped : ∀ call stop t, r.2 = .stopped call stop t →
    Dealt t.pending r.1 ks ∧ Blocks t.pending t.mem call stop

/-- The keys a line is made of are at the start of the keys. -/
lemma edit_done {max : ℕ} {line ks cs rest : List UInt8} (h : edit max line ks = .done cs rest) :
    ∃ piece, ks = piece ++ rest ∧ edit max line piece = .done cs [] := by
  induction ks generalizing line with
  | nil => cases h
  | cons k ks ih =>
    rw [edit] at h
    cases hch : editKey max line (k &&& 0x7f) with
    | goes line' =>
      rw [hch] at h
      obtain ⟨piece, rfl, hp⟩ := ih h
      exact ⟨k :: piece, rfl, by rw [edit, hch]; exact hp⟩
    | ends line' =>
      rw [hch] at h
      obtain ⟨rfl, rfl⟩ := Outcome.done.inj h
      exact ⟨[k], rfl, by rw [edit, hch]⟩
    | reboots =>
      rw [hch] at h
      cases h

section Served

variable {s : Term} (hc : Clean s.pending)

include hc

/-- A routine that only prints. -/
lemma served_printed {m : M Unit} {f : Out → Out} (h : Acts s.mem m Any f) (call : Call) :
    Served s call ((m >>= fun _ => pure .printed : M Answer) s) := by
  obtain ⟨_, t, ht, -, -, -, hp⟩ := h.ok rfl hc
  rw [Exc.bind_of_ok ht]
  exact ⟨[], hp.symm, rfl⟩

/-- `GETCON` takes a key.

**Proof sketch.** Without a pending key the call waits. Otherwise it takes the first one; what it
prints afterwards leaves the pending keys alone, since no control-S is among them. -/
lemma served_getCon : Served s .getCon (exec .getCon s) := by
  cases hks : s.pending with
  | nil =>
    have hr : exec .getCon s = .error .waits s := by
      rw [exec, getEcho, bind_assoc, Exc.bind_of_error (getChar_nil hks)]
    rw [hr]
    exact ⟨rfl, hks⟩
  | cons k ks =>
    obtain ⟨u, hu, hup, hum, -⟩ := getChar_cons hks
    rw [exec, getEcho, bind_assoc, Exc.bind_of_ok hu]
    by_cases hctl : chkChar k = true
    · rw [if_pos hctl]
      exact ⟨[k], hks.trans (by rw [← hup]; rfl), rfl⟩
    · rw [if_neg hctl]
      have hcu : Clean u.pending := by
        rw [hup]
        exact fun x hx => hc x (by rw [hks]; exact List.mem_cons_of_mem k hx)
      obtain ⟨f, hf⟩ := acts_outCon u.mem k
      obtain ⟨_, t, ht, -, -, -, htp⟩ := hf.ok rfl hcu
      rw [bind_assoc, Exc.bind_of_ok ht]
      exact ⟨[k], hks.trans (by rw [← hup, ← htp]; rfl), rfl⟩

/-- `PRTSTR` takes no key. -/
lemma served_prtStr (a : UInt16) : Served s (.prtStr a) (exec (.prtStr a) s) := by
  by_cases hend : ∀ i < 65536, s.mem (a + UInt16.ofNat i) ≠ 0x24
  · obtain ⟨t, ht, -⟩ := prtMesg_endless s.mem rfl hc hend
    have hr : exec (.prtStr a) s = .error .endless t := by
      rw [exec, Exc.bind_of_error ht]
    rw [hr]
    exact ⟨rfl, hend⟩
  · push Not at hend
    obtain ⟨i, hi, hd⟩ := hend
    obtain ⟨f, hf⟩ := acts_prtMesg s.mem hi hd
    exact served_printed hc hf _

omit hc in
/-- Without a pending key the keyboard says so. -/
lemma ckConsol_nil {a : UInt8} {t : Term} (h : ckConsol s = .ok a t) (hs : s.pending = []) :
    a = 0 := by
  have hb : s.charBuf = 0 := by
    by_contra hb
    rw [Term.pending, if_neg hb] at hs
    cases hs
  rw [Term.pending, if_pos hb] at hs
  rw [ckConsol, Exc.get_bind, if_neg (not_not.mpr hb)] at h
  obtain hst | ⟨⟨k, ks, hk⟩, -⟩ := const_cases s
  · rw [Exc.bind_of_ok hst, if_pos (by decide)] at h
    cases h
    rfl
  · rw [hk] at hs
    cases hs

/-- `GETCSTS` takes no key, and tells of one only if there is one. -/
lemma served_getCsts : Served s .getCsts (exec .getCsts s) := by
  obtain ⟨a, t, ht, -, -, -, hp⟩ := (acts_ckConsol s.mem).ok rfl hc
  rw [exec, Exc.bind_of_ok ht]
  exact ⟨[], hp.symm, rfl, fun ha hnil => ha (ckConsol_nil ht (hp ▸ hnil))⟩

/-- `RDBUFF` takes the keys of a line.

**Proof sketch.** The editor of lines says how the call ends (`rdBuf1_seen`): it waits, restarts
the system, or returns a line with the keys behind it. -/
lemma served_rdBuff (params : UInt16) : Served s (.rdBuff params) (exec (.rdBuff params) s) := by
  obtain ⟨u, hu, hh, hup, -⟩ := rdBuff_start params s
  have hseen := rdBuf1_seen hh hup hc (Nat.lt_succ_self _)
  rw [← hu] at hseen
  rw [exec, Exc.get_bind]
  cases he : edit (s.mem params).toNat [] s.pending with
  | waits line =>
    rw [he] at hseen
    obtain ⟨t, ht, -⟩ := hseen
    rw [Exc.bind_of_error ht]
    exact .inl ⟨rfl, line, he⟩
  | reboots =>
    rw [he] at hseen
    obtain ⟨t, ht, -⟩ := hseen
    rw [Exc.bind_of_error ht]
    exact .inr ⟨rfl, he⟩
  | done line rest =>
    rw [he] at hseen
    obtain ⟨t, ht, hread, rfl⟩ := hseen
    obtain ⟨piece, hpiece, hline⟩ := edit_done he
    rw [Exc.bind_of_ok ht, Exc.get_bind, hread.count, hread.chars]
    exact ⟨piece, hpiece, hline⟩

end Served

/-- **Every call goes as it should.** -/
lemma exec_served {s : Term} (hc : Clean s.pending) (call : Call) :
    Served s call (exec call s) := by
  cases call with
  | getCon => exact served_getCon hc
  | outCon c =>
    obtain ⟨f, hf⟩ := acts_outCon s.mem c
    exact served_printed hc hf _
  | prtStr a => exact served_prtStr hc a
  | rdBuff params => exact served_rdBuff hc params
  | getCsts => exact served_getCsts hc

/-- **No key is lost, doubled or moved in any run of console calls, whenever the keys are typed.**
The keys are dealt out to the answers in the order of typing, each to one call; and a call fails to
come back only where it has no key, no end of its line, a control-c at the start of the line, or a
message without an end.

**Proof sketch.** Induction on the calls; one call is `exec_served`. -/
theorem run_dealt (calls : List Call) (s : Term) (hc : Clean s.pending) :
    Accounted calls s.pending (run calls s) := by
  induction calls generalizing s with
  | nil =>
    refine ⟨fun t ht => ?_, fun call stop t ht => by cases ht⟩
    cases ht
    exact ⟨rfl, rfl⟩
  | cons call calls ih =>
    have hone := exec_served hc call
    cases hr : exec call s with
    | error e t =>
      rw [hr] at hone
      have hrun : run (call :: calls) s = ([], .stopped call e s) := by rw [run, hr]
      rw [hrun]
      refine ⟨fun t ht => (by cases ht), fun call' stop t ht => ?_⟩
      cases ht
      exact ⟨rfl, hone⟩
    | ok a t =>
      rw [hr] at hone
      obtain ⟨piece, hpiece, htakes⟩ := hone
      have hct : Clean t.pending := fun k hk => hc k (by rw [hpiece]; simp [hk])
      have hrun : run (call :: calls) s = (a :: (run calls t).1, (run calls t).2) := by
        rw [run, hr]
      have hrest := ih t hct
      rw [hrun]
      refine ⟨fun u hu => ?_, fun call' stop u hu => ?_⟩
      · obtain ⟨hlen, hdealt⟩ := hrest.returned u hu
        exact ⟨by simpa using hlen, piece, t.pending, hpiece, htakes, hdealt⟩
      · obtain ⟨hdealt, hblocks⟩ := hrest.stopped call' stop u hu
        exact ⟨⟨piece, t.pending, hpiece, htakes, hdealt⟩, hblocks⟩

/-- A program that asks, reads a key, prints it twice and reads a line. -/
def someCalls : List Call := [.getCsts, .getCon, .outCon 0x41, .outCon 0x41, .rdBuff 0x80]

/-- `run_dealt` for that program, with the first key typed before it starts. -/
theorem run_dealt_someCalls :
    Clean typing.pending ∧ Accounted someCalls typing.pending (run someCalls typing) := by
  have hc : Clean typing.pending := by
    simp [Clean, Term.pending, typing, CNTRLS, BS, CR]
  exact ⟨hc, run_dealt someCalls typing hc⟩

end Cpm22.Bdos.Con
