import Mathlib.Logic.Function.Iterate
import Cpm22.Machine.Memory

set_option relaxedAutoImplicit false
set_option autoImplicit false

/-!
# The monitor

`monitor::run` reads lines from the standard input and carries out the commands on them: `X` ends
the program, `D` dumps memory, `S` shows or sets the speed, `?` helps, and any other character is
skipped. Several commands may stand on one line.

The streams are those of the C locale. Which texts are numbers is the affair of the standard
library; a scanner is any function that takes a prefix of the text. The machine beside the monitor
is a parameter: what the monitor reads is its memory and its speed at the time of the command. The
variable `c` of the dump is not initialised, so that its value after a failed extraction is a
parameter too.

## Main definitions

* `Cpm22.Monitor.Scanner`, `Cpm22.Monitor.extractChar`, `Cpm22.Monitor.extract` — formatted input.
* `Cpm22.Monitor.dump`, `Cpm22.Monitor.dParams`, `Cpm22.Monitor.execute` — the commands.
* `Cpm22.Monitor.step` — one round of the inner loop, or the outer loop up to it.
* `Cpm22.Monitor.ReadsExit` — a line on which `X` is read as a command.

## Main results

* `Cpm22.Monitor.line_ends` — the inner loop ends on every line, within as many rounds as the line
  has characters.
* `Cpm22.Monitor.terminates_iff` — the monitor ends iff `X` is read as a command on some line.
-/

namespace Cpm22.Monitor

/-! ## Formatted input -/

/-- `isspace`. -/
def isspace (c : UInt8) : Bool := c == 0x20 || (0x09 ≤ c && c ≤ 0x0d)

/-- `isprint`. -/
def isprint (c : UInt8) : Bool := 0x20 ≤ c && c ≤ 0x7e

/-- `toupper`. -/
def toupper (c : UInt8) : UInt8 := if 0x61 ≤ c ∧ c ≤ 0x7a then c - 0x20 else c

/-- `f >> c` for a character: white space is skipped; without a character the stream fails. -/
def extractChar (f : IStream) : Option UInt8 × IStream :=
  if f.good then
    match f.rest.dropWhile isspace with
    | c :: rest => (some c, ⟨rest, true⟩)
    | [] => (none, ⟨[], false⟩)
  else (none, f)

/-- **A scanner for numbers**: the number at the start of a text, if there is one, and the text
behind what was looked at. -/
structure Scanner (α : Type) where
  scan : List UInt8 → Option α × List UInt8
  suffix : ∀ w, (scan w).2 <:+ w

/-- `f >> x` for a number: white space is skipped; without a number the stream fails. -/
def extract {α : Type} (num : Scanner α) (f : IStream) : Option α × IStream :=
  if f.good then
    match f.rest.dropWhile isspace with
    | [] => (none, ⟨[], false⟩)
    | w => ((num.scan w).1, ⟨(num.scan w).2, (num.scan w).1.isSome⟩)
  else (none, f)

/-- `f.clear()`. -/
def clear (f : IStream) : IStream := { f with good := true }

/-- `getline`: the characters up to the next newline, and the text behind it. -/
def getline : List UInt8 → List UInt8 × List UInt8
  | [] => ([], [])
  | c :: w => if c = 0x0a then ([], w) else (c :: (getline w).1, (getline w).2)

/-! ## Output -/

/-- **What the monitor prints.** The items are the arguments of its stream; how a number is
formatted is said by the kind of the item. -/
inductive Item (F : Type)
  | text (s : String)
  | endl
  /-- the head of a line of the dump -/
  | address (a : ℕ)
  | comma
  /-- a byte of the dump -/
  | byte (c : UInt8)
  /-- the printable characters of a line of the dump -/
  | column (ascii : List UInt8)
  | speed (mhz : F)

/-- `hex << setw(w) << setfill('0') << n`. -/
def hexText (w n : ℕ) : String := String.ofList ((Nat.toDigits 16 n).leftpad w '0')

/-- The text of an item, with the text of a speed as a parameter. -/
def Item.render {F : Type} (double : F → String) : Item F → String
  | .text s => s
  | .endl => "\n"
  | .address a => "\n" ++ hexText 4 a ++ ":"
  | .comma => ","
  | .byte c => hexText 2 c.toNat
  | .column ascii => " :'" ++ String.ofList (ascii.map fun c => Char.ofNat c.toNat) ++ "'"
  | .speed mhz => double mhz

/-! ## The commands -/

section Commands

variable {F C : Type}

/-- The character of the `ascii` string for a byte. -/
def printable (c : UInt8) : UInt8 := if isprint c then c else 0x2e

/-- **The loop of the dump**, from round `n` on for `k` more rounds: `mem` is the string stream with
the bytes, `ascii` the characters of the line so far. -/
def dumpLoop (stale : ℕ → UInt8) (pc : ℕ) : ℕ → ℕ → IStream → List UInt8 → List (Item F)
  | 0, _, _, _ => []
  | k + 1, n, mem, ascii =>
    let (got, mem') := extractChar mem
    let c := got.getD (stale n)
    let ascii' := ascii ++ [printable c]
    (if n % 16 = 0 then Item.address (pc + n) else .comma) :: .byte c ::
      if n % 16 = 15 then .column ascii' :: dumpLoop stale pc k (n + 1) mem' []
      else dumpLoop stale pc k (n + 1) mem' ascii'

/-- **The dump**: `readmem` fills a string stream, from which the loop takes the bytes. -/
def dump (stale : ℕ → UInt8) (ram : ℕ → UInt8) (pc cnt : UInt16) : List (Item F) :=
  match Cpu.readmemStream ram ⟨[], true, none⟩ pc cnt with
  | some (mem, _) => dumpLoop stale pc.toNat cnt.toNat 0 ⟨mem.written, true⟩ []
  | none => []

/-- The arguments of `D`: the address, the count, and the input behind them. -/
def dParams (num : Scanner UInt16) (pc : UInt16) (input : IStream) : UInt16 × UInt16 × IStream :=
  match extract num input with
  | (some addr, input') =>
    match extract num input' with
    | (some count, input'') => (addr, count, input'')
    | (none, input'') => (addr, 128, clear input'')
  | (none, input') => (pc, 128, clear input')

/-- **What the monitor works with**: the scanners, the machine, and the values of `c` that no
extraction set, by what was printed before and the round. -/
structure Env (F C : Type) where
  uint16 : Scanner UInt16
  double : Scanner F
  setMHz : F → C → C
  mhz : C → F
  ram : C → ℕ → UInt8
  stale : List (Item F) → ℕ → UInt8

/-- The state of the monitor, with the machine, the input that was not read and what was
printed. -/
structure State (F C : Type) where
  stdin : List UInt8
  pc : UInt16
  cpu : C
  out : List (Item F)

/-- The text of `?`. -/
def help : List (Item F) :=
  [.endl, .text "X                     ; exit programm.", .endl,
    .text "D [hex-addr [bytes]]  ; Dump", .endl, .text "S [n MHz]             ; set/get Speed",
    .endl]

/-- **The `switch`** over a command: the input behind it and the new state; none where the program
ends. -/
def execute (env : Env F C) (command : UInt8) (input : IStream) (s : State F C) :
    Option (IStream × State F C) :=
  if toupper command = 0x3f then some (input, { s with out := s.out ++ help })
  else if toupper command = 0x58 then none
  else if toupper command = 0x53 then
    match extract env.double input with
    | (some mhz, input') =>
      let cpu := env.setMHz mhz s.cpu
      some (input', { s with cpu := cpu, out := s.out ++ [.speed (env.mhz cpu)] })
    | (none, input') => some (input', { s with out := s.out ++ [.speed (env.mhz s.cpu)] })
  else if toupper command = 0x44 then
    let (pc, cnt, input') := dParams env.uint16 s.pc input
    some (input', { s with
      pc := pc + cnt
      out := s.out ++ dump (env.stale s.out) (env.ram s.cpu) pc cnt })
  else some (input, s)

/-- Where the monitor stands. -/
inductive Control
  /-- at the head of the outer loop -/
  | prompt
  /-- in the inner loop, with a command and the line behind it -/
  | line (command : UInt8) (input : IStream)
  /-- `run` has returned -/
  | returned

/-- `input >> command`, with the test of the inner loop behind it. -/
def fetch (input : IStream) : Control :=
  match extractChar input with
  | (some command, input') => .line command input'
  | (none, _) => .prompt

/-- **One step of the monitor.** The outer loop does not look at the state of the standard
input: at its end the line is empty. -/
def step (env : Env F C) : Control × State F C → Control × State F C
  | (.prompt, s) =>
    (fetch ⟨(getline s.stdin).1, true⟩,
      { s with stdin := (getline s.stdin).2, out := s.out ++ [.endl, .text "#:"] })
  | (.line command input, s) =>
    match execute env command input s with
    | none => (.returned, s)
    | some (input', s') => (fetch input', { s' with out := s'.out ++ [.endl] })
  | (.returned, s) => (.returned, s)

/-- **The monitor ends**, from the head of the outer loop. -/
def Terminates (env : Env F C) (s : State F C) : Prop :=
  ∃ n, ((step env)^[n] (.prompt, s)).1 = .returned

/-- The line that the monitor reads in round `n` of the outer loop; behind the end of the input
the line is empty. -/
def nthLine (stdin : List UInt8) (n : ℕ) : List UInt8 :=
  (getline ((fun w => (getline w).2)^[n] stdin)).1

/-- The text behind a command and its arguments, none where the rest of the line is dropped
because the argument of `S` is no number. -/
def behind (env : Env F C) (command : UInt8) (rest : List UInt8) : Option (List UInt8) :=
  if toupper command = 0x53 then
    match extract env.double ⟨rest, true⟩ with
    | (some _, input) => some input.rest
    | (none, _) => none
  else if toupper command = 0x44 then some (dParams env.uint16 0 ⟨rest, true⟩).2.2.rest
  else some rest

/-- **`X` is read as a command on the line**: it is the first character, or it is read behind the
first command and its arguments. -/
inductive ReadsExit (env : Env F C) : List UInt8 → Prop
  | exit {w rest : List UInt8} {command : UInt8} (hw : w.dropWhile isspace = command :: rest)
      (hx : toupper command = 0x58) : ReadsExit env w
  | behind {w rest rest' : List UInt8} {command : UInt8}
      (hw : w.dropWhile isspace = command :: rest) (hx : toupper command ≠ 0x58)
      (hrest : behind env command rest = some rest') (h : ReadsExit env rest') : ReadsExit env w

/-! ## Progress on a line -/

/-- What an extraction leaves is a suffix of the text. -/
lemma extract_suffix {α : Type} (num : Scanner α) (f : IStream) :
    (extract num f).2.rest <:+ f.rest := by
  unfold extract
  split
  · have hskip := List.dropWhile_suffix (l := f.rest) isspace
    cases hw : f.rest.dropWhile isspace with
    | nil => exact List.nil_suffix
    | cons d w => exact (num.suffix _).trans (hw ▸ hskip)
  · exact List.suffix_refl _

/-- After an extraction from a good stream, the stream is good iff there was a number. -/
lemma extract_good {α : Type} (num : Scanner α) {f : IStream} (h : f.good = true) :
    (extract num f).2.good = (extract num f).1.isSome := by
  rw [extract, if_pos h]
  cases f.rest.dropWhile isspace <;> rfl

/-- The arguments of `D` leave a good stream with a suffix of the text. -/
lemma dParams_spec (num : Scanner UInt16) (pc : UInt16) {f : IStream} (h : f.good = true) :
    (dParams num pc f).2.2.good = true ∧ (dParams num pc f).2.2.rest <:+ f.rest := by
  have hgood := extract_good num h
  have hsuffix := extract_suffix num f
  unfold dParams
  rcases hx : extract num f with ⟨addr, f'⟩
  rw [hx] at hgood hsuffix
  cases addr with
  | none => exact ⟨rfl, hsuffix⟩
  | some addr =>
    have hgood' := extract_good num (f := f') (by simpa using hgood)
    have hsuffix' := (extract_suffix num f').trans hsuffix
    dsimp only
    rcases hx' : extract num f' with ⟨count, f''⟩
    rw [hx'] at hgood' hsuffix'
    cases count with
    | none => exact ⟨rfl, hsuffix'⟩
    | some count => exact ⟨by simpa using hgood', hsuffix'⟩

/-- What `D` leaves of the line does not depend on the address of the last dump. -/
lemma dParams_input (num : Scanner UInt16) (pc pc' : UInt16) (f : IStream) :
    (dParams num pc f).2.2 = (dParams num pc' f).2.2 := by
  unfold dParams
  rcases extract num f with ⟨_ | addr, f'⟩
  · rfl
  · rfl

variable (env : Env F C)

/-- The text behind a command is not longer than the text it stands before. -/
lemma length_behind {command : UInt8} {rest rest' : List UInt8}
    (h : behind env command rest = some rest') : rest'.length ≤ rest.length := by
  unfold behind at h
  by_cases hs : toupper command = 0x53
  · rw [if_pos hs] at h
    have hsuffix := extract_suffix env.double ⟨rest, true⟩
    rcases hx : extract env.double ⟨rest, true⟩ with ⟨_ | v, f⟩
    · rw [hx] at h
      cases h
    · rw [hx] at h hsuffix
      obtain rfl : f.rest = rest' := by simpa using h
      exact hsuffix.length_le
  · rw [if_neg hs] at h
    by_cases hd : toupper command = 0x44
    · rw [if_pos hd] at h
      obtain rfl := Option.some.inj h
      exact (dParams_spec env.uint16 0 rfl).2.length_le
    · rw [if_neg hd] at h
      obtain rfl := Option.some.inj h
      exact le_rfl

/-- **What a command other than `X` leaves**: a stream with the text behind it, or one that has
failed; the standard input stays.

**Proof sketch.** By the command. `S` reads a number, which fails or leaves the text behind it; `D`
reads its parameters from the line and leaves what is behind them; any other command reads nothing.
-/
lemma execute_spec {command : UInt8} (hx : toupper command ≠ 0x58) (rest : List UInt8)
    (s : State F C) :
    ∃ input s', execute env command ⟨rest, true⟩ s = some (input, s') ∧ s'.stdin = s.stdin ∧
      ((input.good = true ∧ behind env command rest = some input.rest) ∨
        (input.good = false ∧ behind env command rest = none)) := by
  unfold execute behind
  by_cases hq : toupper command = 0x3f
  · have hs : ¬ toupper command = 0x53 := by rw [hq]; decide
    have hd : ¬ toupper command = 0x44 := by rw [hq]; decide
    rw [if_pos hq, if_neg hs, if_neg hd]
    exact ⟨_, _, rfl, rfl, .inl ⟨rfl, rfl⟩⟩
  · rw [if_neg hq, if_neg hx]
    by_cases hs : toupper command = 0x53
    · rw [if_pos hs, if_pos hs]
      have hgood := extract_good env.double (f := ⟨rest, true⟩) rfl
      rcases hv : extract env.double ⟨rest, true⟩ with ⟨_ | v, f⟩
      · rw [hv] at hgood
        exact ⟨_, _, rfl, rfl, .inr ⟨hgood, rfl⟩⟩
      · rw [hv] at hgood
        exact ⟨_, _, rfl, rfl, .inl ⟨hgood, rfl⟩⟩
    · rw [if_neg hs, if_neg hs]
      by_cases hd : toupper command = 0x44
      · rw [if_pos hd, if_pos hd]
        refine ⟨_, _, rfl, rfl, .inl ⟨(dParams_spec env.uint16 s.pc rfl).1, ?_⟩⟩
        exact congrArg (fun f => some f.rest) (dParams_input env.uint16 0 s.pc ⟨rest, true⟩)
      · rw [if_neg hd, if_neg hd]
        exact ⟨_, _, rfl, rfl, .inl ⟨rfl, rfl⟩⟩

/-- A stream that has failed ends the inner loop. -/
lemma fetch_of_failed {input : IStream} (h : input.good = false) : fetch input = .prompt := by
  simp [fetch, extractChar, h]

/-- A line of white space ends the inner loop. -/
lemma fetch_nil {w : List UInt8} (h : w.dropWhile isspace = []) : fetch ⟨w, true⟩ = .prompt := by
  simp [fetch, extractChar, h]

/-- The next command of a line. -/
lemma fetch_cons {w rest : List UInt8} {command : UInt8}
    (h : w.dropWhile isspace = command :: rest) : fetch ⟨w, true⟩ = .line command ⟨rest, true⟩ := by
  simp [fetch, extractChar, h]

/-- A command takes a character of the line. -/
lemma length_of_dropWhile {w rest : List UInt8} {command : UInt8}
    (h : w.dropWhile isspace = command :: rest) : rest.length < w.length := by
  have hsuffix := List.dropWhile_suffix (l := w) isspace
  rw [h] at hsuffix
  exact hsuffix.length_le

/-- On a line of white space `X` is not read. -/
lemma not_readsExit_nil {w : List UInt8} (h : w.dropWhile isspace = []) : ¬ ReadsExit env w := by
  rintro (⟨hw, -⟩ | ⟨hw, -⟩)
  · rw [h] at hw
    cases hw
  · rw [h] at hw
    cases hw

/-- Behind a command other than `X`, the line reads `X` iff the text behind it does. -/
lemma readsExit_cons {w rest : List UInt8} {command : UInt8}
    (hw : w.dropWhile isspace = command :: rest) (hx : toupper command ≠ 0x58) :
    ReadsExit env w ↔ ∃ rest', behind env command rest = some rest' ∧ ReadsExit env rest' := by
  constructor
  · rintro (⟨hw', hx'⟩ | ⟨hw', hx', hrest, h⟩)
    · obtain ⟨rfl, rfl⟩ := List.cons.inj (hw.symm.trans hw')
      exact absurd hx' hx
    · obtain ⟨rfl, rfl⟩ := List.cons.inj (hw.symm.trans hw')
      exact ⟨_, hrest, h⟩
  · rintro ⟨rest', hrest, h⟩
    exact .behind hw hx hrest h

/-- **The inner loop ends on every line**, within as many rounds as the line has characters: by
`return` if `X` is read on it, else at the next prompt, with the standard input as it was.

**Proof sketch.** Strong induction on the length of the line. A command takes a character, and its
arguments give none back, so that the text behind it is shorter (`Monitor.length_behind`); a
stream that has failed ends the loop at once. -/
lemma line_ends (w : List UInt8) (s : State F C) :
    ∃ n ≤ w.length, ∃ s', s'.stdin = s.stdin ∧
      ((ReadsExit env w ∧ (step env)^[n] (fetch ⟨w, true⟩, s) = (.returned, s')) ∨
        (¬ ReadsExit env w ∧ (step env)^[n] (fetch ⟨w, true⟩, s) = (.prompt, s'))) := by
  induction hlen : w.length using Nat.strongRecOn generalizing w s with
  | ind len ih =>
    subst hlen
    cases hw : w.dropWhile isspace with
    | nil =>
      refine ⟨0, Nat.zero_le _, s, rfl, .inr ⟨not_readsExit_nil env hw, ?_⟩⟩
      rw [fetch_nil hw]
      rfl
    | cons command rest =>
      have hlt := length_of_dropWhile hw
      rw [fetch_cons hw]
      by_cases hx : toupper command = 0x58
      · have hstep : step env (.line command ⟨rest, true⟩, s) = (.returned, s) := by
          have hne : toupper command ≠ 0x3f := by rw [hx]; decide
          simp only [step, execute, if_neg hne, if_pos hx]
        exact ⟨1, by omega, s, rfl, .inl ⟨.exit hw hx, hstep⟩⟩
      · obtain ⟨input, s', hexec, hstdin, hleft⟩ := execute_spec env hx rest s
        have hstep : step env (.line command ⟨rest, true⟩, s) =
            (fetch input, { s' with out := s'.out ++ [.endl] }) := by
          simp only [step, hexec]
        rcases hleft with ⟨hgood, hbehind⟩ | ⟨hbad, hbehind⟩
        · obtain ⟨rest', good⟩ := input
          obtain rfl : good = true := hgood
          have hle : rest'.length ≤ rest.length := length_behind env hbehind
          obtain ⟨n, hn, s'', hstdin', hend⟩ :=
            ih rest'.length (by omega) rest' { s' with out := s'.out ++ [.endl] } rfl
          have hiff : ReadsExit env w ↔ ReadsExit env rest' := by
            rw [readsExit_cons env hw hx, hbehind]
            simp
          refine ⟨n + 1, by omega, s'', hstdin'.trans hstdin, ?_⟩
          rw [Function.iterate_succ_apply, hstep, hiff]
          exact hend
        · refine ⟨1, by omega, { s' with out := s'.out ++ [.endl] }, hstdin, .inr ⟨?_, ?_⟩⟩
          · rw [readsExit_cons env hw hx, hbehind]
            simp
          · rw [Function.iterate_one, hstep, fetch_of_failed hbad]

/-! ## Whole runs -/

/-- The head of the outer loop. -/
lemma step_prompt (s : State F C) :
    step env (.prompt, s) = (fetch ⟨nthLine s.stdin 0, true⟩,
      { s with stdin := (getline s.stdin).2, out := s.out ++ [.endl, .text "#:"] }) := rfl

/-- The lines behind the first one. -/
lemma nthLine_succ (stdin : List UInt8) (n : ℕ) :
    nthLine stdin (n + 1) = nthLine (getline stdin).2 n := by
  rw [nthLine, Function.iterate_succ_apply]
  rfl

/-- A line on which `X` is read ends the monitor.

**Proof sketch.** Induction on the number of the line: the monitor returns on an earlier line, or
its loop ends there (`Monitor.line_ends`) and the line is one nearer. -/
lemma terminates_of_readsExit (n : ℕ) (s : State F C) (h : ReadsExit env (nthLine s.stdin n)) :
    Terminates env s := by
  induction n generalizing s with
  | zero =>
    obtain ⟨k, -, s', -, ⟨-, hend⟩ | ⟨hno, -⟩⟩ := line_ends env (nthLine s.stdin 0)
      { s with stdin := (getline s.stdin).2, out := s.out ++ [.endl, .text "#:"] }
    · refine ⟨k + 1, ?_⟩
      rw [Function.iterate_succ_apply, step_prompt, hend]
    · exact absurd h hno
  | succ n ih =>
    obtain ⟨k, -, s', hstdin, ⟨-, hend⟩ | ⟨-, hend⟩⟩ := line_ends env (nthLine s.stdin 0)
      { s with stdin := (getline s.stdin).2, out := s.out ++ [.endl, .text "#:"] }
    · refine ⟨k + 1, ?_⟩
      rw [Function.iterate_succ_apply, step_prompt, hend]
    · rw [nthLine_succ] at h
      obtain ⟨m, hm⟩ := ih s' (by rw [hstdin]; exact h)
      refine ⟨m + (k + 1), ?_⟩
      rw [Function.iterate_add_apply, Function.iterate_succ_apply, step_prompt, hend]
      exact hm

/-- The invariant of a monitor that does not end: `X` is read neither on the rest of the line nor
on a line to come. -/
def Stays (x : Control × State F C) : Prop :=
  (∀ n, ¬ ReadsExit env (nthLine x.2.stdin n)) ∧
    match x.1 with
    | .prompt => True
    | .line command input => input.good = true ∧ toupper command ≠ 0x58 ∧
        ∀ rest, behind env command input.rest = some rest → ¬ ReadsExit env rest
    | .returned => False

/-- A line on which `X` is not read is entered with the invariant. -/
lemma stays_fetch {w : List UInt8} {s : State F C} (hw : ¬ ReadsExit env w)
    (hs : ∀ n, ¬ ReadsExit env (nthLine s.stdin n)) : Stays env (fetch ⟨w, true⟩, s) := by
  cases hd : w.dropWhile isspace with
  | nil =>
    rw [fetch_nil hd]
    exact ⟨hs, trivial⟩
  | cons command rest =>
    have hx : toupper command ≠ 0x58 := fun hx => hw (.exit hd hx)
    rw [fetch_cons hd]
    refine ⟨hs, rfl, hx, fun rest' hrest h => hw ?_⟩
    exact .behind hd hx hrest h

/-- **One step keeps the invariant.**

**Proof sketch.** At the prompt the next line is read, and it does not read `X` by the hypothesis
on all lines. A command leaves a stream with the text behind it, where the next command is looked
for, or one that has failed (`execute_spec`), and then the prompt is next. -/
lemma stays_step {x : Control × State F C} (h : Stays env x) : Stays env (step env x) := by
  obtain ⟨control, s⟩ := x
  obtain ⟨hs, hc⟩ := h
  cases control with
  | prompt =>
    rw [step_prompt]
    exact stays_fetch env (hs 0) fun n => by rw [← nthLine_succ]; exact hs (n + 1)
  | line command input =>
    obtain ⟨hgood, hx, hbehind⟩ := hc
    obtain ⟨rest, good⟩ := input
    obtain rfl : good = true := hgood
    obtain ⟨input', s', hexec, hstdin, hleft⟩ := execute_spec env hx rest s
    have hstep : step env (.line command ⟨rest, true⟩, s) =
        (fetch input', { s' with out := s'.out ++ [.endl] }) := by
      simp only [step, hexec]
    have hs' : ∀ n, ¬ ReadsExit env (nthLine s'.stdin n) := by
      rw [hstdin]
      exact hs
    rw [hstep]
    rcases hleft with ⟨hgood', hrest⟩ | ⟨hbad, -⟩
    · obtain ⟨rest', good⟩ := input'
      obtain rfl : good = true := hgood'
      exact stays_fetch env (hbehind rest' hrest) hs'
    · rw [fetch_of_failed hbad]
      exact ⟨hs', trivial⟩
  | returned => exact hc.elim

/-- Without a line on which `X` is read the monitor does not end. -/
lemma not_terminates {s : State F C} (h : ∀ n, ¬ ReadsExit env (nthLine s.stdin n)) :
    ¬ Terminates env s := by
  rintro ⟨k, hk⟩
  have hstays : ∀ k, Stays env ((step env)^[k] (.prompt, s)) := by
    intro k
    induction k with
    | zero => exact ⟨h, trivial⟩
    | succ k ih =>
      rw [Function.iterate_succ_apply']
      exact stays_step env ih
  have hno := (hstays k).2
  rw [hk] at hno
  exact hno

/-- **The monitor ends iff `X` is read as a command on some line**; on every line the inner loop
ends, but at the end of the standard input the outer loop goes on with empty lines.

**Proof sketch.** A line with `X` is reached because the loop ends on the lines before it. Without
one, `Monitor.Stays` holds at the start and after every step, and it excludes the return. -/
theorem terminates_iff (env : Env F C) (s : State F C) :
    (∀ w s', ∃ n ≤ w.length, ((step env)^[n] (fetch ⟨w, true⟩, s')).1 = .returned ∨
      ((step env)^[n] (fetch ⟨w, true⟩, s')).1 = .prompt) ∧
    (Terminates env s ↔ ∃ n, ReadsExit env (nthLine s.stdin n)) := by
  refine ⟨?_, ?_, ?_⟩
  · intro w s'
    obtain ⟨n, hn, s'', -, ⟨-, hend⟩ | ⟨-, hend⟩⟩ := line_ends env w s'
    · exact ⟨n, hn, .inl (by rw [hend])⟩
    · exact ⟨n, hn, .inr (by rw [hend])⟩
  · intro h
    by_contra hno
    exact not_terminates env (not_exists.mp hno) h
  · rintro ⟨n, hn⟩
    exact terminates_of_readsExit env n s hn

end Commands

/-- A scanner that finds no number. -/
def noNumber {α : Type} : Scanner α := ⟨fun w => (none, w), fun w => List.suffix_refl w⟩

/-- A monitor beside a machine whose memory is its state. -/
def sampleEnv : Env Unit (ℕ → UInt8) where
  uint16 := noNumber
  double := noNumber
  setMHz _ ram := ram
  mhz _ := ()
  ram := id
  stale _ _ := 0x41

/-- The monitor before a command, with a memory. -/
def sampleState (ram : ℕ → UInt8) : State Unit (ℕ → UInt8) := ⟨[], 0, ram, []⟩

/-- Behind the end of the input every line is empty. -/
lemma nthLine_nil (n : ℕ) : nthLine [] n = [] := by
  induction n with
  | zero => rfl
  | succ n ih => exact (nthLine_succ [] n).trans ih

/-- On an empty standard input the monitor does not end. -/
theorem not_terminates_empty : ¬ Terminates sampleEnv (sampleState fun _ => 0) := by
  apply not_terminates
  intro n
  rw [show (sampleState fun _ => 0).stdin = [] from rfl, nthLine_nil]
  exact not_readsExit_nil sampleEnv rfl

end Cpm22.Monitor
