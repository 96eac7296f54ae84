import Mathlib.Data.List.Basic
import Cpm22.Bdos.Terminal

set_option relaxedAutoImplicit false
set_option autoImplicit false

/-!
# The buffered read of the BDOS

`RDBUFF`, function 10 of the BDOS: a line is read into a buffer, with the editing keys. The first
byte of the buffer says how many characters it has room for, the second is set to the number read,
and the characters follow.

## Main definitions

* `Cpm22.Bdos.Con.rdBuff` — the function; `Cpm22.Bdos.Con.rdBuf2` is what it does with one key.
* `Cpm22.Bdos.Con.edit` — the abstract editor: a line, the keys one after the other, no console.
* `Cpm22.Bdos.Con.Holding` — the buffer holds a line.

## Main results

* `Cpm22.Bdos.Con.rdBuff_edit` — whenever the keys are typed, the line read is that of the abstract
  editor, and the keys left over are its keys left over.
* `Cpm22.Bdos.Con.rdBuff_contained` — whatever is typed, nothing outside the buffer is written.
-/

namespace Cpm22.Bdos.Con

/-! ## The function -/

/-- How the handling of a key ends: with the next key to be read, the registers `C`, `HL` and `B`
being these, or with the end of the line. -/
inductive Turn
  /-- The jump to `RDBUF1`. -/
  | again (c : UInt8) (hl : UInt16) (b : UInt8)
  /-- The jump to `RDBUF17`. -/
  | ends (b : UInt8)
  deriving DecidableEq

/-- `RDBUFF` up to `RDBUF1`: the line starts where the cursor is. The room in the buffer goes to
register `C`; `HL` is the byte before the first character and `B` counts the characters. -/
def rdBuff0 (params : UInt16) : M Turn := do
  onOut fun o => { o with starting := o.curPos }
  let s ← get
  pure (.again (s.mem params) (params + 1) 0)

/-- `RDBUF7`: back to the starting column, one column a round. The loop of the source has no bound,
but columns are bytes, so that 256 rounds are enough. -/
def rdBuf7 : ℕ → M Unit
  | 0 => pure ()
  | n + 1 => do
    let s ← get
    if s.out.starting < s.out.curPos then
      onOut fun o => { o with curPos := o.curPos - 1 }
      backUp
      rdBuf7 n
    else pure ()

/-- `RDBUF11`: show `n` characters after the address `hl`. -/
def rdBuf11 : ℕ → UInt16 → M UInt16
  | 0, hl => pure hl
  | n + 1, hl => do
    let s ← get
    showIt (s.mem (hl + 1))
    rdBuf11 n (hl + 1)

/-- `RDBUF13`: back up until `OUTFLAG` has been counted down. -/
def rdBuf13 : ℕ → M Unit
  | 0 => pure ()
  | n + 1 => do
    backUp
    onOut fun o => { o with outFlag := o.outFlag - 1 }
    let s ← get
    if s.out.outFlag ≠ 0 then rdBuf13 n else pure ()

/-- `RDBUF12`: after a line shown with the output muted, back up over what is too much. -/
def rdBuf12 : M Unit := do
  let s ← get
  if s.out.outFlag = 0 then pure ()
  else
    onOut fun o => { o with outFlag := o.outFlag - o.curPos }
    rdBuf13 256

/-- `RDBUF10`: start a new line and show the old one again. -/
def rdBuf10 (params : UInt16) (c b : UInt8) : M Turn := do
  newLine
  let hl ← rdBuf11 b.toNat (params + 1)
  rdBuf12
  pure (.again c hl b)

/-- `RDBUF15`: echo `a`. A control-c that is alone in the buffer reboots, and a full buffer ends the
line. -/
def rdBuf15 (c : UInt8) (hl : UInt16) (b a : UInt8) : M Turn := do
  showIt a
  let s ← get
  if s.mem hl = CNTRLC ∧ b = 1 then throw .reboots
  else if b < c then pure (.again c hl b)
  else pure (.ends b)

/-- `RDBUF2`, after the key `a` has been read: the keys that edit the line, in the order in which
the source compares them. Every other key is stored in the buffer and shown. -/
def rdBuf2 (params : UInt16) (c : UInt8) (hl : UInt16) (b a : UInt8) : M Turn := do
  if a = CR then pure (.ends b)
  else if a = LF then pure (.ends b)
  else if a = BS then
    if b = 0 then pure (.again c hl b)
    else
      onOut fun o => { o with outFlag := o.curPos }
      rdBuf10 params c (b - 1)
  else if a = DEL then
    if b = 0 then pure (.again c hl b)
    else
      let s ← get
      rdBuf15 c (hl - 1) (b - 1) (s.mem hl)
  else if a = CNTRLE then
    outCrLf
    onOut fun o => { o with starting := 0 }
    pure (.again c hl b)
  else if a = CNTRLP then
    onOut fun o => { o with prtFlag := 1 - o.prtFlag }
    pure (.again c hl b)
  else if a = CNTRLX then
    rdBuf7 256
    rdBuff0 params
  else if a = CNTRLU then
    newLine
    rdBuff0 params
  else if a = CNTRLR then rdBuf10 params c b
  else
    modify fun s => { s with mem := Function.update s.mem (hl + 1) a }
    rdBuf15 c (hl + 1) (b + 1) a

/-- `RDBUF17`: the number of characters goes to the buffer. -/
def rdBuf17 (params : UInt16) (b : UInt8) : M Unit := do
  modify fun s => { s with mem := Function.update s.mem (params + 1) b }
  outChar CR

/-- `RDBUF1`: one key after the other, `n` at most. -/
def rdBuf1 (params : UInt16) : ℕ → Turn → M Unit
  | _, .ends b => rdBuf17 params b
  | 0, .again _ _ _ => throw .waits
  | n + 1, .again c hl b => do
    let a ← getChar
    let turn ← rdBuf2 params c hl b (a &&& 0x7f)
    rdBuf1 params n turn

/-- `RDBUFF`. Every round takes a key, so that there is one round more than there are keys. -/
def rdBuff (params : UInt16) : M Unit := do
  let s ← get
  let turn ← rdBuff0 params
  rdBuf1 params (s.pending.length + 1) turn

/-! ## The abstract editor -/

/-- What a key does to a line. -/
inductive Change
  /-- The line goes on. -/
  | goes (line : List UInt8)
  /-- The line has ended. -/
  | ends (line : List UInt8)
  /-- The system is started again. -/
  | reboots
  deriving DecidableEq

/-- **The meaning of a key**, for a line with room for `max` characters. -/
def editKey (max : ℕ) (line : List UInt8) (c : UInt8) : Change :=
  if c = CR ∨ c = LF then .ends line
  else if c = BS ∨ c = DEL then .goes line.dropLast
  else if c = CNTRLX ∨ c = CNTRLU then .goes []
  else if c = CNTRLE ∨ c = CNTRLP ∨ c = CNTRLR then .goes line
  else if line = [] ∧ c = CNTRLC then .reboots
  else if line.length + 1 < max then .goes (line ++ [c])
  else .ends (line ++ [c])

/-- What comes of a line and keys. -/
inductive Outcome
  /-- The keys are used up and the line has not ended. -/
  | waits (line : List UInt8)
  /-- The system is started again. -/
  | reboots
  /-- The line has ended, with some keys left. -/
  | done (line rest : List UInt8)
  deriving DecidableEq

/-- **The abstract editor**: the keys act on the line one after the other, without their eighth
bits. -/
def edit (max : ℕ) : List UInt8 → List UInt8 → Outcome
  | line, [] => .waits line
  | line, k :: ks =>
    match editKey max line (k &&& 0x7f) with
    | .goes line' => edit max line' ks
    | .ends line' => .done line' ks
    | .reboots => .reboots

example : edit 80 [] [0x64, 0x69, 0x78, BS, 0x72, CR, 0x41] = .done [0x64, 0x69, 0x72] [0x41] := by
  decide

/-! ## The routines that only print -/

section Routines

variable (mem : UInt16 → UInt8) (params : UInt16)

/-- `RDBUF7`, on the output side. -/
def Out.rub : ℕ → Out → Out
  | 0, o => o
  | n + 1, o =>
    if o.starting < o.curPos then Out.rub n { o with curPos := o.curPos - 1 }.back else o

/-- `RDBUF7` only prints. -/
lemma acts_rdBuf7 (n : ℕ) : Acts mem (rdBuf7 n) Any (Out.rub n) := by
  induction n with
  | zero => exact acts_pure mem trivial
  | succ n ih =>
    exact acts_get_ite (fun o => o.starting < o.curPos)
      ((acts_onOut mem fun o => { o with curPos := o.curPos - 1 }).bind fun _ _ =>
        (acts_backUp mem).bind fun _ _ => ih) (acts_pure mem trivial)

/-- The start of a line, on the output side. -/
def Out.start (o : Out) : Out := { o with starting := o.curPos }

/-- `RDBUFF` up to `RDBUF1` prints nothing. -/
lemma acts_rdBuff0 :
    Acts mem (rdBuff0 params) (· = .again (mem params) (params + 1) 0) Out.start := by
  rintro s rfl
  exact ⟨rfl, rfl, rfl, fun _ => rfl⟩

/-- `RDBUF13`, on the output side. -/
def Out.backs : ℕ → Out → Out
  | 0, o => o
  | n + 1, o =>
    if o.outFlag - 1 ≠ 0 then Out.backs n { o.back with outFlag := o.outFlag - 1 }
    else { o.back with outFlag := o.outFlag - 1 }

/-- `RDBUF13` only prints. -/
lemma acts_rdBuf13 (n : ℕ) : Acts mem (rdBuf13 n) Any (Out.backs n) := by
  induction n with
  | zero => exact acts_pure mem trivial
  | succ n ih =>
    exact (acts_backUp mem).bind fun _ _ =>
      (acts_onOut mem fun o => { o with outFlag := o.outFlag - 1 }).bind fun _ _ =>
        acts_get_ite (·.outFlag ≠ 0) ih (acts_pure mem trivial)

/-- `RDBUF12`, on the output side. -/
def Out.trim (o : Out) : Out :=
  if o.outFlag = 0 then o else Out.backs 256 { o with outFlag := o.outFlag - o.curPos }

/-- `RDBUF12` only prints. -/
lemma acts_rdBuf12 : Acts mem rdBuf12 Any Out.trim :=
  acts_get_ite (·.outFlag = 0) (acts_pure mem trivial)
    ((acts_onOut mem fun o => { o with outFlag := o.outFlag - o.curPos }).bind fun _ _ =>
      acts_rdBuf13 mem 256)

/-- A text shown character by character. -/
def Out.shows (o : Out) (cs : List UInt8) : Out :=
  cs.foldl (fun o c => o.puts (shown o.curPos.toNat c)) o

/-- The `n` characters after an address. -/
def chars (hl : UInt16) : ℕ → List UInt8
  | 0 => []
  | n + 1 => mem (hl + 1) :: chars (hl + 1) n

/-- `RDBUF11` shows the characters and ends at the last one. -/
lemma acts_rdBuf11 (n : ℕ) (hl : UInt16) :
    Acts mem (rdBuf11 n hl) (· = hl + UInt16.ofNat n) (·.shows (chars mem hl n)) := by
  induction n generalizing hl with
  | zero => exact acts_pure mem (by simp)
  | succ n ih =>
    intro s hs
    rw [rdBuf11, Exc.get_bind, hs, address_succ]
    exact ((acts_showIt mem (mem (hl + 1))).bind fun _ _ => ih (hl + 1)) s hs

/-- `RDBUF10` shows the line again. -/
lemma acts_rdBuf10 (c b : UInt8) :
    Acts mem (rdBuf10 params c b) (· = .again c (params + 1 + UInt16.ofNat b.toNat) b)
      fun o => ((o.puts (deleted o.starting.toNat)).shows
        (chars mem (params + 1) b.toNat)).trim := by
  have hlast (hl : UInt16) (hhl : hl = params + 1 + UInt16.ofNat b.toNat) :
      Acts mem (pure (.again c hl b) : M Turn)
        (· = .again c (params + 1 + UInt16.ofNat b.toNat) b) id := acts_pure mem (by rw [hhl])
  exact (acts_newLine mem).bind fun _ _ => (acts_rdBuf11 mem b.toNat (params + 1)).bind
    fun hl hhl => (acts_rdBuf12 mem).bind fun _ _ => hlast hl hhl

/-- `RDBUF15` only prints, unless there is a control-c alone in the buffer. -/
lemma acts_rdBuf15 {c b : UInt8} (hl : UInt16) (a : UInt8) (h : ¬ (mem hl = CNTRLC ∧ b = 1)) :
    Acts mem (rdBuf15 c hl b a) (· = if b < c then .again c hl b else .ends b)
      fun o => o.puts (shown o.curPos.toNat a) := by
  have hrest : Acts mem (get >>= fun s : Term =>
      if s.mem hl = CNTRLC ∧ b = 1 then throw .reboots
      else if b < c then pure (.again c hl b) else pure (.ends b) : M Turn)
      (· = if b < c then .again c hl b else .ends b) id := by
    intro s hs
    rw [Exc.get_bind, if_neg (hs ▸ h)]
    by_cases hb : b < c
    · rw [if_pos hb, if_pos hb]
      exact acts_pure mem rfl s hs
    · rw [if_neg hb, if_neg hb]
      exact acts_pure mem rfl s hs
  exact (acts_showIt mem a).bind fun _ _ => hrest

/-- A control-c alone in the buffer reboots, if nothing else stops the system before. -/
lemma rdBuf15_reboots {c b : UInt8} {hl : UInt16} (a : UInt8) {s : Term}
    (h : s.mem hl = CNTRLC ∧ b = 1) :
    ∃ e t, rdBuf15 c hl b a s = .error e t ∧ t.mem = s.mem ∧
      (Clean s.pending → e = .reboots) := by
  have hs := acts_showIt s.mem a s rfl
  cases hm : showIt a s with
  | ok x t =>
    rw [hm] at hs
    refine ⟨.reboots, t, ?_, hs.2.1, fun _ => rfl⟩
    rw [rdBuf15, Exc.bind_of_ok hm, Exc.get_bind, hs.2.1, if_pos h]
    rfl
  | error e t =>
    rw [hm] at hs
    exact ⟨e, t, by rw [rdBuf15, Exc.bind_of_error hm], hs.1, fun hc => absurd hc hs.2⟩

/-- A backspace in a line that is not empty. -/
lemma acts_backspace {c b : UInt8} (hl : UInt16) (hb : b ≠ 0) :
    Acts mem (rdBuf2 params c hl b BS)
      (· = .again c (params + 1 + UInt16.ofNat (b - 1).toNat) (b - 1))
      fun o => ((({ o with outFlag := o.curPos } : Out).puts (deleted o.starting.toNat)).shows
        (chars mem (params + 1) (b - 1).toNat)).trim := by
  have h : rdBuf2 params c hl b BS =
      (onOut (fun o => { o with outFlag := o.curPos }) >>= fun _ => rdBuf10 params c (b - 1)) := by
    rw [rdBuf2, if_neg (by decide), if_neg (by decide), if_pos rfl, if_neg hb]
  rw [h]
  exact (acts_onOut mem _).bind fun _ _ => acts_rdBuf10 mem params c (b - 1)

/-- Control-x. -/
lemma acts_cntrlX (c b : UInt8) (hl : UInt16) :
    Acts mem (rdBuf2 params c hl b CNTRLX) (· = .again (mem params) (params + 1) 0)
      fun o => (Out.rub 256 o).start := by
  have h : rdBuf2 params c hl b CNTRLX = (rdBuf7 256 >>= fun _ => rdBuff0 params) := rfl
  rw [h]
  exact (acts_rdBuf7 mem 256).bind fun _ _ => acts_rdBuff0 mem params

/-- Control-u. -/
lemma acts_cntrlU (c b : UInt8) (hl : UInt16) :
    Acts mem (rdBuf2 params c hl b CNTRLU) (· = .again (mem params) (params + 1) 0)
      fun o => (o.puts (deleted o.starting.toNat)).start := by
  have h : rdBuf2 params c hl b CNTRLU = (newLine >>= fun _ => rdBuff0 params) := rfl
  rw [h]
  exact (acts_newLine mem).bind fun _ _ => acts_rdBuff0 mem params

/-- Control-r. -/
lemma acts_cntrlR (c b : UInt8) (hl : UInt16) :
    Acts mem (rdBuf2 params c hl b CNTRLR) (· = .again c (params + 1 + UInt16.ofNat b.toNat) b)
      fun o => ((o.puts (deleted o.starting.toNat)).shows
        (chars mem (params + 1) b.toNat)).trim :=
  acts_rdBuf10 mem params c b

/-- Control-p. -/
lemma acts_cntrlP (c b : UInt8) (hl : UInt16) :
    Acts mem (rdBuf2 params c hl b CNTRLP) (· = .again c hl b)
      fun o => { o with prtFlag := 1 - o.prtFlag } :=
  (acts_onOut mem _).bind fun _ _ => acts_value mem (Turn.again c hl b)

/-- Control-e. -/
lemma acts_cntrlE (c b : UInt8) (hl : UInt16) :
    Acts mem (rdBuf2 params c hl b CNTRLE) (· = .again c hl b)
      fun o => { o.puts [CR, LF] with starting := 0 } :=
  (acts_outCrLf mem).bind fun _ _ =>
    (acts_onOut mem fun o => { o with starting := 0 }).bind fun _ _ =>
      acts_value mem (Turn.again c hl b)

/-- The keys that edit the line. -/
def isCommand (a : UInt8) : Prop :=
  a = CR ∨ a = LF ∨ a = BS ∨ a = DEL ∨ a = CNTRLE ∨ a = CNTRLP ∨ a = CNTRLX ∨ a = CNTRLU ∨
    a = CNTRLR

/-- What such keys leave of the abstract editor. -/
lemma editKey_char {a : UInt8} (h : ¬ isCommand a) (max : ℕ) (line : List UInt8) :
    editKey max line a =
      if line = [] ∧ a = CNTRLC then .reboots
      else if line.length + 1 < max then .goes (line ++ [a])
      else .ends (line ++ [a]) := by
  simp only [isCommand, not_or] at h
  obtain ⟨h1, h2, h3, h4, h5, h6, h7, h8, h9⟩ := h
  rw [editKey, if_neg (by simp [h1, h2]), if_neg (by simp [h3, h4]), if_neg (by simp [h7, h8]),
    if_neg (by simp [h5, h6, h9])]

/-- A key that does not edit the line is stored and shown. -/
lemma rdBuf2_char {a : UInt8} (h : ¬ isCommand a) (c b : UInt8) (hl : UInt16) (s : Term) :
    rdBuf2 params c hl b a s = rdBuf15 c (hl + 1) (b + 1) a
      { s with mem := Function.update s.mem (hl + 1) a } := by
  simp only [isCommand, not_or] at h
  obtain ⟨h1, h2, h3, h4, h5, h6, h7, h8, h9⟩ := h
  rw [rdBuf2, if_neg h1, if_neg h2, if_neg h3, if_neg h4, if_neg h5, if_neg h6, if_neg h7,
    if_neg h8, if_neg h9]
  rfl

end Routines

/-! ## The buffer -/

section Buffer

variable {mem : UInt16 → UInt8} {params : UInt16}

/-- The address of the `i`-th character of the buffer, counted from one. -/
def cell (params : UInt16) (i : ℕ) : UInt16 := params + 1 + UInt16.ofNat i

/-- The number of characters that a read takes at most: what the first byte of the buffer says, and
one where that byte is zero, since a character is stored before the count is compared. -/
def room (params : UInt16) (mem : UInt16 → UInt8) : ℕ := max 1 (mem params).toNat

/-- The characters of a line are seven bits wide and none of them is an editing key. -/
def Typed (line : List UInt8) : Prop := ∀ c ∈ line, ¬ isCommand c ∧ c < 0x80

/-- **Only the characters of the buffer have changed.** -/
def Within (params : UInt16) (mem₀ mem : UInt16 → UInt8) : Prop :=
  ∀ a, (∀ i < room params mem₀, a ≠ cell params (i + 1)) → mem a = mem₀ a

/-- The next cell. -/
lemma cell_succ (i : ℕ) : cell params i + 1 = cell params (i + 1) := by
  rw [cell, cell, UInt16.add_assoc, UInt16.ofNat_add]
  rfl

/-- The cell before. -/
lemma cell_pred (i : ℕ) : cell params (i + 1) - 1 = cell params i := by
  rw [← cell_succ, UInt16.add_sub_cancel]

/-- The address of a cell, as a number. -/
lemma toNat_cell (i : ℕ) : (cell params i).toNat = (params.toNat + 1 + i) % 65536 := by
  rw [cell, UInt16.toNat_add, UInt16.toNat_add, UInt16.toNat_ofNat']
  simp

/-- Cells are different. -/
lemma cell_inj {i j : ℕ} (hi : i < 65536) (hj : j < 65536) (h : cell params i = cell params j) :
    i = j := by
  have h := congrArg UInt16.toNat h
  rw [toNat_cell, toNat_cell] at h
  omega

/-- The first byte of the buffer is no cell. -/
lemma cell_ne {i : ℕ} (hi : i < 65535) : params ≠ cell params i := by
  intro h
  have h := congrArg UInt16.toNat h
  rw [toNat_cell] at h
  have := params.toNat_lt
  omega

/-- The characters up to the next one. -/
lemma chars_succ (n : ℕ) (hl : UInt16) :
    chars mem hl (n + 1) = chars mem hl n ++ [mem (hl + UInt16.ofNat (n + 1))] := by
  induction n generalizing hl with
  | zero => rfl
  | succ n ih =>
    rw [chars, ih, address_succ hl (n + 1)]
    rfl

/-- As many characters as asked for. -/
@[simp]
lemma length_chars (n : ℕ) (hl : UInt16) : (chars mem hl n).length = n := by
  induction n generalizing hl with
  | zero => rfl
  | succ n ih => simp [chars, ih]

/-- The characters do not change with another cell. -/
lemma chars_update {n i : ℕ} (hn : n < 65536) (hi : i < 65536) (hne : i = 0 ∨ n < i) (a : UInt8) :
    chars (Function.update mem (cell params i) a) (params + 1) n = chars mem (params + 1) n := by
  induction n with
  | zero => rfl
  | succ n ih =>
    rw [chars_succ, chars_succ, ih (by omega) (by omega), Function.update_of_ne]
    intro h
    have := cell_inj hn hi h
    omega

/-- There is room for less than 256 characters. -/
lemma room_lt (params : UInt16) (mem : UInt16 → UInt8) : room params mem < 256 := by
  have := (mem params).toNat_lt
  rw [room]
  omega

/-- The room in the buffer is not written. -/
lemma Within.first {mem₀ : UInt16 → UInt8} (h : Within params mem₀ mem) :
    mem params = mem₀ params :=
  h params fun i hi => cell_ne (by have := room_lt params mem₀; omega)

/-- Writing a character. -/
lemma Within.update {mem₀ : UInt16 → UInt8} (h : Within params mem₀ mem) {i : ℕ}
    (hi : i < room params mem₀) (a : UInt8) :
    Within params mem₀ (Function.update mem (cell params (i + 1)) a) := by
  intro x hx
  rw [Function.update_of_ne (hx i hi)]
  exact h x hx

/-- **The buffer holds a line that has come to its end.** It may fill the buffer, which is what ends
it if no carriage return does. -/
structure Full (params : UInt16) (mem₀ : UInt16 → UInt8) (line : List UInt8)
    (mem : UInt16 → UInt8) : Prop where
  /-- Its characters are in the buffer. -/
  chars : chars mem (params + 1) line.length = line
  /-- There is room for them. -/
  room : line.length ≤ room params mem₀
  /-- They are characters. -/
  typed : Typed line
  /-- Nothing else has changed. -/
  within : Within params mem₀ mem

/-- **The buffer holds a line that goes on.** An empty line has room for one character in any case,
since the source looks at the room only after it has stored the character. -/
structure Holding (params : UInt16) (mem₀ : UInt16 → UInt8) (line : List UInt8)
    (mem : UInt16 → UInt8) : Prop where
  /-- Its characters are in the buffer. -/
  chars : chars mem (params + 1) line.length = line
  /-- There is room for another one. -/
  short : line = [] ∨ line.length < (mem₀ params).toNat
  /-- It does not start with a control-c. -/
  head : line.head? ≠ some CNTRLC
  /-- It is made of characters. -/
  typed : Typed line
  /-- Nothing else has changed. -/
  within : Within params mem₀ mem

variable {mem₀ : UInt16 → UInt8} {line : List UInt8}

/-- There is room for another character. -/
lemma Holding.lt (h : Holding params mem₀ line mem) : line.length < room params mem₀ := by
  rw [room]
  obtain rfl | hs := h.short
  · exact Nat.lt_of_lt_of_le Nat.one_pos (Nat.le_max_left _ _)
  · exact Nat.lt_of_lt_of_le hs (Nat.le_max_right _ _)

/-- A line may end at any time. -/
lemma Holding.full (h : Holding params mem₀ line mem) : Full params mem₀ line mem :=
  ⟨h.chars, Nat.le_of_lt h.lt, h.typed, h.within⟩

/-- The empty line. -/
lemma Holding.nil (h : Within params mem₀ mem) : Holding params mem₀ [] mem :=
  ⟨rfl, .inl rfl, by simp, fun _ hc => absurd hc (by simp), h⟩

/-- The line without its last character. -/
lemma Holding.dropLast (h : Holding params mem₀ line mem) :
    Holding params mem₀ line.dropLast mem := by
  obtain rfl | ⟨l, x, rfl⟩ := List.eq_nil_or_concat line
  · exact h
  · rw [List.concat_eq_append] at h ⊢
    have hl : (l ++ [x]).length = l.length + 1 := by simp
    rw [List.dropLast_concat]
    refine ⟨?_, .inr ?_, fun hh => h.head ?_, fun c hc => h.typed c (by simp [hc]), h.within⟩
    · have hc := h.chars
      rw [hl, chars_succ] at hc
      exact (List.append_inj' hc rfl).1
    · have := h.lt
      obtain hs | hs := h.short
      · simp at hs
      · omega
    · cases l with
      | nil => cases hh
      | cons y l => exact hh

/-- **A character is added.** -/
lemma Holding.add (h : Holding params mem₀ line mem) {a : UInt8} (ha : ¬ isCommand a)
    (h7 : a < 0x80) :
    Full params mem₀ (line ++ [a])
      (Function.update mem (cell params (line.length + 1)) a) := by
  have hlt := h.lt
  have h256 := room_lt params mem₀
  refine ⟨?_, by simpa using Nat.succ_le_of_lt hlt, fun c hc => ?_, h.within.update hlt a⟩
  swap
  · obtain hc | hc := List.mem_append.mp hc
    · exact h.typed c hc
    · rw [List.mem_singleton.mp hc]
      exact ⟨ha, h7⟩
  rw [show (line ++ [a]).length = line.length + 1 by simp, chars_succ,
    chars_update (by omega) (by omega) (.inr (by omega)), h.chars]
  exact congrArg (line ++ [·]) (Function.update_self _ _ _)

end Buffer

/-! ## One key -/

section Step

variable {params : UInt16} {mem₀ : UInt16 → UInt8} {line : List UInt8} {s : Term}

/-- The registers with a line in the buffer. -/
def resume (params : UInt16) (mem₀ : UInt16 → UInt8) (line : List UInt8) : Turn :=
  .again (mem₀ params) (cell params line.length) (UInt8.ofNat line.length)

/-- The registers and the buffer are as the change says. -/
def Change.Seen (params : UInt16) (mem₀ : UInt16 → UInt8) (turn : Turn) (mem : UInt16 → UInt8) :
    Change → Prop
  | .goes line => turn = resume params mem₀ line ∧ Holding params mem₀ line mem
  | .ends line => turn = .ends (UInt8.ofNat line.length) ∧ Full params mem₀ line mem
  | .reboots => False

/-- **What a routine does that carries out a change**, the keys `ks` pending: it comes back with
the change made, and with clean keys no key is lost and it stops only to reboot. -/
def Makes (params : UInt16) (mem₀ : UInt16 → UInt8) (change : Change) (ks : List UInt8) :
    EStateM.Result Stop Term Turn → Prop
  | .ok turn t => change.Seen params mem₀ turn t.mem ∧ (Clean ks → t.pending = ks)
  | .error e t => Within params mem₀ t.mem ∧ (Clean ks → e = .reboots ∧ change = .reboots)

/-- A routine that only prints leaves the buffer as it is. -/
lemma makes_of_acts {m : M Turn} {turn : Turn} {f : Out → Out} {change : Change}
    (h : Acts s.mem m (· = turn) f) (hin : Within params mem₀ s.mem)
    (hch : change.Seen params mem₀ turn s.mem) : Makes params mem₀ change s.pending (m s) := by
  have h := h s rfl
  cases hm : m s with
  | ok a t =>
    rw [hm] at h
    obtain ⟨rfl, h1, -, h2⟩ := h
    exact ⟨h1 ▸ hch, h2⟩
  | error e t =>
    rw [hm] at h
    exact ⟨h.1 ▸ hin, fun hc => absurd hc h.2⟩

/-- The number of characters, in register `B`. -/
lemma Holding.toNat (h : Holding params mem₀ line s.mem) :
    (UInt8.ofNat line.length).toNat = line.length :=
  UInt8.toNat_ofNat_of_lt (Nat.lt_trans h.lt (room_lt params mem₀))

/-- No characters. -/
lemma Holding.zero_iff (h : Holding params mem₀ line s.mem) :
    UInt8.ofNat line.length = 0 ↔ line = [] := by
  rw [← UInt8.toNat_inj, h.toNat, ← List.length_eq_zero_iff]
  rfl

/-- One character less. -/
lemma ofNat_dropLast (hne : line ≠ []) :
    UInt8.ofNat line.length - 1 = UInt8.ofNat line.dropLast.length := by
  have hpos : 0 < line.length := List.length_pos_iff.mpr hne
  rw [List.length_dropLast, UInt8.ofNat_sub hpos]
  rfl

/-- **Showing the line again** changes nothing in the buffer. -/
lemma Holding.again (h : Holding params mem₀ line s.mem) :
    params + 1 + UInt16.ofNat (UInt8.ofNat line.length).toNat = cell params line.length := by
  rw [h.toNat]
  rfl

/-- The line as it is shown again. -/
lemma Holding.resume_eq (h : Holding params mem₀ line s.mem) :
    Turn.again (mem₀ params)
        (params + 1 + UInt16.ofNat (UInt8.ofNat line.length).toNat) (UInt8.ofNat line.length) =
      resume params mem₀ line := by
  rw [h.toNat]
  rfl

/-- **A key that does not edit the line** is stored, and reboots, ends the line or goes on with it.

**Proof sketch.** The number of characters stays below 256, so that the comparisons of register `B`
are comparisons of the length of the line. -/
lemma makes_char (h : Holding params mem₀ line s.mem) {a : UInt8} (ha : ¬ isCommand a)
    (h7 : a < 0x80) :
    Makes params mem₀ (editKey (mem₀ params).toNat line a) s.pending
      (rdBuf2 params (mem₀ params) (cell params line.length) (UInt8.ofNat line.length) a s) := by
  have hlt := h.lt
  have h256 := room_lt params mem₀
  have hadd := h.add ha h7
  have hB : UInt8.ofNat line.length + 1 = UInt8.ofNat (line.length + 1) :=
    (UInt8.ofNat_add _ _).symm
  have hBn : (UInt8.ofNat (line.length + 1)).toNat = line.length + 1 :=
    UInt8.toNat_ofNat_of_lt (by change _ < 256; omega)
  have hone : UInt8.ofNat (line.length + 1) = 1 ↔ line = [] := by
    rw [← UInt8.toNat_inj, hBn, ← List.length_eq_zero_iff]
    simp
  rw [rdBuf2_char params ha, cell_succ, hB, editKey_char ha]
  set mem := Function.update s.mem (cell params (line.length + 1)) a with hmem
  have hlast : mem (cell params (line.length + 1)) = a := Function.update_self _ _ _
  by_cases hrb : line = [] ∧ a = CNTRLC
  · obtain ⟨e, t, ht, htm, hte⟩ := rdBuf15_reboots (c := mem₀ params) a
      (s := { s with mem := mem }) ⟨hlast.trans hrb.2, hone.mpr hrb.1⟩
    rw [ht, if_pos hrb]
    exact ⟨htm ▸ hadd.within, fun hc => ⟨hte hc, rfl⟩⟩
  · have hact := acts_rdBuf15 mem (c := mem₀ params) (b := UInt8.ofNat (line.length + 1))
      (cell params (line.length + 1)) a fun hh => hrb ⟨hone.mp hh.2, hlast ▸ hh.1⟩
    rw [if_neg hrb]
    refine makes_of_acts (s := { s with mem := mem }) hact hadd.within ?_
    have hlen : (line ++ [a]).length = line.length + 1 := by simp
    have hcmp : UInt8.ofNat (line.length + 1) < mem₀ params ↔
        line.length + 1 < (mem₀ params).toNat := by rw [UInt8.lt_iff_toNat_lt, hBn]
    by_cases hroom : line.length + 1 < (mem₀ params).toNat
    · rw [if_pos hroom, if_pos (hcmp.mpr hroom)]
      refine ⟨by rw [resume, hlen], hadd.chars, .inr (hlen ▸ hroom), ?_, hadd.typed, hadd.within⟩
      intro hh
      by_cases hnil : line = []
      · rw [hnil] at hh
        exact hrb ⟨hnil, Option.some.inj hh⟩
      · rw [List.head?_append_of_ne_nil line hnil] at hh
        exact h.head hh
    · rw [if_neg hroom, if_neg (fun hh => hroom (hcmp.mp hh))]
      exact ⟨by rw [hlen], hadd⟩

/-- The registers with the empty line. -/
lemma resume_nil : resume params mem₀ [] = .again (mem₀ params) (params + 1) 0 := by
  simp [resume, cell]

/-- A line that goes on is not a control-c alone. -/
lemma Holding.not_abort (h : Holding params mem₀ line s.mem) :
    ¬ (s.mem (cell params line.length) = CNTRLC ∧ UInt8.ofNat line.length = 1) := by
  rintro ⟨hm, h1⟩
  have hlen : line.length = 1 := by
    rw [← h.toNat, h1]
    rfl
  have hc := h.chars
  rw [hlen] at hc hm
  refine h.head ?_
  rw [← hc]
  exact congrArg some hm

/-- **A backspace** removes a character. -/
lemma makes_backspace (h : Holding params mem₀ line s.mem) :
    Makes params mem₀ (.goes line.dropLast) s.pending
      (rdBuf2 params (mem₀ params) (cell params line.length) (UInt8.ofNat line.length) BS s) := by
  by_cases hne : line = []
  · subst hne
    exact makes_of_acts (acts_value s.mem _) h.within ⟨rfl, h⟩
  · have hb : UInt8.ofNat line.length ≠ 0 := fun h0 => hne (h.zero_iff.mp h0)
    refine makes_of_acts (acts_backspace s.mem params (cell params line.length) hb) h.within
      ⟨?_, h.dropLast⟩
    rw [ofNat_dropLast hne]
    exact h.dropLast.resume_eq

/-- **A rubout** removes a character.

**Proof sketch.** An empty line stays empty. Otherwise the pointer into the buffer and the count go
back by one, which is what they are for the shorter line, and the character is printed once more.
-/
lemma makes_rubout (h : Holding params mem₀ line s.mem) :
    Makes params mem₀ (.goes line.dropLast) s.pending
      (rdBuf2 params (mem₀ params) (cell params line.length) (UInt8.ofNat line.length) DEL s) := by
  by_cases hne : line = []
  · subst hne
    exact makes_of_acts (acts_value s.mem _) h.within ⟨rfl, h⟩
  · have hb : UInt8.ofNat line.length ≠ 0 := fun h0 => hne (h.zero_iff.mp h0)
    have hpos : 0 < line.length := List.length_pos_iff.mpr hne
    have hcell : cell params line.length - 1 = cell params line.dropLast.length := by
      obtain ⟨n, hn⟩ : ∃ n, line.length = n + 1 := ⟨line.length - 1, by omega⟩
      rw [List.length_dropLast, hn, cell_pred]
      rfl
    have hrun : rdBuf2 params (mem₀ params) (cell params line.length) (UInt8.ofNat line.length)
        DEL s = rdBuf15 (mem₀ params) (cell params line.dropLast.length)
          (UInt8.ofNat line.dropLast.length) (s.mem (cell params line.length)) s := by
      rw [rdBuf2, if_neg (by decide), if_neg (by decide), if_neg (by decide), if_pos rfl,
        if_neg hb, Exc.get_bind, hcell, ofNat_dropLast hne]
    rw [hrun]
    refine makes_of_acts (acts_rdBuf15 s.mem _ _ h.dropLast.not_abort) h.within ⟨?_, h.dropLast⟩
    have hlt : UInt8.ofNat line.dropLast.length < mem₀ params := by
      rw [UInt8.lt_iff_toNat_lt, h.dropLast.toNat, List.length_dropLast]
      have := h.short.resolve_left hne
      omega
    rw [if_pos hlt]
    rfl

/-- **What `RDBUF2` does with a key is what the abstract editor does.**

**Proof sketch.** The tests of the source one after the other; every branch but that of a rubout and
that of an ordinary character only prints. -/
lemma rdBuf2_makes (h : Holding params mem₀ line s.mem) {a : UInt8} (h7 : a < 0x80) :
    Makes params mem₀ (editKey (mem₀ params).toNat line a) s.pending
      (rdBuf2 params (mem₀ params) (cell params line.length) (UInt8.ofNat line.length) a s) := by
  have hsame : Change.Seen params mem₀ (resume params mem₀ line) s.mem (.goes line) := ⟨rfl, h⟩
  by_cases hchar : ¬ isCommand a
  · exact makes_char h hchar h7
  obtain rfl | rfl | rfl | rfl | rfl | rfl | rfl | rfl | rfl := not_not.mp hchar
  · exact makes_of_acts (acts_value s.mem _) h.within ⟨rfl, h.full⟩
  · exact makes_of_acts (acts_value s.mem _) h.within ⟨rfl, h.full⟩
  · exact makes_backspace h
  · exact makes_rubout h
  · exact makes_of_acts (acts_cntrlE s.mem params _ _ _) h.within hsame
  · exact makes_of_acts (acts_cntrlP s.mem params _ _ _) h.within hsame
  · refine makes_of_acts (acts_cntrlX s.mem params _ _ _) h.within ⟨?_, .nil h.within⟩
    rw [h.within.first, resume_nil]
  · refine makes_of_acts (acts_cntrlU s.mem params _ _ _) h.within ⟨?_, .nil h.within⟩
    rw [h.within.first, resume_nil]
  · exact makes_of_acts (acts_cntrlR s.mem params _ _ _) h.within ⟨h.resume_eq, h⟩

end Step

/-! ## The whole line -/

section Run

variable {params : UInt16} {mem₀ : UInt16 → UInt8} {line : List UInt8} {s : Term}

/-- **Only the buffer has changed**, the number of characters included. -/
def Outside (params : UInt16) (mem₀ mem : UInt16 → UInt8) : Prop :=
  ∀ a, a ≠ params + 1 → (∀ i < room params mem₀, a ≠ cell params (i + 1)) → mem a = mem₀ a

/-- **A line has been read into the buffer**: its characters and their number are there, they are no
more than a read takes, and the rest of the memory is as before. -/
structure Read (params : UInt16) (mem₀ : UInt16 → UInt8) (line : List UInt8)
    (mem : UInt16 → UInt8) : Prop where
  /-- The characters are in the buffer. -/
  chars : chars mem (params + 1) line.length = line
  /-- They are no more than a read takes. -/
  room : line.length ≤ room params mem₀
  /-- Their number is in the second byte of the buffer. -/
  count : (mem (params + 1)).toNat = line.length
  /-- They are seven bits wide, and no editing keys. -/
  typed : Typed line
  /-- Nothing else has changed. -/
  frame : Outside params mem₀ mem

/-- **A call has gone as the abstract editor says**: it waits for a key with the line so far in the
buffer, it reboots, or it returns with the line in the buffer and the other keys left. -/
def Outcome.Seen (params : UInt16) (mem₀ : UInt16 → UInt8) :
    Outcome → EStateM.Result Stop Term Unit → Prop
  | .waits line, r =>
    ∃ t, r = .error .waits t ∧ Holding params mem₀ line t.mem ∧ t.pending = []
  | .reboots, r => ∃ t, r = .error .reboots t ∧ Within params mem₀ t.mem
  | .done line rest, r => ∃ t, r = .ok () t ∧ Read params mem₀ line t.mem ∧ t.pending = rest

/-- The end of the line. -/
lemma Full.read {mem : UInt16 → UInt8} (h : Full params mem₀ line mem) :
    Read params mem₀ line
      (Function.update mem (params + 1) (UInt8.ofNat line.length)) := by
  have h256 := room_lt params mem₀
  have hroom := h.room
  have hzero : params + 1 = cell params 0 := by simp [cell]
  refine ⟨?_, hroom, ?_, h.typed, fun a ha hne => ?_⟩
  · have hch := (chars_update (n := line.length) (by omega) (show 0 < 65536 by omega) (.inl rfl)
      (UInt8.ofNat line.length)).trans h.chars
    rwa [← hzero] at hch
  · rw [Function.update_self]
    exact UInt8.toNat_ofNat_of_lt (by change _ < 256; omega)
  · rw [Function.update_of_ne ha]
    exact h.within a hne

/-- `RDBUF17` ends the call. -/
lemma rdBuf17_seen (h : Full params mem₀ line s.mem) (hc : Clean s.pending) :
    (Outcome.done line s.pending).Seen params mem₀
      (rdBuf17 params (UInt8.ofNat line.length) s) := by
  obtain ⟨_, t, ht, -, hm, -, hp⟩ := (acts_outChar _ CR).ok
    (s := { s with mem := Function.update s.mem (params + 1) (UInt8.ofNat line.length) }) rfl hc
  exact ⟨t, ht, hm ▸ h.read, hp⟩

/-- Without its eighth bit a key is seven bits wide. -/
lemma and_lt (k : UInt8) : k &&& 0x7f < 0x80 := by
  rw [UInt8.lt_iff_toNat_lt, UInt8.toNat_and]
  exact Nat.lt_of_le_of_lt Nat.and_le_right (by decide)

/-- **The rounds of `RDBUF1` are those of the abstract editor.**

**Proof sketch.** Induction on the pending keys. A round takes the first of them, whether it waits
in the buffer or not, and `rdBuf2_makes` is its meaning; what it prints takes no other. -/
lemma rdBuf1_seen {ks : List UInt8} {n : ℕ} (h : Holding params mem₀ line s.mem)
    (hp : s.pending = ks) (hc : Clean ks) (hn : ks.length < n) :
    (edit (mem₀ params).toNat line ks).Seen params mem₀
      (rdBuf1 params n (resume params mem₀ line) s) := by
  induction ks generalizing s line n with
  | nil =>
    obtain ⟨m, rfl⟩ : ∃ m, n = m + 1 := ⟨n - 1, by simp at hn; omega⟩
    refine ⟨s, ?_, h, hp⟩
    rw [resume, rdBuf1, Exc.bind_of_error (getChar_nil hp)]
  | cons k ks ih =>
    obtain ⟨m, rfl⟩ : ∃ m, n = m + 1 := ⟨n - 1, by simp at hn; omega⟩
    obtain ⟨u, hu, hup, hum, -⟩ := getChar_cons hp
    have hcu : Clean u.pending := hup ▸ fun x hx => hc x (List.mem_cons_of_mem k hx)
    have hstep := rdBuf2_makes (s := u) (hum ▸ h) (and_lt k)
    rw [edit, resume, rdBuf1, Exc.bind_of_ok hu]
    cases hr : rdBuf2 params (mem₀ params) (cell params line.length) (UInt8.ofNat line.length)
        (k &&& 0x7f) u with
    | error e t =>
      rw [hr] at hstep
      obtain ⟨rfl, he⟩ := hstep.2 hcu
      rw [he, Exc.bind_of_error hr]
      exact ⟨t, rfl, hstep.1⟩
    | ok turn t =>
      rw [hr] at hstep
      rw [Exc.bind_of_ok hr]
      obtain ⟨hseen, hpt⟩ := hstep
      have hpt := hpt hcu
      cases hch : editKey (mem₀ params).toNat line (k &&& 0x7f) with
      | goes line' =>
        rw [hch] at hseen
        rw [hseen.1]
        exact ih hseen.2 (hpt.trans hup) (fun x hx => hc x (List.mem_cons_of_mem k hx))
          (by simp at hn; omega)
      | ends line' =>
        rw [hch] at hseen
        rw [hseen.1, rdBuf1]
        have hend := rdBuf17_seen hseen.2 (hpt ▸ hcu)
        rwa [hpt, hup] at hend
      | reboots =>
        rw [hch] at hseen
        exact hseen.elim

/-- The rounds start with the empty line. -/
lemma rdBuff_start (params : UInt16) (s : Term) :
    ∃ t, rdBuff params s = rdBuf1 params (s.pending.length + 1) (resume params s.mem []) t ∧
      Holding params s.mem [] t.mem ∧ t.pending = s.pending ∧ t.out = s.out.start := by
  refine ⟨{ s with out := s.out.start }, ?_, .nil fun _ _ => rfl, rfl, rfl⟩
  rw [resume_nil]
  rfl

/-- **The buffered read is the abstract editor, whenever the keys are typed.** With keys other than
`0` and control-s, function 10 of the BDOS reads the line that the editing keys describe, leaves the
keys after its end for the next call, waits exactly when the line has no end, and reboots exactly
when a control-c starts the line. Nothing of this depends on which keys were typed ahead and taken
while the BDOS was printing. -/
theorem rdBuff_edit (params : UInt16) (s : Term) (hc : Clean s.pending) :
    (edit (s.mem params).toNat [] s.pending).Seen params s.mem (rdBuff params s) := by
  obtain ⟨t, ht, hh, hp, -⟩ := rdBuff_start params s
  rw [ht]
  exact rdBuf1_seen hh hp hc (Nat.lt_succ_self _)

/-- The buffered read at a prompt: a line with a correction, the first key already in the buffer
when the call is made and the keyboard looked at whenever something is printed. -/
def typing : Term where
  keys := [0x69, 0x78, BS, 0x72, CR, 0x41]
  ready := fun _ => true
  looks := 0
  charBuf := 0x64
  out := ⟨0, 0, 2, 0, [0x41, 0x3e], []⟩
  mem := fun a => if a = 0x80 then 127 else 0

/-- `rdBuff_edit` for that line: it is `dir`, and the key after its end is left. -/
theorem rdBuff_edit_typing :
    Clean typing.pending ∧
      (Outcome.done [0x64, 0x69, 0x72] [0x41]).Seen 0x80 typing.mem (rdBuff 0x80 typing) := by
  have hc : Clean typing.pending := by
    simp [Clean, Term.pending, typing, CNTRLS, BS, CR]
  refine ⟨hc, ?_⟩
  have h := rdBuff_edit 0x80 typing hc
  have he : edit (typing.mem 0x80).toNat [] typing.pending = .done [0x64, 0x69, 0x72] [0x41] := by
    decide
  rwa [he] at h

/-! ## What is never written -/

/-- What the rounds of `RDBUF1` leave alone, whatever is typed.

**Proof sketch.** Induction on the keys. A key that goes on leaves a line in the buffer, for which
the hypothesis holds; a carriage return stores the count, and the output behind it writes no
memory; a key that restarts the system has written no memory outside the buffer. -/
lemma rdBuf1_outside {n : ℕ} (h : Holding params mem₀ line s.mem) :
    match rdBuf1 params n (resume params mem₀ line) s with
    | .ok _ t => ∃ line', Read params mem₀ line' t.mem
    | .error _ t => Outside params mem₀ t.mem := by
  induction n generalizing s line with
  | zero => exact fun a _ ha => h.within a ha
  | succ n ih =>
    rw [resume, rdBuf1]
    cases hks : s.pending with
    | nil =>
      rw [Exc.bind_of_error (getChar_nil hks)]
      exact fun a _ ha => h.within a ha
    | cons k ks =>
      obtain ⟨u, hu, -, hum, -⟩ := getChar_cons hks
      have hstep := rdBuf2_makes (s := u) (hum ▸ h) (and_lt k)
      rw [Exc.bind_of_ok hu]
      cases hr : rdBuf2 params (mem₀ params) (cell params line.length) (UInt8.ofNat line.length)
          (k &&& 0x7f) u with
      | error e t =>
        rw [hr] at hstep
        rw [Exc.bind_of_error hr]
        exact fun a _ ha => hstep.1 a ha
      | ok turn t =>
        rw [hr] at hstep
        rw [Exc.bind_of_ok hr]
        cases hch : editKey (mem₀ params).toNat line (k &&& 0x7f) with
        | goes line' =>
          rw [hch] at hstep
          rw [hstep.1.1]
          exact ih hstep.1.2
        | ends line' =>
          rw [hch] at hstep
          have hread := hstep.1.2.read
          have hout := acts_outChar _ CR
            { t with mem := Function.update t.mem (params + 1) (UInt8.ofNat line'.length) } rfl
          have hrun : rdBuf1 params n turn t = outChar CR
              { t with mem := Function.update t.mem (params + 1) (UInt8.ofNat line'.length) } := by
            rw [hstep.1.1, rdBuf1]
            rfl
          rw [hrun]
          cases ho : outChar CR
              { t with mem := Function.update t.mem (params + 1) (UInt8.ofNat line'.length) } with
          | ok x v =>
            rw [ho] at hout
            exact ⟨line', hout.2.1 ▸ hread⟩
          | error e v =>
            rw [ho] at hout
            have hmem : v.mem = _ := hout.1
            change Outside params mem₀ v.mem
            rw [hmem]
            exact hread.frame
        | reboots =>
          rw [hch] at hstep
          exact hstep.1.elim

/-- **The buffered read stays inside its buffer, whatever is typed and whenever.** A call that
returns has put a line there: no more characters than the first byte of the buffer says, but one is
taken where that byte is zero, none of them wider than seven bits or an editing key, and their
number before them. Nothing else in the memory has changed, and nothing else has changed where a
call does not return. -/
theorem rdBuff_contained (params : UInt16) (s : Term) :
    match rdBuff params s with
    | .ok _ t => ∃ line, Read params s.mem line t.mem
    | .error _ t => Outside params s.mem t.mem := by
  obtain ⟨t, ht, hh, -⟩ := rdBuff_start params s
  rw [ht]
  exact rdBuf1_outside hh

end Run

end Cpm22.Bdos.Con
