import Cpm22.Lib.Exc

set_option relaxedAutoImplicit false
set_option autoImplicit false

/-!
# The console routines of the BDOS

The console section of `bdos.asm`: input through the one-character buffer `CHARBUF`, output with
the cursor position `CURPOS`, the mute flag `OUTFLAG` and the printer flip-flop `PRTFLAG`. While
it prints, the BDOS looks at the keyboard and may take a key ahead; when it looks and what it
finds there depends on the time the keys are typed. The answers of `CONST` are therefore an
arbitrary function `ready` of the number of looks.

## Main definitions

* `Cpm22.Bdos.Con.Term` — the console: keys, buffer, what is printed, and the memory.
* `Cpm22.Bdos.Con.outChar`, `Cpm22.Bdos.Con.showIt`, `Cpm22.Bdos.Con.newLine`,
  `Cpm22.Bdos.Con.prtMesg` — the output routines.
* `Cpm22.Bdos.Con.Term.pending` — the keys no routine has handed out yet.
* `Cpm22.Bdos.Con.Acts` — a routine keeps the pending keys and the memory.

## Main results

* `Cpm22.Bdos.Con.ckConsol_spec` — a look at the keyboard keeps the pending keys.
* `Cpm22.Bdos.Con.Acts.bind`, `Cpm22.Bdos.Con.acts_outChar`, `Cpm22.Bdos.Con.acts_showIt`,
  `Cpm22.Bdos.Con.acts_newLine` — and so does everything that prints.
-/

namespace Cpm22.Bdos.Con

/-! ## The state -/

/-- `CNTRLC`. -/
def CNTRLC : UInt8 := 0x03
/-- `CNTRLE`. -/
def CNTRLE : UInt8 := 0x05
/-- `BS`. -/
def BS : UInt8 := 0x08
/-- `TAB`. -/
def TAB : UInt8 := 0x09
/-- `LF`. -/
def LF : UInt8 := 0x0a
/-- `CR`. -/
def CR : UInt8 := 0x0d
/-- `CNTRLP`. -/
def CNTRLP : UInt8 := 0x10
/-- `CNTRLR`. -/
def CNTRLR : UInt8 := 0x12
/-- `CNTRLS`. -/
def CNTRLS : UInt8 := 0x13
/-- `CNTRLU`. -/
def CNTRLU : UInt8 := 0x15
/-- `CNTRLX`. -/
def CNTRLX : UInt8 := 0x18
/-- `DEL`. -/
def DEL : UInt8 := 0x7f

/-- How a console call ends that does not come back. -/
inductive Stop
  /-- `CONIN` waits for a key that is never typed. -/
  | waits
  /-- The jump to address `0`. -/
  | reboots
  /-- A message without a `$` in the whole memory. -/
  | endless
  deriving DecidableEq, Repr

/-- The output side: the variables of the BDOS and what the BIOS has been given. `BACKUP` gives its
three characters to `CONOUT` whatever `OUTFLAG` is. -/
structure Out where
  /-- `OUTFLAG`: nothing is printed unless this is `0`. -/
  outFlag : UInt8
  /-- `STARTING`: the column the line being read starts in. -/
  starting : UInt8
  /-- `CURPOS`: the column of the cursor. -/
  curPos : UInt8
  /-- `PRTFLAG`: what is printed goes to the printer too. -/
  prtFlag : UInt8
  /-- Everything given to `CONOUT`. -/
  screen : List UInt8
  /-- Everything given to `LIST_`. -/
  printer : List UInt8

/-- **The console**: the keys still to come, the type-ahead buffer, the output side and the
memory of the machine. -/
structure Term where
  /-- The keys that will be typed. -/
  keys : List UInt8
  /-- Whether the next key has been typed when the keyboard is looked at. -/
  ready : ℕ → Bool
  /-- How often it has been looked at. -/
  looks : ℕ
  /-- `CHARBUF`: a key taken ahead, or `0`. -/
  charBuf : UInt8
  /-- The output side. -/
  out : Out
  /-- The memory. -/
  mem : UInt16 → UInt8

/-- A routine of the console section. -/
abbrev M (α : Type) : Type := EStateM Stop Term α

/-- Changing the output side. -/
def onOut (f : Out → Out) : M Unit := modify fun s => { s with out := f s.out }

/-! ## The BIOS -/

/-- `CONST`: `0FFH` if a key has been typed. -/
def const : M UInt8 := do
  let s ← get
  set { s with looks := s.looks + 1 }
  pure (if s.ready s.looks && !s.keys.isEmpty then 0xff else 0)

/-- `CONIN`: the next key, waiting for it. -/
def conIn : M UInt8 := do
  let s ← get
  match s.keys with
  | [] => throw .waits
  | k :: ks =>
    set { s with keys := ks }
    pure k

/-- `CONOUT`. -/
def conOut (c : UInt8) : M Unit := onOut fun o => { o with screen := o.screen ++ [c] }

/-- `LIST_`. -/
def list (c : UInt8) : M Unit := onOut fun o => { o with printer := o.printer ++ [c] }

/-! ## Input -/

/-- `GETCHAR`: the key in the buffer, or the next one. -/
def getChar : M UInt8 := do
  let s ← get
  set { s with charBuf := 0 }
  if s.charBuf ≠ 0 then pure s.charBuf else conIn

/-- `CHKCHAR` sets the carry flag: a control character without a meaning of its own. -/
def chkChar (a : UInt8) : Bool :=
  if a = CR then false
  else if a = LF then false
  else if a = TAB then false
  else if a = BS then false
  else decide (a < 0x20)

/-- `CKCONSOL`: the look at the keyboard during output. A key that is there goes to the buffer;
control-s holds the output until another key, and control-c then reboots. -/
def ckConsol : M UInt8 := do
  let s ← get
  if s.charBuf ≠ 0 then pure 1
  else
    let a ← const
    if a &&& 1 = 0 then pure 0
    else
      let a ← conIn
      if a = CNTRLS then
        let a ← conIn
        if a = CNTRLC then throw .reboots
        else pure 0
      else
        modify fun s => { s with charBuf := a }
        pure 1

/-! ## Output -/

/-- `OUTCHR1`: the cursor's column after `c`. -/
def advance (c pos : UInt8) : UInt8 :=
  if c = DEL then pos
  else if 0x20 ≤ c then pos + 1
  -- the increment is taken back; at the start of a line control characters are ignored
  else if pos = 0 then pos
  else if c = BS then pos - 1
  else if c = LF then 0
  else pos

/-- The part of `OUTCHAR` before `OUTCHR1`: look at the keyboard and print `c`, on the printer too
if that is switched on. -/
def outShown (c : UInt8) : M Unit := do
  let s ← get
  if s.out.outFlag = 0 then
    let _ ← ckConsol
    conOut c
    let s ← get
    if s.out.prtFlag ≠ 0 then list c else pure ()
  else pure ()

/-- `OUTCHAR`: print `c` and move the cursor. -/
def outChar (c : UInt8) : M Unit := do
  outShown c
  onOut fun o => { o with curPos := advance c o.curPos }

/-- `OUTCON1`: blanks up to the next column divisible by eight, at most `n` of them. -/
def outCon1 : ℕ → M Unit
  | 0 => pure ()
  | n + 1 => do
    outChar 0x20
    let s ← get
    if s.out.curPos &&& 7 ≠ 0 then outCon1 n else pure ()

/-- `OUTCON`: print `c` with tabs expanded. The cursor moves at every blank, so that eight of them
reach a column divisible by eight. -/
def outCon (c : UInt8) : M Unit := if c ≠ TAB then outChar c else outCon1 8

/-- `SHOWIT`: print `c`, a control character as `^` and a letter. -/
def showIt (c : UInt8) : M Unit := do
  if chkChar c = false then outCon c
  else
    outChar 0x5e
    outCon (c ||| 0x40)

/-- `BACKUP`: erase the character before the cursor, on the screen only. -/
def backUp : M Unit := do
  conOut BS
  conOut 0x20
  conOut BS

/-- `OUTCRLF`. -/
def outCrLf : M Unit := do
  outChar CR
  outChar LF

/-- `NEWLN1`: blanks up to the starting column, at most `n` of them. -/
def newLn1 : ℕ → M Unit
  | 0 => pure ()
  | n + 1 => do
    let s ← get
    if s.out.curPos < s.out.starting then
      outChar 0x20
      newLn1 n
    else pure ()

/-- `NEWLINE`: mark the line as deleted and start a new one in the starting column. -/
def newLine : M Unit := do
  outChar 0x23
  outCrLf
  newLn1 256

/-- `PRTMESG`: print the memory from `a` up to a `$`. With no `$` in `n` bytes, the whole memory,
there is no end. -/
def prtMesg : ℕ → UInt16 → M Unit
  | 0, _ => throw .endless
  | n + 1, a => do
    let s ← get
    if s.mem a = 0x24 then pure ()
    else
      outCon (s.mem a)
      prtMesg n (a + 1)

/-- `GETECHO`: the next key, echoed unless it is a control character. -/
def getEcho : M UInt8 := do
  let a ← getChar
  if chkChar a then pure a
  else
    outCon a
    pure a

/-! ## The pending keys -/

/-- **The keys no routine has handed out yet**: the one in the buffer, then those to come. -/
def Term.pending (s : Term) : List UInt8 :=
  if s.charBuf = 0 then s.keys else s.charBuf :: s.keys

/-- No key is `0`, which the buffer cannot hold, or control-s. -/
def Clean (ks : List UInt8) : Prop := ∀ k ∈ ks, k ≠ 0 ∧ k ≠ CNTRLS

/-- The pending keys depend on the buffer and the keys to come. -/
lemma pending_congr {s t : Term} (hc : t.charBuf = s.charBuf) (hk : t.keys = s.keys) :
    t.pending = s.pending := by
  rw [Term.pending, Term.pending, hc, hk]

/-- **What a routine does that only prints.** From a state with the memory `mem` it comes back with
the same memory, a result with `R` and the output side changed by `f`, and no key is lost if the
pending keys are clean. If they are not, it may stop, with the memory unchanged. -/
def Acts (mem : UInt16 → UInt8) {α : Type} (m : M α) (R : α → Prop) (f : Out → Out) : Prop :=
  ∀ s, s.mem = mem → match m s with
    | .ok a t => R a ∧ t.mem = mem ∧ t.out = f s.out ∧ (Clean s.pending → t.pending = s.pending)
    | .error _ t => t.mem = mem ∧ ¬ Clean s.pending

/-- Nothing is said about the result. -/
abbrev Any {α : Type} : α → Prop := fun _ => True

section Rules

variable {mem : UInt16 → UInt8} {α β : Type}

/-- What a printing routine does to clean keys: it comes back. -/
lemma Acts.ok {m : M α} {R : α → Prop} {f : Out → Out} (h : Acts mem m R f) {s : Term}
    (hs : s.mem = mem) (hc : Clean s.pending) :
    ∃ a t, m s = .ok a t ∧ R a ∧ t.mem = mem ∧ t.out = f s.out ∧ t.pending = s.pending := by
  have h := h s hs
  cases hm : m s with
  | ok a t =>
    rw [hm] at h
    obtain ⟨hR, h1, h2, h3⟩ := h
    exact ⟨a, t, rfl, hR, h1, h2, h3 hc⟩
  | error e t =>
    rw [hm] at h
    exact absurd hc h.2

/-- Coming back at once. -/
lemma acts_pure (mem : UInt16 → UInt8) {a : α} {R : α → Prop} (h : R a) :
    Acts mem (pure a : M α) R id :=
  fun _ hs => ⟨h, hs, rfl, fun _ => rfl⟩

/-- Coming back with a value. -/
lemma acts_value (mem : UInt16 → UInt8) (a : α) : Acts mem (pure a : M α) (· = a) id :=
  acts_pure mem rfl

/-- Changing the output side. -/
lemma acts_onOut (mem : UInt16 → UInt8) (f : Out → Out) : Acts mem (onOut f) Any f :=
  fun _ hs => ⟨trivial, hs, rfl, fun _ => rfl⟩

/-- **Printing and then printing.** -/
lemma Acts.bind {x : M α} {y : α → M β} {R : α → Prop} {S : β → Prop} {f g : Out → Out}
    (hx : Acts mem x R f) (hy : ∀ a, R a → Acts mem (y a) S g) :
    Acts mem (x >>= y) S (fun o => g (f o)) := by
  intro s hs
  have h := hx s hs
  cases hxs : x s with
  | ok a t =>
    rw [hxs] at h
    obtain ⟨hR, hm, ho, hp⟩ := h
    rw [Exc.bind_of_ok hxs]
    have h' := hy a hR t hm
    cases hyt : y a t with
    | ok b u =>
      rw [hyt] at h'
      obtain ⟨hb, hm', ho', hp'⟩ := h'
      refine ⟨hb, hm', by rw [ho', ho], fun hc => ?_⟩
      rw [hp' (hp hc ▸ hc), hp hc]
    | error e u =>
      rw [hyt] at h'
      exact ⟨h'.1, fun hc => h'.2 (hp hc ▸ hc)⟩
  | error e t =>
    rw [hxs] at h
    rw [Exc.bind_of_error hxs]
    exact h

/-- A choice by the output side. -/
lemma acts_get_ite (p : Out → Prop) [DecidablePred p] {x y : M α} {R : α → Prop}
    {f g : Out → Out} (hx : Acts mem x R f) (hy : Acts mem y R g) :
    Acts mem (get >>= fun s => if p s.out then x else y) R (fun o => if p o then f o else g o) := by
  intro s hs
  rw [Exc.get_bind]
  by_cases h : p s.out
  · simp only [if_pos h]
    exact hx s hs
  · simp only [if_neg h]
    exact hy s hs

/-- The same with the change of the output side written in another way. -/
lemma Acts.congr {m : M α} {R : α → Prop} {f g : Out → Out} (h : Acts mem m R f)
    (hfg : ∀ o, f o = g o) : Acts mem m R g := by
  rw [← funext hfg]
  exact h

end Rules

/-! ## What is printed -/

/-- What `OUTCHAR` does to the output side. -/
def Out.put (o : Out) (c : UInt8) : Out :=
  if o.outFlag = 0 then
    { o with
      screen := o.screen ++ [c]
      printer := if o.prtFlag ≠ 0 then o.printer ++ [c] else o.printer
      curPos := advance c o.curPos }
  else { o with curPos := advance c o.curPos }

/-- Several characters. -/
def Out.puts (o : Out) (cs : List UInt8) : Out := cs.foldl Out.put o

/-- The characters `SHOWIT` prints for `c` in the column `pos`. -/
def shown (pos : ℕ) (c : UInt8) : List UInt8 :=
  if c = TAB then List.replicate (8 - pos % 8) 0x20
  else if chkChar c then [0x5e, c ||| 0x40]
  else [c]

section Put

variable (o : Out) (c : UInt8) (cs : List UInt8)

/-- The cursor moves, printed or not. -/
@[simp]
lemma Out.put_curPos : (o.put c).curPos = advance c o.curPos := by
  rw [Out.put]
  split <;> rfl

/-- The mute flag stays. -/
@[simp]
lemma Out.put_outFlag : (o.put c).outFlag = o.outFlag := by
  rw [Out.put]
  split <;> rfl

/-- The starting column stays. -/
@[simp]
lemma Out.put_starting : (o.put c).starting = o.starting := by
  rw [Out.put]
  split <;> rfl

/-- The mute flag stays. -/
@[simp]
lemma Out.puts_outFlag : (o.puts cs).outFlag = o.outFlag := by
  induction cs generalizing o with
  | nil => rfl
  | cons c cs ih => exact (ih _).trans (o.put_outFlag c)

/-- The starting column stays. -/
@[simp]
lemma Out.puts_starting : (o.puts cs).starting = o.starting := by
  induction cs generalizing o with
  | nil => rfl
  | cons c cs ih => exact (ih _).trans (o.put_starting c)

/-- The cursor after several characters. -/
lemma Out.puts_curPos : (o.puts cs).curPos = cs.foldl (fun pos c => advance c pos) o.curPos := by
  induction cs generalizing o with
  | nil => rfl
  | cons c cs ih => exact (ih _).trans (by rw [o.put_curPos]; rfl)

/-- Some characters, then others. -/
lemma Out.puts_append (ds : List UInt8) : o.puts (cs ++ ds) = (o.puts cs).puts ds :=
  List.foldl_append

end Put

/-- A printable character moves the cursor one column on. -/
lemma advance_of_le {c : UInt8} (h : 0x20 ≤ c) (hd : c ≠ DEL) (pos : UInt8) :
    advance c pos = pos + 1 := by
  rw [advance, if_neg hd, if_pos h]

/-- The column after a blank. -/
lemma toNat_blank (pos : UInt8) : (advance 0x20 pos).toNat = (pos.toNat + 1) % 256 := by
  rw [advance_of_le (by decide) (by decide), UInt8.toNat_add]
  rfl

/-- `OUTCRLF` ends in the first column. -/
lemma advance_crlf (pos : UInt8) : advance LF (advance CR pos) = 0 := by
  have hcr : advance CR pos = pos := by simp [advance, CR, LF, BS, DEL]
  rw [hcr]
  by_cases h : pos = 0
  · rw [h]
    rfl
  · simp [advance, LF, BS, DEL, h]

/-! ## The output routines -/

section Routines

variable (mem : UInt16 → UInt8)

/-- Taking the next key. -/
lemma conIn_cons {s : Term} {k : UInt8} {ks : List UInt8} (h : s.keys = k :: ks) :
    conIn s = .ok k { s with keys := ks } := by
  simp only [conIn, Exc.get_bind, h]
  rfl

/-- Waiting for a key that does not come. -/
lemma conIn_nil {s : Term} (h : s.keys = []) : conIn s = .error .waits s := by
  simp only [conIn, Exc.get_bind, h]
  rfl

/-- The two answers of `CONST`: with `0` nothing has changed but the number of looks, and otherwise
there is a key. -/
lemma const_cases (s : Term) :
    const s = .ok 0 { s with looks := s.looks + 1 } ∨
      (∃ k ks, s.keys = k :: ks) ∧ const s = .ok 0xff { s with looks := s.looks + 1 } := by
  have h : const s = .ok (if s.ready s.looks && !s.keys.isEmpty then 0xff else 0)
      { s with looks := s.looks + 1 } := rfl
  by_cases hr : (s.ready s.looks && !s.keys.isEmpty) = true
  · refine .inr ⟨?_, by rw [h, if_pos hr]⟩
    cases hk : s.keys with
    | nil => simp [hk] at hr
    | cons k ks => exact ⟨k, ks, rfl⟩
  · exact .inl (by rw [h, if_neg hr])

/-- A control-s is not clean. -/
lemma not_clean_of_cntrlS {ks : List UInt8} (h : CNTRLS ∈ ks) : ¬ Clean ks :=
  fun hc => (hc _ h).2 rfl

/-- **A look at the keyboard keeps the pending keys**: a key that is there goes to the buffer.

**Proof sketch.** If a key is in the buffer, or none is there, nothing is done. A key that was
typed goes to the buffer and is still the first one of the pending keys. A control-S is taken with
the key behind it, which is the case that `Clean` excludes. -/
lemma acts_ckConsol : Acts mem ckConsol Any id := by
  intro s hs
  rw [ckConsol, Exc.get_bind]
  by_cases hb : s.charBuf = 0
  swap
  · rw [if_pos hb]
    exact ⟨trivial, hs, rfl, fun _ => rfl⟩
  rw [if_neg (not_not.mpr hb)]
  have hp : s.pending = s.keys := by rw [Term.pending, if_pos hb]
  obtain hc | ⟨⟨k, ks, hk⟩, hc⟩ := const_cases s
  · rw [Exc.bind_of_ok hc, if_pos (by decide)]
    exact ⟨trivial, hs, rfl, fun _ => pending_congr rfl rfl⟩
  · rw [Exc.bind_of_ok hc, if_neg (by decide)]
    rw [Exc.bind_of_ok (conIn_cons (s := { s with looks := s.looks + 1 }) hk)]
    by_cases hS : k = CNTRLS
    · -- control-s is taken, and whatever follows it
      have hn : ¬ Clean s.pending := not_clean_of_cntrlS (by rw [hp, hk, hS]; simp)
      rw [if_pos hS]
      cases ks with
      | nil =>
        rw [Exc.bind_of_error (conIn_nil rfl)]
        exact ⟨hs, hn⟩
      | cons k' ks' =>
        rw [Exc.bind_of_ok (conIn_cons rfl)]
        by_cases hC : k' = CNTRLC
        · rw [if_pos hC]
          exact ⟨hs, hn⟩
        · rw [if_neg hC]
          exact ⟨trivial, hs, rfl, fun h => absurd h hn⟩
    · rw [if_neg hS]
      refine ⟨trivial, hs, rfl, fun h => ?_⟩
      have h0 : k ≠ 0 := (h k (by rw [hp, hk]; simp)).1
      rw [hp, hk]
      exact if_neg h0

/-- `OUTCHAR` prints the character. -/
lemma acts_outChar (c : UInt8) : Acts mem (outChar c) Any (·.put c) := by
  have hlist := acts_get_ite (·.prtFlag ≠ 0)
    (acts_onOut mem fun o => { o with printer := o.printer ++ [c] })
    (acts_pure mem (a := ()) trivial)
  have hloud := (acts_ckConsol mem).bind fun _ _ =>
    (acts_onOut mem fun o => { o with screen := o.screen ++ [c] }).bind fun _ _ => hlist
  have hshown := acts_get_ite (·.outFlag = 0) hloud (acts_pure mem (a := ()) trivial)
  refine (hshown.bind fun _ _ =>
    acts_onOut mem fun o => { o with curPos := advance c o.curPos }).congr
    fun o => ?_
  by_cases h0 : o.outFlag = 0
  · by_cases hp : o.prtFlag = 0
    · simp [Out.put, h0, hp]
    · simp [Out.put, h0, hp]
  · simp [Out.put, h0]

/-- `BACKUP`, on the output side. -/
def Out.back (o : Out) : Out := { o with screen := o.screen ++ [BS, 0x20, BS] }

/-- `BACKUP` goes past the mute flag. -/
lemma acts_backUp : Acts mem backUp Any Out.back := by
  have h := (acts_onOut mem fun o => { o with screen := o.screen ++ [BS] }).bind fun _ _ =>
    (acts_onOut mem fun o => { o with screen := o.screen ++ [0x20] }).bind fun _ _ =>
      acts_onOut mem fun o => { o with screen := o.screen ++ [BS] }
  refine h.congr fun o => ?_
  simp [Out.back]

/-- `OUTCON1`, on the output side. -/
def Out.tab : ℕ → Out → Out
  | 0, o => o
  | n + 1, o => if (o.put 0x20).curPos &&& 7 ≠ 0 then Out.tab n (o.put 0x20) else o.put 0x20

/-- `OUTCON1` prints blanks. -/
lemma acts_outCon1 (n : ℕ) : Acts mem (outCon1 n) Any (Out.tab n) := by
  induction n with
  | zero => exact acts_pure mem trivial
  | succ n ih =>
    have h := acts_get_ite (·.curPos &&& 7 ≠ 0) ih (acts_pure mem (a := ()) trivial)
    exact (acts_outChar mem 0x20).bind fun _ _ => h

/-- The last three bits of a byte. -/
lemma and_seven (b : UInt8) : b &&& 7 = 0 ↔ b.toNat % 8 = 0 := by
  rw [← UInt8.toNat_inj, UInt8.toNat_and]
  exact Eq.congr_left (Nat.and_two_pow_sub_one_eq_mod b.toNat 3)

/-- **A tab ends at the next column divisible by eight.**

**Proof sketch.** Induction on the bound of the loop. A blank moves the column on by one; the loop
ends at a column divisible by eight, which it reaches after at most eight blanks. -/
lemma tab_eq {n : ℕ} {o : Out} (hn : 8 - o.curPos.toNat % 8 ≤ n) :
    Out.tab n o = o.puts (List.replicate (8 - o.curPos.toNat % 8) 0x20) := by
  induction n generalizing o with
  | zero =>
    have := Nat.mod_lt o.curPos.toNat (show 0 < 8 by omega)
    omega
  | succ n ih =>
    have hpos : (o.put 0x20).curPos.toNat = (o.curPos.toNat + 1) % 256 := by
      rw [Out.put_curPos, toNat_blank]
    rw [Out.tab]
    by_cases h : o.curPos.toNat % 8 = 7
    · have h0 : (o.put 0x20).curPos &&& 7 = 0 := by
        rw [and_seven, hpos]
        omega
      rw [if_neg (not_not.mpr h0), h]
      rfl
    · have h0 : (o.put 0x20).curPos &&& 7 ≠ 0 := by
        rw [ne_eq, and_seven, hpos]
        omega
      have hm : (o.put 0x20).curPos.toNat % 8 = o.curPos.toNat % 8 + 1 := by
        rw [hpos]
        omega
      rw [if_pos h0, ih (by rw [hm]; omega), hm]
      have h8 : 8 - o.curPos.toNat % 8 = (8 - (o.curPos.toNat % 8 + 1)) + 1 := by omega
      rw [h8, List.replicate_succ]
      rfl

/-- `SHOWIT` prints the characters shown.

**Proof sketch.** By the character: a tabulator is blanks up to its column, a control character an
arrow and its letter, which is no tabulator, and any other character is itself. -/
lemma acts_showIt (c : UInt8) :
    Acts mem (showIt c) Any fun o => o.puts (shown o.curPos.toNat c) := by
  by_cases htab : c = TAB
  · subst htab
    refine (acts_outCon1 mem 8).congr fun o => ?_
    rw [tab_eq (Nat.sub_le 8 _), shown, if_pos rfl]
  · by_cases hctl : chkChar c
    · have hletter : c ||| 0x40 ≠ TAB := by
        intro h
        have hbit := congrArg (fun b : UInt8 => b.toNat.testBit 6) h
        simp only [UInt8.toNat_or, Nat.testBit_or] at hbit
        revert hbit
        simp [TAB, Nat.testBit]
      have h : Acts mem (showIt c) Any fun o => (o.put 0x5e).put (c ||| 0x40) := by
        rw [showIt, if_neg (by rw [hctl]; decide), outCon, if_pos hletter]
        exact (acts_outChar mem 0x5e).bind fun _ _ => acts_outChar mem (c ||| 0x40)
      refine h.congr fun o => ?_
      rw [shown, if_neg htab, if_pos hctl]
      rfl
    · rw [showIt, if_pos (by simpa using hctl), outCon, if_pos htab]
      refine (acts_outChar mem c).congr fun o => ?_
      rw [shown, if_neg htab, if_neg hctl]
      rfl

/-- `OUTCRLF`. -/
lemma acts_outCrLf : Acts mem outCrLf Any (·.puts [CR, LF]) :=
  (acts_outChar mem CR).bind fun _ _ => acts_outChar mem LF

/-- `NEWLN1`, on the output side. -/
def Out.indent : ℕ → Out → Out
  | 0, o => o
  | n + 1, o => if o.curPos < o.starting then Out.indent n (o.put 0x20) else o

/-- `NEWLN1` prints blanks. -/
lemma acts_newLn1 (n : ℕ) : Acts mem (newLn1 n) Any (Out.indent n) := by
  induction n with
  | zero => exact acts_pure mem trivial
  | succ n ih =>
    exact acts_get_ite (fun o => o.curPos < o.starting)
      ((acts_outChar mem 0x20).bind fun _ _ => ih) (acts_pure mem trivial)

/-- **The blanks of a new line end at the starting column.**

**Proof sketch.** Induction on the bound of the loop. A blank moves the column on by one, until it
is the starting column. -/
lemma indent_eq {n : ℕ} {o : Out} (hn : o.starting.toNat - o.curPos.toNat ≤ n) :
    Out.indent n o = o.puts (List.replicate (o.starting.toNat - o.curPos.toNat) 0x20) := by
  induction n generalizing o with
  | zero =>
    rw [show o.starting.toNat - o.curPos.toNat = 0 by omega]
    rfl
  | succ n ih =>
    rw [Out.indent]
    by_cases h : o.curPos < o.starting
    · have hlt : o.curPos.toNat < o.starting.toNat := h
      have hpos : (o.put 0x20).curPos.toNat = o.curPos.toNat + 1 := by
        rw [Out.put_curPos, toNat_blank]
        have := o.starting.toNat_lt
        omega
      rw [if_pos h, ih (by rw [hpos, Out.put_starting]; omega), hpos, Out.put_starting]
      have h1 : o.starting.toNat - o.curPos.toNat =
          (o.starting.toNat - (o.curPos.toNat + 1)) + 1 := by omega
      rw [h1, List.replicate_succ]
      rfl
    · have hle : ¬ o.curPos.toNat < o.starting.toNat := h
      rw [if_neg h, show o.starting.toNat - o.curPos.toNat = 0 by omega]
      rfl

/-- The characters of `NEWLINE`. -/
def deleted (starting : ℕ) : List UInt8 := [0x23, CR, LF] ++ List.replicate starting 0x20

/-- `NEWLINE` ends at the starting column of a new line. -/
lemma acts_newLine : Acts mem newLine Any fun o => o.puts (deleted o.starting.toNat) := by
  have h := (acts_outChar mem 0x23).bind fun _ _ => (acts_outCrLf mem).bind fun _ _ =>
    acts_newLn1 mem 256
  refine h.congr fun o => ?_
  have hpos : ((o.put 0x23).puts [CR, LF]).curPos = 0 := by
    rw [Out.puts_curPos]
    exact advance_crlf _
  rw [indent_eq (by have := ((o.put 0x23).puts [CR, LF]).starting.toNat_lt; omega), hpos,
    Out.puts_starting, Out.put_starting, deleted, Out.puts_append]
  rfl

/-- `OUTCON` prints something and keeps the pending keys. -/
lemma acts_outCon (c : UInt8) : ∃ f, Acts mem (outCon c) Any f := by
  by_cases htab : c = TAB
  · rw [outCon, if_neg (not_not.mpr htab)]
    exact ⟨_, acts_outCon1 mem 8⟩
  · rw [outCon, if_pos htab]
    exact ⟨_, acts_outChar mem c⟩

/-- The address after `i + 1` bytes. -/
lemma address_succ (a : UInt16) (i : ℕ) :
    a + UInt16.ofNat (i + 1) = a + 1 + UInt16.ofNat i := by
  rw [UInt16.ofNat_add, UInt16.add_comm (UInt16.ofNat i), UInt16.add_assoc]
  rfl

/-- **A message with an end is printed.**

**Proof sketch.** Induction on the number of characters. The message ends at the dollar sign; in
front of it a character is printed, and the rest is a message with the same end. -/
lemma acts_prtMesg {n i : ℕ} {a : UInt16} (hi : i < n) (h : mem (a + UInt16.ofNat i) = 0x24) :
    ∃ f, Acts mem (prtMesg n a) Any f := by
  induction n generalizing a i with
  | zero => omega
  | succ n ih =>
    by_cases ha : mem a = 0x24
    · refine ⟨id, fun s hs => ?_⟩
      rw [prtMesg, Exc.get_bind, if_pos (hs ▸ ha)]
      exact acts_pure mem trivial s hs
    · -- the end is not the first character, so it lies in what is left
      obtain ⟨j, rfl⟩ : ∃ j, i = j + 1 := by
        cases i with
        | zero => exact absurd (by simpa using h) ha
        | succ j => exact ⟨j, rfl⟩
      have hj : mem (a + 1 + UInt16.ofNat j) = 0x24 := by
        rw [← h, address_succ]
      obtain ⟨g, hg⟩ := ih (a := a + 1) (by omega) hj
      obtain ⟨f, hf⟩ := acts_outCon mem (mem a)
      refine ⟨fun o => g (f o), fun s hs => ?_⟩
      rw [prtMesg, Exc.get_bind, if_neg (hs ▸ ha), hs]
      exact (hf.bind fun _ _ => hg) s hs

/-- **A message without an end is printed for ever.** -/
lemma prtMesg_endless {n : ℕ} {a : UInt16} {s : Term} (hs : s.mem = mem)
    (hc : Clean s.pending) (h : ∀ i < n, mem (a + UInt16.ofNat i) ≠ 0x24) :
    ∃ t, prtMesg n a s = .error .endless t ∧ t.mem = mem ∧ t.pending = s.pending := by
  induction n generalizing a s with
  | zero => exact ⟨s, rfl, hs, rfl⟩
  | succ n ih =>
    have ha : mem a ≠ 0x24 := by simpa using h 0 (by omega)
    obtain ⟨f, hf⟩ := acts_outCon mem (mem a)
    obtain ⟨_, u, hu, -, hm, -, hp⟩ := hf.ok hs hc
    obtain ⟨t, ht, htm, htp⟩ := ih (a := a + 1) hm (hp ▸ hc) fun i hi =>
      address_succ a i ▸ h (i + 1) (by omega)
    refine ⟨t, ?_, htm, htp.trans hp⟩
    rw [prtMesg, Exc.get_bind, if_neg (hs ▸ ha), hs, Exc.bind_of_ok hu]
    exact ht

/-! ## Taking a key -/

/-- **`GETCHAR` hands out the first pending key.** -/
lemma getChar_cons {s : Term} {k : UInt8} {ks : List UInt8} (h : s.pending = k :: ks) :
    ∃ t, getChar s = .ok k t ∧ t.pending = ks ∧ t.mem = s.mem ∧ t.out = s.out := by
  by_cases hb : s.charBuf = 0
  · rw [Term.pending, if_pos hb] at h
    refine ⟨{ s with charBuf := 0, keys := ks }, ?_, if_pos rfl, rfl, rfl⟩
    have hg : getChar s = conIn { s with charBuf := 0 } := by
      rw [getChar, Exc.get_bind, if_neg (not_not.mpr hb)]
      rfl
    rw [hg, conIn_cons (s := { s with charBuf := 0 }) h]
  · rw [Term.pending, if_neg hb] at h
    obtain ⟨rfl, rfl⟩ := List.cons.inj h
    refine ⟨{ s with charBuf := 0 }, ?_, if_pos rfl, rfl, rfl⟩
    rw [getChar, Exc.get_bind, if_pos hb]
    rfl

/-- **Without a pending key `GETCHAR` waits.** -/
lemma getChar_nil {s : Term} (h : s.pending = []) : getChar s = .error .waits s := by
  have hb : s.charBuf = 0 := by
    by_contra hb
    rw [Term.pending, if_neg hb] at h
    cases h
  rw [Term.pending, if_pos hb] at h
  have hs : { s with charBuf := 0 } = s := by rw [← hb]
  have hg : getChar s = conIn { s with charBuf := 0 } := by
    rw [getChar, Exc.get_bind, if_neg (not_not.mpr hb)]
    rfl
  rw [hg, hs, conIn_nil h]

end Routines

end Cpm22.Bdos.Con
