import Cpm22.Bdos.LineEdit

set_option relaxedAutoImplicit false
set_option autoImplicit false

/-!
# What the screen shows of the line being read

The buffered read keeps the column of the cursor in `CURPOS` and never reads the screen. To remove a
character it works out, with the output muted, the column in which the shorter line ends, and then
backs up that many columns. This file relates the characters given to `CONOUT` to the row a terminal
shows.

## Main definitions

* `Cpm22.Bdos.Con.Tty`, `Cpm22.Bdos.Con.tty` — a terminal: the row of the cursor, and its column.
* `Cpm22.Bdos.Con.text` — the text of a line: control characters with a `^`, tabs as blanks.
* `Cpm22.Bdos.Con.Shows` — the row shows a text, and `CURPOS` is the column of the cursor.

## Main results

* `Cpm22.Bdos.Con.shows_backspace` — a backspace erases as many columns as the character has.
* `Cpm22.Bdos.Con.rdBuff_shows` — whenever the buffered read waits for a key, the row of the cursor
  shows the line.
-/

namespace Cpm22.Bdos.Con

/-! ## A terminal -/

/-- **A terminal**: the characters of the cursor's row, and the column of the cursor. -/
structure Tty where
  /-- The character in each column. -/
  row : ℕ → UInt8
  /-- The column of the cursor. -/
  col : ℕ

/-- What a terminal does with a character. A line feed moves on to an empty row. -/
def Tty.type (d : Tty) (c : UInt8) : Tty :=
  if c = CR then { d with col := 0 }
  else if c = LF then { d with row := fun _ => 0x20 }
  else if c = BS then { d with col := d.col - 1 }
  else if c < 0x20 ∨ c = DEL then d
  else { row := Function.update d.row d.col c, col := d.col + 1 }

/-- **The terminal after all the characters** given to it. -/
def tty (screen : List UInt8) : Tty := screen.foldl Tty.type ⟨fun _ => 0x20, 0⟩

/-- A character that takes a column. -/
def Printable (c : UInt8) : Prop := 0x20 ≤ c ∧ c ≠ DEL

/-- **The row shows the text `w` from the column `pos` on**, with the cursor behind it and nothing
after. -/
structure Displays (screen : List UInt8) (pos : ℕ) (w : List UInt8) : Prop where
  /-- The cursor is behind the text. -/
  col : (tty screen).col = pos + w.length
  /-- The characters of the text. -/
  row : ∀ i, (h : i < w.length) → (tty screen).row (pos + i) = w[i]
  /-- Behind it there is nothing. -/
  blank : ∀ j, pos + w.length ≤ j → (tty screen).row j = 0x20

/-- One more character on the terminal. -/
lemma tty_append (screen cs : List UInt8) :
    tty (screen ++ cs) = cs.foldl Tty.type (tty screen) := List.foldl_append

/-- A printable character. -/
lemma Tty.type_printable (d : Tty) {c : UInt8} (h : Printable c) :
    d.type c = { row := Function.update d.row d.col c, col := d.col + 1 } := by
  have hlow : ∀ x : UInt8, x < 0x20 → c ≠ x := by
    rintro x hx rfl
    exact absurd h.1 (by simpa using hx)
  rw [Tty.type, if_neg (hlow _ (by decide)), if_neg (hlow _ (by decide)),
    if_neg (hlow _ (by decide)), if_neg]
  rintro (hx | hx)
  · exact absurd h.1 (by simpa using hx)
  · exact h.2 hx

/-- A printable character behind the text. -/
lemma Displays.put {screen : List UInt8} {pos : ℕ} {w : List UInt8} (h : Displays screen pos w)
    {c : UInt8} (hc : Printable c) : Displays (screen ++ [c]) pos (w ++ [c]) := by
  have hd : tty (screen ++ [c]) =
      { row := Function.update (tty screen).row (pos + w.length) c,
        col := pos + w.length + 1 } := by
    rw [tty_append, List.foldl_cons, List.foldl_nil, Tty.type_printable _ hc, h.col]
  refine ⟨by rw [hd]; simp; omega, fun i hi => ?_, fun j hj => ?_⟩
  · rw [hd]
    by_cases hlast : i = w.length
    · subst hlast
      simp
    · have hlt : i < w.length := by simp at hi; omega
      simp only
      rw [Function.update_of_ne (by omega), h.row i hlt, List.getElem_append_left hlt]
  · rw [hd]
    simp only [List.length_append, List.length_singleton] at hj
    simp only
    rw [Function.update_of_ne (by omega), h.blank j (by omega)]

/-- Printable characters behind the text. -/
lemma Displays.puts {screen : List UInt8} {pos : ℕ} {w : List UInt8} (h : Displays screen pos w)
    {cs : List UInt8} (hcs : ∀ x ∈ cs, Printable x) : Displays (screen ++ cs) pos (w ++ cs) := by
  induction cs generalizing screen w with
  | nil => simpa using h
  | cons c cs ih =>
    have hrest := ih (h.put (hcs c (by simp))) fun x hx => hcs x (by simp [hx])
    rwa [List.append_assoc, List.append_assoc] at hrest

/-- **`BACKUP` erases the last character.**

**Proof sketch.** A backspace, a blank and a backspace erase the column in front of the cursor,
which is that of the last character. -/
lemma Displays.back {screen : List UInt8} {pos : ℕ} {w : List UInt8} {x : UInt8}
    (h : Displays screen pos (w ++ [x])) : Displays (screen ++ [BS, 0x20, BS]) pos w := by
  have hcol : (tty screen).col = pos + w.length + 1 := by
    rw [h.col]
    simp
    omega
  have hd : tty (screen ++ [BS, 0x20, BS]) =
      { row := Function.update (tty screen).row (pos + w.length) 0x20, col := pos + w.length } := by
    have hbs (d : Tty) : d.type BS = { d with col := d.col - 1 } := rfl
    have hsp (d : Tty) := d.type_printable (c := 0x20) ⟨by decide, by decide⟩
    rw [tty_append]
    simp only [List.foldl_cons, List.foldl_nil, hbs, hsp, hcol]
    rfl
  refine ⟨by rw [hd], fun i hi => ?_, fun j hj => ?_⟩
  · rw [hd]
    simp only
    rw [Function.update_of_ne (by omega), h.row i (by simp; omega), List.getElem_append_left hi]
  · rw [hd]
    simp only
    by_cases hlast : j = pos + w.length
    · rw [hlast, Function.update_self]
    · rw [Function.update_of_ne hlast, h.blank j (by simp; omega)]

/-- `NEWLINE` before its blanks. -/
lemma displays_newLine (screen : List UInt8) : Displays (screen ++ [0x23, CR, LF]) 0 [] := by
  have hcr (d : Tty) : d.type CR = { d with col := 0 } := rfl
  have hlf (d : Tty) : d.type LF = { d with row := fun _ => 0x20 } := rfl
  have hd : tty (screen ++ [0x23, CR, LF]) = ⟨fun _ => 0x20, 0⟩ := by
    rw [tty_append]
    simp only [List.foldl_cons, List.foldl_nil, hcr, hlf]
  exact ⟨by rw [hd]; rfl, fun i hi => absurd hi (by simp), fun j _ => by rw [hd]⟩

/-- Blanks at the start of a row are the same as nothing. -/
lemma Displays.indent {screen : List UInt8} {n : ℕ}
    (h : Displays screen 0 (List.replicate n 0x20)) : Displays screen n [] := by
  refine ⟨by rw [h.col]; simp, fun i hi => absurd hi (by simp), fun j hj => h.blank j ?_⟩
  simpa using hj

/-! ## The text of a line -/

/-- **The text of a line** that starts in the column `pos`. -/
def text (pos : ℕ) : List UInt8 → List UInt8
  | [] => []
  | c :: cs => shown pos c ++ text (pos + (shown pos c).length) cs

/-- The text of a longer line. -/
lemma text_append (pos : ℕ) (l m : List UInt8) :
    text pos (l ++ m) = text pos l ++ text (pos + (text pos l).length) m := by
  induction l generalizing pos with
  | nil => simp [text]
  | cons c l ih =>
    rw [List.cons_append, text, text, ih, List.append_assoc, List.length_append, Nat.add_assoc]

/-- The text of one character. -/
lemma text_singleton (pos : ℕ) (c : UInt8) : text pos [c] = shown pos c := by
  simp [text]

/-- Every character takes a column. -/
lemma shown_ne_nil (pos : ℕ) (c : UInt8) : shown pos c ≠ [] := by
  rw [shown]
  by_cases htab : c = TAB
  · rw [if_pos htab]
    have := Nat.mod_lt pos (show 0 < 8 by omega)
    simp
    omega
  · rw [if_neg htab]
    by_cases hctl : chkChar c = true
    · simp [hctl]
    · simp [hctl]

/-- The characters shown for a typed one take a column each.

**Proof sketch.** A tabulator is shown as blanks, a control character as an arrow and its letter,
which lies between `40` and `5F`, and any other character as itself. -/
lemma printable_shown {c : UInt8} (h : ¬ isCommand c) (pos : ℕ) :
    ∀ x ∈ shown pos c, Printable x := by
  have hblank : Printable 0x20 := ⟨by decide, by decide⟩
  simp only [isCommand, not_or] at h
  obtain ⟨hcr, hlf, hbs, hdel, -⟩ := h
  intro x hx
  rw [shown] at hx
  by_cases htab : c = TAB
  · rw [if_pos htab] at hx
    rw [List.eq_of_mem_replicate hx]
    exact hblank
  · have hchk : chkChar c = decide (c < 0x20) := by
      rw [chkChar, if_neg hcr, if_neg hlf, if_neg htab, if_neg hbs]
    rw [if_neg htab, hchk] at hx
    by_cases hctl : c < 0x20
    · rw [if_pos (by simpa using hctl)] at hx
      obtain rfl | hx := List.mem_cons.mp hx
      · exact ⟨by decide, by decide⟩
      · -- the letter of a control character lies between `40` and `5F`
        have hlt : c.toNat < 2 ^ 6 := Nat.lt_trans hctl (by decide)
        have hor : (c ||| 0x40).toNat = 64 + c.toNat := by
          rw [UInt8.toNat_or, Nat.or_comm]
          exact (Nat.two_pow_add_eq_or_of_lt hlt 1).symm
        rw [List.mem_singleton.mp hx]
        refine ⟨?_, fun hd => ?_⟩
        · rw [UInt8.le_iff_toNat_le, hor]
          exact Nat.le_trans (by decide) (Nat.le_add_right 64 c.toNat)
        · have hd := congrArg UInt8.toNat hd
          have hc : c.toNat < 32 := hctl
          rw [hor] at hd
          change 64 + c.toNat = 127 at hd
          omega
    · rw [if_neg (by simpa using hctl), List.mem_singleton] at hx
      rw [hx]
      exact ⟨by simpa using hctl, hdel⟩

/-- The text of a line is printable. -/
lemma printable_text {line : List UInt8} (h : Typed line) (pos : ℕ) :
    ∀ x ∈ text pos line, Printable x := by
  induction line generalizing pos with
  | nil => exact fun x hx => absurd hx (by simp [text])
  | cons c cs ih =>
    intro x hx
    have hc := h c (by simp)
    obtain hx | hx := List.mem_append.mp hx
    · exact printable_shown hc.1 pos x hx
    · exact ih (fun d hd => h d (by simp [hd])) _ x hx

/-! ## The cursor -/

/-- Printable characters move the cursor, printed or not. -/
lemma toNat_puts {o : Out} {cs : List UInt8} (hcs : ∀ x ∈ cs, Printable x)
    (hfit : o.curPos.toNat + cs.length < 256) :
    (o.puts cs).curPos.toNat = o.curPos.toNat + cs.length := by
  induction cs generalizing o with
  | nil => rfl
  | cons c cs ih =>
    have hc := hcs c (by simp)
    have hpos : (o.put c).curPos.toNat = o.curPos.toNat + 1 := by
      rw [Out.put_curPos, advance_of_le hc.1 hc.2, UInt8.toNat_add]
      exact Nat.mod_eq_of_lt (by simp at hfit ⊢; omega)
    have hstep : o.puts (c :: cs) = (o.put c).puts cs := rfl
    rw [List.length_cons] at hfit ⊢
    rw [hstep, ih (fun x hx => hcs x (by simp [hx])) (by omega), hpos]
    omega

/-- **Showing a line prints its text.** -/
lemma shows_eq_puts {o : Out} {cs : List UInt8} (hcs : Typed cs)
    (hfit : o.curPos.toNat + (text o.curPos.toNat cs).length < 256) :
    o.shows cs = o.puts (text o.curPos.toNat cs) := by
  induction cs generalizing o with
  | nil => rfl
  | cons c cs ih =>
    have hc := hcs c (by simp)
    have hstep : o.shows (c :: cs) = (o.puts (shown o.curPos.toNat c)).shows cs := rfl
    rw [text, List.length_append] at hfit
    have hpos := toNat_puts (o := o) (printable_shown hc.1 o.curPos.toNat) (by omega)
    rw [hstep, ih (fun x hx => hcs x (by simp [hx])) (by rw [hpos]; omega), hpos, text,
      Out.puts_append]

/-- With the output muted nothing is printed. -/
lemma puts_muted {o : Out} (h : o.outFlag ≠ 0) (cs : List UInt8) :
    (o.puts cs).screen = o.screen := by
  induction cs generalizing o with
  | nil => rfl
  | cons c cs ih =>
    have hput : (o.put c).screen = o.screen := by rw [Out.put, if_neg h]
    exact (ih (by rwa [Out.put_outFlag])).trans hput

/-- Otherwise everything is. -/
lemma puts_loud {o : Out} (h : o.outFlag = 0) (cs : List UInt8) :
    (o.puts cs).screen = o.screen ++ cs := by
  induction cs generalizing o with
  | nil => simp [Out.puts]
  | cons c cs ih =>
    have hput : (o.put c).screen = o.screen ++ [c] := by rw [Out.put, if_pos h]
    have hstep : (o.puts (c :: cs)).screen = ((o.put c).puts cs).screen := rfl
    rw [hstep, ih (by rwa [Out.put_outFlag]), hput, List.append_assoc]
    rfl

/-- The cursor after `NEWLINE`, printed or not. -/
lemma toNat_deleted (o : Out) : (o.puts (deleted o.starting.toNat)).curPos = o.starting := by
  have hzero : (o.puts [0x23, CR, LF]).curPos = 0 := by
    rw [Out.puts_curPos]
    exact advance_crlf _
  rw [← UInt8.toNat_inj, deleted, Out.puts_append, toNat_puts, hzero]
  · simp
  · intro x hx
    rw [List.eq_of_mem_replicate hx]
    exact ⟨by decide, by decide⟩
  · have := o.starting.toNat_lt
    simp [hzero]
    omega

/-! ## What is shown -/

/-- **The line being read is shown**: it starts in the column `pos`, its text is `w`, the output is
not muted, and `CURPOS` is the column of the cursor. -/
structure Shows (o : Out) (pos : ℕ) (w : List UInt8) : Prop where
  /-- The starting column. -/
  starting : o.starting.toNat = pos
  /-- The output is not muted. -/
  loud : o.outFlag = 0
  /-- The cursor is where the BDOS thinks it is. -/
  curPos : o.curPos.toNat = pos + w.length
  /-- The text on the terminal. -/
  displays : Displays o.screen pos w

section Shows

variable {o : Out} {pos : ℕ} {w : List UInt8}

/-- Printable characters are shown. -/
lemma Shows.puts (h : Shows o pos w) {cs : List UInt8} (hcs : ∀ x ∈ cs, Printable x)
    (hfit : pos + w.length + cs.length < 256) : Shows (o.puts cs) pos (w ++ cs) := by
  refine ⟨by rw [Out.puts_starting, h.starting], by rw [Out.puts_outFlag, h.loud], ?_, ?_⟩
  · rw [toNat_puts hcs (by rw [h.curPos]; exact hfit), h.curPos, List.length_append, Nat.add_assoc]
  · rw [puts_loud h.loud]
    exact h.displays.puts hcs

/-- **An ordinary character is shown.** -/
lemma Shows.showIt {line : List UInt8} (h : Shows o pos (text pos line)) {c : UInt8}
    (hc : ¬ isCommand c) (hfit : pos + (text pos (line ++ [c])).length < 256) :
    Shows (o.puts (shown o.curPos.toNat c)) pos (text pos (line ++ [c])) := by
  rw [text_append, text_singleton, List.length_append, ← Nat.add_assoc] at hfit
  rw [text_append, text_singleton, h.curPos]
  exact h.puts (printable_shown hc _) hfit

/-- The start of a line changes nothing that is shown. -/
lemma Shows.start (h : Shows o pos []) : Shows o.start pos [] :=
  ⟨h.curPos, h.loud, h.curPos, h.displays⟩

/-- Blanks take a column each. -/
lemma printable_blanks (n : ℕ) : ∀ x ∈ List.replicate n 0x20, Printable x := by
  intro x hx
  rw [List.eq_of_mem_replicate hx]
  exact ⟨by decide, by decide⟩

/-- **A new line shows nothing yet.** -/
lemma shows_newLine (hs : o.starting.toNat = pos) (hl : o.outFlag = 0) :
    Shows (o.puts (deleted o.starting.toNat)) pos [] := by
  refine ⟨by rw [Out.puts_starting, hs], by rw [Out.puts_outFlag, hl], ?_, ?_⟩
  · rw [toNat_deleted, hs]
    rfl
  · rw [puts_loud hl, deleted, ← List.append_assoc, hs]
    exact ((displays_newLine o.screen).puts (printable_blanks pos)).indent

/-- **A line is shown again.** -/
lemma shows_again (hs : o.starting.toNat = pos) (hl : o.outFlag = 0) {line : List UInt8}
    (ht : Typed line) (hfit : pos + (text pos line).length < 256) :
    Shows ((o.puts (deleted o.starting.toNat)).shows line) pos (text pos line) := by
  have hnew := shows_newLine hs hl
  have hcur : (o.puts (deleted o.starting.toNat)).curPos.toNat = pos := hnew.curPos
  rw [shows_eq_puts ht (by rw [hcur]; exact hfit), hcur]
  exact hnew.puts (printable_text ht pos) hfit

/-- **Backing up over a text** until `OUTFLAG` has been counted down.

**Proof sketch.** Induction on the bound of the loop. Each round takes one column back, which takes
off the last character of the text, and counts `OUTFLAG` down; it is 0 when the text is used up. -/
lemma backs_displays {n : ℕ} {v : List UInt8} (hv : v ≠ []) (hn : v.length ≤ n)
    (hf : o.outFlag.toNat = v.length) (hd : Displays o.screen pos (w ++ v)) :
    (Out.backs n o).starting = o.starting ∧ (Out.backs n o).outFlag = 0 ∧
      (Out.backs n o).curPos = o.curPos ∧ Displays (Out.backs n o).screen pos w := by
  induction n generalizing o v with
  | zero =>
    have := List.length_pos_iff.mpr hv
    omega
  | succ n ih =>
    obtain rfl | ⟨v, x, rfl⟩ := List.eq_nil_or_concat v
    · exact absurd rfl hv
    rw [List.concat_eq_append] at hn hf hd
    have hlen : (v ++ [x]).length = v.length + 1 := by simp
    rw [← List.append_assoc] at hd
    have hback : Displays o.back.screen pos (w ++ v) := hd.back
    have hdec : (o.outFlag - 1).toNat = v.length := by
      rw [UInt8.toNat_sub_of_le _ _ (by rw [UInt8.le_iff_toNat_le, hf, hlen]; simp), hf, hlen]
      simp
    rw [Out.backs]
    by_cases hz : o.outFlag - 1 = 0
    · have hnil : v = [] := by
        rw [hz] at hdec
        exact List.length_eq_zero_iff.mp hdec.symm
      rw [if_neg (not_not.mpr hz)]
      rw [hnil, List.append_nil] at hback
      exact ⟨rfl, hz, rfl, hback⟩
    · have hv' : v ≠ [] := by
        rintro rfl
        exact hz (UInt8.toNat_inj.mp hdec)
      rw [if_pos hz]
      exact ih (o := { o.back with outFlag := o.outFlag - 1 }) hv' (by omega) hdec hback

/-- **Control-x erases the line.**

**Proof sketch.** Induction on the bound of the loop. While the column is behind the starting one
there is a last character, which `Displays.back` erases. -/
lemma Shows.rub {n : ℕ} (h : Shows o pos w) (hn : w.length ≤ n) : Shows (Out.rub n o) pos [] := by
  induction n generalizing o w with
  | zero =>
    obtain rfl := List.length_eq_zero_iff.mp (Nat.le_zero.mp hn)
    exact h
  | succ n ih =>
    have hiff : o.starting < o.curPos ↔ 0 < w.length := by
      rw [UInt8.lt_iff_toNat_lt, h.starting, h.curPos]
      omega
    rw [Out.rub]
    obtain rfl | ⟨v, x, rfl⟩ := List.eq_nil_or_concat w
    · rw [if_neg (by rw [hiff]; simp)]
      exact h
    · rw [List.concat_eq_append] at hn hiff h
      have hlen : (v ++ [x]).length = v.length + 1 := by simp
      rw [if_pos (hiff.mpr (by omega))]
      refine ih (w := v) ⟨h.starting, h.loud, ?_, h.displays.back⟩ (by omega)
      have hcur := h.curPos
      change (o.curPos - 1).toNat = pos + v.length
      rw [UInt8.toNat_sub_of_le _ _ (by rw [UInt8.le_iff_toNat_le, hcur, hlen]; simp; omega), hcur,
        hlen]
      simp

/-- **`RDBUF12` backs up to the end of a text**, the muted cursor being there and `OUTFLAG` the
column of the cursor on the terminal. -/
lemma shows_trim {v : List UInt8} (hv : v ≠ []) (hs : o.starting.toNat = pos)
    (hc : o.curPos.toNat = pos + w.length) (hf : o.outFlag.toNat = pos + w.length + v.length)
    (hd : Displays o.screen pos (w ++ v)) : Shows o.trim pos w := by
  have hpos : 0 < v.length := List.length_pos_iff.mpr hv
  have hlt := o.outFlag.toNat_lt
  have hmute : o.outFlag ≠ 0 := by
    intro h0
    rw [h0] at hf
    change 0 = _ at hf
    omega
  have hdiff : (o.outFlag - o.curPos).toNat = v.length := by
    rw [UInt8.toNat_sub_of_le _ _ (by rw [UInt8.le_iff_toNat_le, hc]; omega), hc]
    omega
  rw [Out.trim, if_neg hmute]
  obtain ⟨h1, h2, h3, h4⟩ := backs_displays (o := { o with outFlag := o.outFlag - o.curPos }) hv
    (show v.length ≤ 256 by omega) hdiff hd
  exact ⟨by rw [h1, ← hs], h2, by rw [h3, ← hc], h4⟩

/-- **A backspace erases the columns of the last character.** The line without it is shown with the
output muted to find the column in which it ends; then the BDOS backs up to that column.

**Proof sketch.** While `OUTFLAG` is not 0 nothing is shown, but the column is counted, so that it
ends behind the shorter line. What is left of `OUTFLAG` is the number of columns that the last
character took (`shows_trim`). -/
lemma shows_backspace {line : List UInt8} {x : UInt8} (h : Shows o pos (text pos (line ++ [x])))
    (ht : Typed line) :
    Shows ((({ o with outFlag := o.curPos } : Out).puts (deleted o.starting.toNat)).shows
      line).trim pos (text pos line) := by
  have htext := text_append pos line [x]
  rw [text_singleton] at htext
  have hpos : 0 < (shown (pos + (text pos line).length) x).length :=
    List.length_pos_iff.mpr (shown_ne_nil _ x)
  have hcur : o.curPos.toNat = pos + (text pos line).length +
      (shown (pos + (text pos line).length) x).length := by
    rw [h.curPos, htext, List.length_append, Nat.add_assoc]
  have hlt := o.curPos.toNat_lt
  set o₁ : Out := { o with outFlag := o.curPos } with ho₁
  have hmute : o₁.outFlag ≠ 0 := by
    intro h0
    have h0 : o.curPos.toNat = 0 := congrArg UInt8.toNat h0
    omega
  set o₂ := o₁.puts (deleted o.starting.toNat) with ho₂
  have hcur₂ : o₂.curPos.toNat = pos := by
    have hdel : o₂.curPos = o.starting := toNat_deleted o₁
    rw [hdel, h.starting]
  have hmute₂ : o₂.outFlag ≠ 0 := by rwa [ho₂, Out.puts_outFlag]
  rw [shows_eq_puts ht (by rw [hcur₂]; omega), hcur₂]
  refine shows_trim (shown_ne_nil (pos + (text pos line).length) x) ?_ ?_ ?_ ?_
  · rw [Out.puts_starting, ho₂, Out.puts_starting, ← h.starting]
  · rw [toNat_puts (printable_text ht pos) (by rw [hcur₂]; omega), hcur₂]
  · rw [Out.puts_outFlag, ho₂, Out.puts_outFlag, ← hcur]
  · rw [puts_muted hmute₂, ho₂, puts_muted hmute, ← htext]
    exact h.displays

end Shows

/-! ## The whole line -/

/-- **The line stays within 256 columns** while the keys act on it. -/
def Fits (max pos : ℕ) : List UInt8 → List UInt8 → Prop
  | line, [] => pos + (text pos line).length < 256
  | line, k :: ks => pos + (text pos line).length < 256 ∧
    match editKey max line (k &&& 0x7f) with
    | .goes line' => Fits max pos line' ks
    | .ends _ => True
    | .reboots => True

/-- It does so at the first prompt. -/
lemma Fits.now {max pos : ℕ} {line ks : List UInt8} (h : Fits max pos line ks) :
    pos + (text pos line).length < 256 := by
  cases ks with
  | nil => exact h
  | cons k ks => exact h.1

section Run

variable {params : UInt16} {mem₀ : UInt16 → UInt8} {line line' : List UInt8} {s : Term} {pos : ℕ}

/-- What a routine that came back did to the output side. -/
lemma Acts.out {α : Type} {m : M α} {R : α → Prop} {f : Out → Out} (h : Acts s.mem m R f) {a : α}
    {t : Term} (hm : m s = .ok a t) : t.out = f s.out := by
  have h := h s rfl
  rw [hm] at h
  exact h.2.2.1

/-- `RDBUF15` shows the character. -/
lemma rdBuf15_out {c b a : UInt8} {hl : UInt16} {turn : Turn} {t : Term}
    (h : rdBuf15 c hl b a s = .ok turn t) : t.out = s.out.puts (shown s.out.curPos.toNat a) := by
  obtain ⟨_, u, hu, h⟩ := Exc.bind_ok.mp h
  rw [Exc.get_bind] at h
  have hout := Acts.out (acts_showIt s.mem a) hu
  by_cases hab : u.mem hl = CNTRLC ∧ b = 1
  · rw [if_pos hab] at h
    cases h
  · rw [if_neg hab] at h
    by_cases hbc : b < c
    · rw [if_pos hbc] at h
      cases h
      exact hout
    · rw [if_neg hbc] at h
      cases h
      exact hout

/-- **After every key the line is shown**, control-e and rubouts apart.

**Proof sketch.** The branches of `RDBUF2`, each with what it does to the output side. -/
lemma rdBuf2_shows (h : Holding params mem₀ line s.mem) (hs : Shows s.out pos (text pos line))
    {a : UInt8} (hE : a ≠ CNTRLE) (hD : a ≠ DEL)
    (hgo : editKey (mem₀ params).toNat line a = .goes line')
    (hfit : pos + (text pos line').length < 256) {turn : Turn} {t : Term}
    (hr : rdBuf2 params (mem₀ params) (cell params line.length) (UInt8.ofNat line.length) a s =
      .ok turn t) : Shows t.out pos (text pos line') := by
  have hlen : (text pos line).length ≤ 256 := by
    have := s.out.curPos.toNat_lt
    have := hs.curPos
    omega
  by_cases hchar : ¬ isCommand a
  · rw [editKey_char hchar] at hgo
    rw [rdBuf2_char params hchar] at hr
    have hline : line' = line ++ [a] := by
      by_cases hrb : line = [] ∧ a = CNTRLC
      · rw [if_pos hrb] at hgo
        cases hgo
      · rw [if_neg hrb] at hgo
        by_cases hroom : line.length + 1 < (mem₀ params).toNat
        · rw [if_pos hroom] at hgo
          cases hgo
          rfl
        · rw [if_neg hroom] at hgo
          cases hgo
    subst hline
    rw [rdBuf15_out hr]
    exact hs.showIt hchar hfit
  obtain rfl | rfl | rfl | rfl | rfl | rfl | rfl | rfl | rfl := not_not.mp hchar
  · cases hgo
  · cases hgo
  · obtain rfl : line.dropLast = line' := Change.goes.inj hgo
    obtain rfl | ⟨l, x, rfl⟩ := List.eq_nil_or_concat line
    · cases hr
      exact hs
    · rw [List.concat_eq_append] at *
      have hne : l ++ [x] ≠ [] := by simp
      have hb : UInt8.ofNat (l ++ [x]).length ≠ 0 := fun h0 => hne (h.zero_iff.mp h0)
      rw [Acts.out (acts_backspace s.mem params _ hb) hr, ofNat_dropLast hne, h.dropLast.toNat,
        h.dropLast.chars, List.dropLast_concat]
      exact shows_backspace hs fun c hc => h.typed c (by simp [hc])
  · exact absurd rfl hD
  · exact absurd rfl hE
  · obtain rfl : line = line' := Change.goes.inj hgo
    rw [Acts.out (acts_cntrlP s.mem params _ _ _) hr]
    exact ⟨hs.starting, hs.loud, hs.curPos, hs.displays⟩
  · obtain rfl : [] = line' := Change.goes.inj hgo
    rw [Acts.out (acts_cntrlX s.mem params _ _ _) hr]
    exact (hs.rub hlen).start
  · obtain rfl : [] = line' := Change.goes.inj hgo
    rw [Acts.out (acts_cntrlU s.mem params _ _ _) hr]
    exact (shows_newLine hs.starting hs.loud).start
  · obtain rfl : line = line' := Change.goes.inj hgo
    have hagain := shows_again hs.starting hs.loud h.typed hfit
    rw [Acts.out (acts_cntrlR s.mem params _ _ _) hr, h.toNat, h.chars, Out.trim,
      if_pos hagain.loud]
    exact hagain

/-- **Where the rounds of `RDBUF1` wait, the line is shown.**

**Proof sketch.** Induction on the pending keys, as for `rdBuf1_seen`: each of them goes on with the
line, and `rdBuf2_shows` is what it does to the terminal. -/
lemma rdBuf1_shows {ks : List UInt8} {n : ℕ} (h : Holding params mem₀ line s.mem)
    (hs : Shows s.out pos (text pos line)) (hp : s.pending = ks) (hc : Clean ks)
    (hks : ∀ k ∈ ks, k &&& 0x7f ≠ CNTRLE ∧ k &&& 0x7f ≠ DEL) (hn : ks.length < n)
    (hfit : Fits (mem₀ params).toNat pos line ks)
    (hw : edit (mem₀ params).toNat line ks = .waits line') :
    ∃ t, rdBuf1 params n (resume params mem₀ line) s = .error .waits t ∧
      Holding params mem₀ line' t.mem ∧ Shows t.out pos (text pos line') := by
  induction ks generalizing s line n with
  | nil =>
    obtain ⟨m, rfl⟩ : ∃ m, n = m + 1 := ⟨n - 1, by simp at hn; omega⟩
    obtain rfl : line = line' := Outcome.waits.inj hw
    refine ⟨s, ?_, h, hs⟩
    rw [resume, rdBuf1, Exc.bind_of_error (getChar_nil hp)]
  | cons k ks ih =>
    obtain ⟨m, rfl⟩ : ∃ m, n = m + 1 := ⟨n - 1, by simp at hn; omega⟩
    obtain ⟨u, hu, hup, hum, huo⟩ := getChar_cons hp
    have hcu : Clean u.pending := hup ▸ fun x hx => hc x (List.mem_cons_of_mem k hx)
    have hstep := rdBuf2_makes (s := u) (hum ▸ h) (and_lt k)
    rw [edit] at hw
    rw [resume, rdBuf1, Exc.bind_of_ok hu]
    cases hch : editKey (mem₀ params).toNat line (k &&& 0x7f) with
    | goes line₁ =>
      rw [hch] at hstep hw
      have hfit₁ : Fits (mem₀ params).toNat pos line₁ ks := by
        have := hfit.2
        rwa [hch] at this
      cases hr : rdBuf2 params (mem₀ params) (cell params line.length)
          (UInt8.ofNat line.length) (k &&& 0x7f) u with
      | error e t =>
        rw [hr] at hstep
        exact absurd (hstep.2 hcu).2 (by simp)
      | ok turn t =>
        rw [hr] at hstep
        have hkey := hks k (by simp)
        have hshow := rdBuf2_shows (hum ▸ h) (huo ▸ hs) hkey.1 hkey.2 hch hfit₁.now hr
        rw [Exc.bind_of_ok hr, hstep.1.1]
        exact ih hstep.1.2 hshow ((hstep.2 hcu).trans hup)
          (fun x hx => hc x (List.mem_cons_of_mem k hx)) (fun x hx => hks x (by simp [hx]))
          (by simp at hn; omega) hfit₁ hw
    | ends line₁ =>
      rw [hch] at hw
      cases hw
    | reboots =>
      rw [hch] at hw
      cases hw

/-- **The screen shows the line.** Whenever the buffered read waits for a key, the row of the cursor
shows the text of the line in the buffer from the column in which the reading started, with the
cursor behind it and nothing after it: backspaces, tabs, control characters, cancelled and retyped
lines included. The keys are any but `0`, control-s, control-e and rubouts (which are shown on
purpose), the line stays within 256 columns, and the cursor was known at the start. -/
theorem rdBuff_shows (params : UInt16) (s : Term) (line : List UInt8) (hc : Clean s.pending)
    (hks : ∀ k ∈ s.pending, k &&& 0x7f ≠ CNTRLE ∧ k &&& 0x7f ≠ DEL)
    (hstart : Shows s.out.start s.out.curPos.toNat [])
    (hfit : Fits (s.mem params).toNat s.out.curPos.toNat [] s.pending)
    (hw : edit (s.mem params).toNat [] s.pending = .waits line) :
    ∃ t, rdBuff params s = .error .waits t ∧ Holding params s.mem line t.mem ∧
      Shows t.out s.out.curPos.toNat (text s.out.curPos.toNat line) := by
  obtain ⟨t, ht, hh, hp, ho⟩ := rdBuff_start params s
  rw [ht]
  exact rdBuf1_shows hh (ho ▸ hstart) hp hc hks (Nat.lt_succ_self _) hfit hw

/-- A line with a tab, a control character and corrections, at the prompt. -/
def correcting : Term where
  keys := [0x64, TAB, 0x01, BS, 0x69, 0x78, BS, CNTRLR]
  ready := fun n => n % 2 == 0
  looks := 0
  charBuf := 0
  out := ⟨0, 0, 2, 0, [0x41, 0x3e], []⟩
  mem := fun a => if a = 0x80 then 127 else 0

/-- `rdBuff_shows` for that line: the buffer holds `d`, a tab and `i`, and the row shows `d`, five
blanks and `i` behind the prompt.

**Proof sketch.** The characters that are typed are read one after the other. The prompt is two
printable characters, so that the cursor is in column 2 of a blank row when the line is begun. -/
theorem rdBuff_shows_correcting :
    ∃ t, rdBuff 0x80 correcting = .error .waits t ∧
      Holding 0x80 correcting.mem [0x64, TAB, 0x69] t.mem ∧
      Shows t.out 2 [0x64, 0x20, 0x20, 0x20, 0x20, 0x20, 0x69] := by
  have hd : tty correcting.out.screen =
      ⟨Function.update (Function.update (fun _ => 0x20) 0 0x41) 1 0x3e, 2⟩ := by
    rw [tty, correcting]
    simp only [List.foldl_cons, List.foldl_nil]
    rw [Tty.type_printable _ ⟨by decide, by decide⟩, Tty.type_printable _ ⟨by decide, by decide⟩]
  have hstart : Shows correcting.out.start 2 [] := by
    refine ⟨rfl, rfl, rfl, ⟨?_, fun i hi => absurd hi (by simp), fun j hj => ?_⟩⟩
    · exact congrArg Tty.col hd
    · have hj : 2 ≤ j := hj
      have hrow : (tty correcting.out.screen).row j =
          (Function.update (Function.update (fun _ => 0x20) 0 0x41) 1 0x3e : ℕ → UInt8) j :=
        congrFun (congrArg Tty.row hd) j
      exact hrow.trans (by
        rw [Function.update_of_ne (by omega), Function.update_of_ne (by omega)])
  refine rdBuff_shows 0x80 correcting [0x64, TAB, 0x69] ?_ ?_ hstart ?_ (by decide)
  · simp [Clean, Term.pending, correcting, CNTRLS, TAB, BS, CNTRLR]
  · rw [show correcting.pending = [0x64, TAB, 0x01, BS, 0x69, 0x78, BS, CNTRLR] from rfl]
    simp only [List.forall_mem_cons]
    exact ⟨by decide, by decide, by decide, by decide, by decide, by decide, by decide, by decide,
      by simp⟩
  · exact ⟨by decide, by decide, by decide, by decide, by decide, by decide, by decide, by decide,
      (by decide : 2 + (text 2 [0x64, TAB, 0x69]).length < 256)⟩

end Run

end Cpm22.Bdos.Con
