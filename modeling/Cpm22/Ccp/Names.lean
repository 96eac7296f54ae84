import Mathlib.Data.List.Basic
import Cpm22.Bdos.Keys

set_option relaxedAutoImplicit false
set_option autoImplicit false

/-!
# The file names of a command line

The command processor converts the names of a command line for the file control block: `CONVERT`
skips blanks, takes a drive if the second character is a colon, and fills the eight characters of
the name and the three of its extension from the words that follow, where a star stands for question
marks up to the end of its field. A control character is an error. This file shows which words of a
line these are, that a name which is typed is the name in the file control block, and which files a
typed pattern stands for when the BDOS searches for it.

A line is the list of its characters from the input pointer on; behind its end there is a zero, as
`GETINP4` puts it there.

## Main definitions

* `Cpm22.Ccp.check`, `Cpm22.Ccp.field`, `Cpm22.Ccp.convert` — the routines.
* `Cpm22.Ccp.parts`, `Cpm22.Ccp.glob` — the words of a line, and the fields they become.
* `Cpm22.Ccp.Fitted` — the names that a word stands for.

## Main results

* `Cpm22.Ccp.convert_accepts` — what is accepted, for every line.
* `Cpm22.Ccp.convert_typed` — a name that is typed.
* `Cpm22.Ccp.convert_stands` — the names that a pattern stands for.
-/

namespace Cpm22

namespace Ccp

open Bdos

/-! ## The routines -/

/-- The characters that end a word. -/
def delimiters : List UInt8 :=
  [ch ' ', ch '=', ch '_', ch '.', ch ':', ch ';', ch '<', ch '>']

/-- **`CHECK`** of the first character of a line: `none` is the jump to `SYNERR`, otherwise the
result says whether it is a delimiter. -/
def check (l : List UInt8) : Option Bool :=
  if l.headD 0 = 0 then some true
  else if l.headD 0 < ch ' ' then none
  else some (delimiters.contains (l.headD 0))

/-- `NONBLANK`. -/
def nonBlank (l : List UInt8) : List UInt8 := l.dropWhile fun c => c == ch ' '

/-- The loops `CONVRT7` and `GETEXT4`: on to the next delimiter. -/
def skip : List UInt8 → Option (List UInt8)
  | [] => some []
  | a :: l => (check (a :: l)).bind fun z => if z then some (a :: l) else skip l

/-- **The loops `CONVRT4` and `GETEXT1`**, with the number of characters that are left: a field and
the rest of the line. The pointer stays at a star, and a delimiter fills the field with blanks. -/
def field : ℕ → List UInt8 → Option (List UInt8 × List UInt8)
  | 0, l => (skip l).map fun l => ([], l)
  | n + 1, l => (check l).bind fun z =>
    if z then some (List.replicate (n + 1) (ch ' '), l)
    else if l.headD 0 = ch '*' then (field n l).map fun r => (ch '?' :: r.1, r.2)
    else (field n l.tail).map fun r => (l.headD 0 :: r.1, r.2)

/-- **A converted name**: the drive, the flag `CHGDRV`, the fields of the file control block, and
the rest of the line. -/
structure Converted where
  drive : UInt8
  chgDrv : UInt8
  fx : List UInt8
  ex : List UInt8
  rest : List UInt8
  deriving DecidableEq

/-- `CONVRT1` and `CONVRT2`: the drive, the flag and the line behind it. -/
def driveOf (cdrive : UInt8) (l : List UInt8) : UInt8 × UInt8 × List UInt8 :=
  if l.headD 0 ≠ 0 ∧ l.tail.headD 0 = ch ':' then
    (l.headD 0 - 0x40, l.headD 0 - 0x40, l.tail.tail)
  else (cdrive, 0, l)

/-- **`CONVERT`**, `none` where it ends in a syntax error. -/
def convert (cdrive : UInt8) (line : List UInt8) : Option Converted :=
  let (drive, chgDrv, l) := driveOf cdrive (nonBlank line)
  (field 8 l).bind fun (fx, l) =>
    (if l.headD 0 = ch '.' then field 3 l.tail else some (List.replicate 3 (ch ' '), l)).map
      fun (ex, l) => ⟨drive, chgDrv, fx, ex, l⟩

/-- The number of question marks, which `CONVERT` returns. -/
def Converted.marks (c : Converted) : ℕ := (c.fx ++ c.ex).count (ch '?')

/-- The fifteen bytes that `CONVERT` stores in a file control block. -/
def Converted.put (c : Converted) (e : CpmDir) : CpmDir :=
  { e with
    st := c.drive
    fx := fun i => c.fx.getD i 0
    ex := fun i => c.ex.getD i 0
    xl := 0
    bc := 0
    xh := 0 }

/-! ## The words of a line -/

/-- A character of a word. -/
def wordy (a : UInt8) : Bool := check [a] == some false

/-- The first character decides. -/
lemma check_cons (a : UInt8) (l : List UInt8) : check (a :: l) = check [a] := rfl

/-- **The field that a word becomes**: its characters, blanks behind them, and question marks from a
star on. -/
def glob : ℕ → List UInt8 → List UInt8
  | 0, _ => []
  | n + 1, [] => List.replicate (n + 1) (ch ' ')
  | n + 1, a :: w => if a = ch '*' then List.replicate (n + 1) (ch '?') else a :: glob n w

/-- The line from a delimiter on, unless a control character is there. -/
def stops (l : List UInt8) : Option (List UInt8) := (check l).map fun _ => l

/-- Skipping ends behind the word. -/
lemma skip_eq (l : List UInt8) : skip l = stops (l.dropWhile wordy) := by
  induction l with
  | nil => rfl
  | cons a l ih =>
    rw [skip, check_cons]
    cases hc : check [a] with
    | none =>
      have hw : wordy a = false := by simp [wordy, hc]
      rw [List.dropWhile_cons_of_neg (by simp [hw]), stops, check_cons, hc]
      rfl
    | some z =>
      cases z with
      | true =>
        have hw : wordy a = false := by simp [wordy, hc]
        rw [List.dropWhile_cons_of_neg (by simp [hw]), stops, check_cons, hc]
        rfl
      | false =>
        have hw : wordy a = true := by simp [wordy, hc]
        rw [List.dropWhile_cons_of_pos hw, ← ih]
        rfl

/-- A star fills the field. -/
lemma glob_star (n : ℕ) (w : List UInt8) :
    glob n (ch '*' :: w) = List.replicate n (ch '?') := by
  cases n with
  | zero => rfl
  | succ n => rw [glob, if_pos rfl]

/-- A round of the loop that is not at the end of the line. -/
lemma field_cons (n : ℕ) (a : UInt8) (l : List UInt8) : field (n + 1) (a :: l) =
    (check [a]).bind fun z =>
      if z then some (List.replicate (n + 1) (ch ' '), a :: l)
      else if a = ch '*' then (field n (a :: l)).map fun r => (ch '?' :: r.1, r.2)
      else (field n l).map fun r => (a :: r.1, r.2) :=
  rfl

/-- **A field is the word in front of the next delimiter.**

**Proof sketch.** Induction on the characters that are left; at a star the line stays. -/
lemma field_eq (n : ℕ) (l : List UInt8) : field n l =
    (stops (l.dropWhile wordy)).map fun r => (glob n (l.takeWhile wordy), r) := by
  induction n generalizing l with
  | zero =>
    rw [field, skip_eq]
    rfl
  | succ n ih =>
    cases l with
    | nil => rfl
    | cons a l =>
      rw [field_cons]
      cases hc : check [a] with
      | none =>
        have hw : wordy a = false := by simp [wordy, hc]
        rw [List.dropWhile_cons_of_neg (by simp [hw]), stops, check_cons, hc]
        rfl
      | some z =>
        cases z with
        | true =>
          have hw : wordy a = false := by simp [wordy, hc]
          rw [List.dropWhile_cons_of_neg (by simp [hw]), List.takeWhile_cons_of_neg (by simp [hw]),
            stops, check_cons, hc]
          rfl
        | false =>
          have hw : wordy a = true := by simp [wordy, hc]
          rw [Option.bind_some, if_neg Bool.false_ne_true]
          by_cases hstar : a = ch '*'
          · subst hstar
            rw [if_pos rfl, ih, List.takeWhile_cons_of_pos hw, Option.map_map]
            congr 1
            funext r
            simp only [Function.comp, glob_star, List.replicate_succ]
          · rw [if_neg hstar, ih, List.dropWhile_cons_of_pos hw, List.takeWhile_cons_of_pos hw,
              Option.map_map]
            congr 1
            funext r
            simp only [Function.comp, glob, if_neg hstar]

/-- **The words of a line** behind the drive: the name, the extension behind a point, and the rest
of the line; `none` if a control character ends one of the words. -/
def parts (l : List UInt8) : Option (List UInt8 × List UInt8 × List UInt8) :=
  (stops (l.dropWhile wordy)).bind fun r =>
    if r.headD 0 = ch '.' then
      (stops (r.tail.dropWhile wordy)).map fun r' => (l.takeWhile wordy, r.tail.takeWhile wordy, r')
    else some (l.takeWhile wordy, [], r)

/-- The fields behind a drive. -/
lemma fields_parts (drive chgDrv : UInt8) (l : List UInt8) :
    ((field 8 l).bind fun (fx, l) =>
      (if l.headD 0 = ch '.' then field 3 l.tail else some (List.replicate 3 (ch ' '), l)).map
        fun (ex, l) => (⟨drive, chgDrv, fx, ex, l⟩ : Converted)) =
    (parts l).map fun p => ⟨drive, chgDrv, glob 8 p.1, glob 3 p.2.1, p.2.2⟩ := by
  rw [field_eq, parts]
  cases stops (l.dropWhile wordy) with
  | none => rfl
  | some r =>
    simp only [Option.map_some, Option.bind_some]
    by_cases hdot : r.headD 0 = ch '.'
    · rw [if_pos hdot, if_pos hdot, field_eq, Option.map_map, Option.map_map]
      rfl
    · rw [if_neg hdot, if_neg hdot]
      rfl

/-- **The conversion by the words of the line**, each brought to the length of its field. -/
lemma convert_eq (cdrive : UInt8) (line : List UInt8) : convert cdrive line =
    (parts (driveOf cdrive (nonBlank line)).2.2).map fun p =>
      ⟨(driveOf cdrive (nonBlank line)).1, (driveOf cdrive (nonBlank line)).2.1, glob 8 p.1,
        glob 3 p.2.1, p.2.2⟩ :=
  fields_parts _ _ _

/-- **A word**: characters that are neither delimiters nor control characters. -/
def Word (w : List UInt8) : Prop := ∀ a ∈ w, wordy a = true

/-- The empty word. -/
lemma word_nil : Word [] := fun _ ha => absurd ha List.not_mem_nil

/-- A character in front of a word. -/
lemma word_cons {a : UInt8} {w : List UInt8} (ha : wordy a = true) (hw : Word w) :
    Word (a :: w) :=
  List.forall_mem_cons.mpr ⟨ha, hw⟩

/-- A word ends where no character of a word follows. -/
lemma word_append {w r : List UInt8} (hw : Word w) (hr : check r ≠ some false) :
    (w ++ r).takeWhile wordy = w ∧ (w ++ r).dropWhile wordy = r := by
  rw [List.takeWhile_append_of_pos hw, List.dropWhile_append_of_pos hw]
  cases r with
  | nil => simp
  | cons a r =>
    rw [check_cons] at hr
    have ha : ¬ wordy a = true := by simpa [wordy] using hr
    rw [List.takeWhile_cons_of_neg ha, List.dropWhile_cons_of_neg ha, List.append_nil]
    exact ⟨rfl, rfl⟩

/-- Behind a word there is no character of a word. -/
lemma check_dropWhile (l : List UInt8) : check (l.dropWhile wordy) ≠ some false := by
  induction l with
  | nil => decide
  | cons a l ih =>
    by_cases ha : wordy a = true
    · rwa [List.dropWhile_cons_of_pos ha]
    · rw [List.dropWhile_cons_of_neg ha, check_cons]
      simpa [wordy] using ha

/-- The characters in front of it are a word. -/
lemma word_takeWhile (l : List UInt8) : Word (l.takeWhile wordy) :=
  fun _ ha => List.mem_takeWhile_imp ha

/-! ## What is accepted -/

/-- **A field of a file control block**: characters of a word, no star among them, and blanks behind
them. -/
def IsField (n : ℕ) (x : List UInt8) : Prop :=
  x.length = n ∧ ∃ w k, x = w ++ List.replicate k (ch ' ') ∧ Word w ∧ ch '*' ∉ w

/-- Question marks are characters of a word. -/
lemma word_marks (n : ℕ) : Word (List.replicate n (ch '?')) := by
  intro a ha
  rw [List.eq_of_mem_replicate ha]
  decide

/-- **A word becomes a field.**

**Proof sketch.** Induction on the length of the field. An asterisk fills the rest with question
marks, the end of the word fills it with blanks, and any other character is copied. -/
lemma isField_glob (n : ℕ) {w : List UInt8} (hw : Word w) : IsField n (glob n w) := by
  induction n generalizing w with
  | zero => exact ⟨rfl, [], 0, rfl, word_nil, by simp⟩
  | succ n ih =>
    cases w with
    | nil =>
      refine ⟨by simp [glob], [], n + 1, ?_, word_nil, by simp⟩
      rw [glob, List.nil_append]
    | cons a w =>
      rw [glob]
      by_cases hstar : a = ch '*'
      · rw [if_pos hstar]
        refine ⟨by simp, List.replicate (n + 1) (ch '?'), 0, by simp, word_marks _, fun h => ?_⟩
        exact absurd (List.eq_of_mem_replicate h) (by decide)
      · rw [if_neg hstar]
        obtain ⟨hlen, w', k, heq, hw', hno⟩ := ih fun x hx => hw x (List.mem_cons_of_mem a hx)
        refine ⟨by simp [hlen], a :: w', k, by rw [heq]; rfl,
          word_cons (hw a List.mem_cons_self) hw', ?_⟩
        rintro (_ | ⟨_, hx⟩)
        · exact hstar rfl
        · exact hno hx

/-- A line that can be split, by its words. -/
lemma parts_append {base r : List UInt8} (hb : Word base) (hr : check r ≠ some false) :
    parts (base ++ r) = (stops r).bind fun r =>
      if r.headD 0 = ch '.' then
        (stops (r.tail.dropWhile wordy)).map fun r' => (base, r.tail.takeWhile wordy, r')
      else some (base, [], r) := by
  obtain ⟨htake, hdrop⟩ := word_append hb hr
  rw [parts, htake, hdrop]

/-- The line stops where there is no control character. -/
lemma stops_of_check {l : List UInt8} (h : check l ≠ none) : stops l = some l := by
  obtain ⟨z, hz⟩ := Option.ne_none_iff_exists'.mp h
  rw [stops, hz, Option.map_some]

/-- A point is at the front. -/
lemma eq_cons_of_head {r : List UInt8} (h : r.headD 0 = ch '.') : r = ch '.' :: r.tail := by
  cases r with
  | nil => exact absurd h (by decide)
  | cons a r =>
    obtain rfl : a = ch '.' := h
    rfl

/-- A line with a point behind the name. -/
lemma parts_dotted {base : List UInt8} (hb : Word base) (r : List UInt8) :
    parts (base ++ ch '.' :: r) =
      (stops (r.dropWhile wordy)).map fun r' => (base, r.takeWhile wordy, r') := by
  have hpoint : check (ch '.' :: r) = some true := by
    rw [check_cons]
    decide
  rw [parts_append hb (by rw [hpoint]; decide), stops_of_check (by rw [hpoint]; decide),
    Option.bind_some, if_pos (show (ch '.' :: r).headD 0 = ch '.' from rfl), List.tail_cons]

/-- **The lines that cannot be split.**

**Proof sketch.** The name is the longest word at the beginning of the line. The line is refused
iff what is behind this word starts with a character that may not stand there, or a point is there
and this is so behind the extension. -/
lemma parts_eq_none_iff (l : List UInt8) : parts l = none ↔ ∃ base r, Word base ∧ l = base ++ r ∧
    (check r = none ∨ ∃ ext r', Word ext ∧ r = ch '.' :: (ext ++ r') ∧ check r' = none) := by
  constructor
  · intro h
    refine ⟨l.takeWhile wordy, l.dropWhile wordy, word_takeWhile l,
      List.takeWhile_append_dropWhile.symm, ?_⟩
    by_cases hc : check (l.dropWhile wordy) = none
    · exact .inl hc
    · right
      rw [parts, stops_of_check hc, Option.bind_some] at h
      by_cases hdot : (l.dropWhile wordy).headD 0 = ch '.'
      · rw [if_pos hdot, Option.map_eq_none_iff, stops, Option.map_eq_none_iff] at h
        refine ⟨(l.dropWhile wordy).tail.takeWhile wordy, (l.dropWhile wordy).tail.dropWhile wordy,
          word_takeWhile _, ?_, h⟩
        rw [List.takeWhile_append_dropWhile]
        exact eq_cons_of_head hdot
      · rw [if_neg hdot] at h
        cases h
  · rintro ⟨base, r, hb, rfl, hc | ⟨ext, r', he, rfl, hc⟩⟩
    · rw [parts_append hb (by rw [hc]; decide), stops, hc]
      rfl
    · rw [parts_dotted hb, (word_append he (by rw [hc]; decide)).2, stops, hc]
      rfl

/-- **The parts of a line** are words, and the rest starts with a delimiter.

**Proof sketch.** The longest word ends at a delimiter, or the line would have been refused. If the
delimiter is a point, the same is true of the extension behind it. -/
lemma parts_some {l : List UInt8} {p : List UInt8 × List UInt8 × List UInt8}
    (h : parts l = some p) : Word p.1 ∧ Word p.2.1 ∧ check p.2.2 = some true ∧ p.2.2 <:+ l := by
  -- a line stops at a delimiter, since the word in front of it has ended
  have hstop : ∀ {l r : List UInt8}, stops (l.dropWhile wordy) = some r →
      check r = some true ∧ r = l.dropWhile wordy := by
    intro l r hr
    obtain ⟨z, hz, rfl⟩ := Option.map_eq_some_iff.mp hr
    refine ⟨?_, rfl⟩
    cases z with
    | true => exact hz
    | false => exact absurd hz (check_dropWhile l)
  obtain ⟨r, hr, hrest⟩ := Option.bind_eq_some_iff.mp h
  obtain ⟨hcheck, rfl⟩ := hstop hr
  by_cases hdot : (l.dropWhile wordy).headD 0 = ch '.'
  · rw [if_pos hdot] at hrest
    obtain ⟨r', hr', rfl⟩ := Option.map_eq_some_iff.mp hrest
    obtain ⟨hcheck', rfl⟩ := hstop hr'
    refine ⟨word_takeWhile _, word_takeWhile _, hcheck', ?_⟩
    exact (List.dropWhile_suffix _).trans ((List.tail_suffix _).trans (List.dropWhile_suffix _))
  · rw [if_neg hdot] at hrest
    obtain rfl := Option.some.inj hrest
    exact ⟨word_takeWhile _, word_nil, hcheck, List.dropWhile_suffix _⟩

/-- The line behind the drive is an end of the line. -/
lemma driveOf_suffix (cdrive : UInt8) (line : List UInt8) :
    (driveOf cdrive (nonBlank line)).2.2 <:+ line := by
  have hline : nonBlank line <:+ line := List.dropWhile_suffix _
  unfold driveOf
  split
  · exact ((List.tail_suffix _).trans (List.tail_suffix _)).trans hline
  · exact hline

/-- **What is accepted, for every line.** The conversion fails exactly where a control character
ends the name or its extension. What it returns are fields of a file control block, and the rest of
the line from the delimiter on that ends the last word. -/
theorem convert_accepts (cdrive : UInt8) (line : List UInt8) :
    (convert cdrive line = none ↔ ∃ base r, Word base ∧
      (driveOf cdrive (nonBlank line)).2.2 = base ++ r ∧
      (check r = none ∨ ∃ ext r', Word ext ∧ r = ch '.' :: (ext ++ r') ∧ check r' = none)) ∧
    ∀ c, convert cdrive line = some c → IsField 8 c.fx ∧ IsField 3 c.ex ∧
      check c.rest = some true ∧ c.rest <:+ line := by
  rw [convert_eq]
  refine ⟨by rw [Option.map_eq_none_iff, parts_eq_none_iff], fun c hc => ?_⟩
  obtain ⟨p, hp, rfl⟩ := Option.map_eq_some_iff.mp hc
  obtain ⟨hb, he, hcheck, hsuffix⟩ := parts_some hp
  exact ⟨isField_glob 8 hb, isField_glob 3 he, hcheck, hsuffix.trans (driveOf_suffix cdrive line)⟩

/-! ## A name that is typed -/

/-- A word without a star that is not too long is followed by blanks. -/
lemma glob_pad {n : ℕ} {w : List UInt8} (hstar : ch '*' ∉ w) (hlen : w.length ≤ n) :
    glob n w = w ++ List.replicate (n - w.length) (ch ' ') := by
  induction n generalizing w with
  | zero =>
    obtain rfl := List.eq_nil_of_length_eq_zero (Nat.le_zero.mp hlen)
    rfl
  | succ n ih =>
    cases w with
    | nil => rfl
    | cons a w =>
      rw [glob, if_neg fun h => hstar (by rw [h]; exact List.mem_cons_self),
        ih (fun h => hstar (List.mem_cons_of_mem a h)) (by simpa using hlen), List.length_cons,
        Nat.add_sub_add_right]
      rfl

/-- A name as it is typed, with a drive and an extension or without. -/
def spell (drive : Option UInt8) (base : List UInt8) (ext : Option (List UInt8)) : List UInt8 :=
  (drive.elim [] fun a => [a + 0x40, ch ':']) ++ (base ++ ext.elim [] fun e => ch '.' :: e)

/-- Blanks in front are skipped. -/
lemma nonBlank_append (n : ℕ) (a : UInt8) (l : List UInt8) (ha : a ≠ ch ' ') :
    nonBlank (List.replicate n (ch ' ') ++ a :: l) = a :: l := by
  rw [nonBlank, List.dropWhile_append_of_pos (by simp),
    List.dropWhile_cons_of_neg (by simpa using ha)]

/-- A name that is typed, behind the drive. -/
lemma parts_typed {base rest : List UInt8} {ext : Option (List UInt8)} (hb : Word base)
    (he : Word (ext.getD [])) (hrest : check rest = some true)
    (hext : ext = none → rest.headD 0 ≠ ch '.') :
    parts (base ++ ((ext.elim [] fun e => ch '.' :: e) ++ rest)) =
      some (base, ext.getD [], rest) := by
  have hne : check rest ≠ some false := by
    rw [hrest]
    decide
  have hstop := stops_of_check (l := rest) (by rw [hrest]; decide)
  cases ext with
  | none =>
    rw [Option.elim_none, List.nil_append, parts_append hb hne, hstop, Option.bind_some,
      if_neg (hext rfl), Option.getD_none]
  | some e =>
    obtain ⟨htake, hdrop⟩ := word_append he hne
    rw [Option.getD_some] at htake hdrop
    rw [Option.elim_some, List.cons_append, parts_dotted hb, htake, hdrop, hstop, Option.map_some,
      Option.getD_some]

/-- Characters of a word are no blanks, no zeros and no colons. -/
lemma wordy_ne {a : UInt8} (h : wordy a = true) : a ≠ ch ' ' ∧ a ≠ 0 ∧ a ≠ ch ':' := by
  refine ⟨?_, ?_, ?_⟩ <;> rintro rfl <;> exact absurd h (by decide)

/-- **The drive of a name that is typed.**

**Proof sketch.** Without a drive the character behind the first one is of the name or the first of
the rest, and neither is a colon. With a drive it is the colon, and subtracting `40` from the
letter gives the drive. -/
lemma driveOf_typed (cdrive : UInt8) (n : ℕ) {drive : Option UInt8} {base r : List UInt8}
    (hb : Word base) (hr : r.headD 0 ≠ ch ':')
    (hdrive : ∀ a, drive = some a → 1 ≤ a.toNat ∧ a.toNat ≤ 16) (hnone : drive = none → base ≠ []) :
    driveOf cdrive (nonBlank (List.replicate n (ch ' ') ++
      ((drive.elim [] fun a => [a + 0x40, ch ':']) ++ (base ++ r)))) =
      (drive.getD cdrive, drive.getD 0, base ++ r) := by
  cases drive with
  | none =>
    cases base with
    | nil => exact absurd rfl (hnone rfl)
    | cons b base =>
      obtain ⟨hblank, -, -⟩ := wordy_ne (hb b List.mem_cons_self)
      simp only [Option.elim_none, List.nil_append, List.cons_append, Option.getD_none]
      rw [nonBlank_append n b _ hblank, driveOf, if_neg]
      rintro ⟨-, hcolon⟩
      cases base with
      | nil => exact hr hcolon
      | cons c base => exact (wordy_ne (hb c (by simp))).2.2 hcolon
  | some a =>
    obtain ⟨h1, h16⟩ := hdrive a rfl
    have hnat : (a + 0x40).toNat = a.toNat + 64 := by
      rw [UInt8.toNat_add, show UInt8.toNat 0x40 = 64 from rfl]
      omega
    have hblank : a + 0x40 ≠ ch ' ' := by
      intro h
      rw [h, show (ch ' ').toNat = 32 from rfl] at hnat
      omega
    have hzero : a + 0x40 ≠ 0 := by
      intro h
      rw [h, show UInt8.toNat 0 = 0 from rfl] at hnat
      omega
    simp only [Option.elim_some, List.cons_append, List.nil_append, Option.getD_some]
    rw [nonBlank_append n _ _ hblank, driveOf, if_pos ⟨hzero, rfl⟩]
    simp only [List.headD_cons, List.tail_cons, UInt8.add_sub_cancel]

/-- **A name that fits a field**: a word without a star, of at most `n` characters. -/
structure Short (n : ℕ) (w : List UInt8) : Prop where
  word : Word w
  star : ch '*' ∉ w
  length : w.length ≤ n

/-- **A name that is typed is the name in the file control block.** For every drive or none, every
name of at most eight and every extension of at most three characters, after any blanks and in front
of any delimiter that does not belong to the name: the fields have these characters and blanks
behind them, the drive is the typed one or the current one, and the rest of the line is left. -/
theorem convert_typed (cdrive : UInt8) (n : ℕ) (drive : Option UInt8) (base : List UInt8)
    (ext : Option (List UInt8)) (rest : List UInt8) (hb : Short 8 base)
    (he : Short 3 (ext.getD [])) (hrest : check rest = some true)
    (hext : ext = none → rest.headD 0 ≠ ch '.' ∧ rest.headD 0 ≠ ch ':')
    (hdrive : ∀ a, drive = some a → 1 ≤ a.toNat ∧ a.toNat ≤ 16) (hnone : drive = none → base ≠ []) :
    convert cdrive (List.replicate n (ch ' ') ++ (spell drive base ext ++ rest)) =
      some ⟨drive.getD cdrive, drive.getD 0, base ++ List.replicate (8 - base.length) (ch ' '),
        ext.getD [] ++ List.replicate (3 - (ext.getD []).length) (ch ' '), rest⟩ := by
  have hcolon : ((ext.elim [] fun e => ch '.' :: e) ++ rest).headD 0 ≠ ch ':' := by
    cases ext with
    | none => exact (hext rfl).2
    | some e =>
      show ch '.' ≠ ch ':'
      decide
  have hline : spell drive base ext ++ rest = (drive.elim [] fun a => [a + 0x40, ch ':']) ++
      (base ++ ((ext.elim [] fun e => ch '.' :: e) ++ rest)) := by
    simp only [spell, List.append_assoc]
  rw [convert_eq, hline, driveOf_typed cdrive n hb.word hcolon hdrive hnone,
    parts_typed hb.word he.word hrest fun h => (hext h).1, Option.map_some,
    glob_pad hb.star hb.length, glob_pad he.star he.length]

/-- `convert_typed` for the name `b:stat.com` in front of a parameter. -/
theorem convert_typed_stat :
    convert 0 ([ch ' '] ++ (spell (some 2) [ch 'S', ch 'T', ch 'A', ch 'T']
      (some [ch 'C', ch 'O', ch 'M']) ++ [ch ' ', ch 'X'])) =
      some ⟨2, 2, [ch 'S', ch 'T', ch 'A', ch 'T', ch ' ', ch ' ', ch ' ', ch ' '],
        [ch 'C', ch 'O', ch 'M'], [ch ' ', ch 'X']⟩ :=
  convert_typed 0 1 (some 2) [ch 'S', ch 'T', ch 'A', ch 'T'] (some [ch 'C', ch 'O', ch 'M'])
    [ch ' ', ch 'X']
    ⟨word_cons (by decide) (word_cons (by decide) (word_cons (by decide)
      (word_cons (by decide) word_nil))), by decide, by decide⟩
    ⟨word_cons (by decide) (word_cons (by decide) (word_cons (by decide) word_nil)), by decide,
      by decide⟩
    (by decide) (by decide) (by rintro a ⟨⟩; decide) (by decide)

/-! ## The names that a pattern stands for -/

/-- **The names that a word stands for** in a field of `n` characters: a question mark stands for
any character, a star for any end of the name, and the end of the word for blanks. Attributes do
not count, and neither do characters behind the field. -/
def Fitted : ℕ → List UInt8 → (ℕ → ℕ) → Prop
  | 0, _, _ => True
  | n + 1, [], name => name 0 = 32 ∧ Fitted n [] fun i => name (i + 1)
  | n + 1, a :: w, name => a = ch '*' ∨
    ((a = ch '?' ∨ a.toNat % 128 = name 0) ∧ Fitted n w fun i => name (i + 1))

/-- A character of a field agrees with one of a name. -/
def Agrees (x : UInt8) (c : ℕ) : Prop := x = ch '?' ∨ x.toNat % 128 = c

/-- The end of a word in a field. -/
lemma glob_nil (n : ℕ) : glob n [] = List.replicate n (ch ' ') := by
  cases n with
  | zero => rfl
  | succ n => rfl

/-- **The field of a word agrees with the names that the word stands for.**

**Proof sketch.** Induction on the length of the field. A blank stands for a blank only, a question
mark for any character, and a character that is copied for itself. -/
lemma fitted_iff (n : ℕ) (w : List UInt8) (name : ℕ → ℕ) :
    Fitted n w name ↔ ∀ i < n, Agrees ((glob n w).getD i 0) (name i) := by
  induction n generalizing w name with
  | zero => simp [Fitted]
  | succ n ih =>
    rw [Nat.forall_lt_succ_left]
    cases w with
    | nil =>
      have hblank : Agrees (ch ' ') (name 0) ↔ name 0 = 32 := by
        unfold Agrees
        rw [show (ch ' ').toNat % 128 = 32 from rfl, or_iff_right (by decide), eq_comm]
      rw [Fitted, ih, glob_nil, glob_nil, List.replicate_succ]
      simp only [List.getD_cons_zero, List.getD_cons_succ, hblank]
    | cons a w =>
      by_cases hstar : a = ch '*'
      · subst hstar
        rw [Fitted, glob_star]
        refine iff_of_true (.inl rfl) ⟨.inl ?_, fun i hi => .inl ?_⟩
        · rw [List.replicate_succ, List.getD_cons_zero]
        · rw [List.replicate_succ, List.getD_cons_succ, List.getD_replicate _ hi]
      · rw [Fitted, or_iff_right hstar, ih, glob, if_neg hstar]
        simp only [List.getD_cons_zero, List.getD_cons_succ, Agrees]

section Stands

variable {c : Converted} (e : CpmDir)

/-- The name is in front of the blocks. -/
lemma byte_lt (i : Fin 12) : i.val < 32 := by omega

/-- The bytes of the file control block. -/
lemma toBytes_put (i : Fin 12) : (c.put e).toBytes ⟨i, byte_lt i⟩ =
    if i.val = 0 then c.drive else if i.val < 9 then c.fx.getD (i - 1) 0
    else c.ex.getD (i - 9) 0 := by
  have hi := i.isLt
  simp only [CpmDir.toBytes]
  by_cases h0 : i.val = 0
  · rw [dif_pos (by omega), if_pos h0]
    rfl
  · rw [dif_neg (by omega), if_neg h0]
    by_cases h9 : i.val < 9
    · rw [dif_pos h9, if_pos h9]
      rfl
    · rw [dif_neg h9, if_neg h9, dif_pos hi]
      rfl

/-- **The names that a converted name stands for**, by its fields.

**Proof sketch.** The first twelve bytes are the drive, the eight characters of the name and the
three of the extension, so that the comparison of all bytes is the three comparisons of the fields.
-/
lemma matches_put_iff (name : ℕ → ℕ) : Matches (c.put e) (fun i => name i) ↔
    Agrees c.drive (name 0) ∧ (∀ i < 8, Agrees (c.fx.getD i 0) (name (i + 1))) ∧
      ∀ i < 3, Agrees (c.ex.getD i 0) (name (i + 9)) := by
  have hbyte : Matches (c.put e) (fun i => name i) ↔
      ∀ i : Fin 12, Agrees ((c.put e).toBytes ⟨i, by omega⟩) (name i) := Iff.rfl
  rw [hbyte]
  simp only [toBytes_put]
  constructor
  · intro h
    refine ⟨h 0, fun i hi => ?_, fun i hi => ?_⟩
    · have hat := h ⟨i + 1, by omega⟩
      simp only at hat
      rwa [if_neg (by omega), if_pos (by omega), Nat.add_sub_cancel] at hat
    · have hat := h ⟨i + 9, by omega⟩
      simp only at hat
      rwa [if_neg (by omega), if_neg (by omega), Nat.add_sub_cancel] at hat
  · rintro ⟨h0, h8, h3⟩ i
    have hi := i.isLt
    by_cases hz : i.val = 0
    · rw [if_pos hz, hz]
      exact h0
    · rw [if_neg hz]
      by_cases h9 : i.val < 9
      · have hat := h8 (i - 1) (by omega)
        rw [show i.val - 1 + 1 = i.val by omega] at hat
        rwa [if_pos h9]
      · have hat := h3 (i - 9) (by omega)
        rw [show i.val - 9 + 9 = i.val by omega] at hat
        rwa [if_neg h9]

/-- A field without question marks. -/
lemma getD_ne_mark {l : List UInt8} (h : ch '?' ∉ l) (i : ℕ) : l.getD i 0 ≠ ch '?' := by
  by_cases hi : i < l.length
  · rw [List.getD_eq_getElem _ _ hi]
    exact fun heq => h (heq ▸ List.getElem_mem hi)
  · rw [List.getD_eq_default _ _ (by omega)]
    decide

/-- **A converted name without question marks** is plain. -/
lemma plain_put (hmarks : c.marks = 0) (huser : c.drive.toNat < 32) : Plain (c.put e) := by
  have hnone := List.count_eq_zero.mp hmarks
  rw [List.mem_append, not_or] at hnone
  refine ⟨huser, fun i => ?_⟩
  rw [toBytes_put]
  split
  · intro h
    have h63 : c.drive.toNat = 63 := congrArg UInt8.toNat h
    omega
  · split
    · exact getD_ne_mark hnone.1 _
    · exact getD_ne_mark hnone.2 _

end Stands

/-- **The files that a typed pattern stands for.** For every line that is converted, and the user
that `DSELECT` and `AUTOSEL` store in place of the drive: the search of the BDOS for the converted
name agrees exactly with the names of the user for which both words of the line stand; and if no
question mark was returned it is a name that stands for itself only. -/
theorem convert_stands (cdrive user : UInt8) (line : List UInt8) (c : Converted)
    (h : convert cdrive line = some c) (e : CpmDir) :
    ∃ base ext, parts (driveOf cdrive (nonBlank line)).2.2 = some (base, ext, c.rest) ∧
      (∀ name : ℕ → ℕ, Matches (({ c with drive := user } : Converted).put e) (fun i => name i) ↔
        Agrees user (name 0) ∧ Fitted 8 base (fun i => name (i + 1)) ∧
          Fitted 3 ext fun i => name (i + 9)) ∧
      (c.marks = 0 → user.toNat < 32 → Plain (({ c with drive := user } : Converted).put e)) := by
  rw [convert_eq] at h
  obtain ⟨⟨base, ext, rest⟩, hp, rfl⟩ := Option.map_eq_some_iff.mp h
  refine ⟨base, ext, hp, fun name => ?_, fun hmarks huser => ?_⟩
  · rw [matches_put_iff, fitted_iff, fitted_iff]
  · exact plain_put e hmarks huser

/-- The line with the pattern `s*.com`. -/
def starLine : List UInt8 := [ch 'S', ch '*', ch '.', ch 'C', ch 'O', ch 'M']

/-- What it is converted to. -/
def starName : Converted :=
  ⟨0, 0, ch 'S' :: List.replicate 7 (ch '?'), [ch 'C', ch 'O', ch 'M'], []⟩

/-- `convert_stands` for that line and user 3: it stands for the names of this user with an `S` in
front and this extension. -/
theorem convert_stands_star : convert 0 starLine = some starName ∧
    ∀ name : ℕ → ℕ, Matches (({ starName with drive := 3 } : Converted).put CpmDir.empty)
        (fun i => name i) ↔ Agrees 3 (name 0) ∧
      Fitted 8 [ch 'S', ch '*'] (fun i => name (i + 1)) ∧
      Fitted 3 [ch 'C', ch 'O', ch 'M'] fun i => name (i + 9) := by
  have hconvert : convert 0 starLine = some starName := by decide
  obtain ⟨base, ext, hp, hm, -⟩ := convert_stands 0 3 starLine starName hconvert CpmDir.empty
  have hparts : parts (driveOf 0 (nonBlank starLine)).2.2 =
      some ([ch 'S', ch '*'], [ch 'C', ch 'O', ch 'M'], []) := by decide
  rw [hparts, Option.some.injEq, Prod.mk.injEq, Prod.mk.injEq] at hp
  obtain ⟨rfl, rfl, -⟩ := hp
  exact ⟨hconvert, hm⟩

end Ccp

end Cpm22
