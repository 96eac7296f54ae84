import Mathlib.Tactic.IntervalCases
import Cpm22.Ccp.Names

set_option relaxedAutoImplicit false
set_option autoImplicit false

/-!
# The numbers of a command line

`SAVE` and `USER` take a number, which `DECODE` reads from the converted file name: digits, and only
blanks behind them. The sum is one byte, and the routine looks for an overflow before and after each
of its additions. This file shows that it accepts exactly the numbers below 256.

## Main definitions

* `Cpm22.Ccp.decode`, `Cpm22.Ccp.user` — the routine, and the command `USER`.
* `Cpm22.Ccp.number` — the number that digits are.

## Main results

* `Cpm22.Ccp.decode_typed` — a number that is typed.
* `Cpm22.Ccp.user_exact` — the users that can be chosen.
-/

namespace Cpm22

namespace Ccp

open Bdos BitMap

/-! ## The routine -/

/-- `ADD` and `JP C,SYNERR`: a sum without a carry. -/
def addByte (a b : UInt8) : Option UInt8 := if a.toNat + b.toNat < 256 then some (a + b) else none

/-- **A round of `DECODE1`** for a character that is no blank: ten times the sum and the digit. -/
def decodeDigit (b a : UInt8) : Option UInt8 :=
  if a - ch '0' < 10 then
    if b &&& 0xe0 = 0 then
      (addByte (rotl (rotl (rotl b))) b).bind fun x =>
        (addByte x b).bind fun x => addByte x (a - ch '0')
    else none
  else none

/-- `DECODE3`: blanks must follow. -/
def decode3 (b : UInt8) : List UInt8 → Option UInt8
  | [] => some b
  | a :: l => if a = ch ' ' then decode3 b l else none

/-- `DECODE1`, with the sum and the characters that are left. -/
def decode1 (b : UInt8) : List UInt8 → Option UInt8
  | [] => some b
  | a :: l => if a = ch ' ' then decode3 b (a :: l) else (decodeDigit b a).bind fun b => decode1 b l

/-- **`DECODE`**: the number and the converted name, `none` where it ends in a syntax error. -/
def decode (cdrive : UInt8) (line : List UInt8) : Option (UInt8 × Converted) :=
  (convert cdrive line).bind fun c =>
    if c.chgDrv = 0 then (decode1 0 (c.fx ++ c.ex)).map fun n => (n, c) else none

/-- **`USER`**: the user that it chooses. -/
def user (cdrive : UInt8) (line : List UInt8) : Option UInt8 :=
  (decode cdrive line).bind fun (n, c) =>
    if n < 16 then if c.fx.headD 0 = ch ' ' then none else some n else none

/-! ## Digits -/

/-- A digit. -/
def IsDigit (a : UInt8) : Prop := 48 ≤ a.toNat ∧ a.toNat ≤ 57

/-- **The number that digits are**, behind the digits of `v`. -/
def number (v : ℕ) (ds : List UInt8) : ℕ := ds.foldl (fun v a => 10 * v + (a.toNat - 48)) v

/-- A number with a digit in front. -/
lemma number_cons (v : ℕ) (a : UInt8) (ds : List UInt8) :
    number v (a :: ds) = number (10 * v + (a.toNat - 48)) ds := by
  rw [number, List.foldl_cons, ← number]

/-- Digits make a number larger. -/
lemma le_number (v : ℕ) (ds : List UInt8) : v ≤ number v ds := by
  induction ds generalizing v with
  | nil => exact le_rfl
  | cons a ds ih =>
    rw [number_cons]
    have := ih (10 * v + (a.toNat - 48))
    omega

/-- The value of a digit, as it is computed. -/
lemma sub_zero_lt_iff (a : UInt8) : a - ch '0' < 10 ↔ IsDigit a := by
  have ha := a.toNat_lt
  rw [UInt8.lt_iff_toNat_lt, UInt8.toNat_sub, show (ch '0').toNat = 48 from rfl,
    show UInt8.toNat 10 = 10 from rfl, IsDigit]
  omega

/-- The value of a digit. -/
lemma toNat_digit {a : UInt8} (h : IsDigit a) : (a - ch '0').toNat = a.toNat - 48 := by
  obtain ⟨h48, h57⟩ := h
  rw [UInt8.toNat_sub, show (ch '0').toNat = 48 from rfl]
  omega

/-- A digit is no blank. -/
lemma IsDigit.ne_blank {a : UInt8} (h : IsDigit a) : a ≠ ch ' ' := by
  rintro rfl
  exact absurd h.1 (by decide)

/-! ## A round -/

/-- The upper three bits are zero below 32. -/
lemma and_e0_iff (b : UInt8) : b &&& 0xe0 = 0 ↔ b.toNat < 32 := by
  have hb := b.toNat_lt
  have hdiv : (b.toNat &&& 224) / 2 ^ 5 = b.toNat / 2 ^ 5 := by
    rw [Nat.and_div_two_pow, show 224 / 2 ^ 5 = 2 ^ 3 - 1 from rfl, Nat.and_two_pow_sub_one_eq_mod,
      Nat.mod_eq_of_lt (by omega)]
  have hmod : (b.toNat &&& 224) % 2 ^ 5 = 0 := by
    rw [Nat.and_mod_two_pow, show 224 % 2 ^ 5 = 0 from rfl, Nat.and_zero]
  rw [← UInt8.toNat_inj, UInt8.toNat_and, show UInt8.toNat 0xe0 = 224 from rfl,
    show UInt8.toNat 0 = 0 from rfl]
  omega

/-- Without the highest bit a rotation doubles. -/
lemma toNat_rotl {b : UInt8} (h : b.toNat < 128) : (rotl b).toNat = 2 * b.toNat := by
  have hlow : b.toNat >>> 7 = 0 := by
    rw [Nat.shiftRight_eq_div_pow]
    omega
  rw [rotl, UInt8.toNat_or, UInt8.toNat_shiftLeft, UInt8.toNat_shiftRight,
    show UInt8.toNat 1 % 8 = 1 from rfl, show UInt8.toNat 7 % 8 = 7 from rfl, hlow, Nat.or_zero,
    Nat.shiftLeft_eq]
  omega

/-- **A sum without a carry** is the sum. -/
lemma addByte_eq_some_iff (a b x : UInt8) : addByte a b = some x ↔ a.toNat + b.toNat = x.toNat := by
  have hx := x.toNat_lt
  rw [addByte]
  split
  · rw [Option.some.injEq, ← UInt8.toNat_inj, UInt8.toNat_add]
    omega
  · refine iff_of_false (by simp) ?_
    omega

/-- **A round adds its digit**, and fails iff there is no digit or the result is no byte.

**Proof sketch.** Below 32 three rotations multiply by eight, and adding the byte twice makes it
ten times the byte; each addition fails iff its result is no byte. From 32 on ten times the byte
is above 255 anyway. -/
lemma decodeDigit_eq_some_iff (b a x : UInt8) :
    decodeDigit b a = some x ↔ IsDigit a ∧ 10 * b.toNat + (a.toNat - 48) = x.toNat := by
  have hx := x.toNat_lt
  rw [decodeDigit]
  by_cases hdig : IsDigit a
  · rw [if_pos ((sub_zero_lt_iff a).mpr hdig), and_iff_right hdig]
    by_cases hb : b.toNat < 32
    · have h8 : (rotl (rotl (rotl b))).toNat = 8 * b.toNat := by
        have h2 := toNat_rotl (b := b) (by omega)
        have h4 := toNat_rotl (b := rotl b) (by omega)
        rw [toNat_rotl (by omega), h4, h2]
        omega
      rw [if_pos ((and_e0_iff b).mpr hb)]
      simp only [Option.bind_eq_some_iff, addByte_eq_some_iff, toNat_digit hdig, h8]
      constructor
      · rintro ⟨y, hy, z, hz, hxz⟩
        omega
      · intro h
        have h9 : (UInt8.ofNat (9 * b.toNat)).toNat = 9 * b.toNat := by
          rw [UInt8.toNat_ofNat']
          omega
        have h10 : (UInt8.ofNat (10 * b.toNat)).toNat = 10 * b.toNat := by
          rw [UInt8.toNat_ofNat']
          omega
        refine ⟨UInt8.ofNat (9 * b.toNat), ?_, UInt8.ofNat (10 * b.toNat), ?_, ?_⟩
        · rw [h9]
          omega
        · rw [h9, h10]
          omega
        · rw [h10]
          exact h
    · rw [if_neg fun h => hb ((and_e0_iff b).mp h)]
      refine iff_of_false (by simp) ?_
      omega
  · rw [if_neg fun h => hdig ((sub_zero_lt_iff a).mp h)]
    exact iff_of_false (by simp) fun h => hdig h.1

/-! ## The loops -/

/-- Only blanks follow. -/
lemma decode3_eq_some_iff (b : UInt8) (l : List UInt8) (x : UInt8) :
    decode3 b l = some x ↔ b = x ∧ l = List.replicate l.length (ch ' ') := by
  induction l with
  | nil => simp [decode3]
  | cons a l ih =>
    rw [decode3, List.length_cons, List.replicate_succ, List.cons.injEq]
    by_cases ha : a = ch ' '
    · rw [if_pos ha, ih, and_iff_right ha]
    · rw [if_neg ha]
      exact iff_of_false (by simp) fun h => ha h.2.1

/-- **Characters that are digits and then blanks**, with the number `n` behind the digits of `v`. -/
def Numeral (v : ℕ) (l : List UInt8) (n : ℕ) : Prop :=
  ∃ ds k, l = ds ++ List.replicate k (ch ' ') ∧ (∀ a ∈ ds, IsDigit a) ∧ number v ds = n

/-- Blanks only. -/
lemma numeral_blank (v : ℕ) (l : List UInt8) (n : ℕ) : Numeral v (ch ' ' :: l) n ↔
    v = n ∧ l = List.replicate l.length (ch ' ') := by
  constructor
  · rintro ⟨ds, k, hl, hds, rfl⟩
    cases ds with
    | nil =>
      obtain ⟨-, hall⟩ := List.eq_replicate_iff.mp hl
      exact ⟨rfl, List.eq_replicate_iff.mpr ⟨rfl, fun a ha => hall a (List.mem_cons_of_mem _ ha)⟩⟩
    | cons a ds =>
      obtain ⟨rfl, -⟩ := List.cons.inj hl
      exact absurd rfl (hds _ List.mem_cons_self).ne_blank
  · rintro ⟨rfl, hl⟩
    refine ⟨[], l.length + 1, ?_, by simp, rfl⟩
    rw [List.nil_append, List.replicate_succ, ← hl]

/-- A digit in front. -/
lemma numeral_cons {a : UInt8} (ha : a ≠ ch ' ') (v : ℕ) (l : List UInt8) (n : ℕ) :
    Numeral v (a :: l) n ↔ IsDigit a ∧ Numeral (10 * v + (a.toNat - 48)) l n := by
  constructor
  · rintro ⟨ds, k, hl, hds, rfl⟩
    cases ds with
    | nil =>
      obtain ⟨-, hall⟩ := List.eq_replicate_iff.mp hl
      exact absurd (hall a List.mem_cons_self) ha
    | cons a' ds =>
      obtain ⟨rfl, rfl⟩ := List.cons.inj hl
      obtain ⟨hdig, hrest⟩ := List.forall_mem_cons.mp hds
      exact ⟨hdig, ds, k, rfl, hrest, rfl⟩
  · rintro ⟨hdig, ds, k, rfl, hds, rfl⟩
    exact ⟨a :: ds, k, rfl, List.forall_mem_cons.mpr ⟨hdig, hds⟩, rfl⟩

/-- **The loop reads a numeral.** An overflow in front of the last digit is one of the whole number,
since digits only make a number larger.

**Proof sketch.** Induction on the characters. Behind a blank only blanks may follow. A digit makes
the byte ten times as large and is added (`decodeDigit_eq_some_iff`); this is a byte if the whole
number is one, since the rest makes it no smaller. -/
lemma decode1_eq_some_iff (b : UInt8) (l : List UInt8) (x : UInt8) :
    decode1 b l = some x ↔ Numeral b.toNat l x.toNat := by
  induction l generalizing b with
  | nil =>
    rw [decode1, Option.some.injEq, ← UInt8.toNat_inj]
    constructor
    · intro h
      exact ⟨[], 0, rfl, by simp, h⟩
    · rintro ⟨ds, k, hl, -, hn⟩
      obtain ⟨rfl, -⟩ := List.append_eq_nil_iff.mp hl.symm
      exact hn
  | cons a l ih =>
    rw [decode1]
    by_cases ha : a = ch ' '
    · subst ha
      rw [if_pos rfl, decode3, if_pos rfl, decode3_eq_some_iff, numeral_blank, UInt8.toNat_inj]
    · rw [if_neg ha, numeral_cons ha, Option.bind_eq_some_iff]
      simp only [decodeDigit_eq_some_iff, ih]
      constructor
      · rintro ⟨y, ⟨hdig, hy⟩, hnum⟩
        rw [hy]
        exact ⟨hdig, hnum⟩
      · rintro ⟨hdig, hnum⟩
        have hlt : 10 * b.toNat + (a.toNat - 48) < 256 := by
          obtain ⟨ds, k, -, -, hn⟩ := hnum
          have hle := le_number (10 * b.toNat + (a.toNat - 48)) ds
          have hx := x.toNat_lt
          omega
        have hnat : (UInt8.ofNat (10 * b.toNat + (a.toNat - 48))).toNat =
            10 * b.toNat + (a.toNat - 48) := by
          rw [UInt8.toNat_ofNat', Nat.mod_eq_of_lt hlt]
        exact ⟨_, ⟨hdig, hnat.symm⟩, by rwa [hnat]⟩

/-! ## What is accepted -/

/-- **The numbers that are accepted**: the line is converted without a drive, and its name and
extension together are a numeral. -/
lemma decode_eq_some_iff (cdrive : UInt8) (line : List UInt8) (n : UInt8) (c : Converted) :
    decode cdrive line = some (n, c) ↔
      convert cdrive line = some c ∧ c.chgDrv = 0 ∧ Numeral 0 (c.fx ++ c.ex) n.toNat := by
  rw [decode, Option.bind_eq_some_iff]
  have hnum (c : Converted) := decode1_eq_some_iff 0 (c.fx ++ c.ex) n
  constructor
  · rintro ⟨c', hconvert, h⟩
    split at h
    · next hdrv =>
      obtain ⟨m, hm, heq⟩ := Option.map_eq_some_iff.mp h
      obtain ⟨rfl, rfl⟩ := Prod.mk.inj heq
      exact ⟨hconvert, hdrv, (hnum c').mp hm⟩
    · cases h
  · rintro ⟨hconvert, hdrv, h⟩
    refine ⟨c, hconvert, ?_⟩
    rw [if_pos hdrv, (hnum c).mpr h, Option.map_some]

/-- The number of a numeral is that of its digits. -/
lemma numeral_append {ds : List UInt8} (hds : ∀ a ∈ ds, IsDigit a) (v k n : ℕ) :
    Numeral v (ds ++ List.replicate k (ch ' ')) n ↔ number v ds = n := by
  induction ds generalizing v with
  | nil =>
    cases k with
    | zero =>
      constructor
      · rintro ⟨ds, k, hl, -, hn⟩
        obtain ⟨rfl, -⟩ := List.append_eq_nil_iff.mp hl.symm
        exact hn
      · intro h
        exact ⟨[], 0, rfl, by simp, h⟩
    | succ k =>
      rw [List.nil_append, List.replicate_succ, numeral_blank, List.length_replicate]
      exact and_iff_left rfl
  | cons a ds ih =>
    obtain ⟨ha, hds⟩ := List.forall_mem_cons.mp hds
    rw [List.cons_append, numeral_cons ha.ne_blank, ih hds, and_iff_right ha, number_cons]

/-- Digits are characters of a word, and no stars. -/
lemma IsDigit.wordy {a : UInt8} (h : IsDigit a) : Ccp.wordy a = true ∧ a ≠ ch '*' := by
  obtain ⟨h48, h57⟩ := h
  rw [← UInt8.ofNat_toNat (x := a)]
  generalize a.toNat = m at h48 h57
  interval_cases m <;> exact ⟨by decide, by decide⟩

/-- **A number that is typed.** For all digits, eight at most and after any blanks, in front of any
delimiter that does not belong to the name: the number below 256 that they are is read, with leading
zeros or without, and the rest of the line is left; a larger number is an error.

**Proof sketch.** `CONVERT` takes the digits as a name without extension and fills it with blanks
(`driveOf_typed`, `parts_typed`, `glob_pad`). The loop over these eleven characters reads a numeral
(`decode1_eq_some_iff`), and its value is a byte iff the number is below 256. -/
theorem decode_typed (cdrive : UInt8) (k : ℕ) (ds rest : List UInt8) (hds : ∀ a ∈ ds, IsDigit a)
    (hne : ds ≠ []) (hlen : ds.length ≤ 8) (hrest : check rest = some true)
    (hdot : rest.headD 0 ≠ ch '.') (hcolon : rest.headD 0 ≠ ch ':') :
    (decode cdrive (List.replicate k (ch ' ') ++ (ds ++ rest))).map
        (fun r => (r.1.toNat, r.2.rest)) =
      if number 0 ds < 256 then some (number 0 ds, rest) else none := by
  have hw : Word ds := fun a ha => (hds a ha).wordy.1
  have hstar : ch '*' ∉ ds := fun h => (hds _ h).wordy.2 rfl
  have hconvert : convert cdrive (List.replicate k (ch ' ') ++ (ds ++ rest)) =
      some ⟨cdrive, 0, ds ++ List.replicate (8 - ds.length) (ch ' '),
        List.replicate 3 (ch ' '), rest⟩ := by
    have hdrive : driveOf cdrive (nonBlank (List.replicate k (ch ' ') ++ (ds ++ rest))) =
        (cdrive, 0, ds ++ rest) := by
      have hnone (a : UInt8) (h : none = some a) : 1 ≤ a.toNat ∧ a.toNat ≤ 16 := by cases h
      exact driveOf_typed cdrive k hw hcolon hnone fun _ => hne
    have hparts : parts (ds ++ rest) = some (ds, [], rest) := by
      have hnone : Word ((none : Option (List UInt8)).getD []) := word_nil
      exact parts_typed hw hnone hrest fun _ => hdot
    rw [convert_eq, hdrive, hparts, Option.map_some, glob_pad hstar hlen, glob_nil]
  have hfields : ds ++ List.replicate (8 - ds.length) (ch ' ') ++ List.replicate 3 (ch ' ') =
      ds ++ List.replicate (8 - ds.length + 3) (ch ' ') := by
    rw [List.append_assoc, List.replicate_append_replicate]
  rw [decode, hconvert, Option.bind_some, if_pos rfl, hfields, Option.map_map]
  -- the loop returns a byte exactly if the number is one
  have hloop (n : UInt8) : decode1 0 (ds ++ List.replicate (8 - ds.length + 3) (ch ' ')) = some n ↔
      number 0 ds = n.toNat := by
    rw [decode1_eq_some_iff]
    exact numeral_append hds _ _ _
  by_cases hlt : number 0 ds < 256
  · have hnat : (UInt8.ofNat (number 0 ds)).toNat = number 0 ds := by
      rw [UInt8.toNat_ofNat', Nat.mod_eq_of_lt hlt]
    rw [if_pos hlt, (hloop (UInt8.ofNat (number 0 ds))).mpr hnat.symm, Option.map_some,
      Function.comp, hnat]
  · rw [if_neg hlt, Option.map_eq_none_iff, Option.eq_none_iff_forall_ne_some]
    intro n hn
    have hbyte := n.toNat_lt
    exact hlt ((hloop n).mp hn ▸ hbyte)

/-- `decode_typed` for the number 255 in front of a name, and for 256. -/
theorem decode_typed_byte :
    (decode 0 ([ch ' '] ++ ([ch '2', ch '5', ch '5'] ++ [ch ' ', ch 'A']))).map
        (fun r => (r.1.toNat, r.2.rest)) = some (255, [ch ' ', ch 'A']) ∧
      (decode 0 ([ch ' '] ++ ([ch '2', ch '5', ch '6'] ++ [ch ' ', ch 'A']))).map
        (fun r => (r.1.toNat, r.2.rest)) = none := by
  have hdigits (a : UInt8) (ha : IsDigit a) : ∀ x ∈ [ch '2', ch '5', a], IsDigit x :=
    List.forall_mem_cons.mpr ⟨⟨by decide, by decide⟩, List.forall_mem_cons.mpr
      ⟨⟨by decide, by decide⟩, List.forall_mem_singleton.mpr ha⟩⟩
  exact ⟨decode_typed 0 1 [ch '2', ch '5', ch '5'] [ch ' ', ch 'A']
      (hdigits _ ⟨by decide, by decide⟩) (by simp) (by decide) (by decide) (by decide) (by decide),
    decode_typed 0 1 [ch '2', ch '5', ch '6'] [ch ' ', ch 'A']
      (hdigits _ ⟨by decide, by decide⟩) (by simp) (by decide) (by decide) (by decide) (by decide)⟩

/-- The name has eight characters. -/
lemma convert_length {cdrive : UInt8} {line : List UInt8} {c : Converted}
    (h : convert cdrive line = some c) : c.fx.length = 8 := by
  rw [convert_eq] at h
  obtain ⟨p, hp, rfl⟩ := Option.map_eq_some_iff.mp h
  exact (isField_glob 8 (parts_some hp).1).1

/-- The name of a numeral starts with a blank iff there is no digit. -/
lemma head_blank_iff {fx ex ds : List UInt8} {k : ℕ} (hfx : fx ≠ [])
    (h : fx ++ ex = ds ++ List.replicate k (ch ' ')) (hds : ∀ a ∈ ds, IsDigit a) :
    fx.headD 0 = ch ' ' ↔ ds = [] := by
  cases fx with
  | nil => exact absurd rfl hfx
  | cons a fx =>
    rw [List.headD_cons]
    cases ds with
    | nil =>
      obtain ⟨-, hall⟩ := List.eq_replicate_iff.mp h
      exact iff_of_true (hall a List.mem_cons_self) rfl
    | cons b ds =>
      obtain ⟨rfl, -⟩ := List.cons.inj h
      exact iff_of_false (hds a List.mem_cons_self).ne_blank (by simp)

/-- **The users that can be chosen, for every line.** `USER` chooses a user exactly where the line
is converted without a drive and has at least one digit, and its digits with only blanks behind them
are the number of the user, which is below 16.

**Proof sketch.** By `decode_eq_some_iff` the number is the one of the digits. The number is chosen
iff it is below 16 and the line does not begin with a blank, which it does iff there is no digit
(`head_blank_iff`). -/
theorem user_exact (cdrive : UInt8) (line : List UInt8) (n : UInt8) :
    user cdrive line = some n ↔ n.toNat < 16 ∧ ∃ c ds k, convert cdrive line = some c ∧
      c.chgDrv = 0 ∧ c.fx ++ c.ex = ds ++ List.replicate k (ch ' ') ∧ ds ≠ [] ∧
      (∀ a ∈ ds, IsDigit a) ∧ number 0 ds = n.toNat := by
  have h16 (m : UInt8) : m < 16 ↔ m.toNat < 16 := UInt8.lt_iff_toNat_lt
  have hfx {c : Converted} (h : convert cdrive line = some c) : c.fx ≠ [] :=
    List.ne_nil_of_length_pos (by rw [convert_length h]; decide)
  rw [user, Option.bind_eq_some_iff]
  constructor
  · rintro ⟨⟨m, c⟩, hdecode, h⟩
    obtain ⟨hconvert, hdrv, ds, k, hl, hds, hnum⟩ := (decode_eq_some_iff ..).mp hdecode
    dsimp only at h
    split at h
    · next hlt =>
      split at h
      · cases h
      · next hblank =>
        obtain rfl := Option.some.inj h
        exact ⟨(h16 m).mp hlt, c, ds, k, hconvert, hdrv, hl,
          fun hnil => hblank ((head_blank_iff (hfx hconvert) hl hds).mpr hnil), hds, hnum⟩
    · cases h
  · rintro ⟨hlt, c, ds, k, hconvert, hdrv, hl, hne, hds, hnum⟩
    refine ⟨(n, c), (decode_eq_some_iff ..).mpr ⟨hconvert, hdrv, ds, k, hl, hds, hnum⟩, ?_⟩
    have hblank : ¬ c.fx.headD 0 = ch ' ' :=
      fun h => hne ((head_blank_iff (hfx hconvert) hl hds).mp h)
    simp only [if_pos ((h16 n).mpr hlt), if_neg hblank]

end Ccp

end Cpm22
