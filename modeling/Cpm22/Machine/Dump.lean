import Mathlib.Data.Nat.Digits.Lemmas
import Cpm22.Machine.Monitor

set_option relaxedAutoImplicit false
set_option autoImplicit false

/-!
# The memory dump of the monitor

`D` copies a range of the memory to a string stream and takes the bytes out again with `mem >> c`,
sixteen to a line, with their characters behind each full line. The extraction skips white space,
so that blanks, tabs and line ends of the memory are missing from the dump, and the bytes behind
them stand in their places; at the end of the stream `c` is left as it was.

## Main definitions

* `Cpm22.Monitor.layout` — a dump of given bytes.
* `Cpm22.Monitor.printed` — the bytes that are printed.
* `Cpm22.Monitor.ShowsMemory` — what `D` is to print, and where the next `D` goes on.

## Main results

* `Cpm22.Monitor.bytes_layout`, `Cpm22.Monitor.hexText_inj` — a dump determines its bytes, and so
  do their texts.
* `Cpm22.Monitor.dump_eq` — the dump lays out the bytes of the range without white space.
* `Cpm22.Monitor.showsMemory_iff` — `D` shows the memory iff no byte of the range is white space.
-/

namespace Cpm22.Monitor

variable {F C : Type}

/-! ## The layout of a dump -/

/-- Round `n` of a dump of the bytes `f`: the head of a line or a comma, the byte, and behind a
full line its characters. -/
def cell (pc : ℕ) (f : ℕ → UInt8) (n : ℕ) : List (Item F) :=
  (if n % 16 = 0 then Item.address (pc + n) else .comma) :: .byte (f n) ::
    if n % 16 = 15 then [.column ((List.range 16).map fun i => printable (f (n - 15 + i)))] else []

/-- **A dump of the bytes `f`**: `cnt` of them, from the address `pc` on. -/
def layout (pc : ℕ) (f : ℕ → UInt8) (cnt : ℕ) : List (Item F) :=
  (List.range cnt).flatMap (cell pc f)

/-- **What `D` is to do** with the address `pc` and the count `cnt`: it prints the bytes of the
range, and the next `D` without an address goes on behind it. -/
structure ShowsMemory (env : Env F C) (pc cnt : UInt16) (s s' : State F C) : Prop where
  printed : s'.out = s.out ++
    layout pc.toNat (fun n => env.ram s.cpu ((pc.toNat + n) % 0x10000)) cnt.toNat
  continues : ∀ input, (extract env.uint16 input).1 = none →
    (dParams env.uint16 s'.pc input).1.toNat = (pc.toNat + cnt.toNat) % 0x10000

/-- The byte of an item. -/
def Item.byteOf : Item F → Option UInt8
  | .byte c => some c
  | _ => none

/-- The byte of a round. -/
lemma byteOf_cell (pc : ℕ) (f : ℕ → UInt8) (n : ℕ) :
    (cell pc f n : List (Item F)).filterMap Item.byteOf = [f n] := by
  have hhead : (if n % 16 = 0 then Item.address (pc + n) else .comma : Item F).byteOf = none := by
    split <;> rfl
  have hbyte : (Item.byte (f n) : Item F).byteOf = some (f n) := rfl
  unfold cell
  rw [List.filterMap_cons_none hhead, List.filterMap_cons_some hbyte]
  split <;> rfl

/-- **A dump determines its bytes.** -/
lemma bytes_layout (pc : ℕ) (f : ℕ → UInt8) (cnt : ℕ) :
    (layout pc f cnt : List (Item F)).filterMap Item.byteOf = (List.range cnt).map f := by
  induction cnt with
  | zero => rfl
  | succ cnt ih =>
    rw [layout, List.range_succ, List.flatMap_append, List.filterMap_append, List.map_append]
    refine congrArg₂ _ ih ?_
    simp [byteOf_cell]

/-- Dumps of the same bytes are the same. -/
lemma layout_congr (pc : ℕ) {f g : ℕ → UInt8} {cnt : ℕ} (h : ∀ n < cnt, f n = g n) :
    (layout pc f cnt : List (Item F)) = layout pc g cnt := by
  apply List.flatMap_congr
  intro n hn
  have hlt := List.mem_range.mp hn
  unfold cell
  rw [h n hlt]
  by_cases h15 : n % 16 = 15
  · have hrow : (List.range 16).map (fun i => printable (f (n - 15 + i))) =
        (List.range 16).map fun i => printable (g (n - 15 + i)) := by
      apply List.map_congr_left
      intro i hi
      have hi := List.mem_range.mp hi
      rw [h (n - 15 + i) (by omega)]
    rw [if_pos h15, if_pos h15, hrow]
  · rw [if_neg h15, if_neg h15]

/-- The value of a text of hexadecimal digits. -/
def hexValue (digits : List Char) : ℕ :=
  digits.foldl (fun v d => 16 * v + if d.isDigit then d.toNat - 48 else d.toNat - 87) 0

/-- **The text of a byte determines it.** -/
lemma hexText_inj {a b : UInt8} (h : hexText 2 a.toNat = hexText 2 b.toNat) : a = b := by
  have hvalue : ∀ n < 256, hexValue ((Nat.toDigits 16 n).leftpad 2 '0') = n := by decide +kernel
  have hlist := congrArg hexValue (String.ofList_injective h)
  rw [hvalue _ a.toNat_lt, hvalue _ b.toNat_lt] at hlist
  exact UInt8.toNat_inj.mp hlist

/-! ## What the loop prints -/

/-- The bytes that are left in a stream, without white space. -/
def left (mem : IStream) : List UInt8 :=
  if mem.good then mem.rest.filter fun c => !isspace c else []

/-- **The bytes that are printed** for a string stream: its bytes without white space, and then
whatever `c` holds. -/
def printed (stale : ℕ → UInt8) (bytes : List UInt8) (n : ℕ) : UInt8 :=
  ((bytes.filter fun c => !isspace c)[n]?).getD (stale n)

/-- White space at the start is filtered out. -/
lemma filter_dropWhile (w : List UInt8) :
    (w.dropWhile isspace).filter (fun c => !isspace c) = w.filter fun c => !isspace c := by
  induction w with
  | nil => rfl
  | cons c w ih =>
    by_cases h : isspace c = true
    · rw [List.dropWhile_cons_of_pos h, List.filter_cons_of_neg (by simp [h]), ih]
    · rw [List.dropWhile_cons_of_neg h]

/-- **An extraction takes the next byte that is no white space.** -/
lemma extractChar_left (mem : IStream) :
    (extractChar mem).1 = (left mem).head? ∧ left (extractChar mem).2 = (left mem).tail := by
  unfold extractChar left
  by_cases h : mem.good = true
  · rw [if_pos h, if_pos h, ← filter_dropWhile]
    cases hw : mem.rest.dropWhile isspace with
    | nil => exact ⟨rfl, rfl⟩
    | cons c rest =>
      have hc : isspace c = false := by
        have hhead := List.head?_dropWhile_not isspace mem.rest
        rw [hw] at hhead
        simpa using hhead
      simp [hc]
  · rw [if_neg h, if_neg h]
    exact ⟨rfl, by simp⟩

/-- The characters of the line so far, before round `n`. -/
def row (f : ℕ → UInt8) (n : ℕ) : List UInt8 :=
  (List.range (n % 16)).map fun i => printable (f (n - n % 16 + i))

/-- A round adds its character to the line. -/
lemma row_append (f : ℕ → UInt8) (n : ℕ) :
    row f n ++ [printable (f n)] =
      (List.range (n % 16 + 1)).map fun i => printable (f (n - n % 16 + i)) := by
  have hn : n - n % 16 + n % 16 = n := Nat.sub_add_cancel (Nat.mod_le n 16)
  rw [row, List.range_succ, List.map_append]
  simp [hn]

/-- Before a round that is not the last of a line, the line goes on. -/
lemma row_succ {f : ℕ → UInt8} {n : ℕ} (h : n % 16 ≠ 15) :
    row f (n + 1) = row f n ++ [printable (f n)] := by
  have hmod : (n + 1) % 16 = n % 16 + 1 := by omega
  have hstart : n + 1 - (n % 16 + 1) = n - n % 16 := by omega
  rw [row_append, row, hmod, hstart]

/-- Behind the last round of a line, a new one starts. -/
lemma row_new {f : ℕ → UInt8} {n : ℕ} (h : n % 16 = 15) : row f (n + 1) = [] := by
  have hmod : (n + 1) % 16 = 0 := by omega
  rw [row, hmod]
  rfl

/-- **The loop lays out the printed bytes.**

**Proof sketch.** Induction on the rounds that are left. Before round `n` the stream has the bytes
from `n` on, without white space, and `ascii` the characters of the line so far. -/
lemma dumpLoop_eq (stale : ℕ → UInt8) (pc : ℕ) (bytes : List UInt8) (k : ℕ) :
    ∀ n mem, left mem = (bytes.filter fun c => !isspace c).drop n →
      (dumpLoop stale pc k n mem (row (printed stale bytes) n) : List (Item F)) =
        (List.range' n k).flatMap (cell pc (printed stale bytes)) := by
  induction k with
  | zero =>
    intro n mem _
    rfl
  | succ k ih =>
    intro n mem hmem
    obtain ⟨hgot, hleft⟩ := extractChar_left mem
    have hc : (extractChar mem).1.getD (stale n) = printed stale bytes n := by
      rw [hgot, hmem, List.head?_drop, printed]
    have hmem' : left (extractChar mem).2 =
        (bytes.filter fun c => !isspace c).drop (n + 1) := by
      rw [hleft, hmem, List.tail_drop]
    have hrest := ih (n + 1) _ hmem'
    rw [List.range'_succ, List.flatMap_cons, ← hrest, dumpLoop]
    simp only [hc]
    by_cases h15 : n % 16 = 15
    · have hrow : row (printed stale bytes) n ++ [printable (printed stale bytes n)] =
          (List.range 16).map fun i => printable (printed stale bytes (n - 15 + i)) := by
        rw [row_append, h15]
      rw [if_pos h15, row_new h15, hrow, cell, if_pos h15]
      rfl
    · rw [if_neg h15, row_succ h15, cell, if_neg h15]
      rfl

/-- **The dump lays out the bytes of the range without white space.** -/
theorem dump_eq (stale : ℕ → UInt8) (ram : ℕ → UInt8) (pc cnt : UInt16) :
    (dump stale ram pc cnt : List (Item F)) = layout pc.toNat
      (printed stale (Circular.load 0x10000 ram pc.toNat cnt.toNat)) cnt.toNat := by
  have hread : Cpu.readmemStream ram ⟨[], true, none⟩ pc cnt =
      some (⟨Circular.load 0x10000 ram pc.toNat cnt.toNat, true, none⟩, 0) := by
    rw [Cpu.readmemStream_eq rfl rfl]
    rfl
  have hloop := dumpLoop_eq (F := F) stale pc.toNat
    (Circular.load 0x10000 ram pc.toNat cnt.toNat) cnt.toNat 0
    ⟨Circular.load 0x10000 ram pc.toNat cnt.toNat, true⟩ rfl
  rw [dump, hread, layout, List.range_eq_range']
  exact hloop

/-- Without white space in the range, the bytes that are printed are those of the memory. -/
lemma printed_of_no_space (stale : ℕ → UInt8) (ram : ℕ → UInt8) (a k : ℕ)
    (h : ∀ n < k, isspace (ram ((a + n) % 0x10000)) = false) {n : ℕ} (hn : n < k) :
    printed stale (Circular.load 0x10000 ram a k) n = ram ((a + n) % 0x10000) := by
  have hall : (Circular.load 0x10000 ram a k).filter (fun c => !isspace c) =
      Circular.load 0x10000 ram a k := by
    apply List.filter_eq_self.mpr
    intro c hc
    obtain ⟨i, hi, rfl⟩ := List.mem_map.mp hc
    rw [h i (List.mem_range.mp hi)]
    rfl
  rw [printed, hall, Circular.load, List.getElem?_map, List.getElem?_range hn]
  rfl

/-- A byte that was extracted is no white space. -/
lemma isspace_printed {stale : ℕ → UInt8} {n : ℕ} (h : isspace (stale n) = false)
    (bytes : List UInt8) : isspace (printed stale bytes n) = false := by
  unfold printed
  cases hget : (bytes.filter fun c => !isspace c)[n]? with
  | none => exact h
  | some c =>
    have hmem := List.mem_of_getElem? hget
    simpa using (List.mem_filter.mp hmem).2

/-! ## The command -/

/-- What `D` does. -/
lemma execute_dump (env : Env F C) {command : UInt8} (hd : toupper command = 0x44)
    (input : IStream) (s : State F C) :
    execute env command input s = some ((dParams env.uint16 s.pc input).2.2,
      { s with
        pc := (dParams env.uint16 s.pc input).1 + (dParams env.uint16 s.pc input).2.1
        out := s.out ++ dump (env.stale s.out) (env.ram s.cpu) (dParams env.uint16 s.pc input).1
          (dParams env.uint16 s.pc input).2.1 }) := by
  simp only [execute, hd, show (0x44 : UInt8) ≠ 0x3f by decide,
    show (0x44 : UInt8) ≠ 0x58 by decide, show (0x44 : UInt8) ≠ 0x53 by decide, if_false, if_true]

/-- **A dump that shows the memory has no white space in its range**, if `c` holds none where no
extraction set it. -/
lemma no_space_of_shows (env : Env F C) {command : UInt8} (hd : toupper command = 0x44)
    {input input' : IStream} {s s' : State F C} (hstale : ∀ n, isspace (env.stale s.out n) = false)
    (hexec : execute env command input s = some (input', s'))
    (hshows : ShowsMemory env (dParams env.uint16 s.pc input).1
      (dParams env.uint16 s.pc input).2.1 s s') {n : ℕ}
    (hn : n < (dParams env.uint16 s.pc input).2.1.toNat) :
    isspace (env.ram s.cpu (((dParams env.uint16 s.pc input).1.toNat + n) % 0x10000)) = false := by
  rw [execute_dump env hd] at hexec
  obtain ⟨-, rfl⟩ := Prod.mk.inj (Option.some.inj hexec)
  -- both lists of items are dumps, so their bytes agree
  have hout := List.append_cancel_left hshows.printed
  rw [dump_eq] at hout
  have hbytes := congrArg (List.filterMap Item.byteOf) hout
  rw [bytes_layout, bytes_layout] at hbytes
  rw [← List.map_inj_left.mp hbytes n (List.mem_range.mpr hn)]
  exact isspace_printed (hstale n) _

/-- **Without white space in its range the dump shows the memory.** -/
lemma shows_of_no_space (env : Env F C) {command : UInt8} (hd : toupper command = 0x44)
    (input : IStream) (s : State F C)
    (h : ∀ n < (dParams env.uint16 s.pc input).2.1.toNat,
      isspace (env.ram s.cpu (((dParams env.uint16 s.pc input).1.toNat + n) % 0x10000)) = false) :
    ∃ input' s', execute env command input s = some (input', s') ∧
      ShowsMemory env (dParams env.uint16 s.pc input).1 (dParams env.uint16 s.pc input).2.1
        s s' := by
  refine ⟨_, _, execute_dump env hd input s, ?_, ?_⟩
  · dsimp only
    rw [dump_eq, layout_congr _ fun n hn => printed_of_no_space _ _ _ _ h hn]
  · intro input' hnone
    have hnext : ∀ pc, (dParams env.uint16 pc input').1 = pc := by
      intro pc
      rcases hx : extract env.uint16 input' with ⟨addr, f⟩
      rw [hx] at hnone
      obtain rfl : addr = none := hnone
      rw [dParams, hx]
    rw [hnext, UInt16.toNat_add]

/-- **The monitor dump shows memory as it is iff no byte of the range is white space**, for every
content of the memory, every address and every count that `D` takes from the line, whatever `c`
holds where no extraction set it.

**Proof sketch.** The dump lays out the bytes of the range without white space
(`Monitor.dump_eq`). If there is none, these are the bytes of the range. If the dump shows the
range for every value of `c`, it does so for one that is no white space; then no byte that is
printed is white space, and the printed bytes are those of the range. -/
theorem showsMemory_iff (env : Env F C) (command : UInt8) (hd : toupper command = 0x44)
    (input : IStream) (s : State F C) :
    (∀ stale, ∃ input' s', execute { env with stale := stale } command input s =
        some (input', s') ∧ ShowsMemory { env with stale := stale }
          (dParams env.uint16 s.pc input).1 (dParams env.uint16 s.pc input).2.1 s s') ↔
      ∀ n < (dParams env.uint16 s.pc input).2.1.toNat,
        isspace (env.ram s.cpu (((dParams env.uint16 s.pc input).1.toNat + n) % 0x10000)) =
          false := by
  constructor
  · intro h n hn
    obtain ⟨input', s', hexec, hshows⟩ := h fun _ _ => 0x41
    have hletter : isspace 0x41 = false := by decide
    exact no_space_of_shows _ hd (fun _ => hletter) hexec hshows hn
  · intro h stale
    exact shows_of_no_space { env with stale := stale } hd input s h

/-- A memory of letters is shown. -/
theorem showsMemory_letters :
    toupper 0x44 = 0x44 ∧
    ∀ stale, ∃ input' s', execute { sampleEnv with stale := stale } 0x44 ⟨[], true⟩
      (sampleState fun _ => 0x41) = some (input', s') ∧
        ShowsMemory { sampleEnv with stale := stale } 0 128 (sampleState fun _ => 0x41) s' :=
  ⟨by decide, (showsMemory_iff sampleEnv 0x44 (by decide) ⟨[], true⟩
    (sampleState fun _ => 0x41)).mpr fun _ _ => rfl⟩

/-- A memory of letters with a blank in its first cell. -/
def blankFirst (a : ℕ) : UInt8 := if a = 0 then 0x20 else 0x41

/-- It is not shown: the dump starts with the letter behind the blank. -/
theorem not_showsMemory_blank :
    ¬ ∃ input' s', execute sampleEnv 0x44 ⟨[], true⟩ (sampleState blankFirst) =
      some (input', s') ∧ ShowsMemory sampleEnv 0 128 (sampleState blankFirst) s' := by
  rintro ⟨input', s', hexec, hshows⟩
  have hspace := no_space_of_shows sampleEnv (by decide) (fun _ => rfl) hexec hshows
    (show 0 < 128 by decide)
  exact absurd hspace (by decide)

end Cpm22.Monitor
