import Mathlib.Data.List.OfFn
import Mathlib.Data.Fintype.Pi
import Mathlib.Data.Nat.Bitwise
import Cpm22.Lib.HostPath
import Cpm22.Disk.Dpb

set_option relaxedAutoImplicit false
set_option autoImplicit false

/-!
# Directory entries

`class cpmdir`: the 32 bytes of a CP/M directory entry, how they are decoded from and encoded
into a sector, and the quantities the host side derives from them: the extent number, the block
pointers, the position of a block in its file, and the name under which the entry's file is
kept in the name map.

## Main definitions

* `Cpm22.CpmDir` — an entry; `ofBytes` and `toBytes` are its codec, `eq` is `operator==`.
* `Cpm22.CpmDir.getExtNumber`, `pointer`, `findBlockIndex` — extent number and block pointers.
* `Cpm22.CpmDir.logicalExtent` — the extent number as the BDOS counts it.
* `Cpm22.CpmDir.getName` — the key of the entry's file in the name map.

## Main results

* `Cpm22.CpmDir.getExtNumber_eq` — the extent number in arithmetic terms.
* `Cpm22.CpmDir.findBlockIndex_eq_zero_iff` — when the block search finds nothing.
* `Cpm22.CpmDir.getName_inj` — the name determines status, base and extension.
-/

namespace Cpm22

open HostPath

/-- A sector of 128 bytes, also the DMA buffer of a transfer. -/
abbrev Sector := Fin 128 → UInt8

/-- The byte of a character. -/
def ch (c : Char) : UInt8 := c.toNat.toUInt8

/-- **A directory entry**, field by field as `class cpmdir` has it. The methods of the class that
read or set a field are functions of the entry; every 32 bytes are an entry. -/
@[ext]
structure CpmDir where
  /-- status: user number, or `0xE5` if unused -/
  st : UInt8
  /-- the base of the name -/
  fx : Fin 8 → UInt8
  /-- the extension -/
  ex : Fin 3 → UInt8
  /-- extent number, low part -/
  xl : UInt8
  /-- bytes in the last record (0 in CP/M 2.2) -/
  bc : UInt8
  /-- extent number, high part -/
  xh : UInt8
  /-- records in the extent -/
  rc : UInt8
  /-- block pointers -/
  al : Fin 16 → UInt8
  deriving DecidableEq

/-- There is a first character of an extension. -/
instance neZero_three : NeZero 3 := ⟨by decide⟩

/-- There is a first entry of a directory sector. -/
instance neZero_four : NeZero 4 := ⟨by decide⟩

/-- There is a first character of a name. -/
instance neZero_eight : NeZero 8 := ⟨by decide⟩

/-- There is a first byte of block pointers. -/
instance neZero_sixteen : NeZero 16 := ⟨by decide⟩

namespace CpmDir

/-- The status of an unused entry. -/
def UNUSED : UInt8 := 0xe5

/-- The entry is in use. -/
def Used (e : CpmDir) : Prop := e.st ≠ UNUSED

instance (e : CpmDir) : Decidable e.Used := inferInstanceAs (Decidable (_ ≠ _))

/-- The entry of the default constructor. -/
def empty : CpmDir :=
  ⟨UNUSED, fun _ => ch ' ', fun _ => ch ' ', 0, 0, 0, 0, fun _ => 0⟩

/-- **Decoding**: the constructor from 32 bytes, which copies them without a check. -/
def ofBytes (dd : Fin 32 → UInt8) : CpmDir where
  st := dd 0
  fx i := dd ⟨i + 1, by omega⟩
  ex i := dd ⟨i + 9, by omega⟩
  xl := dd 12
  bc := dd 13
  xh := dd 14
  rc := dd 15
  al i := dd ⟨i + 16, by omega⟩

/-- **Encoding**: `read`, the 32 bytes of an entry. -/
def toBytes (e : CpmDir) (i : Fin 32) : UInt8 :=
  if h : i.val < 1 then e.st
  else if h : i.val < 9 then e.fx ⟨i - 1, by omega⟩
  else if h : i.val < 12 then e.ex ⟨i - 9, by omega⟩
  else if i.val = 12 then e.xl
  else if i.val = 13 then e.bc
  else if i.val = 14 then e.xh
  else if i.val = 15 then e.rc
  else e.al ⟨i - 16, by omega⟩

/-- `!strncmp` on two buffers of equal length: equal up to the first NUL. -/
def strncmpEq : List UInt8 → List UInt8 → Bool
  | a :: as, b :: bs => a == b && (a == 0 || strncmpEq as bs)
  | _, _ => true

/-- `operator==`: the names are compared as C strings. -/
def eq (e f : CpmDir) : Bool :=
  e.st == f.st && strncmpEq (List.ofFn e.fx) (List.ofFn f.fx) &&
    strncmpEq (List.ofFn e.ex) (List.ofFn f.ex) && e.xl == f.xl && e.bc == f.bc &&
    e.xh == f.xh && e.rc == f.rc && decide (e.al = f.al)

/-! ## Extents and block pointers -/

/-- `GetExtNumber`. -/
def getExtNumber (e : CpmDir) : ℕ := ((e.xh.toNat <<< 8) ||| e.xl.toNat) &&& 0x1ff

/-- The extent number as the BDOS counts it: five bits in `Xl`, the rest in `Xh` (`POSITN1`). -/
def logicalExtent (e : CpmDir) : ℕ := 32 * e.xh.toNat + e.xl.toNat

/-- BDOS extent numbering: `Xl` in 0..31 and `Xh` in 0..15. -/
def BdosNumbered (e : CpmDir) : Prop := e.xl.toNat ≤ 31 ∧ e.xh.toNat ≤ 15

instance (e : CpmDir) : Decidable e.BdosNumbered := inferInstanceAs (Decidable (_ ∧ _))

/-- `GetALByte`. -/
def getALByte (e : CpmDir) (i : ℕ) : ℕ := if h : i < 16 then (e.al ⟨i, h⟩).toNat else 0

/-- `GetALWord`: the union of bytes and little-endian words. -/
def getALWord (e : CpmDir) (i : ℕ) : ℕ := e.getALByte (2 * i) + 256 * e.getALByte (2 * i + 1)

/-- Block pointer `b` of an entry with `bps` pointers. -/
def pointer (e : CpmDir) (bps b : ℕ) : ℕ := if bps = 16 then e.getALByte b else e.getALWord b

/-- **`FindBlockIndex`**: the position of a block in the file, counted from one; zero if the
entry does not list it. -/
def findBlockIndex (e : CpmDir) (block bps : ℕ) : ℕ :=
  if e.st ≠ UNUSED then
    match (List.range bps).find? fun b => e.pointer bps b == block with
    | some b => b + 1 + e.getExtNumber * bps
    | none => 0
  else 0

/-! ## Names -/

/-- A hexadecimal digit, lower case. -/
def hexDigit (n : ℕ) : UInt8 := if n < 10 then (48 + n).toUInt8 else (87 + n).toUInt8

/-- The status in two hexadecimal digits. -/
def hexStatus (st : UInt8) : Bytes := [hexDigit (st.toNat / 16), hexDigit (st.toNat % 16)]

/-- **`GetName`**: status, base, and the extension behind a dot unless it is blank. -/
def getName (e : CpmDir) : Bytes :=
  hexStatus e.st ++ ch '_' :: (List.ofFn e.fx ++
    ((if List.ofFn e.ex ≠ [ch ' ', ch ' ', ch ' '] then [ch '.'] else []) ++ List.ofFn e.ex))

/-- `SetName` with a string of twelve characters: base, one character that is not used,
extension. -/
def setName (e : CpmDir) (s : Bytes) : CpmDir :=
  { e with fx := fun i => s.getD i 0, ex := fun i => s.getD (i + 9) 0 }

/-! ## Lemmas -/

/-- The extent number in arithmetic terms: nine bits of `Xh` over `Xl`. -/
lemma getExtNumber_eq (e : CpmDir) :
    e.getExtNumber = (e.xh.toNat % 2) * 256 + e.xl.toNat := by
  have hxl : e.xl.toNat < 2 ^ 8 := e.xl.toNat_lt
  rw [getExtNumber, show (0x1ff : ℕ) = 2 ^ 9 - 1 from rfl, Nat.and_two_pow_sub_one_eq_mod,
    ← Nat.shiftLeft_add_eq_or_of_lt hxl, Nat.shiftLeft_eq]
  omega

/-- Without a high part the two extent numbers agree. -/
lemma getExtNumber_of_xh_zero {e : CpmDir} (h : e.xh = 0) : e.getExtNumber = e.xl.toNat := by
  rw [getExtNumber_eq, h]
  simp

/-- **The host's extent number is the BDOS's exactly when `Xh` is zero.** -/
lemma getExtNumber_eq_logicalExtent_iff {e : CpmDir} (h : e.BdosNumbered) :
    e.getExtNumber = e.logicalExtent ↔ e.xh = 0 := by
  rw [getExtNumber_eq, logicalExtent, ← UInt8.toNat_inj, UInt8.toNat_zero]
  have := h.2
  omega

/-- What a successful search says. -/
lemma find?_range_some {p : ℕ → Bool} {n b : ℕ} (h : (List.range n).find? p = some b) :
    b < n ∧ p b = true :=
  ⟨List.mem_range.mp (List.mem_of_find?_eq_some h), List.find?_some h⟩

/-- The search finds nothing iff the entry is unused or does not list the block. -/
lemma findBlockIndex_eq_zero_iff (e : CpmDir) (block bps : ℕ) :
    e.findBlockIndex block bps = 0 ↔ ¬ e.Used ∨ ∀ b < bps, e.pointer bps b ≠ block := by
  unfold findBlockIndex Used
  by_cases hu : e.st ≠ UNUSED
  · rw [if_pos hu]
    cases hf : (List.range bps).find? fun b => e.pointer bps b == block with
    | none =>
      rw [List.find?_eq_none] at hf
      simp only [List.mem_range, beq_iff_eq] at hf
      simp only [true_iff]
      exact .inr hf
    | some b =>
      obtain ⟨hb, hp⟩ := find?_range_some hf
      simp only [beq_iff_eq] at hp
      simp only [Nat.add_eq_zero_iff, one_ne_zero, and_false, false_and, false_iff, not_or,
        not_forall, not_not]
      exact ⟨hu, b, hb, hp⟩
  · simp [hu]

/-- Hexadecimal digits are different for different numbers below sixteen. -/
lemma hexDigit_inj : ∀ a < 16, ∀ b < 16, hexDigit a = hexDigit b → a = b := by decide

/-- The hexadecimal prefix determines the status. -/
lemma hexStatus_inj {a b : UInt8} (h : hexStatus a = hexStatus b) : a = b := by
  have ha := a.toNat_lt
  have hb := b.toNat_lt
  simp only [hexStatus, List.cons.injEq, and_true] at h
  have h1 := hexDigit_inj _ (by omega) _ (by omega) h.1
  have h2 := hexDigit_inj _ (by omega) _ (by omega) h.2
  rw [← UInt8.toNat_inj]
  omega

/-- **The name determines status, base and extension.**

**Proof sketch.** Prefix and base have fixed lengths, so they can be cut off; the rest is the
extension, with a dot before it exactly if the name is longer by one. -/
theorem getName_inj {e f : CpmDir} (h : e.getName = f.getName) :
    e.st = f.st ∧ e.fx = f.fx ∧ e.ex = f.ex := by
  have hlen : (hexStatus e.st).length = (hexStatus f.st).length := rfl
  obtain ⟨h1, h2⟩ := List.append_inj h hlen
  obtain ⟨-, h2⟩ := List.cons.inj h2
  obtain ⟨h3, h4⟩ := List.append_inj h2 (by simp)
  refine ⟨hexStatus_inj h1, List.ofFn_injective h3, List.ofFn_injective ?_⟩
  have hl := congrArg List.length h4
  by_cases he : List.ofFn e.ex ≠ [ch ' ', ch ' ', ch ' '] <;>
    by_cases hf : List.ofFn f.ex ≠ [ch ' ', ch ' ', ch ' ']
  · rw [if_pos he, if_pos hf] at h4
    exact List.append_cancel_left h4
  · rw [if_pos he, if_neg hf] at hl
    simp at hl
  · rw [if_neg he, if_pos hf] at hl
    simp at hl
  · rw [not_not] at he hf
    rw [he, hf]

/-- The name depends on status, base and extension only. -/
lemma getName_congr {e f : CpmDir} (h1 : e.st = f.st) (h2 : e.fx = f.fx) (h3 : e.ex = f.ex) :
    e.getName = f.getName := by
  simp only [getName, h1, h2, h3]

end CpmDir

end Cpm22
