import Mathlib.Algebra.Group.Nat.Defs
import Mathlib.Data.List.Basic
import Mathlib.Data.List.GetD
import Mathlib.Data.List.Nodup

set_option relaxedAutoImplicit false
set_option autoImplicit false

/-!
# Disk parameter blocks

The geometry of a CP/M disk as the BIOS describes it: the disk parameter block, the sector
translation table, and the two geometries that `bios.asm` ships. The drive that is selected
without a BIOS header gets the same 8-inch geometry from `zilogz80.cpp`.

## Main definitions

* `Cpm22.Dpb` — the disk parameter block; `blockSize`, `maxBlock`, `blockPtrType` and the other
  derived quantities of `class dpb`.
* `Cpm22.Dpb.dirBlocks` — the number of directory blocks, as the constructor of `disk` counts it.
* `Cpm22.Geometry` — a parameter block with its sector translation table.
* `Cpm22.ibm8`, `Cpm22.hardDisk` — the shipped geometries.
* `Cpm22.Geometry.Permutes` — the translation table is a permutation of the sectors.
* `Cpm22.Geometry.Regular` — what the proofs need of them.

## Main results

* `Cpm22.Geometry.Permutes.retranslate` — the table of the constructor is the inverse.
* `Cpm22.Geometry.Shipped.regular` — both shipped geometries are regular.
-/

namespace Cpm22

/-- **The disk parameter block** `dpb_t`. The fields are bytes and words in the source; they are
numbers here, and what is computed from them wraps where it does in the source. -/
structure Dpb where
  /-- sectors per track -/
  spt : ℕ
  /-- block shift factor -/
  bsh : ℕ
  /-- block mask -/
  blm : ℕ
  /-- extent mask -/
  exm : ℕ
  /-- disk size - 1, in blocks -/
  dsm : ℕ
  /-- directory entries - 1 -/
  drm : ℕ
  /-- reserved directory blocks, high byte -/
  al0 : ℕ
  /-- reserved directory blocks, low byte -/
  al1 : ℕ
  /-- check vector size -/
  cks : ℕ
  /-- reserved tracks -/
  off : ℕ
  deriving DecidableEq, Repr

namespace Dpb

/-- The block size in bytes. -/
def blockSize (d : Dpb) : ℕ := 128 <<< d.bsh
/-- The number of directory entries. -/
def directoryEntries (d : Dpb) : ℕ := d.drm + 1
/-- The number of blocks; `simdrive` calls it `LastBlock`. -/
def maxBlock (d : Dpb) : ℕ := d.dsm + 1
/-- The directory allocation bits as one 16-bit word. -/
def a01 (d : Dpb) : ℕ := (d.al0 <<< 8) ||| d.al1
/-- The number of block pointers of a directory entry: eight words or sixteen bytes. -/
def blockPtrType (d : Dpb) : ℕ := if d.blockSize > 1024 ∧ d.maxBlock ≥ 256 then 8 else 16

/-- The loop `while(a01) { freeblock_++; a01 <<= 1; }` on a 16-bit word; it ends after at most
sixteen rounds. -/
def shiftOut : ℕ → ℕ → ℕ
  | 0, _ => 0
  | fuel + 1, w => if w = 0 then 0 else shiftOut fuel ((w <<< 1) % 2 ^ 16) + 1

/-- The number of directory blocks: the first free block of an empty disk. -/
def dirBlocks (d : Dpb) : ℕ := shiftOut 16 (d.a01 % 2 ^ 16)

end Dpb

/-- A parameter block together with its sector translation table. -/
structure Geometry where
  dpb : Dpb
  stbl : List ℕ
  deriving DecidableEq, Repr

/-- **The IBM 8-inch disk** (`DPBLK` and `TRANS` in `bios.asm`, `DPB_IBM8` and `TRANS_IBM8` in
`zilogz80.cpp`). -/
def ibm8 : Geometry where
  dpb := ⟨26, 3, 7, 0, 242, 63, 192, 0, 16, 2⟩
  stbl := [1, 7, 13, 19, 25, 5, 11, 17, 23, 3, 9, 15, 21, 2, 8, 14, 20, 26, 6, 12, 18, 24, 4,
    10, 16, 22]

/-- **The 4 MB hard disk** (`HDBLK` and `HDTRA` in `bios.asm`). -/
def hardDisk : Geometry where
  dpb := ⟨128, 4, 15, 0, 2039, 1023, 255, 255, 0, 0⟩
  stbl := (List.range 128).map (· + 1)

/-- The geometry is one of the two that `bios.asm` ships. -/
def Geometry.Shipped (g : Geometry) : Prop := g = ibm8 ∨ g = hardDisk

/-- The sector retranslation table: `smap_[translate(i)-1] = i` for each sector of a track. -/
def Geometry.retranslate (g : Geometry) : List ℕ :=
  (List.range g.dpb.spt).foldl
    (fun smap i => smap.set ((g.stbl.getD i 0 + (2 ^ 32 - 1)) % 2 ^ 32) (i + 1))
    (List.replicate g.dpb.spt 0)

/-! ## The inverse table -/

/-- A table filled in a loop keeps its length. -/
lemma length_foldl_set (p : ℕ → ℕ) (m : List ℕ) (n : ℕ) :
    ((List.range n).foldl (fun m i => m.set (p i) (i + 1)) m).length = m.length := by
  induction n with
  | zero => rfl
  | succ n ih => simpa [List.range_succ] using ih

/-- A table filled in a loop that writes no position twice has what was written.

**Proof sketch.** Induction on the length of the loop. The last round writes another position,
unless this is the one asked for. -/
lemma getElem?_foldl_set {p : ℕ → ℕ} {n i : ℕ} {m : List ℕ}
    (hp : ∀ i < n, ∀ j < n, p i = p j → i = j) (hlen : ∀ i < n, p i < m.length) (hi : i < n) :
    ((List.range n).foldl (fun m i => m.set (p i) (i + 1)) m)[p i]? = some (i + 1) := by
  induction n generalizing i with
  | zero => omega
  | succ n ih =>
    rw [List.range_succ, List.foldl_append]
    simp only [List.foldl_cons, List.foldl_nil]
    by_cases hin : i = n
    · subst hin
      rw [List.getElem?_set_self]
      rw [length_foldl_set]
      exact hlen i hi
    · have hne : p n ≠ p i := by
        intro heq
        exact hin (hp n (by omega) i hi heq).symm
      rw [List.getElem?_set_ne hne]
      apply ih
      · intro i hi j hj heq
        exact hp i (by omega) j (by omega) heq
      · intro i hi
        exact hlen i (by omega)
      · omega

/-- **The translation table is a permutation** of the sectors `1..spt` of a track. -/
def Geometry.Permutes (g : Geometry) : Prop :=
  g.stbl.Perm ((List.range g.dpb.spt).map (· + 1))

namespace Geometry.Permutes

variable {g : Geometry} (h : g.Permutes)

include h

/-- The table has an entry for every sector of a track. -/
lemma length_eq : g.stbl.length = g.dpb.spt := by
  simpa using List.Perm.length_eq h

/-- The entries are sectors of a track. -/
lemma bounds {i : ℕ} (hi : i < g.dpb.spt) : 0 < g.stbl.getD i 0 ∧ g.stbl.getD i 0 ≤ g.dpb.spt := by
  have hlen := length_eq h
  have hmem : g.stbl.getD i 0 ∈ g.stbl := by
    rw [List.getD_eq_getElem _ _ (by omega)]
    exact List.getElem_mem _
  obtain ⟨k, hk, heq⟩ := List.mem_map.mp (h.mem_iff.mp hmem)
  have := List.mem_range.mp hk
  omega

/-- Different sectors have different entries. -/
lemma inj {i j : ℕ} (hi : i < g.dpb.spt) (hj : j < g.dpb.spt)
    (heq : g.stbl.getD i 0 = g.stbl.getD j 0) : i = j := by
  have hlen := length_eq h
  have hnodup : g.stbl.Nodup := by
    rw [h.nodup_iff]
    exact List.nodup_range.map fun a b hab => by simpa using hab
  rw [List.getD_eq_getElem _ _ (by omega), List.getD_eq_getElem _ _ (by omega)] at heq
  exact (hnodup.getElem_inj_iff).mp heq

/-- Every sector of a track is an entry. -/
lemma surj {sector : ℕ} (hpos : 0 < sector) (hle : sector ≤ g.dpb.spt) :
    ∃ i < g.dpb.spt, g.stbl.getD i 0 = sector := by
  have hlen := length_eq h
  have hmem : sector ∈ g.stbl := by
    rw [h.mem_iff, List.mem_map]
    exact ⟨sector - 1, List.mem_range.mpr (by omega), by omega⟩
  obtain ⟨i, hi, heq⟩ := List.mem_iff_getElem.mp hmem
  refine ⟨i, by omega, ?_⟩
  rw [List.getD_eq_getElem _ _ hi, heq]

/-- **The table of the constructor is the inverse** of the translation table.

**Proof sketch.** The loop stores `i + 1` at the position that the translation of `i` gives, and no
position is written twice, since the table permutes the sectors (`getElem?_foldl_set`). -/
lemma retranslate {i : ℕ} (hspt : g.dpb.spt < 2 ^ 16) (hi : i < g.dpb.spt) :
    g.retranslate[g.stbl.getD i 0 - 1]? = some (i + 1) := by
  -- no index of the loop wraps around
  have hindex : ∀ i < g.dpb.spt,
      (g.stbl.getD i 0 + (2 ^ 32 - 1)) % 2 ^ 32 = g.stbl.getD i 0 - 1 := by
    intro i hi
    have := h.bounds hi
    omega
  have hget := getElem?_foldl_set (p := fun i => (g.stbl.getD i 0 + (2 ^ 32 - 1)) % 2 ^ 32)
    (m := List.replicate g.dpb.spt 0) (n := g.dpb.spt) ?_ ?_ hi
  · simp only [hindex i hi] at hget
    exact hget
  · intro i hi j hj heq
    have := h.bounds hi
    have := h.bounds hj
    simp only [hindex i hi, hindex j hj] at heq
    exact h.inj hi hj (by omega)
  · intro i hi
    have := h.bounds hi
    simp only [hindex i hi, List.length_replicate]
    omega

end Geometry.Permutes

/-! ## Regular geometries -/

/-- **What the proofs need of a geometry**: the mask matches the shift, one entry covers one
logical extent of 128 records, block numbers survive in their pointer slot, the directory blocks
hold exactly the directory, no file has more than 512 extents, and the retranslation table inverts
the translation table. -/
structure Geometry.Regular (g : Geometry) : Prop where
  blm : g.dpb.blm = 2 ^ g.dpb.bsh - 1
  extent : g.dpb.blockPtrType * 2 ^ g.dpb.bsh = 128
  slots : g.dpb.maxBlock ≤ if g.dpb.blockPtrType = 16 then 256 else 65536
  dirs : g.dpb.dirBlocks * 2 ^ g.dpb.bsh * 4 = g.dpb.directoryEntries
  first : 0 < g.dpb.dirBlocks
  room : g.dpb.dirBlocks < g.dpb.maxBlock
  ptrs : g.dpb.blockPtrType = 8 ∨ g.dpb.blockPtrType = 16
  spt : 0 < g.dpb.spt
  retrans : ∀ i < g.dpb.spt, g.stbl.getD i 0 ≠ 0 ∧
    g.retranslate[g.stbl.getD i 0 - 1]? = some (i + 1)
  small : g.dpb.off * g.dpb.spt + g.dpb.maxBlock * 2 ^ g.dpb.bsh < 2 ^ 32
  extents : g.dpb.maxBlock ≤ 512 * g.dpb.blockPtrType

/-- The hard disk does not interleave its sectors. -/
lemma permutes_hardDisk : hardDisk.Permutes := List.Perm.refl _

/-- The translation tables of the hard disk. -/
lemma retrans_hardDisk : ∀ i < hardDisk.dpb.spt, hardDisk.stbl.getD i 0 ≠ 0 ∧
    hardDisk.retranslate[hardDisk.stbl.getD i 0 - 1]? = some (i + 1) := by
  intro i hi
  have hpos := (permutes_hardDisk.bounds hi).1
  exact ⟨by omega, permutes_hardDisk.retranslate (by decide) hi⟩

/-- Both shipped geometries are regular. -/
lemma Geometry.Shipped.regular {g : Geometry} (h : g.Shipped) : g.Regular := by
  rcases h with rfl | rfl
  · exact ⟨by decide, by decide, by decide, by decide, by decide, by decide, by decide,
      by decide, by decide, by decide, by decide⟩
  · exact ⟨by decide, by decide, by decide, by decide, by decide, by decide, by decide,
      by decide, retrans_hardDisk, by decide, by decide⟩

/-- The 8-inch disk is regular. -/
lemma regular_ibm8 : ibm8.Regular := Geometry.Shipped.regular (.inl rfl)

/-- The hard disk is regular. -/
lemma regular_hardDisk : hardDisk.Regular := Geometry.Shipped.regular (.inr rfl)

/-- An entry has block pointers. -/
lemma Geometry.Regular.ptrs_pos {g : Geometry} (h : g.Regular) : 0 < g.dpb.blockPtrType := by
  rcases h.ptrs with h | h <;> omega

/-- The block size in terms of sectors. -/
lemma Dpb.blockSize_eq (d : Dpb) : d.blockSize = 128 * 2 ^ d.bsh := Nat.shiftLeft_eq _ _

end Cpm22
