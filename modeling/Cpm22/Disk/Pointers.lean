import Cpm22.Disk.Layout
import Cpm22.Disk.Bdos

set_option relaxedAutoImplicit false
set_option autoImplicit false

/-!
# Two readings of the block pointers

The sixteen bytes of block pointers of a directory entry are sixteen bytes or eight little-endian
words. The host chooses by `dpb::BlockPtrType`, from the block size and the number of blocks; the
BDOS chooses by `BIGDISK`, which `SELECT` sets from the high byte of `DSKSIZE`. `FindBlockIndex`
and the `SetAL` functions go by the first, `EXTBLK` and `SETFILE` by the second.

## Main definitions

* `Cpm22.Dpb.Legal` — the parameter blocks that CP/M 2.2 allows.
* `Cpm22.Dpb.hostBlocks` — the block numbers of an entry as the host reads them.
* `Cpm22.Bdos.select`, `Cpm22.Bdos.extBlk`, `Cpm22.Bdos.setFile` — the code of the BDOS.
* `Cpm22.Bdos.blocks` — the block numbers of a file control block as `EXTBLK` reads them.

## Main results

* `Cpm22.Dpb.findBlockIndex_hostBlocks`, `Cpm22.Dpb.hostBlocks_setPointer` — the host searches and
  changes the list `hostBlocks`.
* `Cpm22.Bdos.setFile_eq` — `SETFILE` walks over the list `blocks`.
* `Cpm22.Bdos.hostBlocks_eq_blocks_iff` — the two lists are one, except on a disk of exactly 256
  blocks of more than a kilobyte.
-/

namespace Cpm22

namespace Dpb

/-- **A parameter block that CP/M 2.2 allows**: blocks of 1 KiB to 16 KiB, the block count in a
word, and byte pointers for blocks of 1 KiB. -/
structure Legal (d : Dpb) : Prop where
  bsh_ge : 3 ≤ d.bsh
  bsh_le : d.bsh ≤ 7
  dsm_lt : d.dsm < 65536
  small : d.bsh = 3 → d.dsm ≤ 255

/-- **The block numbers that the host reads** in an entry. -/
def hostBlocks (d : Dpb) (e : CpmDir) : List ℕ :=
  (List.range d.blockPtrType).map (e.pointer d.blockPtrType)

/-- The host has eight pointers for 256 blocks or more, unless a block is a kilobyte. -/
lemma blockPtrType_of_legal {d : Dpb} (h : d.Legal) :
    d.blockPtrType = if d.bsh ≠ 3 ∧ 255 ≤ d.dsm then 8 else 16 := by
  have hsize : d.blockSize > 1024 ↔ d.bsh ≠ 3 := by
    have hmono : 3 < d.bsh ↔ 2 ^ 3 < 2 ^ d.bsh := (Nat.pow_lt_pow_iff_right (by omega)).symm
    have hge := h.bsh_ge
    rw [d.blockSize_eq]
    omega
  have hcount : d.maxBlock ≥ 256 ↔ 255 ≤ d.dsm := by
    unfold maxBlock
    omega
  simp only [blockPtrType, hsize, hcount]

/-- Any geometry has eight or sixteen pointers. -/
lemma blockPtrType_cases (d : Dpb) : d.blockPtrType = 8 ∨ d.blockPtrType = 16 := by
  unfold blockPtrType
  split <;> simp

/-- The host reads as many blocks as an entry has pointers. -/
lemma length_hostBlocks (d : Dpb) (e : CpmDir) : (d.hostBlocks e).length = d.blockPtrType := by
  simp [hostBlocks]

/-- The block at an index of the list. -/
lemma getElem?_hostBlocks (d : Dpb) (e : CpmDir) {b : ℕ} (hb : b < d.blockPtrType) :
    (d.hostBlocks e)[b]? = some (e.pointer d.blockPtrType b) := by
  simp [hostBlocks, hb]

/-- **`FindBlockIndex` searches the blocks that the host reads.**

**Proof sketch.** The search stops at the first index whose pointer is the block, which is its
index in the list of the blocks that the host reads. If the entry is unused or the block is not in
the list, the result is 0. -/
theorem findBlockIndex_hostBlocks (d : Dpb) (e : CpmDir) (block : ℕ) :
    e.findBlockIndex block d.blockPtrType =
      if e.Used ∧ block ∈ d.hostBlocks e then
        (d.hostBlocks e).idxOf block + 1 + e.getExtNumber * d.blockPtrType
      else 0 := by
  by_cases h : e.Used ∧ block ∈ d.hostBlocks e
  · obtain ⟨hu, hmem⟩ := h
    have hu' : e.st ≠ CpmDir.UNUSED := hu
    have hlt : (d.hostBlocks e).idxOf block < d.blockPtrType := by
      rw [← d.length_hostBlocks e]
      exact List.idxOf_lt_length_iff.mpr hmem
    -- the search over indices stops at the first index whose pointer is the block
    have hfind : ((List.range d.blockPtrType).find? fun b => e.pointer d.blockPtrType b == block) =
        some ((d.hostBlocks e).idxOf block) := by
      apply List.find?_range_eq_some.mpr
      refine ⟨?_, List.mem_range.mpr hlt, ?_⟩
      · have hget := (d.getElem?_hostBlocks e hlt).symm.trans (List.getElem?_idxOf hmem)
        simpa using hget
      · intro j hj
        have hj' : j < (d.hostBlocks e).findIdx (· == block) := hj
        have hne := List.not_of_lt_findIdx hj'
        simpa [hostBlocks] using hne
    rw [if_pos ⟨hu, hmem⟩, CpmDir.findBlockIndex, if_pos hu', hfind]
  · rw [if_neg h, CpmDir.findBlockIndex_eq_zero_iff]
    rw [not_and_or] at h
    refine h.imp_right fun hmem b hb heq => hmem ?_
    exact List.mem_map.mpr ⟨b, List.mem_range.mpr hb, heq⟩

/-- **`SetALByte` and `SetALWord` change one of the blocks that the host reads.** -/
theorem hostBlocks_setPointer (d : Dpb) (e : CpmDir) {i v : ℕ} (hi : i < d.blockPtrType)
    (hv : v < if d.blockPtrType = 16 then 256 else 65536) :
    d.hostBlocks (e.setPointer d.blockPtrType i v) = (d.hostBlocks e).set i v := by
  apply List.ext_getElem
  · simp [hostBlocks]
  · intro b hb _
    have hb' : b < d.blockPtrType := by simpa [hostBlocks] using hb
    have hset := CpmDir.pointer_setPointer (e := e) d.blockPtrType_cases hi hb' hv
    simp only [hostBlocks, List.getElem_map, List.getElem_range, List.getElem_set, hset]
    by_cases h : b = i
    · simp [h]
    · simp [h, Ne.symm h]

end Dpb

namespace Bdos

/-- **`SELECT`**: `BIGDISK` is `0FFH` for byte pointers and zero for words, by the high byte of the
disk size. -/
def select (d : Dpb) : UInt8 :=
  let dskSize := UInt16.ofNat d.dsm
  if (dskSize >>> 8).toUInt8 = 0 then 0xff else 0

/-- **`EXTBLK`**: the block number `bc` of the file control block at `params`. -/
def extBlk (bigdisk : UInt8) (mem : UInt16 → UInt8) (params bc : UInt16) : UInt16 :=
  let hl := params + 16 + bc
  if bigdisk ≠ 0 then (mem hl).toUInt16
  else
    let hl := hl + bc
    (mem hl).toUInt16 ||| ((mem (hl + 1)).toUInt16 <<< 8)

/-- The block numbers of the file control block at `params`: those that `EXTBLK` returns for the
indices the pointers have room for. -/
def blocks (d : Dpb) (mem : UInt16 → UInt8) (params : UInt16) : List ℕ :=
  (List.range (pointers d)).map fun i =>
    (extBlk (select d) mem params (UInt16.ofNat i)).toNat

/-- **The loop of `SETFILE`**, `SETFL1` with the counter in `C` and the table in `HL`: the block
numbers it looks at. -/
def setFile (bigdisk : UInt8) (mem : UInt16 → UInt8) : ℕ → UInt16 → List ℕ
  | 0, _ => []
  | 1, _ => []
  | c + 2, hl =>
    if bigdisk ≠ 0 then (mem hl).toNat :: setFile bigdisk mem (c + 1) (hl + 1)
    else
      ((mem hl).toUInt16 ||| ((mem (hl + 1)).toUInt16 <<< 8)).toNat ::
        setFile bigdisk mem c (hl + 2)

/-- The memory at `params` holds the entry: it is the directory part of a file control block. -/
def InMemory (mem : UInt16 → UInt8) (params : UInt16) (e : CpmDir) : Prop :=
  ∀ i : Fin 32, mem (params + UInt16.ofNat i) = e.toBytes i

/-- `BIGDISK` is set exactly where a byte holds the number of the last block. -/
lemma select_eq {d : Dpb} (h : d.Legal) : select d = if d.dsm < 256 then 0xff else 0 := by
  have hdsm := h.dsm_lt
  have hhigh : ((UInt16.ofNat d.dsm) >>> 8).toUInt8 = 0 ↔ d.dsm < 256 := by
    rw [← UInt8.toNat_inj]
    simp [Nat.shiftRight_eq_div_pow, Nat.mod_eq_of_lt hdsm]
    omega
  simp only [select, hhigh]

/-- A byte of the pointers, in memory. -/
lemma InMemory.byte {mem : UInt16 → UInt8} {params : UInt16} {e : CpmDir}
    (h : InMemory mem params e) {i : ℕ} (hi : i < 16) :
    (mem (params + 16 + UInt16.ofNat i)).toNat = e.getALByte i := by
  have hat := h ⟨16 + i, by omega⟩
  rw [UInt16.ofNat_add, ← UInt16.add_assoc] at hat
  have hbyte : e.toBytes ⟨16 + i, by omega⟩ = e.al ⟨i, hi⟩ := by
    simp only [CpmDir.toBytes, show ¬ 16 + i < 1 by omega, show ¬ 16 + i < 9 by omega,
      show ¬ 16 + i < 12 by omega, show ¬ 16 + i = 12 by omega, show ¬ 16 + i = 13 by omega,
      show ¬ 16 + i = 14 by omega, show ¬ 16 + i = 15 by omega, dite_false, if_false,
      Nat.add_sub_cancel_left]
  rw [CpmDir.getALByte, dif_pos hi, ← hbyte, ← hat]
  rfl

/-- A little-endian word of two bytes. -/
lemma toNat_word (lo hi : UInt8) :
    (lo.toUInt16 ||| (hi.toUInt16 <<< 8)).toNat = lo.toNat + 256 * hi.toNat := by
  have hlo := lo.toNat_lt
  have hhi := hi.toNat_lt
  rw [UInt16.toNat_or, UInt16.toNat_shiftLeft, UInt8.toNat_toUInt16, UInt8.toNat_toUInt16]
  have hshift : hi.toNat <<< 8 % 2 ^ 16 = 2 ^ 8 * hi.toNat := by
    rw [Nat.shiftLeft_eq, Nat.mod_eq_of_lt (by omega), Nat.mul_comm]
  simp only [UInt16.toNat_ofNat, hshift]
  rw [Nat.or_comm, ← Nat.two_pow_add_eq_or_of_lt hlo]
  omega

/-- `EXTBLK1` adds the index a second time. -/
lemma add_twice (hl : UInt16) (i : ℕ) :
    hl + UInt16.ofNat i + UInt16.ofNat i = hl + UInt16.ofNat (2 * i) := by
  rw [UInt16.add_assoc, ← UInt16.ofNat_add, Nat.two_mul]

/-- **`EXTBLK` returns the pointers of the entry**, as many as `BIGDISK` says. -/
theorem toNat_extBlk {d : Dpb} (h : d.Legal) {mem : UInt16 → UInt8} {params : UInt16} {e : CpmDir}
    (hm : InMemory mem params e) {i : ℕ} (hi : i < pointers d) :
    (extBlk (select d) mem params (UInt16.ofNat i)).toNat = e.pointer (pointers d) i := by
  rw [select_eq h]
  by_cases hd : d.dsm < 256
  · have hp : pointers d = 16 := if_pos hd
    rw [hp] at hi ⊢
    simp [hd, extBlk, CpmDir.pointer, hm.byte hi]
  · have hp : pointers d = 8 := if_neg hd
    rw [hp] at hi ⊢
    have hhi : params + 16 + UInt16.ofNat (2 * i) + 1 =
        params + 16 + UInt16.ofNat (2 * i + 1) := by
      rw [UInt16.add_assoc, UInt16.ofNat_add (2 * i) 1]
      rfl
    simp only [hd, if_false, extBlk, ne_eq, not_true_eq_false, add_twice, hhi, toNat_word,
      hm.byte (show 2 * i < 16 by omega), hm.byte (show 2 * i + 1 < 16 by omega)]
    rfl

/-- The BDOS reads the pointers of the entry, as many as `BIGDISK` says. -/
lemma blocks_eq {d : Dpb} (h : d.Legal) {mem : UInt16 → UInt8} {params : UInt16} {e : CpmDir}
    (hm : InMemory mem params e) :
    blocks d mem params = (List.range (pointers d)).map (e.pointer (pointers d)) := by
  apply List.map_congr_left
  intro i hi
  exact toNat_extBlk h hm (List.mem_range.mp hi)

/-- The loop of `SETFILE` over byte pointers. -/
lemma setFile_bytes {bigdisk : UInt8} (hb : bigdisk ≠ 0) (mem : UInt16 → UInt8) (n : ℕ) :
    ∀ hl, setFile bigdisk mem (n + 1) hl =
      (List.range n).map fun i => (mem (hl + UInt16.ofNat i)).toNat := by
  induction n with
  | zero =>
    intro hl
    rfl
  | succ n ih =>
    intro hl
    rw [setFile, if_pos hb, ih, List.range_succ_eq_map]
    simp [UInt16.add_assoc, UInt16.add_comm]

/-- The loop of `SETFILE` over words. -/
lemma setFile_words (mem : UInt16 → UInt8) (n : ℕ) :
    ∀ hl, setFile 0 mem (2 * n + 1) hl =
      (List.range n).map fun i =>
        ((mem (hl + UInt16.ofNat (2 * i))).toUInt16 |||
          ((mem (hl + UInt16.ofNat (2 * i) + 1)).toUInt16 <<< 8)).toNat := by
  induction n with
  | zero =>
    intro hl
    rfl
  | succ n ih =>
    intro hl
    have hstep : ∀ i, hl + 2 + UInt16.ofNat (2 * i) = hl + UInt16.ofNat (2 * (i + 1)) := by
      intro i
      rw [UInt16.add_assoc, Nat.mul_succ, Nat.add_comm (2 * i) 2, UInt16.ofNat_add 2]
      rfl
    rw [show 2 * (n + 1) + 1 = 2 * n + 1 + 2 by omega, setFile, if_neg (by simp), ih,
      List.range_succ_eq_map, List.map_cons, List.map_map]
    have hzero : hl + UInt16.ofNat 0 = hl := UInt16.add_zero hl
    simp only [hstep, hzero, Nat.mul_zero, Function.comp_def, Nat.succ_eq_add_one]

/-- **`SETFILE` walks over the blocks that `EXTBLK` returns**: the counter of 17 covers the whole
table in both forms. -/
theorem setFile_eq {d : Dpb} (h : d.Legal) (mem : UInt16 → UInt8) (params : UInt16) :
    setFile (select d) mem 17 (params + 16) = blocks d mem params := by
  rw [blocks, select_eq h]
  by_cases hd : d.dsm < 256
  · have hp : pointers d = 16 := if_pos hd
    rw [if_pos hd, hp, setFile_bytes (by decide) mem 16]
    simp [extBlk]
  · have hp : pointers d = 8 := if_neg hd
    rw [if_neg hd, hp, setFile_words mem 8]
    apply List.map_congr_left
    intro i _
    simp only [extBlk, ne_eq, not_true_eq_false, if_false, add_twice]

/-- **Host and BDOS read the same blocks** from an entry, except on a disk of exactly 256 blocks of
more than a kilobyte: there the host has eight words and the BDOS sixteen bytes.

**Proof sketch.** Both lists are the pointers of the entry, as many as the side believes there are
(`Bdos.blocks_eq`), so they are equal where the counts are. The counts are compared by cases on the
block size and the disk size. -/
theorem hostBlocks_eq_blocks_iff (d : Dpb) (h : d.Legal) (e : CpmDir) (mem : UInt16 → UInt8)
    (params : UInt16) (hm : InMemory mem params e) :
    d.hostBlocks e = blocks d mem params ↔ ¬ (d.dsm = 255 ∧ d.bsh ≠ 3) := by
  have hcount : d.blockPtrType = pointers d ↔ ¬ (d.dsm = 255 ∧ d.bsh ≠ 3) := by
    have hsmall := h.small
    rw [Dpb.blockPtrType_of_legal h, pointers]
    split <;> split <;> omega
  rw [← hcount, blocks_eq h hm]
  constructor
  · intro hlists
    simpa [Dpb.hostBlocks] using congrArg List.length hlists
  · intro hp
    rw [Dpb.hostBlocks, hp]

/-- An entry with the block numbers 1 to 16 in its bytes. -/
def sampleEntry : CpmDir := { CpmDir.empty with st := 0, al := fun i => UInt8.ofNat (i.val + 1) }

/-- A memory with that entry at `5CH`. -/
def sampleMemory (a : UInt16) : UInt8 :=
  if h : 0x5c ≤ a.toNat ∧ a.toNat < 0x5c + 32 then
    sampleEntry.toBytes ⟨a.toNat - 0x5c, Nat.sub_lt_left_of_lt_add h.1 h.2⟩
  else 0

/-- The hard disk geometry with 256 blocks of 2 KiB. -/
def sampleDpb : Dpb := { hardDisk.dpb with dsm := 255 }

/-- The sample entry lies in the sample memory. -/
lemma inMemory_sample : InMemory sampleMemory 0x5c sampleEntry := by
  unfold InMemory
  decide

/-- The shipped hard disk is read alike. -/
theorem hostBlocks_eq_blocks_hardDisk :
    hardDisk.dpb.hostBlocks sampleEntry = blocks hardDisk.dpb sampleMemory 0x5c :=
  (hostBlocks_eq_blocks_iff hardDisk.dpb ⟨by decide, by decide, by decide, by decide⟩ sampleEntry
    sampleMemory 0x5c inMemory_sample).mpr (by decide)

/-- On 256 blocks of 2 KiB the host reads 513, 1027, …, and the BDOS 1, 2, …. -/
theorem hostBlocks_ne_blocks_256 :
    sampleDpb.Legal ∧ InMemory sampleMemory 0x5c sampleEntry ∧
      sampleDpb.hostBlocks sampleEntry = [513, 1027, 1541, 2055, 2569, 3083, 3597, 4111] ∧
      blocks sampleDpb sampleMemory 0x5c =
        [1, 2, 3, 4, 5, 6, 7, 8, 9, 10, 11, 12, 13, 14, 15, 16] ∧
      sampleDpb.hostBlocks sampleEntry ≠ blocks sampleDpb sampleMemory 0x5c :=
  ⟨⟨by decide, by decide, by decide, by decide⟩, inMemory_sample, by decide, by decide, by decide⟩

end Bdos

end Cpm22
