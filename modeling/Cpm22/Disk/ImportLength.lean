import Cpm22.Disk.Lengths
import Cpm22.Disk.Listing

set_option relaxedAutoImplicit false
set_option autoImplicit false

/-!
# The length of an imported file

How long an imported file is for the guest. `RANSIZE` takes the largest record number of the
entries of a file, which `COMPRAND` computes from the extent number and the record count.
`addfile` sets the record count of an entry to the records of its blocks, also if the file ends
within the last block; and the empty entry behind a file of sixteen full extents has a number that
the BDOS takes for extent 32.

## Main definitions

* `Cpm22.CpmDir.comprand`, `Cpm22.Disk.ransize` — the computation of the BDOS.
* `Cpm22.Disk.RightLength` — the guest sees the file as long as it is.

## Main results

* `Cpm22.Disk.ransize_import` — the number of records of an imported file.
* `Cpm22.Disk.right_length_iff` — when the guest sees an imported file as long as it is.
-/

namespace Cpm22

open HostPath HostFs

/-! ## The computation of the BDOS -/

/-- **`COMPRAND`** on an entry, with the record count as record number: `(BC)` and the overflow
bit. -/
def CpmDir.comprand (e : CpmDir) : ℕ :=
  -- the lower bit of the extent goes to bit 7
  let low := e.rc.toNat + 128 * (e.xl.toNat % 2)
  let b := low / 256 + e.xl.toNat / 2 % 16
  let high := 16 * e.xh.toNat % 256 + b
  let overflow := if e.xh.toNat / 16 % 2 = 1 ∨ 256 ≤ high then 1 else 0
  low % 256 + 256 * (high % 256) + 65536 * overflow

/-- `COMPRAND` counts the records up to the end of an entry. -/
lemma CpmDir.comprand_eq {e : CpmDir} (h : e.BdosNumbered) : e.comprand = e.records := by
  obtain ⟨hxl, hxh⟩ := h
  have hrc := e.rc.toNat_lt
  rw [comprand, records, logicalExtent]
  split
  · omega
  · omega

namespace Disk

/-- **`RANSIZE`**: the loop over the entries of a file that keeps the largest record number. -/
def ransize (dir : List CpmDir) (k : Bytes) : ℕ :=
  (entriesOf dir k).foldl (fun r e => if e.comprand < r then r else e.comprand) 0

/-- An upper bound of the loop. -/
lemma foldl_comprand_le (es : List CpmDir) : ∀ {r m : ℕ},
    es.foldl (fun r e => if e.comprand < r then r else e.comprand) r ≤ m ↔
      r ≤ m ∧ ∀ e ∈ es, e.comprand ≤ m := by
  induction es with
  | nil => intro r m; simp
  | cons e es ih =>
    intro r m
    have hstep : (if e.comprand < r then r else e.comprand) ≤ m ↔ r ≤ m ∧ e.comprand ≤ m := by
      split <;> omega
    rw [List.foldl_cons, ih, List.forall_mem_cons, hstep, and_assoc]

/-- An upper bound of the number of records. -/
lemma ransize_le {dir : List CpmDir} {k : Bytes} {m : ℕ} :
    ransize dir k ≤ m ↔ ∀ e ∈ entriesOf dir k, e.comprand ≤ m := by
  rw [ransize, foldl_comprand_le]
  simp

/-! ## One entry -/

variable {g : Geometry} {u : UInt8} {name : Bytes} {c n free : ℕ}

/-- Filling pointers does not change the record count. -/
lemma rc_fill (bps : ℕ) (is : List ℕ) : ∀ (e : CpmDir) (v : ℕ), (e.fill bps is v).rc = e.rc := by
  induction is with
  | nil => exact fun _ _ => rfl
  | cons i is ih =>
    intro e v
    rw [CpmDir.fill, ih, CpmDir.setPointer]
    split <;> rfl

/-- **The record count of the entry of an extent**: the records of its blocks. -/
lemma rc_extent (hg : g.Regular) (hn : n ≤ g.dpb.blockPtrType) :
    (extent g.dpb u name c n free).rc.toNat = n * 2 ^ g.dpb.bsh := by
  have hle : n * 2 ^ g.dpb.bsh ≤ 128 := by
    rw [← hg.extent]
    exact Nat.mul_le_mul_right _ hn
  have hdiv : n * g.dpb.blockSize / 128 = n * 2 ^ g.dpb.bsh := by
    rw [Dpb.blockSize_eq, Nat.mul_left_comm]
    exact Nat.mul_div_cancel_left _ (by decide)
  rw [extent, rc_fill]
  show (n * g.dpb.blockSize / 128).toUInt8.toNat = _
  rw [hdiv, Nat.toUInt8_eq, UInt8.toNat_ofNat']
  omega

/-- **The record number that the BDOS computes from an entry** of one of the first sixteen extents:
all records up to the end of its blocks. -/
lemma comprand_extent (hg : g.Regular) (hn : n ≤ g.dpb.blockPtrType) (hc : c < 16) :
    (extent g.dpb u name c n free).comprand = (c * g.dpb.blockPtrType + n) * 2 ^ g.dpb.bsh := by
  obtain ⟨-, -, hnum⟩ := extent_fields g.dpb u name c n free
  rw [numbered_iff] at hnum
  have hrecords : (c * g.dpb.blockPtrType + n) * 2 ^ g.dpb.bsh = 128 * c + n * 2 ^ g.dpb.bsh := by
    rw [Nat.add_mul, Nat.mul_assoc, hg.extent, Nat.mul_comm c]
  rw [CpmDir.comprand_eq ⟨by omega, by omega⟩, CpmDir.records, CpmDir.logicalExtent,
    rc_extent hg hn, hnum.1, hnum.2, hrecords]
  omega

/-- The entry with number 16 has `Xl = 0` and `Xh = 1`, which is extent 32 for the BDOS. -/
lemma comprand_sixteen (hg : g.Regular) : (extent g.dpb u name 16 0 free).comprand = 4096 := by
  obtain ⟨-, -, hnum⟩ := extent_fields g.dpb u name 16 0 free
  rw [numbered_iff] at hnum
  rw [CpmDir.comprand_eq ⟨by omega, by omega⟩, CpmDir.records, CpmDir.logicalExtent,
    rc_extent hg (Nat.zero_le _), hnum.1, hnum.2]
  omega

/-! ## One file -/

section File

variable {size : ℕ}

/-- The blocks of a file hold its records. -/
lemma fileBlocks_eq (d : Dpb) (size : ℕ) : fileBlocks d size = size ⌈/⌉ 128 ⌈/⌉ 2 ^ d.bsh := by
  have hpos := Nat.two_pow_pos d.bsh
  have hsize : fileBlocks d size = size ⌈/⌉ d.blockSize :=
    (Nat.ceilDiv_eq_add_pred_div size d.blockSize).symm
  rw [hsize, Dpb.blockSize_eq]
  refine eq_of_forall_ge_iff fun m => ?_
  rw [ceilDiv_le_iff_le_mul (by omega), ceilDiv_le_iff_le_mul hpos,
    ceilDiv_le_iff_le_mul (by decide), Nat.mul_assoc]

/-- A file below 256 KiB has at most sixteen full extents. -/
lemma fileBlocks_le (hg : g.Regular) (hsize : size < 262144) :
    fileBlocks g.dpb size ≤ 16 * g.dpb.blockPtrType := by
  have hpos := Nat.two_pow_pos g.dpb.bsh
  have hext := hg.extent
  rw [fileBlocks_eq, ceilDiv_le_iff_le_mul hpos, ceilDiv_le_iff_le_mul (by decide)]
  calc size ≤ 128 * (16 * 128) := hsize.le
    _ = 128 * (2 ^ g.dpb.bsh * (16 * g.dpb.blockPtrType)) := by
      rw [← hext]
      ring

/-- The extent in which a file below 256 KiB ends is one of the first sixteen, or empty. -/
lemma fileBlocks_div_le (hg : g.Regular) (hsize : size < 262144) :
    fileBlocks g.dpb size / g.dpb.blockPtrType ≤ 16 := by
  have hle := fileBlocks_le hg hsize
  rw [Nat.mul_comm] at hle
  exact Nat.div_le_of_le_mul hle

/-- The number of extents of a file below 256 KiB. -/
lemma fileDirs_eq (hg : g.Regular) (hsize : size < 262144) :
    fileDirs g.dpb size = 1 + fileBlocks g.dpb size / g.dpb.blockPtrType := by
  have hle := fileBlocks_div_le hg hsize
  rw [fileDirs, Nat.mod_eq_of_lt (by omega)]

/-- **The number of records of an imported file** below 256 KiB: those of its blocks, or 4096 if it
has sixteen full extents.

**Proof sketch.** An entry of one of the first sixteen extents has no more records in front of its
end than the file has in its blocks, and the last one has as many. A seventeenth entry is there
only behind sixteen full extents, and counts more. -/
lemma ransize_import (hg : g.Regular) (hsize : size < 262144) {dir : List CpmDir} {k : Bytes}
    (hentries : entriesOf dir k = extents g.dpb u name (fileDirs g.dpb size) 0
      (fileBlocks g.dpb size) free) :
    ransize dir k = if fileBlocks g.dpb size = 16 * g.dpb.blockPtrType then 4096
      else fileBlocks g.dpb size * 2 ^ g.dpb.bsh := by
  have hpos := hg.ptrs_pos
  have hle := fileBlocks_le hg hsize
  have hlast := fileBlocks_div_le hg hsize
  have hdirs := fileDirs_eq hg hsize
  set B := fileBlocks g.dpb size with hB
  set P := g.dpb.blockPtrType with hP
  have hbelow : ∀ i ≤ B / P, (i * P + min (B - i * P) P) * 2 ^ g.dpb.bsh ≤ B * 2 ^ g.dpb.bsh := by
    intro i hi
    have hmul : i * P ≤ B := (Nat.le_div_iff_mul_le hpos).mp hi
    exact Nat.mul_le_mul_right _ (by omega)
  refine eq_of_forall_ge_iff fun m => ?_
  rw [ransize_le, hentries, hdirs]
  split
  · rename_i hfull
    have hsixteen : B / P = 16 := by rw [hfull]; exact Nat.mul_div_cancel _ hpos
    have hnone : min (B - 16 * P) P = 0 := by omega
    have hblocks : B * 2 ^ g.dpb.bsh = 2048 := by rw [hfull, Nat.mul_assoc, hg.extent]
    constructor
    · intro h
      have hend := h _ (mem_extents.mpr ⟨16, by omega, rfl⟩)
      rwa [hnone, comprand_sixteen hg] at hend
    · intro h e he
      obtain ⟨i, hi, rfl⟩ := mem_extents.mp he
      rcases Nat.lt_or_ge i 16 with hlt | hge
      · rw [comprand_extent hg (Nat.min_le_right _ _) hlt]
        exact (hbelow i (by omega)).trans (by omega)
      · obtain rfl : i = 16 := by omega
        rwa [hnone, comprand_sixteen hg]
  · rename_i hnot
    have hlt : B / P < 16 := by
      rw [Nat.div_lt_iff_lt_mul hpos]
      omega
    constructor
    · intro h
      have hend := h _ (mem_extents.mpr ⟨B / P, by omega, rfl⟩)
      have hdiv := Nat.div_add_mod' B P
      have hmod := Nat.mod_lt B hpos
      have hall : B / P * P + min (B - B / P * P) P = B := by omega
      rwa [comprand_extent hg (Nat.min_le_right _ _) hlt, hall] at hend
    · intro h e he
      obtain ⟨i, hi, rfl⟩ := mem_extents.mp he
      rw [comprand_extent hg (Nat.min_le_right _ _) (by omega)]
      exact (hbelow i (by omega)).trans h

/-- **The guest sees a file of `size` bytes as long as it is**: the BDOS computes the number of its
records, the entries in front of the last one with blocks are full, and every record has a
block. -/
structure RightLength (d : Dpb) (dir : List CpmDir) (k : Bytes) (size : ℕ) : Prop where
  count : ransize dir k = size ⌈/⌉ 128
  full : ∀ (i j : ℕ) (e e' : CpmDir), i < j → (entriesOf dir k)[i]? = some e →
    (entriesOf dir k)[j]? = some e' → blocksOf d e' ≠ [] → e.rc = 128
  covered : ∀ r < size ⌈/⌉ 128,
    (∃ e ∈ entriesOf dir k, e.xl.toNat = r / 128 % 32 ∧ e.xh.toNat = r / 128 / 32) ∧
    ∀ e ∈ entriesOf dir k, e.xl.toNat = r / 128 % 32 → e.xh.toNat = r / 128 / 32 →
      e.pointer d.blockPtrType (r % 128 / (d.blockSize / 128)) ≠ 0

/-- The records of a file fill its blocks iff their number is a multiple of the records of a
block. -/
lemma mul_ceilDiv_eq_iff {q r : ℕ} (hq : 0 < q) : (r ⌈/⌉ q) * q = r ↔ q ∣ r := by
  constructor
  · intro h
    rw [← h]
    exact Nat.dvd_mul_left q _
  · rintro ⟨m, rfl⟩
    have : (q * m) ⌈/⌉ q = m := smul_ceilDiv hq m
    rw [this, Nat.mul_comm]

/-- The number of records of an imported file is right iff they fill its blocks and are less than
2048.

**Proof sketch.** The computed number is that of all records of the blocks, so that it is right iff
they are full; only at 2048 records does the last extent look like the first of the next sixteen,
and 4096 comes out. -/
lemma ransize_right_iff (hg : g.Regular) (hsize : size < 262144) :
    (if fileBlocks g.dpb size = 16 * g.dpb.blockPtrType then 4096
      else fileBlocks g.dpb size * 2 ^ g.dpb.bsh) = size ⌈/⌉ 128 ↔
      2 ^ g.dpb.bsh ∣ size ⌈/⌉ 128 ∧ size ⌈/⌉ 128 ≠ 2048 := by
  have hpos := Nat.two_pow_pos g.dpb.bsh
  have hext := hg.extent
  have hrecords : size ⌈/⌉ 128 ≤ 2048 := by
    rw [ceilDiv_le_iff_le_mul (by decide)]
    omega
  have hfill := mul_ceilDiv_eq_iff (r := size ⌈/⌉ 128) hpos
  rw [← fileBlocks_eq] at hfill
  rw [← hfill]
  split
  · rename_i hfull
    have hbound : fileBlocks g.dpb size * 2 ^ g.dpb.bsh = 2048 := by
      rw [hfull, Nat.mul_assoc, hext]
    omega
  · rename_i hnot
    refine ⟨fun h => ⟨h, fun heq => hnot ?_⟩, fun h => h.1⟩
    have hmul : fileBlocks g.dpb size * 2 ^ g.dpb.bsh =
        16 * g.dpb.blockPtrType * 2 ^ g.dpb.bsh := by
      rw [h, heq, Nat.mul_assoc, hext]
    exact Nat.eq_of_mul_eq_mul_right hpos hmul

/-- The entries in front of the last one with blocks are full.

**Proof sketch.** The later entry has a block, so that the blocks of the file do not end in front
of it. The earlier entry then has as many blocks as fit, which are 128 records. -/
lemma full_extents (hg : g.Regular) {todo rest i j : ℕ} (hpos : 0 < free)
    (hle : free + min rest (todo * g.dpb.blockPtrType) ≤ g.dpb.maxBlock) {e e' : CpmDir}
    (hij : i < j) (hi : (extents g.dpb u name todo 0 rest free)[i]? = some e)
    (hj : (extents g.dpb u name todo 0 rest free)[j]? = some e')
    (hblocks : blocksOf g.dpb e' ≠ []) : e.rc = 128 := by
  have hlt : j < todo := by
    have := (List.getElem?_eq_some_iff.mp hj).1
    rwa [length_extents] at this
  rw [getElem?_extents _ _ _ _ (by omega), Option.some.injEq] at hi hj
  have hmul := Nat.mul_le_mul_right g.dpb.blockPtrType (Nat.succ_le_of_lt hij)
  have hmul' := Nat.mul_le_mul_right g.dpb.blockPtrType (Nat.succ_le_of_lt hlt)
  rw [Nat.succ_mul] at hmul hmul'
  -- the later entry has a block, so the blocks do not end in front of it
  have hrest : j * g.dpb.blockPtrType < rest := by
    by_contra hend
    refine hblocks ?_
    rw [← hj, blocksOf_extent hg (Nat.min_le_right _ _) (by omega) (by omega)]
    simp only [List.range'_eq_nil_iff]
    omega
  have hfull : min (rest - i * g.dpb.blockPtrType) g.dpb.blockPtrType = g.dpb.blockPtrType := by
    omega
  rw [← UInt8.toNat_inj, ← hi, hfull, rc_extent hg le_rfl, hg.extent]
  rfl

/-- Every record of a file below 256 KiB has a block.

**Proof sketch.** The record is in front of the end of the file, so that its block is one of the
file's blocks and its extent one of the extents. The extents are numbered apart from each other,
and the pointer of the block is a number of a block that was given out, which is not 0. -/
lemma covered_extents (hg : g.Regular) (hsize : size < 262144) (hpos : 0 < free)
    (hle : free + min (fileBlocks g.dpb size) (fileDirs g.dpb size * g.dpb.blockPtrType) ≤
      g.dpb.maxBlock) {es : List CpmDir} (hes : es = extents g.dpb u name (fileDirs g.dpb size) 0
      (fileBlocks g.dpb size) free) {r : ℕ} (hr : r < size ⌈/⌉ 128) :
    (∃ e ∈ es, e.xl.toNat = r / 128 % 32 ∧ e.xh.toNat = r / 128 / 32) ∧
      ∀ e ∈ es, e.xl.toNat = r / 128 % 32 → e.xh.toNat = r / 128 / 32 →
        e.pointer g.dpb.blockPtrType (r % 128 / (g.dpb.blockSize / 128)) ≠ 0 := by
  have hrecord : 128 * r < size := by
    by_contra hend
    exact absurd ((ceilDiv_le_iff_le_mul (by decide)).mpr (Nat.le_of_not_lt hend)) (by omega)
  have hblock := lt_fileBlocks (d := g.dpb) hrecord
  have hindex := record_index hg r
  rw [record_block hg r] at hblock
  have hptrs : 0 < g.dpb.blockPtrType := Nat.zero_lt_of_lt hindex
  have hdirs := fileDirs_eq hg hsize
  have hfull := fileBlocks_div_le hg hsize
  have hextent : r / 128 ≤ fileBlocks g.dpb size / g.dpb.blockPtrType := by
    rw [Nat.le_div_iff_mul_le hptrs]
    exact (Nat.le_add_right _ _).trans hblock.le
  have hnum : ∀ i n v, _ := fun i n v => numbered_iff.mp (extent_fields g.dpb u name i n v).2.2
  subst hes
  constructor
  · refine ⟨_, mem_extents.mpr ⟨r / 128, by omega, rfl⟩, ?_, ?_⟩
    · rw [(hnum _ _ _).1]
      omega
    · rw [(hnum _ _ _).2]
      omega
  · intro e he hxl hxh
    obtain ⟨i, hi, rfl⟩ := mem_extents.mp he
    rw [(hnum _ _ _).1] at hxl
    rw [(hnum _ _ _).2] at hxh
    obtain rfl : i = r / 128 := by omega
    have hmul := Nat.mul_le_mul_right g.dpb.blockPtrType (Nat.succ_le_of_lt hi)
    rw [Nat.succ_mul] at hmul
    rw [blockSize_div, pointer_extent hg (Nat.min_le_right _ _) (by omega) hindex,
      if_pos (by omega)]
    exact Nat.ne_of_gt (Nat.add_pos_left (Nat.add_pos_left hpos _) _)

/-- **The guest sees an imported file below 256 KiB as long as it is iff its records fill its
blocks and are less than 2048.** -/
theorem right_length_iff {readdir : Bytes → Option (List Bytes)} {path : Bytes} {host : Host}
    {dk : Disk} (hg : g.Shipped) (hbuild : build readdir path g host = .ok () dk) {k p : Bytes}
    (hk : dk.cpm2unix.lookup k = some p) (hstat : host.stat p = some (.regular size))
    (hsize : size < 262144) : RightLength g.dpb dk.dir k size ↔
      2 ^ g.dpb.bsh ∣ size ⌈/⌉ 128 ∧ size ⌈/⌉ 128 ≠ 2048 := by
  have hreg := hg.regular
  obtain ⟨u, name, free, hpos, hle, hentries⟩ := entriesOf_build hreg hbuild hk hstat
  have hcount := ransize_import hreg hsize hentries
  rw [← ransize_right_iff hreg hsize, ← hcount]
  constructor
  · exact fun h => h.count
  · intro h
    refine ⟨h, ?_, ?_⟩
    · intro i j e e' hij hi hj hblocks
      rw [hentries] at hi hj
      exact full_extents hreg hpos hle hij hi hj hblocks
    · exact fun r hr => covered_extents hreg hsize hpos hle hentries hr

/-- A file of one block is as long as it is. -/
theorem right_length_block : ∃ dk,
    build bigReaddir [slash, ch 'd'] ibm8 (bigHost (List.replicate 1024 0)) = .ok () dk ∧
      RightLength ibm8.dpb dk.dir (keyOf 0 bigName) 1024 := by
  have hlen : (List.replicate 1024 (0 : UInt8)).length = 1024 := List.length_replicate
  have hstat := stat_big (List.replicate 1024 0)
  have hbuild := (build_bigFile (g := ibm8) regular_ibm8
    (List.replicate 1024 0)).mpr ⟨by rw [hlen]; decide, rfl⟩
  rw [hlen] at hstat
  have hiff := right_length_iff (.inl rfl) hbuild (lookup_bigFile _ _ _) hstat (by decide)
  exact ⟨_, hbuild, hiff.mpr (by decide)⟩

/-- **A file of one byte has eight records for the guest.** -/
theorem wrong_length_byte : ∃ dk,
    build bigReaddir [slash, ch 'd'] ibm8 (bigHost [7]) = .ok () dk ∧
      dk.cpm2unix.lookup (keyOf 0 bigName) = some bigPath ∧
      (bigHost [7]).stat bigPath = some (.regular 1) ∧
      ransize dk.dir (keyOf 0 bigName) = 8 ∧ ¬ RightLength ibm8.dpb dk.dir (keyOf 0 bigName) 1 := by
  have hreg : ibm8.Regular := regular_ibm8
  have hbuild := (build_bigFile hreg [7]).mpr ⟨by decide, rfl⟩
  have hk := lookup_bigFile ibm8 (bigHost [7]) 1
  obtain ⟨u, name, free, -, -, hentries⟩ := entriesOf_build hreg hbuild hk (stat_big [7])
  have hcount := ransize_import hreg (by decide : 1 < 262144) hentries
  rw [if_neg (by decide), show fileBlocks ibm8.dpb 1 * 2 ^ ibm8.dpb.bsh = 8 by decide] at hcount
  refine ⟨_, hbuild, hk, stat_big [7], hcount, fun h => ?_⟩
  have hright := h.count
  rw [hcount] at hright
  exact absurd hright (by decide)

end File

end Disk

end Cpm22
