import Cpm22.Disk.Address
import Cpm22.Disk.Packing

set_option relaxedAutoImplicit false
set_option autoImplicit false

/-!
# Import fidelity

Whether the guest finds the contents of an imported host file. For record `r` the BDOS looks up the
entry with `Xl = (r / 128) % 32` and `Xh = r / 128 / 32` (`POSITN1`), takes the block pointer of the
record in it and reads the record's sector of that block. `addfile` numbers extents with four bits
in `Xl`, so the two agree for the first sixteen extents only.

## Main definitions

* `Cpm22.Disk.RecordFound` — the BDOS finds record `r` of a file and reads its bytes.

## Main results

* `Cpm22.Disk.Built.record` — the entry and the block of a record in the first sixteen extents.
* `Cpm22.Disk.import_faithful_iff` — a file is found completely iff it has at most 256 KiB.
* `Cpm22.Disk.import_unfaithful` — a file of 262145 bytes.
-/

namespace Cpm22

open HostPath HostFs

namespace Disk

/-- **The BDOS finds record `r` of the file with key `k`**: the extent it looks up is there, its
block pointer is not zero, and reading the sector of the record delivers the bytes of `content`
from `128 * r` on, up to the end of the file. -/
def RecordFound (g : Geometry) (dk : Disk) (k content : Bytes) (r : ℕ) : Prop :=
  ∃ e ∈ dk.dir, e.Used ∧ e.getName = k ∧ e.xl.toNat = r / 128 % 32 ∧ e.xh.toNat = r / 128 / 32 ∧
    let block := e.pointer g.dpb.blockPtrType (r % 128 / (g.dpb.blockSize / 128))
    let sid := block * (g.dpb.blockSize / 128) + r % (g.dpb.blockSize / 128)
    block ≠ 0 ∧ ∀ dma, ∃ dk', read (g.trackOf sid) (g.sectorOf sid) dma dk =
      .ok (0, overlay dma ((content.drop (128 * r)).take 128)) dk'

variable {g : Geometry} {dk₀ dk : Disk}

/-- The sectors of a block. -/
lemma blockSize_div (d : Dpb) : d.blockSize / 128 = 2 ^ d.bsh := by
  rw [Dpb.blockSize_eq]
  omega

/-- The blocks of a file cover its records. -/
lemma lt_fileBlocks {d : Dpb} {size r : ℕ} (hr : 128 * r < size) :
    r / 2 ^ d.bsh < fileBlocks d size := by
  have hpos := Nat.two_pow_pos d.bsh
  rw [fileBlocks, Dpb.blockSize_eq]
  rw [Nat.lt_div_iff_mul_lt (by omega)]
  have := Nat.div_mul_le_self r (2 ^ d.bsh)
  calc r / 2 ^ d.bsh * (128 * 2 ^ d.bsh) = 128 * (r / 2 ^ d.bsh * 2 ^ d.bsh) := by ring
    _ ≤ 128 * r := Nat.mul_le_mul_left _ this
    _ < size + 128 * 2 ^ d.bsh - 1 - (128 * 2 ^ d.bsh - 1) := by omega

/-- A block pointer and a sector of the block for each record of an extent. -/
lemma record_index (hg : g.Regular) (r : ℕ) : r % 128 / 2 ^ g.dpb.bsh < g.dpb.blockPtrType := by
  refine Nat.div_lt_of_lt_mul ?_
  rw [Nat.mul_comm, hg.extent]
  omega

/-- The block of a record, by extent and pointer. -/
lemma record_block (hg : g.Regular) (r : ℕ) : r / 2 ^ g.dpb.bsh =
    r / 128 * g.dpb.blockPtrType + r % 128 / 2 ^ g.dpb.bsh := by
  have hsplit : r = 2 ^ g.dpb.bsh * (g.dpb.blockPtrType * (r / 128)) + r % 128 := by
    rw [← Nat.mul_assoc, Nat.mul_comm (2 ^ g.dpb.bsh), hg.extent]
    omega
  conv_lhs => rw [hsplit]
  rw [Nat.mul_add_div (Nat.two_pow_pos g.dpb.bsh), Nat.mul_comm g.dpb.blockPtrType]

/-- The place of a record in its file. -/
lemma place_record (hg : g.Regular) (r : ℕ) :
    place g.dpb (r / 128) (r % 128 / 2 ^ g.dpb.bsh) (r % 2 ^ g.dpb.bsh) = 128 * r := by
  have h1 : r % 2 ^ g.dpb.bsh = r % 128 % 2 ^ g.dpb.bsh :=
    (Nat.mod_mod_of_dvd r ⟨g.dpb.blockPtrType, by rw [Nat.mul_comm, hg.extent]⟩).symm
  have h2 := Nat.div_add_mod' (r % 128) (2 ^ g.dpb.bsh)
  rw [place, blockSize_div, h1]
  omega

/-- **A record in the first sixteen extents** of an imported file: the entry the BDOS looks up, and
the sector it reads.

**Proof sketch.** The block of the record is one of the file's blocks, so the extent of the record
was entered and its pointer is set; the pointer is a block of the data area. -/
lemma Built.record (hg : g.Regular) (hdpb : dk₀.dpb = g.dpb) (hb : Built dk₀ dk) {k p : Bytes}
    (hk : dk.cpm2unix.lookup k = some p) {size r : ℕ}
    (hsize : dk.host.stat p = some (.regular size)) (hle : size ≤ 262144) (hr : 128 * r < size) :
    ∃ e ∈ dk.dir, e.Used ∧ e.getName = k ∧ e.xl.toNat = r / 128 ∧ e.xh = 0 ∧
      e.getExtNumber = r / 128 ∧
      let b := r % 128 / 2 ^ g.dpb.bsh
      let sid := e.pointer g.dpb.blockPtrType b * 2 ^ g.dpb.bsh + r % 2 ^ g.dpb.bsh
      e.pointer g.dpb.blockPtrType b ≠ 0 ∧ Owns g.dpb e b (r % 2 ^ g.dpb.bsh) sid ∧
        DataSector g.dpb sid ∧ place g.dpb (r / 128) b (r % 2 ^ g.dpb.bsh) = 128 * r := by
  obtain ⟨done, blocks, hl, -, hsome⟩ := hb.laid
  obtain ⟨sz, hsz, hdone, hblocks⟩ := hsome k p hk
  have hszeq : sz = size := by
    rw [hsz] at hsize
    simpa using hsize
  subst hszeq
  have hd : dk.dpb = g.dpb := hb.frame.dpb.trans hdpb
  rw [hd] at hdone hblocks
  have hext := hg.extent
  have hpos := Nat.two_pow_pos g.dpb.bsh
  set q := 2 ^ g.dpb.bsh with hq
  set bps := g.dpb.blockPtrType with hbps
  have hbpos : 0 < bps := hg.ptrs_pos
  have hlt := lt_fileBlocks (d := g.dpb) hr
  rw [← hq] at hlt
  have hb1 : r % 128 / q < bps := record_index hg r
  have hsplit : r / q = r / 128 * bps + r % 128 / q := record_block hg r
  have hdir : r / 128 < fileDirs g.dpb sz := by
    have hblk : fileBlocks g.dpb sz ≤ 2 ^ 20 := by
      rw [fileBlocks]
      exact (Nat.div_le_self _ _).trans (by
        rw [Dpb.blockSize_eq, ← hq]
        have : q ≤ 128 := by
          calc q = 1 * q := (Nat.one_mul q).symm
            _ ≤ bps * q := Nat.mul_le_mul_right _ hbpos
            _ = 128 := hext
        omega)
    have hdiv : r / 128 ≤ fileBlocks g.dpb sz / bps := by
      rw [Nat.le_div_iff_mul_le hbpos]
      rw [hsplit] at hlt
      exact (Nat.le_add_right _ _).trans hlt.le
    have hsmall : fileBlocks g.dpb sz / bps ≤ 2 ^ 20 := (Nat.div_le_self _ _).trans hblk
    rw [fileDirs, ← hbps, Nat.mod_eq_of_lt (by omega)]
    omega
  obtain ⟨e, he, hu, hname, hnum, hptr⟩ := hl.entered k (r / 128) (by rw [hdone]; exact hdir)
  rw [hd, ← hbps, hblocks] at hptr
  have hne : e.pointer bps (r % 128 / q) ≠ 0 := hptr _ (by omega)
  have hblock := hl.block e he hu (r % 128 / q) (by rw [hd]; exact hb1)
  rw [hd, ← hbps] at hblock
  have hfree := hl.free.2
  rw [hd] at hfree
  have hrange := hblock.resolve_left hne
  rw [numbered_iff] at hnum
  have hxl : e.xl.toNat = r / 128 := by omega
  have hxh : e.xh = 0 := UInt8.toNat_inj.mp (by rw [hnum.2, UInt8.toNat_zero]; omega)
  refine ⟨e, he, hu, hname, hxl, hxh, by rw [CpmDir.getExtNumber_of_xh_zero hxh, hxl], hne,
    ⟨hu, hb1, Nat.mod_lt _ hpos, rfl⟩, ⟨?_, ?_⟩, place_record hg r⟩
  · exact (Nat.mul_le_mul_right q hrange.1).trans (Nat.le_add_right _ _)
  · have h1 := Nat.mul_le_mul_right q (Nat.succ_le_of_lt (hrange.2.trans hfree))
    rw [Nat.succ_mul] at h1
    exact (Nat.add_lt_add_left (Nat.mod_lt r hpos) _).trans_le h1

/-- **An imported file is found completely iff it has at most 256 KiB.** The file has key `k`, host
path `p` and contents `content`; the record `r` ranges over all records of the file.

**Proof sketch.** Up to 256 KiB every record has an entry with `Xh` zero and a block there
(`Built.record`), and as nothing is cached, the read is one of the host file at the place of the
record. Above it record 2048 would need an entry with `Xl` 16, but the import numbers its extents
with four bits in `Xl`. -/
theorem import_faithful_iff {readdir : Bytes → Option (List Bytes)} {path : Bytes} {host : Host}
    (hg : g.Shipped) (hbuild : build readdir path g host = .ok () dk) (hw : host.Works)
    {k p content : Bytes} (hk : dk.cpm2unix.lookup k = some p)
    (hc : host.find p = some (.file content)) :
    (∀ r, 128 * r < content.length → RecordFound g dk k content r) ↔ content.length ≤ 262144 := by
  have hreg := hg.regular
  obtain ⟨hb, -⟩ := built_of_build hreg hbuild
  have hhost : dk.host = host := hb.frame.host
  have hcache : dk.cache = ∅ := hb.frame.cache
  constructor
  · intro h
    by_contra hlt
    -- record 2048 is the first of extent 16, which the BDOS numbers `Xl = 16`
    obtain ⟨e, he, hu, -, hxl, -⟩ := h 2048 (by omega)
    obtain ⟨done, blocks, hl, -⟩ := hb.laid
    obtain ⟨d, -, -, hnum⟩ := hl.number e he hu
    rw [numbered_iff] at hnum
    omega
  · intro hle r hr
    have hstat : dk.host.stat p = some (.regular content.length) := by
      rw [hhost, Host.stat, hc]
    obtain ⟨e, he, hu, hname, hxl, hxh, hext, hne, ho, hd, hplace⟩ :=
      hb.record hreg rfl hk hstat hle hr
    obtain ⟨done, blocks, hl, -⟩ := hb.laid
    have hdpb : dk.dpb = g.dpb := hb.frame.dpb
    have hdp := hl.distinct
    rw [hdpb] at hdp
    refine ⟨e, he, hu, hname, by omega, by rw [hxh, UInt8.toNat_zero]; omega, ?_⟩
    simp only [blockSize_div]
    refine ⟨hne, fun dma => ?_⟩
    have hnot : ∀ sid, sid ∉ dk.cache := fun sid => by
      rw [hcache]
      exact AList.notMem_empty sid
    have hhof : dk.hostOf e = p := by rw [hostOf, hname, hk]; rfl
    rw [read_owned hb.frame.shaped hreg hdp he ho hd (hnot _), hext, hplace, hhof, hhost,
      Host.read_of_works hw hc]
    exact ⟨_, rfl⟩

/-! ## A file that is too long -/

/-- A host with a drive directory `/d` that holds one file `BIG`. -/
def bigHost (content : Bytes) : Host where
  node p :=
    if p = ⟨true, [[ch 'd'], [ch 'B', ch 'I', ch 'G']]⟩ then some (.file content)
    else if p = ⟨true, [[ch 'd']]⟩ then some .dir
    else none
  calls := []
  refuses _ := false

/-- The names of the drive directory. -/
def bigReaddir (_ : Bytes) : Option (List Bytes) := some [[ch 'B', ch 'I', ch 'G']]

/-- The path of the file `BIG`. -/
def bigPath : Bytes := [slash, ch 'd', slash, ch 'B', ch 'I', ch 'G']

/-- The CP/M name of the file `BIG`. -/
def bigName : Bytes := [ch 'B', ch 'I', ch 'G'] ++ List.replicate 9 (ch ' ')

/-- The file `BIG` on the host. -/
lemma stat_big (content : Bytes) :
    (bigHost content).stat bigPath = some (.regular content.length) := by
  have hnorm : normal bigPath = ⟨true, [[ch 'd'], [ch 'B', ch 'I', ch 'G']]⟩ := by decide
  have hfind : (bigHost content).find bigPath = some (.file content) := by
    rw [Host.find, if_neg (by decide), hnorm]
    rfl
  rw [Host.stat, hfind]

/-- The drive directory has no user directories. -/
lemma stat_user_big (content : Bytes) {u : UInt8} (hu : u ∈ users) :
    (bigHost content).stat ([slash, ch 'd'] ++ slash :: decimal u.toNat) = none := by
  have hnode : ∀ u ∈ users, normal ([slash, ch 'd'] ++ slash :: decimal u.toNat) ≠
        ⟨true, [[ch 'd'], [ch 'B', ch 'I', ch 'G']]⟩ ∧
      normal ([slash, ch 'd'] ++ slash :: decimal u.toNat) ≠ ⟨true, [[ch 'd']]⟩ := by
    decide +kernel
  obtain ⟨hn1, hn2⟩ := hnode u hu
  have hfind : (bigHost content).find ([slash, ch 'd'] ++ slash :: decimal u.toNat) = none := by
    rw [Host.find, if_neg (by simp)]
    simp only [bigHost, hn1, hn2, if_false]
  rw [Host.stat, hfind]

/-- The file `BIG` as it is handed to `addfile`. -/
def bigFile (size : ℕ) : HostFile := ⟨0, bigName, bigPath, size⟩

/-- The walk finds the file `BIG`.

**Proof sketch.** The walk over user 0 lists the one file, and none of the other users has a
directory. -/
lemma scanHost_big (content : Bytes) : scanHost bigReaddir (bigHost content) [slash, ch 'd'] =
    some [bigFile content.length] := by
  have hname : scanName (bigHost content) [slash, ch 'd'] 0 [ch 'B', ch 'I', ch 'G'] =
      some [bigFile content.length] := by
    have hpath : [slash, ch 'd'] ++ slash :: [ch 'B', ch 'I', ch 'G'] = bigPath := rfl
    have hc : cpmName [ch 'B', ch 'I', ch 'G'] = some bigName := by decide
    rw [scanName, if_neg (by decide), hpath]
    simp only [stat_big, hc, bigFile]
  have husers : ∀ us : List UInt8, (∀ u ∈ us, u ∈ users) →
      scanUsers bigReaddir (bigHost content) [slash, ch 'd'] us = some [] := by
    intro us
    induction us with
    | nil => exact fun _ => rfl
    | cons u us ih =>
      intro hus
      rw [scanUsers, stat_user_big content (hus u (by simp))]
      exact ih fun v hv => hus v (by simp [hv])
  have huser : scanUser bigReaddir (bigHost content) [slash, ch 'd'] 0 =
      some [bigFile content.length] := by
    simp [scanUser, bigReaddir, scanNames, hname]
  simp [scanHost, huser, husers users fun _ h => h]

/-- The constructor on the file `BIG`. -/
lemma build_bigFile {dk : Disk} (hg : g.Regular) (content : Bytes) :
    build bigReaddir [slash, ch 'd'] g (bigHost content) = .ok () dk ↔
      HasRoom g.dpb [bigFile content.length] ∧
        dk = packed [slash, ch 'd'] g (bigHost content) [bigFile content.length] := by
  have hone : imported [bigFile content.length] = [bigFile content.length] := rfl
  rw [build_iff hg, scanHost_big]
  constructor
  · rintro ⟨fs, hfs, hroom, rfl⟩
    obtain rfl : [bigFile content.length] = fs := by simpa using hfs
    exact ⟨hroom, rfl⟩
  · rintro ⟨hroom, rfl⟩
    exact ⟨_, rfl, hroom, rfl⟩

/-- The name of the file `BIG` in the map. -/
lemma lookup_bigFile (g : Geometry) (host : Host) (size : ℕ) :
    (packed [slash, ch 'd'] g host [bigFile size]).cpm2unix.lookup (keyOf 0 bigName) =
      some bigPath :=
  (lookup_packed _ (by simp)).mpr ⟨bigFile size, List.mem_singleton_self _, rfl, rfl⟩

/-- The file `BIG` is imported if the hard disk has room for it. -/
lemma build_big (content : Bytes) (hroom : 16 + fileBlocks hardDisk.dpb content.length < 2040)
    (hdirs : fileDirs hardDisk.dpb content.length ≤ 1024) :
    ∃ dk, build bigReaddir [slash, ch 'd'] hardDisk (bigHost content) = .ok () dk ∧
      dk.cpm2unix.lookup (keyOf 0 bigName) = some bigPath := by
  have hslots : slots hardDisk.dpb [bigFile content.length] =
      fileDirs hardDisk.dpb content.length := by simp [slots, HostFile.dirs, bigFile]
  have htaken : taken hardDisk.dpb [bigFile content.length] ≤
      fileBlocks hardDisk.dpb content.length := by
    simp [taken, HostFile.placed, HostFile.blocks, bigFile]
  have hfits : HasRoom hardDisk.dpb [bigFile content.length] := by
    rw [HasRoom, hslots]
    exact ⟨hdirs, (Nat.add_le_add_left htaken 16).trans_lt hroom⟩
  exact ⟨_, (build_bigFile regular_hardDisk content).mpr ⟨hfits, rfl⟩,
    lookup_bigFile hardDisk _ _⟩

/-- A file of one byte is found. -/
theorem import_faithful_byte :
    ∃ dk, build bigReaddir [slash, ch 'd'] hardDisk (bigHost [7]) = .ok () dk ∧
      ((∀ r, 128 * r < ([7] : Bytes).length → RecordFound hardDisk dk (keyOf 0 bigName) [7] r) ↔
        ([7] : Bytes).length ≤ 262144) := by
  obtain ⟨dk, h1, h2⟩ := build_big [7] (by decide) (by decide)
  have hc : (bigHost [7]).find bigPath = some (.file [7]) := by decide
  exact ⟨dk, h1, import_faithful_iff (.inr rfl) h1 (fun _ => rfl) h2 hc⟩

/-- **A file of 262145 bytes is imported, but its record 2048 is not found.** -/
theorem import_unfaithful :
    ∃ dk, build bigReaddir [slash, ch 'd'] hardDisk (bigHost (List.replicate 262145 0)) =
        .ok () dk ∧
      dk.cpm2unix.lookup (keyOf 0 bigName) = some bigPath ∧
      128 * 2048 < (List.replicate 262145 (0 : UInt8)).length ∧
      ¬ RecordFound hardDisk dk (keyOf 0 bigName) (List.replicate 262145 0) 2048 := by
  have hlen : (List.replicate 262145 (0 : UInt8)).length = 262145 := List.length_replicate
  obtain ⟨dk, h1, h2⟩ := build_big (List.replicate 262145 0) (by rw [hlen]; decide)
    (by rw [hlen]; decide)
  refine ⟨dk, h1, h2, by rw [hlen]; decide, ?_⟩
  rintro ⟨e, he, hu, -, hxl, -⟩
  obtain ⟨hb, -⟩ := built_of_build regular_hardDisk h1
  obtain ⟨done, blocks, hl, -⟩ := hb.laid
  obtain ⟨d, -, -, hnum⟩ := hl.number e he hu
  rw [numbered_iff] at hnum
  omega

end Disk

end Cpm22
