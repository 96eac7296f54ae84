import Mathlib.Algebra.Order.BigOperators.Group.List
import Mathlib.Algebra.Order.Floor.Div
import Mathlib.GroupTheory.GroupAction.Ring
import Cpm22.Disk.Fidelity

set_option relaxedAutoImplicit false
set_option autoImplicit false

/-!
# Blocks and entries of an import

Which blocks and which entries the import gives to a file, and when it fails. The files are packed
without gaps: in directory order the blocks are counted up from the first one behind the
directory. A file gets all its blocks as long as the number of its extents fits in 32 bits. The
last block of the disk is never handed out, and a file whose blocks fill its extents is given an
extent more than it needs.

## Main definitions

* `Cpm22.Disk.blocksOf` — the blocks of an entry.
* `Cpm22.Disk.OwnsFile` — a file has its blocks, in consecutive entries.
* `Cpm22.Disk.SoundAllocation` — the allocation of the blocks of a disk is sound.
* `Cpm22.Disk.FitsDisk` — the files fit a CP/M disk.

## Main results

* `Cpm22.Disk.allocation_sound_iff` — the allocation is sound iff no number of extents wraps.
* `Cpm22.Disk.import_succeeds_iff` — when the import succeeds iff the files fit the disk.
-/

namespace Cpm22

open HostPath HostFs

namespace Disk

variable {g : Geometry} {u : UInt8} {name : Bytes} {k n free : ℕ} {f : HostFile}
  {ks fs : List HostFile}

/-! ## One extent -/

/-- The fields of the entry of an extent. -/
lemma extent_fields (d : Dpb) (u : UInt8) (name : Bytes) (k n free : ℕ) :
    (extent d u name k n free).st = u ∧ (extent d u name k n free).getName = keyOf u name ∧
      Numbered (extent d u name k n free) k := by
  obtain ⟨h1, h2, h3, h4⟩ := CpmDir.fill_fields d.blockPtrType (List.range' 0 n)
    (extentEntry d CpmDir.empty u name k n) free
  exact ⟨h1, h4.trans (CpmDir.getName_congr rfl rfl rfl), h2, h3⟩

/-- The pointers of the entry of an extent. -/
lemma pointer_extent (hg : g.Regular) (hn : n ≤ g.dpb.blockPtrType)
    (hfree : free + n ≤ g.dpb.maxBlock) {b : ℕ} (hb : b < g.dpb.blockPtrType) :
    (extent g.dpb u name k n free).pointer g.dpb.blockPtrType b =
      if b < n then free + b else 0 := by
  have hslots := hg.slots
  rw [extent, CpmDir.pointer_fill hg.ptrs n _ 0 free b (by omega) hb (by omega)]
  have hzero : (extentEntry g.dpb CpmDir.empty u name k n).pointer g.dpb.blockPtrType b = 0 :=
    CpmDir.pointer_empty g.dpb.blockPtrType b
  simp [hzero]

/-- **The blocks of an entry**: its pointers that are not 0, in order. -/
def blocksOf (d : Dpb) (e : CpmDir) : List ℕ :=
  ((List.range d.blockPtrType).map (e.pointer d.blockPtrType)).filter (· ≠ 0)

/-- The blocks of an extent.

**Proof sketch.** The first `n` pointers are the blocks from the free one on, and the others are 0,
which is no block; none of the first ones is 0, since the free block is not. -/
lemma blocksOf_extent (hg : g.Regular) (hn : n ≤ g.dpb.blockPtrType) (hpos : 0 < free)
    (hfree : free + n ≤ g.dpb.maxBlock) :
    blocksOf g.dpb (extent g.dpb u name k n free) = List.range' free n := by
  have hpointer : (List.range g.dpb.blockPtrType).map
      ((extent g.dpb u name k n free).pointer g.dpb.blockPtrType) =
      (List.range g.dpb.blockPtrType).map fun b => if b < n then free + b else 0 := by
    apply List.map_congr_left
    intro b hb
    exact pointer_extent hg hn hfree (List.mem_range.mp hb)
  obtain ⟨m, hm⟩ := Nat.exists_eq_add_of_le hn
  rw [blocksOf, hpointer, hm, List.range_add, List.map_append, List.filter_append]
  have hfront : ((List.range n).map fun b => if b < n then free + b else 0) =
      List.range' free n := by
    rw [List.range_eq_range', ← Nat.add_zero free, ← List.map_add_range']
    apply List.map_congr_left
    intro b hb
    have := List.mem_range'_1.mp hb
    rw [if_pos (by omega), Nat.add_zero]
  have hback : (((List.range m).map (n + ·)).map fun b => if b < n then free + b else 0) =
      List.replicate m 0 := by
    simp [Function.comp_def]
  rw [hfront, hback, List.filter_replicate, if_neg (by simp), List.append_nil,
    List.filter_eq_self]
  intro b hb
  have := List.mem_range'_1.mp hb
  simp only [ne_eq, decide_not, Bool.not_eq_true', decide_eq_false_iff_not]
  omega

/-! ## One file -/

/-- **The entry of an extent of a file.** -/
lemma getElem?_extents (d : Dpb) (u : UInt8) (name : Bytes) (todo : ℕ) : ∀ {k rest free c : ℕ},
    c < todo → (extents d u name todo k rest free)[c]? = some (extent d u name (k + c)
      (min (rest - c * d.blockPtrType) d.blockPtrType)
      (free + min rest (c * d.blockPtrType))) := by
  induction todo with
  | zero =>
    intro k rest free c hc
    omega
  | succ todo ih =>
    intro k rest free c hc
    cases c with
    | zero => simp [extents]
    | succ c =>
      have hsum := min_add_min rest d.blockPtrType c
      have hrest : rest - min rest d.blockPtrType - c * d.blockPtrType =
          rest - (c + 1) * d.blockPtrType := by
        rw [Nat.succ_mul]
        omega
      rw [extents, List.getElem?_cons_succ, ih (by omega), hrest, ← hsum]
      congr 2 <;> omega

/-- The entries of a file are those of its extents. -/
lemma mem_extents {d : Dpb} {todo rest : ℕ} {e : CpmDir} :
    e ∈ extents d u name todo 0 rest free ↔ ∃ c < todo, extent d u name c
      (min (rest - c * d.blockPtrType) d.blockPtrType)
      (free + min rest (c * d.blockPtrType)) = e := by
  rw [List.mem_iff_getElem?]
  constructor
  · rintro ⟨c, hc⟩
    have hlt : c < todo := by
      have := (List.getElem?_eq_some_iff.mp hc).1
      rwa [length_extents] at this
    rw [getElem?_extents d u name todo hlt, Nat.zero_add, Option.some.injEq] at hc
    exact ⟨c, hlt, hc⟩
  · rintro ⟨c, hlt, rfl⟩
    refine ⟨c, ?_⟩
    rw [getElem?_extents d u name todo hlt, Nat.zero_add]

/-- The names of the entries of a file. -/
lemma name_of_mem_extents {d : Dpb} (todo : ℕ) : ∀ {k rest free : ℕ},
    ∀ e ∈ extents d u name todo k rest free, e.getName = keyOf u name := by
  induction todo with
  | zero => intro k rest free e he; cases he
  | succ todo ih =>
    intro k rest free e he
    rcases List.mem_cons.mp he with rfl | he
    · exact (extent_fields d u name _ _ _).2.1
    · exact ih e he

/-- **The blocks of the extents of a file**, without gaps. -/
lemma blocksOf_extents (hg : g.Regular) (todo : ℕ) : ∀ {k rest free : ℕ}, 0 < free →
    free + min rest (todo * g.dpb.blockPtrType) ≤ g.dpb.maxBlock →
    (extents g.dpb u name todo k rest free).flatMap (blocksOf g.dpb) =
      List.range' free (min rest (todo * g.dpb.blockPtrType)) := by
  induction todo with
  | zero =>
    intro k rest free _ _
    simp [extents]
  | succ todo ih =>
    intro k rest free hpos hle
    rw [← min_add_min] at hle ⊢
    rw [extents, List.flatMap_cons, blocksOf_extent hg (Nat.min_le_right _ _) hpos (by omega),
      ih (by omega) (by omega), List.range'_append_1]

/-- The blocks of the entries of a file. -/
lemma blocksOf_fileEntries (hg : g.Regular) (f : HostFile) (free : ℕ) (hpos : 0 < free)
    (hle : free + f.placed g.dpb ≤ g.dpb.maxBlock) :
    (fileEntries g.dpb f free).flatMap (blocksOf g.dpb) = List.range' free (f.placed g.dpb) :=
  blocksOf_extents hg _ hpos hle

/-- A file has all its blocks iff the number of its extents fits in 32 bits. -/
lemma placed_eq_blocks_iff (hg : g.Regular) (f : HostFile) :
    f.placed g.dpb = f.blocks g.dpb ↔ 1 + f.blocks g.dpb / g.dpb.blockPtrType < 2 ^ 32 := by
  have hpos := hg.ptrs_pos
  have hdirs : f.dirs g.dpb = (1 + f.blocks g.dpb / g.dpb.blockPtrType) % 2 ^ 32 := rfl
  rw [HostFile.placed, min_eq_left_iff]
  constructor
  · intro hle
    by_contra hbig
    -- the extents that are left after the wrap are too few
    have hlt : f.dirs g.dpb < f.blocks g.dpb / g.dpb.blockPtrType := by omega
    have hmul := Nat.mul_lt_mul_of_pos_right hlt hpos
    have hdiv := Nat.div_mul_le_self (f.blocks g.dpb) g.dpb.blockPtrType
    omega
  · intro hlt
    rw [hdirs, Nat.mod_eq_of_lt hlt, Nat.add_comm 1]
    exact (Nat.lt_mul_of_div_lt (Nat.lt_succ_self _) hpos).le

/-! ## All files -/

/-- **The blocks of the entries of a list of files**, without gaps. -/
lemma blocksOf_entries (hg : g.Regular) (ks : List HostFile) : ∀ {free : ℕ}, 0 < free →
    free + taken g.dpb ks ≤ g.dpb.maxBlock →
    (entries g.dpb ks free).flatMap (blocksOf g.dpb) = List.range' free (taken g.dpb ks) := by
  induction ks with
  | nil =>
    intro free _ _
    simp [entries, taken]
  | cons f ks ih =>
    intro free hpos hle
    have hsum : taken g.dpb (f :: ks) = f.placed g.dpb + taken g.dpb ks := by simp [taken]
    rw [hsum] at hle ⊢
    rw [entries, List.flatMap_append, blocksOf_fileEntries hg f free hpos (by omega),
      ih (by omega) (by omega), List.range'_append_1]

/-- Every entry belongs to one of the files. -/
lemma owner_of_mem_entries {d : Dpb} {e : CpmDir} : ∀ {ks : List HostFile} {free : ℕ},
    e ∈ entries d ks free → ∃ f ∈ ks, f.dirs d ≠ 0 ∧ e.getName = f.key := by
  intro ks
  induction ks with
  | nil => intro free he; cases he
  | cons f ks ih =>
    intro free he
    rcases List.mem_append.mp he with he | he
    · refine ⟨f, by simp, ?_, name_of_mem_extents _ e he⟩
      intro hzero
      rw [fileEntries, hzero] at he
      cases he
    · obtain ⟨f', hf', h⟩ := ih he
      exact ⟨f', by simp [hf'], h⟩

/-- The names of the entries of a list of files. -/
lemma name_of_mem_entries {d : Dpb} {e : CpmDir} (he : e ∈ entries d ks free) :
    e.getName ∈ ks.map HostFile.key := by
  obtain ⟨f, hf, -, hname⟩ := owner_of_mem_entries he
  rw [hname]
  exact List.mem_map_of_mem hf

/-- The entries of a file in the directory. -/
def entriesOf (dir : List CpmDir) (k : Bytes) : List CpmDir :=
  dir.filter fun e => e.Used ∧ e.getName = k

/-- **A file has its blocks**: its entries are consecutive, they are numbered from 0 on, and of the
pointers of its entries exactly the first `blocks` ones are not 0. -/
def OwnsFile (d : Dpb) (dir : List CpmDir) (k : Bytes) (blocks : ℕ) : Prop :=
  (∃ before after, dir = before ++ entriesOf dir k ++ after) ∧
    (∀ c e, (entriesOf dir k)[c]? = some e → Numbered e c ∧ ∀ b < d.blockPtrType,
      (e.pointer d.blockPtrType b ≠ 0 ↔ c * d.blockPtrType + b < blocks)) ∧
    ((entriesOf dir k).flatMap (blocksOf d)).length = blocks

/-- The number of directory blocks: the bits that are set in `al0` and `al1`. -/
def reserved (d : Dpb) : ℕ := (List.range 16).countP fun i => d.a01.testBit i

/-- **The allocation of the blocks of a disk is sound**: no block is used twice, all are blocks of
the data area and are stored as they were handed out, every file has the blocks of its size, and
there is nothing else in the directory. -/
structure SoundAllocation (d : Dpb) (dk : Disk) : Prop where
  distinct : DistinctPointers d dk.dir
  range : ∀ e ∈ dk.dir, e.Used → ∀ b < d.blockPtrType, e.pointer d.blockPtrType b ≠ 0 →
    reserved d ≤ e.pointer d.blockPtrType b ∧ e.pointer d.blockPtrType b ≤ d.dsm
  stored : (dk.dir.filter CpmDir.Used).flatMap (blocksOf d) =
    List.range' (reserved d) (dk.freeblock - reserved d)
  files : ∀ k p, dk.cpm2unix.lookup k = some p → ∃ size, dk.host.stat p = some (.regular size) ∧
    OwnsFile d dk.dir k (size ⌈/⌉ d.blockSize)
  named : ∀ e ∈ dk.dir, e.Used → e.getName ∈ dk.cpm2unix
  unused : ∀ e ∈ dk.dir, ¬ e.Used → e = CpmDir.empty

/-- The constructor counts the directory blocks of the shipped geometries. -/
lemma reserved_eq (hg : g.Shipped) : reserved g.dpb = g.dpb.dirBlocks := by
  rcases hg with rfl | rfl
  · decide
  · decide

/-- The number of blocks of a file is its size over the block size, rounded up. -/
lemma blocks_eq (d : Dpb) (f : HostFile) : f.blocks d = f.size ⌈/⌉ d.blockSize :=
  (Nat.ceilDiv_eq_add_pred_div f.size d.blockSize).symm

section Packed

variable {path : Bytes} {host : Host} {before after : List HostFile}

/-- The directory around the entries of a file. -/
lemma dir_packed (path : Bytes) (g : Geometry) (host : Host) (hks : ks = before ++ f :: after) :
    ∃ rest, (packed path g host ks).dir = entries g.dpb before g.dpb.dirBlocks ++
        fileEntries g.dpb f (g.dpb.dirBlocks + taken g.dpb before) ++ rest ∧
      ∀ e ∈ rest, e.Used → e.getName ∈ after.map HostFile.key := by
  refine ⟨entries g.dpb after (g.dpb.dirBlocks + taken g.dpb before + f.placed g.dpb) ++
    List.replicate (g.dpb.directoryEntries - slots g.dpb ks) CpmDir.empty, ?_, ?_⟩
  · simp only [packed, hks, entries_append, entries, List.append_assoc]
  · intro e he hused
    rcases List.mem_append.mp he with he | he
    · exact name_of_mem_entries he
    · rw [List.eq_of_mem_replicate he] at hused
      exact absurd hused (by decide)

/-- **The entries of a file in the directory.**

**Proof sketch.** The directory has the entries of the files before, those of this one and a rest.
The keys are different, so that the first and the last part have none of this key, and the middle
part has no other. -/
lemma entriesOf_packed (path : Bytes) (g : Geometry) (host : Host)
    (hks : ks = before ++ f :: after) (hnodup : (ks.map HostFile.key).Nodup)
    (huser : f.user ≠ CpmDir.UNUSED) : entriesOf (packed path g host ks).dir f.key =
      fileEntries g.dpb f (g.dpb.dirBlocks + taken g.dpb before) := by
  obtain ⟨rest, hdir, hrest⟩ := dir_packed path g host hks
  rw [hks, List.map_append, List.map_cons, List.nodup_middle, List.nodup_cons,
    List.mem_append, not_or] at hnodup
  obtain ⟨⟨hbefore, hafter⟩, -⟩ := hnodup
  have h1 : entriesOf (entries g.dpb before g.dpb.dirBlocks) f.key = [] := by
    rw [entriesOf, List.filter_eq_nil_iff]
    intro e he h
    have hname : e.getName = f.key := (of_decide_eq_true h).2
    rw [← hname] at hbefore
    exact hbefore (name_of_mem_entries he)
  have h2 : entriesOf rest f.key = [] := by
    rw [entriesOf, List.filter_eq_nil_iff]
    intro e he h
    obtain ⟨hused, hname⟩ := of_decide_eq_true h
    rw [← hname] at hafter
    exact hafter (hrest e he hused)
  have h3 : entriesOf (fileEntries g.dpb f (g.dpb.dirBlocks + taken g.dpb before)) f.key =
      fileEntries g.dpb f (g.dpb.dirBlocks + taken g.dpb before) := by
    rw [entriesOf, List.filter_eq_self]
    intro e he
    refine decide_eq_true ⟨?_, name_of_mem_extents _ e he⟩
    rw [CpmDir.Used, st_of_mem_extents _ e he]
    exact huser
  rw [hdir]
  simp only [entriesOf, List.filter_append] at h1 h2 h3 ⊢
  rw [h1, h2, h3, List.nil_append, List.append_nil]

/-- The blocks of a file end in front of the last block of the disk. -/
lemma placed_le_of_room (hroom : HasRoom g.dpb ks) (hks : ks = before ++ f :: after) :
    g.dpb.dirBlocks + taken g.dpb before + f.placed g.dpb ≤ g.dpb.maxBlock := by
  have hsum : taken g.dpb ks = taken g.dpb before + f.placed g.dpb + taken g.dpb after := by
    rw [hks, taken_append]
    simp [taken, Nat.add_assoc]
  have := hroom.2
  omega

/-- **A file has its blocks iff the number of its extents fits in 32 bits.**

**Proof sketch.** The entries of the file are those that were given out for it
(`entriesOf_packed`), numbered one after the other. Their blocks are all blocks of the file iff the
number of extents did not wrap (`placed_eq_blocks_iff`). -/
lemma ownsFile_packed (hg : g.Regular) (hroom : HasRoom g.dpb ks)
    (hnodup : (ks.map HostFile.key).Nodup) (huser : f.user ≠ CpmDir.UNUSED)
    (hks : ks = before ++ f :: after) :
    OwnsFile g.dpb (packed path g host ks).dir f.key (f.blocks g.dpb) ↔
      1 + f.blocks g.dpb / g.dpb.blockPtrType < 2 ^ 32 := by
  have hentries := entriesOf_packed path g host hks hnodup huser
  have hle := placed_le_of_room hroom hks
  have hfirst := hg.first
  have hblocks := blocksOf_fileEntries hg f (g.dpb.dirBlocks + taken g.dpb before) (by omega) hle
  rw [← placed_eq_blocks_iff hg, OwnsFile, hentries, hblocks, List.length_range']
  constructor
  · exact fun h => h.2.2
  · intro hplaced
    obtain ⟨rest, hdir, -⟩ := dir_packed path g host hks
    refine ⟨⟨_, _, hdir⟩, ?_, hplaced⟩
    intro k e he
    have hk : k < f.dirs g.dpb := by
      have := (List.getElem?_eq_some_iff.mp he).1
      rwa [fileEntries, length_extents] at this
    rw [fileEntries, getElem?_extents _ _ _ _ hk, Nat.zero_add, Option.some.injEq] at he
    subst he
    refine ⟨(extent_fields _ _ _ _ _ _).2.2, fun b hb => ?_⟩
    have hbound : min (f.blocks g.dpb) (k * g.dpb.blockPtrType) +
        min (f.blocks g.dpb - k * g.dpb.blockPtrType) g.dpb.blockPtrType ≤ f.blocks g.dpb := by
      omega
    rw [pointer_extent hg (Nat.min_le_right _ _) (by omega) hb]
    split
    · omega
    · omega

/-- The entries in use are those of the files. -/
lemma used_packed (hks : RealUsers ks) :
    (packed path g host ks).dir.filter CpmDir.Used = entries g.dpb ks g.dpb.dirBlocks := by
  have hunused : ¬ CpmDir.empty.Used := by decide
  simp only [packed, List.filter_append, List.filter_replicate, hunused, decide_false,
    Bool.false_eq_true, if_false, List.append_nil]
  rw [List.filter_eq_self]
  intro e he
  exact decide_eq_true (used_of_mem_entries hks e he)

/-- What is known of an imported file. -/
lemma found_of_imported {readdir : Bytes → Option (List Bytes)}
    (hscan : scanHost readdir host path = some fs) (hf : f ∈ imported fs) :
    f.user ≠ CpmDir.UNUSED ∧ host.stat f.path = some (.regular f.size) := by
  have hmem : f ∈ fs := (mem_keep hf).resolve_left (by simp)
  obtain ⟨huser, names, n, -, -, hgives⟩ := (mem_scanHost hscan).mp hmem
  refine ⟨?_, hgives.2.2.2.2.2⟩
  rintro hunused
  rw [hunused] at huser
  exact absurd huser (by rintro (h | ⟨h, -⟩) <;> exact absurd h (by decide))

/-- No two imported files have one key. -/
lemma nodup_imported (fs : List HostFile) : ((imported fs).map HostFile.key).Nodup :=
  nodup_keep (by simp)

/-- **The entries of a file of the map** of a disk that was built. -/
lemma entriesOf_build {readdir : Bytes → Option (List Bytes)} {dk : Disk} {k p : Bytes} {size : ℕ}
    (hg : g.Regular) (hbuild : build readdir path g host = .ok () dk)
    (hk : dk.cpm2unix.lookup k = some p) (hsize : host.stat p = some (.regular size)) :
    ∃ u name free, 0 < free ∧ free + min (fileBlocks g.dpb size)
        (fileDirs g.dpb size * g.dpb.blockPtrType) ≤ g.dpb.maxBlock ∧
      entriesOf dk.dir k =
        extents g.dpb u name (fileDirs g.dpb size) 0 (fileBlocks g.dpb size) free := by
  obtain ⟨fs, hscan, hroom, rfl⟩ := (build_iff hg).mp hbuild
  have hnodup := nodup_imported fs
  obtain ⟨f, hf, rfl, rfl⟩ := (lookup_packed _ hnodup).mp hk
  obtain ⟨huser, hstat⟩ := found_of_imported hscan hf
  obtain rfl : f.size = size := by
    rw [hstat] at hsize
    simpa using hsize
  obtain ⟨before, after, hks⟩ := List.append_of_mem hf
  have hfirst := hg.first
  exact ⟨f.user, f.name, _, by omega, placed_le_of_room hroom hks,
    entriesOf_packed path g host hks hnodup huser⟩

/-- **Every file of the map has its blocks iff no number of extents wraps.**

**Proof sketch.** The names of the map are the keys of the files (`lookup_packed`), and each file
is one of the list with files before and behind it, for which `ownsFile_packed` says when it has
its blocks. -/
lemma files_packed_iff (path : Bytes) (hg : g.Regular) (hroom : HasRoom g.dpb ks)
    (hnodup : (ks.map HostFile.key).Nodup)
    (hfound : ∀ f ∈ ks, f.user ≠ CpmDir.UNUSED ∧ host.stat f.path = some (.regular f.size)) :
    (∀ k p, (packed path g host ks).cpm2unix.lookup k = some p → ∃ size,
      host.stat p = some (.regular size) ∧
        OwnsFile g.dpb (packed path g host ks).dir k (size ⌈/⌉ g.dpb.blockSize)) ↔
      ∀ f ∈ ks, 1 + (f.size ⌈/⌉ g.dpb.blockSize) / g.dpb.blockPtrType < 2 ^ 32 := by
  constructor
  · intro hfiles f hf
    obtain ⟨before, after, hks⟩ := List.append_of_mem hf
    obtain ⟨huser, hstat⟩ := hfound f hf
    obtain ⟨size, hsize, howns⟩ := hfiles f.key f.path
      ((lookup_packed _ hnodup).mpr ⟨f, hf, rfl, rfl⟩)
    obtain rfl : size = f.size := by
      rw [hstat] at hsize
      simpa using hsize.symm
    rw [← blocks_eq] at howns ⊢
    exact (ownsFile_packed hg hroom hnodup huser hks).mp howns
  · intro hsmall k p hk
    obtain ⟨f, hf, rfl, rfl⟩ := (lookup_packed _ hnodup).mp hk
    obtain ⟨before, after, hks⟩ := List.append_of_mem hf
    obtain ⟨huser, hstat⟩ := hfound f hf
    have hlt := hsmall f hf
    refine ⟨f.size, hstat, ?_⟩
    rw [← blocks_eq] at hlt ⊢
    exact (ownsFile_packed hg hroom hnodup huser hks).mpr hlt

/-- **The allocation is sound iff no number of extents wraps**: `addfile` counts the extents of a
file in 32 bits, so a file with `2 ^ 32` extents or more does not get its blocks.

**Proof sketch.** Pointers and names are those of the layout of the directory. The blocks of the
files follow one another, and those of one file are as many as its extents have room for. -/
theorem allocation_sound_iff {readdir : Bytes → Option (List Bytes)} {dk : Disk} (hg : g.Shipped)
    (hbuild : build readdir path g host = .ok () dk) : SoundAllocation g.dpb dk ↔
      ∀ fs, scanHost readdir host path = some fs → ∀ f ∈ imported fs,
        1 + (f.size ⌈/⌉ g.dpb.blockSize) / g.dpb.blockPtrType < 2 ^ 32 := by
  have hreg := hg.regular
  obtain ⟨fs, hscan, hroom, rfl⟩ := (build_iff hreg).mp hbuild
  have hfound : ∀ f ∈ imported fs, _ := fun f hf => found_of_imported hscan hf
  have hiff := files_packed_iff path hreg hroom (nodup_imported fs) hfound
  constructor
  · intro hsound fs' hscan'
    obtain rfl : fs = fs' := by simpa [hscan] using hscan'
    exact hiff.mp hsound.files
  · intro hsmall
    obtain ⟨hb, -⟩ := built_of_build hreg hbuild
    obtain ⟨done, blocks, hl, hnone, -⟩ := hb.laid
    have hres := reserved_eq hg
    refine ⟨hl.distinct, ?_, ?_, hiff.mpr (hsmall fs hscan), ?_, hl.empty⟩
    · intro e he hused b hbb hne
      have hblock := (hl.block e he hused b hbb).resolve_left hne
      have hfree := hl.free.2
      rw [hres]
      exact ⟨hblock.1, Nat.le_of_lt_succ (hblock.2.trans hfree)⟩
    · have hfirst := hreg.first
      have hle := hroom.2
      rw [used_packed fun f hf => (hfound f hf).1, blocksOf_entries hreg _ hfirst hle.le, hres]
      simp [packed]
    · intro e he hused
      obtain ⟨d, hd, -⟩ := hl.number e he hused
      rw [← AList.lookup_isSome]
      cases hk : (packed path g host (imported fs)).cpm2unix.lookup e.getName with
      | some p => rfl
      | none =>
        rw [hnone _ hk] at hd
        omega

end Packed

/-! ## Two files -/

/-- A file of one byte gets one block. -/
theorem allocation_sound_byte : ∃ dk,
    build bigReaddir [slash, ch 'd'] ibm8 (bigHost [7]) = .ok () dk ∧
      (SoundAllocation ibm8.dpb dk ↔
        ∀ fs, scanHost bigReaddir (bigHost [7]) [slash, ch 'd'] = some fs → ∀ f ∈ imported fs,
          1 + (f.size ⌈/⌉ ibm8.dpb.blockSize) / ibm8.dpb.blockPtrType < 2 ^ 32) := by
  have hbuild := (build_bigFile (g := ibm8) regular_ibm8 [7]).mpr
    ⟨by decide, rfl⟩
  exact ⟨_, hbuild, allocation_sound_iff (.inl rfl) hbuild⟩

/-- A file with `2 ^ 32` extents is imported with no extent at all.

**Proof sketch.** The number of extents is computed in 32 bits and is 0 for this length, so that
the file takes no slot and no block. The import succeeds and enters the name, and the disk stays
empty; the sound allocation asks for an entry of each block. -/
lemma unsound_of_length {content : Bytes} (hlen : content.length = 16384 * (2 ^ 32 - 1)) : ∃ dk,
    build bigReaddir [slash, ch 'd'] ibm8 (bigHost content) = .ok () dk ∧
      dk.cpm2unix.lookup (keyOf 0 bigName) = some bigPath ∧
      (∀ e ∈ dk.dir, ¬ e.Used) ∧ ¬ SoundAllocation ibm8.dpb dk := by
  set f := bigFile content.length with hf
  have hreg : ibm8.Regular := regular_ibm8
  have hblocks : f.blocks ibm8.dpb = 16 * (2 ^ 32 - 1) := by
    rw [hf, hlen]
    decide
  have hdirs : f.dirs ibm8.dpb = 0 := by
    rw [hf, hlen]
    decide
  have hslots : slots ibm8.dpb [f] = 0 := by simp [slots, hdirs]
  have htaken : taken ibm8.dpb [f] = 0 := by simp [taken, HostFile.placed, hdirs]
  have hroom : HasRoom ibm8.dpb [f] := by
    rw [HasRoom, hslots, htaken]
    decide
  refine ⟨packed [slash, ch 'd'] ibm8 (bigHost content) [f],
    (build_bigFile hreg content).mpr ⟨hroom, rfl⟩, ?_, ?_, ?_⟩
  · exact lookup_bigFile ibm8 _ content.length
  · intro e he
    have hmem : e ∈ List.replicate (ibm8.dpb.directoryEntries - slots ibm8.dpb [f])
        CpmDir.empty := by
      simpa only [packed, entries, fileEntries, hdirs, extents, List.append_nil,
        List.nil_append] using he
    rw [List.eq_of_mem_replicate hmem]
    decide
  · intro hsound
    have hfound : ∀ f' ∈ [f], f'.user ≠ CpmDir.UNUSED ∧
        (bigHost content).stat f'.path = some (.regular f'.size) := by
      intro f' hf'
      rw [List.mem_singleton.mp hf']
      exact ⟨show (0 : UInt8) ≠ CpmDir.UNUSED by decide, stat_big content⟩
    have hsmall := (files_packed_iff _ hreg hroom (by simp) hfound).mp hsound.files f (by simp)
    rw [← blocks_eq, hblocks] at hsmall
    exact absurd hsmall (by decide)

/-- **A file of 64 TiB less 16 KiB is imported with no extent at all**: its `2 ^ 32` extents are
counted as 0. -/
theorem allocation_unsound : ∃ dk,
    build bigReaddir [slash, ch 'd'] ibm8 (bigHost (List.replicate (16384 * (2 ^ 32 - 1)) 0)) =
        .ok () dk ∧
      dk.cpm2unix.lookup (keyOf 0 bigName) = some bigPath ∧
      (∀ e ∈ dk.dir, ¬ e.Used) ∧ ¬ SoundAllocation ibm8.dpb dk :=
  unsound_of_length List.length_replicate

/-! ## When the import succeeds -/

/-- **The files fit a CP/M disk**: there are data blocks for all of them, and entries for these
blocks, at least one for each file. -/
def FitsDisk (d : Dpb) (fs : List HostFile) : Prop :=
  (fs.map fun f => f.size ⌈/⌉ d.blockSize).sum ≤ d.dsm + 1 - reserved d ∧
    (fs.map fun f => max 1 ((f.size ⌈/⌉ d.blockSize) ⌈/⌉ d.blockPtrType)).sum ≤ d.drm + 1

/-- The files leave a data block free, and there is an entry more for each file whose blocks fill
its entries. -/
def LeavesRoom (d : Dpb) (fs : List HostFile) : Prop :=
  (fs.map fun f => f.size ⌈/⌉ d.blockSize).sum < d.dsm + 1 - reserved d ∧
    (fs.map fun f => 1 + (f.size ⌈/⌉ d.blockSize) / d.blockPtrType).sum ≤ d.drm + 1

/-- The number of extents of the file does not fit in 32 bits. -/
def Wraps (d : Dpb) (f : HostFile) : Prop :=
  2 ^ 32 ≤ 1 + (f.size ⌈/⌉ d.blockSize) / d.blockPtrType

/-- The blocks of files whose numbers of extents do not wrap. -/
lemma taken_of_small (hg : g.Regular) (hfs : ∀ f ∈ fs, ¬ Wraps g.dpb f) :
    taken g.dpb fs = (fs.map fun f => f.size ⌈/⌉ g.dpb.blockSize).sum := by
  refine congrArg List.sum (List.map_congr_left fun f hf => ?_)
  have hlt := Nat.lt_of_not_le (hfs f hf)
  rw [← blocks_eq] at hlt ⊢
  exact (placed_eq_blocks_iff hg f).mpr hlt

/-- The entries of files whose numbers of extents do not wrap. -/
lemma slots_of_small {d : Dpb} (hfs : ∀ f ∈ fs, ¬ Wraps d f) : slots d fs =
    (fs.map fun f => 1 + (f.size ⌈/⌉ d.blockSize) / d.blockPtrType).sum := by
  refine congrArg List.sum (List.map_congr_left fun f hf => ?_)
  have hlt := Nat.lt_of_not_le (hfs f hf)
  rw [← blocks_eq] at hlt ⊢
  exact Nat.mod_eq_of_lt hlt

/-- The code asks for an entry more than the blocks need, or for as many. -/
lemma entries_le (hg : g.Regular) (n : ℕ) :
    max 1 (n ⌈/⌉ g.dpb.blockPtrType) ≤ 1 + n / g.dpb.blockPtrType := by
  have hpos := hg.ptrs_pos
  have hceil : n ⌈/⌉ g.dpb.blockPtrType ≤ 1 + n / g.dpb.blockPtrType := by
    rw [ceilDiv_le_iff_le_smul hpos, smul_eq_mul, Nat.add_comm 1]
    exact (Nat.lt_mul_div_succ n hpos).le
  exact max_le (Nat.le_add_right _ _) hceil

/-- Files that leave room fit the disk. -/
lemma LeavesRoom.fitsDisk (hg : g.Regular) (h : LeavesRoom g.dpb fs) : FitsDisk g.dpb fs :=
  ⟨h.1.le, (List.sum_le_sum fun _ _ => entries_le hg _).trans h.2⟩

/-- No file of a disk that fits has too many extents. -/
lemma FitsDisk.not_wraps (hg : g.Regular) (h : FitsDisk g.dpb fs) : ∀ f ∈ fs, ¬ Wraps g.dpb f := by
  intro f hf hwraps
  have hblocks : f.size ⌈/⌉ g.dpb.blockSize ≤ g.dpb.dsm + 1 - reserved g.dpb :=
    (List.single_le_sum (fun _ _ => Nat.zero_le _) _
      (List.mem_map_of_mem (f := fun f => f.size ⌈/⌉ g.dpb.blockSize) hf)).trans h.1
  have hdiv := Nat.div_le_self (f.size ⌈/⌉ g.dpb.blockSize) g.dpb.blockPtrType
  have hslots := hg.slots
  have hmax : g.dpb.maxBlock ≤ 65536 := by split at hslots <;> omega
  have hdef : g.dpb.maxBlock = g.dpb.dsm + 1 := rfl
  rw [Wraps] at hwraps
  omega

/-- There is room for files whose numbers of extents do not wrap iff they leave room. -/
lemma hasRoom_iff_leavesRoom (hg : g.Shipped) (hfs : ∀ f ∈ fs, ¬ Wraps g.dpb f) :
    HasRoom g.dpb fs ↔ LeavesRoom g.dpb fs := by
  have hroom := hg.regular.room
  have hdef : g.dpb.maxBlock = g.dpb.dsm + 1 := rfl
  rw [HasRoom, LeavesRoom, taken_of_small hg.regular hfs, slots_of_small hfs, reserved_eq hg,
    Dpb.directoryEntries]
  omega

/-- **The import succeeds exactly if the files fit, iff files that fit also leave room, and files
with too many extents have no room after the wrap.** The names of the files are different.

**Proof sketch.** With different names the import succeeds iff the entries and blocks that the
source counts have room (`build_iff`). Where no number of extents wraps this is `LeavesRoom`
(`hasRoom_iff_leavesRoom`), and files that fit do not wrap. -/
theorem import_succeeds_iff {readdir : Bytes → Option (List Bytes)} {path : Bytes} {host : Host}
    (hg : g.Shipped) (hscan : scanHost readdir host path = some fs)
    (hdistinct : (fs.map HostFile.key).Nodup) :
    ((∃ dk, build readdir path g host = .ok () dk) ↔ FitsDisk g.dpb fs) ↔
      (FitsDisk g.dpb fs → LeavesRoom g.dpb fs) ∧
        ((∃ f ∈ fs, Wraps g.dpb f) → ¬ HasRoom g.dpb fs) := by
  have hreg := hg.regular
  have hbuild : (∃ dk, build readdir path g host = .ok () dk) ↔ HasRoom g.dpb fs := by
    have hkeep : imported fs = fs := keep_of_nodup hdistinct
    simp only [build_iff hreg, hscan, Option.some.injEq]
    constructor
    · rintro ⟨dk, fs', rfl, hroom, -⟩
      rwa [hkeep] at hroom
    · intro hroom
      exact ⟨_, fs, rfl, by rwa [hkeep], rfl⟩
  rw [hbuild]
  constructor
  · intro hiff
    refine ⟨fun hfits => ?_, ?_⟩
    · exact (hasRoom_iff_leavesRoom hg (hfits.not_wraps hreg)).mp (hiff.mpr hfits)
    · rintro ⟨f, hf, hwraps⟩ hroom
      exact (hiff.mp hroom).not_wraps hreg f hf hwraps
  · rintro ⟨hleaves, hwraps⟩
    constructor
    · intro hroom
      have hsmall : ∀ f ∈ fs, ¬ Wraps g.dpb f := fun f hf hw => hwraps ⟨f, hf, hw⟩ hroom
      exact ((hasRoom_iff_leavesRoom hg hsmall).mp hroom).fitsDisk hreg
    · intro hfits
      exact (hasRoom_iff_leavesRoom hg (hfits.not_wraps hreg)).mpr (hleaves hfits)

/-- A file of one byte is imported. -/
theorem import_succeeds_byte :
    ((∃ dk, build bigReaddir [slash, ch 'd'] ibm8 (bigHost [7]) = .ok () dk) ↔
        FitsDisk ibm8.dpb [bigFile 1]) ↔
      (FitsDisk ibm8.dpb [bigFile 1] → LeavesRoom ibm8.dpb [bigFile 1]) ∧
        ((∃ f ∈ [bigFile 1], Wraps ibm8.dpb f) → ¬ HasRoom ibm8.dpb [bigFile 1]) :=
  import_succeeds_iff (.inl rfl) (scanHost_big [7]) (by simp)

/-- **A file of 241 blocks fits the 8-inch disk, but is not imported**: it needs the last block. -/
theorem full_disk_fails :
    scanHost bigReaddir (bigHost (List.replicate 246784 0)) [slash, ch 'd'] =
        some [bigFile 246784] ∧
      FitsDisk ibm8.dpb [bigFile 246784] ∧
      ¬ ∃ dk, build bigReaddir [slash, ch 'd'] ibm8 (bigHost (List.replicate 246784 0)) =
        .ok () dk := by
  have hlen : (List.replicate 246784 (0 : UInt8)).length = 246784 := List.length_replicate
  refine ⟨by rw [scanHost_big, hlen], ⟨?_, ?_⟩, ?_⟩
  · decide
  · decide
  · rintro ⟨dk, hbuild⟩
    have hroom := ((build_bigFile regular_ibm8 _).mp hbuild).1
    rw [hlen] at hroom
    exact absurd hroom (by decide)

end Disk

end Cpm22
