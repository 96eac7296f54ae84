import Mathlib.Data.Option.Basic
import Cpm22.Disk.Allocation

set_option relaxedAutoImplicit false
set_option autoImplicit false

/-!
# The order of a listing

`readdir` lists the names of a directory in no particular order. The order decides where a file
lies on the disk and, if two host files have one CP/M name, which of them is imported. It does not
decide which CP/M names there are, nor how many entries and blocks the file of a name gets if only
one host file has this name.

## Main definitions

* `Cpm22.Disk.Reordered` — two listings of the same directories.

## Main results

* `Cpm22.Disk.import_reordered` — the import of a host under two orders.
-/

namespace Cpm22

open HostPath HostFs

namespace Disk

/-- **Two listings of the same directories**: each directory has the same names, in any order. -/
def Reordered (readdir readdir' : Bytes → Option (List Bytes)) : Prop :=
  ∀ d, Option.Rel List.Perm (readdir d) (readdir' d)

variable {readdir readdir' : Bytes → Option (List Bytes)} {g : Geometry} {host : Host}
  {path k : Bytes} {f : HostFile} {ks fs : List HostFile} {dk dk' : Disk}

/-- A name is listed under one order iff it is listed under the other. -/
lemma Reordered.listed (h : Reordered readdir readdir') {d n : Bytes} :
    (∃ names, readdir d = some names ∧ n ∈ names) ↔
      ∃ names, readdir' d = some names ∧ n ∈ names := by
  have hrel := h d
  generalize readdir d = listing at hrel ⊢
  generalize readdir' d = listing' at hrel ⊢
  cases hrel with
  | none => simp
  | some hperm => simp [hperm.mem_iff]

/-- **A file can be found under one order iff it can be found under the other.** -/
lemma found_reordered (h : Reordered readdir readdir') :
    Found readdir host path f ↔ Found readdir' host path f := by
  have hassoc : ∀ listing : Bytes → Option (List Bytes), Found listing host path f ↔
      (f.user = 0 ∨ f.user ∈ users ∧ host.stat (userPath path f.user) = some .directory) ∧
        ∃ n, (∃ names, listing (userPath path f.user) = some names ∧ n ∈ names) ∧
          Gives host (userPath path f.user) f.user n f := by
    intro listing
    rw [Found]
    constructor
    · rintro ⟨huser, names, n, hnames, hn, hgives⟩
      exact ⟨huser, n, ⟨names, hnames, hn⟩, hgives⟩
    · rintro ⟨huser, n, ⟨names, hnames, hn⟩, hgives⟩
      exact ⟨huser, names, n, hnames, hn, hgives⟩
  rw [hassoc, hassoc]
  simp only [h.listed]

/-- The keys of the files that are kept. -/
lemma key_mem_keep {ks fs : List HostFile} : k ∈ (keep ks fs).map HostFile.key ↔
    k ∈ ks.map HostFile.key ∨ k ∈ fs.map HostFile.key := by
  induction fs generalizing ks with
  | nil => simp [keep]
  | cons f fs ih =>
    rw [keep]
    split
    · rename_i hf
      rw [ih, List.map_cons, List.mem_cons]
      constructor
      · rintro (h | h)
        · exact .inl h
        · exact .inr (.inr h)
      · rintro (h | rfl | h)
        · exact .inl h
        · exact .inl hf
        · exact .inr h
    · rw [ih, List.map_append, List.mem_append, List.map_singleton, List.mem_singleton,
        List.map_cons, List.mem_cons, or_assoc]

/-- **The names of a disk that was built** are those of the files that can be found. -/
lemma mem_cpm2unix_iff (hg : g.Regular) (hbuild : build readdir path g host = .ok () dk) :
    k ∈ dk.cpm2unix ↔ ∃ f, Found readdir host path f ∧ f.key = k := by
  obtain ⟨fs, hscan, -, rfl⟩ := (build_iff hg).mp hbuild
  have hmap : k ∈ (packed path g host (imported fs)).cpm2unix ↔
      k ∈ (imported fs).map HostFile.key := by
    rw [← AList.lookup_isSome, Option.isSome_iff_exists]
    simp only [lookup_packed _ (nodup_imported fs), List.mem_map]
    constructor
    · rintro ⟨p, f, hf, hk, -⟩
      exact ⟨f, hf, hk⟩
    · rintro ⟨f, hf, hk⟩
      exact ⟨f.path, f, hf, hk, rfl⟩
  rw [hmap, imported, key_mem_keep, List.map_nil, List.mem_map]
  simp only [List.not_mem_nil, false_or, mem_scanHost hscan]

/-- **The file of a name that only one host file has**: the map has its path, and the numbers of
its entries and blocks depend on its size only.

**Proof sketch.** The key is kept for one file, which can only be this one. The map has its path,
and its entries and blocks are those that were given out for its size (`entriesOf_build`). -/
lemma only_file (hg : g.Regular) (hbuild : build readdir path g host = .ok () dk)
    (hf : Found readdir host path f)
    (honly : ∀ f', Found readdir host path f' → f'.key = f.key → f' = f) :
    dk.cpm2unix.lookup f.key = some f.path ∧
      (entriesOf dk.dir f.key).length = f.dirs g.dpb ∧
      ((entriesOf dk.dir f.key).flatMap (blocksOf g.dpb)).length = f.placed g.dpb := by
  obtain ⟨fs, hscan, hroom, rfl⟩ := (build_iff hg).mp hbuild
  -- the file that is kept under the key is the only one
  have hmem : f ∈ imported fs := by
    have hkey : f.key ∈ (imported fs).map HostFile.key :=
      key_mem_keep.mpr (.inr (List.mem_map_of_mem ((mem_scanHost hscan).mpr hf)))
    obtain ⟨f', hf', hk⟩ := List.mem_map.mp hkey
    have hfs : f' ∈ fs := (mem_keep hf').resolve_left List.not_mem_nil
    rwa [← honly f' ((mem_scanHost hscan).mp hfs) hk]
  have hlookup : (packed path g host (imported fs)).cpm2unix.lookup f.key = some f.path :=
    (lookup_packed _ (nodup_imported fs)).mpr ⟨f, hmem, rfl, rfl⟩
  obtain ⟨u, name, free, hpos, hle, hentries⟩ :=
    entriesOf_build hg hbuild hlookup (found_of_imported hscan hmem).2
  refine ⟨hlookup, ?_, ?_⟩
  · rw [hentries, length_extents]
    rfl
  · rw [hentries, blocksOf_extents hg _ hpos hle, List.length_range']
    rfl

/-- **The import of a host under two orders.** Both disks have the names of the files that can be
found, and the file of a name that only one host file has is the same on both, with as many entries
and blocks.

**Proof sketch.** The order of the names does not decide which files can be found, and the keys of
these are the names of both disks (`mem_cpm2unix_iff`). For a file that is alone with its key both
disks have the numbers of `only_file`. -/
theorem import_reordered (hg : g.Shipped) (horder : Reordered readdir readdir')
    (hbuild : build readdir path g host = .ok () dk)
    (hbuild' : build readdir' path g host = .ok () dk') :
    (∀ k, (k ∈ dk.cpm2unix ↔ ∃ f, Found readdir host path f ∧ f.key = k) ∧
      (k ∈ dk'.cpm2unix ↔ ∃ f, Found readdir host path f ∧ f.key = k)) ∧
    ∀ f, Found readdir host path f →
      (∀ f', Found readdir host path f' → f'.key = f.key → f' = f) →
      dk.cpm2unix.lookup f.key = some f.path ∧ dk'.cpm2unix.lookup f.key = some f.path ∧
        (entriesOf dk.dir f.key).length = (entriesOf dk'.dir f.key).length ∧
        ((entriesOf dk.dir f.key).flatMap (blocksOf g.dpb)).length =
          ((entriesOf dk'.dir f.key).flatMap (blocksOf g.dpb)).length := by
  have hreg := hg.regular
  have hiff : ∀ f, Found readdir' host path f ↔ Found readdir host path f :=
    fun f => (found_reordered horder).symm
  refine ⟨fun k => ⟨mem_cpm2unix_iff hreg hbuild, ?_⟩, ?_⟩
  · rw [mem_cpm2unix_iff hreg hbuild']
    simp only [hiff]
  · intro f hf honly
    obtain ⟨h1, h2, h3⟩ := only_file hreg hbuild hf honly
    obtain ⟨h1', h2', h3'⟩ := only_file hreg hbuild' ((hiff f).mpr hf)
      fun f' hf' => honly f' ((hiff f').mp hf')
    exact ⟨h1, h1', h2.trans h2'.symm, h3.trans h3'.symm⟩

/-! ## Two files in two orders -/

/-- A host with a drive directory `/d` that holds two files with names of one letter. -/
def pairHost (l l' : UInt8) : Host where
  node p :=
    if p = ⟨true, [[ch 'd'], [l]]⟩ then some (.file [7])
    else if p = ⟨true, [[ch 'd'], [l']]⟩ then some (.file [8, 9])
    else if p = ⟨true, [[ch 'd']]⟩ then some .dir
    else none
  calls := []
  refuses _ := false

/-- The names of the drive directory. -/
def pairReaddir (l l' : UInt8) (_ : Bytes) : Option (List Bytes) := some [[l], [l']]

/-- The file of a name of one letter. -/
def letterFile (l : UInt8) (size : ℕ) : HostFile :=
  ⟨0, l :: List.replicate 11 (ch ' '), [slash, ch 'd', slash, l], size⟩

/-- The walk finds the files `A` and `B`. -/
lemma scanHost_pair : scanHost (pairReaddir (ch 'A') (ch 'B')) (pairHost (ch 'A') (ch 'B'))
    [slash, ch 'd'] = some [letterFile (ch 'A') 1, letterFile (ch 'B') 2] := by decide

/-- **Two files in two orders**: the file `A` lies behind `B` on the second disk. -/
theorem import_reordered_pair : ∃ dk dk',
    build (pairReaddir (ch 'A') (ch 'B')) [slash, ch 'd'] ibm8 (pairHost (ch 'A') (ch 'B')) =
      .ok () dk ∧
    build (pairReaddir (ch 'B') (ch 'A')) [slash, ch 'd'] ibm8 (pairHost (ch 'A') (ch 'B')) =
      .ok () dk' ∧
    (∀ k, k ∈ dk.cpm2unix ↔ k ∈ dk'.cpm2unix) ∧
    dk'.cpm2unix.lookup (letterFile (ch 'A') 1).key = some [slash, ch 'd', slash, ch 'A'] := by
  have hreg : ibm8.Regular := regular_ibm8
  have hscan : scanHost (pairReaddir (ch 'B') (ch 'A')) (pairHost (ch 'A') (ch 'B'))
      [slash, ch 'd'] = some [letterFile (ch 'B') 2, letterFile (ch 'A') 1] := by decide
  have hbuild := (build_iff hreg).mpr ⟨_, scanHost_pair, by decide, rfl⟩
  have hbuild' := (build_iff hreg).mpr ⟨_, hscan, by decide, rfl⟩
  obtain ⟨hkeys, hfiles⟩ := import_reordered (.inl rfl)
    (fun _ => .some (List.Perm.swap [ch 'B'] [ch 'A'] [])) hbuild hbuild'
  refine ⟨_, _, hbuild, hbuild', fun k => (hkeys k).1.trans (hkeys k).2.symm, ?_⟩
  have honly : ∀ f ∈ [letterFile (ch 'A') 1, letterFile (ch 'B') 2],
      f.key = (letterFile (ch 'A') 1).key → f = letterFile (ch 'A') 1 := by decide
  exact (hfiles (letterFile (ch 'A') 1) ((mem_scanHost scanHost_pair).mp (by simp))
    fun f hf => honly f ((mem_scanHost scanHost_pair).mpr hf)).2.1

end Disk

end Cpm22
