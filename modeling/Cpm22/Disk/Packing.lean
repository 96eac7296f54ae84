import Cpm22.Disk.Layout

set_option relaxedAutoImplicit false
set_option autoImplicit false

/-!
# The import as a packing

The constructor of `disk` walks over the host directories and adds one file after the other: the
entries of a file go to the next unused slots, its blocks are the next free ones. This file
separates the two halves of the import. What the walk finds is a list of host files; what is made
of the list is the packing of the files whose names are not taken, in the order of the list. The
constructor returns iff the walk does and the packing fits.

## Main definitions

* `Cpm22.HostFile` — a host file that is handed to `addfile`.
* `Cpm22.Disk.scanHost` — the files that the walk finds; `Cpm22.Disk.Found` — a file that can be
  found.
* `Cpm22.Disk.imported` — the files whose names are not taken when they are reached.
* `Cpm22.Disk.extents`, `Cpm22.Disk.entries` — the directory entries of a file and of a list.
* `Cpm22.Disk.HasRoom` — the entries and blocks that are there suffice for a list.
* `Cpm22.Disk.packed` — the disk with a list of files.

## Main results

* `Cpm22.Disk.mem_scanHost` — the walk finds the files that can be found.
* `Cpm22.Disk.addExtents_iff` — when the loop over the extents of a file returns, and its result.
* `Cpm22.Disk.build_iff` — when the constructor returns, and its result.
-/

namespace Cpm22

open HostPath HostFs

/-- **A host file that is handed to `addfile`**: the user, the scanned name, the path and the size
in bytes. -/
structure HostFile where
  user : UInt8
  name : Bytes
  path : Bytes
  size : ℕ
  deriving DecidableEq

namespace HostFile

/-- The key of the file in the name map. -/
def key (f : HostFile) : Bytes := keyOf f.user f.name

/-- The number of blocks of the file. -/
def blocks (d : Dpb) (f : HostFile) : ℕ := Disk.fileBlocks d f.size

/-- The number of extents that `addfile` enters. -/
def dirs (d : Dpb) (f : HostFile) : ℕ := Disk.fileDirs d f.size

/-- The number of blocks that the extents take. -/
def placed (d : Dpb) (f : HostFile) : ℕ := min (f.blocks d) (f.dirs d * d.blockPtrType)

end HostFile

namespace Disk

/-! ## The walk over the host -/

/-- One name of a directory; `none` is a name that cannot be looked up. Directories, other files and
names without a CP/M name give no file. -/
def scanName (host : Host) (userpath : Bytes) (u : UInt8) (n : Bytes) : Option (List HostFile) :=
  if n = here ∨ n = parentDir then some []
  else
    match host.stat (userpath ++ slash :: n) with
    | none => none
    | some (.regular size) =>
      match cpmName n with
      | none => some []
      | some s => some [⟨u, s, userpath ++ slash :: n, size⟩]
    | some _ => some []

/-- The names of a directory. -/
def scanNames (host : Host) (userpath : Bytes) (u : UInt8) : List Bytes → Option (List HostFile)
  | [] => some []
  | n :: ns => do
    let fs ← scanName host userpath u n
    let fs' ← scanNames host userpath u ns
    pure (fs ++ fs')

section Readdir

variable (readdir : Bytes → Option (List Bytes)) (host : Host)

/-- The directory of one user; `none` is a directory that cannot be read. -/
def scanUser (userpath : Bytes) (u : UInt8) : Option (List HostFile) :=
  (readdir userpath).bind (scanNames host userpath u)

/-- The numbered user directories, in the order of the list. A number without a directory gives no
files. -/
def scanUsers (path : Bytes) : List UInt8 → Option (List HostFile)
  | [] => some []
  | u :: us =>
    match host.stat (path ++ slash :: decimal u.toNat) with
    | some .directory => do
      let fs ← scanUser readdir host (path ++ slash :: decimal u.toNat) u
      let fs' ← scanUsers path us
      pure (fs ++ fs')
    | _ => scanUsers path us

/-- **The files that `readhost` finds**, in the order in which it reaches them. -/
def scanHost (path : Bytes) : Option (List HostFile) := do
  let fs ← scanUser readdir host path 0
  let fs' ← scanUsers readdir host path users
  pure (fs ++ fs')

end Readdir

/-- The name `n` of the directory `userpath` of user `u` gives the file `f`. -/
def Gives (host : Host) (userpath : Bytes) (u : UInt8) (n : Bytes) (f : HostFile) : Prop :=
  n ≠ here ∧ n ≠ parentDir ∧ f.user = u ∧ cpmName n = some f.name ∧
    f.path = userpath ++ slash :: n ∧ host.stat f.path = some (.regular f.size)

/-- **A file that can be found on the host**: a regular file with a CP/M name in the drive
directory or in the directory of a user. -/
def Found (readdir : Bytes → Option (List Bytes)) (host : Host) (path : Bytes) (f : HostFile) :
    Prop :=
  (f.user = 0 ∨ f.user ∈ users ∧ host.stat (userPath path f.user) = some .directory) ∧
    ∃ names n, readdir (userPath path f.user) = some names ∧ n ∈ names ∧
      Gives host (userPath path f.user) f.user n f

section Found

variable {readdir : Bytes → Option (List Bytes)} {host : Host} {path userpath : Bytes} {u : UInt8}
  {n : Bytes} {f : HostFile}

/-- The file that one name gives.

**Proof sketch.** By the status of the path of the name. A regular file with a CP/M name gives one
file, and this is the only case in which `Gives` holds. -/
lemma mem_scanName {fs : List HostFile} (h : scanName host userpath u n = some fs) :
    f ∈ fs ↔ Gives host userpath u n f := by
  rw [scanName] at h
  by_cases hdot : n = here ∨ n = parentDir
  · obtain rfl : [] = fs := by simpa [hdot] using h
    constructor
    · intro hf
      cases hf
    · rintro ⟨h1, h2, -⟩
      exact absurd hdot (not_or.mpr ⟨h1, h2⟩)
  · rw [if_neg hdot] at h
    rw [not_or] at hdot
    -- what gives a file is regular and has a name
    have hnone : (∀ size s, host.stat (userpath ++ slash :: n) = some (.regular size) →
        cpmName n = some s → False) → ¬ Gives host userpath u n f := by
      rintro hno ⟨-, -, -, hs, hp, hst⟩
      rw [hp] at hst
      exact hno f.size f.name hst hs
    cases hstat : host.stat (userpath ++ slash :: n) with
    | none => simp [hstat] at h
    | some st =>
      cases st with
      | directory =>
        obtain rfl : [] = fs := by simpa [hstat] using h
        simpa using hnone (by simp [hstat])
      | other =>
        obtain rfl : [] = fs := by simpa [hstat] using h
        simpa using hnone (by simp [hstat])
      | regular size =>
        cases hname : cpmName n with
        | none =>
          obtain rfl : [] = fs := by simpa [hstat, hname] using h
          simpa using hnone (by simp [hname])
        | some s =>
          obtain rfl : [⟨u, s, userpath ++ slash :: n, size⟩] = fs := by
            simpa [hstat, hname] using h
          rw [List.mem_singleton]
          constructor
          · rintro rfl
            exact ⟨hdot.1, hdot.2, rfl, hname, rfl, hstat⟩
          · rintro ⟨-, -, hu, hs, hp, hst⟩
            obtain ⟨fu, fname, fpath, fsize⟩ := f
            simp only at hu hs hp hst
            subst hu hp
            rw [hname] at hs
            rw [hstat] at hst
            simp_all

/-- The files that the names of a directory give. -/
lemma mem_scanNames {ns : List Bytes} : ∀ {fs : List HostFile},
    scanNames host userpath u ns = some fs → (f ∈ fs ↔ ∃ n ∈ ns, Gives host userpath u n f) := by
  induction ns with
  | nil =>
    intro fs h
    obtain rfl : [] = fs := by simpa [scanNames] using h
    simp
  | cons n ns ih =>
    intro fs h
    obtain ⟨fs₁, h1, h⟩ := Option.bind_eq_some_iff.mp h
    obtain ⟨fs₂, h2, h⟩ := Option.bind_eq_some_iff.mp h
    obtain rfl : fs₁ ++ fs₂ = fs := by simpa using h
    rw [List.mem_append, mem_scanName h1, ih h2]
    simp

/-- The files of the directory of one user. -/
lemma mem_scanUser {fs : List HostFile} (h : scanUser readdir host userpath u = some fs) :
    f ∈ fs ↔ ∃ names n, readdir userpath = some names ∧ n ∈ names ∧ Gives host userpath u n f := by
  obtain ⟨names, hnames, h⟩ := Option.bind_eq_some_iff.mp h
  rw [mem_scanNames h]
  constructor
  · rintro ⟨n, hn, hgives⟩
    exact ⟨names, n, hnames, hn, hgives⟩
  · rintro ⟨names', n, hnames', hn, hgives⟩
    obtain rfl : names = names' := by simpa [hnames] using hnames'
    exact ⟨n, hn, hgives⟩

/-- The files of the numbered user directories.

**Proof sketch.** Induction on the users. A user whose path is a directory adds the files of this
directory (`mem_scanUser`), and any other user adds none. -/
lemma mem_scanUsers {us : List UInt8} : ∀ {fs : List HostFile},
    scanUsers readdir host path us = some fs → (f ∈ fs ↔ ∃ u ∈ us,
      host.stat (path ++ slash :: decimal u.toNat) = some .directory ∧ ∃ names n,
        readdir (path ++ slash :: decimal u.toNat) = some names ∧ n ∈ names ∧
          Gives host (path ++ slash :: decimal u.toNat) u n f) := by
  induction us with
  | nil =>
    intro fs h
    obtain rfl : [] = fs := by simpa [scanUsers] using h
    simp
  | cons u us ih =>
    intro fs h
    rw [scanUsers] at h
    by_cases hstat : host.stat (path ++ slash :: decimal u.toNat) = some .directory
    · rw [hstat] at h
      obtain ⟨fs₁, h1, h⟩ := Option.bind_eq_some_iff.mp h
      obtain ⟨fs₂, h2, h⟩ := Option.bind_eq_some_iff.mp h
      obtain rfl : fs₁ ++ fs₂ = fs := by simpa using h
      rw [List.mem_append, mem_scanUser h1, ih h2]
      simp [hstat]
    · have hrest : scanUsers readdir host path us = some fs := by
        cases hst : host.stat (path ++ slash :: decimal u.toNat) with
        | none => simpa [hst] using h
        | some st =>
          cases st with
          | directory => exact absurd hst hstat
          | regular size => simpa [hst] using h
          | other => simpa [hst] using h
      rw [ih hrest]
      simp [hstat]

/-- **The walk finds the files that can be found.**

**Proof sketch.** The walk goes over user 0 and then the numbered users (`mem_scanUser`,
`mem_scanUsers`), and the user of a file is that of its directory. -/
theorem mem_scanHost {fs : List HostFile} (h : scanHost readdir host path = some fs) :
    f ∈ fs ↔ Found readdir host path f := by
  obtain ⟨fs₁, h1, h⟩ := Option.bind_eq_some_iff.mp h
  obtain ⟨fs₂, h2, h⟩ := Option.bind_eq_some_iff.mp h
  obtain rfl : fs₁ ++ fs₂ = fs := by simpa using h
  rw [List.mem_append, mem_scanUser h1, mem_scanUsers h2, Found]
  have huser : ∀ u ∈ users, userPath path u = path ++ slash :: decimal u.toNat := fun u hu => by
    rw [userPath, if_neg (ne_zero_of_mem_users hu)]
  constructor
  · rintro (⟨names, n, hnames, hn, hgives⟩ | ⟨u, hu, hst, names, n, hnames, hn, hgives⟩)
    · obtain hzero : f.user = 0 := hgives.2.2.1
      rw [hzero]
      exact ⟨.inl rfl, names, n, hnames, hn, hgives⟩
    · obtain rfl : f.user = u := hgives.2.2.1
      rw [huser _ hu]
      exact ⟨.inr ⟨hu, hst⟩, names, n, hnames, hn, hgives⟩
  · rintro ⟨hzero | ⟨hu, hst⟩, names, n, hnames, hn, hgives⟩
    · rw [hzero] at hnames hgives
      exact .inl ⟨names, n, hnames, hn, hgives⟩
    · rw [huser _ hu] at hst hnames hgives
      exact .inr ⟨f.user, hu, hst, names, n, hnames, hn, hgives⟩

end Found

/-! ## The packing -/

/-- The files `fs` behind the files `ks`, without those whose names are taken. -/
def keep : List HostFile → List HostFile → List HostFile
  | ks, [] => ks
  | ks, f :: fs => if f.key ∈ ks.map HostFile.key then keep ks fs else keep (ks ++ [f]) fs

/-- **The files of a list that are imported**: those whose names are not taken when they are
reached. -/
def imported (fs : List HostFile) : List HostFile := keep [] fs

/-- **The entry of extent `k` of a file**, with the `n` blocks from `free` on. -/
def extent (d : Dpb) (u : UInt8) (name : Bytes) (k n free : ℕ) : CpmDir :=
  (extentEntry d CpmDir.empty u name k n).fill d.blockPtrType (List.range' 0 n) free

/-- **The entries of the extents of a file** from extent `k` on: `todo` are left, `rest` blocks are
still to be placed, and the next free block is `free`. -/
def extents (d : Dpb) (u : UInt8) (name : Bytes) : ℕ → ℕ → ℕ → ℕ → List CpmDir
  | 0, _, _, _ => []
  | todo + 1, k, rest, free =>
    extent d u name k (min rest d.blockPtrType) free ::
      extents d u name todo (k + 1) (rest - min rest d.blockPtrType)
        (free + min rest d.blockPtrType)

/-- The entries of a file whose first block is `free`. -/
def fileEntries (d : Dpb) (f : HostFile) (free : ℕ) : List CpmDir :=
  extents d f.user f.name (f.dirs d) 0 (f.blocks d) free

/-- **The entries of a list of files**, from the block `free` on. -/
def entries (d : Dpb) : List HostFile → ℕ → List CpmDir
  | [], _ => []
  | f :: fs, free => fileEntries d f free ++ entries d fs (free + f.placed d)

/-- The number of entries of a list of files. -/
def slots (d : Dpb) (ks : List HostFile) : ℕ := (ks.map (HostFile.dirs d)).sum

/-- The number of blocks that a list of files takes. -/
def taken (d : Dpb) (ks : List HostFile) : ℕ := (ks.map (HostFile.placed d)).sum

/-- **The files fit**: there are entries for their extents, and a block behind the last one that
they take. -/
def HasRoom (d : Dpb) (ks : List HostFile) : Prop :=
  slots d ks ≤ d.directoryEntries ∧ d.dirBlocks + taken d ks < d.maxBlock

instance (d : Dpb) (ks : List HostFile) : Decidable (HasRoom d ks) :=
  inferInstanceAs (Decidable (_ ∧ _))

/-- **The disk with a list of files.** -/
def packed (path : Bytes) (g : Geometry) (host : Host) (ks : List HostFile) : Disk :=
  { blank path g host with
    dir := entries g.dpb ks g.dpb.dirBlocks ++
      List.replicate (g.dpb.directoryEntries - slots g.dpb ks) CpmDir.empty
    cpm2unix := ks.foldl (fun m f => m.insert f.key f.path) ∅
    freeblock := g.dpb.dirBlocks + taken g.dpb ks }

/-! ## One file -/

variable {dk dk' : Disk} {u : UInt8} {name : Bytes}

/-- The loop over the pointers of an entry succeeds while blocks are left.

**Proof sketch.** Induction on the pointers. A round does not reach the end of the blocks while
blocks are left for the rounds behind it. It sets a pointer, which leaves the user number alone. -/
lemma addBlocks_of_room {slot : ℕ} : ∀ (is : List ℕ) {dk : Disk}, slot < dk.dir.length →
    dk.freeblock + is.length < dk.dpb.maxBlock → ∃ e, addBlocks slot is dk =
      .ok () { dk with dir := dk.dir.set slot e, freeblock := dk.freeblock + is.length } ∧
        ∀ f, dk.dir[slot]? = some f → e.st = f.st := by
  intro is
  induction is with
  | nil =>
    intro dk hslot _
    refine ⟨dk.dir[slot], by simp [addBlocks, pure, EStateM.pure], fun f hf => ?_⟩
    rw [List.getElem?_eq_getElem hslot, Option.some.injEq] at hf
    rw [hf]
  | cons i is ih =>
    intro dk hslot hfree
    rw [List.length_cons] at hfree
    have hat : dirAt slot dk = .ok dk.dir[slot] dk := by
      simp only [dirAt, List.getElem?_eq_getElem hslot]
    set e₁ := (dk.dir[slot]).setPointer dk.dpb.blockPtrType i dk.freeblock with he₁
    set dk₁ : Disk := { dk with dir := dk.dir.set slot e₁, freeblock := dk.freeblock + 1 } with hdk₁
    have hslot₁ : slot < dk₁.dir.length := by simpa [hdk₁] using hslot
    obtain ⟨e, h1, h2⟩ := ih hslot₁ (by simp only [hdk₁]; omega)
    refine ⟨e, ?_, fun f hf => ?_⟩
    · have hstep : addBlocks slot (i :: is) dk = addBlocks slot is dk₁ := by
        rw [addBlocks, Exc.get_bind, Exc.bind_of_ok hat]
        exact congrFun (if_neg (by omega) : (if dk.freeblock + 1 ≥ dk.dpb.maxBlock
          then throw .rethrow else addBlocks slot is : DiskM Unit) = addBlocks slot is) dk₁
      rw [hstep, h1]
      simp only [hdk₁, List.set_set, List.length_cons]
      congr 2
      omega
    · have hst := h2 e₁ (by simp [hdk₁, hslot])
      rw [List.getElem?_eq_getElem hslot, Option.some.injEq] at hf
      rw [hst, he₁, (CpmDir.setPointer_fields _ _ _ _).1, hf]

/-- **When the loop over the pointers of an entry returns, and its result.** -/
lemma addBlocks_iff {slot : ℕ} {e : CpmDir} {is : List ℕ} (he : dk.dir[slot]? = some e)
    (hfree : dk.freeblock < dk.dpb.maxBlock) : addBlocks slot is dk = .ok () dk' ↔
      dk.freeblock + is.length < dk.dpb.maxBlock ∧ dk' = { dk with
        dir := dk.dir.set slot (e.fill dk.dpb.blockPtrType is dk.freeblock)
        freeblock := dk.freeblock + is.length } := by
  constructor
  · intro h
    obtain ⟨rfl, hlt⟩ := addBlocks_ok he hfree h
    exact ⟨hlt, rfl⟩
  · rintro ⟨hlt, rfl⟩
    obtain ⟨e', h, -⟩ := addBlocks_of_room is (List.getElem?_eq_some_iff.mp he).1 hlt
    rw [h, ← (addBlocks_ok he hfree h).1]

/-- `NewDir` finds the first entry behind the used ones. -/
lemma newDir_of_room {es : List CpmDir} {m : ℕ}
    (hdir : dk.dir = es ++ List.replicate (m + 1) CpmDir.empty)
    (hlen : dk.dir.length = dk.dpb.directoryEntries) (hes : ∀ e ∈ es, e.Used) :
    dk.newDir = some es.length := by
  have hl : es.length < dk.dpb.directoryEntries := by
    rw [← hlen, hdir, List.length_append, List.length_replicate]
    omega
  rw [newDir, List.find?_range_eq_some]
  refine ⟨?_, List.mem_range.mpr hl, fun j hj => ?_⟩
  · have hat : dk.dir[es.length]? = some CpmDir.empty := by simp [hdir]
    rw [hat]
    decide
  · have hat : dk.dir[j]? = some es[j] := by
      rw [hdir, List.getElem?_append_left hj, List.getElem?_eq_getElem hj]
    rw [hat]
    simp [hes _ (List.getElem_mem hj)]

/-- `NewDir` finds nothing in a full directory. -/
lemma newDir_of_full (hes : ∀ e ∈ dk.dir, e.Used) : dk.newDir = none := by
  rw [newDir, List.find?_eq_none]
  intro i _
  cases he : dk.dir[i]? with
  | none => simp
  | some e => simpa using hes e (List.mem_of_getElem? he)

/-- Blocks for an extent, then for the rest. -/
lemma min_add_min (rest bps todo : ℕ) : min rest bps + min (rest - min rest bps) (todo * bps) =
    min rest ((todo + 1) * bps) := by
  rw [Nat.succ_mul]
  omega

/-- **When the loop over the extents of a file returns, and its result.**

**Proof sketch.** Induction on the number of extents left. A round needs an unused entry and, in
front of the last block, as many blocks as the extent takes; the rest of the loop runs on the disk
with one entry more. -/
lemma addExtents_iff (hu : u ≠ CpmDir.UNUSED) (todo : ℕ) :
    ∀ (k rest : ℕ) {m : ℕ} {dk : Disk} {es : List CpmDir},
      dk.dir = es ++ List.replicate m CpmDir.empty →
      dk.dir.length = dk.dpb.directoryEntries → (∀ e ∈ es, e.Used) →
      dk.freeblock < dk.dpb.maxBlock →
      (addExtents u name todo k rest dk = .ok () dk' ↔
        todo ≤ m ∧ dk.freeblock + min rest (todo * dk.dpb.blockPtrType) < dk.dpb.maxBlock ∧
        dk' = { dk with
          dir := es ++ extents dk.dpb u name todo k rest dk.freeblock ++
            List.replicate (m - todo) CpmDir.empty
          freeblock := dk.freeblock + min rest (todo * dk.dpb.blockPtrType) }) := by
  induction todo with
  | zero =>
    intro k rest m dk es hdir hlen hes hfree
    simp only [addExtents, extents, Nat.zero_mul, Nat.min_zero, Nat.add_zero, List.append_nil,
      Nat.sub_zero, ← hdir]
    constructor
    · intro h
      have h' : dk = dk' := by simpa [pure, EStateM.pure] using h
      exact ⟨Nat.zero_le m, hfree, h'.symm⟩
    · rintro ⟨-, -, rfl⟩
      rfl
  | succ todo ih =>
    intro k rest m dk es hdir hlen hes hfree
    rw [addExtents, Exc.get_bind]
    cases m with
    | zero =>
      have hfull : dk.newDir = none := newDir_of_full (by simpa [hdir] using hes)
      rw [hfull]
      constructor
      · intro h
        cases h
      · rintro ⟨h, -⟩
        omega
    | succ m =>
      have hnew := newDir_of_room hdir hlen hes
      have hat : dirAt es.length dk = .ok CpmDir.empty dk := by simp [dirAt, hdir]
      set n := min rest dk.dpb.blockPtrType with hn
      set e₁ := extentEntry dk.dpb CpmDir.empty u name k n with he₁
      set dk₁ : Disk := { dk with dir := dk.dir.set es.length e₁ } with hdk₁
      have hset : setDir es.length e₁ dk = .ok () dk₁ := rfl
      have hat₁ : dk₁.dir[es.length]? = some e₁ := by simp [hdk₁, hdir]
      rw [hnew]
      simp only
      rw [Exc.bind_of_ok hat, Exc.bind_of_ok hset, Exc.bind_ok]
      -- the disk after the round
      set e₂ := e₁.fill dk.dpb.blockPtrType (List.range n) dk.freeblock with he₂
      set dk₂ : Disk := { dk₁ with
        dir := dk₁.dir.set es.length e₂, freeblock := dk.freeblock + n } with hdk₂
      have hblocks : ∀ dk₃, addBlocks es.length (List.range n) dk₁ = .ok () dk₃ ↔
          dk.freeblock + n < dk.dpb.maxBlock ∧ dk₃ = dk₂ := by
        intro dk₃
        rw [addBlocks_iff hat₁ hfree, List.length_range]
      have hused : e₂.Used := by
        rw [CpmDir.Used, he₂, (CpmDir.fill_fields _ _ _ _).1]
        exact hu
      have hdir₂ : dk₂.dir = (es ++ [e₂]) ++ List.replicate m CpmDir.empty := by
        simp [hdk₂, hdk₁, hdir, List.replicate_succ]
      have hlen₂ : dk₂.dir.length = dk₂.dpb.directoryEntries := by
        simpa [hdk₂, hdk₁] using hlen
      have hes₂ : ∀ e ∈ es ++ [e₂], e.Used := by
        intro e he
        rcases List.mem_append.mp he with he | he
        · exact hes e he
        · rwa [List.mem_singleton.mp he]
      have hsum := min_add_min rest dk.dpb.blockPtrType todo
      rw [← hn] at hsum
      have hresult : { dk₂ with
          dir := es ++ [e₂] ++ extents dk₂.dpb u name todo (k + 1) (rest - n) dk₂.freeblock ++
            List.replicate (m - todo) CpmDir.empty
          freeblock := dk₂.freeblock + min (rest - n) (todo * dk₂.dpb.blockPtrType) } =
          { dk with
            dir := es ++ extents dk.dpb u name (todo + 1) k rest dk.freeblock ++
              List.replicate (m + 1 - (todo + 1)) CpmDir.empty
            freeblock := dk.freeblock + min rest ((todo + 1) * dk.dpb.blockPtrType) } := by
        rw [← hsum, extents, ← hn, extent, ← List.range_eq_range', Nat.add_sub_add_right]
        simp only [hdk₂, hdk₁, he₂, he₁, List.append_assoc, List.singleton_append, Nat.add_assoc]
      constructor
      · rintro ⟨⟨⟩, dk₃, hb, hrest⟩
        obtain ⟨hlt, rfl⟩ := (hblocks dk₃).mp hb
        obtain ⟨hm, hlt', rfl⟩ := (ih (k + 1) (rest - n) hdir₂ hlen₂ hes₂ hlt).mp hrest
        exact ⟨by omega, by rw [← hsum, ← Nat.add_assoc]; exact hlt', hresult⟩
      · rintro ⟨hm, hlt', rfl⟩
        rw [← hsum, ← Nat.add_assoc] at hlt'
        have hlt : dk.freeblock + n < dk.dpb.maxBlock := by omega
        refine ⟨(), dk₂, (hblocks dk₂).mpr ⟨hlt, rfl⟩, ?_⟩
        exact (ih (k + 1) (rest - n) hdir₂ hlen₂ hes₂ hlt).mpr ⟨by omega, hlt', hresult.symm⟩

/-! ## A list of files -/

variable {d : Dpb} {ks fs : List HostFile} {f : HostFile}

/-- The number of entries of the extents of a file. -/
@[simp]
lemma length_extents (d : Dpb) (u : UInt8) (name : Bytes) (todo : ℕ) : ∀ k rest free,
    (extents d u name todo k rest free).length = todo := by
  induction todo with
  | zero => exact fun _ _ _ => rfl
  | succ todo ih => intro k rest free; simp [extents, ih]

/-- The number of entries of a list of files. -/
@[simp]
lemma length_entries (d : Dpb) (ks : List HostFile) : ∀ free,
    (entries d ks free).length = slots d ks := by
  induction ks with
  | nil => exact fun _ => rfl
  | cons f fs ih => intro free; simp [entries, fileEntries, slots, ih]

/-- The entries of two lists of files. -/
@[simp]
lemma slots_append (d : Dpb) (ks fs : List HostFile) :
    slots d (ks ++ fs) = slots d ks + slots d fs := by simp [slots]

/-- The blocks of two lists of files. -/
@[simp]
lemma taken_append (d : Dpb) (ks fs : List HostFile) :
    taken d (ks ++ fs) = taken d ks + taken d fs := by simp [taken]

/-- **The entries of two lists of files**, one behind the other. -/
lemma entries_append (d : Dpb) (ks fs : List HostFile) : ∀ free,
    entries d (ks ++ fs) free = entries d ks free ++ entries d fs (free + taken d ks) := by
  induction ks with
  | nil => intro free; simp [entries, taken]
  | cons f ks ih => intro free; simp [entries, taken, ih, Nat.add_assoc]

/-- The users of the files are not the mark of an unused entry. -/
def RealUsers (ks : List HostFile) : Prop := ∀ f ∈ ks, f.user ≠ CpmDir.UNUSED

/-- The entries of the extents of a file have its user. -/
lemma st_of_mem_extents (todo : ℕ) : ∀ {k rest free : ℕ},
    ∀ e ∈ extents d u name todo k rest free, e.st = u := by
  induction todo with
  | zero => intro k rest free e he; cases he
  | succ todo ih =>
    intro k rest free e he
    rcases List.mem_cons.mp he with rfl | he
    · exact (CpmDir.fill_fields _ _ _ _).1
    · exact ih e he

/-- The entries of a list of files are in use. -/
lemma used_of_mem_entries (hks : RealUsers ks) : ∀ {free : ℕ}, ∀ e ∈ entries d ks free, e.Used := by
  induction ks with
  | nil => intro free e he; cases he
  | cons f ks ih =>
    intro free e he
    rcases List.mem_append.mp he with he | he
    · rw [CpmDir.Used, st_of_mem_extents _ e he]
      exact hks f (by simp)
    · exact ih (fun f hf => hks f (by simp [hf])) e he

/-- The names of a list of files behind a map. -/
lemma lookup_foldl_insert {k : Bytes} (ks : List HostFile) :
    ∀ {m : AList fun _ : Bytes => Bytes},
      (ks.foldl (fun m f => m.insert f.key f.path) m).lookup k = none ↔
        m.lookup k = none ∧ k ∉ ks.map HostFile.key := by
  induction ks with
  | nil => intro m; simp
  | cons f ks ih =>
    intro m
    rw [List.foldl_cons, ih]
    by_cases hk : k = f.key
    · subst hk
      simp
    · simp [AList.lookup_insert_ne hk, hk]

/-- A part of the files has room if all have. -/
lemma HasRoom.of_isPrefix (h : ks <+: fs) (hfs : HasRoom d fs) : HasRoom d ks := by
  obtain ⟨rest, rfl⟩ := h
  simp only [HasRoom, slots_append, taken_append] at hfs ⊢
  omega

/-- Files are put behind those that are there. -/
lemma isPrefix_keep (ks fs : List HostFile) : ks <+: keep ks fs := by
  induction fs generalizing ks with
  | nil => exact List.prefix_refl ks
  | cons f fs ih =>
    rw [keep]
    split
    · exact ih ks
    · exact (List.prefix_append ks [f]).trans (ih _)

/-- Two lists of files, one after the other. -/
lemma keep_append (ks fs fs' : List HostFile) :
    keep ks (fs ++ fs') = keep (keep ks fs) fs' := by
  induction fs generalizing ks with
  | nil => rfl
  | cons f fs ih =>
    rw [List.cons_append, keep, keep]
    split
    · exact ih ks
    · exact ih _

/-- Every file that is kept is one of the files. -/
lemma mem_keep {ks fs : List HostFile} {f : HostFile} (h : f ∈ keep ks fs) : f ∈ ks ∨ f ∈ fs := by
  induction fs generalizing ks with
  | nil => exact .inl h
  | cons f' fs ih =>
    rw [keep] at h
    split at h
    · rcases ih h with h | h
      · exact .inl h
      · exact .inr (List.mem_cons_of_mem _ h)
    · rcases ih h with h | h
      · rcases List.mem_append.mp h with h | h
        · exact .inl h
        · exact .inr (by simp [List.mem_singleton.mp h])
      · exact .inr (List.mem_cons_of_mem _ h)

/-- The users of the files that are kept. -/
lemma RealUsers.keep (hks : RealUsers ks) (hfs : RealUsers fs) : RealUsers (keep ks fs) := by
  intro f hf
  rcases mem_keep hf with hf | hf
  · exact hks f hf
  · exact hfs f hf

/-- No two files that are kept have one key. -/
lemma nodup_keep {ks fs : List HostFile} (h : (ks.map HostFile.key).Nodup) :
    ((keep ks fs).map HostFile.key).Nodup := by
  induction fs generalizing ks with
  | nil => exact h
  | cons f fs ih =>
    rw [keep]
    split
    · exact ih h
    · rename_i hf
      apply ih
      rw [List.map_append, List.map_singleton, List.nodup_append]
      refine ⟨h, by simp, ?_⟩
      intro a ha b hb
      rw [List.mem_singleton.mp hb]
      rintro rfl
      exact hf ha

/-- Files with different keys are all kept. -/
lemma keep_of_nodup {ks fs : List HostFile} (h : ((ks ++ fs).map HostFile.key).Nodup) :
    keep ks fs = ks ++ fs := by
  induction fs generalizing ks with
  | nil => rw [keep, List.append_nil]
  | cons f fs ih =>
    have hsplit : ks ++ f :: fs = ks ++ [f] ++ fs := by simp
    have hnot : f.key ∉ ks.map HostFile.key := by
      intro hmem
      rw [List.map_append, List.nodup_append] at h
      exact h.2.2 f.key hmem f.key (by simp) rfl
    rw [hsplit] at h ⊢
    rw [keep, if_neg hnot, ih h]

/-! ## The import -/

section Import

variable {path : Bytes} {g : Geometry} {host : Host}

/-- The disk with one file more. -/
lemma packed_concat (ks : List HostFile) (f : HostFile) : packed path g host (ks ++ [f]) =
    { packed path g host ks with
      dir := entries g.dpb ks g.dpb.dirBlocks ++
        fileEntries g.dpb f (g.dpb.dirBlocks + taken g.dpb ks) ++
        List.replicate (g.dpb.directoryEntries - slots g.dpb ks - f.dirs g.dpb) CpmDir.empty
      cpm2unix := (packed path g host ks).cpm2unix.insert f.key f.path
      freeblock := g.dpb.dirBlocks + taken g.dpb ks + f.placed g.dpb } := by
  have hslots : slots g.dpb [f] = f.dirs g.dpb := by simp [slots]
  have htaken : taken g.dpb [f] = f.placed g.dpb := by simp [taken]
  simp only [packed, entries_append, entries, List.append_nil, slots_append, taken_append, hslots,
    htaken, List.foldl_append, List.foldl_cons, List.foldl_nil, Nat.sub_sub, Nat.add_assoc]

/-- The name map of a list of files.

**Proof sketch.** Induction on the files from the last one on. The last file has entered its key,
which no earlier file has; any other key is looked up among the earlier files. -/
lemma lookup_packed {k p : Bytes} (ks : List HostFile)
    (hnodup : (ks.map HostFile.key).Nodup) :
    (packed path g host ks).cpm2unix.lookup k = some p ↔ ∃ f ∈ ks, f.key = k ∧ f.path = p := by
  induction ks using List.reverseRecOn with
  | nil => simp [packed]
  | append_singleton ks f ih =>
    rw [List.map_append, List.map_singleton, List.nodup_append] at hnodup
    obtain ⟨hks, -, hnot⟩ := hnodup
    rw [packed_concat]
    by_cases hk : k = f.key
    · subst hk
      simp only [AList.lookup_insert, Option.some.injEq]
      constructor
      · rintro rfl
        exact ⟨f, by simp, rfl, rfl⟩
      · rintro ⟨f', hf', hkey, rfl⟩
        rcases List.mem_append.mp hf' with hf' | hf'
        · exact absurd hkey (hnot _ (List.mem_map_of_mem hf') _ (by simp))
        · rw [List.mem_singleton.mp hf']
    · simp only [AList.lookup_insert_ne hk, ih hks, List.mem_append, List.mem_singleton]
      constructor
      · rintro ⟨f', hf', h⟩
        exact ⟨f', .inl hf', h⟩
      · rintro ⟨f', hf' | rfl, h⟩
        · exact ⟨f', hf', h⟩
        · exact absurd h.1.symm hk

/-- The room that one file more needs. -/
lemma hasRoom_concat (hroom : HasRoom d ks) : HasRoom d (ks ++ [f]) ↔
    f.dirs d ≤ d.directoryEntries - slots d ks ∧
      d.dirBlocks + taken d ks + f.placed d < d.maxBlock := by
  have hslots : slots d [f] = f.dirs d := by simp [slots]
  have htaken : taken d [f] = f.placed d := by simp [taken]
  obtain ⟨h1, h2⟩ := hroom
  simp only [HasRoom, slots_append, taken_append, hslots, htaken]
  omega

/-- **When `addfile` returns, and its result.**

**Proof sketch.** The map has the key of the file iff an earlier file has it, and then nothing is
done. For a new key the extents go behind the entries that are there, which succeeds iff slots and
blocks are left (`addExtents_iff`). -/
lemma addfile_iff (hroom : HasRoom g.dpb ks) (hks : RealUsers ks) (hu : f.user ≠ CpmDir.UNUSED)
    (hstat : host.stat f.path = some (.regular f.size)) :
    addfile f.path f.user f.name (packed path g host ks) = .ok () dk' ↔
      HasRoom g.dpb (keep ks [f]) ∧ dk' = packed path g host (keep ks [f]) := by
  rw [addfile, Exc.get_bind]
  cases hlook : (packed path g host ks).cpm2unix.lookup (keyOf f.user f.name) with
  | some q =>
    have hmem : f.key ∈ ks.map HostFile.key := by
      by_contra hnot
      have hnone := (lookup_foldl_insert (m := ∅) ks).mpr ⟨AList.lookup_empty f.key, hnot⟩
      rw [show f.key = keyOf f.user f.name from rfl] at hnone
      rw [show (packed path g host ks).cpm2unix =
        ks.foldl (fun m f => m.insert f.key f.path) ∅ from rfl, hnone] at hlook
      cases hlook
    rw [keep, if_pos hmem, keep]
    constructor
    · intro h
      have h' : packed path g host ks = dk' := by simpa [pure, EStateM.pure] using h
      exact ⟨hroom, h'.symm⟩
    · rintro ⟨-, rfl⟩
      rfl
  | none =>
    have hnot : f.key ∉ ks.map HostFile.key := ((lookup_foldl_insert ks).mp hlook).2
    rw [keep, if_neg hnot, keep]
    simp only [show (packed path g host ks).host = host from rfl, hstat]
    rw [Exc.bind_ok, hasRoom_concat hroom, packed_concat]
    have hlen : (packed path g host ks).dir.length =
        (packed path g host ks).dpb.directoryEntries := by
      have := hroom.1
      show (_ ++ _ : List CpmDir).length = g.dpb.directoryEntries
      rw [List.length_append, length_entries, List.length_replicate]
      omega
    have hext : ∀ dk₁, addExtents f.user f.name (fileDirs g.dpb f.size) 0
        (fileBlocks g.dpb f.size) (packed path g host ks) = .ok () dk₁ ↔ _ := fun dk₁ =>
      addExtents_iff hu _ 0 _ (show (packed path g host ks).dir = _ from rfl) hlen
        (used_of_mem_entries hks) hroom.2
    constructor
    · rintro ⟨⟨⟩, dk₁, hadd, hset⟩
      obtain ⟨hm, hlt, rfl⟩ := (hext dk₁).mp hadd
      exact ⟨⟨hm, hlt⟩, (EStateM.Result.ok.inj hset).2.symm⟩
    · rintro ⟨⟨hm, hlt⟩, rfl⟩
      exact ⟨(), _, (hext _).mpr ⟨hm, hlt, rfl⟩, rfl⟩

/-- **A part of the import adds the files of a scan**: from the disk with some files it returns iff
the scan does and there is room for the files found, and then to the disk with these files. -/
structure Imports (path : Bytes) (g : Geometry) (host : Host) (x : DiskM Unit)
    (scan : Option (List HostFile)) : Prop where
  users : ∀ fs, scan = some fs → RealUsers fs
  runs : ∀ ks dk', HasRoom g.dpb ks → RealUsers ks →
    (x (packed path g host ks) = .ok () dk' ↔ ∃ fs, scan = some fs ∧
      HasRoom g.dpb (keep ks fs) ∧ dk' = packed path g host (keep ks fs))

/-- A part that finds nothing. -/
lemma Imports.nothing : Imports path g host (pure ()) (some []) := by
  refine ⟨?_, ?_⟩
  · intro fs hfs f hf
    simp only [Option.some.injEq] at hfs
    simp [← hfs] at hf
  · intro ks dk' hroom _
    constructor
    · intro h
      have h' : packed path g host ks = dk' := by simpa [pure, EStateM.pure] using h
      exact ⟨[], rfl, hroom, h'.symm⟩
    · rintro ⟨fs, hfs, -, rfl⟩
      obtain rfl : fs = [] := by simpa using hfs.symm
      rfl

/-- A part that faults. -/
lemma Imports.fault (e : Fault) : Imports path g host (throw e) none := by
  refine ⟨?_, ?_⟩
  · intro fs hfs
    cases hfs
  · intro ks dk' _ _
    constructor
    · intro h
      cases h
    · rintro ⟨fs, hfs, -⟩
      cases hfs

/-- **Two parts, one after the other.**

**Proof sketch.** The first part makes the state of its files, from which the second one goes on.
Conversely the room for all files is room for those of the first part, since they come first. -/
lemma Imports.seq {x y : DiskM Unit} {scan scan' : Option (List HostFile)}
    (hx : Imports path g host x scan) (hy : Imports path g host y scan') :
    Imports path g host (do x; y) (do
      let fs ← scan
      let fs' ← scan'
      pure (fs ++ fs')) := by
  refine ⟨?_, ?_⟩
  · intro fs hfs
    obtain ⟨fs₁, h1, hfs⟩ := Option.bind_eq_some_iff.mp hfs
    obtain ⟨fs₂, h2, hfs⟩ := Option.bind_eq_some_iff.mp hfs
    obtain rfl : fs₁ ++ fs₂ = fs := by simpa using hfs
    intro f hf
    rcases List.mem_append.mp hf with hf | hf
    · exact hx.users _ h1 f hf
    · exact hy.users _ h2 f hf
  · intro ks dk' hroom hks
    rw [Exc.bind_ok]
    constructor
    · rintro ⟨⟨⟩, dk₁, hrun, hrest⟩
      obtain ⟨fs₁, h1, hroom₁, rfl⟩ := (hx.runs ks dk₁ hroom hks).mp hrun
      have hks₁ := hks.keep (hx.users fs₁ h1)
      obtain ⟨fs₂, h2, hroom₂, rfl⟩ := (hy.runs _ dk' hroom₁ hks₁).mp hrest
      refine ⟨fs₁ ++ fs₂, by rw [h1, h2]; rfl, ?_⟩
      rw [keep_append]
      exact ⟨hroom₂, rfl⟩
    · rintro ⟨fs, hfs, hroom', rfl⟩
      obtain ⟨fs₁, h1, hfs⟩ := Option.bind_eq_some_iff.mp hfs
      obtain ⟨fs₂, h2, hfs⟩ := Option.bind_eq_some_iff.mp hfs
      obtain rfl : fs₁ ++ fs₂ = fs := by simpa using hfs
      rw [keep_append] at hroom' ⊢
      have hroom₁ : HasRoom g.dpb (keep ks fs₁) := hroom'.of_isPrefix (isPrefix_keep _ _)
      have hks₁ := hks.keep (hx.users fs₁ h1)
      exact ⟨(), packed path g host (keep ks fs₁),
        (hx.runs ks _ hroom hks).mpr ⟨fs₁, h1, hroom₁, rfl⟩,
        (hy.runs _ _ hroom₁ hks₁).mpr ⟨fs₂, h2, hroom', rfl⟩⟩

/-- A part of the import may be replaced by one that does the same on every disk with files. -/
lemma Imports.congr {x y : DiskM Unit} {scan : Option (List HostFile)}
    (hy : Imports path g host y scan)
    (hxy : ∀ ks, x (packed path g host ks) = y (packed path g host ks)) :
    Imports path g host x scan := by
  refine ⟨hy.users, ?_⟩
  intro ks dk' hroom hks
  rw [hxy]
  exact hy.runs ks dk' hroom hks

/-- `addfile`. -/
lemma imports_addfile (hu : f.user ≠ CpmDir.UNUSED)
    (hstat : host.stat f.path = some (.regular f.size)) :
    Imports path g host (addfile f.path f.user f.name) (some [f]) := by
  refine ⟨?_, ?_⟩
  · intro fs hfs f' hf'
    obtain rfl : [f] = fs := by simpa using hfs
    rwa [List.mem_singleton.mp hf']
  · intro ks dk' hroom hks
    rw [addfile_iff hroom hks hu hstat]
    simp

/-- One name of a directory.

**Proof sketch.** By the status of the path of the name. The names `.` and `..`, directories, other
files and names without a CP/M name import nothing, a path that cannot be looked up is an error,
and a regular file with a name is `imports_addfile`. -/
lemma imports_importName (hu : u ≠ CpmDir.UNUSED) (userpath n : Bytes) :
    Imports path g host (importName userpath u n) (scanName host userpath u n) := by
  rw [scanName]
  by_cases hdot : n = here ∨ n = parentDir
  · rw [if_pos hdot]
    refine Imports.nothing.congr fun ks => ?_
    rw [importName, Exc.get_bind, if_pos hdot]
  · rw [if_neg hdot]
    have hstep : ∀ ks, importName userpath u n (packed path g host ks) = _ := fun ks => by
      rw [importName, Exc.get_bind, if_neg hdot]
    simp only [show ∀ ks, (packed path g host ks).host = host from fun _ => rfl] at hstep
    cases hstat : host.stat (userpath ++ slash :: n) with
    | none =>
      simp only [hstat] at hstep
      exact (Imports.fault .systemError).congr hstep
    | some st =>
      cases st with
      | directory =>
        simp only [hstat] at hstep
        exact Imports.nothing.congr hstep
      | other =>
        simp only [hstat] at hstep
        exact Imports.nothing.congr hstep
      | regular size =>
        simp only [hstat] at hstep
        cases hname : cpmName n with
        | none =>
          simp only [hname] at hstep
          exact Imports.nothing.congr hstep
        | some s =>
          simp only [hname] at hstep
          exact (imports_addfile (f := ⟨u, s, userpath ++ slash :: n, size⟩) hu hstat).congr hstep

/-- The names of a directory. -/
lemma imports_importNames (hu : u ≠ CpmDir.UNUSED) (userpath : Bytes) (ns : List Bytes) :
    Imports path g host (importNames userpath u ns) (scanNames host userpath u ns) := by
  induction ns with
  | nil => exact Imports.nothing
  | cons n ns ih => exact (imports_importName hu userpath n).seq ih

variable {readdir : Bytes → Option (List Bytes)}

/-- The directory of one user. -/
lemma imports_readuser (hu : u ≠ CpmDir.UNUSED) (userpath : Bytes) :
    Imports path g host (readuser readdir userpath u) (scanUser readdir host userpath u) := by
  rw [readuser, scanUser]
  cases readdir userpath with
  | none => exact Imports.fault .systemError
  | some names => exact imports_importNames hu userpath names

/-- The numbered user directories.

**Proof sketch.** Induction on the users. A user whose path is a directory is `imports_readuser`,
followed by the rest; any other user is passed. -/
lemma imports_readusers (dpath : Bytes) {us : List UInt8} (hus : ∀ u ∈ us, u ≠ CpmDir.UNUSED) :
    Imports path g host (readusers readdir dpath us) (scanUsers readdir host dpath us) := by
  induction us with
  | nil => exact Imports.nothing
  | cons u us ih =>
    have hrest := ih fun v hv => hus v (by simp [hv])
    have hstep : ∀ ks, readusers readdir dpath (u :: us) (packed path g host ks) = _ := fun ks => by
      rw [readusers, Exc.get_bind]
    simp only [show ∀ ks, (packed path g host ks).host = host from fun _ => rfl] at hstep
    rw [scanUsers]
    cases hstat : host.stat (dpath ++ slash :: decimal u.toNat) with
    | none =>
      simp only [hstat] at hstep
      exact hrest.congr hstep
    | some st =>
      cases st with
      | directory =>
        simp only [hstat] at hstep
        exact ((imports_readuser (hus u (by simp)) _).seq hrest).congr hstep
      | regular _ =>
        simp only [hstat] at hstep
        exact hrest.congr hstep
      | other =>
        simp only [hstat] at hstep
        exact hrest.congr hstep

/-- **When the constructor returns, and its result**: the walk over the host has to find its files,
and those whose names are not taken have to have room. The disk holds these files. -/
theorem build_iff (hg : g.Regular) : build readdir path g host = .ok () dk ↔
    ∃ fs, scanHost readdir host path = some fs ∧ HasRoom g.dpb (imported fs) ∧
      dk = packed path g host (imported fs) := by
  have husers : ∀ u ∈ users, u ≠ CpmDir.UNUSED := by
    rintro u hu rfl
    exact absurd hu (by decide)
  have hread : Imports path g host (readhost readdir path) (scanHost readdir host path) :=
    (imports_readuser (by decide) path).seq (imports_readusers path husers)
  have hblank : blank path g host = packed path g host [] := rfl
  rw [build, hblank]
  refine hread.runs [] dk ?_ (by simp [RealUsers])
  exact ⟨Nat.zero_le _, hg.room⟩

end Import

end Disk

end Cpm22
