import Cpm22.Disk.Steps

set_option relaxedAutoImplicit false
set_option autoImplicit false

/-!
# Building a disk from a host directory

The constructor of `disk` with `readhost`, `addfile` and `NewDir`: every regular file of the host
directory becomes a CP/M file of user 0, every regular file of its numbered subdirectories 1 to 15
a file of that user. Extents are entered in the first unused slots, blocks are handed out in order.

The order in which a directory lists its names is the host's; it is a parameter, with `none` for a
directory that cannot be listed.

## Main definitions

* `Cpm22.Disk.blank` — the disk before the host directory is read.
* `Cpm22.Disk.addfile`, `Cpm22.Disk.readuser`, `Cpm22.Disk.readhost` — reading it.
* `Cpm22.Disk.build` — the constructor.
-/

namespace Cpm22

open HostPath HostFs

namespace CpmDir

/-- `SetALByte`. -/
def setALByte (e : CpmDir) (i : ℕ) (v : ℕ) : CpmDir :=
  { e with al := fun j => if j.val = i then v.toUInt8 else e.al j }

/-- `SetALWord`, little-endian. -/
def setALWord (e : CpmDir) (i : ℕ) (v : ℕ) : CpmDir :=
  { e with al := fun j =>
      if j.val = 2 * i then v.toUInt8
      else if j.val = 2 * i + 1 then (v / 256).toUInt8 else e.al j }

/-- Setting a block pointer of an entry with `bps` pointers. -/
def setPointer (e : CpmDir) (bps i v : ℕ) : CpmDir :=
  if bps = 8 then e.setALWord i v else e.setALByte i v

end CpmDir

namespace Disk

/-- The name of the host file with the reserved tracks, `CPMSYS`. -/
def cpmsys : Bytes := ".cpm22.sys".toList.map ch

/-- **The disk before the host directory is read.** The directory blocks are taken, and all other
members are computed from the geometry and the path. -/
def blank (path : Bytes) (g : Geometry) (host : Host) : Disk where
  path := path
  dpb := g.dpb
  smap := g.retranslate
  dir := List.replicate g.dpb.directoryEntries CpmDir.empty
  cpm2unix := ∅
  freeblock := g.dpb.dirBlocks
  bootblock := path ++ slash :: cpmsys
  datastart := g.dpb.dirBlocks <<< g.dpb.bsh
  dirstart := g.dpb.off * g.dpb.spt
  cache := ∅
  host := host

/-- `NewDir`: the first unused entry. -/
def newDir (dk : Disk) : Option ℕ :=
  (List.range dk.dpb.directoryEntries).find? fun i =>
    match dk.dir[i]? with
    | some e => decide (¬ e.Used)
    | none => false

/-- The loop of `addfile` that fills pointers of the entry in slot `n` with free blocks. -/
def addBlocks (n : ℕ) : List ℕ → DiskM Unit
  | [] => pure ()
  | i :: is => do
    let dk ← get
    let dir ← dirAt n
    setDir n (dir.setPointer dk.dpb.blockPtrType i dk.freeblock)
    modify fun dk => { dk with freeblock := dk.freeblock + 1 }
    if dk.freeblock + 1 ≥ dk.dpb.maxBlock then throw .rethrow else addBlocks n is

/-- The entry of extent `d` of a file, before its pointers are set: what `addfile` writes into an
unused entry. `n` is the number of its blocks. -/
def extentEntry (dpb : Dpb) (dir : CpmDir) (userno : UInt8) (cpmname : Bytes) (d n : ℕ) : CpmDir :=
  { dir.setName cpmname with
    xl := (d &&& 0x0f).toUInt8
    xh := ((d >>> 4) &&& 0x1f).toUInt8
    st := userno
    rc := (n * dpb.blockSize / 128).toUInt8
    bc := 0 }

/-- The loop of `addfile` over the extents: `todo` are left, the next one is `d`, and `blocks`
blocks are still to be placed. -/
def addExtents (userno : UInt8) (cpmname : Bytes) : ℕ → ℕ → ℕ → DiskM Unit
  | 0, _, _ => pure ()
  | todo + 1, d, blocks => do
    let dk ← get
    match dk.newDir with
    | none => throw .rethrow
    | some slot =>
      let dir ← dirAt slot
      let n := min blocks dk.dpb.blockPtrType
      setDir slot (extentEntry dk.dpb dir userno cpmname d n)
      addBlocks slot (List.range n)
      addExtents userno cpmname todo (d + 1) (blocks - n)

/-- The number of blocks of a file. -/
def fileBlocks (d : Dpb) (size : ℕ) : ℕ := (size + d.blockSize - 1) / d.blockSize

/-- The number of extents `addfile` gives a file, in 32-bit arithmetic. -/
def fileDirs (d : Dpb) (size : ℕ) : ℕ := (1 + fileBlocks d size / d.blockPtrType) % 2 ^ 32

/-- **`addfile`**: a file whose name is taken is skipped. `readhost` calls it for regular files, so
that the last branch is reached only if the file is no regular one any more. -/
def addfile (path : Bytes) (userno : UInt8) (cpmname : Bytes) : DiskM Unit := do
  let dk ← get
  match dk.cpm2unix.lookup (keyOf userno cpmname) with
  | some _ => pure ()
  | none =>
    match dk.host.stat path with
    | some (.regular size) =>
      addExtents userno cpmname (fileDirs dk.dpb size) 0 (fileBlocks dk.dpb size)
      setUnix (keyOf userno cpmname) path
    | _ => throw .rethrow

/-- One name of a directory: regular files with a CP/M name are added, everything else is
skipped. -/
def importName (userpath : Bytes) (userno : UInt8) (d_name : Bytes) : DiskM Unit := do
  let dk ← get
  if d_name = here ∨ d_name = parentDir then pure ()
  else
    let filename := userpath ++ slash :: d_name
    match dk.host.stat filename with
    | none => throw .systemError
    | some (.regular _) =>
      match cpmName d_name with
      | none => pure ()
      | some cpmname => addfile filename userno cpmname
    | some _ => pure ()

/-- The loop over the names of a directory. -/
def importNames (userpath : Bytes) (userno : UInt8) : List Bytes → DiskM Unit
  | [] => pure ()
  | n :: ns => do
    importName userpath userno n
    importNames userpath userno ns

section Readdir

variable (readdir : Bytes → Option (List Bytes))

/-- `readuser`: import one host directory as one user area. -/
def readuser (userpath : Bytes) (userno : UInt8) : DiskM Unit :=
  match readdir userpath with
  | none => throw .systemError
  | some names => importNames userpath userno names

/-- The loop over the numbered user directories. -/
def readusers (dpath : Bytes) : List UInt8 → DiskM Unit
  | [] => pure ()
  | user :: users => do
    let dk ← get
    let userpath := dpath ++ slash :: decimal user.toNat
    match dk.host.stat userpath with
    | some .directory =>
      readuser readdir userpath user
      readusers dpath users
    -- no such directory, or not a directory
    | _ => readusers dpath users

/-- The user numbers with a directory of their own. -/
def users : List UInt8 := [1, 2, 3, 4, 5, 6, 7, 8, 9, 10, 11, 12, 13, 14, 15]

/-- User 0 has no directory of its own. -/
lemma ne_zero_of_mem_users {u : UInt8} (hu : u ∈ users) : u ≠ 0 := by
  rintro rfl
  exact absurd hu (by decide)

/-- The user numbers are below 16. -/
lemma lt_of_mem_users {u : UInt8} (hu : u ∈ users) : u.toNat < 16 := by
  have hall : users.all (fun v => v.toNat < 16) = true := by decide
  exact of_decide_eq_true (List.all_eq_true.mp hall u hu)

/-- **`readhost`**. -/
def readhost (dpath : Bytes) : DiskM Unit := do
  readuser readdir dpath 0
  readusers readdir dpath users

/-- **The constructor of `disk`.** -/
def build (path : Bytes) (g : Geometry) (host : Host) : EStateM.Result Fault Disk Unit :=
  readhost readdir path (blank path g host)

end Readdir

end Disk

end Cpm22
