import Mathlib.Data.List.AList
import Mathlib.Data.List.Sort
import Cpm22.Lib.Exc
import Cpm22.Lib.HostFs
import Cpm22.Disk.HostName

set_option relaxedAutoImplicit false
set_option autoImplicit false

/-!
# The disk over a host directory

`class disk`: a CP/M disk whose directory is kept in memory, whose files are host files, and
whose data sectors are cached until a directory entry lists their block. This file embeds
`Read`, `Write`, `Flush` and what they call; building a disk from a host directory is in
`Cpm22.Disk.Import`.

The operations run in `DiskM`: they change the disk and may end in a `Fault`, an exception or a
step outside the language. The state at the fault is kept. `Flush` erases the cache node its
iterator stands on; it is embedded as visiting each sector cached at its start once, in order.

## Main definitions

* `Cpm22.Disk` — the disk, its host included.
* `Cpm22.Disk.getAbsSector` — from track and sector to the linear sector number.
* `Cpm22.Disk.flush`, `Cpm22.Disk.write`, `Cpm22.Disk.read` — the operations.
* `Cpm22.Disk.writeEntry` — one of the four entries of a directory sector.
-/

namespace Cpm22

open HostPath HostFs

/-- **The disk**, with the host it lives on. `cpm2unix_` and `cache_` are maps of the standard
library; their iterators and the lifetime of the cached buffers are modelled where they matter
(`Cpm22.Disk.pass`). -/
structure Disk where
  /-- the host directory of the drive -/
  path : Bytes
  dpb : Dpb
  /-- sector retranslation table -/
  smap : List ℕ
  /-- directory entries -/
  dir : List CpmDir
  /-- from the name of an entry to the host path of its file -/
  cpm2unix : AList fun _ : Bytes => Bytes
  /-- next free block while the disk is built -/
  freeblock : ℕ
  /-- host path of the reserved tracks -/
  bootblock : Bytes
  /-- number of directory sectors -/
  datastart : ℕ
  /-- number of reserved sectors -/
  dirstart : ℕ
  /-- data sectors not yet written to the host -/
  cache : AList fun _ : ℕ => Sector
  host : Host

/-- How an operation can end without a result: by an exception, or by something that the language
leaves undefined. In each case the state is the one that the operation has reached. -/
inductive Fault
  /-- `std::out_of_range`, thrown by `at` -/
  | outOfRange
  /-- `throw;` without an exception to throw again: the program terminates -/
  | rethrow
  /-- `std::system_error` or `std::filesystem::filesystem_error` -/
  | systemError
  /-- an array access outside its bounds -/
  | badIndex
  /-- a use of a buffer after it was deleted -/
  | deadBuffer
  deriving DecidableEq

/-- Operations on a disk. -/
abbrev DiskM := EStateM Fault Disk

namespace Disk

/-! ## Access to the parts -/

/-- `cpm2unix_.at(name)`. -/
def unixAt (name : Bytes) : DiskM Bytes := fun dk =>
  match dk.cpm2unix.lookup name with
  | some p => .ok p dk
  | none => .error .outOfRange dk

/-- `dir_.at(n)`. -/
def dirAt (n : ℕ) : DiskM CpmDir := fun dk =>
  match dk.dir[n]? with
  | some e => .ok e dk
  | none => .error .outOfRange dk

/-- Assignment to the entry `dir_.at(n)`. -/
def setDir (n : ℕ) (e : CpmDir) : DiskM Unit := modify fun dk => { dk with dir := dk.dir.set n e }

/-- `cpm2unix_.erase(name)`. -/
def eraseUnix (name : Bytes) : DiskM Unit :=
  modify fun dk => { dk with cpm2unix := dk.cpm2unix.erase name }

/-- `cpm2unix_[name] = p`. -/
def setUnix (name p : Bytes) : DiskM Unit :=
  modify fun dk => { dk with cpm2unix := dk.cpm2unix.insert name p }

/-- A call of the host. -/
def onHost {α : Type} (f : Host → α × Host) : DiskM α := fun dk =>
  .ok (f dk.host).1 { dk with host := (f dk.host).2 }

/-- A call of the host whose failure ends in `throw;`. -/
def orRethrow (f : Host → Bool × Host) : DiskM Unit := do
  if ← onHost f then pure () else throw .rethrow

/-- **`mkhostname`**: make the user's directory and return the path of the file. -/
def mkhostname (cpmname : Bytes) : DiskM Bytes := do
  let path := (← get).path
  if ← onHost (·.createDirectories (hostDir path (splitUser cpmname).1)) then
    pure (hostPath path cpmname)
  else throw .systemError

/-- The bytes of a sector. -/
def bytes (d : Sector) : Bytes := List.ofFn d

/-- A buffer after reading some bytes to its start. -/
def overlay (dma : Sector) (bs : Bytes) : Sector := fun i => bs.getD i (dma i)

/-- **`WriteHost`**: 128 bytes at a position of a host file; `true` is the result 0. -/
def writeHost (hfile : Bytes) (pos : ℕ) (data128 : Sector) : DiskM Bool :=
  onHost (·.write hfile pos (bytes data128))

/-- **`ReadHost`**: up to 128 bytes from a position of a host file to the start of the buffer,
fewer at the end of the file; the first component is `true` for the result 0. -/
def readHost (hfile : Bytes) (pos : ℕ) (data128 : Sector) : DiskM (Bool × Sector) := do
  match ← onHost (·.read hfile pos) with
  | some bs => pure (true, overlay data128 (bs.take 128))
  | none => pure (false, data128)

/-- **`GetAbsSector`**, in 32-bit arithmetic. Reserved tracks are not translated; `none` is an
access outside the retranslation table. -/
def getAbsSector (dk : Disk) (track sector : ℕ) : Option ℕ :=
  let abs (map : ℕ) := (track * dk.dpb.spt + map + (2 ^ 32 - 1)) % 2 ^ 32
  if track ≥ dk.dpb.off then
    if sector = 0 then none else (dk.smap[sector - 1]?).map abs
  else some (abs sector)

/-- `GetAbsSector` as a step. -/
def absSector (track sector : ℕ) : DiskM ℕ := fun dk =>
  match dk.getAbsSector track sector with
  | some a => .ok a dk
  | none => .error .badIndex dk

/-! ## `Flush` -/

/-- The position in its file of the sector `sid`, for an entry that has its block at
`blkoffset`, counted from one. -/
def fileOffset (d : Dpb) (blkoffset sid : ℕ) : ℕ :=
  (blkoffset - 1) * d.blockSize + (sid &&& d.blm) * 128

/-- **The inner loop of `Flush`** for one cached sector: each entry that lists the block gets
the sector written to its file. `live` says that the buffer was not deleted yet. -/
def flushSector (sid : ℕ) (data : Sector) : Bool → List CpmDir → DiskM Unit
  | _, [] => pure ()
  | live, e :: es => do
    let d := (← get).dpb
    let blkoffset := e.findBlockIndex (sid >>> d.bsh) d.blockPtrType
    if e.Used ∧ blkoffset ≠ 0 then
      let uname ← unixAt e.getName
      if live then
        let _ ← writeHost uname (fileOffset d blkoffset sid) data
        modify fun dk => { dk with cache := dk.cache.erase sid }
        flushSector sid data false es
      else throw .deadBuffer
    else flushSector sid data live es

/-- One round of the outer loop of `Flush`: the sector with number `sid`, if it is cached. -/
def flushOne (sid : ℕ) : DiskM Unit := do
  let dk ← get
  match dk.cache.lookup sid with
  | some data => flushSector sid data true dk.dir
  | none => pure ()

/-- The outer loop of `Flush` over the cached sectors. -/
def flushAll : List ℕ → DiskM Unit
  | [] => pure ()
  | sid :: sids => do
    flushOne sid
    flushAll sids

/-- The numbers of the cached sectors, in order. -/
def cached (dk : Disk) : List ℕ := dk.cache.keys.insertionSort (· ≤ ·)

/-- **`Flush`**. -/
def flush : DiskM ℕ := do
  flushAll (← get).cached
  pure 0

/-! ## `Write` -/

/-- The entry of a directory sector that a byte belongs to. -/
lemma row_lt (i : Fin 128) : i.val / 32 < 4 := by omega

/-- The place of a byte in its entry. -/
lemma column_lt (i : Fin 128) : i.val % 32 < 32 := Nat.mod_lt _ (by omega)

/-- Entry `idx` of a directory sector. -/
def entryOf (dma : Sector) (idx : Fin 4) : CpmDir :=
  CpmDir.ofBytes fun i => dma ⟨idx * 32 + i, by omega⟩

/-- What replacing the entry `extold` by `extnew` does to the host files and the name map. Only
entries of extent 0 stand for a file: one that is erased removes it, one that appears creates it,
and a new name renames it. -/
def hostChange (extold extnew : CpmDir) : DiskM Unit := do
  if ¬ extnew.Used ∧ extold.Used then
    if extold.getExtNumber = 0 then
      let uname ← unixAt extold.getName
      orRethrow (·.remove uname)
      eraseUnix extold.getName
  else if extnew.Used ∧ ¬ extold.Used then
    if extnew.getExtNumber = 0 then
      let uname ← mkhostname extnew.getName
      orRethrow (·.create uname)
      setUnix extnew.getName uname
  else if extnew.Used ∧ extold.Used ∧ extnew.getName ≠ extold.getName then
    if extold.getExtNumber = 0 ∧ extnew.getExtNumber = 0 then
      let unameold ← unixAt extold.getName
      let unamenew ← mkhostname extnew.getName
      orRethrow (·.rename unameold unamenew)
      eraseUnix extold.getName
      setUnix extnew.getName unamenew

/-- **One entry of a directory sector**: nothing if it did not change, otherwise the change of
the host and the new entry. -/
def writeEntry (n : ℕ) (extnew : CpmDir) : DiskM Unit := do
  let extold ← dirAt n
  if extold.eq extnew then pure ()
  else
    hostChange extold extnew
    setDir n extnew

/-- The entries of a directory sector, from entry `idx` on. -/
def writeEntries (extno : ℕ) (dma : Sector) : List (Fin 4) → DiskM Unit
  | [] => pure ()
  | idx :: idxs => do
    writeEntry (extno + idx) (entryOf dma idx)
    writeEntries extno dma idxs

/-- A directory sector: its four entries, then `Flush`. -/
def writeDir (sector : ℕ) (dma : Sector) : DiskM ℕ := do
  writeEntries (sector <<< 2) dma [0, 1, 2, 3]
  flush

/-- A data sector goes to the cache. -/
def writeData (sector : ℕ) (dma : Sector) : DiskM ℕ := do
  modify fun dk => { dk with cache := dk.cache.insert sector dma }
  pure 0

/-- **`Write`**. -/
def write (track sector : ℕ) (dma : Sector) : DiskM ℕ := do
  let absector ← absSector track sector
  let dk ← get
  if absector < dk.dirstart then
    if ← writeHost dk.bootblock (absector <<< 7) dma then pure 0 else throw .rethrow
  else if absector - dk.dirstart < dk.datastart then writeDir (absector - dk.dirstart) dma
  else writeData (absector - dk.dirstart) dma

/-! ## `Read` -/

/-- The loop of `Read` over the directory for a sector that is not cached: each entry that
lists the block is asked for it. A name without a host file gives the empty path. -/
def readSector (sid : ℕ) : List CpmDir → Sector → DiskM Sector
  | [], dma => pure dma
  | e :: es, dma => do
    let dk ← get
    let blkoffset := e.findBlockIndex (sid >>> dk.dpb.bsh) dk.dpb.blockPtrType
    if e.Used ∧ blkoffset ≠ 0 then
      let uname := (dk.cpm2unix.lookup e.getName).getD []
      let r ← readHost uname (fileOffset dk.dpb blkoffset sid) dma
      readSector sid es r.2
    else readSector sid es dma

/-- A data sector: from the cache, or from the host. -/
def readData (sid : ℕ) (dma : Sector) : DiskM Sector := do
  let dk ← get
  match dk.cache.lookup sid with
  | some d => pure d
  | none => readSector sid dk.dir dma

/-- A directory sector: the bytes of its four entries. They are looked up with `at`, so that a
sector behind the directory ends in an exception. -/
def readDir (sector : ℕ) : DiskM Sector := do
  let extno := sector <<< 2
  let e0 ← dirAt extno
  let e1 ← dirAt (extno + 1)
  let e2 ← dirAt (extno + 2)
  let e3 ← dirAt (extno + 3)
  pure fun i =>
    (if i.val < 32 then e0 else if i.val < 64 then e1 else if i.val < 96 then e2 else e3).toBytes
      ⟨i.val % 32, Nat.mod_lt _ (by omega)⟩

/-- **`Read`**: the result is always 0, with the new contents of the buffer. By the absolute sector
it reads the system file, the directory in memory, or a data sector from the cache or a host file.
-/
def read (track sector : ℕ) (dma : Sector) : DiskM (ℕ × Sector) := do
  let absector ← absSector track sector
  let dk ← get
  if absector < dk.dirstart then
    let r ← readHost dk.bootblock (absector <<< 7) dma
    if r.1 then pure (0, r.2) else throw .rethrow
  else if absector - dk.dirstart < dk.datastart then
    pure (0, ← readDir (absector - dk.dirstart))
  else
    pure (0, ← readData (absector - dk.dirstart) dma)

end Disk

end Cpm22
