import Cpm22.Disk.Import
import Cpm22.Lib.Exc

set_option relaxedAutoImplicit false
set_option autoImplicit false

/-!
# The disk controller

`IntelCPU` answers the port instructions of the guest. Its disk ports keep the drive, track, sector,
buffer address and disk parameter header of the next operation; two of them act: a value on `FDCD`
selects a drive, a value on `FDCOP` reads or writes a sector of the selected drive. A drive is an
object of a class derived from `simdrive`, either a host directory or an image file; the model
takes these objects and their methods as a parameter.

## Main definitions

* `Cpm22.SimDrive` — the drives of a host and the methods of their objects.
* `Cpm22.Cpu` — the controller, the memory, and the objects of the drives.
* `Cpm22.Cpu.selectdisk`, `Cpm22.Cpu.rcpmdisk`, `Cpm22.Cpu.wcpmdisk` — the operations.
* `Cpm22.Cpu.out`, `Cpm22.Cpu.inp` — the port instructions.
* `Cpm22.Disk.drives` — the drives whose objects are host directories.
-/

namespace Cpm22

/-- What `stat` says about a path. -/
inductive FileKind
  /-- a directory -/
  | dir
  /-- a regular file -/
  | regular
  /-- anything else -/
  | other
  deriving DecidableEq

/-- **The drives of a host**: the kinds of their paths, the constructors of the drive objects, and
the virtual methods of `simdrive`. -/
structure SimDrive (ε D : Type) where
  /-- `stat` of the path of a drive; drive 0 is `A` -/
  stat : ℕ → Option FileKind
  /-- `new disk(…)`: the drive is a directory -/
  newDisk : ℕ → Geometry → Except ε D
  /-- `new dskimage(…)`: the drive is an image file -/
  newImage : ℕ → Geometry → Except ε D
  /-- `Select()` -/
  select : D → D
  /-- `unSelect()` -/
  unSelect : D → D
  /-- `Read(track, sector, dma)` -/
  read : ℕ → ℕ → Sector → EStateM ε D (ℕ × Sector)
  /-- `Write(track, sector, dma)` -/
  write : ℕ → ℕ → Sector → EStateM ε D ℕ

/-- **The controller**, with the memory of the machine and the static variables `currentdrive` and
`diskptr`. -/
structure Cpu (D : Type) where
  /-- `m_ram` -/
  ram : ℕ → UInt8
  /-- drive -/
  fdcd : ℕ
  /-- track -/
  fdct : ℕ
  /-- sector -/
  fdcs : ℕ
  /-- command -/
  fdcop : ℕ
  /-- status of the last operation -/
  fdcst : ℕ
  /-- address of the sector buffer -/
  dma : ℕ
  /-- address of the disk parameter header, 0 for the built-in one -/
  dph : ℕ
  /-- selected drive, `MAXDRIVE` if there is none -/
  currentdrive : ℕ
  /-- drive objects -/
  diskptr : ℕ → Option D
  /-- drives whose objects were read or written, in order -/
  accesses : List ℕ

/-- `MAXDRIVE`. -/
def MAXDRIVE : ℕ := 16

/-- The disk ports. -/
inductive Port
  | fdcd | fdct | fdcs | fdcop | fdcst | dmal | dmah | dpbl | dpbh
  deriving DecidableEq

namespace Cpu

variable {ε D : Type}

/-! ## Memory -/

/-- A 16-bit word of the memory. -/
def word (s : Cpu D) (a : ℕ) : ℕ := (s.ram a).toNat + 256 * (s.ram (a + 1)).toNat

/-- The sector buffer at an address. -/
def buffer (s : Cpu D) (a : ℕ) : Sector := fun i => s.ram (a + i)

/-- The memory with a sector buffer at an address. -/
def store (ram : ℕ → UInt8) (a : ℕ) (d : Sector) : ℕ → UInt8 := fun j =>
  if h : a ≤ j ∧ j - a < 128 then d ⟨j - a, h.2⟩ else ram j

/-- The packed structure `dpb_t` at an address. It has no gaps, and its words have the low byte
first, as the guest stores them. -/
def dpbAt (s : Cpu D) (a : ℕ) : Dpb where
  spt := s.word a
  bsh := (s.ram (a + 2)).toNat
  blm := (s.ram (a + 3)).toNat
  exm := (s.ram (a + 4)).toNat
  dsm := s.word (a + 5)
  drm := s.word (a + 7)
  al0 := (s.ram (a + 9)).toNat
  al1 := (s.ram (a + 10)).toNat
  cks := s.word (a + 11)
  off := s.word (a + 13)

/-- The geometry of the next selection: from the disk parameter header in the memory, or the
built-in 8-inch geometry. -/
def geometry (s : Cpu D) : Geometry :=
  if s.dph ≠ 0 then
    let d := s.dpbAt (s.word (s.dph + 10))
    ⟨d, (List.range d.spt).map fun i => (s.ram (s.word s.dph + i)).toNat⟩
  else ibm8

/-! ## Operations -/

/-- The object of a drive, if the drive is one of the `MAXDRIVE`. -/
def object (s : Cpu D) (id : ℕ) : Option D := if id < MAXDRIVE then s.diskptr id else none

/-- Assignment to `diskptr[id]`. -/
def setObject (s : Cpu D) (id : ℕ) (d : D) : Cpu D :=
  { s with diskptr := Function.update s.diskptr id (some d) }

/-- A constructor call. -/
def construct (r : Except ε D) : EStateM ε (Cpu D) D :=
  match r with
  | .ok d => pure d
  | .error e => throw e

/-- A call of `Read` or `Write` of the object `d` of drive `id`. -/
def access {α : Type} (id : ℕ) (d : D) (m : EStateM ε D α) : EStateM ε (Cpu D) α := fun s =>
  match m d with
  | .ok a d' => .ok a { s.setObject id d' with accesses := s.accesses ++ [id] }
  | .error e d' => .error e { s.setObject id d' with accesses := s.accesses ++ [id] }

variable (sd : SimDrive ε D)

/-- The drive numbers that `selectdisk` knows. -/
def Known (id : ℕ) : Prop := id < MAXDRIVE ∧ (id < 4 ∨ id = 7 ∨ id = 8)

instance (id : ℕ) : Decidable (Known id) := inferInstanceAs (Decidable (_ ∧ _))

/-- The selected drive is deselected. -/
def deselected (s : Cpu D) : Cpu D :=
  match s.object s.currentdrive with
  | some d => { s.setObject s.currentdrive (sd.unSelect d) with currentdrive := MAXDRIVE }
  | none => { s with currentdrive := MAXDRIVE }

/-- The object of a drive that is to be selected, made if there is none; `none` is a path that is
neither a file nor a directory. -/
def insertDisk (id : ℕ) (kind : FileKind) (g : Geometry) : EStateM ε (Cpu D) (Option D) := do
  match (← get).diskptr id with
  | some d => pure (some (sd.select d))
  | none =>
    match kind with
    | .dir => some <$> construct (sd.newDisk id g)
    | .regular => some <$> construct (sd.newImage id g)
    | .other => pure none

/-- **`selectdisk`**. An unknown drive is refused and the selected drive stays; a known drive that
cannot be selected leaves no drive selected. -/
def selectdisk (id : ℕ) (g : Geometry) : EStateM ε (Cpu D) ℕ := do
  if Known id then
    if id ≠ (← get).currentdrive then
      modify (deselected sd)
      match sd.stat id with
      | none => pure 1
      | some kind =>
        match ← insertDisk sd id kind g with
        | none => pure 1
        | some d =>
          modify fun s => { s.setObject id d with currentdrive := id }
          pure 0
    else pure 0
  else pure 1

/-- **`rcpmdisk`**. -/
def rcpmdisk (track sector a : ℕ) : EStateM ε (Cpu D) ℕ := do
  let s ← get
  match s.object s.currentdrive with
  | some d =>
    let r ← access s.currentdrive d (sd.read track sector (s.buffer a))
    modify fun s => { s with ram := store s.ram a r.2 }
    pure r.1
  | none => pure 1

/-- **`wcpmdisk`**. -/
def wcpmdisk (track sector a : ℕ) : EStateM ε (Cpu D) ℕ := do
  let s ← get
  match s.object s.currentdrive with
  | some d => access s.currentdrive d (sd.write track sector (s.buffer a))
  | none => pure 1

/-- The operation that a value on `FDCOP` starts. -/
def command (value track sector a : ℕ) : EStateM ε (Cpu D) ℕ :=
  if value = 0 then rcpmdisk sd track sector a
  else if value = 1 then wcpmdisk sd track sector a
  else pure 1

/-! ## Ports -/

/-- **`Out`**: a byte on a disk port. Most ports store the byte; selecting a drive and giving a
command call the drive object and store its result as the status, of which the guest reads the low
byte. -/
def out (port : Port) (value : ℕ) : EStateM ε (Cpu D) Unit := do
  match port with
  | .fdcd =>
    modify fun s => { s with fdcd := value }
    let st ← selectdisk sd value (← get).geometry
    modify fun s => { s with fdcst := st % 2 ^ 16 }
  | .fdct => modify fun s => { s with fdct := value }
  | .fdcs => modify fun s => { s with fdcs := value }
  | .fdcop =>
    modify fun s => { s with fdcop := value }
    let s ← get
    let st ← command sd value s.fdct s.fdcs s.dma
    modify fun s => { s with fdcst := st % 2 ^ 16 }
  | .fdcst => pure ()
  | .dmal => modify fun s => { s with dma := (s.dma &&& 0xff00) ||| value, fdcst := 0 }
  | .dmah => modify fun s => { s with dma := (s.dma &&& 0xff) ||| (value <<< 8), fdcst := 0 }
  | .dpbl => modify fun s => { s with dph := (s.dph &&& 0xff00) ||| value, fdcst := 0 }
  | .dpbh => modify fun s => { s with dph := (s.dph &&& 0xff) ||| (value <<< 8), fdcst := 0 }

/-- A value on the track port. -/
lemma out_fdct (v : ℕ) (s : Cpu D) : out sd .fdct v s = .ok () { s with fdct := v } := rfl

/-- A value on the sector port. -/
lemma out_fdcs (v : ℕ) (s : Cpu D) : out sd .fdcs v s = .ok () { s with fdcs := v } := rfl

/-- The low byte of the buffer address. -/
lemma out_dmal (v : ℕ) (s : Cpu D) :
    out sd .dmal v s = .ok () { s with dma := (s.dma &&& 0xff00) ||| v, fdcst := 0 } := rfl

/-- The high byte of the buffer address. -/
lemma out_dmah (v : ℕ) (s : Cpu D) :
    out sd .dmah v s = .ok () { s with dma := (s.dma &&& 0xff) ||| (v <<< 8), fdcst := 0 } := rfl

/-- The low byte of the header address. -/
lemma out_dpbl (v : ℕ) (s : Cpu D) :
    out sd .dpbl v s = .ok () { s with dph := (s.dph &&& 0xff00) ||| v, fdcst := 0 } := rfl

/-- The high byte of the header address. -/
lemma out_dpbh (v : ℕ) (s : Cpu D) :
    out sd .dpbh v s = .ok () { s with dph := (s.dph &&& 0xff) ||| (v <<< 8), fdcst := 0 } := rfl

/-- A drive number on the drive port selects the drive. -/
lemma out_fdcd {sd : SimDrive ε D} {v st : ℕ} {s s' : Cpu D}
    (h : selectdisk sd v { s with fdcd := v }.geometry { s with fdcd := v } = .ok st s') :
    out sd .fdcd v s = .ok () { s' with fdcst := st % 2 ^ 16 } := by
  have hmod : (modify fun s => { s with fdcd := v } : EStateM ε (Cpu D) Unit) s =
      .ok () { s with fdcd := v } := rfl
  rw [out, Exc.bind_of_ok hmod, Exc.get_bind, Exc.bind_of_ok h]
  rfl

/-- A value on the command port starts the operation. -/
lemma out_fdcop {sd : SimDrive ε D} {v st : ℕ} {s s' : Cpu D}
    (h : command sd v s.fdct s.fdcs s.dma { s with fdcop := v } = .ok st s') :
    out sd .fdcop v s = .ok () { s' with fdcst := st % 2 ^ 16 } := by
  have hmod : (modify fun s => { s with fdcop := v } : EStateM ε (Cpu D) Unit) s =
      .ok () { s with fdcop := v } := rfl
  rw [out, Exc.bind_of_ok hmod, Exc.get_bind, Exc.bind_of_ok h]
  rfl

/-- **`In`** of the status port, a byte. -/
def inStatus (s : Cpu D) : ℕ := s.fdcst % 256

end Cpu

namespace Disk

open HostPath HostFs

/-- **Drives that are host directories.** Drive `id` is the directory `paths id`, if there is one,
with the host as it is when the drive is made. Each object has a host of its own, which is that of a
machine with one drive; drives in one world are in `Cpm22.Machine.Ports`. -/
def drives (readdir : Bytes → Option (List Bytes)) (host : Host) (paths : ℕ → Option Bytes) :
    SimDrive Fault Disk where
  stat id := (paths id).map fun _ => .dir
  newDisk id g :=
    match build readdir ((paths id).getD []) g host with
    | .ok _ dk => .ok dk
    | .error e _ => .error e
  newImage _ _ := .error .systemError
  select dk := dk
  unSelect dk := dk
  read := read
  write := write

end Disk

end Cpm22
