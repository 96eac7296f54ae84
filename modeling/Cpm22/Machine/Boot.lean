import Cpm22.Machine.Bios
import Cpm22.Disk.Address

set_option relaxedAutoImplicit false
set_option autoImplicit false

/-!
# The cold boot

The build concatenates boot sector, CCP, BDOS and BIOS to the system file of drive A, which is what
the reserved tracks of the drive contain. At power-on the boot sector loads the BIOS and jumps to
it; the cold start of the BIOS waits for a key, loads CCP and BDOS and goes to CP/M. The machine
here runs both programs label by label: each step is the code from one label to the next jump.

## Main definitions

* `Cpm22.Boot.buildSystemImage` — the script `BuildSystemImage.cmake`.
* `Cpm22.Boot.Machine` — registers, memory, disk controller and console.
* `Cpm22.Boot.code` — the code of `boot.asm` and of the cold start in `bios.asm`.
* `Cpm22.Boot.Booted` — the memory holds CCP, BDOS and BIOS.

## Main results

* `Cpm22.Boot.cold_boot` — the machine reaches `GOCPM` with the system in its memory.
-/

namespace Cpm22.Boot

open HostPath HostFs Cpu Bios

/-! ## The system image -/

/-- `CPM22_BOOT_SIZE`. -/
def bootSize : ℕ := 128
/-- `CPM22_CCP_SIZE`. -/
def ccpSize : ℕ := 0x806
/-- `CPM22_BDOS_SIZE`. -/
def bdosSize : ℕ := 0xdfa
/-- `CPM22_MAX_SYSTEM_SIZE`: two tracks of 26 sectors of 128 bytes. -/
def maxSystemSize : ℕ := 2 * 26 * 128

/-- **`BuildSystemImage.cmake`**: the checks of the sizes, then the concatenation. Boot sector, CCP
and BDOS have fixed sizes; the BIOS may be shorter than the room that is left. -/
def buildSystemImage (boot ccp bdos bios : Bytes) : Except String Bytes :=
  let bootLen := boot.length
  let ccpLen := ccp.length
  let bdosLen := bdos.length
  let systemLen := bootLen + ccpLen + bdosLen + bios.length
  if bootLen ≠ bootSize then
    .error s!"Invalid boot sector size: {bootLen} bytes; expected {bootSize} bytes"
  else if ccpLen ≠ ccpSize then
    .error s!"Invalid CCP size: {ccpLen} bytes; expected {ccpSize} bytes"
  else if bdosLen ≠ bdosSize then
    .error s!"Invalid BDOS size: {bdosLen} bytes; expected {bdosSize} bytes"
  else if systemLen > maxSystemSize then
    .error s!"CP/M system image is too large: {systemLen} bytes; maximum is {maxSystemSize} bytes"
  else .ok (boot ++ ccp ++ bdos ++ bios)

/-! ## Constants of `cpm.inc` -/

/-- Base of the CCP. -/
def CCP : ℕ := 0x3400 + (64 - 20) * 1024
/-- Base of the BDOS. -/
def BDOS : ℕ := CCP + 0x806
/-- Number of sectors of the cold start. -/
def CSECTS : ℕ := (BIOS - CCP) / 128 + 1
/-- Number of sectors of the warm start. -/
def WSECTS : ℕ := (BDOS - CCP + 127) / 128
/-- Number of sectors of the boot loader. -/
def BSECTS : ℕ := (0xffff - BIOS) / 128 + 1
/-- Track and sector of the BIOS on the system tracks. -/
def BOFFST : ℕ := ((CSECTS / 26) <<< 8) ||| (CSECTS % 26 + 1)
/-- The stack and the buffer below the transient programs. -/
def TBUFF : ℕ := 0x80
/-- The i/o byte. -/
def IOBYTE : ℕ := 3
/-- The current disk. -/
def CDISK : ℕ := 4

/-! ## The machine -/

/-- The labels that the machine stops at. The code between two of them has no loop, so that one step
runs it. -/
inductive Label
  /-- `COLD` of `boot.asm` -/
  | cold
  /-- `BERR` of `boot.asm` -/
  | berr
  /-- the code after `MSG` of `boot.asm` -/
  | select
  /-- `LSECT` of `boot.asm` -/
  | lsect
  /-- `NEXT` of `boot.asm` -/
  | next
  /-- `_BOOT` of `bios.asm` -/
  | boot
  /-- `_CONIN`, called from `_BOOT` -/
  | conin
  /-- `_WBOOT` of `bios.asm` -/
  | wboot
  /-- `BOOTOS` of `bios.asm` -/
  | bootos
  /-- `LOAD1` of `bios.asm` -/
  | load1
  /-- the code of `LOAD1` for more sectors -/
  | more
  /-- `GOCPM` of `bios.asm` -/
  | gocpm
  deriving DecidableEq

/-- **The machine**: registers, stack pointer, controller and memory, and the console. The registers
are numbers; the code takes them modulo 256 where a byte would wrap. -/
structure Machine (D : Type) where
  pc : Label
  a : ℕ
  b : ℕ
  c : ℕ
  d : ℕ
  e : ℕ
  h : ℕ
  l : ℕ
  sp : ℕ
  cpu : Cpu D
  /-- what was printed -/
  screen : Bytes
  /-- how often the console status was asked for -/
  polls : ℕ

variable {ε D : Type}

/-- A call of the controller or of a BIOS routine. -/
def onCpu {α : Type} (f : EStateM ε (Cpu D) α) : EStateM ε (Machine D) α := fun m =>
  match f m.cpu with
  | .ok x s => .ok x { m with cpu := s }
  | .error e s => .error e { m with cpu := s }

namespace Machine

/-- A byte of the memory is written. -/
def poke (m : Machine D) (a v : ℕ) : Machine D :=
  { m with cpu := { m.cpu with ram := Function.update m.cpu.ram a v.toUInt8 } }

/-- A byte of the memory. -/
def peek (m : Machine D) (a : ℕ) : ℕ := (m.cpu.ram a).toNat

/-- `PUSH` of the register pair with the bytes `hi` and `lo`. -/
def push (m : Machine D) (hi lo : ℕ) : Machine D :=
  { (m.poke (m.sp - 1) hi).poke (m.sp - 2) lo with sp := m.sp - 2 }

/-- The byte of the stack that `POP` takes for the high register. -/
def topHi (m : Machine D) : ℕ := m.peek (m.sp + 1)

/-- The byte of the stack that `POP` takes for the low register. -/
def topLo (m : Machine D) : ℕ := m.peek m.sp

/-- The stack pointer after `POP`. -/
def dropTop (m : Machine D) : Machine D := { m with sp := m.sp + 2 }

/-- A message on the console. -/
def print (m : Machine D) (msg : Bytes) : Machine D := { m with screen := m.screen ++ msg }

end Machine

/-- The bytes of a text. -/
def text (s : String) : Bytes := s.toList.map fun c => c.toNat.toUInt8

/-- The message `BOOTMSG` of `boot.asm`, up to its end mark. -/
def bootMsg : Bytes := text "BL V 1.0 boot:"

/-- The message `HALTMSG` of `boot.asm`; it runs on into `BOOTMSG`. -/
def haltMsg : Bytes := text "\r\nError\r\n" ++ bootMsg

/-- The messages `SIGNON` and `PROMPT` of `bios.asm`. -/
def signon : Bytes :=
  text "\r\nCBIOS V1.7\r\n(C) 1998-2015 by Juergen Sievers\r\nPress any key to boot"

section Step

variable (sd : SimDrive ε D) (key : ℕ → Bool)

/-! ### `boot.asm` -/

/-- The code after `MSG`: select drive A with the built-in geometry. -/
def select : EStateM ε (Machine D) Unit := do
  onCpu (out sd .dpbl 0)
  onCpu (out sd .dpbh 0)
  onCpu (out sd .fdcd 0)
  modify fun m => { m with
    pc := .lsect, a := 0, b := BOFFST / 256, c := BOFFST % 256, d := BSECTS,
    h := BIOS / 256, l := BIOS % 256 }

/-- The end of `LSECT`: a dot is printed, and the status and the number of sectors decide. -/
def sectorDone (m : Machine D) : Machine D :=
  let m := { m.print [ch '.'] with a := m.cpu.inStatus }
  if m.a ≠ 0 then { m with pc := .berr }
  else
    let m := { m with d := (m.d + 255) % 256 }
    if m.d ≠ 0 then { m with pc := .next } else { m.print [ch '+'] with pc := .boot }

/-- `LSECT`: load the next sector. -/
def lsect : EStateM ε (Machine D) Unit := do
  let m ← get
  onCpu (out sd .fdct m.b)
  onCpu (out sd .fdcs m.c)
  onCpu (out sd .dmal m.l)
  onCpu (out sd .dmah m.h)
  onCpu (out sd .fdcop 0)
  modify sectorDone

/-- `NEXT`: 128 more bytes, and the next sector or the next track. -/
def next : EStateM ε (Machine D) Unit :=
  modify fun m =>
    let m := { m with
      a := (m.h + (m.l + 128) / 256) % 256, h := (m.h + (m.l + 128) / 256) % 256,
      l := (m.l + 128) % 256 }
    let m := { m with c := (m.c + 1) % 256, a := (m.c + 1) % 256 }
    if m.a < 27 then { m with pc := .lsect }
    else { m with c := 1, b := (m.b + 1) % 256, pc := .lsect }

/-! ### `bios.asm` -/

/-- The code of `_BOOT` after a key was pressed. -/
def keyPressed (m : Machine D) : Machine D :=
  { (m.poke IOBYTE 0).poke CDISK 0 with
    a := 0, polls := m.polls + 1, b := CSECTS, pc := .bootos }

/-- `_CONIN`: wait for a key; then `_BOOT` goes on. -/
def conin : EStateM ε (Machine D) Unit :=
  modify fun m => if key m.polls then keyPressed m else { m with a := 0, polls := m.polls + 1 }

/-- `BOOTOS`: start to read at track 0, sector 2. -/
def bootos : EStateM ε (Machine D) Unit := do
  let _ ← onCpu (seldsk sd 0)
  let a ← onCpu (home sd)
  -- `_SELDSK` leaves `DPBASE` in `DE`
  modify fun m => { m with
    pc := .load1, a := a, c := 0, d := 2, e := DPBASE % 256, h := CCP / 256, l := CCP % 256 }

/-- `LOAD1` after a successful read: the registers are restored and 128 is added to the address. -/
def loaded (m : Machine D) : Machine D :=
  let m := { m.dropTop with
    h := (m.topHi + (m.topLo + 128) / 256) % 256, l := (m.topLo + 128) % 256 }
  let m := { m.dropTop with d := m.topHi, e := m.topLo }
  let m := { m.dropTop with b := (m.topHi + 255) % 256, c := m.topLo }
  { m with pc := if m.b = 0 then .gocpm else .more }

/-- `LOAD1`: load one more sector; any error is a warm start. -/
def load1 : EStateM ε (Machine D) Unit := do
  modify fun m => ((m.push m.b m.c).push m.d m.e).push m.h m.l
  let _ ← onCpu (setsec sd (← get).d)
  modify fun m => { m with b := m.topHi, c := m.topLo }
  let m ← get
  let _ ← onCpu (setdma sd m.b m.c)
  let st ← onCpu (Bios.read sd)
  modify fun m => if st ≠ 0 then { m with a := st, pc := .wboot } else loaded { m with a := st }

/-- The end of the loop: the next sector or the next track. -/
def more : EStateM ε (Machine D) Unit := do
  let m ← get
  if (m.d + 1) % 256 < 27 then
    modify fun m => { m with pc := .load1, a := (m.d + 1) % 256, d := (m.d + 1) % 256 }
  else
    let a ← onCpu (settrk sd ((m.c + 1) % 256))
    modify fun m => { m with pc := .load1, a := a, c := (m.c + 1) % 256, d := 1 }

/-- **The code at a label**, up to the next label. `GOCPM` is the end. -/
def code : Label → EStateM ε (Machine D) Unit
  | .cold => modify fun m => { m.print (0x0c :: bootMsg) with sp := TBUFF, pc := .select }
  | .berr => modify fun m => { m.print (0x07 :: haltMsg) with pc := .select }
  | .select => select sd
  | .lsect => lsect sd
  | .next => next
  | .boot => modify fun m => { m.print (0x0c :: signon) with sp := TBUFF, pc := .conin }
  | .conin => conin key
  | .wboot => modify fun m => { m with sp := 0x80, b := WSECTS, pc := .bootos }
  | .bootos => bootos sd
  | .load1 => load1 sd
  | .more => more sd
  | .gocpm => pure ()

/-- **One step**: the code at the label the machine has reached. -/
def step : EStateM ε (Machine D) Unit := fun m => code sd key m.pc m

/-- A number of steps. -/
def steps : ℕ → EStateM ε (Machine D) Unit
  | 0 => pure ()
  | n + 1 => do
    step sd key
    steps n

end Step

end Cpm22.Boot
