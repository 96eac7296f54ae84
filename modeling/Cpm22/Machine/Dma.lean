import Cpm22.Machine.Bios
import Cpm22.Machine.Memory

set_option relaxedAutoImplicit false
set_option autoImplicit false

/-!
# The sector buffer in the memory

A disk command transfers 128 bytes between the drive and the memory, from the address on that the
guest set through the ports `DMAL` and `DMAH`. `IntelCPU::Out` hands the drive the pointer
`m_ram + m_DMA`; unlike `readmem` and `writemem` it does not wrap around at the end of the memory.
A buffer that begins in one of the last 127 cells goes past the end of the array.

## Main definitions

* `Cpm22.DskImage` — a drive that is an image file; `Cpm22.Drive` — a drive of either class.
* `Cpm22.Cpu.Reads`, `Cpm22.Cpu.Writes` — a command transfers the cells modulo 65536 and changes
  no other cell.
* `Cpm22.Cpu.AddressByte`, `Cpm22.Cpu.sendAll` — bytes on the address ports.

## Main results

* `Cpm22.Cpu.dma_transfer_iff` — the commands do so for every memory and every drive iff the
  buffer ends inside the memory.
* `Cpm22.Cpu.read_past_end` — a directory sector read to address 65535.
-/

namespace Cpm22

open HostPath HostFs

/-! ## Image files -/

/-- **A drive that is an image file**, with the host it lives on. -/
structure DskImage where
  path : Bytes
  dpb : Dpb
  host : Host
  /-- neither `failbit` nor `badbit` of the stream is set -/
  good : Bool

namespace DskImage

/-- The position of a sector in the image, in 32-bit arithmetic. -/
def offset (img : DskImage) (track sector : ℕ) : ℕ :=
  128 * (track * img.dpb.spt + sector + (2 ^ 32 - 1)) % 2 ^ 32

/-- `image_.seekg(pos) && image_.read(dma, 128)`. A sector that the file does not have whole is
read as far as it goes, and the stream fails for good. -/
def readAt (pos : ℕ) (dma : Sector) : EStateM Fault DskImage (ℕ × Sector) := fun img =>
  if img.good then
    let r := img.host.read img.path pos
    let bs := (r.1.getD []).take 128
    .ok (if bs.length = 128 then 0 else 1, Disk.overlay dma bs)
      { img with host := r.2, good := decide (bs.length = 128) }
  else .ok (1, dma) img

/-- `image_.seekp(pos) && image_.write(dma, 128)`. -/
def writeAt (pos : ℕ) (dma : Sector) : EStateM Fault DskImage ℕ := fun img =>
  if img.good then
    let r := img.host.write img.path pos (Disk.bytes dma)
    .ok (if r.1 then 0 else 1) { img with host := r.2, good := r.1 }
  else .ok 1 img

/-- **`dskimage::Read`**. -/
def read (track sector : ℕ) (dma : Sector) : EStateM Fault DskImage (ℕ × Sector) := fun img =>
  readAt (img.offset track sector) dma img

/-- **`dskimage::Write`**. -/
def write (track sector : ℕ) (dma : Sector) : EStateM Fault DskImage ℕ := fun img =>
  writeAt (img.offset track sector) dma img

variable {content : Bytes}

/-- A sector that the file has is delivered, whatever the buffer held before. -/
lemma readAt_of_file (img : DskImage) (pos : ℕ) (hgood : img.good = true)
    (hfile : img.host.find img.path = some (.file content))
    (hr : img.host.refuses img.host.calls.length = false) (hlen : pos + 128 ≤ content.length) :
    ∃ img', ∀ b, readAt pos b img = .ok (0, fun i => content.getD (pos + i) 0) img' := by
  set bs := (content.drop pos).take 128 with hbs
  have hbslen : bs.length = 128 := by
    rw [hbs, List.length_take, List.length_drop]
    omega
  have hread : ((img.host.read img.path pos).1.getD []).take 128 = bs := by
    simp [Host.read, hfile, Host.attempt, hr, hbs]
  have hoverlay : ∀ b, Disk.overlay b bs = fun i : Fin 128 => content.getD (pos + i) 0 := by
    intro b
    funext i
    rw [Disk.overlay, List.getD_eq_getElem _ _ (by rw [hbslen]; exact i.isLt),
      List.getD_eq_getElem _ _ (by omega)]
    simp [hbs]
  refine ⟨{ img with host := (img.host.read img.path pos).2, good := true }, ?_⟩
  intro b
  rw [readAt, if_pos hgood]
  simp only [hread, hbslen, hoverlay, if_true, decide_true]

/-- A sector is written to the file. -/
lemma writeAt_of_file (img : DskImage) (pos : ℕ) (hgood : img.good = true)
    (hfile : img.host.find img.path = some (.file content))
    (hr : img.host.refuses img.host.calls.length = false) (b : Sector) :
    ∃ img', writeAt pos b img = .ok 0 img' ∧
      img'.host.node (normal img.path) =
        some (.file (HostFs.writeAt content pos (Disk.bytes b))) := by
  have hok : (img.host.write img.path pos (Disk.bytes b)).1 = true := by
    simp [Host.write, Host.writeEffect, hfile, Host.attempt, hr]
  refine ⟨{ img with host := (img.host.write img.path pos (Disk.bytes b)).2, good := true },
    ?_, ?_⟩
  · rw [writeAt, if_pos hgood]
    simp only [hok, if_true]
  · simp [Host.write, Host.writeEffect, hfile, Host.attempt, hr]

end DskImage

/-- **A drive object** of either class. -/
inductive Drive
  | disk (dk : Disk)
  | image (img : DskImage)

namespace Drive

/-- A method of a class, called through the base class. -/
def dispatch {α : Type} (onDisk : EStateM Fault Disk α) (onImage : EStateM Fault DskImage α) :
    EStateM Fault Drive α
  | .disk dk =>
    match onDisk dk with
    | .ok a dk' => .ok a (.disk dk')
    | .error e dk' => .error e (.disk dk')
  | .image img =>
    match onImage img with
    | .ok a img' => .ok a (.image img')
    | .error e img' => .error e (.image img')

/-- `Read`. -/
def read (track sector : ℕ) (dma : Sector) : EStateM Fault Drive (ℕ × Sector) :=
  dispatch (Disk.read track sector dma) (DskImage.read track sector dma)

/-- `Write`. -/
def write (track sector : ℕ) (dma : Sector) : EStateM Fault Drive ℕ :=
  dispatch (Disk.write track sector dma) (DskImage.write track sector dma)

end Drive

namespace Cpu

variable {ε D : Type} (sd : SimDrive ε D)

/-! ## The address ports -/

/-- **A byte on an address port.** -/
inductive AddressByte
  /-- a byte on `DMAL` -/
  | low (value : UInt8)
  /-- a byte on `DMAH` -/
  | high (value : UInt8)

/-- The byte is sent. -/
def AddressByte.send : AddressByte → EStateM ε (Cpu D) Unit
  | .low value => out sd .dmal value.toNat
  | .high value => out sd .dmah value.toNat

/-- Bytes are sent one after the other. -/
def sendAll : List AddressByte → EStateM ε (Cpu D) Unit
  | [] => pure ()
  | b :: bs => do
    b.send sd
    sendAll bs

/-- The last low byte, or the one before any was sent. -/
def lastLow (l : ℕ) : List AddressByte → ℕ
  | [] => l
  | .low value :: bs => lastLow value.toNat bs
  | .high _ :: bs => lastLow l bs

/-- The last high byte, or the one before any was sent. -/
def lastHigh (h : ℕ) : List AddressByte → ℕ
  | [] => h
  | .low _ :: bs => lastHigh h bs
  | .high value :: bs => lastHigh value.toNat bs

/-- The last low byte is a byte. -/
lemma lastLow_lt {l : ℕ} (hl : l < 256) (bs : List AddressByte) : lastLow l bs < 256 := by
  induction bs generalizing l with
  | nil => exact hl
  | cons b bs ih =>
    cases b with
    | low value => exact ih value.toNat_lt
    | high value => exact ih hl

/-- The last high byte is a byte. -/
lemma lastHigh_lt {h : ℕ} (hh : h < 256) (bs : List AddressByte) : lastHigh h bs < 256 := by
  induction bs generalizing h with
  | nil => exact hh
  | cons b bs ih =>
    cases b with
    | low value => exact ih hh
    | high value => exact ih value.toNat_lt

/-- The address after a byte on `DMAL`. -/
lemma setLow_eq {a l : ℕ} (ha : a < 0x10000) (hl : l < 256) :
    (a &&& 0xff00) ||| l = 256 * (a / 256) + l := by
  have hhigh : a &&& 0xff00 = (a / 256) <<< 8 := by
    apply Nat.eq_of_testBit_eq
    intro i
    rw [Nat.testBit_and, show 0xff00 = (2 ^ 8 - 1) <<< 8 from rfl, Nat.testBit_shiftLeft,
      Nat.testBit_shiftLeft, Nat.testBit_two_pow_sub_one, show 256 = 2 ^ 8 from rfl,
      Nat.testBit_div_two_pow]
    by_cases hi : 8 ≤ i
    · rw [Nat.sub_add_cancel hi]
      by_cases hi' : i < 16
      · simp [hi, show i - 8 < 8 by omega]
      · have hbit : a.testBit i = false := by
          apply Nat.testBit_lt_two_pow
          calc a < 2 ^ 16 := ha
            _ ≤ 2 ^ i := Nat.pow_le_pow_right (by decide) (by omega)
        simp [hbit]
    · simp [hi]
  rw [hhigh, ← Nat.shiftLeft_add_eq_or_of_lt hl, Nat.shiftLeft_eq]
  omega

/-- The address after a byte on `DMAH`. -/
lemma setHigh_eq (a h : ℕ) : (a &&& 0xff) ||| (h <<< 8) = 256 * h + a % 256 := by
  have hlow : a &&& 0xff = a % 256 := Nat.and_two_pow_sub_one_eq_mod a 8
  have hlt : a % 256 < 2 ^ 8 := Nat.mod_lt _ (by decide)
  rw [hlow, Nat.or_comm, ← Nat.shiftLeft_add_eq_or_of_lt hlt, Nat.shiftLeft_eq]
  omega

/-- **The address after a list of bytes**, in any order: the last low byte and the last high
byte.

**Proof sketch.** Induction on the bytes. A low byte replaces the low half of the address and
leaves the high one (`setLow_eq`), and a high byte the other way round (`setHigh_eq`), so that the
last byte of each kind stays. -/
lemma sendAll_eq (bs : List AddressByte) {s : Cpu D} (hs : s.dma < 0x10000) :
    ∃ st, sendAll sd bs s = .ok () { s with
      dma := 256 * lastHigh (s.dma / 256) bs + lastLow (s.dma % 256) bs, fdcst := st } := by
  induction bs generalizing s with
  | nil =>
    refine ⟨s.fdcst, ?_⟩
    rw [lastHigh, lastLow, Nat.div_add_mod]
    rfl
  | cons b bs ih =>
    cases b with
    | low value =>
      have hl : value.toNat < 256 := value.toNat_lt
      obtain ⟨st, hst⟩ := ih (s := { s with
        dma := (s.dma &&& 0xff00) ||| value.toNat, fdcst := 0 })
        (by simp only [setLow_eq hs hl]; omega)
      refine ⟨st, ?_⟩
      simp only [setLow_eq hs hl] at hst
      rw [sendAll, AddressByte.send, Exc.bind_of_ok (out_dmal sd _ s), setLow_eq hs hl, hst,
        lastHigh, lastLow, Nat.mul_add_div (by decide), Nat.div_eq_of_lt hl, Nat.mul_add_mod,
        Nat.mod_eq_of_lt hl, Nat.add_zero]
    | high value =>
      have hh : value.toNat < 256 := value.toNat_lt
      have hmod : s.dma % 256 < 256 := Nat.mod_lt _ (by decide)
      obtain ⟨st, hst⟩ := ih (s := { s with
        dma := (s.dma &&& 0xff) ||| (value.toNat <<< 8), fdcst := 0 })
        (by simp only [setHigh_eq]; omega)
      refine ⟨st, ?_⟩
      simp only [setHigh_eq] at hst
      rw [sendAll, AddressByte.send, Exc.bind_of_ok (out_dmah sd _ s), setHigh_eq, hst,
        lastHigh, lastLow, Nat.mul_add_div (by decide), Nat.div_eq_of_lt hmod, Nat.mul_add_mod,
        Nat.mod_mod, Nat.add_zero]

/-! ## Commands -/

/-- The sector in the cells from the buffer address on, addresses modulo 65536. -/
def cells (s : Cpu D) : Sector := fun i => s.ram ((s.dma + i) % 0x10000)

/-- **A read command transfers the cells**: what the drive delivers for a buffer in the cells is
stored there, and no other cell changes, inside the memory or behind it. -/
def Reads (s : Cpu D) : Prop :=
  ∀ d r d', s.object s.currentdrive = some d → sd.read s.fdct s.fdcs s.cells d = .ok r d' →
    ∃ s', out sd .fdcop 0 s = .ok () s' ∧ s'.diskptr s.currentdrive = some d' ∧
      Stored s.ram s'.ram s.dma (Disk.bytes r.2)

/-- **A write command transfers the cells**: the drive gets the bytes in the cells, and the memory
does not change. -/
def Writes (s : Cpu D) : Prop :=
  ∀ d st d', s.object s.currentdrive = some d → sd.write s.fdct s.fdcs s.cells d = .ok st d' →
    ∃ s', out sd .fdcop 1 s = .ok () s' ∧ s'.diskptr s.currentdrive = some d' ∧ s'.ram = s.ram

variable {sd} {s : Cpu D} {d d' : D}

/-- `rcpmdisk` where the drive returns. -/
lemma rcpmdisk_of_ok {track sector a : ℕ} {r : ℕ × Sector}
    (hobj : s.object s.currentdrive = some d)
    (h : sd.read track sector (s.buffer a) d = .ok r d') :
    rcpmdisk sd track sector a s = .ok r.1 { s.setObject s.currentdrive d' with
      accesses := s.accesses ++ [s.currentdrive], ram := store s.ram a r.2 } := by
  have hacc : access s.currentdrive d (sd.read track sector (s.buffer a)) s =
      .ok r { s.setObject s.currentdrive d' with
        accesses := s.accesses ++ [s.currentdrive] } := by
    rw [access, h]
  rw [rcpmdisk, Exc.get_bind]
  simp only [hobj]
  rw [Exc.bind_of_ok hacc]
  rfl

/-- `wcpmdisk` where the drive returns. -/
lemma wcpmdisk_of_ok {track sector a st : ℕ} (hobj : s.object s.currentdrive = some d)
    (h : sd.write track sector (s.buffer a) d = .ok st d') :
    wcpmdisk sd track sector a s = .ok st { s.setObject s.currentdrive d' with
      accesses := s.accesses ++ [s.currentdrive] } := by
  rw [wcpmdisk, Exc.get_bind]
  simp only [hobj]
  rw [access, h]

/-- **What a read command does** with the drive and the memory. -/
lemma out_read {r : ℕ × Sector} (hobj : s.object s.currentdrive = some d)
    (h : sd.read s.fdct s.fdcs (s.buffer s.dma) d = .ok r d') :
    ∃ s', out sd .fdcop 0 s = .ok () s' ∧ s'.diskptr s.currentdrive = some d' ∧
      s'.ram = store s.ram s.dma r.2 := by
  have hrun := rcpmdisk_of_ok (s := { s with fdcop := 0 }) (a := s.dma) hobj h
  exact ⟨_, out_fdcop (v := 0) hrun, Function.update_self .., rfl⟩

/-- **What a write command does** with the drive and the memory. -/
lemma out_write {st : ℕ} (hobj : s.object s.currentdrive = some d)
    (h : sd.write s.fdct s.fdcs (s.buffer s.dma) d = .ok st d') :
    ∃ s', out sd .fdcop 1 s = .ok () s' ∧ s'.diskptr s.currentdrive = some d' ∧
      s'.ram = s.ram := by
  have hrun := wcpmdisk_of_ok (s := { s with fdcop := 1 }) (a := s.dma) hobj h
  exact ⟨_, out_fdcop (v := 1) hrun, Function.update_self .., rfl⟩

/-! ## Buffers inside the memory -/

/-- A buffer that ends inside the memory is in the cells. -/
lemma buffer_eq (h : s.dma ≤ 0xff80) : s.buffer s.dma = s.cells := by
  funext i
  have := i.isLt
  rw [buffer, cells, Nat.mod_eq_of_lt (by omega)]

/-- A sector that ends inside the memory is stored in the cells. -/
lemma stored_store (ram : ℕ → UInt8) {a : ℕ} (h : a ≤ 0xff80) (b : Sector) :
    Stored ram (store ram a b) a (Disk.bytes b) := by
  have hlen : (Disk.bytes b).length = 128 := List.length_ofFn
  have hmod : ∀ i < 128, (a + i) % 0x10000 = a + i := by
    intro i hi
    exact Nat.mod_eq_of_lt (by omega)
  refine ⟨?_, ?_⟩
  · intro i hi
    rw [hlen] at hi
    rw [hmod i hi, store, dif_pos ⟨by omega, by omega⟩]
    simp only [Disk.bytes, List.getElem_ofFn]
    congr 1
    exact Fin.ext (Nat.add_sub_cancel_left a i)
  · intro j hj
    rw [store, dif_neg]
    intro hin
    apply hj (j - a) (by omega)
    rw [hmod _ hin.2]
    omega

/-- **A read command transfers the cells** if the buffer ends inside the memory. -/
lemma reads_of_le (h : s.dma ≤ 0xff80) : Reads sd s := by
  intro d r d' hobj hread
  rw [← buffer_eq h] at hread
  obtain ⟨s', hout, hd, hram⟩ := out_read hobj hread
  refine ⟨s', hout, hd, ?_⟩
  rw [hram]
  exact stored_store s.ram h r.2

/-- **A write command transfers the cells** if the buffer ends inside the memory. -/
lemma writes_of_le (h : s.dma ≤ 0xff80) : Writes sd s := by
  intro d st d' hobj hwrite
  rw [← buffer_eq h] at hwrite
  exact out_write hobj hwrite

/-! ## Buffers that go past the end -/

/-- A read command changes a cell behind the memory, if the drive has another byte for it. -/
lemma not_reads {r : ℕ × Sector} (hobj : s.object s.currentdrive = some d)
    (hread : ∀ b, sd.read s.fdct s.fdcs b d = .ok r d') {i : Fin 128}
    (hi : 0x10000 ≤ s.dma + i) (hne : r.2 i ≠ s.ram (s.dma + i)) : ¬ Reads sd s := by
  intro h
  obtain ⟨s', hout, -, -, hother⟩ := h d r d' hobj (hread _)
  obtain ⟨s'', hout', -, hram⟩ := out_read hobj (hread _)
  rw [hout] at hout'
  obtain rfl : s' = s'' := by injection hout'
  have hcell := hother (s.dma + i) (fun k _ => by
    have := Nat.mod_lt (s.dma + k) (show 0 < 0x10000 by decide)
    omega)
  apply hne
  rw [← hcell, hram, store, dif_pos ⟨by omega, by omega⟩]
  exact congrArg r.2 (Fin.ext (Nat.add_sub_cancel_left s.dma i).symm)

/-- A write command hands other bytes to the drive than those in the cells, if the cells behind
the memory differ from those at its start. -/
lemma not_writes (hobj : s.object s.currentdrive = some d)
    (hwrite : ∀ b, ∃ st d', sd.write s.fdct s.fdcs b d = .ok st d')
    (hinj : ∀ b b' st st' d', sd.write s.fdct s.fdcs b d = .ok st d' →
      sd.write s.fdct s.fdcs b' d = .ok st' d' → b = b')
    (hne : s.buffer s.dma ≠ s.cells) : ¬ Writes sd s := by
  intro h
  obtain ⟨st, d', hcells⟩ := hwrite s.cells
  obtain ⟨st', d'', hbuffer⟩ := hwrite (s.buffer s.dma)
  obtain ⟨s', hout, hd, -⟩ := h d st d' hobj hcells
  obtain ⟨s'', hout', hd', -⟩ := out_write hobj hbuffer
  rw [hout] at hout'
  obtain rfl : s' = s'' := by injection hout'
  rw [hd, Option.some.injEq] at hd'
  subst hd'
  exact hne (hinj _ _ _ _ _ hbuffer hcells)

/-- An image file of one sector. -/
def sectorImage : DskImage where
  path := [ch 'i']
  dpb := ibm8.dpb
  host := ⟨fun _ => some (.file (List.replicate 128 1)), [], fun _ => false⟩
  good := true

/-- Its first sector begins at the start of the file. -/
lemma offset_sectorImage : sectorImage.offset 0 1 = 0 := by decide

/-- The sector of the image file is read. -/
lemma read_sectorImage : ∃ d', ∀ b, Drive.read 0 1 b (.image sectorImage) =
    .ok (0, fun i => (List.replicate 128 1).getD i 0) d' := by
  obtain ⟨img', himg⟩ := DskImage.readAt_of_file sectorImage 0 rfl rfl rfl
    (by rw [List.length_replicate])
  refine ⟨.image img', fun b => ?_⟩
  rw [Drive.read, Drive.dispatch, DskImage.read, offset_sectorImage, himg]
  simp only [Nat.zero_add]

/-- A sector written to the image file can be told from every other. -/
lemma write_sectorImage (b : Sector) : ∃ img', Drive.write 0 1 b (.image sectorImage) =
    .ok 0 (.image img') ∧ img'.host.node (normal [ch 'i']) =
      some (.file (HostFs.writeAt (List.replicate 128 1) 0 (Disk.bytes b))) := by
  obtain ⟨img', himg, hnode⟩ := DskImage.writeAt_of_file sectorImage 0 rfl rfl rfl b
  refine ⟨img', ?_, hnode⟩
  rw [Drive.write, Drive.dispatch, DskImage.write, offset_sectorImage, himg]

/-- The machine with the image file as drive A, and other bytes behind the memory than in it. -/
def imageMachine (a : ℕ) : Cpu Drive where
  ram j := if j < 0x10000 then 0 else 2
  fdcd := 0
  fdct := 0
  fdcs := 1
  fdcop := 0
  fdcst := 0
  dma := a
  dph := 0
  currentdrive := 0
  diskptr _ := some (.image sectorImage)
  accesses := []

/-- A file that is overwritten from its start tells what was written. -/
lemma writeAt_zero_inj {content : Bytes} {b b' : Sector}
    (h : HostFs.writeAt content 0 (Disk.bytes b) = HostFs.writeAt content 0 (Disk.bytes b')) :
    b = b' := by
  have htake := congrArg (List.take 128) h
  have hlen : ∀ b, (Disk.bytes b).length = 128 := fun _ => List.length_ofFn
  have hfirst : ∀ b, (HostFs.writeAt content 0 (Disk.bytes b)).take 128 = Disk.bytes b := by
    intro b
    rw [HostFs.writeAt, List.take_zero, List.nil_append, List.take_left' (hlen b)]
  rw [hfirst, hfirst] at htake
  exact List.ofFn_injective htake

section Exact

variable {sd : SimDrive Fault Drive} {a : ℕ} {st : ℕ}

/-- A read into a buffer that goes past the end is not right. -/
lemma not_reads_imageMachine (hread : sd.read = Drive.read) (ha : 0xff80 < a) :
    ¬ Reads sd { imageMachine a with fdcst := st } := by
  obtain ⟨d', hd⟩ := read_sectorImage
  apply not_reads (d := .image sectorImage) (i := 127) rfl (by rw [hread]; exact hd)
  · show 0x10000 ≤ a + 127
    omega
  · show _ ≠ if a + 127 < 0x10000 then _ else _
    rw [if_neg (by omega)]
    decide

/-- A write from a buffer that goes past the end is not right.

**Proof sketch.** By `not_writes`: the image file stores whatever the buffer has, so that two
buffers are written alike only if they are the same. Byte 127 of the buffer is in one case the byte
behind the end of the memory, and in the other one the byte that the wrapped address has. -/
lemma not_writes_imageMachine (hwrite : sd.write = Drive.write) (ha : 0xff80 < a)
    (ha' : a < 0x10000) : ¬ Writes sd { imageMachine a with fdcst := st } := by
  apply not_writes (d := .image sectorImage) rfl
  · intro b
    obtain ⟨img', h, -⟩ := write_sectorImage b
    exact ⟨0, .image img', by rw [hwrite]; exact h⟩
  · intro b b' st st' d' h h'
    rw [hwrite] at h h'
    obtain ⟨img₁, h₁, hnode₁⟩ := write_sectorImage b
    obtain ⟨img₂, h₂, hnode₂⟩ := write_sectorImage b'
    obtain rfl : d' = .image img₁ := by
      have := h.symm.trans h₁
      injection this
    obtain rfl : img₁ = img₂ := by
      have := h'.symm.trans h₂
      injection this with _ this
      injection this
    rw [hnode₁] at hnode₂
    injection hnode₂ with hnode
    injection hnode with hcontent
    exact writeAt_zero_inj hcontent
  · intro heq
    have h127 : (if a + 127 < 0x10000 then (0 : UInt8) else 2) =
        if (a + 127) % 0x10000 < 0x10000 then 0 else 2 := congrFun heq 127
    rw [if_neg (by omega), if_pos (Nat.mod_lt _ (by decide))] at h127
    exact absurd h127 (by decide)

/-- **Disk transfers stay inside the memory iff the buffer does.** After any bytes on the address
ports, a read command and a write command transfer the cells modulo 65536 and change no other
cell, for every memory and every drive, iff the last low and high byte make an address of at
most `0xff80`.

**Proof sketch.** The pointer handed to the drive does not wrap around. Up to `0xff80` there is
nothing to wrap. Beyond, a machine with an image file shows the difference: a read changes the
cell behind the memory, and a write takes its byte from there. -/
theorem dma_transfer_iff (hread : sd.read = Drive.read) (hwrite : sd.write = Drive.write)
    (ha : a < 0x10000) (bs : List AddressByte) :
    ((∀ s : Cpu Drive, s.dma = a → ∃ s', sendAll sd bs s = .ok () s' ∧ Reads sd s') ↔
      256 * lastHigh (a / 256) bs + lastLow (a % 256) bs ≤ 0xff80) ∧
    ((∀ s : Cpu Drive, s.dma = a → ∃ s', sendAll sd bs s = .ok () s' ∧ Writes sd s') ↔
      256 * lastHigh (a / 256) bs + lastLow (a % 256) bs ≤ 0xff80) := by
  have hlow := lastLow_lt (Nat.mod_lt a (show 0 < 256 by decide)) bs
  have hhigh := lastHigh_lt (show a / 256 < 256 by omega) bs
  obtain ⟨st, hsend⟩ := sendAll_eq sd bs (s := imageMachine a) ha
  refine ⟨⟨?_, ?_⟩, ⟨?_, ?_⟩⟩
  · intro h
    obtain ⟨s', hs', hreads⟩ := h (imageMachine a) rfl
    rw [hsend] at hs'
    obtain rfl : _ = s' := by injection hs'
    by_contra hgt
    exact not_reads_imageMachine hread (not_le.mp hgt) hreads
  · rintro hle s rfl
    obtain ⟨st, hs⟩ := sendAll_eq sd bs ha
    exact ⟨_, hs, reads_of_le hle⟩
  · intro h
    obtain ⟨s', hs', hwrites⟩ := h (imageMachine a) rfl
    rw [hsend] at hs'
    obtain rfl : _ = s' := by injection hs'
    by_contra hgt
    exact not_writes_imageMachine hwrite (not_le.mp hgt) (by omega) hwrites
  · rintro hle s rfl
    obtain ⟨st, hs⟩ := sendAll_eq sd bs ha
    exact ⟨_, hs, writes_of_le hle⟩

/-- Drives with the methods of both classes, the image file among them. -/
def imageDrives : SimDrive Fault Drive where
  stat _ := some .regular
  newDisk _ _ := .error .systemError
  newImage _ _ := .ok (.image sectorImage)
  select d := d
  unSelect d := d
  read := Drive.read
  write := Drive.write

/-- The last address whose buffer ends inside the memory. -/
theorem dma_transfer_last :
    (∀ s : Cpu Drive, s.dma = 0 →
      ∃ s', sendAll imageDrives [.high 0xff, .low 0x80] s = .ok () s' ∧ Reads imageDrives s') ∧
    ∀ s : Cpu Drive, s.dma = 0 →
      ∃ s', sendAll imageDrives [.high 0xff, .low 0x80] s = .ok () s' ∧ Writes imageDrives s' := by
  have h := dma_transfer_iff (rfl : imageDrives.read = Drive.read) rfl
    (show 0 < 0x10000 by decide) [.high 0xff, .low 0x80]
  exact ⟨h.1.mpr (by decide), h.2.mpr (by decide)⟩

end Exact

/-! ## A read past the end -/

/-- The machine with drive A selected, and track 2, sector 1 set: the first directory sector. -/
def atDirectory : Cpu Disk := { Bios.booted with fdct := 2, fdcs := 1 }

/-- **A directory sector read to address 65535** changes the cell behind the memory.

**Proof sketch.** Running the read: it returns, and the cell behind the memory has changed, while
`Reads` asks for every cell outside the wrapped range to stay. -/
theorem read_past_end :
    ¬ ∃ s', sendAll Bios.oneDrive [.low 0xff, .high 0xff] atDirectory = .ok () s' ∧
      Reads Bios.oneDrive s' := by
  rintro ⟨s', hs', hreads⟩
  have hfinal : s' = Exc.final (sendAll Bios.oneDrive [.low 0xff, .high 0xff] atDirectory) := by
    rw [hs', Exc.final_ok]
  have hsome : (s'.object s'.currentdrive).isSome = true := by
    rw [hfinal]
    decide
  obtain ⟨d, hd⟩ := Option.isSome_iff_exists.mp hsome
  have hok : ∀ d ∈ s'.object s'.currentdrive,
      Exc.isOk (Disk.read s'.fdct s'.fdcs s'.cells d) = true := by
    rw [hfinal]
    decide
  obtain ⟨r, hr⟩ := Exc.ok_of_isOk (hok d hd)
  obtain ⟨s'', hout, -, -, hother⟩ := hreads d r _ hd hr
  have hcell := hother 0x10000 (fun k _ => by
    have := Nat.mod_lt (s'.dma + k) (show 0 < 0x10000 by decide)
    omega)
  have hchanged : (Exc.final (out Bios.oneDrive .fdcop 0 s')).ram 0x10000 ≠ s'.ram 0x10000 := by
    rw [hfinal]
    decide
  apply hchanged
  rw [hout, Exc.final_ok, hcell]

end Cpu

end Cpm22
