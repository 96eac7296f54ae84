import Cpm22.Machine.Boot

set_option relaxedAutoImplicit false
set_option autoImplicit false

/-!
# The cold boot loads the system

Both loader loops are shown to read the sectors of the system file in order: the boot sector reads
from sector 45 on to the base of the BIOS, the cold start reads 45 sectors from sector 1 on to the
base of the CCP. The boot sector loads up to the end of the memory, so its last sectors come from
the directory and the data area; they lie behind the BIOS.

## Main definitions

* `Cpm22.Boot.SystemDisk` — a disk with the system file on its reserved tracks.
* `Cpm22.Boot.DriveA` — the controller has selected such a disk as drive A.
* `Cpm22.Boot.LoadsBios`, `Cpm22.Boot.LoadsSystem` — the invariants of the two loops.

## Main results

* `Cpm22.Boot.cold_boot` — the machine reaches `GOCPM` with the system in its memory.
-/

namespace Cpm22.Boot

open HostPath HostFs Cpu Bios Disk

/-! ## Reading a sector -/

/-- **A disk whose reserved tracks hold `content`.** -/
structure SystemDisk (content : Bytes) (dk : Disk) : Prop where
  shaped : Shaped ibm8 dk
  works : dk.host.Works
  file : dk.host.find dk.bootblock = some (.file content)
  entries : dk.dir.length = 64

variable {content : Bytes} {dk : Disk} {track sector : ℕ}

/-- A read from the host keeps the system file. -/
lemma SystemDisk.afterRead (h : SystemDisk content dk) (p : Bytes) (pos : ℕ) :
    SystemDisk content { dk with host := (dk.host.read p pos).2 } := by
  obtain ⟨ok, hr, -⟩ := Host.read_snd dk.host p pos
  rw [hr]
  exact ⟨⟨h.shaped.dpb, h.shaped.smap, h.shaped.datastart, h.shaped.dirstart⟩, h.works, h.file,
    h.entries⟩

/-- Reading a data sector never throws. -/
lemma SystemDisk.readSector (sid : ℕ) (es : List CpmDir) : ∀ dma,
    Exc.Triple (SystemDisk content) (Disk.readSector sid es dma) (fun _ => SystemDisk content)
      fun _ => False := by
  induction es with
  | nil => exact fun dma => .pure fun _ h => h
  | cons e es ih =>
    intro dma dk h
    rw [Disk.readSector, Exc.get_bind]
    by_cases hl : e.Used ∧ e.findBlockIndex (sid >>> dk.dpb.bsh) dk.dpb.blockPtrType ≠ 0
    · rw [if_pos hl, Exc.bind_of_ok (readHost_apply _ _ _ _)]
      exact ih _ _ (h.afterRead _ _)
    · rw [if_neg hl]
      exact ih dma dk h

/-- The sectors of the first three tracks: the reserved tracks are not translated. -/
lemma address (h : Shaped ibm8 dk) (ht : track < 3) (h1 : 1 ≤ sector) (h26 : sector ≤ 26) :
    ∃ a, dk.getAbsSector track sector = some a ∧ (track < 2 → a = 26 * track + sector - 1) ∧
      (track = 2 → 52 ≤ a) := by
  have hmap : ∀ i < 26, ∃ x, ibm8.retranslate[i]? = some x ∧ 1 ≤ x ∧ x ≤ 26 := by decide
  obtain ⟨x, hx, hx1, hx26⟩ := hmap (sector - 1) (by omega)
  have hoff : ibm8.dpb.off = 2 := rfl
  have hspt : ibm8.dpb.spt = 26 := rfl
  unfold Disk.getAbsSector
  rw [h.dpb, h.smap, hoff, hspt, hx]
  by_cases h2 : track < 2
  · rw [if_neg (by omega)]
    refine ⟨_, rfl, fun _ => ?_, fun _ => ?_⟩ <;> dsimp only <;> omega
  · rw [if_pos (by omega), if_neg (by omega)]
    refine ⟨_, rfl, fun _ => ?_, fun _ => ?_⟩ <;> dsimp only <;> omega

/-- A directory sector can be read. -/
lemma SystemDisk.readDir (h : SystemDisk content dk) {sid : ℕ} (hsid : sid < 16) :
    ∃ d, Disk.readDir sid dk = .ok d dk := by
  have hat : ∀ n < 64, ∃ e, dirAt n dk = .ok e dk := by
    intro n hn
    obtain ⟨e, he⟩ : ∃ e, dk.dir[n]? = some e :=
      ⟨_, List.getElem?_eq_getElem (by rw [h.entries]; omega)⟩
    exact ⟨e, by simp only [dirAt, he]⟩
  have hshift : sid <<< 2 = 4 * sid := by rw [Nat.shiftLeft_eq, Nat.mul_comm]
  rw [Disk.readDir, hshift]
  obtain ⟨e0, h0⟩ := hat (4 * sid) (by omega)
  obtain ⟨e1, h1⟩ := hat (4 * sid + 1) (by omega)
  obtain ⟨e2, h2⟩ := hat (4 * sid + 2) (by omega)
  obtain ⟨e3, h3⟩ := hat (4 * sid + 3) (by omega)
  rw [Exc.bind_of_ok h0, Exc.bind_of_ok h1, Exc.bind_of_ok h2, Exc.bind_of_ok h3]
  exact ⟨_, rfl⟩

/-- **Reading a sector of the first three tracks**: on the reserved tracks it is the sector of the
system file, with the end of the file leaving the rest of the buffer alone.

**Proof sketch.** A sector of track 0 or 1 is one of the system file, and the host delivers what
the file has there. A sector of track 2 is one of the directory or a data sector; reading it ends
without an error, and its content is not needed. -/
lemma SystemDisk.read (h : SystemDisk content dk) (ht : track < 3) (h1 : 1 ≤ sector)
    (h26 : sector ≤ 26) (dma : Sector) :
    ∃ d dk', Disk.read track sector dma dk = .ok (0, d) dk' ∧ SystemDisk content dk' ∧
      (track < 2 →
        d = overlay dma ((content.drop (128 * (26 * track + sector - 1))).take 128)) := by
  obtain ⟨a, ha, hsys, hdat⟩ := address h.shaped ht h1 h26
  have hstart : dk.dirstart = 52 := h.shaped.dirstart
  have hdir : dk.datastart = 16 := h.shaped.datastart
  by_cases h2 : track < 2
  · rw [read_system ha (by rw [hstart, hsys h2]; omega)]
    have hr := h.afterRead dk.bootblock (a <<< 7)
    rw [Host.read_of_works h.works h.file] at hr ⊢
    refine ⟨_, _, rfl, hr, fun _ => ?_⟩
    rw [Nat.shiftLeft_eq, hsys h2, Nat.mul_comm]
  · have ha52 := hdat (by omega)
    obtain ⟨sid, rfl⟩ : ∃ sid, a = sid + dk.dirstart := ⟨a - 52, by omega⟩
    by_cases hd : sid < 16
    · obtain ⟨d, hd'⟩ := h.readDir hd
      rw [Disk.read_dir ha (by omega), Exc.bind_of_ok hd']
      exact ⟨d, dk, rfl, h, fun ht2 => absurd ht2 h2⟩
    · rw [read_data ha (by omega)]
      cases dk.cache.lookup sid with
      | some d => exact ⟨d, dk, rfl, h, fun ht2 => absurd ht2 h2⟩
      | none =>
        have hr := SystemDisk.readSector sid dk.dir dma dk h
        cases hres : Disk.readSector sid dk.dir dma dk with
        | ok d dk' =>
          rw [hres] at hr
          dsimp only
          rw [Exc.bind_of_ok hres]
          exact ⟨d, dk', rfl, hr, fun ht2 => absurd ht2 h2⟩
        | error e dk' =>
          rw [hres] at hr
          exact hr.elim

/-! ## The controller -/

/-- **The controller has selected drive A**, whose reserved tracks hold `content`. -/
structure DriveA (content : Bytes) (s : Cpu Disk) : Prop where
  current : s.currentdrive = 0
  object : ∃ dk, s.diskptr 0 = some dk ∧ SystemDisk content dk

/-- What a read of a sector of drive A to the address `a` does. -/
structure SectorRead (content : Bytes) (track sector a : ℕ) (s s' : Cpu Disk) : Prop where
  drive : DriveA content s'
  fdct : s'.fdct = s.fdct
  frame : ∀ j, j < a ∨ a + 128 ≤ j → s'.ram j = s.ram j
  data : track < 2 → ∀ i < 128, ∀ x,
    content[128 * (26 * track + sector - 1) + i]? = some x → s'.ram (a + i) = x

section Controller

variable {sd : SimDrive Fault Disk} {s : Cpu Disk}

/-- The memory outside a buffer that is stored. -/
lemma store_of_ne (ram : ℕ → UInt8) {a j : ℕ} (d : Sector) (h : j < a ∨ a + 128 ≤ j) :
    store ram a d j = ram j := by
  rw [store, dif_neg (by omega)]

/-- The memory inside a buffer that is stored. -/
lemma store_add (ram : ℕ → UInt8) (a : ℕ) (d : Sector) {i : ℕ} (h : i < 128) :
    store ram a d (a + i) = d ⟨i, h⟩ := by
  have hi : a ≤ a + i ∧ a + i - a < 128 := by omega
  rw [store, dif_pos hi]
  congr 1
  exact Fin.ext (by simp)

/-- `rcpmdisk` on drive A.

**Proof sketch.** The current drive is drive A and has an object, whose read is `SystemDisk.read`.
The sector is stored at the address, and the rest of the memory stays. -/
lemma DriveA.rcpmdisk (hread : sd.read = Disk.read) (h : DriveA content s) (ht : track < 3)
    (h1 : 1 ≤ sector) (h26 : sector ≤ 26) (a : ℕ) :
    ∃ s', Cpu.rcpmdisk sd track sector a s = .ok 0 s' ∧
      SectorRead content track sector a s s' := by
  obtain ⟨hcur, dk, hdk, hsys⟩ := h
  obtain ⟨d, dk', hr, hsys', hd⟩ := hsys.read ht h1 h26 (s.buffer a)
  have hobj : s.object s.currentdrive = some dk := by
    rw [hcur, Cpu.object, if_pos (by decide), hdk]
  have hacc : access s.currentdrive dk (sd.read track sector (s.buffer a)) s =
      .ok (0, d) { s.setObject s.currentdrive dk' with accesses := s.accesses ++ [0] } := by
    rw [access, hread, hr, hcur]
  refine ⟨{ s.setObject s.currentdrive dk' with
    accesses := s.accesses ++ [0], ram := store s.ram a d }, ?_, ⟨hcur, dk', ?_, hsys'⟩, rfl, ?_,
    ?_⟩
  · rw [Cpu.rcpmdisk, Exc.get_bind]
    simp only [hobj]
    rw [Exc.bind_of_ok hacc]
    rfl
  · simp [setObject, hcur]
  · exact fun j hj => store_of_ne _ _ hj
  · intro ht2 i hi x hx
    change store s.ram a d (a + i) = x
    rw [store_add _ _ _ hi, hd ht2, overlay, List.getD_eq_getElem?_getD,
      List.getElem?_take_of_lt hi, List.getElem?_drop, hx]
    rfl

/-- **A read command** on drive A. -/
lemma DriveA.out_read (hread : sd.read = Disk.read) (h : DriveA content s) (ht : s.fdct < 3)
    (h1 : 1 ≤ s.fdcs) (h26 : s.fdcs ≤ 26) :
    ∃ s', out sd .fdcop 0 s = .ok () s' ∧ SectorRead content s.fdct s.fdcs s.dma s s' ∧
      s'.fdcst = 0 := by
  have h' : DriveA content { s with fdcop := 0 } := ⟨h.current, h.object⟩
  obtain ⟨s', hs, hr⟩ := h'.rcpmdisk hread ht h1 h26 s.dma
  refine ⟨{ s' with fdcst := 0 }, ?_, ⟨⟨hr.drive.current, hr.drive.object⟩, hr.fdct, hr.frame,
    hr.data⟩, rfl⟩
  have hc : command sd 0 s.fdct s.fdcs s.dma { s with fdcop := 0 } = .ok 0 s' := by
    rw [command, if_pos rfl, hs]
  exact out_fdcop hc

end Controller

/-! ## Routines and registers

What the routines of the BIOS and the code of `LOAD1` do with the registers and the stack does not
depend on the drives. -/

section Registers

variable {ε D : Type} {sd : SimDrive ε D} {m : Machine D}

/-- Steps can be composed. -/
lemma steps_add {key : ℕ → Bool} {m' m'' : Machine D} {n n' : ℕ}
    (h : steps sd key n m = .ok () m') (h' : steps sd key n' m' = .ok () m'') :
    steps sd key (n + n') m = .ok () m'' := by
  induction n generalizing m with
  | zero =>
    cases h
    rw [Nat.zero_add]
    exact h'
  | succ n ih =>
    obtain ⟨u, m₁, h1, h2⟩ := Exc.bind_ok.mp h
    rw [Nat.succ_add, steps, Exc.bind_of_ok h1]
    exact ih h2

/-- The code at a label is one step. -/
lemma steps_one {key : ℕ → Bool} {m' : Machine D} {l : Label} (hpc : m.pc = l)
    (h : code sd key l m = .ok () m') : steps sd key 1 m = .ok () m' := by
  have hstep : step sd key m = .ok () m' := by rw [step, hpc, h]
  rw [steps, Exc.bind_of_ok hstep]
  rfl

/-- **`_CONIN` returns** when a key is pressed.

**Proof sketch.** Induction on the number of looks until the key is there. A look without a key
counts it and stays in the routine. -/
lemma conin_steps (sd : SimDrive ε D) {key : ℕ → Bool} {n : ℕ} :
    ∀ {m : Machine D}, m.pc = .conin → key (m.polls + n) = true →
      ∃ i m' p, steps sd key i m = .ok () (keyPressed m') ∧
        m' = { m with a := m'.a, polls := p } := by
  induction n with
  | zero =>
    intro m hpc hkey
    refine ⟨1, m, m.polls, steps_one hpc ?_, rfl⟩
    rw [Nat.add_zero] at hkey
    change EStateM.Result.ok () (if key m.polls then keyPressed m else _) = _
    rw [if_pos hkey]
  | succ n ih =>
    intro m hpc hkey
    by_cases hready : key m.polls = true
    · refine ⟨1, m, m.polls, steps_one hpc ?_, rfl⟩
      change EStateM.Result.ok () (if key m.polls then keyPressed m else _) = _
      rw [if_pos hready]
    · obtain ⟨i, m', p, hsteps, hm'⟩ := @ih { m with a := 0, polls := m.polls + 1 } hpc
        (by rw [← hkey]; congr 1; dsimp only; omega)
      refine ⟨1 + i, m', p, steps_add (steps_one hpc ?_) hsteps, hm'⟩
      change EStateM.Result.ok () (if key m.polls then keyPressed m else _) = _
      rw [if_neg hready]

/-- A call of the controller that returns. -/
lemma onCpu_of_ok {α : Type} {f : EStateM ε (Cpu D) α} {x : α} {s : Cpu D}
    (h : f m.cpu = .ok x s) : onCpu f m = .ok x { m with cpu := s } := by
  rw [onCpu, h]

/-- The buffer address after its low and its high byte were set. -/
lemma dma_eq {x l h : ℕ} (hl : l < 256) :
    (((x &&& 0xff00) ||| l) &&& 0xff) ||| (h <<< 8) = 256 * h + l := by
  have hlow : ((x &&& 0xff00) ||| l) &&& 0xff = l := by
    rw [show 0xff = 2 ^ 8 - 1 from rfl, Nat.and_two_pow_sub_one_eq_mod, Nat.or_mod_two_pow,
      Nat.and_mod_two_pow]
    simp
    omega
  rw [hlow, Nat.or_comm, ← Nat.shiftLeft_add_eq_or_of_lt hl, Nat.shiftLeft_eq]
  omega

/-- The memory above the page of the stack after a key was pressed. -/
lemma ram_keyPressed {j : ℕ} (hj : 0x80 ≤ j) : (keyPressed m).cpu.ram j = m.cpu.ram j := by
  have h3 : j ≠ IOBYTE := fun h => by simp [h, IOBYTE] at hj
  have h4 : j ≠ CDISK := fun h => by simp [h, CDISK] at hj
  simp [keyPressed, Machine.poke, h3, h4]

/-- The machine with the registers of `LOAD1` on its stack. -/
def saved (m : Machine D) : Machine D := ((m.push m.b m.c).push m.d m.e).push m.h m.l

/-- The memory above the stack is not changed by saving the registers. -/
lemma ram_saved (hsp : m.sp = 0x80) {j : ℕ} (hj : 0x80 ≤ j) :
    (saved m).cpu.ram j = m.cpu.ram j := by
  have hne : ∀ n < 0x80, j ≠ n := fun n hn h => by omega
  simp [saved, Machine.push, Machine.poke, hsp, hne]

/-- The bytes of the stack. -/
lemma stack_saved (hsp : m.sp = 0x80) :
    (saved m).cpu.ram 0x7a = m.l.toUInt8 ∧ (saved m).cpu.ram 0x7b = m.h.toUInt8 ∧
    (saved m).cpu.ram 0x7c = m.e.toUInt8 ∧ (saved m).cpu.ram 0x7d = m.d.toUInt8 ∧
    (saved m).cpu.ram 0x7e = m.c.toUInt8 ∧ (saved m).cpu.ram 0x7f = m.b.toUInt8 := by
  simp [saved, Machine.push, Machine.poke, hsp]

/-- `_SETSEC`. -/
lemma setsec_apply (c : ℕ) (s : Cpu D) :
    setsec sd c s = .ok s.inStatus { s with fdcs := c } := rfl

/-- `_SETTRK`. -/
lemma settrk_apply (c : ℕ) (s : Cpu D) :
    settrk sd c s = .ok s.inStatus { s with fdct := c } := rfl

/-- `_SETDMA`. -/
lemma setdma_apply (b : ℕ) {c : ℕ} (hc : c < 256) (s : Cpu D) :
    setdma sd b c s = .ok 0 { s with dma := 256 * b + c, fdcst := 0 } := by
  rw [← dma_eq (x := s.dma) hc]
  rfl

/-- A selection of drive A while it is selected changes only the header address. -/
lemma seldsk_zero (sd : SimDrive ε D) {s : Cpu D} (h : s.currentdrive = 0) :
    ∃ ans s', seldsk sd 0 s = .ok ans s' ∧ s'.currentdrive = 0 ∧ s'.diskptr = s.diskptr ∧
      s'.ram = s.ram := by
  have hsel : ∀ (g : Geometry) (t : Cpu D), t.currentdrive = 0 →
      selectdisk sd 0 g t = .ok 0 t := by
    intro g t ht
    rw [selectdisk, if_pos (by decide), Exc.get_bind, if_neg (by simp [ht])]
    rfl
  rw [seldsk, if_pos (by decide), calcdb, Exc.bind_of_ok (out_dpbl ..),
    Exc.bind_of_ok (out_dpbh ..), Exc.bind_of_ok (out_fdcd (hsel _ _ (by exact h)))]
  exact ⟨_, _, rfl, h, rfl, rfl⟩

/-- The bytes that `LOAD1` pops are those it saved. -/
lemma top_saved (hsp : m.sp = 0x80) (hh : m.h < 256) (hl : m.l < 256) :
    (saved m).topHi = m.h ∧ (saved m).topLo = m.l := by
  obtain ⟨ht0, ht1, -⟩ := stack_saved hsp
  have hsp' : (saved m).sp = 0x7a := by simp [saved, Machine.push, hsp]
  constructor
  · rw [Machine.topHi, Machine.peek, hsp', ht1]
    simpa using hh
  · rw [Machine.topLo, Machine.peek, hsp', ht0]
    simpa using hl

/-- **`LOAD1` as a read**: the sector in register `D` is read to the address in `HL`, and the
status decides.

**Proof sketch.** The routine pushes its registers, sets the sector and the address, which it pops
into `BC`, and reads. These steps are taken one after the other, and what is behind the read
depends on its status. -/
lemma load1_of_read (hsp : m.sp = 0x80) (hh : m.h < 256) (hl : m.l < 256) {s : Cpu D} {st : ℕ}
    (h : Bios.read sd { (saved m).cpu with fdcs := m.d, dma := 256 * m.h + m.l, fdcst := 0 } =
      .ok st s) :
    Boot.load1 sd m = .ok () (
      if st ≠ 0 then { saved m with b := m.h, c := m.l, cpu := s, a := st, pc := .wboot }
      else loaded { saved m with b := m.h, c := m.l, cpu := s, a := st }) := by
  obtain ⟨hhi, hlo⟩ := top_saved hsp hh hl
  have hsave : (modify fun m => ((m.push m.b m.c).push m.d m.e).push m.h m.l :
      EStateM ε (Machine D) Unit) m = .ok () (saved m) := rfl
  have hd : (saved m).d = m.d := by simp [saved, Machine.push, Machine.poke]
  rw [Boot.load1, Exc.bind_of_ok hsave, Exc.get_bind]
  generalize saved m = n at *
  have hsec : onCpu (setsec sd n.d) n =
      .ok n.cpu.inStatus { n with cpu := { n.cpu with fdcs := m.d } } := by
    rw [← hd]
    exact onCpu_of_ok (setsec_apply ..)
  have hpop : (modify fun m => { m with b := m.topHi, c := m.topLo } :
      EStateM ε (Machine D) Unit) { n with cpu := { n.cpu with fdcs := m.d } } =
      .ok () { n with b := m.h, c := m.l, cpu := { n.cpu with fdcs := m.d } } := by
    rw [← hhi, ← hlo]
    rfl
  have hdma : onCpu (setdma sd m.h m.l)
      { n with b := m.h, c := m.l, cpu := { n.cpu with fdcs := m.d } } = .ok 0
      { n with
        b := m.h, c := m.l
        cpu := { n.cpu with fdcs := m.d, dma := 256 * m.h + m.l, fdcst := 0 } } :=
    onCpu_of_ok (setdma_apply _ hl _)
  rw [Exc.bind_of_ok hsec, Exc.bind_of_ok hpop, Exc.get_bind, Exc.bind_of_ok hdma,
    Exc.bind_of_ok (onCpu_of_ok h)]
  rfl

/-- The registers after `LOAD1`.

**Proof sketch.** The six bytes that were pushed are still there, since the read stores nothing
below 80h, and the registers are popped from them. -/
lemma loaded_saved (hsp : m.sp = 0x80) (hh : m.h < 256) (hl : m.l < 256) (hd : m.d < 256)
    (hc : m.c < 256) (hb : m.b < 256) {s : Cpu D}
    (hs : ∀ j < 0x80, s.ram j = (saved m).cpu.ram j) :
    loaded { saved m with b := m.h, c := m.l, cpu := s, a := 0 } = { m with
      a := 0, h := (m.h + (m.l + 128) / 256) % 256, l := (m.l + 128) % 256
      e := m.e.toUInt8.toNat, b := (m.b + 255) % 256, cpu := s
      pc := if (m.b + 255) % 256 = 0 then .gocpm else .more } := by
  obtain ⟨ht0, ht1, ht2, ht3, ht4, ht5⟩ := stack_saved hsp
  have hsp' : (saved m).sp = 0x7a := by simp [saved, Machine.push, hsp]
  have hbyte : ∀ n < 256, n.toUInt8.toNat = n := fun n hn => by simpa using hn
  have hkeep : (saved m).screen = m.screen ∧ (saved m).polls = m.polls := by
    simp [saved, Machine.push, Machine.poke]
  generalize saved m = n at *
  have hb0 : (s.ram 0x7a).toNat = m.l := by rw [hs _ (by decide), ht0, hbyte _ hl]
  have hb1 : (s.ram 0x7b).toNat = m.h := by rw [hs _ (by decide), ht1, hbyte _ hh]
  have hb2 : (s.ram 0x7c).toNat = m.e.toUInt8.toNat := by rw [hs _ (by decide), ht2]
  have hb3 : (s.ram 0x7d).toNat = m.d := by rw [hs _ (by decide), ht3, hbyte _ hd]
  have hb4 : (s.ram 0x7e).toNat = m.c := by rw [hs _ (by decide), ht4, hbyte _ hc]
  have hb5 : (s.ram 0x7f).toNat = m.b := by rw [hs _ (by decide), ht5, hbyte _ hb]
  simp only [loaded, Machine.dropTop, Machine.topHi, Machine.topLo, Machine.peek, hsp', hb0, hb1,
    hb2, hb3, hb4, hb5, hkeep, hsp, Nat.reduceAdd]

/-- **The end of the loop** moves registers and controller on to the next sector. -/
lemma more_apply (sd : SimDrive ε D) (htrack : m.cpu.fdct = m.c) (hsec : 1 ≤ m.d ∧ m.d ≤ 26)
    (hc : m.c < 255) :
    ∃ m', more sd m = .ok () m' ∧ m'.cpu = { m.cpu with fdct := m'.c } ∧
      26 * m'.c + m'.d = 26 * m.c + m.d + 1 ∧ (1 ≤ m'.d ∧ m'.d ≤ 26) ∧ m'.b = m.b ∧ m'.h = m.h ∧
      m'.l = m.l ∧ m'.sp = m.sp ∧ m'.pc = .load1 := by
  have hmod : (m.d + 1) % 256 = m.d + 1 := by omega
  rw [more, Exc.get_bind, hmod]
  by_cases hd : m.d + 1 < 27
  · rw [if_pos hd]
    refine ⟨_, rfl, ?_, ?_, ?_, rfl, rfl, rfl, rfl, rfl⟩ <;> dsimp only
    · rw [← htrack]
    · omega
    · omega
  · rw [if_neg hd, Exc.bind_of_ok (onCpu_of_ok (settrk_apply ..))]
    refine ⟨_, rfl, rfl, ?_, ?_, rfl, rfl, rfl, rfl, rfl⟩ <;> dsimp only <;> omega

end Registers

/-! ## The boot sector -/

section Loader

variable {sd : SimDrive Fault Disk} {key : ℕ → Bool} {bios : Bytes} {m m' : Machine Disk} {k : ℕ}

/-- The memory holds the first `n` bytes of `bs` from `a` on. -/
def HoldsUpTo (ram : ℕ → UInt8) (a : ℕ) (bs : Bytes) (n : ℕ) : Prop :=
  ∀ j < n, ∀ x, bs[j]? = some x → ram (a + j) = x

/-- A sector read behind the bytes that the memory holds adds the next 128. -/
lemma SectorRead.holds {base n : ℕ} {bs : Bytes} {s s' : Cpu Disk}
    (hr : SectorRead content track sector (base + n) s s') (h : HoldsUpTo s.ram base bs n)
    (hbs : ∀ i < 128, ∀ x, bs[n + i]? = some x →
      track < 2 ∧ content[128 * (26 * track + sector - 1) + i]? = some x) :
    HoldsUpTo s'.ram base bs (n + 128) := by
  intro j hj x hx
  rcases Nat.lt_or_ge j n with hjn | hjn
  · rw [hr.frame (base + j) (by omega)]
    exact h j hjn x hx
  · obtain ⟨i, rfl⟩ : ∃ i, j = n + i := ⟨j - n, by omega⟩
    obtain ⟨ht, hc⟩ := hbs i (by omega) x hx
    rw [← Nat.add_assoc]
    exact hr.data ht i (by omega) x hc

/-- The machine gets from one state to another. -/
def Reaches (sd : SimDrive Fault Disk) (key : ℕ → Bool) (m m' : Machine Disk) : Prop :=
  ∃ n, steps sd key n m = .ok () m'

/-- Steps can be composed. -/
lemma Reaches.trans {m'' : Machine Disk} (h : Reaches sd key m m') (h' : Reaches sd key m' m'') :
    Reaches sd key m m'' := by
  obtain ⟨n, hn⟩ := h
  obtain ⟨n', hn'⟩ := h'
  exact ⟨n + n', steps_add hn hn'⟩

/-- The code at a label is one step. -/
lemma Reaches.one {l : Label} (hpc : m.pc = l) (h : code sd key l m = .ok () m') :
    Reaches sd key m m' :=
  ⟨1, steps_one hpc h⟩

/-- **The invariant of the boot sector's loop** before it reads sector `45 + k`. Register pairs are
kept as the numbers that the loop counts: the place of the next sector and the address it goes to.
-/
structure LoadsBios (content bios : Bytes) (k : ℕ) (m : Machine Disk) : Prop where
  drive : DriveA content m.cpu
  place : 26 * m.b + m.c = 46 + k
  sector : 1 ≤ m.c ∧ m.c ≤ 26
  left : m.d = 12 - k
  addr : 256 * m.h + m.l = BIOS + 128 * k
  low : m.l < 256
  polls : m.polls = 0
  loaded : HoldsUpTo m.cpu.ram BIOS bios (128 * k)

/-- **`LSECT`** reads a sector of the BIOS.

**Proof sketch.** The four port outputs set track, sector and address, and the command reads the
sector of the system file there. Its bytes are those of the BIOS from `128 * k` on, and with those
before they are the first `k + 1` sectors. The count of sectors decides where the program
goes on. -/
lemma LoadsBios.lsect (hread : sd.read = Disk.read)
    (hbios : ∀ j, content[5760 + j]? = bios[j]?) (hlen : bios.length ≤ 896)
    (h : LoadsBios content bios k m) (hk : k < 12) :
    ∃ m', Boot.lsect sd m = .ok () m' ∧ DriveA content m'.cpu ∧
      HoldsUpTo m'.cpu.ram BIOS bios (128 * (k + 1)) ∧
      m'.b = m.b ∧ m'.c = m.c ∧ m'.d = 11 - k ∧ m'.h = m.h ∧ m'.l = m.l ∧ m'.polls = 0 ∧
      m'.pc = if k + 1 = 12 then .boot else .next := by
  obtain ⟨hdrive, hplace, hsec, hleft, haddr, hlow, hpolls, hload⟩ := h
  set s₁ : Cpu Disk := { m.cpu with
    fdct := m.b, fdcs := m.c, fdcst := 0,
    dma := (((m.cpu.dma &&& 0xff00) ||| m.l) &&& 0xff) ||| (m.h <<< 8) }
  have hdma : s₁.dma = BIOS + 128 * k := (dma_eq hlow).trans haddr
  have hd₁ : DriveA content s₁ := ⟨hdrive.current, hdrive.object⟩
  have ht : s₁.fdct < 3 := by
    change m.b < 3
    omega
  obtain ⟨s₂, hout, hr, hst⟩ := hd₁.out_read hread ht hsec.1 hsec.2
  have hrun : Boot.lsect sd m = .ok () (sectorDone { m with cpu := s₂ }) := by
    rw [Boot.lsect, Exc.get_bind, Exc.bind_of_ok (onCpu_of_ok (out_fdct ..)),
      Exc.bind_of_ok (onCpu_of_ok (out_fdcs ..)), Exc.bind_of_ok (onCpu_of_ok (out_dmal ..)),
      Exc.bind_of_ok (onCpu_of_ok (out_dmah ..)), Exc.bind_of_ok (onCpu_of_ok hout)]
    rfl
  have hdone : sectorDone { m with cpu := s₂ } = { m with
      cpu := s₂, a := 0, screen := m.screen ++ [ch '.'] ++ if k + 1 = 12 then [ch '+'] else [],
      d := 11 - k, pc := if k + 1 = 12 then .boot else .next } := by
    have hd : (m.d + 255) % 256 = 11 - k := by omega
    have hlast : 11 - k = 0 ↔ k + 1 = 12 := by omega
    by_cases hk12 : k + 1 = 12 <;>
      simp [sectorDone, Machine.print, inStatus, hst, hd, hlast, hk12]
  rw [hdone] at hrun
  rw [hdma] at hr
  refine ⟨_, hrun, hr.drive, hr.holds hload fun i hi x hx => ?_, rfl, rfl, rfl, rfl, rfl,
    hpolls, rfl⟩
  have hlen' : 128 * k + i < bios.length := (List.getElem?_eq_some_iff.mp hx).1
  change m.b < 2 ∧ content[128 * (26 * m.b + m.c - 1) + i]? = some x
  refine ⟨by omega, ?_⟩
  rw [← hx, ← hbios]
  congr 1
  omega

/-- **`NEXT`** moves to the next sector. -/
lemma next_sector (hplace : 26 * m.b + m.c = 46 + k) (hsec : 1 ≤ m.c ∧ m.c ≤ 26)
    (haddr : 256 * m.h + m.l = BIOS + 128 * k) (hk : k + 1 < 12) :
    ∃ m', (Boot.next : EStateM Fault (Machine Disk) Unit) m = .ok () m' ∧ m'.cpu = m.cpu ∧
      26 * m'.b + m'.c = 46 + (k + 1) ∧ (1 ≤ m'.c ∧ m'.c ≤ 26) ∧ m'.d = m.d ∧
      256 * m'.h + m'.l = BIOS + 128 * (k + 1) ∧ m'.l < 256 ∧ m'.polls = m.polls ∧
      m'.pc = .lsect := by
  have hbios : BIOS = 0xfa00 := rfl
  have hmod : (m.c + 1) % 256 = m.c + 1 := by omega
  have hhl : 256 * ((m.h + (m.l + 128) / 256) % 256) + (m.l + 128) % 256 =
      BIOS + 128 * (k + 1) := by omega
  refine ⟨_, rfl, ?_⟩
  by_cases hc : m.c + 1 < 27
  · simp only [hmod, hc, if_true]
    exact ⟨trivial, by omega, by omega, trivial, hhl, by omega, trivial, trivial⟩
  · simp only [hmod, hc, if_false]
    exact ⟨trivial, by omega, by omega, trivial, hhl, by omega, trivial, trivial⟩

/-- **The boot sector loads the BIOS.**

**Proof sketch.** Induction on the number of sectors left. -/
lemma LoadsBios.reaches (key : ℕ → Bool) (hread : sd.read = Disk.read)
    (hbios : ∀ j, content[5760 + j]? = bios[j]?) (hlen : bios.length ≤ 896) :
    ∀ {n k : ℕ} {m : Machine Disk}, k + (n + 1) = 12 → m.pc = .lsect →
      LoadsBios content bios k m → ∃ m', Reaches sd key m m' ∧ m'.pc = .boot ∧
        m'.polls = 0 ∧ DriveA content m'.cpu ∧ HoldsUpTo m'.cpu.ram BIOS bios bios.length := by
  intro n
  induction n with
  | zero =>
    intro k m hk hpc h
    obtain ⟨m', hrun, hd, hload, -, -, -, -, -, hp, hpc'⟩ := h.lsect hread hbios hlen (by omega)
    refine ⟨m', .one hpc hrun, by rw [hpc', if_pos (by omega)], hp, hd, fun j hj => ?_⟩
    exact hload j (by omega)
  | succ n ih =>
    intro k m hk hpc h
    obtain ⟨m₁, hrun, hd, hload, hb, hc, hd₁, hh, hl, hp, hpc₁⟩ :=
      h.lsect hread hbios hlen (by omega)
    rw [if_neg (by omega)] at hpc₁
    obtain ⟨m₂, hrun₂, hcpu, hplace, hsec, hd₂, haddr, hlow, hp₂, hpc₂⟩ :=
      next_sector (m := m₁) (k := k) (by rw [hb, hc]; exact h.place) (by rw [hc]; exact h.sector)
        (by rw [hh, hl]; exact h.addr) (by omega)
    obtain ⟨m', hreach, hrest⟩ := ih (k := k + 1) (m := m₂) (by omega) hpc₂
      ⟨by rw [hcpu]; exact hd, hplace, hsec, by rw [hd₂, hd₁]; omega, haddr, hlow,
        hp₂.trans hp, by rw [hcpu]; exact hload⟩
    exact ⟨m', ((Reaches.one hpc hrun).trans (.one hpc₁ hrun₂)).trans hreach, hrest⟩

/-! ## The cold start -/

/-- **The invariant of the cold start's loop** before it reads sector `1 + k`. The BIOS is in memory
already and stays there, although the last sector that is read reaches into it. -/
structure LoadsSystem (content bios : Bytes) (k : ℕ) (m : Machine Disk) : Prop where
  drive : DriveA content m.cpu
  track : m.cpu.fdct = m.c
  place : 26 * m.c + m.d = k + 2
  sector : 1 ≤ m.d ∧ m.d ≤ 26
  left : m.b = 45 - k
  addr : 256 * m.h + m.l = CCP + 128 * k
  low : m.l < 256
  stack : m.sp = 0x80
  system : HoldsUpTo m.cpu.ram CCP (content.drop 128) (128 * k)
  bios : HoldsUpTo m.cpu.ram BIOS bios bios.length

/-- `_READ` on drive A. -/
lemma DriveA.read {s : Cpu Disk} (hread : sd.read = Disk.read) (h : DriveA content s)
    (ht : s.fdct < 3) (h1 : 1 ≤ s.fdcs) (h26 : s.fdcs ≤ 26) :
    ∃ s', Bios.read sd s = .ok 0 s' ∧ SectorRead content s.fdct s.fdcs s.dma s s' := by
  obtain ⟨s', hout, hr, hst⟩ := h.out_read hread ht h1 h26
  refine ⟨s', ?_, hr⟩
  rw [Bios.read, waitio, Exc.bind_of_ok hout]
  change EStateM.Result.ok (inStatus s') s' = _
  rw [inStatus, hst]

/-- **`LOAD1`** reads a sector of the system.

**Proof sketch.** The registers hold the place of the next sector and its address. Reading it
stores 128 bytes of the image there, the registers move on by one sector, and what was loaded
before is not touched; the last sector reaches into the BIOS, where it has the same bytes. -/
lemma LoadsSystem.load1 (hread : sd.read = Disk.read)
    (hbios : ∀ j, content[5760 + j]? = bios[j]?)
    (h : LoadsSystem content bios k m) (hk : k < 45) :
    ∃ m', Boot.load1 sd m = .ok () m' ∧ DriveA content m'.cpu ∧ m'.cpu.fdct = m.c ∧
      m'.c = m.c ∧ m'.d = m.d ∧ m'.b = 44 - k ∧ 256 * m'.h + m'.l = CCP + 128 * (k + 1) ∧
      m'.l < 256 ∧ m'.sp = 0x80 ∧ HoldsUpTo m'.cpu.ram CCP (content.drop 128) (128 * (k + 1)) ∧
      HoldsUpTo m'.cpu.ram BIOS bios bios.length ∧
      m'.pc = if k + 1 = 45 then .gocpm else .more := by
  obtain ⟨hdrive, htrack, hplace, hsec, hleft, haddr, hlow, hsp, hsys, hb⟩ := h
  have hccp : CCP = 0xe400 := rfl
  have hbase : BIOS = 0xfa00 := rfl
  have hcpu : (saved m).cpu.fdct = m.c ∧ DriveA content (saved m).cpu := by
    have hf : (saved m).cpu.currentdrive = m.cpu.currentdrive ∧
        (saved m).cpu.diskptr = m.cpu.diskptr ∧ (saved m).cpu.fdct = m.cpu.fdct := by
      simp [saved, Machine.push, Machine.poke]
    refine ⟨hf.2.2.trans htrack, hf.1.trans hdrive.current, ?_⟩
    rw [hf.2.1]
    exact hdrive.object
  obtain ⟨s, hrd, hr⟩ := DriveA.read
    (s := { (saved m).cpu with fdcs := m.d, dma := 256 * m.h + m.l, fdcst := 0 }) hread
    ⟨hcpu.2.current, hcpu.2.object⟩ (by rw [hcpu.1]; omega) hsec.1 hsec.2
  dsimp only at hr
  rw [haddr, hcpu.1] at hr
  have hrun := load1_of_read hsp (by omega) hlow hrd
  rw [if_neg (by simp), loaded_saved hsp (by omega) hlow (by omega) (by omega) (by omega)
    fun j hj => hr.frame j (by omega)] at hrun
  have hb44 : (m.b + 255) % 256 = 44 - k := by omega
  have hlast : 44 - k = 0 ↔ k + 1 = 45 := by omega
  simp only [hb44, hlast] at hrun
  have habs : 26 * m.c + m.d - 1 = k + 1 := by omega
  refine ⟨_, hrun, hr.drive, hr.fdct, rfl, rfl, rfl, ?_, ?_, hsp, ?_, ?_, rfl⟩
  · dsimp only
    omega
  · dsimp only
    omega
  · refine hr.holds ?_ fun i hi x hx => ?_
    · intro j hj x hx
      rw [ram_saved hsp (by omega)]
      exact hsys j hj x hx
    · rw [List.getElem?_drop] at hx
      refine ⟨by omega, ?_⟩
      rw [← hx, habs]
      congr 1
      omega
  · intro j hj x hx
    by_cases hin : k = 44 ∧ j < 128
    · obtain ⟨rfl, hj128⟩ := hin
      refine hr.data (by omega) j hj128 x ?_
      rw [habs, ← hx, ← hbios]
    · change s.ram (BIOS + j) = x
      rw [hr.frame (BIOS + j) (by omega)]
      change (saved m).cpu.ram (BIOS + j) = x
      rw [ram_saved hsp (by omega)]
      exact hb j hj x hx

/-- **The loop goes on** with the next sector. -/
lemma more_sectors (sd : SimDrive Fault Disk) (hdrive : DriveA content m.cpu)
    (htrack : m.cpu.fdct = m.c) (hplace : 26 * m.c + m.d = k + 2) (hsec : 1 ≤ m.d ∧ m.d ≤ 26)
    (hk : k < 45) :
    ∃ m', more sd m = .ok () m' ∧ DriveA content m'.cpu ∧ m'.cpu.fdct = m'.c ∧
      26 * m'.c + m'.d = k + 3 ∧ (1 ≤ m'.d ∧ m'.d ≤ 26) ∧ m'.cpu.ram = m.cpu.ram ∧ m'.b = m.b ∧
      m'.h = m.h ∧ m'.l = m.l ∧ m'.sp = m.sp ∧ m'.pc = .load1 := by
  obtain ⟨m', hrun, hcpu, hplace', hsec', hrest⟩ := more_apply sd htrack hsec (by omega)
  refine ⟨m', hrun, ?_, by rw [hcpu], by omega, hsec', by rw [hcpu], hrest⟩
  rw [hcpu]
  exact ⟨hdrive.current, hdrive.object⟩

/-- **The cold start loads the system.**

**Proof sketch.** Induction on the number of sectors left. -/
lemma LoadsSystem.reaches (key : ℕ → Bool) (hread : sd.read = Disk.read)
    (hbios : ∀ j, content[5760 + j]? = bios[j]?) :
    ∀ {n k : ℕ} {m : Machine Disk}, k + (n + 1) = 45 → m.pc = .load1 →
      LoadsSystem content bios k m → ∃ m', Reaches sd key m m' ∧ m'.pc = .gocpm ∧
        HoldsUpTo m'.cpu.ram CCP (content.drop 128) (128 * 45) ∧
        HoldsUpTo m'.cpu.ram BIOS bios bios.length := by
  intro n
  induction n with
  | zero =>
    intro k m hk hpc h
    obtain ⟨m', hrun, -, -, -, -, -, -, -, -, hsys, hb, hpc'⟩ := h.load1 hread hbios (by omega)
    obtain rfl : k = 44 := by omega
    exact ⟨m', .one hpc hrun, hpc', hsys, hb⟩
  | succ n ih =>
    intro k m hk hpc h
    obtain ⟨m₁, hrun, hdrive, hfdct, hc, hd, hleft, haddr, hlow, hsp, hsys, hb, hpc₁⟩ :=
      h.load1 hread hbios (by omega)
    rw [if_neg (by omega)] at hpc₁
    obtain ⟨m₂, hrun₂, hdrive₂, hfdct₂, hplace, hsec, hram, hb₂, hh, hl, hsp₂, hpc₂⟩ :=
      more_sectors sd (k := k) hdrive (hfdct.trans hc.symm) (by rw [hc, hd]; exact h.place)
        (by rw [hd]; exact h.sector) (by omega)
    obtain ⟨m', hreach, hrest⟩ := ih (k := k + 1) (m := m₂) (by omega) hpc₂
      ⟨hdrive₂, hfdct₂, hplace, hsec, by rw [hb₂, hleft]; omega, by rw [hh, hl]; exact haddr,
        by rw [hl]; exact hlow, hsp₂.trans hsp, by rw [hram]; exact hsys, by rw [hram]; exact hb⟩
    exact ⟨m', ((Reaches.one hpc hrun).trans (.one hpc₁ hrun₂)).trans hreach, hrest⟩

/-- **`_CONIN` returns** when a key is pressed. -/
lemma conin_reaches (sd : SimDrive Fault Disk) {n : ℕ} {m : Machine Disk} (hpc : m.pc = .conin)
    (hkey : key (m.polls + n) = true) :
    ∃ m' p, Reaches sd key m (keyPressed m') ∧ m' = { m with a := m'.a, polls := p } := by
  obtain ⟨i, m', p, hsteps, hm'⟩ := conin_steps sd hpc hkey
  exact ⟨m', p, ⟨i, hsteps⟩, hm'⟩

/-- A key press does not touch the drives. -/
lemma DriveA.keyPressed (h : DriveA content m.cpu) : DriveA content (keyPressed m).cpu := by
  have hf : (Boot.keyPressed m).cpu.currentdrive = m.cpu.currentdrive ∧
      (Boot.keyPressed m).cpu.diskptr = m.cpu.diskptr := by
    simp [Boot.keyPressed, Machine.poke]
  refine ⟨hf.1.trans h.current, ?_⟩
  rw [hf.2]
  exact h.object

/-- **`BOOTOS`** starts the loop of the cold start. -/
lemma bootos_starts (sd : SimDrive Fault Disk) (hdrive : DriveA content m.cpu)
    (hb : m.b = CSECTS) (hsp : m.sp = 0x80) (hbios : HoldsUpTo m.cpu.ram BIOS bios bios.length) :
    ∃ m', bootos sd m = .ok () m' ∧ m'.pc = .load1 ∧ LoadsSystem content bios 0 m' := by
  obtain ⟨ans, s, hsel, hcur, hptr, hram⟩ := seldsk_zero sd hdrive.current
  rw [bootos, Exc.bind_of_ok (onCpu_of_ok hsel), home,
    Exc.bind_of_ok (onCpu_of_ok (settrk_apply ..))]
  have hlow : CCP % 256 < 256 := by decide
  have hsec : 1 ≤ 2 ∧ 2 ≤ 26 := by decide
  refine ⟨_, rfl, rfl, ⟨hcur, ?_⟩, rfl, rfl, hsec, hb, rfl, hlow, hsp, ?_, ?_⟩
  · change ∃ dk, s.diskptr 0 = some dk ∧ _
    rw [hptr]
    exact hdrive.object
  · exact fun j hj => absurd hj (by omega)
  · change HoldsUpTo s.ram BIOS bios bios.length
    rw [hram]
    exact hbios

/-- **The boot sector selects drive A**, which makes its object.

**Proof sketch.** No drive is selected, so that nothing is deselected, and the object of drive A
does not exist yet, so that it is made. The geometry is that of the 8-inch disk, since the pointer
to the parameter block is 0. -/
lemma select_starts (hstat : sd.stat 0 = some .dir) {dk : Disk} (hnew : sd.newDisk 0 ibm8 = .ok dk)
    (hsys : SystemDisk content dk) (hcur : m.cpu.currentdrive = MAXDRIVE)
    (hnone : m.cpu.diskptr 0 = none) (hpolls : m.polls = 0) :
    ∃ m', select sd m = .ok () m' ∧ m'.pc = .lsect ∧ LoadsBios content bios 0 m' := by
  have hsel : ∀ t : Cpu Disk, t.currentdrive = MAXDRIVE → t.diskptr 0 = none →
      selectdisk sd 0 ibm8 t = .ok 0 { t.setObject 0 dk with currentdrive := 0 } := by
    intro t ht hn
    have hobj : t.object t.currentdrive = none := by rw [ht]; rfl
    have hdes : (modify (deselected sd) : EStateM Fault (Cpu Disk) Unit) t = .ok () t := by
      have ht' : deselected sd t = t := by
        rw [deselected, hobj]
        simp only [← ht]
      change EStateM.Result.ok () (deselected sd t) = _
      rw [ht']
    have hins : insertDisk sd 0 .dir ibm8 t = .ok (some dk) t := by
      unfold insertDisk
      rw [Exc.get_bind]
      simp only [hn, hnew]
      rfl
    rw [selectdisk, if_pos (by decide), Exc.get_bind, if_pos (by rw [ht]; decide),
      Exc.bind_of_ok hdes]
    simp only [hstat]
    rw [Exc.bind_of_ok hins]
    rfl
  have hgeo : ∀ t : Cpu Disk, t.dph = 0 → t.geometry = ibm8 := fun t ht => by
    rw [geometry, if_neg (by simp [ht])]
  rw [select, Exc.bind_of_ok (onCpu_of_ok (out_dpbl ..)),
    Exc.bind_of_ok (onCpu_of_ok (out_dpbh ..)),
    Exc.bind_of_ok (onCpu_of_ok (out_fdcd (by
      rw [hgeo _ (dma_eq (by decide))]
      exact hsel _ hcur hnone)))]
  have hsec : 1 ≤ BOFFST % 256 ∧ BOFFST % 256 ≤ 26 := by decide
  have hlow : BIOS % 256 < 256 := by decide
  refine ⟨_, rfl, rfl, ⟨rfl, dk, ?_, hsys⟩, rfl, hsec, rfl, rfl, hlow, hpolls, ?_⟩
  · change Function.update m.cpu.diskptr 0 (some dk) 0 = some dk
    rw [Function.update_self]
  · exact fun j hj => absurd hj (by omega)

/-- **The boot sector**: from `COLD` to the BIOS. -/
lemma boot_sector_reaches (key : ℕ → Bool) (hread : sd.read = Disk.read)
    (hstat : sd.stat 0 = some .dir) {dk : Disk} (hnew : sd.newDisk 0 ibm8 = .ok dk)
    (hsys : SystemDisk content dk) (hbios : ∀ j, content[5760 + j]? = bios[j]?)
    (hlen : bios.length ≤ 896) (hpc : m.pc = .cold) (hcur : m.cpu.currentdrive = MAXDRIVE)
    (hnone : m.cpu.diskptr 0 = none) (hpolls : m.polls = 0) :
    ∃ m', Reaches sd key m m' ∧ m'.pc = .boot ∧ m'.polls = 0 ∧ DriveA content m'.cpu ∧
      HoldsUpTo m'.cpu.ram BIOS bios bios.length := by
  obtain ⟨m₁, hm₁⟩ : ∃ x : Machine Disk,
      x = { m.print (0x0c :: bootMsg) with sp := TBUFF, pc := .select } := ⟨_, rfl⟩
  have hcold : Reaches sd key m m₁ := .one hpc (by rw [hm₁]; rfl)
  have hpc₁ : m₁.pc = .select := by rw [hm₁]
  obtain ⟨m₂, hrun, hpc₂, hinv⟩ := select_starts (m := m₁) hstat hnew hsys
    (by rw [hm₁]; exact hcur) (by rw [hm₁]; exact hnone) (by rw [hm₁]; exact hpolls)
  obtain ⟨m', hreach, hrest⟩ := hinv.reaches (n := 11) key hread hbios hlen rfl hpc₂
  exact ⟨m', (hcold.trans (.one hpc₁ hrun)).trans hreach, hrest⟩

/-- **The cold start**: from the BIOS to `GOCPM`.

**Proof sketch.** The cold start prints its message and waits for a key (`conin_reaches`). Then it
selects drive A and loads sector after sector (`bootos_starts`, `LoadsSystem.reaches`). -/
lemma cold_start_reaches (hread : sd.read = Disk.read)
    (hbios : ∀ j, content[5760 + j]? = bios[j]?) (hpc : m.pc = .boot)
    (hdrive : DriveA content m.cpu) (hload : HoldsUpTo m.cpu.ram BIOS bios bios.length) {n : ℕ}
    (hn : key (m.polls + n) = true) :
    ∃ m', Reaches sd key m m' ∧ m'.pc = .gocpm ∧
      HoldsUpTo m'.cpu.ram CCP (content.drop 128) (128 * 45) ∧
      HoldsUpTo m'.cpu.ram BIOS bios bios.length := by
  obtain ⟨m₁, hm₁⟩ : ∃ x : Machine Disk,
      x = { m.print (0x0c :: signon) with sp := TBUFF, pc := .conin } := ⟨_, rfl⟩
  have hstart : Reaches sd key m m₁ := .one hpc (by rw [hm₁]; rfl)
  obtain ⟨m₂, p, hwait, hm₂⟩ := conin_reaches sd (m := m₁) (n := n) (by rw [hm₁])
    (by rw [hm₁]; exact hn)
  have hcpu₂ : m₂.cpu = m.cpu := by rw [hm₂, hm₁]; rfl
  have hsp₂ : m₂.sp = 0x80 := by rw [hm₂, hm₁]; rfl
  have hdrive₂ : DriveA content m₂.cpu := by rw [hcpu₂]; exact hdrive
  have hload₂ : HoldsUpTo (keyPressed m₂).cpu.ram BIOS bios bios.length := by
    intro j hj x hx
    rw [ram_keyPressed (by simp only [BIOS]; omega), hcpu₂]
    exact hload j hj x hx
  obtain ⟨m₃, hrun, hpc₃, hinv⟩ := bootos_starts sd hdrive₂.keyPressed rfl hsp₂ hload₂
  obtain ⟨m', hreach, hrest⟩ := hinv.reaches (n := 44) key hread hbios rfl hpc₃
  exact ⟨m', ((hstart.trans hwait).trans (.one rfl hrun)).trans hreach, hrest⟩

end Loader

/-! ## The whole boot -/

/-- What the build script accepts. -/
lemma of_buildSystemImage {boot ccp bdos bios image : Bytes}
    (h : buildSystemImage boot ccp bdos bios = .ok image) :
    boot.length = 128 ∧ ccp.length = 0x806 ∧ bdos.length = 0xdfa ∧ bios.length ≤ 896 ∧
      image = boot ++ ccp ++ bdos ++ bios := by
  unfold buildSystemImage at h
  dsimp only at h
  rw [ite_eq_iff] at h
  obtain ⟨-, h⟩ | ⟨h1, h⟩ := h
  · cases h
  obtain ⟨-, h⟩ | ⟨h2, h⟩ := ite_eq_iff.mp h
  · cases h
  obtain ⟨-, h⟩ | ⟨h3, h⟩ := ite_eq_iff.mp h
  · cases h
  obtain ⟨-, h⟩ | ⟨h4, h⟩ := ite_eq_iff.mp h
  · cases h
  rw [not_not] at h1 h2 h3
  simp only [h1, h2, h3, bootSize, ccpSize, bdosSize, maxSystemSize] at h1 h2 h3 h4 ⊢
  exact ⟨trivial, trivial, trivial, by omega, (Except.ok.inj h).symm⟩

/-- The memory holds `bs` from `a` on. -/
def Holds (ram : ℕ → UInt8) (a : ℕ) (bs : Bytes) : Prop :=
  ∀ j x, bs[j]? = some x → ram (a + j) = x

/-- **The memory of a booted system**: CCP, BDOS and BIOS are in place. -/
structure Booted (ccp bdos bios : Bytes) (ram : ℕ → UInt8) : Prop where
  ccp : Holds ram CCP ccp
  bdos : Holds ram BDOS bdos
  bios : Holds ram BIOS bios

/-- The machine at power-on: no drive is selected and drive A has no object. -/
structure PowerOn (m : Machine Disk) : Prop where
  pc : m.pc = .cold
  current : m.cpu.currentdrive = MAXDRIVE
  object : m.cpu.diskptr 0 = none
  polls : m.polls = 0

/-- **The cold boot loads the system.** For four files that the build script accepts, whose image
is the system file of a drive A that the host lets us import and read: from power-on, with a key
pressed at some time, the machine reaches `GOCPM` with CCP, BDOS and BIOS in its memory.

**Proof sketch.** The image of the build is the boot sector, then the CCP, the BDOS and the BIOS,
and the drive that was imported reads it sector by sector. The boot sector loads the BIOS and
starts it (`boot_sector_reaches`); the cold start loads the rest as soon as a key is pressed
(`cold_start_reaches`). -/
theorem cold_boot {boot ccp bdos bios image path : Bytes} {readdir : Bytes → Option (List Bytes)}
    {host : Host} {paths : ℕ → Option Bytes} {dk : Disk} {key : ℕ → Bool} {m : Machine Disk}
    (himage : buildSystemImage boot ccp bdos bios = .ok image) (hpath : paths 0 = some path)
    (hworks : host.Works) (hfile : host.find (path ++ slash :: cpmsys) = some (.file image))
    (hbuild : build readdir path ibm8 host = .ok () dk) (hkey : ∃ n, key n = true)
    (hm : PowerOn m) :
    ∃ m', Reaches (drives readdir host paths) key m m' ∧ m'.pc = .gocpm ∧
      Booted ccp bdos bios m'.cpu.ram := by
  obtain ⟨hboot, hccp, hbdos, hlen, rfl⟩ := of_buildSystemImage himage
  obtain ⟨n, hn⟩ := hkey
  set image := boot ++ ccp ++ bdos ++ bios with himg
  set sd := drives readdir host paths with hsd
  have hread : sd.read = Disk.read := rfl
  have hbios : ∀ j, image[5760 + j]? = bios[j]? := by
    intro j
    rw [himg, List.getElem?_append_right (by simp; omega)]
    congr 1
    simp
    omega
  -- the imported disk
  obtain ⟨hbuilt, -⟩ := built_of_build regular_ibm8 hbuild
  obtain ⟨done, blocks, hlaid, -⟩ := hbuilt.laid
  have hsys : SystemDisk image dk := by
    refine ⟨hbuilt.frame.shaped, ?_, ?_, ?_⟩
    · rw [hbuilt.frame.host]
      exact hworks
    · rw [hbuilt.frame.host, hbuilt.frame.bootblock]
      exact hfile
    · rw [hlaid.len, hbuilt.frame.dpb]
      rfl
  have hstat : sd.stat 0 = some .dir := by
    change (paths 0).map _ = _
    rw [hpath]
    rfl
  have hnew : sd.newDisk 0 ibm8 = .ok dk := by
    simp only [hsd, drives, hpath, Option.getD_some, hbuild]
  obtain ⟨m₁, hreach₁, hpc₁, hpolls, hdrive, hload⟩ := boot_sector_reaches key hread hstat hnew hsys
    hbios hlen hm.pc hm.current hm.object hm.polls
  have hn' : key (m₁.polls + n) = true := by rw [hpolls, Nat.zero_add, hn]
  obtain ⟨m', hreach', hpc', hsystem, hbios'⟩ :=
    cold_start_reaches hread hbios hpc₁ hdrive hload hn'
  have hdrop : image.drop 128 = ccp ++ (bdos ++ bios) := by
    rw [himg, List.append_assoc, List.append_assoc, ← hboot, List.drop_left]
  rw [hdrop] at hsystem
  refine ⟨m', hreach₁.trans hreach', hpc', fun j x hx => ?_, fun j x hx => ?_, fun j x hx => ?_⟩
  · have hj := (List.getElem?_eq_some_iff.mp hx).1
    refine hsystem j (by omega) x ?_
    rw [List.getElem?_append_left hj, hx]
  · have hj := (List.getElem?_eq_some_iff.mp hx).1
    have haddr : BDOS + j = CCP + (0x806 + j) := Nat.add_assoc ..
    rw [haddr]
    refine hsystem (0x806 + j) (by omega) x ?_
    rw [← hccp, List.getElem?_append_right (by omega), Nat.add_sub_cancel_left,
      List.getElem?_append_left hj, hx]
  · exact hbios' j (List.getElem?_eq_some_iff.mp hx).1 x hx

/-- The system image of a machine with a one-byte BIOS. -/
def smallImage : Bytes :=
  List.replicate 128 0 ++ List.replicate 0x806 1 ++ List.replicate 0xdfa 2 ++ [3]

/-- A host with a drive that has this system file. -/
def systemDrive : Host :=
  { emptyDrive with
    node := fun p =>
      if p = normal (drivePath ++ slash :: cpmsys) then some (.file smallImage)
      else emptyDrive.node p }

/-- The machine at power-on. -/
def powerOnMachine : Machine Disk where
  pc := .cold
  a := 0
  b := 0
  c := 0
  d := 0
  e := 0
  h := 0
  l := 0
  sp := 0
  cpu := powerOn
  screen := []
  polls := 0

/-- A machine that boots from this drive, with a key pressed at the third poll. -/
theorem cold_boot_small :
    ∃ m', Reaches (drives (fun _ => some [cpmsys]) systemDrive fun id =>
        if id = 0 then some drivePath else none) (fun n => decide (n = 2)) powerOnMachine m' ∧
      m'.pc = .gocpm ∧
      Booted (List.replicate 0x806 1) (List.replicate 0xdfa 2) [3] m'.cpu.ram := by
  have himage : buildSystemImage (List.replicate 128 0) (List.replicate 0x806 1)
      (List.replicate 0xdfa 2) [3] = .ok smallImage := by
    simp only [buildSystemImage, List.length_replicate, List.length_singleton, bootSize, ccpSize,
      bdosSize, maxSystemSize]
    rfl
  have hfile : systemDrive.find (drivePath ++ slash :: cpmsys) = some (.file smallImage) := by
    simp [Host.find, systemDrive, drivePath]
  have hbuild : build (fun _ => some [cpmsys]) drivePath ibm8 systemDrive =
      .ok () (blank drivePath ibm8 systemDrive) := by rfl
  exact cold_boot himage rfl (fun _ => rfl) hfile hbuild ⟨2, rfl⟩ ⟨rfl, rfl, rfl, rfl⟩

end Cpm22.Boot
