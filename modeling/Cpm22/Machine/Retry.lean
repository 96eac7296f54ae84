import Cpm22.Machine.ColdBoot

set_option relaxedAutoImplicit false
set_option autoImplicit false

/-!
# Restarts of the loader

A read error sends the loader of the BIOS back to `_WBOOT`, from the cold start as from the warm
start. The warm start reads the 17 sectors of the CCP only, so what a cold start had still to read
behind them is not read any more. This file follows the loader through any pattern of read errors:
a run is a sequence of passes, each from the first sector on, and every pass after the first one is
a warm start over the memory that the pass before it left.

## Main definitions

* `Cpm22.Boot.Floppy` — a disk in drive A with a system image and a pattern of read errors.
* `Cpm22.Boot.Pass`, `Cpm22.Boot.Restarts` — the passes of the loader.
* `Cpm22.Boot.Starts` — `GOCPM` starts the whole system, read in order.
* `Cpm22.Boot.NothingMissing` — the first read error comes too late to leave anything out.

## Main results

* `Cpm22.Boot.steps_follows` — the machine follows the passes.
* `Cpm22.Boot.Enters.reaches` — finitely many errors do not keep the machine from `GOCPM`.
* `Cpm22.Boot.starts_iff` — the system that `GOCPM` starts is whole exactly if nothing is missing.
-/

namespace Cpm22.Boot

open HostPath HostFs Cpu Bios Disk

/-! ## A disk with read errors -/

/-- A call of `READ` that the drive has carried out. -/
structure ReadCall where
  track : ℕ
  sector : ℕ
  /-- what `FDCST` returned -/
  status : UInt8

/-- The number of the sector on the reserved tracks, from 0. -/
def ReadCall.abs (r : ReadCall) : ℕ := 26 * r.track + r.sector - 1

/-- **A disk with read errors**: the reserved tracks, what `FDCST` returns after each `READ`, and
what a failing `READ` leaves in the buffer. -/
structure Floppy where
  content : Bytes
  status : ℕ → UInt8
  spoilt : ℕ → Sector → Sector
  /-- boot sector, CCP and BDOS are on the reserved tracks -/
  complete : bootSize + ccpSize + bdosSize ≤ content.length

namespace Floppy

/-- The buffer after the `n`-th `READ`; the end of the content leaves the rest of it alone. -/
def sectorRead (fl : Floppy) (n track sector : ℕ) (buf : Sector) : Sector :=
  if fl.status n = 0 then
    overlay buf ((fl.content.drop (128 * (26 * track + sector - 1))).take 128)
  else fl.spoilt n buf

/-- The drive, which keeps a log of its `READ` calls. The status of a call depends on how many calls
were made before, so that any pattern of errors is one drive. -/
def drive (fl : Floppy) : SimDrive Fault (List ReadCall) where
  stat _ := some .dir
  newDisk _ _ := .ok []
  newImage _ _ := .ok []
  select log := log
  unSelect log := log
  read track sector dma := fun log =>
    let st := fl.status log.length
    .ok (st.toNat, fl.sectorRead log.length track sector dma) (log ++ [⟨track, sector, st⟩])
  write _ _ _ := pure 1

/-- The byte of the system image that belongs to the address `CCP + j`. -/
def image (fl : Floppy) (j : ℕ) : UInt8 := fl.content.getD (bootSize + j) 0

end Floppy

/-- The `READ` calls since the last restart, which follows a call with an error. -/
def sinceRestart (log : List ReadCall) : List ReadCall :=
  (log.reverse.takeWhile fun r => r.status = 0).reverse

/-! ## The passes of the loader -/

/-- **A pass of the loader**: how many sectors it is to read, the memory from `CCP` on and the log
of the drive when it begins. -/
structure Pass where
  sectors : ℕ
  area : ℕ → UInt8
  log : List ReadCall

/-- The `READ` call for the sector `i` of a pass. -/
def sectorCall (i : ℕ) (st : UInt8) : ReadCall := ⟨(i + 1) / 26, (i + 1) % 26 + 1, st⟩

namespace Pass

/-- The log after `k` sectors. -/
def logUpTo (p : Pass) (k : ℕ) : List ReadCall :=
  p.log ++ (List.range k).map fun i => sectorCall i 0

/-- The memory after `k` sectors. -/
def areaUpTo (fl : Floppy) (p : Pass) (k : ℕ) : ℕ → UInt8 := fun j =>
  if j < 128 * k then fl.image j else p.area j

/-- What the `READ` of sector `k` returns. -/
def statusAt (fl : Floppy) (p : Pass) (k : ℕ) : UInt8 := fl.status (p.log.length + k)

/-- The first `k` sectors are read without an error. -/
def Good (fl : Floppy) (p : Pass) (k : ℕ) : Prop := ∀ i < k, p.statusAt fl i = 0

/-- The pass after an error in sector `k`. -/
def restart (fl : Floppy) (p : Pass) (k : ℕ) : Pass where
  sectors := WSECTS
  area := store (p.areaUpTo fl k) (128 * k)
    (fl.spoilt (p.log.length + k) fun i => p.areaUpTo fl k (128 * k + i))
  log := p.logUpTo k ++ [sectorCall k (p.statusAt fl k)]

end Pass

/-- **One pass follows another** after an error in one of its sectors. -/
def Restarts (fl : Floppy) (p p' : Pass) : Prop :=
  ∃ k < p.sectors, p.Good fl k ∧ p.statusAt fl k ≠ 0 ∧ p' = p.restart fl k

variable {fl : Floppy} {p p' p₀ : Pass} {k : ℕ}

/-- The length of the log after `k` sectors. -/
@[simp]
lemma Pass.length_logUpTo (p : Pass) (k : ℕ) : (p.logUpTo k).length = p.log.length + k := by
  simp [Pass.logUpTo]

/-- One more sector in the log. -/
lemma Pass.logUpTo_succ (p : Pass) (k : ℕ) :
    p.logUpTo (k + 1) = p.logUpTo k ++ [sectorCall k 0] := by
  simp [Pass.logUpTo, List.range_succ]

/-- The memory of the next pass outside the sector with the error. -/
lemma Pass.restart_area_of_ne (fl : Floppy) (p : Pass) {j : ℕ}
    (h : j < 128 * k ∨ 128 * k + 128 ≤ j) : (p.restart fl k).area j = p.areaUpTo fl k j :=
  store_of_ne _ _ h

/-- The memory of the next pass inside the sector with the error. -/
lemma Pass.restart_area_add (fl : Floppy) (p : Pass) {i : ℕ} (h : i < 128) :
    (p.restart fl k).area (128 * k + i) =
      fl.spoilt (p.log.length + k) (fun i => p.areaUpTo fl k (128 * k + i)) ⟨i, h⟩ :=
  store_add _ _ _ h

/-- **Warm starts leave the upper part alone**: what follows a pass of 17 sectors are passes of 17
sectors, and the memory behind these sectors stays.

**Proof sketch.** Induction on the restarts. -/
lemma Restarts.keeps (h : Relation.ReflTransGen (Restarts fl) p p') (hp : p.sectors = WSECTS) :
    p'.sectors = WSECTS ∧ ∀ j, 128 * WSECTS ≤ j → p'.area j = p.area j := by
  induction h with
  | refl => exact ⟨hp, fun _ _ => rfl⟩
  | tail _ hstep ih =>
    obtain ⟨k, hk, -, -, rfl⟩ := hstep
    refine ⟨rfl, fun j hj => ?_⟩
    rw [ih.1] at hk
    rw [← ih.2 j hj, Pass.restart_area_of_ne _ _ (by omega), Pass.areaUpTo, if_neg (by omega)]

/-- A pass has at least the sectors of the warm start and at most those of the cold start. -/
def Pass.Sized (p : Pass) : Prop := WSECTS ≤ p.sectors ∧ p.sectors ≤ CSECTS

/-- There is a sector to read. -/
lemma Pass.Sized.pos (h : p.Sized) : 0 < p.sectors := by
  have hw : 17 ≤ p.sectors := h.1
  omega

/-- The pass after an error has the sectors of the warm start. -/
lemma Pass.sized_restart (fl : Floppy) (p : Pass) (k : ℕ) : (p.restart fl k).Sized := by
  change WSECTS ≤ WSECTS ∧ WSECTS ≤ CSECTS
  decide

/-- The passes that follow have their size. -/
lemma Restarts.sized (h : Relation.ReflTransGen (Restarts fl) p₀ p) (hp : p₀.Sized) :
    p.Sized := by
  induction h with
  | refl => exact hp
  | tail _ hstep ih =>
    obtain ⟨k, -, -, -, rfl⟩ := hstep
    exact Pass.sized_restart ..

/-- The sectors of a pass are read one after the other. -/
lemma map_abs_sectorCall (k : ℕ) :
    ((List.range k).map fun i => sectorCall i 0).map ReadCall.abs = List.range' 1 k := by
  rw [List.map_map, List.range'_eq_map_range]
  apply List.map_congr_left
  intro i _
  simp only [Function.comp, ReadCall.abs, sectorCall]
  omega

/-- Calls without an error are calls since the last restart. -/
lemma sinceRestart_append (before : List ReadCall) {reads : List ReadCall}
    (h : ∀ r ∈ reads, r.status = 0) :
    sinceRestart (before ++ reads) = sinceRestart before ++ reads := by
  have hall : ∀ r ∈ reads.reverse, decide (r.status = 0) = true := fun r hr =>
    decide_eq_true (h r (List.mem_reverse.mp hr))
  rw [sinceRestart, List.reverse_append, List.takeWhile_append_of_pos hall, List.reverse_append,
    List.reverse_reverse]
  rfl

/-- A call with an error is followed by a restart. -/
lemma sinceRestart_error (before : List ReadCall) {r : ReadCall} (h : r.status ≠ 0) :
    sinceRestart (before ++ [r]) = [] := by
  simp [sinceRestart, h]

/-- A pass begins with a restart: no `READ` call was made since, if there were any at all. -/
lemma Restarts.log_eq (h : Relation.ReflTransGen (Restarts fl) p₀ p) :
    ∃ before, p.log = p₀.log ++ before ∧ sinceRestart before = [] := by
  induction h with
  | refl => exact ⟨[], by rw [List.append_nil], rfl⟩
  | @tail q _ _ hstep ih =>
    obtain ⟨k, -, -, hst, rfl⟩ := hstep
    obtain ⟨before, hlog, -⟩ := ih
    refine ⟨before ++ (List.range k).map (fun i => sectorCall i 0) ++
      [sectorCall k (q.statusAt fl k)], ?_, ?_⟩
    · simp [Pass.restart, Pass.logUpTo, hlog]
    · exact sinceRestart_error _ hst

/-- **Since the last restart** the sectors of the pass were read. -/
lemma Restarts.inOrder (h : Relation.ReflTransGen (Restarts fl) p₀ p) (k : ℕ) :
    ∃ log', p.logUpTo k = p₀.log ++ log' ∧
      (sinceRestart log').map ReadCall.abs = List.range' 1 k := by
  obtain ⟨before, hlog, hsince⟩ := Restarts.log_eq h
  have hgood : ∀ r ∈ (List.range k).map (fun i => sectorCall i 0), r.status = 0 := by
    intro r hr
    obtain ⟨i, -, rfl⟩ := List.mem_map.mp hr
    rfl
  refine ⟨before ++ (List.range k).map fun i => sectorCall i 0, ?_, ?_⟩
  · rw [Pass.logUpTo, hlog, List.append_assoc]
  · rw [sinceRestart_append before hgood, hsince, List.nil_append, map_abs_sectorCall]

/-! ## The machine in a pass -/

/-- The machine with such a drive. -/
abbrev Loader := Machine (List ReadCall)

/-- **The machine begins a pass.** -/
structure Begins (p : Pass) (m : Loader) : Prop where
  log : m.cpu.diskptr 0 = some p.log
  area : ∀ j < BIOS - CCP, m.cpu.ram (CCP + j) = p.area j

/-- **The machine has read `k` sectors of a pass**; registers `C` and `D` hold track and sector of
the sector number `x`. -/
structure Loading (fl : Floppy) (p : Pass) (k x : ℕ) (m : Loader) : Prop where
  current : m.cpu.currentdrive = 0
  log : m.cpu.diskptr 0 = some (p.logUpTo k)
  area : ∀ j < BIOS - CCP, m.cpu.ram (CCP + j) = p.areaUpTo fl k j
  good : p.Good fl k
  track : m.cpu.fdct = m.c
  place : 26 * m.c + m.d = x + 1
  sector : 1 ≤ m.d ∧ m.d ≤ 26
  left : m.b = p.sectors - k
  addr : 256 * m.h + m.l = CCP + 128 * k
  low : m.l < 256
  stack : m.sp = 0x80

variable {m m' : Loader} {x : ℕ} {key : ℕ → Bool}

/-- **`_READ`** of such a drive.

**Proof sketch.** The command reads with the current object, which adds the call to its log, and
stores the sector at the address. The status is a byte, so that the port gives it back unchanged.
-/
lemma read_drive (fl : Floppy) {s : Cpu (List ReadCall)} {log : List ReadCall}
    (hcur : s.currentdrive = 0) (hlog : s.diskptr 0 = some log) :
    ∃ s', Bios.read fl.drive s = .ok (fl.status log.length).toNat s' ∧ s'.currentdrive = 0 ∧
      s'.diskptr 0 = some (log ++ [⟨s.fdct, s.fdcs, fl.status log.length⟩]) ∧
      s'.fdct = s.fdct ∧ s'.ram = store s.ram s.dma
        (fl.sectorRead log.length s.fdct s.fdcs fun i => s.ram (s.dma + i)) := by
  set st := fl.status log.length
  set d := fl.sectorRead log.length s.fdct s.fdcs fun i => s.ram (s.dma + i)
  obtain ⟨s₁, hcommand, hcur₁, hlog₁, hfdct₁, hram₁⟩ : ∃ s₁,
      command fl.drive 0 s.fdct s.fdcs s.dma { s with fdcop := 0 } = .ok st.toNat s₁ ∧
      s₁.currentdrive = 0 ∧ s₁.diskptr 0 = some (log ++ [⟨s.fdct, s.fdcs, st⟩]) ∧
      s₁.fdct = s.fdct ∧ s₁.ram = store s.ram s.dma d := by
    have hobj : ({ s with fdcop := 0 } : Cpu (List ReadCall)).object s.currentdrive = some log := by
      rw [hcur, Cpu.object, if_pos (by decide), hlog]
    rw [command, if_pos rfl, rcpmdisk, Exc.get_bind]
    simp only [hobj]
    refine ⟨_, rfl, hcur, ?_, rfl, rfl⟩
    simp only [setObject, hcur, Function.update_self]
    rfl
  have hbyte : st.toNat % 2 ^ 16 % 256 = st.toNat := by
    have := st.toNat_lt
    omega
  refine ⟨{ s₁ with fdcst := st.toNat % 2 ^ 16 }, ?_, hcur₁, hlog₁, hfdct₁, hram₁⟩
  rw [Bios.read, waitio, Exc.bind_of_ok (out_fdcop hcommand)]
  change EStateM.Result.ok (st.toNat % 2 ^ 16 % 256) _ = _
  rw [hbyte]

/-- The memory from `CCP` on after sector `k` of the image was stored. -/
lemma store_sector (fl : Floppy) (ram : ℕ → UInt8) (buf : Sector) {j : ℕ} (hj : j < BIOS - CCP)
    (hin : 128 * k ≤ j ∧ j < 128 * k + 128) :
    store ram (CCP + 128 * k) (overlay buf ((fl.content.drop (128 * (k + 1))).take 128)) (CCP + j) =
      fl.image j := by
  obtain ⟨i, rfl⟩ : ∃ i, j = 128 * k + i := ⟨j - 128 * k, by omega⟩
  have hi : i < 128 := by omega
  have hlen := fl.complete
  have hsize : bootSize + ccpSize + bdosSize = bootSize + (BIOS - CCP) := rfl
  have hplace : 128 * (k + 1) + i = bootSize + (128 * k + i) := by
    simp only [bootSize]
    omega
  rw [← Nat.add_assoc, store_add _ _ _ hi, overlay, List.getD_eq_getElem?_getD,
    List.getElem?_take_of_lt hi, List.getElem?_drop, hplace, Floppy.image,
    List.getD_eq_getElem?_getD, List.getElem?_eq_getElem (by omega)]
  rfl

/-- **The `READ` of `LOAD1`**: the next sector of the image is in the memory, or the memory is that
of the next pass.

**Proof sketch.** The read gives the status that the drive has for this sector and stores the
sector or, at an error, what the drive leaves in the buffer. The memory below the load area is not
touched, and an address of the load area is in this sector, or as it was. -/
lemma Loading.read (h : Loading fl p k (k + 1) m) :
    ∃ s, Bios.read fl.drive
        { (saved m).cpu with fdcs := m.d, dma := 256 * m.h + m.l, fdcst := 0 } =
          .ok (p.statusAt fl k).toNat s ∧
      s.currentdrive = 0 ∧
      s.diskptr 0 = some (p.logUpTo k ++ [sectorCall k (p.statusAt fl k)]) ∧ s.fdct = m.c ∧
      (∀ j < 0x80, s.ram j = (saved m).cpu.ram j) ∧
      ∀ j < BIOS - CCP, s.ram (CCP + j) =
        if p.statusAt fl k = 0 then p.areaUpTo fl (k + 1) j else (p.restart fl k).area j := by
  have hccp : CCP = 0xe400 := rfl
  have hbios : BIOS - CCP = 0x1600 := rfl
  have hframe : (saved m).cpu.currentdrive = m.cpu.currentdrive ∧
      (saved m).cpu.diskptr = m.cpu.diskptr ∧ (saved m).cpu.fdct = m.cpu.fdct := by
    simp [saved, Machine.push, Machine.poke]
  obtain ⟨s, hread, hcur, hlog, hfdct, hram⟩ := read_drive fl
    (s := { (saved m).cpu with fdcs := m.d, dma := 256 * m.h + m.l, fdcst := 0 })
    (hframe.1.trans h.current) ((congrFun hframe.2.1 0).trans h.log)
  have hst : fl.status (p.logUpTo k).length = p.statusAt fl k := by
    rw [Pass.length_logUpTo, Pass.statusAt]
  have hplace := h.place
  have hsec := h.sector
  have hcall : (⟨m.c, m.d, p.statusAt fl k⟩ : ReadCall) = sectorCall k (p.statusAt fl k) := by
    have hc : m.c = (k + 1) / 26 := by omega
    have hd : m.d = (k + 1) % 26 + 1 := by omega
    rw [sectorCall, ← hc, ← hd]
  have habs : 26 * m.c + m.d - 1 = k + 1 := by omega
  dsimp only at hlog hfdct hram
  rw [hst] at hread
  rw [hst, hframe.2.2, h.track, hcall] at hlog
  rw [Floppy.sectorRead, hst, hframe.2.2, h.track, habs, h.addr] at hram
  have harea : ∀ j < BIOS - CCP, (saved m).cpu.ram (CCP + j) = p.areaUpTo fl k j := fun j hj => by
    rw [ram_saved h.stack (by omega), h.area j hj]
  refine ⟨s, hread, hcur, hlog, hfdct.trans (hframe.2.2.trans h.track), fun j hj => ?_,
    fun j hj => ?_⟩
  · rw [hram, store_of_ne _ _ (by omega)]
  · rw [hram]
    by_cases hin : 128 * k ≤ j ∧ j < 128 * k + 128
    · by_cases hgood : p.statusAt fl k = 0
      · rw [if_pos hgood, if_pos hgood, store_sector fl _ _ hj hin, Pass.areaUpTo,
          if_pos (by omega)]
      · -- the whole sector lies below the BIOS
        have hbuf : (fun i : Fin 128 => (saved m).cpu.ram (CCP + 128 * k + i)) =
            fun i : Fin 128 => p.areaUpTo fl k (128 * k + i) := by
          funext i
          have hi := i.isLt
          rw [← harea _ (by omega), ← Nat.add_assoc]
        obtain ⟨i, rfl⟩ : ∃ i, j = 128 * k + i := ⟨j - 128 * k, by omega⟩
        have hi : i < 128 := by omega
        rw [if_neg hgood, if_neg hgood, ← Nat.add_assoc, store_add _ _ _ hi, hbuf,
          Pass.restart_area_add _ _ hi, Pass.length_logUpTo]
    · rw [store_of_ne _ _ (by omega), harea j hj]
      by_cases hgood : p.statusAt fl k = 0
      · rw [if_pos hgood, Pass.areaUpTo, Pass.areaUpTo]
        by_cases hlt : j < 128 * k
        · rw [if_pos hlt, if_pos (by omega)]
        · rw [if_neg hlt, if_neg (by omega)]
      · rw [if_neg hgood, Pass.restart_area_of_ne _ _ (by omega)]

/-- **`LOAD1` without an error** has read one more sector.

**Proof sketch.** `LOAD1` is a read (`load1_of_read`) whose status is 0. The sector is stored, and
the registers move on to the next one; the count decides whether the CP/M is entered or one more
sector is read. -/
lemma Loading.load1_good (h : Loading fl p k (k + 1) m) (hk : k < p.sectors)
    (hp : p.Sized) (hst : p.statusAt fl k = 0) :
    ∃ m', load1 fl.drive m = .ok () m' ∧ Loading fl p (k + 1) (k + 1) m' ∧
      m'.pc = if k + 1 = p.sectors then .gocpm else .more := by
  have hmax : p.sectors ≤ 45 := hp.2
  have hccp : CCP = 0xe400 := rfl
  have hplace := h.place
  have hsec := h.sector
  have hleft := h.left
  have haddr := h.addr
  have hlow := h.low
  obtain ⟨s, hread, hcur, hlog, hfdct, hkeep, harea⟩ := h.read
  have hrun := load1_of_read h.stack (by omega) h.low hread
  rw [hst, if_neg (by simp), UInt8.toNat_zero,
    loaded_saved h.stack (by omega) h.low (by omega) (by omega) (by omega) hkeep] at hrun
  have hb : (m.b + 255) % 256 = p.sectors - (k + 1) := by omega
  have hlast : p.sectors - (k + 1) = 0 ↔ k + 1 = p.sectors := by omega
  simp only [hb, hlast] at hrun
  simp only [if_pos hst] at harea
  refine ⟨_, hrun, ⟨hcur, ?_, harea, fun i hi => ?_, hfdct, hplace, hsec, rfl, ?_, ?_,
    h.stack⟩, rfl⟩
  · rw [Pass.logUpTo_succ, ← hst]
    exact hlog
  · rcases Nat.lt_succ_iff_lt_or_eq.mp hi with hi | rfl
    · exact h.good i hi
    · exact hst
  · dsimp only
    omega
  · dsimp only
    omega

/-- **`LOAD1` with an error** goes to `_WBOOT`. -/
lemma Loading.load1_bad (h : Loading fl p k (k + 1) m) (hk : k < p.sectors)
    (hp : p.Sized) (hst : p.statusAt fl k ≠ 0) :
    ∃ m', load1 fl.drive m = .ok () m' ∧ Begins (p.restart fl k) m' ∧ m'.pc = .wboot := by
  have hmax : p.sectors ≤ 45 := hp.2
  have hccp : CCP = 0xe400 := rfl
  have haddr := h.addr
  have hlow := h.low
  obtain ⟨s, hread, -, hlog, -, -, harea⟩ := h.read
  have hrun := load1_of_read h.stack (by omega) h.low hread
  have hne : (p.statusAt fl k).toNat ≠ 0 := fun h0 => hst (UInt8.toNat_inj.mp h0)
  rw [if_pos hne] at hrun
  simp only [if_neg hst] at harea
  exact ⟨_, hrun, ⟨hlog, harea⟩, rfl⟩

/-- **The end of the loop** moves on to the next sector. -/
lemma Loading.more (h : Loading fl p k k m) (hk : k < p.sectors) (hp : p.Sized) :
    ∃ m', Boot.more fl.drive m = .ok () m' ∧ Loading fl p k (k + 1) m' ∧ m'.pc = .load1 := by
  have hmax : p.sectors ≤ 45 := hp.2
  have hplace := h.place
  obtain ⟨m', hrun, hcpu, hplace', hsec', hb, hh, hl, hsp, hpc⟩ :=
    more_apply fl.drive h.track h.sector (by omega)
  refine ⟨m', hrun, ?_, hpc⟩
  constructor
  case current => rw [hcpu, h.current]
  case log => rw [hcpu, h.log]
  case area =>
    rw [hcpu]
    exact h.area
  case good => exact h.good
  case track => rw [hcpu]
  case place => omega
  case sector => exact hsec'
  case left => rw [hb, h.left]
  case addr => rw [hh, hl, h.addr]
  case low =>
    rw [hl]
    exact h.low
  case stack => rw [hsp, h.stack]

/-- A drive that is deselected keeps its log. -/
lemma deselected_drive (fl : Floppy) {s : Cpu (List ReadCall)} {log : List ReadCall}
    (hlog : s.diskptr 0 = some log) :
    (deselected fl.drive s).diskptr 0 = some log ∧ (deselected fl.drive s).ram = s.ram := by
  unfold deselected
  cases hobj : s.object s.currentdrive with
  | none => exact ⟨hlog, rfl⟩
  | some d =>
    refine ⟨?_, rfl⟩
    by_cases h0 : s.currentdrive = 0
    · rw [h0, Cpu.object, if_pos (by decide), hlog] at hobj
      simp [setObject, h0, ← hobj, Floppy.drive]
    · simp [setObject, Ne.symm h0, hlog]

/-- **`selectdisk` of drive A**, whichever drive was selected.

**Proof sketch.** If another drive was current, it is deselected, which leaves the object of drive
A, and this object is selected. -/
lemma selectdisk_drive (fl : Floppy) (g : Geometry) {s : Cpu (List ReadCall)}
    {log : List ReadCall} (hlog : s.diskptr 0 = some log) :
    ∃ s', selectdisk fl.drive 0 g s = .ok 0 s' ∧ s'.currentdrive = 0 ∧ s'.diskptr 0 = some log ∧
      s'.ram = s.ram := by
  rw [selectdisk, if_pos (by decide), Exc.get_bind]
  by_cases hcur : 0 ≠ s.currentdrive
  · obtain ⟨hd, hram⟩ := deselected_drive fl hlog
    have hins : insertDisk fl.drive 0 .dir g (deselected fl.drive s) =
        .ok (some log) (deselected fl.drive s) := by
      unfold insertDisk
      rw [Exc.get_bind]
      simp only [hd]
      rfl
    have hmod : (modify (deselected fl.drive) : EStateM Fault (Cpu (List ReadCall)) Unit) s =
        .ok () (deselected fl.drive s) := rfl
    have hstat : fl.drive.stat 0 = some .dir := rfl
    rw [if_pos hcur, Exc.bind_of_ok hmod]
    simp only [hstat]
    rw [Exc.bind_of_ok hins]
    refine ⟨_, rfl, rfl, ?_, hram⟩
    simp [setObject]
  · rw [if_neg hcur]
    exact ⟨s, rfl, (not_not.mp hcur).symm, hlog, rfl⟩

/-- **`_SELDSK` of drive A**. -/
lemma seldsk_drive (fl : Floppy) {s : Cpu (List ReadCall)} {log : List ReadCall}
    (hlog : s.diskptr 0 = some log) :
    ∃ ans s', seldsk fl.drive 0 s = .ok ans s' ∧ s'.currentdrive = 0 ∧
      s'.diskptr 0 = some log ∧ s'.ram = s.ram := by
  choose sel hsel using fun (g : Geometry) (t : Cpu (List ReadCall))
    (ht : t.diskptr 0 = some log) => selectdisk_drive fl g ht
  rw [seldsk, if_pos (by decide), calcdb, Exc.bind_of_ok (out_dpbl ..),
    Exc.bind_of_ok (out_dpbh ..), Exc.bind_of_ok (out_fdcd (hsel _ _ (by exact hlog)).1)]
  exact ⟨_, _, rfl, (hsel _ _ _).2⟩

/-- **`BOOTOS`** starts a pass. -/
lemma Begins.bootos (h : Begins p m) (fl : Floppy) (hb : m.b = p.sectors) (hsp : m.sp = 0x80) :
    ∃ m', Boot.bootos fl.drive m = .ok () m' ∧ Loading fl p 0 1 m' ∧ m'.pc = .load1 := by
  obtain ⟨ans, s, hsel, hcur, hlog, hram⟩ := seldsk_drive fl h.log
  rw [Boot.bootos, Exc.bind_of_ok (onCpu_of_ok hsel), home,
    Exc.bind_of_ok (onCpu_of_ok (settrk_apply ..))]
  have hsec : 1 ≤ 2 ∧ 2 ≤ 26 := by decide
  have hlow : CCP % 256 < 256 := by decide
  refine ⟨_, rfl, ⟨hcur, ?_, fun j hj => ?_, fun i hi => absurd hi (by omega), rfl, rfl, hsec, hb,
    rfl, hlow, hsp⟩, rfl⟩
  · rw [Pass.logUpTo, List.range_zero, List.map_nil, List.append_nil]
    exact hlog
  · rw [Pass.areaUpTo, if_neg (by omega), ← h.area j hj, ← hram]

/-- `_WBOOT` sets up a pass of 17 sectors. -/
lemma Begins.wboot (h : Begins p m) : Begins p { m with sp := 0x80, b := WSECTS, pc := .bootos } :=
  ⟨h.log, h.area⟩

/-- A key press does not change what a pass begins with. -/
lemma Begins.keyPressed (h : Begins p m) : Begins p (keyPressed m) := by
  have hlog : (Boot.keyPressed m).cpu.diskptr = m.cpu.diskptr := by
    simp [Boot.keyPressed, Machine.poke]
  have hccp : CCP = 0xe400 := rfl
  refine ⟨by rw [hlog, h.log], fun j hj => ?_⟩
  rw [ram_keyPressed (by omega), h.area j hj]

/-! ## The machine follows the passes -/

/-- **Where the machine is in a pass**, by the label it has reached. In front of the loop nothing
was read in this pass; in the loop the sectors before the current one were read without an error. -/
def InPass (fl : Floppy) (p : Pass) (m : Loader) : Prop :=
  match m.pc with
  | .boot => p.sectors = CSECTS ∧ Begins p m
  | .conin => p.sectors = CSECTS ∧ m.sp = 0x80 ∧ Begins p m
  | .wboot => p.sectors = WSECTS ∧ Begins p m
  | .bootos => m.b = p.sectors ∧ m.sp = 0x80 ∧ Begins p m
  | .load1 => ∃ k < p.sectors, Loading fl p k (k + 1) m
  | .more => ∃ k < p.sectors, Loading fl p k k m
  | .gocpm => Loading fl p p.sectors p.sectors m
  | _ => False

/-- **One step** stays in the pass or begins the next one.

**Proof sketch.** One case for each label. Only an error in `LOAD1` begins a pass, the one after an
error in the sector that is read. -/
lemma InPass.step (key : ℕ → Bool) (h : InPass fl p m) (hp : p.Sized) :
    ∃ m', Boot.step fl.drive key m = .ok () m' ∧
      ∃ p', Relation.ReflTransGen (Restarts fl) p p' ∧ InPass fl p' m' := by
  unfold InPass at h
  cases hpc : m.pc <;> simp only [hpc] at h <;> rw [Boot.step, hpc]
  case boot => exact ⟨_, rfl, p, .refl, h.1, rfl, h.2.log, h.2.area⟩
  case conin =>
    obtain ⟨hs, hsp, hb⟩ := h
    refine ⟨_, rfl, p, .refl, ?_⟩
    dsimp only
    by_cases hkey : key m.polls = true
    · rw [if_pos hkey]
      exact ⟨hs.symm, hsp, hb.keyPressed⟩
    · rw [if_neg hkey]
      simp only [InPass, hpc]
      exact ⟨hs, hsp, hb.log, hb.area⟩
  case wboot => exact ⟨_, rfl, p, .refl, h.1.symm, rfl, h.2.wboot⟩
  case bootos =>
    obtain ⟨hs, hsp, hb⟩ := h
    obtain ⟨m', hrun, hload, hpc'⟩ := hb.bootos fl hs hsp
    refine ⟨m', hrun, p, .refl, ?_⟩
    simp only [InPass, hpc']
    exact ⟨0, hp.pos, hload⟩
  case load1 =>
    obtain ⟨k, hk, hload⟩ := h
    by_cases hst : p.statusAt fl k = 0
    · obtain ⟨m', hrun, hload', hpc'⟩ := hload.load1_good hk hp hst
      refine ⟨m', hrun, p, .refl, ?_⟩
      by_cases hlast : k + 1 = p.sectors
      · rw [if_pos hlast] at hpc'
        simp only [InPass, hpc', ← hlast]
        exact hload'
      · rw [if_neg hlast] at hpc'
        simp only [InPass, hpc']
        exact ⟨k + 1, by omega, hload'⟩
    · -- the error exit goes to `_WBOOT` whichever entry the pass came from
      obtain ⟨m', hrun, hb, hpc'⟩ := hload.load1_bad hk hp hst
      refine ⟨m', hrun, p.restart fl k, .single ⟨k, hk, hload.good, hst, rfl⟩, ?_⟩
      simp only [InPass, hpc']
      exact ⟨rfl, hb⟩
  case more =>
    obtain ⟨k, hk, hload⟩ := h
    obtain ⟨m', hrun, hload', hpc'⟩ := hload.more hk hp
    refine ⟨m', hrun, p, .refl, ?_⟩
    simp only [InPass, hpc']
    exact ⟨k, hk, hload'⟩
  case gocpm =>
    refine ⟨m, rfl, p, .refl, ?_⟩
    simp only [InPass, hpc]
    exact h

/-- **The machine follows the passes**: after any number of steps it is in one that follows the
first one.

**Proof sketch.** Induction on the steps. -/
lemma steps_follows (key : ℕ → Bool) (hp : p₀.Sized) {n : ℕ} :
    ∀ {m : Loader} {p : Pass}, Relation.ReflTransGen (Restarts fl) p₀ p → InPass fl p m →
      ∃ m', steps fl.drive key n m = .ok () m' ∧
        ∃ p', Relation.ReflTransGen (Restarts fl) p₀ p' ∧ InPass fl p' m' := by
  induction n with
  | zero => exact fun hr h => ⟨_, rfl, _, hr, h⟩
  | succ n ih =>
    intro m p hr h
    obtain ⟨m₁, hstep, p₁, hr₁, h₁⟩ := h.step key (Restarts.sized hr hp)
    rw [steps, Exc.bind_of_ok hstep]
    exact ih (hr.trans hr₁) h₁

/-- **The end of a pass**: the loader gets to `GOCPM`, or to `_WBOOT` after an error.

**Proof sketch.** Induction on the number of sectors left. -/
lemma Loading.ends (key : ℕ → Bool) (hp : p.Sized) {n : ℕ} :
    ∀ {k : ℕ} {m : Loader}, k + (n + 1) = p.sectors → m.pc = .load1 → Loading fl p k (k + 1) m →
      ∃ i m', steps fl.drive key i m = .ok () m' ∧
        (m'.pc = .gocpm ∨ ∃ k < p.sectors, p.statusAt fl k ≠ 0 ∧ m'.pc = .wboot ∧
          Begins (p.restart fl k) m') := by
  induction n with
  | zero =>
    intro k m hk hpc h
    by_cases hst : p.statusAt fl k = 0
    · obtain ⟨m', hrun, -, hpc'⟩ := h.load1_good (by omega) hp hst
      exact ⟨1, m', steps_one hpc hrun, .inl (by rw [hpc', if_pos (by omega)])⟩
    · obtain ⟨m', hrun, hb, hpc'⟩ := h.load1_bad (by omega) hp hst
      exact ⟨1, m', steps_one hpc hrun, .inr ⟨k, by omega, hst, hpc', hb⟩⟩
  | succ n ih =>
    intro k m hk hpc h
    by_cases hst : p.statusAt fl k = 0
    · obtain ⟨m₁, hrun₁, h₁, hpc₁⟩ := h.load1_good (by omega) hp hst
      rw [if_neg (by omega)] at hpc₁
      obtain ⟨m₂, hrun₂, h₂, hpc₂⟩ := h₁.more (by omega) hp
      obtain ⟨i, m', hsteps, hend⟩ := ih (by omega) hpc₂ h₂
      exact ⟨1 + (1 + i), m', steps_add (steps_one hpc hrun₁)
        (steps_add (steps_one hpc₁ hrun₂) hsteps), hend⟩
    · obtain ⟨m', hrun, hb, hpc'⟩ := h.load1_bad (by omega) hp hst
      exact ⟨1, m', steps_one hpc hrun, .inr ⟨k, by omega, hst, hpc', hb⟩⟩

/-- **Finitely many errors do not keep the loader from `GOCPM`**: it gets there from `BOOTOS` if no
`READ` from the `last`-th on fails.

**Proof sketch.** Induction on the number of `READ` calls that may still fail. A pass that ends with
an error has made at least one of them. -/
lemma Begins.reaches (key : ℕ → Bool) {last : ℕ} (hlast : ∀ i, last ≤ i → fl.status i = 0)
    (hp : p.Sized) (hpc : m.pc = .bootos) (hb : m.b = p.sectors) (hsp : m.sp = 0x80)
    (h : Begins p m) : ∃ i m', steps fl.drive key i m = .ok () m' ∧ m'.pc = .gocpm := by
  induction hn : last - p.log.length using Nat.strong_induction_on generalizing p m with
  | _ n ih =>
    subst hn
    have hpos := hp.pos
    obtain ⟨m₁, hrun₁, h₁, hpc₁⟩ := h.bootos fl hb hsp
    obtain ⟨i, m₂, hsteps, hend⟩ := h₁.ends key hp (n := p.sectors - 1) (by omega) hpc₁
    rcases hend with hend | ⟨k, hk, hst, hpc₂, hb₂⟩
    · exact ⟨1 + i, m₂, steps_add (steps_one hpc hrun₁) hsteps, hend⟩
    · have hlt : p.log.length + k < last := by
        by_contra hge
        exact hst (hlast _ (by omega))
      have hfewer : last - (p.restart fl k).log.length < last - p.log.length := by
        simp only [Pass.restart, List.length_append, Pass.length_logUpTo, List.length_singleton]
        omega
      obtain ⟨i', m', hsteps', hend'⟩ :=
        ih _ hfewer (p.sized_restart fl k) rfl rfl rfl hb₂.wboot rfl
      exact ⟨1 + i + (1 + i'), m', steps_add (steps_add (steps_one hpc hrun₁) hsteps)
        (steps_add (steps_one hpc₂ rfl) hsteps'), hend'⟩

/-! ## What `GOCPM` starts -/

/-- The two entries of the BIOS. -/
inductive Entry
  /-- `_BOOT` -/
  | cold
  /-- `_WBOOT` -/
  | warm

namespace Entry

/-- The label of an entry. -/
def label : Entry → Label
  | cold => .boot
  | warm => .wboot

/-- The number of sectors that an entry sets up. -/
def sectors : Entry → ℕ
  | cold => CSECTS
  | warm => WSECTS

/-- **The system is whole**: from the CCP up to the BIOS the memory is the image. After a warm start
the CCP is the one of the image, and the BDOS is as it was. -/
def Whole (fl : Floppy) (m m' : Loader) : Entry → Prop
  | cold => ∀ j < BIOS - CCP, m'.cpu.ram (CCP + j) = fl.image j
  | warm => (∀ j < BDOS - CCP, m'.cpu.ram (CCP + j) = fl.image j) ∧
      ∀ j, BDOS - CCP ≤ j → j < BIOS - CCP → m'.cpu.ram (CCP + j) = m.cpu.ram (CCP + j)

end Entry

/-- **The machine enters the BIOS** with a log of drive A. The last sector of the CCP has the first
bytes of the BDOS; in an intact BDOS they are those of the image. -/
structure Enters (e : Entry) (fl : Floppy) (log : List ReadCall) (m : Loader) : Prop where
  pc : m.pc = e.label
  log : m.cpu.diskptr 0 = some log
  bdos : e = .warm → ∀ j, BDOS - CCP ≤ j → j < 128 * WSECTS → m.cpu.ram (CCP + j) = fl.image j

/-- **`GOCPM` starts the whole system**, and since the last restart the sectors were read one after
the other, each once. -/
structure Starts (e : Entry) (fl : Floppy) (log : List ReadCall) (m m' : Loader) : Prop where
  whole : e.Whole fl m m'
  inOrder : ∃ log' n, m'.cpu.diskptr 0 = some (log ++ log') ∧ WSECTS ≤ n ∧
    (sinceRestart log').map ReadCall.abs = List.range' 1 n

/-- **Nothing is missing after the first error of a cold start**: from the sector of that error on,
and behind the sectors of the warm start, the memory already holds the image up to the BIOS. -/
def NothingMissing (e : Entry) (fl : Floppy) (log : List ReadCall) (m : Loader) : Prop :=
  e = .cold → ∀ f < CSECTS, (∀ i < f, fl.status (log.length + i) = 0) →
    fl.status (log.length + f) ≠ 0 → ∀ j, 128 * WSECTS ≤ j → 128 * f ≤ j → j < BIOS - CCP →
      store m.cpu.ram (CCP + 128 * f)
        (fl.spoilt (log.length + f) (m.cpu.buffer (CCP + 128 * f))) (CCP + j) = fl.image j

variable {e : Entry} {log : List ReadCall} {n : ℕ}

/-- The pass that an entry begins. -/
def firstPass (e : Entry) (log : List ReadCall) (m : Loader) : Pass :=
  ⟨e.sectors, fun j => m.cpu.ram (CCP + j), log⟩

/-- The first pass has its size. -/
lemma sized_firstPass (e : Entry) (log : List ReadCall) (m : Loader) :
    (firstPass e log m).Sized := by
  cases e with
  | cold =>
    change WSECTS ≤ CSECTS ∧ CSECTS ≤ CSECTS
    decide
  | warm =>
    change WSECTS ≤ WSECTS ∧ WSECTS ≤ CSECTS
    decide

/-- A machine that enters the BIOS begins the first pass. -/
lemma Enters.inPass (h : Enters e fl log m) : InPass fl (firstPass e log m) m := by
  have hb : Begins (firstPass e log m) m := ⟨h.log, fun _ _ => rfl⟩
  cases e with
  | cold =>
    simp only [InPass, h.pc, Entry.label]
    exact ⟨rfl, hb⟩
  | warm =>
    simp only [InPass, h.pc, Entry.label]
    exact ⟨rfl, hb⟩

/-- **At `GOCPM`** the machine has read all sectors of a pass that follows the first one. -/
lemma Enters.gocpm (h : Enters e fl log m) (hrun : steps fl.drive key n m = .ok () m')
    (hpc : m'.pc = .gocpm) :
    ∃ p, Relation.ReflTransGen (Restarts fl) (firstPass e log m) p ∧
      Loading fl p p.sectors p.sectors m' := by
  obtain ⟨m₁, hrun₁, p, hr, hin⟩ := steps_follows key (sized_firstPass e log m) .refl h.inPass
  rw [hrun] at hrun₁
  cases hrun₁
  simp only [InPass, hpc] at hin
  exact ⟨p, hr, hin⟩

/-- **Finitely many errors do not keep the machine from `GOCPM`**, once a key is pressed.

**Proof sketch.** From each entry the loader begins a pass: the warm start at once, and the cold
start when the key is there (`conin_steps`). Then `Begins.reaches` applies. -/
lemma Enters.reaches (h : Enters e fl log m) (key : ℕ → Bool) {last : ℕ}
    (hlast : ∀ i, last ≤ i → fl.status i = 0)
    (hkey : e = .cold → ∃ i, key (m.polls + i) = true) :
    ∃ n m', steps fl.drive key n m = .ok () m' ∧ m'.pc = .gocpm := by
  have hp := sized_firstPass e log m
  have hb : Begins (firstPass e log m) m := ⟨h.log, fun _ _ => rfl⟩
  cases e with
  | cold =>
    obtain ⟨i, hi⟩ := hkey rfl
    obtain ⟨m₁, hm₁⟩ : ∃ x : Loader,
        x = { m.print (0x0c :: signon) with sp := TBUFF, pc := .conin } := ⟨_, rfl⟩
    have hstart : steps fl.drive key 1 m = .ok () m₁ := steps_one h.pc (by rw [hm₁]; rfl)
    obtain ⟨i₂, m₂, polls, hwait, hm₂⟩ := conin_steps fl.drive (m := m₁) (n := i)
      (by rw [hm₁]) (by rw [hm₁]; exact hi)
    have hb₂ : Begins (firstPass .cold log m) m₂ := by
      rw [hm₂, hm₁]
      exact ⟨hb.log, hb.area⟩
    have hsp₂ : (keyPressed m₂).sp = 0x80 := by
      rw [hm₂, hm₁]
      rfl
    obtain ⟨n, m', hsteps, hpc'⟩ := hb₂.keyPressed.reaches key hlast hp rfl rfl hsp₂
    exact ⟨1 + (i₂ + n), m', steps_add hstart (steps_add hwait hsteps), hpc'⟩
  | warm =>
    obtain ⟨n, m', hsteps, hpc'⟩ := hb.wboot.reaches key hlast hp rfl rfl rfl
    exact ⟨1 + n, m', steps_add (steps_one h.pc rfl) hsteps, hpc'⟩

/-- The memory at `GOCPM` after warm starts only: 17 sectors of the image, and behind them what was
there. -/
lemma area_of_warm {q : Pass} (hr : Relation.ReflTransGen (Restarts fl) q p)
    (hq : q.sectors = WSECTS) (hload : Loading fl p p.sectors p.sectors m') {j : ℕ}
    (hj : j < BIOS - CCP) :
    m'.cpu.ram (CCP + j) = if j < 128 * WSECTS then fl.image j else q.area j := by
  obtain ⟨hs, hkeep⟩ := Restarts.keeps hr hq
  rw [hload.area j hj, Pass.areaUpTo, hs]
  by_cases hlt : j < 128 * WSECTS
  · rw [if_pos hlt, if_pos hlt]
  · rw [if_neg hlt, if_neg hlt, hkeep j (by omega)]

/-- **A warm start** reloads the CCP and leaves the BDOS as it was. -/
lemma Enters.whole_warm (h : Enters .warm fl log m)
    (hr : Relation.ReflTransGen (Restarts fl) (firstPass .warm log m) p)
    (hload : Loading fl p p.sectors p.sectors m') : Entry.warm.Whole fl m m' := by
  have hw : 128 * WSECTS = 0x880 := rfl
  have hbdos : BDOS - CCP = 0x806 := rfl
  have hbios : BIOS - CCP = 0x1600 := rfl
  refine ⟨fun j hj => ?_, fun j hge hj => ?_⟩
  · rw [area_of_warm hr rfl hload (by omega), if_pos (by omega)]
  · rw [area_of_warm hr rfl hload hj]
    by_cases hlt : j < 128 * WSECTS
    · rw [if_pos hlt, h.bdos rfl j hge hlt]
    · rw [if_neg hlt]
      rfl

/-- The memory after the first error of a cold start, behind the sectors that were read. -/
lemma area_restart_firstPass (fl : Floppy) (e : Entry) (log : List ReadCall) (m : Loader)
    {f j : ℕ} (hj : 128 * f ≤ j) :
    ((firstPass e log m).restart fl f).area j = store m.cpu.ram (CCP + 128 * f)
      (fl.spoilt (log.length + f) (m.cpu.buffer (CCP + 128 * f))) (CCP + j) := by
  have hup : ∀ i, 128 * f ≤ i →
      (firstPass e log m).areaUpTo fl f i = m.cpu.ram (CCP + i) := fun i hi => by
    rw [Pass.areaUpTo, if_neg (by omega)]
    rfl
  by_cases hin : j < 128 * f + 128
  · obtain ⟨i, rfl⟩ : ∃ i, j = 128 * f + i := ⟨j - 128 * f, by omega⟩
    have hbuf : (fun i : Fin 128 => (firstPass e log m).areaUpTo fl f (128 * f + i)) =
        m.cpu.buffer (CCP + 128 * f) := by
      funext i
      rw [hup _ (by omega), ← Nat.add_assoc]
      rfl
    rw [Pass.restart_area_add _ _ (by omega), ← Nat.add_assoc, store_add _ _ _ (by omega), hbuf]
    rfl
  · rw [Pass.restart_area_of_ne _ _ (by omega), hup j hj, store_of_ne _ _ (by omega)]

/-- **A cold start** loads the whole system exactly if nothing is missing after its first error.

**Proof sketch.** If there is no error, the pass at the end is the first one, of 45 sectors.
Otherwise it is a warm start, which has left the memory behind its 17 sectors as the first error
left it. -/
lemma Enters.whole_cold_iff (hr : Relation.ReflTransGen (Restarts fl) (firstPass .cold log m) p)
    (hload : Loading fl p p.sectors p.sectors m') :
    Entry.cold.Whole fl m m' ↔ NothingMissing .cold fl log m := by
  have hw : 128 * WSECTS = 0x880 := rfl
  have hc : 128 * CSECTS = 0x1680 := rfl
  have hbios : BIOS - CCP = 0x1600 := rfl
  rcases Relation.ReflTransGen.cases_head hr with rfl | ⟨q, ⟨f, hf, hgood, hst, rfl⟩, hr'⟩
  · refine iff_of_true (fun j hj => ?_) fun _ f hf _ hst => ?_
    · have hs : (firstPass .cold log m).sectors = CSECTS := rfl
      rw [hload.area j hj, Pass.areaUpTo, hs, if_pos (by omega)]
    · exact absurd (hload.good f hf) hst
  · constructor
    · intro hwhole _ f' hf' hgood' hst' j hjw hjf hj
      -- the pattern has one first error
      obtain rfl : f' = f := by
        rcases Nat.lt_trichotomy f' f with hlt | heq | hlt
        · exact absurd (hgood f' hlt) hst'
        · exact heq
        · exact absurd (hgood' f hlt) hst
      rw [← area_restart_firstPass fl .cold log m hjf, ← hwhole j hj,
        area_of_warm hr' rfl hload hj, if_neg (by omega)]
    · intro hmiss j hj
      rw [area_of_warm hr' rfl hload hj]
      by_cases hlt : j < 128 * WSECTS
      · rw [if_pos hlt]
      · rw [if_neg hlt]
        by_cases hjf : 128 * f ≤ j
        · rw [area_restart_firstPass fl .cold log m hjf]
          exact hmiss rfl f hf hgood hst j (by omega) hjf hj
        · -- the sectors before the error have been read
          rw [Pass.restart_area_of_ne _ _ (by omega), Pass.areaUpTo, if_pos (by omega)]

/-- The system at `GOCPM` is whole exactly if nothing is missing. -/
lemma Enters.whole_iff (h : Enters e fl log m)
    (hr : Relation.ReflTransGen (Restarts fl) (firstPass e log m) p)
    (hload : Loading fl p p.sectors p.sectors m') :
    e.Whole fl m m' ↔ NothingMissing e fl log m := by
  cases e with
  | cold => exact Enters.whole_cold_iff hr hload
  | warm => exact iff_of_true (h.whole_warm hr hload) fun he => by cases he

/-- **What `GOCPM` starts.** For every system image, every pattern of read errors and both entries:
whenever the machine reaches `GOCPM`, it starts the whole system, with the sectors read in order
since the last restart, exactly if nothing is missing after the first error. -/
theorem starts_iff (h : Enters e fl log m) (hrun : steps fl.drive key n m = .ok () m')
    (hpc : m'.pc = .gocpm) : Starts e fl log m m' ↔ NothingMissing e fl log m := by
  obtain ⟨p, hr, hload⟩ := h.gocpm hrun hpc
  obtain ⟨log', hlog, horder⟩ := Restarts.inOrder hr p.sectors
  have hsize := Restarts.sized hr (sized_firstPass e log m)
  rw [← h.whole_iff hr hload]
  refine ⟨fun hs => hs.whole, fun hwhole => ⟨hwhole, log', p.sectors, ?_, hsize.1, horder⟩⟩
  rw [hload.log, hlog]
  rfl

/-- The small image has boot sector, CCP and BDOS. -/
lemma smallImage_complete : bootSize + ccpSize + bdosSize ≤ smallImage.length := by
  simp only [smallImage, List.length_append, List.length_replicate, bootSize, ccpSize, bdosSize]
  omega

/-- A disk with this image, whose `n`-th `READ` fails and leaves the buffer alone. -/
def oneError (n : ℕ) : Floppy where
  content := smallImage
  status i := if i = n then 1 else 0
  spoilt _ buf := buf
  complete := smallImage_complete

/-- There are no errors after the one. -/
lemma oneError_status {n i : ℕ} (h : n + 1 ≤ i) : (oneError n).status i = 0 :=
  if_neg (by omega)

/-- A machine at a label, with this memory and drive A selected. -/
def loaderAt (l : Label) (ram : ℕ → UInt8) : Loader where
  pc := l
  a := 0
  b := 0
  c := 0
  d := 0
  e := 0
  h := 0
  l := 0
  sp := 0
  cpu := { ram := ram, fdcd := 0, fdct := 0, fdcs := 0, fdcop := 0, fdcst := 0, dma := 0, dph := 0
           currentdrive := 0, diskptr := fun _ => some [], accesses := [] }
  screen := []
  polls := 0

/-- A warm start over a memory that holds the image. -/
lemma enters_warm (fl : Floppy) :
    Enters .warm fl [] (loaderAt .wboot fun a => fl.image (a - CCP)) := by
  refine ⟨rfl, rfl, fun _ j _ _ => ?_⟩
  change fl.image (CCP + j - CCP) = fl.image j
  rw [Nat.add_sub_cancel_left]

/-- A warm start with an error in its fourth sector. -/
theorem starts_warm : ∃ n m',
    steps (oneError 3).drive (fun _ => false) n
      (loaderAt .wboot fun a => (oneError 3).image (a - CCP)) = .ok () m' ∧ m'.pc = .gocpm ∧
    Starts .warm (oneError 3) [] (loaderAt .wboot fun a => (oneError 3).image (a - CCP)) m' := by
  have h := enters_warm (oneError 3)
  obtain ⟨n, m', hrun, hpc⟩ :=
    h.reaches (fun _ => false) (fun _ => oneError_status) fun he => by cases he
  exact ⟨n, m', hrun, hpc, (starts_iff h hrun hpc).mpr fun he => by cases he⟩

/-- A byte of the BDOS in the small image. -/
lemma oneError_image (n : ℕ) : (oneError n).image 0x1000 = 2 := by
  simp only [Floppy.image, oneError, smallImage, bootSize, List.getD_eq_getElem?_getD]
  rw [List.getElem?_append_left, List.getElem?_append_right, List.getElem?_replicate_of_lt,
    Option.getD_some]
  all_goals
    simp only [List.length_append, List.length_replicate]
    omega

/-- A cold start whose first `READ` fails: `GOCPM` starts a system without its BDOS. -/
theorem not_starts_cold : ∃ n m',
    steps (oneError 0).drive (fun _ => true) n (loaderAt .boot fun _ => 0) = .ok () m' ∧
      m'.pc = .gocpm ∧ ¬ Starts .cold (oneError 0) [] (loaderAt .boot fun _ => 0) m' := by
  have h : Enters .cold (oneError 0) [] (loaderAt .boot fun _ => 0) :=
    ⟨rfl, rfl, fun he => by cases he⟩
  obtain ⟨n, m', hrun, hpc⟩ :=
    h.reaches (fun _ => true) (fun _ => oneError_status) fun _ => ⟨0, rfl⟩
  refine ⟨n, m', hrun, hpc, fun hs => ?_⟩
  obtain ⟨p, hr, hload⟩ := h.gocpm hrun hpc
  have hmiss := (h.whole_iff hr hload).mp hs.whole rfl 0 (by decide) (fun i hi => by omega)
    (by decide) 0x1000 (by decide) (by decide) (by decide)
  rw [store_of_ne _ _ (by omega), oneError_image] at hmiss
  exact absurd hmiss (by decide)

end Cpm22.Boot
