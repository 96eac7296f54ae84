import Mathlib.Tactic.FinCases
import Mathlib.Data.Fin.VecNotation
import Cpm22.Disk.Coherence

set_option relaxedAutoImplicit false
set_option autoImplicit false

/-!
# Directory sectors read back

A directory sector is decoded into four entries when it is written and encoded again when it is
read. In between each entry is compared with the one that was there, and an entry that compares
equal is not assigned. `operator==` compares names as C strings, so two entries may compare equal
and differ behind a NUL byte; these are the sectors that do not read back.

## Main definitions

* `Cpm22.Disk.dirSector` — the sector with four given entries.
* `Cpm22.Disk.kept` — the entry that a slot has after a write.
* `Cpm22.Disk.ReadsBack` — a directory sector reads back as written, the others as before.

## Main results

* `Cpm22.CpmDir.ofBytes_toBytes`, `Cpm22.CpmDir.toBytes_ofBytes` — the codec loses nothing.
* `Cpm22.Disk.readDir_eq` — what a directory sector reads as.
* `Cpm22.Disk.readsBack_iff` — which directory sectors read back.
-/

namespace Cpm22

open HostPath HostFs

namespace CpmDir

/-! ## The codec -/

/-- **Decoding inverts encoding.** -/
lemma ofBytes_toBytes (e : CpmDir) : ofBytes e.toBytes = e := by
  refine CpmDir.ext rfl (funext fun i => ?_) (funext fun i => ?_) rfl rfl rfl rfl
    (funext fun i => ?_) <;> fin_cases i <;> rfl

/-- **Encoding inverts decoding.** -/
lemma toBytes_ofBytes (b : Fin 32 → UInt8) : (ofBytes b).toBytes = b := by
  funext i
  fin_cases i <;> rfl

/-- A string compares equal to itself. -/
lemma strncmpEq_refl (l : List UInt8) : strncmpEq l l = true := by
  induction l with
  | nil => rfl
  | cons a l ih => simp [strncmpEq, ih]

/-- An entry compares equal to itself. -/
lemma eq_refl (e : CpmDir) : e.eq e = true := by
  simp [CpmDir.eq, strncmpEq_refl]

end CpmDir

namespace Disk

/-! ## Sectors of four entries -/

/-- **The sector with four given entries.** -/
def dirSector (es : Fin 4 → CpmDir) : Sector := fun i =>
  (es ⟨i.val / 32, row_lt i⟩).toBytes ⟨i.val % 32, column_lt i⟩

/-- The entries of the sector are the given ones. -/
@[simp]
lemma entryOf_dirSector (es : Fin 4 → CpmDir) (idx : Fin 4) :
    entryOf (dirSector es) idx = es idx := by
  rw [entryOf]
  refine Eq.trans (congrArg CpmDir.ofBytes ?_) (CpmDir.ofBytes_toBytes (es idx))
  funext i
  have h1 : (⟨(idx.val * 32 + i.val) / 32, by omega⟩ : Fin 4) = idx :=
    Fin.ext (show (idx.val * 32 + i.val) / 32 = idx.val by omega)
  have h2 : (⟨(idx.val * 32 + i.val) % 32, Nat.mod_lt _ (by omega)⟩ : Fin 32) = i :=
    Fin.ext (show (idx.val * 32 + i.val) % 32 = i.val by omega)
  simp only [dirSector, h1, h2]

/-- A sector is the one with its own entries. -/
lemma dirSector_entryOf (d : Sector) : dirSector (entryOf d) = d := by
  funext i
  rw [dirSector, entryOf, CpmDir.toBytes_ofBytes]
  exact congrArg d (Fin.ext (show i.val / 32 * 32 + i.val % 32 = i.val by omega))

variable {dk dk' : Disk} {track sector n : ℕ} {dma d : Sector}

/-- **What a directory sector reads as**: the sector with its four entries.

**Proof sketch.** All four slots are there, so that the read returns, and each quarter of the
sector has the bytes of its entry. -/
lemma readDir_eq {es : Fin 4 → CpmDir}
    (h : ∀ idx : Fin 4, dk.dir[n * 4 + idx.val]? = some (es idx)) :
    readDir n dk = .ok (dirSector es) dk := by
  have hshift : n <<< 2 = n * 4 := Nat.shiftLeft_eq n 2
  have hat : ∀ idx : Fin 4, dirAt (n * 4 + idx.val) dk = .ok (es idx) dk := fun idx => by
    simp only [dirAt, h idx]
  simp only [readDir, hshift]
  refine (Exc.bind_of_ok (hat 0)).trans ((Exc.bind_of_ok (hat 1)).trans
    ((Exc.bind_of_ok (hat 2)).trans ((Exc.bind_of_ok (hat 3)).trans ?_)))
  refine congrArg (EStateM.Result.ok · dk) (funext fun i => ?_)
  -- the quarter of the buffer selects the entry
  have hi : i.val / 32 = 0 ∨ i.val / 32 = 1 ∨ i.val / 32 = 2 ∨ i.val / 32 = 3 := by omega
  rw [dirSector]
  congr 1
  rcases hi with hi | hi | hi | hi
  · rw [if_pos (by omega)]
    exact congrArg es (Fin.ext hi.symm)
  · rw [if_neg (by omega), if_pos (by omega)]
    exact congrArg es (Fin.ext hi.symm)
  · rw [if_neg (by omega), if_neg (by omega), if_pos (by omega)]
    exact congrArg es (Fin.ext hi.symm)
  · rw [if_neg (by omega), if_neg (by omega), if_neg (by omega)]
    exact congrArg es (Fin.ext hi.symm)

/-- A directory sector that can be read has four entries. -/
lemma readDir_ok {r : Sector} (h : readDir n dk = .ok r dk') :
    ∃ es : Fin 4 → CpmDir, ∀ idx : Fin 4, dk.dir[n * 4 + idx.val]? = some (es idx) := by
  have hshift : n <<< 2 = n * 4 := Nat.shiftLeft_eq n 2
  have hat : ∀ (m : ℕ) (dk₁ dk₂ : Disk) (e : CpmDir), dirAt m dk₁ = .ok e dk₂ →
      dk₂ = dk₁ ∧ dk₁.dir[m]? = some e := by
    intro m dk₁ dk₂ e he
    unfold dirAt at he
    split at he
    · rename_i f hf
      cases he
      exact ⟨rfl, hf⟩
    · cases he
  simp only [readDir, hshift, Exc.bind_ok] at h
  obtain ⟨e₀, dk₀, h0, e₁, dk₁, h1, e₂, dk₂, h2, e₃, dk₃, h3, -⟩ := h
  obtain ⟨rfl, h0⟩ := hat _ _ _ _ h0
  obtain ⟨rfl, h1⟩ := hat _ _ _ _ h1
  obtain ⟨rfl, h2⟩ := hat _ _ _ _ h2
  obtain ⟨rfl, h3⟩ := hat _ _ _ _ h3
  refine ⟨![e₀, e₁, e₂, e₃], fun idx => ?_⟩
  fin_cases idx
  · exact h0
  · exact h1
  · exact h2
  · exact h3

/-- **`Read` of a directory sector.** -/
lemma read_directory (ha : dk.area track sector = some (.directory n)) {es : Fin 4 → CpmDir}
    (h : ∀ idx : Fin 4, dk.dir[n * 4 + idx.val]? = some (es idx)) :
    read track sector dma dk = .ok (0, dirSector es) dk := by
  obtain ⟨habs, hn⟩ := area_directory ha
  rw [read_dir habs hn, Exc.bind_of_ok (readDir_eq h)]
  rfl

/-- **`Write` of a directory sector.** -/
lemma write_directory (ha : dk.area track sector = some (.directory n)) :
    write track sector d dk = writeDir n d dk := by
  obtain ⟨habs, hn⟩ := area_directory ha
  exact write_dir habs hn

/-! ## The directory after a write -/

/-- **The entry that a slot has after a write**: the old one if it compares equal. -/
def kept (old new : CpmDir) : CpmDir := if old.eq new then old else new

/-- The slot of an entry that was written. -/
lemma slot_writeEntry {new : CpmDir} (h : writeEntry n new dk = .ok () dk') :
    ∃ old, dk.dir[n]? = some old ∧ dk'.dir[n]? = some (kept old new) := by
  obtain ⟨old, hat, ⟨heq, rfl⟩ | ⟨heq, hd⟩⟩ := dir_of_writeEntry h
  · exact ⟨old, hat, by rw [kept, if_pos heq, hat]⟩
  · have hlt := (List.getElem?_eq_some_iff.mp hat).1
    refine ⟨old, hat, ?_⟩
    rw [kept, if_neg (by simp [heq]), hd, List.getElem?_set_self hlt]

/-- The slots of a directory sector that was written.

**Proof sketch.** Induction on the slots. The first one is written and not touched by the rest, and
the rest finds its slots as they were. -/
lemma slots_writeEntries {extno : ℕ} : ∀ {idxs : List (Fin 4)} {dk : Disk}, idxs.Nodup →
    writeEntries extno d idxs dk = .ok () dk' → ∀ idx ∈ idxs, ∃ old,
      dk.dir[extno + idx.val]? = some old ∧
        dk'.dir[extno + idx.val]? = some (kept old (entryOf d idx)) := by
  intro idxs
  induction idxs with
  | nil => exact fun _ _ idx hidx => nomatch hidx
  | cons i idxs ih =>
    intro dk hnd h idx hidx
    rw [List.nodup_cons] at hnd
    rw [writeEntries, Exc.bind_ok] at h
    obtain ⟨⟨⟩, dk₁, h1, h2⟩ := h
    have hne : ∀ j ∈ idxs, extno + j.val ≠ extno + i.val := fun j hj => (slot_ne hnd.1 hj).symm
    obtain ⟨old, hold, hnew⟩ := slot_writeEntry h1
    rcases List.mem_cons.mp hidx with rfl | hidx
    · exact ⟨old, hold, by rw [getElem?_writeEntries h2 hne, hnew]⟩
    · obtain ⟨old', hold', hnew'⟩ := ih hnd.2 h2 idx hidx
      refine ⟨old', ?_, hnew'⟩
      have hsame : dk₁.dir[extno + idx.val]? = dk.dir[extno + idx.val]? := by
        obtain ⟨_, -, ⟨-, rfl⟩ | ⟨-, hd⟩⟩ := dir_of_writeEntry h1
        · rfl
        · rw [hd, List.getElem?_set_ne (hne idx hidx).symm]
      rw [← hsame, hold']

/-- **The directory after a directory sector was written.** -/
lemma dir_writeDir {r : ℕ} (h : writeDir n d dk = .ok r dk') :
    Static dk dk' ∧ (∀ m, (∀ idx : Fin 4, n * 4 + idx.val ≠ m) → dk'.dir[m]? = dk.dir[m]?) ∧
      ∀ idx : Fin 4, ∃ old, dk.dir[n * 4 + idx.val]? = some old ∧
        dk'.dir[n * 4 + idx.val]? = some (kept old (entryOf d idx)) := by
  obtain ⟨dk₁, h1, -, hf⟩ := writeDir_ok h
  rw [Nat.shiftLeft_eq n 2] at h1
  have hs := static_writeEntries (n * 2 ^ 2) d [0, 1, 2, 3] dk
  rw [h1] at hs
  refine ⟨hs.trans hf.toStatic, fun m hm => ?_, fun idx => ?_⟩
  · rw [hf.dir, getElem?_writeEntries h1 fun idx _ => hm idx]
  · rw [hf.dir]
    exact slots_writeEntries (by decide) h1 idx (by fin_cases idx <;> simp)

/-! ## Reading back -/

/-- **A directory sector reads back as written, the others as before.** The write of `d` to the
address took the disk from `dk` to `dk'`. -/
def ReadsBack (dk dk' : Disk) (track sector : ℕ) (d : Sector) : Prop :=
  (∀ dma, read track sector dma dk' = .ok (0, d) dk') ∧
    ∀ t s n m dma r dk₁, dk.area track sector = some (.directory n) →
      dk.area t s = some (.directory m) → m ≠ n → read t s dma dk = .ok r dk₁ →
        read t s dma dk' = .ok r dk'

/-- The area of an address depends on the tables only. -/
lemma Static.area (h : Static dk dk') (track sector : ℕ) :
    dk'.area track sector = dk.area track sector := by
  simp only [Disk.area, h.getAbsSector, h.dirstart, h.datastart]

/-- Other directory sectors read as before. -/
lemma reads_others {r : ℕ} (h : writeDir n d dk = .ok r dk') {t s m : ℕ}
    (ha : dk.area t s = some (.directory m)) (hne : m ≠ n) {q : ℕ × Sector} {dk₁ : Disk}
    (hr : read t s dma dk = .ok q dk₁) : read t s dma dk' = .ok q dk' := by
  obtain ⟨hstatic, hother, -⟩ := dir_writeDir h
  obtain ⟨habs, hm⟩ := area_directory ha
  have hr' := hr
  rw [read_dir habs hm, Exc.bind_ok] at hr'
  obtain ⟨b, dk₂, hdir, -⟩ := hr'
  obtain ⟨es, hes⟩ := readDir_ok hdir
  rw [read_directory ha hes] at hr
  cases hr
  refine read_directory (by rw [hstatic.area, ha]) fun idx => ?_
  rw [hother (m * 4 + idx.val) fun i => by omega, hes idx]

/-- **What a directory sector reads as after it was written.** -/
lemma read_written {r : ℕ} (ha : dk.area track sector = some (.directory n))
    (hw : write track sector d dk = .ok r dk') :
    ∃ old : Fin 4 → CpmDir, (∀ idx, dk.dir[n * 4 + idx.val]? = some (old idx)) ∧
      ∀ dma, read track sector dma dk' =
        .ok (0, dirSector fun idx => kept (old idx) (entryOf d idx)) dk' := by
  rw [write_directory ha] at hw
  obtain ⟨hstatic, -, hslots⟩ := dir_writeDir hw
  choose old hold hnew using hslots
  exact ⟨old, hold, fun dma => read_directory (by rw [hstatic.area, ha]) hnew⟩

/-- The slots of a directory sector that reads back have the new entries. -/
lemma ReadsBack.slot {r : ℕ} (h : ReadsBack dk dk' track sector d)
    (ha : dk.area track sector = some (.directory n)) (hw : write track sector d dk = .ok r dk')
    {idx : Fin 4} {old : CpmDir} (hold : dk.dir[n * 4 + idx.val]? = some old) :
    kept old (entryOf d idx) = entryOf d idx := by
  obtain ⟨olds, holds, hread⟩ := read_written ha hw
  rw [holds idx, Option.some.injEq] at hold
  subst hold
  have hback := h.1 d
  rw [hread d] at hback
  have hd : (dirSector fun idx => kept (olds idx) (entryOf d idx)) = d :=
    congrArg Prod.snd (EStateM.Result.ok.inj hback).1
  have hidx := congrArg (entryOf · idx) hd
  simpa only [entryOf_dirSector] using hidx

/-- **Which directory sectors read back.** If the write of a directory sector returned, the sector
reads back as written, and the others as before, exactly if no slot had an entry that compares
equal to the new one and is not the same: one that differs from it only behind a NUL byte of its
name or extension.

**Proof sketch.** A slot has its old entry if this compares equal and the new one otherwise. So the
sector reads back iff each entry that compares equal is the same one; the other sectors are not
written. -/
theorem readsBack_iff {r : ℕ} (ha : dk.area track sector = some (.directory n))
    (hw : write track sector d dk = .ok r dk') :
    ReadsBack dk dk' track sector d ↔ ∀ (idx : Fin 4) (old : CpmDir),
      dk.dir[n * 4 + idx.val]? = some old → old.eq (entryOf d idx) = true →
        old = entryOf d idx := by
  constructor
  · intro h idx old hold heq
    have hslot := h.slot ha hw hold
    rwa [kept, if_pos heq] at hslot
  · intro hcond
    refine ⟨fun dma => ?_, fun t s n' m dma q dk₁ hn hm hne hr => ?_⟩
    · obtain ⟨old, hold, hread⟩ := read_written ha hw
      rw [hread dma]
      refine congrArg (fun x => EStateM.Result.ok (0, x) dk') ?_
      refine Eq.trans (congrArg dirSector (funext fun idx => ?_)) (dirSector_entryOf d)
      rw [kept]
      split
      · rename_i heq
        exact hcond idx (old idx) (hold idx) heq
      · rfl
    · rw [ha] at hn
      cases hn
      rw [write_directory ha] at hw
      exact reads_others hw hm hne hr

/-- The first directory sector of the disks made from the empty 8-inch disk. -/
lemma area_foo (h : Static fooStart dk) : dk.area 2 1 = some (.directory 0) := by
  rw [h.area, area, show fooStart.getAbsSector 2 1 = some 52 by decide]
  rfl

/-- The directory sector of the file `FOO` has its entry first. -/
lemma fooSector_eq : fooSector = dirSector fun idx => if idx = 0 then fooEntry else .empty := by
  funext i
  revert i
  decide

/-- Making the file `FOO` is read back. -/
theorem readsBack_foo : ReadsBack fooWritten fooMade 2 1 fooSector := by
  have ha : fooWritten.area 2 1 = some (.directory 0) := area_foo ⟨rfl, rfl, rfl, rfl, rfl, rfl⟩
  obtain ⟨⟨r, hw⟩, -⟩ := step_fooMade
  refine (readsBack_iff ha hw).mpr fun idx old hold heq => ?_
  have hempty : old = CpmDir.empty :=
    List.eq_of_mem_replicate (List.mem_of_getElem? hold : old ∈ fooStart.dir)
  subst hempty
  rw [fooSector_eq, entryOf_dirSector] at heq ⊢
  split
  · rename_i h0
    rw [if_pos h0] at heq
    exact absurd heq (by decide)
  · rfl

/-- An unused entry with NUL bytes in its name. -/
def nulEntry (b : UInt8) : CpmDir := { CpmDir.empty with fx := fun i => if i = 7 then b else 0 }

/-- The directory sector with the entry alone. -/
def nulSector (b : UInt8) : Sector :=
  dirSector fun idx => if idx = 0 then nulEntry b else CpmDir.empty

/-- The disk after a sector with NUL bytes. -/
def nulDisk : Disk := Exc.final (write 2 1 (nulSector 0) fooStart)

/-- **A directory sector that does not read back**: the names of two unused entries differ behind
a NUL byte. -/
theorem nulSector_lost : ∃ dk r, write 2 1 (nulSector 1) nulDisk = .ok r dk ∧
    ¬ ReadsBack nulDisk dk 2 1 (nulSector 1) := by
  obtain ⟨r, hw⟩ := Exc.ok_of_isOk
    (show Exc.isOk (write 2 1 (nulSector 1) nulDisk) = true by decide)
  have ha : nulDisk.area 2 1 = some (.directory 0) := area_foo (static_write 2 1 _ fooStart)
  refine ⟨_, r, hw, fun h => ?_⟩
  have hold : nulDisk.dir[0 * 4 + (0 : Fin 4).val]? = some (entryOf (nulSector 0) 0) := by rfl
  have hslot := h.slot ha hw hold
  have h0 : ∀ b, entryOf (nulSector b) 0 = nulEntry b := fun b => by
    rw [nulSector, entryOf_dirSector, if_pos rfl]
  rw [h0, h0, kept, if_pos (by decide)] at hslot
  exact absurd (congrFun (congrArg CpmDir.fx hslot) 7) (by decide)

end Disk

end Cpm22
