import Cpm22.Disk.Calls

set_option relaxedAutoImplicit false
set_option autoImplicit false

/-!
# What the operations leave alone

Frame rules: `Write` never changes the tables of the disk, `Flush` changes only the cache and the
host, and a directory sector changes only its own four slots.

## Main definitions

* `Cpm22.Disk.Static` — the disks have the same tables.
* `Cpm22.Disk.FlushFrame` — they also have the same directory and name map.

## Main results

* `Cpm22.Disk.static_write` — `Write` keeps the tables.
* `Cpm22.Disk.frame_flush` — `Flush` keeps the directory and the name map.
* `Cpm22.Disk.mem_dir_of_write` — the entries of the directory after a `Write`.
-/

namespace Cpm22

open HostPath HostFs

namespace Disk

/-- The disks have the same path, parameters and tables. -/
structure Static (dk dk' : Disk) : Prop where
  path : dk'.path = dk.path
  dpb : dk'.dpb = dk.dpb
  smap : dk'.smap = dk.smap
  bootblock : dk'.bootblock = dk.bootblock
  datastart : dk'.datastart = dk.datastart
  dirstart : dk'.dirstart = dk.dirstart

/-- The disks also have the same directory and name map. -/
structure FlushFrame (dk dk' : Disk) : Prop extends Static dk dk' where
  dir : dk'.dir = dk.dir
  cpm2unix : dk'.cpm2unix = dk.cpm2unix

variable {dk dk' dk'' : Disk}

/-- Every disk has its own tables. -/
lemma Static.refl (dk : Disk) : Static dk dk := ⟨rfl, rfl, rfl, rfl, rfl, rfl⟩

/-- Having the same tables is transitive. -/
lemma Static.trans (h : Static dk dk') (h' : Static dk' dk'') : Static dk dk'' :=
  ⟨h'.path.trans h.path, h'.dpb.trans h.dpb, h'.smap.trans h.smap, h'.bootblock.trans h.bootblock,
    h'.datastart.trans h.datastart, h'.dirstart.trans h.dirstart⟩

/-- Every disk has its own directory and name map. -/
lemma FlushFrame.refl (dk : Disk) : FlushFrame dk dk := ⟨Static.refl dk, rfl, rfl⟩

/-- Having the same directory and name map is transitive. -/
lemma FlushFrame.trans (h : FlushFrame dk dk') (h' : FlushFrame dk' dk'') : FlushFrame dk dk'' :=
  ⟨h.toStatic.trans h'.toStatic, h'.dir.trans h.dir, h'.cpm2unix.trans h.cpm2unix⟩

/-- Addresses depend on the tables only. -/
lemma Static.getAbsSector (h : Static dk dk') (track sector : ℕ) :
    dk'.getAbsSector track sector = dk.getAbsSector track sector := by
  simp only [Disk.getAbsSector, h.dpb, h.smap]

/-! ## `Flush` -/

/-- **`Flush` keeps the tables, the directory and the name map.** -/
theorem frame_flush :
    Exc.Triple (FlushFrame dk) flush (fun _ => FlushFrame dk) (FlushFrame dk) :=
  flush_rule (fun _ _ h => h.trans ⟨⟨rfl, rfl, rfl, rfl, rfl, rfl⟩, rfl, rfl⟩)
    fun _ _ _ _ _ h _ => h.trans ⟨⟨rfl, rfl, rfl, rfl, rfl, rfl⟩, rfl, rfl⟩

/-! ## Directory sectors -/

/-- **What a directory write that returned has done**: it has written the entries, and then the
cached sectors. -/
lemma writeDir_ok {n r : ℕ} {dma : Sector} (h : writeDir n dma dk = .ok r dk') :
    ∃ dk₁, writeEntries (n <<< 2) dma [0, 1, 2, 3] dk = .ok () dk₁ ∧ flush dk₁ = .ok r dk' ∧
      FlushFrame dk₁ dk' := by
  rw [writeDir, Exc.bind_ok] at h
  obtain ⟨⟨⟩, dk₁, h1, h2⟩ := h
  have hframe := frame_flush dk₁ (FlushFrame.refl dk₁)
  rw [h2] at hframe
  exact ⟨dk₁, h1, h2, hframe⟩

/-- A change of the host keeps the tables. -/
lemma static_hostChange (old new : CpmDir) (dk : Disk) :
    Static dk (Exc.final (hostChange old new dk)) := by
  by_cases hc : ChangesHost old new
  · rcases hc with ⟨hn, ho, h0⟩ | ⟨hn, ho, h0⟩ | ⟨hn, ho, hne, h0, h1⟩
    · rw [hostChange_delete hn ho h0]
      split
      · exact Static.refl dk
      · split <;> exact ⟨rfl, rfl, rfl, rfl, rfl, rfl⟩
    · rw [hostChange_create hn ho h0]
      simp only
      split
      · split <;> exact ⟨rfl, rfl, rfl, rfl, rfl, rfl⟩
      · exact ⟨rfl, rfl, rfl, rfl, rfl, rfl⟩
    · rw [hostChange_rename hn ho hne h0 h1]
      split
      · exact Static.refl dk
      · simp only
        split
        · split <;> exact ⟨rfl, rfl, rfl, rfl, rfl, rfl⟩
        · exact ⟨rfl, rfl, rfl, rfl, rfl, rfl⟩
  · rw [hostChange_skip hc]
    exact Static.refl dk

/-- Writing an entry keeps the tables. -/
lemma static_writeEntry (n : ℕ) (new : CpmDir) (dk : Disk) :
    Static dk (Exc.final (writeEntry n new dk)) := by
  cases hold : dk.dir[n]? with
  | none =>
    rw [writeEntry_of_none hold]
    exact Static.refl dk
  | some old =>
    by_cases heq : old.eq new = true
    · rw [writeEntry_of_eq hold heq]
      exact Static.refl dk
    · have h := static_hostChange old new dk
      rw [writeEntry_of_ne hold heq, Exc.bind_apply]
      cases hres : hostChange old new dk with
      | error e dk₁ =>
        rw [hres] at h
        exact h
      | ok a dk₁ =>
        rw [hres] at h
        exact h.trans ⟨rfl, rfl, rfl, rfl, rfl, rfl⟩

/-- **An entry that was written**: either nothing happened because the slot did not change, or the
slot has the new entry. -/
lemma dir_of_writeEntry {n : ℕ} {new : CpmDir} (h : writeEntry n new dk = .ok () dk') :
    ∃ old, dk.dir[n]? = some old ∧
      ((old.eq new = true ∧ dk' = dk) ∨ (old.eq new = false ∧ dk'.dir = dk.dir.set n new)) := by
  cases hold : dk.dir[n]? with
  | none =>
    rw [writeEntry_of_none hold] at h
    cases h
  | some old =>
    refine ⟨old, rfl, ?_⟩
    by_cases heq : old.eq new = true
    · rw [writeEntry_of_eq hold heq] at h
      cases h
      exact .inl ⟨heq, rfl⟩
    · rw [writeEntry_of_ne hold heq, Exc.bind_ok] at h
      obtain ⟨⟨⟩, dk₁, h1, h2⟩ := h
      cases h2
      refine .inr ⟨by simpa using heq, ?_⟩
      simp only [hostChange_dir h1]

/-- The entries of a directory sector keep the tables. -/
lemma static_writeEntries (extno : ℕ) (dma : Sector) (idxs : List (Fin 4)) : ∀ dk : Disk,
    Static dk (Exc.final (writeEntries extno dma idxs dk)) := by
  induction idxs with
  | nil => exact fun dk => Static.refl dk
  | cons idx idxs ih =>
    intro dk
    have h := static_writeEntry (extno + idx) (entryOf dma idx) dk
    rw [writeEntries, Exc.bind_apply]
    cases hres : writeEntry (extno + idx) (entryOf dma idx) dk with
    | error e dk₁ =>
      rw [hres] at h
      exact h
    | ok a dk₁ =>
      rw [hres] at h
      exact h.trans (ih dk₁)

/-- The entries of the directory after the slots of a sector were written.

**Proof sketch.** Induction on the slots. Each one leaves the directory as it is or puts the entry
of the sector into its slot. -/
lemma mem_dir_of_writeEntries {extno : ℕ} {dma : Sector} {idxs : List (Fin 4)} : ∀ {dk : Disk},
    writeEntries extno dma idxs dk = .ok () dk' →
    ∀ e ∈ dk'.dir, e ∈ dk.dir ∨ ∃ idx, (∃ old, dk.dir[extno + idx.val]? = some old) ∧
      e = entryOf dma idx := by
  induction idxs with
  | nil =>
    intro dk h e he
    cases h
    exact .inl he
  | cons idx idxs ih =>
    intro dk h e he
    rw [writeEntries, Exc.bind_ok] at h
    obtain ⟨⟨⟩, dk₁, h1, h2⟩ := h
    obtain ⟨old, hold, hcase⟩ := dir_of_writeEntry h1
    have hlen : dk₁.dir.length = dk.dir.length := by
      rcases hcase with ⟨-, rfl⟩ | ⟨-, hd⟩
      · rfl
      · rw [hd, List.length_set]
    rcases ih h2 e he with he | ⟨i, ⟨old', hold'⟩, rfl⟩
    · rcases hcase with ⟨-, rfl⟩ | ⟨-, hd⟩
      · exact .inl he
      · rw [hd] at he
        rcases List.mem_or_eq_of_mem_set he with he | rfl
        · exact .inl he
        · exact .inr ⟨idx, ⟨old, hold⟩, rfl⟩
    · refine .inr ⟨i, ?_, rfl⟩
      have hlt := (List.getElem?_eq_some_iff.mp hold').1
      rw [hlen] at hlt
      exact ⟨_, List.getElem?_eq_getElem hlt⟩

/-- **`Write` keeps the tables.**

**Proof sketch.** By the area of the sector. The call to the system file, the entries of a
directory sector, the flush behind them and the cache all leave the tables alone. -/
theorem static_write (track sector : ℕ) (dma : Sector) (dk : Disk) :
    Static dk (Exc.final (write track sector dma dk)) := by
  cases ha : dk.getAbsSector track sector with
  | none =>
    rw [write_badIndex ha]
    exact Static.refl dk
  | some a =>
    rw [write_apply ha]
    split
    · refine Exc.Triple.final (P := fun dk₁ => dk₁ = dk) (I := Static dk) ?_ rfl
      refine .bind (R := fun _ => Static dk) ?_ fun ok => .ite (fun _ => .pure fun _ h => h)
        fun _ => .throw fun _ h => h
      rintro _ rfl
      exact ⟨rfl, rfl, rfl, rfl, rfl, rfl⟩
    · split
      · have h := static_writeEntries ((a - dk.dirstart) <<< 2) dma [0, 1, 2, 3] dk
        rw [writeDir, Exc.bind_apply]
        cases hres : writeEntries ((a - dk.dirstart) <<< 2) dma [0, 1, 2, 3] dk with
        | error e dk₁ =>
          rw [hres] at h
          exact h
        | ok x dk₁ =>
          rw [hres] at h
          exact h.trans (frame_flush.final (FlushFrame.refl dk₁)).toStatic
      · exact ⟨rfl, rfl, rfl, rfl, rfl, rfl⟩

/-- **The entries of the directory after a `Write`**: old ones, and entries of the sector if it is
a directory sector. -/
theorem mem_dir_of_write {track sector : ℕ} {dma : Sector} {res : ℕ}
    (h : write track sector dma dk = .ok res dk') :
    ∀ e ∈ dk'.dir, e ∈ dk.dir ∨ ∃ old, SlotChange dk track sector dma old e := by
  obtain ⟨a, ha, ⟨-, -, rfl⟩ | ⟨hsys, hdir, hw⟩ | ⟨-, -, rfl⟩⟩ := write_ok h
  · exact fun e he => .inl he
  · obtain ⟨dk₁, h1, -, hf⟩ := writeDir_ok hw
    intro e he
    rw [hf.dir] at he
    rcases mem_dir_of_writeEntries h1 e he with he | ⟨idx, ⟨old, hold⟩, rfl⟩
    · exact .inl he
    · exact .inr ⟨old, a, idx, ha, hsys, hdir, hold, rfl⟩
  · exact fun e he => .inl he

end Disk

end Cpm22
