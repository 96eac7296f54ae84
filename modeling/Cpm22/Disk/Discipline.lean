import Cpm22.Disk.Frame
import Cpm22.Disk.Address

set_option relaxedAutoImplicit false
set_option autoImplicit false

/-!
# The discipline of a guest

What a guest keeps to when it writes the directory of a disk, stated on the directory before and
after a directory write: entries of different files and extents do not share a block or a name, a
used entry only grows, and a file is erased or renamed with all of its entries before anything else
happens to its names.

A file with several extents is erased or renamed by several directory writes. The ledger of a run
has the operations that are not finished yet, and for each data sector the bytes that a read of it
has to deliver.

## Main definitions

* `Cpm22.CpmDir.Ordinary` — a legal name and a logical extent below 32.
* `Cpm22.FileOp` — erasing or renaming a file; `Cpm22.opOf` is the one that a slot takes part in.
* `Cpm22.Disk.Disciplined` — a directory write that keeps the discipline.
* `Cpm22.Disk.Access`, `Cpm22.Disk.Ledger` — accesses, and what a run has to remember.
* `Cpm22.Disk.Step`, `Cpm22.Disk.Keeps` — an access and a run that keep the discipline.
* `Cpm22.Disk.Coherent` — every read of the run delivers what the ledger says.

## Main results

* `Cpm22.Disk.Disciplined.slot` — what the discipline says about one slot.
* `Cpm22.Disk.Disciplined.between` — extents stay distinct while the slots are written.
-/

namespace Cpm22

open HostPath HostFs

/-! ## Entries -/

/-- **An ordinary entry**: an upper-case legal name and an extent number that fits in `Xl`. -/
def CpmDir.Ordinary (e : CpmDir) : Prop := e.LegalName ∧ e.xl.toNat ≤ 31 ∧ e.xh = 0

instance (e : CpmDir) : Decidable e.Ordinary := inferInstanceAs (Decidable (_ ∧ _))

/-- **`f` is `e` with more block pointers**: same extent, and no pointer lost. -/
def CpmDir.GrowsTo (bps : ℕ) (e f : CpmDir) : Prop :=
  f.xl = e.xl ∧ f.xh = e.xh ∧ ∀ b < bps, e.pointer bps b ≠ 0 → f.pointer bps b = e.pointer bps b

instance (bps : ℕ) (e f : CpmDir) : Decidable (e.GrowsTo bps f) :=
  inferInstanceAs (Decidable (_ ∧ _))

/-- The extent number of an ordinary entry is `Xl`. -/
lemma CpmDir.Ordinary.ext_eq {e : CpmDir} (h : e.Ordinary) : e.getExtNumber = e.xl.toNat :=
  getExtNumber_of_xh_zero h.2.2

/-- Ordinary entries of extent 0 have the same `Xl` and `Xh`. -/
lemma CpmDir.Ordinary.zero {e f : CpmDir} (he : e.Ordinary) (hf : f.Ordinary)
    (h0 : e.getExtNumber = 0) (h1 : f.getExtNumber = 0) : e.xl = f.xl ∧ e.xh = f.xh := by
  rw [he.ext_eq] at h0
  rw [hf.ext_eq] at h1
  exact ⟨UInt8.toNat_inj.mp (h0.trans h1.symm), he.2.2.trans hf.2.2.symm⟩

/-- Growing keeps the extent number. -/
lemma CpmDir.GrowsTo.ext {bps : ℕ} {e f : CpmDir} (h : e.GrowsTo bps f) :
    f.getExtNumber = e.getExtNumber := by
  rw [getExtNumber, getExtNumber, h.1, h.2.1]

/-! ## Operations on files -/

/-- An operation that concerns all entries of a file. -/
inductive FileOp
  | erase (k : Bytes)
  | rename (k l : Bytes)
  deriving DecidableEq

namespace FileOp

/-- The name of the file before the operation. -/
def subject : FileOp → Bytes
  | erase k => k
  | rename k _ => k

/-- The operation concerns the name. -/
def Touches : FileOp → Bytes → Prop
  | erase k, n => n = k
  | rename k l, n => n = k ∨ n = l

instance : ∀ (o : FileOp) (n : Bytes), Decidable (o.Touches n)
  | erase _, _ => inferInstanceAs (Decidable (_ = _))
  | rename _ _, _ => inferInstanceAs (Decidable (_ ∨ _))

/-- An operation concerns the name of its file. -/
lemma touches_subject (o : FileOp) : o.Touches o.subject := by
  cases o with
  | erase k => exact rfl
  | rename k l => exact .inl rfl

end FileOp

/-- **The operation a slot takes part in** when the entry `old` is replaced by `new`. -/
def opOf (old new : CpmDir) : Option FileOp :=
  if old.Used then
    if new.Used then
      if new.getName ≠ old.getName then some (.rename old.getName new.getName) else none
    else some (.erase old.getName)
  else none

/-- The operations between two directories. -/
def opsOf (dir dir' : List CpmDir) : List FileOp :=
  (dir.zip dir').filterMap fun p => opOf p.1 p.2

/-- The operations that are not finished: the directory still has entries of their file. -/
def unfinished (dir : List CpmDir) (ops : List FileOp) : List FileOp :=
  ops.filter fun o => dir.any fun e => decide (e.Used ∧ e.getName = o.subject)

/-- A slot that takes part in an operation. -/
lemma mem_opsOf {dir dir' : List CpmDir} {i : ℕ} {e f : CpmDir} {o : FileOp}
    (hi : dir[i]? = some e) (hj : dir'[i]? = some f) (ho : opOf e f = some o) :
    o ∈ opsOf dir dir' := by
  refine List.mem_filterMap.mpr ⟨(e, f), ?_, ho⟩
  refine List.mem_iff_getElem?.mpr ⟨i, ?_⟩
  rw [List.getElem?_zip_eq_some]
  exact ⟨hi, hj⟩

/-- An operation is not finished iff there is an entry of its file. -/
lemma mem_unfinished {dir : List CpmDir} {ops : List FileOp} {o : FileOp} :
    o ∈ unfinished dir ops ↔ o ∈ ops ∧ ∃ e ∈ dir, e.Used ∧ e.getName = o.subject := by
  simp [unfinished]

namespace Disk

/-- An entry of the directory has the name `k`. -/
def HasName (dk : Disk) (k : Bytes) : Prop := ∃ e ∈ dk.dir, e.Used ∧ e.getName = k

/-! ## Directory writes -/

/-- **No two used entries have the same user, name and extent.** -/
def DistinctExtents (dir : List CpmDir) : Prop :=
  ∀ (i j : ℕ) (e f : CpmDir), dir[i]? = some e → dir[j]? = some f → e.Used → f.Used →
    e.getName = f.getName → e.xl = f.xl → e.xh = f.xh → i = j

/-- Different operations concern different names. -/
def Apart (ops : List FileOp) : Prop :=
  ∀ o ∈ ops, ∀ o' ∈ ops, ∀ k, o.Touches k → o'.Touches k → o = o'

/-- A file that is renamed can take its new name with all of its entries: no extent of it is there
under the new name. -/
def Fits (ops : List FileOp) (dir : List CpmDir) : Prop :=
  ∀ k l, .rename k l ∈ ops → ∀ e ∈ dir, ∀ f ∈ dir, e.Used → f.Used → e.getName = k →
    f.getName = l → e.xl ≠ f.xl

/-- **A directory write that keeps the discipline.** The directory becomes `dir'`, and the
operations `ops` were not finished before. -/
structure Disciplined (d : Dpb) (ops : List FileOp) (dir dir' : List CpmDir) : Prop where
  pointers : DistinctPointers d dir'
  extents : DistinctExtents dir'
  ordinary : ∀ e ∈ dir', e.Used → e.Ordinary
  grows : ∀ (i : ℕ) (e f : CpmDir), dir[i]? = some e → dir'[i]? = some f → e.Used → f.Used →
    e.GrowsTo d.blockPtrType f
  apart : Apart (ops ++ opsOf dir dir')
  fits : Fits (ops ++ opsOf dir dir') dir
  makes : ∀ (i : ℕ) (e f : CpmDir), dir[i]? = some e → dir'[i]? = some f → ¬ e.Used → f.Used →
    ∀ o ∈ ops ++ opsOf dir dir', ¬ o.Touches f.getName

/-- What the discipline says about one slot, with the operations that are under way. -/
structure SlotStep (bps : ℕ) (ops : List FileOp) (old new : CpmDir) : Prop where
  grows : old.Used → new.Used → old.GrowsTo bps new
  erase : old.Used → ¬ new.Used → .erase old.getName ∈ ops
  rename : old.Used → new.Used → new.getName ≠ old.getName →
    .rename old.getName new.getName ∈ ops
  make : ¬ old.Used → new.Used → ∀ o ∈ ops, ¬ o.Touches new.getName
  ordinary : new.Used → new.Ordinary

/-- Each slot of `mid` is as in `dir` or as in `dir'`. -/
def Between (dir mid dir' : List CpmDir) : Prop :=
  ∀ i : ℕ, mid[i]? = dir[i]? ∨ mid[i]? = dir'[i]?

section Write

variable {d : Dpb} {ops : List FileOp} {dir dir' : List CpmDir}

/-- **What the discipline says about one slot.** -/
lemma Disciplined.slot (h : Disciplined d ops dir dir') {i : ℕ} {e f : CpmDir}
    (hi : dir[i]? = some e) (hj : dir'[i]? = some f) :
    SlotStep d.blockPtrType (ops ++ opsOf dir dir') e f where
  grows := h.grows i e f hi hj
  erase he hf := List.mem_append_right _ (mem_opsOf hi hj (by simp [opOf, he, hf]))
  rename he hf hne := List.mem_append_right _ (mem_opsOf hi hj (by simp [opOf, he, hf, hne]))
  make := h.makes i e f hi hj
  ordinary := h.ordinary f (List.mem_of_getElem? hj)

/-- Two slots, one before and one after the write, do not have the same name and extent.

**Proof sketch.** If the slot before the write keeps its name, the clash is there after the write;
if the other one had its name already, it is there before the write. Otherwise one operation takes
the name away, and the name is made or given by another one. -/
lemma Disciplined.cross (h : Disciplined d ops dir dir') (hd : DistinctExtents dir)
    {i j : ℕ} {e f e₀ f' : CpmDir} (hi : dir'[i]? = some e) (hi₀ : dir[i]? = some e₀)
    (hj : dir[j]? = some f) (hj' : dir'[j]? = some f') (he : e.Used) (hf : f.Used)
    (hname : e.getName = f.getName) (hxl : e.xl = f.xl) (hxh : e.xh = f.xh) : i = j := by
  have hs := h.slot hi₀ hi
  have hs' := h.slot hj hj'
  by_cases hkeep : f'.Used ∧ f'.getName = f.getName
  · obtain ⟨h1, h2, -⟩ := hs'.grows hf hkeep.1
    exact h.extents i j e f' hi hj' he hkeep.1 (hname.trans hkeep.2.symm) (hxl.trans h1.symm)
      (hxh.trans h2.symm)
  -- an operation takes the name away from slot `j`
  obtain ⟨o, ho, hsub⟩ : ∃ o ∈ ops ++ opsOf dir dir', o.subject = f.getName := by
    by_cases hf' : f'.Used
    · exact ⟨_, hs'.rename hf hf' fun hh => hkeep ⟨hf', hh⟩, rfl⟩
    · exact ⟨_, hs'.erase hf hf', rfl⟩
  have htouch : o.Touches e.getName := by
    rw [hname, ← hsub]
    exact o.touches_subject
  by_cases he₀ : e₀.Used
  · by_cases hsame : e.getName = e₀.getName
    · obtain ⟨h1, h2, -⟩ := hs.grows he₀ he
      exact hd i j e₀ f hi₀ hj he₀ hf (hsame.symm.trans hname) (h1.symm.trans hxl)
        (h2.symm.trans hxh)
    · have heq := h.apart o ho _ (hs.rename he₀ he hsame) e.getName htouch (.inr rfl)
      rw [heq] at hsub
      exact absurd (hname.trans hsub.symm) hsame
  · exact absurd htouch (hs.make he₀ he o ho)

/-- **Extents stay distinct while the slots are written.** -/
theorem Disciplined.between (h : Disciplined d ops dir dir') (hd : DistinctExtents dir)
    (hlen : dir'.length = dir.length) {mid : List CpmDir} (hb : Between dir mid dir') :
    DistinctExtents mid := by
  have hother : ∀ {l l' : List CpmDir} {i : ℕ} {e : CpmDir}, l.length = l'.length →
      l[i]? = some e → ∃ f, l'[i]? = some f := by
    intro l l' i e hl hi
    have hlt := (List.getElem?_eq_some_iff.mp hi).1
    rw [hl] at hlt
    exact ⟨_, List.getElem?_eq_getElem hlt⟩
  intro i j e f hi hj he hf hname hxl hxh
  rcases hb i with hbi | hbi <;> rcases hb j with hbj | hbj <;> rw [hbi] at hi <;> rw [hbj] at hj
  · exact hd i j e f hi hj he hf hname hxl hxh
  · obtain ⟨e', hi'⟩ := hother hlen.symm hi
    obtain ⟨f₀, hj₀⟩ := hother hlen hj
    exact (h.cross hd hj hj₀ hi hi' hf he hname.symm hxl.symm hxh.symm).symm
  · obtain ⟨e₀, hi₀⟩ := hother hlen hi
    obtain ⟨f', hj'⟩ := hother hlen.symm hj
    exact h.cross hd hi hi₀ hj hj' he hf hname hxl hxh
  · exact h.extents i j e f hi hj he hf hname hxl hxh

end Write

/-! ## Runs -/

/-- An access to the disk. -/
inductive Access
  | read (track sector : ℕ) (dma : Sector)
  | write (track sector : ℕ) (dma : Sector)

/-- **The ledger of a run**: the operations that are not finished, and for each data sector the
bytes of the last write to it, until an entry that lists it is erased. -/
structure Ledger where
  ops : List FileOp
  written : ℕ → Option Sector

/-- The ledger at the start. -/
def Ledger.start : Ledger := ⟨[], fun _ => none⟩

/-- A slot that lists the sector was erased. -/
def erased (d : Dpb) (dir dir' : List CpmDir) (sid : ℕ) : Bool :=
  (dir.zip dir').any fun p => decide (p.1.Lists d sid ∧ ¬ p.2.Used)

/-- The ledger after a directory write. -/
def Ledger.directory (l : Ledger) (d : Dpb) (dir dir' : List CpmDir) : Ledger where
  ops := unfinished dir' (l.ops ++ opsOf dir dir')
  written sid := if erased d dir dir' sid then none else l.written sid

/-- The area of a sector address. -/
inductive Area
  | system
  | directory (sector : ℕ)
  | data (sid : ℕ)

/-- Where an address lies. -/
def area (dk : Disk) (track sector : ℕ) : Option Area :=
  (dk.getAbsSector track sector).map fun a =>
    if a < dk.dirstart then .system
    else if a - dk.dirstart < dk.datastart then .directory (a - dk.dirstart)
    else .data (a - dk.dirstart)

/-- The addresses of the areas. -/
lemma area_cases {dk : Disk} {track sector : ℕ} {x : Area} (h : dk.area track sector = some x) :
    ∃ a, dk.getAbsSector track sector = some a ∧
      ((a < dk.dirstart ∧ x = .system) ∨
        (∃ n, a = n + dk.dirstart ∧ n < dk.datastart ∧ x = .directory n) ∨
        ∃ sid, a = sid + dk.dirstart ∧ dk.datastart ≤ sid ∧ x = .data sid) := by
  obtain ⟨a, ha, hx⟩ := Option.map_eq_some_iff.mp h
  refine ⟨a, ha, ?_⟩
  split at hx
  · rename_i h1
    exact .inl ⟨h1, hx.symm⟩
  · rename_i h1
    have hsum : a = a - dk.dirstart + dk.dirstart := by omega
    split at hx
    · rename_i h2
      exact .inr (.inl ⟨_, hsum, h2, hx.symm⟩)
    · rename_i h2
      exact .inr (.inr ⟨_, hsum, Nat.not_lt.mp h2, hx.symm⟩)

/-- The address of a directory sector. -/
lemma area_directory {dk : Disk} {track sector n : ℕ}
    (h : dk.area track sector = some (.directory n)) :
    dk.getAbsSector track sector = some (n + dk.dirstart) ∧ n < dk.datastart := by
  obtain ⟨a, ha, ⟨-, hx⟩ | ⟨m, rfl, hm, hx⟩ | ⟨sid, -, -, hx⟩⟩ := area_cases h
  · cases hx
  · cases hx
    exact ⟨ha, hm⟩
  · cases hx

/-- The address of a data sector. -/
lemma area_data {dk : Disk} {track sector sid : ℕ} (h : dk.area track sector = some (.data sid)) :
    dk.getAbsSector track sector = some (sid + dk.dirstart) ∧ dk.datastart ≤ sid := by
  obtain ⟨a, ha, ⟨-, hx⟩ | ⟨m, -, -, hx⟩ | ⟨n, rfl, hn, hx⟩⟩ := area_cases h
  · cases hx
  · cases hx
  · cases hx
    exact ⟨ha, hn⟩

/-- **What a `Write` that returned has done**, by the area of its address. -/
theorem write_cases {dk dk' : Disk} {track sector r : ℕ} {dma : Sector}
    (h : write track sector dma dk = .ok r dk') :
    (dk.area track sector = some .system ∧
      ∃ a, (dk.host.write dk.bootblock (a <<< 7) (bytes dma)).1 = true ∧
        dk' = { dk with host := (dk.host.write dk.bootblock (a <<< 7) (bytes dma)).2 }) ∨
      (∃ n, dk.area track sector = some (.directory n) ∧ writeDir n dma dk = .ok r dk') ∨
      ∃ sid, dk.area track sector = some (.data sid) ∧ dk.datastart ≤ sid ∧
        dk' = { dk with cache := dk.cache.insert sid dma } := by
  obtain ⟨a, ha, ⟨h1, hok, hdk⟩ | ⟨h1, h2, hdir⟩ | ⟨h1, h2, hdk⟩⟩ := write_ok h
  · exact .inl ⟨by simp [area, ha, h1], a, hok, hdk⟩
  · exact .inr (.inl ⟨_, by simp [area, ha, Nat.not_lt.mpr h1, h2], hdir⟩)
  · exact .inr (.inr ⟨_, by simp [area, ha, Nat.not_lt.mpr h1, Nat.not_lt.mpr h2], h2, hdk⟩)

/-- The ledger after a `Write` from `dk` to `dk'`. -/
def Ledger.write (l : Ledger) (dk dk' : Disk) (track sector : ℕ) (dma : Sector) : Ledger :=
  match dk.area track sector with
  | some (.directory _) => l.directory dk.dpb dk.dir dk'.dir
  | some (.data sid) => { l with written := Function.update l.written sid (some dma) }
  | _ => l

/-- No host call since `dk` failed. -/
def HostFine (dk dk' : Disk) : Prop :=
  ∀ ev ∈ dk'.host.calls.drop dk.host.calls.length, ev.ok = true

/-- The lookups of a `Read` succeed: the entries that list a data sector that is not cached have a
host file. -/
def Mapped (dk : Disk) (track sector : ℕ) : Prop :=
  ∀ sid, dk.area track sector = some (.data sid) → sid ∉ dk.cache →
    ∀ e ∈ dk.dir, e.Lists dk.dpb sid → (dk.cpm2unix.lookup e.getName).isSome

/-- **An access that keeps the discipline**: it returns, no lookup and no host call fails, and a
directory write is disciplined. -/
def Step : Access → Disk → Ledger → Disk → Ledger → Prop
  | .read track sector dma, dk, l, dk', l' => (∃ r, read track sector dma dk = .ok r dk') ∧
      Mapped dk track sector ∧ HostFine dk dk' ∧ l' = l
  | .write track sector dma, dk, l, dk', l' => (∃ r, write track sector dma dk = .ok r dk') ∧
      (∀ n, dk.area track sector = some (.directory n) →
        Disciplined dk.dpb l.ops dk.dir dk'.dir) ∧
      HostFine dk dk' ∧ l' = l.write dk dk' track sector dma

/-- **A run that keeps the discipline.** -/
def Keeps : List Access → Disk → Ledger → Prop
  | [], _, _ => True
  | a :: as, dk, l => ∃ dk' l', Step a dk l dk' l' ∧ Keeps as dk' l'

/-- **Every read of the run delivers what the ledger says.** -/
def Coherent : List Access → Disk → Ledger → Prop
  | [], _, _ => True
  | .read track sector dma :: as, dk, l => ∀ r dk', read track sector dma dk = .ok r dk' →
      (∀ sid d, dk.area track sector = some (.data sid) → l.written sid = some d → r = (0, d)) ∧
        Coherent as dk' l
  | .write track sector dma :: as, dk, l => ∀ r dk', write track sector dma dk = .ok r dk' →
      Coherent as dk' (l.write dk dk' track sector dma)

end Disk

end Cpm22
