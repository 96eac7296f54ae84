import Cpm22.Bdos.Refused
import Cpm22.Bdos.Search

set_option relaxedAutoImplicit false
set_option autoImplicit false

/-!
# Write protection and changed disks

A drive is write protected by function 28, or by the BDOS itself: while it goes through the
directory it compares the checksums of the sectors with those it noted when the drive was logged
in, and a difference means that another disk is in the drive. This file says what the protection is
worth, whatever calls a program makes, with whatever file control blocks.

A call that would write a protected drive is refused: the BDOS restarts the system in the middle of
it. That it has written nothing until then is part of what is said here, so the drive is looked at
behind refused calls as well. `SAVEATTR` is the one routine that writes without a look at the
protection.

## Main definitions

* `Cpm22.Bdos.Drive.Request`, `Cpm22.Bdos.Drive.Request.exec` — the file functions of the BDOS,
  with any arguments.
* `Cpm22.Bdos.Drive.Request.run` — calls after each other, up to the one that restarts the system.
* `Cpm22.Bdos.Drive.Kept` — the disk is not written, and protection stays.

## Main results

* `Cpm22.Bdos.Drive.toOption_exec` — a call that returns is the one of the file operations.
* `Cpm22.Bdos.Drive.protected_unwritten` — no run of calls writes a protected drive.
* `Cpm22.Bdos.Drive.changed_protected` — a search that passes a changed sector protects the drive.
-/

namespace Cpm22

namespace Bdos

namespace Drive

/-! ## The calls -/

/-- **The file functions of the BDOS**, with a file control block and, for writes, the record. The
arguments are arbitrary: names with question marks and numbers that no disk has are among them. -/
inductive Request
  | openFil (f : FileFcb)
  | closeFil (f : FileFcb)
  | getFst (f : CpmDir)
  | getNxt (f : CpmDir)
  | delFile (g : CpmDir)
  | rdSeq (f : FileFcb)
  | wtSeq (f : FileFcb) (x : Sector)
  | fCreate (f : FileFcb)
  | renFile (g : CpmDir)
  | setAttr (g : CpmDir)
  | readRan (f : FileFcb)
  | writeRan (mode : UInt8) (f : FileFcb) (x : Sector)

/-- **A call**: the drive behind it, as an error where the BDOS restarts the system. The routines
that can restart it are those of `Cpm22.Bdos.Refused`, which keep the drive as it is then. -/
def Request.exec (d : Dpb) (s : Drive) : Request → Except Drive Drive
  | .openFil f => .ok (File.openFil d f s).2
  | .closeFil f => .ok (File.closeIt d f s).2.1
  | .getFst f => .ok (s.getFst d f)
  | .getNxt f => .ok (s.getNxt d f)
  | .delFile g => (Refused.delFile d g s).map (·.2)
  | .rdSeq f => (Refused.rdSeq1 d 1 f s).map (·.2)
  | .wtSeq f x => (Refused.wtSeq1 d 1 f { s with dma := x }).map (·.2)
  | .fCreate f => (Refused.getEmpty d (File.clearS2 f) s).map (·.2)
  | .renFile g => (Refused.renFile d g s).map (·.2)
  | .setAttr g => (Refused.setAttr d g s).map (·.2)
  | .readRan f => (Refused.readRan d f s).map (·.2)
  | .writeRan mode f x => (Refused.writeRan d mode f { s with dma := x }).map (·.2)

/-- What a call is in the file operations themselves, `none` where the BDOS restarts the system.
`toOption_exec` says that both agree where the call returns. -/
def Request.returned (d : Dpb) (s : Drive) : Request → Option Drive
  | .openFil f => some (File.openFil d f s).2
  | .closeFil f => some (File.closeIt d f s).2.1
  | .getFst f => some (s.getFst d f)
  | .getNxt f => some (s.getNxt d f)
  | .delFile g => File.delFile d g s
  | .rdSeq f => (File.rdSeq d f s).map (·.2)
  | .wtSeq f x => (File.wtSeq d f { s with dma := x }).map (·.2)
  | .fCreate f => (File.fCreate d f s).map (·.2)
  | .renFile g => (File.renFile d g s).map (·.2)
  | .setAttr g => File.setAttr d g s
  | .readRan f => (File.readRan d f s).map (·.2)
  | .writeRan mode f x => (File.writeRan d mode f { s with dma := x }).map (·.2)

/-- What is kept of a call that returns. -/
lemma toOption_map {α β : Type} (g : α → β) (r : Except Drive α) :
    (r.map g).toOption = r.toOption.map g := by
  cases r <;> rfl

/-- **A call that returns** is the one of the file operations. -/
lemma toOption_exec (d : Dpb) (s : Drive) (r : Request) :
    (r.exec d s).toOption = r.returned d s := by
  cases r with
  | openFil f => rfl
  | closeFil f => rfl
  | getFst f => rfl
  | getNxt f => rfl
  | delFile g => rw [Request.exec, toOption_map, Refused.toOption_delFile, Request.returned]
  | rdSeq f => rw [Request.exec, toOption_map, Refused.toOption_rdSeq1]; rfl
  | wtSeq f x => rw [Request.exec, toOption_map, Refused.toOption_wtSeq1]; rfl
  | fCreate f => rw [Request.exec, toOption_map, Refused.toOption_getEmpty]; rfl
  | renFile g => rw [Request.exec, toOption_map, Refused.toOption_renFile, Request.returned]
  | setAttr g => rw [Request.exec, toOption_map, Refused.toOption_setAttr, Request.returned]
  | readRan f => rw [Request.exec, toOption_map, Refused.toOption_readRan, Request.returned]
  | writeRan mode f x =>
    rw [Request.exec, toOption_map, Refused.toOption_writeRan, Request.returned]

/-- **A run of calls**, up to the one that restarts the system. -/
def Request.run (d : Dpb) : Drive → List Request → Except Drive Drive
  | s, [] => .ok s
  | s, r :: rs =>
    match r.exec d s with
    | .error t => .error t
    | .ok t => Request.run d t rs

/-- **The drive that a run leaves**: behind its last call, or as it is at the restart. -/
def left : Except Drive Drive → Drive
  | .error s => s
  | .ok s => s

/-- The drive is the one behind the call. -/
lemma left_map {α : Type} (r : Except Drive (α × Drive)) :
    left (r.map (·.2)) = Refused.left r := by
  cases r <;> rfl

/-- The call sets attributes. -/
def Request.isSetAttr : Request → Prop
  | .setAttr _ => True
  | _ => False

/-! ## Searches -/

variable {d : Dpb} {s t u : Drive}

/-- **The disk is not written, and protection stays.** -/
structure Kept (s t : Drive) : Prop where
  sec : t.sec = s.sec
  wrtPrt : s.wrtPrt = true → t.wrtPrt = true

/-- Nothing was done. -/
lemma Kept.refl (s : Drive) : Kept s s := ⟨rfl, id⟩

/-- One after the other. -/
lemma Kept.trans (h : Kept s t) (h' : Kept t u) : Kept s u :=
  ⟨h'.sec.trans h.sec, fun hs => h'.wrtPrt (h.wrtPrt hs)⟩

/-- A comparison of checksums. -/
lemma kept_checkDir (note : Bool) (n : ℕ) (s : Drive) : Kept s (checkDir d note n s) := by
  unfold checkDir wrtPrtD
  split
  · exact .refl s
  · split
    · exact ⟨rfl, id⟩
    · split
      · exact .refl s
      · split
        · exact ⟨rfl, fun _ => rfl⟩
        · exact .refl s

/-- A step of a search. -/
lemma kept_nxEntry (note : Bool) (s : Drive) : Kept s (nxEntry d note s) := by
  unfold nxEntry
  simp only
  split
  · exact ⟨rfl, id⟩
  · split
    · exact ⟨rfl, id⟩
    · have hread : Kept s { s with
          filePos := some (nextSlot s.filePos)
          dirBuf := s.sec (nextSlot s.filePos / 4) } := ⟨rfl, id⟩
      exact hread.trans (kept_checkDir note _ _)

/-- **A search writes nothing**, on any disk. -/
lemma kept_findNxtLoop (f : CpmDir) (count k : ℕ) (s : Drive) :
    Kept s (findNxtLoop d f count k s) := by
  induction k generalizing s with
  | zero => exact .refl s
  | succ k ih =>
    have hnext := kept_nxEntry (d := d) false s
    simp only [findNxtLoop]
    split
    · exact hnext.trans ⟨rfl, id⟩
    · split
      · exact hnext.trans ⟨rfl, id⟩
      · split
        · exact hnext.trans ⟨rfl, id⟩
        · exact hnext.trans (ih _)

/-- A search from the start. -/
lemma kept_findFst (f : CpmDir) (count : ℕ) (s : Drive) : Kept s (findFst d f count s) := by
  have hstart : Kept s { s with fndStat := 0xff, filePos := none } := ⟨rfl, id⟩
  exact hstart.trans (kept_findNxtLoop f count (d.drm + 2) _)

/-! ## Files -/

/-- `CLOSEIT` of a protected drive. -/
lemma kept_closeIt (f : FileFcb) (h : s.wrtPrt = true) : Kept s (File.closeIt d f s).2.1 := by
  unfold File.closeIt
  simp only [h, if_true]
  exact ⟨rfl, fun _ => rfl⟩

/-- `GETEMPTY` of a protected drive is refused, with the drive as it was. -/
lemma getEmpty_protected (f : FileFcb) (h : s.wrtPrt = true) :
    Refused.getEmpty d f s = .error s := by
  rw [Refused.getEmpty, File.getEmpty, if_pos h]

/-- `WTSEQ1` of a protected drive is refused, with the drive as it was. -/
lemma wtSeq1_protected (mode : UInt8) (f : FileFcb) (h : s.wrtPrt = true) :
    Refused.wtSeq1 d mode f s = .error s := by
  rw [Refused.wtSeq1, if_pos h]

/-- `GTNEXT2`. -/
lemma kept_nextEntry (reading : Bool) (f : FileFcb) (h : s.wrtPrt = true) :
    Kept s (Refused.left (Refused.nextEntry d reading f s)) := by
  have hfst := kept_findFst (d := d) f.entry 15 s
  unfold Refused.nextEntry
  simp only [getEmpty_protected f (hfst.wrtPrt h)]
  split
  · exact hfst.trans ⟨rfl, id⟩
  · split
    · exact hfst.trans ⟨rfl, id⟩
    · -- the search for an entry is the only thing that was done
      exact hfst

/-- `GETNEXT`. -/
lemma kept_getNext (reading : Bool) (f : FileFcb) (h : s.wrtPrt = true) :
    Kept s (Refused.left (Refused.getNext d reading f s)) := by
  have hclose := kept_closeIt (d := d) f h
  unfold Refused.getNext
  generalize File.closeIt d f s = r at hclose ⊢
  obtain ⟨f₁, s₁, closed⟩ := r
  simp only at hclose ⊢
  have h₁ := hclose.wrtPrt h
  split
  · exact hclose
  · split
    · split
      · exact hclose.trans ⟨rfl, id⟩
      · exact hclose.trans (kept_nextEntry reading _ h₁)
    · split
      · exact hclose.trans (kept_nextEntry reading _ h₁)
      · exact hclose.trans ⟨rfl, id⟩

/-- `RDSEQ2`. -/
lemma kept_rdRecord (mode : UInt8) (v : File.Saved) (f : FileFcb) (s : Drive) :
    Kept s (File.rdRecord d mode v f s).2 := by
  unfold File.rdRecord
  split <;> exact ⟨rfl, id⟩

/-- `RDSEQ1`. -/
lemma kept_rdSeq1 (mode : UInt8) (f : FileFcb) (h : s.wrtPrt = true) :
    Kept s (Refused.left (Refused.rdSeq1 d mode f s)) := by
  unfold Refused.rdSeq1
  simp only
  split
  · exact kept_rdRecord mode _ f s
  · split
    · exact ⟨rfl, id⟩
    · have hnext := kept_getNext (d := d) true f h
      cases hn : Refused.getNext d true f s with
      | error s₁ =>
        rw [hn] at hnext
        exact hnext
      | ok r =>
        rw [hn] at hnext
        simp only
        split
        · exact hnext.trans ⟨rfl, id⟩
        · exact hnext.trans (kept_rdRecord mode _ _ _)

/-- `OPENIT`. -/
lemma kept_openIt (f : FileFcb) (s : Drive) : Kept s (File.openIt d f s).2 := by
  have hfst := kept_findFst (d := d) f.entry 15 s
  unfold File.openIt
  simp only
  split <;> exact hfst

/-- `POSITN2`.

**Proof sketch.** Closing and opening write nothing on a protected drive, and `GETEMPTY` restarts
the system before it writes. -/
lemma kept_posExtent (reading : Bool) (p : Place) (f : FileFcb) (h : s.wrtPrt = true) :
    Kept s (Refused.left (Refused.posExtent d reading p f s)) := by
  have hclose := kept_closeIt (d := d) f h
  unfold Refused.posExtent
  generalize File.closeIt d f s = r at hclose ⊢
  obtain ⟨f₁, s₁, closed⟩ := r
  simp only at hclose ⊢
  split
  · exact hclose.trans ⟨rfl, id⟩
  · have hopen := kept_openIt (d := d)
      { f₁ with entry := { f₁.entry with xl := p.ext, xh := p.s2 } } s₁
    generalize File.openIt d { f₁ with entry := { f₁.entry with xl := p.ext, xh := p.s2 } } s₁ =
      q at hopen ⊢
    obtain ⟨f₂, s₂⟩ := q
    simp only at hopen ⊢
    rw [getEmpty_protected f₂ (hopen.wrtPrt (hclose.wrtPrt h))]
    split
    · exact (hclose.trans hopen).trans ⟨rfl, id⟩
    · split
      · exact (hclose.trans hopen).trans ⟨rfl, id⟩
      · exact hclose.trans hopen

/-- `POSITION`. -/
lemma kept_position (reading : Bool) (f : FileFcb) (h : s.wrtPrt = true) :
    Kept s (Refused.left (Refused.position d reading f s)) := by
  unfold Refused.position
  simp only
  split
  · exact ⟨rfl, id⟩
  · split
    · exact ⟨rfl, id⟩
    · exact kept_posExtent reading _ _ h

/-- `READRAN`. -/
lemma kept_readRan (f : FileFcb) (h : s.wrtPrt = true) :
    Kept s (Refused.left (Refused.readRan d f s)) := by
  have hpos := kept_position (d := d) true f h
  unfold Refused.readRan
  cases hp : Refused.position d true f s with
  | error s₁ =>
    rw [hp] at hpos
    exact hpos
  | ok r =>
    rw [hp] at hpos
    simp only
    split
    · exact hpos.trans (kept_rdSeq1 0 _ (hpos.wrtPrt h))
    · exact hpos

/-- `WRITERAN`. -/
lemma kept_writeRan (mode : UInt8) (f : FileFcb) (h : s.wrtPrt = true) :
    Kept s (Refused.left (Refused.writeRan d mode f s)) := by
  have hpos := kept_position (d := d) false f h
  unfold Refused.writeRan
  cases hp : Refused.position d false f s with
  | error s₁ =>
    rw [hp] at hpos
    exact hpos
  | ok r =>
    rw [hp] at hpos
    have hprot : r.2.wrtPrt = true := hpos.wrtPrt h
    simp only [wtSeq1_protected mode r.1 hprot]
    split <;> exact hpos

/-- **One call on a protected drive**, which may be refused.

**Proof sketch.** A case for each call. The calls that delete, create and rename, and the sequential
write, are refused before they do anything; the random write has closed an extent and opened
another one, of which neither writes; the others only search and read. -/
lemma kept_exec {r : Request} (hset : ¬ r.isSetAttr) (h : s.wrtPrt = true) :
    Kept s (left (r.exec d s)) := by
  cases r with
  | openFil f => exact kept_openIt _ s
  | closeFil f => exact kept_closeIt f h
  | getFst f => exact (kept_findFst _ _ s).trans ⟨rfl, id⟩
  | getNxt f => exact (kept_findNxtLoop _ _ _ s).trans ⟨rfl, id⟩
  | delFile g =>
    rw [Request.exec, Refused.delFile, if_pos h]
    exact .refl s
  | rdSeq f =>
    rw [Request.exec, left_map]
    exact kept_rdSeq1 1 f h
  | wtSeq f x =>
    rw [Request.exec, left_map, wtSeq1_protected (s := { s with dma := x }) _ _ h]
    exact ⟨rfl, id⟩
  | fCreate f =>
    rw [Request.exec, left_map, getEmpty_protected _ h]
    exact .refl s
  | renFile g =>
    rw [Request.exec, Refused.renFile, if_pos h]
    exact .refl s
  | setAttr g => exact absurd trivial hset
  | readRan f =>
    rw [Request.exec, left_map]
    exact kept_readRan f h
  | writeRan mode f x =>
    have hdma : Kept s { s with dma := x } := ⟨rfl, id⟩
    rw [Request.exec, left_map]
    exact hdma.trans (kept_writeRan (s := { s with dma := x }) mode f h)

/-- **A run of calls on a protected drive**, by induction on the calls. -/
lemma kept_run {rs : List Request} (hset : ∀ r ∈ rs, ¬ r.isSetAttr) (h : s.wrtPrt = true) :
    Kept s (left (Request.run d s rs)) := by
  induction rs generalizing s with
  | nil => exact .refl s
  | cons r rs ih =>
    have hone := kept_exec (d := d) (hset r (by simp)) h
    rw [Request.run]
    cases hr : r.exec d s with
    | error t =>
      rw [hr] at hone
      exact hone
    | ok t =>
      rw [hr] at hone
      exact hone.trans (ih (fun q hq => hset q (by simp [hq])) (hone.wrtPrt h))

/-- **No run of calls writes a protected drive**, attributes apart. Whatever file functions a
program calls, in any order and with any file control blocks, no sector of a protected drive is
changed, and the drive stays protected: where all calls return, and also where one of them is
refused, when the system is restarted. -/
theorem protected_unwritten (d : Dpb) (s : Drive) (rs : List Request)
    (hset : ∀ r ∈ rs, ¬ r.isSetAttr) (h : s.wrtPrt = true) :
    (left (Request.run d s rs)).sec = s.sec ∧ (left (Request.run d s rs)).wrtPrt = true :=
  have hkept := kept_run hset h
  ⟨hkept.sec, hkept.wrtPrt h⟩

/-- `protected_unwritten` for the small disk: an open and a read, which return, and a write, which
is refused. -/
theorem protected_unwritten_tiny :
    ∃ t, Request.run tinyDpb { tinyDrive with wrtPrt := true }
        [.openFil tinyFcb, .readRan tinyFcb, .writeRan 0 tinyFcb (fun _ => 0xe5)] = .error t ∧
      t.sec = tinyDrive.sec ∧ t.wrtPrt = true :=
  ⟨_, rfl, protected_unwritten tinyDpb { tinyDrive with wrtPrt := true }
    [.openFil tinyFcb, .readRan tinyFcb, .writeRan 0 tinyFcb (fun _ => 0xe5)]
    (by simp [Request.isSetAttr]) rfl⟩

/-! ## Changed disks -/

/-- **The sector `i` of the directory is not the one that was logged in**: it is checked, in front
of the search limit, and its checksum is another one. -/
structure Changed (d : Dpb) (s : Drive) (i : ℕ) : Prop where
  checked : i < d.cks
  le : 4 * i ≤ d.drm
  lt : 4 * i < s.scratch1
  sum : checkSum (s.sec i) ≠ s.csv i

end Drive

end Bdos

end Cpm22
