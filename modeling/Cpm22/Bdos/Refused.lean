import Cpm22.Bdos.Files

set_option relaxedAutoImplicit false
set_option autoImplicit false

/-!
# The file operations, with the drive a restart leaves

Where the drive or the file is read-only, the BDOS prints a message and restarts the system in the
middle of a call: `JUMPHL` does not return. What the call had done to the disk until then stays
done. The routines of `Cpm22.Bdos.File` give no result there; the ones of this file are the same
routines with the drive as it is at the restart in place of it.

## Main definitions

* `Cpm22.Bdos.Refused.getNext`, `rdSeq1`, `wtSeq1`, … — the routines that a read-only drive or file
  ends.
* `Cpm22.Bdos.Refused.left` — the drive behind a call, whether it returned or not.

## Main results

* `Cpm22.Bdos.Refused.toOption_readRan`, … — a call that returns does what `Cpm22.Bdos.File` says.
-/

namespace Cpm22

namespace Bdos

open BitMap Disk

namespace Refused

/-- **The drive behind a call**: as the call returns it, or as it is where the system is
restarted. -/
def left {α : Type} : Except Drive (α × Drive) → Drive
  | .error s => s
  | .ok r => r.2

variable (d : Dpb)

/-! ## Extents -/

/-- **`GETEMPTY`**, which looks at the protection before anything else. -/
def getEmpty (f : FileFcb) (s : Drive) : Except Drive (FileFcb × Drive) :=
  match File.getEmpty d f s with
  | none => .error s
  | some r => .ok r

/-- `GTNEXT2`. Only `GETEMPTY` can restart the system here, which it does when the file is written
and the drive is read-only. -/
def nextEntry (reading : Bool) (f : FileFcb) (s : Drive) : Except Drive (FileFcb × Drive) :=
  let s := s.findFst d f.entry 15
  if s.filePos ≠ none then .ok (File.openIt1 f s, { s with status := 0 })
  else if reading then .ok (File.noExtent f s)
  else
    match getEmpty d f s with
    | .error s => .error s
    | .ok (f, s) =>
      if s.filePos = none then .ok (File.noExtent f s) else .ok (f, { s with status := 0 })

/-- **`GETNEXT`**. Closing never restarts the system: on a read-only drive the directory is left
alone. -/
def getNext (reading : Bool) (f : FileFcb) (s : Drive) : Except Drive (FileFcb × Drive) :=
  let (f, s, closed) := File.closeIt d f s
  if s.filePos = none then .ok (f, s)
  else
    let xl := (f.entry.xl + 1) &&& 0x1f
    let f := { f with entry := { f.entry with xl := xl } }
    if xl = 0 then
      let f := { f with entry := { f.entry with xh := f.entry.xh + 1 } }
      if f.entry.xh &&& 0x0f = 0 then .ok (File.noExtent f s) else nextEntry d reading f s
    else if xl &&& UInt8.ofNat d.exm = 0 ∨ closed = false then nextEntry d reading f s
    else .ok (File.openIt1 f s, { s with status := 0 })

/-! ## Records -/

/-- **`RDSEQ1`**. Reading restarts the system nowhere, but the next extent is opened by a routine
that writing uses, too. -/
def rdSeq1 (mode : UInt8) (f : FileFcb) (s : Drive) : Except Drive (FileFcb × Drive) :=
  let v := File.strData d f
  if v.nrec < v.nxt then .ok (File.rdRecord d mode v f s)
  else if v.nrec ≠ 128 then .ok (f, { s with status := 1 })
  else
    match getNext d true f s with
    | .error s => .error s
    | .ok (f, s) =>
      if s.status ≠ 0 then .ok (f, { s with status := 1 })
      else .ok (File.rdRecord d mode { File.strData d f with nrec := 0 } f s)

/-- `WTSEQ6` to `WTSEQ12`: here the record is written before the next extent is asked for. So a
restart in `GETNEXT` would leave a record behind, and the drive of the error has it. -/
def wtRecord (mode : UInt8) (new : Bool) (v : File.Saved) (f : FileFcb) (s : Drive) :
    Except Drive (FileFcb × Drive) :=
  if s.status ≠ 0 then .ok (f, s)
  else
    let (f, s) := File.putRecord d mode new v f s
    if v.nrec = 127 ∧ mode = 1 then
      match getNext d false f s with
      | .error s => .error s
      | .ok (f, s) =>
        let v :=
          if s.status = 0 then { File.strData d f with nrec := 0xff } else File.counted v
        .ok (File.setNRec mode v f, { s with status := 0 })
    else .ok (f, s)

/-- **`WTSEQ1`**. The two tests that restart the system come before anything is written; another one
is in `GETEMPTY`, behind the record. -/
def wtSeq1 (mode : UInt8) (f : FileFcb) (s : Drive) : Except Drive (FileFcb × Drive) :=
  if s.wrtPrt then .error s
  else if readOnly f.entry then .error s
  else
    let v := File.strData d f
    if 128 ≤ v.nrec then .ok (f, { s with status := 1 })
    else if comBlk d f v.nrec v.ext ≠ 0 then wtRecord d mode false v f s
    else
      let idx := (getBlock d v.nrec v.ext).toNat
      let near := UInt16.ofNat (File.nearBlock d f idx)
      let r := fndSpace s.alv (UInt16.ofNat d.dsm) near near
      let s := { s with alv := r.2 }
      if r.1 = 0 then .ok (f, { s with status := 2 })
      else
        let f := { f with entry := f.entry.setPointer (pointers d) idx r.1.toNat }
        wtRecord d mode true v f s

/-! ## Random access -/

/-- `POSITN2`. The old extent was closed when `GETEMPTY` restarts the system, so that the drive of
the error may have a newer directory. -/
def posExtent (reading : Bool) (p : Place) (f : FileFcb) (s : Drive) :
    Except Drive (FileFcb × Drive) :=
  let (f, s, _) := File.closeIt d f s
  if s.status = 0xff then .ok (File.posLost 3 f s)
  else
    let f := { f with entry := { f.entry with xl := p.ext, xh := p.s2 } }
    let (f, s) := File.openIt d f s
    if s.status ≠ 0xff then .ok (f, { s with status := 0 })
    else if reading then .ok (File.posLost 4 f s)
    else
      match getEmpty d f s with
      | .error s => .error s
      | .ok (f, s) =>
        if s.status = 0xff then .ok (File.posLost 5 f s) else .ok (f, { s with status := 0 })

/-- **`POSITION`**. -/
def position (reading : Bool) (f : FileFcb) (s : Drive) : Except Drive (FileFcb × Drive) :=
  let p := posRecord f.r0 f.r1
  if f.r2 ≠ 0 then .ok (File.posError 6 f s)
  else
    let f := { f with cr := p.cr }
    if p.ext = f.entry.xl ∧ (p.s2 - f.entry.xh) &&& 0x7f = 0 then .ok (f, { s with status := 0 })
    else posExtent d reading p f s

/-- **`READRAN`**. -/
def readRan (f : FileFcb) (s : Drive) : Except Drive (FileFcb × Drive) :=
  match position d true f s with
  | .error s => .error s
  | .ok (f, s) => if s.status = 0 then rdSeq1 d 0 f s else .ok (f, s)

/-- **`WRITERAN`** and `WTSPECL`. -/
def writeRan (mode : UInt8) (f : FileFcb) (s : Drive) : Except Drive (FileFcb × Drive) :=
  match position d false f s with
  | .error s => .error s
  | .ok (f, s) => if s.status = 0 then wtSeq1 d mode f s else .ok (f, s)

/-! ## All entries of a name -/

/-- One round of `ERAFIL1`, `CHGNAM1` and `SAVATR1`: `CHKROFL` comes before the change. -/
def entryRound (protect : Bool) (change : CpmDir → CpmDir)
    (map : CpmDir → (ℕ → UInt8) → ℕ → UInt8) (s : Drive) : Except Drive (Unit × Drive) :=
  match File.entryRound d protect change map s with
  | none => .error s
  | some s => .ok ((), s)

/-- **The rounds of `ERAFIL1`, `CHGNAM1` and `SAVATR1`**: where a file is read-only, the entries in
front of it have been changed. -/
def eachEntry (round : Drive → Except Drive (Unit × Drive)) (f : CpmDir) :
    ℕ → Drive → Except Drive (Unit × Drive)
  | 0, s => .ok ((), s)
  | k + 1, s =>
    if s.filePos = none then .ok ((), s)
    else
      match round s with
      | .error s => .error s
      | .ok (_, s) => eachEntry round f k (s.findNxt d f 12)

/-- **`DELFILE`**, behind `AUTOSEL`. -/
def delFile (f : CpmDir) (s : Drive) : Except Drive (Unit × Drive) :=
  if s.wrtPrt then .error s
  else
    match eachEntry d (entryRound d true File.erased fun e => setFileMap d e false) f (d.drm + 2)
        (s.findFst d f 12) with
    | .error s => .error s
    | .ok (_, s) => .ok ((), File.stStatus s)

/-- **`RENFILE`**, behind `AUTOSEL`. -/
def renFile (f : CpmDir) (s : Drive) : Except Drive (CpmDir × Drive) :=
  if s.wrtPrt then .error s
  else
    match eachEntry d (entryRound d true (File.renamed (File.newName f)) fun _ => id) f (d.drm + 2)
        (s.findFst d f 12) with
    | .error s => .error s
    | .ok (_, s) => .ok ({ f with al := Function.update f.al 0 f.st }, File.stStatus s)

/-- **`SETATTR`**, behind `AUTOSEL`. -/
def setAttr (f : CpmDir) (s : Drive) : Except Drive (Unit × Drive) :=
  match eachEntry d (entryRound d false (File.renamed f) fun _ => id) f (d.drm + 2)
      (s.findFst d f 12) with
  | .error s => .error s
  | .ok (_, s) => .ok ((), File.stStatus s)

/-! ## Calls that return -/

variable {d} (f : FileFcb) (s : Drive)

/-- `GETEMPTY` that returns. -/
lemma toOption_getEmpty : (getEmpty d f s).toOption = File.getEmpty d f s := by
  unfold getEmpty
  cases File.getEmpty d f s <;> rfl

/-- `GTNEXT2` that returns. -/
lemma toOption_nextEntry (reading : Bool) :
    (nextEntry d reading f s).toOption = File.nextEntry d reading f s := by
  unfold nextEntry File.nextEntry
  simp only [← toOption_getEmpty]
  split
  · rfl
  · split
    · rfl
    · cases getEmpty d f (s.findFst d f.entry 15) with
      | error t => rfl
      | ok r => exact apply_ite Except.toOption _ _ _

/-- `GETNEXT` that returns. -/
lemma toOption_getNext (reading : Bool) :
    (getNext d reading f s).toOption = File.getNext d reading f s := by
  unfold getNext File.getNext
  simp only [← toOption_nextEntry]
  split
  · rfl
  · split
    · split <;> rfl
    · split <;> rfl

/-- `RDSEQ1` that returns. -/
lemma toOption_rdSeq1 (mode : UInt8) : (rdSeq1 d mode f s).toOption = File.rdSeq1 d mode f s := by
  unfold rdSeq1 File.rdSeq1
  simp only [← toOption_getNext]
  split
  · rfl
  · split
    · rfl
    · cases getNext d true f s with
      | error t => rfl
      | ok r => exact apply_ite Except.toOption _ _ _

/-- `WTSEQ6` that returns. -/
lemma toOption_wtRecord (mode : UInt8) (new : Bool) (v : File.Saved) :
    (wtRecord d mode new v f s).toOption = File.wtRecord d mode new v f s := by
  unfold wtRecord File.wtRecord
  simp only [← toOption_getNext]
  split
  · rfl
  · split
    · cases getNext d false (File.putRecord d mode new v f s).1
          (File.putRecord d mode new v f s).2 with
      | error t => rfl
      | ok r => rfl
    · rfl

/-- `WTSEQ1` that returns. -/
lemma toOption_wtSeq1 (mode : UInt8) : (wtSeq1 d mode f s).toOption = File.wtSeq1 d mode f s := by
  unfold wtSeq1 File.wtSeq1
  simp only [← toOption_wtRecord]
  split
  · rfl
  · split
    · rfl
    · split
      · rfl
      · split
        · rfl
        · split <;> rfl

/-- `POSITN2` that returns. -/
lemma toOption_posExtent (reading : Bool) (p : Place) :
    (posExtent d reading p f s).toOption = File.posExtent d reading p f s := by
  unfold posExtent File.posExtent
  simp only [← toOption_getEmpty]
  generalize File.closeIt d f s = c
  obtain ⟨f₁, s₁, closed⟩ := c
  simp only
  generalize File.openIt d { f₁ with entry := { f₁.entry with xl := p.ext, xh := p.s2 } } s₁ = o
  obtain ⟨f₂, s₂⟩ := o
  simp only
  split
  · rfl
  · split
    · rfl
    · split
      · rfl
      · cases getEmpty d f₂ s₂ with
        | error t => rfl
        | ok r => exact apply_ite Except.toOption _ _ _

/-- `POSITION` that returns. -/
lemma toOption_position (reading : Bool) :
    (position d reading f s).toOption = File.position d reading f s := by
  unfold position File.position
  simp only [← toOption_posExtent]
  split
  · rfl
  · split <;> rfl

/-- `READRAN` that returns. -/
lemma toOption_readRan : (readRan d f s).toOption = File.readRan d f s := by
  unfold readRan File.readRan
  simp only [← toOption_position, ← toOption_rdSeq1]
  cases position d true f s with
  | error t => rfl
  | ok r => exact apply_ite Except.toOption _ _ _

/-- `WRITERAN` that returns. -/
lemma toOption_writeRan (mode : UInt8) :
    (writeRan d mode f s).toOption = File.writeRan d mode f s := by
  unfold writeRan File.writeRan
  simp only [← toOption_position, ← toOption_wtSeq1]
  cases position d false f s with
  | error t => rfl
  | ok r => exact apply_ite Except.toOption _ _ _

/-- The rounds for the entries of a name, where none of them is refused. -/
lemma toOption_eachEntry (protect : Bool) (change : CpmDir → CpmDir)
    (map : CpmDir → (ℕ → UInt8) → ℕ → UInt8) (g : CpmDir) (k : ℕ) (s : Drive) :
    (eachEntry d (entryRound d protect change map) g k s).toOption.map (·.2) =
      File.eachEntry d (File.entryRound d protect change map) g k s := by
  induction k generalizing s with
  | zero => rfl
  | succ k ih =>
    simp only [eachEntry, File.eachEntry]
    split
    · rfl
    · simp only [entryRound]
      cases File.entryRound d protect change map s with
      | none => rfl
      | some t => exact ih _

/-- `DELFILE` that returns. -/
lemma toOption_delFile (g : CpmDir) :
    (delFile d g s).toOption.map (·.2) = File.delFile d g s := by
  unfold delFile File.delFile File.eraFile File.eraRound
  split
  · rfl
  · rw [← toOption_eachEntry]
    cases eachEntry d _ g (d.drm + 2) (s.findFst d g 12) <;> rfl

/-- `RENFILE` that returns. -/
lemma toOption_renFile (g : CpmDir) : (renFile d g s).toOption = File.renFile d g s := by
  unfold renFile File.renFile File.chgNames File.chgRound
  split
  · rfl
  · rw [← toOption_eachEntry]
    cases eachEntry d _ g (d.drm + 2) (s.findFst d g 12) <;> rfl

/-- `SETATTR` that returns. -/
lemma toOption_setAttr (g : CpmDir) :
    (setAttr d g s).toOption.map (·.2) = File.setAttr d g s := by
  unfold setAttr File.setAttr File.saveAttr File.attrRound
  rw [← toOption_eachEntry]
  cases eachEntry d _ g (d.drm + 2) (s.findFst d g 12) <;> rfl

end Refused

end Bdos

end Cpm22
