import Cpm22.Bdos.Keys

set_option relaxedAutoImplicit false
set_option autoImplicit false

/-!
# The file operations of the BDOS

Opening, closing and extending a file, and reading and writing its records in order and by number.
A file control block holds the entry of one extent of its file: `OPENIT` copies it from the
directory, writing changes it, and `CLOSEIT` merges it back, unless bit 7 of `S2` says that it was
not written to. Random access closes the extent it leaves and opens, or makes, the one it needs.

Each routine takes the file control block and the drive and returns both; the result is `none` where
the BDOS prints an error and restarts the system, because the drive or the file is read-only.

## Main definitions

* `Cpm22.Bdos.File.openIt`, `closeIt`, `getEmpty`, `getNext` — extents.
* `Cpm22.Bdos.File.rdSeq1`, `wtSeq1` — reading and writing a record.
* `Cpm22.Bdos.File.position`, `readRan`, `writeRan` — random access.
* `Cpm22.Bdos.File.openFil`, `fCreate` — the calls that clear `S2`.
* `Cpm22.Bdos.File.delFile`, `renFile`, `setAttr` — the calls for all entries of a name.
-/

namespace Cpm22

namespace Bdos

open BitMap Disk

namespace File

variable (d : Dpb)

/-! ## Extents -/

/-- `SETS2B7`: bit 7 of `S2` is set, the extent is not written to. -/
def setS2B7 (f : FileFcb) : FileFcb :=
  { f with entry := { f.entry with xh := f.entry.xh ||| 0x80 } }

/-- **`OPENIT1`**: the entry that a search is at is copied, with the extent byte that was asked for;
the record count is that of the entry if it is of this extent, none if it ends before, and full if
it goes on behind. -/
def openIt1 (f : FileFcb) (s : Drive) : FileFcb :=
  let e := s.fcb2HL
  { f with
    entry := { e with
      xl := f.entry.xl
      xh := e.xh ||| 0x80
      rc := if e.xl = f.entry.xl then e.rc else if e.xl < f.entry.xl then 0 else 128 } }

/-- **`OPENIT`**. -/
def openIt (f : FileFcb) (s : Drive) : FileFcb × Drive :=
  let s := s.findFst d f.entry 15
  if s.filePos = none then (f, s) else (openIt1 f s, s)

/-- **The merging of `CLOSEIT1`**, for the block numbers at some indices of the file control block
`u` and the directory entry `v`: a zero is filled in from the other one, and two different numbers
end it. -/
def merge (bps : ℕ) : List ℕ → CpmDir → CpmDir → Bool × CpmDir × CpmDir
  | [], u, v => (true, u, v)
  | i :: is, u, v =>
    let p := u.pointer bps i
    let q := v.pointer bps i
    let p' := if p = 0 then q else p
    let q' := if q = 0 then p' else q
    let u' := u.setPointer bps i p'
    let v' := v.setPointer bps i q'
    if p' = q' then merge bps is u' v' else (false, u', v')

/-- **`CLOSEIT`**: the entry of the file control block is merged into the directory, with `true` if
it was written. -/
def closeIt (f : FileFcb) (s : Drive) : FileFcb × Drive × Bool :=
  let s := { s with status := 0, filePos := some 0 }
  if s.wrtPrt then (f, s, false)
  else if f.entry.xh &&& 0x80 ≠ 0 then (f, s, false)
  else
    let s := s.findFst d f.entry 15
    if s.filePos = none then (f, s, false)
    else
      match merge (pointers d) (List.range (pointers d)) f.entry s.fcb2HL with
      | (true, u, v) =>
        let v := if u.xl < v.xl then v else { v with xl := u.xl, rc := u.rc }
        ({ f with entry := u }, s.rewrite d v, true)
      | (false, u, v) =>
        ({ f with entry := u }, { s.putEntry v with status := s.status - 1 }, false)

/-- **`GETEMPTY`**: the first unused entry gets the file control block, without records and
blocks. -/
def getEmpty (f : FileFcb) (s : Drive) : Option (FileFcb × Drive) :=
  if s.wrtPrt then none
  else
    let s := s.findFst d CpmDir.empty 1
    if s.filePos = none then some (f, s)
    else
      let f := { f with entry := { f.entry with bc := 0, rc := 0, al := fun _ => 0 } }
      some (setS2B7 f, (s.chkNmbr).rewrite d f.entry)

/-- `GTNEXT5`: the file cannot be extended. -/
def noExtent (f : FileFcb) (s : Drive) : FileFcb × Drive := (setS2B7 f, { s with status := 1 })

/-- `GTNEXT2`: the entry of the next extent is opened, or made if the file is written. If there is
none and none can be made, the file control block is left without an extent. -/
def nextEntry (reading : Bool) (f : FileFcb) (s : Drive) : Option (FileFcb × Drive) :=
  let s := s.findFst d f.entry 15
  if s.filePos ≠ none then some (openIt1 f s, { s with status := 0 })
  else if reading then some (noExtent f s)
  else
    match getEmpty d f s with
    | none => none
    | some (f, s) =>
      if s.filePos = none then some (noExtent f s) else some (f, { s with status := 0 })

/-- **`GETNEXT`**: the extent is closed and the next one opened. The extent byte counts up to 31 and
then `S2` counts; with an extent mask the next extent may be in the entry that was just closed, and
then there is no search. -/
def getNext (reading : Bool) (f : FileFcb) (s : Drive) : Option (FileFcb × Drive) :=
  let (f, s, closed) := closeIt d f s
  if s.filePos = none then some (f, s)
  else
    let xl := (f.entry.xl + 1) &&& 0x1f
    let f := { f with entry := { f.entry with xl := xl } }
    if xl = 0 then
      let f := { f with entry := { f.entry with xh := f.entry.xh + 1 } }
      if f.entry.xh &&& 0x0f = 0 then some (noExtent f s) else nextEntry d reading f s
    else if xl &&& UInt8.ofNat d.exm = 0 ∨ closed = false then nextEntry d reading f s
    else some (openIt1 f s, { s with status := 0 })

/-! ## Records -/

/-- The variables `SAVNREC`, `SAVNXT`, `SAVEXT`: the record, the record count and the extent. -/
structure Saved where
  nrec : UInt8
  nxt : UInt8
  ext : UInt8

/-- **`STRDATA`**. -/
def strData (f : FileFcb) : Saved where
  nrec := f.cr
  nxt := f.entry.rc
  ext := UInt8.ofNat d.exm &&& f.entry.xl

/-- **`SETNREC`**: the record count, and the next record in sequential mode. -/
def setNRec (mode : UInt8) (v : Saved) (f : FileFcb) : FileFcb :=
  { f with
    cr := v.nrec + if mode = 2 then 0 else mode
    entry := { f.entry with rc := v.nxt } }

/-- `RDSEQ2`: the record is read. -/
def rdRecord (mode : UInt8) (v : Saved) (f : FileFcb) (s : Drive) : FileFcb × Drive :=
  if comBlk d f v.nrec v.ext = 0 then (f, { s with status := 1 })
  else (setNRec mode v f, { s with dma := s.sec (recordSector d f v.nrec v.ext) })

/-- **`RDSEQ1`**: the current record is read, behind the last one of an extent the first of the
next. -/
def rdSeq1 (mode : UInt8) (f : FileFcb) (s : Drive) : Option (FileFcb × Drive) :=
  let v := strData d f
  if v.nrec < v.nxt then some (rdRecord d mode v f s)
  else if v.nrec ≠ 128 then some (f, { s with status := 1 })
  else
    match getNext d true f s with
    | none => none
    | some (f, s) =>
      if s.status ≠ 0 then some (f, { s with status := 1 })
      else some (rdRecord d mode { strData d f with nrec := 0 } f s)

/-- `WTSEQ7`: the sectors from the first to the one with all bits of the block mask set are filled
with zeros. -/
def zeroBlock (first : ℕ) (s : Drive) : Drive :=
  { s with
    dirBuf := fun _ => 0
    sec := fun i => if first ≤ i ∧ i ≤ first + d.blm then fun _ => 0 else s.sec i }

/-- The record count after a record was written. -/
def counted (v : Saved) : Saved := if v.nrec < v.nxt then v else { v with nxt := v.nrec + 1 }

/-- `WTSEQ6` to `WTSEQ10`: the record is written to its block, which in mode 2 is filled with zeros
before if it is new; then the file control block is updated. -/
def putRecord (mode : UInt8) (new : Bool) (v : Saved) (f : FileFcb) (s : Drive) : FileFcb × Drive :=
  let blk := UInt16.ofNat (comBlk d f v.nrec v.ext)
  let s := if mode = 2 ∧ new then zeroBlock d (logical d v.nrec blk).1.toNat s else s
  let s := { s with sec := Function.update s.sec (logical d v.nrec blk).2.toNat s.dma }
  (setNRec mode (counted v) { f with entry := { f.entry with xh := f.entry.xh &&& 0x7f } }, s)

/-- `WTSEQ6` to `WTSEQ12`: the record is written, and behind the last record of an extent the next
one is opened or made in sequential mode. -/
def wtRecord (mode : UInt8) (new : Bool) (v : Saved) (f : FileFcb) (s : Drive) :
    Option (FileFcb × Drive) :=
  if s.status ≠ 0 then some (f, s)
  else
    let (f, s) := putRecord d mode new v f s
    if v.nrec = 127 ∧ mode = 1 then
      match getNext d false f s with
      | none => none
      | some (f, s) =>
        let v := if s.status = 0 then { strData d f with nrec := 0xff } else counted v
        some (setNRec mode v f, { s with status := 0 })
    else some (f, s)

/-- The block that `WTSEQ1` starts the search for a free block at: the one in front of the record's,
or none. -/
def nearBlock (f : FileFcb) (idx : ℕ) : ℕ := if idx = 0 then 0 else f.extBlk d (idx - 1)

/-- **`WTSEQ1`**: the current record is written, to a new block if it has none. The search for a
block starts at the block in front of the record's own. A drive or a file that is read-only restarts
the system, which is `none` here. -/
def wtSeq1 (mode : UInt8) (f : FileFcb) (s : Drive) : Option (FileFcb × Drive) :=
  if s.wrtPrt then none
  else if readOnly f.entry then none
  else
    let v := strData d f
    if 128 ≤ v.nrec then some (f, { s with status := 1 })
    else if comBlk d f v.nrec v.ext ≠ 0 then wtRecord d mode false v f s
    else
      let idx := (getBlock d v.nrec v.ext).toNat
      let near := UInt16.ofNat (nearBlock d f idx)
      let r := fndSpace s.alv (UInt16.ofNat d.dsm) near near
      let s := { s with alv := r.2 }
      if r.1 = 0 then some (f, { s with status := 2 })
      else
        let f := { f with entry := f.entry.setPointer (pointers d) idx r.1.toNat }
        wtRecord d mode true v f s

/-- **`RDSEQ`**. -/
def rdSeq (f : FileFcb) (s : Drive) : Option (FileFcb × Drive) := rdSeq1 d 1 f s

/-- **`WTSEQ`**. -/
def wtSeq (f : FileFcb) (s : Drive) : Option (FileFcb × Drive) := wtSeq1 d 1 f s

/-! ## Random access -/

/-- `POSITN5`: an error code is returned, and bit 7 of `S2` set. -/
def posError (code : UInt8) (f : FileFcb) (s : Drive) : FileFcb × Drive :=
  (setS2B7 f, { s with status := code })

/-- `POSITN4`: `S2` becomes a value that no extent has, so that the next access opens its extent. -/
def posLost (code : UInt8) (f : FileFcb) (s : Drive) : FileFcb × Drive :=
  posError code { f with entry := { f.entry with xh := 0xc0 } } s

/-- `POSITN2`: the extent is closed, and the wanted one opened or made. The three ways to fail have
the codes 3, 4 and 5, and each of them leaves a file control block that no extent belongs to. -/
def posExtent (reading : Bool) (p : Place) (f : FileFcb) (s : Drive) : Option (FileFcb × Drive) :=
  let (f, s, _) := closeIt d f s
  if s.status = 0xff then some (posLost 3 f s)
  else
    let f := { f with entry := { f.entry with xl := p.ext, xh := p.s2 } }
    let (f, s) := openIt d f s
    if s.status ≠ 0xff then some (f, { s with status := 0 })
    else if reading then some (posLost 4 f s)
    else
      match getEmpty d f s with
      | none => none
      | some (f, s) =>
        if s.status = 0xff then some (posLost 5 f s) else some (f, { s with status := 0 })

/-- **`POSITION`**: the file control block is set to the record of `R0`, `R1`, `R2`. -/
def position (reading : Bool) (f : FileFcb) (s : Drive) : Option (FileFcb × Drive) :=
  let p := posRecord f.r0 f.r1
  if f.r2 ≠ 0 then some (posError 6 f s)
  else
    let f := { f with cr := p.cr }
    if p.ext = f.entry.xl ∧ (p.s2 - f.entry.xh) &&& 0x7f = 0 then some (f, { s with status := 0 })
    else posExtent d reading p f s

/-- **`READRAN`**. -/
def readRan (f : FileFcb) (s : Drive) : Option (FileFcb × Drive) :=
  match position d true f s with
  | none => none
  | some (f, s) => if s.status = 0 then rdSeq1 d 0 f s else some (f, s)

/-- **`WRITERAN`**, and with mode 2 `WTSPECL`, which fills a new block with zeros. -/
def writeRan (mode : UInt8) (f : FileFcb) (s : Drive) : Option (FileFcb × Drive) :=
  match position d false f s with
  | none => none
  | some (f, s) => if s.status = 0 then wtSeq1 d mode f s else some (f, s)

/-! ## Calls -/

/-- `CLEARS2`. -/
def clearS2 (f : FileFcb) : FileFcb := { f with entry := { f.entry with xh := 0 } }

/-- **`OPENFIL`**, behind `AUTOSEL`. -/
def openFil (f : FileFcb) (s : Drive) : FileFcb × Drive := openIt d (clearS2 f) s

/-- **`FCREATE`**, behind `AUTOSEL`. -/
def fCreate (f : FileFcb) (s : Drive) : Option (FileFcb × Drive) := getEmpty d (clearS2 f) s

/-- **The rounds of `ERAFIL1`, `CHGNAM1` and `SAVATR1`** over the entries that agree with `f` in the
name: while the search is at an entry, a round changes it, and the search goes on. -/
def eachEntry (round : Drive → Option Drive) (f : CpmDir) : ℕ → Drive → Option Drive
  | 0, s => some s
  | k + 1, s =>
    if s.filePos = none then some s
    else
      match round s with
      | none => none
      | some s => eachEntry round f k (s.findNxt d f 12)

/-- One round: the entry that the search is at is replaced, and the allocation vector with it. Where
`protect` is set, a read-only file is an error. -/
def entryRound (protect : Bool) (change : CpmDir → CpmDir)
    (map : CpmDir → (ℕ → UInt8) → ℕ → UInt8) (s : Drive) : Option Drive :=
  if protect ∧ readOnly s.fcb2HL then none
  else
    let e := change s.fcb2HL
    some (({ s with alv := map e s.alv } : Drive).rewrite d e)

/-- The entry of an erased file. -/
def erased (e : CpmDir) : CpmDir := { e with st := CpmDir.UNUSED }

/-- A round of `ERAFIL1`: the entry becomes unused and its blocks free. -/
def eraRound : Drive → Option Drive := entryRound d true erased fun e => setFileMap d e false

/-- **`ERAFILE`**: every entry of the name becomes unused and its blocks free, up to the first
read-only one. -/
def eraFile (f : CpmDir) (s : Drive) : Option Drive :=
  if s.wrtPrt then none else eachEntry d (eraRound d) f (d.drm + 2) (s.findFst d f 12)

/-- The entry with the first twelve bytes of another one, which `UPDATE` moves. -/
def renamed (new e : CpmDir) : CpmDir := { e with st := new.st, fx := new.fx, ex := new.ex }

/-- Where the new name is, behind the byte of the user. -/
lemma newName_fx (i : Fin 8) : i.val + 1 < 16 := by omega

/-- Where its extension is. -/
lemma newName_ex (i : Fin 3) : i.val + 9 < 16 := by omega

/-- The new name of a file control block for renaming, 16 bytes behind the old one and with the same
user. -/
def newName (f : CpmDir) : CpmDir :=
  { f with
    fx := fun i => f.al ⟨i.val + 1, newName_fx i⟩
    ex := fun i => f.al ⟨i.val + 9, newName_ex i⟩ }

/-- A round of `CHGNAM1`: the entry gets the new name. -/
def chgRound (new : CpmDir) : Drive → Option Drive := entryRound d true (renamed new) fun _ => id

/-- **`CHGNAMES`**: every entry of the name gets the new one, up to the first read-only one. The
user is stored in front of the new name. -/
def chgNames (f : CpmDir) (s : Drive) : Option (CpmDir × Drive) :=
  if s.wrtPrt then none
  else
    match eachEntry d (chgRound d (newName f)) f (d.drm + 2) (s.findFst d f 12) with
    | none => none
    | some s => some ({ f with al := Function.update f.al 0 f.st }, s)

/-- A round of `SAVATR1`: the entry gets the name of the file control block, with its attributes. -/
def attrRound (f : CpmDir) : Drive → Option Drive := entryRound d false (renamed f) fun _ => id

/-- **`SAVEATTR`**. -/
def saveAttr (f : CpmDir) (s : Drive) : Option Drive :=
  eachEntry d (attrRound d f) f (d.drm + 2) (s.findFst d f 12)

/-- `STSTATUS`: whether the first search found something is returned. -/
def stStatus (s : Drive) : Drive := { s with status := s.fndStat }

/-- **`DELFILE`**, behind `AUTOSEL`. -/
def delFile (f : CpmDir) (s : Drive) : Option Drive := (eraFile d f s).map stStatus

/-- **`RENFILE`**, behind `AUTOSEL`. -/
def renFile (f : CpmDir) (s : Drive) : Option (CpmDir × Drive) :=
  (chgNames d f s).map fun r => (r.1, stStatus r.2)

/-- **`SETATTR`**, behind `AUTOSEL`. -/
def setAttr (f : CpmDir) (s : Drive) : Option Drive := (saveAttr d f s).map stStatus

end File

end Bdos

end Cpm22
