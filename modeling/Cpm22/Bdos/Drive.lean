import Cpm22.Bdos.Records

set_option relaxedAutoImplicit false
set_option autoImplicit false

/-!
# The directory of a drive

What the BDOS keeps of the drive it works on, and the routines that move through its directory: a
sector is read into the directory buffer when the search enters it and compared with the checksum
vector, an entry is changed in the buffer, and the buffer is written back. The drive itself is an
array of sectors, counted from the first one of the directory, that reads what was written.

A search ends at the search limit `SCRATCH1`, which the BDOS keeps behind the last used entry. A
sector whose checksum is not the one that was noted makes the drive read-only, since the disk in it
must have been changed.

## Main definitions

* `Cpm22.Bdos.Drive` — the drive and the variables of the BDOS.
* `Cpm22.Bdos.Drive.nxEntry`, `findNxt`, `findFst` — the search.
* `Cpm22.Bdos.Drive.dirWrite`, `putEntry` — changing an entry.

## Main results

* `Cpm22.Bdos.Drive.findFst_spec` — what a search finds on a disk that was not changed.
* `Cpm22.Bdos.Drive.slot_rewrite` — what a directory write changes.
-/

namespace Cpm22

namespace Bdos

open BitMap Disk

/-- **A drive and the variables of the BDOS.** The tables that belong to the drive (allocation
vector, checksum vector, search limit) and the variables of a call are in one record; the sectors of
the reserved tracks are not in it. -/
structure Drive where
  /-- the sectors, from the first one of the directory on -/
  sec : ℕ → Sector
  /-- the allocation vector -/
  alv : ℕ → UInt8
  /-- the checksum vector -/
  csv : ℕ → UInt8
  /-- the search limit `SCRATCH1` -/
  scratch1 : ℕ
  /-- the bit of the drive in `WRTPRT` -/
  wrtPrt : Bool
  /-- the directory buffer -/
  dirBuf : Sector
  /-- the slot a search is at, `none` for `0FFFFH` -/
  filePos : Option ℕ
  /-- `FNDSTAT`, whether a search found something -/
  fndStat : UInt8
  /-- the status that is returned -/
  status : UInt8
  /-- the buffer of the user for transfers -/
  dma : Sector

namespace Drive

/-! ## The routines -/

/-- An entry of the directory, on the disk. -/
def slot (s : Drive) (n : ℕ) : CpmDir := entryOf (s.sec (n / 4)) (place4 n)

/-- `FCB2HL`: the entry in the directory buffer that a search is at. -/
def fcb2HL (s : Drive) : CpmDir := entryOf s.dirBuf (place4 (s.filePos.getD 0))

/-- **`CHECKSUM`**: the sum of the bytes of the directory buffer. -/
def checkSum (b : Sector) : UInt8 := (List.finRange 128).foldl (fun a i => a + b i) 0

variable (d : Dpb)

/-- **`WRTPRTD`**: the drive becomes read-only, and searches go up to the end of the directory. -/
def wrtPrtD (s : Drive) : Drive := { s with wrtPrt := true, scratch1 := d.drm + 1 }

/-- **`CHECKDIR`** at slot `n`: the checksum of the buffer is noted, or compared with the noted
one. -/
def checkDir (note : Bool) (n : ℕ) (s : Drive) : Drive :=
  if d.cks ≤ n / 4 then s
  else if note then { s with csv := Function.update s.csv (n / 4) (checkSum s.dirBuf) }
  else if checkSum s.dirBuf = s.csv (n / 4) then s
  else if n < s.scratch1 then wrtPrtD d s
  else s

/-- The slot behind the one a search is at. -/
def nextSlot : Option ℕ → ℕ
  | none => 0
  | some n => n + 1

/-- **`NXENTRY`**: on to the next slot; the first slot of a sector reads the sector. -/
def nxEntry (note : Bool) (s : Drive) : Drive :=
  let n := nextSlot s.filePos
  if d.drm < n then { s with filePos := none }
  else if n % 4 ≠ 0 then { s with filePos := some n }
  else checkDir d note n { s with filePos := some n, dirBuf := s.sec (n / 4) }

/-- `FNDNXT6`: nothing was found. -/
def notFound (s : Drive) : Drive := { s with filePos := none, status := 0xff }

/-- `FNDNXT5`: the entry at slot `n` was found. -/
def found (n : ℕ) (s : Drive) : Drive :=
  { s with
    status := UInt8.ofNat (n % 4)
    fndStat := if s.fndStat &&& 0x80 ≠ 0 then 0 else s.fndStat }

/-- **`FINDNXT`**: on to the next entry that agrees with `f` in its first `count` bytes. The first
argument bounds the number of rounds; a search passes every slot once. -/
def findNxtLoop (f : CpmDir) (count : ℕ) : ℕ → Drive → Drive
  | 0, s => s
  | k + 1, s =>
    let s := nxEntry d false s
    match s.filePos with
    | none => notFound s
    | some n =>
      if f.st ≠ CpmDir.UNUSED ∧ s.scratch1 ≤ n then notFound s
      else if matching d.exm count f s.fcb2HL then found n s
      else findNxtLoop f count k s

/-- `FINDNXT`, with rounds for all slots. -/
def findNxt (f : CpmDir) (count : ℕ) (s : Drive) : Drive := findNxtLoop d f count (d.drm + 2) s

/-- **`FINDFST`**: the first entry that agrees. -/
def findFst (f : CpmDir) (count : ℕ) (s : Drive) : Drive :=
  findNxt d f count { s with fndStat := 0xff, filePos := none }

/-- An entry of the directory buffer is replaced, at the slot a search is at. -/
def putEntry (e : CpmDir) (s : Drive) : Drive :=
  { s with dirBuf := Bdos.put s.dirBuf (place4 (s.filePos.getD 0)) e }

/-- **`DIRWRITE`**: the checksum is noted and the buffer written. -/
def dirWrite (s : Drive) : Drive :=
  let n := s.filePos.getD 0
  let s := checkDir d true n s
  { s with sec := Function.update s.sec (n / 4) s.dirBuf }

/-- `CHKNMBR`: the search limit stays behind the slot a search is at. -/
def chkNmbr (s : Drive) : Drive :=
  let n := s.filePos.getD 0
  if n < s.scratch1 then s else { s with scratch1 := n + 1 }

/-! ## Searching -/

variable {d} {s : Drive} {n : ℕ}

/-- **The noted checksums are those of the directory**: the disk was not changed. -/
def Unchanged (d : Dpb) (s : Drive) : Prop :=
  ∀ i < d.cks, i * 4 ≤ d.drm → s.csv i = checkSum (s.sec i)

/-- **A search leaves the disk and its tables as they are**; it changes the position, the buffer
and the results. -/
structure Moved (s s' : Drive) : Prop where
  sec : s'.sec = s.sec
  alv : s'.alv = s.alv
  csv : s'.csv = s.csv
  scratch1 : s'.scratch1 = s.scratch1
  wrtPrt : s'.wrtPrt = s.wrtPrt
  dma : s'.dma = s.dma

/-- The disk and its tables are as before. -/
structure SameDisk (s s' : Drive) : Prop where
  sec : s'.sec = s.sec
  alv : s'.alv = s.alv
  csv : s'.csv = s.csv
  scratch1 : s'.scratch1 = s.scratch1
  wrtPrt : s'.wrtPrt = s.wrtPrt

/-- The entries of the same disk. -/
lemma SameDisk.slot {s s' : Drive} (h : SameDisk s s') (n : ℕ) : s'.slot n = s.slot n := by
  rw [Drive.slot, Drive.slot, h.sec]

/-- A search leaves the disk. -/
lemma Moved.sameDisk {s s' : Drive} (h : Moved s s') : SameDisk s s' :=
  ⟨h.sec, h.alv, h.csv, h.scratch1, h.wrtPrt⟩

/-- A search has not moved. -/
lemma Moved.refl (s : Drive) : Moved s s := ⟨rfl, rfl, rfl, rfl, rfl, rfl⟩

/-- Two searches after each other. -/
lemma Moved.trans {s t u : Drive} (h : Moved s t) (h' : Moved t u) : Moved s u :=
  ⟨h'.sec.trans h.sec, h'.alv.trans h.alv, h'.csv.trans h.csv, h'.scratch1.trans h.scratch1,
    h'.wrtPrt.trans h.wrtPrt, h'.dma.trans h.dma⟩

/-- The entries after a search. -/
lemma Moved.slot {s s' : Drive} (h : Moved s s') (n : ℕ) : s'.slot n = s.slot n :=
  h.sameDisk.slot n

/-- The disk is unchanged after a search. -/
lemma Moved.unchanged {s s' : Drive} (h : Moved s s') (hu : Unchanged d s) : Unchanged d s' := by
  intro i hi hle
  rw [h.csv, h.sec]
  exact hu i hi hle

/-- The buffer holds the sector of the slot that a search is at. -/
def Buffered (s : Drive) : Prop := ∀ n, s.filePos = some n → s.dirBuf = s.sec (n / 4)

/-- The entry in the buffer is the one on the disk. -/
lemma Buffered.fcb2HL (h : Buffered s) (hn : s.filePos = some n) : s.fcb2HL = s.slot n := by
  rw [Drive.fcb2HL, Drive.slot, h n hn, hn]
  rfl

/-- **One step of a search** on a disk that was not changed.

**Proof sketch.** Behind the last slot the search ends. At the first slot of a sector the sector is
read, and its checksum is the stored one, since the disk was not changed. At the other slots the
buffer is still that of the sector. -/
lemma nxEntry_spec (hu : Unchanged d s) (hb : Buffered s) :
    Moved s (nxEntry d false s) ∧ Buffered (nxEntry d false s) ∧
      (nxEntry d false s).fndStat = s.fndStat ∧
      (nxEntry d false s).filePos =
        if d.drm < nextSlot s.filePos then none else some (nextSlot s.filePos) := by
  unfold nxEntry
  by_cases hend : d.drm < nextSlot s.filePos
  · simp only [hend, if_true]
    exact ⟨⟨rfl, rfl, rfl, rfl, rfl, rfl⟩, fun n hn => by simp at hn, by simp⟩
  · simp only [hend, if_false]
    by_cases hfirst : nextSlot s.filePos % 4 = 0
    · have hsame : checkDir d false (nextSlot s.filePos)
          { s with
            filePos := some (nextSlot s.filePos)
            dirBuf := s.sec (nextSlot s.filePos / 4) } =
          { s with
            filePos := some (nextSlot s.filePos)
            dirBuf := s.sec (nextSlot s.filePos / 4) } := by
        unfold checkDir
        by_cases hcks : d.cks ≤ nextSlot s.filePos / 4
        · rw [if_pos hcks]
        · have hsum := hu (nextSlot s.filePos / 4) (by omega) (by omega)
          simp [hcks, hsum]
      simp only [hfirst, ne_eq, not_true_eq_false, if_false, hsame]
      refine ⟨⟨rfl, rfl, rfl, rfl, rfl, rfl⟩, fun n hn => ?_, by simp⟩
      obtain rfl := Option.some.inj hn
      rfl
    · simp only [hfirst, ne_eq, not_false_eq_true, if_true]
      refine ⟨⟨rfl, rfl, rfl, rfl, rfl, rfl⟩, fun n hn => ?_, by simp⟩
      obtain rfl := Option.some.inj hn
      cases hpos : s.filePos with
      | none => simp [hpos, nextSlot] at hfirst
      | some k =>
        have hk := hb k hpos
        rw [hpos] at hfirst
        simp only [nextSlot] at *
        rw [hk, show (k + 1) / 4 = k / 4 by omega]

/-- The slot is in front of the search limit, or the limit does not count. -/
def InSearch (f : CpmDir) (s : Drive) (n : ℕ) : Prop := f.st ≠ CpmDir.UNUSED → n < s.scratch1

/-- **What a search from slot `m` on ends with**: the first entry that agrees, or nothing. -/
def Ends (d : Dpb) (f : CpmDir) (count : ℕ) (s : Drive) (m : ℕ) (s' : Drive) : Prop :=
  (∃ n, m ≤ n ∧ n ≤ d.drm ∧ InSearch f s n ∧ matching d.exm count f (s.slot n) = true ∧
    (∀ i, m ≤ i → i < n → matching d.exm count f (s.slot i) = false) ∧
    s'.filePos = some n ∧ s'.status = UInt8.ofNat (n % 4) ∧
    s'.fndStat = if s.fndStat &&& 0x80 ≠ 0 then 0 else s.fndStat) ∨
  ((∀ i, m ≤ i → i ≤ d.drm → InSearch f s i → matching d.exm count f (s.slot i) = false) ∧
    s'.filePos = none ∧ s'.status = 0xff ∧ s'.fndStat = s.fndStat)

/-- **The search on a disk that was not changed.**

**Proof sketch.** Induction on the rounds. A round moves on to the next slot, whose entry is in the
buffer; if it does not agree, what the rest of the search finds is the first one behind it. -/
lemma findNxtLoop_spec (f : CpmDir) (count k : ℕ) : ∀ s : Drive, Unchanged d s → Buffered s →
    d.drm + 2 ≤ k + nextSlot s.filePos → nextSlot s.filePos ≤ d.drm + 1 →
    Moved s (findNxtLoop d f count k s) ∧ Buffered (findNxtLoop d f count k s) ∧
      Ends d f count s (nextSlot s.filePos) (findNxtLoop d f count k s) := by
  induction k with
  | zero =>
    intro s _ _ hk hle
    omega
  | succ k ih =>
    intro s hu hb hk hle
    obtain ⟨hmv, hbuf, hstat, hpos⟩ := nxEntry_spec hu hb
    simp only [findNxtLoop]
    generalize nxEntry d false s = t at *
    by_cases hend : d.drm < nextSlot s.filePos
    · rw [if_pos hend] at hpos
      simp only [hpos]
      refine ⟨hmv.trans ⟨rfl, rfl, rfl, rfl, rfl, rfl⟩, fun n hn => by simp [notFound] at hn,
        .inr ⟨fun i h1 h2 _ => ?_, rfl, rfl, hstat⟩⟩
      omega
    · rw [if_neg hend] at hpos
      simp only [hpos]
      set m := nextSlot s.filePos with hm
      have hentry : t.fcb2HL = s.slot m := by rw [hbuf.fcb2HL hpos, hmv.slot]
      by_cases hlim : f.st ≠ CpmDir.UNUSED ∧ t.scratch1 ≤ m
      · rw [if_pos hlim]
        refine ⟨hmv.trans ⟨rfl, rfl, rfl, rfl, rfl, rfl⟩, fun n hn => by simp [notFound] at hn,
          .inr ⟨fun i h1 h2 hin => ?_, rfl, rfl, hstat⟩⟩
        have := hin hlim.1
        rw [← hmv.scratch1] at this
        omega
      · rw [if_neg hlim, hentry]
        have hin : InSearch f s m := by
          intro hf
          rw [← hmv.scratch1]
          by_contra hge
          exact hlim ⟨hf, by omega⟩
        by_cases hmatch : matching d.exm count f (s.slot m) = true
        · rw [if_pos hmatch]
          refine ⟨hmv.trans ⟨rfl, rfl, rfl, rfl, rfl, rfl⟩, fun n hn => hbuf n hn,
            .inl ⟨m, le_rfl, by omega, hin, hmatch, fun i h1 h2 => by omega, hpos, rfl, ?_⟩⟩
          simp only [found, hstat]
        · rw [if_neg hmatch]
          have hnext : nextSlot t.filePos = m + 1 := by rw [hpos]; rfl
          obtain ⟨hmv', hbuf', hends⟩ := ih t (hmv.unchanged hu) hbuf (by omega) (by omega)
          refine ⟨hmv.trans hmv', hbuf', ?_⟩
          rw [hnext] at hends
          rw [Bool.not_eq_true] at hmatch
          rcases hends with ⟨n, h1, h2, h3, h4, h5, h6, h7, h8⟩ | ⟨h1, h2, h3, h4⟩
          · refine .inl ⟨n, by omega, h2, ?_, by rw [← hmv.slot]; exact h4, ?_, h6, h7, ?_⟩
            · intro hf
              rw [← hmv.scratch1]
              exact h3 hf
            · intro i hi1 hi2
              rcases Nat.eq_or_lt_of_le hi1 with rfl | hlt
              · exact hmatch
              · rw [← hmv.slot]
                exact h5 i hlt hi2
            · rw [h8, hstat]
          · refine .inr ⟨fun i hi1 hi2 hi3 => ?_, h2, h3, by rw [h4, hstat]⟩
            rcases Nat.eq_or_lt_of_le hi1 with rfl | hlt
            · exact hmatch
            · rw [← hmv.slot]
              refine h1 i hlt hi2 ?_
              intro hf
              rw [hmv.scratch1]
              exact hi3 hf

/-- **What `FINDFST` ends with** on a disk that was not changed: the first entry that agrees, or
nothing. -/
lemma findFst_spec (hu : Unchanged d s) (f : CpmDir) (count : ℕ) :
    Moved s (findFst d f count s) ∧ Buffered (findFst d f count s) ∧
      Ends d f count { s with fndStat := 0xff } 0 (findFst d f count s) := by
  have hbuf : Buffered { s with fndStat := 0xff, filePos := none } := fun n hn => by simp at hn
  obtain ⟨hmv, hb, hends⟩ := findNxtLoop_spec f count (d.drm + 2)
    { s with fndStat := 0xff, filePos := none } hu hbuf (by simp [nextSlot]) (by simp [nextSlot])
  exact ⟨⟨hmv.sec, hmv.alv, hmv.csv, hmv.scratch1, hmv.wrtPrt, hmv.dma⟩, hb, hends⟩

/-! ## Directory writes -/

/-- **A directory write that changes the entry a search is at.** -/
def rewrite (d : Dpb) (e : CpmDir) (s : Drive) : Drive := dirWrite d (putEntry e s)

/-- The sectors after a directory write. -/
lemma sec_rewrite (hb : Buffered s) (hn : s.filePos = some n) (e : CpmDir) :
    (rewrite d e s).sec =
      Function.update s.sec (n / 4) (Bdos.put (s.sec (n / 4)) (place4 n) e) := by
  have hbuf := hb n hn
  simp only [rewrite, dirWrite, putEntry, hn, Option.getD_some, checkDir, hbuf]
  split
  · rfl
  · simp

/-- What a directory write leaves as it is. -/
lemma rewrite_frame (e : CpmDir) (s : Drive) : (rewrite d e s).alv = s.alv ∧
    (rewrite d e s).scratch1 = s.scratch1 ∧ (rewrite d e s).wrtPrt = s.wrtPrt ∧
    (rewrite d e s).dma = s.dma ∧ (rewrite d e s).filePos = s.filePos ∧
    (rewrite d e s).status = s.status ∧ (rewrite d e s).fndStat = s.fndStat := by
  simp only [rewrite, dirWrite, putEntry, checkDir]
  split <;> simp

/-- **The entries after a directory write**: the one that was changed, and the others as before. -/
lemma slot_rewrite (hb : Buffered s) (hn : s.filePos = some n) (e : CpmDir) (m : ℕ) :
    (rewrite d e s).slot m = if m = n then e else s.slot m := by
  rw [slot, sec_rewrite hb hn]
  by_cases hsec : m / 4 = n / 4
  · rw [hsec, Function.update_self, entryOf_put, slot, hsec]
    have hplace : place4 m = place4 n ↔ m = n := by
      rw [Fin.ext_iff]
      show m % 4 = n % 4 ↔ m = n
      omega
    simp only [hplace]
  · have hne : m ≠ n := by
      rintro rfl
      exact hsec rfl
    rw [Function.update_of_ne hsec, if_neg hne, slot]

/-- A directory write notes the checksum of what it writes. -/
lemma unchanged_rewrite (hu : Unchanged d s) (hb : Buffered s) (hn : s.filePos = some n)
    (e : CpmDir) : Unchanged d (rewrite d e s) := by
  intro i hi hle
  have hbuf := hb n hn
  rw [sec_rewrite hb hn]
  simp only [rewrite, dirWrite, putEntry, hn, Option.getD_some, checkDir, hbuf, if_true]
  by_cases hin : i = n / 4
  · subst hin
    rw [if_neg (by omega), Function.update_self]
    exact Function.update_self ..
  · rw [Function.update_of_ne hin]
    split
    · exact hu i hi hle
    · simp only [Function.update_of_ne hin]
      exact hu i hi hle

/-- The buffer holds what a directory write writes. -/
lemma buffered_rewrite (hn : s.filePos = some n) (e : CpmDir) : Buffered (rewrite d e s) := by
  intro m hm
  obtain ⟨-, -, -, -, hpos, -⟩ := rewrite_frame (d := d) e s
  rw [hpos, hn] at hm
  obtain rfl := Option.some.inj hm
  simp only [rewrite, dirWrite, putEntry, hn, Option.getD_some, checkDir]
  split <;> simp

/-- **`CHKNMBR` moves the search limit** behind the slot a search is at. -/
lemma chkNmbr_eq (hn : s.filePos = some n) :
    s.chkNmbr = { s with scratch1 := max s.scratch1 (n + 1) } := by
  simp only [chkNmbr, hn, Option.getD_some]
  by_cases h : n < s.scratch1
  · rw [if_pos h, max_eq_left (by omega)]
    simp only [← hn]
  · rw [if_neg h, max_eq_right (by omega)]

end Drive

end Bdos

end Cpm22
