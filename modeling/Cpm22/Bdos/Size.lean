import Cpm22.Bdos.Sequential

set_option relaxedAutoImplicit false
set_option autoImplicit false

/-!
# The size of a file

`SETRAN` stores the number of the current record for random access, and `RANSIZE` the size of a
file: it looks at all entries of the file, computes the number behind the last record of each, and
keeps the largest one with a subtraction of three bytes. What it stores is an upper bound of the
record numbers of the file, and for a file that was written from its start it is the number of
records.

## Main definitions

* `Cpm22.Bdos.File.random` — the number in the bytes of random access.
* `Cpm22.Bdos.File.setRan` — the number of the current record.
* `Cpm22.Bdos.File.ranSize` — the size of a file.

## Main results

* `Cpm22.Bdos.File.ranSize_exact` — the size is the least bound of all entries.
* `Cpm22.Bdos.File.ranSize_writeAll` — the size of a file that was written from its start.
* `Cpm22.Bdos.File.setRan_resumes` — random access goes on where sequential access was.
-/

namespace Cpm22

namespace Bdos

open Disk Drive

namespace File

/-! ## The routines -/

/-- The number in the bytes `R0`, `R1` and `R2`. -/
def random (f : FileFcb) : ℕ := f.r0.toNat + 256 * f.r1.toNat + 65536 * f.r2.toNat

/-- The bytes of a record number are stored in a file control block. -/
def setBytes (t : UInt8 × UInt8 × UInt8) (f : FileFcb) : FileFcb :=
  { f with r0 := t.1, r1 := t.2.1, r2 := t.2.2 }

/-- **`SETRAN`**: the number of the current record. -/
def setRan (f : FileFcb) : FileFcb := setBytes (comPRand ⟨f.cr, f.entry.xl, f.entry.xh⟩) f

/-- The carry of `SUB` and `SBC`. -/
def borrow (a b : UInt8) (carry : Bool) : Bool := decide (a.toNat < b.toNat + carry.toNat)

/-- A round of `RANSIZ1`: the number behind the last record of the entry is stored, unless a larger
one is there. -/
def ranSiz1 (e : CpmDir) (f : FileFcb) : FileFcb :=
  let t := comPRand ⟨e.rc, e.xl, e.xh⟩
  if borrow t.2.2 f.r2 (borrow t.2.1 f.r1 (borrow t.1 f.r0 false)) then f else setBytes t f

variable (d : Dpb)

/-- The rounds of `RANSIZ1`, with a bound of their number. -/
def ranSizeLoop : ℕ → FileFcb → Drive → FileFcb × Drive
  | 0, f, s => (f, s)
  | k + 1, f, s =>
    if s.filePos = none then (f, s)
    else ranSizeLoop k (ranSiz1 s.fcb2HL f) (s.findNxt d f.entry 12)

/-- **`RANSIZE`**, and behind `AUTOSEL` the function `FILESIZE`. -/
def ranSize (f : FileFcb) (s : Drive) : FileFcb × Drive :=
  ranSizeLoop d (d.drm + 2) { f with r0 := 0, r1 := 0, r2 := 0 } (s.findFst d f.entry 12)

/-! ## One entry -/

variable {d} {s : Drive} {E : ℕ → CpmDir} {f : FileFcb}

/-- The number behind the last record of an entry, as `COMPRAND` has it. -/
def endOf (e : CpmDir) : ℕ :=
  let t := comPRand ⟨e.rc, e.xl, e.xh⟩
  t.1.toNat + 256 * t.2.1.toNat + 65536 * t.2.2.toNat

/-- **Without a carry the number is that of the extents in front and of the records.** -/
lemma endOf_eq {e : CpmDir} (hxh : e.xh.toNat < 16) :
    endOf e = 128 * extOf e + e.rc.toNat := by
  have hnum := comPRand_number ⟨e.rc, e.xl, e.xh⟩ (by show e.xh.toNat / 16 % 2 = 0; omega)
  simp only at hnum
  rw [endOf, hnum, extOf]
  omega

/-- **`SETRAN` stores the number of the record that the file control block is at.** -/
lemma random_setRan (hxh : f.entry.xh.toNat % 128 < 16) :
    random (setRan f) = 128 * extOf f.entry + f.cr.toNat := by
  have hnum := comPRand_number ⟨f.cr, f.entry.xl, f.entry.xh⟩
    (by show f.entry.xh.toNat / 16 % 2 = 0; omega)
  simp only at hnum
  rw [setRan, random, setBytes, hnum, extOf]
  omega

/-- The subtraction of three bytes compares the numbers.

**Proof sketch.** By the two borrows, which say of the lower bytes which number is less. With them
the borrow of the third byte is the comparison of the numbers. -/
lemma borrow_iff (t : UInt8 × UInt8 × UInt8) (f : FileFcb) :
    borrow t.2.2 f.r2 (borrow t.2.1 f.r1 (borrow t.1 f.r0 false)) = true ↔
      random (setBytes t f) < random f := by
  have h0 := t.1.toNat_lt
  have h1 := t.2.1.toNat_lt
  have h0' := f.r0.toNat_lt
  have h1' := f.r1.toNat_lt
  simp only [random, setBytes]
  by_cases hlow : t.1.toNat < f.r0.toNat
  · have hc : borrow t.1 f.r0 false = true := by simpa [borrow] using hlow
    rw [hc]
    by_cases hmid : t.2.1.toNat < f.r1.toNat + 1
    · have hc' : borrow t.2.1 f.r1 true = true := by simpa [borrow] using hmid
      rw [hc', borrow, decide_eq_true_eq, Bool.toNat_true]
      omega
    · have hc' : borrow t.2.1 f.r1 true = false := by simpa [borrow] using hmid
      rw [hc', borrow, decide_eq_true_eq, Bool.toNat_false]
      omega
  · have hc : borrow t.1 f.r0 false = false := by simpa [borrow] using hlow
    rw [hc]
    by_cases hmid : t.2.1.toNat < f.r1.toNat
    · have hc' : borrow t.2.1 f.r1 false = true := by simpa [borrow] using hmid
      rw [hc', borrow, decide_eq_true_eq, Bool.toNat_true]
      omega
    · have hc' : borrow t.2.1 f.r1 false = false := by simpa [borrow] using hmid
      rw [hc', borrow, decide_eq_true_eq, Bool.toNat_false]
      omega

/-- **A round keeps the larger number.** -/
lemma random_ranSiz1 (e : CpmDir) (f : FileFcb) :
    random (ranSiz1 e f) = max (random f) (endOf e) := by
  have hend : random (setBytes (comPRand ⟨e.rc, e.xl, e.xh⟩) f) = endOf e := rfl
  unfold ranSiz1
  by_cases h : random (setBytes (comPRand ⟨e.rc, e.xl, e.xh⟩) f) < random f
  · rw [if_pos ((borrow_iff _ f).mpr h)]
    rw [hend] at h
    omega
  · rw [if_neg (mt (borrow_iff _ f).mp h), hend]
    rw [hend] at h
    omega

/-- A round leaves the name. -/
lemma entry_ranSiz1 (e : CpmDir) (f : FileFcb) : (ranSiz1 e f).entry = f.entry := by
  simp only [ranSiz1]
  split <;> rfl

/-! ## All entries -/

/-- The entry at slot `n` is one that the loop looks at. -/
def Counts (d : Dpb) (g : CpmDir) (s : Drive) (n : ℕ) : Prop :=
  InSearch g s n ∧ matching d.exm 12 g (s.slot n) = true

/-- **The rounds keep the largest number** of the entries from slot `m` on.

**Proof sketch.** Induction on the rounds. The search is at the first entry of the file from `m` on;
a round counts it and goes on behind it. -/
lemma ranSizeLoop_spec (hu : Unchanged d s) (g : CpmDir) (k : ℕ) :
    ∀ (m : ℕ) (f : FileFcb) (u t : Drive), f.entry = g → Moved s u → Moved u t → Buffered t →
    Ends d g 12 u m t → d.drm + 1 < k + m →
    SameDisk s (ranSizeLoop d k f t).2 ∧
      ∀ b, random (ranSizeLoop d k f t).1 ≤ b ↔ random f ≤ b ∧
        ∀ n, m ≤ n → n ≤ d.drm → Counts d g s n → endOf (s.slot n) ≤ b := by
  induction k with
  | zero =>
    intro m f u t _ hsu hut _ _ hk
    refine ⟨(hsu.trans hut).sameDisk, fun b => ⟨fun h => ⟨h, fun n h1 h2 => ?_⟩, And.left⟩⟩
    omega
  | succ k ih =>
    rintro m f u t rfl hsu hut hb he hk
    have hst := hsu.trans hut
    have hcounts (n : ℕ) : Counts d f.entry s n ↔
        InSearch f.entry u n ∧ matching d.exm 12 f.entry (u.slot n) = true := by
      rw [Counts, InSearch, InSearch, hsu.scratch1, hsu.slot]
    rw [ranSizeLoop]
    obtain ⟨n, hmn, hn, hin, hmatch, hfirst, hpos, -⟩ | ⟨hnone, hpos, -⟩ := he
    · rw [if_neg (by rw [hpos]; exact Option.some_ne_none n), hb.fcb2HL hpos, hst.slot]
      have hslot : nextSlot t.filePos = n + 1 := by rw [hpos]; rfl
      obtain ⟨hmv, hb', he'⟩ := findNxtLoop_spec f.entry 12 (d.drm + 2) t (hst.unchanged hu) hb
        (by omega) (by omega)
      rw [hslot] at he'
      obtain ⟨hsame, hle⟩ := ih (n + 1) (ranSiz1 (s.slot n) f) t _ (entry_ranSiz1 _ f) hst hmv hb'
        he' (by omega)
      refine ⟨hsame, fun b => ?_⟩
      refine (hle b).trans ?_
      rw [random_ranSiz1, Nat.max_le, and_assoc]
      refine and_congr_right fun _ => ⟨?_, fun h => ⟨?_, fun i h1 h2 => h i (by omega) h2⟩⟩
      · rintro ⟨hend, hrest⟩ i h1 h2 hi
        obtain hlt | rfl | hgt := Nat.lt_trichotomy i n
        · have := hfirst i h1 hlt
          rw [((hcounts i).mp hi).2] at this
          exact absurd this (by simp)
        · exact hend
        · exact hrest i hgt h2 hi
      · exact h n hmn hn ((hcounts n).mpr ⟨hin, hmatch⟩)
    · rw [if_pos hpos]
      refine ⟨hst.sameDisk, fun b => ⟨fun h => ⟨h, fun n h1 h2 hc => ?_⟩, And.left⟩⟩
      obtain ⟨hin, hmatch⟩ := (hcounts n).mp hc
      rw [hnone n h1 h2 hin] at hmatch
      exact absurd hmatch (by simp)

/-- The loop looks at the used entries that the name stands for. -/
lemma counts_iff (hs : Sound d s E) {g : CpmDir} (hst : g.st.toNat < 32) {n : ℕ} (hn : n ≤ d.drm) :
    Counts d g s n ↔ (s.slot n).Used ∧ Matches g (nameOf (s.slot n)) := by
  rw [Counts, matching_name_iff]
  constructor
  · rintro ⟨-, hm⟩
    refine ⟨fun hun => ?_, hm⟩
    -- an unused entry has no user
    have hq : g.toBytes 0 ≠ ch '?' := by
      intro h
      have h63 : g.st.toNat = 63 := congrArg UInt8.toNat h
      omega
    have h0 := (hm 0).resolve_left hq
    rw [nameOf_zero, nameOf_zero, hun, show CpmDir.UNUSED.toNat = 229 from rfl] at h0
    omega
  · rintro ⟨hu, hm⟩
    refine ⟨fun _ => ?_, hm⟩
    by_contra hlim
    exact hs.limit n hn (by omega) hu

/-- **`RANSIZE` by the entries of the file.**

**Proof sketch.** The search goes over all slots, and the loop keeps the largest end that it has
found (`ranSizeLoop_spec`). A slot counts iff it is used and has the name. -/
lemma ranSize_spec (f : FileFcb) (hs : Sound d s E) (hst : f.entry.st.toNat < 32) :
    SameDisk s (ranSize d f s).2 ∧ ∀ b, random (ranSize d f s).1 ≤ b ↔
      ∀ n ≤ d.drm, (s.slot n).Used → Matches f.entry (nameOf (s.slot n)) →
        128 * extOf (s.slot n) + (s.slot n).rc.toNat ≤ b := by
  obtain ⟨hmv, hb, he⟩ := findFst_spec hs.unchanged f.entry 12
  have hstart : Moved s { s with fndStat := 0xff } := ⟨rfl, rfl, rfl, rfl, rfl, rfl⟩
  have hrest : Moved { s with fndStat := 0xff } (s.findFst d f.entry 12) :=
    ⟨hmv.sec, hmv.alv, hmv.csv, hmv.scratch1, hmv.wrtPrt, hmv.dma⟩
  obtain ⟨hsame, hle⟩ := ranSizeLoop_spec hs.unchanged f.entry (d.drm + 2) 0
    { f with r0 := 0, r1 := 0, r2 := 0 } _ _ rfl hstart hrest hb he (by omega)
  refine ⟨hsame, fun b => (hle b).trans ?_⟩
  have hzero : random { f with r0 := 0, r1 := 0, r2 := 0 } = 0 := rfl
  rw [hzero]
  simp only [Nat.zero_le, true_and, forall_const]
  refine forall_congr' fun n => forall_congr' fun hn => ?_
  rw [counts_iff hs hst hn, and_imp]
  refine forall_congr' fun hu => forall_congr' fun _ => ?_
  have hview := hs.view n hn
  have hproper := hs.orderly.proper n hn (hview.used_iff.mpr hu)
  have hxh : (s.slot n).xh = (E n).xh := by rw [hview.same]
  rw [endOf_eq (by rw [hxh]; exact hproper.xh)]

/-- **The size is the least bound of all entries.** On a sound drive, with files open or not, what
`FILESIZE` stores is a bound of the numbers behind the last record of the entries that the name
stands for, and the least one; so every record of these files that is on the disk has a number below
it. The disk and its tables stay as they are. -/
theorem ranSize_exact (d : Dpb) (s : Drive) (E : ℕ → CpmDir) (f : FileFcb) (hs : Sound d s E)
    (hst : f.entry.st.toNat < 32) :
    (∀ b, random (ranSize d f s).1 ≤ b ↔ ∀ n ≤ d.drm, (s.slot n).Used →
      Matches f.entry (nameOf (s.slot n)) → 128 * extOf (s.slot n) + (s.slot n).rc.toNat ≤ b) ∧
    (∀ k r x, Matches f.entry k → Stores d s s.slot k r x → r < random (ranSize d f s).1) ∧
    SameDisk s (ranSize d f s).2 := by
  obtain ⟨hsame, hle⟩ := ranSize_spec f hs hst
  refine ⟨hle, fun k r x hk hx => ?_, hsame⟩
  obtain ⟨n, hn, hu, rfl, hext, hrc, -⟩ := hx
  have hbound := (hle _).mp le_rfl n hn hu hk
  omega

/-- `ranSize_exact` for the small disk. -/
theorem ranSize_exact_tiny :
    random (ranSize tinyDpb tinyFcb tinyDrive).1 ≤ 8 ∧
      SameDisk tinyDrive (ranSize tinyDpb tinyFcb tinyDrive).2 := by
  obtain ⟨hle, -, hsame⟩ := ranSize_exact tinyDpb tinyDrive tinyDrive.slot tinyFcb tiny_sound
    tiny_plain.user
  refine ⟨(hle 8).mpr fun n hn _ _ => ?_, hsame⟩
  obtain rfl : n = 0 := Nat.le_zero.mp hn
  rw [tiny_slot]
  decide

/-! ## A file that is written from its start -/

/-- **The size of a file that was written from its start** is the number of its records. A new file
is made on a sound drive, any records are written to it one after the other without an error, over
as many extents as they need, and the file is closed; then `FILESIZE` stores their number.

**Proof sketch.** After closing, the entries on the disk are the newest ones. None of them has a
record behind the end (`Stops`), so that the size is at most the number of records, and the last
record is one of an entry, so that it is at least this number. -/
theorem ranSize_writeAll (hd : Flat d) (hs : Sound d s s.slot) (hp : Plain f.entry)
    (hxl : f.entry.xl = 0) (hcr : f.cr = 0) (hro : readOnly f.entry = false)
    (habs : ∀ n ≤ d.drm, (s.slot n).Used → nameOf (s.slot n) ≠ nameOf f.entry)
    {f₁ f₂ : FileFcb} {s₁ s₂ : Drive} (hmake : fCreate d f s = some (f₁, s₁))
    (hst : s₁.status ≠ 0xff) (xs : List Sector) (hwrite : writeAll d xs f₁ s₁ = some (f₂, s₂)) :
    random (ranSize d f₂ (closeIt d f₂ s₂).2.1).1 = xs.length := by
  obtain ⟨E₁, hw₁, -⟩ := fCreate_writer hd hs hp hxl hcr hro habs hmake hst
  obtain ⟨E₂, hw₂, hk₂, hrecs, -⟩ := writeAll_spec hd xs f₁ s₁ E₁ 0 hw₁ hwrite
  obtain ⟨-, hk₃, hset, hpres, -⟩ := closeIt_spec hd hw₂.sound hw₂.coherent hw₂.behind.usable
  have hplain := hw₂.coherent.plain
  obtain ⟨-, hle⟩ := ranSize_spec f₂ hk₃.sound hplain.user
  -- the entries of the file are on the disk as the view has them
  have hslot : ∀ n ≤ d.drm, nameOf (E₂ n) = nameOf f₂.entry →
      (closeIt d f₂ s₂).2.1.slot n = E₂ n := fun n hn hname => (hset n hn fun _ => hname).symm
  refine Nat.le_antisymm ((hle _).mpr fun n hn hu hm => ?_) ?_
  · have hview := hk₃.sound.view n hn
    have hname : nameOf (E₂ n) = nameOf f₂.entry :=
      hview.keys.1.trans (hplain.matches_iff.mp hm).symm
    rw [hslot n hn hname] at hu ⊢
    have hstop := (hw₂.stops n hn hu hname).1
    rwa [Nat.zero_add] at hstop
  · cases hlast : xs.getLast? with
    | none =>
      rw [List.getLast?_eq_none_iff.mp hlast]
      exact Nat.zero_le _
    | some x =>
      rw [List.getLast?_eq_getElem?] at hlast
      have hlen := (List.getElem?_eq_some_iff.mp hlast).1
      obtain ⟨n, hn, hu, hname, hext, hrc, -⟩ := hpres _ _ _ (hrecs _ x hlast)
      have hname₂ : nameOf (E₂ n) = nameOf f₂.entry := hname.trans hk₂.name.symm
      have hbound := (hle _).mp le_rfl n hn (by rwa [hslot n hn hname₂])
        (hplain.matches_iff.mpr (by rw [hslot n hn hname₂, hname₂]))
      rw [hslot n hn hname₂] at hbound
      omega

/-- `ranSize_writeAll` for a file of two extents. -/
theorem ranSize_writeAll_tiny : ∃ f₁ s₁ f₂ s₂, fCreate twinDpb tinyFcb tinyBlank = some (f₁, s₁) ∧
    writeAll twinDpb twinRecords f₁ s₁ = some (f₂, s₂) ∧ f₂.entry.xl = 1 ∧
    random (ranSize twinDpb f₂ (closeIt twinDpb f₂ s₂).2.1).1 = 129 := by
  obtain ⟨f₁, s₁, f₂, s₂, hmake, hst, hwrite, hxl⟩ := twin_written
  exact ⟨f₁, s₁, f₂, s₂, hmake, hwrite, hxl, ranSize_writeAll twin_flat twinBlank_sound tiny_plain
    rfl rfl rfl twinBlank_absent hmake hst twinRecords hwrite⟩

/-! ## From sequential to random access -/

/-- Storing a record number leaves what the file control block holds. -/
lemma setRan_coherent (hs : Sound d s E) (hc : Coherent d s E f) : Coherent d s E (setRan f) :=
  (keeps_same hs hc ⟨rfl, rfl, rfl, rfl, rfl⟩ (rfl : (setRan f).entry = f.entry)).coherent

/-- **Random access goes on where sequential access was.** On a sound drive, a file control block
is at a record; after `SETRAN` it has the number of this record, and a random read gives the record
that the disk has there.

**Proof sketch.** `SETRAN` computes the number of the record from extent and current record. The
record is one of an entry, so that its number is below 65536 and the third byte is 0. Then
`readRan_spec` positions to it, and a record of a name has one content. -/
theorem setRan_resumes (hd : Flat d) (hs : Sound d s E) (hc : Coherent d s E f) {r : ℕ}
    (hat : At d s E f r) {x : Sector} (hx : Stores d s E (nameOf f.entry) r x) :
    random (setRan f) = r ∧
      ∃ f' s', readRan d (setRan f) s = some (f', s') ∧ s'.status = 0 ∧ s'.dma = x := by
  obtain ⟨n, ha, -, hr⟩ := hat
  have hproper := hs.orderly.proper n ha.le ha.used
  have hxl := hproper.xl
  have hxh := hproper.xh
  have hnum : random (setRan f) = r := by
    rw [random_setRan (by rw [ha.xh]; exact hxh), ha.ext hs, hr]
  -- the record is one of an entry, so that its number has two bytes
  have hlt : r < 65536 := by
    obtain ⟨m, hm, hu, -, hext, -⟩ := hx
    have hm' := hs.orderly.proper m hm hu
    have h1 := hm'.xl
    have h2 := hm'.xh
    rw [extOf] at hext
    omega
  have hsplit := hnum
  rw [random] at hsplit
  have hr2 : (setRan f).r2 = 0 := UInt8.toNat_inj.mp (by show _ = 0; omega)
  have hwanted : wanted (setRan f) = r := by
    rw [wanted]
    omega
  obtain ⟨f', s', E', hread, hk, -, hpres, -, hcase⟩ := readRan_spec hd hs (setRan_coherent hs hc)
    (.inr ⟨n, ha.congr rfl rfl⟩) hr2
  rw [hwanted, show nameOf (setRan f).entry = nameOf f.entry from rfl] at hcase
  refine ⟨hnum, f', s', hread, ?_⟩
  rcases hcase with ⟨h0, hstore⟩ | ⟨-, -, hno⟩
  · exact ⟨h0, Stores.unique hk.sound hstore (hpres _ _ _ hx)⟩
  · exact absurd hx (hno x)

/-- The file of the small disk, at its record 5. -/
def tinyFive : FileFcb := { tinyFcb with cr := 5 }

/-- The file control block holds the entry. -/
lemma tiny_attached : Attached tinyDpb tinyDrive tinyDrive.slot tinyFive 0 := by
  have h0 := tiny_slot
  exact ⟨le_rfl, by rw [h0]; decide, by rw [h0]; rfl, by rw [h0]; rfl, by rw [h0]; rfl,
    by rw [h0]; rfl, by rw [h0]; rfl, by rw [h0]; rfl, fun _ => rfl⟩

/-- `setRan_resumes` for the small disk. -/
theorem setRan_resumes_tiny : random (setRan tinyFive) = 5 ∧
    ∃ f' s', readRan tinyDpb (setRan tinyFive) tinyDrive = some (f', s') ∧ s'.status = 0 ∧
      s'.dma = tinyDrive.sec 13 := by
  refine setRan_resumes tiny_flat tiny_sound ⟨tiny_plain, fun _ _ _ => .inl rfl⟩
    ⟨0, tiny_attached, by decide, by rw [tiny_slot]; decide⟩ ⟨0, le_rfl, ?_⟩
  rw [tiny_slot]
  exact ⟨by decide, rfl, by decide, by decide, by decide, rfl⟩

end File

end Bdos

end Cpm22
