import Cpm22.Bdos.System

set_option relaxedAutoImplicit false
set_option autoImplicit false

/-!
# Logging in a drive

When a drive is selected for the first time after a restart, `BITMAP` goes through its directory. It
notes the checksums of the sectors, marks the blocks of all files, and finds the search limit; what
the tables held before does not matter. So the tables can be thrown away at any time: a restart in
the middle of a run, with files open, gives a sound drive again, with all records of the files that
were not open.

## Main definitions

* `Cpm22.Bdos.Drive.bitMap` — `BITMAP`.
* `Cpm22.Bdos.Tidy` — a directory whose files have their own blocks.

## Main results

* `Cpm22.Bdos.bitMap_exact` — the tables after `BITMAP`.
* `Cpm22.Bdos.login_sound` — a tidy disk is sound after it was logged in.
* `Cpm22.Bdos.formatted_sound` — so is a formatted one, on both drives of the BIOS.
* `Cpm22.Bdos.Sys.follows_restart` — a restart after any run.
-/

namespace Cpm22

namespace Bdos

open BitMap Disk

namespace Drive

variable (d : Dpb)

/-- `BITMAP1`: the table is cleared for all blocks of the disk, and the blocks of the directory are
marked as the parameter block has them. -/
def dirMap (alv : ℕ → UInt8) (i : ℕ) : UInt8 :=
  if i = 0 then UInt8.ofNat d.al0 else if i = 1 then UInt8.ofNat d.al1
  else if i < d.dsm / 8 + 1 then 0 else alv i

/-- The rounds of `BITMAP2`: the blocks of a used entry are marked, the search limit moves behind
it, and the status becomes minus one if it is a file of the user whose name starts with a dollar.
-/
def bitMapLoop (user : UInt8) : ℕ → Drive → Drive
  | 0, s => s
  | k + 1, s =>
    let s := nxEntry d true s
    if s.filePos = none then s
    else if s.fcb2HL.st = CpmDir.UNUSED then bitMapLoop user k s
    else
      let s := if s.fcb2HL.st = user ∧ s.fcb2HL.fx 0 = ch '$' then { s with status := 0xff } else s
      bitMapLoop user k ({ s with alv := setFileMap d s.fcb2HL true s.alv } : Drive).chkNmbr

/-- **`BITMAP`**. -/
def bitMap (user : UInt8) (s : Drive) : Drive :=
  bitMapLoop d user (d.drm + 2) { s with alv := dirMap d s.alv, scratch1 := 3, filePos := none }

variable {d} {s t : Drive}

/-- **One step through the directory** that notes the checksums.

**Proof sketch.** Behind the last slot nothing is done. At the first slot of a sector the sector is
read and, if it is one with a checksum, its sum is stored; at the others the buffer is still the
one of the sector. -/
lemma nxEntry_note (hb : Buffered s) :
    Buffered (nxEntry d true s) ∧
    (nxEntry d true s).filePos =
      (if d.drm < nextSlot s.filePos then none else some (nextSlot s.filePos)) ∧
    ∃ csv buf, nxEntry d true s =
        { s with csv := csv, dirBuf := buf, filePos := (nxEntry d true s).filePos } ∧
      (∀ i, i ≠ nextSlot s.filePos / 4 → csv i = s.csv i) ∧
      (∀ i < d.cks, csv i = s.csv i ∨ csv i = checkSum (s.sec i)) ∧
      (nextSlot s.filePos ≤ d.drm → nextSlot s.filePos % 4 = 0 → nextSlot s.filePos / 4 < d.cks →
        csv (nextSlot s.filePos / 4) = checkSum (s.sec (nextSlot s.filePos / 4))) := by
  unfold nxEntry
  set n := nextSlot s.filePos with hn
  by_cases hend : d.drm < n
  · simp only [hend, if_true]
    exact ⟨fun m hm => by simp at hm, trivial, s.csv, s.dirBuf, rfl, fun _ _ => rfl,
      fun _ _ => .inl rfl, fun h => by omega⟩
  · simp only [hend, if_false]
    by_cases hfirst : n % 4 = 0
    · simp only [hfirst, ne_eq, not_true_eq_false, if_false, checkDir, if_true]
      by_cases hcks : d.cks ≤ n / 4
      · simp only [hcks, if_true]
        refine ⟨fun m hm => ?_, trivial, s.csv, s.sec (n / 4), rfl, fun _ _ => rfl,
          fun _ _ => .inl rfl, fun _ _ h => by omega⟩
        obtain rfl := Option.some.inj hm
        rfl
      · simp only [hcks, if_false]
        refine ⟨fun m hm => ?_, trivial, Function.update s.csv (n / 4) (checkSum (s.sec (n / 4))),
          s.sec (n / 4), rfl, fun i hi => Function.update_of_ne hi .., fun i _ => ?_,
          fun _ _ _ => Function.update_self ..⟩
        · obtain rfl := Option.some.inj hm
          rfl
        · by_cases h : i = n / 4
          · rw [h]
            exact .inr (Function.update_self ..)
          · exact .inl (Function.update_of_ne h ..)
    · simp only [hfirst, ne_eq, not_false_eq_true, if_true]
      refine ⟨fun m hm => ?_, trivial, s.csv, s.dirBuf, rfl, fun _ _ => rfl, fun _ _ => .inl rfl,
        fun _ h => h.elim⟩
      obtain rfl := Option.some.inj hm
      cases hpos : s.filePos with
      | none => simp [hn, hpos, nextSlot] at hfirst
      | some k =>
        have hk := hb k hpos
        have hnk : n = k + 1 := by rw [hn, hpos]; rfl
        show s.dirBuf = s.sec (n / 4)
        rw [hk, hnk, show (k + 1) / 4 = k / 4 by omega]

/-- The entry is of a file of the user whose name starts with a dollar. -/
def Dollar (user : UInt8) (e : CpmDir) : Prop := e.Used ∧ e.st = user ∧ e.fx 0 = ch '$'

/-- **The tables after the slots in front of `m`** were scanned. The blocks of the directory were
marked before the walk, the limit starts at 3, and the status says whether a name with a dollar sign
was seen. -/
structure Scanned (d : Dpb) (user : UInt8) (s : Drive) (m : ℕ) (t : Drive) : Prop where
  sec : t.sec = s.sec
  wrtPrt : t.wrtPrt = s.wrtPrt
  dma : t.dma = s.dma
  csv : ∀ i < d.cks, i * 4 < m → t.csv i = checkSum (s.sec i)
  alv : ∀ b, mem t.alv b = true ↔ mem (dirMap d s.alv) b = true ∨
    ∃ n < m, (s.slot n).Used ∧ Owns d (s.slot n) b
  limit : ∀ n < m, (s.slot n).Used → n < t.scratch1
  least : t.scratch1 = 3 ∨ ∃ n < m, (s.slot n).Used ∧ t.scratch1 = n + 1
  status : (t.status = 0xff ∧ ∃ n < m, Dollar user (s.slot n)) ∨
    (t.status = s.status ∧ ∀ n < m, ¬ Dollar user (s.slot n))

/-- **The scan of the directory.**

**Proof sketch.** Induction on the rounds. A round reads the next slot, whose entry is in the
buffer, and adds what it has to the tables. -/
lemma bitMapLoop_scan (hd : d.dsm < 65536) (user : UInt8) (k : ℕ) : ∀ (m : ℕ) (t : Drive),
    Scanned d user s m t → Buffered t → nextSlot t.filePos = m → m ≤ d.drm + 1 →
    d.drm + 2 ≤ k + m → Scanned d user s (d.drm + 1) (bitMapLoop d user k t) := by
  induction k with
  | zero =>
    intro m t _ _ _ hm hk
    omega
  | succ k ih =>
    intro m t hsc hb hpos hm hk
    obtain ⟨hbuf, hpos', csv, buf, heq, hcsv1, hcsv2, hcsv3⟩ := nxEntry_note (d := d) hb
    rw [hpos] at hpos' hcsv1 hcsv3
    simp only [bitMapLoop]
    generalize nxEntry d true t = u at *
    obtain ⟨hsec, halv, hlim, hwp, hdma, hstat⟩ : u.sec = t.sec ∧ u.alv = t.alv ∧
        u.scratch1 = t.scratch1 ∧ u.wrtPrt = t.wrtPrt ∧ u.dma = t.dma ∧ u.status = t.status := by
      rw [heq]
      exact ⟨rfl, rfl, rfl, rfl, rfl, rfl⟩
    by_cases hend : d.drm < m
    · rw [if_pos hend] at hpos'
      obtain rfl : m = d.drm + 1 := by omega
      rw [if_pos hpos', heq]
      refine ⟨hsc.sec, hsc.wrtPrt, hsc.dma, fun i hi hlt => ?_, hsc.alv, hsc.limit, hsc.least,
        hsc.status⟩
      rcases hcsv2 i hi with h | h
      · exact h.trans (hsc.csv i hi hlt)
      · exact h.trans (by rw [hsc.sec])
    · rw [if_neg hend] at hpos'
      rw [if_neg (by rw [hpos']; simp)]
      have hslot : u.fcb2HL = s.slot m := by
        rw [hbuf.fcb2HL hpos', heq, Drive.slot, Drive.slot]
        show entryOf (t.sec (m / 4)) (place4 m) = _
        rw [hsc.sec]
      have hnext : nextSlot u.filePos = m + 1 := by rw [hpos']; rfl
      -- the checksums with the sector of slot `m`
      have hcsv : ∀ i < d.cks, i * 4 < m + 1 → u.csv i = checkSum (s.sec i) := by
        intro i hi hlt
        rw [heq, ← hsc.sec]
        show csv i = _
        by_cases him : i * 4 = m
        · have := hcsv3 (by omega) (by omega) (by omega)
          rwa [show m / 4 = i by omega] at this
        · rcases hcsv2 i hi with h | h
          · rw [h, hsc.csv i hi (by omega), hsc.sec]
          · exact h
      by_cases hused : (s.slot m).Used
      · rw [hslot, if_neg hused]
        have hif : (if (s.slot m).st = user ∧ (s.slot m).fx 0 = ch '$' then
            ({ u with status := 0xff } : Drive) else u) =
            { u with status := if (s.slot m).st = user ∧ (s.slot m).fx 0 = ch '$' then 0xff
              else u.status } := by
          split <;> rfl
        rw [hif]
        set st : UInt8 := if (s.slot m).st = user ∧ (s.slot m).fx 0 = ch '$' then 0xff else u.status
          with hst
        have hentry : ({ u with status := st } : Drive).fcb2HL = s.slot m := hslot
        rw [hentry]
        set v : Drive := { u with status := st, alv := setFileMap d (s.slot m) true u.alv } with hv
        have hvpos : v.filePos = some m := hpos'
        show Scanned d user s (d.drm + 1) (bitMapLoop d user k v.chkNmbr)
        rw [chkNmbr_eq hvpos]
        refine ih (m + 1) _ ⟨hsec.trans hsc.sec, hwp.trans hsc.wrtPrt, hdma.trans hsc.dma, hcsv,
          ?_, ?_, ?_, ?_⟩ hbuf hnext (by omega) (by omega)
        · intro b
          show mem (setFileMap d (s.slot m) true u.alv) b = true ↔ _
          rw [mem_setFileMap hd, Nat.exists_lt_succ_right, ← or_assoc, ← hsc.alv b]
          rw [halv]
          by_cases ho : Owns d (s.slot m) b
          · simp [ho, hused]
          · simp [ho]
        · rw [Nat.forall_lt_succ_right]
          refine ⟨fun n hn h => lt_max_of_lt_left ?_, fun _ => lt_max_of_lt_right (by omega)⟩
          show n < u.scratch1
          rw [hlim]
          exact hsc.limit n hn h
        · show max u.scratch1 (m + 1) = 3 ∨ _
          rw [Nat.exists_lt_succ_right, hlim]
          rcases le_total (m + 1) t.scratch1 with h | h
          · rw [max_eq_left h]
            rcases hsc.least with h3 | h3
            · exact .inl h3
            · exact .inr (.inl h3)
          · rw [max_eq_right h]
            exact .inr (.inr ⟨hused, rfl⟩)
        · show (st = 0xff ∧ _) ∨ (st = s.status ∧ _)
          rw [Nat.exists_lt_succ_right, Nat.forall_lt_succ_right]
          by_cases hdol : (s.slot m).st = user ∧ (s.slot m).fx 0 = ch '$'
          · rw [hst, if_pos hdol]
            exact .inl ⟨rfl, .inr ⟨hused, hdol⟩⟩
          · rw [hst, if_neg hdol, hstat]
            rcases hsc.status with ⟨h1, h2⟩ | ⟨h1, h2⟩
            · exact .inl ⟨h1, .inl h2⟩
            · exact .inr ⟨h1, h2, fun h => hdol h.2⟩
      · rw [hslot, if_pos (not_not.mp hused)]
        refine ih (m + 1) u ⟨hsec.trans hsc.sec, hwp.trans hsc.wrtPrt, hdma.trans hsc.dma, hcsv,
          ?_, ?_, ?_, ?_⟩ hbuf hnext (by omega) (by omega)
        · intro b
          rw [halv, Nat.exists_lt_succ_right]
          simp only [hused, false_and, or_false]
          exact hsc.alv b
        · rw [hlim, Nat.forall_lt_succ_right]
          exact ⟨hsc.limit, fun h => absurd h hused⟩
        · rw [hlim, Nat.exists_lt_succ_right]
          simp only [hused, false_and, or_false]
          exact hsc.least
        · rw [hstat, Nat.exists_lt_succ_right, Nat.forall_lt_succ_right]
          simp only [Dollar, hused, false_and, or_false, not_false_eq_true, and_true]
          exact hsc.status

/-- **`BITMAP` scans the whole directory.** -/
lemma bitMap_scanned (hd : d.dsm < 65536) (user : UInt8) (s : Drive) :
    Scanned d user s (d.drm + 1) (s.bitMap d user) := by
  refine bitMapLoop_scan hd user (d.drm + 2) 0 _ ⟨rfl, rfl, rfl, fun i _ h => by omega, fun b => ?_,
    fun n hn => by omega, .inl rfl, .inr ⟨rfl, fun n hn => by omega⟩⟩
    (fun n hn => by simp at hn) rfl
    (by omega) (by omega)
  simp

/-- What the table held before does not count. -/
lemma mem_dirMap (alv : ℕ → UInt8) {b : ℕ} (hb : b ≤ d.dsm) :
    mem (dirMap d alv) b = mem (dirMap d fun _ => 0) b := by
  have hlt : b / 8 < d.dsm / 8 + 1 := by omega
  simp only [mem, dirMap, hlt, if_true]

end Drive

variable {d : Dpb} {s t : Drive} {E : ℕ → CpmDir}

/-- **The tables after `BITMAP`**, for every content of the disk and of the tables before: the disk
stays, the checksums are those of the directory, a block is marked iff it is one of the directory or
of a used entry, the search limit is behind the last used entry, but at least three, and the status
is minus one iff the user has a file whose name starts with a dollar, and else as before. -/
theorem bitMap_exact (hd : d.dsm < 65536) (user : UInt8) (s : Drive) :
    (s.bitMap d user).sec = s.sec ∧ (s.bitMap d user).Unchanged d ∧
    (∀ b ≤ d.dsm, mem (s.bitMap d user).alv b = true ↔
      mem (Drive.dirMap d fun _ => 0) b = true ∨
        ∃ n ≤ d.drm, (s.slot n).Used ∧ Owns d (s.slot n) b) ∧
    (∀ n ≤ d.drm, (s.slot n).Used → n < (s.bitMap d user).scratch1) ∧
    ((s.bitMap d user).scratch1 = 3 ∨
      ∃ n ≤ d.drm, (s.slot n).Used ∧ (s.bitMap d user).scratch1 = n + 1) ∧
    (((s.bitMap d user).status = 0xff ∧ ∃ n ≤ d.drm, Drive.Dollar user (s.slot n)) ∨
      ((s.bitMap d user).status = s.status ∧ ∀ n ≤ d.drm, ¬ Drive.Dollar user (s.slot n))) := by
  have h := Drive.bitMap_scanned hd user s
  have hle : ∀ n, n < d.drm + 1 ↔ n ≤ d.drm := fun n => Nat.lt_succ_iff
  refine ⟨h.sec, fun i hi hi' => ?_, fun b hb => ?_, fun n hn => h.limit n (by omega), ?_, ?_⟩
  · rw [h.csv i hi (by omega), h.sec]
  · rw [h.alv b, Drive.mem_dirMap _ hb]
    simp only [hle]
  · simpa only [hle] using h.least
  · simpa only [hle] using h.status

/-- `bitMap_exact` for the small disk. -/
theorem bitMap_exact_tiny : (tinyDrive.bitMap tinyDpb 0).Unchanged tinyDpb ∧
    ∀ b ≤ tinyDpb.dsm, mem (tinyDrive.bitMap tinyDpb 0).alv b = true ↔
      mem (Drive.dirMap tinyDpb fun _ => 0) b = true ∨
        ∃ n ≤ tinyDpb.drm, (tinyDrive.slot n).Used ∧ Owns tinyDpb (tinyDrive.slot n) b := by
  obtain ⟨-, hcsv, halv, -⟩ := bitMap_exact (d := tinyDpb) (by decide) 0 tinyDrive
  exact ⟨hcsv, halv⟩

/-! ## Soundness -/

/-- **A tidy directory**: the used entries are proper, no extent of a file is there twice, and no
block is named twice. -/
structure Tidy (d : Dpb) (E : ℕ → CpmDir) : Prop where
  proper : ∀ n ≤ d.drm, (E n).Used → Proper d (E n)
  unique : ∀ n ≤ d.drm, ∀ m ≤ d.drm, (E n).Used → (E m).Used → nameOf (E n) = nameOf (E m) →
    extOf (E n) = extOf (E m) → n = m
  apart : ∀ n ≤ d.drm, ∀ m ≤ d.drm, (E n).Used → (E m).Used → ∀ i < pointers d,
    ∀ j < pointers d, (E n).pointer (pointers d) i ≠ 0 →
      (E n).pointer (pointers d) i = (E m).pointer (pointers d) j → n = m ∧ i = j

/-- **The allocation bits of the parameter block are those of the directory blocks**, which are on
the disk. -/
structure Solid (d : Dpb) : Prop where
  room : d.dirBlocks ≤ d.dsm
  bits : ∀ b ≤ d.dsm, mem (Drive.dirMap d fun _ => 0) b = true ↔ b < d.dirBlocks

/-- Both disks of the BIOS are so. -/
lemma solid_of_shipped {g : Geometry} (h : g.Shipped) : Solid g.dpb := by
  obtain rfl | rfl := h
  · exact ⟨by decide, by decide +kernel⟩
  · exact ⟨by decide, by decide +kernel⟩

/-- The directory on the disk is tidy, although it may lag behind.

**Proof sketch.** A slot has the keys of its newest entry, and a pointer of the slot that is not 0
is one of this entry. So what an orderly view says of keys and pointers holds of the slots. -/
lemma Sound.tidy (h : Sound d s E) : Tidy d s.slot := by
  have hptr : ∀ n ≤ d.drm, ∀ i < pointers d, (s.slot n).pointer (pointers d) i ≠ 0 →
      (E n).pointer (pointers d) i = (s.slot n).pointer (pointers d) i :=
    fun n hn i hi hne => (h.view n hn).lags i hi hne
  refine ⟨fun n hn hu => ?_, fun n hn m hm hu hu' => ?_,
    fun n hn m hm hu hu' i hi j hj hne heq => ?_⟩
  · have hview := h.view n hn
    obtain ⟨-, -, hst, hfx, hex, hxl, hxh⟩ := hview.keys
    have hprop := h.orderly.proper n hn (hview.used_iff.mpr hu)
    refine ⟨hprop.plain.congr hst.symm hfx.symm hex.symm, hxl ▸ hprop.xl, hxh ▸ hprop.xh,
      hview.count.trans hprop.rc, fun i hi hne => ?_⟩
    have heq := hptr n hn i hi hne
    rw [← heq] at hne ⊢
    exact hprop.blocks i hi hne
  · obtain ⟨h1, h2, -⟩ := (h.view n hn).keys
    obtain ⟨h3, h4, -⟩ := (h.view m hm).keys
    rw [← h1, ← h2, ← h3, ← h4]
    exact h.orderly.unique n hn m hm ((h.view n hn).used_iff.mpr hu)
      ((h.view m hm).used_iff.mpr hu')
  · have h1 := hptr n hn i hi hne
    have h2 := hptr m hm j hj (heq ▸ hne)
    exact h.orderly.apart n hn m hm ((h.view n hn).used_iff.mpr hu)
      ((h.view m hm).used_iff.mpr hu') i hi j hj (h1 ▸ hne) (h1.trans (heq.trans h2.symm))

/-- **A tidy disk is sound after it was logged in**, whatever the tables held before.

**Proof sketch.** By `Drive.bitMap_scanned`, which says what the walk over the directory stores. A
block is marked iff it is one of the directory or of an entry in use; the checksums are those of
the sectors, and the limit is behind the last entry in use. -/
lemma login_sound (hd : Flat d) (hsolid : Solid d) (user : UInt8) (hwp : s.wrtPrt = false)
    (ht : Tidy d s.slot) : Sound d (s.bitMap d user) (s.bitMap d user).slot := by
  have hdsm := hd.fits.legal.dsm_lt
  have h := Drive.bitMap_scanned hdsm user s
  have hslot : (s.bitMap d user).slot = s.slot := by
    funext n
    rw [Drive.slot, Drive.slot, h.sec]
  -- a block is marked iff it is of the directory or of an entry
  have hmem : ∀ b ≤ d.dsm, mem (s.bitMap d user).alv b = true ↔ b < d.dirBlocks ∨
      ∃ n ≤ d.drm, (s.slot n).Used ∧ Owns d (s.slot n) b := by
    intro b hb
    rw [h.alv b, Drive.mem_dirMap _ hb, hsolid.bits b hb]
    simp only [Nat.lt_succ_iff]
  have howns : ∀ n b, Owns d (s.slot n) b ↔
      b ≠ 0 ∧ b ≤ d.dsm ∧ ∃ i < pointers d, (s.slot n).pointer (pointers d) i = b := by
    intro n b
    unfold Owns entryBlocks
    simp
  rw [hslot]
  refine ⟨h.wrtPrt.trans hwp, fun i hi hle => ?_, fun n hn hlim hu => ?_, fun n _ => ?_,
    ht.proper, ht.unique, ht.apart, fun n hn hu i hi hne => ?_, fun b hb => ?_, fun b hb hb' => ?_⟩
  · rw [h.csv i hi (by omega), h.sec]
  · rw [hslot] at hu
    have := h.limit n (by omega) hu
    omega
  · rw [hslot]
    exact Newer.refl _
  · obtain ⟨-, hle⟩ := (ht.proper n hn hu).blocks i hi hne
    rw [hmem _ hle]
    exact .inr ⟨n, hn, hu, (howns n _).mpr ⟨hne, hle, i, hi, rfl⟩⟩
  · have hle : b ≤ d.dsm := hb.le.trans hsolid.room
    rw [hmem b hle]
    exact .inl hb
  · refine ((hmem b hb).mp hb').imp_right ?_
    rintro ⟨n, hn, hu, ho⟩
    obtain ⟨hb0, -, i, hi, heq⟩ := (howns n b).mp ho
    exact ⟨hb0, n, hn, hu, i, hi, heq⟩

/-- **A formatted disk is sound after it was logged in**, on both drives of the BIOS: what is said
of runs on sound drives holds of all runs on it. -/
theorem formatted_sound {g : Geometry} (h : g.Shipped) (user : UInt8) (hwp : s.wrtPrt = false)
    (hblank : ∀ n ≤ g.dpb.drm, ¬ (s.slot n).Used) :
    Sound g.dpb (s.bitMap g.dpb user) (s.bitMap g.dpb user).slot :=
  login_sound (flat_of_shipped h) (solid_of_shipped h) user hwp
    ⟨fun n hn hu => absurd hu (hblank n hn), fun n hn _ _ hu => absurd hu (hblank n hn),
      fun n hn _ _ hu => absurd hu (hblank n hn)⟩

/-- **Logging in changes no record.** -/
lemma login_stores (hd : d.dsm < 65536) (user : UInt8) {k : Fin 12 → ℕ} {r : ℕ} {x : Sector}
    (h : Stores d s s.slot k r x) :
    Stores d (s.bitMap d user) (s.bitMap d user).slot k r x := by
  have hsec := (Drive.bitMap_scanned hd user s).sec
  have hslot : (s.bitMap d user).slot = s.slot := by
    funext n
    rw [Drive.slot, Drive.slot, hsec]
  rw [hslot]
  obtain ⟨n, h⟩ := h
  refine ⟨n, ?_⟩
  rwa [hsec]

/-- A block is marked in a sound drive iff it is of the directory or named by an entry. -/
lemma Sound.mem_iff (h : Sound d s E) {b : ℕ} (hb : b ≤ d.dsm) :
    mem s.alv b = true ↔ b < d.dirBlocks ∨ HasBlock d E b := by
  refine ⟨h.orderly.tight b hb, ?_⟩
  rintro (hlt | ⟨hb0, n, hn, hu, i, hi, heq⟩)
  · exact h.orderly.dirs b hlt
  · rw [← heq]
    exact h.orderly.marked n hn hu i hi (heq ▸ hb0)

namespace Sys

variable {ι : Type*} [DecidableEq ι] {W : Store}

/-- **A restart after any run.** After every run that keeps to the rules, with files open or not,
the drive can be logged in again: it is sound, it has all records of the files that were not open,
and if none was open the map of the blocks is the one that the run had.

**Proof sketch.** At the end of the run the drive is sound, and so its directory is tidy
(`Sound.tidy`), which is enough to log it in (`login_sound`). An entry of a file that is not open
is on the disk (`newest`), with its records. If no file is open, both maps mark the same blocks,
those of the directory and of its entries. -/
theorem follows_restart (hd : Flat d) (hsolid : Solid d) (hs : Sound d s s.slot)
    (hw : Holds d s s.slot W) (cs : List (Call ι)) (hf : Follows d (idle s) cs) {σ' : Sys ι}
    {W' : Store} (hrun : Runs.run (step d) (idle s, W) cs = some (σ', W')) (user : UInt8) :
    Sound d (σ'.drive.bitMap d user) (σ'.drive.bitMap d user).slot ∧
    (∀ k r x, W' k r = some x → (∀ i f, σ'.fcbs i = some f → nameOf f.entry ≠ k) →
      Stores d (σ'.drive.bitMap d user) (σ'.drive.bitMap d user).slot k r x) ∧
    ((∀ i, σ'.fcbs i = none) → ∀ b ≤ d.dsm,
      mem (σ'.drive.bitMap d user).alv b = mem σ'.drive.alv b) := by
  obtain ⟨⟨σ₁, W₁, hrun₁, E, ht, hh⟩, -⟩ := run_good hd cs _ W (good_idle hs hw) hf
  rw [hrun] at hrun₁
  obtain ⟨rfl, rfl⟩ := Prod.mk.inj (Option.some.inj hrun₁)
  have hdsm := hd.fits.legal.dsm_lt
  have hlogin := login_sound hd hsolid user ht.sound.writable ht.sound.tidy
  refine ⟨hlogin, fun k r x hx hclosed => ?_, fun hclosed b hb => ?_⟩
  · obtain ⟨n, hn, hu, hk, hrest⟩ := hh k r x hx
    refine login_stores hdsm user ⟨n, hn, ?_⟩
    rcases ht.newest n hn with heq | ⟨i, f, hf, ha⟩
    · rw [← heq]
      exact ⟨hu, hk, hrest⟩
    · exact absurd (ha.name.trans hk) (hclosed i f hf)
  · have hE : ∀ n ≤ d.drm, E n = σ'.drive.slot n := fun n hn => ht.closed hclosed hn
    have hslot : (σ'.drive.bitMap d user).slot = σ'.drive.slot := by
      funext n
      rw [Drive.slot, Drive.slot, (Drive.bitMap_scanned hdsm user σ'.drive).sec]
    rw [Bool.eq_iff_iff, hlogin.mem_iff hb, (ht.sound.ext hE).mem_iff hb, hslot]

/-- The first block of the small disk is of the directory. -/
lemma tiny_solid : Solid tinyDpb := ⟨by decide, by decide⟩

/-- A restart after the small run. -/
theorem follows_restart_tiny :
    ∃ p, Runs.run (step tinyDpb) (idle tinyDrive, fun _ _ => none) tinyCalls = some p ∧
      Sound tinyDpb (p.1.drive.bitMap tinyDpb 0) (p.1.drive.bitMap tinyDpb 0).slot ∧
      (∀ k r x, p.2 k r = some x → (∀ i f, p.1.fcbs i = some f → nameOf f.entry ≠ k) →
        Stores tinyDpb (p.1.drive.bitMap tinyDpb 0) (p.1.drive.bitMap tinyDpb 0).slot k r x) ∧
      ((∀ i, p.1.fcbs i = none) → ∀ b ≤ tinyDpb.dsm,
        mem (p.1.drive.bitMap tinyDpb 0).alv b = mem p.1.drive.alv b) :=
  ⟨_, rfl, follows_restart tiny_flat tiny_solid tiny_sound tiny_holds tinyCalls tiny_follows rfl 0⟩

end Sys

end Bdos

end Cpm22
