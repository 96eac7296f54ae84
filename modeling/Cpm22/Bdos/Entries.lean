import Cpm22.Bdos.Extents

set_option relaxedAutoImplicit false
set_option autoImplicit false

/-!
# Erasing and renaming

What the calls do that change all entries of a name. Each of them searches the entries one after the
other and rewrites those it finds, so that after some rounds the slots that the search has passed
are changed and the others are not; the drive is sound in between.

## Main definitions

* `Cpm22.Bdos.Swept` — the slots in front of a place are changed.

## Main results

* `Cpm22.Bdos.File.eachEntry_sweep` — the rounds over all entries.
* `Cpm22.Bdos.File.eraFile_spec`, `chgNames_spec`, `saveAttr_spec`.
-/

namespace Cpm22

namespace Bdos

open BitMap Disk

variable {d : Dpb} {s s' t : Drive} {E E' : ℕ → CpmDir} {g : CpmDir} {n : ℕ}

/-- **The drive is sound after a directory write** that changes an entry of the view as it changes
the one on the disk.

**Proof sketch.** The slot has the new entry, in the view and on the disk, and the checksum of its
sector is stored with it. An entry that is in use was in use before, so that the search limit stays
right. -/
lemma sound_rewrite {alv : ℕ → UInt8} {e : CpmDir} (hs : Sound d t E) (hb : t.Buffered)
    (hpos : t.filePos = some n) (hn : n ≤ d.drm) (hused : e.Used → (E n).Used)
    (ho : Orderly d alv (Function.update E n e)) :
    Sound d (({ t with alv := alv } : Drive).rewrite d e) (Function.update E n e) := by
  set u : Drive := { t with alv := alv } with hu
  have hub : u.Buffered := hb
  have hupos : u.filePos = some n := hpos
  obtain ⟨halv, hlim, hwp, -⟩ := Drive.rewrite_frame (d := d) e u
  have hslot : ∀ m, (u.rewrite d e).slot m = if m = n then e else t.slot m :=
    Drive.slot_rewrite hub hupos e
  refine ⟨hwp.trans hs.writable, Drive.unchanged_rewrite (s := u) hs.unchanged hub hupos e, ?_, ?_,
    halv ▸ ho⟩
  · intro m hm hle
    rw [hlim] at hle
    have hnot := hs.limit m hm hle
    rw [hslot]
    split
    · rename_i h
      subst h
      exact fun he => hnot ((hs.view m hm).used_iff.mp (hused he))
    · exact hnot
  · intro m hm
    rw [hslot, Function.update_apply]
    split
    · exact Newer.refl e
    · exact hs.view m hm

/-- A file control block of a user stands for no unused entry. -/
lemma matching_unused (hg : g.st.toNat < 32) {e : CpmDir} (he : ¬ e.Used) :
    matching d.exm 12 g e = false := by
  rw [Bool.eq_false_iff, ne_eq, matching_name_iff]
  intro h
  have h0 := h 0
  have hst : e.st = CpmDir.UNUSED := not_not.mp he
  have hq : (ch '?').toNat = 63 := by decide
  rcases h0 with h0 | h0
  · have : g.st = ch '?' := h0
    rw [this] at hg
    omega
  · rw [nameOf_zero, nameOf_zero, hst, show CpmDir.UNUSED.toNat = 229 from rfl] at h0
    omega

/-- An entry that the name stands for is in use. -/
lemma used_of_match (hg : g.st.toNat < 32) {e : CpmDir} (h : matching d.exm 12 g e = true) :
    e.Used := by
  by_contra hu
  rw [matching_unused hg hu] at h
  exact Bool.noConfusion h

/-- Entries of the same name. -/
lemma matching_congr {e e' : CpmDir} (h : nameOf e = nameOf e') :
    matching d.exm 12 g e = matching d.exm 12 g e' := by
  rw [Bool.eq_iff_iff, matching_name_iff, matching_name_iff, h]

/-- **What a search for a name from slot `m` on ends with**, if the entries behind the search limit
are unused. -/
lemma ends_name (hg : g.st.toNat < 32) (hlim : ∀ n ≤ d.drm, s.scratch1 ≤ n → ¬ (s.slot n).Used)
    {m : ℕ} (h : Drive.Ends d g 12 s m t) :
    (∃ n, m ≤ n ∧ n ≤ d.drm ∧ matching d.exm 12 g (s.slot n) = true ∧
      (∀ i, m ≤ i → i < n → matching d.exm 12 g (s.slot i) = false) ∧ t.filePos = some n ∧
      t.fndStat = if s.fndStat &&& 0x80 ≠ 0 then 0 else s.fndStat) ∨
    ((∀ i, m ≤ i → i ≤ d.drm → matching d.exm 12 g (s.slot i) = false) ∧ t.filePos = none ∧
      t.fndStat = s.fndStat) := by
  rcases h with ⟨n, h1, h2, -, h3, h4, h5, -, h6⟩ | ⟨h1, h2, -, h3⟩
  · exact .inl ⟨n, h1, h2, h3, h4, h5, h6⟩
  · refine .inr ⟨fun i hi hle => ?_, h2, h3⟩
    by_cases hin : i < s.scratch1
    · exact h1 i hi hle fun _ => hin
    · exact matching_unused hg (hlim i hle (by omega))

/-! ## The rounds -/

/-- The view after the entries of the name in front of slot `m` were changed. -/
def swept (d : Dpb) (g : CpmDir) (change : CpmDir → CpmDir) (E : ℕ → CpmDir) (m n : ℕ) : CpmDir :=
  if n < m ∧ matching d.exm 12 g (E n) = true then change (E n) else E n

/-- **The entries of the name in front of slot `m` were changed**, and nothing else. -/
structure Swept (d : Dpb) (g : CpmDir) (change : CpmDir → CpmDir) (s : Drive) (E : ℕ → CpmDir)
    (m : ℕ) (t : Drive) : Prop where
  sound : Sound d t (swept d g change E m)
  slot : ∀ n ≤ d.drm, t.slot n =
    if n < m ∧ matching d.exm 12 g (E n) = true then change (E n) else s.slot n
  data : ∀ i, d.dirBlocks * 2 ^ d.bsh ≤ i → t.sec i = s.sec i
  dma : t.dma = s.dma

/-- Before the first round. -/
lemma Swept.start (hs : Sound d s E) (change : CpmDir → CpmDir) : Swept d g change s E 0 s := by
  have hE : swept d g change E 0 = E := by
    funext n
    rw [swept, if_neg (by omega)]
  exact ⟨hE ▸ hs, fun n _ => by rw [if_neg (by omega)], fun _ _ => rfl, rfl⟩

/-- A search between the rounds. -/
lemma Swept.moved {change : CpmDir → CpmDir} {m : ℕ} (h : Swept d g change s E m t)
    (hm : t.Moved s') : Swept d g change s E m s' :=
  ⟨h.sound.moved hm, fun n hn => by rw [hm.slot, h.slot n hn],
    fun i hi => by rw [hm.sec, h.data i hi],
    hm.dma.trans h.dma⟩

/-- The name of an entry that no round has come to. -/
lemma Swept.matching_slot {change : CpmDir → CpmDir} {m : ℕ} (h : Swept d g change s E m t)
    (hs : Sound d s E) (hn : n ≤ d.drm) (hm : m ≤ n) :
    matching d.exm 12 g (t.slot n) = matching d.exm 12 g (E n) := by
  rw [h.slot n hn, if_neg (by omega)]
  exact matching_congr (hs.view n hn).keys.1.symm

/-- Slots of other names are passed.

**Proof sketch.** No slot between the two bounds matches, and it matches iff its entry of the view
does, so that the changed entries are the same for both bounds. -/
lemma Swept.skip {change : CpmDir → CpmDir} {m : ℕ} (hs : Sound d s E) (k : ℕ)
    (h : Swept d g change s E m t)
    (hno : ∀ i, m ≤ i → i < k → matching d.exm 12 g (t.slot i) = false) (hm : m ≤ k) :
    Swept d g change s E k t := by
  have hpass : ∀ i ≤ d.drm, (i < k ∧ matching d.exm 12 g (E i) = true) ↔
      (i < m ∧ matching d.exm 12 g (E i) = true) := by
    intro i hi
    constructor
    · rintro ⟨h1, h2⟩
      refine ⟨?_, h2⟩
      by_contra hge
      rw [← h.matching_slot hs hi (by omega), hno i (by omega) h1] at h2
      exact Bool.noConfusion h2
    · rintro ⟨h1, h2⟩
      exact ⟨by omega, h2⟩
  have hview : ∀ i ≤ d.drm, swept d g change E m i = swept d g change E k i := by
    intro i hi
    rw [swept, swept]
    simp only [hpass i hi]
  refine ⟨h.sound.ext hview, fun n hn => ?_, h.data, h.dma⟩
  rw [h.slot n hn]
  simp only [hpass n hn]

namespace File

/-- **The rounds over all entries of a name.** If every round keeps the view orderly, the drive is
sound after them, with the entries of the name changed and nothing else; they end early only at a
read-only file.

**Proof sketch.** Induction on the rounds, for a search that is at the first entry of the name from
slot `m` on, or at none. A round writes the changed entry, and the search goes on behind it. -/
lemma eachEntry_sweep (hd : Flat d) (hs : Sound d s E) (hg : g.st.toNat < 32)
    (hset : ∀ n ≤ d.drm, matching d.exm 12 g (E n) = true → E n = s.slot n)
    (protect : Bool) (change : CpmDir → CpmDir) (map : CpmDir → (ℕ → UInt8) → ℕ → UInt8)
    (hstep : ∀ n ≤ d.drm, matching d.exm 12 g (E n) = true → ∀ alv,
      Orderly d alv (swept d g change E n) →
      Orderly d (map (change (E n)) alv) (Function.update (swept d g change E n) n (change (E n))))
    (k : ℕ) : ∀ (m : ℕ) (t : Drive), Swept d g change s E m t → t.Buffered →
      ((∃ n, m ≤ n ∧ n ≤ d.drm ∧ d.drm + 1 ≤ k + n ∧ matching d.exm 12 g (t.slot n) = true ∧
          (∀ i, m ≤ i → i < n → matching d.exm 12 g (t.slot i) = false) ∧ t.filePos = some n ∧
          t.fndStat = 0) ∨
        ((∀ i, m ≤ i → i ≤ d.drm → matching d.exm 12 g (t.slot i) = false) ∧ t.filePos = none ∧
          m ≤ d.drm + 1)) →
      (eachEntry d (entryRound d protect change map) g k t = none ∧ protect = true ∧
        ∃ n ≤ d.drm, matching d.exm 12 g (E n) = true ∧ readOnly (E n) = true) ∨
      ∃ t', eachEntry d (entryRound d protect change map) g k t = some t' ∧
        Swept d g change s E (d.drm + 1) t' ∧ t'.fndStat = t.fndStat := by
  have hnu : g.st ≠ CpmDir.UNUSED := by
    intro h
    rw [h] at hg
    exact absurd hg (by decide)
  induction k with
  | zero =>
    rintro m t hsw hb (⟨n, h1, h2, h3, -⟩ | ⟨hno, hpos, hm⟩)
    · omega
    · exact .inr ⟨t, rfl, hsw.skip hs _ (fun i h1 h2 => hno i h1 (by omega)) hm, rfl⟩
  | succ k ih =>
    rintro m t hsw hb (⟨n, hmn, hn, hk, hmatch, hno, hpos, hstat⟩ | ⟨hno, hpos, hm⟩)
    · rw [eachEntry, if_neg (by rw [hpos]; simp)]
      have hsw' := hsw.skip hs n hno hmn
      have hmatchE : matching d.exm 12 g (E n) = true := by
        rw [← hsw.matching_slot hs hn hmn, hmatch]
      have hentry : t.fcb2HL = E n := by
        rw [hb.fcb2HL hpos, hsw'.slot n hn, if_neg (by omega), hset n hn hmatchE]
      rw [entryRound, hentry]
      by_cases hro : protect = true ∧ readOnly (E n) = true
      · rw [if_pos hro]
        exact .inl ⟨rfl, hro.1, n, hn, hmatchE, hro.2⟩
      · rw [if_neg hro]
        simp only
        set u : Drive := { t with alv := map (change (E n)) t.alv } with hu
        have hub : u.Buffered := hb
        have hupos : u.filePos = some n := hpos
        have hat : swept d g change E n n = E n := by rw [swept, if_neg (by omega)]
        have hview : Function.update (swept d g change E n) n (change (E n)) =
            swept d g change E (n + 1) := by
          funext i
          rw [Function.update_apply, swept, swept]
          by_cases hi : i = n
          · rw [if_pos hi, hi, if_pos ⟨by omega, hmatchE⟩]
          · rw [if_neg hi]
            by_cases hlt : i < n
            · simp [hlt, show i < n + 1 by omega]
            · simp [hlt, show ¬ i < n + 1 by omega]
        have hsound : Sound d (u.rewrite d (change (E n))) (swept d g change E (n + 1)) := by
          rw [← hview]
          refine sound_rewrite hsw'.sound hb hpos hn ?_ (hstep n hn hmatchE _ hsw'.sound.orderly)
          rw [hat]
          exact fun _ => used_of_match hg hmatchE
        obtain ⟨-, hulim, -, hudma, hufp, -, hufnd⟩ := Drive.rewrite_frame (d := d) (change (E n)) u
        have hswept : Swept d g change s E (n + 1) (u.rewrite d (change (E n))) := by
          refine ⟨hsound, fun i hi => ?_, fun i hi => ?_, hudma.trans hsw'.dma⟩
          · rw [Drive.slot_rewrite hub hupos]
            by_cases h : i = n
            · rw [if_pos h, h, if_pos ⟨by omega, hmatchE⟩]
            · rw [if_neg h, show u.slot i = t.slot i from rfl, hsw'.slot i hi]
              by_cases hlt : i < n
              · simp [hlt, show i < n + 1 by omega]
              · simp [hlt, show ¬ i < n + 1 by omega]
          · rw [sec_rewrite_data hd hub hupos hn _ hi]
            exact hsw'.data i hi
        -- the search goes on behind the slot
        have hnext : Drive.nextSlot (u.rewrite d (change (E n))).filePos = n + 1 := by
          rw [hufp, hupos]
          rfl
        obtain ⟨hmv, hbuf, hends⟩ := Drive.findNxtLoop_spec g 12 (d.drm + 2)
          (u.rewrite d (change (E n))) hsound.unchanged (Drive.buffered_rewrite hupos _) (by omega)
          (by omega)
        rw [hnext] at hends
        have hfnd : (u.rewrite d (change (E n))).fndStat = 0 := by
          rw [hufnd]
          exact hstat
        set v := Drive.findNxtLoop d g 12 (d.drm + 2) (u.rewrite d (change (E n))) with hv
        have hcase := ends_name hg hsound.limit hends
        rw [hfnd] at hcase
        have hswv := hswept.moved hmv
        have hslots : ∀ i, v.slot i = (u.rewrite d (change (E n))).slot i := hmv.slot
        rw [show (0 : UInt8) &&& 0x80 = 0 from by decide, if_neg (not_not.mpr rfl)] at hcase
        simp only [← hslots] at hcase
        have hrest : v.fndStat = t.fndStat := by
          rw [hstat]
          rcases hcase with ⟨-, -, -, -, -, -, h⟩ | ⟨-, -, h⟩
          · exact h
          · exact h
        rcases ih (n + 1) v hswv hbuf (hcase.imp
            (fun ⟨i, h1, h2, h3, h4, h5, h6⟩ => ⟨i, h1, h2, by omega, h3, h4, h5, h6⟩)
            fun ⟨h1, h2, _⟩ => ⟨h1, h2, by omega⟩) with h | ⟨t', h1, h2, h3⟩
        · exact .inl h
        · exact .inr ⟨t', h1, h2, h3.trans hrest⟩
    · rw [eachEntry, if_pos hpos]
      exact .inr ⟨t, rfl, hsw.skip hs _ (fun i h1 h2 => hno i h1 (by omega)) hm, rfl⟩

/-- The search for the first entry of the name, and the rounds behind it.

**Proof sketch.** The search for the first entry stops at the first match or finds none
(`ends_name`), and this decides `FNDSTAT`. From there `eachEntry_sweep` goes through the rest, with
as many rounds as there are slots. -/
lemma sweep_spec (hd : Flat d) (hs : Sound d s E) (hg : g.st.toNat < 32)
    (hset : ∀ n ≤ d.drm, matching d.exm 12 g (E n) = true → E n = s.slot n)
    (protect : Bool) (change : CpmDir → CpmDir) (map : CpmDir → (ℕ → UInt8) → ℕ → UInt8)
    (hstep : ∀ n ≤ d.drm, matching d.exm 12 g (E n) = true → ∀ alv,
      Orderly d alv (swept d g change E n) →
      Orderly d (map (change (E n)) alv)
        (Function.update (swept d g change E n) n (change (E n)))) :
    (eachEntry d (entryRound d protect change map) g (d.drm + 2) (s.findFst d g 12) = none ∧
      protect = true ∧ ∃ n ≤ d.drm, matching d.exm 12 g (E n) = true ∧ readOnly (E n) = true) ∨
    ∃ t, eachEntry d (entryRound d protect change map) g (d.drm + 2) (s.findFst d g 12) = some t ∧
      Swept d g change s E (d.drm + 1) t ∧
      t.fndStat = if ∃ n ≤ d.drm, matching d.exm 12 g (E n) = true then 0 else 0xff := by
  obtain ⟨hmv, hbuf, hends⟩ := Drive.findFst_spec hs.unchanged g 12
  have hcase := ends_name (s := { s with fndStat := 0xff }) hg hs.limit hends
  have hslots : ∀ i, (s.findFst d g 12).slot i = s.slot i := hmv.slot
  have hname : ∀ i ≤ d.drm, matching d.exm 12 g (s.slot i) = matching d.exm 12 g (E i) :=
    fun i hi => matching_congr (hs.view i hi).keys.1.symm
  simp only [show ∀ i, ({ s with fndStat := 0xff } : Drive).slot i = s.slot i from fun _ => rfl,
    show (0xff : UInt8) &&& 0x80 ≠ 0 from by decide, ne_eq, not_false_eq_true, if_true,
    ← hslots] at hcase
  have hfnd : (s.findFst d g 12).fndStat =
      if ∃ n ≤ d.drm, matching d.exm 12 g (E n) = true then 0 else 0xff := by
    rcases hcase with ⟨n, -, hn, hm, -, -, h⟩ | ⟨hno, -, h⟩
    · rw [h, if_pos ⟨n, hn, by rw [← hname n hn, ← hslots]; exact hm⟩]
    · rw [h, if_neg]
      rintro ⟨n, hn, hm⟩
      rw [← hname n hn, ← hslots, hno n (by omega) hn] at hm
      exact Bool.noConfusion hm
  rcases eachEntry_sweep hd hs hg hset protect change map hstep (d.drm + 2) 0
      (s.findFst d g 12) ((Swept.start hs change).moved hmv) hbuf
      (hcase.imp (fun ⟨i, h1, h2, h3, h4, h5, h6⟩ => ⟨i, h1, h2, by omega, h3, h4, h5, h6⟩)
        fun ⟨h1, h2, _⟩ => ⟨h1, h2, by omega⟩) with h | ⟨t, h1, h2, h3⟩
  · exact .inl h
  · exact .inr ⟨t, h1, h2, h3.trans hfnd⟩

/-- **Records of other names stay** when the entries of a name are changed. -/
lemma stores_other (hd : Flat d) (hs : Sound d s E) {change : CpmDir → CpmDir}
    (h : Swept d g change s E (d.drm + 1) t) {k : Fin 12 → ℕ} {r : ℕ} {x : Sector}
    (hk : ¬ Matches g k) (hst : Stores d s E k r x) :
    Stores d t (swept d g change E (d.drm + 1)) k r x := by
  obtain ⟨n, hn, hu, hkn, hext, hrc, hptr, hx⟩ := hst
  have hE : swept d g change E (d.drm + 1) n = E n := by
    rw [swept, if_neg]
    rintro ⟨-, hm⟩
    rw [matching_name_iff, hkn] at hm
    exact hk hm
  have hblk := ((hs.orderly.proper n hn hu).blocks _ (hd.index_lt r) hptr).1
  refine ⟨n, hn, ?_⟩
  rw [hE, h.data _ (sector_ge hblk)]
  exact ⟨hu, hkn, hext, hrc, hptr, hx⟩

/-- **Records of a renamed file** are there with the new name. -/
lemma stores_renamed (hd : Flat d) (hs : Sound d s E) {new : CpmDir} (hp : Plain new)
    (h : Swept d g (renamed new) s E (d.drm + 1) t) {k : Fin 12 → ℕ} {r : ℕ} {x : Sector}
    (hk : Matches g k) (hst : Stores d s E k r x) :
    Stores d t (swept d g (renamed new) E (d.drm + 1)) (nameOf new) r x := by
  obtain ⟨n, hn, hu, hkn, hext, hrc, hptr, hx⟩ := hst
  have hE : swept d g (renamed new) E (d.drm + 1) n = renamed new (E n) := by
    rw [swept, if_pos ⟨by omega, matching_name_iff.mpr (hkn ▸ hk)⟩]
  have hal : ∀ i, (renamed new (E n)).pointer (pointers d) i = (E n).pointer (pointers d) i :=
    fun i => CpmDir.pointer_congr rfl i
  have hblk := ((hs.orderly.proper n hn hu).blocks _ (hd.index_lt r) hptr).1
  refine ⟨n, hn, ?_⟩
  rw [hE, hal, h.data _ (sector_ge hblk)]
  exact ⟨(hp.congr rfl rfl rfl : Plain (renamed new (E n))).used, nameOf_congr rfl rfl rfl, hext,
    hrc, hptr, hx⟩

/-! ## Erasing -/

/-- An erased entry is unused. -/
lemma erased_unused (e : CpmDir) : ¬ (erased e).Used := fun h => h rfl

/-- **The view without an entry is orderly**, if its blocks are freed.

**Proof sketch.** A block of another entry is not freed, since no block is named twice, and a block
of the directory is not, since no entry names it. A block that stays marked was named by another
entry. -/
lemma orderly_erased {alv : ℕ → UInt8} (hd : Flat d) (ho : Orderly d alv E) (hn : n ≤ d.drm)
    (hu : (E n).Used) :
    Orderly d (setFileMap d (erased (E n)) false alv) (Function.update E n (erased (E n))) := by
  have hdsm := hd.fits.legal.dsm_lt
  have hat : ∀ m, Function.update E n (erased (E n)) m = if m = n then erased (E n) else E m :=
    fun m => by rw [Function.update_apply]
  -- the used entries of the new view are the others
  have hother : ∀ m, (Function.update E n (erased (E n)) m).Used →
      m ≠ n ∧ Function.update E n (erased (E n)) m = E m := by
    intro m hm
    rw [hat] at hm ⊢
    split
    · rename_i h
      rw [if_pos h] at hm
      exact absurd hm (erased_unused _)
    · rename_i h
      exact ⟨h, rfl⟩
  have hptr : ∀ i, (erased (E n)).pointer (pointers d) i = (E n).pointer (pointers d) i :=
    fun i => CpmDir.pointer_congr rfl i
  have howns : ∀ b, Owns d (erased (E n)) b ↔
      b ≠ 0 ∧ b ≤ d.dsm ∧ ∃ i < pointers d, (E n).pointer (pointers d) i = b := by
    intro b
    unfold Owns entryBlocks
    simp [hptr]
  have hmem := mem_setFileMap hdsm (erased (E n)) false alv
  refine ⟨?_, ?_, ?_, ?_, ?_, ?_⟩
  · intro m hm hum
    obtain ⟨-, heq⟩ := hother m hum
    rw [heq] at hum ⊢
    exact ho.proper m hm hum
  · intro m hm m' hm' hum hum'
    obtain ⟨-, heq⟩ := hother m hum
    obtain ⟨-, heq'⟩ := hother m' hum'
    rw [heq] at hum ⊢
    rw [heq'] at hum' ⊢
    exact ho.unique m hm m' hm' hum hum'
  · intro m hm m' hm' hum hum'
    obtain ⟨-, heq⟩ := hother m hum
    obtain ⟨-, heq'⟩ := hother m' hum'
    rw [heq] at hum ⊢
    rw [heq'] at hum' ⊢
    exact ho.apart m hm m' hm' hum hum'
  · intro m hm hum i hi hne
    obtain ⟨hmn, heq⟩ := hother m hum
    rw [heq] at hum hne ⊢
    rw [hmem, if_neg, ho.marked m hm hum i hi hne]
    rw [howns]
    rintro ⟨-, -, j, hj, hj'⟩
    exact hmn (ho.apart m hm n hn hum hu i hi j hj hne hj'.symm).1
  · intro b hb
    rw [hmem, if_neg, ho.dirs b hb]
    rw [howns]
    rintro ⟨hb0, -, i, hi, heq⟩
    have := (ho.proper n hn hu).blocks i hi (heq ▸ hb0)
    omega
  · intro b hb hmark
    rw [hmem] at hmark
    split at hmark
    · exact Bool.noConfusion hmark
    · rename_i hnot
      refine (ho.tight b hb hmark).imp_right ?_
      rintro ⟨hb0, m, hm, hum, i, hi, heq⟩
      have hmn : m ≠ n := by
        rintro rfl
        exact hnot ((howns b).mpr ⟨hb0, hb, i, hi, heq⟩)
      refine ⟨hb0, m, hm, ?_⟩
      rw [hat, if_neg hmn]
      exact ⟨hum, i, hi, heq⟩

/-- **`ERAFILE` on a sound drive**, for a name that may have question marks and whose newest entries
are in the directory: every entry that the name stands for is erased, and nothing else changes, or
one of them is read-only. -/
lemma eraFile_spec (hd : Flat d) (hs : Sound d s E) (hg : g.st.toNat < 32)
    (hset : ∀ n ≤ d.drm, matching d.exm 12 g (E n) = true → E n = s.slot n) :
    (eraFile d g s = none ∧
      ∃ n ≤ d.drm, matching d.exm 12 g (E n) = true ∧ readOnly (E n) = true) ∨
    ∃ t, eraFile d g s = some t ∧ Swept d g erased s E (d.drm + 1) t ∧
      t.fndStat = if ∃ n ≤ d.drm, matching d.exm 12 g (E n) = true then 0 else 0xff := by
  have hwp : ¬ s.wrtPrt = true := by simp [hs.writable]
  rw [eraFile, if_neg hwp]
  have hstep : ∀ n ≤ d.drm, matching d.exm 12 g (E n) = true → ∀ alv,
      Orderly d alv (swept d g erased E n) → Orderly d (setFileMap d (erased (E n)) false alv)
        (Function.update (swept d g erased E n) n (erased (E n))) := by
    intro n hn hmatch alv ho
    have hat : swept d g erased E n n = E n := by rw [swept, if_neg (by omega)]
    have := orderly_erased hd ho hn (by rw [hat]; exact used_of_match hg hmatch)
    rwa [hat] at this
  rcases sweep_spec hd hs hg hset true erased (fun e => setFileMap d e false) hstep with
    ⟨h1, -, h2⟩ | h
  · exact .inl ⟨h1, h2⟩
  · exact .inr h

/-! ## Renaming -/

/-- **The view with a renamed entry is orderly**, if no other entry has the new name and the
extent.

**Proof sketch.** Renaming keeps the extents and the pointers of all slots. Two entries of one name
and extent in the new view are the renamed one and another one with the new name, which was ruled
out, or were there before. -/
lemma orderly_renamed {alv : ℕ → UInt8} (new : CpmDir) (ho : Orderly d alv E) (hn : n ≤ d.drm)
    (hu : (E n).Used) (hp : Plain new)
    (hno : ∀ m ≤ d.drm, m ≠ n → (E m).Used → nameOf (E m) = nameOf new →
      extOf (E m) ≠ extOf (E n)) :
    Orderly d alv (Function.update E n (renamed new (E n))) := by
  have hat : ∀ m, Function.update E n (renamed new (E n)) m =
      if m = n then renamed new (E n) else E m := fun m => by rw [Function.update_apply]
  have hptr : ∀ m i, (Function.update E n (renamed new (E n)) m).pointer (pointers d) i =
      (E m).pointer (pointers d) i := by
    intro m i
    rw [hat]
    split
    · rename_i h
      rw [h]
      exact CpmDir.pointer_congr rfl i
    · rfl
  have hext : ∀ m, extOf (Function.update E n (renamed new (E n)) m) = extOf (E m) := by
    intro m
    rw [hat]
    split
    · rename_i h
      rw [h]
      rfl
    · rfl
  have hpn : Plain (renamed new (E n)) := hp.congr rfl rfl rfl
  have hname : nameOf (renamed new (E n)) = nameOf new := nameOf_congr rfl rfl rfl
  have hused : ∀ m, (Function.update E n (renamed new (E n)) m).Used ↔ (E m).Used := by
    intro m
    rw [hat]
    split
    · rename_i h
      rw [h]
      exact iff_of_true hpn.used hu
    · exact Iff.rfl
  refine ⟨?_, ?_, ?_, ?_, ho.dirs, ?_⟩
  · intro m hm hum
    have hprop := ho.proper m hm ((hused m).mp hum)
    rw [hat]
    split
    · rename_i h
      subst h
      exact ⟨hpn, hprop.xl, hprop.xh, hprop.rc, fun i hi hne => hprop.blocks i hi hne⟩
    · exact hprop
  · intro m hm m' hm' hum hum' hnm hex
    rw [hused] at hum
    rw [hused] at hum'
    rw [hext, hext] at hex
    rw [hat, hat] at hnm
    by_cases h : m = n
    · by_cases h' : m' = n
      · rw [h, h']
      · rw [if_pos h, if_neg h', hname] at hnm
        rw [h] at hex
        exact absurd hex.symm (hno m' hm' h' hum' hnm.symm)
    · by_cases h' : m' = n
      · rw [if_neg h, if_pos h', hname] at hnm
        rw [h'] at hex
        exact absurd hex (hno m hm h hum hnm)
      · rw [if_neg h, if_neg h'] at hnm
        exact ho.unique m hm m' hm' hum hum' hnm hex
  · intro m hm m' hm' hum hum' i hi j hj
    rw [hptr, hptr]
    exact ho.apart m hm m' hm' ((hused m).mp hum) ((hused m').mp hum') i hi j hj
  · intro m hm hum i hi
    rw [hptr]
    exact ho.marked m hm ((hused m).mp hum) i hi
  · intro b hb hmark
    refine (ho.tight b hb hmark).imp_right ?_
    rintro ⟨hb0, m, hm, hum, i, hi, heq⟩
    exact ⟨hb0, m, hm, (hused m).mpr hum, i, hi, (hptr m i).trans heq⟩

/-- **`CHGNAMES` on a sound drive**, for a name whose newest entries are in the directory and a new
one that no entry has: every entry of the name gets the new one, and nothing else changes, or one of
them is read-only.

**Proof sketch.** An instance of `sweep_spec`. One round keeps the view orderly
(`orderly_renamed`): an entry with the new name was renamed by an earlier round, so that it had
another extent, since no other entry had that name before. -/
lemma chgNames_spec (hd : Flat d) (hs : Sound d s E) (hg : Plain g) (hnew : Plain (newName g))
    (hset : ∀ n ≤ d.drm, matching d.exm 12 g (E n) = true → E n = s.slot n)
    (hno : ∀ n ≤ d.drm, (E n).Used → nameOf (E n) ≠ nameOf (newName g)) :
    (chgNames d g s = none ∧
      ∃ n ≤ d.drm, matching d.exm 12 g (E n) = true ∧ readOnly (E n) = true) ∨
    ∃ t, chgNames d g s = some ({ g with al := Function.update g.al 0 g.st }, t) ∧
      Swept d g (renamed (newName g)) s E (d.drm + 1) t ∧
      t.fndStat = if ∃ n ≤ d.drm, matching d.exm 12 g (E n) = true then 0 else 0xff := by
  have hwp : ¬ s.wrtPrt = true := by simp [hs.writable]
  have huser : g.st.toNat < 32 := hg.user
  have hstep : ∀ n ≤ d.drm, matching d.exm 12 g (E n) = true → ∀ alv,
      Orderly d alv (swept d g (renamed (newName g)) E n) →
      Orderly d (id alv)
        (Function.update (swept d g (renamed (newName g)) E n) n (renamed (newName g) (E n))) := by
    intro n hn hmatch alv ho
    have hat : swept d g (renamed (newName g)) E n n = E n := by rw [swept, if_neg (by omega)]
    have hun := used_of_match huser hmatch
    have := orderly_renamed (n := n) (newName g) ho hn (by rw [hat]; exact hun) hnew ?_
    · rwa [hat] at this
    · -- an entry with the new name was renamed before, so it had another extent
      intro m hm hmn hum hname hext
      rw [hat] at hext
      rw [swept] at hum hname hext
      split at hname
      · rename_i h
        rw [if_pos h] at hext
        have hnm : nameOf (E m) = nameOf (E n) := by
          rw [← (hg.matches_iff.mp (matching_name_iff.mp h.2)),
            ← (hg.matches_iff.mp (matching_name_iff.mp hmatch))]
        exact hmn (hs.orderly.unique m hm n hn (used_of_match huser h.2) hun hnm hext)
      · rename_i h
        rw [if_neg h] at hum
        exact hno m hm hum hname
  rw [chgNames, if_neg hwp, chgRound]
  rcases sweep_spec hd hs huser hset true (renamed (newName g)) (fun _ => id) hstep with
    ⟨h1, -, h2⟩ | ⟨t, h1, h2⟩
  · rw [h1]
    exact .inl ⟨rfl, h2⟩
  · rw [h1]
    exact .inr ⟨t, rfl, h2⟩

/-- **`SAVEATTR` on a sound drive**, for a name whose newest entries are in the directory: every
entry of the name gets the attributes, and nothing else changes.

**Proof sketch.** An instance of `sweep_spec` that does not look at read-only entries. The new
entry has the name of the old one, so that no other entry has its name and its extent. -/
lemma saveAttr_spec (hd : Flat d) (hs : Sound d s E) (hg : Plain g)
    (hset : ∀ n ≤ d.drm, matching d.exm 12 g (E n) = true → E n = s.slot n) :
    ∃ t, saveAttr d g s = some t ∧ Swept d g (renamed g) s E (d.drm + 1) t ∧
      t.fndStat = if ∃ n ≤ d.drm, matching d.exm 12 g (E n) = true then 0 else 0xff := by
  have huser : g.st.toNat < 32 := hg.user
  have hstep : ∀ n ≤ d.drm, matching d.exm 12 g (E n) = true → ∀ alv,
      Orderly d alv (swept d g (renamed g) E n) →
      Orderly d (id alv) (Function.update (swept d g (renamed g) E n) n (renamed g (E n))) := by
    intro n hn hmatch alv ho
    have hat : swept d g (renamed g) E n n = E n := by rw [swept, if_neg (by omega)]
    have hun := used_of_match huser hmatch
    have hself := hg.matches_iff.mp (matching_name_iff.mp hmatch)
    have hu' : (swept d g (renamed g) E n n).Used := by
      rw [hat]
      exact hun
    have := orderly_renamed (n := n) g ho hn hu' hg ?_
    · rwa [hat] at this
    · intro m hm hmn hum hname hext
      refine hmn (ho.unique m hm n hn hum hu' (hname.trans ?_) hext)
      rw [hat]
      exact hself
  rw [saveAttr, attrRound]
  rcases sweep_spec hd hs huser hset false (renamed g) (fun _ => id) hstep with ⟨-, h, -⟩ | h
  · exact Bool.noConfusion h
  · exact h

end File

end Bdos

end Cpm22
