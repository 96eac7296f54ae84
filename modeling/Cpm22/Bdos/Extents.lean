import Cpm22.Bdos.Sound

set_option relaxedAutoImplicit false
set_option autoImplicit false

/-!
# Opening, closing and making extents

What the routines for extents do on a sound drive, for a file control block that is coherent with
the view of the directory. Closing writes the newest entry to the directory and leaves the view as
it is; opening attaches the file control block to the entry of an extent; making an extent takes an
unused entry.

## Main definitions

* `Cpm22.Bdos.Keeps` — a step keeps the other files and all records.

## Main results

* `Cpm22.Bdos.find_extent`, `Cpm22.Bdos.find_empty` — what the searches find.
* `Cpm22.Bdos.File.closeIt_spec`, `openIt_spec`, `getEmpty_spec`.
-/

namespace Cpm22

namespace Bdos

open BitMap Disk

variable {d : Dpb} {s s' : Drive} {E E' : ℕ → CpmDir} {f f' : FileFcb} {n : ℕ}

/-! ## Searches on a sound drive -/

/-- **The search for an extent** finds its slot, or there is none.

**Proof sketch.** A slot matches iff its entry of the view is in use and has the name and the
extent (`matching_extent_iff`). The search stops at a match; if it finds none, no slot in front of
the search limit matches, and no entry behind it is in use. -/
lemma find_extent (hd : Flat d) (hs : Sound d s E) {g : CpmDir} (hg : Plain g)
    (hxl : g.xl.toNat < 32) (hxh : g.xh.toNat % 128 < 32) :
    s.Moved (s.findFst d g 15) ∧ (s.findFst d g 15).Buffered ∧
    ((∃ n ≤ d.drm, (E n).Used ∧ nameOf (E n) = nameOf g ∧ extOf (E n) = extOf g ∧
        (s.findFst d g 15).filePos = some n ∧
        (s.findFst d g 15).status = UInt8.ofNat (n % 4)) ∨
      ((∀ n ≤ d.drm, (E n).Used → nameOf (E n) = nameOf g → extOf (E n) ≠ extOf g) ∧
        (s.findFst d g 15).filePos = none ∧ (s.findFst d g 15).status = 0xff)) := by
  obtain ⟨hmv, hbuf, hends⟩ := Drive.findFst_spec hs.unchanged g 15
  refine ⟨hmv, hbuf, ?_⟩
  have hmatch : ∀ n ≤ d.drm, matching d.exm 15 g (s.slot n) = true ↔
      (E n).Used ∧ nameOf (E n) = nameOf g ∧ extOf (E n) = extOf g := by
    intro n hn
    have hview := hs.view n hn
    obtain ⟨hname, hext, -⟩ := hview.keys
    rw [hd.exm, matching_extent_iff hg hxl hxh, hname, hext, hview.used_iff]
    constructor
    · rintro ⟨h1, h2⟩
      exact ⟨by_contra fun hu => nameOf_ne_of_unused hg hu h1, h1.symm, h2.symm⟩
    · rintro ⟨-, h1, h2⟩
      exact ⟨h1.symm, h2.symm⟩
  rcases hends with ⟨n, -, hle, -, hm, -, hpos, hstat, -⟩ | ⟨hnone, hpos, hstat, -⟩
  · obtain ⟨h1, h2, h3⟩ := (hmatch n hle).mp hm
    exact .inl ⟨n, hle, h1, h2, h3, hpos, hstat⟩
  · refine .inr ⟨fun n hn hu hname hext => ?_, hpos, hstat⟩
    have hin : Drive.InSearch g { s with fndStat := 0xff } n := by
      intro _
      by_contra hge
      exact hs.limit n hn (by simpa using hge) ((hs.view n hn).used_iff.mp hu)
    have hfalse := hnone n (by omega) hn hin
    have htrue : matching d.exm 15 g (s.slot n) = true := (hmatch n hn).mpr ⟨hu, hname, hext⟩
    rw [show ({ s with fndStat := 0xff } : Drive).slot n = s.slot n from rfl, htrue] at hfalse
    exact Bool.noConfusion hfalse

/-- **The search for an empty entry** finds an unused slot, or all are in use.

**Proof sketch.** A slot matches iff its entry is unused (`matching_empty_iff`), and the search for
an empty entry goes to the end of the directory. -/
lemma find_empty (hs : Sound d s E) :
    s.Moved (s.findFst d CpmDir.empty 1) ∧ (s.findFst d CpmDir.empty 1).Buffered ∧
    ((∃ n ≤ d.drm, ¬ (E n).Used ∧ (s.findFst d CpmDir.empty 1).filePos = some n ∧
        (s.findFst d CpmDir.empty 1).status = UInt8.ofNat (n % 4)) ∨
      ((∀ n ≤ d.drm, (E n).Used) ∧ (s.findFst d CpmDir.empty 1).filePos = none ∧
        (s.findFst d CpmDir.empty 1).status = 0xff)) := by
  obtain ⟨hmv, hbuf, hends⟩ := Drive.findFst_spec hs.unchanged CpmDir.empty 1
  refine ⟨hmv, hbuf, ?_⟩
  have hmatch : ∀ n ≤ d.drm, matching d.exm 1 CpmDir.empty (s.slot n) = true ↔ ¬ (E n).Used := by
    intro n hn
    have hview := hs.view n hn
    rw [hview.used_iff]
    apply matching_empty_iff
    intro hu
    have hp := (hs.orderly.proper n hn (hview.used_iff.mpr hu)).plain.user
    obtain ⟨-, -, hst, -⟩ := hview.keys
    rwa [hst] at hp
  rcases hends with ⟨n, -, hle, -, hm, -, hpos, hstat, -⟩ | ⟨hnone, hpos, hstat, -⟩
  · exact .inl ⟨n, hle, (hmatch n hle).mp hm, hpos, hstat⟩
  · refine .inr ⟨fun n hn => by_contra fun hu => ?_, hpos, hstat⟩
    have hin : Drive.InSearch CpmDir.empty { s with fndStat := 0xff } n := fun h => absurd rfl h
    have hfalse := hnone n (by omega) hn hin
    have htrue : matching d.exm 1 CpmDir.empty (s.slot n) = true := (hmatch n hn).mpr hu
    rw [show ({ s with fndStat := 0xff } : Drive).slot n = s.slot n from rfl, htrue] at hfalse
    exact Bool.noConfusion hfalse

/-! ## Steps -/

/-- **A step on a file control block keeps the file system sound and the other files as they
are.** -/
structure Keeps (d : Dpb) (s : Drive) (E : ℕ → CpmDir) (f : FileFcb) (s' : Drive) (E' : ℕ → CpmDir)
    (f' : FileFcb) : Prop where
  sound : Sound d s' E'
  coherent : Coherent d s' E' f'
  name : nameOf f'.entry = nameOf f.entry
  others : ∀ n ≤ d.drm, (E n).Used → nameOf (E n) ≠ nameOf f.entry →
    E' n = E n ∧ s'.slot n = s.slot n
  mine : ∀ n ≤ d.drm, Mine E f n → Mine E' f n
  writable : Writable d E f → Writable d E' f'

/-- All records that are on the disk stay there. -/
def Preserves (d : Dpb) (s : Drive) (E : ℕ → CpmDir) (s' : Drive) (E' : ℕ → CpmDir) : Prop :=
  ∀ k r x, Stores d s E k r x → Stores d s' E' k r x

/-- Nothing changed. -/
lemma Keeps.refl (hs : Sound d s E) (hc : Coherent d s E f) : Keeps d s E f s E f :=
  ⟨hs, hc, rfl, fun _ _ _ _ => ⟨rfl, rfl⟩, fun _ _ h => h, id⟩

/-- Two steps after each other. -/
lemma Keeps.trans {s'' : Drive} {E'' : ℕ → CpmDir} {f'' : FileFcb}
    (h : Keeps d s E f s' E' f') (h' : Keeps d s' E' f' s'' E'' f'') :
    Keeps d s E f s'' E'' f'' := by
  refine ⟨h'.sound, h'.coherent, h'.name.trans h.name, fun n hn hu hne => ?_, fun n hn hm => ?_,
    h'.writable ∘ h.writable⟩
  · obtain ⟨h1, h2⟩ := h.others n hn hu hne
    obtain ⟨h3, h4⟩ := h'.others n hn (h1 ▸ hu) (by rw [h1, h.name]; exact hne)
    exact ⟨h3.trans h1, h4.trans h2⟩
  · have hm' := h.mine n hn hm
    intro hu
    have := h'.mine n hn (fun hu' => (hm' hu').trans h.name.symm) hu
    exact this.trans h.name

/-- The sector of a record is behind the directory. -/
lemma sector_ge {b r : ℕ} (hb : d.dirBlocks ≤ b) : d.dirBlocks * 2 ^ d.bsh ≤ b * 2 ^ d.bsh + r :=
  (Nat.mul_le_mul_right _ hb).trans (Nat.le_add_right _ _)

/-- The index of the block of a record. -/
lemma Flat.index_lt (hd : Flat d) (r : ℕ) : r % 128 / 2 ^ d.bsh < pointers d := by
  have := hd.fits.index_lt (Nat.zero_le d.exm) (Nat.mod_lt r (by omega : 128 > 0))
  simpa using this

/-- **Records stay** where the view stays and nothing behind the directory is written. -/
lemma preserves_of_dir (hd : Flat d) (hs : Sound d s E)
    (hE : ∀ n ≤ d.drm, (E n).Used → E' n = E n)
    (hsec : ∀ i, d.dirBlocks * 2 ^ d.bsh ≤ i → s'.sec i = s.sec i) : Preserves d s E s' E' := by
  rintro k r x ⟨n, hn, hu, hk, hext, hrc, hptr, hx⟩
  have hE' := hE n hn hu
  have hblk := ((hs.orderly.proper n hn hu).blocks _ (hd.index_lt r) hptr).1
  refine ⟨n, hn, ?_⟩
  rw [hE', hsec _ (sector_ge hblk)]
  exact ⟨hu, hk, hext, hrc, hptr, hx⟩

/-- Behind the directory a directory write changes nothing. -/
lemma sec_rewrite_data (hd : Flat d) (hb : s.Buffered) (hn : s.filePos = some n) (hle : n ≤ d.drm)
    (e : CpmDir) {i : ℕ} (hi : d.dirBlocks * 2 ^ d.bsh ≤ i) : (s.rewrite d e).sec i = s.sec i := by
  have hdirs := hd.dirs
  have hne : i ≠ n / 4 := by omega
  rw [Drive.sec_rewrite hb hn, Function.update_of_ne hne]

/-- A file control block holds one entry. -/
lemma Attached.unique (hs : Sound d s E) {m : ℕ} (hn : Attached d s E f n)
    (hm : Attached d s E f m) :
    n = m := by
  refine hs.orderly.unique n hn.le m hm.le hn.used hm.used (hn.name.symm.trans hm.name) ?_
  have hxl : (E n).xl = (E m).xl := hn.xl.symm.trans hm.xl
  have hxh : (E n).xh.toNat = (E m).xh.toNat := hn.xh.symm.trans hm.xh
  rw [extOf, extOf, hxl, hxh]

/-- An attached file control block has the extent of the entry. -/
lemma Attached.ext (hs : Sound d s E) (h : Attached d s E f n) : extOf f.entry = extOf (E n) := by
  have hlt := (hs.orderly.proper n h.le h.used).xh
  rw [extOf, extOf, h.xl, h.xh, Nat.mod_eq_of_lt (by omega : (E n).xh.toNat < 128)]

/-- **The file control block can be used**: it holds an entry, or the next access opens one. -/
def Usable (d : Dpb) (s : Drive) (E : ℕ → CpmDir) (f : FileFcb) : Prop :=
  Stale f ∨ ∃ n, Attached d s E f n

/-- A file control block that was written to holds an entry. -/
lemma Usable.attached (h : Usable d s E f) (hf : f.entry.xh &&& 0x80 = 0) :
    ∃ n, Attached d s E f n :=
  h.resolve_left fun hs => hs.2 hf

/-- **The directory has the newest entries** of the file. -/
def Settled (d : Dpb) (s : Drive) (E : ℕ → CpmDir) (f : FileFcb) : Prop :=
  ∀ n ≤ d.drm, Mine E f n → E n = s.slot n

/-! ## Closing -/

namespace File

/-- Closing an extent that was not written to. -/
lemma closeIt_clean (h : f.entry.xh &&& 0x80 ≠ 0) (hw : s.wrtPrt = false) :
    closeIt d f s = (f, { s with status := 0, filePos := some 0 }, false) := by
  simp only [closeIt, hw, Bool.false_eq_true, if_false]
  rw [if_pos h]

/-- **Closing an extent that was written to** puts its newest entry into the directory.

**Proof sketch.** The search finds the slot that the file control block is attached to, since no
other entry has the name and the extent. The directory lags behind the file control block, so that
merging gives the newest entry. -/
lemma closeIt_dirty (hd : Flat d) (hs : Sound d s E) (hp : Plain f.entry)
    (ha : Attached d s E f n) (h : f.entry.xh &&& 0x80 = 0) :
    ∃ t : Drive, s.Moved t ∧ t.Buffered ∧ t.filePos = some n ∧
      t.status = UInt8.ofNat (n % 4) ∧ closeIt d f s = (f, t.rewrite d (E n), true) := by
  have hprop := hs.orderly.proper n ha.le ha.used
  have hs0 : Sound d { s with status := 0, filePos := some 0 } E :=
    hs.same ⟨rfl, rfl, rfl, rfl, rfl⟩
  have hxl : f.entry.xl.toNat < 32 := ha.xl ▸ hprop.xl
  have hxh : f.entry.xh.toNat % 128 < 32 := by
    have := hprop.xh
    rw [ha.xh]
    omega
  obtain ⟨hmv, hbuf, hcase⟩ := find_extent hd hs0 hp hxl hxh
  obtain ⟨m, hm, hu, hname, hext, hpos, hstat⟩ | ⟨hnone, -, -⟩ := hcase
  · obtain rfl : m = n := by
      refine hs.orderly.unique m hm n ha.le hu ha.used (hname.trans ha.name) ?_
      rw [hext, ha.ext hs]
    refine ⟨_, ⟨hmv.sec, hmv.alv, hmv.csv, hmv.scratch1, hmv.wrtPrt, hmv.dma⟩, hbuf, hpos, hstat,
      ?_⟩
    have hview := hs.view m hm
    obtain ⟨-, -, -, -, -, hvxl, -⟩ := hview.keys
    have hentry : (Drive.findFst d f.entry 15 { s with status := 0, filePos := some 0 }).fcb2HL =
        s.slot m := by
      rw [hbuf.fcb2HL hpos, hmv.slot]
      rfl
    have hlag : Lags d (s.slot m) f.entry := by
      intro i hi hne
      rw [CpmDir.pointer_congr ha.al]
      exact hview.lags i hi hne
    have hmerge := merge_of_lags hlag
    -- the directory has the same extent byte, so that it takes over the record count
    have hwritten : (if f.entry.xl < (s.slot m).xl then { s.slot m with al := f.entry.al }
        else { s.slot m with al := f.entry.al, xl := f.entry.xl, rc := f.entry.rc }) = E m := by
      have hnot : ¬ f.entry.xl < (s.slot m).xl := by
        rw [ha.xl, hvxl]
        exact UInt8.lt_irrefl _
      rw [if_neg hnot, ha.al, ha.xl, ha.rc, hvxl]
      exact hview.same.symm
    have hwp : ¬ s.wrtPrt = true := by simp [hs.writable]
    simp only [closeIt]
    rw [if_neg hwp, if_neg (not_not.mpr h), if_neg (by rw [hpos]; simp), hentry, hmerge]
    simp only [hwritten]
  · exact absurd (ha.ext hs).symm (hnone n ha.le ha.used ha.name.symm)

/-- **`CLOSEIT` on a sound drive**: the directory gets the newest entry of the file, the view and
all records stay, and there is no error.

**Proof sketch.** If the extent was written to, its entry on the disk becomes the newest one
(`closeIt_dirty`); a slot of the file that is not the attached one was on the disk already. If it
was not written to, nothing is done. -/
lemma closeIt_spec (hd : Flat d) (hs : Sound d s E) (hc : Coherent d s E f)
    (hu : f.entry.xh &&& 0x80 = 0 → ∃ n, Attached d s E f n) :
    (closeIt d f s).1 = f ∧ Keeps d s E f (closeIt d f s).2.1 E f ∧
      Settled d (closeIt d f s).2.1 E f ∧ Preserves d s E (closeIt d f s).2.1 E ∧
      (closeIt d f s).2.1.status ≠ 0xff ∧ (closeIt d f s).2.1.filePos ≠ none ∧
      (closeIt d f s).2.1.dma = s.dma ∧ (closeIt d f s).2.1.alv = s.alv := by
  by_cases hflag : f.entry.xh &&& 0x80 = 0
  · obtain ⟨n, ha⟩ := hu hflag
    obtain ⟨t, hmv, hbuf, hpos, hstat, heq⟩ := closeIt_dirty hd hs hc.plain ha hflag
    have hst : Sound d t E := hs.moved hmv
    obtain ⟨halv, hlim, hwp, hdma, hfp, hstat', -⟩ := Drive.rewrite_frame (d := d) (E n) t
    have hslot : ∀ m, (t.rewrite d (E n)).slot m = if m = n then E n else s.slot m := by
      intro m
      rw [Drive.slot_rewrite hbuf hpos, hmv.slot]
    have hsound : Sound d (t.rewrite d (E n)) E := by
      refine ⟨hwp.trans hst.writable, Drive.unchanged_rewrite hst.unchanged hbuf hpos _, ?_, ?_,
        halv ▸ hst.orderly⟩
      · intro m hm hle
        rw [hlim] at hle
        have hnot := hst.limit m hm hle
        have hne : m ≠ n := by
          rintro rfl
          exact hnot ((hst.view m hm).used_iff.mp ha.used)
        rw [hslot, if_neg hne]
        rwa [hmv.slot] at hnot
      · intro m hm
        rw [hslot]
        split
        · rename_i h
          rw [h]
          exact Newer.refl _
        · exact hs.view m hm
    have hsettled : Settled d (t.rewrite d (E n)) E f := by
      intro m hm hmine
      rw [hslot]
      split
      · rename_i h
        rw [h]
      · rename_i h
        exact (hc.mine m hm hmine).resolve_right fun ha' => h (ha'.unique hs ha)
    rw [heq]
    refine ⟨rfl, ⟨hsound, ⟨hc.plain, fun m hm hmine => .inl (hsettled m hm hmine)⟩, rfl,
      fun m hm hu hne => ⟨rfl, ?_⟩, fun _ _ h => h, id⟩, hsettled,
      preserves_of_dir hd hs (fun _ _ _ => rfl) fun i hi => ?_, ?_, ?_, ?_, ?_⟩
    · rw [hslot, if_neg]
      rintro rfl
      exact hne ha.name.symm
    · show (t.rewrite d (E n)).sec i = s.sec i
      rw [sec_rewrite_data hd hbuf hpos ha.le _ hi, hmv.sec]
    · show (t.rewrite d (E n)).status ≠ 0xff
      rw [hstat', hstat, ne_eq, ← UInt8.toNat_inj, UInt8.toNat_ofNat',
        show UInt8.toNat 0xff = 255 from rfl]
      omega
    · show (t.rewrite d (E n)).filePos ≠ none
      rw [hfp, hpos]
      simp
    · show (t.rewrite d (E n)).dma = s.dma
      rw [hdma, hmv.dma]
    · show (t.rewrite d (E n)).alv = s.alv
      rw [halv, hmv.alv]
  · rw [closeIt_clean hflag hs.writable]
    have hsettled : Settled d s E f := by
      intro n hn hmine
      rcases hc.mine n hn hmine with h | h
      · exact h
      · exact h.clean hflag
    refine ⟨rfl, ⟨hs.same ⟨rfl, rfl, rfl, rfl, rfl⟩,
      ⟨hc.plain, fun n hn hm => .inl (hsettled n hn hm)⟩,
      rfl, fun _ _ _ _ => ⟨rfl, rfl⟩, fun _ _ h => h, id⟩, hsettled,
      preserves_of_dir hd hs (fun _ _ _ => rfl) fun _ _ => rfl, ?_, by simp, rfl, rfl⟩
    show (0 : UInt8) ≠ 0xff
    decide

/-! ## Opening -/

/-- Bit 7 of a byte. -/
lemma or_80 {a : UInt8} (h : a.toNat < 128) : (a ||| 0x80).toNat = a.toNat + 128 := by
  rw [UInt8.toNat_or, show UInt8.toNat 0x80 = 2 ^ 7 * 1 from rfl, Nat.or_comm,
    ← Nat.two_pow_add_eq_or_of_lt (by omega)]
  omega

/-- A byte with bit 7 set is not zero in it. -/
lemma or_80_and (a : UInt8) : (a ||| 0x80) &&& 0x80 ≠ 0 := by
  intro h
  have hbit := congrArg (fun x : UInt8 => x.toNat.testBit 7) h
  simp only [UInt8.toNat_and, UInt8.toNat_or, Nat.testBit_and, Nat.testBit_or] at hbit
  rw [show (UInt8.toNat 0x80).testBit 7 = true from by decide, Bool.or_true] at hbit
  exact absurd hbit (by decide)

/-- The status of a search that found something. -/
lemma found_ne (n : ℕ) : UInt8.ofNat (n % 4) ≠ 0xff := by
  rw [ne_eq, ← UInt8.toNat_inj, UInt8.toNat_ofNat', show UInt8.toNat 0xff = 255 from rfl]
  omega

/-- **`OPENIT1` attaches the file control block** to the entry of its extent.

**Proof sketch.** The directory buffer has the entry, which is the newest one. Its extent byte is
the one that was asked for, since both are below 32, so that the record count is taken over as it
is. The flag of `S2` is set beyond its number. -/
lemma openIt1_attached (hs : Sound d s E) (hbuf : s.Buffered) (hn : n ≤ d.drm) (hu : (E n).Used)
    (hpos : s.filePos = some n) (hname : nameOf (E n) = nameOf f.entry)
    (hext : extOf (E n) = extOf f.entry) (hxl : f.entry.xl.toNat < 32)
    (hset : E n = s.slot n) :
    Attached d s E (openIt1 f s) n ∧ Plain (openIt1 f s).entry ∧
      nameOf (openIt1 f s).entry = nameOf f.entry ∧
      extOf (openIt1 f s).entry = extOf f.entry := by
  have hprop := hs.orderly.proper n hn hu
  have hentry : s.fcb2HL = E n := by rw [hbuf.fcb2HL hpos, hset]
  have hsame : (E n).xl = f.entry.xl := by
    have h1 := hprop.xl
    rw [extOf, extOf] at hext
    rw [← UInt8.toNat_inj]
    omega
  have hxh := or_80 (a := (E n).xh) (by have := hprop.xh; omega)
  have hopen : (openIt1 f s).entry = { E n with xh := (E n).xh ||| 0x80 } := by
    simp only [openIt1, hentry, hsame, if_true]
  have hnm : nameOf (openIt1 f s).entry = nameOf (E n) := by
    rw [hopen]
    exact nameOf_congr rfl rfl rfl
  have hlt := hprop.xh
  refine ⟨⟨hn, hu, hnm, ?_, ?_, ?_, ?_, ?_, fun _ => hset⟩, ?_, hnm.trans hname, ?_⟩
  · rw [hopen]
  · rw [hopen]
    simp only [hxh]
    omega
  · rw [hopen]
  · rw [hopen]
  · rw [hopen]
  · rw [hopen]
    exact hprop.plain.congr rfl rfl rfl
  · rw [hopen, ← hext]
    simp only [extOf, hxh]
    omega

/-- **`OPENIT` on a sound drive** whose directory has the newest entries of the file: it attaches
the file control block, or there is no entry of its extent.

**Proof sketch.** The search finds the slot of the extent, whose entry on the disk is the newest
one, and `openIt1_attached` takes it over; or there is none (`find_extent`). -/
lemma openIt_spec (hd : Flat d) (hs : Sound d s E) (hp : Plain f.entry)
    (hxl : f.entry.xl.toNat < 32) (hxh : f.entry.xh.toNat < 16) (hset : Settled d s E f) :
    s.Moved (openIt d f s).2 ∧
    ((∃ n, Attached d (openIt d f s).2 E (openIt d f s).1 n ∧ extOf (E n) = extOf f.entry ∧
        Plain (openIt d f s).1.entry ∧ nameOf (openIt d f s).1.entry = nameOf f.entry ∧
        (openIt d f s).1.cr = f.cr ∧ (openIt d f s).2.status ≠ 0xff) ∨
      ((∀ n ≤ d.drm, (E n).Used → nameOf (E n) = nameOf f.entry → extOf (E n) ≠ extOf f.entry) ∧
        (openIt d f s).1 = f ∧ (openIt d f s).2.status = 0xff)) := by
  obtain ⟨hmv, hbuf, hcase⟩ := find_extent hd hs hp hxl (by omega)
  have hst := hs.moved hmv
  simp only [openIt]
  obtain ⟨n, hn, hu, hname, hext, hpos, hstat⟩ | ⟨hnone, hpos, hstat⟩ := hcase
  · rw [if_neg (by rw [hpos]; simp)]
    refine ⟨hmv, .inl ⟨n, ?_⟩⟩
    have hsn : E n = (s.findFst d f.entry 15).slot n := by
      rw [hmv.slot]
      exact hset n hn fun _ => hname
    obtain ⟨h1, h2, h3, -⟩ := openIt1_attached hst hbuf hn hu hpos hname hext hxl hsn
    exact ⟨h1, hext, h2, h3, rfl, by simp only [hstat]; exact found_ne n⟩
  · rw [if_pos hpos]
    exact ⟨hmv, .inr ⟨hnone, rfl, hstat⟩⟩

/-! ## Making -/

/-- The entry that `GETEMPTY` makes. -/
def made (f : FileFcb) : CpmDir := { f.entry with bc := 0, rc := 0, al := fun _ => 0 }

/-- An entry without pointers. -/
lemma made_pointer (bps i : ℕ) : (made f).pointer bps i = 0 := by
  have hb : ∀ i, (made f).getALByte i = 0 := by
    intro i
    rw [CpmDir.getALByte]
    split <;> rfl
  simp [CpmDir.pointer, CpmDir.getALWord, hb]

/-- **The view with a new entry is orderly**, if there was none of its extent.

**Proof sketch.** The new entry has no pointers, so that what is said of blocks is said of the old
entries. No other entry of the name has its extent. -/
lemma orderly_made {alv : ℕ → UInt8} (ho : Orderly d alv E) (hn : ¬ (E n).Used) (hp : Plain f.entry)
    (hxl : f.entry.xl.toNat < 32) (hxh : f.entry.xh.toNat < 16)
    (hnone : ∀ m ≤ d.drm, (E m).Used → nameOf (E m) = nameOf f.entry →
      extOf (E m) ≠ extOf f.entry) :
    Orderly d alv (Function.update E n (made f)) := by
  have hname : nameOf (made f) = nameOf f.entry := nameOf_congr rfl rfl rfl
  have hext : extOf (made f) = extOf f.entry := rfl
  have hat : ∀ m, Function.update E n (made f) m = if m = n then made f else E m := fun m => by
    rw [Function.update_apply]
  refine ⟨?_, ?_, ?_, ?_, ho.dirs, ?_⟩
  · intro m hm hu
    rw [hat] at hu ⊢
    split
    · exact ⟨hp.congr rfl rfl rfl, hxl, hxh, by simp [made],
        fun i _ hne => absurd (made_pointer _ i) hne⟩
    · rename_i h
      rw [if_neg h] at hu
      exact ho.proper m hm hu
  · intro m hm m' hm' hu hu' hnm hex
    rw [hat] at hu hnm hex
    rw [hat] at hu' hnm hex
    by_cases h : m = n
    · by_cases h' : m' = n
      · rw [h, h']
      · rw [if_pos h, if_neg h'] at hnm hex
        rw [if_neg h'] at hu'
        exact absurd (hex.symm.trans hext) (hnone m' hm' hu' (hnm.symm.trans hname))
    · by_cases h' : m' = n
      · rw [if_neg h, if_pos h'] at hnm hex
        rw [if_neg h] at hu
        exact absurd (hex.trans hext) (hnone m hm hu (hnm.trans hname))
      · rw [if_neg h] at hu hnm hex
        rw [if_neg h'] at hu' hnm hex
        exact ho.unique m hm m' hm' hu hu' hnm hex
  · intro m hm m' hm' hu hu' i hi j hj hne heq
    rw [hat] at hu hne heq
    rw [hat] at hu' heq
    by_cases h : m = n
    · rw [if_pos h] at hne
      exact absurd (made_pointer _ i) hne
    · rw [if_neg h] at hu hne heq
      by_cases h' : m' = n
      · rw [if_pos h', made_pointer] at heq
        exact absurd heq hne
      · rw [if_neg h'] at hu' heq
        exact ho.apart m hm m' hm' hu hu' i hi j hj hne heq
  · intro m hm hu i hi hne
    rw [hat] at hu hne ⊢
    by_cases h : m = n
    · rw [if_pos h] at hne
      exact absurd (made_pointer _ i) hne
    · rw [if_neg h] at hu hne ⊢
      exact ho.marked m hm hu i hi hne
  · intro b hb hmem
    refine (ho.tight b hb hmem).imp_right ?_
    rintro ⟨hb0, m, hm, hu, i, hi, heq⟩
    have h : m ≠ n := by
      rintro rfl
      exact hn hu
    refine ⟨hb0, m, hm, ?_⟩
    rw [hat, if_neg h]
    exact ⟨hu, i, hi, heq⟩

/-- **A new entry was made at slot `n`**: the drive `s'` has the entry of the file control block
there, in front of its search limit, and nothing else changed. -/
structure MadeAt (d : Dpb) (s : Drive) (f : FileFcb) (n : ℕ) (s' : Drive) : Prop where
  slot : ∀ m, s'.slot m = if m = n then made f else s.slot m
  data : ∀ i, d.dirBlocks * 2 ^ d.bsh ≤ i → s'.sec i = s.sec i
  unchanged : s'.Unchanged d
  scratch1 : s'.scratch1 = max s.scratch1 (n + 1)
  alv : s'.alv = s.alv
  dma : s'.dma = s.dma
  wrtPrt : s'.wrtPrt = s.wrtPrt

/-- **What `GETEMPTY` does**: a new entry is made at an unused slot, or there is none.

**Proof sketch.** The search for an unused slot finds one or the directory is full (`find_empty`).
A slot that was found is rewritten with the new entry, which changes this slot only, and the search
limit is raised to include it. -/
lemma getEmpty_cases (hd : Flat d) (hs : Sound d s E) :
    (∃ n ≤ d.drm, ¬ (E n).Used ∧ ∃ s', getEmpty d f s =
        some (setS2B7 { f with entry := made f }, s') ∧ MadeAt d s f n s' ∧ s'.status ≠ 0xff ∧
        s'.filePos ≠ none) ∨
      ((∀ m ≤ d.drm, (E m).Used) ∧ ∃ s', getEmpty d f s = some (f, s') ∧ s.Moved s' ∧
        s'.status = 0xff ∧ s'.filePos = none) := by
  obtain ⟨hmv, hbuf, hcase⟩ := find_empty hs
  have hwp : ¬ s.wrtPrt = true := by simp [hs.writable]
  rw [getEmpty, if_neg hwp]
  obtain ⟨n, hn, hu, hpos, hstat⟩ | ⟨hall, hpos, hstat⟩ := hcase
  · left
    simp only [hpos, reduceCtorEq, if_false]
    set t := s.findFst d CpmDir.empty 1 with ht
    rw [Drive.chkNmbr_eq hpos]
    set c : Drive := { t with scratch1 := max t.scratch1 (n + 1) } with hc
    have hcpos : c.filePos = some n := hpos
    have hcbuf : c.Buffered := hbuf
    obtain ⟨halv, hlim, hwp', hdma, hfp, hstat', -⟩ := Drive.rewrite_frame (d := d) (made f) c
    have hmade : MadeAt d s f n (c.rewrite d (made f)) := by
      refine ⟨fun m => ?_, fun i hi => ?_, ?_, ?_, halv.trans hmv.alv, hdma.trans hmv.dma,
        hwp'.trans hmv.wrtPrt⟩
      · rw [Drive.slot_rewrite hcbuf hcpos, show c.slot m = s.slot m from hmv.slot m]
      · rw [sec_rewrite_data hd hcbuf hcpos hn _ hi]
        exact congrFun hmv.sec i
      · exact Drive.unchanged_rewrite (s := c) (hs.moved hmv).unchanged hcbuf hcpos _
      · rw [hlim, show c.scratch1 = max t.scratch1 (n + 1) from rfl, hmv.scratch1]
    refine ⟨n, hn, hu, c.rewrite d (made f), rfl, hmade, ?_, ?_⟩
    · rw [hstat', show c.status = t.status from rfl, hstat]
      exact found_ne n
    · rw [hfp, hcpos]
      simp
  · right
    simp only [hpos, if_true]
    exact ⟨hall, _, rfl, hmv, hstat, hpos⟩

/-- **The drive is sound** with the new entry in the view. -/
lemma MadeAt.sound (h : MadeAt d s f n s') (hs : Sound d s E) (hu : ¬ (E n).Used)
    (hp : Plain f.entry) (hxl : f.entry.xl.toNat < 32) (hxh : f.entry.xh.toNat < 16)
    (hnone : ∀ m ≤ d.drm, (E m).Used → nameOf (E m) = nameOf f.entry →
      extOf (E m) ≠ extOf f.entry) : Sound d s' (Function.update E n (made f)) := by
  refine ⟨h.wrtPrt.trans hs.writable, h.unchanged, fun m hm hle => ?_, fun m hm => ?_, ?_⟩
  · -- the search limit moves behind the new entry
    rw [h.scratch1] at hle
    obtain ⟨h1, h2⟩ := max_le_iff.mp hle
    rw [h.slot, if_neg (by omega)]
    exact hs.limit m hm h1
  · rw [h.slot, Function.update_apply]
    split
    · exact Newer.refl _
    · exact hs.view m hm
  · rw [h.alv]
    exact orderly_made hs.orderly hu hp hxl hxh hnone

/-- **The file control block holds the new entry.** -/
lemma MadeAt.attached (h : MadeAt d s f n s') (hn : n ≤ d.drm) (hp : Plain f.entry)
    (hxh : f.entry.xh.toNat < 16) :
    Attached d s' (Function.update E n (made f)) (setS2B7 { f with entry := made f }) n := by
  have hflag := or_80 (a := f.entry.xh) (by omega)
  have hself : Function.update E n (made f) n = made f := Function.update_self ..
  refine ⟨hn, ?_, ?_, ?_, ?_, ?_, ?_, ?_, fun _ => ?_⟩
  · rw [hself]
    exact (hp.congr rfl rfl rfl : Plain (made f)).used
  · rw [hself]
    exact nameOf_congr rfl rfl rfl
  · rw [hself]
    rfl
  · rw [hself]
    show (f.entry.xh ||| 0x80).toNat % 128 = f.entry.xh.toNat
    omega
  · rw [hself]
    rfl
  · rw [hself]
    rfl
  · rw [hself]
    rfl
  · rw [hself, h.slot, if_pos rfl]

/-- **Making an entry keeps the other files**, and the directory has the newest entries of this one.

**Proof sketch.** The file control block is attached to the new entry. Every other slot and its
entry of the view stay as they were; the slot of the new entry was unused, so that no other file
had an entry there. -/
lemma MadeAt.keeps (h : MadeAt d s f n s') (hs : Sound d s E) (hn : n ≤ d.drm) (hu : ¬ (E n).Used)
    (hp : Plain f.entry) (hxl : f.entry.xl.toNat < 32) (hxh : f.entry.xh.toNat < 16)
    (hset : Settled d s E f) (hnone : ∀ m ≤ d.drm, (E m).Used → nameOf (E m) = nameOf f.entry →
      extOf (E m) ≠ extOf f.entry) :
    Keeps d s E f s' (Function.update E n (made f)) (setS2B7 { f with entry := made f }) := by
  have hE : ∀ m, Function.update E n (made f) m = if m = n then made f else E m := fun m => by
    rw [Function.update_apply]
  have hname : nameOf (made f) = nameOf f.entry := nameOf_congr rfl rfl rfl
  refine ⟨h.sound hs hu hp hxl hxh hnone, ⟨hp.congr rfl rfl rfl, fun m hm hmine => ?_⟩,
    nameOf_congr rfl rfl rfl, fun m hm hu' _ => ?_, fun m hm hmine hu' => ?_, ?_⟩
  · by_cases hmn : m = n
    · subst hmn
      exact .inr (h.attached hn hp hxh)
    · left
      rw [hE, h.slot, if_neg hmn, if_neg hmn]
      refine hset m hm fun hu' => ?_
      have hnm := hmine (by rw [hE, if_neg hmn]; exact hu')
      rw [hE, if_neg hmn] at hnm
      exact hnm.trans (nameOf_congr rfl rfl rfl)
  · have hmn : m ≠ n := by
      rintro rfl
      exact hu hu'
    rw [hE, h.slot, if_neg hmn, if_neg hmn]
    exact ⟨rfl, rfl⟩
  · rw [hE] at hu' ⊢
    split
    · exact hname
    · rename_i hmn
      rw [if_neg hmn] at hu'
      exact hmine hu'
  · rintro ⟨hro, hall⟩
    refine ⟨hro, fun m hm hu' hnm => ?_⟩
    rw [hE] at hu' hnm ⊢
    split
    · exact hro
    · rename_i hmn
      rw [if_neg hmn] at hu' hnm
      exact hall m hm hu' (hnm.trans (nameOf_congr rfl rfl rfl))

/-- **Making an entry keeps all records**, since the slot was unused. -/
lemma MadeAt.preserves (h : MadeAt d s f n s') (hd : Flat d) (hs : Sound d s E)
    (hu : ¬ (E n).Used) : Preserves d s E s' (Function.update E n (made f)) := by
  refine preserves_of_dir hd hs (fun m _ hu' => ?_) h.data
  refine Function.update_of_ne ?_ _ _
  rintro rfl
  exact hu hu'

/-- **`GETEMPTY` on a sound drive**: the file control block is attached to a new entry of its
extent, or the directory is full. -/
lemma getEmpty_spec (hd : Flat d) (hs : Sound d s E) (hp : Plain f.entry)
    (hxl : f.entry.xl.toNat < 32) (hxh : f.entry.xh.toNat < 16) (hset : Settled d s E f)
    (hnone : ∀ m ≤ d.drm, (E m).Used → nameOf (E m) = nameOf f.entry →
      extOf (E m) ≠ extOf f.entry) :
    ∃ f' s', getEmpty d f s = some (f', s') ∧ s'.dma = s.dma ∧ s'.alv = s.alv ∧
      ((∃ n E', Attached d s' E' f' n ∧ extOf (E' n) = extOf f.entry ∧ Keeps d s E f s' E' f' ∧
          Preserves d s E s' E' ∧ f'.cr = f.cr ∧ s'.status ≠ 0xff ∧ s'.filePos ≠ none ∧
          ¬ (E n).Used ∧ n ≤ d.drm ∧ E' = Function.update E n (made f)) ∨
        (f' = f ∧ s.Moved s' ∧ (∀ m ≤ d.drm, (E m).Used) ∧ s'.status = 0xff ∧
          s'.filePos = none)) := by
  rcases getEmpty_cases (f := f) hd hs with ⟨n, hn, hu, s', heq, hmade, hstat, hpos⟩ |
    ⟨hall, s', heq, hmv, hstat, hpos⟩
  · have hext : extOf (Function.update E n (made f) n) = extOf f.entry := by
      rw [Function.update_self]
      rfl
    exact ⟨_, s', heq, hmade.dma, hmade.alv, .inl ⟨n, _, hmade.attached hn hp hxh, hext,
      hmade.keeps hs hn hu hp hxl hxh hset hnone, hmade.preserves hd hs hu,
      rfl, hstat, hpos, hu, hn,
      rfl⟩⟩
  · exact ⟨f, s', heq, hmv.dma, hmv.alv, .inr ⟨rfl, hmv, hall, hstat, hpos⟩⟩

end File

end Bdos

end Cpm22
