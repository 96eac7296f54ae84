import Cpm22.Bdos.Access

set_option relaxedAutoImplicit false
set_option autoImplicit false

/-!
# Writing a record

Writing a record of an extent that is in the file control block: the record goes to the block that
the file control block has for it, or to a free block near the one in front of it, and the record
count grows. The drive stays sound, and no other record of any file changes.

## Main definitions

* `Cpm22.Bdos.Grows` — an entry gets a record count and a block.

## Main results

* `Cpm22.Bdos.orderly_grow`, `Cpm22.Bdos.sound_grow` — the invariant with the grown entry.
* `Cpm22.Bdos.File.putRecord_spec` — the record is written.
* `Cpm22.Bdos.File.wtSeq1_attached` — `WTSEQ1` in random mode.
* `Cpm22.Bdos.File.writeRan_spec` — writing a record by its number.
-/

namespace Cpm22

namespace Bdos

open BitMap Disk

variable {d : Dpb} {s s' : Drive} {E E' : ℕ → CpmDir} {f f' : FileFcb} {n : ℕ}

/-! ## Growing entries -/

/-- **The entry `e'` is `e` with a larger record count and at most one more block**, which was free
and is behind the directory. -/
structure Grows (d : Dpb) (alv : ℕ → UInt8) (e e' : CpmDir) : Prop where
  same : e' = { e with al := e'.al, rc := e'.rc }
  count : e.rc.toNat ≤ e'.rc.toNat
  full : e'.rc.toNat ≤ 128
  ptr : ∀ j < pointers d, e'.pointer (pointers d) j = e.pointer (pointers d) j ∨
    (e.pointer (pointers d) j = 0 ∧ mem alv (e'.pointer (pointers d) j) = false ∧
      d.dirBlocks ≤ e'.pointer (pointers d) j ∧ e'.pointer (pointers d) j ≤ d.dsm)
  one : ∀ i < pointers d, ∀ j < pointers d, e'.pointer (pointers d) i ≠ e.pointer (pointers d) i →
    e'.pointer (pointers d) i = e'.pointer (pointers d) j → i = j

/-- The keys of a grown entry. -/
lemma Grows.keys {alv : ℕ → UInt8} {e e' : CpmDir} (h : Grows d alv e e') :
    nameOf e' = nameOf e ∧ extOf e' = extOf e ∧ (e'.Used ↔ e.Used) ∧ e'.xl = e.xl ∧
      e'.xh = e.xh := by
  have hsame := h.same
  refine ⟨nameOf_congr ?_ ?_ ?_, ?_, ?_, ?_, ?_⟩
  all_goals rw [hsame]
  · rfl
  · rfl

/-- **The view with a grown entry is orderly.**

**Proof sketch.** The grown entry has the keys of the old one, so that names and extents stay
apart. A pointer of the view is an old one, or the new one; the new block was free, and every old
pointer was marked, so that no entry has both. -/
lemma orderly_grow {alv alv' : ℕ → UInt8} {e' : CpmDir} (ho : Orderly d alv E) (hn : n ≤ d.drm)
    (hu : (E n).Used) (hg : Grows d alv (E n) e') (halv : ∀ b, mem alv b = true → mem alv' b = true)
    (hnew : ∀ j < pointers d, e'.pointer (pointers d) j ≠ (E n).pointer (pointers d) j →
      mem alv' (e'.pointer (pointers d) j) = true)
    (htight : ∀ b, mem alv' b = true →
      mem alv b = true ∨ (b ≠ 0 ∧ ∃ j < pointers d, e'.pointer (pointers d) j = b)) :
    Orderly d alv' (Function.update E n e') := by
  obtain ⟨hname, hext, hused, hxl, hxh⟩ := hg.keys
  have hprop := ho.proper n hn hu
  have hat : ∀ m, Function.update E n e' m = if m = n then e' else E m := fun m => by
    rw [Function.update_apply]
  -- the keys of the view are as before
  have hkeys : ∀ m, nameOf (Function.update E n e' m) = nameOf (E m) ∧
      extOf (Function.update E n e' m) = extOf (E m) ∧
      ((Function.update E n e' m).Used ↔ (E m).Used) := by
    intro m
    rw [hat]
    split
    · rename_i h
      rw [h]
      exact ⟨hname, hext, hused⟩
    · exact ⟨rfl, rfl, Iff.rfl⟩
  -- a pointer of the view is an old one of the slot, or the new one, which no entry had
  have hptr : ∀ m, ∀ i < pointers d, (Function.update E n e' m).pointer (pointers d) i =
      (E m).pointer (pointers d) i ∨ (m = n ∧ (E n).pointer (pointers d) i = 0 ∧
        e'.pointer (pointers d) i ≠ (E n).pointer (pointers d) i ∧
        (Function.update E n e' m).pointer (pointers d) i = e'.pointer (pointers d) i ∧
        mem alv (e'.pointer (pointers d) i) = false) := by
    intro m i hi
    rw [hat]
    split
    · rename_i h
      rw [h]
      by_cases hsame : e'.pointer (pointers d) i = (E n).pointer (pointers d) i
      · exact .inl hsame
      · obtain ⟨h0, hfree, -⟩ := (hg.ptr i hi).resolve_left hsame
        exact .inr ⟨rfl, h0, hsame, rfl, hfree⟩
    · exact .inl rfl
  refine ⟨?_, ?_, ?_, ?_, fun b hb => halv b (ho.dirs b hb), ?_⟩
  · intro m hm hum
    rw [hat]
    split
    · refine ⟨?_, hxl ▸ hprop.xl, hxh ▸ hprop.xh, hg.full, fun i hi hne => ?_⟩
      · rw [hg.same]
        exact hprop.plain.congr rfl rfl rfl
      · rcases hg.ptr i hi with h | ⟨-, -, h1, h2⟩
        · rw [h] at hne ⊢
          exact hprop.blocks i hi hne
        · exact ⟨h1, h2⟩
    · rename_i h
      exact ho.proper m hm ((hkeys m).2.2.mp hum)
  · intro m hm m' hm' hum hum' hnm hex
    rw [(hkeys m).1, (hkeys m').1] at hnm
    rw [(hkeys m).2.1, (hkeys m').2.1] at hex
    exact ho.unique m hm m' hm' ((hkeys m).2.2.mp hum) ((hkeys m').2.2.mp hum') hnm hex
  · intro m hm m' hm' hum hum' i hi j hj hne heq
    rw [(hkeys m).2.2] at hum
    rw [(hkeys m').2.2] at hum'
    rcases hptr m i hi with h | ⟨rfl, h0, hdiff, hval, hfree⟩
    · rcases hptr m' j hj with h' | ⟨rfl, h0', -, hval', hfree'⟩
      · rw [h] at hne
        rw [h, h'] at heq
        exact ho.apart m hm m' hm' hum hum' i hi j hj hne heq
      · -- an old pointer is marked, the new block was free
        rw [h] at hne
        rw [h, hval'] at heq
        have hmark := ho.marked m hm hum i hi hne
        rw [heq, hfree'] at hmark
        exact Bool.noConfusion hmark
    · rcases hptr m' j hj with h' | ⟨rfl, -, -, hval', -⟩
      · rw [hval] at hne
        rw [hval, h'] at heq
        have hmark := ho.marked m' hm' hum' j hj (heq ▸ hne)
        rw [← heq, hfree] at hmark
        exact Bool.noConfusion hmark
      · rw [hval, hval'] at heq
        exact ⟨rfl, hg.one i hi j hj hdiff heq⟩
  · intro m hm hum i hi hne
    rw [(hkeys m).2.2] at hum
    rcases hptr m i hi with h | ⟨rfl, -, hdiff, hval, -⟩
    · rw [h] at hne ⊢
      exact halv _ (ho.marked m hm hum i hi hne)
    · rw [hval]
      exact hnew i hi hdiff
  · intro b hb hmem
    have hself : Function.update E n e' n = e' := Function.update_self ..
    rcases htight b hmem with hold | ⟨hb0, j, hj, heq⟩
    · refine (ho.tight b hb hold).imp_right ?_
      rintro ⟨hb0, m, hm, hum, i, hi, heq⟩
      refine ⟨hb0, m, hm, (hkeys m).2.2.mpr hum, i, hi, ?_⟩
      rcases hptr m i hi with h | ⟨rfl, h0, -⟩
      · rw [h, heq]
      · exact absurd (heq.symm.trans h0) hb0
    · refine .inr ⟨hb0, n, hn, ?_, j, hj, ?_⟩
      · rw [hself]
        exact hused.mpr hu
      · rw [hself]
        exact heq

/-- **The drive is sound with a grown entry in the view**, if the directory on the disk stays.

**Proof sketch.** The directory of the disk stays, so that checksums and the search limit are right
as before. The grown entry is newer than the one on the disk, as the old one was, and that the view
is orderly is `orderly_grow`. -/
lemma sound_grow {e' : CpmDir} (hs : Sound d s E) (hn : n ≤ d.drm) (hu : (E n).Used)
    (hg : Grows d s.alv (E n) e') (halv : ∀ b, mem s.alv b = true → mem s'.alv b = true)
    (hnew : ∀ j < pointers d, e'.pointer (pointers d) j ≠ (E n).pointer (pointers d) j →
      mem s'.alv (e'.pointer (pointers d) j) = true)
    (htight : ∀ b, mem s'.alv b = true →
      mem s.alv b = true ∨ (b ≠ 0 ∧ ∃ j < pointers d, e'.pointer (pointers d) j = b))
    (hsec : ∀ i, i * 4 ≤ d.drm → s'.sec i = s.sec i) (hcsv : s'.csv = s.csv)
    (hlim : s'.scratch1 = s.scratch1) (hwp : s'.wrtPrt = s.wrtPrt) :
    Sound d s' (Function.update E n e') := by
  have hslot : ∀ m ≤ d.drm, s'.slot m = s.slot m := by
    intro m hm
    rw [Drive.slot, Drive.slot, hsec _ (by omega)]
  refine ⟨hwp.trans hs.writable, ?_, ?_, ?_, orderly_grow hs.orderly hn hu hg halv hnew
    htight⟩
  · intro i hi hle
    rw [hcsv, hsec i hle]
    exact hs.unchanged i hi hle
  · intro m hm hle
    rw [hslot m hm]
    exact hs.limit m hm (hlim ▸ hle)
  · intro m hm
    rw [hslot m hm]
    by_cases h : m = n
    · subst h
      rw [Function.update_self]
      have hview := hs.view m hm
      refine ⟨?_, hview.count.trans hg.count, fun j hj hne => ?_⟩
      · rw [hg.same, hview.same]
      · have hold := hview.lags j hj hne
        rcases hg.ptr j hj with h | ⟨h0, -⟩
        · rw [h, hold]
        · rw [← hold] at hne
          exact absurd h0 hne
    · rw [Function.update_of_ne h]
      exact hs.view m hm

/-- **Records stay when a record is written** to a block of a grown entry: every record but the
written one keeps its place and its content. Of a block that is new for the entry all sectors may
be written.

**Proof sketch.** A record has its block in the old view, so it is not the new one. If its sector is
written, its block is the one that is written to, which in the new view belongs to one index of one
slot; so it is the record that is written. -/
lemma stores_write (hd : Flat d) {alv' : ℕ → UInt8} {e' : CpmDir} {r b : ℕ} {y : Sector}
    {new : Prop} [Decidable new] (hn : n ≤ d.drm) (hu : (E n).Used)
    (hg : Grows d s.alv (E n) e') (ho : Orderly d alv' (Function.update E n e'))
    (hext : extOf (E n) = r / 128) (hb : e'.pointer (pointers d) (r % 128 / 2 ^ d.bsh) = b)
    (hnew : new → (E n).pointer (pointers d) (r % 128 / 2 ^ d.bsh) = 0)
    (hsec : ∀ i, s'.sec i = if i = b * 2 ^ d.bsh + r % 128 % 2 ^ d.bsh then y
      else if new ∧ i / 2 ^ d.bsh = b then fun _ => 0 else s.sec i)
    {k : Fin 12 → ℕ} {r' : ℕ} {x : Sector} (hne : (k, r') ≠ (nameOf (E n), r))
    (hst : Stores d s E k r' x) : Stores d s' (Function.update E n e') k r' x := by
  have hpos := Nat.two_pow_pos d.bsh
  obtain ⟨hname, hext', hused, -, -⟩ := hg.keys
  obtain ⟨m, hm, hum, hk, hextm, hrc, hptr, hx⟩ := hst
  set j := r' % 128 / 2 ^ d.bsh with hj
  set q := (E m).pointer (pointers d) j with hq
  have hjlt := hd.index_lt r'
  have hat : ∀ m, Function.update E n e' m = if m = n then e' else E m := fun m => by
    rw [Function.update_apply]
  -- the record has the same block in the new view
  have hsame : (Function.update E n e' m).pointer (pointers d) j = q := by
    rw [hat]
    split
    · rename_i h
      rcases hg.ptr j hjlt with h' | ⟨h0, -⟩
      · rw [h', hq, h]
      · rw [hq, h] at hptr
        exact absurd h0 hptr
    · rfl
  have hself : Function.update E n e' n = e' := Function.update_self ..
  -- if it is the block that is written to, it is the same index of the same entry
  have hblock : q = b → m = n ∧ j = r % 128 / 2 ^ d.bsh := by
    intro hqb
    refine ho.apart m hm n hn ?_ ?_ j hjlt _ (hd.index_lt r) ?_ ?_
    · rw [hat]
      split
      · exact hused.mpr hu
      · exact hum
    · rw [hself]
      exact hused.mpr hu
    · rw [hsame]
      exact hptr
    · rw [hsame, hself, hb, hqb]
  have hmod := Nat.mod_lt (r' % 128) hpos
  obtain ⟨hquot, hrem⟩ := sector_split d q hmod
  have hkeep : s'.sec (q * 2 ^ d.bsh + r' % 128 % 2 ^ d.bsh) =
      s.sec (q * 2 ^ d.bsh + r' % 128 % 2 ^ d.bsh) := by
    rw [hsec, if_neg, if_neg]
    · rintro ⟨hn', hqb⟩
      rw [hquot] at hqb
      obtain ⟨rfl, hjr⟩ := hblock hqb
      rw [← hjr] at hnew
      exact hptr (hnew hn')
    · intro heq
      obtain ⟨hquot', hrem'⟩ := sector_split d b (Nat.mod_lt (r % 128) hpos)
      rw [← heq, hquot] at hquot'
      rw [← heq, hrem] at hrem'
      obtain ⟨rfl, hjr⟩ := hblock hquot'
      have hrec : r' % 128 = r % 128 := by
        rw [← Nat.div_add_mod (r' % 128) (2 ^ d.bsh), ← Nat.div_add_mod (r % 128) (2 ^ d.bsh), ← hj,
          hjr, hrem']
      refine hne (Prod.ext hk.symm ?_)
      show r' = r
      omega
  refine ⟨m, hm, ?_⟩
  rw [← hj, hsame, hkeep]
  refine ⟨?_, ?_, ?_, ?_, hptr, hx⟩
  · rw [hat]
    split
    · exact hused.mpr hu
    · exact hum
  · rw [hat]
    split
    · rename_i h
      rw [hname, ← h, hk]
    · exact hk
  · rw [hat]
    split
    · rename_i h
      rw [hext', ← h, hextm]
    · exact hextm
  · rw [hat]
    split
    · rename_i h
      rw [h] at hrc
      exact hrc.trans_le hg.count
    · exact hrc

/-! ## The record -/

namespace File

/-- The record count after writing record `cr`. -/
lemma counted_toNat (cr rc : UInt8) (hcr : cr.toNat < 128) (hrc : rc.toNat ≤ 128) :
    (counted ⟨cr, rc, 0⟩).nrec = cr ∧ cr.toNat < (counted ⟨cr, rc, 0⟩).nxt.toNat ∧
      rc.toNat ≤ (counted ⟨cr, rc, 0⟩).nxt.toNat ∧ (counted ⟨cr, rc, 0⟩).nxt.toNat ≤ 128 := by
  unfold counted
  by_cases h : cr < rc
  · rw [if_pos h]
    exact ⟨rfl, UInt8.lt_iff_toNat_lt.mp h, le_rfl, hrc⟩
  · rw [if_neg h]
    have hle : rc.toNat ≤ cr.toNat := by
      by_contra hlt
      exact h (UInt8.lt_iff_toNat_lt.mpr (by omega))
    have hadd : (cr + 1).toNat = cr.toNat + 1 := by
      rw [UInt8.toNat_add, show UInt8.toNat 1 = 1 from rfl]
      omega
    simp only [hadd, true_and]
    omega

/-- **The sectors after a record was written**: its own, and in mode 2 those of a new block.

**Proof sketch.** The record is written to its sector, after the sectors of the block were cleared
in mode 2. The range that is cleared is that of the sectors of the block. -/
lemma putRecord_sec (hd : Flat d) (mode : UInt8) (new : Bool) (cr rc : UInt8) {b : ℕ}
    (hblk : comBlk d f cr 0 = b) (hb : b ≤ d.dsm) (i : ℕ) :
    (putRecord d mode new ⟨cr, rc, 0⟩ f s).2.sec i =
      if i = b * 2 ^ d.bsh + cr.toNat % 2 ^ d.bsh then s.dma
      else if (mode = 2 ∧ new = true) ∧ i / 2 ^ d.bsh = b then fun _ => 0 else s.sec i := by
  have hpos := Nat.two_pow_pos d.bsh
  obtain ⟨hfirst, hrec⟩ := logical_toNat hd.fits cr hb
  have hrange : (b * 2 ^ d.bsh ≤ i ∧ i ≤ b * 2 ^ d.bsh + d.blm) ↔ i / 2 ^ d.bsh = b := by
    have hdiv := Nat.div_add_mod' i (2 ^ d.bsh)
    have hmod := Nat.mod_lt i hpos
    rw [hd.fits.blm]
    constructor
    · rintro ⟨h1, h2⟩
      rw [Nat.div_eq_iff hpos]
      omega
    · intro h
      rw [h] at hdiv
      omega
  simp only [putRecord, hblk, hfirst, hrec]
  by_cases hz : mode = 2 ∧ new = true
  · simp only [hz, and_self, if_true, true_and, zeroBlock]
    rw [Function.update_apply]
    simp only [hrange]
  · simp only [hz, if_false, false_and]
    rw [Function.update_apply]

/-- What writing a record leaves as it is. -/
lemma putRecord_frame (mode : UInt8) (new : Bool) (v : Saved) (f : FileFcb) (s : Drive) :
    (putRecord d mode new v f s).2.alv = s.alv ∧ (putRecord d mode new v f s).2.csv = s.csv ∧
    (putRecord d mode new v f s).2.scratch1 = s.scratch1 ∧
    (putRecord d mode new v f s).2.wrtPrt = s.wrtPrt ∧
    (putRecord d mode new v f s).2.dma = s.dma ∧
    (putRecord d mode new v f s).2.status = s.status := by
  simp only [putRecord]
  split <;> simp [zeroBlock]

/-- **The record has a block**: `g` is the file control block `f` with the block of record `r` in
it, and `t` the drive with that block marked. Either the block was there, or it was free. -/
structure Ready (d : Dpb) (s : Drive) (e : CpmDir) (f : FileFcb) (r : ℕ) (g : FileFcb) (t : Drive) :
    Prop where
  same : g.entry = { f.entry with al := g.entry.al }
  sec : t.sec = s.sec
  csv : t.csv = s.csv
  scratch1 : t.scratch1 = s.scratch1
  wrtPrt : t.wrtPrt = s.wrtPrt
  alv : ∀ b, mem s.alv b = true → mem t.alv b = true
  ptr : ∀ j < pointers d, g.entry.pointer (pointers d) j = e.pointer (pointers d) j ∨
    (e.pointer (pointers d) j = 0 ∧ mem s.alv (g.entry.pointer (pointers d) j) = false ∧
      d.dirBlocks ≤ g.entry.pointer (pointers d) j ∧ g.entry.pointer (pointers d) j ≤ d.dsm)
  one : ∀ i < pointers d, ∀ j < pointers d,
    g.entry.pointer (pointers d) i ≠ e.pointer (pointers d) i →
      g.entry.pointer (pointers d) i = g.entry.pointer (pointers d) j → i = j
  marked : ∀ j < pointers d, g.entry.pointer (pointers d) j ≠ e.pointer (pointers d) j →
    mem t.alv (g.entry.pointer (pointers d) j) = true
  tight : ∀ b, mem t.alv b = true →
    mem s.alv b = true ∨ (b ≠ 0 ∧ ∃ j < pointers d, g.entry.pointer (pointers d) j = b)
  place : ∀ j < pointers d, g.entry.pointer (pointers d) j ≠ e.pointer (pointers d) j →
    j = r % 128 / 2 ^ d.bsh
  block : g.entry.pointer (pointers d) (r % 128 / 2 ^ d.bsh) ≠ 0

/-- The newest entry after record `r` was written. -/
def grown (e : CpmDir) (f g : FileFcb) : CpmDir :=
  { e with al := g.entry.al, rc := (counted ⟨f.cr, f.entry.rc, 0⟩).nxt }

/-- The newest entry grows. -/
lemma Ready.grows {g : FileFcb} {t : Drive} {r : ℕ} (h : Ready d s (E n) f r g t)
    (hs : Sound d s E) (ha : Attached d s E f n) (hlt : f.cr.toNat < 128) :
    Grows d s.alv (E n) (grown (E n) f g) := by
  have hrc := (hs.orderly.proper n ha.le ha.used).rc
  obtain ⟨-, -, hgrow, hfull⟩ := counted_toNat f.cr f.entry.rc hlt (ha.rc ▸ hrc)
  have hptr : ∀ i, (grown (E n) f g).pointer (pointers d) i = g.entry.pointer (pointers d) i :=
    fun i => CpmDir.pointer_congr rfl i
  refine ⟨rfl, ?_, hfull, fun j hj => ?_, fun i hi j hj => ?_⟩
  · rw [← ha.rc]
    exact hgrow
  · rw [hptr]
    exact h.ptr j hj
  · rw [hptr, hptr]
    exact h.one i hi j hj

/-- **The block of the record** is on the disk, behind the directory. -/
lemma Ready.range {g : FileFcb} {t : Drive} {r : ℕ} (h : Ready d s (E n) f r g t) (hd : Flat d)
    (hs : Sound d s E) (ha : Attached d s E f n) :
    d.dirBlocks ≤ g.entry.pointer (pointers d) (r % 128 / 2 ^ d.bsh) ∧
      g.entry.pointer (pointers d) (r % 128 / 2 ^ d.bsh) ≤ d.dsm := by
  have hidx := hd.index_lt r
  rcases h.ptr _ hidx with heq | ⟨-, -, h1, h2⟩
  · rw [heq]
    exact (hs.orderly.proper n ha.le ha.used).blocks _ hidx (heq ▸ h.block)
  · exact ⟨h1, h2⟩

/-- **The record is written**: the drive `s'` and the file control block `f'` that `putRecord`
leaves, with the record in block `b`. -/
structure Wrote (d : Dpb) (s : Drive) (f : FileFcb) (g : FileFcb) (t : Drive) (mode : UInt8)
    (new : Bool) (r b : ℕ) (s' : Drive) (f' : FileFcb) : Prop where
  entry : f'.entry = { f.entry with
    al := g.entry.al
    rc := (counted ⟨f.cr, f.entry.rc, 0⟩).nxt
    xh := f.entry.xh &&& 0x7f }
  cr : f'.cr = f.cr + if mode = 2 then 0 else mode
  sec : ∀ i, s'.sec i = if i = b * 2 ^ d.bsh + r % 128 % 2 ^ d.bsh then t.dma
    else if (mode = 2 ∧ new = true) ∧ i / 2 ^ d.bsh = b then fun _ => 0 else s.sec i
  alv : s'.alv = t.alv
  csv : s'.csv = s.csv
  scratch1 : s'.scratch1 = s.scratch1
  wrtPrt : s'.wrtPrt = s.wrtPrt
  dma : s'.dma = t.dma
  status : s'.status = t.status

/-- What `putRecord` does with a record that has a block. -/
lemma Ready.wrote {g : FileFcb} {t : Drive} {r b : ℕ} (h : Ready d s (E n) f r g t) (hd : Flat d)
    (hs : Sound d s E) (ha : Attached d s E f n) (hcr : f.cr.toNat = r % 128)
    (hb : g.entry.pointer (pointers d) (r % 128 / 2 ^ d.bsh) = b) (mode : UInt8) (new : Bool) :
    Wrote d s f g t mode new r b (putRecord d mode new ⟨f.cr, f.entry.rc, 0⟩ g t).2
      (putRecord d mode new ⟨f.cr, f.entry.rc, 0⟩ g t).1 := by
  have hlt : f.cr.toNat < 128 := by omega
  have hrc := (hs.orderly.proper n ha.le ha.used).rc
  obtain ⟨hnrec, -⟩ := counted_toNat f.cr f.entry.rc hlt (ha.rc ▸ hrc)
  have hcom : comBlk d g f.cr 0 = b := by
    rw [comBlk_eq hd.fits g (Nat.zero_le _) hlt, hcr]
    simpa using hb
  obtain ⟨halv, hcsv, hlim, hwp, hdma, hstat⟩ :=
    putRecord_frame (d := d) mode new ⟨f.cr, f.entry.rc, 0⟩ g t
  refine ⟨?_, ?_, fun i => ?_, halv, hcsv.trans h.csv, hlim.trans h.scratch1, hwp.trans h.wrtPrt,
    hdma, hstat⟩
  · simp only [putRecord, setNRec]
    rw [h.same]
  · simp only [putRecord, setNRec, hnrec]
  · rw [putRecord_sec hd mode new f.cr f.entry.rc hcom (hb ▸ (h.range hd hs ha).2) i, h.sec, hcr]

section Written

variable {g : FileFcb} {t : Drive} {mode : UInt8} {new : Bool} {r b : ℕ}

/-- The sectors of the directory are in front of the block. -/
lemma Wrote.dir (h : Wrote d s f g t mode new r b s' f') (hd : Flat d)
    (hb : d.dirBlocks ≤ b) {i : ℕ}
    (hi : i * 4 ≤ d.drm) : s'.sec i = s.sec i := by
  have hpos := Nat.two_pow_pos d.bsh
  have hdirs := hd.dirs
  have hmul := Nat.mul_le_mul_right (2 ^ d.bsh) hb
  have hfront : i / 2 ^ d.bsh ≠ b := by
    intro heq
    have := Nat.div_mul_le_self i (2 ^ d.bsh)
    rw [heq] at this
    omega
  rw [h.sec, if_neg (by omega), if_neg fun hh => hfront hh.2]

/-- The slots of the directory stay. -/
lemma Wrote.slot (h : Wrote d s f g t mode new r b s' f') (hd : Flat d)
    (hb : d.dirBlocks ≤ b) {m : ℕ}
    (hm : m ≤ d.drm) : s'.slot m = s.slot m := by
  rw [Drive.slot, Drive.slot, h.dir hd hb (by omega)]

/-- The name of the file control block stays. -/
lemma Wrote.name (h : Wrote d s f g t mode new r b s' f') : nameOf f'.entry = nameOf f.entry := by
  rw [h.entry]
  exact nameOf_congr rfl rfl rfl

/-- The extent counts as written to. -/
lemma Wrote.flag (h : Wrote d s f g t mode new r b s' f') : f'.entry.xh &&& 0x80 = 0 := by
  rw [h.entry]
  show f.entry.xh &&& 0x7f &&& 0x80 = 0
  rw [UInt8.and_assoc, show (0x7f : UInt8) &&& 0x80 = 0 from by decide, UInt8.and_zero]

/-- **The drive is sound** with the grown entry in the view. -/
lemma Wrote.sound (h : Wrote d s f g t mode new r b s' f') (hd : Flat d) (hb : d.dirBlocks ≤ b)
    (hs : Sound d s E) (ha : Attached d s E f n) (hlt : f.cr.toNat < 128)
    (hr : Ready d s (E n) f r g t) : Sound d s' (Function.update E n (grown (E n) f g)) := by
  have hptr : ∀ i, (grown (E n) f g).pointer (pointers d) i = g.entry.pointer (pointers d) i :=
    fun i => CpmDir.pointer_congr rfl i
  refine sound_grow hs ha.le ha.used (hr.grows hs ha hlt) (fun m hm => h.alv ▸ hr.alv m hm)
    (fun j hj hne => ?_) (fun m hm => ?_) (fun i hi => h.dir hd hb hi) h.csv h.scratch1 h.wrtPrt
  · rw [hptr] at hne ⊢
    rw [h.alv]
    exact hr.marked j hj hne
  · rw [h.alv] at hm
    simpa only [hptr] using hr.tight m hm

/-- **The file control block holds the grown entry.** -/
lemma Wrote.attached (h : Wrote d s f g t mode new r b s' f') (hs : Sound d s E)
    (ha : Attached d s E f n) (hlt : f.cr.toNat < 128) (hr : Ready d s (E n) f r g t) :
    Attached d s' (Function.update E n (grown (E n) f g)) f' n := by
  obtain ⟨hgname, -, hgused, hgxl, hgxh⟩ := (hr.grows hs ha hlt).keys
  have hself : Function.update E n (grown (E n) f g) n = grown (E n) f g :=
    Function.update_self ..
  refine ⟨ha.le, ?_, ?_, ?_, ?_, ?_, ?_, ?_, fun hh => absurd h.flag hh⟩
  · rw [hself]
    exact hgused.mpr ha.used
  · rw [hself, h.name, hgname, ha.name]
  · rw [hself, hgxl, h.entry]
    exact ha.xl
  · rw [hself, hgxh, h.entry]
    show (f.entry.xh &&& 0x7f).toNat % 128 = (E n).xh.toNat
    rw [toNat_and_mask _ 7 0x7f rfl]
    have := ha.xh
    omega
  · rw [hself, h.entry]
    rfl
  · rw [hself, h.entry]
    rfl
  · rw [hself, h.entry]
    exact ha.ex

/-- The view with the grown entry has the names of the old one. -/
lemma grown_keys (hs : Sound d s E) (ha : Attached d s E f n) (hlt : f.cr.toNat < 128)
    (hr : Ready d s (E n) f r g t) (m : ℕ) :
    nameOf (Function.update E n (grown (E n) f g) m) = nameOf (E m) ∧
      ((Function.update E n (grown (E n) f g) m).Used ↔ (E m).Used) ∧
      (Function.update E n (grown (E n) f g) m).ex = (E m).ex := by
  obtain ⟨hgname, -, hgused, -⟩ := (hr.grows hs ha hlt).keys
  rw [Function.update_apply]
  split
  · rename_i h
    rw [h]
    exact ⟨hgname, hgused, rfl⟩
  · exact ⟨rfl, Iff.rfl, rfl⟩

/-- **Writing a record keeps the other files**, and the file control block in step with its own.

**Proof sketch.** The view changes at the slot that the file control block is attached to and keeps
all names, and the directory on the disk stays; so an entry of the file is on the disk as it was
before, unless it is the attached one. -/
lemma Wrote.keeps (h : Wrote d s f g t mode new r b s' f') (hd : Flat d) (hb : d.dirBlocks ≤ b)
    (hs : Sound d s E) (hc : Coherent d s E f) (ha : Attached d s E f n) (hlt : f.cr.toNat < 128)
    (hr : Ready d s (E n) f r g t) :
    Keeps d s E f s' (Function.update E n (grown (E n) f g)) f' := by
  have hkeys := grown_keys hs ha hlt hr
  have hname : nameOf f.entry = nameOf (E n) := ha.name
  refine ⟨h.sound hd hb hs ha hlt hr, ⟨?_, ?_⟩, h.name, ?_, ?_, ?_⟩
  · rw [h.entry]
    exact hc.plain.congr rfl rfl rfl
  · intro m hm hmine
    by_cases hmn : m = n
    · subst hmn
      exact .inr (h.attached hs ha hlt hr)
    · left
      rw [Function.update_of_ne hmn, h.slot hd hb hm]
      have hm' : Mine E f m := by
        intro hu
        have := hmine ((hkeys m).2.1.mpr hu)
        rwa [(hkeys m).1, h.name] at this
      exact (hc.mine m hm hm').resolve_right fun ha' => hmn (ha'.unique hs ha)
  · intro m hm hu hne
    have hmn : m ≠ n := by
      rintro rfl
      exact hne hname.symm
    exact ⟨Function.update_of_ne hmn _ _, h.slot hd hb hm⟩
  · intro m hm hmine hu
    rw [(hkeys m).1]
    exact hmine ((hkeys m).2.1.mp hu)
  · rintro ⟨hro, hall⟩
    refine ⟨?_, fun m hm hu hnm => ?_⟩
    · rw [h.entry]
      exact hro
    · rw [readOnly, (hkeys m).2.2]
      rw [(hkeys m).1, h.name] at hnm
      exact hall m hm ((hkeys m).2.1.mp hu) hnm

end Written

/-- **Writing a record of an attached file control block.** The drive stays sound, the record is on
the disk, and so are all records that were there before, with the same content unless it is this
one.

**Proof sketch.** The view gets the grown entry at the slot of the file control block, which stays
attached; the other records stay by `stores_write`. -/
lemma putRecord_spec (hd : Flat d) (hs : Sound d s E) (hc : Coherent d s E f)
    (ha : Attached d s E f n) {r : ℕ} (hcr : f.cr.toNat = r % 128) (hext : extOf (E n) = r / 128)
    {g : FileFcb} {t : Drive} (hr : Ready d s (E n) f r g t) (mode : UInt8) (new : Bool)
    (hnew : new = true → (E n).pointer (pointers d) (r % 128 / 2 ^ d.bsh) = 0) :
    ∃ f' s' E', putRecord d mode new ⟨f.cr, f.entry.rc, 0⟩ g t = (f', s') ∧
      Keeps d s E f s' E' f' ∧ Attached d s' E' f' n ∧ extOf (E' n) = r / 128 ∧
      Stores d s' E' (nameOf f.entry) r t.dma ∧
      (∀ k r' x, (k, r') ≠ (nameOf f.entry, r) → Stores d s E k r' x → Stores d s' E' k r' x) ∧
      s'.status = t.status ∧ s'.dma = t.dma ∧ f'.cr = f.cr + (if mode = 2 then 0 else mode) ∧
      f'.entry.xh &&& 0x80 = 0 ∧ E' = Function.update E n (grown (E n) f g) := by
  have hlt : f.cr.toNat < 128 := by omega
  have hgrows := hr.grows hs ha hlt
  obtain ⟨hgname, hgext, hgused, -, -⟩ := hgrows.keys
  have hrc := (hs.orderly.proper n ha.le ha.used).rc
  obtain ⟨-, hcount, -, -⟩ := counted_toNat f.cr f.entry.rc hlt (ha.rc ▸ hrc)
  have hptr : ∀ i, (grown (E n) f g).pointer (pointers d) i = g.entry.pointer (pointers d) i :=
    fun i => CpmDir.pointer_congr rfl i
  obtain ⟨b, hb⟩ : ∃ b, g.entry.pointer (pointers d) (r % 128 / 2 ^ d.bsh) = b := ⟨_, rfl⟩
  have hfront : d.dirBlocks ≤ b := hb ▸ (hr.range hd hs ha).1
  have hw := hr.wrote hd hs ha hcr hb mode new
  obtain ⟨f', hf'⟩ : ∃ f', (putRecord d mode new ⟨f.cr, f.entry.rc, 0⟩ g t).1 = f' := ⟨_, rfl⟩
  obtain ⟨s', hs'⟩ : ∃ s', (putRecord d mode new ⟨f.cr, f.entry.rc, 0⟩ g t).2 = s' := ⟨_, rfl⟩
  rw [hf', hs'] at hw
  have hk := hw.keeps hd hfront hs hc ha hlt hr
  have hself : Function.update E n (grown (E n) f g) n = grown (E n) f g :=
    Function.update_self ..
  have hname : nameOf f.entry = nameOf (E n) := ha.name
  refine ⟨f', s', _, Prod.ext hf' hs', hk, hw.attached hs ha hlt hr, ?_, ?_, ?_, hw.status, hw.dma,
    hw.cr, hw.flag, rfl⟩
  · rw [hself, hgext, hext]
  · refine ⟨n, ha.le, ?_⟩
    rw [hself, hptr, hb, hgname, hgext, hw.sec, if_pos rfl]
    refine ⟨hgused.mpr ha.used, hname.symm, hext, ?_, hb ▸ hr.block, rfl⟩
    rw [← hcr]
    exact hcount
  · intro k r' x hne hst
    rw [hname] at hne
    exact stores_write hd ha.le ha.used hgrows hk.sound.orderly hext ((hptr _).trans hb)
      (fun h => hnew h.2) hw.sec hne hst

/-! ## The block of the record -/

/-- There is a directory. -/
lemma dirBlocks_pos (hd : Flat d) : 0 < d.dirBlocks := by
  have hdirs := hd.dirs
  by_contra hz
  rw [show d.dirBlocks = 0 by omega] at hdirs
  omega

/-- A free block is not block 0, which is one of the directory. -/
lemma free_ne_zero (hd : Flat d) (hs : Sound d s E) {b : ℕ}
    (hfree : mem s.alv b = false) : b ≠ 0 := by
  rintro rfl
  rw [hs.orderly.dirs 0 (dirBlocks_pos hd)] at hfree
  exact Bool.noConfusion hfree

/-- The block that the search for a free one starts at is marked. -/
lemma nearBlock_marked (hd : Flat d) (hs : Sound d s E) (ha : Attached d s E f n) {idx : ℕ}
    (hidx : idx < pointers d) :
    nearBlock d f idx ≤ d.dsm ∧ mem s.alv (nearBlock d f idx) = true := by
  have hzero : (0 : ℕ) ≤ d.dsm ∧ mem s.alv 0 = true :=
    ⟨by omega, hs.orderly.dirs 0 (dirBlocks_pos hd)⟩
  unfold nearBlock
  split
  · exact hzero
  · rw [f.extBlk_eq hd.fits.legal (by omega), CpmDir.pointer_congr ha.al]
    by_cases h : (E n).pointer (pointers d) (idx - 1) = 0
    · rw [h]
      exact hzero
    · exact ⟨((hs.orderly.proper n ha.le ha.used).blocks _ (by omega) h).2,
        hs.orderly.marked n ha.le ha.used _ (by omega) h⟩

/-- A free block that the search from block `t` found is on the disk and behind the directory. -/
lemma found_range (hd : Flat d) (hs : Sound d s E) {t b : ℕ} (ht : t ≤ d.dsm)
    (hb : InReach (UInt16.ofNat d.dsm) t b) (hfree : mem s.alv b = false) :
    d.dirBlocks ≤ b ∧ b ≤ d.dsm := by
  have hdsm := hd.fits.legal.dsm_lt
  have hof : (UInt16.ofNat d.dsm).toNat = d.dsm := by
    rw [UInt16.toNat_ofNat']
    omega
  unfold InReach at hb
  rw [hof] at hb
  refine ⟨?_, by omega⟩
  by_contra hlt
  rw [hs.orderly.dirs b (by omega)] at hfree
  exact Bool.noConfusion hfree

/-- **The search of `WTSEQ1` for a free block**, which starts at the block in front of the record's:
all blocks of the disk are in use, or a free one behind the directory is found and marked.

**Proof sketch.** By `fndSpace_cases`. If the search finds nothing, all blocks but the one at which
it starts are in use, and this one is marked too. A block that is found is free, so that it is none
of the directory. -/
lemma fndSpace_near (hd : Flat d) (hs : Sound d s E) (ha : Attached d s E f n) {idx : ℕ}
    (hidx : idx < pointers d) {near : UInt16} (hnear : near = UInt16.ofNat (nearBlock d f idx)) :
    ((∀ b ≤ d.dsm, mem s.alv b = true) ∧
      fndSpace s.alv (UInt16.ofNat d.dsm) near near = (0, s.alv)) ∨
    ∃ b : UInt16, (mem s.alv b.toNat = false ∧ d.dirBlocks ≤ b.toNat ∧ b.toNat ≤ d.dsm) ∧
      (fndSpace s.alv (UInt16.ofNat d.dsm) near near).1 = b ∧
      ∀ m, mem (fndSpace s.alv (UInt16.ofNat d.dsm) near near).2 m =
        (decide (m = b.toNat) || mem s.alv m) := by
  have hdsm := hd.fits.legal.dsm_lt
  obtain ⟨hle, hmark⟩ := nearBlock_marked hd hs ha hidx
  have hof : near.toNat = nearBlock d f idx := by
    rw [hnear, UInt16.toNat_ofNat']
    omega
  rcases fndSpace_cases s.alv (UInt16.ofNat d.dsm) near with ⟨hsearch, heq⟩ |
    ⟨b, hsearch, hres, hmap⟩
  · refine .inl ⟨fun b hb => ?_, heq⟩
    by_cases h : b = nearBlock d f idx
    · rw [h]
      exact hmark
    · refine taken_of_search hsearch ⟨by rwa [hof], .inr ?_⟩
      rw [UInt16.toNat_ofNat']
      omega
  · obtain ⟨hreach, hfree⟩ := free_of_search hsearch
    rw [hof] at hreach
    exact .inr ⟨b, ⟨hfree, found_range hd hs hle hreach hfree⟩, hres, hmap⟩

/-- **A record that has a block is ready.** -/
lemma ready_of_block (ha : Attached d s E f n) {r : ℕ}
    (hptr : (E n).pointer (pointers d) (r % 128 / 2 ^ d.bsh) ≠ 0) : Ready d s (E n) f r f s := by
  have hsame : ∀ j, f.entry.pointer (pointers d) j = (E n).pointer (pointers d) j :=
    fun j => CpmDir.pointer_congr ha.al j
  refine ⟨rfl, rfl, rfl, rfl, rfl, fun _ h => h, fun j _ => .inl (hsame j),
    fun i _ _ _ hne => absurd (hsame i) hne, fun j _ hne => absurd (hsame j) hne,
    fun _ h => .inl h, fun j _ hne => absurd (hsame j) hne, ?_⟩
  rw [hsame]
  exact hptr

/-- **A record gets ready with a free block**, which is marked and stored at its index.

**Proof sketch.** Only the pointer at the index changes. The block was free, so it is not block 0
and no pointer of the entry was it: the pointers were marked. -/
lemma ready_of_free (hd : Flat d) (hs : Sound d s E) (ha : Attached d s E f n) {r b : ℕ}
    (hz : (E n).pointer (pointers d) (r % 128 / 2 ^ d.bsh) = 0) (hfree : mem s.alv b = false)
    (hlow : d.dirBlocks ≤ b) (hhigh : b ≤ d.dsm) {alv : ℕ → UInt8}
    (hmap : ∀ m, mem alv m = (decide (m = b) || mem s.alv m)) :
    Ready d s (E n) f r
      { f with entry := f.entry.setPointer (pointers d) (r % 128 / 2 ^ d.bsh) b }
      { s with alv := alv } := by
  have hidx := hd.index_lt r
  have hb0 := free_ne_zero hd hs hfree
  have hdsm := hd.fits.legal.dsm_lt
  set idx := r % 128 / 2 ^ d.bsh with hidxdef
  have hfits : b < if pointers d = 16 then 256 else 65536 := by
    unfold pointers
    split <;> simp <;> omega
  have hset : ∀ j < pointers d, (f.entry.setPointer (pointers d) idx b).pointer (pointers d) j =
      if j = idx then b else (E n).pointer (pointers d) j := by
    intro j hj
    rw [CpmDir.pointer_setPointer (pointers_cases d) hidx hj hfits, CpmDir.pointer_congr ha.al]
  -- the pointers that change are the one at the index
  have hchanged : ∀ j < pointers d, (f.entry.setPointer (pointers d) idx b).pointer (pointers d) j ≠
      (E n).pointer (pointers d) j → j = idx := by
    intro j hj hne
    by_contra h
    rw [hset j hj, if_neg h] at hne
    exact hne rfl
  refine ⟨CpmDir.setPointer_eq .., rfl, rfl, rfl, rfl, fun m hm => ?_, fun j hj => ?_,
    fun i hi j hj hne heq => ?_, fun j hj hne => ?_, fun m hm => ?_, hchanged, ?_⟩
  · rw [hmap, hm, Bool.or_true]
  · simp only [hset j hj]
    split
    · rename_i h
      subst h
      exact .inr ⟨hz, hfree, hlow, hhigh⟩
    · exact .inl rfl
  · obtain rfl := hchanged i hi hne
    simp only [hset _ hi, hset j hj, if_true] at heq
    by_contra hij
    rw [if_neg (Ne.symm hij)] at heq
    have hmark := hs.orderly.marked n ha.le ha.used j hj (heq ▸ hb0)
    rw [← heq, hfree] at hmark
    exact Bool.noConfusion hmark
  · obtain rfl := hchanged j hj hne
    simp only [hset _ hj, if_true, hmap]
    simp
  · rw [hmap, Bool.or_eq_true, decide_eq_true_eq] at hm
    rcases hm with rfl | h
    · exact .inr ⟨hb0, idx, hidx, by rw [hset idx hidx, if_pos rfl]⟩
    · exact .inl h
  · simp only [← hidxdef, hset idx hidx, if_true]
    exact hb0

/-- **Getting a block for the current record**: it has one, or a free one is taken, or all blocks of
the disk are in use.

**Proof sketch.** The tests of `WTSEQ1` pass one after the other. Where the record has no block,
`FNDSPACE` finds none, and the call ends with status 2, or it finds one with which the record is
ready. -/
lemma wtSeq1_cases (hd : Flat d) (hs : Sound d s E) (ha : Attached d s E f n)
    (hro : readOnly f.entry = false) (hst : s.status = 0) {r : ℕ} (hcr : f.cr.toNat = r % 128)
    (mode : UInt8) :
    (∃ g t new, Ready d s (E n) f r g t ∧ t.status = 0 ∧ t.dma = s.dma ∧
      (new = true → (E n).pointer (pointers d) (r % 128 / 2 ^ d.bsh) = 0) ∧
      wtSeq1 d mode f s = wtRecord d mode new ⟨f.cr, f.entry.rc, 0⟩ g t) ∨
    ((∀ b ≤ d.dsm, mem s.alv b = true) ∧
      wtSeq1 d mode f s = some (f, { s with status := 2 })) := by
  have hlt : f.cr.toNat < 128 := by omega
  have hblk : comBlk d f f.cr 0 = (E n).pointer (pointers d) (r % 128 / 2 ^ d.bsh) := by
    rw [comBlk_attached hd ha hlt, hcr]
  have hget : (getBlock d f.cr 0).toNat = r % 128 / 2 ^ d.bsh := by
    rw [toNat_getBlock hd.fits (Nat.zero_le _) hlt, hcr]
    simp
  have hnot : ¬ (128 : UInt8) ≤ f.cr := by
    intro h
    have := UInt8.le_iff_toNat_le.mp h
    rw [show UInt8.toNat 128 = 128 from rfl] at this
    omega
  have hwp : ¬ s.wrtPrt = true := by simp [hs.writable]
  rw [wtSeq1, if_neg hwp, if_neg (by simp [hro]), strData_eq hd]
  simp only
  rw [if_neg hnot, hblk, hget]
  by_cases hz : (E n).pointer (pointers d) (r % 128 / 2 ^ d.bsh) = 0
  · rw [if_neg (not_not.mpr hz)]
    rcases fndSpace_near hd hs ha (hd.index_lt r) rfl with ⟨hall, heq⟩ |
      ⟨b, ⟨hfree, hlow, hhigh⟩, hres, hmap⟩
    · right
      rw [heq, if_pos rfl]
      exact ⟨hall, rfl⟩
    · left
      have hb0 : b ≠ 0 := fun h => free_ne_zero hd hs hfree (h ▸ rfl)
      rw [hres, if_neg hb0]
      exact ⟨_, _, true,
        ready_of_free hd hs ha hz hfree hlow hhigh hmap, hst, rfl, fun _ => hz, rfl⟩
  · left
    rw [if_pos hz]
    exact ⟨f, s, false, ready_of_block ha hz, hst, rfl, fun h => Bool.noConfusion h, rfl⟩

/-- **`WTSEQ1` in random mode**, for the current record of an attached file control block: the
record is on the disk and the others stay, or all blocks of the disk are in use. -/
lemma wtSeq1_attached (hd : Flat d) (hs : Sound d s E) (hc : Coherent d s E f)
    (ha : Attached d s E f n) (hro : readOnly f.entry = false) (hst : s.status = 0) {r : ℕ}
    (hcr : f.cr.toNat = r % 128) (hext : extOf (E n) = r / 128) {mode : UInt8} (hmode : mode ≠ 1) :
    ∃ f' s' E', wtSeq1 d mode f s = some (f', s') ∧ Keeps d s E f s' E' f' ∧
      Attached d s' E' f' n ∧ s'.dma = s.dma ∧
      ((s'.status = 0 ∧ Stores d s' E' (nameOf f.entry) r s.dma ∧
          ∀ k r' x, (k, r') ≠ (nameOf f.entry, r) → Stores d s E k r' x → Stores d s' E' k r' x) ∨
        (s'.status = 2 ∧ (∀ b ≤ d.dsm, mem s.alv b = true) ∧ Preserves d s E s' E')) := by
  rcases wtSeq1_cases hd hs ha hro hst hcr mode with ⟨g, t, new, hr, hst', hdma, hnew, heq⟩ |
      ⟨hall, heq⟩
  · obtain ⟨f', s', E', hput, hk, ha', -, hstore, hothers, hstat, hdma', -⟩ :=
      putRecord_spec hd hs hc ha hcr hext hr mode new hnew
    refine ⟨f', s', E', ?_, hk, ha', hdma'.trans hdma, .inl ⟨hstat.trans hst', hdma ▸ hstore,
      hothers⟩⟩
    rw [heq, wtRecord, if_neg (not_not.mpr hst'), hput]
    simp only
    rw [if_neg (fun h => hmode h.2)]
  · have hsame : s.SameDisk { s with status := 2 } := ⟨rfl, rfl, rfl, rfl, rfl⟩
    exact ⟨f, _, E, heq, keeps_same hs hc hsame rfl, ha.congr rfl rfl, rfl,
      .inr ⟨rfl, hall, preserves_same hsame⟩⟩

/-- **What writing record `r` of file `k` leads to**: the record is on the disk and all others stay,
or all blocks are in use, or all directory entries are, and nothing is lost. -/
def Written (d : Dpb) (s : Drive) (E : ℕ → CpmDir) (k : Fin 12 → ℕ) (r : ℕ) (s' : Drive)
    (E' : ℕ → CpmDir) : Prop :=
  (s'.status = 0 ∧ Stores d s' E' k r s.dma ∧
    ∀ k' r' x, (k', r') ≠ (k, r) → Stores d s E k' r' x → Stores d s' E' k' r' x) ∨
  (s'.status = 2 ∧ (∀ b ≤ d.dsm, mem s.alv b = true) ∧ Preserves d s E s' E') ∨
  (s'.status = 5 ∧ (∀ n ≤ d.drm, (E n).Used) ∧ Preserves d s E s' E')

/-- **`WRITERAN` and `WTSPECL` on a sound drive.** -/
lemma writeRan_spec (hd : Flat d) (hs : Sound d s E) (hc : Coherent d s E f) (hu : Usable d s E f)
    (hr2 : f.r2 = 0) (hw : Writable d E f) {mode : UInt8} (hmode : mode ≠ 1) :
    ∃ f' s' E', writeRan d mode f s = some (f', s') ∧ Keeps d s E f s' E' f' ∧
      Usable d s' E' f' ∧ s'.dma = s.dma ∧ Written d s E (nameOf f.entry) (wanted f) s' E' := by
  obtain ⟨f₁, s₁, E₁, hpos, hdma, halv, hk, hpres, hcase⟩ := position_spec hd hs hc hu false hr2
  rw [writeRan, hpos]
  simp only
  rcases hcase with ⟨hst, hcr, n, ha, hext⟩ | ⟨hst, hstale, -, hfull⟩
  · rw [if_pos hst]
    obtain ⟨f', s', E', heq, hk', ha', hdma', hwrite⟩ := wtSeq1_attached hd hk.sound hk.coherent ha
      (hk.writable hw).1 hst hcr hext hmode
    rw [hk.name, hdma] at hwrite
    refine ⟨f', s', E', heq, hk.trans hk', .inr ⟨n, ha'⟩, hdma'.trans hdma, ?_⟩
    rcases hwrite with ⟨h0, hstore, hothers⟩ | ⟨h2, hall, hpres'⟩
    · exact .inl ⟨h0, hstore, fun k r x hne hx => hothers k r x hne (hpres k r x hx)⟩
    · exact .inr (.inl ⟨h2, fun b hb => halv ▸ hall b hb, hpres.trans hpres'⟩)
  · have h5 : s₁.status = 5 := hst
    rw [if_neg (by rw [h5]; decide)]
    exact ⟨f₁, s₁, E₁, rfl, hk, .inl hstale, hdma, .inr (.inr ⟨h5, hfull rfl, hpres⟩)⟩

end File

end Bdos

end Cpm22
