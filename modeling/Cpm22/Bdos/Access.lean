import Cpm22.Bdos.Extents

set_option relaxedAutoImplicit false
set_option autoImplicit false

/-!
# Reading a record

What random access does on a sound drive. `POSITION` attaches the file control block to the extent
of the wanted record; reading then gives the record if it is on the disk.

## Main results

* `Cpm22.Bdos.File.position_spec` — positioning.
* `Cpm22.Bdos.File.rdSeq1_attached` — reading the current record.
* `Cpm22.Bdos.File.readRan_spec` — reading a record by its number.
-/

namespace Cpm22

namespace Bdos

open BitMap Disk

variable {d : Dpb} {s s' : Drive} {E E' : ℕ → CpmDir} {f f' : FileFcb} {n : ℕ}

/-- An attached file control block stays attached if its entry and the slot stay. -/
lemma Attached.congr (h : Attached d s E f n) (hf : f'.entry = f.entry)
    (hslot : s'.slot n = s.slot n) : Attached d s' E f' n :=
  ⟨h.le, h.used, hf ▸ h.name, hf ▸ h.xl, hf ▸ h.xh, hf ▸ h.al, hf ▸ h.rc, hf ▸ h.ex,
    fun hc => (h.clean (hf ▸ hc)).trans hslot.symm⟩

/-- An attached file control block stays attached if the view and the slot stay. -/
lemma Attached.others (h : Attached d s E f n) (hE : E' n = E n) (hslot : s'.slot n = s.slot n) :
    Attached d s' E' f n := by
  refine ⟨h.le, ?_, ?_, ?_, ?_, ?_, ?_, ?_, fun hc => ?_⟩
  all_goals rw [hE]
  exacts [h.used, h.name, h.xl, h.xh, h.al, h.rc, h.ex, (h.clean hc).trans hslot.symm]

/-- **A step that leaves the disk and the entry of the file control block as they are.** -/
lemma keeps_same (hs : Sound d s E) (hc : Coherent d s E f) (hm : s.SameDisk s')
    (hf : f'.entry = f.entry) : Keeps d s E f s' E f' := by
  refine ⟨hs.same hm, ⟨hf ▸ hc.plain, fun m hle hmine => ?_⟩, by rw [hf],
    fun m _ _ _ => ⟨rfl, hm.slot m⟩, fun _ _ h => h, fun h => ?_⟩
  · rcases hc.mine m hle (fun hu => (hmine hu).trans (by rw [hf])) with h | h
    · exact .inl (h.trans (hm.slot m).symm)
    · exact .inr (h.congr hf (hm.slot m))
  · unfold Writable
    rwa [hf]

/-- **A step of a file whose newest entries are in the directory** may change the file control block
freely, except for its name. -/
lemma keeps_settled (hs : Sound d s E) (hset : Settled d s E f) (hm : s.Moved s')
    (hp : Plain f'.entry) (hname : nameOf f'.entry = nameOf f.entry)
    (hro : Writable d E f → readOnly f'.entry = false) : Keeps d s E f s' E f' := by
  refine ⟨hs.moved hm, ⟨hp, fun m hle hmine => .inl ?_⟩, hname, fun m _ _ _ => ⟨rfl, hm.slot m⟩,
    fun _ _ h => h, fun h => ⟨hro h, fun m hle hu hnm => h.2 m hle hu (hnm.trans hname)⟩⟩
  rw [hm.slot]
  exact hset m hle fun hu => (hmine hu).trans hname

/-- Nothing is lost if the sectors and the view stay. -/
lemma preserves_same (hm : s.SameDisk s') : Preserves d s E s' E := by
  rintro k r x ⟨m, hle, hu, hk, hext, hrc, hptr, hx⟩
  exact ⟨m, hle, hu, hk, hext, hrc, hptr, by rw [hm.sec]; exact hx⟩

/-- Two steps that lose nothing. -/
lemma Preserves.trans {s'' : Drive} {E'' : ℕ → CpmDir} (h : Preserves d s E s' E')
    (h' : Preserves d s' E' s'' E'') : Preserves d s E s'' E'' :=
  fun k r x hst => h' k r x (h k r x hst)

/-- **A record has one content.** -/
lemma Stores.unique (hs : Sound d s E) {k : Fin 12 → ℕ} {r : ℕ} {x y : Sector}
    (h : Stores d s E k r x) (h' : Stores d s E k r y) : x = y := by
  obtain ⟨n, hn, hu, hk, hext, -, -, hx⟩ := h
  obtain ⟨m, hm, hu', hk', hext', -, -, hy⟩ := h'
  obtain rfl := hs.orderly.unique n hn m hm hu hu' (hk.trans hk'.symm) (hext.trans hext'.symm)
  rw [← hx, ← hy]

namespace File

/-! ## Positioning -/

/-- **What positioning to a record leads to**: the file control block holds the entry of the extent
of the record, or it is an error, and then there is no such entry; when writing, because all entries
are in use. -/
def Positioned (d : Dpb) (reading : Bool) (E : ℕ → CpmDir) (f : FileFcb) (r : ℕ) (s' : Drive)
    (E' : ℕ → CpmDir) (f' : FileFcb) : Prop :=
  (s'.status = 0 ∧ f'.cr.toNat = r % 128 ∧ ∃ n, Attached d s' E' f' n ∧ extOf (E' n) = r / 128) ∨
  (s'.status = (if reading then 4 else 5) ∧ Stale f' ∧
    (∀ n ≤ d.drm, (E n).Used → nameOf (E n) = nameOf f.entry → extOf (E n) ≠ r / 128) ∧
    (reading = false → ∀ n ≤ d.drm, (E n).Used))

/-- The file control block after an error holds no entry. -/
lemma posLost_stale (code : UInt8) (f : FileFcb) (s : Drive) : Stale (posLost code f s).1 := by
  show 16 ≤ ((0xc0 : UInt8) ||| 0x80).toNat % 128 ∧ ((0xc0 : UInt8) ||| 0x80) &&& 0x80 ≠ 0
  decide

/-- `POSITN4` leaves the name and the disk. -/
lemma posLost_frame (code : UInt8) (f : FileFcb) (s : Drive) (hp : Plain f.entry) :
    Plain (posLost code f s).1.entry ∧ nameOf (posLost code f s).1.entry = nameOf f.entry ∧
      s.Moved (posLost code f s).2 :=
  ⟨hp.congr rfl rfl rfl, nameOf_congr rfl rfl rfl, ⟨rfl, rfl, rfl, rfl, rfl, rfl⟩⟩

/-- **`POSITN2` on a sound drive.**

**Proof sketch.** The old extent is closed, so that the directory has the newest entries. Then the
wanted extent is opened; if it is not there, reading ends with an error, and writing makes it,
unless the directory is full. -/
lemma posExtent_spec (hd : Flat d) (hs : Sound d s E) (hc : Coherent d s E f)
    (hu : Usable d s E f) (reading : Bool) {p : Place} (hp : p.Proper) (hcr : f.cr = p.cr) :
    ∃ f' s' E', posExtent d reading p f s = some (f', s') ∧ s'.dma = s.dma ∧ s'.alv = s.alv ∧
      Keeps d s E f s' E' f' ∧ Preserves d s E s' E' ∧
      Positioned d reading E f p.number s' E' f' := by
  obtain ⟨hp1, hp2, hp3⟩ := hp
  obtain ⟨hf, hk, hset, hpres, hstat, -, hdma, halv⟩ := closeIt_spec hd hs hc hu.attached
  rcases hcl : closeIt d f s with ⟨f₁, s₁, b⟩
  rw [hcl] at hf hk hset hpres hstat hdma halv
  obtain rfl : f₁ = f := hf
  simp only at hk hset hpres hstat hdma halv
  set g : FileFcb := { f₁ with entry := { f₁.entry with xl := p.ext, xh := p.s2 } } with hg
  have hgp : Plain g.entry := hc.plain.congr rfl rfl rfl
  have hgname : nameOf g.entry = nameOf f₁.entry := nameOf_congr rfl rfl rfl
  have hgset : Settled d s₁ E g := fun m hm hmine => hset m hm fun hu => (hmine hu).trans hgname
  have hgext : extOf g.entry = p.number / 128 := by
    show p.ext.toNat % 32 + 32 * (p.s2.toNat % 128) = p.number / 128
    unfold Place.number
    omega
  have hgcr : g.cr.toNat = p.number % 128 := by
    show f₁.cr.toNat = _
    rw [hcr]
    unfold Place.number
    omega
  obtain ⟨hmv, hopen⟩ := openIt_spec hd hk.sound hgp hp2 hp3 hgset
  rw [posExtent, hcl]
  simp only
  rw [if_neg hstat, ← hg]
  rcases hop : openIt d g s₁ with ⟨f₂, s₂⟩
  rw [hop] at hmv hopen
  simp only at hmv hopen ⊢
  obtain ⟨m, ha, hext, hp', hname, hcr', hst⟩ | ⟨hnone, rfl, hst⟩ := hopen
  · -- the extent was there
    rw [if_pos hst]
    have hmv' : s₁.Moved { s₂ with status := 0 } :=
      hmv.trans ⟨rfl, rfl, rfl, rfl, rfl, rfl⟩
    refine ⟨_, _, E, rfl, hmv'.dma.trans hdma, hmv'.alv.trans halv,
      hk.trans (keeps_settled hk.sound hset hmv' hp' (hname.trans hgname)
        fun h => ha.readOnly h (hname.trans hgname)),
      hpres.trans (preserves_same hmv'.sameDisk), .inl ⟨rfl, ?_, m,
        ha.congr rfl rfl, hext.trans hgext⟩⟩
    rw [hcr']
    exact hgcr
  · rw [if_neg (by rw [hst]; simp)]
    have hnone' : ∀ m ≤ d.drm, (E m).Used → nameOf (E m) = nameOf f₁.entry →
        extOf (E m) ≠ p.number / 128 := by
      intro m hm hu' hnm
      rw [← hgext]
      exact hnone m hm hu' (hnm.trans hgname.symm)
    cases reading with
    | true =>
      -- reading does not make an extent
      simp only [if_true]
      obtain ⟨h1, h2, h3⟩ := posLost_frame 4 g s₂ hgp
      have hmv' := hmv.trans h3
      refine ⟨_, _, E, rfl, hmv'.dma.trans hdma, hmv'.alv.trans halv,
        hk.trans (keeps_settled hk.sound hset hmv' h1 (h2.trans hgname) fun h => h.1),
        hpres.trans (preserves_same hmv'.sameDisk),
        .inr ⟨rfl, posLost_stale 4 g s₂, hnone', fun h => Bool.noConfusion h⟩⟩
    | false =>
      simp only [Bool.false_eq_true, if_false]
      have hset₂ : Settled d s₂ E g := fun i hi hmine => by
        rw [hmv.slot]
        exact hgset i hi hmine
      have hsound₂ := hk.sound.moved hmv
      obtain ⟨f₃, s₃, hget, hdma₃, halv₃, hcase⟩ :=
        getEmpty_spec hd hsound₂ hgp hp2 hp3 hset₂ hnone
      have hk₂ : Keeps d s E f₁ s₂ E g :=
        hk.trans (keeps_settled hk.sound hset hmv hgp hgname fun h => h.1)
      rw [hget]
      simp only
      obtain ⟨m, E', ha, hext, hk₃, hpres₃, hcr₃, hst₃, -⟩ | ⟨rfl, hmv₃, hall, hst₃, -⟩ := hcase
      · rw [if_neg hst₃]
        have hmv' : s₃.Moved { s₃ with status := 0 } := ⟨rfl, rfl, rfl, rfl, rfl, rfl⟩
        refine ⟨_, _, E', rfl, hdma₃.trans (hmv.dma.trans hdma), halv₃.trans (hmv.alv.trans halv),
          (hk₂.trans hk₃).trans (keeps_same hk₃.sound hk₃.coherent hmv'.sameDisk rfl),
          ((hpres.trans (preserves_same hmv.sameDisk)).trans hpres₃).trans
            (preserves_same hmv'.sameDisk),
          .inl ⟨rfl, ?_, m, ha.congr rfl rfl, hext.trans hgext⟩⟩
        rw [hcr₃]
        exact hgcr
      · rw [if_pos hst₃]
        obtain ⟨h1, h2, h3⟩ := posLost_frame 5 g s₃ hgp
        have hmv' := (hmv.trans hmv₃).trans h3
        refine ⟨_, _, E, rfl, hmv'.dma.trans hdma, hmv'.alv.trans halv,
          hk.trans (keeps_settled hk.sound hset hmv' h1 (h2.trans hgname) fun h => h.1),
          hpres.trans (preserves_same hmv'.sameDisk),
          .inr ⟨rfl, posLost_stale 5 g s₃, hnone', fun _ => hall⟩⟩

/-- The number of the record that a file control block asks for. -/
def wanted (f : FileFcb) : ℕ := f.r0.toNat + 256 * f.r1.toNat

/-- The extent byte and `S2` of a file control block are those of the wanted record iff its extent
is. -/
lemma same_extent_iff (hs : Sound d s E) (ha : Attached d s E f n) {p : Place} (hp : p.Proper) :
    (p.ext = f.entry.xl ∧ (p.s2 - f.entry.xh) &&& 0x7f = 0) ↔ extOf (E n) = p.number / 128 := by
  obtain ⟨hp1, hp2, hp3⟩ := hp
  have hprop := hs.orderly.proper n ha.le ha.used
  have hxl := hprop.xl
  have hxh := hprop.xh
  have hsub := sub_and_7f p.s2 f.entry.xh
  rw [beq_iff_eq, ha.xh] at hsub
  rw [hsub, ha.xl, extOf, Place.number, ← UInt8.toNat_inj]
  omega

/-- **`POSITION` on a sound drive**, to a record below 65536.

**Proof sketch.** If the wanted extent is the one that the file control block holds, only the
current record is set; a stale file control block never is in this case, since no extent has its
`S2`. Otherwise `posExtent_spec` closes the old extent and opens the wanted one. -/
lemma position_spec (hd : Flat d) (hs : Sound d s E) (hc : Coherent d s E f) (hu : Usable d s E f)
    (reading : Bool) (hr2 : f.r2 = 0) :
    ∃ f' s' E', position d reading f s = some (f', s') ∧ s'.dma = s.dma ∧ s'.alv = s.alv ∧
      Keeps d s E f s' E' f' ∧ Preserves d s E s' E' ∧
      Positioned d reading E f (wanted f) s' E' f' := by
  obtain ⟨hp, hnum⟩ := posRecord_proper f.r0 f.r1
  set p := posRecord f.r0 f.r1 with hpdef
  have hwant : wanted f = p.number := hnum.symm
  set g : FileFcb := { f with cr := p.cr } with hg
  have hkg : Keeps d s E f s E g := keeps_same hs hc (Drive.Moved.refl s).sameDisk rfl
  have hgu : Usable d s E g := by
    rcases hu with h | ⟨n, h⟩
    · exact .inl h
    · exact .inr ⟨n, h.congr rfl rfl⟩
  rw [position, if_neg (by rw [hr2]; simp), ← hpdef, ← hg, hwant]
  by_cases hsame : p.ext = g.entry.xl ∧ (p.s2 - g.entry.xh) &&& 0x7f = 0
  · rw [if_pos hsame]
    -- a stale file control block has no extent
    obtain hstale | ⟨n, ha⟩ := hu
    · have hz := (sub_and_7f p.s2 f.entry.xh).mp (beq_iff_eq.mpr hsame.2)
      have hlt := hp.2.2
      have hge := hstale.1
      omega
    · have hext := (same_extent_iff hs ha hp).mp hsame
      have hmv : s.Moved { s with status := 0 } := ⟨rfl, rfl, rfl, rfl, rfl, rfl⟩
      refine ⟨_, _, E, rfl, rfl, rfl, keeps_same hs hc hmv.sameDisk rfl,
        preserves_same hmv.sameDisk,
        .inl ⟨rfl, ?_, n, ha.congr rfl rfl, hext⟩⟩
      show p.cr.toNat = p.number % 128
      have := hp.1
      unfold Place.number
      omega
  · rw [if_neg hsame]
    obtain ⟨f', s', E', heq, hdma, halv, hk, hpres, hposd⟩ :=
      posExtent_spec hd hs hkg.coherent hgu reading hp rfl
    exact ⟨f', s', E', heq, hdma, halv, hkg.trans hk, hpres, hposd⟩

/-! ## Reading -/

/-- `STRDATA` without an extent mask. -/
lemma strData_eq (hd : Flat d) (f : FileFcb) : strData d f = ⟨f.cr, f.entry.rc, 0⟩ := by
  have hext : UInt8.ofNat d.exm &&& f.entry.xl = 0 := by
    rw [hd.exm]
    exact UInt8.zero_and
  rw [strData, hext]

/-- The block of the current record of an attached file control block. -/
lemma comBlk_attached (hd : Flat d) (ha : Attached d s E f n) {r : UInt8} (hr : r.toNat < 128) :
    comBlk d f r 0 = (E n).pointer (pointers d) (r.toNat / 2 ^ d.bsh) := by
  rw [comBlk_eq hd.fits f (Nat.zero_le _) hr, CpmDir.pointer_congr ha.al]
  simp

/-- **`RDSEQ2` for a record of an attached file control block**: it is read exactly if it is on the
disk, if no block is behind the records.

**Proof sketch.** The block of the record is the pointer of the attached entry. If it is 0, the
record is not there, since no other entry has the name and the extent. If it is not, the sector of
the block is read, and the record is in front of the record count by the hypothesis. -/
lemma rdRecord_attached (hd : Flat d) (hs : Sound d s E) (ha : Attached d s E f n)
    (mode cr rc : UInt8) {r : ℕ} (hcr : cr.toNat = r % 128) (hext : extOf (E n) = r / 128)
    (hrc : (E n).pointer (pointers d) (r % 128 / 2 ^ d.bsh) ≠ 0 → r % 128 < (E n).rc.toNat) :
    ∃ s', s.SameDisk s' ∧
      ((rdRecord d mode ⟨cr, rc, 0⟩ f s = (setNRec mode ⟨cr, rc, 0⟩ f, s') ∧ s'.status = s.status ∧
          Stores d s E (nameOf (E n)) r s'.dma) ∨
        (rdRecord d mode ⟨cr, rc, 0⟩ f s = (f, s') ∧ s'.status = 1 ∧ s'.dma = s.dma ∧
          ∀ x, ¬ Stores d s E (nameOf (E n)) r x)) := by
  have hlt : cr.toNat < 128 := by omega
  have hprop := hs.orderly.proper n ha.le ha.used
  have hblk := comBlk_attached hd ha hlt
  rw [hcr] at hblk
  rw [rdRecord]
  simp only
  by_cases hz : comBlk d f cr 0 = 0
  · rw [if_pos hz]
    refine ⟨{ s with status := 1 }, ⟨rfl, rfl, rfl, rfl, rfl⟩, .inr ⟨rfl, rfl, rfl, ?_⟩⟩
    -- the entry of the record can only be the one that is attached
    rintro x ⟨m, hm, hu, hk, hext', -, hptr, -⟩
    obtain rfl := hs.orderly.unique m hm n ha.le hu ha.used hk (hext'.trans hext.symm)
    exact hptr (hblk.symm.trans hz)
  · rw [if_neg hz]
    refine ⟨{ s with dma := s.sec (recordSector d f cr 0) }, ⟨rfl, rfl, rfl, rfl, rfl⟩,
      .inl ⟨rfl, rfl, ?_⟩⟩
    rw [hblk] at hz
    have hle := (hprop.blocks _ (hd.index_lt r) hz).2
    refine ⟨n, ha.le, ha.used, rfl, hext, hrc hz, hz, ?_⟩
    rw [recordSector_eq hd.fits f (by rw [hblk]; exact hle), hblk, hcr]

/-- **Reading the current record** of an attached file control block in random mode: it is read
exactly if it is on the disk.

**Proof sketch.** In front of the record count the record is read by `rdRecord_attached`. From the
record count on there is none: the extent has one entry, and its record count is the one of the
file control block. -/
lemma rdSeq1_attached (hd : Flat d) (hs : Sound d s E) (ha : Attached d s E f n)
    (hst : s.status = 0) {r : ℕ} (hcr : f.cr.toNat = r % 128) (hext : extOf (E n) = r / 128) :
    ∃ s', rdSeq1 d 0 f s = some (f, s') ∧ s.SameDisk s' ∧
      ((s'.status = 0 ∧ Stores d s E (nameOf (E n)) r s'.dma) ∨
        (s'.status = 1 ∧ s'.dma = s.dma ∧ ∀ x, ¬ Stores d s E (nameOf (E n)) r x)) := by
  rw [rdSeq1, strData_eq hd]
  simp only
  by_cases hrc : f.cr < f.entry.rc
  · rw [if_pos hrc]
    have hrc' : r % 128 < (E n).rc.toNat := by
      rw [← hcr, ← ha.rc]
      exact UInt8.lt_iff_toNat_lt.mp hrc
    have hset : setNRec 0 ⟨f.cr, f.entry.rc, 0⟩ f = f := by
      simp [setNRec]
    obtain ⟨s', hsame, ⟨heq, hst', hstore⟩ | ⟨heq, hst', hdma, hno⟩⟩ :=
      rdRecord_attached hd hs ha 0 f.cr f.entry.rc hcr hext fun _ => hrc'
    · rw [heq, hset]
      exact ⟨s', rfl, hsame, .inl ⟨hst'.trans hst, hstore⟩⟩
    · rw [heq]
      exact ⟨s', rfl, hsame, .inr ⟨hst', hdma, hno⟩⟩
  · rw [if_neg hrc]
    have hne : f.cr ≠ 128 := by
      intro h
      rw [h, show UInt8.toNat 128 = 128 from rfl] at hcr
      omega
    rw [if_pos hne]
    refine ⟨_, rfl, ⟨rfl, rfl, rfl, rfl, rfl⟩, .inr ⟨rfl, rfl, ?_⟩⟩
    rintro x ⟨m, hm, hu, hk, hext', hlt, -⟩
    obtain rfl := hs.orderly.unique m hm n ha.le hu ha.used hk (hext'.trans hext.symm)
    rw [← hcr, ← ha.rc] at hlt
    exact hrc (UInt8.lt_iff_toNat_lt.mpr hlt)

/-- **`READRAN` on a sound drive**: a record that is on the disk is read, without an error.

**Proof sketch.** `POSITION` leaves the file control block attached to the extent of the record,
and then `rdSeq1_attached` reads the record iff it is there; or no entry has this extent, and there
is no such record. -/
lemma readRan_spec (hd : Flat d) (hs : Sound d s E) (hc : Coherent d s E f) (hu : Usable d s E f)
    (hr2 : f.r2 = 0) :
    ∃ f' s' E', readRan d f s = some (f', s') ∧ Keeps d s E f s' E' f' ∧ Usable d s' E' f' ∧
      Preserves d s E s' E' ∧ s'.alv = s.alv ∧
      ((s'.status = 0 ∧ Stores d s' E' (nameOf f.entry) (wanted f) s'.dma) ∨
        ((s'.status = 1 ∨ s'.status = 4) ∧ s'.dma = s.dma ∧
          ∀ x, ¬ Stores d s E (nameOf f.entry) (wanted f) x)) := by
  obtain ⟨f₁, s₁, E', hpos, hdma, halv, hk, hpres, hcase⟩ := position_spec hd hs hc hu true hr2
  rw [readRan, hpos]
  simp only
  rcases hcase with ⟨hst, hcr, n, ha, hext⟩ | ⟨hst, hstale, hnone, -⟩
  · rw [if_pos hst]
    obtain ⟨s', heq, hsame, hread⟩ := rdSeq1_attached hd hk.sound ha hst hcr hext
    have hname : nameOf (E' n) = nameOf f.entry := ha.name.symm.trans hk.name
    rw [hname] at hread
    have hpres' := hpres.trans (preserves_same hsame)
    refine ⟨f₁, s', E', heq, hk.trans (keeps_same hk.sound hk.coherent hsame rfl),
      .inr ⟨n, ha.congr rfl (hsame.slot n)⟩, hpres', hsame.alv.trans halv, ?_⟩
    rcases hread with ⟨h0, hstore⟩ | ⟨h1, hdma', hno⟩
    · exact .inl ⟨h0, preserves_same hsame _ _ _ hstore⟩
    · exact .inr ⟨.inl h1, hdma'.trans hdma, fun x hx => hno x (hpres _ _ _ hx)⟩
  · have h4 : s₁.status = 4 := hst
    rw [if_neg (by rw [h4]; decide)]
    refine ⟨f₁, s₁, E', rfl, hk, .inl hstale, hpres, halv, .inr ⟨.inr h4, hdma, ?_⟩⟩
    rintro x ⟨m, hm, hum, hkm, hextm, -⟩
    exact hnone m hm hum hkm hextm

end File

end Bdos

end Cpm22
