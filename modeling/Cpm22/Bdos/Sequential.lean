import Cpm22.Bdos.Writing

set_option relaxedAutoImplicit false
set_option autoImplicit false

/-!
# Reading and writing a file from its start

A program that makes a file writes its records one after the other; the BDOS goes on to the next
extent when one is full. Reading goes the same way, and finds the end of the file where the record
count of the last extent ends, or where there is no further extent.

## Main definitions

* `Cpm22.Bdos.File.At` — a file control block is at a record.
* `Cpm22.Bdos.File.Stops` — a file has no record from some number on.
* `Cpm22.Bdos.File.writeAll`, `readAll` — a program that writes, or reads, all records.

## Main results

* `Cpm22.Bdos.File.getNext_spec` — going on to the next extent.
* `Cpm22.Bdos.File.readAll_writeAll` — what was written is read back, up to the end of the file.
-/

namespace Cpm22

namespace Bdos

open BitMap Disk

namespace File

variable {d : Dpb} {s s' : Drive} {E E' : ℕ → CpmDir} {f f' : FileFcb} {n : ℕ}

/-! ## The next extent -/

/-- **What going on to the extent `e` leads to**: the file control block holds its entry, or there
is none, and the directory has the newest entries. -/
def Opened (d : Dpb) (E : ℕ → CpmDir) (e : ℕ) (s' : Drive) (E' : ℕ → CpmDir) (f' : FileFcb) :
    Prop :=
  (s'.status = 0 ∧ ∃ m, Attached d s' E' f' m ∧ extOf (E' m) = e) ∨
  (s'.status = 1 ∧ Settled d s' E f' ∧ E' = E ∧ f'.entry.xh &&& 0x80 ≠ 0)

/-- **The view gets at most an empty entry.** -/
def Adds (E : ℕ → CpmDir) (k : Fin 12 → ℕ) (e : ℕ) (E' : ℕ → CpmDir) : Prop :=
  ∀ m, E' m = E m ∨ (nameOf (E' m) = k ∧ extOf (E' m) = e ∧ (E' m).rc = 0 ∧
    ∀ bps i, (E' m).pointer bps i = 0)

/-- `GTNEXT5` keeps the file system, if the directory has the newest entries. -/
lemma noExtent_spec (hs : Sound d s E) (hset : Settled d s E f) (hp : Plain f.entry)
    (hm : s.Moved s') :
    Keeps d s E f (noExtent f s').2 E (noExtent f s').1 ∧
      Settled d (noExtent f s').2 E (noExtent f s').1 ∧ s.Moved (noExtent f s').2 := by
  have hname : nameOf (noExtent f s').1.entry = nameOf f.entry := nameOf_congr rfl rfl rfl
  have hmv : s.Moved (noExtent f s').2 := hm.trans ⟨rfl, rfl, rfl, rfl, rfl, rfl⟩
  refine ⟨keeps_settled hs hset hmv (hp.congr rfl rfl rfl) hname fun h => h.1,
    fun m hle hmine => ?_,
    hmv⟩
  rw [hmv.slot]
  exact hset m hle fun hu => (hmine hu).trans hname

/-- **`GTNEXT2` on a sound drive** whose directory has the newest entries of the file.

**Proof sketch.** The search for the extent finds its entry, which is opened, or there is none.
Then reading leaves the file control block without an extent, and writing makes a new entry, unless
the directory is full. -/
lemma nextEntry_spec (hd : Flat d) (hs : Sound d s E) (hp : Plain f.entry)
    (hxl : f.entry.xl.toNat < 32) (hxh : f.entry.xh.toNat % 128 < 16) (reading : Bool)
    (hflag : reading = false → f.entry.xh.toNat < 16) (hset : Settled d s E f) :
    ∃ f' s' E', nextEntry d reading f s = some (f', s') ∧ s'.dma = s.dma ∧ s'.alv = s.alv ∧
      Keeps d s E f s' E' f' ∧ Preserves d s E s' E' ∧ f'.cr = f.cr ∧
      Opened d E (extOf f.entry) s' E' f' ∧
      Adds E (nameOf f.entry) (extOf f.entry) E' ∧
      (s'.status = 1 → ∀ m ≤ d.drm, (E m).Used → nameOf (E m) = nameOf f.entry →
        extOf (E m) ≠ extOf f.entry) := by
  obtain ⟨hmv, hbuf, hcase⟩ := find_extent hd hs hp hxl (by omega)
  have hst := hs.moved hmv
  have hsame : Adds E (nameOf f.entry) (extOf f.entry) E := fun m => .inl rfl
  rw [nextEntry]
  obtain ⟨m, hm, hu, hname, hext, hpos, -⟩ | ⟨hnone, hpos, -⟩ := hcase
  · rw [if_pos (by rw [hpos]; simp)]
    have hsn : E m = (s.findFst d f.entry 15).slot m := by
      rw [hmv.slot]
      exact hset m hm fun _ => hname
    obtain ⟨h1, h2, h3, -⟩ := openIt1_attached hst hbuf hm hu hpos hname hext hxl hsn
    have hmv' : s.Moved { s.findFst d f.entry 15 with status := 0 } :=
      hmv.trans ⟨rfl, rfl, rfl, rfl, rfl, rfl⟩
    exact ⟨_, _, E, rfl, hmv'.dma, hmv'.alv,
      keeps_settled hs hset hmv' h2 h3 fun h => h1.readOnly h h3, preserves_same hmv'.sameDisk, rfl,
      .inl ⟨rfl, m, h1.congr rfl rfl, hext⟩, hsame, fun h => absurd h (by simp)⟩
  · rw [if_neg (not_not.mpr hpos)]
    cases reading with
    | true =>
      obtain ⟨hk, hset', hmv'⟩ := noExtent_spec hs hset hp hmv
      exact ⟨_, _, E, rfl, hmv'.dma, hmv'.alv, hk, preserves_same hmv'.sameDisk, rfl,
        .inr ⟨rfl, hset', rfl, or_80_and _⟩, hsame, fun _ => hnone⟩
    | false =>
      have hset₁ : Settled d (s.findFst d f.entry 15) E f := fun i hi hmine => by
        rw [hmv.slot]
        exact hset i hi hmine
      obtain ⟨f₂, s₂, hget, hdma, halv, hcase⟩ :=
        getEmpty_spec hd hst hp hxl (hflag rfl) hset₁ hnone
      rw [hget]
      simp only [Bool.false_eq_true, if_false]
      have hk₁ : Keeps d s E f (s.findFst d f.entry 15) E f :=
        keeps_settled hs hset hmv hp rfl fun h => h.1
      obtain ⟨m, E', ha, hext, hk₂, hpres, hcr, -, hfp, -, -, hE'⟩ | ⟨rfl, hmv₂, -, -, hfp⟩ := hcase
      · rw [if_neg hfp]
        have hmv' : s₂.Moved { s₂ with status := 0 } := ⟨rfl, rfl, rfl, rfl, rfl, rfl⟩
        refine ⟨_, _, E', rfl, hdma.trans hmv.dma, halv.trans hmv.alv,
          (hk₁.trans hk₂).trans (keeps_same hk₂.sound hk₂.coherent hmv'.sameDisk rfl),
          ((preserves_same hmv.sameDisk).trans hpres).trans (preserves_same hmv'.sameDisk), hcr,
          .inl ⟨rfl, m, ha.congr rfl rfl, hext⟩, fun i => ?_, fun h => absurd h (by simp)⟩
        rw [hE', Function.update_apply]
        split
        · exact .inr ⟨nameOf_congr rfl rfl rfl, rfl, rfl, fun bps i => made_pointer bps i⟩
        · exact .inl rfl
      · rw [if_pos hfp]
        obtain ⟨hk, hset', hmv'⟩ := noExtent_spec hs hset hp (hmv.trans hmv₂)
        exact ⟨_, _, E, rfl, hmv'.dma, hmv'.alv, hk, preserves_same hmv'.sameDisk, rfl,
          .inr ⟨rfl, hset', rfl, or_80_and _⟩, hsame, fun _ => hnone⟩

/-- The byte behind the extent byte. -/
lemma next_xl {a : UInt8} (h : a.toNat < 32) :
    ((a + 1) &&& 0x1f).toNat = if a.toNat = 31 then 0 else a.toNat + 1 := by
  rw [toNat_and_mask _ 5 0x1f rfl, UInt8.toNat_add, show UInt8.toNat 1 = 1 from rfl]
  split <;> omega

/-- The number behind `S2`, up to its flag. -/
lemma next_xh {a : UInt8} (h : a.toNat % 128 < 16) :
    (a + 1).toNat % 128 = a.toNat % 128 + 1 ∧
      ((a + 1) &&& 0x0f = 0 ↔ a.toNat % 128 = 15) := by
  have ha := a.toNat_lt
  have hadd : (a + 1).toNat = a.toNat + 1 := by
    rw [UInt8.toNat_add, show UInt8.toNat 1 = 1 from rfl]
    omega
  refine ⟨by omega, ?_⟩
  rw [← UInt8.toNat_inj, toNat_and_mask _ 4 0x0f rfl, hadd, UInt8.toNat_zero]
  omega

/-- A byte with bit 7 clear. -/
lemma lt_of_and_80 {a : UInt8} (h : a &&& 0x80 = 0) : a.toNat < 128 := by
  by_contra hge
  have hbit : a.toNat.testBit 7 = true := by
    rw [Nat.testBit_eq_decide_div_mod_eq, decide_eq_true_eq]
    have := a.toNat_lt
    omega
  have hzero := congrArg (fun x : UInt8 => x.toNat.testBit 7) h
  simp only [UInt8.toNat_and, Nat.testBit_and, hbit] at hzero
  exact absurd hzero (by decide)

/-- **`GETNEXT` on a sound drive**: the extent is closed, and the next one opened, or made if the
file is written.

**Proof sketch.** Closing puts the newest entry into the directory. The extent byte counts up, and
`S2` with it where the byte wraps; behind the last extent there is no other one. In the other cases
the file control block names the next extent, and `nextEntry_spec` does the rest. -/
lemma getNext_spec (hd : Flat d) (hs : Sound d s E) (hc : Coherent d s E f)
    (ha : Attached d s E f n) (reading : Bool)
    (hflag : reading = false → f.entry.xh &&& 0x80 = 0) :
    ∃ f' s' E', getNext d reading f s = some (f', s') ∧ s'.dma = s.dma ∧ s'.alv = s.alv ∧
      Keeps d s E f s' E' f' ∧ Preserves d s E s' E' ∧ f'.cr = f.cr ∧
      Opened d E (extOf (E n) + 1) s' E' f' ∧ Adds E (nameOf f.entry) (extOf (E n) + 1) E' ∧
      (s'.status = 1 → ∀ m ≤ d.drm, (E m).Used → nameOf (E m) = nameOf f.entry →
        extOf (E m) ≠ extOf (E n) + 1) := by
  have hprop := hs.orderly.proper n ha.le ha.used
  have hext := ha.ext hs
  have hxl : f.entry.xl.toNat < 32 := ha.xl ▸ hprop.xl
  have hxh : f.entry.xh.toNat % 128 < 16 := by
    have := hprop.xh
    rw [ha.xh]
    exact this
  obtain ⟨hf, hk, hset, hpres, -, hfp, hdma, halv⟩ := closeIt_spec hd hs hc fun _ => ⟨n, ha⟩
  rcases hcl : closeIt d f s with ⟨f₁, s₁, b⟩
  rw [hcl] at hf hk hset hpres hfp hdma halv
  obtain rfl : f₁ = f := hf
  simp only at hk hset hpres hfp hdma halv
  -- what is left to do for the file control block with the next extent
  have hrest : ∀ g : FileFcb, Plain g.entry → nameOf g.entry = nameOf f₁.entry →
      g.entry.ex = f₁.entry.ex → g.entry.xl.toNat < 32 → g.entry.xh.toNat % 128 < 16 →
      (reading = false → g.entry.xh.toNat < 16) → extOf g.entry = extOf f₁.entry + 1 →
      g.cr = f₁.cr → ∃ f' s' E', nextEntry d reading g s₁ = some (f', s') ∧ s'.dma = s.dma ∧
        s'.alv = s.alv ∧ Keeps d s E f₁ s' E' f' ∧ Preserves d s E s' E' ∧ f'.cr = f₁.cr ∧
        Opened d E (extOf (E n) + 1) s' E' f' ∧ Adds E (nameOf f₁.entry) (extOf (E n) + 1) E' ∧
        (s'.status = 1 → ∀ m ≤ d.drm, (E m).Used → nameOf (E m) = nameOf f₁.entry →
          extOf (E m) ≠ extOf (E n) + 1) := by
    intro g hgp hgname hgex hgxl hgxh hgflag hgext hgcr
    have hgset : Settled d s₁ E g := fun m hm hmine => hset m hm fun hu => (hmine hu).trans hgname
    obtain ⟨f', s', E', heq, h1, h2, h3, h4, h5, h6, h7, h8⟩ :=
      nextEntry_spec hd hk.sound hgp hgxl hgxh reading hgflag hgset
    rw [hgname, hgext, hext] at h7 h8
    rw [hgext, hext] at h6
    have hkg : Keeps d s₁ E f₁ s₁ E g :=
      keeps_settled hk.sound hset (Drive.Moved.refl s₁) hgp hgname fun h => by
        rw [readOnly, hgex]
        exact h.1
    exact ⟨f', s', E', heq, h1.trans hdma, h2.trans halv, (hk.trans hkg).trans h3, hpres.trans h4,
      h5.trans hgcr, h6, h7, h8⟩
  rw [getNext, hcl]
  simp only
  rw [if_neg hfp]
  have hnext := next_xl hxl
  by_cases hwrap : f₁.entry.xl.toNat = 31
  · rw [if_pos hwrap] at hnext
    have hz : (f₁.entry.xl + 1) &&& 0x1f = 0 := UInt8.toNat_inj.mp hnext
    obtain ⟨hnum, hlast⟩ := next_xh hxh
    rw [if_pos hz]
    by_cases hover : f₁.entry.xh.toNat % 128 = 15
    · -- there is no extent behind the last one
      rw [if_pos (hlast.mpr hover)]
      set g : FileFcb := { f₁ with entry := { f₁.entry with
        xl := (f₁.entry.xl + 1) &&& 0x1f
        xh := f₁.entry.xh + 1 } } with hg
      have hgname : nameOf g.entry = nameOf f₁.entry := nameOf_congr rfl rfl rfl
      have hgset : Settled d s₁ E g := fun m hm hmine => hset m hm fun hu => (hmine hu).trans hgname
      have hgp : Plain g.entry := hc.plain.congr rfl rfl rfl
      obtain ⟨hkn, hsetn, hmv⟩ := noExtent_spec hk.sound hgset hgp (Drive.Moved.refl s₁)
      have hkg : Keeps d s₁ E f₁ s₁ E g :=
        keeps_settled hk.sound hset (Drive.Moved.refl s₁) hgp hgname fun h => h.1
      refine ⟨_, _, E, rfl, hmv.dma.trans hdma, hmv.alv.trans halv, (hk.trans hkg).trans hkn,
        hpres.trans (preserves_same hmv.sameDisk), rfl, .inr ⟨rfl, hsetn, rfl, or_80_and _⟩,
        fun m => .inl rfl, fun _ m hm hu _ => ?_⟩
      have hm1 := (hs.orderly.proper m hm hu).xl
      have hm2 := (hs.orderly.proper m hm hu).xh
      rw [← hext, extOf, extOf]
      omega
    · rw [if_neg (fun h => hover (hlast.mp h))]
      refine hrest _ (hc.plain.congr rfl rfl rfl) (nameOf_congr rfl rfl rfl) rfl ?_ ?_ ?_ ?_ rfl
      · show ((f₁.entry.xl + 1) &&& 0x1f).toNat < 32
        omega
      · show (f₁.entry.xh + 1).toNat % 128 < 16
        omega
      · intro hr
        have h1 := lt_of_and_80 (hflag hr)
        have h2 : (f₁.entry.xh + 1).toNat = f₁.entry.xh.toNat + 1 := by
          rw [UInt8.toNat_add, show UInt8.toNat 1 = 1 from rfl]
          omega
        show (f₁.entry.xh + 1).toNat < 16
        omega
      · show ((f₁.entry.xl + 1) &&& 0x1f).toNat % 32 + 32 * ((f₁.entry.xh + 1).toNat % 128) =
          f₁.entry.xl.toNat % 32 + 32 * (f₁.entry.xh.toNat % 128) + 1
        omega
  · rw [if_neg hwrap] at hnext
    have hnz : (f₁.entry.xl + 1) &&& 0x1f ≠ 0 := by
      intro h
      rw [h, UInt8.toNat_zero] at hnext
      omega
    rw [if_neg hnz, if_pos (.inl (by rw [hd.exm]; exact UInt8.and_zero))]
    refine hrest _ (hc.plain.congr rfl rfl rfl) (nameOf_congr rfl rfl rfl) rfl ?_ hxh ?_ ?_ rfl
    · show ((f₁.entry.xl + 1) &&& 0x1f).toNat < 32
      omega
    · intro hr
      have h1 := lt_of_and_80 (hflag hr)
      show f₁.entry.xh.toNat < 16
      omega
    · show ((f₁.entry.xl + 1) &&& 0x1f).toNat % 32 + 32 * (f₁.entry.xh.toNat % 128) =
        f₁.entry.xl.toNat % 32 + 32 * (f₁.entry.xh.toNat % 128) + 1
      omega

/-! ## Positions -/

/-- **The file control block is at record `r`**, behind the last record of an extent still in this
extent. -/
def At (d : Dpb) (s : Drive) (E : ℕ → CpmDir) (f : FileFcb) (r : ℕ) : Prop :=
  ∃ n, Attached d s E f n ∧ f.cr.toNat ≤ 128 ∧ 128 * extOf (E n) + f.cr.toNat = r

/-- **The file has no record from number `len` on**, and no block behind its records. -/
def Stops (d : Dpb) (E : ℕ → CpmDir) (k : Fin 12 → ℕ) (len : ℕ) : Prop :=
  ∀ n ≤ d.drm, (E n).Used → nameOf (E n) = k → 128 * extOf (E n) + (E n).rc.toNat ≤ len ∧
    ∀ i < pointers d, (E n).pointer (pointers d) i ≠ 0 → i * 2 ^ d.bsh < (E n).rc.toNat

/-- There are no records behind the end. -/
lemma Stops.not_stores {k : Fin 12 → ℕ} {len r : ℕ} (h : Stops d E k len) (hr : len ≤ r)
    (x : Sector) : ¬ Stores d s E k r x := by
  rintro ⟨n, hn, hu, hk, hext, hrc, -⟩
  have := (h n hn hu hk).1
  omega

/-- A further empty entry in front of the end. -/
lemma Stops.adds {k : Fin 12 → ℕ} {len e : ℕ} (h : Stops d E k len) (ha : Adds E k e E')
    (he : 128 * e ≤ len) : Stops d E' k len := by
  intro n hn hu hk
  rcases ha n with heq | ⟨-, h1, h2, h3⟩
  · rw [heq] at hu hk ⊢
    exact h n hn hu hk
  · rw [h1, h2]
    exact ⟨by simpa using he, fun i _ hne => absurd (h3 _ i) hne⟩

/-- **The end moves behind a record that is written there.**

**Proof sketch.** The written record is the one behind the record count, so that the grown entry
ends behind it. A pointer that is new in it has the place of this record (`Ready.place`), and the
other entries of the name end where they did. -/
lemma Stops.grown {k : Fin 12 → ℕ} {r : ℕ} (h : Stops d E k r)
    (ha : Attached d s E f n) (hk : nameOf (E n) = k) (hcr : f.cr.toNat < 128)
    (hr : 128 * extOf (E n) + f.cr.toNat = r) {g : FileFcb} {t : Drive}
    (hready : Ready d s (E n) f r g t) :
    Stops d (Function.update E n (File.grown (E n) f g)) k (r + 1) := by
  have hpos := Nat.two_pow_pos d.bsh
  obtain ⟨hend, hfill⟩ := h n ha.le ha.used hk
  have hrc : f.entry.rc.toNat = (E n).rc.toNat := by rw [ha.rc]
  have hcount : (counted ⟨f.cr, f.entry.rc, 0⟩).nxt.toNat = f.cr.toNat + 1 := by
    have hnot : ¬ f.cr < f.entry.rc := by
      intro hlt
      have := UInt8.lt_iff_toNat_lt.mp hlt
      omega
    unfold counted
    rw [if_neg hnot]
    show (f.cr + 1).toNat = _
    rw [UInt8.toNat_add, show UInt8.toNat 1 = 1 from rfl]
    omega
  intro m hm hu hkm
  rw [Function.update_apply] at hu hkm ⊢
  split
  · refine ⟨?_, fun i hi hne => ?_⟩
    · show 128 * extOf (E n) + (counted ⟨f.cr, f.entry.rc, 0⟩).nxt.toNat ≤ r + 1
      omega
    · show i * 2 ^ d.bsh < (counted ⟨f.cr, f.entry.rc, 0⟩).nxt.toNat
      rw [hcount]
      have hptr : (File.grown (E n) f g).pointer (pointers d) i = g.entry.pointer (pointers d) i :=
        CpmDir.pointer_congr rfl i
      rw [hptr] at hne
      by_cases hold : g.entry.pointer (pointers d) i = (E n).pointer (pointers d) i
      · have := hfill i hi (hold ▸ hne)
        omega
      · have hi' := hready.place i hi hold
        have hmul := Nat.div_mul_le_self (r % 128) (2 ^ d.bsh)
        rw [hi']
        omega
  · rename_i hmn
    rw [if_neg hmn] at hu hkm
    obtain ⟨h1, h2⟩ := h m hm hu hkm
    exact ⟨by omega, h2⟩

/-! ## Writing -/

/-- **A writer behind record `r`**: the file control block is at the next record, or it has left the
last extent that there is, and the directory has the newest entries. -/
def Behind (d : Dpb) (s : Drive) (E : ℕ → CpmDir) (f : FileFcb) (r : ℕ) : Prop :=
  (At d s E f r ∧ f.cr.toNat < 128) ∨
    (f.cr = 128 ∧ Settled d s E f ∧ f.entry.xh &&& 0x80 ≠ 0)

/-- A writer that was written to holds an entry. -/
lemma Behind.usable {r : ℕ} (h : Behind d s E f r) (hflag : f.entry.xh &&& 0x80 = 0) :
    ∃ n, Attached d s E f n := by
  rcases h with ⟨⟨n, ha, -⟩, -⟩ | ⟨-, -, hne⟩
  · exact ⟨n, ha⟩
  · exact absurd hflag hne

/-- **`WTSEQ` at the end of the file**: the record is written and the file is longer by it, or all
blocks are in use.

**Proof sketch.** The record gets a block by `wtSeq1_cases` and is written by `putRecord_spec`. If
it was the last one of its extent, `getNext_spec` opens or makes the next one, which adds at most
an empty entry in front of the new end. -/
lemma wtSeq_spec (hd : Flat d) (hs : Sound d s E) (hc : Coherent d s E f) (hw : Writable d E f)
    (hst : s.status = 0) {r : ℕ} (hat : At d s E f r) (hlt : f.cr.toNat < 128)
    (hstop : Stops d E (nameOf f.entry) r) :
    ∃ f' s' E', wtSeq d f s = some (f', s') ∧ Keeps d s E f s' E' f' ∧
      ((s'.status = 0 ∧ Stores d s' E' (nameOf f.entry) r s.dma ∧ Behind d s' E' f' (r + 1) ∧
          Stops d E' (nameOf f.entry) (r + 1) ∧ ∀ k r' x, (k, r') ≠ (nameOf f.entry, r) →
            Stores d s E k r' x → Stores d s' E' k r' x) ∨
        (s'.status = 2 ∧ ∀ b ≤ d.dsm, mem s.alv b = true)) := by
  obtain ⟨n, ha, -, hr⟩ := hat
  have hcr : f.cr.toNat = r % 128 := by omega
  have hext : extOf (E n) = r / 128 := by omega
  rw [wtSeq]
  rcases wtSeq1_cases hd hs ha hw.1 hst hcr 1 with ⟨g, t, new, hready, hst', hdma, hnew, heq⟩ |
      ⟨hall, heq⟩
  · obtain ⟨f₁, s₁, E₁, hput, hk, ha₁, hext₁, hstore, hothers, hstat, hdma₁, hcr₁, hflag, hE₁⟩ :=
      putRecord_spec hd hs hc ha hcr hext hready 1 new hnew
    have hstop₁ : Stops d E₁ (nameOf f.entry) (r + 1) := by
      rw [hE₁]
      exact hstop.grown ha ha.name.symm hlt hr hready
    rw [heq, wtRecord, if_neg (not_not.mpr hst'), hput]
    simp only
    have hcr₁' : f₁.cr.toNat = f.cr.toNat + 1 := by
      rw [hcr₁, if_neg (by decide), UInt8.toNat_add, show UInt8.toNat 1 = 1 from rfl]
      omega
    rw [hdma] at hstore
    by_cases hlast : f.cr = 127
    · -- the extent is full
      rw [if_pos ⟨hlast, trivial⟩]
      have h127 : f.cr.toNat = 127 := by rw [hlast]; rfl
      obtain ⟨f₂, s₂, E₂, hget, -, -, hk₂, hpres, hcr₂, hopen, hadds, -⟩ :=
        getNext_spec hd hk.sound hk.coherent ha₁ false fun _ => hflag
      rw [hget]
      simp only
      rw [hk.name, hext₁] at hadds
      rw [hext₁] at hopen
      have hstop₂ : Stops d E₂ (nameOf f.entry) (r + 1) := hstop₁.adds hadds (by omega)
      have hothers₂ : ∀ k r' x, (k, r') ≠ (nameOf f.entry, r) → Stores d s E k r' x →
          Stores d s₂ E₂ k r' x := fun k r' x hne hx => hpres k r' x (hothers k r' x hne hx)
      have hsame : s₂.SameDisk { s₂ with status := 0 } := ⟨rfl, rfl, rfl, rfl, rfl⟩
      have hps := preserves_same (d := d) (E := E₂) hsame
      rcases hopen with ⟨h0, m, ha₂, hext₂⟩ | ⟨h1, hset, rfl, hflag₂⟩
      · rw [if_pos h0]
        have hentry : (setNRec 1 { strData d f₂ with nrec := 0xff } f₂).entry = f₂.entry := rfl
        refine ⟨_, _, E₂, rfl, (hk.trans hk₂).trans
          (keeps_same hk₂.sound hk₂.coherent hsame hentry),
          .inl ⟨rfl, hps _ _ _ (hpres _ _ _ hstore), .inl ⟨⟨m, ha₂.congr hentry rfl, ?_, ?_⟩, ?_⟩,
            hstop₂, fun k r' x hne hx => hps k r' x (hothers₂ k r' x hne hx)⟩⟩
        · show ((0xff : UInt8) + 1).toNat ≤ 128
          decide
        · show 128 * extOf (E₂ m) + ((0xff : UInt8) + 1).toNat = r + 1
          rw [hext₂, show ((0xff : UInt8) + 1).toNat = 0 from by decide]
          omega
        · show ((0xff : UInt8) + 1).toNat < 128
          decide
      · rw [if_neg (by rw [h1]; decide)]
        have hrec : (counted ⟨f.cr, f.entry.rc, 0⟩).nrec = 127 := by
          unfold counted
          split
          · exact hlast
          · exact hlast
        have hmv : s₂.Moved { s₂ with status := 0 } := ⟨rfl, rfl, rfl, rfl, rfl, rfl⟩
        have hk₃ : Keeps d s₂ E₂ f₂ { s₂ with status := 0 } E₂
            (setNRec 1 (counted ⟨f.cr, f.entry.rc, 0⟩) f₂) :=
          keeps_settled hk₂.sound hset hmv (hk₂.coherent.plain.congr rfl rfl rfl)
            (nameOf_congr rfl rfl rfl) fun h => h.1
        refine ⟨_, _, E₂, rfl, (hk.trans hk₂).trans hk₃, .inl ⟨rfl, hps _ _ _ (hpres _ _ _ hstore),
          .inr ⟨?_, fun m hm hmine => ?_, hflag₂⟩, hstop₂,
          fun k r' x hne hx => hps k r' x (hothers₂ k r' x hne hx)⟩⟩
        · show (counted ⟨f.cr, f.entry.rc, 0⟩).nrec + _ = 128
          rw [hrec]
          decide
        · exact hset m hm fun hu => (hmine hu).trans (nameOf_congr rfl rfl rfl)
    · rw [if_neg (fun h => hlast h.1)]
      have hne : f.cr.toNat ≠ 127 := fun h => hlast (UInt8.toNat_inj.mp h)
      refine ⟨f₁, s₁, E₁, rfl, hk, .inl ⟨hstat.trans hst', hstore, .inl ⟨⟨n, ha₁, ?_, ?_⟩, ?_⟩,
        hstop₁, hothers⟩⟩
      · omega
      · omega
      · omega
  · have hsame : s.SameDisk { s with status := 2 } := ⟨rfl, rfl, rfl, rfl, rfl⟩
    exact ⟨f, _, E, heq, keeps_same hs hc hsame rfl, .inr ⟨rfl, hall⟩⟩

/-! ## Reading -/

/-- **`RDSEQ` in front of the end of the file**: the record is read and the file control block is at
the next one, or there is no such record.

**Proof sketch.** In front of the record count the record is in the extent that the file control
block holds. Behind record 127 it is the first one of the next extent, which `getNext_spec` opens.
In between the file ends: the extent has one entry, and that one has no such record. -/
lemma rdSeq_spec (hd : Flat d) (hs : Sound d s E) (hc : Coherent d s E f) (hst : s.status = 0)
    {r len : ℕ} (hat : At d s E f r) (hle : r ≤ len) (hstop : Stops d E (nameOf f.entry) len) :
    ∃ f' s' E', rdSeq d f s = some (f', s') ∧ Keeps d s E f s' E' f' ∧ Preserves d s E s' E' ∧
      Stops d E' (nameOf f.entry) len ∧
      ((s'.status = 0 ∧ Stores d s' E' (nameOf f.entry) r s'.dma ∧ At d s' E' f' (r + 1)) ∨
        (s'.status = 1 ∧ ∀ x, ¬ Stores d s E (nameOf f.entry) r x)) := by
  have hpos := Nat.two_pow_pos d.bsh
  obtain ⟨n, ha, hcr, hr⟩ := hat
  rw [rdSeq, rdSeq1, strData_eq hd]
  simp only
  by_cases hrc : f.cr < f.entry.rc
  · -- the record is in this extent
    rw [if_pos hrc]
    have hlt := UInt8.lt_iff_toNat_lt.mp hrc
    have hfull := (hs.orderly.proper n ha.le ha.used).rc
    rw [ha.rc] at hlt
    obtain ⟨s', hsame, hcase⟩ := rdRecord_attached (r := r) hd hs ha 1 f.cr f.entry.rc (by omega)
      (by omega) fun _ => by omega
    have hentry : (setNRec 1 ⟨f.cr, f.entry.rc, 0⟩ f).entry = f.entry := rfl
    rcases hcase with ⟨heq, hst', hstore⟩ | ⟨heq, hst', -, hno⟩
    · rw [heq]
      refine ⟨_, s', E, rfl, keeps_same hs hc hsame hentry, preserves_same hsame, hstop,
        .inl ⟨hst'.trans hst, ?_, n, ha.congr hentry (hsame.slot n), ?_, ?_⟩⟩
      · rw [ha.name]
        exact preserves_same hsame _ _ _ hstore
      · show (f.cr + 1).toNat ≤ 128
        rw [UInt8.toNat_add, show UInt8.toNat 1 = 1 from rfl]
        omega
      · show 128 * extOf (E n) + (f.cr + 1).toNat = r + 1
        rw [UInt8.toNat_add, show UInt8.toNat 1 = 1 from rfl]
        omega
    · rw [heq]
      refine ⟨_, s', E, rfl, keeps_same hs hc hsame rfl, preserves_same hsame, hstop,
        .inr ⟨hst', fun x hx => ?_⟩⟩
      rw [ha.name] at hx
      exact hno x hx
  · rw [if_neg hrc]
    have hge : (E n).rc.toNat ≤ f.cr.toNat := by
      rw [← ha.rc]
      by_contra hlt
      exact hrc (UInt8.lt_iff_toNat_lt.mpr (by omega))
    by_cases hlast : f.cr = 128
    · -- the first record of the next extent
      rw [if_neg (not_not.mpr hlast)]
      have h128 : f.cr.toNat = 128 := by rw [hlast]; rfl
      obtain ⟨f₁, s₁, E₁, hget, -, -, hk, hpres, hcr₁, hopen, hadds, hnone⟩ :=
        getNext_spec hd hs hc ha true fun h => Bool.noConfusion h
      have hstop₁ : Stops d E₁ (nameOf f.entry) len := hstop.adds hadds (by omega)
      rw [hget]
      simp only
      rcases hopen with ⟨h0, m, ha₁, hext₁⟩ | ⟨h1, -, -, -⟩
      · rw [if_neg (not_not.mpr h0), strData_eq hd]
        simp only
        have hname : nameOf (E₁ m) = nameOf f.entry := ha₁.name.symm.trans hk.name
        obtain ⟨s', hsame, hcase⟩ := rdRecord_attached (r := r) hd hk.sound ha₁ 1 0
          f₁.entry.rc (by rw [UInt8.toNat_zero]; omega) (by omega) fun hne => by
            have := (hstop₁ m ha₁.le ha₁.used hname).2 _ (hd.index_lt r) hne
            have hmul := Nat.div_mul_le_self (r % 128) (2 ^ d.bsh)
            omega
        have hentry : (setNRec 1 ⟨0, f₁.entry.rc, 0⟩ f₁).entry = f₁.entry := rfl
        rw [hname] at hcase
        have hpres' := hpres.trans (preserves_same hsame)
        rcases hcase with ⟨heq, hst', hstore⟩ | ⟨heq, hst', -, hno⟩
        · rw [heq]
          refine ⟨_, s', E₁, rfl, hk.trans (keeps_same hk.sound hk.coherent hsame hentry), hpres',
            hstop₁, .inl ⟨hst'.trans h0, preserves_same hsame _ _ _ hstore, m,
              ha₁.congr hentry (hsame.slot m), ?_, ?_⟩⟩
          · show ((0 : UInt8) + 1).toNat ≤ 128
            decide
          · show 128 * extOf (E₁ m) + ((0 : UInt8) + 1).toNat = r + 1
            rw [hext₁, show ((0 : UInt8) + 1).toNat = 1 from by decide]
            omega
        · rw [heq]
          exact ⟨_, s', E₁, rfl, hk.trans (keeps_same hk.sound hk.coherent hsame rfl), hpres',
            hstop₁, .inr ⟨hst', fun x hx => hno x (hpres _ _ _ hx)⟩⟩
      · rw [if_pos (by rw [h1]; decide)]
        have hsame : s₁.SameDisk { s₁ with status := 1 } := ⟨rfl, rfl, rfl, rfl, rfl⟩
        refine ⟨_, _, E₁, rfl, hk.trans (keeps_same hk.sound hk.coherent hsame rfl),
          hpres.trans (preserves_same hsame), hstop₁, .inr ⟨rfl, ?_⟩⟩
        rintro x ⟨m, hm, hu, hkm, hextm, -⟩
        exact hnone h1 m hm hu hkm (by omega)
    · rw [if_pos hlast]
      have hne : f.cr.toNat ≠ 128 := fun h => hlast (UInt8.toNat_inj.mp h)
      have hsame : s.SameDisk { s with status := 1 } := ⟨rfl, rfl, rfl, rfl, rfl⟩
      refine ⟨f, _, E, rfl, keeps_same hs hc hsame rfl, preserves_same hsame, hstop, .inr ⟨rfl, ?_⟩⟩
      rintro x ⟨m, hm, hu, hkm, hextm, hrcm, -⟩
      obtain rfl := hs.orderly.unique m hm n ha.le hu ha.used (hkm.trans ha.name) (by omega)
      omega

/-! ## Whole files -/

/-- **A program that writes records one after the other**, as long as there is no error; every call
starts with the status cleared. -/
def writeAll (d : Dpb) : List Sector → FileFcb → Drive → Option (FileFcb × Drive)
  | [], f, s => some (f, s)
  | x :: xs, f, s =>
    match wtSeq d f { s with dma := x, status := 0 } with
    | none => none
    | some (f, s) => if s.status = 0 then writeAll d xs f s else none

/-- **A program that reads records one after the other**, at most as many as the number says, up to
the first error. -/
def readAll (d : Dpb) : ℕ → FileFcb → Drive → Option (List Sector × FileFcb × Drive)
  | 0, f, s => some ([], f, s)
  | k + 1, f, s =>
    match rdSeq d f { s with status := 0 } with
    | none => none
    | some (f, s) =>
      if s.status = 0 then (readAll d k f s).map fun r => (s.dma :: r.1, r.2) else some ([], f, s)

/-- **A file of `len` records that is written from its start.** -/
structure Writer (d : Dpb) (s : Drive) (E : ℕ → CpmDir) (f : FileFcb) (len : ℕ) : Prop where
  sound : Sound d s E
  coherent : Coherent d s E f
  writable : Writable d E f
  behind : Behind d s E f len
  stops : Stops d E (nameOf f.entry) len

/-- A writer whose file control block has left the last extent. -/
lemma Writer.wtSeq_full {len : ℕ} (hw : Writer d s E f len) (hd : Flat d) (h128 : f.cr = 128)
    (x : Sector) : wtSeq d f { s with dma := x, status := 0 } =
      some (f, { s with dma := x, status := 1 }) := by
  have hwp : ¬ s.wrtPrt = true := by simp [hw.sound.writable]
  rw [wtSeq, wtSeq1, if_neg hwp, if_neg (by simp [hw.writable.1]), strData_eq hd]
  simp only
  rw [if_pos (by simp [h128])]

/-- **The records of a writer**: after writing a list, its records are on the disk behind those that
were there, and all others stay.

**Proof sketch.** Induction on the list. A writer that has left its last extent gets an error, so
that the rest of the list is empty. -/
lemma writeAll_spec (hd : Flat d) (xs : List Sector) : ∀ (f : FileFcb) (s : Drive) (E : ℕ → CpmDir)
    (len : ℕ), Writer d s E f len → writeAll d xs f s = some (f', s') →
    ∃ E', Writer d s' E' f' (len + xs.length) ∧ Keeps d s E f s' E' f' ∧
      (∀ i x, xs[i]? = some x → Stores d s' E' (nameOf f.entry) (len + i) x) ∧
      ∀ k r x, (k ≠ nameOf f.entry ∨ r < len) → Stores d s E k r x → Stores d s' E' k r x := by
  induction xs with
  | nil =>
    intro f s E len hw heq
    obtain ⟨rfl, rfl⟩ := Prod.mk.inj (Option.some.inj heq)
    exact ⟨E, hw, Keeps.refl hw.sound hw.coherent, fun i x h => by simp at h, fun _ _ _ _ h => h⟩
  | cons x xs ih =>
    intro f s E len hw heq
    have hsame : s.SameDisk { s with dma := x, status := 0 } := ⟨rfl, rfl, rfl, rfl, rfl⟩
    have hk₀ : Keeps d s E f { s with dma := x, status := 0 } E f :=
      keeps_same hw.sound hw.coherent hsame rfl
    rw [writeAll] at heq
    obtain ⟨hat, hlt⟩ | ⟨h128, -, -⟩ := hw.behind
    · obtain ⟨n, ha, hcr⟩ := hat
      obtain ⟨f₁, s₁, E₁, hwt, hk, hcase⟩ := wtSeq_spec hd hk₀.sound hk₀.coherent hw.writable rfl
        ⟨n, ha.congr rfl rfl, hcr⟩ hlt hw.stops
      rw [hwt] at heq
      simp only at heq
      rcases hcase with ⟨h0, hstore, hbehind, hstop, hothers⟩ | ⟨h2, -⟩
      · rw [if_pos h0] at heq
        have hw₁ : Writer d s₁ E₁ f₁ (len + 1) :=
          ⟨hk.sound, hk.coherent, hk.writable hw.writable, hbehind, hk.name ▸ hstop⟩
        obtain ⟨E', hw', hk', hnew, hold⟩ := ih f₁ s₁ E₁ (len + 1) hw₁ heq
        rw [hk.name] at hnew hold
        refine ⟨E', ?_, (hk₀.trans hk).trans hk', fun i y hy => ?_, fun k r y hkr hy => ?_⟩
        · rw [List.length_cons, show len + (xs.length + 1) = len + 1 + xs.length by omega]
          exact hw'
        · cases i with
          | zero =>
            obtain rfl : x = y := by simpa using hy
            exact hold _ _ _ (.inr (by omega)) hstore
          | succ i =>
            have := hnew i y (by simpa using hy)
            rwa [show len + 1 + i = len + (i + 1) by omega] at this
        · refine hold k r y (hkr.imp id fun h => by omega) (hothers k r y ?_
            (preserves_same hsame k r y hy))
          rintro h
          obtain ⟨rfl, rfl⟩ := Prod.mk.inj h
          rcases hkr with h | h
          · exact h rfl
          · omega
      · rw [if_neg (by rw [h2]; decide)] at heq
        cases heq
    · rw [hw.wtSeq_full hd h128] at heq
      simp at heq

/-- **Reading a file from record `j` on** gives the rest of its records, and then the end of the
file.

**Proof sketch.** Induction on the number of reads that are left. A read gives record `j` or says
that there is none. In the first case `j` is in front of the end, so that the record is the one of
the list and the rest is read from `j + 1`; in the second one `j` is the end. -/
lemma readAll_spec (hd : Flat d) (xs : List Sector) (k : ℕ) : ∀ (j : ℕ) (f : FileFcb) (s : Drive)
    (E : ℕ → CpmDir), Sound d s E → Coherent d s E f → At d s E f j → j ≤ xs.length →
    Stops d E (nameOf f.entry) xs.length →
    (∀ i x, xs[i]? = some x → Stores d s E (nameOf f.entry) i x) → xs.length < j + k →
    ∃ f' s', readAll d k f s = some (xs.drop j, f', s') ∧ s'.status = 1 := by
  induction k with
  | zero =>
    intro j f s E _ _ _ hj _ _ hk
    omega
  | succ k ih =>
    intro j f s E hs hc hat hj hstop hall hk
    have hsame : s.SameDisk { s with status := 0 } := ⟨rfl, rfl, rfl, rfl, rfl⟩
    have hk₀ : Keeps d s E f { s with status := 0 } E f := keeps_same hs hc hsame rfl
    obtain ⟨n, ha, hcr⟩ := hat
    obtain ⟨f₁, s₁, E₁, hrd, hk₁, hpres, hstop₁, hcase⟩ := rdSeq_spec hd hk₀.sound hk₀.coherent rfl
      ⟨n, ha.congr rfl rfl, hcr⟩ hj hstop
    have hpres' := (preserves_same (d := d) (E := E) hsame).trans hpres
    rw [readAll, hrd]
    simp only
    rcases hcase with ⟨h0, hstore, hat₁⟩ | ⟨h1, hno⟩
    · -- the record is one of the list, since there is none behind it
      rw [if_pos h0]
      have hlt : j < xs.length := by
        by_contra hge
        exact hstop₁.not_stores (by omega) _ hstore
      have hx : s₁.dma = xs[j] := Stores.unique hk₁.sound hstore
        (hpres' _ _ _ (hall j xs[j] (List.getElem?_eq_getElem hlt)))
      obtain ⟨f', s', hread, hst⟩ := ih (j + 1) f₁ s₁ E₁ hk₁.sound hk₁.coherent hat₁ hlt
        (hk₁.name ▸ hstop₁) (fun i x hi => hk₁.name ▸ hpres' _ _ _ (hall i x hi)) (by omega)
      refine ⟨f', s', ?_, hst⟩
      rw [hread, Option.map_some, hx, List.drop_eq_getElem_cons hlt]
    · rw [if_neg (by rw [h1]; decide)]
      have hend : j = xs.length := by
        by_contra hne
        have hlt : j < xs.length := by omega
        exact hno _ (preserves_same hsame _ _ _ (hall j xs[j] (List.getElem?_eq_getElem hlt)))
      exact ⟨f₁, s₁, by rw [hend, List.drop_length], h1⟩

/-- The file control block for opening the file at its start. -/
def rewound (f : FileFcb) : FileFcb := { f with cr := 0, entry := { f.entry with xl := 0 } }

/-- A new file is a writer of no records.

**Proof sketch.** `GETEMPTY` attaches the file control block to a new entry of extent 0. It is the
only entry of the name and has no records and no blocks. -/
lemma fCreate_writer (hd : Flat d) (hs : Sound d s s.slot) (hp : Plain f.entry)
    (hxl : f.entry.xl = 0) (hcr : f.cr = 0) (hro : readOnly f.entry = false)
    (habs : ∀ n ≤ d.drm, (s.slot n).Used → nameOf (s.slot n) ≠ nameOf f.entry)
    (hmake : fCreate d f s = some (f', s')) (hst : s'.status ≠ 0xff) :
    ∃ E', Writer d s' E' f' 0 ∧ f'.cr = 0 ∧ Keeps d s s.slot f s' E' f' ∧
      Preserves d s s.slot s' E' := by
  have hname : nameOf (clearS2 f).entry = nameOf f.entry := nameOf_congr rfl rfl rfl
  have hext : extOf (clearS2 f).entry = 0 := by
    show f.entry.xl.toNat % 32 + 32 * (UInt8.toNat 0 % 128) = 0
    rw [hxl]
    decide
  have hc : Coherent d s s.slot f := ⟨hp, fun _ _ _ => .inl rfl⟩
  have hk₀ : Keeps d s s.slot f s s.slot (clearS2 f) :=
    keeps_settled hs (fun _ _ _ => rfl) (Drive.Moved.refl s) (hp.congr rfl rfl rfl) hname
      fun h => h.1
  obtain ⟨f₁, s₁, hget, -, -, hcase⟩ := getEmpty_spec (f := clearS2 f) hd hs (hp.congr rfl rfl rfl)
    (by rw [show (clearS2 f).entry.xl = f.entry.xl from rfl, hxl]; decide)
    (by show UInt8.toNat 0 < 16; decide) (fun _ _ _ => rfl)
    fun m hm hu hnm => absurd (hnm.trans hname) (habs m hm hu)
  rw [fCreate, hget] at hmake
  obtain ⟨rfl, rfl⟩ := Prod.mk.inj (Option.some.inj hmake)
  rcases hcase with ⟨n, E', ha, hext', hk, hpres, hcr', -, -, -, -, hE'⟩ | ⟨-, -, -, h, -⟩
  · refine ⟨E', ⟨hk.sound, hk.coherent, hk.writable ⟨hro, ?_⟩, .inl ⟨⟨n, ha, ?_, ?_⟩, ?_⟩, ?_⟩,
      hcr'.trans hcr, hk₀.trans hk, hpres⟩
    · intro m hm hu hnm
      exact absurd (hnm.trans hname) (habs m hm hu)
    · rw [hcr', show (clearS2 f).cr = f.cr from rfl, hcr]
      decide
    · rw [hext', hext, hcr', show (clearS2 f).cr = f.cr from rfl, hcr]
      decide
    · rw [hcr', show (clearS2 f).cr = f.cr from rfl, hcr]
      decide
    · -- the new entry is the only one of the name
      intro m hm hu hnm
      rw [hk.name, hname] at hnm
      rw [hE', Function.update_apply] at hu hnm ⊢
      split
      · refine ⟨?_, fun i _ hne => absurd (made_pointer _ i) hne⟩
        show 128 * extOf (clearS2 f).entry + UInt8.toNat 0 ≤ 0
        rw [hext]
        decide
      · rename_i h
        rw [if_neg h] at hu hnm
        exact absurd hnm (habs m hm hu)
  · exact absurd h hst

/-- **A file that is written from its start is read back.** A new file is made on a sound drive, any
records are written to it one after the other without an error, over as many extents as they need,
and the file is closed and opened again. Closing and opening succeed, reading from the start gives
exactly these records and then the end of the file, and no record of another file has changed.

**Proof sketch.** The new file is a writer of no records (`fCreate_writer`), and writing keeps the
invariant and puts every record on the disk (`writeAll_spec`). Closing puts the last extent into
the directory. Opening attaches the file control block to extent 0, which is there even if nothing
was written, and `readAll_spec` reads on from it. -/
theorem readAll_writeAll (hd : Flat d) (hs : Sound d s s.slot) (hp : Plain f.entry)
    (hxl : f.entry.xl = 0) (hcr : f.cr = 0) (hro : readOnly f.entry = false)
    (habs : ∀ n ≤ d.drm, (s.slot n).Used → nameOf (s.slot n) ≠ nameOf f.entry)
    {f₁ f₂ : FileFcb} {s₁ s₂ : Drive} (hmake : fCreate d f s = some (f₁, s₁))
    (hst : s₁.status ≠ 0xff) (xs : List Sector) (hwrite : writeAll d xs f₁ s₁ = some (f₂, s₂)) :
    (closeIt d f₂ s₂).2.1.status ≠ 0xff ∧
    (openFil d (rewound f₂) (closeIt d f₂ s₂).2.1).2.status ≠ 0xff ∧
    (∃ f' s', readAll d (xs.length + 1) (openFil d (rewound f₂) (closeIt d f₂ s₂).2.1).1
        (openFil d (rewound f₂) (closeIt d f₂ s₂).2.1).2 = some (xs, f', s') ∧ s'.status = 1) ∧
    ∀ k r x, k ≠ nameOf f.entry → Stores d s s.slot k r x →
      Stores d (closeIt d f₂ s₂).2.1 (closeIt d f₂ s₂).2.1.slot k r x := by
  obtain ⟨E₁, hw₁, hcr₁, hk₁, hpres₁⟩ := fCreate_writer hd hs hp hxl hcr hro habs hmake hst
  obtain ⟨E₂, hw₂, hk₂, hrecs, hothers⟩ := writeAll_spec hd xs f₁ s₁ E₁ 0 hw₁ hwrite
  rw [Nat.zero_add] at hw₂
  obtain ⟨-, hk₃, hset, hpres₃, hst₃, -⟩ :=
    closeIt_spec hd hw₂.sound hw₂.coherent hw₂.behind.usable
  set s₃ := (closeIt d f₂ s₂).2.1 with hs₃
  have hk := (hk₁.trans hk₂).trans hk₃
  have hname₁ : nameOf f₁.entry = nameOf f.entry := hk₁.name
  have hname₂ : nameOf f₂.entry = nameOf f.entry := hk₂.name.trans hk₁.name
  -- the file control block is attached to extent 0
  set g := clearS2 (rewound f₂) with hg
  have hgname : nameOf g.entry = nameOf f₂.entry := nameOf_congr rfl rfl rfl
  have hgp : Plain g.entry := hw₂.coherent.plain.congr rfl rfl rfl
  have hgext : extOf g.entry = 0 := rfl
  have hgset : Settled d s₃ E₂ g := fun m hm hmine => hset m hm fun hu => (hmine hu).trans hgname
  have hfirst : ∃ n ≤ d.drm, (E₂ n).Used ∧ nameOf (E₂ n) = nameOf f₂.entry ∧ extOf (E₂ n) = 0 := by
    cases xs with
    | nil =>
      -- nothing was written, so the writer is still at the start
      obtain ⟨rfl, rfl⟩ := Prod.mk.inj (Option.some.inj hwrite)
      rcases hw₂.behind with ⟨⟨n, ha, -, hr⟩, -⟩ | ⟨h, -, -⟩
      · simp only [List.length_nil] at hr
        exact ⟨n, ha.le, ha.used, ha.name.symm, by omega⟩
      · rw [hcr₁] at h
        exact absurd h (by decide)
    | cons x xs =>
      obtain ⟨n, hn, hu, hkn, hext, -⟩ := hrecs 0 x rfl
      exact ⟨n, hn, hu, hkn.trans (hname₁.trans hname₂.symm), hext⟩
  obtain ⟨hmv, hopen⟩ := openIt_spec hd hk₃.sound hgp (by show UInt8.toNat 0 < 32; decide)
    (by show UInt8.toNat 0 < 16; decide) hgset
  have hof : openFil d (rewound f₂) s₃ = openIt d g s₃ := rfl
  rw [hof]
  rcases hop : openIt d g s₃ with ⟨f₄, s₄⟩
  rw [hop] at hmv hopen
  simp only at hmv hopen ⊢
  rcases hopen with ⟨m, ha, hext, hp₄, hname₄, hcr₄, hst₄⟩ | ⟨hnone, -, -⟩
  · have hk₄ := keeps_settled hk₃.sound hgset hmv hp₄ hname₄ fun h => ha.readOnly h hname₄
    have hn₄ : nameOf f₄.entry = nameOf f₁.entry :=
      hname₄.trans (hgname.trans (hname₂.trans hname₁.symm))
    have hat : At d s₄ E₂ f₄ 0 := by
      have hz : f₄.cr.toNat = 0 := by
        rw [hcr₄]
        rfl
      exact ⟨m, ha, by omega, by rw [hext, hgext, hz]⟩
    have hstop : Stops d E₂ (nameOf f₄.entry) xs.length := by
      rw [hname₄, hgname]
      exact hw₂.stops
    have hrecs₄ : ∀ i x, xs[i]? = some x → Stores d s₄ E₂ (nameOf f₄.entry) i x := by
      intro i x hi
      rw [hn₄]
      have := hrecs i x hi
      rw [Nat.zero_add] at this
      exact preserves_same hmv.sameDisk _ _ _ (hpres₃ _ _ _ this)
    obtain ⟨f', s', hread, hend⟩ := readAll_spec hd xs (xs.length + 1) 0 f₄ s₄ E₂ hk₄.sound
      hk₄.coherent hat (Nat.zero_le _) hstop hrecs₄ (by omega)
    refine ⟨hst₃, hst₄, ⟨f', s', by simpa using hread, hend⟩, fun k r x hkne hx => ?_⟩
    obtain ⟨n, hn, hu, hkn, hrest⟩ :=
      hpres₃ _ _ _ (hothers k r x (.inl (hname₁ ▸ hkne)) (hpres₁ k r x hx))
    -- an entry of another file is on the disk as the view has it
    have hmine : ¬ Mine s.slot f n := fun h => hkne (hkn.symm.trans (hk.mine n hn h hu))
    obtain ⟨hun, hnen⟩ := Classical.not_imp.mp hmine
    obtain ⟨h1, h2⟩ := hk.others n hn hun hnen
    refine ⟨n, hn, ?_⟩
    rw [h2, ← h1]
    exact ⟨hu, hkn, hrest⟩
  · obtain ⟨n, hn, hu, hnm, hext⟩ := hfirst
    exact absurd (hext.trans hgext.symm) (hnone n hn hu (hnm.trans hgname.symm))

/-- A blank disk has no file. -/
lemma twinBlank_absent : ∀ n ≤ twinDpb.drm, (tinyBlank.slot n).Used →
    nameOf (tinyBlank.slot n) ≠ nameOf tinyFcb.entry :=
  fun n _ hu => absurd hu (tinyBlank_unused n)

/-- Records for a file that has one more of them than an extent. -/
def twinRecords : List Sector := (List.range 129).map fun i _ => UInt8.ofNat i

/-- They can be written to a new file of that disk, which has a second extent then. -/
lemma twin_written : ∃ f₁ s₁ f₂ s₂, fCreate twinDpb tinyFcb tinyBlank = some (f₁, s₁) ∧
    s₁.status ≠ 0xff ∧ writeAll twinDpb twinRecords f₁ s₁ = some (f₂, s₂) ∧ f₂.entry.xl = 1 := by
  obtain ⟨f₁, s₁, hmake⟩ : ∃ f₁ s₁, fCreate twinDpb tinyFcb tinyBlank = some (f₁, s₁) :=
    ⟨_, _, rfl⟩
  have hrun : ((fCreate twinDpb tinyFcb tinyBlank).bind fun r =>
      (writeAll twinDpb twinRecords r.1 r.2).map fun q => (r.2.status, q.1.entry.xl)) =
        some (0, 1) := by decide +kernel
  rw [hmake, Option.bind_some, Option.map_eq_some_iff] at hrun
  obtain ⟨⟨f₂, s₂⟩, hwrite, heq⟩ := hrun
  obtain ⟨hst, hxl⟩ := Prod.mk.inj heq
  exact ⟨f₁, s₁, f₂, s₂, hmake, by rw [hst]; decide, hwrite, hxl⟩

/-- `readAll_writeAll` for these records, which are in two extents. -/
theorem readAll_writeAll_tiny : ∃ f₁ s₁ f₂ s₂, fCreate twinDpb tinyFcb tinyBlank = some (f₁, s₁) ∧
    writeAll twinDpb twinRecords f₁ s₁ = some (f₂, s₂) ∧ f₂.entry.xl = 1 ∧
    ∃ f' s', readAll twinDpb 130 (openFil twinDpb (rewound f₂) (closeIt twinDpb f₂ s₂).2.1).1
      (openFil twinDpb (rewound f₂) (closeIt twinDpb f₂ s₂).2.1).2 =
        some (twinRecords, f', s') ∧ s'.status = 1 := by
  obtain ⟨f₁, s₁, f₂, s₂, hmake, hst, hwrite, hxl⟩ := twin_written
  obtain ⟨-, -, hread, -⟩ := readAll_writeAll twin_flat twinBlank_sound tiny_plain rfl rfl rfl
    twinBlank_absent hmake hst twinRecords hwrite
  exact ⟨f₁, s₁, f₂, s₂, hmake, hwrite, hxl, hread⟩

end File

end Bdos

end Cpm22
