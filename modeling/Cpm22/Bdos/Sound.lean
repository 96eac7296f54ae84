import Cpm22.Bdos.Files
import Cpm22.Disk.Layout

set_option relaxedAutoImplicit false
set_option autoImplicit false

/-!
# A sound file system

The invariant of the file system and of the file control blocks that a program has open. While a
file is written, its newest extent is in the file control block only: the directory entry lacks the
blocks and records that were added since it was opened. The invariant is therefore about a *view* of
the directory, that has for every slot the newest entry, and which the directory on the disk lags
behind.

## Main definitions

* `Cpm22.Bdos.Flat` — a parameter block without an extent mask.
* `Cpm22.Bdos.Proper` — an entry of a file that the BDOS can have written.
* `Cpm22.Bdos.Sound` — the invariant of a drive with its view.
* `Cpm22.Bdos.Attached` — a file control block holds the newest entry of a slot.
* `Cpm22.Bdos.Stores` — a record of a file is on the disk.

## Main results

* `Cpm22.Bdos.File.merge_of_lags` — closing merges nothing but the newest entry.
-/

namespace Cpm22

namespace CpmDir

variable {u v : CpmDir} {bps : ℕ}

/-- Setting a pointer changes the pointers only. -/
lemma setPointer_eq (e : CpmDir) (bps i x : ℕ) :
    e.setPointer bps i x = { e with al := (e.setPointer bps i x).al } := by
  unfold setPointer
  split <;> rfl

/-- The pointers are in the pointer bytes. -/
lemma pointer_congr (h : u.al = v.al) (i : ℕ) : u.pointer bps i = v.pointer bps i := by
  simp only [pointer, getALWord, getALByte, h]

/-- Entries with the same pointers have the same pointer bytes.

**Proof sketch.** With sixteen pointers a byte is a pointer. With eight a pointer is two bytes, and
two equal words have equal bytes. -/
lemma al_ext (hp : bps = 8 ∨ bps = 16) (h : ∀ i < bps, u.pointer bps i = v.pointer bps i) :
    u.al = v.al := by
  funext j
  rw [← UInt8.toNat_inj]
  have hbyte : ∀ (e : CpmDir), e.getALByte j = (e.al j).toNat := fun e => by
    rw [getALByte, dif_pos j.isLt]
  rcases hp with rfl | rfl
  · have hw := h (j / 2) (by omega)
    have hu : ∀ (e : CpmDir) (i : ℕ), e.getALByte i < 256 := by
      intro e i
      rw [getALByte]
      split
      · exact UInt8.toNat_lt _
      · omega
    simp only [pointer, getALWord, Nat.reduceEqDiff, if_false] at hw
    have h1 := hu u (2 * (j / 2))
    have h2 := hu v (2 * (j / 2))
    rw [← hbyte, ← hbyte]
    rcases Nat.mod_two_eq_zero_or_one j with hj | hj
    · rw [show j.val = 2 * (j.val / 2) by omega]
      omega
    · rw [show j.val = 2 * (j.val / 2) + 1 by omega]
      omega
  · have hw := h j j.isLt
    simpa [pointer, hbyte] using hw

/-- A pointer fits into its bytes. -/
lemma pointer_lt (e : CpmDir) (bps i : ℕ) :
    e.pointer bps i < if bps = 16 then 256 else 65536 := by
  have hb : ∀ i, e.getALByte i < 256 := by
    intro i
    rw [getALByte]
    split
    · exact UInt8.toNat_lt _
    · omega
  unfold pointer getALWord
  split
  · exact hb i
  · have h1 := hb (2 * i)
    have h2 := hb (2 * i + 1)
    omega

end CpmDir

namespace Bdos

open BitMap Disk

/-- There are eight or sixteen pointers. -/
lemma pointers_cases (d : Dpb) : pointers d = 8 ∨ pointers d = 16 := by
  unfold pointers
  split <;> simp

/-! ## Merging -/

/-- **The directory entry `v` lags behind `u`**: it lacks pointers, but has no others. -/
def Lags (d : Dpb) (v u : CpmDir) : Prop :=
  ∀ i < pointers d, v.pointer (pointers d) i ≠ 0 →
    u.pointer (pointers d) i = v.pointer (pointers d) i

namespace File

variable {d : Dpb}

/-- The rounds of the merging, if the directory lags behind the file control block: every round sets
a pointer of the directory.

**Proof sketch.** Induction on the indices. A pointer of the file control block is zero only if the
one of the directory is, so it stays; the one of the directory is the same, or zero and filled in.
-/
lemma merge_rounds {u : CpmDir} (is : List ℕ) (his : ∀ i ∈ is, i < pointers d) :
    ∀ v : CpmDir, Lags d v u → ∃ al, merge (pointers d) is u v = (true, u, { v with al := al }) ∧
      ∀ j < pointers d, ({ v with al := al } : CpmDir).pointer (pointers d) j =
        if j ∈ is then u.pointer (pointers d) j else v.pointer (pointers d) j := by
  induction is with
  | nil =>
    intro v _
    exact ⟨v.al, rfl, fun j _ => rfl⟩
  | cons i is ih =>
    intro v hlag
    have hi := his i (by simp)
    have hp := pointers_cases d
    have hu := u.pointer_lt (pointers d) i
    have hself : u.setPointer (pointers d) i (u.pointer (pointers d) i) = u := by
      rw [CpmDir.setPointer_eq]
      have hal : (u.setPointer (pointers d) i (u.pointer (pointers d) i)).al = u.al := by
        apply CpmDir.al_ext hp
        intro j hj
        rw [CpmDir.pointer_setPointer hp hi hj hu]
        split
        · rename_i h
          rw [h]
        · rfl
      rw [hal]
    have hfill : (if u.pointer (pointers d) i = 0 then v.pointer (pointers d) i
        else u.pointer (pointers d) i) = u.pointer (pointers d) i := by
      split
      · rename_i h
        by_contra hne
        exact hne ((hlag i hi (by omega)).symm)
      · rfl
    have hback : (if v.pointer (pointers d) i = 0 then u.pointer (pointers d) i
        else v.pointer (pointers d) i) = u.pointer (pointers d) i := by
      split
      · rfl
      · rename_i h
        exact (hlag i hi h).symm
    have hlag' : Lags d (v.setPointer (pointers d) i (u.pointer (pointers d) i)) u := by
      intro j hj hne
      rw [CpmDir.pointer_setPointer hp hi hj hu] at hne ⊢
      split
      · rename_i h
        rw [h]
      · rename_i h
        rw [if_neg h] at hne
        exact hlag j hj hne
    obtain ⟨al, hmerge, hptr⟩ := ih (fun j hj => his j (by simp [hj])) _ hlag'
    refine ⟨al, ?_, ?_⟩
    · rw [merge]
      simp only [hfill, hback, hself, if_true]
      rw [hmerge, CpmDir.setPointer_eq]
    · intro j hj
      have hsame : ({ v with al := al } : CpmDir).pointer (pointers d) j =
          ({ v.setPointer (pointers d) i (u.pointer (pointers d) i) with al := al } :
            CpmDir).pointer (pointers d) j := CpmDir.pointer_congr rfl j
      rw [hsame, hptr j hj, CpmDir.pointer_setPointer hp hi hj hu]
      by_cases hin : j ∈ is
      · simp [hin]
      · by_cases hji : j = i
        · simp [hji]
        · simp [hin, hji]

/-- **Closing merges the newest entry into the directory**, if the directory lags behind it. -/
lemma merge_of_lags {u v : CpmDir} (h : Lags d v u) :
    merge (pointers d) (List.range (pointers d)) u v = (true, u, { v with al := u.al }) := by
  obtain ⟨al, hmerge, hptr⟩ := merge_rounds (List.range (pointers d))
    (fun i hi => List.mem_range.mp hi) v h
  rw [hmerge]
  have hal : al = u.al := by
    have := CpmDir.al_ext (u := { v with al := al }) (v := u) (pointers_cases d) fun i hi => by
      rw [hptr i hi, if_pos (List.mem_range.mpr hi)]
    exact this
  rw [hal]

end File

/-! ## The invariant -/

/-- **A parameter block without an extent mask**, whose directory is in its directory blocks. -/
structure Flat (d : Dpb) : Prop where
  fits : Fits d
  exm : d.exm = 0
  dirs : d.drm / 4 < d.dirBlocks * 2 ^ d.bsh

/-- Both disks of the BIOS are so. -/
lemma flat_of_shipped {g : Geometry} (h : g.Shipped) : Flat g.dpb := by
  refine ⟨fits_of_shipped h, ?_, ?_⟩
  · obtain rfl | rfl := h <;> rfl
  · obtain rfl | rfl := h <;> decide

/-- **An entry of a file that the BDOS can have written**: a plain name, an extent number of nine
bits, at most 128 records, and blocks behind the directory. -/
structure Proper (d : Dpb) (e : CpmDir) : Prop where
  plain : Plain e
  xl : e.xl.toNat < 32
  xh : e.xh.toNat < 16
  rc : e.rc.toNat ≤ 128
  blocks : ∀ i < pointers d, e.pointer (pointers d) i ≠ 0 →
    d.dirBlocks ≤ e.pointer (pointers d) i ∧ e.pointer (pointers d) i ≤ d.dsm

/-- The block is named by an entry of the view. -/
def HasBlock (d : Dpb) (E : ℕ → CpmDir) (b : ℕ) : Prop :=
  b ≠ 0 ∧ ∃ n ≤ d.drm, (E n).Used ∧ ∃ i < pointers d, (E n).pointer (pointers d) i = b

/-- **An orderly view of the directory**: the used entries are proper, no extent of a file is there
twice, no block is named twice, and the blocks of the directory and of the files are marked, and no
others. -/
structure Orderly (d : Dpb) (alv : ℕ → UInt8) (E : ℕ → CpmDir) : Prop where
  proper : ∀ n ≤ d.drm, (E n).Used → Proper d (E n)
  unique : ∀ n ≤ d.drm, ∀ m ≤ d.drm, (E n).Used → (E m).Used → nameOf (E n) = nameOf (E m) →
    extOf (E n) = extOf (E m) → n = m
  apart : ∀ n ≤ d.drm, ∀ m ≤ d.drm, (E n).Used → (E m).Used → ∀ i < pointers d,
    ∀ j < pointers d, (E n).pointer (pointers d) i ≠ 0 →
      (E n).pointer (pointers d) i = (E m).pointer (pointers d) j → n = m ∧ i = j
  marked : ∀ n ≤ d.drm, (E n).Used → ∀ i < pointers d, (E n).pointer (pointers d) i ≠ 0 →
    mem alv ((E n).pointer (pointers d) i) = true
  dirs : ∀ b < d.dirBlocks, mem alv b = true
  tight : ∀ b ≤ d.dsm, mem alv b = true → b < d.dirBlocks ∨ HasBlock d E b

/-- The entry `u` is as new as the entry `v` of the directory: they differ in the pointers and the
record count only, and `v` lags behind. -/
structure Newer (d : Dpb) (v u : CpmDir) : Prop where
  same : u = { v with al := u.al, rc := u.rc }
  count : v.rc.toNat ≤ u.rc.toNat
  lags : Lags d v u

/-- **A sound drive**: it may be written, the disk was not changed, all entries are in front of the
search limit, and the view `E` has the newest entries and is orderly. -/
structure Sound (d : Dpb) (s : Drive) (E : ℕ → CpmDir) : Prop where
  writable : s.wrtPrt = false
  unchanged : s.Unchanged d
  limit : ∀ n ≤ d.drm, s.scratch1 ≤ n → ¬ (s.slot n).Used
  view : ∀ n ≤ d.drm, Newer d (s.slot n) (E n)
  orderly : Orderly d s.alv E

/-- **A file control block holds the newest entry of slot `n`**; if it was not written to, this is
the entry on the disk. -/
structure Attached (d : Dpb) (s : Drive) (E : ℕ → CpmDir) (f : FileFcb) (n : ℕ) : Prop where
  le : n ≤ d.drm
  used : (E n).Used
  name : nameOf f.entry = nameOf (E n)
  xl : f.entry.xl = (E n).xl
  xh : f.entry.xh.toNat % 128 = (E n).xh.toNat
  al : f.entry.al = (E n).al
  rc : f.entry.rc = (E n).rc
  ex : f.entry.ex = (E n).ex
  clean : f.entry.xh &&& 0x80 ≠ 0 → E n = s.slot n

/-- **A stale file control block**, as an error leaves it: no extent has its `S2`, and closing it
changes nothing. -/
def Stale (f : FileFcb) : Prop :=
  16 ≤ f.entry.xh.toNat % 128 ∧ f.entry.xh &&& 0x80 ≠ 0

/-- The slot is unused, or it is of the file of the file control block. -/
def Mine (E : ℕ → CpmDir) (f : FileFcb) (n : ℕ) : Prop :=
  (E n).Used → nameOf (E n) = nameOf f.entry

/-- **The file control block is the only one that may hold newer entries of its file.** -/
structure Coherent (d : Dpb) (s : Drive) (E : ℕ → CpmDir) (f : FileFcb) : Prop where
  plain : Plain f.entry
  mine : ∀ n ≤ d.drm, Mine E f n → E n = s.slot n ∨ Attached d s E f n

/-- **No entry of the file is read-only**, and the file control block is not. -/
def Writable (d : Dpb) (E : ℕ → CpmDir) (f : FileFcb) : Prop :=
  readOnly f.entry = false ∧
    ∀ n ≤ d.drm, (E n).Used → nameOf (E n) = nameOf f.entry → readOnly (E n) = false

/-- **A record of a file is on the disk**, with this content. -/
def Stores (d : Dpb) (s : Drive) (E : ℕ → CpmDir) (k : Fin 12 → ℕ) (r : ℕ) (x : Sector) : Prop :=
  ∃ n ≤ d.drm, (E n).Used ∧ nameOf (E n) = k ∧ extOf (E n) = r / 128 ∧
    r % 128 < (E n).rc.toNat ∧ (E n).pointer (pointers d) (r % 128 / 2 ^ d.bsh) ≠ 0 ∧
    s.sec ((E n).pointer (pointers d) (r % 128 / 2 ^ d.bsh) * 2 ^ d.bsh + r % 128 % 2 ^ d.bsh) = x

/-! ## Consequences -/

section Consequences

variable {d : Dpb} {s s' : Drive} {E : ℕ → CpmDir} {f : FileFcb} {n : ℕ}

/-- A newer entry is in use iff the entry of the directory is. -/
lemma Newer.used_iff {u v : CpmDir} (h : Newer d v u) : u.Used ↔ v.Used := by
  rw [h.same]
  rfl

/-- The name is in the first twelve bytes. -/
lemma nameOf_congr {u v : CpmDir} (h1 : u.st = v.st) (h2 : u.fx = v.fx) (h3 : u.ex = v.ex) :
    nameOf u = nameOf v := by
  funext i
  have hi := i.isLt
  simp only [nameOf, CpmDir.toBytes, h1, h2, h3, hi, dite_true]

/-- A name is plain by its first twelve bytes. -/
lemma Plain.congr {u v : CpmDir} (h : Plain v) (h1 : u.st = v.st) (h2 : u.fx = v.fx)
    (h3 : u.ex = v.ex) : Plain u := by
  refine ⟨h1 ▸ h.user, fun i => ?_⟩
  have hi := i.isLt
  have hclear := h.clear i
  simp only [CpmDir.toBytes, h1, h2, h3, hi, dite_true] at hclear ⊢
  exact hclear

/-- The names of a newer entry. -/
lemma Newer.keys {u v : CpmDir} (h : Newer d v u) : nameOf u = nameOf v ∧ extOf u = extOf v ∧
    u.st = v.st ∧ u.fx = v.fx ∧ u.ex = v.ex ∧ u.xl = v.xl ∧ u.xh = v.xh := by
  have hsame := h.same
  refine ⟨nameOf_congr ?_ ?_ ?_, ?_, ?_, ?_, ?_, ?_, ?_⟩
  all_goals rw [hsame]
  rfl

/-- An entry is as new as itself. -/
lemma Newer.refl (e : CpmDir) : Newer d e e := ⟨rfl, le_rfl, fun _ _ _ => rfl⟩

/-- **Soundness is about the disk and its tables.** -/
lemma Sound.same (h : Sound d s E) (hs : s.SameDisk s') : Sound d s' E := by
  refine ⟨hs.wrtPrt.trans h.writable, ?_, ?_, ?_, hs.alv ▸ h.orderly⟩
  · intro i hi hle
    rw [hs.csv, hs.sec]
    exact h.unchanged i hi hle
  · intro n hn hle
    rw [hs.slot]
    exact h.limit n hn (hs.scratch1 ▸ hle)
  · intro n hn
    rw [hs.slot]
    exact h.view n hn

/-- The view counts up to the end of the directory. -/
lemma Sound.ext {E' : ℕ → CpmDir} (h : Sound d s E) (hE : ∀ n ≤ d.drm, E n = E' n) :
    Sound d s E' := by
  obtain ⟨h1, h2, h3, h4, h5⟩ := h
  refine ⟨h1, h2, h3, fun n hn => hE n hn ▸ h4 n hn, ?_⟩
  refine ⟨fun n hn => ?_, fun n hn m hm => ?_, fun n hn m hm => ?_, fun n hn => ?_, h5.dirs,
    fun b hb hmem => ?_⟩
  · rw [← hE n hn]
    exact h5.proper n hn
  · rw [← hE n hn, ← hE m hm]
    exact h5.unique n hn m hm
  · rw [← hE n hn, ← hE m hm]
    exact h5.apart n hn m hm
  · rw [← hE n hn]
    exact h5.marked n hn
  · refine (h5.tight b hb hmem).imp_right ?_
    rintro ⟨hb0, n, hn, hu⟩
    exact ⟨hb0, n, hn, hE n hn ▸ hu⟩

/-- A search keeps a drive sound. -/
lemma Sound.moved (h : Sound d s E) (hm : s.Moved s') : Sound d s' E := h.same hm.sameDisk

/-- The user of a plain file control block is not the mark of an unused entry. -/
lemma Plain.used {e : CpmDir} (h : Plain e) : e.Used := by
  intro heq
  have := h.user
  rw [heq] at this
  exact absurd this (by decide)

/-- An attached file control block of a file that may be written. -/
lemma Attached.readOnly (h : Attached d s E f n) {g : FileFcb}
    (hw : Writable d E g) (hname : nameOf f.entry = nameOf g.entry) : readOnly f.entry = false := by
  rw [Bdos.readOnly, h.ex]
  exact hw.2 n h.le h.used (h.name.symm.trans hname)

/-- The first byte of the name is the user. -/
lemma nameOf_zero (e : CpmDir) : nameOf e 0 = e.st.toNat % 128 := rfl

/-- An unused entry has the name of no plain file control block. -/
lemma nameOf_ne_of_unused {e g : CpmDir} (hg : Plain g) (he : ¬ e.Used) : nameOf g ≠ nameOf e := by
  intro h
  have h0 := congrFun h 0
  have hst : e.st = CpmDir.UNUSED := not_not.mp he
  have hu := hg.user
  rw [nameOf_zero, nameOf_zero, hst, show CpmDir.UNUSED.toNat = 229 from rfl] at h0
  omega

end Consequences

/-! ## A small disk -/

/-- A parameter block of a disk with four blocks and one directory entry. -/
def tinyDpb : Dpb := ⟨26, 3, 7, 0, 3, 0, 128, 0, 0, 2⟩

/-- An entry with eight records in block 1. -/
def tinyEntry : CpmDir where
  st := 0
  fx := fun _ => ch 'A'
  ex := fun _ => ch 'B'
  xl := 0
  bc := 0
  xh := 0
  rc := 8
  al := fun i => if i = 0 then 1 else 0

/-- A drive with this entry. -/
def tinyDrive : Drive where
  sec := fun i => if i = 0 then Bdos.put (fun _ => 0xe5) 0 tinyEntry else fun _ => 0xe5
  alv := fun i => if i = 0 then 0xc0 else 0
  csv := fun _ => 0
  scratch1 := 1
  wrtPrt := false
  dirBuf := fun _ => 0
  filePos := none
  fndStat := 0
  status := 0
  dma := fun _ => 0

/-- A file control block for it. -/
def tinyFcb : FileFcb := ⟨tinyEntry, 0, 0, 0, 0, fun _ => 0⟩

/-- The entry is on the disk. -/
lemma tiny_slot : tinyDrive.slot 0 = tinyEntry := entryOf_put ..

/-- The parameter block has no extent mask. -/
lemma tiny_flat : Flat tinyDpb :=
  ⟨⟨⟨by decide, by decide, by decide, by decide⟩, by decide, by decide, by decide⟩, by decide,
    by decide⟩

/-- The name is plain. -/
lemma tiny_plain : Plain tinyEntry := ⟨by decide, by decide⟩

/-- The only block of the entry is block 1. -/
lemma tiny_pointer : ∀ i < pointers tinyDpb,
    tinyEntry.pointer (pointers tinyDpb) i = if i = 0 then 1 else 0 := by
  decide

/-- The drive is sound.

**Proof sketch.** The disk has one slot, and its entry has one block; every condition is checked
for these. -/
lemma tiny_sound : Sound tinyDpb tinyDrive tinyDrive.slot := by
  have h0 : ∀ n ≤ tinyDpb.drm, tinyDrive.slot n = tinyEntry := by
    intro n hn
    obtain rfl : n = 0 := Nat.le_zero.mp hn
    exact tiny_slot
  have hp := tiny_pointer
  refine ⟨rfl, fun i hi => absurd hi (by simp [tinyDpb]), fun n hn hle => ?_,
    fun n _ => Newer.refl _, ?_, ?_, ?_, ?_, ?_, ?_⟩
  · obtain rfl : n = 0 := Nat.le_zero.mp hn
    exact absurd hle (by decide)
  · intro n hn _
    rw [h0 n hn]
    refine ⟨tiny_plain, by decide, by decide, by decide, ?_⟩
    decide
  · intro n hn m hm _ _ _ _
    exact (Nat.le_zero.mp hn).trans (Nat.le_zero.mp hm).symm
  · intro n hn m hm _ _ i hi j hj hne heq
    rw [h0 n hn, hp i hi] at hne heq
    rw [h0 m hm, hp j hj] at heq
    refine ⟨(Nat.le_zero.mp hn).trans (Nat.le_zero.mp hm).symm, ?_⟩
    by_cases hi0 : i = 0
    · by_cases hj0 : j = 0
      · rw [hi0, hj0]
      · rw [if_pos hi0, if_neg hj0] at heq
        exact absurd heq (by decide)
    · exact absurd (if_neg hi0) hne
  · intro n hn _ i hi hne
    rw [h0 n hn, hp i hi] at hne ⊢
    by_cases hi0 : i = 0
    · rw [if_pos hi0]
      decide
    · exact absurd (if_neg hi0) hne
  · intro b hb
    obtain rfl : b = 0 := by
      have : tinyDpb.dirBlocks = 1 := by decide
      omega
    decide
  · intro b hb hm
    have hb' : b ≤ 3 := hb
    obtain rfl | rfl | rfl | rfl : b = 0 ∨ b = 1 ∨ b = 2 ∨ b = 3 := by omega
    · exact .inl (by decide)
    · refine .inr ⟨by decide, 0, Nat.zero_le _, ?_⟩
      rw [tiny_slot]
      exact ⟨by decide, 0, by decide, by decide⟩
    · exact absurd hm (by decide)
    · exact absurd hm (by decide)

/-- The drive with an unused entry instead. -/
def tinyBlank : Drive :=
  { tinyDrive with
    sec := fun _ _ => 0xe5
    alv := fun i => if i = 0 then 0x80 else 0
    scratch1 := 0 }

/-- The entry is unused. -/
lemma tinyBlank_unused (n : ℕ) : ¬ (tinyBlank.slot n).Used := not_not.mpr rfl

/-- The empty drive is sound. -/
lemma tinyBlank_sound : Sound tinyDpb tinyBlank tinyBlank.slot := by
  refine ⟨rfl, fun i hi => absurd hi (by simp [tinyDpb]), fun n _ _ => tinyBlank_unused n,
    fun n _ => Newer.refl _, ?_, ?_, ?_, ?_, ?_, ?_⟩
  · exact fun n _ hu => absurd hu (tinyBlank_unused n)
  · exact fun n _ _ _ hu => absurd hu (tinyBlank_unused n)
  · exact fun n _ _ _ hu => absurd hu (tinyBlank_unused n)
  · exact fun n _ hu => absurd hu (tinyBlank_unused n)
  · intro b hb
    obtain rfl : b = 0 := by
      have : tinyDpb.dirBlocks = 1 := by decide
      omega
    decide
  · intro b hb hm
    have hb' : b ≤ 3 := hb
    obtain rfl | rfl | rfl | rfl : b = 0 ∨ b = 1 ∨ b = 2 ∨ b = 3 := by omega
    · exact .inl (by decide)
    · exact absurd hm (by decide)
    · exact absurd hm (by decide)
    · exact absurd hm (by decide)

/-- The small disk with four entries and thirty more blocks, which has room for a second extent. -/
def twinDpb : Dpb := { tinyDpb with drm := 3, dsm := 33 }

/-- It has no extent mask. -/
lemma twin_flat : Flat twinDpb :=
  ⟨⟨⟨by decide, by decide, by decide, by decide⟩, by decide, by decide, by decide⟩, by decide,
    by decide⟩

/-- The blank disk is sound. -/
lemma twinBlank_sound : Sound twinDpb tinyBlank tinyBlank.slot := by
  refine ⟨rfl, fun i hi => absurd hi (by simp [twinDpb, tinyDpb]), fun n _ _ => tinyBlank_unused n,
    fun n _ => Newer.refl _, fun n _ hu => absurd hu (tinyBlank_unused n),
    fun n _ _ _ hu => absurd hu (tinyBlank_unused n),
    fun n _ _ _ hu => absurd hu (tinyBlank_unused n), fun n _ hu => absurd hu (tinyBlank_unused n),
    fun b hb => ?_, fun b hb hm => ?_⟩
  · obtain rfl : b = 0 := by
      have : twinDpb.dirBlocks = 1 := by decide
      omega
    decide
  · have hall : ∀ b < 34, mem tinyBlank.alv b = true → b < twinDpb.dirBlocks := by decide +kernel
    exact .inl (hall b (Nat.lt_succ_of_le hb) hm)

end Bdos

end Cpm22
