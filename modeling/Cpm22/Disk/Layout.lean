import Cpm22.Disk.Import

set_option relaxedAutoImplicit false
set_option autoImplicit false

/-!
# The layout of a disk that is built

What the constructor of `disk` leaves behind: every file of the name map has its extents in the
directory, numbered from 0, with a block for each part of the file, and no block is given twice.

## Main definitions

* `Cpm22.Disk.SameFrame` — two disks agree in everything the constructor does not change.
* `Cpm22.Disk.Numbered` — an entry has the extent number `addfile` gives to extent `d`.
* `Cpm22.Disk.Laid` — the directory holds the first extents of some files.
* `Cpm22.Disk.Built` — the directory holds the files of the name map.
* `Cpm22.Disk.Listed`, `Cpm22.Disk.Sourced` — the files were listed on the host.

## Main results

* `Cpm22.Disk.Laid.addExtents` — the extents of one file.
* `Cpm22.Disk.built_of_build` — a disk that was built has this layout.
* `Cpm22.Disk.sourced_of_build` — its files were listed on the host.
-/

namespace Cpm22

open HostPath HostFs

/-! ## Setting block pointers -/

namespace CpmDir

variable {e : CpmDir} {bps i b v : ℕ}

/-- A pointer that was set is read back, the others stay.

**Proof sketch.** With sixteen pointers a pointer is a byte, and with eight it is two bytes, of
which the other pointers have none. -/
lemma pointer_setPointer (hp : bps = 8 ∨ bps = 16) (hi : i < bps) (hb : b < bps)
    (hv : v < if bps = 16 then 256 else 65536) :
    (e.setPointer bps i v).pointer bps b = if b = i then v else e.pointer bps b := by
  rcases hp with rfl | rfl
  · have hlo : 2 * b < 16 := by omega
    have hhi : 2 * b + 1 < 16 := by omega
    rw [if_neg (by decide)] at hv
    simp only [pointer, setPointer, setALWord, getALWord, getALByte, if_true, dif_pos hlo,
      dif_pos hhi, Nat.reduceEqDiff, if_false]
    by_cases h : b = i
    · subst h
      simp only [if_true, show ¬ 2 * b + 1 = 2 * b by omega, if_false, Nat.toUInt8_eq,
        UInt8.toNat_ofNat']
      omega
    · simp only [h, show ¬ 2 * b = 2 * i by omega, show ¬ 2 * b = 2 * i + 1 by omega,
        show ¬ 2 * b + 1 = 2 * i by omega, if_false]
  · rw [if_pos rfl] at hv
    simp only [pointer, setPointer, setALByte, getALByte, dif_pos hb, if_true, Nat.reduceEqDiff,
      if_false]
    by_cases h : b = i
    · simp only [h, if_true, Nat.toUInt8_eq, UInt8.toNat_ofNat']
      omega
    · simp only [h, if_false]

/-- Setting a pointer changes nothing else of an entry. -/
lemma setPointer_fields (e : CpmDir) (bps i v : ℕ) :
    (e.setPointer bps i v).st = e.st ∧ (e.setPointer bps i v).xl = e.xl ∧
      (e.setPointer bps i v).xh = e.xh ∧ (e.setPointer bps i v).getName = e.getName := by
  unfold setPointer
  split <;> exact ⟨rfl, rfl, rfl, rfl⟩

/-- The entry with the pointers `is` set to the blocks from `v` on. -/
def fill (bps : ℕ) : CpmDir → List ℕ → ℕ → CpmDir
  | e, [], _ => e
  | e, i :: is, v => fill bps (e.setPointer bps i v) is (v + 1)

/-- Filling pointers changes nothing else of an entry. -/
lemma fill_fields (bps : ℕ) (is : List ℕ) : ∀ (e : CpmDir) (v : ℕ),
    (e.fill bps is v).st = e.st ∧ (e.fill bps is v).xl = e.xl ∧
      (e.fill bps is v).xh = e.xh ∧ (e.fill bps is v).getName = e.getName := by
  induction is with
  | nil => exact fun e v => ⟨rfl, rfl, rfl, rfl⟩
  | cons i is ih =>
    intro e v
    obtain ⟨h1, h2, h3, h4⟩ := setPointer_fields e bps i v
    have := ih (e.setPointer bps i v) (v + 1)
    rwa [h1, h2, h3, h4] at this

/-- **The pointers after filling** `i`, `i + 1`, … with consecutive blocks.

**Proof sketch.** Induction on the number of blocks. The first pointer is set to the first block,
and the rest are set to the blocks behind it. -/
lemma pointer_fill (hp : bps = 8 ∨ bps = 16) (m : ℕ) : ∀ (e : CpmDir) (i v b : ℕ), i + m ≤ bps →
    b < bps → v + m ≤ (if bps = 16 then 256 else 65536) →
    (e.fill bps (List.range' i m) v).pointer bps b =
      if i ≤ b ∧ b < i + m then v + (b - i) else e.pointer bps b := by
  induction m with
  | zero =>
    intro e i v b _ _ _
    rw [if_neg (by omega)]
    rfl
  | succ m ih =>
    intro e i v b hi hb hv
    rw [List.range'_succ, fill, ih _ _ _ _ (by omega) hb (by omega),
      pointer_setPointer hp (by omega) hb (by omega)]
    by_cases h1 : i + 1 ≤ b ∧ b < i + 1 + m
    · rw [if_pos h1, if_pos (by omega)]
      omega
    · rw [if_neg h1]
      by_cases h2 : b = i
      · rw [if_pos h2, if_pos (by omega)]
        omega
      · rw [if_neg h2, if_neg (by omega)]

/-- An entry that was never used has no blocks. -/
lemma pointer_empty (bps b : ℕ) : empty.pointer bps b = 0 := by
  have : ∀ i, empty.getALByte i = 0 := fun i => by simp [getALByte, empty]
  simp [pointer, getALWord, this]

end CpmDir

namespace Disk

/-! ## What the constructor does not change -/

/-- The disks agree in everything but the directory, the name map and the free block. These three
are what the constructor fills while it reads the host directory. -/
structure SameFrame (dk dk' : Disk) : Prop where
  path : dk'.path = dk.path
  dpb : dk'.dpb = dk.dpb
  smap : dk'.smap = dk.smap
  bootblock : dk'.bootblock = dk.bootblock
  datastart : dk'.datastart = dk.datastart
  dirstart : dk'.dirstart = dk.dirstart
  cache : dk'.cache = dk.cache
  host : dk'.host = dk.host

/-- Every disk agrees with itself. -/
lemma SameFrame.refl (dk : Disk) : SameFrame dk dk := ⟨rfl, rfl, rfl, rfl, rfl, rfl, rfl, rfl⟩

/-- Agreement is transitive. -/
lemma SameFrame.trans {dk dk' dk'' : Disk} (h : SameFrame dk dk') (h' : SameFrame dk' dk'') :
    SameFrame dk dk'' :=
  ⟨h'.path.trans h.path, h'.dpb.trans h.dpb, h'.smap.trans h.smap, h'.bootblock.trans h.bootblock,
    h'.datastart.trans h.datastart, h'.dirstart.trans h.dirstart, h'.cache.trans h.cache,
    h'.host.trans h.host⟩

/-! ## Files laid out in the directory -/

/-- The entry has the number that `addfile` gives to extent `d`. -/
def Numbered (e : CpmDir) (d : ℕ) : Prop :=
  e.xl = (d &&& 0x0f).toUInt8 ∧ e.xh = ((d >>> 4) &&& 0x1f).toUInt8

/-- The number in arithmetic terms. -/
lemma numbered_iff {e : CpmDir} {d : ℕ} :
    Numbered e d ↔ e.xl.toNat = d % 16 ∧ e.xh.toNat = d / 16 % 32 := by
  have h1 : d &&& 0x0f = d % 16 := Nat.and_two_pow_sub_one_eq_mod d 4
  have h2 : (d >>> 4) &&& 0x1f = d / 16 % 32 := by
    rw [Nat.shiftRight_eq_div_pow]
    exact Nat.and_two_pow_sub_one_eq_mod _ 5
  rw [Numbered, h1, h2, ← UInt8.toNat_inj, ← UInt8.toNat_inj, Nat.toUInt8_eq, Nat.toUInt8_eq,
    UInt8.toNat_ofNat', UInt8.toNat_ofNat']
  omega

/-- Extents below 512 have different numbers. -/
lemma Numbered.inj {e f : CpmDir} {c d : ℕ} (he : Numbered e c) (hf : Numbered f d)
    (hxl : e.xl = f.xl) (hxh : e.xh = f.xh) (hc : c < 512) (hd : d < 512) : c = d := by
  rw [numbered_iff] at he hf
  rw [hxl, hxh] at he
  omega

/-- **The directory holds the first `done k` extents of each file `k`**, whose size is `blocks k`
blocks, and nothing else. -/
structure Laid (dk : Disk) (done blocks : Bytes → ℕ) : Prop where
  len : dk.dir.length = dk.dpb.directoryEntries
  empty : ∀ e ∈ dk.dir, ¬ e.Used → e = CpmDir.empty
  free : dk.dpb.dirBlocks ≤ dk.freeblock ∧ dk.freeblock < dk.dpb.maxBlock
  block : ∀ e ∈ dk.dir, e.Used → ∀ b < dk.dpb.blockPtrType,
    e.pointer dk.dpb.blockPtrType b = 0 ∨
      (dk.dpb.dirBlocks ≤ e.pointer dk.dpb.blockPtrType b ∧
        e.pointer dk.dpb.blockPtrType b < dk.freeblock)
  distinct : DistinctPointers dk.dpb dk.dir
  number : ∀ e ∈ dk.dir, e.Used → ∃ d < done e.getName, d < 512 ∧ Numbered e d
  entered : ∀ k, ∀ d < done k, ∃ e ∈ dk.dir, e.Used ∧ e.getName = k ∧ Numbered e d ∧
    ∀ b < min (blocks k - d * dk.dpb.blockPtrType) dk.dpb.blockPtrType,
      e.pointer dk.dpb.blockPtrType b ≠ 0
  unique : ∀ (i j : ℕ) (e f : CpmDir), dk.dir[i]? = some e → dk.dir[j]? = some f → e.Used →
    f.Used → e.getName = f.getName → e.xl = f.xl → e.xh = f.xh → i = j

/-! ## One extent -/

variable {dk dk' : Disk} {u : UInt8} {name : Bytes}

/-- The loop over the pointers of an entry.

**Proof sketch.** Induction on the pointers. Each round enters the next free block and counts it;
the round that reaches the end of the blocks ends with the fault, so that it was not taken. -/
lemma addBlocks_ok {slot : ℕ} : ∀ {is : List ℕ} {dk dk' : Disk} {e : CpmDir},
    dk.dir[slot]? = some e → dk.freeblock < dk.dpb.maxBlock →
    addBlocks slot is dk = .ok () dk' →
    dk' = { dk with
      dir := dk.dir.set slot (e.fill dk.dpb.blockPtrType is dk.freeblock)
      freeblock := dk.freeblock + is.length } ∧ dk'.freeblock < dk.dpb.maxBlock := by
  intro is
  induction is with
  | nil =>
    intro dk dk' e he hf h
    have h' : dk = dk' := by simpa [addBlocks, pure, EStateM.pure] using h
    subst h'
    obtain ⟨hlt, rfl⟩ := List.getElem?_eq_some_iff.mp he
    exact ⟨by simp [CpmDir.fill], hf⟩
  | cons i is ih =>
    intro dk dk' e he hf h
    have hat : dirAt slot dk = .ok e dk := by simp only [dirAt, he]
    rw [addBlocks, Exc.get_bind, Exc.bind_of_ok hat] at h
    have hlt := (List.getElem?_eq_some_iff.mp he).1
    set dk₁ : Disk := { dk with
      dir := dk.dir.set slot (e.setPointer dk.dpb.blockPtrType i dk.freeblock)
      freeblock := dk.freeblock + 1 } with hdk₁
    have hstep : (if dk.freeblock + 1 ≥ dk.dpb.maxBlock then throw .rethrow
        else addBlocks slot is : DiskM Unit) dk₁ = .ok () dk' := h
    by_cases hmax : dk.freeblock + 1 ≥ dk.dpb.maxBlock
    · rw [if_pos hmax] at hstep
      cases hstep
    · rw [if_neg hmax] at hstep
      have hat₁ : dk₁.dir[slot]? = some (e.setPointer dk.dpb.blockPtrType i dk.freeblock) := by
        rw [hdk₁, List.getElem?_set_self hlt]
      obtain ⟨h1, h2⟩ := ih hat₁ (by rw [hdk₁]; simp only; omega) hstep
      refine ⟨?_, h2⟩
      rw [h1, hdk₁]
      simp only [List.set_set, CpmDir.fill, List.length_cons]
      congr 1
      omega

/-- `NewDir` finds an unused entry. -/
lemma newDir_some {slot : ℕ} (h : dk.newDir = some slot) :
    ∃ e, dk.dir[slot]? = some e ∧ ¬ e.Used := by
  have := (CpmDir.find?_range_some h).2
  cases he : dk.dir[slot]? with
  | none => simp [he] at this
  | some e => exact ⟨e, rfl, by simpa [he] using this⟩

/-- The disk after one extent was entered in `slot`. -/
def withExtent (dk : Disk) (slot : ℕ) (u : UInt8) (name : Bytes) (d n : ℕ) : Disk :=
  { dk with
    dir := dk.dir.set slot ((extentEntry dk.dpb CpmDir.empty u name d n).fill dk.dpb.blockPtrType
      (List.range' 0 n) dk.freeblock)
    freeblock := dk.freeblock + n }

/-- One round of the loop over the extents.

**Proof sketch.** The round found an unused slot, which has an empty entry by the invariant. It
enters the extent and then its pointers (`addBlocks_ok`), which together is `withExtent`. -/
lemma addExtents_succ {done blocks : Bytes → ℕ} (hl : Laid dk done blocks) {todo d rest : ℕ}
    (h : addExtents u name (todo + 1) d rest dk = .ok () dk') :
    ∃ slot e, dk.dir[slot]? = some e ∧ ¬ e.Used ∧
      dk.freeblock + min rest dk.dpb.blockPtrType < dk.dpb.maxBlock ∧
      addExtents u name todo (d + 1) (rest - min rest dk.dpb.blockPtrType)
        (dk.withExtent slot u name d (min rest dk.dpb.blockPtrType)) = .ok () dk' := by
  rw [addExtents, Exc.get_bind] at h
  cases hnew : dk.newDir with
  | none =>
    rw [hnew] at h
    cases h
  | some slot =>
    obtain ⟨e, he, hu⟩ := newDir_some hnew
    have hat : dirAt slot dk = .ok e dk := by simp only [dirAt, he]
    have hempty := hl.empty e (List.mem_of_getElem? he) hu
    rw [hnew] at h
    simp only at h
    rw [Exc.bind_of_ok hat] at h
    set n := min rest dk.dpb.blockPtrType
    set e₁ := extentEntry dk.dpb e u name d n with he₁
    set dk₁ : Disk := { dk with dir := dk.dir.set slot e₁ } with hdk₁
    have hset : setDir slot e₁ dk = .ok () dk₁ := rfl
    rw [Exc.bind_of_ok hset, Exc.bind_ok] at h
    obtain ⟨⟨⟩, dk₂, hb, hrest⟩ := h
    have hlt := (List.getElem?_eq_some_iff.mp he).1
    have hat₁ : dk₁.dir[slot]? = some e₁ := by rw [hdk₁, List.getElem?_set_self hlt]
    obtain ⟨h2, h3⟩ := addBlocks_ok hat₁ hl.free.2 hb
    have hdk₂ : dk₂ = dk.withExtent slot u name d n := by
      rw [h2, hdk₁, he₁, hempty, withExtent]
      simp only [List.set_set, List.range_eq_range', List.length_range']
    rw [hdk₂] at hrest h3
    exact ⟨slot, e, he, hu, h3, hrest⟩

/-- The entry that `addfile` makes for extent `d` with `n` blocks. -/
lemma extent_spec {g : Geometry} (hg : g.Regular) (hdpb : dk.dpb = g.dpb) (u : UInt8)
    (name : Bytes) (d : ℕ) {n : ℕ}
    (hn : n ≤ dk.dpb.blockPtrType) (hfree : dk.freeblock + n < dk.dpb.maxBlock) :
    let e := (extentEntry dk.dpb CpmDir.empty u name d n).fill dk.dpb.blockPtrType
      (List.range' 0 n) dk.freeblock
    e.st = u ∧ e.getName = keyOf u name ∧ Numbered e d ∧ ∀ b < dk.dpb.blockPtrType,
      e.pointer dk.dpb.blockPtrType b = if b < n then dk.freeblock + b else 0 := by
  obtain ⟨h1, h2, h3, h4⟩ := CpmDir.fill_fields dk.dpb.blockPtrType (List.range' 0 n)
    (extentEntry dk.dpb CpmDir.empty u name d n) dk.freeblock
  refine ⟨h1, h4.trans (CpmDir.getName_congr rfl rfl rfl), ⟨h2, h3⟩, fun b hb => ?_⟩
  have hslots := hg.slots
  have hptrs := hg.ptrs
  rw [← hdpb] at hslots hptrs
  rw [CpmDir.pointer_fill hptrs n _ 0 _ b (by omega) hb (by omega)]
  have hzero : (extentEntry dk.dpb CpmDir.empty u name d n).pointer dk.dpb.blockPtrType b = 0 :=
    CpmDir.pointer_empty dk.dpb.blockPtrType b
  simp [hzero]

/-- **The next extent of a file**: the entry `e` of extent `d`, with the `n` blocks from the free
block on, which goes to the unused slot `slot`. -/
structure Next (dk : Disk) (done blocks : Bytes → ℕ) (k : Bytes) (slot d n : ℕ) (e : CpmDir) :
    Prop where
  slot : ∃ old, dk.dir[slot]? = some old ∧ ¬ old.Used
  used : e.Used
  name : e.getName = k
  number : Numbered e d
  count : done k = d
  lt : d < 512
  ptr : ∀ b < dk.dpb.blockPtrType,
    e.pointer dk.dpb.blockPtrType b = if b < n then dk.freeblock + b else 0
  size : n = min (blocks k - d * dk.dpb.blockPtrType) dk.dpb.blockPtrType

section Next

variable {done blocks : Bytes → ℕ} {k : Bytes} {slot d n : ℕ} {e f : CpmDir}

/-- The entries of the directory with the new one. -/
lemma Next.getElem? (h : Next dk done blocks k slot d n e) {i : ℕ}
    (hf : (dk.dir.set slot e)[i]? = some f) :
    (i = slot ∧ f = e) ∨ (i ≠ slot ∧ dk.dir[i]? = some f) := by
  obtain ⟨old, hold, -⟩ := h.slot
  have hlt := (List.getElem?_eq_some_iff.mp hold).1
  rw [List.getElem?_set] at hf
  by_cases hi : slot = i
  · subst hi
    simp only [if_true, hlt] at hf
    exact .inl ⟨rfl, (Option.some.inj hf).symm⟩
  · rw [if_neg hi] at hf
    exact .inr ⟨Ne.symm hi, hf⟩

/-- The new entry is in the directory. -/
lemma Next.mem (h : Next dk done blocks k slot d n e) : e ∈ dk.dir.set slot e := by
  obtain ⟨old, hold, -⟩ := h.slot
  exact List.mem_set (List.getElem?_eq_some_iff.mp hold).1 e

/-- The slot was unused, so the entries in use stay. -/
lemma Next.keep (h : Next dk done blocks k slot d n e) (hf : f ∈ dk.dir) (hfu : f.Used) :
    f ∈ dk.dir.set slot e := by
  obtain ⟨old, hold, hunused⟩ := h.slot
  obtain ⟨i, hi⟩ := List.mem_iff_getElem?.mp hf
  refine List.mem_iff_getElem?.mpr ⟨i, ?_⟩
  rw [List.getElem?_set_ne, hi]
  rintro rfl
  rw [hi, Option.some.injEq] at hold
  exact hunused (hold ▸ hfu)

/-- The blocks of the new entry are those of no other one, which are in front of the free block. -/
lemma Next.apart (h : Next dk done blocks k slot d n e) (hl : Laid dk done blocks) {b c : ℕ}
    (hb : b < dk.dpb.blockPtrType) (hne : e.pointer dk.dpb.blockPtrType b ≠ 0) (hf : f ∈ dk.dir)
    (hfu : f.Used) (hc : c < dk.dpb.blockPtrType) :
    f.pointer dk.dpb.blockPtrType c ≠ e.pointer dk.dpb.blockPtrType b := by
  intro heq
  rw [h.ptr b hb] at hne heq
  split at hne
  · rename_i hbn
    rw [if_pos hbn] at heq
    have := hl.block f hf hfu c hc
    omega
  · exact hne rfl

/-- **No block is named twice** with the new entry. -/
lemma Next.distinct (h : Next dk done blocks k slot d n e) (hl : Laid dk done blocks) :
    DistinctPointers dk.dpb (dk.dir.set slot e) := by
  intro i j f f' b c hi hj hfu hfu' hb hc heq hne
  rcases h.getElem? hi with ⟨rfl, rfl⟩ | ⟨-, hio⟩ <;>
    rcases h.getElem? hj with ⟨rfl, rfl⟩ | ⟨-, hjo⟩
  · refine ⟨rfl, ?_⟩
    rw [h.ptr b hb] at heq hne
    rw [h.ptr c hc] at heq
    split at hne
    · rename_i hbn
      rw [if_pos hbn] at heq
      split at heq <;> omega
    · exact absurd rfl hne
  · exact absurd heq.symm (h.apart hl hb hne (List.mem_of_getElem? hjo) hfu' hc)
  · exact absurd heq (h.apart hl hc (heq ▸ hne) (List.mem_of_getElem? hio) hfu hb)
  · exact hl.distinct i j f f' b c hio hjo hfu hfu' hb hc heq hne

/-- Every entry has a number below the number of extents of its file. -/
lemma Next.numbered (h : Next dk done blocks k slot d n e) (hl : Laid dk done blocks)
    (hf : f ∈ dk.dir.set slot e) (hfu : f.Used) :
    ∃ c < Function.update done k (d + 1) f.getName, c < 512 ∧ Numbered f c := by
  rcases List.mem_or_eq_of_mem_set hf with hf | rfl
  · obtain ⟨c, hc, h1, h2⟩ := hl.number f hf hfu
    refine ⟨c, ?_, h1, h2⟩
    by_cases hk : f.getName = k
    · rw [hk, Function.update_self]
      rw [hk, h.count] at hc
      omega
    · rwa [Function.update_of_ne hk]
  · exact ⟨d, by rw [h.name, Function.update_self]; omega, h.lt, h.number⟩

/-- Every extent has an entry, and its blocks.

**Proof sketch.** An old extent has its old entry, and the new one has the entry that was made,
whose pointers are the blocks that were given out, none of which is 0. -/
lemma Next.entered (h : Next dk done blocks k slot d n e) (hl : Laid dk done blocks)
    (hpos : 0 < dk.freeblock) (k' : Bytes) {c : ℕ} (hc : c < Function.update done k (d + 1) k') :
    ∃ f ∈ dk.dir.set slot e, f.Used ∧ f.getName = k' ∧ Numbered f c ∧
      ∀ b < min (blocks k' - c * dk.dpb.blockPtrType) dk.dpb.blockPtrType,
        f.pointer dk.dpb.blockPtrType b ≠ 0 := by
  by_cases hold : c < done k'
  · obtain ⟨f, hf, h1, h2, h3, h4⟩ := hl.entered k' c hold
    exact ⟨f, h.keep hf h1, h1, h2, h3, h4⟩
  · -- the extent is the new one
    by_cases hk : k' = k
    · subst hk
      rw [Function.update_self] at hc
      obtain rfl : c = d := by
        rw [h.count] at hold
        omega
      refine ⟨e, h.mem, h.used, h.name, h.number, fun b hb => ?_⟩
      have hb' : b < n := h.size ▸ hb
      rw [h.ptr b (by omega), if_pos hb']
      omega
    · rw [Function.update_of_ne hk] at hc
      exact absurd hc hold

/-- **No extent of a file has two entries.** -/
lemma Next.unique (h : Next dk done blocks k slot d n e) (hl : Laid dk done blocks) {i j : ℕ}
    {f' : CpmDir} (hi : (dk.dir.set slot e)[i]? = some f) (hj : (dk.dir.set slot e)[j]? = some f')
    (hfu : f.Used) (hfu' : f'.Used) (hnm : f.getName = f'.getName) (hxl : f.xl = f'.xl)
    (hxh : f.xh = f'.xh) : i = j := by
  -- an entry of the same file that was there before has a smaller extent
  have hother : ∀ f ∈ dk.dir, f.Used → f.getName = e.getName → f.xl = e.xl → f.xh = e.xh →
      False := by
    intro f hf hfu hnm hxl hxh
    obtain ⟨c, hc, hc512, hcn⟩ := hl.number f hf hfu
    have := hcn.inj h.number hxl hxh hc512 h.lt
    rw [hnm, h.name, h.count] at hc
    omega
  rcases h.getElem? hi with ⟨rfl, rfl⟩ | ⟨-, hio⟩ <;>
    rcases h.getElem? hj with ⟨rfl, rfl⟩ | ⟨-, hjo⟩
  · rfl
  · exact (hother f' (List.mem_of_getElem? hjo) hfu' hnm.symm hxl.symm hxh.symm).elim
  · exact (hother f (List.mem_of_getElem? hio) hfu hnm hxl hxh).elim
  · exact hl.unique i j f f' hio hjo hfu hfu' hnm hxl hxh

end Next

/-- **One extent more.**

**Proof sketch.** The new entry goes to a slot that was unused, so every used entry stays where it
is. Its blocks are the next free ones, so they differ from all blocks given before; its number is
the next one of its file, and it is below 512 because each earlier extent took all its blocks. -/
lemma Laid.withExtent {g : Geometry} (hg : g.Regular) (hdpb : dk.dpb = g.dpb)
    {done blocks : Bytes → ℕ} (hl : Laid dk done blocks) (hu : u ≠ CpmDir.UNUSED) {slot : ℕ}
    {old : CpmDir} (hslot : dk.dir[slot]? = some old) (hold : ¬ old.Used) {d n : ℕ}
    (hd : done (keyOf u name) = d) (hfull : d * dk.dpb.blockPtrType ≤ dk.freeblock)
    (hn : n = min (blocks (keyOf u name) - d * dk.dpb.blockPtrType) dk.dpb.blockPtrType)
    (hfree : dk.freeblock + n < dk.dpb.maxBlock) :
    Laid (dk.withExtent slot u name d n) (Function.update done (keyOf u name) (d + 1)) blocks := by
  obtain ⟨hst, hname, hnum, hptr⟩ := extent_spec hg hdpb u name d
    (hn.le.trans (Nat.min_le_right _ _)) hfree
  set e := (extentEntry dk.dpb CpmDir.empty u name d n).fill dk.dpb.blockPtrType
    (List.range' 0 n) dk.freeblock with he
  have hused : e.Used := by rw [CpmDir.Used, hst]; exact hu
  have h512 : d < 512 := by
    have hext := hg.extents
    rw [← hdpb] at hext
    by_contra hge
    have := Nat.mul_le_mul_right dk.dpb.blockPtrType (Nat.not_lt.mp hge)
    omega
  have hfirst : 0 < dk.freeblock := by
    have hfirst := hg.first
    rw [← hdpb] at hfirst
    have := hl.free.1
    omega
  have hnext : Next dk done blocks (keyOf u name) slot d n e :=
    ⟨⟨old, hslot, hold⟩, hused, hname, hnum, hd, h512, hptr, hn⟩
  have hdir : (dk.withExtent slot u name d n).dir = dk.dir.set slot e := rfl
  have hdpb' : (dk.withExtent slot u name d n).dpb = dk.dpb := rfl
  have hmem : ∀ f ∈ dk.dir.set slot e, f = e ∨ f ∈ dk.dir :=
    fun f hf => (List.mem_or_eq_of_mem_set hf).symm
  refine ⟨?_, fun f hf hfu => ?_, ⟨hl.free.1.trans (Nat.le_add_right _ _), hfree⟩,
    fun f hf hfu b hb => ?_, hnext.distinct hl, fun f hf hfu => hnext.numbered hl hf hfu,
    fun k c hc => hnext.entered hl hfirst k hc,
    fun i j f f' hi hj hfu hfu' => hnext.unique hl hi hj hfu hfu'⟩
  · rw [hdir, List.length_set]
    exact hl.len
  · rcases hmem f hf with rfl | hf
    · exact absurd hused hfu
    · exact hl.empty f hf hfu
  · change _ = 0 ∨ _ ∧ _ < dk.freeblock + n
    rw [hdpb'] at hb ⊢
    rcases hmem f hf with rfl | hf
    · rw [hptr b hb]
      have := hl.free.1
      split <;> omega
    · have := hl.block f hf hfu b hb
      omega

/-! ## One file -/

/-- Entering an extent changes only the directory and the free block. -/
lemma sameFrame_withExtent (dk : Disk) (slot : ℕ) (u : UInt8) (name : Bytes) (d n : ℕ) :
    SameFrame dk (dk.withExtent slot u name d n) := ⟨rfl, rfl, rfl, rfl, rfl, rfl, rfl, rfl⟩

/-- **The extents of one file.**

**Proof sketch.** Induction on the number of extents left. Before the last one every extent takes
all its blocks, so the free block stays ahead of the extents entered. -/
theorem Laid.addExtents {g : Geometry} (hg : g.Regular) {blocks : Bytes → ℕ}
    (hu : u ≠ CpmDir.UNUSED) (todo : ℕ) : ∀ {d : ℕ} {done : Bytes → ℕ} {dk : Disk},
    dk.dpb = g.dpb → Laid dk done blocks → done (keyOf u name) = d →
    (todo ≠ 0 → d * g.dpb.blockPtrType ≤ dk.freeblock) →
    d + todo ≤ 1 + blocks (keyOf u name) / g.dpb.blockPtrType →
    addExtents u name todo d (blocks (keyOf u name) - d * g.dpb.blockPtrType) dk = .ok () dk' →
    SameFrame dk dk' ∧ dk'.cpm2unix = dk.cpm2unix ∧
      Laid dk' (Function.update done (keyOf u name) (d + todo)) blocks := by
  induction todo with
  | zero =>
    intro d done dk _ hl hd _ _ h
    have h' : dk = dk' := by simpa [Disk.addExtents, pure, EStateM.pure] using h
    subst h'
    refine ⟨SameFrame.refl dk, rfl, ?_⟩
    rwa [Nat.add_zero, ← hd, Function.update_eq_self]
  | succ todo ih =>
    intro d done dk hdpb hl hd hfull hdirs h
    obtain ⟨slot, e, hslot, hold, hfree, hrest⟩ := addExtents_succ hl h
    rw [hdpb] at hfree hrest
    set bps := g.dpb.blockPtrType with hbps
    set rest := blocks (keyOf u name) - d * bps with hrestdef
    set dk₁ := dk.withExtent slot u name d (min rest bps) with hdk₁
    have hl₁ : Laid dk₁ (Function.update done (keyOf u name) (d + 1)) blocks :=
      hl.withExtent hg hdpb hu hslot hold hd (by rw [hdpb]; exact hfull (by omega))
        (by rw [hdpb]) (by rw [hdpb]; exact hfree)
    have hpos : 0 < bps := hg.ptrs_pos
    have hnext : rest - min rest bps = blocks (keyOf u name) - (d + 1) * bps := by
      rw [Nat.succ_mul]
      omega
    have hfull₁ : todo ≠ 0 → (d + 1) * bps ≤ dk₁.freeblock := by
      intro htodo
      have hle : d + 1 ≤ blocks (keyOf u name) / bps := by omega
      have hmul := (Nat.le_div_iff_mul_le hpos).mp hle
      have hmin : min rest bps = bps := by
        rw [Nat.succ_mul] at hmul
        omega
      change (d + 1) * bps ≤ dk.freeblock + min rest bps
      rw [hmin, Nat.succ_mul]
      have := hfull (by omega)
      omega
    rw [hnext] at hrest
    obtain ⟨h1, h2, h3⟩ := ih (show dk₁.dpb = g.dpb from hdpb) hl₁ (Function.update_self ..)
      hfull₁ (by omega) hrest
    refine ⟨(sameFrame_withExtent dk slot u name d _).trans h1, h2, ?_⟩
    rwa [Function.update_idem, show d + 1 + todo = d + (todo + 1) by omega] at h3

/-- The host directory of a user, as `readhost` names it. -/
def userPath (path : Bytes) (u : UInt8) : Bytes :=
  if u = 0 then path else path ++ slash :: decimal u.toNat

/-- **The directory holds exactly the files of the name map**, and each of them is a regular file
of the host. -/
structure Built (dk₀ dk : Disk) : Prop where
  frame : SameFrame dk₀ dk
  laid : ∃ done blocks, Laid dk done blocks ∧ (∀ k, dk.cpm2unix.lookup k = none → done k = 0) ∧
    ∀ k p, dk.cpm2unix.lookup k = some p → ∃ size, dk.host.stat p = some (.regular size) ∧
      done k = fileDirs dk.dpb size ∧ blocks k = fileBlocks dk.dpb size

section Readdir

variable {readdir : Bytes → Option (List Bytes)} {g : Geometry} {dk₀ : Disk}

/-- No name of the map is lost. -/
def Grows (dk dk' : Disk) : Prop :=
  ∀ k p, dk.cpm2unix.lookup k = some p → dk'.cpm2unix.lookup k = some p

/-- **`addfile`** keeps the layout and enters its file, unless the name is taken.

**Proof sketch.** A name that is taken changes nothing. For a new name the size of its file
replaces what `blocks` says about its key, which has no extents yet; `Laid.addExtents` enters the
extents, and the map gets the name. -/
lemma Built.addfile (hg : g.Regular) (hdpb : dk₀.dpb = g.dpb) (hb : Built dk₀ dk)
    {p : Bytes} (hu : u ≠ CpmDir.UNUSED) (h : Disk.addfile p u name dk = .ok () dk') :
    Built dk₀ dk' ∧ Grows dk dk' ∧ (dk'.cpm2unix.lookup (keyOf u name)).isSome := by
  rw [Disk.addfile, Exc.get_bind] at h
  cases hlook : dk.cpm2unix.lookup (keyOf u name) with
  | some q =>
    rw [hlook] at h
    have h' : dk = dk' := by simpa [pure, EStateM.pure] using h
    subst h'
    exact ⟨hb, fun _ _ hk => hk, by rw [hlook]; rfl⟩
  | none =>
    rw [hlook] at h
    simp only at h
    cases hstat : dk.host.stat p with
    | none =>
      rw [hstat] at h
      cases h
    | some st =>
      rw [hstat] at h
      cases st with
      | directory => cases h
      | other => cases h
      | regular size =>
        simp only at h
        rw [Exc.bind_ok] at h
        obtain ⟨⟨⟩, dk₁, hadd, hset⟩ := h
        have hset' : dk' = { dk₁ with cpm2unix := dk₁.cpm2unix.insert (keyOf u name) p } :=
          (EStateM.Result.ok.inj hset).2.symm
        obtain ⟨done, blocks, hl, hnone, hsome⟩ := hb.laid
        have hdk : dk.dpb = g.dpb := hb.frame.dpb.trans hdpb
        -- the size in blocks of the new file replaces whatever `blocks` says about its key
        have hdone : done (keyOf u name) = 0 := hnone _ hlook
        set blocks' := Function.update blocks (keyOf u name) (fileBlocks dk.dpb size) with hblocks'
        have hl' : Laid dk done blocks' := by
          refine ⟨hl.len, hl.empty, hl.free, hl.block, hl.distinct, hl.number, ?_, hl.unique⟩
          intro k d hd
          have hk : k ≠ keyOf u name := by
            rintro rfl
            omega
          rw [hblocks', Function.update_of_ne hk]
          exact hl.entered k d hd
        have hb' : blocks' (keyOf u name) = fileBlocks dk.dpb size := Function.update_self ..
        have hdirs : fileDirs dk.dpb size ≤ 1 + blocks' (keyOf u name) / g.dpb.blockPtrType := by
          rw [hb', fileDirs, hdk]
          exact Nat.mod_le _ _
        have hadd' : Disk.addExtents u name (fileDirs dk.dpb size) 0
            (blocks' (keyOf u name) - 0 * g.dpb.blockPtrType) dk = .ok () dk₁ := by
          rw [hb', Nat.zero_mul, Nat.sub_zero]
          exact hadd
        obtain ⟨hf, hmap, hl₁⟩ := hl'.addExtents hg hu (fileDirs dk.dpb size) hdk hdone
          (fun _ => by omega) (by omega) hadd'
        rw [Nat.zero_add] at hl₁
        have hlk : ∀ k, dk'.cpm2unix.lookup k =
            if k = keyOf u name then some p else dk.cpm2unix.lookup k := by
          intro k
          rw [hset', ← hmap]
          by_cases hk : k = keyOf u name
          · subst hk
            simp [AList.lookup_insert]
          · simp [hk, AList.lookup_insert_ne hk]
        have hf' : SameFrame dk dk' := by
          rw [hset']
          exact hf.trans ⟨rfl, rfl, rfl, rfl, rfl, rfl, rfl, rfl⟩
        refine ⟨⟨hb.frame.trans hf', ?_⟩, ?_, ?_⟩
        · refine ⟨_, blocks', by rw [hset']; exact ⟨hl₁.len, hl₁.empty, hl₁.free, hl₁.block,
            hl₁.distinct, hl₁.number, hl₁.entered, hl₁.unique⟩, ?_, ?_⟩
          · intro k hk
            rw [hlk] at hk
            by_cases hkk : k = keyOf u name
            · simp [hkk] at hk
            · rw [if_neg hkk] at hk
              rw [Function.update_of_ne hkk]
              exact hnone k hk
          · intro k q hk
            rw [hlk] at hk
            rw [hf'.host, hf'.dpb]
            by_cases hkk : k = keyOf u name
            · rw [if_pos hkk, Option.some.injEq] at hk
              subst hk
              refine ⟨size, hstat, ?_, ?_⟩
              · rw [hkk, Function.update_self]
              · rw [hkk, hb']
            · rw [if_neg hkk] at hk
              obtain ⟨sz, h1, h2, h3⟩ := hsome k q hk
              refine ⟨sz, h1, ?_, ?_⟩
              · rw [Function.update_of_ne hkk, h2]
              · rw [hblocks', Function.update_of_ne hkk, h3]
        · intro k q hk
          rw [hlk, if_neg, hk]
          rintro rfl
          rw [hlook] at hk
          cases hk
        · rw [hlk, if_pos rfl]
          rfl

/-! ## All files -/

/-- The names of a user's directory that become CP/M files. -/
def Importable (host : Host) (path : Bytes) (u : UInt8) (n s : Bytes) : Prop :=
  n ≠ here ∧ n ≠ parentDir ∧ cpmName n = some s ∧
    ∃ size, host.stat (userPath path u ++ slash :: n) = some (.regular size)

/-- One name of a directory.

**Proof sketch.** The names `.` and `..`, directories, other files and names without a CP/M name
are passed, and none of them is importable. A regular file with a name is added by `Built.addfile`.
-/
lemma Built.importName (hg : g.Regular) (hdpb : dk₀.dpb = g.dpb) (hb : Built dk₀ dk)
    (hu : u ≠ CpmDir.UNUSED) {n : Bytes}
    (h : Disk.importName (userPath dk₀.path u) u n dk = .ok () dk') :
    Built dk₀ dk' ∧ Grows dk dk' ∧
      ∀ s, Importable dk₀.host dk₀.path u n s → (dk'.cpm2unix.lookup (keyOf u s)).isSome := by
  rw [Disk.importName, Exc.get_bind] at h
  by_cases hdot : n = here ∨ n = parentDir
  · rw [if_pos hdot] at h
    have h' : dk = dk' := by simpa [pure, EStateM.pure] using h
    subst h'
    exact ⟨hb, fun _ _ hk => hk, fun s hs => absurd hdot (not_or.mpr ⟨hs.1, hs.2.1⟩)⟩
  · rw [if_neg hdot] at h
    rw [not_or] at hdot
    simp only [hb.frame.host] at h
    cases hstat : dk₀.host.stat (userPath dk₀.path u ++ slash :: n) with
    | none =>
      rw [hstat] at h
      cases h
    | some st =>
      rw [hstat] at h
      cases st with
      | directory =>
        have h' : dk = dk' := by simpa [pure, EStateM.pure] using h
        subst h'
        refine ⟨hb, fun _ _ hk => hk, ?_⟩
        rintro s ⟨-, -, -, size, hs⟩
        rw [hstat] at hs
        cases hs
      | other =>
        have h' : dk = dk' := by simpa [pure, EStateM.pure] using h
        subst h'
        refine ⟨hb, fun _ _ hk => hk, ?_⟩
        rintro s ⟨-, -, -, size, hs⟩
        rw [hstat] at hs
        cases hs
      | regular size =>
        cases hc : cpmName n with
        | none =>
          rw [hc] at h
          have h' : dk = dk' := by simpa [pure, EStateM.pure] using h
          subst h'
          refine ⟨hb, fun _ _ hk => hk, ?_⟩
          rintro s ⟨-, -, hs, -⟩
          rw [hc] at hs
          cases hs
        | some s =>
          rw [hc] at h
          obtain ⟨h1, h2, h3⟩ := hb.addfile hg hdpb hu h
          refine ⟨h1, h2, ?_⟩
          rintro s' ⟨-, -, hs', -⟩
          rw [hc, Option.some.injEq] at hs'
          rw [← hs']
          exact h3

/-- The names of a directory.

**Proof sketch.** Induction on the names. Each one is `Built.importName`, and a name that is in the
map stays in it. -/
lemma Built.importNames (hg : g.Regular) (hdpb : dk₀.dpb = g.dpb) (hu : u ≠ CpmDir.UNUSED) :
    ∀ {ns : List Bytes} {dk : Disk}, Built dk₀ dk →
      Disk.importNames (userPath dk₀.path u) u ns dk = .ok () dk' →
      Built dk₀ dk' ∧ Grows dk dk' ∧ ∀ n ∈ ns, ∀ s,
        Importable dk₀.host dk₀.path u n s → (dk'.cpm2unix.lookup (keyOf u s)).isSome := by
  intro ns
  induction ns with
  | nil =>
    intro dk hb h
    have h' : dk = dk' := by simpa [Disk.importNames, pure, EStateM.pure] using h
    subst h'
    exact ⟨hb, fun _ _ hk => hk, by simp⟩
  | cons n ns ih =>
    intro dk hb h
    rw [Disk.importNames, Exc.bind_ok] at h
    obtain ⟨⟨⟩, dk₁, h1, h2⟩ := h
    obtain ⟨hb₁, hg₁, hi₁⟩ := hb.importName hg hdpb hu h1
    obtain ⟨hb₂, hg₂, hi₂⟩ := ih hb₁ h2
    refine ⟨hb₂, fun k p hk => hg₂ k p (hg₁ k p hk), fun m hm s hs => ?_⟩
    rcases List.mem_cons.mp hm with rfl | hm
    · obtain ⟨p, hp⟩ := Option.isSome_iff_exists.mp (hi₁ s hs)
      rw [hg₂ _ p hp]
      rfl
    · exact hi₂ m hm s hs

/-- The directory of one user. -/
lemma Built.readuser (hg : g.Regular) (hdpb : dk₀.dpb = g.dpb) (hu : u ≠ CpmDir.UNUSED)
    (hb : Built dk₀ dk)
    (h : Disk.readuser readdir (userPath dk₀.path u) u dk = .ok () dk') :
    Built dk₀ dk' ∧ Grows dk dk' ∧ ∀ names, readdir (userPath dk₀.path u) = some names →
      ∀ n ∈ names, ∀ s, Importable dk₀.host dk₀.path u n s →
        (dk'.cpm2unix.lookup (keyOf u s)).isSome := by
  rw [Disk.readuser] at h
  cases hr : readdir (userPath dk₀.path u) with
  | none =>
    rw [hr] at h
    cases h
  | some names =>
    rw [hr] at h
    obtain ⟨h1, h2, h3⟩ := Built.importNames hg hdpb hu hb h
    refine ⟨h1, h2, fun names' hn' => ?_⟩
    rw [Option.some.injEq] at hn'
    rw [← hn']
    exact h3

/-- The numbered user directories.

**Proof sketch.** Induction on the users. A user with a directory is read by `Built.readuser`, and
what the map has of earlier ones stays; the others are passed. -/
lemma Built.readusers (hg : g.Regular) (hdpb : dk₀.dpb = g.dpb) : ∀ {us : List UInt8} {dk : Disk},
    (∀ u ∈ us, u ≠ CpmDir.UNUSED ∧ u ≠ 0) → Built dk₀ dk →
    Disk.readusers readdir dk₀.path us dk = .ok () dk' →
    Built dk₀ dk' ∧ Grows dk dk' ∧ ∀ u ∈ us,
      dk₀.host.stat (userPath dk₀.path u) = some .directory →
      ∀ names, readdir (userPath dk₀.path u) = some names → ∀ n ∈ names, ∀ s,
        Importable dk₀.host dk₀.path u n s → (dk'.cpm2unix.lookup (keyOf u s)).isSome := by
  intro us
  induction us with
  | nil =>
    intro dk _ hb h
    have h' : dk = dk' := by simpa [Disk.readusers, pure, EStateM.pure] using h
    subst h'
    exact ⟨hb, fun _ _ hk => hk, by simp⟩
  | cons v us ih =>
    intro dk hus hb h
    obtain ⟨hv, hv0⟩ := hus v (by simp)
    have hpath : dk₀.path ++ slash :: decimal v.toNat = userPath dk₀.path v := by
      rw [userPath, if_neg hv0]
    rw [Disk.readusers, Exc.get_bind] at h
    simp only [hb.frame.host, hpath] at h
    by_cases hdir : dk₀.host.stat (userPath dk₀.path v) = some .directory
    · rw [hdir] at h
      simp only at h
      rw [Exc.bind_ok] at h
      obtain ⟨⟨⟩, dk₁, h1, h2⟩ := h
      obtain ⟨hb₁, hg₁, hi₁⟩ := Built.readuser hg hdpb hv hb h1
      obtain ⟨hb₂, hg₂, hi₂⟩ := ih (fun w hw => hus w (by simp [hw])) hb₁ h2
      refine ⟨hb₂, fun k p hk => hg₂ k p (hg₁ k p hk), fun w hw hst names hn n hmem s hs => ?_⟩
      rcases List.mem_cons.mp hw with rfl | hw
      · obtain ⟨p, hp⟩ := Option.isSome_iff_exists.mp (hi₁ names hn n hmem s hs)
        rw [hg₂ _ p hp]
        rfl
      · exact hi₂ w hw hst names hn n hmem s hs
    · have h' : Disk.readusers readdir dk₀.path us dk = .ok () dk' := by
        cases hst : dk₀.host.stat (userPath dk₀.path v) with
        | none =>
          rw [hst] at h
          exact h
        | some st =>
          rw [hst] at h
          cases st with
          | directory => exact absurd hst hdir
          | regular _ => exact h
          | other => exact h
      obtain ⟨hb₂, hg₂, hi₂⟩ := ih (fun w hw => hus w (by simp [hw])) hb h'
      refine ⟨hb₂, hg₂, fun w hw hst => ?_⟩
      rcases List.mem_cons.mp hw with rfl | hw
      · exact absurd hst hdir
      · exact hi₂ w hw hst

/-- An empty directory is laid out. -/
lemma built_blank (hg : g.Regular) (path : Bytes) (host : Host) :
    Built (blank path g host) (blank path g host) := by
  have hmem : ∀ e ∈ (blank path g host).dir, e = CpmDir.empty :=
    fun e he => List.eq_of_mem_replicate he
  have hunused : ¬ CpmDir.empty.Used := by decide
  have hat : ∀ (i : ℕ) (e : CpmDir), (blank path g host).dir[i]? = some e → ¬ e.Used := by
    intro i e he
    rw [hmem e (List.mem_of_getElem? he)]
    exact hunused
  refine ⟨SameFrame.refl _, ⟨fun _ => 0, fun _ => 0, ⟨?_, ?_, ?_, ?_, ?_, ?_, ?_, ?_⟩,
    fun _ _ => rfl, ?_⟩⟩
  · exact List.length_replicate
  · exact fun e he _ => hmem e he
  · exact ⟨le_refl _, hg.room⟩
  · exact fun e he hu => absurd (hmem e he ▸ hu) hunused
  · exact fun i j e f b c hi hj hu => absurd hu (hat i e hi)
  · exact fun e he hu => absurd (hmem e he ▸ hu) hunused
  · exact fun k d hd => absurd hd (Nat.not_lt_zero d)
  · exact fun i j e f hi hj hu => absurd hu (hat i e hi)
  · exact fun k p hk => nomatch hk

/-- **A disk that was built holds exactly the files of its name map**, and every file of the host
directory that can be a CP/M file has its name in the map.

**Proof sketch.** The constructor reads user 0 and then the numbered users, starting with an empty
disk (`Built.readuser`, `Built.readusers`). What user 0 has entered is kept by the others. -/
theorem built_of_build (hg : g.Regular) {path : Bytes} {host : Host}
    (h : build readdir path g host = .ok () dk) :
    Built (blank path g host) dk ∧ ∀ u names n s,
      (u = 0 ∨ u ∈ users ∧ host.stat (userPath path u) = some .directory) →
      readdir (userPath path u) = some names → n ∈ names → Importable host path u n s →
        (dk.cpm2unix.lookup (keyOf u s)).isSome := by
  rw [build, readhost, Exc.bind_ok] at h
  obtain ⟨⟨⟩, dk₁, h1, h2⟩ := h
  have h1' : Disk.readuser readdir (userPath (blank path g host).path 0) 0 (blank path g host) =
      .ok () dk₁ := h1
  obtain ⟨hb₁, -, hi₁⟩ := Built.readuser (u := 0) hg rfl (by decide) (built_blank hg path host) h1'
  have husers : ∀ u ∈ users, u ≠ CpmDir.UNUSED ∧ u ≠ 0 := by
    refine fun u hu => ⟨?_, ne_zero_of_mem_users hu⟩
    rintro rfl
    exact absurd hu (by decide)
  obtain ⟨hb₂, hg₂, hi₂⟩ := Built.readusers hg rfl husers hb₁ h2
  refine ⟨hb₂, fun u names n s hu hnames hn hs => ?_⟩
  rcases hu with rfl | ⟨hu, hst⟩
  · obtain ⟨p, hp⟩ := Option.isSome_iff_exists.mp (hi₁ names hnames n hn s hs)
    rw [hg₂ _ p hp]
    rfl
  · exact hi₂ u hu hst names hnames n hn s hs

/-! ## Where the names come from -/

/-- The file at `p` is listed in the directory of user `u` under a name with key `k`. -/
def Listed (readdir : Bytes → Option (List Bytes)) (path : Bytes) (u : UInt8) (p k : Bytes) :
    Prop :=
  ∃ names n s, readdir (userPath path u) = some names ∧ n ∈ names ∧ n ≠ here ∧ n ≠ parentDir ∧
    cpmName n = some s ∧ k = keyOf u s ∧ p = userPath path u ++ slash :: n

/-- Every file of the name map was listed on the host. -/
def Sourced (readdir : Bytes → Option (List Bytes)) (path : Bytes) (host : Host) (dk : Disk) :
    Prop :=
  dk.path = path ∧ dk.host = host ∧
    ∀ k p, dk.cpm2unix.lookup k = some p → ∃ u, Listed readdir path u p k

variable {path : Bytes} {host : Host}

/-- Setting block pointers does not touch the name map. -/
lemma sourced_addBlocks (slot : ℕ) (is : List ℕ) :
    Exc.Triple (Sourced readdir path host) (addBlocks slot is)
      (fun _ => Sourced readdir path host) (fun _ => True) := by
  induction is with
  | nil => exact .pure fun _ h => h
  | cons i is ih =>
    refine .bind .get fun dk => .bind (R := fun _ => Sourced readdir path host) ?_ fun e => ?_
    · rintro _ ⟨rfl, h⟩
      cases he : dk.dir[slot]? <;> simp [dirAt, he, h]
    · refine .bind (R := fun _ => Sourced readdir path host) (.modify fun _ h => h) fun _ => ?_
      refine .bind (R := fun _ => Sourced readdir path host) (.modify fun _ h => h) fun _ => ?_
      exact .ite (fun _ => .throw fun _ _ => trivial) fun _ => ih

/-- Entering extents does not touch the name map. -/
lemma sourced_addExtents (u : UInt8) (name : Bytes) (todo : ℕ) : ∀ d blocks,
    Exc.Triple (Sourced readdir path host) (addExtents u name todo d blocks)
      (fun _ => Sourced readdir path host) (fun _ => True) := by
  induction todo with
  | zero => exact fun _ _ => .pure fun _ h => h
  | succ todo ih =>
    intro d blocks
    refine .bind .get fun dk => ?_
    cases dk.newDir with
    | none => exact .throw fun _ _ => trivial
    | some slot =>
      refine .bind (R := fun _ => Sourced readdir path host) ?_ fun e => ?_
      · rintro _ ⟨rfl, h⟩
        cases he : dk.dir[slot]? <;> simp [dirAt, he, h]
      · refine .bind (R := fun _ => Sourced readdir path host) (.modify fun _ h => h) fun _ => ?_
        exact .bind (sourced_addBlocks slot _) fun _ => ih _ _

/-- A file is entered under the path at which it was listed.

**Proof sketch.** A name that is in the map stays as it is. A new one is entered with the path at
which the file was listed. -/
lemma sourced_addfile {p : Bytes} (hp : Listed readdir path u p (keyOf u name)) :
    Exc.Triple (Sourced readdir path host) (addfile p u name)
      (fun _ => Sourced readdir path host) (fun _ => True) := by
  refine .bind .get fun dk => ?_
  cases dk.cpm2unix.lookup (keyOf u name) with
  | some q => exact .pure fun _ h => h.2
  | none =>
    rcases dk.host.stat p with _ | size | _ | _
    · exact .throw fun _ _ => trivial
    · refine .bind ((sourced_addExtents _ _ _ _ _).weaken (fun _ h => h.2) (fun _ _ h => h)
        fun _ h => h) fun _ => .modify ?_
      rintro dk ⟨h1, h2, h3⟩
      refine ⟨h1, h2, fun k q hk => ?_⟩
      by_cases hkk : k = keyOf u name
      · subst hkk
        simp only [AList.lookup_insert, Option.some.injEq] at hk
        exact ⟨u, hk ▸ hp⟩
      · simp only [AList.lookup_insert_ne hkk] at hk
        exact h3 k q hk
    · exact .throw fun _ _ => trivial
    · exact .throw fun _ _ => trivial

/-- The names of a directory.

**Proof sketch.** Induction on the names. A name that is imported is one of the listed names, and
its path is the directory with the name behind it. -/
lemma sourced_importNames {names : List Bytes}
    (hnames : readdir (userPath path u) = some names) {ns : List Bytes}
    (hsub : ∀ n ∈ ns, n ∈ names) :
    Exc.Triple (Sourced readdir path host) (importNames (userPath path u) u ns)
      (fun _ => Sourced readdir path host) (fun _ => True) := by
  induction ns with
  | nil => exact .pure fun _ h => h
  | cons n ns ih =>
    refine .bind ?_ fun _ => ih fun m hm => hsub m (by simp [hm])
    refine .bind .get fun dk => .ite (fun _ => .pure fun _ h => h.2) fun hdot => ?_
    rw [not_or] at hdot
    simp only
    rcases dk.host.stat (userPath path u ++ slash :: n) with _ | size | _ | _
    · exact .throw fun _ _ => trivial
    · cases hc : cpmName n with
      | none => exact .pure fun _ h => h.2
      | some s =>
        exact (sourced_addfile ⟨names, n, s, hnames, hsub n (by simp), hdot.1, hdot.2, hc, rfl,
          rfl⟩).weaken (fun _ h => h.2) (fun _ _ h => h) fun _ h => h
    · exact .pure fun _ h => h.2
    · exact .pure fun _ h => h.2

/-- The directory of one user. -/
lemma sourced_readuser (u : UInt8) :
    Exc.Triple (Sourced readdir path host) (readuser readdir (userPath path u) u)
      (fun _ => Sourced readdir path host) (fun _ => True) := by
  unfold readuser
  cases hr : readdir (userPath path u) with
  | none => exact .throw fun _ _ => trivial
  | some names => exact sourced_importNames hr fun _ hn => hn

/-- The numbered user directories. -/
lemma sourced_readusers : ∀ us : List UInt8, (∀ u ∈ us, u ≠ 0) →
    Exc.Triple (Sourced readdir path host) (readusers readdir path us)
      (fun _ => Sourced readdir path host) (fun _ => True) := by
  intro us
  induction us with
  | nil => exact fun _ => .pure fun _ h => h
  | cons v us ih =>
    intro hus
    have hpath : path ++ slash :: decimal v.toNat = userPath path v := by
      rw [userPath, if_neg (hus v (by simp))]
    have hrest := (ih fun w hw => hus w (by simp [hw]))
    refine .bind .get fun dk => ?_
    simp only [hpath]
    rcases dk.host.stat (userPath path v) with _ | size | _ | _
    · exact hrest.weaken (fun _ h => h.2) (fun _ _ h => h) fun _ h => h
    · exact hrest.weaken (fun _ h => h.2) (fun _ _ h => h) fun _ h => h
    · exact .bind ((sourced_readuser v).weaken (fun _ h => h.2) (fun _ _ h => h) fun _ h => h)
        fun _ => hrest
    · exact hrest.weaken (fun _ h => h.2) (fun _ _ h => h) fun _ h => h

/-- The disk before the import maps no file. -/
lemma sourced_blank : Sourced readdir path host (blank path g host) :=
  ⟨rfl, rfl, fun _ _ hk => nomatch hk⟩

/-- **Every file of a disk that was built was listed on the host**, for any geometry. -/
theorem sourced_of_build (h : build readdir path g host = .ok () dk) :
    Sourced readdir path host dk := by
  have hread : Exc.Triple (Sourced readdir path host) (readhost readdir path)
      (fun _ => Sourced readdir path host) (fun _ => True) :=
    .bind (sourced_readuser 0) fun _ => sourced_readusers users fun _ => ne_zero_of_mem_users
  have hfinal := hread (blank path g host) sourced_blank
  rw [build] at h
  rw [h] at hfinal
  exact hfinal

/-- A listed file belongs to its key, since the names of a directory have no slash. -/
lemma Listed.denotes (hpath : path ≠ [])
    (hslash : ∀ d ns, readdir d = some ns → ∀ n ∈ ns, slash ∉ n) {p k : Bytes}
    (h : Listed readdir path u p k) : Denotes path p k := by
  obtain ⟨names, n, s, hnames, hn, h1, h2, hs, rfl, rfl⟩ := h
  have hne : n ≠ [] := by
    rintro rfl
    cases hs
  have hplain : Plain n := ⟨hne, h1, h2, hslash _ _ hnames n hn⟩
  by_cases hu : u = 0
  · subst hu
    exact denotes_root hpath hplain hs
  · rw [userPath, if_neg hu]
    exact denotes_user hpath hu hplain hs

end Readdir

end Disk

end Cpm22
