import Cpm22.Lib.BitMap
import Cpm22.Lib.Outward
import Cpm22.Disk.Pointers

set_option relaxedAutoImplicit false
set_option autoImplicit false

/-!
# The allocation map of the BDOS

The BDOS keeps one bit for every block of a drive in the allocation vector of the BIOS: block 0 is
the highest bit of the first byte. `CKBITMAP` rotates the bit of a block into the lowest place,
`STBITMAP` puts it back, `SETFILE` does so for all blocks of a directory entry, and `FNDSPACE` looks
for a free block near a given one and marks it.

The registers of the routines are the arguments and results here, with the names they have in
`bdos.asm`; the allocation vector is the table of the bytes behind `ALOCVECT`.

## Main definitions

* `Cpm22.Bdos.ckBitMap`, `Cpm22.Bdos.stBitMap`, `Cpm22.Bdos.stbMap1` — one block.
* `Cpm22.Bdos.setFileMap` — the blocks of a directory entry.
* `Cpm22.Bdos.fndSpace` — the search for a free block.

## Main results

* `Cpm22.Bdos.ckOffset_eq` — the byte of a block.
* `Cpm22.Bdos.stBitMap_eq` — `STBITMAP` replaces the bit of a block.
* `Cpm22.Bdos.mem_setFileMap` — what `SETFILE` sets or clears.
* `Cpm22.Bdos.fndSpace_eq` — `FNDSPACE` is a search outward from the block.
* `Cpm22.Bdos.fndSpace_nearest` — what it finds and marks.
-/

namespace Cpm22

namespace Bdos

open BitMap

/-! ## One block -/

/-- The offset that `CKBITMAP` computes in `BC`, byte by byte: the low byte is rotated right and
masked, the low bits of the high byte are shifted in above it. -/
def ckOffset (bc : UInt16) : UInt16 :=
  let c := bc.toUInt8
  let b := (bc >>> 8).toUInt8
  let low := ((fun a => a + a)^[5] b) ||| (rotr^[3] c &&& 0x1f)
  let high := rotr^[3] b &&& 0x1f
  low.toUInt16 ||| (high.toUInt16 <<< 8)

/-- **`CKBITMAP`**: the rotated byte in `A`, the number of rotations in `D`, the offset of the byte
in `HL`. -/
def ckBitMap (alv : ℕ → UInt8) (bc : UInt16) : UInt8 × ℕ × ℕ :=
  let d := ((bc.toUInt8 &&& 7) + 1).toNat
  let hl := (ckOffset bc).toNat
  (rotl^[d] (alv hl), d, hl)

/-- **`STBMAP1`**: the byte is rotated back and stored. -/
def stbMap1 (alv : ℕ → UInt8) (a : UInt8) (d hl : ℕ) : ℕ → UInt8 :=
  Function.update alv hl (rotr^[d] a)

/-- **`STBITMAP`**: the bit of the block becomes `e`. -/
def stBitMap (alv : ℕ → UInt8) (bc : UInt16) (e : Bool) : ℕ → UInt8 :=
  let r := ckBitMap alv bc
  stbMap1 alv ((r.1 &&& 0xfe) ||| if e then 1 else 0) r.2.1 r.2.2

/-- The upper five bits of a byte, by three rotations. -/
lemma toNat_rotr_three (c : UInt8) : (rotr^[3] c &&& 0x1f).toNat = c.toNat / 8 := by
  have hmask : ∀ j < 8, Nat.testBit 0x1f j = decide (j < 5) := by decide
  apply Nat.eq_of_testBit_eq
  intro j
  have hdiv : (c.toNat / 8).testBit j = bitAt c (j + 3) := by
    rw [show c.toNat / 8 = c.toNat >>> 3 from (Nat.shiftRight_eq_div_pow _ 3).symm,
      Nat.testBit_shiftRight, Nat.add_comm]
    rfl
  rw [hdiv, UInt8.toNat_and, Nat.testBit_and]
  rcases Nat.lt_or_ge j 8 with hj | hj
  · rw [show UInt8.toNat 0x1f = 0x1f from rfl, hmask j hj,
      show (rotr^[3] c).toNat.testBit j = bitAt (rotr^[3] c) j from rfl, bitAt_rotr_iterate _ _ hj]
    rcases Nat.lt_or_ge j 5 with h5 | h5
    · simp [h5, Nat.mod_eq_of_lt (show j + 3 < 8 by omega)]
    · have hnot : ¬ j < 5 := by omega
      simp [hnot, bitAt_of_ge c (show 8 ≤ j + 3 by omega)]
  · have hz : Nat.testBit (UInt8.toNat 0x1f) j = false := bitAt_of_ge 0x1f hj
    rw [hz, Bool.and_false, bitAt_of_ge c (show 8 ≤ j + 3 by omega)]

/-- A byte doubled five times. -/
lemma toNat_double_five (b : UInt8) : ((fun a => a + a)^[5] b).toNat = 32 * (b.toNat % 8) := by
  simp only [Function.iterate_succ, Function.iterate_zero, Function.comp_apply, id_eq,
    UInt8.toNat_add]
  omega

/-- **The offset is the number of the block over eight.** -/
lemma ckOffset_eq (bc : UInt16) : (ckOffset bc).toNat = bc.toNat / 8 := by
  have hbc := bc.toNat_lt
  have hc : bc.toUInt8.toNat = bc.toNat % 256 := by simp
  have hb : (bc >>> 8).toUInt8.toNat = bc.toNat / 256 := by
    simp [Nat.shiftRight_eq_div_pow]
    omega
  have hlow : ((fun a => a + a)^[5] (bc >>> 8).toUInt8 ||| (rotr^[3] bc.toUInt8 &&& 0x1f)).toNat =
      32 * (bc.toNat / 256 % 8) + bc.toNat % 256 / 8 := by
    rw [UInt8.toNat_or, toNat_double_five, toNat_rotr_three, hc, hb]
    exact (Nat.two_pow_add_eq_or_of_lt (i := 5) (by omega) _).symm
  simp only [ckOffset]
  rw [toNat_word, hlow, toNat_rotr_three, hb]
  omega

/-- The number of rotations is the place of the block in its byte, plus one. -/
lemma ckShift_eq (bc : UInt16) : ((bc.toUInt8 &&& 7) + 1).toNat = bc.toNat % 8 + 1 := by
  have hmask : (bc.toUInt8 &&& 7).toNat = bc.toNat % 8 := by
    rw [UInt8.toNat_and, show UInt8.toNat 7 = 2 ^ 3 - 1 from rfl, Nat.and_two_pow_sub_one_eq_mod,
      UInt16.toNat_toUInt8]
    omega
  rw [UInt8.toNat_add, hmask, show UInt8.toNat 1 = 1 from rfl]
  omega

/-- What `CKBITMAP` returns. -/
lemma ckBitMap_eq (alv : ℕ → UInt8) (bc : UInt16) :
    ckBitMap alv bc = (rotl^[bc.toNat % 8 + 1] (alv (bc.toNat / 8)), bc.toNat % 8 + 1,
      bc.toNat / 8) := by
  simp only [ckBitMap, ckShift_eq, ckOffset_eq]

/-- **The lowest bit that `CKBITMAP` returns is the bit of the block.** -/
lemma bitAt_ckBitMap (alv : ℕ → UInt8) (bc : UInt16) :
    bitAt (ckBitMap alv bc).1 0 = mem alv bc.toNat := by
  rw [ckBitMap_eq, mem_eq_rotl]

/-- **`STBITMAP` replaces the bit of the block.** -/
lemma stBitMap_eq (alv : ℕ → UInt8) (bc : UInt16) (e : Bool) :
    stBitMap alv bc e = BitMap.put alv bc.toNat e := by
  simp only [stBitMap, ckBitMap_eq]
  rfl

/-! ## The blocks of an entry -/

/-- The block numbers of an entry, as many as `BIGDISK` says. -/
def entryBlocks (d : Dpb) (ent : CpmDir) : List ℕ :=
  (List.range (pointers d)).map (ent.pointer (pointers d))

/-- **`SETFILE`**: the bits of the blocks of an entry become `e`, except for block number zero and
for numbers behind the end of the disk. -/
def setFileMap (d : Dpb) (ent : CpmDir) (e : Bool) (alv : ℕ → UInt8) : ℕ → UInt8 :=
  (entryBlocks d ent).foldl (fun v b =>
    if b = 0 then v else if b ≤ d.dsm then stBitMap v (UInt16.ofNat b) e else v) alv

/-- The block belongs to the entry, as `SETFILE` sees it. -/
def Owns (d : Dpb) (ent : CpmDir) (b : ℕ) : Prop := b ≠ 0 ∧ b ≤ d.dsm ∧ b ∈ entryBlocks d ent

instance (d : Dpb) (ent : CpmDir) (b : ℕ) : Decidable (Owns d ent b) :=
  inferInstanceAs (Decidable (_ ∧ _ ∧ _))

/-- The walk over a list of block numbers.

**Proof sketch.** Induction on the list. A block that occurs again behind the first one is set by
the rest. Otherwise the first block sets its own bit only, or it is passed because it is 0 or no
block of the disk. -/
lemma mem_foldl_stBitMap {d : Dpb} (hd : d.dsm < 65536) (e : Bool) (m : ℕ) (bs : List ℕ) :
    ∀ alv, mem (bs.foldl (fun v b =>
        if b = 0 then v else if b ≤ d.dsm then stBitMap v (UInt16.ofNat b) e else v) alv) m =
      if m ≠ 0 ∧ m ≤ d.dsm ∧ m ∈ bs then e else mem alv m := by
  induction bs with
  | nil => simp
  | cons b bs ih =>
    intro alv
    rw [List.foldl_cons, ih]
    by_cases hm : m ≠ 0 ∧ m ≤ d.dsm ∧ m ∈ bs
    · rw [if_pos hm, if_pos ⟨hm.1, hm.2.1, List.mem_cons_of_mem _ hm.2.2⟩]
    · rw [if_neg hm]
      by_cases hb : b ≠ 0 ∧ b ≤ d.dsm
      · have hof : (UInt16.ofNat b).toNat = b := by
          rw [UInt16.toNat_ofNat']
          omega
        rw [if_neg hb.1, if_pos hb.2, stBitMap_eq, hof, mem_put]
        by_cases hmb : m = b
        · rw [if_pos hmb, if_pos ⟨hmb ▸ hb.1, hmb ▸ hb.2, by simp [hmb]⟩]
        · rw [if_neg hmb, if_neg]
          rintro ⟨h0, hle, hin⟩
          exact hm ⟨h0, hle, (List.mem_cons.mp hin).resolve_left hmb⟩
      · have hskip : (if b = 0 then alv else if b ≤ d.dsm then stBitMap alv (UInt16.ofNat b) e
            else alv) = alv := by
          split
          · rfl
          · rw [if_neg (by tauto)]
        rw [hskip, if_neg]
        rintro ⟨h0, hle, hin⟩
        rcases List.mem_cons.mp hin with rfl | hin
        · exact hb ⟨h0, hle⟩
        · exact hm ⟨h0, hle, hin⟩

/-- **What `SETFILE` does to the map**: the blocks of the entry get the bit, the others keep
theirs. -/
theorem mem_setFileMap {d : Dpb} (hd : d.dsm < 65536) (ent : CpmDir) (e : Bool) (alv : ℕ → UInt8)
    (m : ℕ) : mem (setFileMap d ent e alv) m = if Owns d ent m then e else mem alv m :=
  mem_foldl_stBitMap hd e m _ alv

/-! ## Searching for a free block -/

/-- The test of `FNDSPACE`: `RRA` moves the bit of the block into the carry. -/
def taken (alv : ℕ → UInt8) (bc : UInt16) : Bool := bitAt (ckBitMap alv bc).1 0

/-- `FNDSPA3`: the bit is set with `INC A`, and the byte is put back. -/
def take (alv : ℕ → UInt8) (bc : UInt16) : ℕ → UInt8 :=
  let r := ckBitMap alv bc
  stbMap1 alv (r.1 + 1) r.2.1 r.2.2

/-- The block below. -/
lemma toNat_pred {bc : UInt16} (h : bc ≠ 0) : (bc - 1).toNat = bc.toNat - 1 := by
  have hpos : bc.toNat ≠ 0 := fun hz => h (UInt16.toNat_inj.mp hz)
  have h1 : UInt16.toNat 1 = 1 := rfl
  have hlt := bc.toNat_lt
  rw [UInt16.toNat_sub, h1]
  omega

/-- The block above. -/
lemma toNat_succ {de n : UInt16} (h : de < n) : (de + 1).toNat = de.toNat + 1 := by
  have hlt : de.toNat < n.toNat := UInt16.lt_iff_toNat_lt.mp h
  have hn := n.toNat_lt
  have h1 : UInt16.toNat 1 = 1 := rfl
  rw [UInt16.toNat_add, h1]
  omega

/-- The lower pointer after a round. -/
def lower (bc : UInt16) : UInt16 := if bc = 0 then 0 else bc - 1

/-- The lower pointer goes down to zero. -/
lemma toNat_lower (bc : UInt16) : (lower bc).toNat = bc.toNat - 1 := by
  rw [lower]
  split
  · rename_i h
    rw [h]
    rfl
  · rename_i h
    exact toNat_pred h

/-- **`FNDSPACE`**, with the lower pointer in `BC` and the upper one in `DE`: the block that was
found, or zero, and the map. -/
def fndSpace (alv : ℕ → UInt8) (dskSize bc de : UInt16) : UInt16 × (ℕ → UInt8) :=
  -- FNDSPA1 looks below, unless block 0 was reached
  if bc ≠ 0 ∧ taken alv (bc - 1) = false then (bc - 1, take alv (bc - 1))
  -- FNDSPA2 looks above, up to the end of the disk
  else if de < dskSize then
    if taken alv (de + 1) = false then (de + 1, take alv (de + 1))
    else fndSpace alv dskSize (lower bc) (de + 1)
  -- FNDSPA4 goes on below
  else if lower bc = 0 then (0, alv)
  else fndSpace alv dskSize (lower bc) de
termination_by bc.toNat + (dskSize.toNat - de.toNat)
decreasing_by
  · rename_i hup _
    have := UInt16.lt_iff_toNat_lt.mp hup
    rw [toNat_lower, toNat_succ hup]
    omega
  · rename_i hlow
    have hpos : (lower bc).toNat ≠ 0 := fun hz => hlow (UInt16.toNat_inj.mp hz)
    rw [toNat_lower] at hpos ⊢
    omega

/-- The test is the bit of the block. -/
lemma taken_eq (alv : ℕ → UInt8) (bc : UInt16) : taken alv bc = mem alv bc.toNat :=
  bitAt_ckBitMap alv bc

/-- **`FNDSPA3` marks the block.** -/
lemma take_eq {alv : ℕ → UInt8} {bc : UInt16} (h : taken alv bc = false) :
    take alv bc = BitMap.put alv bc.toNat true := by
  simp only [take]
  rw [add_one_eq_withLow h, ckBitMap_eq]
  rfl

/-- A block is free for the search iff its bit is clear. -/
lemma free_iff (alv : ℕ → UInt8) (bc : UInt16) :
    (!mem alv bc.toNat) = true ↔ taken alv bc = false := by
  rw [taken_eq, Bool.not_eq_true']

/-- A word is not zero. -/
lemma toNat_pos {bc : UInt16} : 0 < bc.toNat ↔ bc ≠ 0 := by
  rw [Nat.pos_iff_ne_zero, ne_eq, ne_eq, not_iff_not, ← UInt16.toNat_inj]
  rfl

/-- **`FNDSPACE` is a search outward**, that marks what it finds.

**Proof sketch.** Induction along the search of the BDOS; the pointers are the same numbers in both
searches, since the lower one stops at zero and the upper one at the end of the disk. -/
lemma fndSpace_eq (alv : ℕ → UInt8) (dskSize bc de : UInt16) : fndSpace alv dskSize bc de =
    match Outward.search (fun b => !mem alv b) dskSize.toNat bc.toNat de.toNat with
    | some b => (UInt16.ofNat b, BitMap.put alv b true)
    | none => (0, alv) := by
  -- what the lower half of a round looks at
  have hbelow : ∀ bc : UInt16, (0 < bc.toNat ∧ (!mem alv (bc.toNat - 1)) = true) ↔
      (bc ≠ 0 ∧ taken alv (bc - 1) = false) := by
    intro bc
    rw [toNat_pos]
    refine and_congr_right fun h => ?_
    rw [← toNat_pred h, free_iff]
  fun_induction fndSpace alv dskSize bc de with
  | case1 bc de h =>
    rw [Outward.search, if_pos ((hbelow bc).mpr h), ← toNat_pred h.1, take_eq h.2]
    simp only [UInt16.ofNat_toNat]
  | case2 bc de h hup hfree =>
    have hfree' := (free_iff alv (de + 1)).mpr hfree
    rw [toNat_succ hup] at hfree'
    rw [Outward.search, if_neg (mt (hbelow bc).mp h), if_pos (UInt16.lt_iff_toNat_lt.mp hup),
      if_pos hfree', ← toNat_succ hup, take_eq hfree]
    simp only [UInt16.ofNat_toNat]
  | case3 bc de h hup htaken ih =>
    have htaken' := mt (free_iff alv (de + 1)).mp htaken
    rw [toNat_succ hup] at htaken'
    rw [Outward.search, if_neg (mt (hbelow bc).mp h), if_pos (UInt16.lt_iff_toNat_lt.mp hup),
      if_neg htaken', ih, toNat_lower, toNat_succ hup]
  | case4 bc de h hup hlow =>
    have hlow' : bc.toNat - 1 = 0 := by
      rw [← toNat_lower, hlow]
      rfl
    rw [Outward.search, if_neg (mt (hbelow bc).mp h), if_neg (mt UInt16.lt_iff_toNat_lt.mpr hup),
      if_pos hlow']
  | case5 bc de h hup hlow ih =>
    have hlow' : bc.toNat - 1 ≠ 0 := by
      rw [← toNat_lower]
      exact fun hz => hlow (UInt16.toNat_inj.mp hz)
    rw [Outward.search, if_neg (mt (hbelow bc).mp h), if_neg (mt UInt16.lt_iff_toNat_lt.mpr hup),
      if_neg hlow', ih, toNat_lower]

/-- The blocks that a search from block `t` can find. -/
def InReach (dskSize : UInt16) (t b : ℕ) : Prop := b ≠ t ∧ (b < t ∨ b ≤ dskSize.toNat)

/-- **What `FNDSPACE` returns**, by what the search outward finds.

**Proof sketch.** By `fndSpace_eq` the routine returns what the search outward finds and marks it.
A block that is found is below the size of the disk, so that it fits into 16 bits. -/
lemma fndSpace_cases (alv : ℕ → UInt8) (dskSize bc : UInt16) :
    (Outward.search (fun b => !mem alv b) dskSize.toNat bc.toNat bc.toNat = none ∧
      fndSpace alv dskSize bc bc = (0, alv)) ∨
    ∃ b : UInt16,
      Outward.search (fun b => !mem alv b) dskSize.toNat bc.toNat bc.toNat = some b.toNat ∧
      (fndSpace alv dskSize bc bc).1 = b ∧
      ∀ m, mem (fndSpace alv dskSize bc bc).2 m = (decide (m = b.toNat) || mem alv m) := by
  have hbc := bc.toNat_lt
  have hdsk := dskSize.toNat_lt
  rw [fndSpace_eq]
  cases hs : Outward.search (fun b => !mem alv b) dskSize.toNat bc.toNat bc.toNat with
  | none => exact .inl ⟨rfl, rfl⟩
  | some b =>
    right
    obtain ⟨-, -, hle, -⟩ := Outward.search_nearest hs
    have hof : (UInt16.ofNat b).toNat = b := by
      rw [UInt16.toNat_ofNat']
      omega
    refine ⟨UInt16.ofNat b, by rw [hof], rfl, fun m => ?_⟩
    rw [hof, mem_put]
    by_cases hm : m = b <;> simp [hm]

section Search

variable {alv : ℕ → UInt8} {dskSize bc : UInt16}

/-- A search that finds nothing has seen every block. -/
lemma taken_of_search
    (hs : Outward.search (fun b => !mem alv b) dskSize.toNat bc.toNat bc.toNat = none)
    {b : ℕ} (hb : InReach dskSize bc.toNat b) : mem alv b = true := by
  have hnone := Outward.search_eq_none_iff.mp hs b (by
    unfold InReach at hb
    unfold Outward.Ahead
    omega)
  simpa using hnone

/-- What a search finds is free. -/
lemma free_of_search {b : ℕ}
    (hs : Outward.search (fun b => !mem alv b) dskSize.toNat bc.toNat bc.toNat = some b) :
    InReach dskSize bc.toNat b ∧ mem alv b = false := by
  obtain ⟨hfree, hne, hle, -⟩ := Outward.search_nearest hs
  exact ⟨⟨hne, hle⟩, by simpa using hfree⟩

end Search

/-- **`FNDSPACE` finds a nearest free block and marks it.** From every block and with every map, the
search fails only if no block but the starting one is free, and then the map stays as it is.
Otherwise the result is free, no other free block is nearer to the starting one, of two equally near
ones it is the lower, and its bit is the only one that changes.

**Proof sketch.** The search is `Outward.search`, from one block to both sides. -/
theorem fndSpace_nearest (alv : ℕ → UInt8) (dskSize bc : UInt16) :
    ((∀ b, InReach dskSize bc.toNat b → mem alv b = true) ∧
      fndSpace alv dskSize bc bc = (0, alv)) ∨
    ∃ b : UInt16, InReach dskSize bc.toNat b.toNat ∧ mem alv b.toNat = false ∧
      (∀ b', InReach dskSize bc.toNat b' → mem alv b' = false →
        Nat.dist b.toNat bc.toNat ≤ Nat.dist b' bc.toNat ∧
        (Nat.dist b.toNat bc.toNat = Nat.dist b' bc.toNat → b.toNat ≤ b')) ∧
      (fndSpace alv dskSize bc bc).1 = b ∧
      ∀ m, mem (fndSpace alv dskSize bc bc).2 m = (decide (m = b.toNat) || mem alv m) := by
  rcases fndSpace_cases alv dskSize bc with ⟨hs, heq⟩ | ⟨b, hs, hres, hmap⟩
  · exact .inl ⟨fun b hb => taken_of_search hs hb, heq⟩
  · right
    obtain ⟨hreach, hfree⟩ := free_of_search hs
    obtain ⟨-, -, -, hmin⟩ := Outward.search_nearest hs
    refine ⟨b, hreach, hfree, fun b' hb' hfree' => ?_, hres, hmap⟩
    exact hmin b' hb'.1 hb'.2 (by simpa using hfree')

end Bdos

end Cpm22
