import Cpm22.Bdos.AllocMap
import Cpm22.Disk.Import

set_option relaxedAutoImplicit false
set_option autoImplicit false

/-!
# The numbers of records and where records are

A record of a file has a number of sixteen bits, which random access takes from the bytes `R0` and
`R1` of the file control block. `POSITION` splits it into the record of an extent, the extent byte
and the byte `S2`; `COMPRAND` puts it together again. `GETBLOCK`, `EXTBLK` and `LOGICAL` find the
sector of a record of an extent.

## Main definitions

* `Cpm22.Bdos.FileFcb` — a file control block with the bytes of record access.
* `Cpm22.Bdos.Place`, `Cpm22.Bdos.posRecord` — a record as `POSITION` splits it.
* `Cpm22.Bdos.comPRand` — the record number of `COMPRAND`.
* `Cpm22.Bdos.getBlock`, `Cpm22.Bdos.comBlk`, `Cpm22.Bdos.logical` — the sector of a record.
* `Cpm22.Bdos.Fits` — a parameter block that the arithmetic of the BDOS is made for.

## Main results

* `Cpm22.Bdos.posRecord_comPRand` — splitting and putting together are inverse to each other.
* `Cpm22.Bdos.recordSector_inj` — the records of an entry have different sectors, each in its block.
-/

namespace Cpm22

namespace Bdos

open BitMap

/-! ## File control blocks -/

/-- **A file control block** with the bytes that record access uses: the directory part, the current
record `CR`, the record number `R0`, `R1`, `R2`, and the bytes of memory behind them. -/
structure FileFcb where
  entry : CpmDir
  cr : UInt8
  r0 : UInt8
  r1 : UInt8
  r2 : UInt8
  behind : ℕ → UInt8

/-- A byte of a file control block. -/
def FileFcb.byte (f : FileFcb) (i : ℕ) : UInt8 :=
  if h : i < 32 then f.entry.toBytes ⟨i, h⟩
  else if i = 32 then f.cr
  else if i = 33 then f.r0
  else if i = 34 then f.r1
  else if i = 35 then f.r2
  else f.behind (i - 36)

/-- **`EXTBLK`**: the block number at an index, a byte or a word by `BIGDISK`. -/
def FileFcb.extBlk (d : Dpb) (f : FileFcb) (bc : ℕ) : ℕ :=
  if select d ≠ 0 then (f.byte (16 + bc)).toNat
  else (f.byte (16 + bc + bc)).toNat + 256 * (f.byte (16 + bc + bc + 1)).toNat

/-- A byte of the block numbers. -/
lemma FileFcb.byte_pointer (f : FileFcb) {i : ℕ} (hi : i < 16) :
    (f.byte (16 + i)).toNat = f.entry.getALByte i := by
  have hlt : 16 + i < 32 := by omega
  rw [FileFcb.byte, dif_pos hlt, CpmDir.getALByte, dif_pos hi]
  simp only [CpmDir.toBytes, show ¬ 16 + i < 1 by omega, show ¬ 16 + i < 9 by omega,
    show ¬ 16 + i < 12 by omega, show ¬ 16 + i = 12 by omega, show ¬ 16 + i = 13 by omega,
    show ¬ 16 + i = 14 by omega, show ¬ 16 + i = 15 by omega, dite_false, if_false,
    Nat.add_sub_cancel_left]

/-- **`EXTBLK` returns the pointers of the entry.** -/
lemma FileFcb.extBlk_eq {d : Dpb} (hd : d.Legal) (f : FileFcb) {i : ℕ} (hi : i < pointers d) :
    f.extBlk d i = f.entry.pointer (pointers d) i := by
  rw [FileFcb.extBlk, select_eq hd]
  unfold pointers at *
  by_cases h : d.dsm < 256
  · rw [if_pos h] at hi
    simp [h, CpmDir.pointer, f.byte_pointer hi]
  · rw [if_neg h] at hi
    have hlow := f.byte_pointer (i := 2 * i) (by omega)
    have hhigh := f.byte_pointer (i := 2 * i + 1) (by omega)
    rw [show 16 + 2 * i = 16 + i + i by omega] at hlow
    rw [show 16 + (2 * i + 1) = 16 + i + i + 1 by omega] at hhigh
    simp [h, CpmDir.pointer, CpmDir.getALWord, hlow, hhigh]

/-! ## Record numbers -/

/-- **A record as the BDOS addresses it**: the record of the extent, the extent byte, the byte
`S2`. -/
structure Place where
  cr : UInt8
  ext : UInt8
  s2 : UInt8
  deriving DecidableEq

/-- **`POSITN1`**: the record number in `R0` and `R1` is split. `RLA` shifts bit 7 of `R0` into the
extent, and four times `RRA` leaves the upper half of `R1`. -/
def posRecord (r0 r1 : UInt8) : Place where
  cr := r0 &&& 0x7f
  ext := ((r1 <<< 1) ||| (r0 >>> 7)) &&& 0x1f
  s2 := (r1 >>> 4) &&& 0x0f

/-- **`COMPRAND`**: the bytes `R0`, `R1`, `R2` of a record. The last one has the carries of the
fourth doubling of `S2` and of the addition to `R1`. -/
def comPRand (p : Place) : UInt8 × UInt8 × UInt8 :=
  let low := (rotr p.ext &&& 0x80).toNat + p.cr.toNat
  let b : UInt8 := (rotr p.ext &&& 0x0f) + (0 + UInt8.ofNat (low / 256))
  let s16 := (fun a : UInt8 => a + a)^[4] p.s2
  let carry := ((fun a : UInt8 => a + a)^[3] p.s2).toNat + ((fun a : UInt8 => a + a)^[3] p.s2).toNat
  let high := s16.toNat + b.toNat
  (UInt8.ofNat low, UInt8.ofNat high, UInt8.ofNat (carry / 256) ||| UInt8.ofNat (high / 256))

/-- The number of a record. -/
def Place.number (p : Place) : ℕ := p.cr.toNat + 128 * p.ext.toNat + 4096 * p.s2.toNat

/-- **A proper place**: a record of an extent of 128, an extent byte of five bits, and four bits in
`S2`. -/
def Place.Proper (p : Place) : Prop := p.cr.toNat < 128 ∧ p.ext.toNat < 32 ∧ p.s2.toNat < 16

instance (p : Place) : Decidable p.Proper := inferInstanceAs (Decidable (_ ∧ _ ∧ _))

/-- The low bits of a byte. -/
lemma toNat_and_mask (a : UInt8) (k : ℕ) (m : UInt8) (hm : m.toNat = 2 ^ k - 1) :
    (a &&& m).toNat = a.toNat % 2 ^ k := by
  rw [UInt8.toNat_and, hm, Nat.and_two_pow_sub_one_eq_mod]

/-- **The parts that `POSITION` splits off**, as numbers. -/
lemma posRecord_toNat (r0 r1 : UInt8) :
    (posRecord r0 r1).cr.toNat = r0.toNat % 128 ∧
    (posRecord r0 r1).ext.toNat = (2 * r1.toNat + r0.toNat / 128) % 32 ∧
    (posRecord r0 r1).s2.toNat = r1.toNat / 16 := by
  have h0 := r0.toNat_lt
  have h1 := r1.toNat_lt
  have hone : UInt8.toNat 1 % 8 = 1 := rfl
  have hseven : UInt8.toNat 7 % 8 = 7 := rfl
  have hfour : UInt8.toNat 4 % 8 = 4 := rfl
  refine ⟨toNat_and_mask r0 7 0x7f rfl, ?_, ?_⟩
  · simp only [posRecord]
    rw [toNat_and_mask _ 5 0x1f rfl, UInt8.toNat_or, UInt8.toNat_shiftLeft,
      UInt8.toNat_shiftRight, hone, hseven, Nat.shiftLeft_eq, Nat.shiftRight_eq_div_pow]
    have heven : r1.toNat * 2 ^ 1 % 2 ^ 8 = 2 ^ 1 * (r1.toNat % 128) := by omega
    rw [heven, ← Nat.two_pow_add_eq_or_of_lt (by omega)]
    omega
  · simp only [posRecord]
    rw [toNat_and_mask _ 4 0x0f rfl, UInt8.toNat_shiftRight, hfour, Nat.shiftRight_eq_div_pow]
    omega

/-- A byte rotated right, without its highest bits.

**Proof sketch.** A rotation brings bit 0 into bit 7 and divides the others by two. Bit 7 and the
four lowest bits are read off from this. -/
lemma toNat_rotr_and (a : UInt8) : (rotr a &&& 0x80).toNat = 128 * (a.toNat % 2) ∧
    (rotr a &&& 0x0f).toNat = a.toNat / 2 % 16 := by
  have ha := a.toNat_lt
  have hrot : (rotr a).toNat = 128 * (a.toNat % 2) + a.toNat / 2 := by
    have hshift : a.toNat <<< (UInt8.toNat 7 % 8) % 2 ^ 8 = 2 ^ 7 * (a.toNat % 2) := by
      rw [show UInt8.toNat 7 % 8 = 7 from rfl, Nat.shiftLeft_eq]
      omega
    rw [rotr, UInt8.toNat_or, UInt8.toNat_shiftRight, UInt8.toNat_shiftLeft, hshift, Nat.or_comm,
      show UInt8.toNat 1 % 8 = 1 from rfl, Nat.shiftRight_eq_div_pow,
      ← Nat.two_pow_add_eq_or_of_lt (by omega)]
  constructor
  · rw [UInt8.toNat_and, show UInt8.toNat 0x80 = 2 ^ 7 from rfl, Nat.and_two_pow]
    have hbit : (rotr a).toNat.testBit 7 = decide (a.toNat % 2 = 1) := by
      rw [Nat.testBit_eq_decide_div_mod_eq, hrot]
      congr 1
      apply propext
      omega
    rw [hbit]
    rcases Nat.mod_two_eq_zero_or_one a.toNat with h | h <;> simp [h]
  · rw [toNat_and_mask _ 4 0x0f rfl, hrot]
    omega

/-- **The number that `COMPRAND` computes**, in three bytes: with bit 4 of `S2` clear it is the
number of the record, also behind the last record of an extent; bit 7 of `S2` does not count. -/
lemma comPRand_number (p : Place) (h : p.s2.toNat / 16 % 2 = 0) :
    (comPRand p).1.toNat + 256 * (comPRand p).2.1.toNat + 65536 * (comPRand p).2.2.toNat =
      p.cr.toNat + 128 * (p.ext.toNat % 32) + 4096 * (p.s2.toNat % 16) := by
  have hr := p.cr.toNat_lt
  have hs := p.s2.toNat_lt
  obtain ⟨h80, h0f⟩ := toNat_rotr_and p.ext
  have hs8 : ((fun a : UInt8 => a + a)^[3] p.s2).toNat = 8 * (p.s2.toNat % 32) := by
    simp only [Function.iterate_succ, Function.iterate_zero, Function.comp_apply, id_eq,
      UInt8.toNat_add]
    omega
  have hs16 : ((fun a : UInt8 => a + a)^[4] p.s2).toNat = 16 * (p.s2.toNat % 16) := by
    simp only [Function.iterate_succ, Function.iterate_zero, Function.comp_apply, id_eq,
      UInt8.toNat_add]
    omega
  have hcarry : (8 * (p.s2.toNat % 32) + 8 * (p.s2.toNat % 32)) / 256 = 0 := by omega
  have hzero : UInt8.toNat 0 = 0 := rfl
  simp only [comPRand, UInt8.toNat_or, UInt8.toNat_add, UInt8.toNat_ofNat', h80, h0f, hs8, hs16,
    hcarry, hzero, Nat.zero_mod, Nat.zero_or]
  omega

/-- Three bytes are determined by the number they make. -/
lemma bytes_inj {t u : UInt8 × UInt8 × UInt8}
    (h : t.1.toNat + 256 * t.2.1.toNat + 65536 * t.2.2.toNat =
      u.1.toNat + 256 * u.2.1.toNat + 65536 * u.2.2.toNat) : t = u := by
  have ht := t.1.toNat_lt
  have ht' := t.2.1.toNat_lt
  have hu := u.1.toNat_lt
  have hu' := u.2.1.toNat_lt
  rw [Prod.ext_iff, Prod.ext_iff, ← UInt8.toNat_inj, ← UInt8.toNat_inj, ← UInt8.toNat_inj]
  omega

/-- A proper place is determined by its number. -/
lemma Place.Proper.inj {p q : Place} (hp : p.Proper) (hq : q.Proper) (h : p.number = q.number) :
    p = q := by
  obtain ⟨hp1, hp2, hp3⟩ := hp
  obtain ⟨hq1, hq2, hq3⟩ := hq
  unfold Place.number at h
  have hcr : p.cr = q.cr := UInt8.toNat_inj.mp (by omega)
  have hext : p.ext = q.ext := UInt8.toNat_inj.mp (by omega)
  have hs2 : p.s2 = q.s2 := UInt8.toNat_inj.mp (by omega)
  cases p
  cases q
  simp_all

/-- The place of a record number. -/
lemma posRecord_proper (r0 r1 : UInt8) : (posRecord r0 r1).Proper ∧
    (posRecord r0 r1).number = r0.toNat + 256 * r1.toNat := by
  have h0 := r0.toNat_lt
  have h1 := r1.toNat_lt
  obtain ⟨hcr, hext, hs2⟩ := posRecord_toNat r0 r1
  refine ⟨⟨by omega, by omega, by omega⟩, ?_⟩
  rw [Place.number, hcr, hext, hs2]
  omega

/-- The record number of a proper place, whether or not bit 7 of `S2` is set. -/
lemma comPRand_of_proper {p : Place} (hp : p.Proper) (flag : UInt8)
    (hflag : flag = 0 ∨ flag = 0x80) :
    (comPRand { p with s2 := p.s2 ||| flag }).1.toNat +
      256 * (comPRand { p with s2 := p.s2 ||| flag }).2.1.toNat +
      65536 * (comPRand { p with s2 := p.s2 ||| flag }).2.2.toNat = p.number := by
  obtain ⟨h1, h2, h3⟩ := hp
  have hor : (p.s2 ||| flag).toNat = p.s2.toNat + flag.toNat := by
    rcases hflag with rfl | rfl
    · simp
    · rw [UInt8.toNat_or, show UInt8.toNat 0x80 = 2 ^ 7 * 1 from rfl, Nat.or_comm,
        ← Nat.two_pow_add_eq_or_of_lt (by omega)]
      omega
  have hflag' : flag.toNat = 0 ∨ flag.toNat = 128 := by
    rcases hflag with rfl | rfl
    · exact .inl rfl
    · exact .inr rfl
  rw [comPRand_number _ (by rw [hor]; omega), Place.number]
  simp only [hor]
  omega

/-- **Splitting a record number and putting it together are inverse to each other.** Every record
number below 65536 is split into a proper place, from which `COMPRAND` computes it again without
overflow; every proper place is what `POSITION` makes of its number; and the flag in bit 7 of `S2`
does not change the number.

**Proof sketch.** Both directions are equations of numbers. The split has the number that was split
(`posRecord_proper`), `COMPRAND` computes the number of a place (`comPRand_of_proper`), and a
proper place is the only one with its number. -/
theorem posRecord_comPRand :
    (∀ r0 r1, (posRecord r0 r1).Proper ∧ comPRand (posRecord r0 r1) = (r0, r1, 0)) ∧
    ∀ p : Place, p.Proper → ∀ flag : UInt8, flag = 0 ∨ flag = 0x80 →
      (comPRand { p with s2 := p.s2 ||| flag }).2.2 = 0 ∧
      posRecord (comPRand { p with s2 := p.s2 ||| flag }).1
        (comPRand { p with s2 := p.s2 ||| flag }).2.1 = p := by
  constructor
  · intro r0 r1
    obtain ⟨hproper, hnum⟩ := posRecord_proper r0 r1
    refine ⟨hproper, ?_⟩
    have hcomp := comPRand_of_proper hproper 0 (.inl rfl)
    simp only [UInt8.or_zero] at hcomp
    exact bytes_inj (hcomp.trans hnum)
  · intro p hp flag hflag
    have hnum := comPRand_of_proper hp flag hflag
    obtain ⟨h1, h2, h3⟩ := id hp
    have hlt : p.number < 65536 := by
      unfold Place.number
      omega
    have hover : (comPRand { p with s2 := p.s2 ||| flag }).2.2.toNat = 0 := by omega
    obtain ⟨hproper, hnum'⟩ := posRecord_proper (comPRand { p with s2 := p.s2 ||| flag }).1
      (comPRand { p with s2 := p.s2 ||| flag }).2.1
    refine ⟨UInt8.toNat_inj.mp hover, hproper.inj hp ?_⟩
    omega

/-! ## The sector of a record -/

/-- **A parameter block that the arithmetic of the BDOS is made for**: one that CP/M allows, with
the block mask that belongs to the block shift, as many records in an entry as its extents have, and
sector numbers of sixteen bits. -/
structure Fits (d : Dpb) : Prop where
  legal : d.Legal
  blm : d.blm = 2 ^ d.bsh - 1
  exm : (d.exm + 1) * 128 = pointers d * 2 ^ d.bsh
  sectors : (d.dsm + 1) * 2 ^ d.bsh ≤ 65536

/-- **`GETBLOCK`**: the index of the block of a record, from the record `SAVNREC` and the extent
`SAVEXT`; the loops shift by the block shift and by seven less it. -/
def getBlock (d : Dpb) (savNRec savExt : UInt8) : UInt8 :=
  (fun a : UInt8 => a <<< 1)^[7 - d.bsh] savExt + (fun a : UInt8 => a >>> 1)^[d.bsh] savNRec

/-- **`COMBLK`**: the block of a record. -/
def comBlk (d : Dpb) (f : FileFcb) (savNRec savExt : UInt8) : ℕ :=
  f.extBlk d (getBlock d savNRec savExt).toNat

/-- **`LOGICAL`**: the first sector of a block (`LOGSECT`), and the sector of the record in it. -/
def logical (d : Dpb) (savNRec : UInt8) (blkNmbr : UInt16) : UInt16 × UInt16 :=
  let logSect := (fun hl : UInt16 => hl + hl)^[d.bsh] blkNmbr
  (logSect, logSect ||| (savNRec &&& UInt8.ofNat d.blm).toUInt16)

/-- The sector of a record, by `COMBLK` and `LOGICAL`. -/
def recordSector (d : Dpb) (f : FileFcb) (savNRec savExt : UInt8) : ℕ :=
  (logical d savNRec (UInt16.ofNat (comBlk d f savNRec savExt))).2.toNat

/-- A byte shifted right several times. -/
lemma toNat_shiftRight_iterate (k : ℕ) (a : UInt8) :
    ((fun a : UInt8 => a >>> 1)^[k] a).toNat = a.toNat / 2 ^ k := by
  induction k generalizing a with
  | zero => simp
  | succ k ih =>
    rw [Function.iterate_succ_apply, ih, UInt8.toNat_shiftRight,
      show UInt8.toNat 1 % 8 = 1 from rfl,
      Nat.shiftRight_eq_div_pow, Nat.div_div_eq_div_mul, ← Nat.pow_add, Nat.add_comm]

/-- A byte shifted left several times, if nothing is shifted out. -/
lemma toNat_shiftLeft_iterate (k : ℕ) (a : UInt8) (h : a.toNat * 2 ^ k < 256) :
    ((fun a : UInt8 => a <<< 1)^[k] a).toNat = a.toNat * 2 ^ k := by
  induction k generalizing a with
  | zero => simp
  | succ k ih =>
    have hpos := Nat.two_pow_pos k
    have hone : (a <<< 1).toNat = a.toNat * 2 := by
      have hle : a.toNat * 2 ≤ a.toNat * 2 ^ (k + 1) := by
        apply Nat.mul_le_mul_left
        rw [Nat.pow_succ]
        omega
      rw [UInt8.toNat_shiftLeft, show UInt8.toNat 1 % 8 = 1 from rfl, Nat.shiftLeft_eq]
      omega
    have hmul : a.toNat * 2 * 2 ^ k = a.toNat * 2 ^ (k + 1) := by
      rw [Nat.pow_succ, Nat.mul_assoc, Nat.mul_comm 2]
    rw [Function.iterate_succ_apply, ih _ (by rw [hone, hmul]; exact h), hone, hmul]

/-- A word doubled several times, if nothing is shifted out. -/
lemma toNat_double_iterate (k : ℕ) (a : UInt16) (h : a.toNat * 2 ^ k < 65536) :
    ((fun hl : UInt16 => hl + hl)^[k] a).toNat = a.toNat * 2 ^ k := by
  induction k generalizing a with
  | zero => simp
  | succ k ih =>
    have hpos := Nat.two_pow_pos k
    have hone : (a + a).toNat = a.toNat * 2 := by
      have hle : a.toNat * 2 ≤ a.toNat * 2 ^ (k + 1) := by
        apply Nat.mul_le_mul_left
        rw [Nat.pow_succ]
        omega
      rw [UInt16.toNat_add]
      omega
    have hmul : a.toNat * 2 * 2 ^ k = a.toNat * 2 ^ (k + 1) := by
      rw [Nat.pow_succ, Nat.mul_assoc, Nat.mul_comm 2]
    rw [Function.iterate_succ_apply, ih _ (by rw [hone, hmul]; exact h), hone, hmul]

/-- There are at most sixteen pointers. -/
lemma pointers_le (d : Dpb) : pointers d ≤ 16 := by
  unfold pointers
  split <;> omega

section Fits

variable {d : Dpb} (hd : Fits d)

include hd

/-- The records of a block. -/
lemma Fits.pow_cases : 2 ^ d.bsh * 2 ^ (7 - d.bsh) = 128 := by
  have := hd.legal.bsh_le
  rw [← Nat.pow_add, show d.bsh + (7 - d.bsh) = 7 by omega]

/-- The index of the block of a record is the index of a pointer. -/
lemma Fits.index_lt {ext rec : ℕ} (hext : ext ≤ d.exm) (hrec : rec < 128) :
    ext * 2 ^ (7 - d.bsh) + rec / 2 ^ d.bsh < pointers d := by
  have hpow := hd.pow_cases
  have hexm := hd.exm
  have hpos := Nat.two_pow_pos d.bsh
  have hlt : ext * 2 ^ (7 - d.bsh) + rec / 2 ^ d.bsh < (d.exm + 1) * 2 ^ (7 - d.bsh) := by
    have hdiv : rec / 2 ^ d.bsh < 2 ^ (7 - d.bsh) := by
      rw [Nat.div_lt_iff_lt_mul hpos, Nat.mul_comm, hpow]
      exact hrec
    have hle : (ext + 1) * 2 ^ (7 - d.bsh) ≤ (d.exm + 1) * 2 ^ (7 - d.bsh) :=
      Nat.mul_le_mul_right _ (by omega)
    rw [Nat.succ_mul] at hle
    omega
  have hsame : (d.exm + 1) * 2 ^ (7 - d.bsh) = pointers d := by
    apply Nat.eq_of_mul_eq_mul_right hpos
    rw [← hexm, Nat.mul_assoc, Nat.mul_comm (2 ^ (7 - d.bsh)), hpow]
  omega

/-- **`GETBLOCK` as a number**: the records in front, over the records of a block. -/
lemma toNat_getBlock {rec ext : UInt8} (hext : ext.toNat ≤ d.exm) (hrec : rec.toNat < 128) :
    (getBlock d rec ext).toNat = ext.toNat * 2 ^ (7 - d.bsh) + rec.toNat / 2 ^ d.bsh := by
  have hlt : ext.toNat * 2 ^ (7 - d.bsh) + rec.toNat / 2 ^ d.bsh < 2 ^ 8 :=
    (hd.index_lt hext hrec).trans_le ((pointers_le d).trans (by omega))
  have hleft := (Nat.le_add_right (ext.toNat * 2 ^ (7 - d.bsh)) _).trans_lt hlt
  rw [getBlock, UInt8.toNat_add, toNat_shiftLeft_iterate _ _ hleft, toNat_shiftRight_iterate,
    Nat.mod_eq_of_lt hlt]

/-- The block of a record is the pointer at its index. -/
lemma comBlk_eq (f : FileFcb) {rec ext : UInt8} (hext : ext.toNat ≤ d.exm)
    (hrec : rec.toNat < 128) : comBlk d f rec ext =
      f.entry.pointer (pointers d) (ext.toNat * 2 ^ (7 - d.bsh) + rec.toNat / 2 ^ d.bsh) := by
  rw [comBlk, toNat_getBlock hd hext hrec, f.extBlk_eq hd.legal (hd.index_lt hext hrec)]

/-- **`LOGICAL` as numbers**: the first sector of the block, and the record behind it.

**Proof sketch.** Each shift doubles the block number, and no doubling overflows, since all sectors
of the disk have numbers below 65536. The lower bits are free then, so that adding the record is an
or. -/
lemma logical_toNat (rec : UInt8) {blk : ℕ} (hblk : blk ≤ d.dsm) :
    (logical d rec (UInt16.ofNat blk)).1.toNat = blk * 2 ^ d.bsh ∧
    (logical d rec (UInt16.ofNat blk)).2.toNat = blk * 2 ^ d.bsh + rec.toNat % 2 ^ d.bsh := by
  have hpos := Nat.two_pow_pos d.bsh
  have hdsm := hd.legal.dsm_lt
  have hle : (blk + 1) * 2 ^ d.bsh ≤ 65536 :=
    (Nat.mul_le_mul_right _ (by omega)).trans hd.sectors
  rw [Nat.succ_mul] at hle
  have hof : (UInt16.ofNat blk).toNat = blk := by
    rw [UInt16.toNat_ofNat']
    omega
  have hfirst : ((fun hl : UInt16 => hl + hl)^[d.bsh] (UInt16.ofNat blk)).toNat =
      blk * 2 ^ d.bsh := by
    rw [toNat_double_iterate _ _ (by rw [hof]; omega), hof]
  refine ⟨hfirst, ?_⟩
  have hmask : (rec &&& UInt8.ofNat d.blm).toNat = rec.toNat % 2 ^ d.bsh := by
    apply toNat_and_mask
    have hle7 : 2 ^ d.bsh ≤ 2 ^ 7 := Nat.pow_le_pow_right (by omega) hd.legal.bsh_le
    rw [UInt8.toNat_ofNat', hd.blm]
    omega
  simp only [logical]
  rw [UInt16.toNat_or, hfirst, UInt8.toNat_toUInt16, hmask, Nat.mul_comm,
    ← Nat.two_pow_add_eq_or_of_lt (Nat.mod_lt _ hpos)]

/-- **The sector of a record** whose block is on the disk. -/
lemma recordSector_eq (f : FileFcb) {rec ext : UInt8} (hblk : comBlk d f rec ext ≤ d.dsm) :
    recordSector d f rec ext = comBlk d f rec ext * 2 ^ d.bsh + rec.toNat % 2 ^ d.bsh :=
  (logical_toNat hd _ hblk).2

omit hd in
/-- The quotient by the records of a block is the block, the remainder the record in it. -/
lemma sector_split (d : Dpb) (blk : ℕ) {r : ℕ} (hr : r < 2 ^ d.bsh) :
    (blk * 2 ^ d.bsh + r) / 2 ^ d.bsh = blk ∧ (blk * 2 ^ d.bsh + r) % 2 ^ d.bsh = r := by
  have hpos := Nat.two_pow_pos d.bsh
  rw [Nat.mul_comm]
  exact ⟨by rw [Nat.mul_add_div hpos, Nat.div_eq_of_lt hr, Nat.add_zero],
    by rw [Nat.mul_add_mod, Nat.mod_eq_of_lt hr]⟩

/-- **The records of an entry have different sectors, each in its own block.** On every disk that
fits, for a file control block whose pointers are blocks of the disk: the sector of a record is one
of the sectors of the block that its pointer names, never one of the directory if the block is none;
and if no block is named twice, different records with blocks have different sectors.

**Proof sketch.** A sector number over the records of a block is the number of the block. Two
records with the same sector have the same block, hence the same index; index and place in the block
give the extent and the record. -/
theorem recordSector_inj (f : FileFcb)
    (hdisk : ∀ i < pointers d, f.entry.pointer (pointers d) i ≤ d.dsm) :
    (∀ rec ext : UInt8, rec.toNat < 128 → ext.toNat ≤ d.exm →
      recordSector d f rec ext / 2 ^ d.bsh = comBlk d f rec ext ∧
      recordSector d f rec ext < (d.dsm + 1) * 2 ^ d.bsh ∧
      ∀ dirs, dirs ≤ comBlk d f rec ext → dirs * 2 ^ d.bsh ≤ recordSector d f rec ext) ∧
    ((∀ i < pointers d, ∀ j < pointers d, f.entry.pointer (pointers d) i ≠ 0 →
        f.entry.pointer (pointers d) i = f.entry.pointer (pointers d) j → i = j) →
      ∀ rec ext rec' ext' : UInt8, rec.toNat < 128 → ext.toNat ≤ d.exm → rec'.toNat < 128 →
        ext'.toNat ≤ d.exm → comBlk d f rec ext ≠ 0 →
        recordSector d f rec ext = recordSector d f rec' ext' → rec = rec' ∧ ext = ext') := by
  have hpos := Nat.two_pow_pos d.bsh
  have hblk : ∀ rec ext : UInt8, rec.toNat < 128 → ext.toNat ≤ d.exm →
      comBlk d f rec ext ≤ d.dsm := by
    intro rec ext hrec hext
    rw [comBlk_eq hd f hext hrec]
    exact hdisk _ (hd.index_lt hext hrec)
  constructor
  · intro rec ext hrec hext
    have hmod := Nat.mod_lt rec.toNat hpos
    have hle := hblk rec ext hrec hext
    rw [recordSector_eq hd f hle]
    refine ⟨(sector_split d _ hmod).1, ?_, fun dirs hdirs => ?_⟩
    · have hmul := Nat.mul_le_mul_right (2 ^ d.bsh) (Nat.add_le_add_right hle 1)
      rw [Nat.succ_mul] at hmul
      omega
    · have hmul := Nat.mul_le_mul_right (2 ^ d.bsh) hdirs
      omega
  · intro hinj rec ext rec' ext' hrec hext hrec' hext' hne heq
    rw [recordSector_eq hd f (hblk rec ext hrec hext),
      recordSector_eq hd f (hblk rec' ext' hrec' hext')] at heq
    obtain ⟨hq, hr⟩ := sector_split d (comBlk d f rec ext)
      (Nat.mod_lt rec.toNat hpos)
    obtain ⟨hq', hr'⟩ := sector_split d (comBlk d f rec' ext')
      (Nat.mod_lt rec'.toNat hpos)
    rw [heq] at hq hr
    have hmod : rec.toNat % 2 ^ d.bsh = rec'.toNat % 2 ^ d.bsh := hr.symm.trans hr'
    have hsame : comBlk d f rec ext = comBlk d f rec' ext' := hq.symm.trans hq'
    rw [comBlk_eq hd f hext hrec] at hne
    rw [comBlk_eq hd f hext hrec, comBlk_eq hd f hext' hrec'] at hsame
    have hidx := hinj _ (hd.index_lt hext hrec) _ (hd.index_lt hext' hrec') hne hsame
    -- the index times the records of a block, plus the record in the block, counts all records
    have hcount : ∀ e r : ℕ, (e * 2 ^ (7 - d.bsh) + r / 2 ^ d.bsh) * 2 ^ d.bsh + r % 2 ^ d.bsh =
        e * 128 + r := by
      intro e r
      have hdiv := Nat.div_add_mod' r (2 ^ d.bsh)
      rw [Nat.add_mul, Nat.mul_assoc, Nat.mul_comm (2 ^ (7 - d.bsh)), hd.pow_cases]
      omega
    have h1 := hcount ext.toNat rec.toNat
    have h2 := hcount ext'.toNat rec'.toNat
    rw [hidx, hmod] at h1
    have hall : ext.toNat * 128 + rec.toNat = ext'.toNat * 128 + rec'.toNat := h1.symm.trans h2
    exact ⟨UInt8.toNat_inj.mp (by omega), UInt8.toNat_inj.mp (by omega)⟩

end Fits

/-- Both disks of the BIOS fit. -/
lemma fits_of_shipped {g : Geometry} (h : g.Shipped) : Fits g.dpb := by
  obtain rfl | rfl := h
  · exact ⟨⟨by decide, by decide, by decide, by decide⟩, by decide, by decide, by decide⟩
  · exact ⟨⟨by decide, by decide, by decide, by decide⟩, by decide, by decide, by decide⟩

/-- A file control block with blocks 2 and 3 of a disk. -/
def twoBlocks : FileFcb where
  entry := ⟨0, fun _ => ch 'A', fun _ => ch 'B', 0, 0, 0, 16,
    fun i => if i = 0 then 2 else if i = 1 then 3 else 0⟩
  cr := 0
  r0 := 0
  r1 := 0
  r2 := 0
  behind := fun _ => 0

/-- `recordSector_inj` for the 8-inch disk: the two records are in different sectors. -/
theorem recordSector_inj_ibm8 : recordSector ibm8.dpb twoBlocks 3 0 / 8 = 2 ∧
    recordSector ibm8.dpb twoBlocks 3 0 ≠ recordSector ibm8.dpb twoBlocks 11 0 := by
  obtain ⟨hin, hinj⟩ := recordSector_inj (fits_of_shipped (.inl rfl)) twoBlocks (by decide)
  refine ⟨(hin 3 0 (by decide) (by decide)).1, fun heq => ?_⟩
  obtain ⟨h, -⟩ := hinj (by decide) 3 0 11 0 (by decide) (by decide) (by decide) (by decide)
    (by decide) heq
  exact absurd h (by decide)

end Bdos

end Cpm22
