import Cpm22.Machine.Bios
import Cpm22.Disk.Address

set_option relaxedAutoImplicit false
set_option autoImplicit false

/-!
# From a logical sector to its place on the disk

The BDOS splits a logical sector into a track and a sector of the track; the BIOS looks the sector
up in the translation table of the drive and sends both numbers through the ports of the
controller; `GetAbsSector` undoes the translation with the table that the constructor of the disk
built. This file follows a sector through these steps, for every translation table that is a
permutation of the sectors of a track.

## Main definitions

* `Cpm22.Bios.sectran` — the table lookup of the BIOS.
* `Cpm22.Bios.address` — the calls that send a logical sector to the controller.

## Main results

* `Cpm22.Bios.sector_pipeline` — a logical sector reaches its place, and no two sectors share one.
-/

namespace Cpm22

/-! ## Sectors of the disk -/

namespace Disk

variable {g : Geometry} {dk : Disk} {track sector : ℕ}

/-- `GetAbsSector` on a reserved track. -/
lemma Shaped.getAbsSector_reserved (hs : Shaped g dk) (ht : track < g.dpb.off)
    (hpos : 0 < sector) (hlt : track * g.dpb.spt + sector < 2 ^ 32) :
    dk.getAbsSector track sector = some (track * g.dpb.spt + (sector - 1)) := by
  have hnot : ¬ track ≥ g.dpb.off := by omega
  unfold Disk.getAbsSector
  simp only [hs.dpb, hnot, if_false, Option.some.injEq]
  omega

/-- `GetAbsSector` of the sector that the table has for sector `i` of a track that is not
reserved. -/
lemma Shaped.getAbsSector_translated (hs : Shaped g dk) (hperm : g.Permutes)
    (hspt : g.dpb.spt < 2 ^ 16) (ht : g.dpb.off ≤ track) {i : ℕ} (hi : i < g.dpb.spt)
    (hlt : track * g.dpb.spt + g.dpb.spt < 2 ^ 32) :
    dk.getAbsSector track (g.stbl.getD i 0) = some (track * g.dpb.spt + i) := by
  have hne : g.stbl.getD i 0 ≠ 0 := by
    have := hperm.bounds hi
    omega
  unfold Disk.getAbsSector
  simp only [hs.dpb, ge_iff_le, ht, if_true, hne, if_false, hs.smap, hperm.retranslate hspt hi,
    Option.map_some, Option.some.injEq]
  omega

/-- **Where a sector lies**: among the sectors of its track, at a place that the sector determines;
the reserved tracks are in front of the directory. -/
lemma Shaped.exists_place (hs : Shaped g dk) (hperm : g.Permutes) (hspt : g.dpb.spt ≤ 255)
    (ht : track ≤ 255) (hpos : 0 < sector) (hle : sector ≤ g.dpb.spt) :
    ∃ i < g.dpb.spt, dk.getAbsSector track sector = some (track * g.dpb.spt + i) ∧
      sector = if track < g.dpb.off then i + 1 else g.stbl.getD i 0 := by
  have hmul : track * g.dpb.spt ≤ 255 * 255 := Nat.mul_le_mul ht hspt
  by_cases hres : track < g.dpb.off
  · refine ⟨sector - 1, by omega, hs.getAbsSector_reserved hres hpos (by omega), ?_⟩
    rw [if_pos hres]
    omega
  · obtain ⟨i, hi, rfl⟩ := hperm.surj hpos hle
    refine ⟨i, hi, hs.getAbsSector_translated hperm (by omega) (by omega) hi (by omega), ?_⟩
    rw [if_neg hres]

end Disk

/-! ## The calls of the BIOS -/

namespace Bios

open Cpu

variable {ε D : Type} (sd : SimDrive ε D)

/-- **`_SECTRAN`**: the byte at the address `DE + BC` goes to `HL`. -/
def sectran (bc de : ℕ) : EStateM ε (Cpu D) ℕ := do
  pure ((← get).ram ((de + bc) % 2 ^ 16)).toNat

/-- **A logical sector is sent to the controller**, as at the end of `TRKSEC1` of the BDOS: the
track, then the sector that the table at `xlate` has for it. -/
def address (d : Dpb) (xlate sector : ℕ) : EStateM ε (Cpu D) Unit := do
  let _ ← settrk sd (sector / d.spt + d.off)
  let hl ← sectran (sector % d.spt) xlate
  let _ ← setsec sd hl

/-- What the controller has after the calls. -/
lemma address_eq (d : Dpb) (xlate sector : ℕ) (s : Cpu D) : address sd d xlate sector s =
    .ok () { s with
      fdct := sector / d.spt + d.off
      fdcs := (s.ram ((xlate + sector % d.spt) % 2 ^ 16)).toNat } := rfl

variable {sd} {g : Geometry} {dk : Disk}

/-- **The sector addressing is exact.** On every geometry with up to 255 sectors in a track and
every translation table that is a permutation, a logical sector that is sent to the controller is
the sector of that number behind the reserved tracks; two sectors never share a place, and the
sectors of the reserved tracks are the ones in front of the directory.

**Proof sketch.** The sector that the BIOS sends is an entry of the translation table, which
`GetAbsSector` maps back. The place of a sector divided by the sectors of a track is its track; the
remainder determines the sector on reserved tracks, and on the others since the table is a
permutation. -/
theorem sector_pipeline (hpos : 1 ≤ g.dpb.spt) (hspt : g.dpb.spt ≤ 255) (hperm : g.Permutes)
    (hs : Disk.Shaped g dk) :
    (∀ (s : Cpu D) (xlate sector : ℕ),
      (∀ i < g.dpb.spt, (s.ram ((xlate + i) % 2 ^ 16)).toNat = g.stbl.getD i 0) →
      sector / g.dpb.spt + g.dpb.off ≤ 255 →
      ∃ s', address sd g.dpb xlate sector s = .ok () s' ∧
        dk.getAbsSector s'.fdct s'.fdcs = some (dk.dirstart + sector)) ∧
    (∀ t ≤ 255, ∀ n, 1 ≤ n → n ≤ g.dpb.spt →
      ∃ a, dk.getAbsSector t n = some a ∧ (a < dk.dirstart ↔ t < g.dpb.off)) ∧
    ∀ t ≤ 255, ∀ t' ≤ 255, ∀ n n', 1 ≤ n → n ≤ g.dpb.spt → 1 ≤ n' → n' ≤ g.dpb.spt →
      dk.getAbsSector t n = dk.getAbsSector t' n' → t = t' ∧ n = n' := by
  refine ⟨?_, ?_, ?_⟩
  · intro s xlate sector htab hle
    refine ⟨_, address_eq sd g.dpb xlate sector s, ?_⟩
    have hmod : sector % g.dpb.spt < g.dpb.spt := Nat.mod_lt _ hpos
    have hmul : (sector / g.dpb.spt + g.dpb.off) * g.dpb.spt ≤ 255 * 255 :=
      Nat.mul_le_mul hle hspt
    simp only [htab _ hmod]
    rw [hs.getAbsSector_translated hperm (by omega) (Nat.le_add_left _ _) hmod (by omega),
      hs.dirstart, Option.some.injEq, Nat.add_mul]
    have hdiv : sector / g.dpb.spt * g.dpb.spt + sector % g.dpb.spt = sector :=
      Nat.div_add_mod' ..
    omega
  · intro t ht n hn hle
    obtain ⟨i, hi, habs, -⟩ := hs.exists_place hperm hspt ht hn hle
    refine ⟨_, habs, ?_⟩
    rw [hs.dirstart]
    constructor
    · intro hlt
      by_contra hge
      have := Nat.mul_le_mul_right g.dpb.spt (not_lt.mp hge)
      omega
    · intro hlt
      have := Nat.mul_le_mul_right g.dpb.spt (Nat.succ_le_of_lt hlt)
      rw [Nat.succ_mul] at this
      omega
  · intro t ht t' ht' n n' hn hle hn' hle' heq
    obtain ⟨i, hi, habs, hsec⟩ := hs.exists_place hperm hspt ht hn hle
    obtain ⟨j, hj, habs', hsec'⟩ := hs.exists_place hperm hspt ht' hn' hle'
    rw [habs, habs', Option.some.injEq] at heq
    have htrack : t = t' := by
      have hquot := congrArg (· / g.dpb.spt) heq
      simpa [Nat.mul_comm _ g.dpb.spt, Nat.mul_add_div hpos, Nat.div_eq_of_lt hi,
        Nat.div_eq_of_lt hj] using hquot
    subst htrack
    obtain rfl : i = j := by omega
    exact ⟨rfl, hsec.trans hsec'.symm⟩

/-- Sector 27 of the 8-inch disk, with the translation table at address 0: the second sector of
track 3. -/
theorem sector_pipeline_ibm8 :
    ∃ s', address oneDrive ibm8.dpb 0 27
        { powerOn with ram := fun j => UInt8.ofNat (ibm8.stbl.getD j 0) } = .ok () s' ∧
      (Disk.blank Disk.drivePath ibm8 Disk.emptyDrive).getAbsSector s'.fdct s'.fdcs = some 79 := by
  have hshaped : Disk.Shaped ibm8 (Disk.blank Disk.drivePath ibm8 Disk.emptyDrive) :=
    (Disk.SameFrame.refl _).shaped
  refine (sector_pipeline (by decide) (by decide) ?_ hshaped).1 _ 0 27 ?_ (by decide)
  · show List.Perm _ _
    decide
  · intro i hi
    revert i
    decide

end Bios

end Cpm22
