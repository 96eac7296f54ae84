import Cpm22.Machine.Sectors

set_option relaxedAutoImplicit false
set_option autoImplicit false

/-!
# From a sector to its track

The BDOS has no division. For every drive it keeps the track it was on last and the first sector of
that track, and `TRKSEC1` goes from there track by track, backwards or forwards, until the wanted
sector is on the track; all of it with sixteen bits. This file shows that the steps find the
quotient and the remainder, from every position that a run of accesses can leave behind, and that
what is sent to the controller is the place that `Cpm22.Bios.address` has for the sector.

## Main definitions

* `Cpm22.Bios.Head` — the two words of a drive.
* `Cpm22.Bios.trkSec2`, `Cpm22.Bios.trkSec3`, `Cpm22.Bios.trkSec1` — the steps.
* `Cpm22.Bios.OnTrack` — the words of a drive belong together.

## Main results

* `Cpm22.Bios.trkSec1_eq` — one access.
* `Cpm22.Bios.accesses_addressed` — every access of a run reaches its sector.
-/

namespace Cpm22.Bios

open Cpu

/-! ## The steps -/

/-- **The words of a drive** at `SCRATCH2` and `SCRATCH3`: a track, and its first sector. -/
structure Head where
  track : UInt16
  first : UInt16
  deriving DecidableEq

/-- `HOMEDRV`. -/
def homeDrv : Head := ⟨0, 0⟩

/-- **`TRKSEC2`**: back, while the sector is in front of the track. -/
def trkSec2 (spt sector : UInt16) : ℕ → Head → Head
  | 0, h => h
  | n + 1, h =>
    if sector < h.first then trkSec2 spt sector n ⟨h.track - 1, h.first - spt⟩ else h

/-- **`TRKSEC3`**: on, until the next track would start behind the sector or behind the last sector
that has a number. -/
def trkSec3 (spt sector : UInt16) : ℕ → Head → Head
  | 0, h => h
  | n + 1, h =>
    if 2 ^ 16 ≤ h.first.toNat + spt.toNat ∨ sector < h.first + spt then h
    else trkSec3 spt sector n ⟨h.track + 1, h.first + spt⟩

/-- The track of a sector. -/
def seek (spt sector : UInt16) (h : Head) : Head :=
  trkSec3 spt sector (2 ^ 16) (trkSec2 spt sector (2 ^ 16) h)

variable {ε D : Type} (sd : SimDrive ε D)

/-- **`TRKSEC1`**: the track is sent to the controller, then the sector that the table at `xlate`
has for it. The BIOS takes the low bytes of both. -/
def trkSec1 (d : Dpb) (xlate : ℕ) (sector : UInt16) (h : Head) : EStateM ε (Cpu D) Head := do
  let h := seek (UInt16.ofNat d.spt) sector h
  let _ ← settrk sd ((h.track + UInt16.ofNat d.off).toNat % 256)
  let hl ← sectran (sector - h.first).toNat xlate
  let _ ← setsec sd hl
  pure h

/-! ## The quotient -/

/-- **The words of a drive belong together**: the second is the first sector of the first. -/
def OnTrack (spt : UInt16) (h : Head) : Prop := h.first.toNat = h.track.toNat * spt.toNat

section Seek

variable {spt sector : UInt16} {h : Head}

/-- After `HOMEDRV` they do. -/
lemma onTrack_homeDrv (spt : UInt16) : OnTrack spt homeDrv := by
  simp [OnTrack, homeDrv]

/-- **`TRKSEC2` ends in front of the sector.**

**Proof sketch.** Induction on the bound of the loop. While the sector is in front of the track,
the track is not the first one, so that the numbers of the track before it are those that the
source computes. -/
lemma trkSec2_spec {n : ℕ} (hh : OnTrack spt h) (hn : h.track.toNat ≤ n) :
    OnTrack spt (trkSec2 spt sector n h) ∧
      (trkSec2 spt sector n h).first.toNat ≤ sector.toNat := by
  induction n generalizing h with
  | zero =>
    have h0 : h.first.toNat = 0 := by rw [hh, Nat.le_zero.mp hn, Nat.zero_mul]
    rw [trkSec2]
    exact ⟨hh, by omega⟩
  | succ n ih =>
    rw [trkSec2]
    by_cases hlt : sector < h.first
    · rw [if_pos hlt]
      -- the track has a track before it
      have hpos : 0 < h.first.toNat := Nat.lt_of_le_of_lt (Nat.zero_le _) hlt
      obtain ⟨t, ht⟩ : ∃ t, h.track.toNat = t + 1 := by
        refine ⟨h.track.toNat - 1, ?_⟩
        by_contra hne
        rw [hh, show h.track.toNat = 0 by omega, Nat.zero_mul] at hpos
        omega
      have hfirst : h.first.toNat = t * spt.toNat + spt.toNat := by
        rw [hh, ht, Nat.add_one_mul]
      have htrack : (h.track - 1).toNat = t := by
        rw [UInt16.toNat_sub_of_le _ _ (by rw [UInt16.le_iff_toNat_le, ht]; simp), ht]
        simp
      have hback : (h.first - spt).toNat = t * spt.toNat := by
        rw [UInt16.toNat_sub_of_le _ _ (by rw [UInt16.le_iff_toNat_le, hfirst]; omega), hfirst]
        omega
      refine ih ?_ (by rw [htrack]; omega)
      rw [OnTrack, htrack, hback]
    · rw [if_neg hlt]
      exact ⟨hh, Nat.le_of_not_lt hlt⟩

/-- **`TRKSEC3` ends on the track of the sector.**

**Proof sketch.** Induction on the bound of the loop. The loop ends when the next track would start
behind the sector, or beyond 16 bits, where the sector is not. Otherwise the next track starts at
the sector or in front of it. -/
lemma trkSec3_spec {n : ℕ} (hspt : 0 < spt.toNat) (hh : OnTrack spt h)
    (hle : h.first.toNat ≤ sector.toNat) (hn : sector.toNat < h.first.toNat + n) :
    OnTrack spt (trkSec3 spt sector n h) ∧
      (trkSec3 spt sector n h).first.toNat ≤ sector.toNat ∧
      sector.toNat < (trkSec3 spt sector n h).first.toNat + spt.toNat := by
  induction n generalizing h with
  | zero => omega
  | succ n ih =>
    have hs := sector.toNat_lt
    rw [trkSec3]
    by_cases hover : 2 ^ 16 ≤ h.first.toNat + spt.toNat
    · rw [if_pos (.inl hover)]
      exact ⟨hh, hle, by omega⟩
    · have hnext : (h.first + spt).toNat = h.first.toNat + spt.toNat := by
        rw [UInt16.toNat_add, Nat.mod_eq_of_lt (by omega)]
      by_cases hlt : sector < h.first + spt
      · rw [if_pos (.inr hlt)]
        refine ⟨hh, hle, ?_⟩
        rw [← hnext]
        exact hlt
      · have hge : (h.first + spt).toNat ≤ sector.toNat := Nat.le_of_not_lt hlt
        rw [if_neg (by rintro (h1 | h1); exacts [hover h1, hlt h1])]
        refine ih ?_ hge (by rw [hnext]; omega)
        have htrack : (h.track + 1).toNat = h.track.toNat + 1 := by
          have hmul : h.track.toNat ≤ h.track.toNat * spt.toNat := Nat.le_mul_of_pos_right _ hspt
          rw [UInt16.toNat_add]
          refine Nat.mod_eq_of_lt ?_
          rw [OnTrack] at hh
          change h.track.toNat + 1 < 65536
          omega
        rw [OnTrack, htrack, hnext, hh, Nat.add_one_mul]

/-- **The steps find the quotient**, from any track. -/
lemma seek_spec (sector : UInt16) (hspt : 0 < spt.toNat) (hh : OnTrack spt h) :
    OnTrack spt (seek spt sector h) ∧
      (seek spt sector h).track.toNat = sector.toNat / spt.toNat ∧
      (seek spt sector h).first.toNat = sector.toNat / spt.toNat * spt.toNat := by
  have htrack := h.track.toNat_lt
  have hsector := sector.toNat_lt
  unfold seek
  obtain ⟨hon, hle⟩ : OnTrack spt (trkSec2 spt sector (2 ^ 16) h) ∧
      (trkSec2 spt sector (2 ^ 16) h).first.toNat ≤ sector.toNat :=
    trkSec2_spec hh (Nat.le_of_lt htrack)
  generalize trkSec2 spt sector (2 ^ 16) h = h₁ at hon hle
  obtain ⟨hon', hle', hlt'⟩ := trkSec3_spec hspt hon hle (n := 2 ^ 16) (by omega)
  generalize trkSec3 spt sector (2 ^ 16) h₁ = h₂ at hon' hle' hlt'
  have hquot : h₂.track.toNat = sector.toNat / spt.toNat := by
    refine (Nat.div_eq_of_lt_le ?_ ?_).symm
    · rw [← hon']
      exact hle'
    · rw [Nat.add_one_mul, ← hon']
      exact hlt'
  exact ⟨hon', hquot, by rw [hon', ← hquot]⟩

end Seek

/-! ## One access -/

/-- A number of sectors in a track, or of tracks, as a word. -/
lemma toNat_word {n : ℕ} (h : n < 2 ^ 16) : (UInt16.ofNat n).toNat = n :=
  UInt16.toNat_ofNat_of_lt' h

/-- **One access**: what `TRKSEC1` sends to the controller is the place of the sector, and the words
of the drive belong together again.

**Proof sketch.** The seek ends on the track of the sector (`seek_spec`). The track with the
reserved ones before it fits into a byte, and the first sector of the track is not behind the
sector, so that the difference is the number of the sector on it. -/
lemma trkSec1_eq {d : Dpb} (hpos : 0 < d.spt) (hspt : d.spt < 2 ^ 16) {sector : UInt16} {h : Head}
    (hh : OnTrack (UInt16.ofNat d.spt) h) (hle : sector.toNat / d.spt + d.off ≤ 255) (xlate : ℕ)
    (s : Cpu D) :
    OnTrack (UInt16.ofNat d.spt) (seek (UInt16.ofNat d.spt) sector h) ∧
      trkSec1 sd d xlate sector h s =
        (address sd d xlate sector.toNat >>= fun _ =>
          pure (seek (UInt16.ofNat d.spt) sector h)) s := by
  obtain ⟨hon, htrack, hfirst⟩ := seek_spec sector (by rw [toNat_word hspt]; exact hpos) hh
  rw [toNat_word hspt] at htrack hfirst
  refine ⟨hon, ?_⟩
  have hoff : (UInt16.ofNat d.off).toNat = d.off := toNat_word (by omega)
  have hsent : ((seek (UInt16.ofNat d.spt) sector h).track + UInt16.ofNat d.off).toNat % 256 =
      sector.toNat / d.spt + d.off := by
    rw [UInt16.toNat_add, htrack, hoff]
    omega
  have hrest : (sector - (seek (UInt16.ofNat d.spt) sector h).first).toNat =
      sector.toNat % d.spt := by
    have hdiv := Nat.div_add_mod' sector.toNat d.spt
    rw [UInt16.toNat_sub_of_le _ _ (by rw [UInt16.le_iff_toNat_le, hfirst]; omega), hfirst]
    omega
  simp only [trkSec1, hsent, hrest]
  rfl

/-! ## Runs -/

variable {ι : Type*} [DecidableEq ι]

/-- **What the BDOS does on the disks**: it moves a drive home, goes to a sector of a drive, or
calls the BIOS. -/
inductive Step (ι : Type*)
  | home (i : ι)
  | sector (i : ι) (n : UInt16)
  | bios (call : Call)

/-- **A run of the BDOS**, with the words of every drive. Each access starts from the track where
the last access to this drive has left the words, and calls of the BIOS by a program may stand
between them. -/
def walk (ds : ι → Dpb) (xlate : ι → ℕ) : List (Step ι) → (ι → Head) → EStateM ε (Cpu D) Unit
  | [], _ => pure ()
  | .home i :: steps, hs => do
    let _ ← home sd
    walk ds xlate steps (Function.update hs i homeDrv)
  | .sector i n :: steps, hs => do
    let h ← trkSec1 sd (ds i) (xlate i) n (hs i)
    walk ds xlate steps (Function.update hs i h)
  | .bios call :: steps, hs => do
    let _ ← exec sd call
    walk ds xlate steps hs

/-- **The same run with every sector addressed by division.** It has no words: track and sector come
from the number alone. -/
def jump (ds : ι → Dpb) (xlate : ι → ℕ) : List (Step ι) → EStateM ε (Cpu D) Unit
  | [] => pure ()
  | .home _ :: steps => do
    let _ ← home sd
    jump ds xlate steps
  | .sector i n :: steps => do
    address sd (ds i) (xlate i) n.toNat
    jump ds xlate steps
  | .bios call :: steps => do
    let _ ← exec sd call
    jump ds xlate steps

/-- The sectors are on tracks whose numbers the BIOS can send. -/
def InRange (ds : ι → Dpb) (steps : List (Step ι)) : Prop :=
  ∀ i n, .sector i n ∈ steps → n.toNat / (ds i).spt + (ds i).off ≤ 255

/-- The words of all drives belong together, and those of one drive are changed. -/
lemma onTrack_update {ds : ι → Dpb} {hs : ι → Head} {i : ι} {h : Head}
    (hon : ∀ j, OnTrack (UInt16.ofNat (ds j).spt) (hs j))
    (hh : OnTrack (UInt16.ofNat (ds i).spt) h) (j : ι) :
    OnTrack (UInt16.ofNat (ds j).spt) (Function.update hs i h j) := by
  by_cases hj : j = i
  · subst hj
    rw [Function.update_self]
    exact hh
  · rw [Function.update_of_ne hj]
    exact hon j

/-- **Every access of a run reaches its sector.** The BDOS goes from track to track, on several
drives and with any BIOS calls in between, and the machine does exactly what it would do if every
sector were addressed by division: the same commands, the same transfers and the same faults.

**Proof sketch.** Induction on the run. The words of every drive belong together, and an access or a
`HOMEDRV` changes those of its drive only. -/
theorem accesses_addressed (ds : ι → Dpb) (xlate : ι → ℕ) (steps : List (Step ι)) (hs : ι → Head)
    (s : Cpu D) (hpos : ∀ i, 0 < (ds i).spt) (hspt : ∀ i, (ds i).spt < 2 ^ 16)
    (hon : ∀ i, OnTrack (UInt16.ofNat (ds i).spt) (hs i)) (hin : InRange ds steps) :
    walk sd ds xlate steps hs s = jump sd ds xlate steps s := by
  induction steps generalizing hs s with
  | nil => rfl
  | cons step steps ih =>
    have hin' : InRange ds steps := fun i n h => hin i n (List.mem_cons_of_mem _ h)
    cases step with
    | home i =>
      refine Exc.bind_congr_ok fun _ s' => ih _ s' ?_ hin'
      exact onTrack_update hon (onTrack_homeDrv _)
    | sector i n =>
      obtain ⟨hon', hrun⟩ := trkSec1_eq sd (hpos i) (hspt i) (hon i)
        (hin i n List.mem_cons_self) (xlate i) s
      have hsplit : walk sd ds xlate (.sector i n :: steps) hs s =
          (address sd (ds i) (xlate i) n.toNat >>= fun _ => walk sd ds xlate steps
            (Function.update hs i (seek (UInt16.ofNat (ds i).spt) n (hs i)))) s := by
        rw [walk, Exc.bind_apply, hrun, Exc.bind_apply, Exc.bind_apply]
        cases address sd (ds i) (xlate i) n.toNat s with
        | ok a s' => rfl
        | error e s' => rfl
      rw [hsplit, jump]
      refine Exc.bind_congr_ok fun _ s' => ih _ s' ?_ hin'
      exact onTrack_update hon hon'
    | bios call => exact Exc.bind_congr_ok fun _ s' => ih hs s' hon hin'

/-- Sectors of one drive, forwards and back again, with a read in between. -/
def someSteps : List (Step Unit) :=
  [.home (), .sector () 27, .bios .read, .sector () 700, .sector () 3]

/-- They are on the 8-inch disk. -/
lemma someSteps_inRange : InRange (fun _ => ibm8.dpb) someSteps := by
  intro i n h
  simp only [someSteps, List.mem_cons, reduceCtorEq, false_or, List.not_mem_nil, or_false,
    Step.sector.injEq, true_and] at h
  obtain rfl | rfl | rfl := h
  · change (27 : ℕ) / 26 + 2 ≤ 255
    decide
  · change (700 : ℕ) / 26 + 2 ≤ 255
    decide
  · change (3 : ℕ) / 26 + 2 ≤ 255
    decide

/-- `accesses_addressed` on the 8-inch disk. -/
theorem accesses_addressed_ibm8 :
    walk oneDrive (fun _ => ibm8.dpb) (fun _ => 0) someSteps (fun _ => homeDrv) powerOn =
      jump oneDrive (fun _ => ibm8.dpb) (fun _ => 0) someSteps powerOn :=
  accesses_addressed oneDrive (fun _ => ibm8.dpb) (fun _ => 0) someSteps (fun _ => homeDrv) powerOn
    (fun _ => by decide) (fun _ => by decide) (fun _ => onTrack_homeDrv _) someSteps_inRange

end Cpm22.Bios
