import Cpm22.Bdos.Entries
import Cpm22.Bdos.Writing
import Cpm22.Lib.Runs

set_option relaxedAutoImplicit false
set_option autoImplicit false

/-!
# Programs that use files

A program has file control blocks of several files and calls the BDOS with them in any order. A file
is open from the call that opens or makes it until it is closed; in between its newest extent is in
the file control block. The program keeps to the rules of the BDOS: it has no file open twice, it
does not touch the files it has open by other calls, and it makes no extent that exists.

The store that a program sees is a map from names and record numbers to records. Every run of calls
keeps to it: a record that was written, and not erased since, is read back whatever other calls are
made in between, by whatever file control block, and when all files are closed the directory on the
disk has all records.

## Main definitions

* `Cpm22.Bdos.Sys` — a drive and the file control blocks of a program.
* `Cpm22.Bdos.Sys.exec` — a call.
* `Cpm22.Bdos.Sys.Allowed`, `Cpm22.Bdos.Sys.Follows` — the rules.
* `Cpm22.Bdos.Store.after` — what a call does to the store.

## Main results

* `Cpm22.Bdos.Sys.follows_right` — every call of a run gives the right result.
* `Cpm22.Bdos.Sys.follows_durable` — a run that closes its files leaves all records on the disk.
* `Cpm22.Bdos.Sys.follows_space` — no run shares or loses a block.
-/

namespace Cpm22

namespace Bdos

open BitMap Disk

/-! ## Calls -/

/-- **A drive and the file control blocks** of a program, of the files that it has open. -/
structure Sys (ι : Type*) where
  drive : Drive
  fcbs : ι → Option FileFcb

/-- **The calls of a program**, with the number of a file control block or with a name. The program
may have any number of file control blocks; records are written in mode 0 or, with `zero`, in mode
2. -/
inductive Call (ι : Type*)
  | openFil (i : ι) (f : FileFcb)
  | fCreate (i : ι) (f : FileFcb)
  | readRan (i : ι) (r0 r1 : UInt8)
  | writeRan (i : ι) (zero : Bool) (r0 r1 : UInt8) (x : Sector)
  /-- closes a file that stays in use -/
  | flush (i : ι)
  | closeFil (i : ι)
  | delFile (g : CpmDir)
  | renFile (g : CpmDir)
  | setAttr (g : CpmDir)

namespace Sys

variable {ι : Type*} [DecidableEq ι]

/-- The file control block with a record number. -/
def atRecord (f : FileFcb) (r0 r1 : UInt8) : FileFcb := { f with r0 := r0, r1 := r1, r2 := 0 }

/-- **A call of a program**, `none` where the BDOS restarts the system. A file control block is in
use from a call that opened or made its extent until it is closed for good. -/
def exec (d : Dpb) (σ : Sys ι) : Call ι → Option (Sys ι)
  | .openFil i f =>
    let (f, s) := File.openFil d f σ.drive
    some ⟨s, if s.status = 0xff then σ.fcbs else Function.update σ.fcbs i (some f)⟩
  | .fCreate i f =>
    (File.fCreate d f σ.drive).map fun (f, s) =>
      ⟨s, if s.status = 0xff then σ.fcbs else Function.update σ.fcbs i (some f)⟩
  | .readRan i r0 r1 =>
    (σ.fcbs i).bind fun f => (File.readRan d (atRecord f r0 r1) σ.drive).map fun (f, s) =>
      ⟨s, Function.update σ.fcbs i (some f)⟩
  | .writeRan i zero r0 r1 x =>
    (σ.fcbs i).bind fun f =>
      (File.writeRan d (if zero then 2 else 0) (atRecord f r0 r1)
        { σ.drive with dma := x }).map fun (f, s) => ⟨s, Function.update σ.fcbs i (some f)⟩
  | .flush i =>
    (σ.fcbs i).map fun f =>
      let (f, s, _) := File.closeIt d f σ.drive
      ⟨s, Function.update σ.fcbs i (some f)⟩
  | .closeFil i =>
    (σ.fcbs i).map fun f => ⟨(File.closeIt d f σ.drive).2.1, Function.update σ.fcbs i none⟩
  | .delFile g => (File.delFile d g σ.drive).map fun s => ⟨s, σ.fcbs⟩
  | .renFile g => (File.renFile d g σ.drive).map fun (_, s) => ⟨s, σ.fcbs⟩
  | .setAttr g => (File.setAttr d g σ.drive).map fun s => ⟨s, σ.fcbs⟩

/-! ## The rules -/

/-- No open file has the name. -/
def NotOpen (σ : Sys ι) (g : CpmDir) : Prop :=
  ∀ i f, σ.fcbs i = some f → ¬ Matches g (nameOf f.entry)

/-- No entry that the name stands for is read-only. -/
def Unprotected (d : Dpb) (σ : Sys ι) (g : CpmDir) : Prop :=
  ∀ n ≤ d.drm, Matches g (nameOf (σ.drive.slot n)) → readOnly (σ.drive.slot n) = false

/-- **The rules of the calls**, from the state before. A name is used by one file control block at a
time, no protected file is written, erased or renamed, and an extent or a new name is not there yet.
-/
def Allowed (d : Dpb) (σ : Sys ι) : Call ι → Prop
  | .openFil i f =>
    σ.fcbs i = none ∧ Plain f.entry ∧ f.entry.xl.toNat < 32 ∧ σ.NotOpen f.entry
  | .fCreate i f =>
    σ.fcbs i = none ∧ Plain f.entry ∧ f.entry.xl.toNat < 32 ∧ σ.NotOpen f.entry ∧
      ∀ n ≤ d.drm, (σ.drive.slot n).Used → nameOf (σ.drive.slot n) = nameOf f.entry →
        extOf (σ.drive.slot n) ≠ extOf (File.clearS2 f).entry
  | .readRan i _ _ => σ.fcbs i ≠ none
  | .writeRan i _ _ _ _ => ∃ f, σ.fcbs i = some f ∧ Writable d σ.drive.slot f
  | .flush i => σ.fcbs i ≠ none
  | .closeFil i => σ.fcbs i ≠ none
  | .delFile g => g.st.toNat < 32 ∧ σ.NotOpen g ∧ Unprotected d σ g
  | .renFile g =>
    Plain g ∧ Plain (File.newName g) ∧ σ.NotOpen g ∧ Unprotected d σ g ∧
      ∀ n ≤ d.drm, (σ.drive.slot n).Used → nameOf (σ.drive.slot n) ≠ nameOf (File.newName g)
  | .setAttr g => Plain g ∧ σ.NotOpen g

/-- **A run of calls that keeps to the rules.** -/
def Follows (d : Dpb) (σ : Sys ι) : List (Call ι) → Prop
  | [] => True
  | c :: cs => Allowed d σ c ∧ ∀ σ', exec d σ c = some σ' → Follows d σ' cs

end Sys

/-! ## The store -/

/-- **The store that a program sees**: the records of the files, by name and number. -/
abbrev Store := (Fin 12 → ℕ) → ℕ → Option Sector

instance (g : CpmDir) (k : Fin 12 → ℕ) : Decidable (Matches g k) :=
  inferInstanceAs (Decidable (∀ _ : Fin 12, _ ∨ _))

/-- The number of a record. -/
def recordOf (r0 r1 : UInt8) : ℕ := r0.toNat + 256 * r1.toNat

/-- **The store after a call** that returned `status`: a record is written, the files of a name are
erased or renamed, or nothing happens. -/
def Store.after {ι : Type*} (W : Store) (σ : Sys ι) (status : UInt8) : Call ι → Store
  | .writeRan i _ r0 r1 x =>
    if status = 0 then
      match σ.fcbs i with
      | none => W
      | some f => fun k r => if (k, r) = (nameOf f.entry, recordOf r0 r1) then some x else W k r
    else W
  | .delFile g => fun k r => if Matches g k then none else W k r
  | .renFile g => fun k r =>
    if k = nameOf (File.newName g) then W (nameOf g) r else if k = nameOf g then none else W k r
  | _ => W

namespace Sys

variable {ι : Type*} {d : Dpb} {σ σ' : Sys ι} {E E' : ℕ → CpmDir} {W W' : Store}

/-! ## The invariant -/

/-- **The view has the newest entries**: those on the disk, and those of the open files. -/
structure Tracks (d : Dpb) (σ : Sys ι) (E : ℕ → CpmDir) : Prop where
  sound : Sound d σ.drive E
  plain : ∀ i f, σ.fcbs i = some f → Plain f.entry
  usable : ∀ i f, σ.fcbs i = some f → Usable d σ.drive E f
  names : ∀ i j f g, σ.fcbs i = some f → σ.fcbs j = some g → nameOf f.entry = nameOf g.entry → i = j
  newest : ∀ n ≤ d.drm, E n = σ.drive.slot n ∨
    ∃ i f, σ.fcbs i = some f ∧ Attached d σ.drive E f n

/-- The view has the records of the store. -/
def Holds (d : Dpb) (s : Drive) (E : ℕ → CpmDir) (W : Store) : Prop :=
  ∀ k r x, W k r = some x → Stores d s E k r x

/-- **The invariant of a run**: there is a view with the newest entries and the records. -/
def Good (d : Dpb) (σ : Sys ι) (W : Store) : Prop := ∃ E, Tracks d σ E ∧ Holds d σ.drive E W

/-- **An open file control block is coherent with the view.** -/
lemma Tracks.coherent (h : Tracks d σ E) {i : ι} {f : FileFcb} (hf : σ.fcbs i = some f) :
    Coherent d σ.drive E f := by
  refine ⟨h.plain i f hf, fun n hn hmine => ?_⟩
  rcases h.newest n hn with heq | ⟨j, g, hg, ha⟩
  · exact .inl heq
  · obtain rfl := h.names i j f g hf hg ((hmine ha.used).symm.trans ha.name.symm)
    rw [hf] at hg
    obtain rfl := Option.some.inj hg
    exact .inr ha

/-- **The directory has the newest entries of a file that is not open.** -/
lemma Tracks.settled (h : Tracks d σ E) {g : CpmDir} (hg : σ.NotOpen g) {n : ℕ} (hn : n ≤ d.drm)
    (hmine : (E n).Used → Matches g (nameOf (E n))) : E n = σ.drive.slot n := by
  rcases h.newest n hn with heq | ⟨j, f, hf, ha⟩
  · exact heq
  · refine absurd ?_ (hg j f hf)
    rw [ha.name]
    exact hmine ha.used

/-- If no file is open, the directory has the newest entries. -/
lemma Tracks.closed (h : Tracks d σ E) (hclosed : ∀ i, σ.fcbs i = none) {n : ℕ} (hn : n ≤ d.drm) :
    E n = σ.drive.slot n := by
  rcases h.newest n hn with heq | ⟨i, f, hf, -⟩
  · exact heq
  · rw [hclosed i] at hf
    cases hf

/-- A file control block that is not touched keeps what it has. -/
lemma Usable.others {s s' : Drive} {f : FileFcb} (hu : Usable d s E f)
    (hE : ∀ n ≤ d.drm, (E n).Used → nameOf (E n) = nameOf f.entry →
      E' n = E n ∧ s'.slot n = s.slot n) :
    Usable d s' E' f := by
  rcases hu with h | ⟨n, h⟩
  · exact .inl h
  · obtain ⟨h1, h2⟩ := hE n h.le h.used h.name.symm
    exact .inr ⟨n, h.others h1 h2⟩

variable [DecidableEq ι]

/-- **A call with a file control block** keeps the invariant, if it keeps the file system sound and
the other files as they are; the file control block is of an open file, or of one that is not
open.

**Proof sketch.** An open file is the one of the call, for which the call says what holds, or
another one, whose entries the call leaves as they are. A slot that is not of the file of the call
has its newest entry where it had it before. -/
lemma Tracks.put (h : Tracks d σ E) {i : ι} {f f' : FileFcb}
    (hsame : ∀ g, σ.fcbs i = some g → nameOf g.entry = nameOf f.entry)
    (hdiff : ∀ j g, j ≠ i → σ.fcbs j = some g → nameOf g.entry ≠ nameOf f.entry) {s' : Drive}
    (hk : Keeps d σ.drive E f s' E' f') (hu : Usable d s' E' f') :
    Tracks d ⟨s', Function.update σ.fcbs i (some f')⟩ E' := by
  have hat : ∀ j g, Function.update σ.fcbs i (some f') j = some g →
      (j = i ∧ g = f') ∨ (j ≠ i ∧ σ.fcbs j = some g) := by
    intro j g hg
    rw [Function.update_apply] at hg
    split at hg
    · rename_i hj
      exact .inl ⟨hj, (Option.some.inj hg).symm⟩
    · rename_i hj
      exact .inr ⟨hj, hg⟩
  -- what another file has stays
  have hothers : ∀ j g, j ≠ i → σ.fcbs j = some g → ∀ n ≤ d.drm, (E n).Used →
      nameOf (E n) = nameOf g.entry → E' n = E n ∧ s'.slot n = σ.drive.slot n := by
    intro j g hj hg n hn hu hnm
    refine hk.others n hn hu ?_
    rw [hnm]
    exact hdiff j g hj hg
  refine ⟨hk.sound, fun j g hg => ?_, fun j g hg => ?_, fun j j' g g' hg hg' hnm => ?_,
    fun n hn => ?_⟩
  · rcases hat j g hg with ⟨-, rfl⟩ | ⟨-, hg⟩
    · exact hk.coherent.plain
    · exact h.plain j g hg
  · rcases hat j g hg with ⟨-, rfl⟩ | ⟨hj, hg⟩
    · exact hu
    · exact Usable.others (h.usable j g hg) (hothers j g hj hg)
  · rcases hat j g hg with ⟨hj, rfl⟩ | ⟨hj, hold⟩
    · rcases hat j' g' hg' with ⟨hj', -⟩ | ⟨hj', hold'⟩
      · rw [hj, hj']
      · exact absurd (hnm.symm.trans hk.name) (hdiff j' g' hj' hold')
    · rcases hat j' g' hg' with ⟨-, rfl⟩ | ⟨-, hold'⟩
      · exact absurd (hnm.trans hk.name) (hdiff j g hj hold)
      · exact h.names j j' g g' hold hold' hnm
  · by_cases hmine : Mine E f n
    · have hmine' : Mine E' f' n := fun hu => (hk.mine n hn hmine hu).trans hk.name.symm
      rcases hk.coherent.mine n hn hmine' with heq | ha
      · exact .inl heq
      · exact .inr ⟨i, f', Function.update_self .., ha⟩
    · obtain ⟨hused, hne⟩ := Classical.not_imp.mp hmine
      obtain ⟨h1, h2⟩ := hk.others n hn hused hne
      rcases h.newest n hn with heq | ⟨j, g, hg, ha⟩
      · left
        show E' n = s'.slot n
        rw [h1, h2]
        exact heq
      · have hj : j ≠ i := by
          rintro rfl
          exact hne (ha.name.symm.trans (hsame g hg))
        exact .inr ⟨j, g, (Function.update_of_ne hj ..).trans hg, ha.others h1 h2⟩

/-- **A call with an open file** keeps the invariant. -/
lemma Tracks.step (h : Tracks d σ E) {i : ι} {f f₁ f' : FileFcb} (hf : σ.fcbs i = some f)
    (hname : nameOf f₁.entry = nameOf f.entry) {s' : Drive}
    (hk : Keeps d σ.drive E f₁ s' E' f') (hu : Usable d s' E' f') :
    Tracks d ⟨s', Function.update σ.fcbs i (some f')⟩ E' := by
  refine h.put (fun g hg => ?_) (fun j g hj hg heq => ?_) hk hu
  · rw [hf] at hg
    rw [hname, Option.some.inj hg]
  · exact hj (h.names j i g f hg hf (heq.trans hname))

/-- **A file is closed**: the directory has its newest entries. -/
lemma Tracks.remove (h : Tracks d σ E) {i : ι} {f : FileFcb} (hf : σ.fcbs i = some f)
    (hset : Settled d σ.drive E f) : Tracks d ⟨σ.drive, Function.update σ.fcbs i none⟩ E := by
  have hat : ∀ j g, Function.update σ.fcbs i none j = some g → σ.fcbs j = some g := by
    intro j g hg
    rw [Function.update_apply] at hg
    split at hg
    · simp at hg
    · exact hg
  refine ⟨h.sound, fun j g hg => h.plain j g (hat j g hg), fun j g hg => h.usable j g (hat j g hg),
    fun j j' g g' hg hg' => h.names j j' g g' (hat j g hg) (hat j' g' hg'), fun n hn => ?_⟩
  rcases h.newest n hn with heq | ⟨j, g, hg, ha⟩
  · exact .inl heq
  · by_cases hj : j = i
    · subst hj
      rw [hf] at hg
      obtain rfl := Option.some.inj hg
      exact .inl (hset n hn fun _ => ha.name.symm)
    · exact .inr ⟨j, g, (Function.update_of_ne hj ..).trans hg, ha⟩

omit [DecidableEq ι] in
/-- **A search** keeps the invariant. -/
lemma Tracks.moved (h : Tracks d σ E) {s' : Drive} (hm : σ.drive.Moved s') :
    Tracks d ⟨s', σ.fcbs⟩ E := by
  refine ⟨h.sound.moved hm, h.plain, fun i f hf => ?_, h.names, fun n hn => ?_⟩
  · exact Usable.others (h.usable i f hf) fun n _ _ _ => ⟨rfl, hm.slot n⟩
  · rcases h.newest n hn with heq | ⟨j, g, hg, ha⟩
    · exact .inl (heq.trans (hm.slot n).symm)
    · exact .inr ⟨j, g, hg, ha.others rfl (hm.slot n)⟩

omit [DecidableEq ι] in
/-- **A call for all entries of a name** keeps the invariant, if no file of the name is open.

**Proof sketch.** An open file has another name, so that none of its entries matches: its file
control block stays attached, and its newest entries are where they were. An entry that matches is
changed on the disk and in the view alike. -/
lemma Tracks.sweep (h : Tracks d σ E) {g : CpmDir} (hg : σ.NotOpen g) {change : CpmDir → CpmDir}
    {t : Drive} (hsw : Swept d g change σ.drive E (d.drm + 1) t) :
    Tracks d ⟨t, σ.fcbs⟩ (swept d g change E (d.drm + 1)) := by
  have hstay : ∀ n ≤ d.drm, matching d.exm 12 g (E n) ≠ true →
      swept d g change E (d.drm + 1) n = E n ∧ t.slot n = σ.drive.slot n := by
    intro n hn hm
    rw [swept, hsw.slot n hn, if_neg (fun h => hm h.2), if_neg (fun h => hm h.2)]
    exact ⟨rfl, rfl⟩
  have hopen : ∀ i f, σ.fcbs i = some f → ∀ n, nameOf (E n) = nameOf f.entry →
      matching d.exm 12 g (E n) ≠ true := by
    intro i f hf n hnm hm
    rw [matching_name_iff, hnm] at hm
    exact hg i f hf hm
  refine ⟨hsw.sound, h.plain, fun i f hf => ?_, h.names, fun n hn => ?_⟩
  · exact Usable.others (h.usable i f hf) fun n hn _ hnm => hstay n hn (hopen i f hf n hnm)
  · by_cases hm : matching d.exm 12 g (E n) = true
    · left
      show swept d g change E (d.drm + 1) n = t.slot n
      rw [swept, hsw.slot n hn, if_pos ⟨by omega, hm⟩, if_pos ⟨by omega, hm⟩]
    · obtain ⟨h1, h2⟩ := hstay n hn hm
      rcases h.newest n hn with heq | ⟨j, f, hf, ha⟩
      · left
        show swept d g change E (d.drm + 1) n = t.slot n
        rw [h1, h2]
        exact heq
      · exact .inr ⟨j, f, hf, ha.others h1 h2⟩

/-! ## What a call returns -/

/-- **The results of the calls**: a file is opened iff its extent is in the directory, making an
extent fails iff the directory is full, a record of the store is read, writing fails only if all
blocks or all entries are in use, closing never fails, and the calls for a name tell whether there
is a file of it. -/
def Right (d : Dpb) (σ : Sys ι) (W : Store) (σ' : Sys ι) : Call ι → Prop
  | .openFil _ f => σ'.drive.status ≠ 0xff ↔
      ∃ n ≤ d.drm, (σ.drive.slot n).Used ∧ nameOf (σ.drive.slot n) = nameOf f.entry ∧
        extOf (σ.drive.slot n) = extOf (File.clearS2 f).entry
  | .fCreate _ _ => σ'.drive.status = 0xff ↔ ∀ n ≤ d.drm, (σ.drive.slot n).Used
  | .readRan i r0 r1 => ∀ f x, σ.fcbs i = some f → W (nameOf f.entry) (recordOf r0 r1) = some x →
      σ'.drive.status = 0 ∧ σ'.drive.dma = x
  | .writeRan _ _ _ _ _ => σ'.drive.status = 0 ∨
      (σ'.drive.status = 2 ∧ ∀ b ≤ d.dsm, mem σ.drive.alv b = true) ∨
      (σ'.drive.status = 5 ∧ ∀ n ≤ d.drm, (σ.drive.slot n).Used)
  | .flush _ => σ'.drive.status ≠ 0xff
  | .closeFil _ => σ'.drive.status ≠ 0xff
  | .delFile g => σ'.drive.status = Named d σ g
  | .renFile g => σ'.drive.status = Named d σ g
  | .setAttr g => σ'.drive.status = Named d σ g
where
  /-- the status by whether there is an entry of the name -/
  Named (d : Dpb) (σ : Sys ι) (g : CpmDir) : UInt8 :=
    if ∃ n ≤ d.drm, Matches g (nameOf (σ.drive.slot n)) then 0 else 0xff

/-- What one call has to do. -/
def Does (d : Dpb) (σ : Sys ι) (W : Store) (c : Call ι) : Prop :=
  ∃ σ', exec d σ c = some σ' ∧ Good d σ' (W.after σ σ'.drive.status c) ∧ Right d σ W σ' c

omit [DecidableEq ι] in
/-- The entries of a name in the view and on the disk. -/
lemma Tracks.matching_iff (ht : Tracks d σ E) {g : CpmDir} {n : ℕ} (hn : n ≤ d.drm) :
    matching d.exm 12 g (E n) = true ↔ Matches g (nameOf (σ.drive.slot n)) := by
  rw [matching_name_iff, (ht.sound.view n hn).keys.1]

omit [DecidableEq ι] in
/-- The directory has the newest entries of a name of which no file is open. -/
lemma Tracks.settled_match (ht : Tracks d σ E) {g : CpmDir} (hno : σ.NotOpen g) {n : ℕ}
    (hn : n ≤ d.drm) (hm : matching d.exm 12 g (E n) = true) : E n = σ.drive.slot n :=
  ht.settled hno hn fun _ => matching_name_iff.mp hm

omit [DecidableEq ι] in
/-- The entries of a name that is not protected. -/
lemma Tracks.not_readOnly (ht : Tracks d σ E) {g : CpmDir} (hro : Unprotected d σ g) {n : ℕ}
    (hn : n ≤ d.drm) (hm : matching d.exm 12 g (E n) = true) : readOnly (E n) ≠ true := by
  obtain ⟨-, -, -, -, hex, -⟩ := (ht.sound.view n hn).keys
  rw [readOnly, hex]
  have := hro n hn ((ht.matching_iff hn).mp hm)
  rw [readOnly] at this
  rw [this]
  simp

omit [DecidableEq ι] in
/-- The status of a call for a name. -/
lemma Tracks.named_status (ht : Tracks d σ E) {g : CpmDir} {t : Drive} (h : t.fndStat =
      if ∃ n ≤ d.drm, matching d.exm 12 g (E n) = true then 0 else 0xff) :
    (File.stStatus t).status = Right.Named d σ g := by
  have hiff : (∃ n ≤ d.drm, matching d.exm 12 g (E n) = true) ↔
      ∃ n ≤ d.drm, Matches g (nameOf (σ.drive.slot n)) :=
    exists_congr fun n => and_congr_right fun hn => ht.matching_iff hn
  show t.fndStat = _
  rw [h, Right.Named]
  simp only [hiff]

section Calls

variable (hd : Flat d) (ht : Tracks d σ E) (hw : Holds d σ.drive E W)

include hd ht hw

/-- **Opening a file.**

**Proof sketch.** By `File.openIt_spec`. If the extent is found, the file control block is attached
to its entry, which is the newest one, since no other open file has this name. If it is not found,
no slot has it, and the drive is as it was. -/
lemma does_openFil {i : ι} {f : FileFcb} (ha : Allowed d σ (.openFil i f)) :
    Does d σ W (.openFil i f) := by
  obtain ⟨hi, hp, hxl, hno⟩ := ha
  set g := File.clearS2 f with hg
  have hgp : Plain g.entry := hp.congr rfl rfl rfl
  have hgname : nameOf g.entry = nameOf f.entry := nameOf_congr rfl rfl rfl
  have hset : Settled d σ.drive E g := fun n hn hmine =>
    ht.settled hno hn fun hu => hp.matches_iff.mpr ((hmine hu).trans hgname).symm
  obtain ⟨hmv, hcase⟩ := File.openIt_spec hd ht.sound hgp hxl (by simp [hg, File.clearS2]) hset
  rcases hop : File.openIt d g σ.drive with ⟨f', s'⟩
  rw [hop] at hmv hcase
  simp only at hmv hcase
  have hexec : exec d σ (.openFil i f) =
      some ⟨s', if s'.status = 0xff then σ.fcbs else Function.update σ.fcbs i (some f')⟩ := by
    simp only [exec, File.openFil, ← hg, hop]
  have hview : ∀ n ≤ d.drm, (E n).Used → nameOf (E n) = nameOf g.entry →
      E n = σ.drive.slot n := fun n hn _ hnm => hset n hn fun _ => hnm
  have hholds : Holds d s' E W := fun k r x hx => preserves_same hmv.sameDisk k r x (hw k r x hx)
  rcases hcase with ⟨n, ha, hext, hp', hname, -, hst⟩ | ⟨hnone, -, hst⟩
  · refine ⟨_, hexec, ⟨E, ?_, hholds⟩, iff_of_true hst ⟨n, ha.le, ?_⟩⟩
    · rw [if_neg hst]
      refine ht.put (f := g) (fun g' hg' => ?_) (fun j g' hj hg' heq => ?_)
        (keeps_settled ht.sound hset hmv hp' hname fun h => ha.readOnly h hname) (.inr ⟨n, ha⟩)
      · rw [hi] at hg'
        cases hg'
      · exact hno j g' hg' (hp.matches_iff.mpr (heq.trans hgname).symm)
    · have hnm : nameOf (E n) = nameOf g.entry := ha.name.symm.trans hname
      rw [← hview n ha.le ha.used hnm]
      exact ⟨ha.used, hnm.trans hgname, hext⟩
  · refine ⟨_, hexec, ⟨E, ?_, hholds⟩, iff_of_false (not_not.mpr hst) ?_⟩
    · rw [if_pos hst]
      exact ht.moved hmv
    · rintro ⟨n, hn, hu, hnm, hext⟩
      obtain ⟨hk1, hk2, -⟩ := (ht.sound.view n hn).keys
      refine hnone n hn ((ht.sound.view n hn).used_iff.mpr hu) ?_ ?_
      · rw [hk1, hnm, hgname]
      · rw [hk2, hext]

/-- **Making an extent.**

**Proof sketch.** By `File.getEmpty_spec`. A new entry is attached to the file control block and
keeps all records, or the directory is full, and then every slot was in use and the drive is as it
was. -/
lemma does_fCreate {i : ι} {f : FileFcb} (ha : Allowed d σ (.fCreate i f)) :
    Does d σ W (.fCreate i f) := by
  obtain ⟨hi, hp, hxl, hno, habs⟩ := ha
  set g := File.clearS2 f with hg
  have hgp : Plain g.entry := hp.congr rfl rfl rfl
  have hgname : nameOf g.entry = nameOf f.entry := nameOf_congr rfl rfl rfl
  have hset : Settled d σ.drive E g := fun n hn hmine =>
    ht.settled hno hn fun hu => hp.matches_iff.mpr ((hmine hu).trans hgname).symm
  have hnone : ∀ m ≤ d.drm, (E m).Used → nameOf (E m) = nameOf g.entry →
      extOf (E m) ≠ extOf g.entry := by
    intro m hm hu hnm
    obtain ⟨hk1, hk2, -⟩ := (ht.sound.view m hm).keys
    rw [hk2]
    exact habs m hm ((ht.sound.view m hm).used_iff.mp hu) (by rw [← hk1, hnm, hgname])
  obtain ⟨f', s', hget, -, -, hcase⟩ :=
    File.getEmpty_spec hd ht.sound hgp hxl (by simp [hg, File.clearS2]) hset hnone
  have hexec : exec d σ (.fCreate i f) =
      some ⟨s', if s'.status = 0xff then σ.fcbs else Function.update σ.fcbs i (some f')⟩ := by
    simp only [exec, File.fCreate, ← hg, hget, Option.map_some]
  rcases hcase with ⟨n, E', ha, -, hk, hpres, -, hst, -, hun, hn, -⟩ | ⟨-, hmv, hall, hst, -⟩
  · refine ⟨_, hexec, ⟨E', ?_, fun k r x hx => hpres k r x (hw k r x hx)⟩, iff_of_false hst ?_⟩
    · rw [if_neg hst]
      refine ht.put (fun g' hg' => ?_) (fun j g' hj hg' heq => ?_) hk (.inr ⟨n, ha⟩)
      · rw [hi] at hg'
        cases hg'
      · exact hno j g' hg' (hp.matches_iff.mpr (heq.trans hgname).symm)
    · exact fun hall => hun ((ht.sound.view n hn).used_iff.mpr (hall n hn))
  · refine ⟨_, hexec, ⟨E, ?_, fun k r x hx => preserves_same hmv.sameDisk k r x (hw k r x hx)⟩,
      iff_of_true hst fun n hn => (ht.sound.view n hn).used_iff.mp (hall n hn)⟩
    rw [if_pos hst]
    exact ht.moved hmv

/-- **Reading a record.**

**Proof sketch.** By `File.readRan_spec`. A record that is in the store is on the disk, so that it
is read, and a record of a name has one content. -/
lemma does_readRan {i : ι} {r0 r1 : UInt8} (ha : Allowed d σ (.readRan i r0 r1)) :
    Does d σ W (.readRan i r0 r1) := by
  obtain ⟨f, hf⟩ := Option.ne_none_iff_exists'.mp ha
  have hc := ht.coherent hf
  have hu := ht.usable i f hf
  have hk₀ : Keeps d σ.drive E f σ.drive E (atRecord f r0 r1) :=
    keeps_same ht.sound hc (Drive.Moved.refl _).sameDisk rfl
  have hu₀ : Usable d σ.drive E (atRecord f r0 r1) := hu.imp id fun ⟨n, h⟩ => ⟨n, h.congr rfl rfl⟩
  obtain ⟨f', s', E', heq, hk, hu', hpres, -, hcase⟩ :=
    File.readRan_spec hd ht.sound hk₀.coherent hu₀ rfl
  have hexec : exec d σ (.readRan i r0 r1) = some ⟨s', Function.update σ.fcbs i (some f')⟩ := by
    simp only [exec, hf, Option.bind_some, heq, Option.map_some]
  refine ⟨_, hexec, ⟨E', ht.step hf rfl (hk₀.trans hk) hu',
    fun k r x hx => hpres k r x (hw k r x hx)⟩, ?_⟩
  intro g x hg hx
  rw [hf] at hg
  obtain rfl := Option.some.inj hg
  have hstore := hw _ _ _ hx
  rcases hcase with ⟨hst, hdma⟩ | ⟨-, -, hno⟩
  · exact ⟨hst, (Stores.unique hk.sound hdma (hpres _ _ _ hstore))⟩
  · exact absurd hstore (hno x)

/-- **Writing a record.**

**Proof sketch.** Setting the DMA sector changes nothing on the disk. By `File.writeRan_spec` the
record is written and the others stay, or the disk or the directory is full and all records stay.
-/
lemma does_writeRan {i : ι} {zero : Bool} {r0 r1 : UInt8} {x : Sector}
    (ha : Allowed d σ (.writeRan i zero r0 r1 x)) : Does d σ W (.writeRan i zero r0 r1 x) := by
  obtain ⟨f, hf, hro⟩ := ha
  have hc := ht.coherent hf
  have hu := ht.usable i f hf
  have hsame : σ.drive.SameDisk { σ.drive with dma := x } := ⟨rfl, rfl, rfl, rfl, rfl⟩
  have hk₀ : Keeps d σ.drive E f { σ.drive with dma := x } E (atRecord f r0 r1) :=
    keeps_same ht.sound hc hsame rfl
  have hu₀ : Usable d { σ.drive with dma := x } E (atRecord f r0 r1) :=
    hu.imp id fun ⟨n, h⟩ => ⟨n, h.congr rfl rfl⟩
  have hwr : Writable d E (atRecord f r0 r1) := by
    refine ⟨hro.1, fun n hn hun hnm => ?_⟩
    have hview := ht.sound.view n hn
    obtain ⟨h1, -, -, -, hex, -⟩ := hview.keys
    rw [readOnly, hex]
    exact hro.2 n hn (hview.used_iff.mp hun) (by rw [← h1]; exact hnm)
  have hmode : (if zero then 2 else 0 : UInt8) ≠ 1 := by
    split <;> decide
  obtain ⟨f', s', E', heq, hk, hu', -, hcase⟩ :=
    File.writeRan_spec hd hk₀.sound hk₀.coherent hu₀ rfl hwr hmode
  have hexec : exec d σ (.writeRan i zero r0 r1 x) =
      some ⟨s', Function.update σ.fcbs i (some f')⟩ := by
    simp only [exec, hf, Option.bind_some, heq, Option.map_some]
  have htr := ht.step hf rfl (hk₀.trans hk) hu'
  have hw₀ : Holds d { σ.drive with dma := x } E W :=
    fun k r y hy => preserves_same hsame k r y (hw k r y hy)
  rcases hcase with ⟨h0, hstore, hothers⟩ | ⟨h2, hall, hpres⟩ | ⟨h5, hall, hpres⟩
  · refine ⟨_, hexec, ⟨E', htr, fun k r y hy => ?_⟩, .inl h0⟩
    simp only [Store.after, h0, hf, if_true] at hy
    split at hy
    · rename_i hkr
      obtain rfl := Option.some.inj hy
      obtain ⟨rfl, rfl⟩ := Prod.mk.inj hkr
      exact hstore
    · rename_i hkr
      exact hothers k r y hkr (hw₀ k r y hy)
  · refine ⟨_, hexec, ⟨E', htr, fun k r y hy => ?_⟩, .inr (.inl ⟨h2, hall⟩)⟩
    simp only [Store.after, h2] at hy
    exact hpres k r y (hw₀ k r y hy)
  · refine ⟨_, hexec, ⟨E', htr, fun k r y hy => ?_⟩,
      .inr (.inr ⟨h5, fun n hn => (ht.sound.view n hn).used_iff.mp (hall n hn)⟩)⟩
    simp only [Store.after, h5] at hy
    exact hpres k r y (hw₀ k r y hy)

/-- Closing a file writes its newest entries. -/
lemma closed_spec {i : ι} {f : FileFcb} (hf : σ.fcbs i = some f) :
    ∃ s' b, File.closeIt d f σ.drive = (f, s', b) ∧ Holds d s' E W ∧ s'.status ≠ 0xff ∧
      Settled d s' E f ∧ Tracks d ⟨s', Function.update σ.fcbs i (some f)⟩ E := by
  have hu := ht.usable i f hf
  obtain ⟨h1, hk, hset, hpres, hst, -⟩ := File.closeIt_spec hd ht.sound (ht.coherent hf)
    hu.attached
  rcases hcl : File.closeIt d f σ.drive with ⟨f', s', b⟩
  rw [hcl] at h1 hk hset hpres hst
  obtain rfl : f' = f := h1
  refine ⟨s', b, rfl, fun k r x hx => hpres k r x (hw k r x hx), hst, hset, ht.step hf rfl hk ?_⟩
  rcases hu with h | ⟨n, h⟩
  · exact .inl h
  · exact .inr ⟨n, h.le, h.used, h.name, h.xl, h.xh, h.al, h.rc, h.ex,
      fun _ => hset n h.le fun _ => h.name.symm⟩

/-- **Closing a file** that stays in use. -/
lemma does_flush {i : ι} (ha : Allowed d σ (.flush i)) : Does d σ W (.flush i) := by
  obtain ⟨f, hf⟩ := Option.ne_none_iff_exists'.mp ha
  obtain ⟨s', b, hcl, hh, hst, -, htr⟩ := closed_spec hd ht hw hf
  refine ⟨⟨s', Function.update σ.fcbs i (some f)⟩, ?_, ⟨E, htr, hh⟩, hst⟩
  simp only [exec, hf, Option.map_some, hcl]

/-- **Closing a file.** -/
lemma does_closeFil {i : ι} (ha : Allowed d σ (.closeFil i)) : Does d σ W (.closeFil i) := by
  obtain ⟨f, hf⟩ := Option.ne_none_iff_exists'.mp ha
  obtain ⟨s', b, hcl, hh, hst, hset, htr⟩ := closed_spec hd ht hw hf
  have hrem := htr.remove (i := i) (Function.update_self ..) hset
  simp only [Function.update_idem] at hrem
  refine ⟨⟨s', Function.update σ.fcbs i none⟩, ?_, ⟨E, hrem, hh⟩, hst⟩
  simp only [exec, hf, Option.map_some, hcl]

/-- **Erasing the files of a name.** -/
lemma does_delFile {g : CpmDir} (ha : Allowed d σ (.delFile g)) : Does d σ W (.delFile g) := by
  obtain ⟨hg, hno, hro⟩ := ha
  rcases File.eraFile_spec hd ht.sound hg fun n hn => ht.settled_match hno hn with
    ⟨-, n, hn, hm, hr⟩ | ⟨t, heq, hsw, hst⟩
  · exact absurd hr (ht.not_readOnly hro hn hm)
  · refine ⟨⟨File.stStatus t, σ.fcbs⟩, by simp only [exec, File.delFile, heq, Option.map_some],
      ⟨_, (ht.sweep hno hsw).moved ⟨rfl, rfl, rfl, rfl, rfl, rfl⟩, fun k r x hx => ?_⟩,
      ht.named_status hst⟩
    simp only [Store.after] at hx
    split at hx
    · cases hx
    · rename_i hk
      exact File.stores_other hd ht.sound hsw hk (hw k r x hx)

/-- **Renaming a file.**

**Proof sketch.** By `File.chgNames_spec`, where no entry is read-only. The records of the old name
are those of the new one afterwards (`stores_renamed`), and those of other names stay
(`stores_other`). -/
lemma does_renFile {g : CpmDir} (ha : Allowed d σ (.renFile g)) : Does d σ W (.renFile g) := by
  obtain ⟨hg, hnew, hno, hro, habs⟩ := ha
  have habs' : ∀ n ≤ d.drm, (E n).Used → nameOf (E n) ≠ nameOf (File.newName g) := by
    intro n hn hu
    rw [(ht.sound.view n hn).keys.1]
    exact habs n hn ((ht.sound.view n hn).used_iff.mp hu)
  rcases File.chgNames_spec hd ht.sound hg hnew (fun n hn => ht.settled_match hno hn) habs' with
    ⟨-, n, hn, hm, hr⟩ | ⟨t, heq, hsw, hst⟩
  · exact absurd hr (ht.not_readOnly hro hn hm)
  · refine ⟨⟨File.stStatus t, σ.fcbs⟩, by simp only [exec, File.renFile, heq, Option.map_some],
      ⟨_, (ht.sweep hno hsw).moved ⟨rfl, rfl, rfl, rfl, rfl, rfl⟩, fun k r x hx => ?_⟩,
      ht.named_status hst⟩
    simp only [Store.after] at hx
    split at hx
    · rename_i hk
      rw [hk]
      exact File.stores_renamed hd ht.sound hnew hsw (hg.matches_iff.mpr rfl) (hw _ r x hx)
    · split at hx
      · cases hx
      · rename_i hk
        exact File.stores_other hd ht.sound hsw (fun h => hk (hg.matches_iff.mp h).symm)
          (hw k r x hx)

/-- **Setting the attributes of a file.** -/
lemma does_setAttr {g : CpmDir} (ha : Allowed d σ (.setAttr g)) : Does d σ W (.setAttr g) := by
  obtain ⟨hg, hno⟩ := ha
  obtain ⟨t, heq, hsw, hst⟩ := File.saveAttr_spec hd ht.sound hg fun n hn => ht.settled_match hno hn
  refine ⟨⟨File.stStatus t, σ.fcbs⟩, by simp only [exec, File.setAttr, heq, Option.map_some],
    ⟨_, (ht.sweep hno hsw).moved ⟨rfl, rfl, rfl, rfl, rfl, rfl⟩, fun k r x hx => ?_⟩,
    ht.named_status hst⟩
  by_cases hk : Matches g k
  · obtain rfl := hg.matches_iff.mp hk
    exact File.stores_renamed hd ht.sound hg hsw hk (hw _ r x hx)
  · exact File.stores_other hd ht.sound hsw hk (hw k r x hx)

end Calls

/-- **Every call that the rules allow returns**, with the right result, and keeps the invariant. -/
lemma does_allowed (hd : Flat d) (hg : Good d σ W) {c : Call ι} (ha : Allowed d σ c) :
    Does d σ W c := by
  obtain ⟨E, ht, hw⟩ := hg
  cases c with
  | openFil i f => exact does_openFil hd ht hw ha
  | fCreate i f => exact does_fCreate hd ht hw ha
  | readRan i r0 r1 => exact does_readRan hd ht hw ha
  | writeRan i zero r0 r1 x => exact does_writeRan hd ht hw ha
  | flush i => exact does_flush hd ht hw ha
  | closeFil i => exact does_closeFil hd ht hw ha
  | delFile g => exact does_delFile hd ht hw ha
  | renFile g => exact does_renFile hd ht hw ha
  | setAttr g => exact does_setAttr hd ht hw ha

/-! ## Runs -/

/-- A call, with the store. -/
def step (d : Dpb) (p : Sys ι × Store) (c : Call ι) : Option (Sys ι × Store) :=
  (exec d p.1 c).map fun σ' => (σ', p.2.after p.1 σ'.drive.status c)

/-- **A run that keeps to the rules** goes through, every call of it gives the right result, and the
invariant holds at its end.

**Proof sketch.** Induction on the calls, with `does_allowed` for the first one. -/
lemma run_good (hd : Flat d) (cs : List (Call ι)) : ∀ (σ : Sys ι) (W : Store), Good d σ W →
    Follows d σ cs →
    (∃ σ' W', Runs.run (step d) (σ, W) cs = some (σ', W') ∧ Good d σ' W') ∧
      Runs.Along (step d) (fun p c q => Right d p.1 p.2 q.1 c) (σ, W) cs := by
  induction cs with
  | nil => exact fun σ W hg _ => ⟨⟨σ, W, rfl, hg⟩, trivial⟩
  | cons c cs ih =>
    rintro σ W hg ⟨ha, hf⟩
    obtain ⟨σ', hex, hg', hr⟩ := does_allowed hd hg ha
    have hstep : step d (σ, W) c = some (σ', W.after σ σ'.drive.status c) := by
      simp only [step, hex, Option.map_some]
    obtain ⟨⟨σ'', W'', hrun, hg''⟩, hal⟩ := ih σ' _ hg' (hf σ' hex)
    refine ⟨⟨σ'', W'', ?_, hg''⟩, fun p hp => ?_⟩
    · simp only [Runs.run, hstep, Option.bind_some, hrun]
    · rw [hstep] at hp
      obtain rfl := Option.some.inj hp
      exact ⟨hr, hal⟩

/-- A program that has no file open. -/
def idle (s : Drive) : Sys ι := ⟨s, fun _ => none⟩

omit [DecidableEq ι] in
/-- A sound drive and no open files. -/
lemma good_idle {s : Drive} (hs : Sound d s s.slot) (hw : Holds d s s.slot W) :
    Good d (idle s : Sys ι) W := by
  refine ⟨s.slot, ⟨hs, ?_, ?_, ?_, fun n _ => .inl rfl⟩, hw⟩
  · intro i f hf
    cases hf
  · intro i f hf
    cases hf
  · intro i j f g hf
    cases hf

/-! ### A small run -/

/-- A run that writes a record and reads it back. -/
def tinyCalls : List (Call Unit) :=
  [.openFil () tinyFcb, .writeRan () false 5 0 (fun _ => 7), .readRan () 5 0, .closeFil ()]

/-- The run keeps to the rules. -/
lemma tiny_follows : Follows tinyDpb (idle tinyDrive) tinyCalls := by
  have hslot : ∀ n ≤ tinyDpb.drm, n = 0 := fun n hn => Nat.le_zero.mp hn
  refine ⟨⟨rfl, tiny_plain, by decide, fun i f h => by cases h⟩, ?_⟩
  intro σ₁ h₁
  obtain rfl := Option.some.inj h₁
  refine ⟨⟨_, rfl, by decide, fun n hn _ _ => ?_⟩, ?_⟩
  · obtain rfl := hslot n hn
    decide
  intro σ₂ h₂
  obtain rfl := Option.some.inj h₂
  refine ⟨Option.some_ne_none _, ?_⟩
  intro σ₃ h₃
  obtain rfl := Option.some.inj h₃
  exact ⟨Option.some_ne_none _, fun _ _ => trivial⟩

/-- The empty store. -/
lemma tiny_holds : Holds tinyDpb tinyDrive tinyDrive.slot fun _ _ => none := by
  intro k r x h
  cases h

/-! ### The theorems -/

section Theorems

variable {s : Drive} (hd : Flat d) (hs : Sound d s s.slot) (hw : Holds d s s.slot W)
  (cs : List (Call ι)) (hf : Follows d (idle s) cs)

include hd hs hw hf

/-- **Every call of every run gives the right result.** From a sound drive and with no file open,
all calls of a run that keeps to the rules return. A record that was written by one of them, and
not erased since, is read back without an error, whatever calls to whatever files are made in
between; writing fails only if all blocks or all directory entries are in use, and closing never
fails. -/
theorem follows_right : (Runs.run (step d) (idle s, W) cs).isSome ∧
    Runs.Along (step d) (fun p c q => Right d p.1 p.2 q.1 c) (idle s, W) cs := by
  obtain ⟨⟨σ', W', hrun, -⟩, hal⟩ := run_good hd cs _ W (good_idle hs hw) hf
  rw [hrun]
  exact ⟨rfl, hal⟩

/-- **A run that closes its files leaves all records on the disk**: the drive is sound as the disk
has it, and its directory has every record of the store. -/
theorem follows_durable {σ' : Sys ι} {W' : Store}
    (hrun : Runs.run (step d) (idle s, W) cs = some (σ', W')) (hclosed : ∀ i, σ'.fcbs i = none) :
    Sound d σ'.drive σ'.drive.slot ∧ Holds d σ'.drive σ'.drive.slot W' := by
  obtain ⟨⟨σ₁, W₁, hrun₁, E, ht, hh⟩, -⟩ := run_good hd cs _ W (good_idle hs hw) hf
  rw [hrun] at hrun₁
  obtain ⟨rfl, rfl⟩ := Prod.mk.inj (Option.some.inj hrun₁)
  have hE : ∀ n ≤ d.drm, E n = σ'.drive.slot n := fun n hn => ht.closed hclosed hn
  refine ⟨ht.sound.ext hE, fun k r x hx => ?_⟩
  obtain ⟨n, hn, h⟩ := hh k r x hx
  rw [hE n hn] at h
  exact ⟨n, hn, h⟩

/-- **No run shares or loses a block.** At the end of every run that keeps to the rules, with the
newest entries taken from the disk and from the file control blocks of the open files, a block
behind the directory is marked iff exactly one pointer of one entry names it.

**Proof sketch.** At the end of the run there is an orderly view whose entries are on the disk or
in the file control block of an open file. A marked block behind the directory is of an entry
(`tight`), of one only (`apart`), and every pointer is marked. -/
theorem follows_space {σ' : Sys ι} {W' : Store}
    (hrun : Runs.run (step d) (idle s, W) cs = some (σ', W')) :
    ∃ E : ℕ → CpmDir,
      (∀ n ≤ d.drm, E n = σ'.drive.slot n ∨ ∃ i f, σ'.fcbs i = some f ∧
        nameOf f.entry = nameOf (E n) ∧ extOf f.entry = extOf (E n) ∧ f.entry.al = (E n).al) ∧
      ∀ b, d.dirBlocks ≤ b → b ≤ d.dsm → (mem σ'.drive.alv b = true ↔
        ∃! p : ℕ × ℕ, p.1 ≤ d.drm ∧ (E p.1).Used ∧ p.2 < pointers d ∧
          (E p.1).pointer (pointers d) p.2 = b) := by
  obtain ⟨⟨σ₁, W₁, hrun₁, E, ht, -⟩, -⟩ := run_good hd cs _ W (good_idle hs hw) hf
  rw [hrun] at hrun₁
  obtain ⟨rfl, rfl⟩ := Prod.mk.inj (Option.some.inj hrun₁)
  have ho := ht.sound.orderly
  refine ⟨E, fun n hn => ?_, fun b hb1 hb2 => ⟨fun hmem => ?_, ?_⟩⟩
  · rcases ht.newest n hn with h | ⟨i, f, hf, ha⟩
    · exact .inl h
    · exact .inr ⟨i, f, hf, ha.name, ha.ext ht.sound, ha.al⟩
  · rcases ho.tight b hb2 hmem with h | ⟨hb0, n, hn, hu, i, hi, heq⟩
    · omega
    · refine ⟨(n, i), ⟨hn, hu, hi, heq⟩, ?_⟩
      rintro ⟨m, j⟩ ⟨hm, hum, hj, heq'⟩
      obtain ⟨h1, h2⟩ := ho.apart n hn m hm hu hum i hi j hj (heq ▸ hb0) (heq.trans heq'.symm)
      exact Prod.ext h1.symm h2.symm
  · rintro ⟨⟨n, i⟩, ⟨hn, hu, hi, heq⟩, -⟩
    have hdirs := hd.dirs
    have hb0 : b ≠ 0 := by
      rintro rfl
      rw [show d.dirBlocks = 0 by omega] at hdirs
      omega
    have := ho.marked n hn hu i hi (by rw [heq]; exact hb0)
    rwa [heq] at this

end Theorems

/-- The calls of the small run give the right results. -/
theorem follows_right_tiny :
    (Runs.run (step tinyDpb) (idle tinyDrive, fun _ _ => none) tinyCalls).isSome ∧
    Runs.Along (step tinyDpb) (fun p c q => Right tinyDpb p.1 p.2 q.1 c)
      (idle tinyDrive, fun _ _ => none) tinyCalls :=
  follows_right tiny_flat tiny_sound tiny_holds tinyCalls tiny_follows

/-- The record of the small run is on the disk. -/
theorem follows_durable_tiny :
    ∃ p, Runs.run (step tinyDpb) (idle tinyDrive, fun _ _ => none) tinyCalls = some p ∧
      p.2 (nameOf tinyEntry) 5 = some (fun _ => 7) ∧
      Sound tinyDpb p.1.drive p.1.drive.slot ∧ Holds tinyDpb p.1.drive p.1.drive.slot p.2 :=
  ⟨_, rfl, rfl, follows_durable tiny_flat tiny_sound tiny_holds tinyCalls tiny_follows rfl
    fun _ => rfl⟩

/-- The blocks after the small run. -/
theorem follows_space_tiny :
    ∃ p, Runs.run (step tinyDpb) (idle tinyDrive, fun _ _ => none) tinyCalls = some p ∧
      ∃ E : ℕ → CpmDir,
        (∀ n ≤ tinyDpb.drm, E n = p.1.drive.slot n ∨ ∃ i f, p.1.fcbs i = some f ∧
          nameOf f.entry = nameOf (E n) ∧ extOf f.entry = extOf (E n) ∧ f.entry.al = (E n).al) ∧
        ∀ b, tinyDpb.dirBlocks ≤ b → b ≤ tinyDpb.dsm → (mem p.1.drive.alv b = true ↔
          ∃! p : ℕ × ℕ, p.1 ≤ tinyDpb.drm ∧ (E p.1).Used ∧ p.2 < pointers tinyDpb ∧
            (E p.1).pointer (pointers tinyDpb) p.2 = b) :=
  ⟨_, rfl, follows_space tiny_flat tiny_sound tiny_holds tinyCalls tiny_follows rfl⟩

end Sys

end Bdos

end Cpm22
