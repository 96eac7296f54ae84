import Mathlib.Tactic.FinCases
import Cpm22.Disk.Containment
import Cpm22.Disk.Frame

set_option relaxedAutoImplicit false
set_option autoImplicit false

/-!
# Host files that the guest does not see

Several host names can have the same CP/M name; `readhost` imports the first one that `readdir`
lists and skips the others. When the guest later creates a file or renames one, `mkhostname`
computes the host path from the CP/M name alone. This file is about the host files that no entry of
the name map leads to: in which runs they are left alone.

A skipped file is in danger exactly if it lies where `mkhostname` puts a file of its name. The
condition is that a run gives no file a name with such a skipped file.

## Main definitions

* `Cpm22.Disk.Misses` — no entry of the name map leads to a file.
* `Cpm22.Disk.Skipped` — a file that is not the one of its name lies at the host path of the name.
* `Cpm22.Disk.LegalRun` — a run of directory and data writes with legal names.
* `Cpm22.Disk.Careful` — a run that makes no name with a skipped file.
* `Cpm22.Disk.Spares` — no step of a run changes a file that no entry leads to.

## Main results

* `Cpm22.Disk.spared_write`, `Cpm22.Disk.homes_write` — one step.
* `Cpm22.Disk.bystanders_spared` — the run.
* `Cpm22.Disk.skipped_truncated` — a skipped file that is lost.
-/

namespace Cpm22.Disk

open HostPath HostFs

variable {dk dk' : Disk} {path : Bytes} {old new : CpmDir}

/-! ## Files that no entry leads to -/

/-- **No entry of the name map leads to the file.** -/
def Misses (m : AList fun _ : Bytes => Bytes) (q : NPath) : Prop :=
  ∀ k p, m.lookup k = some p → normal p ≠ q

/-- Erasing a name. -/
lemma Misses.erase {m : AList fun _ : Bytes => Bytes} {q : NPath} (h : Misses m q) (k : Bytes) :
    Misses (m.erase k) q := by
  intro l p hl
  by_cases hlk : l = k
  · rw [hlk, AList.lookup_erase] at hl
    cases hl
  · rw [AList.lookup_erase_ne hlk] at hl
    exact h l p hl

/-- Entering a path of another file. -/
lemma Misses.insert {m : AList fun _ : Bytes => Bytes} {q : NPath} (h : Misses m q) (k : Bytes)
    {p : Bytes} (hp : normal p ≠ q) : Misses (m.insert k p) q := by
  intro l p' hl
  by_cases hlk : l = k
  · rw [hlk, AList.lookup_insert] at hl
    exact Option.some.inj hl ▸ hp
  · rw [AList.lookup_insert_ne hlk] at hl
    exact h l p' hl

/-- The file `q` has the contents `c`, and no entry of the name map leads to it. -/
structure Spared (path : Bytes) (q : NPath) (c : Bytes) (dk : Disk) : Prop where
  drive : dk.path = path
  content : dk.host.contents q = some c
  missed : Misses dk.cpm2unix q

/-- Replacing an entry leaves the file alone, unless it gives the file's path to the new name.

**Proof sketch.** A change removes or renames files of the name map, and it creates or replaces the
file at the path of the new name; `q` is neither. -/
lemma spared_hostChange {q : NPath} {c : Bytes}
    (hname : MakesName old new → normal (hostPath path new.getName) ≠ q) :
    Exc.Triple (Spared path q c) (hostChange old new) (fun _ => Spared path q c)
      (Spared path q c) := by
  intro dk h
  obtain ⟨rfl, hcontent, hmiss⟩ := h
  have hs := static_hostChange old new dk
  cases hr : hostChange old new dk with
  | error x dk₁ =>
    rw [hr] at hs
    obtain ⟨hfiles, hmap⟩ := hostChange_failed hr
    exact ⟨hs.path, by rw [hfiles, hcontent], by rw [hmap]; exact hmiss⟩
  | ok u dk₁ =>
    rw [hr] at hs
    cases (hostChange_effect hr).1 with
    | skip _ same =>
      subst same
      exact ⟨rfl, hcontent, hmiss⟩
    | delete p hn ho h0 hp names files =>
      refine ⟨hs.path, ?_, names ▸ hmiss.erase _⟩
      rw [files, Function.update_of_ne (hmiss _ p hp).symm, hcontent]
    | create hn ho h0 names files =>
      have hq := hname ⟨hn, h0, .inl ho⟩
      refine ⟨hs.path, ?_, names ▸ hmiss.insert _ hq⟩
      rw [files, Function.update_of_ne hq.symm, hcontent]
    | rename p c' hn ho hnew h0 h1 hp hc names files =>
      have hq := hname ⟨hn, h1, .inr ⟨hnew, h0⟩⟩
      refine ⟨hs.path, ?_, names ▸ (hmiss.erase _).insert _ hq⟩
      rw [files, Function.update_of_ne hq.symm, Function.update_of_ne (hmiss _ p hp).symm,
        hcontent]

/-- Writing into a file of the name map leaves the file alone. -/
lemma spared_writes {q : NPath} {c : Bytes} : KeptByWrites (Spared path q c) := by
  rintro dk k p pos d ⟨rfl, hcontent, hmiss⟩ hp
  refine ⟨rfl, ?_, hmiss⟩
  cases hok : (dk.host.write p pos d).1 with
  | true =>
    obtain ⟨-, c₀, -, hfiles⟩ := Host.contents_write hok
    exact (congrFun hfiles q).trans
      ((Function.update_of_ne (hmiss k p hp).symm ..).trans hcontent)
  | false => exact (congrFun (Host.contents_attempt hok) q).trans hcontent

/-! ## The homes of the names -/

/-- **A file at the host path of the name is the file of the name**, for the names of `S`. -/
structure Homes (S : Bytes → Prop) (path : Bytes) (dk : Disk) : Prop where
  drive : dk.path = path
  home : ∀ k, S k → (dk.host.contents (normal (hostPath path k))).isSome →
    ∃ p, dk.cpm2unix.lookup k = some p ∧ normal p = normal (hostPath path k)

/-- Different names have different host paths. -/
def Injective (S : Bytes → Prop) (path : Bytes) : Prop :=
  ∀ k l, S k → S l → normal (hostPath path k) = normal (hostPath path l) → k = l

/-- Replacing an entry by one with a name of `S` keeps the homes.

**Proof sketch.** By the effect of the change. A file that is removed or renamed leaves the path of
its name together with its entry in the map; the file at the path of the new name gets the new
entry; and the paths of the other names are not concerned. -/
lemma homes_hostChange {S : Bytes → Prop} (hinj : Injective S path)
    (hname : MakesName old new → S new.getName) :
    Exc.Triple (Homes S path) (hostChange old new) (fun _ => Homes S path) (Homes S path) := by
  intro dk h
  obtain ⟨rfl, hhome⟩ := h
  have hs := static_hostChange old new dk
  cases hr : hostChange old new dk with
  | error x dk₁ =>
    rw [hr] at hs
    obtain ⟨hfiles, hmap⟩ := hostChange_failed hr
    exact ⟨hs.path, fun k hk hin => by rw [hfiles] at hin; rw [hmap]; exact hhome k hk hin⟩
  | ok u dk₁ =>
    rw [hr] at hs
    cases (hostChange_effect hr).1 with
    | skip _ same =>
      subst same
      exact ⟨rfl, hhome⟩
    | delete p hn ho h0 hp names files =>
      refine ⟨hs.path, fun k hk hin => ?_⟩
      have hne : normal (hostPath dk.path k) ≠ normal p := by
        intro hq
        rw [files, hq, Function.update_self] at hin
        cases hin
      rw [files, Function.update_of_ne hne] at hin
      obtain ⟨p', hp', hnorm⟩ := hhome k hk hin
      refine ⟨p', ?_, hnorm⟩
      rw [names, AList.lookup_erase_ne]
      · exact hp'
      · rintro rfl
        exact hne (Option.some.inj (hp.symm.trans hp') ▸ hnorm.symm)
    | create hn ho h0 names files =>
      have hS := hname ⟨hn, h0, .inl ho⟩
      refine ⟨hs.path, fun k hk hin => ?_⟩
      by_cases hkn : k = new.getName
      · exact ⟨_, by rw [names, hkn, AList.lookup_insert], by rw [hkn]⟩
      · have hne : normal (hostPath dk.path k) ≠ normal (hostPath dk.path new.getName) :=
          fun hq => hkn (hinj k _ hk hS hq)
        rw [files, Function.update_of_ne hne] at hin
        rw [names, AList.lookup_insert_ne hkn]
        exact hhome k hk hin
    | rename p c' hn ho hnew h0 h1 hp hc names files =>
      have hS := hname ⟨hn, h1, .inr ⟨hnew, h0⟩⟩
      refine ⟨hs.path, fun k hk hin => ?_⟩
      by_cases hkn : k = new.getName
      · exact ⟨_, by rw [names, hkn, AList.lookup_insert], by rw [hkn]⟩
      · have hne : normal (hostPath dk.path k) ≠ normal (hostPath dk.path new.getName) :=
          fun hq => hkn (hinj k _ hk hS hq)
        rw [files, Function.update_of_ne hne] at hin
        have hne' : normal (hostPath dk.path k) ≠ normal p := by
          intro hq
          rw [hq, Function.update_self] at hin
          cases hin
        rw [Function.update_of_ne hne'] at hin
        obtain ⟨p', hp', hnorm⟩ := hhome k hk hin
        refine ⟨p', ?_, hnorm⟩
        rw [names, AList.lookup_insert_ne hkn, AList.lookup_erase_ne]
        · exact hp'
        · rintro rfl
          exact hne' (Option.some.inj (hp.symm.trans hp') ▸ hnorm.symm)

/-- Writing into files keeps the homes. -/
lemma homes_writes {S : Bytes → Prop} : KeptByWrites (Homes S path) := by
  rintro dk k p pos d ⟨rfl, hhome⟩ hp
  refine ⟨rfl, fun l hl hin => hhome l hl ?_⟩
  cases hok : (dk.host.write p pos d).1 with
  | true =>
    obtain ⟨-, c, hc, hfiles⟩ := Host.contents_write hok
    have hin' : ((Function.update dk.host.contents (normal p) (some (writeAt c pos d)))
        (normal (hostPath dk.path l))).isSome := hfiles ▸ hin
    by_cases hq : normal (hostPath dk.path l) = normal p
    · rw [hq, hc]
      rfl
    · rwa [Function.update_of_ne hq] at hin'
  | false =>
    have hsame : (dk.host.write p pos d).2.contents = dk.host.contents := Host.contents_attempt hok
    exact hsame ▸ hin

/-! ## One step -/

/-- The sector is not on a reserved track: the write is a directory or a data write. -/
def OffSystem (dk : Disk) (track sector : ℕ) : Prop :=
  ∀ a, dk.getAbsSector track sector = some a → dk.dirstart ≤ a

/-- The change makes a host name for `new` when the sector is written. -/
def Makes (dk : Disk) (track sector : ℕ) (dma : Sector) (new : CpmDir) : Prop :=
  ∃ old, SlotChange dk track sector dma old new ∧ old.eq new = false ∧ MakesName old new

/-- **A write leaves a file alone** that no entry leads to, if it does not make a name with the
file's path. -/
lemma spared_write {track sector : ℕ} {dma : Sector} {q : NPath} {c : Bytes}
    (h : Spared path q c dk) (hoff : OffSystem dk track sector)
    (hmakes : ∀ new, Makes dk track sector dma new → normal (hostPath path new.getName) ≠ q) :
    Spared path q c (Exc.final (write track sector dma dk)) := by
  refine (write_rule ?_ ?_ spared_writes).final ⟨h, fun a ha h1 => ?_, fun old new hs heq => ?_⟩
  · exact fun _ _ h => ⟨h.drive, h.content, h.missed⟩
  · exact fun _ _ h => ⟨h.drive, h.content, h.missed⟩
  · exact absurd h1 (Nat.not_lt.mpr (hoff a ha))
  · exact spared_hostChange fun hm => hmakes new ⟨old, hs, heq, hm⟩

/-- **A write keeps the homes**, if the names it makes are in `S`. -/
lemma homes_write {track sector : ℕ} {dma : Sector} {S : Bytes → Prop} (hinj : Injective S path)
    (h : Homes S path dk) (hoff : OffSystem dk track sector)
    (hmakes : ∀ new, Makes dk track sector dma new → S new.getName) :
    Homes S path (Exc.final (write track sector dma dk)) := by
  refine (write_rule ?_ ?_ homes_writes).final ⟨h, fun a ha h1 => ?_, fun old new hs heq => ?_⟩
  · exact fun _ _ h => ⟨h.drive, h.home⟩
  · exact fun _ _ h => ⟨h.drive, h.home⟩
  · exact absurd h1 (Nat.not_lt.mpr (hoff a ha))
  · exact homes_hostChange hinj fun hm => hmakes new ⟨old, hs, heq, hm⟩

/-! ## Runs -/

/-- **A run of directory and data writes with legal names.** -/
def LegalRun : List (ℕ × ℕ × Sector) → Disk → Prop
  | [], _ => True
  | (track, sector, dma) :: ws, dk => OffSystem dk track sector ∧
      (∀ new, Makes dk track sector dma new → new.LegalName) ∧
      ∀ r dk', write track sector dma dk = .ok r dk' → LegalRun ws dk'

/-- **A skipped file lies at the host path of the name**: there is a file, and it is not the one
that the name map has for the name. -/
def Skipped (dk : Disk) (k : Bytes) : Prop :=
  (dk.host.contents (normal (hostPath dk.path k))).isSome ∧
    ∀ p, dk.cpm2unix.lookup k = some p → normal p ≠ normal (hostPath dk.path k)

/-- **No name that the run makes had a skipped file at its host path at the start.** -/
def Careful (start : Disk) : List (ℕ × ℕ × Sector) → Disk → Prop
  | [], _ => True
  | (track, sector, dma) :: ws, dk =>
      (∀ new, Makes dk track sector dma new → ¬ Skipped start new.getName) ∧
      ∀ r dk', write track sector dma dk = .ok r dk' → Careful start ws dk'

/-- **No step of the run changes a file that no entry of the name map leads to**, a step that
throws included. -/
def Spares : List (ℕ × ℕ × Sector) → Disk → Prop
  | [], _ => True
  | (track, sector, dma) :: ws, dk =>
      (∀ q c, dk.host.contents q = some c → Misses dk.cpm2unix q →
        (Exc.final (write track sector dma dk)).host.contents q = some c) ∧
      ∀ r dk', write track sector dma dk = .ok r dk' → Spares ws dk'

/-- The legal names without a skipped file at the start. -/
def FreeName (start : Disk) (k : Bytes) : Prop :=
  (∃ e : CpmDir, e.LegalName ∧ e.getName = k) ∧ ¬ Skipped start k

/-- Legal names have different host paths. -/
lemma injective_freeName (start : Disk) (hpath : path ≠ []) :
    Injective (FreeName start) path := by
  rintro k l ⟨⟨e, he, rfl⟩, -⟩ ⟨⟨f, hf, rfl⟩, -⟩ h
  exact (denotes_hostPath hpath he).inj (denotes_hostPath hpath hf) h

/-- At the start a file at the path of a free name is the file of the name. -/
lemma homes_start (start : Disk) : Homes (FreeName start) start.path start := by
  refine ⟨rfl, fun k hk hin => ?_⟩
  by_contra hno
  exact hk.2 ⟨hin, fun p hp hnorm => hno ⟨p, hp, hnorm⟩⟩

/-- The run, from a state that the start leads to. -/
lemma spares_of_homes {start : Disk} (hpath : start.path ≠ []) :
    ∀ {ws : List (ℕ × ℕ × Sector)} {dk : Disk}, Homes (FreeName start) start.path dk →
      LegalRun ws dk → Careful start ws dk → Spares ws dk := by
  intro ws
  induction ws with
  | nil => exact fun _ _ _ => trivial
  | cons w ws ih =>
    obtain ⟨track, sector, dma⟩ := w
    rintro dk h ⟨hoff, hlegal, hrun⟩ ⟨hfree, hcareful⟩
    have hmakes : ∀ new, Makes dk track sector dma new → FreeName start new.getName :=
      fun new hm => ⟨⟨new, hlegal new hm, rfl⟩, hfree new hm⟩
    refine ⟨fun q c hc hmiss => ?_, fun r dk' hw => ?_⟩
    · refine (spared_write ⟨h.drive, hc, hmiss⟩ hoff fun new hm hq => ?_).content
      -- a file at the path of a free name is the one of its name
      obtain ⟨p, hp, hnorm⟩ := h.home _ (hmakes new hm) (by rw [hq, hc]; rfl)
      exact hmiss _ p hp (hnorm.trans hq)
    · have hnext := homes_write (injective_freeName start hpath) h hoff hmakes
      rw [hw] at hnext
      exact ih hnext (hrun r dk' hw) (hcareful r dk' hw)

/-- **Files the guest does not see are left alone.** From any disk, in particular from the one that
is built from a host directory in any order of its names, no step of a run of directory and data
writes with legal names changes a host file that no entry of the name map leads to, provided that
no name that the run makes had a skipped file at its host path at the start.

**Proof sketch.** The invariant `Homes` says that a file at the host path of a name the run may make
is the file of that name. It holds at the start because the names have no skipped file, and every
write keeps it (`homes_write`). A file that no entry leads to is then at the path of none of these
names, so that no call of the step concerns it (`spared_write`). -/
theorem bystanders_spared (dk : Disk) (hpath : dk.path ≠ []) (ws : List (ℕ × ℕ × Sector))
    (hlegal : LegalRun ws dk) (hcareful : Careful dk ws dk) : Spares ws dk :=
  spares_of_homes hpath (homes_start dk) hlegal hcareful

/-! ## A skipped file -/

/-- A host with the files `foo` and `FOO` in the drive directory. -/
def twinHost : Host where
  node p :=
    if p = ⟨true, []⟩ ∨ p = ⟨true, [[ch 'd']]⟩ then some .dir
    else if p = ⟨true, [[ch 'd'], [ch 'f', ch 'o', ch 'o']]⟩ then some (.file [1])
    else if p = ⟨true, [[ch 'd'], [ch 'F', ch 'O', ch 'O']]⟩ then some (.file [2])
    else none
  calls := []
  refuses _ := false

/-- The drive directory lists `foo` first. -/
def twinReaddir (d : Bytes) : Option (List Bytes) :=
  if d = drivePath then some [[ch 'f', ch 'o', ch 'o'], [ch 'F', ch 'O', ch 'O']] else none

/-- The disk that is built: the file `FOO` of CP/M is the host file `foo`. -/
def twinDisk : Disk := Exc.final (build twinReaddir drivePath ibm8 twinHost)

/-- A directory sector without files. -/
def noFiles : Sector := fun _ => CpmDir.UNUSED

/-- The guest deletes its files and makes a new one. -/
def remake (base : Bytes) : List (ℕ × ℕ × Sector) := [(2, 1, noFiles), (2, 1, newFile base)]

/-- A sector without files makes no name. -/
lemma not_makes_noFiles (dk : Disk) (new : CpmDir) : ¬ Makes dk 2 1 noFiles new := by
  rintro ⟨old, ⟨a, idx, -, -, -, -, rfl⟩, -, hu, -⟩
  exact hu rfl

/-- A sector with a new file makes its name only. -/
lemma makes_newFile {base : Bytes} {dk : Disk} {new : CpmDir}
    (h : Makes dk 2 1 (newFile base) new) :
    new = entryOf (newFile base) 0 := by
  obtain ⟨old, ⟨a, idx, -, -, -, -, rfl⟩, -, hu, -⟩ := h
  fin_cases idx
  · rfl
  · exact absurd rfl hu
  · exact absurd rfl hu
  · exact absurd rfl hu

/-- Disks built from `twinDisk` have no reserved sector there. -/
lemma offSystem_twin (h : Static twinDisk dk) : OffSystem dk 2 1 := by
  have habs : twinDisk.getAbsSector 2 1 = some 52 := by decide
  intro a ha
  rw [h.getAbsSector, habs] at ha
  rw [h.dirstart, ← Option.some.inj ha]
  decide

/-- Remaking a file with a legal name is a legal run. -/
lemma legalRun_remake {base : Bytes} (hlegal : (entryOf (newFile base) 0).LegalName) :
    LegalRun (remake base) twinDisk := by
  refine ⟨offSystem_twin (Static.refl _), fun new hm => absurd hm (not_makes_noFiles _ new),
    fun r dk hw => ⟨offSystem_twin ?_, fun new hm => ?_, fun _ _ _ => trivial⟩⟩
  · have hs := static_write 2 1 noFiles twinDisk
    rwa [hw] at hs
  · rw [makes_newFile hm]
    exact hlegal

/-- A file made under another name leaves the skipped file alone. -/
theorem bystanders_spared_twin : Spares (remake [ch 'B', ch 'A', ch 'R']) twinDisk := by
  have hfree : ¬ Skipped twinDisk (entryOf (newFile [ch 'B', ch 'A', ch 'R']) 0).getName := by
    have hnone : twinDisk.host.contents (normal (hostPath twinDisk.path
        (entryOf (newFile [ch 'B', ch 'A', ch 'R']) 0).getName)) = none := by decide
    rintro ⟨h, -⟩
    rw [hnone] at h
    cases h
  refine bystanders_spared twinDisk (by decide) _ (legalRun_remake (by decide +kernel))
    ⟨fun new hm => absurd hm (not_makes_noFiles _ new), fun r dk hw =>
      ⟨fun new hm => ?_, fun _ _ _ => trivial⟩⟩
  rw [makes_newFile hm]
  exact hfree

/-- **A skipped file is truncated**: the host files `foo` and `FOO` have the same CP/M name, and
`readhost` takes `foo` and skips `FOO`; when the guest deletes its file and makes it again, `FOO` is
emptied.

**Proof sketch.** Behind the deletion the map is empty, so that no name leads to `FOO`, which has
its content still. Making the file creates it again, with no content. -/
theorem skipped_truncated :
    build twinReaddir drivePath ibm8 twinHost = .ok () twinDisk ∧
      LegalRun (remake [ch 'F', ch 'O', ch 'O']) twinDisk ∧
      ¬ Spares (remake [ch 'F', ch 'O', ch 'O']) twinDisk := by
  obtain ⟨u, hbuild⟩ := Exc.ok_of_isOk
    (show Exc.isOk (build twinReaddir drivePath ibm8 twinHost) = true by decide)
  obtain ⟨r, hw⟩ := Exc.ok_of_isOk
    (show Exc.isOk (write 2 1 noFiles twinDisk) = true by decide)
  refine ⟨hbuild, legalRun_remake (by decide +kernel), fun h => ?_⟩
  have hmap : (Exc.final (write 2 1 noFiles twinDisk)).cpm2unix.entries = [] := by decide
  have hmiss : Misses (Exc.final (write 2 1 noFiles twinDisk)).cpm2unix
      ⟨true, [[ch 'd'], [ch 'F', ch 'O', ch 'O']]⟩ := by
    intro k p hk
    rw [AList.lookup, hmap] at hk
    cases hk
  have hkept := (h.2 r _ hw).1 ⟨true, [[ch 'd'], [ch 'F', ch 'O', ch 'O']]⟩ [2]
    (by decide) hmiss
  have hlost : (Exc.final (write 2 1 (newFile [ch 'F', ch 'O', ch 'O'])
      (Exc.final (write 2 1 noFiles twinDisk)))).host.contents
      ⟨true, [[ch 'd'], [ch 'F', ch 'O', ch 'O']]⟩ = some [] := by decide
  rw [hlost] at hkept
  cases hkept

end Cpm22.Disk
