import Cpm22.Disk.Calls

set_option relaxedAutoImplicit false
set_option autoImplicit false

/-!
# Containment of the host paths

The guest chooses the names of host files through the directory sectors it writes: eleven bytes
and a status byte for each entry. This file is about the paths that `disk::Write` hands to the
host: which names keep them inside the directory of the drive, and that some names do not.

A name escapes through a slash: a name that starts with one replaces the directory, and a name
with `..` between slashes climbs out of it. `mkhostname` filters white space only.

## Main definitions

* `Cpm22.Disk.Contained` — the paths of a call lie inside the drive directory.
* `Cpm22.CpmDir.SafeName` — the host name of an entry is relative and never climbs too far.
* `Cpm22.Disk.SafeRun` — every name that such a sequence hands to the host is safe.

## Main results

* `Cpm22.Disk.writes_contained` — with safe names every path lies inside the drive directory.
* `Cpm22.Disk.writes_escape` — a name that escapes.
-/

namespace Cpm22

open HostPath HostFs

/-- **The host name of the entry stays in the drive**: it is not an absolute path, and read from
the user's directory its components never climb above the drive directory. -/
def CpmDir.SafeName (e : CpmDir) : Prop :=
  isAbsolute (hostFile e.nameText) = false ∧
    Stays (userComps e.st).length (components (hostFile e.nameText))

instance (e : CpmDir) : Decidable e.SafeName := inferInstanceAs (Decidable (_ ∧ _))

namespace Disk

/-- **The paths that a call creates, truncates, renames or removes lie inside the drive
directory**, and so do the directories it makes. -/
def Contained (path : Bytes) : Call → Prop
  | .createDirectories d => Inside (normal path) (normal d)
  | .create p => Inside (normal path) (normal p)
  | .remove p => Inside (normal path) (normal p)
  | .rename p q => Inside (normal path) (normal p) ∧ Inside (normal path) (normal q)
  | .write _ _ _ => True
  | .read _ _ => True

/-- The names for which writing a sector makes host names are safe. -/
def SafeWrite (dk : Disk) (track sector : ℕ) (dma : Sector) : Prop :=
  ∀ old new, SlotChange dk track sector dma old new → old.eq new = false → MakesName old new →
    new.SafeName

/-- **Every name that a sequence of writes hands to the host is safe.** -/
def SafeRun : List (ℕ × ℕ × Sector) → Disk → Prop
  | [], _ => True
  | (track, sector, dma) :: ws, dk => SafeWrite dk track sector dma ∧
      ∀ res dk', write track sector dma dk = .ok res dk' → SafeRun ws dk'

/-! ## Paths -/

/-- The directory of a user lies inside the drive directory. -/
lemma inside_hostDir {path : Bytes} (hpath : path ≠ []) (u : UInt8) :
    Inside (normal path) (normal (hostDir path u.toNat)) := by
  obtain ⟨-, h⟩ := normal_hostDir hpath u
  rw [h]
  refine ⟨rfl, userComps u, rfl, ?_⟩
  unfold userComps
  split
  · simp
  · simpa using (plain_decimal u).2.2.1.symm

/-- **A safe name lies inside the drive directory.** -/
lemma inside_hostPath {path : Bytes} (hpath : path ≠ []) {e : CpmDir} (h : e.SafeName) :
    Inside (normal path) (normal (hostPath path e.getName)) := by
  obtain ⟨hne, hdir⟩ := normal_hostDir hpath e.st
  have hnot : parentDir ∉ userComps e.st := by
    unfold userComps
    split
    · simp
    · simpa using (plain_decimal e.st).2.2.1.symm
  simp only [hostPath, splitUser_getName]
  exact inside_append hne h.1 hnot hdir h.2

/-- The file of a key lies inside the drive directory. -/
lemma inside_of_denotes {path p k : Bytes} (h : Denotes path p k) :
    Inside (normal path) (normal p) := by
  obtain ⟨u, n, s, hn, -, -, -, h⟩ := h
  rw [h]
  refine ⟨rfl, _, rfl, ?_⟩
  simp only [List.mem_append, List.mem_singleton, not_or]
  refine ⟨?_, hn.2.2.1.symm⟩
  unfold userComps
  split
  · simp
  · simpa using (plain_decimal u).2.2.1.symm

/-- **A drive directory without files** is imported with an empty name map. -/
lemma names_of_empty {readdir : Bytes → Option (List Bytes)} {path : Bytes} {g : Geometry}
    {host : Host} {dk : Disk} (hg : g.Regular) (hpath : path ≠ [])
    (hslash : ∀ d ns, readdir d = some ns → ∀ n ∈ ns, slash ∉ n)
    (hempty : ∀ n c, host.contents n = some c → ¬ Inside (normal path) n)
    (hbuild : build readdir path g host = .ok () dk) (k : Bytes) :
    dk.cpm2unix.lookup k = none := by
  obtain ⟨hb, -⟩ := built_of_build hg hbuild
  obtain ⟨-, hh, hsource⟩ := sourced_of_build hbuild
  obtain ⟨done, blocks, -, -, hsome⟩ := hb.laid
  by_contra hk
  obtain ⟨p, hk⟩ := Option.ne_none_iff_exists'.mp hk
  obtain ⟨u, hu⟩ := hsource k p hk
  obtain ⟨size, hsize, -⟩ := hsome k p hk
  obtain ⟨c, hc, -⟩ := Host.contents_of_stat hsize
  rw [hh] at hc
  exact hempty _ c hc (inside_of_denotes (hu.denotes hpath hslash))

/-! ## Runs -/

/-- A change with a safe name keeps the paths inside the drive directory. -/
lemma permits_of_safe {path : Bytes} (hpath : path ≠ []) {old new : CpmDir}
    (h : MakesName old new → new.SafeName) :
    Permits path (Contained path) (fun p => Inside (normal path) (normal p)) old new where
  delete _ _ _ _ hp := hp
  mkdir _ := inside_hostDir hpath new.st
  name hm := inside_hostPath hpath (h hm)
  create hm _ := inside_hostPath hpath (h hm)
  rename hm _ _ hp := ⟨hp, inside_hostPath hpath (h hm)⟩

/-- A sequence of writes keeps the paths inside, if the names it makes are safe.

**Proof sketch.** Induction on the writes. One write makes permitted calls only (`logged_write`,
`permits_of_safe`), and the next ones go on from the state that it leaves. -/
lemma logged_writes {path : Bytes} {base : List Event} (hpath : path ≠ []) :
    ∀ ws : List (ℕ × ℕ × Sector),
      Exc.Triple (fun dk => Logged path (Contained path) (fun p => Inside (normal path) (normal p))
          base dk ∧ SafeRun ws dk) (writes ws)
        (fun _ => Logged path (Contained path) (fun p => Inside (normal path) (normal p)) base)
        (Logged path (Contained path) (fun p => Inside (normal path) (normal p)) base) := by
  intro ws
  induction ws with
  | nil => exact .pure fun _ h => h.1
  | cons w ws ih =>
    obtain ⟨track, sector, dma⟩ := w
    rintro dk ⟨h, hw, hrest⟩
    have hstep := logged_write (fun _ _ _ => trivial) dk
      ⟨h, fun old new hs hne => permits_of_safe hpath (hw old new hs hne)⟩
    rw [writes, Exc.bind_apply]
    cases hres : write track sector dma dk with
    | error e dk₁ =>
      rw [hres] at hstep
      exact hstep
    | ok res dk₁ =>
      rw [hres] at hstep
      exact ih dk₁ ⟨hstep, hrest res dk₁ hres⟩

/-- **Host containment.** On a disk that was built at `path`, every path that a sequence of writes
creates, truncates, renames or removes lies inside the drive directory, and so does every
directory it makes, provided that the names it hands to the host are safe. -/
theorem writes_contained {readdir : Bytes → Option (List Bytes)} {path : Bytes} {g : Geometry}
    {host : Host} {dk : Disk} {ws : List (ℕ × ℕ × Sector)} (hpath : path ≠ [])
    (hslash : ∀ d ns, readdir d = some ns → ∀ n ∈ ns, slash ∉ n)
    (hbuild : build readdir path g host = .ok () dk) (hrun : SafeRun ws dk) :
    ∃ evs, (Exc.final (writes ws dk)).host.calls = host.calls ++ evs ∧
      ∀ ev ∈ evs, Contained path ev.call := by
  obtain ⟨h1, h2, h3⟩ := sourced_of_build hbuild
  have hstart : Logged path (Contained path) (fun p => Inside (normal path) (normal p))
      host.calls dk := by
    refine ⟨h1, fun k p hk => ?_, [], by rw [h2, List.append_nil], by simp⟩
    obtain ⟨u, hu⟩ := h3 k p hk
    exact inside_of_denotes (hu.denotes hpath hslash)
  exact ((logged_writes hpath ws).final ⟨hstart, hrun⟩).calls

/-! ## A name that escapes -/

/-- A directory sector whose first entry is a new file of user 0 with the given base name. -/
def newFile (base : Bytes) : Sector := fun i =>
  if i.val = 0 then 0
  else if i.val < 9 then base.getD (i.val - 1) (ch ' ')
  else if i.val < 12 then ch ' '
  else if i.val < 32 then 0
  else CpmDir.UNUSED

/-- A file with an ordinary name stays inside the drive directory. -/
theorem writes_contained_foo :
    ∃ evs, (Exc.final (writes [(2, 1, newFile [ch 'F', ch 'O', ch 'O'])]
      (blank drivePath ibm8 emptyDrive))).host.calls = [] ++ evs ∧
        ∀ ev ∈ evs, Contained drivePath ev.call := by
  have hsafe : ∀ idx, (entryOf (newFile [ch 'F', ch 'O', ch 'O']) idx).SafeName := by
    decide
  have hbuild : build (fun _ => some []) drivePath ibm8 emptyDrive =
      .ok () (blank drivePath ibm8 emptyDrive) := by rfl
  exact writes_contained (by decide) (by simp) hbuild
    ⟨fun _ _ ⟨_, idx, _, _, _, _, h⟩ _ _ => h ▸ hsafe idx, fun _ _ _ => trivial⟩

/-- **A file named `/ETC` is created in the root of the host**, outside the drive directory. -/
theorem writes_escape :
    ∃ dk, build (fun _ => some []) drivePath ibm8 emptyDrive = .ok () dk ∧
      ∃ ev ∈ (Exc.final (writes [(2, 1, newFile [slash, ch 'E', ch 'T', ch 'C'])] dk)).host.calls,
        ev.ok = true ∧ ¬ Contained drivePath ev.call := by
  refine ⟨blank drivePath ibm8 emptyDrive, by rfl,
    ⟨.create [slash, ch 'E', ch 'T', ch 'C'], true⟩, ?_, rfl, ?_⟩
  · decide
  · rintro ⟨-, rest, h, -⟩
    have hn : (normal [slash, ch 'E', ch 'T', ch 'C']).comps = [[ch 'E', ch 'T', ch 'C']] := by
      decide
    have hd : (normal drivePath).comps = [[ch 'd']] := by decide
    rw [hn, hd] at h
    cases h

end Disk

end Cpm22
