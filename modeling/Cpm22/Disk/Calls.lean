import Cpm22.Disk.Layout
import Cpm22.Disk.Rule

set_option relaxedAutoImplicit false
set_option autoImplicit false

/-!
# The host calls of a run

An invariant rule for the calls that `disk::Write` makes. A property `J` of calls and a property
`N` of the paths in the name map hold along a run if every directory change permits them: the
paths that are removed or renamed come from the name map, and the paths that are created come
from `mkhostname`.

## Main definitions

* `Cpm22.Disk.writes` — a sequence of `Write` calls.
* `Cpm22.Disk.Permits` — a directory change keeps `J` and `N`.
* `Cpm22.Disk.Logged` — the invariant.

## Main results

* `Cpm22.Disk.logged_write` — `Write` keeps the invariant.
-/

namespace Cpm22

open HostPath HostFs

namespace Disk

/-- A sequence of `Write` calls; it ends where one of them throws. -/
def writes : List (ℕ × ℕ × Sector) → DiskM Unit
  | [] => pure ()
  | (track, sector, dma) :: ws => do
    let _ ← write track sector dma
    writes ws

/-- Replacing the entry `old` by `new` makes a host name for `new`: the entry of extent 0 is
created, or it is renamed. -/
def MakesName (old new : CpmDir) : Prop :=
  new.Used ∧ new.getExtNumber = 0 ∧
    (¬ old.Used ∨ (new.getName ≠ old.getName ∧ old.getExtNumber = 0))

section Rule

variable (path : Bytes) (J : Call → Prop) (N : Bytes → Prop) (base : List Event)

/-- **The change permits the properties**: if it removes a file, removing a file of the map has
`J`; if it makes a name, the name has `N` and the calls that use it have `J`. -/
structure Permits (old new : CpmDir) : Prop where
  delete : ¬ new.Used → old.Used → old.getExtNumber = 0 → ∀ p, N p → J (.remove p)
  mkdir : MakesName old new → J (.createDirectories (hostDir path new.st.toNat))
  name : MakesName old new → N (hostPath path new.getName)
  create : MakesName old new → ¬ old.Used → J (.create (hostPath path new.getName))
  rename : MakesName old new → old.Used → ∀ p, N p → J (.rename p (hostPath path new.getName))

/-- **The invariant**: the paths of the name map have `N`, and all calls since the calls `base`
have `J`. -/
structure Logged (dk : Disk) : Prop where
  drive : dk.path = path
  names : ∀ k p, dk.cpm2unix.lookup k = some p → N p
  calls : ∃ evs, dk.host.calls = base ++ evs ∧ ∀ ev ∈ evs, J ev.call

variable {path J N base} {dk : Disk}

/-- A call with `J` keeps the invariant. -/
lemma Logged.attempt (h : Logged path J N base dk) {c : Call} (hc : J c)
    (effect : Option (NPath → Option Node)) :
    Logged path J N base { dk with host := (dk.host.attempt c effect).2 } := by
  obtain ⟨h1, h2, evs, h3, h4⟩ := h
  refine ⟨h1, h2, evs ++ [⟨c, (dk.host.attempt c effect).1⟩], ?_, ?_⟩
  · rw [Host.attempt_calls, h3, List.append_assoc]
  · intro ev hev
    rcases List.mem_append.mp hev with hev | hev
    · exact h4 ev hev
    · rw [List.mem_singleton.mp hev]
      exact hc

/-- Erasing a name keeps the invariant. -/
lemma Logged.erase (h : Logged path J N base dk) (k : Bytes) :
    Logged path J N base { dk with cpm2unix := dk.cpm2unix.erase k } := by
  refine ⟨h.drive, fun k' p hk => ?_, h.calls⟩
  by_cases hkk : k' = k
  · subst hkk
    simp only [AList.lookup_erase] at hk
    cases hk
  · simp only [AList.lookup_erase_ne hkk] at hk
    exact h.names k' p hk

/-- Entering a path with `N` keeps the invariant. -/
lemma Logged.insert (h : Logged path J N base dk) (k : Bytes) {p : Bytes} (hp : N p) :
    Logged path J N base { dk with cpm2unix := dk.cpm2unix.insert k p } := by
  refine ⟨h.drive, fun k' q hk => ?_, h.calls⟩
  by_cases hkk : k' = k
  · subst hkk
    simp only [AList.lookup_insert, Option.some.injEq] at hk
    exact hk ▸ hp
  · simp only [AList.lookup_insert_ne hkk] at hk
    exact h.names k' q hk

/-- A call of the host that must succeed. -/
lemma logged_orRethrow {f : Host → Bool × Host} {c : Call}
    {effect : Host → Option (NPath → Option Node)} (hf : ∀ h, f h = h.attempt c (effect h))
    (hc : J c) :
    Exc.Triple (Logged path J N base) (orRethrow f) (fun _ => Logged path J N base)
      (Logged path J N base) := by
  intro dk h
  rw [orRethrow_apply, hf]
  have := h.attempt hc (effect dk.host)
  by_cases hok : (dk.host.attempt c (effect dk.host)).1 = true
  · rwa [if_pos hok]
  · rwa [if_neg hok]

/-- A lookup gives a path with `N`. -/
lemma logged_unixAt (k : Bytes) :
    Exc.Triple (Logged path J N base) (unixAt k) (fun p dk => Logged path J N base dk ∧ N p)
      (Logged path J N base) := by
  intro dk h
  cases hl : dk.cpm2unix.lookup k with
  | none => rwa [unixAt_of_none hl]
  | some p =>
    rw [unixAt_of_some hl]
    exact ⟨h, h.names k p hl⟩

/-- `mkhostname`. -/
lemma logged_mkhostname {e : CpmDir} (hmk : J (.createDirectories (hostDir path e.st.toNat)))
    (hn : N (hostPath path e.getName)) :
    Exc.Triple (Logged path J N base) (mkhostname e.getName)
      (fun p dk => Logged path J N base dk ∧ p = hostPath path e.getName ∧ N p)
      (Logged path J N base) := by
  intro dk h
  have hdrive := h.drive
  subst hdrive
  have hcall := h.attempt hmk (if hostDir dk.path e.st.toNat = [] then none
    else mkdirs (normal (hostDir dk.path e.st.toNat)).absolute []
      (normal (hostDir dk.path e.st.toNat)).comps dk.host.node)
  rw [mkhostname_apply]
  simp only
  by_cases hok : (dk.host.createDirectories (hostDir dk.path e.st.toNat)).1 = true
  · rw [if_pos hok]
    exact ⟨hcall, rfl, hn⟩
  · rw [if_neg hok]
    exact hcall

/-! ## The operations -/

/-- Replacing an entry keeps the invariant, if the change permits it.

**Proof sketch.** One part of the source after the other: deleting, creating and renaming. Each
call that is made is one that the change permits, and a name enters the map with a path of which
this is known. -/
lemma logged_hostChange {old new : CpmDir} (hperm : Permits path J N old new) :
    Exc.Triple (Logged path J N base) (hostChange old new) (fun _ => Logged path J N base)
      (Logged path J N base) := by
  refine .ite (fun hd => .ite (fun h0 => ?_) fun _ => .pure fun _ h => h) fun _ => ?_
  · -- delete
    refine .bind (logged_unixAt _) fun p => ?_
    refine .bind (R := fun _ => Logged path J N base) ?_ fun _ => .modify fun dk h => h.erase _
    intro dk ⟨h, hp⟩
    exact logged_orRethrow (fun _ => rfl) (hperm.delete hd.1 hd.2 h0 p hp) dk h
  refine .ite (fun hc => .ite (fun h0 => ?_) fun _ => .pure fun _ h => h) fun _ => ?_
  · -- create
    have hm : MakesName old new := ⟨hc.1, h0, .inl hc.2⟩
    refine .bind (logged_mkhostname (hperm.mkdir hm) (hperm.name hm)) fun p => ?_
    refine .bind (R := fun _ dk => Logged path J N base dk ∧ N p) ?_
      fun _ => .modify fun dk h => h.1.insert _ h.2
    rintro dk ⟨h, rfl, hp⟩
    exact (logged_orRethrow (fun _ => rfl) (hperm.create hm hc.2)).weaken (fun _ h => h)
      (fun _ _ h => ⟨h, hp⟩) (fun _ h => h) dk h
  refine .ite (fun hr => .ite (fun h0 => ?_) fun _ => .pure fun _ h => h) fun _ =>
    .pure fun _ h => h
  -- rename
  have hm : MakesName old new := ⟨hr.1, h0.2, .inr ⟨hr.2.2, h0.1⟩⟩
  refine .bind (logged_unixAt _) fun p => ?_
  refine .bind (R := fun q dk => Logged path J N base dk ∧ N p ∧
    q = hostPath path new.getName ∧ N q) ?_ fun q => ?_
  · intro dk ⟨h, hp⟩
    exact (logged_mkhostname (hperm.mkdir hm) (hperm.name hm)).weaken (fun _ h => h)
      (fun _ _ h => ⟨h.1, hp, h.2⟩) (fun _ h => h) dk h
  · refine .bind (R := fun _ dk => Logged path J N base dk ∧ N q) ?_
      fun _ => .bind (R := fun _ dk => Logged path J N base dk ∧ N q)
        (.modify fun dk h => ⟨h.1.erase _, h.2⟩) fun _ => .modify fun dk h => h.1.insert _ h.2
    rintro dk ⟨h, hp, rfl, hq⟩
    exact (logged_orRethrow (fun _ => rfl) (hperm.rename hm hr.2.1 p hp)).weaken (fun _ h => h)
      (fun _ _ h => ⟨h, hq⟩) (fun _ h => h) dk h

/-- Writing into files is always permitted. -/
def WritesFree (J : Call → Prop) : Prop := ∀ p pos d, J (.write p pos d)

/-- The premises of the invariant rule of `Write`. -/
lemma Logged.kept (hw : WritesFree J) : KeptByCache (Logged path J N base) ∧
    KeptByDir (Logged path J N base) ∧ KeptByWrites (Logged path J N base) :=
  ⟨fun _ _ h => ⟨h.drive, h.names, h.calls⟩, fun _ _ h => ⟨h.drive, h.names, h.calls⟩,
    fun _ _ p _ _ h _ => h.attempt (hw p _ _) _⟩

/-- The entries of a directory sector keep the invariant, if every change permits it. -/
lemma logged_writeEntries (hw : WritesFree J) (extno : ℕ) (dma : Sector) {idxs : List (Fin 4)}
    (hnd : idxs.Nodup) :
    Exc.Triple (fun dk => Logged path J N base dk ∧ ∀ idx ∈ idxs, ∀ old,
        dk.dir[extno + idx.val]? = some old → old.eq (entryOf dma idx) = false →
          Permits path J N old (entryOf dma idx))
      (writeEntries extno dma idxs) (fun _ => Logged path J N base) (Logged path J N base) :=
  (writeEntries_rule (Logged.kept hw).2.1 extno dma hnd).weaken
    (fun _ h => ⟨h.1, fun idx hi old hold heq => logged_hostChange (h.2 idx hi old hold heq)⟩)
    (fun _ _ h => h) fun _ h => h

/-- **`Write` keeps the invariant, if every directory change permits it.** -/
theorem logged_write (hw : WritesFree J) {track sector : ℕ} {dma : Sector} :
    Exc.Triple (fun dk => Logged path J N base dk ∧ ∀ old new,
        SlotChange dk track sector dma old new → old.eq new = false → Permits path J N old new)
      (write track sector dma) (fun _ => Logged path J N base) (Logged path J N base) := by
  have hkept : KeptByCache (Logged path J N base) ∧ KeptByDir (Logged path J N base) ∧
      KeptByWrites (Logged path J N base) := Logged.kept hw
  refine (write_rule hkept.1 hkept.2.1 hkept.2.2).weaken (fun dk h => ⟨h.1, fun a _ _ => ?_, ?_⟩)
    (fun _ _ h => h) fun _ h => h
  · exact h.1.attempt (hw _ _ _) _
  · exact fun old new hs heq => logged_hostChange (h.2 old new hs heq)

end Rule

/-! ## An empty drive -/

/-- A host with an empty drive directory `/d`. -/
def emptyDrive : Host where
  node p := if p = ⟨true, []⟩ ∨ p = ⟨true, [[ch 'd']]⟩ then some .dir else none
  calls := []
  refuses _ := false

/-- The empty drive has no files. -/
lemma contents_emptyDrive (n : NPath) : emptyDrive.contents n = none := by
  rw [Option.eq_none_iff_forall_ne_some]
  intro c hc
  rw [Host.contents_eq_some] at hc
  simp only [emptyDrive] at hc
  split at hc <;> cases hc

/-- The path of the drive directory of `emptyDrive`. -/
def drivePath : Bytes := [slash, ch 'd']

end Disk

end Cpm22
