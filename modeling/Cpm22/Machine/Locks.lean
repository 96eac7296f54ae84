import Cpm22.Machine.Cpu

set_option relaxedAutoImplicit false
set_option autoImplicit false

/-!
# Locks on drive images

`simdrive` is the base class of the drive objects. It keeps the descriptor `selected_`, on which
`Select` takes an exclusive `flock` and which `unSelect` releases and closes; a host directory
overrides both methods. `selectdisk` deselects the drive that was current and calls `Select` on a
drive that has its object. A drive that has none gets one from `new dskimage`, and there `Select`
is not called.

The descriptors that `open` returns are a parameter, and so is the rest of the host: each call of
`selectdisk` finds the paths, the constructors and the methods of the derived classes as they are
at that time. `open` and `flock` succeed.

## Main definitions

* `Cpm22.SimObject` — a drive object: the lock of the base class and what a derived class adds.
* `Cpm22.simdrives` — the drives of a host, with the locks of the base class.
* `Cpm22.Cpu.Call`, `Cpm22.Cpu.afterCalls` — calls of `selectdisk`.
* `Cpm22.Cpu.Locks` — the current drive is locked, no other drive is.
* `Cpm22.Cpu.JustMade` — the current drive is an image that its first selection made.

## Main results

* `Cpm22.Cpu.final_selectdisk` — what `selectdisk` does, however it ends.
* `Cpm22.Cpu.proper_afterCalls` — no call leaves a lock behind on another drive.
* `Cpm22.Cpu.locks_iff` — after any calls, the locks are as they should be except while the
  current drive is an image that its first selection made.
-/

namespace Cpm22

variable {ε B : Type}

/-- The classes derived from `simdrive`. -/
inductive DriveClass
  | disk
  | dskimage
  deriving DecidableEq, Repr

/-- **A drive object**: the lock of `simdrive` and the members `body` of the derived class. Among
the descriptors are those that were never closed, with their locks. -/
structure SimObject (B : Type) where
  cls : DriveClass
  /-- drive number, for the path -/
  id : ℕ
  /-- `selected_`, with `none` for `-1` -/
  selected : Option ℕ
  /-- descriptors that `Select` has open, each with its exclusive `flock` or without -/
  descriptors : List (ℕ × Bool)
  /-- calls of `open` so far -/
  opened : ℕ
  body : B

namespace SimObject

/-- The constructor of `simdrive`. -/
def new (cls : DriveClass) (id : ℕ) (body : B) : SimObject B := ⟨cls, id, none, [], 0, body⟩

/-- `open` with the result `fd`, assigned to `selected_`. -/
def openPath (fd : ℕ) (d : SimObject B) : SimObject B :=
  { d with
    selected := some fd, descriptors := (fd, false) :: d.descriptors, opened := d.opened + 1 }

/-- `flock` of a descriptor, with `LOCK_EX` or `LOCK_UN`. -/
def flock (fd : ℕ) (exclusive : Bool) (d : SimObject B) : SimObject B :=
  { d with descriptors := d.descriptors.map fun h => if h.1 = fd then (fd, exclusive) else h }

/-- `close` of a descriptor. -/
def closeFd (fd : ℕ) (d : SimObject B) : SimObject B :=
  { d with descriptors := d.descriptors.filter fun h => h.1 ≠ fd }

variable (openFd : ℕ → ℕ → ℕ)

/-- **`Select`**, of `simdrive` for an image and of `disk` for a host directory. -/
def select (d : SimObject B) : SimObject B :=
  match d.cls, d.selected with
  | .dskimage, none =>
    let fd := openFd d.id d.opened
    (d.openPath fd).flock fd true
  | _, _ => d

/-- **`unSelect`**, of `simdrive` for an image and of `disk` for a host directory. -/
def unSelect (d : SimObject B) : SimObject B :=
  match d.cls, d.selected with
  | .dskimage, some fd => { (d.flock fd false).closeFd fd with selected := none }
  | _, _ => d

/-- The object is an image. -/
def Image (d : SimObject B) : Prop := d.cls = .dskimage

/-- The object holds no lock and no descriptor of `Select`. -/
def Free (d : SimObject B) : Prop := d.selected = none ∧ d.descriptors = []

/-- The object holds an exclusive lock, on the one descriptor it has open. -/
def Held (d : SimObject B) : Prop := ∃ fd, d.selected = some fd ∧ d.descriptors = [(fd, true)]

/-- A new object is free. -/
lemma free_new (cls : DriveClass) (id : ℕ) (body : B) : (new cls id body).Free := ⟨rfl, rfl⟩

/-- No object is both free and locked. -/
lemma Free.not_held {d : SimObject B} (h : d.Free) : ¬ d.Held := by
  rintro ⟨fd, hs, -⟩
  rw [h.1] at hs
  cases hs

/-- `Select` locks an image. -/
lemma held_select {d : SimObject B} (hi : d.Image) (h : d.Free ∨ d.Held) :
    (d.select openFd).Held := by
  obtain ⟨cls, id, selected, descriptors, opened, body⟩ := d
  obtain rfl : cls = .dskimage := hi
  rcases h with ⟨hs, hd⟩ | ⟨fd, hs, hd⟩
  · obtain rfl : selected = none := hs
    obtain rfl : descriptors = [] := hd
    exact ⟨openFd id opened, rfl, by simp [select, openPath, flock]⟩
  · obtain rfl : selected = some fd := hs
    exact ⟨fd, rfl, hd⟩

/-- `unSelect` frees an image. -/
lemma free_unSelect {d : SimObject B} (hi : d.Image) (h : d.Free ∨ d.Held) : d.unSelect.Free := by
  obtain ⟨cls, id, selected, descriptors, opened, body⟩ := d
  obtain rfl : cls = .dskimage := hi
  rcases h with ⟨hs, hd⟩ | ⟨fd, hs, hd⟩
  · obtain rfl : selected = none := hs
    exact ⟨rfl, hd⟩
  · obtain rfl : selected = some fd := hs
    obtain rfl : descriptors = [(fd, true)] := hd
    exact ⟨rfl, by simp [unSelect, flock, closeFd]⟩

/-- `Select` does not change the class. -/
lemma image_select (d : SimObject B) : (d.select openFd).Image ↔ d.Image := by
  unfold select
  split <;> rfl

/-- `unSelect` does not change the class. -/
lemma image_unSelect (d : SimObject B) : d.unSelect.Image ↔ d.Image := by
  unfold unSelect
  split <;> rfl

end SimObject

/-- A method of the derived class, on the object. -/
def onBody {α : Type} (m : EStateM ε B α) : EStateM ε (SimObject B) α := fun d =>
  match m d.body with
  | .ok a b => .ok a { d with body := b }
  | .error e b => .error e { d with body := b }

/-- **The drives of a host, with the locks of the base class.** -/
def simdrives (openFd : ℕ → ℕ → ℕ) (sd : SimDrive ε B) : SimDrive ε (SimObject B) where
  stat := sd.stat
  newDisk id g := (sd.newDisk id g).map (.new .disk id)
  newImage id g := (sd.newImage id g).map (.new .dskimage id)
  select := .select openFd
  unSelect := .unSelect
  read track sector dma := onBody (sd.read track sector dma)
  write track sector dma := onBody (sd.write track sector dma)

namespace Cpu

/-! ## One call of `selectdisk` -/

section Select

variable {D : Type} (sd : SimDrive ε D)

/-- The call changes the current drive: the drive is known, and it is another one. -/
def Changes (id : ℕ) (s : Cpu D) : Prop := Known id ∧ id ≠ s.currentdrive

instance (id : ℕ) (s : Cpu D) : Decidable (s.Changes id) := inferInstanceAs (Decidable (_ ∧ _))

/-- The object that becomes the current drive, if one does. -/
def chosen (id : ℕ) (g : Geometry) (s : Cpu D) : Option D :=
  match sd.stat id, s.diskptr id with
  | none, _ => none
  | some _, some d => some (sd.select d)
  | some .dir, none => (sd.newDisk id g).toOption
  | some .regular, none => (sd.newImage id g).toOption
  | some .other, none => none

/-- The state with an object as the current drive. -/
def installed (id : ℕ) (d : D) (s : Cpu D) : Cpu D := { s.setObject id d with currentdrive := id }

/-- Deselecting leaves the objects of the drives that are not current. -/
lemma diskptr_deselected_ne {id : ℕ} {s : Cpu D} (h : id ≠ s.currentdrive) :
    (deselected sd s).diskptr id = s.diskptr id := by
  unfold deselected
  cases s.object s.currentdrive with
  | none => rfl
  | some d => exact Function.update_of_ne h _ _

/-- The object that is inserted, or the exception of its constructor; the state stays. -/
lemma insertDisk_eq (id : ℕ) (kind : FileKind) (g : Geometry) (s : Cpu D) :
    (∃ e, insertDisk sd id kind g s = .error e s ∧
      (sd.stat id = some kind → chosen sd id g s = none)) ∨
    ∃ r, insertDisk sd id kind g s = .ok r s ∧ (sd.stat id = some kind → chosen sd id g s = r) := by
  unfold insertDisk chosen
  rw [Exc.get_bind]
  cases hd : s.diskptr id with
  | some d => exact .inr ⟨_, rfl, fun hst => by rw [hst]⟩
  | none =>
    cases kind with
    | dir =>
      cases hn : sd.newDisk id g with
      | ok d => exact .inr ⟨some d, rfl, fun hst => by rw [hst]; rfl⟩
      | error e => exact .inl ⟨e, rfl, fun hst => by rw [hst]; rfl⟩
    | regular =>
      cases hn : sd.newImage id g with
      | ok d => exact .inr ⟨some d, rfl, fun hst => by rw [hst]; rfl⟩
      | error e => exact .inl ⟨e, rfl, fun hst => by rw [hst]; rfl⟩
    | other => exact .inr ⟨none, rfl, fun hst => by rw [hst]⟩

/-- **What `selectdisk` does**, however it ends.

**Proof sketch.** By the branches of the source. An unknown drive and the current one change
nothing. Otherwise the old drive is deselected, which leaves the object of the new one, and the
object that is there or is made becomes current; if there is none, no drive is selected. -/
lemma final_selectdisk (id : ℕ) (g : Geometry) (s : Cpu D) :
    Exc.final (selectdisk sd id g s) =
      if s.Changes id then
        match chosen sd id g s with
        | some d => installed id d (deselected sd s)
        | none => deselected sd s
      else s := by
  by_cases hk : Known id
  · rw [selectdisk, if_pos hk, Exc.get_bind]
    by_cases hid : id ≠ s.currentdrive
    · have hmod : (modify (deselected sd) : EStateM ε (Cpu D) PUnit) s =
          .ok () (deselected sd s) := rfl
      -- the object of the drive is the one from before the deselection
      have hsame : chosen sd id g (deselected sd s) = chosen sd id g s := by
        simp only [chosen, diskptr_deselected_ne sd hid]
      rw [if_pos hid, Exc.bind_of_ok hmod, if_pos (show s.Changes id from ⟨hk, hid⟩), ← hsame]
      cases hst : sd.stat id with
      | none =>
        have hnone : chosen sd id g (deselected sd s) = none := by simp only [chosen, hst]
        rw [hnone]
        rfl
      | some kind =>
        rcases insertDisk_eq sd id kind g (deselected sd s) with ⟨e, hins, hc⟩ | ⟨r, hins, hc⟩
        · simp only [Exc.bind_of_error hins, hc hst]
          rfl
        · simp only [Exc.bind_of_ok hins, hc hst]
          cases r <;> rfl
    · rw [if_neg hid, if_neg fun h => hid h.2]
      rfl
  · rw [selectdisk, if_neg hk, if_neg fun h => hk h.1]
    rfl

/-- The objects after an assignment to `diskptr`. -/
lemma object_setObject {id : ℕ} (hid : id < MAXDRIVE) (d : D) (s : Cpu D) (j : ℕ) :
    (s.setObject id d).object j = if j = id then some d else s.object j := by
  by_cases hj : j = id
  · subst hj
    simp [object, setObject, hid]
  · simp [object, setObject, hj]

/-- The objects after a deselection. -/
lemma object_deselected (s : Cpu D) (j : ℕ) :
    (deselected sd s).object j =
      if j = s.currentdrive then (s.object j).map sd.unSelect else s.object j := by
  unfold deselected
  cases hd : s.object s.currentdrive with
  | none =>
    change s.object j = _
    by_cases hj : j = s.currentdrive
    · rw [if_pos hj, hj, hd]
      rfl
    · rw [if_neg hj]
  | some d =>
    have hcur : s.currentdrive < MAXDRIVE := by
      by_contra h
      rw [object, if_neg h] at hd
      cases hd
    change (s.setObject s.currentdrive (sd.unSelect d)).object j = _
    rw [object_setObject hcur]
    by_cases hj : j = s.currentdrive
    · rw [if_pos hj, if_pos hj, hj, hd]
      rfl
    · rw [if_neg hj, if_neg hj]

/-- A deselection leaves no drive current. -/
lemma currentdrive_deselected (s : Cpu D) : (deselected sd s).currentdrive = MAXDRIVE := by
  unfold deselected
  cases s.object s.currentdrive <;> rfl

end Select

/-! ## Locks -/

section Locks

variable (openFd : ℕ → ℕ → ℕ) {s : Cpu (SimObject B)}

/-- **A call of `selectdisk`**, with the host as it is at that time. -/
structure Call (ε B : Type) where
  sd : SimDrive ε B
  id : ℕ
  g : Geometry

/-- The state after a call, which returned or threw. -/
def afterCall (openFd : ℕ → ℕ → ℕ) (s : Cpu (SimObject B)) (k : Call ε B) : Cpu (SimObject B) :=
  Exc.final (selectdisk (simdrives openFd k.sd) k.id k.g s)

/-- **The state after calls of `selectdisk`**, the newest call first. -/
def afterCalls (openFd : ℕ → ℕ → ℕ) (s : Cpu (SimObject B)) : List (Call ε B) → Cpu (SimObject B)
  | [] => s
  | k :: earlier => afterCall openFd (afterCalls openFd s earlier) k

/-- **The locks are as they should be**: the current drive, if it is an image, is locked; an image
that is not current has neither a lock nor a descriptor. -/
structure Locks (s : Cpu (SimObject B)) : Prop where
  current : ∀ d, s.object s.currentdrive = some d → d.Image → d.Held
  others : ∀ id d, id ≠ s.currentdrive → s.object id = some d → d.Image → d.Free

/-- The call makes the object of an image: its path is a regular file, the drive has no object yet,
and the image can be opened. -/
def MakesImage (k : Call ε B) (s : Cpu (SimObject B)) : Prop :=
  k.sd.stat k.id = some .regular ∧ s.diskptr k.id = none ∧ ∃ b, k.sd.newImage k.id k.g = .ok b

/-- **The current drive is an image that its first selection made**: the last of the calls that
changed the current drive made the object. -/
def JustMade (openFd : ℕ → ℕ → ℕ) (s : Cpu (SimObject B)) : List (Call ε B) → Prop
  | [] => False
  | k :: earlier =>
    if (afterCalls openFd s earlier).Changes k.id then MakesImage k (afterCalls openFd s earlier)
    else JustMade openFd s earlier

/-- The invariant: every image is free or locked, and only the current one is locked. -/
structure Proper (s : Cpu (SimObject B)) : Prop where
  sound : ∀ id d, s.object id = some d → d.Image → d.Free ∨ d.Held
  others : ∀ id d, id ≠ s.currentdrive → s.object id = some d → d.Image → d.Free

/-- The current drive is an image without a lock. -/
def Unlocked (s : Cpu (SimObject B)) : Prop :=
  ∃ d, s.object s.currentdrive = some d ∧ d.Image ∧ d.Free

/-- The locks are as they should be iff the invariant holds and the current drive is not an image
without a lock. -/
lemma locks_iff_proper : Locks s ↔ Proper s ∧ ¬ Unlocked s := by
  constructor
  · intro h
    refine ⟨⟨?_, h.others⟩, ?_⟩
    · intro id d hd hi
      by_cases hid : id = s.currentdrive
      · exact .inr (h.current d (hid ▸ hd) hi)
      · exact .inl (h.others id d hid hd hi)
    · rintro ⟨d, hd, hi, hf⟩
      exact hf.not_held (h.current d hd hi)
  · rintro ⟨h, hu⟩
    refine ⟨?_, h.others⟩
    intro d hd hi
    rcases h.sound _ d hd hi with hf | hh
    · exact absurd ⟨d, hd, hi, hf⟩ hu
    · exact hh

/-- A deselection frees every image. -/
lemma Proper.free_deselected (h : Proper s) (sd : SimDrive ε B) {id : ℕ} {d : SimObject B}
    (hd : (deselected (simdrives openFd sd) s).object id = some d) (hi : d.Image) : d.Free := by
  rw [object_deselected] at hd
  by_cases hid : id = s.currentdrive
  · rw [if_pos hid] at hd
    obtain ⟨d₀, hd₀, rfl⟩ := Option.map_eq_some_iff.mp hd
    have hi₀ : d₀.Image := (SimObject.image_unSelect d₀).mp hi
    exact SimObject.free_unSelect hi₀ (h.sound id d₀ hd₀ hi₀)
  · rw [if_neg hid] at hd
    exact h.others id d hid hd hi

/-- **The object that becomes current**: an image is locked, unless the call makes it.

**Proof sketch.** By what there is under the drive's name and whether it has an object. An object
that is there was not the current one, so that it is free and `Select` locks it. A new image is not
locked, since only `Select` does so, and a directory is no image. -/
lemma Proper.chosen_spec (h : Proper s) (k : Call ε B) (hc : s.Changes k.id) {d : SimObject B}
    (hd : chosen (simdrives openFd k.sd) k.id k.g s = some d) (hi : d.Image) :
    (MakesImage k s ∧ d.Free) ∨ (¬ MakesImage k s ∧ d.Held) := by
  have hstat : (simdrives openFd k.sd).stat k.id = k.sd.stat k.id := rfl
  cases hst : k.sd.stat k.id with
  | none => simp [chosen, hstat, hst] at hd
  | some kind =>
    cases hp : s.diskptr k.id with
    | some d₀ =>
      -- the object is there and, as it is not current, free: `Select` locks it
      obtain rfl : d₀.select openFd = d := by simpa [chosen, hstat, hst, hp, simdrives] using hd
      have hobj : s.object k.id = some d₀ := by rw [object, if_pos hc.1.1, hp]
      have hi₀ : d₀.Image := (SimObject.image_select openFd d₀).mp hi
      have hfree := h.others k.id d₀ hc.2 hobj hi₀
      refine .inr ⟨?_, SimObject.held_select openFd hi₀ (.inl hfree)⟩
      rintro ⟨-, hnone, -⟩
      rw [hp] at hnone
      cases hnone
    | none =>
      cases kind with
      | dir =>
        cases hn : k.sd.newDisk k.id k.g with
        | error e => simp [chosen, hst, hp, simdrives, hn, Except.map, Except.toOption] at hd
        | ok b =>
          obtain rfl : SimObject.new .disk k.id b = d := by
            simpa [chosen, hstat, hst, hp, simdrives, hn, Except.map, Except.toOption] using hd
          cases hi
      | regular =>
        cases hn : k.sd.newImage k.id k.g with
        | error e => simp [chosen, hst, hp, simdrives, hn, Except.map, Except.toOption] at hd
        | ok b =>
          obtain rfl : SimObject.new .dskimage k.id b = d := by
            simpa [chosen, hstat, hst, hp, simdrives, hn, Except.map, Except.toOption] using hd
          exact .inl ⟨⟨hst, hp, b, hn⟩, SimObject.free_new _ _ _⟩
      | other => simp [chosen, hstat, hst, hp] at hd

/-- A call that makes an image makes it current. -/
lemma MakesImage.chosen {k : Call ε B} (h : MakesImage k s) :
    ∃ d, Cpu.chosen (simdrives openFd k.sd) k.id k.g s = some d ∧ d.Image := by
  obtain ⟨hst, hp, b, hn⟩ := h
  refine ⟨SimObject.new .dskimage k.id b, ?_, rfl⟩
  simp [Cpu.chosen, hst, hp, simdrives, hn, Except.map, Except.toOption]

/-- **One call keeps the invariant**, and leaves the current drive unlocked iff it made it, or
changed nothing.

**Proof sketch.** By what `selectdisk` does (`Cpu.final_selectdisk`). Where the current drive
changes, the deselection frees every image, and the object that becomes current is as
`Cpu.Proper.chosen_spec` says. -/
lemma proper_afterCall (h : Proper s) (k : Call ε B) :
    Proper (afterCall openFd s k) ∧
      (Unlocked (afterCall openFd s k) ↔
        if s.Changes k.id then MakesImage k s else Unlocked s) := by
  unfold afterCall
  rw [final_selectdisk]
  by_cases hc : s.Changes k.id
  · rw [if_pos hc, if_pos hc]
    cases hch : chosen (simdrives openFd k.sd) k.id k.g s with
    | none =>
      refine ⟨⟨fun id d hd hi => .inl (h.free_deselected openFd k.sd hd hi),
        fun id d _ hd hi => h.free_deselected openFd k.sd hd hi⟩, ?_⟩
      refine iff_of_false ?_ ?_
      · rintro ⟨d, hd, -⟩
        simp only [currentdrive_deselected] at hd
        cases hd
      · intro hm
        obtain ⟨d, hd, -⟩ := hm.chosen openFd
        rw [hch] at hd
        cases hd
    | some d =>
      have hobj : ∀ j, (installed k.id d (deselected (simdrives openFd k.sd) s)).object j =
          if j = k.id then some d else (deselected (simdrives openFd k.sd) s).object j :=
        object_setObject hc.1.1 d _
      have hspec := h.chosen_spec openFd k hc hch
      refine ⟨⟨?_, ?_⟩, ?_⟩
      · intro id d' hd' hi
        simp only [hobj] at hd'
        by_cases hid : id = k.id
        · obtain rfl : d = d' := by simpa [hid] using hd'
          exact (hspec hi).imp And.right And.right
        · exact .inl (h.free_deselected openFd k.sd (by simpa [hid] using hd') hi)
      · intro id d' hid hd' hi
        have hid' : id ≠ k.id := hid
        simp only [hobj, if_neg hid'] at hd'
        exact h.free_deselected openFd k.sd hd' hi
      · constructor
        · rintro ⟨d', hd', hi, hf⟩
          change (installed k.id d (deselected (simdrives openFd k.sd) s)).object k.id = _ at hd'
          obtain rfl : d = d' := by simpa [hobj] using hd'
          rcases hspec hi with ⟨hm, -⟩ | ⟨-, hh⟩
          · exact hm
          · exact absurd hh hf.not_held
        · intro hm
          obtain ⟨d', hd', hi⟩ := hm.chosen openFd
          obtain rfl : d = d' := by simpa [hch] using hd'
          rcases hspec hi with ⟨-, hf⟩ | ⟨hn, -⟩
          · exact ⟨d, (hobj k.id).trans (if_pos rfl), hi, hf⟩
          · exact absurd hm hn
  · rw [if_neg hc, if_neg hc]
    exact ⟨h, Iff.rfl⟩

/-- **No call leaves a lock behind**: after any calls an image that is not current has neither a
lock nor a descriptor, and the current drive is unlocked exactly while it is an image that its
first selection made. -/
lemma proper_afterCalls (h : Proper s) (hu : ¬ Unlocked s) (calls : List (Call ε B)) :
    Proper (afterCalls openFd s calls) ∧
      (Unlocked (afterCalls openFd s calls) ↔ JustMade openFd s calls) := by
  induction calls with
  | nil => exact ⟨h, iff_of_false hu id⟩
  | cons k earlier ih =>
    obtain ⟨hproper, hunlocked⟩ := proper_afterCall openFd ih.1 k
    refine ⟨hproper, hunlocked.trans ?_⟩
    rw [JustMade, ih.2]

/-- **The selected image drive is locked**, after every sequence of calls of `selectdisk` from a
state with the locks as they should be, such as the one at power-on, except while the current drive
is an image that its first selection made.

**Proof sketch.** The invariant `Cpu.Proper` holds after every call, by induction on the calls
(`Cpu.proper_afterCalls`); with it, the locks are as they should be unless the current drive is an
image without a lock, and the same induction says when it is. -/
theorem locks_iff (openFd : ℕ → ℕ → ℕ) (s : Cpu (SimObject B)) (h : Locks s)
    (calls : List (Call ε B)) :
    Locks (afterCalls openFd s calls) ↔ ¬ JustMade openFd s calls := by
  obtain ⟨hproper, hu⟩ := locks_iff_proper.mp h
  obtain ⟨hafter, hiff⟩ := proper_afterCalls openFd hproper hu calls
  rw [locks_iff_proper, hiff]
  exact ⟨And.right, fun hj => ⟨hafter, hj⟩⟩

end Locks

/-! ## A drive A that is an image -/

/-- The controller before the first selection: no drive is current, no drive has an object. -/
def unmounted : Cpu (SimObject Unit) where
  ram _ := 0
  fdcd := 0
  fdct := 0
  fdcs := 0
  fdcop := 0
  fdcst := 0
  dma := 0
  dph := 0
  currentdrive := MAXDRIVE
  diskptr _ := none
  accesses := []

/-- Drive A is an image, drive B a host directory. -/
def imageAndDirectory : SimDrive Unit Unit where
  stat id := if id = 0 then some .regular else if id = 1 then some .dir else none
  newDisk _ _ := .ok ()
  newImage _ _ := .ok ()
  select d := d
  unSelect d := d
  read _ _ dma := pure (0, dma)
  write _ _ _ := pure 0

/-- A selection on that host. -/
def selection (id : ℕ) : Call Unit Unit := ⟨imageAndDirectory, id, ibm8⟩

/-- Before the first selection nothing is locked. -/
lemma locks_unmounted : Locks unmounted := by
  have hnone : ∀ id, unmounted.object id = none := by
    intro id
    unfold object
    split <;> rfl
  constructor
  · intro d hd
    rw [hnone] at hd
    cases hd
  · intro id d _ hd
    rw [hnone] at hd
    cases hd

/-- Drive A is locked when it is selected again. -/
theorem locks_selected_again :
    Locks (afterCalls (fun _ n => n + 3) unmounted [selection 0, selection 1, selection 0]) := by
  refine (locks_iff _ unmounted locks_unmounted _).mpr ?_
  rintro ⟨-, hnone, -⟩
  cases hnone

/-- Drive A is current and not locked after its first selection. -/
theorem not_locks_selected_first :
    (afterCalls (fun _ n => n + 3) unmounted [selection 0]).currentdrive = 0 ∧
      (∃ d, (afterCalls (fun _ n => n + 3) unmounted [selection 0]).object 0 = some d ∧ d.Image ∧
        d.selected = none) ∧
      ¬ Locks (afterCalls (fun _ n => n + 3) unmounted [selection 0]) := by
  refine ⟨rfl, ⟨_, rfl, rfl, rfl⟩, ?_⟩
  intro h
  obtain ⟨fd, hfd, -⟩ := h.current _ rfl rfl
  cases hfd

end Cpu

end Cpm22
