import Cpm22.Machine.Bios
import Cpm22.Machine.Locks
import Cpm22.Disk.Faults

set_option relaxedAutoImplicit false
set_option autoImplicit false

/-!
# Guest code on the disk ports

A guest program writes any bytes to the disk ports, in any order, and any bytes to the memory. This
file has the exact condition under which every command on `FDCOP` completes, for machines whose
drives are host directories with a shipped geometry: it is the condition of `Read` and `Write`
(`Cpm22.Disk.Hosted.ReadFits`, `Cpm22.Disk.Hosted.WriteFits`) at each command, on the object of the
selected drive.

All drives live in one world, which changes with every call and between two actions of the guest.
The drive objects of the controller do not hold it: for the length of an action, each of them is
given the world as it is then (`Cpm22.Cpu.act`).

## Main definitions

* `Cpm22.Surroundings` — the world of the emulator: the drives, and what the host answers.
* `Cpm22.Cpu.Action` — what guest code does; `Cpm22.Cpu.act` carries it out.
* `Cpm22.Cpu.Admissible` — drives are directories and mounted with a shipped geometry, and the
  buffer of a command is inside the memory.
* `Cpm22.Cpu.Completes` — every command of a run completes.
* `Cpm22.Cpu.Fits` — the condition, along a run.

## Main results

* `Cpm22.Cpu.completes_iff` — every command completes iff the condition holds at each of them.
* `Cpm22.Cpu.sector_zero_fails` — a run that does not complete.
-/

namespace Cpm22

open HostPath HostFs Disk Bdos

/-- **The surroundings of the emulator**: those of its drive objects, the drives as `selectdisk` and
the constructor of a drive object find them, and what happens while the guest computes. -/
structure Surroundings (σ : Type) extends World σ where
  /-- the path of a drive: `diskspath`, a slash and a letter; drive 0 is `A` -/
  drive : ℕ → Bytes
  /-- `stat` -/
  stat : Bytes → σ → Option FileKind
  /-- the listings of directories -/
  readdir : σ → Bytes → Option (List Bytes)
  /-- the host files -/
  tree : σ → Host
  /-- the time between two actions of the guest -/
  tick : σ → σ

namespace Cpu

/-! ## Runs of guest code -/

/-- **What guest code does**: it writes a byte to a disk port or to the memory. -/
inductive Action
  | port (p : Port) (value : UInt8)
  | poke (a : UInt16) (value : UInt8)
  deriving DecidableEq

section Perform

variable {ε D : Type} (sd : SimDrive ε D)

/-- One action. -/
def perform : Action → EStateM ε (Cpu D) Unit
  | .port p value => out sd p value.toNat
  | .poke a value => modify fun s => { s with ram := Function.update s.ram a.toNat value }

/-- The controller with its drive objects mapped. -/
def mapObjects {E : Type} (f : D → E) (s : Cpu D) : Cpu E :=
  { s with diskptr := fun id => (s.diskptr id).map f }

end Perform

variable {σ : Type} (S : Surroundings σ)

/-- **The drives in a state of the world.** Images are left out: `IntelCPU` makes one for a regular
file, and a run is required to have none. -/
def hosted (w : σ) : SimDrive Crash (Disk × σ) where
  stat id := S.stat (S.drive id) w
  newDisk id g :=
    match build (S.readdir w) (S.drive id) g (S.tree w) with
    | .ok _ dk => .ok (dk, w)
    | .error e _ => .error (.fault e)
  newImage _ _ := .error (.fault .systemError)
  select d := d
  unSelect d := d
  read := Hosted.read S.toWorld
  write := Hosted.write S.toWorld

/-- The world after an action that began in `w`: an action changes it through the object of the
selected drive only. -/
def worldAfter (w : σ) (s : Cpu (Disk × σ)) : σ :=
  match s.object s.currentdrive with
  | some d => d.2
  | none => w

/-- **One action of the guest on a machine in a world.** -/
def act (a : Action) : EStateM Crash (Cpu Disk × σ) Unit := fun m =>
  let w := S.tick m.2
  match perform (hosted S w) a (m.1.mapObjects fun dk => (dk, w)) with
  | .ok _ s => .ok () (s.mapObjects Prod.fst, worldAfter w s)
  | .error e s => .error e (s.mapObjects Prod.fst, worldAfter w s)

/-- **Every command on `FDCOP` of the run completes** with a status. A run ends early where a drive
cannot be mounted. -/
def Completes : List Action → Cpu Disk × σ → Prop
  | [], _ => True
  | a :: as, m => (∀ v, a = .port .fdcop v → ∃ m', act S a m = .ok () m') ∧
      ∀ m', act S a m = .ok () m' → Completes as m'

/-- A drive that the action mounts is a directory, and it is mounted with a shipped geometry. -/
def Mounts (a : Action) (m : Cpu Disk × σ) : Prop :=
  ∀ v, a = .port .fdcd v → m.1.Changes v.toNat → m.1.diskptr v.toNat = none →
    S.stat (S.drive v.toNat) (S.tick m.2) ≠ some .regular ∧
    ∀ d, chosen (hosted S (S.tick m.2)) v.toNat m.1.geometry
      (m.1.mapObjects fun dk => (dk, S.tick m.2)) = some d → m.1.geometry.Shipped

/-- A command that transfers a sector has its buffer inside the memory. -/
def InMemory (a : Action) (s : Cpu Disk) : Prop :=
  ∀ v, a = .port .fdcop v → v = 0 ∨ v = 1 → (s.object s.currentdrive).isSome → s.dma ≤ 0xff80

/-- **The runs that are considered**: drives are directories and mounted with a shipped geometry,
and the buffer of a command is inside the memory. -/
def Admissible : List Action → Cpu Disk × σ → Prop
  | [], _ => True
  | a :: as, m => Mounts S a m ∧ InMemory a m.1 ∧ ∀ m', act S a m = .ok () m' → Admissible as m'

/-- **The condition of a command** on the object of the selected drive; without an object the
command returns an error. -/
def CommandFits (m : Cpu Disk × σ) (value : ℕ) : Prop :=
  ∀ dk, m.1.object m.1.currentdrive = some dk →
    (value = 0 → Hosted.ReadFits S.toWorld m.1.fdct m.1.fdcs (dk, S.tick m.2)) ∧
    (value = 1 →
      Hosted.WriteFits S.toWorld m.1.fdct m.1.fdcs (m.1.buffer m.1.dma) (dk, S.tick m.2))

/-- **The condition along a run.** -/
def Fits : List Action → Cpu Disk × σ → Prop
  | [], _ => True
  | a :: as, m => (∀ v, a = .port .fdcop v → CommandFits S m v.toNat) ∧
      ∀ m', act S a m = .ok () m' → Fits as m'

/-! ## Objects with an invariant -/

section Objects

variable {ε D : Type} {sd : SimDrive ε D} {P : D → Prop} {s s' : Cpu D}

/-- Every drive object has the property. -/
def Objects (P : D → Prop) (s : Cpu D) : Prop := ∀ id d, s.diskptr id = some d → P d

/-- **The methods of the drives keep a property of their object**, where they return. -/
structure Keep (sd : SimDrive ε D) (P : D → Prop) : Prop where
  select : ∀ d, P d → P (sd.select d)
  unSelect : ∀ d, P d → P (sd.unSelect d)
  read : ∀ track sector dma, Exc.Triple P (sd.read track sector dma) (fun _ => P) fun _ => True
  write : ∀ track sector dma, Exc.Triple P (sd.write track sector dma) (fun _ => P) fun _ => True

/-- The object of a drive is one of the objects. -/
lemma diskptr_of_object {id : ℕ} {d : D} (h : s.object id = some d) : s.diskptr id = some d := by
  unfold object at h
  split at h
  · exact h
  · cases h

/-- An object with the property is put in. -/
lemma Objects.setObject (h : Objects P s) {id : ℕ} {d : D} (hd : P d) :
    Objects P (s.setObject id d) := by
  intro i d' hd'
  by_cases hi : i = id
  · subst hi
    obtain rfl : d = d' := by simpa [Cpu.setObject] using hd'
    exact hd
  · exact h i d' (by simpa [Cpu.setObject, hi] using hd')

/-- Deselecting a drive keeps the property. -/
lemma Objects.deselected (hk : Keep sd P) (h : Objects P s) : Objects P (deselected sd s) := by
  unfold Cpu.deselected
  cases hd : s.object s.currentdrive with
  | none => exact h
  | some d => exact h.setObject (hk.unSelect d (h _ _ (diskptr_of_object hd)))

/-- **A selection keeps the property**, if an object that it makes has it.

**Proof sketch.** By `final_selectdisk`: deselecting keeps the property, and the object that
becomes current is an old one after `Select` or one that is made. -/
lemma Objects.selectdisk {id : ℕ} {g : Geometry} (hk : Keep sd P) (h : Objects P s)
    (hnew : s.Changes id → s.diskptr id = none → ∀ d, chosen sd id g s = some d → P d) :
    Objects P (Exc.final (selectdisk sd id g s)) := by
  rw [final_selectdisk]
  split
  · rename_i hc
    cases hch : chosen sd id g s with
    | none => exact h.deselected hk
    | some d =>
      refine (h.deselected hk).setObject ?_
      cases hd : s.diskptr id with
      | none => exact hnew hc hd d hch
      | some d₀ =>
        unfold chosen at hch
        rw [hd] at hch
        cases hst : sd.stat id with
        | none =>
          rw [hst] at hch
          cases hch
        | some kind =>
          rw [hst] at hch
          obtain rfl : sd.select d₀ = d := Option.some.inj hch
          exact hk.select d₀ (h _ _ hd)
  · exact h

/-- A method call keeps the property if the method does. -/
lemma objects_access {α : Type} {id : ℕ} {d : D} {m : EStateM ε D α} (hd : P d)
    (hm : Exc.Triple P m (fun _ => P) fun _ => True) :
    Exc.Triple (Objects P) (access id d m) (fun _ => Objects P) fun _ => True := by
  intro s hs
  have hrun := hm d hd
  unfold access
  cases hr : m d with
  | error e d' => trivial
  | ok a d' =>
    rw [hr] at hrun
    exact Objects.setObject hs hrun

/-- A command keeps the property. -/
lemma objects_command (hk : Keep sd P) (v track sector a : ℕ) :
    Exc.Triple (Objects P) (command sd v track sector a) (fun _ => Objects P) fun _ => True := by
  refine .ite (fun _ => ?_) fun _ => .ite (fun _ => ?_) fun _ => .pure fun _ h => h
  · refine .bind .get fun s₀ => ?_
    cases hd : s₀.object s₀.currentdrive with
    | none => exact .pure fun _ h => h.2
    | some d =>
      rintro s ⟨rfl, hs⟩
      refine Exc.Triple.bind (objects_access (hs _ _ (diskptr_of_object hd)) (hk.read _ _ _))
        (fun r => ?_) s₀ hs
      exact .bind (R := fun _ => Objects P) (.modify fun _ h => h) fun _ => .pure fun _ h => h
  · refine .bind .get fun s₀ => ?_
    cases hd : s₀.object s₀.currentdrive with
    | none => exact .pure fun _ h => h.2
    | some d =>
      rintro s ⟨rfl, hs⟩
      exact objects_access (hs _ _ (diskptr_of_object hd)) (hk.write _ _ _) s₀ hs

/-- **An action keeps the property**, if an object that it makes has it.

**Proof sketch.** Selecting a drive is `Objects.selectdisk`, where an object may be made, and a
command is `objects_command`, which keeps the property of the current one. The other ports and the
memory have no objects. -/
lemma objects_perform (hk : Keep sd P) (a : Action) : Exc.Triple
    (fun s => Objects P s ∧ ∀ v, a = .port .fdcd v → s.Changes v.toNat →
      s.diskptr v.toNat = none → ∀ d, chosen sd v.toNat s.geometry s = some d → P d)
    (perform sd a) (fun _ => Objects P) fun _ => True := by
  cases a with
  | poke a v => exact .modify fun s h => h.1
  | port p v =>
    cases p with
    | fdcd =>
      rintro s ⟨hs, hnew⟩
      have hsel : Objects P (Exc.final (selectdisk sd v.toNat { s with fdcd := v.toNat }.geometry
          { s with fdcd := v.toNat })) :=
        Objects.selectdisk (s := { s with fdcd := v.toNat }) hk hs fun hc hd => hnew v rfl hc hd
      have hout : perform sd (.port .fdcd v) s =
          (selectdisk sd v.toNat { s with fdcd := v.toNat }.geometry >>= fun st =>
            modify fun s => { s with fdcst := st % 2 ^ 16 }) { s with fdcd := v.toNat } := rfl
      rw [hout, Exc.bind_apply]
      cases hr : selectdisk sd v.toNat { s with fdcd := v.toNat }.geometry
          { s with fdcd := v.toNat } with
      | error e s' => trivial
      | ok st s' =>
        rw [hr] at hsel
        exact hsel
    | fdcop =>
      refine .bind (R := fun _ => Objects P) (.modify fun s h => h.1) fun _ => ?_
      refine .bind .get fun s₀ => .bind (R := fun _ => Objects P) ?_ fun st => .modify fun s h => h
      exact (objects_command hk v.toNat s₀.fdct s₀.fdcs s₀.dma).weaken (fun _ h => h.2)
        (fun _ _ h => h) fun _ h => h
    | fdcst => exact .pure fun s h => h.1
    | fdct => exact .modify fun s h => h.1
    | fdcs => exact .modify fun s h => h.1
    | dmal => exact .modify fun s h => h.1
    | dmah => exact .modify fun s h => h.1
    | dpbl => exact .modify fun s h => h.1
    | dpbh => exact .modify fun s h => h.1

/-! ## One command -/

/-- A call of a method returns iff the method does. -/
lemma access_returns_iff {α : Type} (id : ℕ) (d : D) (m : EStateM ε D α) (s : Cpu D) :
    Exc.Returns (access id d m s) ↔ Exc.Returns (m d) := by
  unfold access
  cases m d with
  | ok a d' => exact iff_of_true (Exc.returns_ok _ _) (Exc.returns_ok _ _)
  | error e d' => exact iff_of_false (Exc.not_returns_error _ _) (Exc.not_returns_error _ _)

/-- **When a command completes**: the method that it calls returns.

**Proof sketch.** By the number of the command: 0 reads, 1 writes, and any other number does
nothing. Without an object of the current drive nothing is called. -/
lemma command_returns_iff (v : ℕ) :
    Exc.Returns (command sd v s.fdct s.fdcs s.dma s) ↔ ∀ d, s.object s.currentdrive = some d →
      (v = 0 → Exc.Returns (sd.read s.fdct s.fdcs (s.buffer s.dma) d)) ∧
      (v = 1 → Exc.Returns (sd.write s.fdct s.fdcs (s.buffer s.dma) d)) := by
  unfold command
  by_cases h0 : v = 0
  · subst h0
    rw [if_pos rfl, rcpmdisk, Exc.get_bind]
    cases hd : s.object s.currentdrive with
    | none => exact iff_of_true (Exc.returns_ok _ _) nofun
    | some d =>
      rw [Exc.returns_bind, access_returns_iff]
      simp only [Option.some.injEq, forall_eq', forall_const, Nat.zero_ne_one, false_imp_iff,
        and_true]
      exact ⟨fun hr => hr.1, fun hr => ⟨hr, fun _ s₁ _ => Exc.returns_ok _ _⟩⟩
  · by_cases h1 : v = 1
    · subst h1
      rw [if_neg h0, if_pos rfl, wcpmdisk, Exc.get_bind]
      cases hd : s.object s.currentdrive with
      | none => exact iff_of_true (Exc.returns_ok _ _) nofun
      | some d =>
        rw [access_returns_iff]
        simp only [Option.some.injEq, forall_eq', forall_const, Nat.one_ne_zero, false_imp_iff,
          true_and]
    · rw [if_neg h0, if_neg h1]
      exact iff_of_true (Exc.returns_ok _ _) fun d _ => ⟨fun h => absurd h h0, fun h => absurd h h1⟩

/-- **When a byte on `FDCOP` is answered.** -/
lemma fdcop_returns_iff (v : ℕ) :
    Exc.Returns (out sd .fdcop v s) ↔ ∀ d, s.object s.currentdrive = some d →
      (v = 0 → Exc.Returns (sd.read s.fdct s.fdcs (s.buffer s.dma) d)) ∧
      (v = 1 → Exc.Returns (sd.write s.fdct s.fdcs (s.buffer s.dma) d)) := by
  have hout : out sd .fdcop v s = (command sd v s.fdct s.fdcs s.dma >>= fun st =>
      modify fun s => { s with fdcst := st % 2 ^ 16 }) { s with fdcop := v } := rfl
  rw [hout, Exc.returns_bind]
  exact ⟨fun hr => (command_returns_iff (s := { s with fdcop := v }) v).mp hr.1, fun hr =>
    ⟨(command_returns_iff (s := { s with fdcop := v }) v).mpr hr, fun _ s₁ _ =>
      Exc.returns_ok _ _⟩⟩

end Objects

/-! ## Every run -/

section Runs

variable {S} {m m' : Cpu Disk × σ} {w : σ}

/-- **Every drive object has the sizes of a shipped geometry.** -/
def Mounted (s : Cpu Disk) : Prop :=
  Objects (fun dk => ∃ g : Geometry, g.Shipped ∧ Housed g dk) s

/-- A drive that was mounted has the sizes of its geometry. -/
lemma mounted_of_build {s : Cpu Disk} (h : ∀ id dk, s.diskptr id = some dk →
    ∃ readdir path host, ∃ g : Geometry, g.Shipped ∧ build readdir path g host = .ok () dk) :
    Mounted s := by
  intro id dk hd
  obtain ⟨readdir, path, host, g, hg, hb⟩ := h id dk hd
  exact ⟨g, hg, housed_of_build hg.regular hb⟩

/-- The object of a drive, for an object that was mapped. -/
lemma object_mapObjects {D E : Type} (f : D → E) (s : Cpu D) (id : ℕ) :
    (s.mapObjects f).object id = (s.object id).map f := by
  unfold object
  split <;> rfl

/-- The drive objects have their sizes in the world. -/
lemma Mounted.objects {s : Cpu Disk} (h : Mounted s) (w : σ) :
    Objects (fun d : Disk × σ => ∃ g : Geometry, g.Shipped ∧ Hosted.Sized g d)
      (s.mapObjects fun dk => (dk, w)) := by
  intro id d hd
  obtain ⟨dk, hdk, rfl⟩ := Option.map_eq_some_iff.mp hd
  exact h id dk hdk

/-- The methods of the drives keep the sizes. -/
lemma keep_hosted (w : σ) : Keep (hosted S w)
    fun d : Disk × σ => ∃ g : Geometry, g.Shipped ∧ Hosted.Sized g d where
  select _ h := h
  unSelect _ h := h
  read _ _ _ := .exists fun _ _ => Hosted.keeps_read
  write _ _ _ := .exists fun _ _ => Hosted.keeps_write

/-- An action returns iff it does on the objects in the world. -/
lemma act_ok_iff {a : Action} : act S a m = .ok () m' ↔ ∃ s,
    perform (hosted S (S.tick m.2)) a (m.1.mapObjects fun dk => (dk, S.tick m.2)) = .ok () s ∧
      m' = (s.mapObjects Prod.fst, worldAfter (S.tick m.2) s) := by
  unfold act
  dsimp only
  cases perform (hosted S (S.tick m.2)) a (m.1.mapObjects fun dk => (dk, S.tick m.2)) with
  | ok u s => simp [eq_comm]
  | error e s => simp

/-- **When a command completes**: under the condition of `Read` or `Write`. -/
lemma act_fdcop_iff (h : Mounted m.1) (v : UInt8) :
    (∃ m', act S (.port .fdcop v) m = .ok () m') ↔ CommandFits S m v.toNat := by
  have hreturns : (∃ m', act S (.port .fdcop v) m = .ok () m') ↔
      Exc.Returns (out (hosted S (S.tick m.2)) .fdcop v.toNat
        (m.1.mapObjects fun dk => (dk, S.tick m.2))) := by
    simp only [act_ok_iff]
    exact ⟨fun ⟨_, s, hs, _⟩ => ⟨(), s, hs⟩, fun ⟨_, s, hs⟩ => ⟨_, s, hs, rfl⟩⟩
  rw [hreturns, fdcop_returns_iff, object_mapObjects]
  simp only [Option.map_eq_some_iff, forall_exists_index, and_imp, forall_apply_eq_imp_iff₂]
  refine forall₂_congr fun dk hdk => ?_
  obtain ⟨g, hg, hs⟩ := h _ _ (diskptr_of_object hdk)
  exact and_congr (forall_congr' fun _ => Hosted.read_returns_iff hg.regular hs)
    (forall_congr' fun _ => Hosted.write_returns_iff hg.regular hs)

/-- An object that a selection made of a directory has the sizes of its geometry.

**Proof sketch.** There is no object yet, so that one is made, and it is no image. It is a disk
that was imported, whose directory has the size of the geometry. -/
lemma sized_chosen {id : ℕ} {g : Geometry} {s : Cpu (Disk × σ)} {d : Disk × σ}
    (hnone : s.diskptr id = none) (hreg : S.stat (S.drive id) w ≠ some .regular) (hg : g.Shipped)
    (h : chosen (hosted S w) id g s = some d) : Hosted.Sized g d := by
  unfold chosen at h
  rw [hnone] at h
  have hstat : (hosted S w).stat id = S.stat (S.drive id) w := rfl
  rw [hstat] at h
  cases hst : S.stat (S.drive id) w with
  | none =>
    rw [hst] at h
    cases h
  | some kind =>
    rw [hst] at h
    cases kind with
    | regular => exact absurd hst hreg
    | other => cases h
    | dir =>
      dsimp only [hosted] at h
      cases hb : build (S.readdir w) (S.drive id) g (S.tree w) with
      | error e dk =>
        rw [hb] at h
        cases h
      | ok u dk =>
        rw [hb] at h
        obtain rfl : (dk, w) = d := Option.some.inj h
        exact housed_of_build hg.regular hb

/-- **An action keeps the sizes of the drive objects**, if it mounts with a shipped geometry. -/
lemma mounted_act {a : Action} (h : Mounted m.1) (hm : Mounts S a m)
    (hr : act S a m = .ok () m') : Mounted m'.1 := by
  obtain ⟨s, hs, rfl⟩ := act_ok_iff.mp hr
  have hkeep := objects_perform (keep_hosted (S := S) (S.tick m.2)) a
    (m.1.mapObjects fun dk => (dk, S.tick m.2)) ⟨h.objects _, ?_⟩
  · rw [hs] at hkeep
    intro id dk hd
    obtain ⟨d, hd', rfl⟩ := Option.map_eq_some_iff.mp hd
    exact hkeep id d hd'
  · rintro v rfl hc hnone d hd
    have hnone' : m.1.diskptr v.toNat = none := Option.map_eq_none_iff.mp hnone
    obtain ⟨hreg, hship⟩ := hm v rfl hc hnone'
    exact ⟨_, hship d hd, sized_chosen hnone hreg (hship d hd) hd⟩

/-- **The guest and the disk ports.** On a machine whose drives are host directories, mounted with
a shipped geometry, in any surroundings and for every run of port and memory writes with the buffer
inside the memory: every command on `FDCOP` completes with a status if and only if the condition
holds at each command.

**Proof sketch.** Induction on the run. The drive objects keep the sizes of their tables and
directories, so a command completes exactly under the condition of `Read` or `Write`. -/
theorem completes_iff {as : List Action} : ∀ {m : Cpu Disk × σ}, Mounted m.1 →
    Admissible S as m → (Completes S as m ↔ Fits S as m) := by
  induction as with
  | nil => exact fun _ _ => Iff.rfl
  | cons a as ih =>
    rintro m hs ⟨hmount, -, hrest⟩
    refine and_congr (forall₂_congr ?_) (forall₂_congr fun m' h => ?_)
    · rintro v rfl
      exact act_fdcop_iff hs v
    · exact ih (mounted_act hs hmount h) (hrest m' h)

/-! ## Two runs on an empty drive -/

/-- Objects that were given a world and taken back. -/
lemma mapObjects_fst (s : Cpu Disk) (w : σ) :
    (s.mapObjects fun dk => (dk, w)).mapObjects Prod.fst = s := by
  have hptr : (fun id => ((s.diskptr id).map fun dk => (dk, w)).map Prod.fst) = s.diskptr :=
    funext fun id => by rw [Option.map_map]; exact Option.map_id'
  exact congrArg (fun p => { s with diskptr := p }) hptr

/-- The world of objects that no method was called on. -/
lemma worldAfter_mapObjects (s : Cpu Disk) (w : σ) :
    worldAfter w (s.mapObjects fun dk => (dk, w)) = w := by
  have hobject : (s.mapObjects fun dk => (dk, w)).object
      (s.mapObjects fun dk => (dk, w)).currentdrive = (s.object s.currentdrive).map (·, w) :=
    object_mapObjects _ s s.currentdrive
  unfold worldAfter
  rw [hobject]
  cases s.object s.currentdrive <;> rfl

/-- A value on the track port. -/
lemma act_fdct (v : UInt8) (m : Cpu Disk × σ) :
    act S (.port .fdct v) m = .ok () ({ m.1 with fdct := v.toNat }, S.tick m.2) :=
  act_ok_iff.mpr ⟨_, rfl, Prod.ext (mapObjects_fst { m.1 with fdct := v.toNat } _).symm
    (worldAfter_mapObjects { m.1 with fdct := v.toNat } _).symm⟩

/-- A value on the sector port. -/
lemma act_fdcs (v : UInt8) (m : Cpu Disk × σ) :
    act S (.port .fdcs v) m = .ok () ({ m.1 with fdcs := v.toNat }, S.tick m.2) :=
  act_ok_iff.mpr ⟨_, rfl, Prod.ext (mapObjects_fst { m.1 with fdcs := v.toNat } _).symm
    (worldAfter_mapObjects { m.1 with fdcs := v.toNat } _).symm⟩

/-- Guest code that addresses a sector and starts a command. -/
def accessSector (track sector value : UInt8) : List Action :=
  [.port .fdct track, .port .fdcs sector, .port .fdcop value]

/-- The machine when the guest has addressed a sector. -/
def addressed (S : Surroundings σ) (track sector : UInt8) (m : Cpu Disk × σ) : Cpu Disk × σ :=
  ({ m.1 with fdct := track.toNat, fdcs := sector.toNat }, S.tick (S.tick m.2))

/-- An access to a sector mounts no drive. -/
lemma admissible_access {track sector value : UInt8} (h : m.1.dma ≤ 0xff80) :
    Admissible S (accessSector track sector value) m := by
  refine ⟨nofun, nofun, fun m₁ h1 => ?_⟩
  rw [act_fdct] at h1
  cases h1
  refine ⟨nofun, nofun, fun m₂ h2 => ?_⟩
  rw [act_fdcs] at h2
  cases h2
  exact ⟨nofun, fun _ _ _ _ => h, fun _ _ => trivial⟩

/-- The condition of an access to a sector. -/
lemma fits_access {track sector value : UInt8}
    (h : CommandFits S (addressed S track sector m) value.toNat) :
    Fits S (accessSector track sector value) m := by
  refine ⟨nofun, fun m₁ h1 => ?_⟩
  rw [act_fdct] at h1
  cases h1
  refine ⟨nofun, fun m₂ h2 => ?_⟩
  rw [act_fdcs] at h2
  cases h2
  refine ⟨fun v hv => ?_, fun _ _ => trivial⟩
  cases hv
  exact h

end Runs

open Bios

/-- **The surroundings of a machine with one drive**: on a host of its own, drive A is a directory
with no file. -/
def oneDirectory : Surroundings Host where
  toWorld := hostWorld
  drive id := if id = 0 then drivePath else []
  stat p _ := if p = drivePath then some .dir else none
  readdir _ _ := some []
  tree h := h
  tick h := h

/-- The boot loader has mounted drive A. -/
lemma mounted_booted : Mounted booted := by
  refine mounted_of_build fun id dk hd => ?_
  have hptr : booted.diskptr = Function.update (fun _ => none) 0 (some fooStart) := by rfl
  rw [hptr] at hd
  by_cases hid : id = 0
  · subst hid
    obtain rfl : fooStart = dk := by simpa using hd
    exact ⟨fun _ => some [], drivePath, emptyDrive, ibm8, .inl rfl, rfl⟩
  · simp [hid] at hd

/-- The first sector of the directory is read. -/
theorem completes_read : Completes oneDirectory (accessSector 2 1 0) (booted, emptyDrive) := by
  refine (completes_iff mounted_booted (admissible_access (Nat.zero_le _))).mpr
    (fits_access fun dk hd => ⟨fun _ => ?_, fun h1 => absurd h1 (by decide)⟩)
  obtain rfl : fooStart = dk := Option.some.inj hd
  have habs : fooStart.getAbsSector 2 1 = some 52 := by decide
  have hstart : fooStart.dirstart = 52 := by decide
  refine ⟨rfl, inTable_iff.mpr ⟨52, habs⟩, fun a ha hlt => ?_⟩
  change fooStart.getAbsSector 2 1 = some a at ha
  rw [habs, Option.some.injEq] at ha
  change a < fooStart.dirstart at hlt
  omega

/-- **A command that does not complete**: on an empty drive, sector 0 of a track of the directory is
read, and the retranslation table has no such element. -/
theorem sector_zero_fails : Mounted booted ∧
    Admissible oneDirectory (accessSector 2 0 0) (booted, emptyDrive) ∧
    ¬ Completes oneDirectory (accessSector 2 0 0) (booted, emptyDrive) := by
  refine ⟨mounted_booted, admissible_access (Nat.zero_le _), fun h => ?_⟩
  have hcommand := ((h.2 _ (act_fdct 2 _)).2 _ (act_fdcs 0 _)).1 0 rfl
  have hfits := (act_fdcop_iff mounted_booted 0).mp hcommand
  obtain ⟨-, htable, -⟩ := (hfits fooStart rfl).1 rfl
  exact absurd (htable (by decide)).1 (by decide)

end Cpu

end Cpm22
