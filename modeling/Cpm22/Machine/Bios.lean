import Cpm22.Machine.Cpu
import Cpm22.Disk.Calls

set_option relaxedAutoImplicit false
set_option autoImplicit false

/-!
# Drive selection

The disk routines of `bios.asm`, and which drive they act on. `_SELDSK` accepts the drive numbers
0 to 9 and returns the address of a disk parameter header for each; `selectdisk` knows the numbers
0 to 3, 7 and 8. For 4, 5, 6 and 9 the BDOS sees a success and the drive selected before stays.

## Main definitions

* `Cpm22.Bios.Call` — the disk calls of the BIOS; `Cpm22.Bios.exec` runs one.
* `Cpm22.Bios.ActsOn` — a call reads and writes no drive object but that of one drive, and fails
  if it uses none.
* `Cpm22.Bios.Agrees` — along a run, reads and writes act on the drive that the last selection
  returned a header for.

## Main results

* `Cpm22.Bios.agrees` — the agreement along every run that selects 4, 5, 6 and 9 only while no
  drive is selected.
* `Cpm22.Bios.write_wrong_drive` — a write to drive A after a selection of drive E.
-/

namespace Cpm22.Bios

open Cpu

variable {ε D : Type} (sd : SimDrive ε D)

/-! ## The routines -/

/-- Start of the CBIOS. -/
def BIOS : ℕ := 0xfa00

/-- Address of the disk parameter headers, after a jump vector of 18 jumps. -/
def DPBASE : ℕ := BIOS + 18 * 3

/-- `STATUS`: the status port goes to register `A`. -/
def status : EStateM ε (Cpu D) ℕ := do
  pure (← get).inStatus

/-- What a routine returns: register `A`, and `HL` if it sets it. -/
structure Answer where
  hl : ℕ
  a : ℕ
  deriving DecidableEq

/-- `CALCDB`: hand the header number `a` and the drive `c` to the controller. -/
def calcdb (c a : ℕ) : EStateM ε (Cpu D) Answer := do
  let hl := (16 * a + DPBASE) % 2 ^ 16
  out sd .dpbl (hl % 256)
  out sd .dpbh (hl / 256)
  out sd .fdcd c
  pure ⟨hl, ← status⟩

/-- **`_SELDSK`**: select the drive in register `C`. -/
def seldsk (c : ℕ) : EStateM ε (Cpu D) Answer :=
  if c < 4 then calcdb sd c c
  -- `SUB A,4` sets no carry here, so its `RET C` is never taken
  else if c - 4 ≥ 6 then pure ⟨0, c - 4⟩
  else calcdb sd c (c - 4)

/-- `_SETTRK`. -/
def settrk (c : ℕ) : EStateM ε (Cpu D) ℕ := do
  out sd .fdct c
  status

/-- `_HOME`. -/
def home : EStateM ε (Cpu D) ℕ := settrk sd 0

/-- `_SETSEC`. -/
def setsec (c : ℕ) : EStateM ε (Cpu D) ℕ := do
  out sd .fdcs c
  status

/-- `_SETDMA`. -/
def setdma (b c : ℕ) : EStateM ε (Cpu D) ℕ := do
  out sd .dmal c
  out sd .dmah b
  status

/-- `WAITIO`: start the operation and return its status. -/
def waitio (op : ℕ) : EStateM ε (Cpu D) ℕ := do
  out sd .fdcop op
  status

/-- `_READ`. -/
def read : EStateM ε (Cpu D) ℕ := waitio sd 0

/-- `_WRITE`. -/
def write : EStateM ε (Cpu D) ℕ := waitio sd 1

/-- **The disk calls of the BIOS**, with the registers they read. The selection, the track, the
sector and the address go to the controller at once; only the last two calls transfer a sector. -/
inductive Call
  | home
  | seldsk (c : UInt8)
  | settrk (c : UInt8)
  | setsec (c : UInt8)
  | setdma (b c : UInt8)
  | read
  | write
  deriving DecidableEq

/-- A routine that does not set `HL`. -/
def plain (m : EStateM ε (Cpu D) ℕ) : EStateM ε (Cpu D) Answer := do
  let a ← m
  pure ⟨0, a⟩

/-- **One call.** -/
def exec (call : Call) : EStateM ε (Cpu D) Answer :=
  match call with
  | .home => plain <| home sd
  | .seldsk c => seldsk sd c.toNat
  | .settrk c => plain <| settrk sd c.toNat
  | .setsec c => plain <| setsec sd c.toNat
  | .setdma b c => plain <| setdma sd b.toNat c.toNat
  | .read => plain <| read sd
  | .write => plain <| write sd

/-! ## Agreement -/

/-- **A call acts on drive `c`**: it reads and writes no object but that of drive `c`, leaves every
other object as it is, and returns an error if it does not use that object. -/
def ActsOn (c : ℕ) (s : Cpu D) (r : EStateM.Result ε (Cpu D) Answer) : Prop :=
  ∃ used, (Exc.final r).accesses = s.accesses ++ used ∧ (∀ id ∈ used, id = c) ∧
    (∀ id, id ≠ c → (Exc.final r).diskptr id = s.diskptr id) ∧
    ∀ ans s', r = .ok ans s' → used = [] → ans.a ≠ 0

/-- The drive that reads and writes have to act on after a call: the one that was selected last, if
the selection returned a header. -/
def chosen (sel : Option ℕ) (call : Call) (ans : Answer) : Option ℕ :=
  match call with
  | .seldsk c => if ans.hl ≠ 0 then some c.toNat else none
  | _ => sel

/-- **The agreement along a run** of BIOS calls. -/
def Agrees : Option ℕ → List Call → Cpu D → Prop
  | _, [], _ => True
  | sel, call :: calls, s =>
    (∀ c ∈ sel, call = .read ∨ call = .write → ActsOn c s (exec sd call s)) ∧
    ∀ ans s', exec sd call s = .ok ans s' → Agrees (chosen sel call ans) calls s'

/-- **The condition**: a drive that the BIOS accepts and the controller does not know is selected
only while no drive is selected. -/
def Careful : List Call → Cpu D → Prop
  | [], _ => True
  | call :: calls, s =>
    (∀ c, call = .seldsk c → c = 4 ∨ c = 5 ∨ c = 6 ∨ c = 9 → MAXDRIVE ≤ s.currentdrive) ∧
    ∀ ans s', exec sd call s = .ok ans s' → Careful calls s'

/-- What a selection leaves behind: its drive, or none. -/
def Settled (sel : Option ℕ) (s : Cpu D) : Prop :=
  ∀ c ∈ sel, s.currentdrive = c ∨ MAXDRIVE ≤ s.currentdrive

/-! ## One call -/

variable {sd} {s s' : Cpu D} {c : ℕ}

/-- `insertDisk` leaves the selection alone. -/
lemma currentdrive_insertDisk (n id : ℕ) (kind : FileKind) (g : Geometry) :
    Exc.Triple (fun s => s.currentdrive = n) (insertDisk sd id kind g)
      (fun _ s => s.currentdrive = n) fun _ => True := by
  intro s hs
  unfold insertDisk
  rw [Exc.get_bind]
  cases s.diskptr id with
  | some d => exact hs
  | none =>
    cases kind with
    | dir =>
      dsimp only
      cases sd.newDisk id g with
      | ok d => exact hs
      | error e => trivial
    | regular =>
      dsimp only
      cases sd.newImage id g with
      | ok d => exact hs
      | error e => trivial
    | other => exact hs

/-- What `selectdisk` leaves behind, for a drive that it knows. -/
lemma currentdrive_selectdisk {id : ℕ} (g : Geometry) (hk : Known id) :
    Exc.Triple (fun _ => True) (selectdisk sd id g)
      (fun _ s => s.currentdrive = id ∨ MAXDRIVE ≤ s.currentdrive) fun _ => True := by
  rw [selectdisk, if_pos hk]
  refine .bind .get fun s₀ => ?_
  refine .ite (fun hid => ?_) fun hid => .pure ?_
  · refine .bind (R := fun _ s => s.currentdrive = MAXDRIVE) (.modify fun s _ => ?_) fun _ => ?_
    · unfold deselected
      cases s.object s.currentdrive <;> rfl
    · cases sd.stat id with
      | none => exact .pure fun s hs => .inr hs.ge
      | some kind =>
        refine .bind (currentdrive_insertDisk MAXDRIVE id kind g) fun r => ?_
        cases r with
        | none => exact .pure fun s hs => .inr hs.ge
        | some d =>
          exact .bind (R := fun _ s => s.currentdrive = id) (.modify fun s _ => rfl)
            fun _ => .pure fun s hs => .inl hs
  · rintro s ⟨rfl, -⟩
    exact .inl (not_not.mp hid).symm

/-- A drive number that the BIOS accepts and the controller does not know. -/
lemma unknown_of_not_known (hk : ¬ Known c) (hc : c < 10) : c = 4 ∨ c = 5 ∨ c = 6 ∨ c = 9 := by
  simp only [Known, MAXDRIVE] at hk
  omega

/-- **What a selection leaves behind**: its drive or none, if it is careful. -/
lemma currentdrive_calcdb (a : ℕ) (hc : c < 10) :
    Exc.Triple (fun s => c = 4 ∨ c = 5 ∨ c = 6 ∨ c = 9 → MAXDRIVE ≤ s.currentdrive)
      (calcdb sd c a) (fun _ s => s.currentdrive = c ∨ MAXDRIVE ≤ s.currentdrive)
      fun _ => True := by
  set P : Cpu D → Prop := fun s => c = 4 ∨ c = 5 ∨ c = 6 ∨ c = 9 → MAXDRIVE ≤ s.currentdrive
  refine .bind (R := fun _ => P) (.modify fun s h => h) fun _ => ?_
  refine .bind (R := fun _ => P) (.modify fun s h => h) fun _ => ?_
  refine .bind (R := fun _ s => s.currentdrive = c ∨ MAXDRIVE ≤ s.currentdrive) ?_ fun _ => ?_
  · refine .bind (R := fun _ => P) (.modify fun s h => h) fun _ => ?_
    refine .bind .get fun s₀ => ?_
    refine .bind ?_ fun st => .modify fun s h => h
    by_cases hk : Known c
    · exact (currentdrive_selectdisk s₀.geometry hk).weaken (fun _ _ => trivial)
        (fun _ _ h => h) fun _ h => h
    · rw [selectdisk, if_neg hk]
      exact .pure fun s h => .inr (h.2 (unknown_of_not_known hk hc))
  · refine .bind (R := fun _ s => s.currentdrive = c ∨ MAXDRIVE ≤ s.currentdrive) ?_ fun _ => ?_
    · exact fun s h => h
    · exact .pure fun s h => h

/-- The registers of the routine `_SELDSK`.

**Proof sketch.** Both branches of the routine that select a drive go through `calcdb`, which
leaves the current drive as its answer says. A number from 10 on is refused without a port output.
-/
lemma settled_seldsk (sel : Option ℕ) (c : UInt8) :
    Exc.Triple (fun s => c = 4 ∨ c = 5 ∨ c = 6 ∨ c = 9 → MAXDRIVE ≤ s.currentdrive)
      (seldsk sd c.toNat) (fun ans s => Settled (chosen sel (.seldsk c) ans) s)
      fun _ => True := by
  by_cases h10 : c.toNat < 10
  · have hcalc : ∀ a, Exc.Triple
        (fun s => c = 4 ∨ c = 5 ∨ c = 6 ∨ c = 9 → MAXDRIVE ≤ s.currentdrive)
        (calcdb sd c.toNat a) (fun ans s => Settled (chosen sel (.seldsk c) ans) s)
        fun _ => True := by
      intro a
      refine (currentdrive_calcdb a h10).weaken (fun s h hc => h ?_) (fun ans s h => ?_)
        fun _ h => h
      · exact hc.imp (UInt8.toNat_inj.mp ·) (.imp (UInt8.toNat_inj.mp ·)
          (.imp (UInt8.toNat_inj.mp ·) (UInt8.toNat_inj.mp ·)))
      · intro n hn
        have hn' : n = c.toNat := by
          by_cases hl : ans.hl = 0
          · simp [chosen, hl] at hn
          · simpa [chosen, hl, eq_comm] using hn
        rw [hn']
        exact h
    rw [seldsk]
    exact .ite (fun _ => hcalc _) fun h4 => .ite (fun h6 => by omega) fun _ => hcalc _
  · rw [seldsk, if_neg (by omega), if_pos (by omega)]
    refine .pure fun s _ n hn => ?_
    simp [chosen] at hn

/-- The object of drive `c` was used, and no other. -/
structure Used (c : ℕ) (s t : Cpu D) : Prop where
  accesses : t.accesses = s.accesses ++ [c]
  frame : ∀ id, id ≠ c → t.diskptr id = s.diskptr id
  current : t.currentdrive = s.currentdrive

/-- No object was used. -/
structure Unused (s t : Cpu D) : Prop where
  accesses : t.accesses = s.accesses
  frame : t.diskptr = s.diskptr
  current : t.currentdrive = s.currentdrive

/-- A method call uses its object. -/
lemma used_access {α : Type} (d : D) (m : EStateM ε D α) :
    Exc.Triple (fun t => t = s) (access c d m) (fun _ => Used c s) (Used c s) := by
  rintro t rfl
  have hframe : ∀ d' id, id ≠ c → (t.setObject c d').diskptr id = t.diskptr id :=
    fun d' id hid => Function.update_of_ne hid _ _
  unfold access
  cases m d with
  | ok a d' => exact ⟨rfl, hframe d', rfl⟩
  | error e d' => exact ⟨rfl, hframe d', rfl⟩

/-- What a sector operation on the drive `c` does: it uses the object, or returns 1. -/
def Served (c : ℕ) (s : Cpu D) (st : ℕ) (t : Cpu D) : Prop :=
  Used c s t ∨ (Unused s t ∧ st = 1)

/-- The selected drive has an object only if it is drive `c`. -/
lemma eq_of_object {d : D} (h : s.currentdrive = c ∨ MAXDRIVE ≤ s.currentdrive)
    (hd : s.object s.currentdrive = some d) : s.currentdrive = c := by
  refine h.resolve_right fun hge => ?_
  rw [object, if_neg (Nat.not_lt.mpr hge)] at hd
  cases hd

/-- A drive operation acts on the selected drive. -/
lemma served_operation (h : s.currentdrive = c ∨ MAXDRIVE ≤ s.currentdrive)
    {m : Cpu D → D → EStateM ε (Cpu D) ℕ}
    (hm : ∀ d, s.currentdrive = c →
      Exc.Triple (fun t => t = s) (m s d) (fun _ => Used c s) (Used c s)) :
    Exc.Triple (fun t => t = s)
      (get >>= fun s₀ => match s₀.object s₀.currentdrive with
        | some d => m s₀ d
        | none => pure 1)
      (Served c s) (Used c s) := by
  rintro t rfl
  rw [Exc.get_bind]
  cases hd : t.object t.currentdrive with
  | none => exact .inr ⟨⟨rfl, rfl, rfl⟩, rfl⟩
  | some d =>
    exact (hm d (eq_of_object h hd)).weaken (fun _ hs => hs) (fun _ _ hs => Or.inl hs)
      (fun _ hs => hs) t rfl

/-- The command `op` of the controller acts on the selected drive. -/
lemma served_command {op : ℕ} (hop : op = 0 ∨ op = 1)
    (h : s.currentdrive = c ∨ MAXDRIVE ≤ s.currentdrive) (track sector a : ℕ) :
    Exc.Triple (fun t => t = s) (command sd op track sector a) (Served c s) (Used c s) := by
  have haccess {α : Type} (d : D) (hc : s.currentdrive = c) (m : EStateM ε D α) :
      Exc.Triple (fun t => t = s) (access s.currentdrive d m) (fun _ => Used c s) (Used c s) := by
    rw [hc]
    exact used_access d m
  rcases hop with rfl | rfl
  · rw [command, if_pos rfl]
    refine served_operation h fun d hc => .bind (haccess d hc _) fun r => ?_
    refine .bind (R := fun _ => Used c s) (.modify fun t ht => ?_) fun _ => .pure fun t ht => ht
    exact ⟨ht.accesses, ht.frame, ht.current⟩
  · rw [command, if_neg (by omega), if_pos rfl]
    exact served_operation h fun d hc => haccess d hc _

/-- **A sector operation acts on the selected drive.** -/
lemma served_waitio {op : ℕ} (hop : op = 0 ∨ op = 1)
    (h : s.currentdrive = c ∨ MAXDRIVE ≤ s.currentdrive) :
    Exc.Triple (fun t => t = s) (waitio sd op) (Served c s) (Used c s) := by
  have hframe {t : Cpu D} (ht : Used c { s with fdcop := op } t) : Used c s t :=
    ⟨ht.accesses, ht.frame, ht.current⟩
  refine .bind (R := fun _ t => Served c s t.fdcst t) ?_ fun _ => ?_
  · refine .bind (R := fun _ t => t = { s with fdcop := op }) (.modify fun t ht => by rw [ht])
      fun _ => ?_
    refine .bind .get fun s₀ => ?_
    rintro t ⟨rfl, rfl⟩
    have hrun := @served_command ε D sd { s with fdcop := op } c op hop h s.fdct s.fdcs s.dma
    refine Exc.Triple.bind (hrun.weaken (fun _ ht => ht) (fun _ _ ht => ht) fun _ => hframe)
      (fun st => .modify fun t ht => ?_) _ rfl
    rcases ht with ht | ⟨ht, rfl⟩
    · exact .inl ⟨ht.accesses, ht.frame, ht.current⟩
    · exact .inr ⟨⟨ht.accesses, ht.frame, ht.current⟩, rfl⟩
  · refine .bind (R := fun s₀ t => s₀ = t ∧ Served c s t.fdcst t) .get fun s₀ => .pure ?_
    rintro t ⟨rfl, ht⟩
    exact ht.imp_right fun hu => ⟨hu.1, by rw [inStatus, hu.2]⟩

/-- A read or a write acts on the drive that was selected. -/
lemma actsOn_of_served {m : EStateM ε (Cpu D) ℕ}
    (hm : Exc.Triple (fun t => t = s) m (Served c s) (Used c s)) :
    ActsOn c s (plain m s) := by
  have hs := hm s rfl
  rw [plain, Exc.bind_apply]
  cases hr : m s with
  | error e t =>
    rw [hr] at hs
    exact ⟨[c], hs.accesses, by simp, hs.frame, fun _ _ h => by cases h⟩
  | ok a t =>
    rw [hr] at hs
    rcases hs with hs | ⟨hs, rfl⟩
    · exact ⟨[c], hs.accesses, by simp, hs.frame, fun _ _ _ h => by cases h⟩
    · refine ⟨[], by rw [List.append_nil]; exact hs.accesses, by simp,
        fun id _ => congrFun hs.frame id, ?_⟩
      rintro ans s' h -
      cases h
      exact Nat.one_ne_zero

/-! ## Runs -/

/-- A call that selects no drive leaves the selection alone.

**Proof sketch.** Only the drive port sets the current drive. The calls that store a number touch
no drive, and a command uses the current one without changing it (`served_waitio`). -/
lemma settled_exec {call : Call} (sel : Option ℕ) (hcall : ∀ c, call ≠ .seldsk c) {ans : Answer}
    (hs : Settled sel s) (h : exec sd call s = .ok ans s') :
    Settled (chosen sel call ans) s' := by
  have hkeep : s'.currentdrive = s.currentdrive := by
    have hio {op : ℕ} (hop : op = 0 ∨ op = 1) {a : ℕ} (hr : waitio sd op s = .ok a s') :
        s'.currentdrive = s.currentdrive := by
      have hw := @served_waitio ε D sd s _ op hop (.inl rfl) s rfl
      rw [hr] at hw
      exact hw.elim Used.current fun hu => hu.1.current
    have hplain {m : EStateM ε (Cpu D) ℕ} (hm : ∀ {a}, m s = .ok a s' →
        s'.currentdrive = s.currentdrive) (hr : plain m s = .ok ans s') :
        s'.currentdrive = s.currentdrive := by
      obtain ⟨a, s₁, ha, hp⟩ := Exc.bind_ok.mp hr
      cases hp
      exact hm ha
    cases call with
    | seldsk c => exact absurd rfl (hcall c)
    | home => exact hplain (fun hr => by cases hr; rfl) h
    | settrk c => exact hplain (fun hr => by cases hr; rfl) h
    | setsec c => exact hplain (fun hr => by cases hr; rfl) h
    | setdma b c => exact hplain (fun hr => by cases hr; rfl) h
    | read => exact hplain (hio (.inl rfl)) h
    | write => exact hplain (hio (.inr rfl)) h
  have hchosen : chosen sel call ans = sel := by
    cases call with
    | seldsk c => exact absurd rfl (hcall c)
    | _ => rfl
  intro c hc
  rw [hchosen] at hc
  rw [hkeep]
  exact hs c hc

/-- The agreement along a run, from a state in which the selected drive is settled. -/
lemma agrees_of_settled : ∀ {calls : List Call} {sel : Option ℕ} {s : Cpu D}, Settled sel s →
    Careful sd calls s → Agrees sd sel calls s := by
  intro calls
  induction calls with
  | nil => exact fun _ _ => trivial
  | cons call calls ih =>
    rintro sel s hs ⟨hcare, hrest⟩
    refine ⟨fun c hc hcall => ?_, fun ans s' h => ih ?_ (hrest ans s' h)⟩
    · rcases hcall with rfl | rfl
      · exact actsOn_of_served (served_waitio (.inl rfl) (hs c hc))
      · exact actsOn_of_served (served_waitio (.inr rfl) (hs c hc))
    · by_cases hsel : ∃ c, call = .seldsk c
      · obtain ⟨c, rfl⟩ := hsel
        have hset := @settled_seldsk ε D sd sel c s (hcare c rfl)
        rw [show seldsk sd c.toNat s = .ok ans s' from h] at hset
        exact hset
      · exact settled_exec sel (fun c hc => hsel ⟨c, hc⟩) hs h

/-- **The BIOS and the host agree on the drive.** Along every run of BIOS calls, from any state and
with any drives, in which a drive that the controller does not know is selected only while no drive
is selected: a read or a write after a selection that returned a header acts on the selected drive
or returns an error.

**Proof sketch.** Induction on the run; a selection leaves its drive or none selected, and the other
calls leave the selection alone. -/
theorem agrees {calls : List Call} {s : Cpu D} (h : Careful sd calls s) :
    Agrees sd none calls s :=
  agrees_of_settled (fun _ hc => absurd hc (by simp)) h

/-! ## A machine with one drive -/

open Disk

/-- A host with the directory of drive A. -/
def oneDrive : SimDrive Fault Disk :=
  drives (fun _ => some []) emptyDrive fun id => if id = 0 then some drivePath else none

/-- The machine when it is switched on. -/
def powerOn : Cpu Disk where
  ram _ := 0
  fdcd := 0
  fdct := 0
  fdcs := 0
  fdcop := 0
  fdcst := 0
  dma := 0
  dph := 0
  currentdrive := MAXDRIVE
  diskptr _ := none
  accesses := []

/-- The machine after the boot loader selected drive A. -/
def booted : Cpu Disk := Exc.final (out oneDrive .fdcd 0 powerOn)

/-- A failed selection of drive B, a read, and a write to drive A. -/
theorem agrees_one_drive :
    Agrees oneDrive none [.seldsk 1, .read, .seldsk 0, .settrk 2, .setsec 1, .write] booted := by
  refine agrees ⟨?_, fun _ _ _ => ⟨?_, fun _ _ _ => ⟨?_, fun _ _ _ => ⟨?_, fun _ _ _ => ⟨?_,
    fun _ _ _ => ⟨?_, fun _ _ _ => trivial⟩⟩⟩⟩⟩⟩ <;>
  · intro c hc hbad
    cases hc <;> exact absurd hbad (by decide)

/-- **A write to the wrong drive.** The BIOS accepts a selection of drive E, which the controller
refuses, and the next write goes to drive A.

**Proof sketch.** Running the two calls: the selection of drive E returns the address of a
parameter header, and the write accesses drive A. -/
theorem write_wrong_drive : ¬ Agrees oneDrive none [.seldsk 4, .write] booted := by
  have hsel : ∃ ans s, exec oneDrive (.seldsk 4) booted = .ok ans s ∧ ans.hl ≠ 0 := by
    have hdec : (match exec oneDrive (.seldsk 4) booted with
      | .ok ans _ => decide (ans.hl ≠ 0)
      | .error _ _ => false) = true := by decide
    cases hx : exec oneDrive (.seldsk 4) booted with
    | ok ans s =>
      rw [hx] at hdec
      exact ⟨ans, s, rfl, of_decide_eq_true hdec⟩
    | error e s =>
      rw [hx] at hdec
      cases hdec
  have hacc : (Exc.final (exec oneDrive .write
      (Exc.final (exec oneDrive (.seldsk 4) booted)))).accesses =
      (Exc.final (exec oneDrive (.seldsk 4) booted)).accesses ++ [0] := by decide
  intro h
  obtain ⟨ans, s, hx, hl⟩ := hsel
  rw [hx, Exc.final_ok] at hacc
  obtain ⟨hacts, -⟩ := h.2 ans s hx
  obtain ⟨used, hused, hall, -⟩ := hacts 4 (by simp [chosen, hl]) (.inr rfl)
  rw [hacc] at hused
  rw [← List.append_cancel_left hused] at hall
  exact absurd (hall 0 (by simp)) (by decide)

end Cpm22.Bios
