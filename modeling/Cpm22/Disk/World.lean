import Cpm22.Disk.Bdos

set_option relaxedAutoImplicit false
set_option autoImplicit false

/-!
# The disk in its surroundings

What a program with a drive object meets at run time, with nothing assumed about it. The calls of
the operating system may answer anything and change the world in any way, for all drive objects the
same one; and three things go on that `Cpm22.Disk.read` and `Cpm22.Disk.write` leave out.

* `path_` is a pointer. `selectdisk` makes a drive object with the characters of a string of its
  own, which is gone when `selectdisk` returns: every later use of `path_`, in the log lines of
  `Read`, `Write` and `Flush` and in `mkhostname`, reads memory that belongs to something else by
  then.
* `Flush` goes through the cache with an iterator whose node it erases, as in `Cpm22.Disk.pass`.
* The write of `WriteHost` goes to the buffer of a stream. Its answer is that of the stream calls;
  what fails when the stream is closed is not asked for.

## Main definitions

* `Cpm22.Disk.World` — the answers of the surroundings.
* `Cpm22.Disk.Crash` — how a method can end without a result.
* `Cpm22.Disk.Hosted.read`, `Cpm22.Disk.Hosted.write` — the methods.
* `Cpm22.Disk.hostWorld` — the surroundings of the disk on a host of its own.

## Main results

* `Cpm22.Disk.Hosted.refines_read`, `Cpm22.Disk.Hosted.refines_write` — in these surroundings the
  methods do what `Cpm22.Disk.read` and `Cpm22.Disk.write` do, up to an erased iterator.
-/

namespace Cpm22.Disk

open HostPath HostFs Bdos

/-- **The surroundings of a drive object**: what the calls answer in a state of the world, and the
state after them. -/
structure World (σ : Type) where
  /-- the characters that `path_` points to when it is read, for an object that was made with the
  given path; `none` where the access ends the program -/
  path : Bytes → σ → Option Bytes × σ
  /-- `create_directories` -/
  createDirectories : Bytes → σ → Bool × σ
  /-- an output stream is opened -/
  create : Bytes → σ → Bool × σ
  /-- `remove` -/
  remove : Bytes → σ → Bool × σ
  /-- `rename` -/
  rename : Bytes → Bytes → σ → Bool × σ
  /-- the stream calls of `WriteHost`: open, seek and write -/
  write : Bytes → ℕ → Bytes → σ → Bool × σ
  /-- the stream calls of `ReadHost`, with the bytes that arrive -/
  read : Bytes → ℕ → σ → (Bool × Bytes) × σ

/-- How a method of a drive object can end without a result. -/
inductive Crash
  /-- a fault of `Read` or `Write` -/
  | fault (f : Fault)
  /-- `Flush` advances an iterator whose node it has erased -/
  | deadCursor
  /-- an access through `path_` -/
  | deadPath
  deriving DecidableEq

namespace Hosted

/-- Operations on a drive object in a world. The object is a `Disk`, of which the field `host` is
not used: the host is the world. -/
abbrev WorldM (σ : Type) := EStateM Crash (Disk × σ)

variable {σ α : Type}

/-- A step that asks nothing of the world. -/
def inObject (m : DiskM α) : WorldM σ α := fun s =>
  match m s.1 with
  | .ok a dk => .ok a (dk, s.2)
  | .error e dk => .error (.fault e) (dk, s.2)

/-- A call. -/
def call (f : σ → α × σ) : WorldM σ α := fun s => .ok (f s.2).1 (s.1, (f s.2).2)

/-- A call whose failure ends in `throw;`. -/
def orRethrow (f : σ → Bool × σ) : WorldM σ Unit := do
  if ← call f then pure () else throw (.fault .rethrow)

variable (W : World σ)

/-- **The characters that `path_` points to are read.** -/
def readPath : WorldM σ Bytes := fun s =>
  match (W.path s.1.path s.2).1 with
  | some p => .ok p (s.1, (W.path s.1.path s.2).2)
  | none => .error .deadPath (s.1, (W.path s.1.path s.2).2)

/-- **`mkhostname`**. -/
def mkhostname (cpmname : Bytes) : WorldM σ Bytes := do
  let path ← readPath W
  if ← call (W.createDirectories (hostDir path (splitUser cpmname).1)) then
    pure (hostPath path cpmname)
  else throw (.fault .systemError)

/-! ## `Flush` -/

/-- **The inner loop of `Flush`**. The buffer is deleted behind the first write and its sector
leaves the cache; the loop goes on, and a second entry that lists the block would use the buffer
once more. -/
def flushSector (sid : ℕ) (data : Sector) : Bool → List CpmDir → WorldM σ Unit
  | _, [] => pure ()
  | live, e :: es => do
    let d := (← get).1.dpb
    let blkoffset := e.findBlockIndex (sid >>> d.bsh) d.blockPtrType
    if e.Used ∧ blkoffset ≠ 0 then
      let uname ← inObject (unixAt e.getName)
      if live then
        let _ ← call (W.write uname (fileOffset d blkoffset sid) (bytes data))
        inObject (modify fun dk => { dk with cache := dk.cache.erase sid })
        flushSector sid data false es
      else throw (.fault .deadBuffer)
    else flushSector sid data live es

/-- The body of the outer loop of `Flush`. -/
def flushOne (sid : ℕ) : WorldM σ Unit := do
  let s ← get
  match s.1.cache.lookup sid with
  | some data => flushSector W sid data true s.1.dir
  | none => pure ()

/-- `citcache++`. -/
def advance (sid : ℕ) : WorldM σ Unit := fun s =>
  if sid ∈ s.1.cache then .ok () s else .error .deadCursor s

/-- The outer loop of `Flush`, with the iterator on the first of the given keys. -/
def flushAll : List ℕ → WorldM σ Unit
  | [] => pure ()
  | sid :: sids => do
    flushOne W sid
    advance sid
    flushAll sids

/-- **`Flush`**, with its two log lines. -/
def flush : WorldM σ ℕ := do
  let _ ← readPath W
  flushAll W (← get).1.cached
  let _ ← readPath W
  pure 0

/-! ## `Write` -/

/-- What replacing an entry does to the host files and the name map. The name is built from `path_`
at the call of `mkhostname`, which creates the directory of the user, too. -/
def hostChange (extold extnew : CpmDir) : WorldM σ Unit := do
  if ¬ extnew.Used ∧ extold.Used then
    if extold.getExtNumber = 0 then
      let uname ← inObject (unixAt extold.getName)
      orRethrow (W.remove uname)
      inObject (eraseUnix extold.getName)
  else if extnew.Used ∧ ¬ extold.Used then
    if extnew.getExtNumber = 0 then
      let uname ← mkhostname W extnew.getName
      orRethrow (W.create uname)
      inObject (setUnix extnew.getName uname)
  else if extnew.Used ∧ extold.Used ∧ extnew.getName ≠ extold.getName then
    if extold.getExtNumber = 0 ∧ extnew.getExtNumber = 0 then
      let unameold ← inObject (unixAt extold.getName)
      let unamenew ← mkhostname W extnew.getName
      orRethrow (W.rename unameold unamenew)
      inObject (eraseUnix extold.getName)
      inObject (setUnix extnew.getName unamenew)

/-- **One entry of a directory sector.** -/
def writeEntry (n : ℕ) (extnew : CpmDir) : WorldM σ Unit := do
  let extold ← inObject (dirAt n)
  if extold.eq extnew then pure ()
  else
    hostChange W extold extnew
    inObject (setDir n extnew)

/-- The entries of a directory sector. -/
def writeEntries (extno : ℕ) (dma : Sector) : List (Fin 4) → WorldM σ Unit
  | [] => pure ()
  | idx :: idxs => do
    writeEntry W (extno + idx) (entryOf dma idx)
    writeEntries extno dma idxs

/-- A directory sector: its four entries, then `Flush`. -/
def writeDir (sector : ℕ) (dma : Sector) : WorldM σ ℕ := do
  writeEntries W (sector <<< 2) dma [0, 1, 2, 3]
  flush W

/-- **`Write`**, with its log line, which reads `path_` before anything else is done. A failing
write to the system file is `throw;` without an exception. -/
def write (track sector : ℕ) (dma : Sector) : WorldM σ ℕ := do
  let _ ← readPath W
  let absector ← inObject (absSector track sector)
  let dk := (← get).1
  if absector < dk.dirstart then
    if ← call (W.write dk.bootblock (absector <<< 7) (bytes dma)) then pure 0
    else throw (.fault .rethrow)
  else if absector - dk.dirstart < dk.datastart then writeDir W (absector - dk.dirstart) dma
  else inObject (writeData (absector - dk.dirstart) dma)

/-! ## `Read` -/

/-- **`ReadHost`**. -/
def readHost (hfile : Bytes) (pos : ℕ) (data128 : Sector) : WorldM σ (Bool × Sector) := do
  let r ← call (W.read hfile pos)
  pure (r.1, overlay data128 (r.2.take 128))

/-- The loop of `Read` over the directory. It does not stop at the first entry that lists the block,
and a name that is not in the map is an empty path, which no file has. -/
def readSector (sid : ℕ) : List CpmDir → Sector → WorldM σ Sector
  | [], dma => pure dma
  | e :: es, dma => do
    let dk := (← get).1
    let blkoffset := e.findBlockIndex (sid >>> dk.dpb.bsh) dk.dpb.blockPtrType
    if e.Used ∧ blkoffset ≠ 0 then
      let uname := (dk.cpm2unix.lookup e.getName).getD []
      let r ← readHost W uname (fileOffset dk.dpb blkoffset sid) dma
      readSector sid es r.2
    else readSector sid es dma

/-- A data sector. -/
def readData (sid : ℕ) (dma : Sector) : WorldM σ Sector := do
  let s ← get
  match s.1.cache.lookup sid with
  | some d => pure d
  | none => readSector W sid s.1.dir dma

/-- **`Read`**, with its log line, which reads `path_` before anything else is done. A failing read
of the system file is `throw;`, and one of a host file is not noticed. -/
def read (track sector : ℕ) (dma : Sector) : WorldM σ (ℕ × Sector) := do
  let _ ← readPath W
  let absector ← inObject (absSector track sector)
  let dk := (← get).1
  if absector < dk.dirstart then
    let r ← readHost W dk.bootblock (absector <<< 7) dma
    if r.1 then pure (0, r.2) else throw (.fault .rethrow)
  else if absector - dk.dirstart < dk.datastart then
    pure (0, ← inObject (readDir (absector - dk.dirstart)))
  else
    pure (0, ← readData W (absector - dk.dirstart) dma)

end Hosted

/-! ## The disk on a host of its own -/

/-- **The surroundings of a disk on a host of its own**, with `path_` as it was. -/
def hostWorld : World Host where
  path p h := (some p, h)
  createDirectories p h := h.createDirectories p
  create p h := h.create p
  remove p h := h.remove p
  rename p q h := h.rename p q
  write p pos bs h := h.write p pos bs
  read p pos h := (((h.read p pos).1.isSome, (h.read p pos).1.getD []), (h.read p pos).2)

namespace Hosted

variable {α β : Type}

/-- The disk that an object is in the world of a host. -/
def joined (s : Disk × Host) : Disk := { s.1 with host := s.2 }

/-- **The method `m` in the surroundings does what `m'` does on the disk**, also where a fault of
`m'` ends it. An erased iterator that is advanced, and an access through `path_` that fails, are
outside of `m'`. -/
def Refines (m : WorldM Host α) (m' : DiskM α) : Prop := ∀ s, match m s with
  | .ok a t => m' (joined s) = .ok a (joined t)
  | .error (.fault e) t => m' (joined s) = .error e (joined t)
  | .error _ _ => True

/-- A value. -/
lemma Refines.pure (a : α) : Refines (Pure.pure a) (Pure.pure a) := fun _ => rfl

/-- A fault. -/
lemma Refines.throw (e : Fault) :
    Refines (throw (.fault e) : WorldM Host α) (throw e : DiskM α) := fun _ => rfl

/-- **The sequencing rule.** -/
lemma Refines.bind {m : WorldM Host α} {m' : DiskM α} {f : α → WorldM Host β} {f' : α → DiskM β}
    (h : Refines m m') (hf : ∀ a, Refines (f a) (f' a)) : Refines (m >>= f) (m' >>= f') := by
  intro s
  have hs := h s
  rw [Exc.bind_apply]
  cases hm : m s with
  | ok a t =>
    rw [hm] at hs
    have ht := hf a t
    simp only
    rwa [Exc.bind_of_ok hs]
  | error e t =>
    rw [hm] at hs
    cases e with
    | fault e => exact Exc.bind_of_error hs
    | deadCursor => trivial
    | deadPath => trivial

/-- A sequence that first reads the object. -/
lemma Refines.get_bind {f : Disk × Host → WorldM Host β} {f' : Disk → DiskM β}
    (hf : ∀ s, Refines (f s) (f' (joined s))) : Refines (get >>= f) (get >>= f') :=
  fun s => hf s s

/-- The rule for conditionals. -/
lemma Refines.ite {c : Prop} [Decidable c] {m n : WorldM Host α} {m' n' : DiskM α}
    (h : c → Refines m m') (h' : ¬ c → Refines n n') :
    Refines (if c then m else n) (if c then m' else n') := by
  by_cases hc : c
  · rw [if_pos hc, if_pos hc]
    exact h hc
  · rw [if_neg hc, if_neg hc]
    exact h' hc

/-- A call of the host. -/
lemma refines_call (f : Host → α × Host) : Refines (call f) (onHost f) := fun _ => rfl

/-- A call of the host whose failure ends in `throw;`. -/
lemma refines_orRethrow (f : Host → Bool × Host) : Refines (orRethrow f) (Disk.orRethrow f) :=
  (refines_call f).bind fun _ => .ite (fun _ => .pure ()) fun _ => .throw .rethrow

/-- A step of the object that does not see the host. -/
lemma refines_inObject {m : DiskM α} (h : ∀ dk host,
    m { dk with host := host } = Exc.mapState (fun dk => { dk with host := host }) (m dk)) :
    Refines (inObject m) m := by
  intro s
  have hs := h s.1 s.2
  unfold inObject
  cases hm : m s.1 with
  | ok a dk =>
    rw [hm] at hs
    exact hs
  | error e dk =>
    rw [hm] at hs
    exact hs

/-- A lookup in the name map. -/
lemma refines_unixAt (name : Bytes) : Refines (inObject (unixAt name)) (unixAt name) := by
  refine refines_inObject fun dk host => ?_
  unfold unixAt
  cases dk.cpm2unix.lookup name <;> rfl

/-- A lookup in the directory does not see the host. -/
lemma dirAt_host (n : ℕ) (dk : Disk) (host : Host) : dirAt n { dk with host := host } =
    Exc.mapState (fun dk => { dk with host := host }) (dirAt n dk) := by
  unfold dirAt
  cases dk.dir[n]? <;> rfl

/-- A lookup in the directory. -/
lemma refines_dirAt (n : ℕ) : Refines (inObject (dirAt n)) (dirAt n) :=
  refines_inObject fun dk host => dirAt_host n dk host

/-- The address of a sector. -/
lemma refines_absSector (track sector : ℕ) :
    Refines (inObject (absSector track sector)) (absSector track sector) := by
  refine refines_inObject fun dk host => ?_
  have hsame : ({ dk with host := host } : Disk).getAbsSector track sector =
      dk.getAbsSector track sector := rfl
  unfold absSector
  rw [hsame]
  cases dk.getAbsSector track sector <;> rfl

/-- An assignment. -/
lemma refines_modify {f : Disk → Disk}
    (h : ∀ dk host, f { dk with host := host } = { f dk with host := host }) :
    Refines (inObject (modify f)) (modify f : DiskM PUnit) :=
  refines_inObject fun dk host => congrArg (EStateM.Result.ok ()) (h dk host)

/-- `path_` has its characters. -/
lemma refines_readPath {m : WorldM Host α} {m' : DiskM α} (h : Refines m m') :
    Refines (readPath hostWorld >>= fun _ => m) m' := fun s => h s

/-- **`mkhostname`.** -/
lemma refines_mkhostname (name : Bytes) :
    Refines (mkhostname hostWorld name) (Disk.mkhostname name) := by
  have h (path : Bytes) : Refines (do
      if ← call (hostWorld.createDirectories (hostDir path (splitUser name).1)) then
        pure (hostPath path name)
      else throw (.fault .systemError) : WorldM Host Bytes) (do
      if ← onHost (·.createDirectories (hostDir path (splitUser name).1)) then
        pure (hostPath path name)
      else throw .systemError) :=
    (refines_call _).bind fun _ => .ite (fun _ => .pure _) fun _ => .throw _
  exact fun s => h s.1.path s

/-- A sector is written to its file. -/
lemma refines_write_call (p : Bytes) (pos : ℕ) (data : Sector) :
    Refines (call (hostWorld.write p pos (bytes data))) (writeHost p pos data) := fun _ => rfl

/-! ### `Flush` -/

/-- **The inner loop of `Flush`.** -/
lemma refines_flushSector (sid : ℕ) (data : Sector) (es : List CpmDir) : ∀ live : Bool,
    Refines (flushSector hostWorld sid data live es) (Disk.flushSector sid data live es) := by
  induction es with
  | nil => exact fun _ => .pure ()
  | cons e es ih =>
    refine fun live => .get_bind fun s => .ite (fun _ => ?_) fun _ => ih live
    refine (refines_unixAt e.getName).bind fun uname => ?_
    cases live with
    | false => exact .throw .deadBuffer
    | true =>
      refine (refines_write_call uname _ data).bind fun _ => ?_
      exact (refines_modify fun _ _ => rfl).bind fun _ => ih false

/-- A round of the outer loop. -/
lemma refines_flushOne (sid : ℕ) : Refines (flushOne hostWorld sid) (Disk.flushOne sid) := by
  refine .get_bind fun s => ?_
  have hcache : (joined s).cache.lookup sid = s.1.cache.lookup sid := rfl
  rw [hcache]
  cases s.1.cache.lookup sid with
  | none => exact .pure ()
  | some data => exact refines_flushSector sid data s.1.dir true

/-- An iterator that is advanced has its node. -/
lemma refines_advance (sid : ℕ) {m : WorldM Host α} {m' : DiskM α} (h : Refines m m') :
    Refines (advance sid >>= fun _ => m) m' := by
  intro s
  rw [Exc.bind_apply, advance]
  by_cases hs : sid ∈ s.1.cache
  · rw [if_pos hs]
    exact h s
  · rw [if_neg hs]
    trivial

/-- The outer loop. -/
lemma refines_flushAll (sids : List ℕ) :
    Refines (flushAll hostWorld sids) (Disk.flushAll sids) := by
  induction sids with
  | nil => exact .pure ()
  | cons sid sids ih => exact (refines_flushOne sid).bind fun _ => refines_advance sid ih

/-- **`Flush`.** -/
lemma refines_flush : Refines (flush hostWorld) Disk.flush :=
  refines_readPath (.get_bind fun _ => (refines_flushAll _).bind fun _ =>
    refines_readPath (.pure 0))

/-! ### `Write` -/

/-- What replacing an entry does. -/
lemma refines_hostChange (old new : CpmDir) :
    Refines (hostChange hostWorld old new) (Disk.hostChange old new) := by
  refine .ite (fun _ => .ite (fun _ => ?_) fun _ => .pure ()) fun _ => ?_
  · exact (refines_unixAt _).bind fun p => (refines_orRethrow _).bind fun _ =>
      refines_modify fun _ _ => rfl
  refine .ite (fun _ => .ite (fun _ => ?_) fun _ => .pure ()) fun _ => ?_
  · exact (refines_mkhostname _).bind fun p => (refines_orRethrow _).bind fun _ =>
      refines_modify fun _ _ => rfl
  refine .ite (fun _ => .ite (fun _ => ?_) fun _ => .pure ()) fun _ => .pure ()
  refine (refines_unixAt _).bind fun p => (refines_mkhostname _).bind fun q => ?_
  exact (refines_orRethrow _).bind fun _ => (refines_modify fun _ _ => rfl).bind fun _ =>
    refines_modify fun _ _ => rfl

/-- One entry of a directory sector. -/
lemma refines_writeEntry (n : ℕ) (new : CpmDir) :
    Refines (writeEntry hostWorld n new) (Disk.writeEntry n new) :=
  (refines_dirAt n).bind fun old => .ite (fun _ => .pure ()) fun _ =>
    (refines_hostChange old new).bind fun _ => refines_modify fun _ _ => rfl

/-- The entries of a directory sector. -/
lemma refines_writeEntries (extno : ℕ) (dma : Sector) (idxs : List (Fin 4)) :
    Refines (writeEntries hostWorld extno dma idxs) (Disk.writeEntries extno dma idxs) := by
  induction idxs with
  | nil => exact .pure ()
  | cons idx idxs ih => exact (refines_writeEntry _ _).bind fun _ => ih

/-- A directory sector. -/
lemma refines_writeDir (sector : ℕ) (dma : Sector) :
    Refines (writeDir hostWorld sector dma) (Disk.writeDir sector dma) :=
  (refines_writeEntries _ _ _).bind fun _ => refines_flush

/-- **`Write`.** -/
theorem refines_write (track sector : ℕ) (dma : Sector) :
    Refines (write hostWorld track sector dma) (Disk.write track sector dma) := by
  refine refines_readPath ((refines_absSector track sector).bind fun a => .get_bind fun s => ?_)
  refine .ite (fun _ => ?_) fun _ => .ite (fun _ => refines_writeDir _ dma) fun _ => ?_
  · exact (refines_write_call _ _ dma).bind fun _ =>
      .ite (fun _ => .pure 0) fun _ => .throw .rethrow
  · exact refines_inObject fun dk host => rfl

/-! ### `Read` -/

/-- **`ReadHost`.** -/
lemma refines_readHost (p : Bytes) (pos : ℕ) (dma : Sector) :
    Refines (readHost hostWorld p pos dma) (Disk.readHost p pos dma) := by
  intro s
  have hread : Disk.readHost p pos dma (joined s) = match (s.2.read p pos).1 with
      | some bs => .ok (true, overlay dma (bs.take 128)) (joined (s.1, (s.2.read p pos).2))
      | none => .ok (false, dma) (joined (s.1, (s.2.read p pos).2)) := by
    rw [Disk.readHost, Exc.bind_apply]
    change (match (s.2.read p pos).1 with | some bs => _ | none => _ : DiskM (Bool × Sector)) _ = _
    cases (s.2.read p pos).1 <;> rfl
  change Disk.readHost p pos dma (joined s) =
    .ok ((s.2.read p pos).1.isSome, overlay dma (((s.2.read p pos).1.getD []).take 128)) _
  rw [hread]
  cases (s.2.read p pos).1 with
  | some bs => rfl
  | none => rfl

/-- The loop of `Read` over the directory. -/
lemma refines_readSector (sid : ℕ) (es : List CpmDir) : ∀ dma : Sector,
    Refines (readSector hostWorld sid es dma) (Disk.readSector sid es dma) := by
  induction es with
  | nil => exact fun dma => .pure dma
  | cons e es ih =>
    refine fun dma => .get_bind fun s => .ite (fun _ => ?_) fun _ => ih dma
    exact (refines_readHost _ _ dma).bind fun r => ih r.2

/-- A data sector. -/
lemma refines_readData (sid : ℕ) (dma : Sector) :
    Refines (readData hostWorld sid dma) (Disk.readData sid dma) := by
  refine .get_bind fun s => ?_
  have hcache : (joined s).cache.lookup sid = s.1.cache.lookup sid := rfl
  rw [hcache]
  cases s.1.cache.lookup sid with
  | some d => exact .pure d
  | none => exact refines_readSector sid s.1.dir dma

/-- A directory sector. -/
lemma refines_readDir (sector : ℕ) :
    Refines (inObject (Disk.readDir sector)) (Disk.readDir sector) := by
  refine refines_inObject fun dk host => ?_
  exact Exc.bind_mapState (dirAt_host _ dk host) fun e0 dk₀ _ =>
    Exc.bind_mapState (dirAt_host _ dk₀ host) fun e1 dk₁ _ =>
      Exc.bind_mapState (dirAt_host _ dk₁ host) fun e2 dk₂ _ =>
        Exc.bind_mapState (dirAt_host _ dk₂ host) fun e3 dk₃ _ => rfl

/-- **`Read`.** -/
theorem refines_read (track sector : ℕ) (dma : Sector) :
    Refines (read hostWorld track sector dma) (Disk.read track sector dma) := by
  refine refines_readPath ((refines_absSector track sector).bind fun a => .get_bind fun s => ?_)
  refine .ite (fun _ => ?_) fun _ => .ite (fun _ => ?_) fun _ => ?_
  · exact (refines_readHost _ _ dma).bind fun r => .ite (fun _ => .pure _) fun _ => .throw .rethrow
  · exact (refines_readDir _).bind fun d => .pure _
  · exact (refines_readData _ dma).bind fun d => .pure _

end Hosted

end Cpm22.Disk
