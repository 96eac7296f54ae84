import Mathlib.Logic.Function.Basic
import Cpm22.Lib.HostPath

set_option relaxedAutoImplicit false
set_option autoImplicit false

/-!
# A host file system

The part of a POSIX file system that a program sees through `fstream`, `remove`, `rename`,
`stat` and `create_directories`: which paths name regular files with which contents, and which
name directories. Paths are looked up in their lexical normal form; there are no links.

Every call that can change or deliver file contents is recorded with its outcome. Apart from
the failures that follow from the state (no such file, a directory in the way), the operating
system may refuse any call; which calls it refuses is part of the state, so that a statement
about every host is also a statement about every pattern of failures.

## Main definitions

* `HostFs.Host` — the state: nodes, the calls made so far, and the calls that are refused.
* `HostFs.writeAt` — the contents of a file after a write at a position.
* `HostFs.Host.create`, `remove`, `rename`, `write`, `read`, `createDirectories` — the calls.
* `HostFs.Host.contents` — the contents of the files.

## Main results

* `HostFs.getElem?_writeAt`, `HostFs.length_writeAt` — the contents after a write.
* `HostFs.Host.attempt_cases` — what a call can do to the state.
* `HostFs.mkdirs_file` — making directories changes no file.
* `HostFs.Host.contents_create`, `contents_remove`, `contents_rename`, `contents_write` — what the
  calls do to the contents of files.
* `HostFs.Host.createDirectories_dir`, `HostFs.Host.keepsDirs_rename` and its siblings —
  directories are made, and they stay.
-/

namespace HostFs

open HostPath

/-- What a path can name. -/
inductive Node
  | file (content : Bytes)
  | dir
  | other
  deriving DecidableEq

/-- The calls that are recorded. `create` is opening for output, which truncates; `write` and
`read` stand for opening, seeking and transferring at a position. -/
inductive Call
  | createDirectories (dir : Bytes)
  | create (path : Bytes)
  | remove (path : Bytes)
  | rename (src dst : Bytes)
  | write (path : Bytes) (pos : ℕ) (data : Bytes)
  | read (path : Bytes) (pos : ℕ)
  deriving DecidableEq

/-- A call with its outcome. -/
structure Event where
  call : Call
  ok : Bool
  deriving DecidableEq

/-- **The state of the host**: the nodes, the calls so far in order, and which calls, counted
from the start, the operating system refuses. -/
structure Host where
  node : NPath → Option Node
  calls : List Event
  refuses : ℕ → Bool

/-- What `stat` reports. -/
inductive Stat
  | regular (size : ℕ)
  | directory
  | other
  deriving DecidableEq

/-! ## File contents -/

/-- **The contents of a file after writing `d` at `pos`**: a gap behind the old end is filled
with zero bytes. -/
def writeAt (c : Bytes) (pos : ℕ) (d : Bytes) : Bytes :=
  (c ++ List.replicate (pos - c.length) 0).take pos ++ (d ++ c.drop (pos + d.length))

/-- The length of a file after a write. -/
lemma length_writeAt (c : Bytes) (pos : ℕ) (d : Bytes) :
    (writeAt c pos d).length = max c.length (pos + d.length) := by
  simp only [writeAt, List.length_append, List.length_take, List.length_replicate,
    List.length_drop]
  omega

/-- **The bytes of a file after a write**: the written ones in their range, zero in a gap, and
the old ones elsewhere. -/
lemma getElem?_writeAt (old : Bytes) (pos : ℕ) (d : Bytes) (j : ℕ) :
    (writeAt old pos d)[j]? =
      if j < pos then (if j < old.length then old[j]? else some 0)
      else if j < pos + d.length then d[j - pos]? else old[j]? := by
  have hlen : ((old ++ List.replicate (pos - old.length) 0).take pos).length = pos := by
    simp only [List.length_take, List.length_append, List.length_replicate]
    omega
  rw [writeAt, List.getElem?_append, hlen]
  by_cases h1 : j < pos
  · rw [if_pos h1, if_pos h1, List.getElem?_take_of_lt h1, List.getElem?_append]
    by_cases h2 : j < old.length
    · rw [if_pos h2, if_pos h2]
    · rw [if_neg h2, if_neg h2, List.getElem?_replicate, if_pos (by omega)]
  · rw [if_neg h1, if_neg h1, List.getElem?_append]
    by_cases h2 : j < pos + d.length
    · rw [if_pos h2, if_pos (by omega)]
    · rw [if_neg h2, if_neg (by omega), List.getElem?_drop]
      congr 1
      omega

/-- The written bytes are found where they were written. -/
lemma getElem?_writeAt_self (c : Bytes) (pos : ℕ) (d : Bytes) {i : ℕ} (hi : i < d.length) :
    (writeAt c pos d)[pos + i]? = d[i]? := by
  rw [getElem?_writeAt, if_neg (by omega), if_pos (by omega)]
  congr 1
  omega

/-- Bytes of the file outside the written range stay. -/
lemma getElem?_writeAt_of_ne (old : Bytes) (pos : ℕ) (d : Bytes) {j : ℕ} {b : UInt8}
    (hj : j < pos ∨ pos + d.length ≤ j) (h : old[j]? = some b) :
    (writeAt old pos d)[j]? = some b := by
  have hlt : j < old.length := (List.getElem?_eq_some_iff.mp h).1
  rw [getElem?_writeAt]
  by_cases h1 : j < pos
  · rw [if_pos h1, if_pos hlt, h]
  · rw [if_neg h1, if_neg (by omega), h]

namespace Host

/-! ## Looking up -/

/-- The node a path names; the empty path names nothing. -/
def find (h : Host) (p : Bytes) : Option Node := if p = [] then none else h.node (normal p)

/-- `stat`. -/
def stat (h : Host) (p : Bytes) : Option Stat :=
  match h.find p with
  | none => none
  | some (.file c) => some (.regular c.length)
  | some .dir => some .directory
  | some .other => some .other

/-- Whether a new name can be entered at a normalised path. -/
def hasParent (node : NPath → Option Node) (p : NPath) : Bool :=
  match p.parent with
  | none => false
  | some d => node d == some .dir

/-! ## Calls -/

/-- **A call with an intended effect** (`none` if the state makes it fail): it is recorded, and
takes effect unless the operating system refuses it. -/
def attempt (h : Host) (c : Call) (effect : Option (NPath → Option Node)) : Bool × Host :=
  match effect with
  | none => (false, { h with calls := h.calls ++ [⟨c, false⟩] })
  | some node =>
    if h.refuses h.calls.length then (false, { h with calls := h.calls ++ [⟨c, false⟩] })
    else (true, { h with node := node, calls := h.calls ++ [⟨c, true⟩] })

/-- The nodes after creating or truncating a file. A directory and other nodes are not opened for
writing, and the parent of a new file has to be a directory. -/
def createEffect (h : Host) (p : Bytes) : Option (NPath → Option Node) :=
  if p = [] then none
  else match h.node (normal p) with
    | some (.file _) => some (Function.update h.node (normal p) (some (.file [])))
    | some _ => none
    | none =>
      if hasParent h.node (normal p) then
        some (Function.update h.node (normal p) (some (.file [])))
      else none

/-- `ofstream f(p)`: create the file or truncate it. -/
def create (h : Host) (p : Bytes) : Bool × Host := h.attempt (.create p) (h.createEffect p)

/-- The nodes after removing a regular file. -/
def removeEffect (h : Host) (p : Bytes) : Option (NPath → Option Node) :=
  match h.find p with
  | some (.file _) => some (Function.update h.node (normal p) none)
  | _ => none

/-- `remove(p)` of a regular file. -/
def remove (h : Host) (p : Bytes) : Bool × Host := h.attempt (.remove p) (h.removeEffect p)

/-- The nodes after renaming a regular file: a file that has the new name is replaced, a
directory in the way makes the call fail. -/
def renameEffect (h : Host) (p q : Bytes) : Option (NPath → Option Node) :=
  match h.find p with
  | some (.file c) =>
    if q = [] ∨ h.node (normal q) = some .dir then none
    else if (h.node (normal q)).isSome ∨ hasParent h.node (normal q) then
      some (Function.update (Function.update h.node (normal p) none) (normal q)
        (some (.file c)))
    else none
  | _ => none

/-- `rename(p, q)` of a regular file. -/
def rename (h : Host) (p q : Bytes) : Bool × Host :=
  h.attempt (.rename p q) (h.renameEffect p q)

/-- The nodes after writing into an existing file. -/
def writeEffect (h : Host) (p : Bytes) (pos : ℕ) (d : Bytes) : Option (NPath → Option Node) :=
  match h.find p with
  | some (.file c) => some (Function.update h.node (normal p) (some (.file (writeAt c pos d))))
  | _ => none

/-- `fstream f(p); f.seekp(pos); f.write(d)`: the file must exist. -/
def write (h : Host) (p : Bytes) (pos : ℕ) (d : Bytes) : Bool × Host :=
  h.attempt (.write p pos d) (h.writeEffect p pos d)

/-- `ifstream f(p); f.seekg(pos)`: the contents of the file from `pos` on. -/
def read (h : Host) (p : Bytes) (pos : ℕ) : Option Bytes × Host :=
  match h.find p with
  | some (.file c) =>
    let r := h.attempt (.read p pos) (some h.node)
    (if r.1 then some (c.drop pos) else none, r.2)
  | _ => (none, (h.attempt (.read p pos) none).2)

end Host

/-- Make the missing directories among the prefixes of a path, below the components `done`. Existing
directories are passed; a node of another kind ends the walk without an effect. -/
def mkdirs (abs : Bool) (done : List Bytes) :
    List Bytes → (NPath → Option Node) → Option (NPath → Option Node)
  | [], node => some node
  | c :: cs, node =>
    match node ⟨abs, done ++ [c]⟩ with
    | some .dir => mkdirs abs (done ++ [c]) cs node
    | none => mkdirs abs (done ++ [c]) cs
        (Function.update node ⟨abs, done ++ [c]⟩ (some .dir))
    | some _ => none

/-- `create_directories(p)`. -/
def Host.createDirectories (h : Host) (p : Bytes) : Bool × Host :=
  h.attempt (.createDirectories p)
    (if p = [] then none else mkdirs (normal p).absolute [] (normal p).comps h.node)

/-! ## What a call can do -/

/-- Making directories changes no node that exists, and adds only directories.

**Proof sketch.** Induction on the components. A component that is not there becomes a directory,
and what the rest does is added to it; one that is a directory is passed, and any other node ends
the walk. -/
lemma mkdirs_node (abs : Bool) (cs : List Bytes) :
    ∀ (done : List Bytes) (node node' : NPath → Option Node),
      mkdirs abs done cs node = some node' → ∀ p, node' p = node p ∨
        (node p = none ∧ node' p = some .dir) := by
  induction cs with
  | nil =>
    intro done node node' h p
    simp only [mkdirs, Option.some.injEq] at h
    exact .inl (by rw [h])
  | cons c cs ih =>
    intro done node node' h p
    simp only [mkdirs] at h
    cases hn : node ⟨abs, done ++ [c]⟩ with
    | none =>
      rw [hn] at h
      rcases ih _ _ _ h p with h1 | ⟨h1, h2⟩
      · by_cases hp : p = ⟨abs, done ++ [c]⟩
        · subst hp
          exact .inr ⟨hn, by rw [h1, Function.update_self]⟩
        · exact .inl (by rw [h1, Function.update_of_ne hp])
      · by_cases hp : p = ⟨abs, done ++ [c]⟩
        · subst hp
          exact .inr ⟨hn, h2⟩
        · rw [Function.update_of_ne hp] at h1
          exact .inr ⟨h1, h2⟩
    | some k =>
      rw [hn] at h
      cases k with
      | dir => exact ih _ _ _ h p
      | file _ => simp at h
      | other => simp at h

/-- **Making directories changes no file.** -/
lemma mkdirs_file {abs : Bool} {done cs : List Bytes} {node node' : NPath → Option Node}
    (h : mkdirs abs done cs node = some node') (p : NPath) (c : Bytes) :
    node' p = some (.file c) ↔ node p = some (.file c) := by
  rcases mkdirs_node abs cs done node node' h p with h1 | ⟨h1, h2⟩
  · rw [h1]
  · simp [h1, h2]

/-- **The directory that is made is there.**

**Proof sketch.** Induction on the components. The first one is a directory behind its step; if
there are others, the last of them is made by the rest of the walk. -/
lemma mkdirs_last (abs : Bool) : ∀ (cs done : List Bytes) (node node' : NPath → Option Node),
    mkdirs abs done cs node = some node' → cs ≠ [] → node' ⟨abs, done ++ cs⟩ = some .dir := by
  intro cs
  induction cs with
  | nil => exact fun _ _ _ _ h => absurd rfl h
  | cons c cs ih =>
    intro done node node' h _
    -- the directory of the first component, before the others are made
    obtain ⟨node₁, hdir, hrest⟩ : ∃ node₁, node₁ ⟨abs, done ++ [c]⟩ = some .dir ∧
        mkdirs abs (done ++ [c]) cs node₁ = some node' := by
      simp only [mkdirs] at h
      cases hn : node ⟨abs, done ++ [c]⟩ with
      | none =>
        rw [hn] at h
        exact ⟨_, Function.update_self .., h⟩
      | some k =>
        rw [hn] at h
        cases k with
        | dir => exact ⟨node, hn, h⟩
        | file _ => simp at h
        | other => simp at h
    cases cs with
    | nil =>
      simp only [mkdirs, Option.some.injEq] at hrest
      rw [← hrest]
      exact hdir
    | cons c' cs =>
      have := ih (done ++ [c]) node₁ node' hrest (by simp)
      rwa [List.append_assoc, List.singleton_append] at this

/-- Directories that are there are not made again. -/
lemma mkdirs_of_dirs {abs : Bool} {cs done rest : List Bytes} {node : NPath → Option Node}
    (h : ∀ ds, ds <+: cs → ds ≠ [] → node ⟨abs, done ++ ds⟩ = some .dir) :
    mkdirs abs done (cs ++ rest) node = mkdirs abs (done ++ cs) rest node := by
  induction cs generalizing done with
  | nil => simp
  | cons c cs ih =>
    have hc : node ⟨abs, done ++ [c]⟩ = some .dir := h [c] (by simp) (by simp)
    rw [List.cons_append, mkdirs, hc]
    simp only
    rw [ih, List.append_assoc, List.singleton_append]
    intro ds hds _
    have := h (c :: ds) (by simpa using hds) (by simp)
    simpa using this

/-- A directory that is there or can be made. -/
lemma mkdirs_single {abs : Bool} {done : List Bytes} {c : Bytes} {node : NPath → Option Node}
    (h : node ⟨abs, done ++ [c]⟩ = none ∨ node ⟨abs, done ++ [c]⟩ = some .dir) :
    mkdirs abs done [c] node = some (Function.update node ⟨abs, done ++ [c]⟩ (some .dir)) := by
  rcases h with h | h
  · simp [mkdirs, h]
  · have hself : Function.update node ⟨abs, done ++ [c]⟩ (some .dir) = node := by
      rw [← h, Function.update_eq_self]
    simp [mkdirs, h, hself]

namespace Host

/-- **What a call does**: it is recorded with its outcome; if it succeeded the state made it
possible and its effect took place, otherwise the nodes are as before. -/
lemma attempt_cases (h : Host) (c : Call) (effect : Option (NPath → Option Node)) :
    ((h.attempt c effect).1 = true ∧ ∃ node, effect = some node ∧
        (h.attempt c effect).2 = { h with node := node, calls := h.calls ++ [⟨c, true⟩] }) ∨
      ((h.attempt c effect).1 = false ∧
        (h.attempt c effect).2 = { h with calls := h.calls ++ [⟨c, false⟩] }) := by
  cases effect with
  | none => exact .inr ⟨rfl, rfl⟩
  | some node =>
    by_cases hr : h.refuses h.calls.length
    · exact .inr ⟨by simp [attempt, hr], by simp [attempt, hr]⟩
    · exact .inl ⟨by simp [attempt, hr], node, rfl, by simp [attempt, hr]⟩

/-- A call is recorded with its outcome, whatever it is. -/
lemma attempt_calls (h : Host) (c : Call) (effect : Option (NPath → Option Node)) :
    (h.attempt c effect).2.calls = h.calls ++ [⟨c, (h.attempt c effect).1⟩] := by
  rcases attempt_cases h c effect with ⟨h1, node, -, h2⟩ | ⟨h1, h2⟩ <;> rw [h1, h2]

/-- Reading changes no node and is recorded. -/
lemma read_snd (h : Host) (p : Bytes) (pos : ℕ) :
    ∃ ok, (h.read p pos).2 = { h with calls := h.calls ++ [⟨.read p pos, ok⟩] } ∧
      (ok = true ↔ (h.read p pos).1.isSome) := by
  unfold read
  rcases hf : h.find p with _ | _ | _ | _
  · exact ⟨false, rfl, by simp⟩
  · rename_i c
    rcases attempt_cases h (.read p pos) (some h.node) with ⟨h1, node, hn, h2⟩ | ⟨h1, h2⟩
    · simp only [Option.some.injEq] at hn
      subst hn
      exact ⟨true, by simp [h2], by simp [h1]⟩
    · exact ⟨false, by simp [h2], by simp [h1]⟩
  · exact ⟨false, rfl, by simp⟩
  · exact ⟨false, rfl, by simp⟩

/-- **What a read call delivers**: the rest of the file, unless the call is refused. -/
lemma read_fst (h : Host) (p : Bytes) (pos : ℕ) :
    (h.read p pos).1 = match h.find p with
      | some (.file c) => if h.refuses h.calls.length then none else some (c.drop pos)
      | _ => none := by
  unfold read
  rcases h.find p with _ | c | _ | _
  · rfl
  · by_cases hr : h.refuses h.calls.length <;> simp [attempt, hr]
  · rfl
  · rfl

/-- A host that refuses no call. -/
def Works (h : Host) : Prop := ∀ n, h.refuses n = false

/-- On a host that refuses nothing a call that the state makes possible takes effect. -/
lemma attempt_of_works {h : Host} (hw : h.Works) (c : Call) (node : NPath → Option Node) :
    h.attempt c (some node) =
      (true, { h with node := node, calls := h.calls ++ [⟨c, true⟩] }) := by
  have hr : h.refuses h.calls.length = false := hw _
  simp [attempt, hr]

/-- On a host that refuses nothing an existing file can be read. -/
lemma read_of_works {h : Host} (hw : h.Works) {p : Bytes} {c : Bytes}
    (hf : h.find p = some (.file c)) (pos : ℕ) :
    h.read p pos =
      (some (c.drop pos), { h with calls := h.calls ++ [⟨.read p pos, true⟩] }) := by
  have hr : h.refuses h.calls.length = false := hw _
  simp [read, hf, attempt, hr]

/-! ## The contents of files -/

/-- The contents of the file at a normalised path. -/
def contents (h : Host) (n : NPath) : Option Bytes :=
  match h.node n with
  | some (.file c) => some c
  | _ => none

/-- A path has contents iff it names a file. -/
lemma contents_eq_some {h : Host} {n : NPath} {c : Bytes} :
    h.contents n = some c ↔ h.node n = some (.file c) := by
  unfold contents
  rcases h.node n with _ | _ | _ | _ <;> simp

/-- A file that is found has contents. -/
lemma find_eq_file {h : Host} {p : Bytes} {c : Bytes} :
    h.find p = some (.file c) ↔ p ≠ [] ∧ h.contents (normal p) = some c := by
  unfold find
  rw [contents_eq_some]
  by_cases hp : p = [] <;> simp [hp]

/-- A regular file has contents, as many bytes as `stat` reports. -/
lemma contents_of_stat {h : Host} {p : Bytes} {size : ℕ} (hs : h.stat p = some (.regular size)) :
    ∃ c, h.contents (normal p) = some c ∧ c.length = size := by
  unfold stat at hs
  split at hs
  · cases hs
  · rename_i c hc
    cases hs
    exact ⟨c, (find_eq_file.mp hc).2, rfl⟩
  · cases hs
  · cases hs

/-- The contents after one node was replaced by a file. -/
lemma contents_update_file (h : Host) (n : NPath) (c : Bytes) (evs : List Event) :
    ({ h with node := Function.update h.node n (some (.file c)), calls := evs } : Host).contents =
      Function.update h.contents n (some c) := by
  funext m
  by_cases hm : m = n
  · subst hm
    simp [contents]
  · simp [contents, Function.update_of_ne hm]

/-- The contents after one node was removed. -/
lemma contents_update_none (h : Host) (n : NPath) (evs : List Event) :
    ({ h with node := Function.update h.node n none, calls := evs } : Host).contents =
      Function.update h.contents n none := by
  funext m
  by_cases hm : m = n
  · subst hm
    simp [contents]
  · simp [contents, Function.update_of_ne hm]

/-- A call that failed changes no contents. -/
lemma contents_attempt {h : Host} {c : Call} {effect : Option (NPath → Option Node)}
    (hfail : (h.attempt c effect).1 = false) : (h.attempt c effect).2.contents = h.contents := by
  rcases attempt_cases h c effect with ⟨h1, -⟩ | ⟨-, h2⟩
  · rw [h1] at hfail
    cases hfail
  · rw [h2]
    rfl

/-- **Making directories** changes no contents. -/
lemma contents_createDirectories (h : Host) (p : Bytes) :
    (h.createDirectories p).2.contents = h.contents := by
  unfold createDirectories
  rcases attempt_cases h (.createDirectories p) (if p = [] then none else
    mkdirs (normal p).absolute [] (normal p).comps h.node) with ⟨-, node, hn, h2⟩ | ⟨-, h2⟩
  · rw [h2]
    split at hn
    · cases hn
    · funext m
      refine Option.ext fun c => ?_
      rw [contents_eq_some, contents_eq_some]
      exact mkdirs_file hn m c
  · rw [h2]
    rfl

/-- **Creating** leaves an empty file. -/
lemma contents_create {h : Host} {p : Bytes} (hok : (h.create p).1 = true) :
    (h.create p).2.contents = Function.update h.contents (normal p) (some []) := by
  unfold create at hok ⊢
  rcases attempt_cases h (.create p) (h.createEffect p) with ⟨-, node, hn, h2⟩ | ⟨h1, -⟩
  · rw [h2]
    unfold createEffect at hn
    split at hn
    · cases hn
    · split at hn
      · cases hn
        exact contents_update_file ..
      · cases hn
      · split at hn
        · cases hn
          exact contents_update_file ..
        · cases hn
  · rw [h1] at hok
    cases hok

/-- **Removing** takes a file away. -/
lemma contents_remove {h : Host} {p : Bytes} (hok : (h.remove p).1 = true) :
    (h.contents (normal p)).isSome ∧
      (h.remove p).2.contents = Function.update h.contents (normal p) none := by
  unfold remove at hok ⊢
  rcases attempt_cases h (.remove p) (h.removeEffect p) with ⟨-, node, hn, h2⟩ | ⟨h1, -⟩
  · rw [h2]
    unfold removeEffect at hn
    split at hn
    · rename_i c hf
      cases hn
      exact ⟨by rw [(find_eq_file.mp hf).2]; rfl, contents_update_none ..⟩
    · cases hn
  · rw [h1] at hok
    cases hok

/-- **Renaming** moves a file.

**Proof sketch.** The call succeeded, so that the old path is one of a file. Its node is taken out
and put in under the new path. -/
lemma contents_rename {h : Host} {p q : Bytes} (hok : (h.rename p q).1 = true) :
    ∃ c, h.contents (normal p) = some c ∧ (h.rename p q).2.contents =
      Function.update (Function.update h.contents (normal p) none) (normal q) (some c) := by
  unfold rename at hok ⊢
  rcases attempt_cases h (.rename p q) (h.renameEffect p q) with ⟨-, node, hn, h2⟩ | ⟨h1, -⟩
  · rw [h2]
    unfold renameEffect at hn
    split at hn
    · rename_i c hf
      refine ⟨c, (find_eq_file.mp hf).2, ?_⟩
      split at hn
      · cases hn
      · split at hn
        · cases hn
          rw [← contents_update_none h (normal p) h.calls]
          exact contents_update_file
            { h with node := Function.update h.node (normal p) none } (normal q) c _
        · cases hn
    · cases hn
  · rw [h1] at hok
    cases hok

/-- **Writing** changes the contents of one file. -/
lemma contents_write {h : Host} {p : Bytes} {pos : ℕ} {d : Bytes}
    (hok : (h.write p pos d).1 = true) :
    p ≠ [] ∧ ∃ c, h.contents (normal p) = some c ∧ (h.write p pos d).2.contents =
      Function.update h.contents (normal p) (some (writeAt c pos d)) := by
  unfold write at hok ⊢
  rcases attempt_cases h (.write p pos d) (h.writeEffect p pos d) with
    ⟨-, node, hn, h2⟩ | ⟨h1, -⟩
  · rw [h2]
    unfold writeEffect at hn
    split at hn
    · rename_i c hf
      cases hn
      obtain ⟨hp, hc⟩ := find_eq_file.mp hf
      exact ⟨hp, c, hc, contents_update_file ..⟩
    · cases hn
  · rw [h1] at hok
    cases hok

/-- The contents depend on the nodes only. -/
lemma contents_congr {h h' : Host} (hn : h'.node = h.node) : h'.contents = h.contents := by
  funext m
  rw [contents, contents, hn]

/-- **Reading** changes no node. -/
lemma node_read (h : Host) (p : Bytes) (pos : ℕ) : (h.read p pos).2.node = h.node := by
  obtain ⟨ok, h1, -⟩ := read_snd h p pos
  rw [h1]

/-- A read that succeeds delivers the contents from its position on. -/
lemma read_eq_some {h : Host} {p : Bytes} {pos : ℕ} {bs : Bytes}
    (hr : (h.read p pos).1 = some bs) :
    ∃ c, h.contents (normal p) = some c ∧ bs = c.drop pos := by
  unfold read at hr
  split at hr
  · rename_i c hf
    simp only at hr
    split at hr
    · cases hr
      exact ⟨c, (find_eq_file.mp hf).2, rfl⟩
    · cases hr
  · cases hr

/-! ## Directories stay -/

/-- Every directory of `h` is one of `h'`. -/
def KeepsDirs (h h' : Host) : Prop := ∀ n, h.node n = some .dir → h'.node n = some .dir

/-- A call keeps the directories if its effect does. -/
lemma keepsDirs_attempt (h : Host) (c : Call) {effect : Option (NPath → Option Node)}
    (heff : ∀ node, effect = some node → ∀ n, h.node n = some .dir → node n = some .dir) :
    KeepsDirs h (h.attempt c effect).2 := by
  rcases attempt_cases h c effect with ⟨-, node, hn, h2⟩ | ⟨-, h2⟩ <;> rw [h2]
  · exact heff node hn
  · exact fun _ hn => hn

/-- Changing a node that is not a directory keeps the directories. -/
lemma update_keepsDirs {node : NPath → Option Node} {m : NPath} (hm : node m ≠ some .dir)
    (x : Option Node) (n : NPath) (hn : node n = some .dir) :
    Function.update node m x n = some .dir := by
  have hne : n ≠ m := by
    rintro rfl
    exact hm hn
  rw [Function.update_of_ne hne, hn]

/-- Making directories keeps the others. -/
lemma keepsDirs_createDirectories (h : Host) (p : Bytes) :
    KeepsDirs h (h.createDirectories p).2 := by
  refine keepsDirs_attempt h _ fun node hn n hd => ?_
  split at hn
  · cases hn
  · rcases mkdirs_node _ _ _ _ _ hn n with h1 | ⟨h1, -⟩
    · rw [h1, hd]
    · rw [hd] at h1
      cases h1

/-- A directory that was made is there. -/
lemma createDirectories_dir {h : Host} {p : Bytes} (hok : (h.createDirectories p).1 = true)
    (hne : (normal p).comps ≠ []) : (h.createDirectories p).2.node (normal p) = some .dir := by
  unfold createDirectories at hok ⊢
  rcases attempt_cases h (.createDirectories p) (if p = [] then none else
    mkdirs (normal p).absolute [] (normal p).comps h.node) with ⟨-, node, hn, h2⟩ | ⟨h1, -⟩
  · rw [h2]
    split at hn
    · cases hn
    · exact mkdirs_last _ _ [] _ _ hn hne
  · rw [h1] at hok
    cases hok

/-- Creating a file keeps the directories. -/
lemma keepsDirs_create (h : Host) (p : Bytes) : KeepsDirs h (h.create p).2 := by
  refine keepsDirs_attempt h _ fun node hn => ?_
  unfold createEffect at hn
  split at hn
  · cases hn
  · split at hn
    · rename_i hf
      cases hn
      exact update_keepsDirs (by rw [hf]; simp) _
    · cases hn
    · rename_i hf
      split at hn
      · cases hn
        exact update_keepsDirs (by rw [hf]; simp) _
      · cases hn

/-- Removing a file keeps the directories. -/
lemma keepsDirs_remove (h : Host) (p : Bytes) : KeepsDirs h (h.remove p).2 := by
  refine keepsDirs_attempt h _ fun node hn => ?_
  unfold removeEffect at hn
  split at hn
  · rename_i c hf
    cases hn
    exact update_keepsDirs (by rw [contents_eq_some.mp (find_eq_file.mp hf).2]; simp) _
  · cases hn

/-- Renaming a file keeps the directories.

**Proof sketch.** The old path is one of a file, and the new one is no directory, so that no node
that is changed is a directory. -/
lemma keepsDirs_rename (h : Host) (p q : Bytes) : KeepsDirs h (h.rename p q).2 := by
  refine keepsDirs_attempt h _ fun node hn => ?_
  unfold renameEffect at hn
  split at hn
  · rename_i c hf
    have hp : h.node (normal p) ≠ some .dir := by
      rw [contents_eq_some.mp (find_eq_file.mp hf).2]
      simp
    split at hn
    · cases hn
    · rename_i hq
      rw [not_or] at hq
      split at hn
      · cases hn
        intro n hd
        refine update_keepsDirs ?_ _ n (update_keepsDirs hp none n hd)
        by_cases hqp : normal q = normal p
        · rw [hqp, Function.update_self]
          simp
        · rw [Function.update_of_ne hqp]
          exact hq.2
      · cases hn
  · cases hn

/-- Writing into a file keeps the directories. -/
lemma keepsDirs_write (h : Host) (p : Bytes) (pos : ℕ) (d : Bytes) :
    KeepsDirs h (h.write p pos d).2 := by
  refine keepsDirs_attempt h _ fun node hn => ?_
  unfold writeEffect at hn
  split at hn
  · rename_i c hf
    cases hn
    exact update_keepsDirs (by rw [contents_eq_some.mp (find_eq_file.mp hf).2]; simp) _
  · cases hn

end Host

end HostFs
