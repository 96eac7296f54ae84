import Mathlib.Data.List.Basic
import Mathlib.Data.List.Infix

set_option relaxedAutoImplicit false
set_option autoImplicit false

/-!
# Host path names

Path names as byte strings, in the terms of `std::filesystem::path` on a POSIX host: the
components between slashes, the lexical normal form, the operator `/`, and what it means for a
path to lie inside a directory.

## Main definitions

* `HostPath.NPath` — a path in lexical normal form: whether it is absolute, and its components.
* `HostPath.normal` — lexical normalisation; `HostPath.push` is its step for one component.
* `HostPath.append` — `operator/`: an absolute right side replaces the left side.
* `HostPath.Inside` — a path is a directory or lies below it.
* `HostPath.Stays` — a list of components that never climbs above where it starts.

## Main results

* `HostPath.normal_append` — normalising `d / p` pushes the components of `p` onto the normal
  form of `d`.
* `HostPath.normal_append_plain` — a plain name extends the normal form by itself.
* `HostPath.inside_append` — a relative path that never climbs above its start stays inside.
-/

/-- Byte strings: file names and paths of the host, and the names of the guest. -/
abbrev Bytes := List UInt8

namespace HostPath

/-- The separator of components. -/
def slash : UInt8 := 0x2f
/-- The dot. -/
def dot : UInt8 := 0x2e
/-- The component that stays where it is. -/
def here : Bytes := [dot]
/-- The component that climbs to the parent. -/
def parentDir : Bytes := [dot, dot]

/-- A path in lexical normal form. -/
structure NPath where
  absolute : Bool
  comps : List Bytes
  deriving DecidableEq

/-- The directory a normalised path lies in, unless it is a root. -/
def NPath.parent (p : NPath) : Option NPath :=
  if p.comps = [] then none else some ⟨p.absolute, p.comps.dropLast⟩

/-- The components of a path: the byte strings between slashes, empty ones included. -/
def components (p : Bytes) : List Bytes := p.splitOn slash

/-- Whether a path starts at the root. -/
def isAbsolute (p : Bytes) : Bool := p.head? == some slash

/-- **One component of lexical normalisation** on the components read so far: empty components
and dots disappear, a double dot removes the component before it. Where there is none it is
kept in a relative path and disappears at the root. -/
def push (abs : Bool) (stack : List Bytes) (c : Bytes) : List Bytes :=
  if c = [] ∨ c = here then stack
  else if c = parentDir then
    match stack.getLast? with
    | none => if abs then [] else [c]
    | some top => if top = parentDir then stack ++ [c] else stack.dropLast
  else stack ++ [c]

/-- **Lexical normalisation** of a path. -/
def normal (p : Bytes) : NPath :=
  ⟨isAbsolute p, (components p).foldl (push (isAbsolute p)) []⟩

/-- **The operator `/` on paths**: an absolute right side replaces the left side; otherwise a
separator is inserted unless the left side is empty or already ends with one. -/
def append (d p : Bytes) : Bytes :=
  if isAbsolute p then p
  else if d = [] ∨ d.getLast? = some slash then d ++ p
  else d ++ slash :: p

/-- `p` is the directory `d` or lies below it. In a normal form a double dot can only stand at
the front of a relative path, so what follows the components of `d` must be free of them. -/
def Inside (d p : NPath) : Prop :=
  p.absolute = d.absolute ∧ ∃ rest, p.comps = d.comps ++ rest ∧ parentDir ∉ rest

/-- A file name as a directory lists it: one component that is neither empty nor a dot name. -/
def Plain (n : Bytes) : Prop :=
  n ≠ [] ∧ n ≠ here ∧ n ≠ parentDir ∧ slash ∉ n

instance (n : Bytes) : Decidable (Plain n) := inferInstanceAs (Decidable (_ ∧ _))

/-! ## Components and normal forms -/

/-- The components of two paths joined by a slash. -/
lemma components_join (d p : Bytes) :
    components (d ++ slash :: p) = components d ++ components p :=
  List.splitOn_append_cons_self d p

/-- A name without a slash is its own only component. -/
lemma components_of_notMem {n : Bytes} (h : slash ∉ n) : components n = [n] :=
  List.splitOn_eq_singleton h

/-- A plain name is put on top. -/
lemma push_plain (abs : Bool) (stack : List Bytes) {n : Bytes} (hn : Plain n) :
    push abs stack n = stack ++ [n] := by
  obtain ⟨h1, h2, h3, -⟩ := hn
  simp [push, h1, h2, h3]

/-- A nonempty path keeps its kind when something is put behind it. -/
lemma isAbsolute_append {d : Bytes} (hd : d ≠ []) (p : Bytes) :
    isAbsolute (d ++ p) = isAbsolute d := by
  cases d with
  | nil => exact absurd rfl hd
  | cons a d => rfl

/-- A plain name is not an absolute path. -/
lemma isAbsolute_plain {n : Bytes} (hn : Plain n) : isAbsolute n = false := by
  obtain ⟨-, -, -, hs⟩ := hn
  cases n with
  | nil => rfl
  | cons a n =>
    have ha : a ≠ slash := fun h => hs (by simp [h])
    simp [isAbsolute, ha]

/-- **Normalising a joined path** pushes the components of the right side onto the normal form
of the left side.

**Proof sketch.** In the regular case a separator is inserted and the components are
concatenated. If the left side already ends with a slash, its last component is empty and
pushing it changed nothing. -/
lemma normal_append {d p : Bytes} (hd : d ≠ []) (hp : isAbsolute p = false) :
    normal (append d p) =
      ⟨(normal d).absolute, (components p).foldl (push (isAbsolute d)) (normal d).comps⟩ := by
  by_cases hl : d.getLast? = some slash
  · -- the separator is there already: `d = d' ++ [slash]`
    obtain ⟨d', rfl⟩ : ∃ d', d = d' ++ [slash] := by
      refine ⟨d.dropLast, ?_⟩
      rw [List.getLast?_eq_some_getLast hd, Option.some.injEq] at hl
      rw [← hl, List.dropLast_concat_getLast hd]
    have happ : append (d' ++ [slash]) p = d' ++ slash :: p := by simp [append, hp]
    have habs : isAbsolute (d' ++ slash :: p) = isAbsolute (d' ++ [slash]) := by
      rw [show d' ++ slash :: p = (d' ++ [slash]) ++ p by simp, isAbsolute_append hd]
    have hnil : components ([] : Bytes) = [[]] := by simp [components]
    simp only [normal, happ, habs, components_join, hnil, List.foldl_append, List.foldl_cons,
      List.foldl_nil]
    congr 2
  · have happ : append d p = d ++ slash :: p := by simp [append, hp, hd, hl]
    simp only [normal, happ, isAbsolute_append hd, components_join, List.foldl_append]

/-- **A plain name extends the normal form of its directory by itself.** -/
lemma normal_append_plain {d n : Bytes} (hd : d ≠ []) (hn : Plain n) :
    normal (append d n) = ⟨(normal d).absolute, (normal d).comps ++ [n]⟩ := by
  rw [normal_append hd (isAbsolute_plain hn), components_of_notMem hn.2.2.2]
  simp [push_plain _ _ hn]

/-- Joining by hand with a slash gives the same normal form as the operator. -/
lemma normal_join_plain {d n : Bytes} (hd : d ≠ []) (hn : Plain n) :
    normal (d ++ slash :: n) = ⟨(normal d).absolute, (normal d).comps ++ [n]⟩ := by
  simp only [normal, isAbsolute_append hd, components_join, components_of_notMem hn.2.2.2,
    List.foldl_append, List.foldl_cons, List.foldl_nil, push_plain _ _ hn]

/-! ## Containment -/

/-- A directory lies inside itself. -/
lemma inside_refl (d : NPath) : Inside d d := ⟨rfl, [], by simp, by simp⟩

/-- A plain name in a directory inside `d` is inside `d`. -/
lemma Inside.concat {d p : NPath} (h : Inside d p) {n : Bytes} (hn : n ≠ parentDir) :
    Inside d ⟨p.absolute, p.comps ++ [n]⟩ := by
  obtain ⟨h1, rest, h2, h3⟩ := h
  refine ⟨h1, rest ++ [n], by simp [h2], ?_⟩
  simp only [List.mem_append, List.mem_singleton, not_or]
  exact ⟨h3, fun h => hn h.symm⟩

/-- **The components never climb above their start**: read from a directory `n` levels below
the one that must not be left, every double dot finds a level to give back. -/
def Stays : ℕ → List Bytes → Prop
  | _, [] => True
  | n, c :: cs =>
    if c = [] ∨ c = here then Stays n cs
    else if c = parentDir then 0 < n ∧ Stays (n - 1) cs
    else Stays (n + 1) cs

instance decidableStays : ∀ (n : ℕ) (cs : List Bytes), Decidable (Stays n cs)
  | _, [] => .isTrue trivial
  | n, c :: cs =>
    have := decidableStays n cs
    have := decidableStays (n - 1) cs
    have := decidableStays (n + 1) cs
    inferInstanceAs (Decidable (if c = [] ∨ c = here then Stays n cs
      else if c = parentDir then 0 < n ∧ Stays (n - 1) cs else Stays (n + 1) cs))

/-- Components that never climb above their start keep the base below them.

**Proof sketch.** Induction on the components. A double dot finds a nonempty `rest` by the
level count, and its last component is not a double dot itself, so it is removed. -/
lemma foldl_push_of_stays (abs : Bool) (base : List Bytes) (cs : List Bytes) :
    ∀ (rest : List Bytes), parentDir ∉ rest → Stays rest.length cs →
      ∃ rest', cs.foldl (push abs) (base ++ rest) = base ++ rest' ∧ parentDir ∉ rest' := by
  induction cs with
  | nil => exact fun rest hrest _ => ⟨rest, rfl, hrest⟩
  | cons c cs ih =>
    intro rest hrest hst
    simp only [List.foldl_cons]
    by_cases h1 : c = [] ∨ c = here
    · simp only [Stays, h1, if_true] at hst
      simpa [push, h1] using ih rest hrest hst
    · by_cases h2 : c = parentDir
      · subst h2
        simp only [Stays, h1, if_false, if_true] at hst
        have hne : rest ≠ [] := List.length_pos_iff.mp hst.1
        have htop : rest.getLast hne ≠ parentDir := fun h => hrest (h ▸ List.getLast_mem hne)
        have hpush : push abs (base ++ rest) parentDir = base ++ rest.dropLast := by
          simp only [push, h1, if_false, if_true, List.getLast?_append_of_ne_nil _ hne,
            List.getLast?_eq_some_getLast hne, htop, List.dropLast_append_of_ne_nil hne]
        rw [hpush]
        refine ih rest.dropLast (fun h => hrest (List.mem_of_mem_dropLast h)) ?_
        rw [List.length_dropLast]
        exact hst.2
      · simp only [Stays, h1, if_false, h2] at hst
        have hpush : push abs (base ++ rest) c = base ++ (rest ++ [c]) := by
          simp [push, h1, h2]
        rw [hpush]
        refine ih (rest ++ [c]) ?_ (by simpa using hst)
        simp only [List.mem_append, List.mem_singleton, not_or]
        exact ⟨hrest, fun h => h2 h.symm⟩

/-- **A relative path that never climbs above its start stays inside.** -/
theorem inside_append {top d p : Bytes} (hd : d ≠ []) (hp : isAbsolute p = false)
    {rest : List Bytes} (hrest : parentDir ∉ rest)
    (hdir : normal d = ⟨(normal top).absolute, (normal top).comps ++ rest⟩)
    (hst : Stays rest.length (components p)) : Inside (normal top) (normal (append d p)) := by
  rw [normal_append hd hp, hdir]
  obtain ⟨rest', h, hnot⟩ := foldl_push_of_stays (isAbsolute d) (normal top).comps
    (components p) rest hrest hst
  exact ⟨rfl, rest', h, hnot⟩

end HostPath
