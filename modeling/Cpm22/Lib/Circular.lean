import Mathlib.Data.List.Basic
import Mathlib.Data.Nat.ModEq
import Mathlib.Logic.Function.Basic

set_option relaxedAutoImplicit false
set_option autoImplicit false

/-!
# Circular memory

A memory of `N` cells whose addresses wrap around: cell `i` of a range that starts at `a` is the
cell `(a + i) % N`. A range is read and written cell by cell; the rules of this file split a
range in two, so that a program that copies a range in pieces copies the range.

## Main definitions

* `Circular.load` — the contents of a range.
* `Circular.save` — the memory with a list written over a range.

## Main results

* `Circular.load_add`, `Circular.save_append` — a range is its pieces.
* `Circular.save_cell`, `Circular.save_other` — what a write changes and what it does not.
* `Circular.load_save` — what was written is read back.
-/

namespace Circular

variable {α : Type*} {N : ℕ}

/-- **The contents of the `n` cells from `a` on.** -/
def load (N : ℕ) (m : ℕ → α) (a n : ℕ) : List α := (List.range n).map fun i => m ((a + i) % N)

/-- **The memory with a list written from `a` on.** -/
def save (N : ℕ) (m : ℕ → α) (a : ℕ) : List α → ℕ → α
  | [] => m
  | x :: xs => save N (Function.update m (a % N) x) (a + 1) xs

/-- The number of cells read. -/
@[simp]
lemma length_load (m : ℕ → α) (a n : ℕ) : (load N m a n).length = n := by simp [load]

/-- A range of no cells. -/
@[simp]
lemma load_zero (m : ℕ → α) (a : ℕ) : load N m a 0 = [] := rfl

/-- **A range is its first part, then the rest.** -/
lemma load_add (m : ℕ → α) (a n k : ℕ) :
    load N m a (n + k) = load N m a n ++ load N m (a + n) k := by
  simp [load, List.range_add, Nat.add_assoc]

/-- The start of a range counts modulo the size of the memory. -/
lemma load_mod (m : ℕ → α) (a n : ℕ) : load N m (a % N) n = load N m a n := by
  simp [load]

/-- A range that does not reach the last cell is read in place. -/
lemma load_of_le {a n : ℕ} (m : ℕ → α) (h : a + n ≤ N) :
    load N m a n = (List.range n).map fun i => m (a + i) := by
  apply List.map_congr_left
  intro i hi
  rw [Nat.mod_eq_of_lt (by have := List.mem_range.mp hi; omega)]

/-- The start of a range counts modulo the size of the memory. -/
lemma save_mod (m : ℕ → α) (a : ℕ) (xs : List α) : save N m (a % N) xs = save N m a xs := by
  induction xs generalizing m a with
  | nil => rfl
  | cons x xs ih =>
    rw [save, save, Nat.mod_mod, ← ih, ← ih _ (a + 1), Nat.mod_add_mod]

/-- **A list is written as its first part, then the rest.** -/
lemma save_append (m : ℕ → α) (a : ℕ) (xs ys : List α) :
    save N m a (xs ++ ys) = save N (save N m a xs) (a + xs.length) ys := by
  induction xs generalizing m a with
  | nil => rfl
  | cons x xs ih =>
    rw [List.cons_append, save, ih, save, List.length_cons, Nat.add_assoc, Nat.add_comm 1]

/-- **No cell outside the range changes.** -/
lemma save_other {m : ℕ → α} {a j : ℕ} {xs : List α} (h : ∀ i < xs.length, j ≠ (a + i) % N) :
    save N m a xs j = m j := by
  induction xs generalizing m a with
  | nil => rfl
  | cons x xs ih =>
    rw [save, ih, Function.update_of_ne]
    · exact h 0 (by simp)
    · intro i hi
      rw [Nat.add_assoc, Nat.add_comm 1]
      exact h (i + 1) (by simpa using hi)

/-- Two cells of a range no longer than the memory differ. -/
lemma cell_ne {a i j : ℕ} (hij : i < j) (hj : j < N) : (a + i) % N ≠ (a + j) % N := by
  intro h
  have hmod : i % N = j % N := Nat.ModEq.add_left_cancel' a h
  rw [Nat.mod_eq_of_lt (by omega), Nat.mod_eq_of_lt hj] at hmod
  omega

/-- **Every element is written to its cell**, if the range is no longer than the memory.

**Proof sketch.** Induction on the list: the cells of the rest differ from the first one, so the
first element is still there at the end. -/
lemma save_cell {m : ℕ → α} {a i : ℕ} {xs : List α} (hxs : xs.length ≤ N) (hi : i < xs.length) :
    save N m a xs ((a + i) % N) = xs[i] := by
  induction xs generalizing m a i with
  | nil => simp at hi
  | cons x xs ih =>
    rw [List.length_cons] at hxs hi
    rw [save]
    cases i with
    | zero =>
      have hother : ∀ k < xs.length, (a + 0) % N ≠ (a + 1 + k) % N := by
        intro k hk
        rw [Nat.add_assoc]
        exact cell_ne (by omega) (by omega)
      rw [save_other hother]
      simp
    | succ i =>
      rw [← Nat.add_assoc, Nat.add_right_comm a i 1]
      exact ih (by omega) (by omega)

/-- A list that does not reach the last cell is written in place. -/
lemma save_of_le {m : ℕ → α} {a : ℕ} {xs : List α} (h : a + xs.length ≤ N) :
    save N m a xs = fun j => if a ≤ j then (xs[j - a]?).getD (m j) else m j := by
  funext j
  have hcell : ∀ i < xs.length, (a + i) % N = a + i :=
    fun i hi => Nat.mod_eq_of_lt (by omega)
  by_cases hj : a ≤ j ∧ j - a < xs.length
  · have hsave := save_cell (m := m) (a := a) (show xs.length ≤ N by omega) hj.2
    rw [hcell _ hj.2, show a + (j - a) = j by omega] at hsave
    rw [hsave, if_pos hj.1, List.getElem?_eq_getElem hj.2, Option.getD_some]
  · rw [save_other]
    · by_cases ha : a ≤ j
      · rw [if_pos ha, List.getElem?_eq_none (by omega), Option.getD_none]
      · rw [if_neg ha]
    · intro i hi
      rw [hcell i hi]
      omega

/-- **What was written is read back.** -/
lemma load_save {m : ℕ → α} {a : ℕ} {xs : List α} (h : xs.length ≤ N) :
    load N (save N m a xs) a xs.length = xs := by
  apply List.ext_getElem
  · simp
  · intro i hi hi'
    simp only [load, List.getElem_map, List.getElem_range]
    exact save_cell h hi'

end Circular
