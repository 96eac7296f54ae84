import Mathlib.Data.Nat.Dist

set_option relaxedAutoImplicit false
set_option autoImplicit false

/-!
# Searching outward from a point

A search for a number with a property that starts beside a given number and looks alternately
below and above it, one step further each time, down to zero and up to a limit. When one side is
used up, it goes on along the other.

## Main definitions

* `Outward.search` — the search, with the part below `lo` and the part above `up` still to look at.
* `Outward.Ahead` — a number is still to be looked at.
* `Outward.rank` — when a number is looked at.

## Main results

* `Outward.search_eq_none_iff` — the search fails iff there is nothing to be found.
* `Outward.search_first` — what is found is ahead, has the property, and is looked at first.
* `Outward.search_nearest` — from one number the search finds a nearest one, the lower of two.
-/

namespace Outward

variable (p : ℕ → Bool) (hi : ℕ)

/-- **The search.** One round looks at the number below `lo`, then at the number above `up`. -/
def search (lo up : ℕ) : Option ℕ :=
  if 0 < lo ∧ p (lo - 1) = true then some (lo - 1)
  else if up < hi then
    if p (up + 1) = true then some (up + 1) else search (lo - 1) (up + 1)
  else if lo - 1 = 0 then none
  else search (lo - 1) up
termination_by lo + (hi - up)

/-- The number is still to be looked at. -/
def Ahead (lo up b : ℕ) : Prop := b < lo ∨ up < b ∧ b ≤ hi

/-- **When a number is looked at**: the numbers below come before those above. -/
def rank (lo up b : ℕ) : ℕ := if b < lo then 2 * (lo - b) - 1 else 2 * (b - up)

variable {p hi} {lo up b b' : ℕ}

/-- What is ahead of a round is looked at in it, or ahead of the next one. -/
lemma Ahead.step (h : Ahead hi lo up b) :
    (0 < lo ∧ b = lo - 1) ∨ (up < hi ∧ b = up + 1) ∨ Ahead hi (lo - 1) (up + 1) b := by
  unfold Ahead at *
  omega

/-- **The search fails iff there is nothing to be found.**

**Proof sketch.** Induction along the search: a number that is ahead is one of the two that the
round looks at, or it is ahead of the next round. -/
theorem search_eq_none_iff : search p hi lo up = none ↔ ∀ b, Ahead hi lo up b → p b = false := by
  fun_induction search p hi lo up with
  | case1 lo up h =>
    simp only [reduceCtorEq, false_iff, not_forall]
    refine ⟨lo - 1, .inl (by omega), ?_⟩
    simp [h.2]
  | case2 lo up h hup hp =>
    simp only [reduceCtorEq, false_iff, not_forall]
    refine ⟨up + 1, .inr (by omega), ?_⟩
    simp [hp]
  | case3 lo up h hup hp ih =>
    rw [ih]
    constructor
    · intro hall b hb
      rcases hb.step with ⟨hlo, rfl⟩ | ⟨-, rfl⟩ | hb
      · simpa [hlo] using h
      · simpa using hp
      · exact hall b hb
    · intro hall b hb
      refine hall b ?_
      unfold Ahead at *
      omega
  | case4 lo up h hup hlo =>
    simp only [true_iff]
    intro b hb
    have hlo' : 0 < lo ∧ b = lo - 1 := by
      unfold Ahead at hb
      omega
    obtain ⟨hpos, rfl⟩ := hlo'
    simpa [hpos] using h
  | case5 lo up h hup hlo ih =>
    rw [ih]
    constructor
    · intro hall b hb
      by_cases hbl : b = lo - 1
      · subst hbl
        have hpos : 0 < lo := by omega
        simpa [hpos] using h
      · refine hall b ?_
        unfold Ahead at *
        omega
    · intro hall b hb
      refine hall b ?_
      unfold Ahead at *
      omega

/-- **What is found is ahead, has the property, and is looked at first.**

**Proof sketch.** Induction along the search. If the round finds nothing, the ranks of all numbers
that are left fall by two in the next round. -/
theorem search_first (hle : lo ≤ up + 1) (h : search p hi lo up = some b) :
    p b = true ∧ Ahead hi lo up b ∧
      ∀ b', Ahead hi lo up b' → p b' = true → rank lo up b ≤ rank lo up b' := by
  fun_induction search p hi lo up generalizing b with
  | case1 lo up hlo =>
    obtain rfl := Option.some.inj h
    refine ⟨hlo.2, .inl (by omega), ?_⟩
    intro b' hb' _
    unfold rank Ahead at *
    split <;> split <;> omega
  | case2 lo up hlo hup hp =>
    obtain rfl := Option.some.inj h
    refine ⟨hp, .inr (by omega), ?_⟩
    intro b' hb' hp'
    have hne : ¬ (0 < lo ∧ b' = lo - 1) := by
      rintro ⟨hpos, rfl⟩
      exact hlo ⟨hpos, hp'⟩
    unfold rank Ahead at *
    split <;> split <;> omega
  | case3 lo up hlo hup hp ih =>
    obtain ⟨hpb, hb, hmin⟩ := ih (by omega) h
    refine ⟨hpb, ?_, ?_⟩
    · unfold Ahead at *
      omega
    · intro b' hb' hp'
      rcases hb'.step with ⟨hpos, rfl⟩ | ⟨-, rfl⟩ | hb''
      · exact absurd ⟨hpos, hp'⟩ hlo
      · exact absurd hp' hp
      · have := hmin b' hb'' hp'
        unfold rank Ahead at *
        split at this <;> split at this <;> split <;> split <;> omega
  | case4 lo up hlo hup hlast => simp at h
  | case5 lo up hlo hup hlast ih =>
    obtain ⟨hpb, hb, hmin⟩ := ih (by omega) h
    refine ⟨hpb, ?_, ?_⟩
    · unfold Ahead at *
      omega
    · intro b' hb' hp'
      have hne : b' ≠ lo - 1 := by
        rintro rfl
        exact hlo ⟨by omega, hp'⟩
      have := hmin b' (by unfold Ahead at *; omega) hp'
      unfold rank Ahead at *
      split at this <;> split at this <;> split <;> split <;> omega

/-- **From one number the search finds a nearest one**, and of two equally near ones the lower. -/
theorem search_nearest {t : ℕ} (h : search p hi t t = some b) :
    p b = true ∧ b ≠ t ∧ (b < t ∨ b ≤ hi) ∧ ∀ b', b' ≠ t → (b' < t ∨ b' ≤ hi) → p b' = true →
      Nat.dist b t ≤ Nat.dist b' t ∧ (Nat.dist b t = Nat.dist b' t → b ≤ b') := by
  obtain ⟨hpb, hb, hmin⟩ := search_first (by omega) h
  refine ⟨hpb, ?_, ?_, ?_⟩
  · unfold Ahead at hb
    omega
  · unfold Ahead at hb
    omega
  · intro b' hne hb' hp'
    have hle := hmin b' (by unfold Ahead; omega) hp'
    unfold Ahead at hb
    unfold rank at hle
    unfold Nat.dist
    split at hle <;> split at hle <;> omega

end Outward
