import Mathlib.Data.List.Basic

set_option relaxedAutoImplicit false
set_option autoImplicit false

/-!
# Transducers on lists

A transducer reads one input symbol at a time, keeps a state and emits a list of output
symbols per input symbol. This file has the run of a transducer on a list, how runs compose,
and the block rule: when the input is the concatenation of blocks and the effect of one block
is known, the run on the whole input is the run of the transducer whose symbols are the blocks.

## Main definitions

* `Transducer.feed` — the run of a transducer on a list of symbols.

## Main results

* `Transducer.feed_append` — running on `u ++ v` is running on `u`, then on `v`.
* `Transducer.feed_flatMap` — the block rule.
* `Transducer.feed_comp` — one transducer behind another.
-/

namespace Transducer

variable {σ ι κ ο : Type*}

/-- **The run of a transducer** from a state: the state reached and everything emitted. -/
def feed (step : σ → ι → σ × List ο) (s : σ) : List ι → σ × List ο
  | [] => (s, [])
  | a :: w =>
    let r := step s a
    let t := feed step r.1 w
    (t.1, r.2 ++ t.2)

/-- The empty input leaves the state and emits nothing. -/
@[simp]
lemma feed_nil (step : σ → ι → σ × List ο) (s : σ) : feed step s [] = (s, []) := rfl

/-- The run on one symbol is one step. -/
@[simp]
lemma feed_singleton (step : σ → ι → σ × List ο) (s : σ) (a : ι) :
    feed step s [a] = step s a := by
  simp [feed]

/-- Running on `u ++ v` is running on `u`, then on `v` from the state reached. -/
lemma feed_append (step : σ → ι → σ × List ο) (s : σ) (u v : List ι) :
    feed step s (u ++ v) =
      ((feed step (feed step s u).1 v).1,
        (feed step s u).2 ++ (feed step (feed step s u).1 v).2) := by
  induction u generalizing s with
  | nil => simp
  | cons a u ih => simp [feed, ih, List.append_assoc]

/-- **The block rule.** If, from every state satisfying `P`, the run on the block `enc k` is
the step `blk` on the symbol `k` and ends in `P` again, then the run on a concatenation of
blocks is the run of `blk` on the list of their symbols.

**Proof sketch.** Induction on the list of symbols, splitting the first block off with
`feed_append`. -/
theorem feed_flatMap (step : σ → ι → σ × List ο) (blk : σ → κ → σ × List ο)
    (enc : κ → List ι) (P : σ → Prop)
    (h : ∀ s k, P s → feed step s (enc k) = blk s k ∧ P (blk s k).1) (s : σ) (hs : P s)
    (ks : List κ) : feed step s (ks.flatMap enc) = feed blk s ks := by
  induction ks generalizing s with
  | nil => rfl
  | cons k ks ih =>
    obtain ⟨hk, hP⟩ := h s k hs
    rw [List.flatMap_cons, feed_append, hk, ih _ hP]
    rfl

/-- **One transducer behind another.** If a step of `both` in the joint state is a step of `fst`
with everything it emits fed to `snd`, then a run of `both` is a run of `fst` with everything it
emits fed to `snd`.

**Proof sketch.** Induction on the input; what the first step emits is split off by
`feed_append`. -/
theorem feed_comp {τ ρ μ : Type*} (fst : σ → ι → σ × List μ) (snd : τ → μ → τ × List ο)
    (both : ρ → ι → ρ × List ο) (joint : σ → τ → ρ)
    (h : ∀ s t a, both (joint s t) a =
      (joint (fst s a).1 (feed snd t (fst s a).2).1, (feed snd t (fst s a).2).2))
    (s : σ) (t : τ) (w : List ι) :
    feed both (joint s t) w =
      (joint (feed fst s w).1 (feed snd t (feed fst s w).2).1,
        (feed snd t (feed fst s w).2).2) := by
  induction w generalizing s t with
  | nil => rfl
  | cons a w ih => simp only [feed, h, ih, feed_append]

end Transducer
