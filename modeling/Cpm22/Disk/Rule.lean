import Cpm22.Disk.Steps

set_option relaxedAutoImplicit false
set_option autoImplicit false

/-!
# The invariant rule of `Write`

What every piece of `Write` keeps, `Write` keeps: for an invariant of the disk it is enough to know
that replacing a directory entry keeps it, that writing into a file of the name map keeps it, and
that it does not depend on the cache and on the directory. The rule also says what holds where
`Write` throws.

## Main definitions

* `Cpm22.Disk.SlotChange` — the entries that a write of a sector replaces.
* `Cpm22.Disk.KeptByCache`, `Cpm22.Disk.KeptByDir`, `Cpm22.Disk.KeptByWrites` — the premises.

## Main results

* `Cpm22.Disk.flush_rule` — the rule for `Flush`.
* `Cpm22.Disk.writeEntries_rule` — the rule for the entries of a directory sector.
* `Cpm22.Disk.write_rule` — the rule for `Write`.
-/

namespace Cpm22

open HostPath HostFs

namespace Disk

/-- **The entry `old` is replaced by `new`** when the sector is written: the address is a directory
sector, and the entries are those of one of its four slots. -/
def SlotChange (dk : Disk) (track sector : ℕ) (dma : Sector) (old new : CpmDir) : Prop :=
  ∃ (a : ℕ) (idx : Fin 4), dk.getAbsSector track sector = some a ∧ dk.dirstart ≤ a ∧
    a - dk.dirstart < dk.datastart ∧ dk.dir[((a - dk.dirstart) <<< 2) + idx]? = some old ∧
    new = entryOf dma idx

/-- The invariant does not depend on the cache. -/
def KeptByCache (I : Disk → Prop) : Prop := ∀ dk cache, I dk → I { dk with cache := cache }

/-- The invariant does not depend on the directory. -/
def KeptByDir (I : Disk → Prop) : Prop := ∀ dk dir, I dk → I { dk with dir := dir }

/-- Writing into a file of the name map keeps the invariant. -/
def KeptByWrites (I : Disk → Prop) : Prop := ∀ dk k p pos d, I dk →
  dk.cpm2unix.lookup k = some p → I { dk with host := (dk.host.write p pos d).2 }

variable {I : Disk → Prop}

/-! ## `Flush` -/

/-- The rule for the inner loop of `Flush`. -/
lemma flushSector_rule (hcache : KeptByCache I) (hwrites : KeptByWrites I) (sid : ℕ)
    (data : Sector) (es : List CpmDir) :
    ∀ live, Exc.Triple I (flushSector sid data live es) (fun _ => I) I := by
  induction es with
  | nil => exact fun _ => .pure fun _ h => h
  | cons e es ih =>
    intro live
    refine .bind .get fun dk => .ite (fun _ => ?_) fun _ => (ih live).weaken (fun _ h => h.2)
      (fun _ _ h => h) fun _ h => h
    refine .bind (R := fun p dk => I dk ∧ dk.cpm2unix.lookup e.getName = some p) ?_
      fun p => .ite (fun _ => ?_) fun _ => .throw fun _ h => h.1
    · rintro dk₁ ⟨-, h⟩
      cases hl : dk₁.cpm2unix.lookup e.getName with
      | none => rwa [unixAt_of_none hl]
      | some p =>
        rw [unixAt_of_some hl]
        exact ⟨h, hl⟩
    · refine .bind (R := fun _ => I) (fun dk₁ h => hwrites dk₁ _ p _ _ h.1 h.2) fun _ => .bind
        (R := fun _ => I) (.modify fun dk₁ h => hcache dk₁ _ h) fun _ => ih false

/-- The rule for the outer loop of `Flush`. -/
lemma flushAll_rule (hcache : KeptByCache I) (hwrites : KeptByWrites I) (sids : List ℕ) :
    Exc.Triple I (flushAll sids) (fun _ => I) I := by
  induction sids with
  | nil => exact .pure fun _ h => h
  | cons sid sids ih =>
    refine .bind (.bind .get fun dk => ?_) fun _ => ih
    cases dk.cache.lookup sid with
    | none => exact .pure fun _ h => h.2
    | some data =>
      exact (flushSector_rule hcache hwrites sid data dk.dir true).weaken (fun _ h => h.2)
        (fun _ _ h => h) fun _ h => h

/-- **The rule for `Flush`.** -/
theorem flush_rule (hcache : KeptByCache I) (hwrites : KeptByWrites I) :
    Exc.Triple I flush (fun _ => I) I := by
  refine .bind .get fun dk => .bind (R := fun _ => I) ?_ fun _ => .pure fun _ h => h
  exact (flushAll_rule hcache hwrites dk.cached).weaken (fun _ h => h.2) (fun _ _ h => h)
    fun _ h => h

/-! ## Directory sectors -/

/-- **The rule for the entries of a directory sector.**

**Proof sketch.** Induction on the entries that are left. Writing one of them changes no other
slot, so the condition on the rest still holds of the directory that is reached. -/
theorem writeEntries_rule (hdir : KeptByDir I) (extno : ℕ) (dma : Sector) :
    ∀ {idxs : List (Fin 4)}, idxs.Nodup →
      Exc.Triple (fun dk => I dk ∧ ∀ idx ∈ idxs, ∀ old, dk.dir[extno + idx.val]? = some old →
          old.eq (entryOf dma idx) = false →
            Exc.Triple I (hostChange old (entryOf dma idx)) (fun _ => I) I)
        (writeEntries extno dma idxs) (fun _ => I) I := by
  intro idxs
  induction idxs with
  | nil => exact fun _ => .pure fun _ h => h.1
  | cons idx idxs ih =>
    intro hnd
    rw [List.nodup_cons] at hnd
    refine .bind (R := fun _ dk => I dk ∧ ∀ i ∈ idxs, ∀ old, dk.dir[extno + i.val]? = some old →
      old.eq (entryOf dma i) = false →
        Exc.Triple I (hostChange old (entryOf dma i)) (fun _ => I) I) ?_ fun _ => ih hnd.2
    rintro dk ⟨h, hkeep⟩
    cases hold : dk.dir[extno + idx.val]? with
    | none =>
      rw [writeEntry_of_none hold]
      exact h
    | some old =>
      by_cases heq : old.eq (entryOf dma idx) = true
      · rw [writeEntry_of_eq hold heq]
        exact ⟨h, fun i hi => hkeep i (by simp [hi])⟩
      · rw [writeEntry_of_ne hold heq]
        have hchange := hkeep idx (by simp) old hold (by simpa using heq) dk h
        rw [Exc.bind_apply]
        cases hres : hostChange old (entryOf dma idx) dk with
        | error e dk₁ =>
          rw [hres] at hchange
          exact hchange
        | ok a dk₁ =>
          rw [hres] at hchange
          have hsame : dk₁.dir = dk.dir := hostChange_dir hres
          refine ⟨hdir dk₁ _ hchange, fun i hi old' hold' => ?_⟩
          rw [List.getElem?_set_ne (slot_ne hnd.1 hi), hsame] at hold'
          exact hkeep i (by simp [hi]) old' hold'

/-! ## `Write` -/

/-- **The rule for `Write`.** Beside the premises, writing into the system file keeps the
invariant, or the sector is not on a reserved track.

**Proof sketch.** By the area of the sector: the system file, the directory, where the entries are
written and the cache is flushed (`writeEntries_rule`, `flush_rule`), or the data area, where the
sector enters the cache. -/
theorem write_rule (hcache : KeptByCache I) (hdir : KeptByDir I) (hwrites : KeptByWrites I)
    {track sector : ℕ} {dma : Sector} :
    Exc.Triple (fun dk => I dk ∧
        (∀ a, dk.getAbsSector track sector = some a → a < dk.dirstart →
          I { dk with host := (dk.host.write dk.bootblock (a <<< 7) (bytes dma)).2 }) ∧
        ∀ old new, SlotChange dk track sector dma old new → old.eq new = false →
          Exc.Triple I (hostChange old new) (fun _ => I) I)
      (write track sector dma) (fun _ => I) I := by
  rintro dk ⟨h, hsystem, hkeep⟩
  cases ha : dk.getAbsSector track sector with
  | none =>
    rw [write_badIndex ha]
    exact h
  | some a =>
    rw [write_apply ha]
    by_cases h1 : a < dk.dirstart
    · rw [if_pos h1]
      have hw := hsystem a ha h1
      simp only [writeHost, onHost, Exc.bind_apply]
      by_cases hok : (dk.host.write dk.bootblock (a <<< 7) (bytes dma)).1 = true
      · simp only [hok, if_true]
        exact hw
      · simp only [hok, Bool.false_eq_true, if_false]
        exact hw
    · rw [if_neg h1]
      by_cases h2 : a - dk.dirstart < dk.datastart
      · rw [if_pos h2]
        refine Exc.Triple.bind (writeEntries_rule hdir _ dma (by decide))
          (fun _ => flush_rule hcache hwrites) dk ⟨h, fun idx _ old hold => ?_⟩
        exact hkeep old _ ⟨a, idx, ha, Nat.not_lt.mp h1, h2, hold, rfl⟩
      · rw [if_neg h2]
        exact hcache dk _ h

end Disk

end Cpm22
