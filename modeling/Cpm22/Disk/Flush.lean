import Cpm22.Disk.Readback

set_option relaxedAutoImplicit false
set_option autoImplicit false

/-!
# The pass of `Flush` over the cache

`Flush` goes through the cached sectors with an iterator, and through the directory for each of
them. A sector whose block is listed is written to the file of the entry; its buffer is deleted and
its node is erased from the cache, while both loops go on. This file has what a `Flush` of an
arbitrary directory does, the pass with its iterator, and what becomes of the status of the writes.

`Cpm22.Disk.flush` visits each sector that is cached at its start once. `Cpm22.Disk.pass` says when
the code is entitled to that: the iterator is a cursor on a key, and the key must still be there
when the cursor is advanced. The keys behind the cursor are those of the start, since only the key
under the cursor is erased.

## Main definitions

* `Cpm22.Disk.Quiet` — no entry lists a cached sector.
* `Cpm22.Disk.pass` — `Flush` with a cursor.
* `Cpm22.Disk.FlushCorrect` — what a pass is for.
* `Cpm22.Disk.NoLoss` — no sector is lost on a host error, and the error is reported.

## Main results

* `Cpm22.Disk.flushSector_ok` — one cached sector, for any directory.
* `Cpm22.Disk.flush_quiet` — after a `Flush` no entry lists a cached sector.
* `Cpm22.Disk.pass_iff` — the pass is correct iff it has nothing to do.
* `Cpm22.Disk.noLoss_iff` — no sector is lost iff no write failed.
-/

namespace Cpm22

open HostPath HostFs

namespace Disk

variable {dk dk' : Disk} {sid : ℕ} {data : Sector}

/-- **No entry lists a cached sector.** -/
def Quiet (dk : Disk) : Prop := ∀ sid ∈ dk.cache, ∀ e ∈ dk.dir, ¬ e.Lists dk.dpb sid

/-- Every entry that lists a cached sector has a host file. -/
def Backed (dk : Disk) : Prop :=
  ∀ sid ∈ dk.cache, ∀ e ∈ dk.dir, e.Lists dk.dpb sid → (dk.cpm2unix.lookup e.getName).isSome

/-! ## One cached sector -/

/-- The inner loop of `Flush` at an entry that lists the block. -/
lemma flushSector_lists {e : CpmDir} {es : List CpmDir} {p : Bytes} (he : e.Lists dk.dpb sid)
    (hp : dk.cpm2unix.lookup e.getName = some p) (live : Bool) :
    flushSector sid data live (e :: es) dk =
      if live then flushSector sid data false es (dk.flushed sid data e p)
      else .error .deadBuffer dk := by
  have he' : e.Used ∧ e.findBlockIndex (sid >>> dk.dpb.bsh) dk.dpb.blockPtrType ≠ 0 := he
  rw [flushSector, Exc.get_bind, if_pos he', Exc.bind_of_ok (unixAt_of_some hp)]
  cases live <;> rfl

/-- The inner loop of `Flush` at an entry that lists the block and has no host file. -/
lemma flushSector_unmapped {e : CpmDir} {es : List CpmDir} (he : e.Lists dk.dpb sid)
    (hp : dk.cpm2unix.lookup e.getName = none) (live : Bool) :
    flushSector sid data live (e :: es) dk = .error .outOfRange dk := by
  have he' : e.Used ∧ e.findBlockIndex (sid >>> dk.dpb.bsh) dk.dpb.blockPtrType ≠ 0 := he
  rw [flushSector, Exc.get_bind, if_pos he', Exc.bind_of_error (unixAt_of_none hp)]

/-- The inner loop of `Flush` at an entry that does not list the block. -/
lemma flushSector_other {e : CpmDir} {es : List CpmDir} (he : ¬ e.Lists dk.dpb sid) (live : Bool) :
    flushSector sid data live (e :: es) dk = flushSector sid data live es dk := by
  have he' : ¬ (e.Used ∧ e.findBlockIndex (sid >>> dk.dpb.bsh) dk.dpb.blockPtrType ≠ 0) := he
  rw [flushSector, Exc.get_bind, if_neg he']

/-- **One cached sector, for any directory**: if the inner loop returns, no entry lists the block
and nothing happened, or one entry does and the sector was written to its file.

**Proof sketch.** Induction on the directory. The first entry that lists the block takes the
buffer. Behind it no other one may list the block, since the loop would use the buffer once more
and not return. -/
lemma flushSector_ok {es : List CpmDir} : ∀ {live : Bool} {dk : Disk},
    flushSector sid data live es dk = .ok () dk' →
      ((∀ e ∈ es, ¬ e.Lists dk.dpb sid) ∧ dk' = dk) ∨
        (live = true ∧ ∃ e ∈ es, ∃ p, e.Lists dk.dpb sid ∧
          dk.cpm2unix.lookup e.getName = some p ∧ dk' = dk.flushed sid data e p) := by
  induction es with
  | nil =>
    intro live dk h
    cases h
    exact .inl ⟨fun e he => (nomatch he), rfl⟩
  | cons e es ih =>
    intro live dk h
    by_cases he : e.Lists dk.dpb sid
    · cases hp : dk.cpm2unix.lookup e.getName with
      | none =>
        rw [flushSector_unmapped he hp] at h
        cases h
      | some p =>
        rw [flushSector_lists he hp] at h
        cases live with
        | false => cases h
        | true =>
          -- the buffer is gone, so no other entry lists the block
          rcases ih h with ⟨-, rfl⟩ | ⟨hlive, -⟩
          · exact .inr ⟨rfl, e, by simp, p, he, hp, rfl⟩
          · cases hlive
    · rw [flushSector_other he] at h
      rcases ih h with ⟨hno, rfl⟩ | ⟨hlive, f, hf, p, hl, hp, rfl⟩
      · refine .inl ⟨fun f hf => ?_, rfl⟩
        rcases List.mem_cons.mp hf with rfl | hf
        · exact he
        · exact hno f hf
      · exact .inr ⟨hlive, f, by simp [hf], p, hl, hp, rfl⟩

/-- The lookups of the inner loop succeed if every entry that lists the block has a host file. -/
lemma flushSector_avoids {es : List CpmDir} : ∀ {live : Bool} {dk : Disk},
    (∀ e ∈ es, e.Lists dk.dpb sid → (dk.cpm2unix.lookup e.getName).isSome) →
      Exc.Avoids .outOfRange (fun _ _ => True) (flushSector sid data live es dk) := by
  induction es with
  | nil => exact fun _ => trivial
  | cons e es ih =>
    intro live dk h
    have hes : ∀ f ∈ es, f.Lists dk.dpb sid → (dk.cpm2unix.lookup f.getName).isSome :=
      fun f hf => h f (by simp [hf])
    by_cases he : e.Lists dk.dpb sid
    · obtain ⟨p, hp⟩ := Option.isSome_iff_exists.mp (h e (by simp) he)
      rw [flushSector_lists he hp]
      cases live with
      | false => exact fun hh => Fault.noConfusion hh
      | true =>
        have hes' : ∀ f ∈ es, f.Lists (dk.flushed sid data e p).dpb sid →
            ((dk.flushed sid data e p).cpm2unix.lookup f.getName).isSome := hes
        exact ih hes'
    · rw [flushSector_other he]
      exact ih hes

/-! ## The whole cache -/

/-- **One round of `Flush`**: the sector stays, and nothing happens, if it is not cached or not
listed; otherwise it is written to the file of an entry that lists it. -/
lemma flushOne_ok (h : flushOne sid dk = .ok () dk') :
    ((sid ∈ dk.cache → ∀ e ∈ dk.dir, ¬ e.Lists dk.dpb sid) ∧ dk' = dk) ∨
      ∃ d, dk.cache.lookup sid = some d ∧ ∃ e ∈ dk.dir, ∃ p, e.Lists dk.dpb sid ∧
        dk.cpm2unix.lookup e.getName = some p ∧ dk' = dk.flushed sid d e p := by
  rw [flushOne_apply] at h
  cases hd : dk.cache.lookup sid with
  | none =>
    rw [hd] at h
    cases h
    exact .inl ⟨fun hs => absurd hs (AList.lookup_eq_none.mp hd), rfl⟩
  | some d =>
    rw [hd] at h
    rcases flushSector_ok h with ⟨hno, rfl⟩ | ⟨-, hwrite⟩
    · exact .inl ⟨fun _ => hno, rfl⟩
    · exact .inr ⟨d, rfl, hwrite⟩

/-- What a round of `Flush` keeps, and that it settles its sector. -/
lemma flushOne_settles (h : flushOne sid dk = .ok () dk') :
    FlushFrame dk dk' ∧ (∀ s ∈ dk'.cache, s ∈ dk.cache) ∧
      (sid ∈ dk'.cache → ∀ e ∈ dk.dir, ¬ e.Lists dk.dpb sid) := by
  rcases flushOne_ok h with ⟨hno, rfl⟩ | ⟨d, -, e, -, p, -, -, rfl⟩
  · exact ⟨FlushFrame.refl dk', fun _ hs => hs, hno⟩
  · refine ⟨flushFrame_flushed dk sid d e p, fun s hs => (AList.mem_erase.mp hs).2, fun hs => ?_⟩
    exact absurd rfl (AList.mem_erase.mp hs).1

/-- The outer loop of `Flush` settles the sectors it visits. -/
lemma flushAll_settles {sids : List ℕ} : ∀ {dk : Disk}, flushAll sids dk = .ok () dk' →
    FlushFrame dk dk' ∧ (∀ s ∈ dk'.cache, s ∈ dk.cache) ∧
      ∀ s ∈ sids, s ∈ dk'.cache → ∀ e ∈ dk.dir, ¬ e.Lists dk.dpb s := by
  induction sids with
  | nil =>
    intro dk h
    cases h
    exact ⟨FlushFrame.refl dk', fun _ hs => hs, fun s hs => nomatch hs⟩
  | cons sid sids ih =>
    intro dk h
    rw [flushAll, Exc.bind_ok] at h
    obtain ⟨⟨⟩, dk₁, h1, h2⟩ := h
    obtain ⟨hf₁, hsub₁, hset₁⟩ := flushOne_settles h1
    obtain ⟨hf₂, hsub₂, hset₂⟩ := ih h2
    rw [hf₁.dir, hf₁.dpb] at hset₂
    refine ⟨hf₁.trans hf₂, fun s hs => hsub₁ s (hsub₂ s hs), fun s hs hin => ?_⟩
    rcases List.mem_cons.mp hs with rfl | hs
    · exact hset₁ (hsub₂ s hin)
    · exact hset₂ s hs hin

/-- **After a `Flush` no entry lists a cached sector.** -/
lemma quiet_of_flush {r : ℕ} (h : flush dk = .ok r dk') :
    FlushFrame dk dk' ∧ (∀ s ∈ dk'.cache, s ∈ dk.cache) ∧ Quiet dk' := by
  rw [flush_apply, Exc.bind_ok] at h
  obtain ⟨⟨⟩, dk₁, h1, h2⟩ := h
  cases h2
  obtain ⟨hf, hsub, hset⟩ := flushAll_settles h1
  refine ⟨hf, hsub, fun s hs e he => ?_⟩
  rw [hf.dir] at he
  rw [hf.dpb]
  exact hset s (mem_cached.mpr (hsub s hs)) hs e he

/-- A round of `Flush` keeps the host files behind the entries. -/
lemma Backed.flushOne (hb : Backed dk) (h : Disk.flushOne sid dk = .ok () dk') : Backed dk' := by
  obtain ⟨hf, hsub, -⟩ := flushOne_settles h
  intro s hs e he hl
  rw [hf.dir] at he
  rw [hf.dpb] at hl
  rw [hf.cpm2unix]
  exact hb s (hsub s hs) e he hl

/-- The lookups of the outer loop succeed if every entry that lists a cached sector has a host
file. -/
lemma flushAll_avoids {sids : List ℕ} : ∀ {dk : Disk}, Backed dk →
    Exc.Avoids .outOfRange (fun _ _ => True) (flushAll sids dk) := by
  induction sids with
  | nil => exact fun _ => trivial
  | cons sid sids ih =>
    intro dk hb
    have hone : Exc.Avoids .outOfRange (fun _ dk' => Backed dk') (flushOne sid dk) := by
      have havoid : Exc.Avoids .outOfRange (fun _ _ => True) (flushOne sid dk) := by
        rw [flushOne_apply]
        cases hd : dk.cache.lookup sid with
        | none => trivial
        | some d =>
          exact flushSector_avoids (hb sid (AList.lookup_isSome.mp (by rw [hd]; rfl)))
      cases hr : flushOne sid dk with
      | ok a dk' => exact hb.flushOne hr
      | error e dk' =>
        rw [hr] at havoid
        exact havoid
    exact hone.bind fun _ _ h => ih h

/-- **`Flush` does not fail in a lookup** if every entry that lists a cached sector has a host file;
afterwards no entry lists a cached sector. -/
theorem flush_quiet (hb : Backed dk) : Exc.Avoids .outOfRange (fun _ dk' =>
    FlushFrame dk dk' ∧ (∀ s ∈ dk'.cache, s ∈ dk.cache) ∧ Quiet dk') (flush dk) := by
  have havoid : Exc.Avoids .outOfRange (fun _ _ => True) (flush dk) := by
    rw [flush_apply]
    exact Exc.Avoids.bind (flushAll_avoids hb) fun _ _ _ => trivial
  cases hr : flush dk with
  | ok r dk' => exact quiet_of_flush hr
  | error e dk' =>
    rw [hr] at havoid
    exact havoid

/-! ## The cursor -/

/-- How the pass can end without a result. -/
inductive PassFault
  /-- a fault of the loop body -/
  | fault (f : Fault)
  /-- the cursor is advanced, and its key is not in the map any more -/
  | deadCursor
  deriving DecidableEq

/-- The pass over the cache. -/
abbrev PassM := EStateM PassFault Disk

/-- A step of the loop body. -/
def inPass {α : Type} (m : DiskM α) : PassM α := fun dk =>
  match m dk with
  | .ok a dk' => .ok a dk'
  | .error e dk' => .error (.fault e) dk'

/-- `citcache++`. -/
def advance (sid : ℕ) : PassM Unit := fun dk =>
  if sid ∈ dk.cache then .ok () dk else .error .deadCursor dk

/-- The pass with the cursor on the first of the given keys. -/
def passAll : List ℕ → PassM Unit
  | [] => pure ()
  | sid :: sids => do
    inPass (flushOne sid)
    advance sid
    passAll sids

/-- **`Flush` with a cursor.** -/
def pass : PassM ℕ := do
  passAll (← get).cached
  pure 0

/-- The host calls since `dk`. -/
def newCalls (dk dk' : Disk) : List Event := dk'.host.calls.drop dk.host.calls.length

/-- The call is `WriteHost` of the sector `sid` with contents `d`, for the entry `e`. -/
def WritesSector (dk : Disk) (sid : ℕ) (d : Sector) (e : CpmDir) (c : Call) : Prop :=
  ∃ p, dk.cpm2unix.lookup e.getName = some p ∧
    c = .write p (fileOffset dk.dpb (e.findBlockIndex (sid >>> dk.dpb.bsh) dk.dpb.blockPtrType) sid)
      (bytes d)

/-- **What a pass is for**: a cached sector that is listed is written once to the file of its owner
and leaves the cache, and every other sector stays as it is. -/
structure FlushCorrect (dk dk' : Disk) : Prop where
  flushed : ∀ sid d e, dk.cache.lookup sid = some d → owner dk.dpb dk.dir sid = some e →
    sid ∉ dk'.cache ∧ ∃ c, WritesSector dk sid d e c ∧ ((newCalls dk dk').map (·.call)).count c = 1
  kept : ∀ sid, owner dk.dpb dk.dir sid = none → dk'.cache.lookup sid = dk.cache.lookup sid

/-- A step of the loop body that returned. -/
lemma inPass_ok {α : Type} {m : DiskM α} {a : α} :
    inPass m dk = .ok a dk' ↔ m dk = .ok a dk' := by
  unfold inPass
  cases hm : m dk with
  | ok b dk₁ => simp
  | error e dk₁ => simp

/-- **A pass that returns did nothing**: every key it visited is still there.

**Proof sketch.** Induction on the keys. A round that writes its sector erases its node, so that
the iterator could not be advanced. -/
lemma passAll_ok {sids : List ℕ} : ∀ {dk : Disk}, passAll sids dk = .ok () dk' → dk' = dk := by
  induction sids with
  | nil =>
    intro dk h
    cases h
    rfl
  | cons sid sids ih =>
    intro dk h
    rw [passAll, Exc.bind_ok] at h
    obtain ⟨⟨⟩, dk₁, h1, h2⟩ := h
    rw [Exc.bind_ok] at h2
    obtain ⟨⟨⟩, dk₂, hadv, h2⟩ := h2
    have hin : sid ∈ dk₁.cache ∧ dk₂ = dk₁ := by
      unfold advance at hadv
      split at hadv
      · rename_i hin
        cases hadv
        exact ⟨hin, rfl⟩
      · cases hadv
    obtain ⟨hin, rfl⟩ := hin
    have hdk := ih h2
    subst hdk
    rcases flushOne_ok (inPass_ok.mp h1) with ⟨-, rfl⟩ | ⟨d, -, e, -, p, -, -, rfl⟩
    · rfl
    · exact absurd rfl (AList.mem_erase.mp hin).1

/-- The pass returns if no entry lists a cached sector. -/
lemma passAll_quiet (hq : Quiet dk) {sids : List ℕ} (hsids : ∀ sid ∈ sids, sid ∈ dk.cache) :
    passAll sids dk = .ok () dk := by
  induction sids with
  | nil => rfl
  | cons sid sids ih =>
    have hin := hsids sid (by simp)
    have hone : flushOne sid dk = .ok () dk := by
      obtain ⟨d, hd⟩ := Option.isSome_iff_exists.mp (AList.lookup_isSome.mpr hin)
      rw [flushOne_apply, hd]
      exact flushSector_skip (hq sid hin)
    have hadv : advance sid dk = .ok () dk := if_pos hin
    rw [passAll, Exc.bind_of_ok (inPass_ok.mpr hone), Exc.bind_of_ok hadv]
    exact ih fun s hs => hsids s (by simp [hs])

/-- **The pass over the cache is correct exactly if it has nothing to do.** If an entry lists the
block of a cached sector, the sector is erased under the cursor, or a lookup fails, or a second
entry that lists the block finds the buffer deleted. -/
theorem pass_iff (dk : Disk) :
    (∃ r dk', pass dk = .ok r dk' ∧ FlushCorrect dk dk') ↔ Quiet dk := by
  constructor
  · rintro ⟨r, dk', hp, hc⟩ sid hsid e he hl
    rw [pass, Exc.get_bind, Exc.bind_ok] at hp
    obtain ⟨⟨⟩, dk₁, h1, h2⟩ := hp
    cases h2
    rw [passAll_ok h1] at hc
    obtain ⟨d, hd⟩ := Option.isSome_iff_exists.mp (AList.lookup_isSome.mpr hsid)
    cases ho : owner dk.dpb dk.dir sid with
    | none => exact owner_none.mp ho e he hl
    | some f => exact (hc.flushed sid d f hd ho).1 hsid
  · intro hq
    refine ⟨0, dk, ?_, ?_, fun sid _ => rfl⟩
    · rw [pass, Exc.get_bind,
        Exc.bind_of_ok (passAll_quiet hq fun sid hs => mem_cached.mp hs)]
      rfl
    · intro sid d e hd ho
      obtain ⟨he, hl⟩ := owner_some ho
      exact absurd hl (hq sid (AList.lookup_isSome.mp (by rw [hd]; rfl)) e he)

/-- The disk with the file `FOO` after another write to its sector. -/
def fooAgain : Disk := { fooMade with cache := fooMade.cache.insert 16 fun _ => 8 }

/-- **A pass that advances an erased cursor**: one cached sector, listed by one entry. -/
theorem pass_fooAgain : (∃ dk', pass fooAgain = .error .deadCursor dk') ∧
    ¬ ∃ r dk', pass fooAgain = .ok r dk' ∧ FlushCorrect fooAgain dk' := by
  have hp := Exc.error_of_fault
    (show Exc.fault (pass fooAgain) = some .deadCursor by decide)
  refine ⟨⟨_, hp⟩, ?_⟩
  rintro ⟨r, dk', h, -⟩
  rw [hp] at h
  cases h

/-! ## Host errors -/

/-- **No sector is lost on a host error**, and the error is reported: a sector left the cache only
if `WriteHost` succeeded for it, and the status is not 0 if a `WriteHost` failed. -/
def NoLoss (dk dk' : Disk) (r : ℕ) : Prop :=
  (∀ sid d, dk.cache.lookup sid = some d → sid ∉ dk'.cache →
      ∃ e ∈ dk'.dir, ∃ ev ∈ newCalls dk dk', WritesSector dk' sid d e ev.call ∧ ev.ok = true) ∧
    ((∃ ev ∈ newCalls dk dk', ev.ok = false ∧ ∃ p pos b, ev.call = .write p pos b) → r ≠ 0)

/-- A sector that leaves the cache in the outer loop of `Flush` was handed to `WriteHost`.

**Proof sketch.** Induction on the sectors that are left. A sector that is flushed first is written
by the call that is added, and a later one by a call of the rest, as the flush of the first sector
leaves it in the cache. -/
lemma flushAll_writes {sids : List ℕ} : ∀ {dk : Disk}, flushAll sids dk = .ok () dk' →
    ∃ evs, dk'.host.calls = dk.host.calls ++ evs ∧
      ∀ sid d, dk.cache.lookup sid = some d → sid ∉ dk'.cache →
        ∃ e ∈ dk'.dir, ∃ ev ∈ evs, WritesSector dk' sid d e ev.call := by
  induction sids with
  | nil =>
    intro dk h
    cases h
    refine ⟨[], by simp, fun sid d hd hs => ?_⟩
    exact absurd (AList.lookup_isSome.mp (by rw [hd]; rfl)) hs
  | cons s sids ih =>
    intro dk h
    rw [flushAll, Exc.bind_ok] at h
    obtain ⟨⟨⟩, dk₁, h1, h2⟩ := h
    obtain ⟨evs, hevs, hrest⟩ := ih h2
    have hf := (flushAll_settles h2).1
    rcases flushOne_ok h1 with ⟨-, rfl⟩ | ⟨d₁, hd₁, e₁, he₁, p, -, hp, rfl⟩
    · exact ⟨evs, hevs, hrest⟩
    · have hcalls := flushed_calls dk s d₁ e₁ p
      simp only at hcalls
      refine ⟨_ :: evs, by rw [hevs, hcalls, List.append_assoc]; rfl, fun sid d hd hs => ?_⟩
      rcases eq_or_ne sid s with rfl | hne
      · rw [hd₁, Option.some.injEq] at hd
        subst hd
        refine ⟨e₁, by rw [hf.dir]; exact he₁, _, List.mem_cons_self, p,
          by rw [hf.cpm2unix]; exact hp, ?_⟩
        rw [hf.dpb]
        rfl
      · have hd' : (dk.flushed s d₁ e₁ p).cache.lookup sid = some d := by
          rw [← hd]
          exact AList.lookup_erase_ne hne
        obtain ⟨e, he, ev, hev, hw⟩ := hrest sid d hd' hs
        exact ⟨e, he, ev, by simp [hev], hw⟩

/-- An entry that is written leaves the cache alone. -/
lemma cache_writeEntry {n : ℕ} {new : CpmDir} (h : writeEntry n new dk = .ok () dk') :
    dk'.cache = dk.cache := by
  obtain ⟨old, hat, ⟨-, rfl⟩ | ⟨heq, -⟩⟩ := dir_of_writeEntry h
  · rfl
  · rw [writeEntry_of_ne hat (by simp [heq]), Exc.bind_ok] at h
    obtain ⟨⟨⟩, dk₁, h1, h2⟩ := h
    cases h2
    exact (hostChange_effect h1).2

/-- The entries of a directory sector leave the cache alone. -/
lemma cache_writeEntries {extno : ℕ} {d : Sector} {idxs : List (Fin 4)} : ∀ {dk : Disk},
    writeEntries extno d idxs dk = .ok () dk' → dk'.cache = dk.cache := by
  induction idxs with
  | nil =>
    intro dk h
    cases h
    rfl
  | cons idx idxs ih =>
    intro dk h
    rw [writeEntries, Exc.bind_ok] at h
    obtain ⟨⟨⟩, dk₁, h1, h2⟩ := h
    rw [ih h2, cache_writeEntry h1]

/-- A sector that leaves the cache when a directory sector is written was handed to `WriteHost`;
the status is 0. -/
lemma writeDir_writes {n r : ℕ} {d : Sector} (h : writeDir n d dk = .ok r dk') :
    r = 0 ∧ ∀ sid x, dk.cache.lookup sid = some x → sid ∉ dk'.cache →
      ∃ e ∈ dk'.dir, ∃ ev ∈ newCalls dk dk', WritesSector dk' sid x e ev.call := by
  rw [writeDir, Exc.bind_ok] at h
  obtain ⟨⟨⟩, dk₁, h1, h2⟩ := h
  rw [flush_apply, Exc.bind_ok] at h2
  obtain ⟨⟨⟩, dk₂, h2, h3⟩ := h2
  cases h3
  obtain ⟨evs₁, hevs₁⟩ := calls_writeEntries h1
  obtain ⟨evs₂, hevs₂, hleft⟩ := flushAll_writes h2
  refine ⟨rfl, fun sid x hx hs => ?_⟩
  obtain ⟨e, he, ev, hev, hw⟩ := hleft sid x (by rw [cache_writeEntries h1, hx]) hs
  refine ⟨e, he, ev, ?_, hw⟩
  rw [newCalls, hevs₂, hevs₁, List.append_assoc, List.drop_left]
  exact List.mem_append_right evs₁ hev

/-- **Which directory writes lose nothing.** If the write of a directory sector returned, no sector
was lost and every error was reported exactly if no `WriteHost` of its `Flush` failed: the status
of `WriteHost` is not looked at. -/
theorem noLoss_iff {track sector n r : ℕ} {d : Sector}
    (ha : dk.area track sector = some (.directory n)) (hw : write track sector d dk = .ok r dk') :
    NoLoss dk dk' r ↔
      ∀ ev ∈ newCalls dk dk', ∀ p pos b, ev.call = .write p pos b → ev.ok = true := by
  rw [write_directory ha] at hw
  obtain ⟨rfl, hleft⟩ := writeDir_writes hw
  constructor
  · rintro ⟨-, hreport⟩ ev hev p pos b hcall
    by_contra hok
    exact hreport ⟨ev, hev, by simpa using hok, p, pos, b, hcall⟩ rfl
  · intro hfine
    refine ⟨fun sid x hx hs => ?_, ?_⟩
    · obtain ⟨e, he, ev, hev, p, hp, hcall⟩ := hleft sid x hx hs
      exact ⟨e, he, ev, hev, ⟨p, hp, hcall⟩, hfine ev hev _ _ _ hcall⟩
    · rintro ⟨ev, hev, hbad, p, pos, b, hcall⟩
      rw [hfine ev hev p pos b hcall] at hbad
      cases hbad

/-- Making the file `FOO` loses nothing. -/
theorem noLoss_foo : NoLoss fooWritten fooMade 0 := by
  have ha : fooWritten.area 2 1 = some (.directory 0) := area_foo ⟨rfl, rfl, rfl, rfl, rfl, rfl⟩
  obtain ⟨⟨r, hw⟩, -, hfine, -⟩ := step_fooMade
  obtain rfl : r = 0 := (writeDir_writes (by rwa [write_directory ha] at hw)).1
  exact (noLoss_iff ha hw).mpr fun ev hev _ _ _ _ => hfine ev hev

/-- A host that refuses the third call: the write into the new file. -/
def fooRefused : Disk :=
  { fooWritten with host := { emptyDrive with refuses := fun i => i == 2 } }

/-- **A sector that is lost**: `WriteHost` fails, the sector leaves the cache, and the status
is 0. -/
theorem fooRefused_loses : ∃ r dk', write 2 1 fooSector fooRefused = .ok r dk' ∧
    ¬ NoLoss fooRefused dk' r := by
  obtain ⟨r, hw⟩ := Exc.ok_of_isOk
    (show Exc.isOk (write 2 1 fooSector fooRefused) = true by decide)
  have ha : fooRefused.area 2 1 = some (.directory 0) := area_foo ⟨rfl, rfl, rfl, rfl, rfl, rfl⟩
  obtain rfl : r = 0 := (writeDir_writes (by rwa [write_directory ha] at hw)).1
  refine ⟨0, _, hw, fun h => h.2 ?_ rfl⟩
  have hbad : ((newCalls fooRefused (Exc.final (write 2 1 fooSector fooRefused))).any fun ev =>
      !ev.ok && match ev.call with | .write _ _ _ => true | _ => false) = true := by
    decide
  obtain ⟨ev, hev, hcond⟩ := List.any_eq_true.mp hbad
  obtain ⟨hno, hcall⟩ := Bool.and_eq_true_iff.mp hcond
  refine ⟨ev, hev, by simpa using hno, ?_⟩
  cases hc : ev.call with
  | write p pos b => exact ⟨p, pos, b, rfl⟩
  | createDirectories _ => rw [hc] at hcall; cases hcall
  | create _ => rw [hc] at hcall; cases hcall
  | remove _ => rw [hc] at hcall; cases hcall
  | rename _ _ => rw [hc] at hcall; cases hcall
  | read _ _ => rw [hc] at hcall; cases hcall

end Disk

end Cpm22
