import Cpm22.Disk.World

set_option relaxedAutoImplicit false
set_option autoImplicit false

/-!
# When the operations of a drive return

`Read` and `Write` take a track and a sector as the guest gives them. This file has the exact
condition under which they return, in any surroundings, on an object whose tables and directory have
the sizes of its geometry: `path_` has its characters wherever it is read, the address is inside the
retranslation table, the system file can be read or written, the host files of the entries that
appear, disappear or get a new name are known and the host carries the changes out, and no cached
sector is listed by an entry when `Flush` starts.

## Main definitions

* `Cpm22.Disk.InTable` — the address is inside the retranslation table.
* `Cpm22.Disk.Hosted.HostFits`, `Cpm22.Disk.Hosted.FlushFits`, `Cpm22.Disk.Hosted.EntriesFit` — the
  conditions of the parts of a directory write.
* `Cpm22.Disk.Hosted.ReadFits`, `Cpm22.Disk.Hosted.WriteFits` — the conditions of `Read` and
  `Write`.

## Main results

* `Cpm22.Disk.Hosted.flush_returns_iff` — when `Flush` returns.
* `Cpm22.Disk.Hosted.read_returns_iff`, `Cpm22.Disk.Hosted.write_returns_iff` — when `Read` and
  `Write` return.
-/

namespace Cpm22.Disk

open HostPath HostFs Bdos

variable {g : Geometry} {dk : Disk} {track sector sid : ℕ} {dma : Sector}

/-! ## Addresses -/

/-- **The address is inside the retranslation table**: sectors are counted from one, and sectors of
reserved tracks are not looked up. -/
def InTable (dk : Disk) (track sector : ℕ) : Prop :=
  dk.dpb.off ≤ track → 1 ≤ sector ∧ sector ≤ dk.smap.length

/-- `GetAbsSector` stays inside the table. -/
lemma inTable_iff : InTable dk track sector ↔ ∃ a, dk.getAbsSector track sector = some a := by
  unfold InTable getAbsSector
  by_cases ht : dk.dpb.off ≤ track
  · by_cases h0 : sector = 0
    · simp [ht, h0]
    · simp only [ht, forall_const, if_true, h0, if_false, Option.map_eq_some_iff]
      constructor
      · intro h
        exact ⟨_, _, List.getElem?_eq_getElem (by omega : sector - 1 < dk.smap.length), rfl⟩
      · rintro ⟨a, x, hx, -⟩
        have := (List.getElem?_eq_some_iff.mp hx).1
        omega
  · simp [ht]

/-- The slots of a directory sector are inside the directory. -/
lemma slot_lt_length (h : Housed g dk) (hg : g.Regular) {n : ℕ} (hn : n < dk.datastart)
    (idx : Fin 4) : (n <<< 2) + idx.val < dk.dir.length := by
  have hdirs := hg.dirs
  have hshift : n <<< 2 = n * 4 := Nat.shiftLeft_eq n 2
  rw [h.shaped.datastart] at hn
  rw [h.len, hshift]
  omega

/-- A disk that was built has the sizes of its geometry. -/
lemma housed_of_build {readdir : Bytes → Option (List Bytes)} {path : Bytes} {host : Host}
    (hg : g.Regular) (h : build readdir path g host = .ok () dk) : Housed g dk := by
  obtain ⟨hb, -⟩ := built_of_build hg h
  obtain ⟨done, blocks, hl, -⟩ := hb.laid
  refine ⟨hb.frame.shaped, ?_⟩
  rw [hl.len, hb.frame.dpb]
  rfl

/-- A disk with the tables and the size of the directory of another one has its sizes. -/
lemma housed_of_eq {dk' : Disk} (h : Housed g dk) (hd : dk'.dpb = dk.dpb) (hm : dk'.smap = dk.smap)
    (hs : dk'.datastart = dk.datastart) (hr : dk'.dirstart = dk.dirstart)
    (hl : dk'.dir.length = dk.dir.length) : Housed g dk' :=
  ⟨⟨hd.trans h.shaped.dpb, hm.trans h.shaped.smap, hs.trans h.shaped.datastart,
    hr.trans h.shaped.dirstart⟩, hl.trans h.len⟩

namespace Hosted

variable {σ α : Type} (W : World σ) {s s' : Disk × σ}

/-! ## The calls -/

/-- `path_` has its characters. -/
def PathFits (s : Disk × σ) : Prop := (W.path s.1.path s.2).1.isSome

/-- The state after `path_` was read. -/
def afterPath (s : Disk × σ) : Disk × σ := (s.1, (W.path s.1.path s.2).2)

/-- **`mkhostname` returns**, with a path and a world that have the property. -/
def NameFits (name : Bytes) (s : Disk × σ) (P : Bytes → σ → Prop) : Prop :=
  ∃ path, (W.path s.1.path s.2).1 = some path ∧
    let made := W.createDirectories (hostDir path (splitUser name).1) (afterPath W s).2
    made.1 = true ∧ P (hostPath path name) made.2

variable {W}

/-- A sequence that reads `path_` first. -/
lemma returns_readPath_bind {m : WorldM σ α} :
    Exc.Returns ((readPath W >>= fun _ => m) s) ↔
      PathFits W s ∧ Exc.Returns (m (afterPath W s)) := by
  unfold PathFits
  rw [Exc.bind_apply, readPath]
  cases (W.path s.1.path s.2).1 with
  | none => exact iff_of_false (Exc.not_returns_error _ _) fun h => by cases h.1
  | some p => exact ⟨fun h => ⟨rfl, h⟩, fun h => h.2⟩

/-- A sequence that looks a name up first. -/
lemma returns_unixAt_bind {name : Bytes} {f : Bytes → WorldM σ α} :
    Exc.Returns ((inObject (unixAt name) >>= f) s) ↔
      ∃ p, s.1.cpm2unix.lookup name = some p ∧ Exc.Returns (f p s) := by
  rw [Exc.bind_apply, inObject, unixAt]
  cases s.1.cpm2unix.lookup name with
  | none => exact iff_of_false (Exc.not_returns_error _ _) (by simp)
  | some p => simp only [Option.some.injEq, exists_eq_left']

/-- A sequence that starts with a call whose failure ends in `throw;`. -/
lemma returns_orRethrow_bind {call : σ → Bool × σ} {f : Unit → WorldM σ α} :
    Exc.Returns ((orRethrow call >>= f) s) ↔
      (call s.2).1 = true ∧ Exc.Returns (f () (s.1, (call s.2).2)) := by
  have hrun : orRethrow call s = if (call s.2).1 = true then .ok () (s.1, (call s.2).2)
      else .error (.fault .rethrow) (s.1, (call s.2).2) := by
    change (if (call s.2).1 = true then pure () else throw (.fault .rethrow) : WorldM σ Unit)
      (s.1, (call s.2).2) = _
    split <;> rfl
  rw [Exc.bind_apply, hrun]
  by_cases h : (call s.2).1 = true
  · rw [if_pos h]
    exact (and_iff_right h).symm
  · rw [if_neg h]
    exact iff_of_false (Exc.not_returns_error _ _) fun h' => h h'.1

/-- A sequence that starts with `mkhostname`.

**Proof sketch.** If the path of the drive is gone, the function ends with a fault, and `NameFits`
is false. Otherwise it makes the directory of the user, and the sequence goes on iff this
succeeded. -/
lemma returns_mkhostname_bind {name : Bytes} {f : Bytes → WorldM σ α} :
    Exc.Returns ((mkhostname W name >>= f) s) ↔
      NameFits W name s fun q w => Exc.Returns (f q (s.1, w)) := by
  cases hp : (W.path s.1.path s.2).1 with
  | none =>
    have hpath : readPath W s = .error .deadPath (afterPath W s) := by rw [readPath, hp]; rfl
    have hrun : mkhostname W name s = .error .deadPath (afterPath W s) := Exc.bind_of_error hpath
    rw [Exc.bind_of_error hrun]
    refine iff_of_false (Exc.not_returns_error _ _) ?_
    rintro ⟨p, hp', -⟩
    rw [hp] at hp'
    cases hp'
  | some path =>
    have hpath : readPath W s = .ok path (afterPath W s) := by rw [readPath, hp]; rfl
    have hrun : mkhostname W name s = (if (W.createDirectories
        (hostDir path (splitUser name).1) (afterPath W s).2).1 = true
        then pure (hostPath path name) else throw (.fault .systemError) : WorldM σ Bytes)
          (s.1, (W.createDirectories (hostDir path (splitUser name).1) (afterPath W s).2).2) :=
      Exc.bind_of_ok hpath
    have hfits : NameFits W name s (fun q w => Exc.Returns (f q (s.1, w))) ↔
        (W.createDirectories (hostDir path (splitUser name).1) (afterPath W s).2).1 = true ∧
          Exc.Returns (f (hostPath path name) (s.1,
            (W.createDirectories (hostDir path (splitUser name).1) (afterPath W s).2).2)) := by
      rw [NameFits, hp]
      simp only [Option.some.injEq, exists_eq_left']
    rw [hfits, Exc.returns_bind, hrun]
    by_cases h : (W.createDirectories (hostDir path (splitUser name).1) (afterPath W s).2).1 = true
    · rw [if_pos h]
      exact ⟨fun hr => ⟨h, hr.2 _ _ rfl⟩, fun hr => ⟨Exc.returns_ok _ _, fun q s₁ hs => by
        cases hs
        exact hr.2⟩⟩
    · rw [if_neg h]
      exact iff_of_false (fun hr => Exc.not_returns_error _ _ hr.1) fun hr => h hr.1

/-- An assignment returns. -/
lemma returns_modify (f : Disk → Disk) :
    Exc.Returns (inObject (modify f) s : EStateM.Result Crash (Disk × σ) PUnit) :=
  Exc.returns_ok _ _

/-! ## `Flush` -/

/-- An entry that does not list the sector is passed over. -/
lemma flushSector_other {data : Sector} {live : Bool} {e : CpmDir} {es : List CpmDir}
    (h : ¬ e.Lists s.1.dpb sid) :
    flushSector W sid data live (e :: es) s = flushSector W sid data live es s := by
  rw [flushSector, Exc.get_bind]
  exact congrFun (if_neg h) s

/-- An entry that lists the sector takes it out of the cache. -/
lemma flushSector_ok_lists {data : Sector} {live : Bool} {e : CpmDir} {es : List CpmDir}
    (he : e.Lists s.1.dpb sid) (h : flushSector W sid data live (e :: es) s = .ok () s') :
    ∃ w, flushSector W sid data false es ({ s.1 with cache := s.1.cache.erase sid }, w) =
      .ok () s' := by
  rw [flushSector, Exc.get_bind] at h
  replace h := (congrFun (if_pos he) s).symm.trans h
  obtain ⟨p, s₁, hp, h⟩ := Exc.bind_ok.mp h
  obtain rfl : s₁ = s := by
    unfold inObject unixAt at hp
    split at hp
    · rename_i a dk hl
      split at hl
      · cases hl
        cases hp
        rfl
      · cases hl
    · cases hp
  cases live with
  | false => cases h
  | true => exact ⟨_, h⟩

/-- The inner loop of `Flush` puts no sector into the cache. -/
lemma mem_cache_flushSector {data : Sector} {es : List CpmDir} : ∀ {live : Bool} {s : Disk × σ},
    flushSector W sid data live es s = .ok () s' → ∀ t ∈ s'.1.cache, t ∈ s.1.cache := by
  induction es with
  | nil =>
    rintro live s ⟨⟩
    exact fun _ ht => ht
  | cons e es ih =>
    intro live s h t ht
    by_cases he : e.Lists s.1.dpb sid
    · obtain ⟨w, hrest⟩ := flushSector_ok_lists he h
      exact (AList.mem_erase.mp (ih hrest t ht)).2
    · rw [flushSector_other he] at h
      exact ih h t ht

/-- **A round of `Flush` that leaves its sector in the cache** found no entry that lists it. -/
lemma flushSector_kept {data : Sector} {live : Bool} {es : List CpmDir} :
    flushSector W sid data live es s = .ok () s' → sid ∈ s'.1.cache →
      s' = s ∧ ∀ e ∈ es, ¬ e.Lists s.1.dpb sid := by
  induction es with
  | nil =>
    rintro ⟨⟩ -
    exact ⟨rfl, nofun⟩
  | cons e es ih =>
    intro h hin
    by_cases he : e.Lists s.1.dpb sid
    · obtain ⟨w, hrest⟩ := flushSector_ok_lists he h
      exact absurd rfl (AList.mem_erase.mp (mem_cache_flushSector hrest sid hin)).1
    · rw [flushSector_other he] at h
      obtain ⟨hs, hno⟩ := ih h hin
      exact ⟨hs, List.forall_mem_cons.mpr ⟨he, hno⟩⟩

/-- The inner loop of `Flush` for a sector that no entry lists. -/
lemma flushSector_skip {data : Sector} {live : Bool} {es : List CpmDir}
    (h : ∀ e ∈ es, ¬ e.Lists s.1.dpb sid) : flushSector W sid data live es s = .ok () s := by
  induction es with
  | nil => rfl
  | cons e es ih =>
    rw [flushSector_other (h e (by simp))]
    exact ih fun e he => h e (by simp [he])

/-- **When one round of the outer loop returns**, with the iterator advanced: no entry lists the
sector, and the round did nothing.

**Proof sketch.** The iterator is advanced iff its node is still there, so that the round has
written nothing, and then no entry lists the sector (`flushSector_kept`). -/
lemma flushOne_advance_iff (hin : sid ∈ s.1.cache) :
    (flushOne W sid >>= fun _ => advance sid) s = .ok () s' ↔
      s' = s ∧ ∀ e ∈ s.1.dir, ¬ e.Lists s.1.dpb sid := by
  obtain ⟨data, hd⟩ := Option.isSome_iff_exists.mp (AList.lookup_isSome.mpr hin)
  have hone : flushOne W sid s = flushSector W sid data true s.1.dir s := by
    rw [flushOne, Exc.get_bind, hd]
  rw [Exc.bind_apply, hone]
  constructor
  · intro h
    cases hf : flushSector W sid data true s.1.dir s with
    | error e s₁ =>
      rw [hf] at h
      cases h
    | ok a s₁ =>
      simp only [hf, advance] at h
      split at h
      · rename_i hin₁
        cases h
        exact flushSector_kept hf hin₁
      · cases h
  · rintro ⟨rfl, hno⟩
    rw [flushSector_skip hno]
    exact if_pos hin

/-- **When the outer loop of `Flush` returns**: no entry lists one of its sectors.

**Proof sketch.** Induction on the sectors. A round that finds an entry erases the node the iterator
stands on, and the iterator cannot be advanced; a round that finds none leaves everything as it is,
so the next one starts in the same state. -/
lemma flushAll_ok_iff {sids : List ℕ} (hin : ∀ sid ∈ sids, sid ∈ s.1.cache) :
    flushAll W sids s = .ok () s' ↔
      s' = s ∧ ∀ sid ∈ sids, ∀ e ∈ s.1.dir, ¬ e.Lists s.1.dpb sid := by
  induction sids with
  | nil => exact ⟨fun h => by cases h; exact ⟨rfl, nofun⟩, fun h => by rw [h.1]; rfl⟩
  | cons sid sids ih =>
    have hassoc : flushAll W (sid :: sids) =
        (flushOne W sid >>= fun _ => advance sid) >>= fun _ => flushAll W sids := by
      rw [flushAll, bind_assoc]
    rw [hassoc, Exc.bind_ok, List.forall_mem_cons]
    simp only [flushOne_advance_iff (hin sid (by simp))]
    constructor
    · rintro ⟨-, s₁, ⟨rfl, hno⟩, hrest⟩
      obtain ⟨hs, hall⟩ := (ih fun t ht => hin t (by simp [ht])).mp hrest
      exact ⟨hs, hno, hall⟩
    · rintro ⟨hs, hno, hall⟩
      exact ⟨(), s, ⟨rfl, hno⟩, (ih fun t ht => hin t (by simp [ht])).mpr ⟨hs, hall⟩⟩

variable (W) in
/-- **`Flush` finds its way**: `path_` has its characters for both log lines, and no entry lists a
cached sector. -/
def FlushFits (s : Disk × σ) : Prop :=
  PathFits W s ∧ Quiet s.1 ∧ PathFits W (afterPath W s)

/-- **When `Flush` returns.** -/
theorem flush_returns_iff : Exc.Returns (flush W s) ↔ FlushFits W s := by
  have hcached : ∀ sid ∈ (afterPath W s).1.cached, sid ∈ (afterPath W s).1.cache :=
    fun sid hs => mem_cached.mp hs
  rw [flush, returns_readPath_bind, Exc.get_bind, Exc.returns_bind]
  refine and_congr_right fun _ => ?_
  constructor
  · rintro ⟨⟨⟨⟩, s₁, h1⟩, hrest⟩
    obtain ⟨rfl, hno⟩ := (flushAll_ok_iff hcached).mp h1
    exact ⟨fun sid hs => hno sid (mem_cached.mpr hs), (returns_readPath_bind.mp (hrest _ _ h1)).1⟩
  · rintro ⟨hq, hpath⟩
    have h1 : flushAll W (afterPath W s).1.cached (afterPath W s) = .ok () (afterPath W s) :=
      (flushAll_ok_iff hcached).mpr ⟨rfl, fun sid hs => hq sid (mem_cached.mp hs)⟩
    refine ⟨⟨_, _, h1⟩, fun _ s₁ hs => ?_⟩
    obtain ⟨-, rfl⟩ := EStateM.Result.ok.inj (h1.symm.trans hs)
    exact returns_readPath_bind.mpr ⟨hpath, Exc.returns_ok _ _⟩

/-- **On a host of its own, `Flush` returns iff the pass over the cache is correct**: the iterator
here is the cursor of `Cpm22.Disk.pass`. -/
theorem flush_returns_iff_pass {s : Disk × Host} : Exc.Returns (flush hostWorld s) ↔
    ∃ r dk, pass s.1 = .ok r dk ∧ FlushCorrect s.1 dk := by
  rw [flush_returns_iff, pass_iff]
  exact ⟨fun h => h.2.1, fun h => ⟨rfl, h, rfl⟩⟩

/-! ## Directory sectors -/

variable (W) in
/-- **The host carries the change of an entry out**: the file of an entry of extent 0 that is erased
or renamed is known, and the calls succeed. -/
structure HostFits (old new : CpmDir) (s : Disk × σ) : Prop where
  delete : ¬ new.Used → old.Used → old.getExtNumber = 0 →
    ∃ p, s.1.cpm2unix.lookup old.getName = some p ∧ (W.remove p s.2).1 = true
  create : new.Used → ¬ old.Used → new.getExtNumber = 0 →
    NameFits W new.getName s fun q w => (W.create q w).1 = true
  rename : new.Used → old.Used → new.getName ≠ old.getName → old.getExtNumber = 0 →
    new.getExtNumber = 0 → ∃ p, s.1.cpm2unix.lookup old.getName = some p ∧
      NameFits W new.getName s fun q w => (W.rename p q w).1 = true

/-- **When a change of an entry returns.**

**Proof sketch.** By which of the two entries are in use. In each case one branch of the source is
left, with the calls it makes one after the other; in the branches that do nothing every condition
of `HostFits` is void. -/
lemma hostChange_returns_iff {old new : CpmDir} :
    Exc.Returns (hostChange W old new s) ↔ HostFits W old new s := by
  have hskip {P : Prop} (h : P) : Exc.Returns ((pure () : WorldM σ Unit) s) ↔ P :=
    iff_of_true (Exc.returns_ok () s) h
  unfold hostChange
  by_cases hn : new.Used
  · by_cases ho : old.Used
    · rw [if_neg (fun h => h.1 hn), if_neg (fun h => h.2 ho)]
      by_cases hne : new.getName ≠ old.getName
      · rw [if_pos ⟨hn, ho, hne⟩]
        by_cases h0 : old.getExtNumber = 0 ∧ new.getExtNumber = 0
        · rw [if_pos h0]
          simp only [returns_unixAt_bind, returns_mkhostname_bind, returns_orRethrow_bind]
          refine ⟨fun ⟨p, hp, h⟩ => ⟨fun h' => absurd hn h', fun _ h' => absurd ho h',
            fun _ _ _ _ _ => ⟨p, hp, ?_⟩⟩, fun h => ?_⟩
          · obtain ⟨q, hq, hmk, hren, -⟩ := h
            exact ⟨q, hq, hmk, hren⟩
          · obtain ⟨p, hp, q, hq, hmk, hren⟩ := h.rename hn ho hne h0.1 h0.2
            exact ⟨p, hp, q, hq, hmk, hren, Exc.returns_ok _ _⟩
        · rw [if_neg h0]
          exact hskip ⟨fun h' => absurd hn h', fun _ h' => absurd ho h',
            fun _ _ _ h h' => absurd ⟨h, h'⟩ h0⟩
      · rw [if_neg fun h => hne h.2.2]
        exact hskip ⟨fun h' => absurd hn h', fun _ h' => absurd ho h', fun _ _ h => absurd h hne⟩
    · rw [if_neg (fun h => h.1 hn), if_pos ⟨hn, ho⟩]
      by_cases h0 : new.getExtNumber = 0
      · rw [if_pos h0]
        simp only [returns_mkhostname_bind, returns_orRethrow_bind]
        refine ⟨fun ⟨q, hq, hmk, hcr, _⟩ => ⟨fun h' => absurd hn h', fun _ _ _ => ⟨q, hq, hmk, hcr⟩,
          fun _ h' => absurd h' ho⟩, fun h => ?_⟩
        obtain ⟨q, hq, hmk, hcr⟩ := h.create hn ho h0
        exact ⟨q, hq, hmk, hcr, Exc.returns_ok _ _⟩
      · rw [if_neg h0]
        exact hskip ⟨fun h' => absurd hn h', fun _ _ h => absurd h h0, fun _ h' => absurd h' ho⟩
  · by_cases ho : old.Used
    · rw [if_pos ⟨hn, ho⟩]
      by_cases h0 : old.getExtNumber = 0
      · rw [if_pos h0]
        simp only [returns_unixAt_bind, returns_orRethrow_bind]
        refine ⟨fun ⟨p, hp, hrem, _⟩ => ⟨fun _ _ _ => ⟨p, hp, hrem⟩, fun h' => absurd h' hn,
          fun h' => absurd h' hn⟩, fun h => ?_⟩
        obtain ⟨p, hp, hrem⟩ := h.delete hn ho h0
        exact ⟨p, hp, hrem, Exc.returns_ok _ _⟩
      · rw [if_neg h0]
        exact hskip ⟨fun _ _ h => absurd h h0, fun h' => absurd h' hn, fun h' => absurd h' hn⟩
    · rw [if_neg (fun h => ho h.2), if_neg (fun h => hn h.1), if_neg fun h => hn h.1]
      exact hskip ⟨fun _ h' => absurd h' ho, fun h' => absurd h' hn, fun h' => absurd h' hn⟩

/-- When an entry that is written returns. -/
lemma writeEntry_returns_iff {n : ℕ} {old new : CpmDir} (hn : s.1.dir[n]? = some old) :
    Exc.Returns (writeEntry W n new s) ↔ (old.eq new = false → HostFits W old new s) := by
  have hat : inObject (dirAt n) s = (.ok old s : EStateM.Result Crash (Disk × σ) CpmDir) := by
    unfold inObject dirAt
    rw [hn]
  rw [writeEntry, Exc.bind_of_ok hat]
  by_cases heq : old.eq new = true
  · rw [if_pos heq]
    exact iff_of_true (Exc.returns_ok () s) fun h => by simp [heq] at h
  · rw [if_neg heq, Exc.returns_bind, hostChange_returns_iff]
    have hne : old.eq new = false := by simpa using heq
    exact ⟨fun h _ => h.1, fun h => ⟨h hne, fun _ s₁ _ => Exc.returns_ok () _⟩⟩

variable (W) in
/-- **The entries of a directory sector can be written**, from the given slots on: the host carries
out the change of each entry that differs, in the state before that entry, and `Flush` finds its way
after the last one. -/
def EntriesFit (extno : ℕ) (dma : Sector) : List (Fin 4) → Disk × σ → Prop
  | [], s => FlushFits W s
  | idx :: idxs, s =>
    (∀ old, s.1.dir[extno + idx.val]? = some old → old.eq (entryOf dma idx) = false →
      HostFits W old (entryOf dma idx) s) ∧
    ∀ s', writeEntry W (extno + idx) (entryOf dma idx) s = .ok () s' →
      EntriesFit extno dma idxs s'

/-! ## The sizes stay -/

/-- The object has the sizes of the geometry. -/
def Sized (g : Geometry) (s : Disk × σ) : Prop := Housed g s.1

/-- The method keeps the sizes. -/
def Keeps (g : Geometry) (m : WorldM σ α) : Prop :=
  Exc.Triple (Sized g) m (fun _ => Sized g) fun _ => True

/-- An assignment that leaves the tables and the size of the directory. -/
lemma keeps_modify {f : Disk → Disk} (h : ∀ dk, Housed g dk → Housed g (f dk)) :
    Keeps g (inObject (modify f) : WorldM σ PUnit) := fun s hs => h s.1 hs

/-- A step of the object that leaves it. -/
lemma keeps_inObject {m : DiskM α} (h : ∀ dk a dk', m dk = .ok a dk' → dk' = dk) :
    Keeps g (inObject m : WorldM σ α) := by
  intro s hs
  unfold inObject
  cases hm : m s.1 with
  | ok a dk =>
    obtain rfl := h _ _ _ hm
    exact hs
  | error e dk => trivial

/-- A lookup in the name map leaves the object. -/
lemma keeps_unixAt (name : Bytes) : Keeps g (inObject (unixAt name) : WorldM σ Bytes) := by
  refine keeps_inObject fun dk a dk' h => ?_
  unfold unixAt at h
  split at h <;> cases h
  rfl

/-- A lookup in the directory leaves the disk. -/
lemma dirAt_ok {n : ℕ} {e : CpmDir} {dk' : Disk} (h : dirAt n dk = .ok e dk') : dk' = dk := by
  unfold dirAt at h
  split at h <;> cases h
  rfl

/-- A lookup in the directory leaves the object. -/
lemma keeps_dirAt (n : ℕ) : Keeps g (inObject (dirAt n) : WorldM σ CpmDir) :=
  keeps_inObject fun _ _ _ h => dirAt_ok h

/-- A call leaves the object. -/
lemma keeps_call (f : σ → α × σ) : Keeps g (call f) := fun _ hs => hs

/-- A call whose failure ends in `throw;`. -/
lemma keeps_orRethrow (f : σ → Bool × σ) : Keeps g (orRethrow f) :=
  .bind (keeps_call f) fun _ => .ite (fun _ => .pure fun _ h => h)
    fun _ => .throw fun _ _ => trivial

/-- `path_` is read. -/
lemma keeps_readPath : Keeps g (readPath W) := by
  intro s hs
  unfold readPath
  cases (W.path s.1.path s.2).1 with
  | none => trivial
  | some p => exact hs

/-- `mkhostname` leaves the object. -/
lemma keeps_mkhostname (name : Bytes) : Keeps g (mkhostname W name) :=
  .bind keeps_readPath fun _ => .bind (keeps_call _) fun _ =>
    .ite (fun _ => .pure fun _ h => h) fun _ => .throw fun _ _ => trivial

/-- The name map is changed. -/
lemma keeps_cpm2unix (f : (AList fun _ : Bytes => Bytes) → AList fun _ : Bytes => Bytes) :
    Keeps g (inObject (modify fun dk => { dk with cpm2unix := f dk.cpm2unix }) : WorldM σ PUnit) :=
  keeps_modify fun _ h => housed_of_eq h rfl rfl rfl rfl rfl

/-- Replacing an entry changes no size. -/
lemma keeps_hostChange (old new : CpmDir) : Keeps g (hostChange W old new) := by
  refine .ite (fun _ => .ite (fun _ => ?_) fun _ => .pure fun _ h => h) fun _ =>
    .ite (fun _ => .ite (fun _ => ?_) fun _ => .pure fun _ h => h) fun _ =>
      .ite (fun _ => .ite (fun _ => ?_) fun _ => .pure fun _ h => h) fun _ => .pure fun _ h => h
  · exact .bind (keeps_unixAt _) fun p => .bind (keeps_orRethrow _) fun _ => keeps_cpm2unix _
  · exact .bind (keeps_mkhostname _) fun p => .bind (keeps_orRethrow _) fun _ => keeps_cpm2unix _
  · exact .bind (keeps_unixAt _) fun p => .bind (keeps_mkhostname _) fun q =>
      .bind (keeps_orRethrow _) fun _ => .bind (keeps_cpm2unix _) fun _ => keeps_cpm2unix _

/-- An entry of a directory sector. -/
lemma keeps_writeEntry (n : ℕ) (new : CpmDir) : Keeps g (writeEntry W n new) :=
  .bind (keeps_dirAt n) fun old => .ite (fun _ => .pure fun _ h => h) fun _ =>
    .bind (keeps_hostChange old new) fun _ => keeps_modify fun _ h =>
      housed_of_eq h rfl rfl rfl rfl (List.length_set ..)

/-- The entries of a directory sector. -/
lemma keeps_writeEntries (extno : ℕ) (idxs : List (Fin 4)) :
    Keeps g (writeEntries W extno dma idxs) := by
  induction idxs with
  | nil => exact .pure fun _ h => h
  | cons idx idxs ih => exact .bind (keeps_writeEntry _ _) fun _ => ih

/-- The inner loop of `Flush` changes no size. -/
lemma keeps_flushSector (data : Sector) (es : List CpmDir) : ∀ live : Bool,
    Keeps g (flushSector W sid data live es) := by
  induction es with
  | nil => exact fun _ => .pure fun _ h => h
  | cons e es ih =>
    refine fun live => .bind (R := fun _ => Sized g) (fun _ h => h) fun s =>
      .ite (fun _ => .bind (keeps_unixAt _) fun p => .ite (fun _ => ?_) fun _ =>
        .throw fun _ _ => trivial) fun _ => ih live
    exact .bind (keeps_call _) fun _ =>
      .bind (keeps_modify fun dk h => housed_of_eq h rfl rfl rfl rfl rfl) fun _ => ih false

/-- `Flush` changes no size. -/
lemma keeps_flush : Keeps g (flush W) := by
  have hone (sid : ℕ) : Keeps g (flushOne W sid) := by
    refine .bind (R := fun _ => Sized g) (fun _ h => h) fun s => ?_
    cases s.1.cache.lookup sid with
    | none => exact .pure fun _ h => h
    | some data => exact keeps_flushSector data s.1.dir true
  have hadvance (sid : ℕ) : Keeps g (advance sid : WorldM σ Unit) := by
    intro s hs
    unfold advance
    by_cases hin : sid ∈ s.1.cache
    · rw [if_pos hin]
      exact hs
    · rw [if_neg hin]
      trivial
  have hall (sids : List ℕ) : Keeps g (flushAll W sids) := by
    induction sids with
    | nil => exact .pure fun _ h => h
    | cons sid sids ih => exact .bind (hone sid) fun _ => .bind (hadvance sid) fun _ => ih
  exact .bind keeps_readPath fun _ => .bind (R := fun _ => Sized g) (fun _ h => h) fun s =>
    .bind (hall s.1.cached) fun _ => .bind keeps_readPath fun _ => .pure fun _ h => h

/-- The address of a sector leaves the object. -/
lemma keeps_absSector (track sector : ℕ) :
    Keeps g (inObject (absSector track sector) : WorldM σ ℕ) := by
  refine keeps_inObject fun dk a dk' h => ?_
  unfold absSector at h
  split at h <;> cases h
  rfl

/-- **`Write` keeps the tables and the size of the directory.** -/
lemma keeps_write : Keeps g (write W track sector dma) := by
  refine .bind keeps_readPath fun _ => .bind (keeps_absSector track sector) fun a =>
    .bind (R := fun _ => Sized g) (fun _ h => h) fun s => .ite (fun _ => ?_) fun _ =>
      .ite (fun _ => ?_) fun _ => ?_
  · exact .bind (keeps_call _) fun _ => .ite (fun _ => .pure fun _ h => h) fun _ =>
      .throw fun _ _ => trivial
  · exact .bind (keeps_writeEntries _ _) fun _ => keeps_flush
  · exact fun s hs => housed_of_eq hs rfl rfl rfl rfl rfl

/-- The entries that list a sector are asked for it. -/
lemma keeps_readSector (es : List CpmDir) : ∀ dma : Sector, Keeps g (readSector W sid es dma) := by
  induction es with
  | nil => exact fun _ => .pure fun _ h => h
  | cons e es ih =>
    refine fun dma => .bind (R := fun _ => Sized g) (fun _ h => h) fun s =>
      .ite (fun _ => ?_) fun _ => ih dma
    exact .bind (.bind (keeps_call _) fun _ => .pure fun _ h => h) fun r => ih r.2

/-- A data sector is read. -/
lemma keeps_readData (sid : ℕ) : Keeps g (readData W sid dma) := by
  refine .bind (R := fun _ => Sized g) (fun _ h => h) fun s => ?_
  cases s.1.cache.lookup sid with
  | some d => exact .pure fun _ h => h
  | none => exact keeps_readSector s.1.dir dma

/-- A directory sector is read. -/
lemma keeps_readDir (n : ℕ) : Keeps g (inObject (readDir n) : WorldM σ Sector) := by
  refine keeps_inObject fun dk a dk' h => ?_
  simp only [readDir, Exc.bind_ok] at h
  obtain ⟨e0, dk₀, h0, e1, dk₁, h1, e2, dk₂, h2, e3, dk₃, h3, h⟩ := h
  cases h
  rw [dirAt_ok h3, dirAt_ok h2, dirAt_ok h1, dirAt_ok h0]

/-- **`Read` keeps the tables and the size of the directory.** -/
lemma keeps_read : Keeps g (read W track sector dma) := by
  have hhost (p : Bytes) (pos : ℕ) : Keeps g (readHost W p pos dma) :=
    .bind (keeps_call _) fun _ => .pure fun _ h => h
  refine .bind keeps_readPath fun _ => .bind (keeps_absSector track sector) fun a =>
    .bind (R := fun _ => Sized g) (fun _ h => h) fun s => .ite (fun _ => ?_) fun _ =>
      .ite (fun _ => ?_) fun _ => ?_
  · exact .bind (hhost _ _) fun r => .ite (fun _ => .pure fun _ h => h) fun _ =>
      .throw fun _ _ => trivial
  · exact .bind (R := fun _ => Sized g) (keeps_readDir _) fun d => .pure fun _ h => h
  · exact .bind (R := fun _ => Sized g) (keeps_readData _) fun d => .pure fun _ h => h

/-! ## `Read` and `Write` -/

variable (W) in
/-- **The condition of `Read`**: `path_` has its characters, the address is inside the table, and
the system file can be read if the sector is on a reserved track. -/
def ReadFits (track sector : ℕ) (s : Disk × σ) : Prop :=
  PathFits W s ∧ InTable s.1 track sector ∧
    ∀ a, s.1.getAbsSector track sector = some a → a < s.1.dirstart →
      (W.read s.1.bootblock (a <<< 7) (afterPath W s).2).1.1 = true

variable (W) in
/-- **The condition of `Write`**: `path_` has its characters, the address is inside the table, the
stream calls on the system file succeed if the sector is on a reserved track, and the entries can be
written if it is one of the directory. -/
def WriteFits (track sector : ℕ) (dma : Sector) (s : Disk × σ) : Prop :=
  PathFits W s ∧ InTable s.1 track sector ∧ ∀ a, s.1.getAbsSector track sector = some a →
    (a < s.1.dirstart →
      (W.write s.1.bootblock (a <<< 7) (bytes dma) (afterPath W s).2).1 = true) ∧
    (s.1.dirstart ≤ a → a - s.1.dirstart < s.1.datastart →
      EntriesFit W ((a - s.1.dirstart) <<< 2) dma [0, 1, 2, 3] (afterPath W s))

/-- **When the entries of a directory sector and the `Flush` after them return**, for slots inside
the directory.

**Proof sketch.** Induction on the slots. The entry returns iff its host change does
(`writeEntry_returns_iff`), and the rest, with the flush behind it, goes on from the state that it
leaves, in which the directory has its size. -/
lemma writeEntries_returns_iff {extno : ℕ} {idxs : List (Fin 4)} : ∀ {s : Disk × σ}, Sized g s →
    (∀ idx ∈ idxs, extno + idx.val < s.1.dir.length) →
      (Exc.Returns ((writeEntries W extno dma idxs >>= fun _ => flush W) s) ↔
        EntriesFit W extno dma idxs s) := by
  induction idxs with
  | nil => exact fun _ _ => flush_returns_iff
  | cons idx idxs ih =>
    intro s hs hlen
    have hat : s.1.dir[extno + idx.val]? =
        some (s.1.dir.get ⟨extno + idx.val, hlen idx (by simp)⟩) :=
      List.getElem?_eq_getElem _
    have hassoc : (writeEntries W extno dma (idx :: idxs) >>= fun _ => flush W) s =
        (writeEntry W (extno + idx) (entryOf dma idx) >>= fun _ =>
          writeEntries W extno dma idxs >>= fun _ => flush W) s := by
      rw [writeEntries, bind_assoc]
    have hnext : ∀ s₁, writeEntry W (extno + idx) (entryOf dma idx) s = .ok () s₁ →
        Sized g s₁ ∧ ∀ i ∈ idxs, extno + i.val < s₁.1.dir.length := by
      intro s₁ h1
      have hs₁ := keeps_writeEntry (W := W) (extno + idx) (entryOf dma idx) s hs
      rw [h1] at hs₁
      refine ⟨hs₁, fun i hi => ?_⟩
      rw [hs₁.len, ← hs.len]
      exact hlen i (by simp [hi])
    rw [hassoc, Exc.returns_bind, writeEntry_returns_iff hat, EntriesFit, hat]
    simp only [Option.some.injEq, forall_eq']
    refine and_congr_right fun _ => ⟨fun h s₁ h1 => ?_, fun h _ s₁ h1 => ?_⟩
    · exact (ih (hnext s₁ h1).1 (hnext s₁ h1).2).mp (h () s₁ h1)
    · exact (ih (hnext s₁ h1).1 (hnext s₁ h1).2).mpr (h s₁ h1)

/-- A sequence that starts with the address of a sector. -/
lemma returns_absSector_bind {f : ℕ → WorldM σ α} :
    Exc.Returns ((inObject (absSector track sector) >>= f) s) ↔ InTable s.1 track sector ∧
      ∀ a, s.1.getAbsSector track sector = some a → Exc.Returns (f a s) := by
  rw [inTable_iff, Exc.bind_apply, inObject, absSector]
  cases s.1.getAbsSector track sector with
  | none => exact iff_of_false (Exc.not_returns_error _ _) (by simp)
  | some a => simp

/-- A data sector can always be read. -/
lemma readData_returns (sid : ℕ) : Exc.Returns (readData W sid dma s) := by
  have hsector (es : List CpmDir) : ∀ dma s, Exc.Returns (readSector W sid es dma s) := by
    induction es with
    | nil => exact fun _ _ => Exc.returns_ok _ _
    | cons e es ih =>
      intro dma s
      rw [readSector, Exc.get_bind]
      split
      · exact ih _ _
      · exact ih _ _
  rw [readData, Exc.get_bind]
  cases s.1.cache.lookup sid with
  | some d => exact Exc.returns_ok _ _
  | none => exact hsector s.1.dir dma s

/-- A directory sector can be read. -/
lemma readDir_returns {n : ℕ} (h : ∀ idx : Fin 4, n <<< 2 + idx.val < s.1.dir.length) :
    Exc.Returns ((inObject (readDir n) : WorldM σ Sector) s) := by
  have hat : ∀ idx : Fin 4, s.1.dir[n * 4 + idx.val]? =
      some (s.1.dir.get ⟨n <<< 2 + idx.val, h idx⟩) := by
    intro idx
    rw [← Nat.shiftLeft_eq n 2]
    exact List.getElem?_eq_getElem (h idx)
  unfold inObject
  rw [readDir_eq hat]
  exact Exc.returns_ok _ _

/-- **When `Read` returns**, on an object of a regular geometry. -/
theorem read_returns_iff (hg : g.Regular) (h : Sized g s) :
    Exc.Returns (read W track sector dma s) ↔ ReadFits W track sector s := by
  rw [read, returns_readPath_bind, returns_absSector_bind]
  refine and_congr_right fun _ => and_congr_right fun _ => forall₂_congr fun a _ => ?_
  rw [Exc.get_bind]
  refine Exc.returns_ite.trans ⟨fun hr hlt => ?_, fun hr => ⟨fun hlt => ?_, fun _ => ?_⟩⟩
  · have hcall := (Exc.returns_bind.mp (hr.1 hlt)).2 _ _ rfl
    by_contra hfail
    exact Exc.not_returns_error _ _ ((Exc.returns_ite.mp hcall).2 hfail)
  · refine Exc.returns_bind.mpr ⟨Exc.returns_ok _ _, fun r s₁ hs₁ => ?_⟩
    obtain ⟨rfl, rfl⟩ := EStateM.Result.ok.inj hs₁
    exact Exc.returns_ite.mpr ⟨fun _ => Exc.returns_ok _ _, fun hfail => absurd (hr hlt) hfail⟩
  · refine Exc.returns_ite.mpr ⟨fun hdir => ?_, fun _ => ?_⟩
    · exact Exc.returns_bind.mpr ⟨readDir_returns fun idx => slot_lt_length h hg hdir idx,
        fun _ _ _ => Exc.returns_ok _ _⟩
    · exact Exc.returns_bind.mpr ⟨readData_returns _, fun _ _ _ => Exc.returns_ok _ _⟩

/-- **When `Write` returns**, on an object of a regular geometry.

**Proof sketch.** The path is read and the address is computed first. Then by the area of the
sector: the call to the system file has to succeed, the entries of a directory sector have to be
written (`writeEntries_returns_iff`), and entering a data sector into the cache returns. -/
theorem write_returns_iff (hg : g.Regular) (h : Sized g s) :
    Exc.Returns (write W track sector dma s) ↔ WriteFits W track sector dma s := by
  rw [write, returns_readPath_bind, returns_absSector_bind]
  refine and_congr_right fun _ => and_congr_right fun _ => forall₂_congr fun a _ => ?_
  rw [Exc.get_bind]
  have hentries (hdir : a - s.1.dirstart < s.1.datastart) :
      Exc.Returns (writeDir W (a - s.1.dirstart) dma (afterPath W s)) ↔
        EntriesFit W ((a - s.1.dirstart) <<< 2) dma [0, 1, 2, 3] (afterPath W s) :=
    writeEntries_returns_iff h fun idx _ => slot_lt_length h hg hdir idx
  refine Exc.returns_ite.trans (and_congr (forall_congr' fun hlt => ?_) ?_)
  · refine ⟨fun hr => ?_, fun hr => ?_⟩
    · by_contra hfail
      exact Exc.not_returns_error _ _
        ((Exc.returns_ite.mp ((Exc.returns_bind.mp hr).2 _ _ rfl)).2 hfail)
    · refine Exc.returns_bind.mpr ⟨Exc.returns_ok _ _, fun r s₁ hs₁ => ?_⟩
      obtain ⟨rfl, rfl⟩ := EStateM.Result.ok.inj hs₁
      exact Exc.returns_ite.mpr ⟨fun _ => Exc.returns_ok _ _, fun hfail => absurd hr hfail⟩
  · refine ⟨fun hr hle hdir => (hentries hdir).mp ((Exc.returns_ite.mp
      (hr (Nat.not_lt.mpr hle))).1 hdir), fun hr hlt => Exc.returns_ite.mpr ⟨fun hdir => ?_,
        fun _ => Exc.returns_ok _ _⟩⟩
    exact (hentries hdir).mpr (hr (Nat.not_lt.mp hlt) hdir)

end Hosted

end Cpm22.Disk
