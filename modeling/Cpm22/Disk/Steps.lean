import Cpm22.Disk.Disk

set_option relaxedAutoImplicit false
set_option autoImplicit false

/-!
# What the operations of the disk do

One specification for each operation of `Cpm22.Disk.Disk`, so that later files reason about steps
and never unfold the operations: what replacing a directory entry does to the host, what `Flush`
does with one cached sector, and what the parts of `Read` and `Write` are by address.

## Main definitions

* `Cpm22.CpmDir.Lists` — an entry lists the block of a sector.
* `Cpm22.Disk.DistinctPointers` — nonzero block pointers are pairwise distinct.
* `Cpm22.Disk.HostEffect` — the files and the name map before and after a directory change.

## Main results

* `Cpm22.Disk.hostChange_delete`, `hostChange_create`, `hostChange_rename`, `hostChange_skip` —
  the four kinds of a directory change; `hostChange_effect` is their common statement.
* `Cpm22.Disk.flushSector_eq` — one cached sector of `Flush`.
-/

namespace Cpm22

open HostPath HostFs

/-! ## Entries and the blocks they list -/

/-- The entry is in use and lists the block of sector `sid`. -/
def CpmDir.Lists (d : Dpb) (e : CpmDir) (sid : ℕ) : Prop :=
  e.Used ∧ e.findBlockIndex (sid >>> d.bsh) d.blockPtrType ≠ 0

instance (d : Dpb) (e : CpmDir) (sid : ℕ) : Decidable (e.Lists d sid) :=
  inferInstanceAs (Decidable (_ ∧ _))

/-- An entry lists a block iff one of its pointers is the block. -/
lemma CpmDir.lists_iff {d : Dpb} {e : CpmDir} {sid : ℕ} :
    e.Lists d sid ↔
      e.Used ∧ ∃ b < d.blockPtrType, e.pointer d.blockPtrType b = sid >>> d.bsh := by
  unfold CpmDir.Lists
  rw [ne_eq, CpmDir.findBlockIndex_eq_zero_iff]
  constructor
  · rintro ⟨hu, h⟩
    push Not at h
    exact ⟨hu, h.2⟩
  · rintro ⟨hu, b, hb, hp⟩
    refine ⟨hu, ?_⟩
    rintro (h | h)
    · exact h hu
    · exact h b hb hp

namespace Disk

/-- **The nonzero block pointers of the used entries are pairwise distinct.** -/
def DistinctPointers (d : Dpb) (dir : List CpmDir) : Prop :=
  ∀ (i j : ℕ) (e f : CpmDir) (b c : ℕ), dir[i]? = some e → dir[j]? = some f → e.Used → f.Used →
    b < d.blockPtrType → c < d.blockPtrType →
    e.pointer d.blockPtrType b = f.pointer d.blockPtrType c →
    e.pointer d.blockPtrType b ≠ 0 → i = j ∧ b = c

/-! ## Replacing a directory entry -/

variable {dk dk' : Disk} {old new : CpmDir} {p q : Bytes}

/-- A lookup that succeeds. -/
lemma unixAt_of_some (h : dk.cpm2unix.lookup p = some q) : unixAt p dk = .ok q dk := by
  simp only [unixAt, h]

/-- A lookup that fails. -/
lemma unixAt_of_none (h : dk.cpm2unix.lookup p = none) : unixAt p dk = .error .outOfRange dk := by
  simp only [unixAt, h]

/-- A call of the host that must succeed. -/
lemma orRethrow_apply (f : Host → Bool × Host) (dk : Disk) :
    orRethrow f dk = if (f dk.host).1 then .ok () { dk with host := (f dk.host).2 }
      else .error .rethrow { dk with host := (f dk.host).2 } := by
  simp only [orRethrow, onHost, Exc.bind_apply]
  by_cases h : (f dk.host).1 = true
  · simp only [h, if_true]
    rfl
  · simp only [h, Bool.false_eq_true, if_false]
    rfl

/-- The path of a host file for an entry, with the directory it needs. -/
lemma mkhostname_apply (e : CpmDir) (dk : Disk) :
    mkhostname e.getName dk =
      let mk := dk.host.createDirectories (hostDir dk.path e.st.toNat)
      if mk.1 then .ok (hostPath dk.path e.getName) { dk with host := mk.2 }
      else .error .systemError { dk with host := mk.2 } := by
  rw [mkhostname, Exc.get_bind]
  simp only [onHost, Exc.bind_apply, splitUser_getName]
  by_cases h : (dk.host.createDirectories (hostDir dk.path e.st.toNat)).1 = true
  · simp only [h, if_true]
    rfl
  · simp only [h, Bool.false_eq_true, if_false]
    rfl

/-- **Erasing the entry of extent 0** removes the host file and its name. -/
lemma hostChange_delete (hn : ¬ new.Used) (ho : old.Used) (h0 : old.getExtNumber = 0) (dk : Disk) :
    hostChange old new dk = match dk.cpm2unix.lookup old.getName with
      | none => .error .outOfRange dk
      | some p =>
        if (dk.host.remove p).1 then
          .ok () { dk with
            host := (dk.host.remove p).2, cpm2unix := dk.cpm2unix.erase old.getName }
        else .error .rethrow { dk with host := (dk.host.remove p).2 } := by
  rw [hostChange, if_pos ⟨hn, ho⟩, if_pos h0]
  cases hl : dk.cpm2unix.lookup old.getName with
  | none => rw [Exc.bind_of_error (unixAt_of_none hl)]
  | some p =>
    rw [Exc.bind_of_ok (unixAt_of_some hl)]
    by_cases h : (dk.host.remove p).1 = true
    · simp only [Exc.bind_apply, orRethrow_apply, h, if_true]
      rfl
    · simp only [Exc.bind_apply, orRethrow_apply, h, Bool.false_eq_true, if_false]

/-- **A new entry of extent 0** creates the host file, or truncates the one that is there. -/
lemma hostChange_create (hn : new.Used) (ho : ¬ old.Used) (h0 : new.getExtNumber = 0) (dk : Disk) :
    hostChange old new dk =
      let mk := dk.host.createDirectories (hostDir dk.path new.st.toNat)
      let p := hostPath dk.path new.getName
      if mk.1 then
        if (mk.2.create p).1 then
          .ok () { dk with
            host := (mk.2.create p).2, cpm2unix := dk.cpm2unix.insert new.getName p }
        else .error .rethrow { dk with host := (mk.2.create p).2 }
      else .error .systemError { dk with host := mk.2 } := by
  rw [hostChange, if_neg (fun h => h.1 hn), if_pos ⟨hn, ho⟩, if_pos h0]
  simp only [Exc.bind_apply, mkhostname_apply]
  generalize dk.host.createDirectories (hostDir dk.path new.st.toNat) = mk
  by_cases hm : mk.1 = true
  · simp only [hm, if_true, orRethrow_apply]
    by_cases hc : (mk.2.create (hostPath dk.path new.getName)).1 = true
    · simp only [hc, if_true]
      rfl
    · simp only [hc, Bool.false_eq_true, if_false]
  · simp only [hm, Bool.false_eq_true, if_false]

/-- **A new name of an entry of extent 0** renames the host file.

**Proof sketch.** The branch of the source for a new name, with its calls one after the other: the
lookup of the old path, the directory of the user, and the call that renames the file. -/
lemma hostChange_rename (hn : new.Used) (ho : old.Used) (hne : new.getName ≠ old.getName)
    (h0 : old.getExtNumber = 0) (h1 : new.getExtNumber = 0) (dk : Disk) :
    hostChange old new dk = match dk.cpm2unix.lookup old.getName with
      | none => .error .outOfRange dk
      | some p =>
        let mk := dk.host.createDirectories (hostDir dk.path new.st.toNat)
        let q := hostPath dk.path new.getName
        if mk.1 then
          if (mk.2.rename p q).1 then
            .ok () { dk with
              host := (mk.2.rename p q).2
              cpm2unix := (dk.cpm2unix.erase old.getName).insert new.getName q }
          else .error .rethrow { dk with host := (mk.2.rename p q).2 }
        else .error .systemError { dk with host := mk.2 } := by
  rw [hostChange, if_neg (fun h => h.1 hn), if_neg (fun h => h.2 ho), if_pos ⟨hn, ho, hne⟩,
    if_pos ⟨h0, h1⟩]
  cases hl : dk.cpm2unix.lookup old.getName with
  | none => rw [Exc.bind_of_error (unixAt_of_none hl)]
  | some p =>
    rw [Exc.bind_of_ok (unixAt_of_some hl)]
    simp only [Exc.bind_apply, mkhostname_apply]
    generalize dk.host.createDirectories (hostDir dk.path new.st.toNat) = mk
    by_cases hm : mk.1 = true
    · simp only [hm, if_true, orRethrow_apply]
      by_cases hc : (mk.2.rename p (hostPath dk.path new.getName)).1 = true
      · simp only [hc, if_true]
        rfl
      · simp only [hc, Bool.false_eq_true, if_false]
    · simp only [hm, Bool.false_eq_true, if_false]

/-- The change has an effect on the host: the entry of extent 0 appears, disappears or gets a new
name. -/
def ChangesHost (old new : CpmDir) : Prop :=
  (¬ new.Used ∧ old.Used ∧ old.getExtNumber = 0) ∨
    (new.Used ∧ ¬ old.Used ∧ new.getExtNumber = 0) ∨
    (new.Used ∧ old.Used ∧ new.getName ≠ old.getName ∧ old.getExtNumber = 0 ∧
      new.getExtNumber = 0)

/-- **Every other change** concerns the directory alone. -/
lemma hostChange_skip (h : ¬ ChangesHost old new) (dk : Disk) :
    hostChange old new dk = .ok () dk := by
  unfold ChangesHost at h
  unfold hostChange
  by_cases hn : new.Used <;> by_cases ho : old.Used
  · by_cases hne : new.getName ≠ old.getName
    · by_cases h0 : old.getExtNumber = 0 ∧ new.getExtNumber = 0
      · exact absurd (.inr (.inr ⟨hn, ho, hne, h0⟩)) h
      · simp [hn, ho, hne, h0]
        rfl
    · simp [hn, ho, hne]
      rfl
  · by_cases h0 : new.getExtNumber = 0
    · exact absurd (.inr (.inl ⟨hn, ho, h0⟩)) h
    · simp [hn, ho, h0]
      rfl
  · by_cases h0 : old.getExtNumber = 0
    · exact absurd (.inl ⟨hn, ho, h0⟩) h
    · simp [hn, ho, h0]
      rfl
  · simp [hn, ho]
    rfl

/-- Changing the host leaves the directory as it is. -/
lemma hostChange_dir {a : Unit} (h : hostChange old new dk = .ok a dk') : dk'.dir = dk.dir := by
  by_cases hc : ChangesHost old new
  · rcases hc with ⟨hn, ho, h0⟩ | ⟨hn, ho, h0⟩ | ⟨hn, ho, hne, h0, h1⟩
    · rw [hostChange_delete hn ho h0] at h
      split at h
      · cases h
      · split at h <;> cases h
        rfl
    · rw [hostChange_create hn ho h0] at h
      simp only at h
      split at h
      · split at h <;> cases h
        rfl
      · cases h
    · rw [hostChange_rename hn ho hne h0 h1] at h
      split at h
      · cases h
      · simp only at h
        split at h
        · split at h <;> cases h
          rfl
        · cases h
  · rw [hostChange_skip hc] at h
    cases h
    rfl

/-- **What a change that succeeded did** to the files and the name map: nothing, or it removed,
created or renamed the file of the name. -/
inductive HostEffect (old new : CpmDir) (dk dk' : Disk) : Prop
  | skip (h : ¬ ChangesHost old new) (same : dk' = dk)
  | delete (p : Bytes) (hn : ¬ new.Used) (ho : old.Used) (h0 : old.getExtNumber = 0)
      (hp : dk.cpm2unix.lookup old.getName = some p)
      (names : dk'.cpm2unix = dk.cpm2unix.erase old.getName)
      (files : dk'.host.contents = Function.update dk.host.contents (normal p) none)
  | create (hn : new.Used) (ho : ¬ old.Used) (h0 : new.getExtNumber = 0)
      (names : dk'.cpm2unix =
        dk.cpm2unix.insert new.getName (hostPath dk.path new.getName))
      (files : dk'.host.contents = Function.update dk.host.contents
        (normal (hostPath dk.path new.getName)) (some []))
  | rename (p c : Bytes) (hn : new.Used) (ho : old.Used) (hne : new.getName ≠ old.getName)
      (h0 : old.getExtNumber = 0) (h1 : new.getExtNumber = 0)
      (hp : dk.cpm2unix.lookup old.getName = some p)
      (hc : dk.host.contents (normal p) = some c)
      (names : dk'.cpm2unix = (dk.cpm2unix.erase old.getName).insert new.getName
        (hostPath dk.path new.getName))
      (files : dk'.host.contents = Function.update
        (Function.update dk.host.contents (normal p) none)
        (normal (hostPath dk.path new.getName)) (some c))

/-- **A change that succeeded**, case by case. It leaves the cache alone.

**Proof sketch.** By the kind of the change. The result was no error, so every call of it succeeded
and had its effect. -/
theorem hostChange_effect (h : hostChange old new dk = .ok () dk') :
    HostEffect old new dk dk' ∧ dk'.cache = dk.cache := by
  by_cases hc : ChangesHost old new
  · rcases hc with ⟨hn, ho, h0⟩ | ⟨hn, ho, h0⟩ | ⟨hn, ho, hne, h0, h1⟩
    · rw [hostChange_delete hn ho h0] at h
      split at h
      · cases h
      · rename_i p hp
        split at h
        · rename_i hok
          cases h
          exact ⟨.delete p hn ho h0 hp rfl (Host.contents_remove hok).2, rfl⟩
        · cases h
    · rw [hostChange_create hn ho h0] at h
      simp only at h
      split at h
      · split at h
        · rename_i hok
          cases h
          refine ⟨.create hn ho h0 rfl ?_, rfl⟩
          rw [← Host.contents_createDirectories dk.host (hostDir dk.path new.st.toNat)]
          exact Host.contents_create hok
        · cases h
      · cases h
    · rw [hostChange_rename hn ho hne h0 h1] at h
      split at h
      · cases h
      · rename_i p hp
        simp only at h
        split at h
        · split at h
          · rename_i hok
            cases h
            obtain ⟨c, hc, hfiles⟩ := Host.contents_rename hok
            rw [Host.contents_createDirectories] at hc hfiles
            exact ⟨.rename p c hn ho hne h0 h1 hp hc rfl hfiles, rfl⟩
          · cases h
        · cases h
  · rw [hostChange_skip hc] at h
    cases h
    exact ⟨.skip hc rfl, rfl⟩

/-- **A change that failed** left the files and the name map as they were.

**Proof sketch.** By the kind of the change. The call that failed has no effect on the files, and
the directories that were created before it have none; the map is changed behind the call only. -/
lemma hostChange_failed {x : Fault} (h : hostChange old new dk = .error x dk') :
    dk'.host.contents = dk.host.contents ∧ dk'.cpm2unix = dk.cpm2unix := by
  by_cases hc : ChangesHost old new
  · rcases hc with ⟨hn, ho, h0⟩ | ⟨hn, ho, h0⟩ | ⟨hn, ho, hne, h0, h1⟩
    · rw [hostChange_delete hn ho h0] at h
      split at h
      · cases h
        exact ⟨rfl, rfl⟩
      · split at h
        · cases h
        · rename_i hfail
          cases h
          exact ⟨Host.contents_attempt (Bool.eq_false_iff.mpr hfail), rfl⟩
    · rw [hostChange_create hn ho h0] at h
      simp only at h
      split at h
      · split at h
        · cases h
        · rename_i hfail
          cases h
          refine ⟨?_, rfl⟩
          rw [← Host.contents_createDirectories dk.host (hostDir dk.path new.st.toNat)]
          exact Host.contents_attempt (Bool.eq_false_iff.mpr hfail)
      · cases h
        exact ⟨Host.contents_createDirectories .., rfl⟩
    · rw [hostChange_rename hn ho hne h0 h1] at h
      split at h
      · cases h
        exact ⟨rfl, rfl⟩
      · simp only at h
        split at h
        · split at h
          · cases h
          · rename_i hfail
            cases h
            refine ⟨?_, rfl⟩
            rw [← Host.contents_createDirectories dk.host (hostDir dk.path new.st.toNat)]
            exact Host.contents_attempt (Bool.eq_false_iff.mpr hfail)
        · cases h
          exact ⟨Host.contents_createDirectories .., rfl⟩
  · rw [hostChange_skip hc] at h
    cases h

/-- The entries of a sector are in different slots. -/
lemma slot_ne {extno : ℕ} {idx i : Fin 4} {idxs : List (Fin 4)} (h : idx ∉ idxs) (hi : i ∈ idxs) :
    extno + idx.val ≠ extno + i.val := fun heq =>
  h (Fin.ext (by omega : idx.val = i.val) ▸ hi)

/-- Replacing an entry that is not there. -/
lemma writeEntry_of_none {n : ℕ} (h : dk.dir[n]? = none) :
    writeEntry n new dk = .error .outOfRange dk := by
  have hat : dirAt n dk = .error .outOfRange dk := by simp only [dirAt, h]
  rw [writeEntry, Exc.bind_of_error hat]

/-- Replacing an entry by an equal one does nothing. -/
lemma writeEntry_of_eq {n : ℕ} (h : dk.dir[n]? = some old) (heq : old.eq new = true) :
    writeEntry n new dk = .ok () dk := by
  have hat : dirAt n dk = .ok old dk := by simp only [dirAt, h]
  rw [writeEntry, Exc.bind_of_ok hat, if_pos heq]
  rfl

/-- Replacing an entry by a different one changes the host first, then the directory. -/
lemma writeEntry_of_ne {n : ℕ} (h : dk.dir[n]? = some old) (hne : old.eq new ≠ true) :
    writeEntry n new dk = (hostChange old new >>= fun _ => setDir n new) dk := by
  have hat : dirAt n dk = .ok old dk := by simp only [dirAt, h]
  rw [writeEntry, Exc.bind_of_ok hat, if_neg hne]

/-! ## Flushing one sector -/

/-- At most one entry of the directory lists the block of a sector. -/
def OneLister (d : Dpb) (dir : List CpmDir) (sid : ℕ) : Prop :=
  dir.Pairwise fun e f => ¬ (e.Lists d sid ∧ f.Lists d sid)

/-- Distinct pointers leave at most one entry for each block but block 0. -/
lemma DistinctPointers.oneLister {d : Dpb} {dir : List CpmDir} (h : DistinctPointers d dir)
    {sid : ℕ} (hs : sid >>> d.bsh ≠ 0) : OneLister d dir sid := by
  refine List.pairwise_iff_getElem.mpr fun i j hi hj hij => ?_
  rintro ⟨he, hf⟩
  obtain ⟨hue, b, hb, hpb⟩ := CpmDir.lists_iff.mp he
  obtain ⟨huf, c, hc, hpc⟩ := CpmDir.lists_iff.mp hf
  have := h i j _ _ b c (List.getElem?_eq_getElem hi) (List.getElem?_eq_getElem hj) hue huf hb hc
    (hpb.trans hpc.symm) (by rw [hpb]; exact hs)
  omega

/-- The entry that lists the block of a sector. -/
def owner (d : Dpb) (dir : List CpmDir) (sid : ℕ) : Option CpmDir :=
  dir.find? fun e => e.Lists d sid

/-- What an owner is. -/
lemma owner_some {d : Dpb} {dir : List CpmDir} {sid : ℕ} {e : CpmDir}
    (h : owner d dir sid = some e) : e ∈ dir ∧ e.Lists d sid :=
  ⟨List.mem_of_find?_eq_some h, by simpa using List.find?_some h⟩

/-- Without an owner no entry lists the block. -/
lemma owner_none {d : Dpb} {dir : List CpmDir} {sid : ℕ} :
    owner d dir sid = none ↔ ∀ e ∈ dir, ¬ e.Lists d sid := by
  simp [owner]

/-- An entry that lists the block is the owner, if there is at most one. -/
lemma OneLister.owner_eq {d : Dpb} {dir : List CpmDir} {sid : ℕ} (h : OneLister d dir sid)
    {e : CpmDir} (he : e ∈ dir) (hl : e.Lists d sid) : owner d dir sid = some e := by
  induction dir with
  | nil => simp at he
  | cons f dir ih =>
    rw [OneLister, List.pairwise_cons] at h
    rcases List.mem_cons.mp he with rfl | he
    · simp [owner, hl]
    · have hf : ¬ f.Lists d sid := fun hf => h.1 e he ⟨hf, hl⟩
      have := ih h.2 he
      simpa [owner, hf] using this

/-- The disk after a cached sector was written to the file of the entry that lists it. -/
def flushed (dk : Disk) (sid : ℕ) (data : Sector) (e : CpmDir) (p : Bytes) : Disk :=
  { dk with
    host := (dk.host.write p (fileOffset dk.dpb
      (e.findBlockIndex (sid >>> dk.dpb.bsh) dk.dpb.blockPtrType) sid) (bytes data)).2
    cache := dk.cache.erase sid }

/-- A sector that is flushed is written once. -/
lemma flushed_calls (dk : Disk) (sid : ℕ) (data : Sector) (e : CpmDir) (p : Bytes) :
    let pos := fileOffset dk.dpb (e.findBlockIndex (sid >>> dk.dpb.bsh) dk.dpb.blockPtrType) sid
    (dk.flushed sid data e p).host.calls = dk.host.calls ++
      [⟨.write p pos (bytes data), (dk.host.write p pos (bytes data)).1⟩] :=
  Host.attempt_calls ..

/-- Entries that do not list the block are passed over. -/
lemma flushSector_skip {sid : ℕ} {data : Sector} {es : List CpmDir} :
    ∀ {live : Bool} {dk : Disk}, (∀ e ∈ es, ¬ e.Lists dk.dpb sid) →
      flushSector sid data live es dk = .ok () dk := by
  induction es with
  | nil => exact fun _ => rfl
  | cons e es ih =>
    intro live dk h
    have he : ¬ (e.Used ∧ e.findBlockIndex (sid >>> dk.dpb.bsh) dk.dpb.blockPtrType ≠ 0) :=
      h e (by simp)
    rw [flushSector, Exc.get_bind, if_neg he]
    exact ih fun f hf => h f (by simp [hf])

/-- **One cached sector of `Flush`**: it stays if no entry lists its block; otherwise it is
written to the owner's file and leaves the cache, unless the owner's name has no host file.

**Proof sketch.** Induction on the directory. The first entry that lists the block is the owner and
writes the sector; behind it the loop is skipped, since no other entry lists the block. -/
theorem flushSector_eq {sid : ℕ} {data : Sector} {dk : Disk} {es : List CpmDir}
    (h1 : OneLister dk.dpb es sid) :
    flushSector sid data true es dk = match owner dk.dpb es sid with
      | none => .ok () dk
      | some e => match dk.cpm2unix.lookup e.getName with
        | none => .error .outOfRange dk
        | some p => .ok () (dk.flushed sid data e p) := by
  induction es with
  | nil => rfl
  | cons e es ih =>
    rw [OneLister, List.pairwise_cons] at h1
    rw [flushSector, Exc.get_bind]
    by_cases he : e.Used ∧ e.findBlockIndex (sid >>> dk.dpb.bsh) dk.dpb.blockPtrType ≠ 0
    · have howner : owner dk.dpb (e :: es) sid = some e := by
        simp [owner, show e.Lists dk.dpb sid from he]
      rw [if_pos he, howner]
      simp only
      cases hl : dk.cpm2unix.lookup e.getName with
      | none => rw [Exc.bind_of_error (unixAt_of_none hl)]
      | some p =>
        rw [Exc.bind_of_ok (unixAt_of_some hl)]
        -- the rest of the directory does not list the block again
        have hskip : ∀ f ∈ es, ¬ f.Lists (dk.flushed sid data e p).dpb sid :=
          fun f hf hlf => h1.1 f hf ⟨he, hlf⟩
        exact flushSector_skip hskip
    · have howner : owner dk.dpb (e :: es) sid = owner dk.dpb es sid := by
        simp [owner, show ¬ e.Lists dk.dpb sid from he]
      rw [if_neg he, howner]
      exact ih h1.2

/-- One round of `Flush`. -/
lemma flushOne_apply (sid : ℕ) (dk : Disk) :
    flushOne sid dk = match dk.cache.lookup sid with
      | some data => flushSector sid data true dk.dir dk
      | none => .ok () dk := by
  rw [flushOne, Exc.get_bind]
  cases dk.cache.lookup sid <;> rfl

/-- `Flush` visits the cached sectors. -/
lemma flush_apply (dk : Disk) :
    flush dk = (flushAll dk.cached >>= fun _ => pure 0) dk := rfl

/-- The sectors `Flush` visits are the cached ones. -/
lemma mem_cached {dk : Disk} {sid : ℕ} : sid ∈ dk.cached ↔ sid ∈ dk.cache := by
  simp [cached, AList.mem_keys]

/-! ## Reading one sector -/

/-- Entries that do not list the block are not asked. -/
lemma readSector_skip {sid : ℕ} {es : List CpmDir} {dma : Sector} {dk : Disk}
    (h : ∀ e ∈ es, ¬ e.Lists dk.dpb sid) : readSector sid es dma dk = .ok dma dk := by
  induction es with
  | nil => rfl
  | cons e es ih =>
    have he : ¬ (e.Used ∧ e.findBlockIndex (sid >>> dk.dpb.bsh) dk.dpb.blockPtrType ≠ 0) :=
      h e (by simp)
    rw [readSector, Exc.get_bind, if_neg he]
    exact ih fun f hf => h f (by simp [hf])

/-- A sector has 128 bytes. -/
@[simp]
lemma length_bytes (d : Sector) : (bytes d).length = 128 := List.length_ofFn

/-- Reading from the host. -/
lemma readHost_apply (p : Bytes) (pos : ℕ) (dma : Sector) (dk : Disk) :
    readHost p pos dma dk = .ok
      (match (dk.host.read p pos).1 with
        | some bs => (true, overlay dma (bs.take 128))
        | none => (false, dma)) { dk with host := (dk.host.read p pos).2 } := by
  simp only [readHost, onHost, Exc.bind_apply]
  cases (dk.host.read p pos).1 <;> rfl

/-- **A sector that is not cached**: the owner's file is read at the sector's place.

**Proof sketch.** Induction on the directory. The first entry that lists the block is the owner,
whose file is read; behind it the loop is skipped, since no other entry lists the block. -/
theorem readSector_eq {sid : ℕ} {dma : Sector} {dk : Disk} {es : List CpmDir}
    (h1 : OneLister dk.dpb es sid) :
    readSector sid es dma dk = match owner dk.dpb es sid with
      | none => .ok dma dk
      | some e =>
        let r := dk.host.read ((dk.cpm2unix.lookup e.getName).getD []) (fileOffset dk.dpb
          (e.findBlockIndex (sid >>> dk.dpb.bsh) dk.dpb.blockPtrType) sid)
        .ok (match r.1 with
          | some bs => overlay dma (bs.take 128)
          | none => dma) { dk with host := r.2 } := by
  induction es with
  | nil => rfl
  | cons e es ih =>
    rw [OneLister, List.pairwise_cons] at h1
    rw [readSector, Exc.get_bind]
    by_cases he : e.Used ∧ e.findBlockIndex (sid >>> dk.dpb.bsh) dk.dpb.blockPtrType ≠ 0
    · have howner : owner dk.dpb (e :: es) sid = some e := by
        simp [owner, show e.Lists dk.dpb sid from he]
      rw [if_pos he, howner, Exc.bind_of_ok (readHost_apply _ _ _ _)]
      simp only
      generalize dk.host.read _ _ = r
      obtain ⟨bs, h⟩ := r
      have hskip : ∀ f ∈ es, ¬ f.Lists ({ dk with host := h } : Disk).dpb sid :=
        fun f hf hlf => h1.1 f hf ⟨he, hlf⟩
      exact (readSector_skip hskip).trans (by cases bs <;> rfl)
    · have howner : owner dk.dpb (e :: es) sid = owner dk.dpb es sid := by
        simp [owner, show ¬ e.Lists dk.dpb sid from he]
      rw [if_neg he, howner]
      exact ih h1.2

/-! ## Addresses -/

section Address

variable {track sector a : ℕ} {dma : Sector}

/-- `GetAbsSector` as a step. -/
lemma absSector_of_some (h : dk.getAbsSector track sector = some a) :
    absSector track sector dk = .ok a dk := by
  simp only [absSector, h]

/-- `GetAbsSector` outside the retranslation table. -/
lemma absSector_of_none (h : dk.getAbsSector track sector = none) :
    absSector track sector dk = .error .badIndex dk := by
  simp only [absSector, h]

/-- `Write` outside the retranslation table does not return. -/
lemma write_badIndex (h : dk.getAbsSector track sector = none) :
    write track sector dma dk = .error .badIndex dk := by
  rw [write, Exc.bind_of_error (absSector_of_none h)]

/-- `Read` outside the retranslation table does not return. -/
lemma read_badIndex (h : dk.getAbsSector track sector = none) :
    read track sector dma dk = .error .badIndex dk := by
  rw [read, Exc.bind_of_error (absSector_of_none h)]

/-- `Write` by address. -/
lemma write_apply (h : dk.getAbsSector track sector = some a) :
    write track sector dma dk =
      if a < dk.dirstart then
        (do if ← writeHost dk.bootblock (a <<< 7) dma then pure 0 else throw .rethrow : DiskM ℕ) dk
      else if a - dk.dirstart < dk.datastart then writeDir (a - dk.dirstart) dma dk
      else .ok 0 { dk with cache := dk.cache.insert (a - dk.dirstart) dma } := by
  rw [write, Exc.bind_of_ok (absSector_of_some h), Exc.get_bind]
  by_cases h1 : a < dk.dirstart
  · simp only [h1, if_true]
  · by_cases h2 : a - dk.dirstart < dk.datastart
    · simp only [h1, h2, if_true, if_false]
    · simp only [h1, h2, if_false]
      rfl

/-- `Write` of a data sector. -/
lemma write_data {sid : ℕ} (h : dk.getAbsSector track sector = some (sid + dk.dirstart))
    (hd : dk.datastart ≤ sid) :
    write track sector dma dk = .ok 0 { dk with cache := dk.cache.insert sid dma } := by
  rw [write_apply h, if_neg (Nat.not_lt.mpr (Nat.le_add_left _ _)), Nat.add_sub_cancel,
    if_neg (Nat.not_lt.mpr hd)]

/-- `Write` of a directory sector. -/
lemma write_dir {sid : ℕ} (h : dk.getAbsSector track sector = some (sid + dk.dirstart))
    (hd : sid < dk.datastart) : write track sector dma dk = writeDir sid dma dk := by
  rw [write_apply h, if_neg (Nat.not_lt.mpr (Nat.le_add_left _ _)), Nat.add_sub_cancel, if_pos hd]

/-- **What a `Write` that returned has done**: it has written a sector of the system file, written
the entries of a directory sector and the cache, or entered a data sector into the cache.

**Proof sketch.** By the branches of the source. Writing to the system file returned, so that the
host call succeeded; a directory sector is `writeDir`, and a data sector enters the cache. -/
theorem write_ok {r : ℕ} (h : write track sector dma dk = .ok r dk') :
    ∃ a, dk.getAbsSector track sector = some a ∧
      ((a < dk.dirstart ∧ (dk.host.write dk.bootblock (a <<< 7) (bytes dma)).1 = true ∧
          dk' = { dk with host := (dk.host.write dk.bootblock (a <<< 7) (bytes dma)).2 }) ∨
        (dk.dirstart ≤ a ∧ a - dk.dirstart < dk.datastart ∧
          writeDir (a - dk.dirstart) dma dk = .ok r dk') ∨
        (dk.dirstart ≤ a ∧ dk.datastart ≤ a - dk.dirstart ∧
          dk' = { dk with cache := dk.cache.insert (a - dk.dirstart) dma })) := by
  cases ha : dk.getAbsSector track sector with
  | none =>
    rw [write_badIndex ha] at h
    cases h
  | some a =>
    refine ⟨a, rfl, ?_⟩
    rw [write_apply ha] at h
    split at h
    · rename_i h1
      obtain ⟨ok, dk₁, hb, hrest⟩ := Exc.bind_ok.mp h
      cases hb
      split at hrest
      · rename_i hok
        cases hrest
        exact .inl ⟨h1, hok, rfl⟩
      · cases hrest
    · rename_i h1
      split at h
      · rename_i h2
        exact .inr (.inl ⟨Nat.not_lt.mp h1, h2, h⟩)
      · rename_i h2
        cases h
        exact .inr (.inr ⟨Nat.not_lt.mp h1, Nat.not_lt.mp h2, rfl⟩)

/-- `Read` of a data sector. -/
lemma read_data {sid : ℕ} (h : dk.getAbsSector track sector = some (sid + dk.dirstart))
    (hd : dk.datastart ≤ sid) :
    read track sector dma dk = match dk.cache.lookup sid with
      | some d => .ok (0, d) dk
      | none => (readSector sid dk.dir dma >>= fun d => pure (0, d)) dk := by
  rw [read, Exc.bind_of_ok (absSector_of_some h), Exc.get_bind,
    if_neg (Nat.not_lt.mpr (Nat.le_add_left _ _)), Nat.add_sub_cancel, if_neg (Nat.not_lt.mpr hd),
    readData]
  rw [Exc.bind_apply, Exc.get_bind]
  cases dk.cache.lookup sid <;> rfl

/-- `Read` of a directory sector. -/
lemma read_dir {sid : ℕ} (h : dk.getAbsSector track sector = some (sid + dk.dirstart))
    (hd : sid < dk.datastart) :
    read track sector dma dk = (readDir sid >>= fun d => pure (0, d)) dk := by
  rw [read, Exc.bind_of_ok (absSector_of_some h), Exc.get_bind,
    if_neg (Nat.not_lt.mpr (Nat.le_add_left _ _)), Nat.add_sub_cancel, if_pos hd]

/-- `Read` of a sector on a reserved track. -/
lemma read_system (h : dk.getAbsSector track sector = some a) (h1 : a < dk.dirstart) :
    read track sector dma dk =
      let r := dk.host.read dk.bootblock (a <<< 7)
      match r.1 with
      | some bs => .ok (0, overlay dma (bs.take 128)) { dk with host := r.2 }
      | none => .error .rethrow { dk with host := r.2 } := by
  rw [read, Exc.bind_of_ok (absSector_of_some h), Exc.get_bind]
  simp only [h1, if_true]
  rw [Exc.bind_of_ok (readHost_apply _ _ _ _)]
  cases (dk.host.read dk.bootblock (a <<< 7)).1 <;> rfl

end Address

end Disk

end Cpm22
