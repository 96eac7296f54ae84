import Cpm22.Disk.Frame
import Cpm22.Disk.Offset

set_option relaxedAutoImplicit false
set_option autoImplicit false

/-!
# Growing a file

`disk::Write` infers from the change of one directory slot whether a host file is created, removed
or renamed: it does so if the extent number of the entry is zero. The number keeps one bit of `Xh`
only, so a logical extent 64, 128, … counts as extent 0 too: adding it truncates the host file.

## Main definitions

* `Cpm22.CpmDir.Below64` — a BDOS entry with a logical extent below 64.
* `Cpm22.Disk.Justified` — a call that creates, removes or renames has its reason in the change of
  an entry of logical extent 0.
* `Cpm22.Disk.KeepsStored` — no byte of a file changes but those of sectors that were cached.
* `Cpm22.Disk.GrowthLaw` — the law for one `Write`; `Cpm22.Disk.GrowsSafely` is the law for a run.

## Main results

* `Cpm22.Disk.growsSafely` — the law holds along every run with logical extents below 64.
* `Cpm22.Disk.growth_truncates` — a file that grows to logical extent 64.
-/

namespace Cpm22

open HostPath HostFs

/-- The entry has BDOS numbering and a logical extent below 64. -/
def CpmDir.Below64 (e : CpmDir) : Prop := e.BdosNumbered ∧ e.logicalExtent < 64

instance (e : CpmDir) : Decidable e.Below64 := inferInstanceAs (Decidable (_ ∧ _))

/-- Below extent 64 the extent number is zero exactly for logical extent 0. -/
lemma CpmDir.Below64.zero_iff {e : CpmDir} (h : e.Below64) :
    e.getExtNumber = 0 ↔ e.logicalExtent = 0 := by
  obtain ⟨⟨h1, h2⟩, h3⟩ := h
  simp only [logicalExtent, getExtNumber_eq] at *
  omega

/-- Below extent 64 different logical extents have different extent numbers. -/
lemma CpmDir.Below64.inj {e f : CpmDir} (he : e.Below64) (hf : f.Below64)
    (h : e.getExtNumber = f.getExtNumber) : e.logicalExtent = f.logicalExtent := by
  obtain ⟨⟨h1, h2⟩, h3⟩ := he
  obtain ⟨⟨h4, h5⟩, h6⟩ := hf
  simp only [logicalExtent, getExtNumber_eq] at *
  omega

namespace Disk

/-! ## The law -/

/-- **The reason of a call**: a file is created only when an unused slot becomes the entry of
logical extent 0, removed only when the entry of logical extent 0 becomes unused, and renamed only
when the entry of logical extent 0 gets a new name. -/
def Justified (dk : Disk) (track sector : ℕ) (dma : Sector) : Call → Prop
  | .create p => ∃ old new, SlotChange dk track sector dma old new ∧ ¬ old.Used ∧ new.Used ∧
      new.logicalExtent = 0 ∧ p = hostPath dk.path new.getName
  | .remove _ => ∃ old new, SlotChange dk track sector dma old new ∧ old.Used ∧ ¬ new.Used ∧
      old.logicalExtent = 0
  | .rename _ q => ∃ old new, SlotChange dk track sector dma old new ∧ old.Used ∧ new.Used ∧
      old.logicalExtent = 0 ∧ new.getName ≠ old.getName ∧ q = hostPath dk.path new.getName
  | _ => True

/-- The byte at position `j` of the file at `n` belongs to a cached sector that an entry of `dir`
owns. -/
def Rewritten (dk : Disk) (dir : List CpmDir) (n : NPath) (j : ℕ) : Prop :=
  ∃ e ∈ dir, ∃ b s sid p, Owns dk.dpb e b s sid ∧ sid ∈ dk.cache ∧
    dk.cpm2unix.lookup e.getName = some p ∧ normal p = n ∧
    place dk.dpb e.getExtNumber b s ≤ j ∧ j < place dk.dpb e.getExtNumber b s + 128

/-- **Every file is still there, with every byte** that does not belong to a cached sector of one of
its entries. -/
def KeepsStored (dk dk' : Disk) : Prop :=
  ∀ n old, dk.host.node n = some (.file old) → ∃ new, dk'.host.node n = some (.file new) ∧
    ∀ j x, old[j]? = some x → new[j]? = some x ∨ Rewritten dk dk'.dir n j

/-- The sector is a directory sector, and it only adds, erases or changes entries with a logical
extent above 0. -/
def HigherOnly (dk : Disk) (track sector : ℕ) (dma : Sector) : Prop :=
  (∃ a, dk.getAbsSector track sector = some a ∧ dk.dirstart ≤ a ∧
    a - dk.dirstart < dk.datastart) ∧
  ∀ old new, SlotChange dk track sector dma old new → old.eq new = false →
    (old.Used → old.logicalExtent ≠ 0) ∧ (new.Used → new.logicalExtent ≠ 0)

/-- **The growth law for one `Write`.** -/
def GrowthLaw (dk : Disk) (track sector : ℕ) (dma : Sector) : Prop :=
  (∃ evs, (Exc.final (write track sector dma dk)).host.calls = dk.host.calls ++ evs ∧
    ∀ ev ∈ evs, Justified dk track sector dma ev.call) ∧
  (HigherOnly dk track sector dma → KeepsStored dk (Exc.final (write track sector dma dk)))

/-- **The growth law for a run**: it holds for every `Write`, and in every state different records
of a file have different places. -/
def GrowsSafely : List (ℕ × ℕ × Sector) → Disk → Prop
  | [], dk => NoSharing dk
  | (track, sector, dma) :: ws, dk => NoSharing dk ∧ GrowthLaw dk track sector dma ∧
      ∀ res dk', write track sector dma dk = .ok res dk' → GrowsSafely ws dk'

/-- The directory of a guest that numbers its extents: distinct pointers, and no logical extent of
a file twice. -/
def Orderly (dk : Disk) : Prop :=
  DistinctPointers dk.dpb dk.dir ∧
    ∀ (i j : ℕ) (e f : CpmDir), dk.dir[i]? = some e → dk.dir[j]? = some f → e.Used → f.Used →
      e.getName = f.getName → e.logicalExtent = f.logicalExtent → i = j

/-- **A run that stays below extent 64**: every directory on the way is orderly, and every used
entry that is written has a logical extent below 64. -/
def RunBelow64 : List (ℕ × ℕ × Sector) → Disk → Prop
  | [], dk => Orderly dk
  | (track, sector, dma) :: ws, dk => Orderly dk ∧
      (∀ old new, SlotChange dk track sector dma old new → new.Used → new.Below64) ∧
      ∀ res dk', write track sector dma dk = .ok res dk' → RunBelow64 ws dk'

variable {g : Geometry} {dk : Disk} {track sector : ℕ} {dma : Sector}

/-! ## Calls -/

/-- Below extent 64 every call has its reason. -/
lemma permits_justified (hdir : ∀ e ∈ dk.dir, e.Used → e.Below64) {old new : CpmDir}
    (hs : SlotChange dk track sector dma old new) (hnew : new.Used → new.Below64) :
    Permits dk.path (Justified dk track sector dma) (fun _ => True) old new := by
  have hold : old.Used → old.Below64 := by
    obtain ⟨a, idx, -, -, -, hat, -⟩ := hs
    exact hdir old (List.mem_of_getElem? hat)
  refine ⟨?_, fun _ => trivial, fun _ => trivial, ?_, ?_⟩
  · intro hn ho h0 p _
    exact ⟨old, new, hs, ho, hn, (hold ho).zero_iff.mp h0⟩
  · intro hm ho
    exact ⟨old, new, hs, ho, hm.1, (hnew hm.1).zero_iff.mp hm.2.1, rfl⟩
  · intro hm ho p _
    obtain ⟨hne, h0⟩ := hm.2.2.resolve_left fun h => h ho
    exact ⟨old, new, hs, ho, hm.1, (hold ho).zero_iff.mp h0, hne, rfl⟩

/-! ## Bytes -/

/-- What `Flush` may do to the files, from the disk `dk` on. -/
structure FlushKeeps (dk dk' : Disk) : Prop extends FlushFrame dk dk' where
  cache : ∀ sid, sid ∈ dk'.cache → sid ∈ dk.cache
  bytes : ∀ n old, dk.host.node n = some (.file old) → ∃ new, dk'.host.node n = some (.file new) ∧
    ∀ j x, old[j]? = some x → new[j]? = some x ∨ Rewritten dk dk.dir n j

/-- A cached sector that is written to its owner's file changes no other bytes.

**Proof sketch.** The write is at the place of the sector in its owner's file. A byte of that file
outside these 128 bytes stays, one inside is rewritten, and no other file is touched. -/
lemma FlushKeeps.write (hg : g.Regular) (hdpb : dk.dpb = g.dpb) {dk' : Disk}
    (h : FlushKeeps dk dk') {sid : ℕ} (hsid : sid ∈ dk.cache) {e : CpmDir} (he : e ∈ dk.dir)
    (hl : e.Lists dk.dpb sid) {p : Bytes} (hp : dk.cpm2unix.lookup e.getName = some p)
    (data : Sector) :
    FlushKeeps dk { dk' with host := (dk'.host.write p (fileOffset dk'.dpb
      (e.findBlockIndex (sid >>> dk'.dpb.bsh) dk'.dpb.blockPtrType) sid)
      (Disk.bytes data)).2 } := by
  refine ⟨h.toFlushFrame.trans ⟨⟨rfl, rfl, rfl, rfl, rfl, rfl⟩, rfl, rfl⟩, h.cache, ?_⟩
  intro n c hn
  obtain ⟨c', hc', hkeep⟩ := h.bytes n c hn
  rw [hdpb] at hl
  obtain ⟨b, ho, hoff⟩ := fileOffset_of_lists hg hl
  rw [h.dpb, hdpb, hoff]
  set pos := place g.dpb e.getExtNumber b (sid % 2 ^ g.dpb.bsh) with hpos
  unfold Host.write
  rcases Host.attempt_cases dk'.host (.write p pos (Disk.bytes data))
    (dk'.host.writeEffect p pos (Disk.bytes data)) with ⟨-, node, heff, hst⟩ | ⟨-, hst⟩
  · rw [hst]
    unfold Host.writeEffect at heff
    split at heff
    · rename_i c₁ hfind
      cases heff
      by_cases hnp : n = normal p
      · subst hnp
        have hc₁ : c₁ = c' := by
          unfold Host.find at hfind
          split at hfind
          · cases hfind
          · rw [hc'] at hfind
            exact (Node.file.inj (Option.some.inj hfind)).symm
        subst hc₁
        refine ⟨_, Function.update_self .., fun j x hx => ?_⟩
        rcases hkeep j x hx with hk | hk
        · by_cases hj : j < pos ∨ pos + 128 ≤ j
          · refine .inl (getElem?_writeAt_of_ne _ _ _ ?_ hk)
            rwa [length_bytes]
          · refine .inr ⟨e, he, b, _, sid, p, by rw [hdpb]; exact ho, hsid, hp, rfl, ?_⟩
            rw [hdpb, ← hpos]
            omega
        · exact .inr hk
      · exact ⟨c', (Function.update_of_ne hnp _ _).trans hc', hkeep⟩
    · cases heff
  · rw [hst]
    exact ⟨c', hc', hkeep⟩

/-- The inner loop of `Flush`.

**Proof sketch.** Induction on the directory. An entry that does not list the block is passed, and
one that does writes the sector (`FlushKeeps.write`), after which the cache is smaller and the
buffer is gone. -/
lemma keeps_flushSector (hg : g.Regular) (hdpb : dk.dpb = g.dpb) {sid : ℕ} (hsid : sid ∈ dk.cache)
    (data : Sector) (es : List CpmDir) : (∀ e ∈ es, e ∈ dk.dir) → ∀ live,
    Exc.Triple (FlushKeeps dk) (flushSector sid data live es) (fun _ => FlushKeeps dk)
      (FlushKeeps dk) := by
  induction es with
  | nil => exact fun _ _ => .pure fun _ h => h
  | cons e es ih =>
    intro hes live
    have hrest := ih fun f hf => hes f (by simp [hf])
    intro dk₁ h
    rw [flushSector, Exc.get_bind]
    by_cases hl : e.Used ∧ e.findBlockIndex (sid >>> dk₁.dpb.bsh) dk₁.dpb.blockPtrType ≠ 0
    · rw [if_pos hl]
      cases hp : dk₁.cpm2unix.lookup e.getName with
      | none =>
        rw [Exc.bind_of_error (unixAt_of_none hp)]
        exact h
      | some p =>
        rw [Exc.bind_of_ok (unixAt_of_some hp)]
        cases live with
        | false => exact h
        | true =>
          rw [h.cpm2unix] at hp
          rw [h.dpb] at hl
          have hw := h.write hg hdpb hsid (hes e (by simp)) hl hp data
          -- the sector leaves the cache
          refine hrest false { dk₁ with host := _, cache := dk₁.cache.erase sid } ⟨?_, ?_, hw.bytes⟩
          · exact hw.toFlushFrame.trans ⟨⟨rfl, rfl, rfl, rfl, rfl, rfl⟩, rfl, rfl⟩
          · exact fun x hx => h.cache x (AList.mem_erase.mp hx).2
    · rw [if_neg hl]
      exact hrest live dk₁ h

/-- **`Flush` changes only bytes of cached sectors.**

**Proof sketch.** Induction on the keys of the cache, with the inner loop by `keeps_flushSector`.
-/
lemma keeps_flush (hg : g.Regular) (hdpb : dk.dpb = g.dpb) :
    FlushKeeps dk (Exc.final (flush dk)) := by
  have hall : ∀ sids, Exc.Triple (FlushKeeps dk) (flushAll sids) (fun _ => FlushKeeps dk)
      (FlushKeeps dk) := by
    intro sids
    induction sids with
    | nil => exact .pure fun _ h => h
    | cons sid sids ih =>
      refine .bind ?_ fun _ => ih
      intro dk₁ h
      rw [flushOne_apply]
      cases hl : dk₁.cache.lookup sid with
      | none => exact h
      | some data =>
        have hsid : sid ∈ dk₁.cache := AList.lookup_isSome.mp (by rw [hl]; rfl)
        rw [h.dir]
        exact keeps_flushSector hg hdpb (h.cache sid hsid) data dk.dir (fun _ he => he) true dk₁ h
  have hstart : FlushKeeps dk dk :=
    ⟨FlushFrame.refl dk, fun _ h => h, fun n c hc => ⟨c, hc, fun _ _ hx => .inl hx⟩⟩
  have hflush : Exc.Triple (FlushKeeps dk) (flushAll dk.cached >>= fun _ => pure 0 : DiskM ℕ)
      (fun _ => FlushKeeps dk) (FlushKeeps dk) := .bind (hall _) fun _ => .pure fun _ h => h
  rw [flush_apply]
  exact hflush.final hstart

/-- Entries without an effect on the host leave the host and the name map alone.

**Proof sketch.** Induction on the slots. An entry that compares equal is passed; another one is
put into its slot, and by the hypothesis its change does nothing on the host. The later slots are
other ones. -/
lemma host_of_writeEntries {extno : ℕ} : ∀ {idxs : List (Fin 4)} {dk : Disk}, idxs.Nodup →
    (∀ idx ∈ idxs, ∀ old, dk.dir[extno + idx.val]? = some old → old.eq (entryOf dma idx) = false →
      ¬ ChangesHost old (entryOf dma idx)) →
    let dk' := Exc.final (writeEntries extno dma idxs dk)
    dk'.host = dk.host ∧ dk'.cpm2unix = dk.cpm2unix ∧ dk'.cache = dk.cache := by
  intro idxs
  induction idxs with
  | nil => exact fun _ _ => ⟨rfl, rfl, rfl⟩
  | cons idx idxs ih =>
    intro dk hnd hskip
    rw [List.nodup_cons] at hnd
    rw [writeEntries, Exc.bind_apply]
    cases hold : dk.dir[extno + idx.val]? with
    | none =>
      rw [writeEntry_of_none hold]
      exact ⟨rfl, rfl, rfl⟩
    | some old =>
      by_cases heq : old.eq (entryOf dma idx) = true
      · rw [writeEntry_of_eq hold heq]
        exact ih hnd.2 fun i hi => hskip i (by simp [hi])
      · rw [writeEntry_of_ne hold heq,
          Exc.bind_of_ok (hostChange_skip (hskip idx (by simp) old hold (by simpa using heq)) dk)]
        refine @ih { dk with dir := dk.dir.set (extno + idx) (entryOf dma idx) } hnd.2
          fun i hi old' hold' => ?_
        simp only [List.getElem?_set_ne (slot_ne hnd.1 hi)] at hold'
        exact hskip i (by simp [hi]) old' hold'

/-! ## One step -/

/-- Below extent 64 a change of higher extents has no effect on the host. -/
lemma not_changesHost {old new : CpmDir} (ho : old.Used → old.Below64 ∧ old.logicalExtent ≠ 0)
    (hn : new.Used → new.Below64 ∧ new.logicalExtent ≠ 0) : ¬ ChangesHost old new := by
  rintro (⟨-, h, h0⟩ | ⟨h, -, h0⟩ | ⟨-, h, -, h0, -⟩)
  · exact (ho h).2 ((ho h).1.zero_iff.mp h0)
  · exact (hn h).2 ((hn h).1.zero_iff.mp h0)
  · exact (ho h).2 ((ho h).1.zero_iff.mp h0)

/-- **The growth law for one `Write`** with logical extents below 64.

**Proof sketch.** The calls are permitted by `permits_justified`. A write that has no effect on the
host changes its files only in `Flush`, which rewrites the places of cached sectors
(`keeps_flush`). -/
lemma growthLaw_of_below64 (hg : g.Regular) (hdpb : dk.dpb = g.dpb)
    (hdir : ∀ e ∈ dk.dir, e.Used → e.Below64)
    (hnew : ∀ old new, SlotChange dk track sector dma old new → new.Used → new.Below64) :
    GrowthLaw dk track sector dma := by
  constructor
  · have hstart : Logged dk.path (Justified dk track sector dma) (fun _ => True) dk.host.calls dk :=
      ⟨rfl, fun _ _ _ => trivial, [], (List.append_nil _).symm, by simp⟩
    exact ((logged_write (fun _ _ _ => trivial)).final
      ⟨hstart, fun old new hs _ => permits_justified hdir hs (hnew old new hs)⟩).calls
  · rintro ⟨⟨a, ha, hsys, hsec⟩, hhigh⟩
    rw [write_apply ha, if_neg (Nat.not_lt.mpr hsys), if_pos hsec, writeDir, Exc.bind_apply]
    have hslot : ∀ (idx : Fin 4) old, dk.dir[((a - dk.dirstart) <<< 2) + idx.val]? = some old →
        SlotChange dk track sector dma old (entryOf dma idx) :=
      fun idx old hold => ⟨a, idx, ha, hsys, hsec, hold, rfl⟩
    have hskip : ∀ idx ∈ ([0, 1, 2, 3] : List (Fin 4)), ∀ old,
        dk.dir[((a - dk.dirstart) <<< 2) + idx.val]? = some old →
        old.eq (entryOf dma idx) = false → ¬ ChangesHost old (entryOf dma idx) := by
      intro idx _ old hold hne
      have hs := hslot idx old hold
      obtain ⟨h1, h2⟩ := hhigh old _ hs hne
      exact not_changesHost (fun hu => ⟨hdir old (List.mem_of_getElem? hold) hu, h1 hu⟩)
        fun hu => ⟨hnew old _ hs hu, h2 hu⟩
    have hhost := host_of_writeEntries (by decide) hskip
    have hstat := static_writeEntries ((a - dk.dirstart) <<< 2) dma [0, 1, 2, 3] dk
    cases hres : writeEntries ((a - dk.dirstart) <<< 2) dma [0, 1, 2, 3] dk with
    | error e dk₁ =>
      rw [hres] at hhost
      simp only [Exc.final_error] at hhost
      intro n c hc
      exact ⟨c, by rw [← hhost.1] at hc; exact hc, fun _ _ hx => .inl hx⟩
    | ok x dk₁ =>
      rw [hres] at hhost hstat
      simp only [Exc.final_ok] at hhost hstat
      have hk := keeps_flush hg (hstat.dpb.trans hdpb)
      intro n c hc
      obtain ⟨c', hc', hkeep⟩ := hk.bytes n c (by rw [hhost.1]; exact hc)
      refine ⟨c', hc', fun j y hy => (hkeep j y hy).imp_right ?_⟩
      rintro ⟨e, he, b, s, sid, p, ho, hsid, hp, hn, hj⟩
      rw [hstat.dpb] at ho hj
      rw [hhost.2.2] at hsid
      rw [hhost.2.1] at hp
      exact ⟨e, by simp only; rw [hk.dir]; exact he, b, s, sid, p, ho, hsid, hp, hn, hj⟩

/-- Orderly directories below extent 64 do not share places. -/
lemma noSharing_of_below64 (hg : g.Regular) (hdpb : dk.dpb = g.dpb)
    (hdir : ∀ e ∈ dk.dir, e.Used → e.Below64) (ho : Orderly dk) : NoSharing dk := by
  intro i j e f b c s t sid sid' hi hj hname he hf hd hd' hne heq
  have hmem := List.mem_of_getElem? hi
  have hmem' := List.mem_of_getElem? hj
  have hdp := ho.1
  rw [hdpb] at he hf hd hd' heq hdp
  rw [he.fileOffset hg hdp hmem hd.1, hf.fileOffset hg hdp hmem' hd'.1] at heq
  obtain ⟨h1, h2, h3⟩ := place_inj hg he.index hf.index he.inBlock hf.inBlock heq
  have hext := (hdir e hmem he.used).inj (hdir f hmem' hf.used) h1
  have hij := ho.2 i j e f hi hj he.used hf.used hname hext
  exact hne (by rw [hij, h2, h3])

/-! ## Runs -/

/-- **Growing a file below logical extent 64 never destroys it.** From a disk of a shipped geometry
whose entries are below extent 64, along every run that stays below extent 64: files are created,
removed and renamed only with their entry of logical extent 0, other changes keep every stored
byte, and no two records of a file share a place.

**Proof sketch.** Induction on the run. The entries of the next directory are old ones or entries
of the sector that was written, so they are below extent 64 again. -/
theorem growsSafely (hg : g.Shipped) : ∀ {ws : List (ℕ × ℕ × Sector)} {dk : Disk}, Shaped g dk →
    (∀ e ∈ dk.dir, e.Used → e.Below64) → RunBelow64 ws dk → GrowsSafely ws dk := by
  intro ws
  induction ws with
  | nil => exact fun hs hdir hrun => noSharing_of_below64 hg.regular hs.dpb hdir hrun
  | cons w ws ih =>
    obtain ⟨track, sector, dma⟩ := w
    rintro dk hs hdir ⟨hord, hnew, hrest⟩
    refine ⟨noSharing_of_below64 hg.regular hs.dpb hdir hord,
      growthLaw_of_below64 hg.regular hs.dpb hdir hnew, fun res dk' hw => ?_⟩
    have hstat := static_write track sector dma dk
    rw [hw] at hstat
    refine ih ⟨hstat.dpb.trans hs.dpb, hstat.smap.trans hs.smap, hstat.datastart.trans hs.datastart,
      hstat.dirstart.trans hs.dirstart⟩ (fun e he hu => ?_) (hrest res dk' hw)
    rcases mem_dir_of_write hw e he with he | ⟨old, hold⟩
    · exact hdir e he hu
    · exact hnew old e hold hu

/-! ## A file that grows to extent 64 -/

/-- The entry of logical extent `x` of a file `BIG`, with one block. -/
def growEntry (x : ℕ) : CpmDir :=
  { bigEntry (x / 32).toUInt8 (16 + x).toUInt8 with xl := (x % 32).toUInt8 }

/-- Directory sector `k` of a disk with the logical extents `0` to `64` of the file `BIG`. -/
def growSector (k : ℕ) : Sector := fun i =>
  (if 4 * k + i.val / 32 ≤ 64 then growEntry (4 * k + i.val / 32) else CpmDir.empty).toBytes
    ⟨i.val % 32, column_lt i⟩

/-- The run that adds the logical extents `0` to `63`, four at a time. -/
def growRun : List (ℕ × ℕ × Sector) := (List.range 16).map fun k => (0, k + 1, growSector k)

/-- The directory after the entries of extents 0 to 3 are added to an empty hard disk. -/
lemma dir_growSector :
    (Exc.final (write 0 1 (growSector 0) (blank drivePath hardDisk emptyDrive))).dir =
      (List.ofFn fun idx => entryOf (growSector 0) idx) ++ List.replicate 1020 CpmDir.empty := by
  decide +kernel

/-- The used entries of a directory that starts with a sector. -/
lemma used_ofFn {es : Fin 4 → CpmDir} {n i : ℕ} {e : CpmDir} (hu : e.Used)
    (h : (List.ofFn es ++ List.replicate n CpmDir.empty)[i]? = some e) :
    ∃ idx : Fin 4, i = idx ∧ e = es idx := by
  rcases Nat.lt_or_ge i 4 with hi | hi
  · rw [List.getElem?_append_left (by simpa using hi), List.getElem?_ofFn, dif_pos hi] at h
    exact ⟨⟨i, hi⟩, rfl, (Option.some.inj h).symm⟩
  · rw [List.getElem?_append_right (by simpa using hi)] at h
    have he : e = CpmDir.empty := List.eq_of_mem_replicate (List.mem_of_getElem? h)
    rw [he] at hu
    exact absurd hu (by decide)

/-- A directory with the entries of extents 0 to 3 is orderly.

**Proof sketch.** The used entries are the four of the sector. That their pointers and their
extents are different is evaluated. -/
lemma orderly_growSector {dk : Disk} {n : ℕ} (hdpb : dk.dpb = hardDisk.dpb)
    (hdir : dk.dir = (List.ofFn fun idx => entryOf (growSector 0) idx) ++
      List.replicate n CpmDir.empty) : Orderly dk := by
  have hptr : hardDisk.dpb.blockPtrType = 8 := by decide
  have hdist : ∀ (i j : Fin 4) (b c : Fin 8), (entryOf (growSector 0) i).pointer 8 b =
      (entryOf (growSector 0) j).pointer 8 c → (entryOf (growSector 0) i).pointer 8 b ≠ 0 →
        i = j ∧ b = c := by decide
  have hext : ∀ i j : Fin 4, (entryOf (growSector 0) i).logicalExtent =
      (entryOf (growSector 0) j).logicalExtent → i = j := by decide
  rw [Orderly, hdpb, hdir]
  constructor
  · intro i j e f b c hi hj hue huf hb hc heq hne
    obtain ⟨i, rfl, rfl⟩ := used_ofFn hue hi
    obtain ⟨j, rfl, rfl⟩ := used_ofFn huf hj
    rw [hptr] at *
    obtain ⟨h1, h2⟩ := hdist i j ⟨b, hb⟩ ⟨c, hc⟩ heq hne
    exact ⟨congrArg Fin.val h1, congrArg Fin.val h2⟩
  · intro i j e f hi hj hue huf _ heq
    obtain ⟨i, rfl, rfl⟩ := used_ofFn hue hi
    obtain ⟨j, rfl, rfl⟩ := used_ofFn huf hj
    exact congrArg Fin.val (hext i j heq)

/-- Adding the extents 0 to 3 of a file to an empty hard disk. -/
theorem growsSafely_small :
    GrowsSafely [(0, 1, growSector 0)] (blank drivePath hardDisk emptyDrive) := by
  have hempty : ∀ e ∈ (blank drivePath hardDisk emptyDrive).dir, ¬ e.Used := by
    intro e he
    rw [List.eq_of_mem_replicate he]
    decide
  have hbelow : ∀ idx, (entryOf (growSector 0) idx).Below64 := by decide
  refine growsSafely (g := hardDisk) (.inr rfl) ⟨rfl, rfl, rfl, rfl⟩
    (fun e he hu => absurd hu (hempty e he)) ⟨⟨?_, ?_⟩, ?_, ?_⟩
  · exact fun i j e f b c hi hj hu _ => absurd hu (hempty e (List.mem_of_getElem? hi))
  · exact fun i j e f hi hj hu => absurd hu (hempty e (List.mem_of_getElem? hi))
  · rintro old new ⟨-, idx, -, -, -, -, rfl⟩ -
    exact hbelow idx
  · intro res dk' hw
    have hdir := dir_growSector
    have hstat := static_write 0 1 (growSector 0) (blank drivePath hardDisk emptyDrive)
    rw [hw] at hdir hstat
    exact orderly_growSector hstat.dpb hdir

/-- Every entry of directory sector 16 is unused or the entry of logical extent 64. -/
lemma growSector_higher (idx : Fin 4) : (entryOf (growSector 16) idx).Used →
    (entryOf (growSector 16) idx).logicalExtent ≠ 0 := by
  revert idx
  decide +kernel

/-- **A file that grows to logical extent 64 is truncated.** The sector that adds the entry of
logical extent 64, after the entries of extents 0 to 63, creates the host file again.

**Proof sketch.** Running the writes gives the calls of the last one, among which is the creation
of the host file. The law would ask for a new entry of logical extent 0 in the sector, and it has
none. -/
theorem growth_truncates :
    ∃ dk dk', build (fun _ => some []) drivePath hardDisk emptyDrive = .ok () dk ∧
      writes growRun dk = .ok () dk' ∧ ¬ GrowthLaw dk' 0 17 (growSector 16) := by
  set dk := blank drivePath hardDisk emptyDrive with hdk
  have hevs : (Exc.final (write 0 17 (growSector 16) (Exc.final (writes growRun dk)))).host.calls =
      (Exc.final (writes growRun dk)).host.calls ++ [⟨.createDirectories drivePath, true⟩,
        ⟨.create (hostPath drivePath (growEntry 64).getName), true⟩] := by
    rw [hdk]
    decide +kernel
  have hrun : Exc.isOk (writes growRun dk) = true := by
    rw [hdk]
    decide +kernel
  obtain ⟨⟨⟩, hres⟩ := Exc.ok_of_isOk hrun
  refine ⟨dk, _, by rfl, hres, fun hlaw => ?_⟩
  obtain ⟨⟨evs, hcalls, hall⟩, -⟩ := hlaw
  rw [hevs] at hcalls
  rw [← List.append_cancel_left hcalls] at hall
  -- the creation would need an entry of logical extent 0 in the sector
  obtain ⟨old, new, ⟨a, idx, -, -, -, -, rfl⟩, -, hu, h0, -⟩ :=
    hall ⟨.create (hostPath drivePath (growEntry 64).getName), true⟩ (by simp)
  exact growSector_higher idx hu h0

end Disk

end Cpm22
