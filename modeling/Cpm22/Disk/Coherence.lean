import Cpm22.Disk.Names

set_option relaxedAutoImplicit false
set_option autoImplicit false

/-!
# Sector coherence

A data sector lives in the cache under its number until a directory entry lists its block; then
`Flush` writes it into the host file of that entry, at a position that depends on the entry. This
file shows that a disciplined guest does not notice: from the last write of a data sector until the
entry with its block is erased, every read delivers what was written.

## Main definitions

* `Cpm22.Disk.Stored` — a host file holds a sector at the place of the entry that owns it.
* `Cpm22.Disk.Inv` — the invariant: what the ledger says is in the cache or stored.

## Main results

* `Cpm22.Disk.Inv.writeEntries`, `Cpm22.Disk.Inv.flushAll` — the two halves of a directory write.
* `Cpm22.Disk.reads_coherent` — coherence along every disciplined run of an imported disk.
-/

namespace Cpm22

open HostPath HostFs

namespace Disk

/-! ## Sectors in files -/

/-- The contents `c` hold the sector `d` at position `pos`. -/
def HoldsAt (c : Bytes) (pos : ℕ) (d : Sector) : Prop := (c.drop pos).take 128 = bytes d

/-- The bytes at a position. -/
lemma holdsAt_iff {old : Bytes} {pos : ℕ} {d : Sector} :
    HoldsAt old pos d ↔ ∀ i < 128, old[pos + i]? = (bytes d)[i]? := by
  unfold HoldsAt
  constructor
  · intro h i hi
    rw [← h, List.getElem?_take_of_lt hi, List.getElem?_drop]
  · intro h
    refine List.ext_getElem? fun i => ?_
    by_cases hi : i < 128
    · rw [List.getElem?_take_of_lt hi, List.getElem?_drop, h i hi]
    · rw [List.getElem?_eq_none (by simp; omega), List.getElem?_eq_none (by simp; omega)]

/-- A sector that is written is there. -/
lemma holdsAt_writeAt (c : Bytes) (pos : ℕ) (d : Sector) :
    HoldsAt (writeAt c pos (bytes d)) pos d :=
  holdsAt_iff.mpr fun _ hi => getElem?_writeAt_self c pos (bytes d) (by simpa using hi)

/-- Writing a sector keeps the sectors at other places. -/
lemma HoldsAt.writeAt {c : Bytes} {pos pos' : ℕ} {d : Sector} (h : HoldsAt c pos d)
    (hne : pos + 128 ≤ pos' ∨ pos' + 128 ≤ pos) (d' : Sector) :
    HoldsAt (writeAt c pos' (bytes d')) pos d := by
  rw [holdsAt_iff] at h ⊢
  intro i hi
  have hlt : i < (bytes d).length := by simpa using hi
  have hb := List.getElem?_eq_getElem hlt
  rw [hb]
  refine getElem?_writeAt_of_ne _ _ _ ?_ ((h i hi).trans hb)
  rw [length_bytes]
  omega

/-- Reading a sector where it is replaces the whole buffer. -/
lemma HoldsAt.overlay {c : Bytes} {pos : ℕ} {d : Sector} (h : HoldsAt c pos d) (dma : Sector) :
    overlay dma ((c.drop pos).take 128) = d := by
  rw [HoldsAt] at h
  rw [h]
  funext i
  have hi : (bytes d)[i.val]? = some (d i) := by
    rw [bytes, List.getElem?_ofFn, dif_pos i.isLt]
  rw [Disk.overlay, List.getD_eq_getElem?_getD, hi]
  rfl

/-- Different places are a sector apart. -/
lemma place_apart {d : Dpb} {x y b c s t : ℕ} (h : place d x b s ≠ place d y c t) :
    place d x b s + 128 ≤ place d y c t ∨ place d y c t + 128 ≤ place d x b s := by
  unfold place at *
  omega

/-! ## The invariant -/

/-- **A host file holds the sector** `d` at the place of an entry that owns sector `sid`. -/
def Stored (g : Geometry) (ops : List FileOp) (dk : Disk) (sid : ℕ) (d : Sector) : Prop :=
  ∃ (i : ℕ) (e : CpmDir) (b s : ℕ) (c : Bytes), dk.dir[i]? = some e ∧ Owns g.dpb e b s sid ∧
    Status dk ops e.getName c ∧ HoldsAt c (place g.dpb e.getExtNumber b s) d

/-- **The invariant of a run**: every sector of the ledger is cached, or it is stored. Beside this
the disk has the shape of its geometry, and the names, the files and the open operations fit
together. -/
structure Inv (g : Geometry) (ops : List FileOp) (written : ℕ → Option Sector) (dk : Disk) :
    Prop where
  shaped : Shaped g dk
  boot : dk.bootblock = dk.path ++ slash :: cpmsys
  names : Consistent ops dk
  cacheData : ∀ sid ∈ dk.cache, g.dpb.dirBlocks * 2 ^ g.dpb.bsh ≤ sid
  data : ∀ sid d, written sid = some d → g.dpb.dirBlocks * 2 ^ g.dpb.bsh ≤ sid
  kept : ∀ sid d, written sid = some d →
    dk.cache.lookup sid = some d ∨ (sid ∉ dk.cache ∧ Stored g ops dk sid d)

variable {g : Geometry} {dk dk' : Disk} {ops : List FileOp} {written : ℕ → Option Sector}

/-- The tables stay. -/
lemma Shaped.static (h : Shaped g dk) (hs : Static dk dk') : Shaped g dk' :=
  ⟨hs.dpb.trans h.dpb, hs.smap.trans h.smap, hs.datastart.trans h.datastart,
    hs.dirstart.trans h.dirstart⟩

/-- The status of a name depends on the name map and the files only. -/
lemma Status.congr (hm : dk'.cpm2unix = dk.cpm2unix)
    (hc : dk'.host.contents = dk.host.contents) {k c : Bytes} (h : Status dk ops k c) :
    Status dk' ops k c := by
  cases h with
  | doomed h1 h2 => exact .doomed (by rw [hm, h1]) h2
  | home p h1 h2 =>
    refine .home p ?_ (by rw [hc, h2])
    cases h1 with
    | direct h3 => exact .direct (by rw [hm, h3])
    | ahead l h3 h4 h5 => exact .ahead l (by rw [hm, h3]) h4 (by rw [hm, h5])
    | behind l h3 h4 h5 => exact .behind l (by rw [hm, h3]) h4 (by rw [hm, h5])

/-! ## One directory entry -/

/-- **A directory change keeps a stored sector**, unless the entry that owns it is erased.

**Proof sketch.** The entry that owns the sector stays or is replaced in its slot. A new entry that
is in use keeps the pointer and the extent, so that it owns the sector at the same place, and the
content behind its name stays (`Status.slot`). -/
lemma Stored.change {n : ℕ} {old new : CpmDir} (hg : g.Regular) (h : Consistent ops dk)
    (hn : dk.dir[n]? = some old) (hslot : SlotStep g.dpb.blockPtrType ops old new)
    (hext : DistinctExtents (dk.dir.set n new)) (heff : HostEffect old new dk dk')
    (hdir : dk'.dir = dk.dir) {sid : ℕ} {d : Sector}
    (hsid : g.dpb.dirBlocks * 2 ^ g.dpb.bsh ≤ sid)
    (hkeep : old.Lists g.dpb sid → new.Used) (hs : Stored g ops dk sid d) :
    Stored g ops (dk'.withEntry n new) sid d := by
  obtain ⟨i, e, b, s, c, hi, ho, hst, hat⟩ := hs
  have hget : ∀ j : ℕ, (dk'.withEntry n new).dir[j]? = (dk.dir.set n new)[j]? := fun j => by
    simp only [withEntry, hdir]
  -- the entry of the same slot owns the sector at the same place
  obtain ⟨e', hi', ho', hext'⟩ : ∃ e', (dk.dir.set n new)[i]? = some e' ∧
      Owns g.dpb e' b s sid ∧ e'.getExtNumber = e.getExtNumber := by
    rcases eq_or_ne n i with rfl | hne
    · rw [hn] at hi
      cases hi
      have hnew := hkeep ho.lists
      have hgrow := hslot.grows ho.used hnew
      have hptr : new.pointer g.dpb.blockPtrType b = old.pointer g.dpb.blockPtrType b := by
        refine hgrow.2.2 b ho.index ?_
        rw [← ho.block]
        exact DataSector.block_ne_zero hg hsid
      exact ⟨new, List.getElem?_set_self (List.getElem?_eq_some_iff.mp hn).1,
        ⟨hnew, ho.index, ho.inBlock, by rw [hptr]; exact ho.sector⟩, hgrow.ext⟩
    · exact ⟨e, by rw [List.getElem?_set_ne hne, hi], ho, rfl⟩
  refine ⟨i, e', b, s, c, by rw [hget, hi'], ho', ?_, by rw [hext']; exact hat⟩
  exact (hst.slot h hn hslot hext heff hi hi' ho.used ho'.used).congr (by rfl) (by rfl)

/-- **A directory change keeps the invariant.**

**Proof sketch.** The cache stays, and so do the tables. The names are consistent again by
`Consistent.change`, and a stored sector is still stored by `Stored.change`, since no entry that
lists it is erased. -/
lemma Inv.change {n : ℕ} {old new : CpmDir} (hg : g.Regular) (h : Inv g ops written dk)
    (hn : dk.dir[n]? = some old) (hslot : SlotStep g.dpb.blockPtrType ops old new)
    (hext : DistinctExtents (dk.dir.set n new))
    (hkeep : ∀ sid, (written sid).isSome → old.Lists g.dpb sid → new.Used)
    (hc : hostChange old new dk = .ok () dk') : Inv g ops written (dk'.withEntry n new) := by
  obtain ⟨heff, hcache⟩ := hostChange_effect hc
  have hdir := hostChange_dir hc
  have hstat := static_hostChange old new dk
  rw [hc, Exc.final_ok] at hstat
  have hstat' : Static dk (dk'.withEntry n new) := hstat.trans ⟨rfl, rfl, rfl, rfl, rfl, rfl⟩
  refine ⟨h.shaped.static hstat', ?_, h.names.change hn hslot hext heff hdir hstat.path, ?_, h.data,
    fun sid d hw => ?_⟩
  · rw [hstat'.bootblock, hstat'.path]
    exact h.boot
  · intro sid hsid
    change sid ∈ dk'.cache at hsid
    rw [hcache] at hsid
    exact h.cacheData sid hsid
  · change dk'.cache.lookup sid = some d ∨ (sid ∉ dk'.cache ∧ _)
    rw [hcache]
    refine (h.kept sid d hw).imp_right fun hs => ⟨hs.1, ?_⟩
    exact hs.2.change hg h.names hn hslot hext heff hdir (h.data sid d hw)
      (hkeep sid (by rw [hw]; rfl))

/-! ## The four entries of a sector -/

/-- Slots that are not written stay. -/
lemma getElem?_writeEntries {extno m : ℕ} {dma : Sector} : ∀ {idxs : List (Fin 4)} {dk : Disk},
    writeEntries extno dma idxs dk = .ok () dk' → (∀ idx ∈ idxs, extno + idx.val ≠ m) →
    dk'.dir[m]? = dk.dir[m]? := by
  intro idxs
  induction idxs with
  | nil =>
    intro dk h _
    cases h
    rfl
  | cons idx idxs ih =>
    intro dk h hm
    rw [writeEntries, Exc.bind_ok] at h
    obtain ⟨⟨⟩, dk₁, h1, h2⟩ := h
    rw [ih h2 fun i hi => hm i (by simp [hi])]
    obtain ⟨old, -, ⟨-, rfl⟩ | ⟨-, hd⟩⟩ := dir_of_writeEntry h1
    · rfl
    · rw [hd, List.getElem?_set_ne (hm idx (by simp))]

/-- An entry that is written leaves the length of the directory. -/
lemma length_writeEntry {n : ℕ} {new : CpmDir} (h : writeEntry n new dk = .ok () dk') :
    dk'.dir.length = dk.dir.length := by
  obtain ⟨old, -, ⟨-, rfl⟩ | ⟨-, hd⟩⟩ := dir_of_writeEntry h
  · rfl
  · rw [hd, List.length_set]

/-- The directory keeps its length. -/
lemma length_writeEntries {extno : ℕ} {dma : Sector} : ∀ {idxs : List (Fin 4)} {dk : Disk},
    writeEntries extno dma idxs dk = .ok () dk' → dk'.dir.length = dk.dir.length := by
  intro idxs
  induction idxs with
  | nil =>
    intro dk h
    cases h
    rfl
  | cons idx idxs ih =>
    intro dk h
    rw [writeEntries, Exc.bind_ok] at h
    obtain ⟨⟨⟩, dk₁, h1, h2⟩ := h
    rw [ih h2, length_writeEntry h1]

/-- **The invariant rule for the entries of a directory sector.** What every change of a slot keeps,
from the entry it had before the sector to the entry it has after it, is kept by the sector.

**Proof sketch.** Induction on the entries that are left. Each slot is written once, so its entry
before the change is the one of the old directory and its entry after it the one of the new. -/
lemma writeEntries_induction {P : Disk → Prop} {extno : ℕ} {dma : Sector}
    {dir dir' : List CpmDir}
    (hstep : ∀ (n : ℕ) (old new : CpmDir) (dk dk₁ : Disk), P dk → dir[n]? = some old →
      dir'[n]? = some new → dk.dir[n]? = some old → Between dir (dk.dir.set n new) dir' →
      hostChange old new dk = .ok () dk₁ → P (dk₁.withEntry n new)) :
    ∀ {idxs : List (Fin 4)} {dk : Disk}, idxs.Nodup → P dk → Between dir dk.dir dir' →
      (∀ idx ∈ idxs, dk.dir[extno + idx.val]? = dir[extno + idx.val]?) →
      writeEntries extno dma idxs dk = .ok () dk' → dk'.dir = dir' → P dk' := by
  intro idxs
  induction idxs with
  | nil =>
    intro dk _ hP _ _ h _
    cases h
    exact hP
  | cons idx idxs ih =>
    intro dk hnd hP hb hold h hdir'
    rw [List.nodup_cons] at hnd
    rw [writeEntries, Exc.bind_ok] at h
    obtain ⟨⟨⟩, dk₁, h1, h2⟩ := h
    have hne : ∀ i ∈ idxs, extno + i.val ≠ extno + idx.val := fun i hi => (slot_ne hnd.1 hi).symm
    have hfinal : dir'[extno + idx.val]? = dk₁.dir[extno + idx.val]? := by
      rw [← hdir']
      exact getElem?_writeEntries h2 hne
    obtain ⟨old, hat, ⟨-, rfl⟩ | ⟨heq, hd⟩⟩ := dir_of_writeEntry h1
    · exact ih hnd.2 hP hb (fun i hi => hold i (by simp [hi])) h2 hdir'
    · set new := entryOf dma idx
      have hlt := (List.getElem?_eq_some_iff.mp hat).1
      have hnew : dir'[extno + idx.val]? = some new := by
        rw [hfinal, hd, List.getElem?_set_self hlt]
      have hb' : Between dir (dk.dir.set (extno + idx.val) new) dir' := by
        intro m
        rcases eq_or_ne (extno + idx.val) m with rfl | hm
        · exact .inr (by rw [List.getElem?_set_self hlt, hnew])
        · rw [List.getElem?_set_ne hm]
          exact hb m
      rw [writeEntry_of_ne hat (by simp [heq]), Exc.bind_ok] at h1
      obtain ⟨⟨⟩, dk₂, hc, hset⟩ := h1
      have hP' := hstep _ old new dk dk₂ hP ((hold idx (by simp)).symm.trans hat) hnew hat hb' hc
      cases hset
      have hd' : (dk₂.withEntry (extno + idx.val) new).dir = dk.dir.set (extno + idx.val) new := hd
      refine ih hnd.2 hP' (by rw [hd']; exact hb') (fun i hi => ?_) h2 hdir'
      rw [hd', List.getElem?_set_ne (hne i hi).symm]
      exact hold i (by simp [hi])

/-- The status of a name stays with more operations under way. -/
lemma Status.mono {ops' : List FileOp} (hsub : ∀ o ∈ ops, o ∈ ops') {k c : Bytes}
    (h : Status dk ops k c) : Status dk ops' k c := by
  cases h with
  | doomed h1 h2 => exact .doomed h1 (hsub _ h2)
  | home p h1 h2 =>
    refine .home p ?_ h2
    cases h1 with
    | direct h3 => exact .direct h3
    | ahead l h3 h4 h5 => exact .ahead l h3 (hsub _ h4) h5
    | behind l h3 h4 h5 => exact .behind l h3 (hsub _ h4) h5

/-- **The status of an entry needs only the operations that are not finished**: an operation on
which it rests has an entry of its file. -/
lemma Status.shrink (h : Consistent ops dk) {e : CpmDir} (he : e ∈ dk.dir) (hu : e.Used) {c : Bytes}
    (hs : Status dk ops e.getName c) : Status dk (unfinished dk.dir ops) e.getName c := by
  have hown : ∀ o ∈ ops, o.subject = e.getName → o ∈ unfinished dk.dir ops := fun o h1 h2 =>
    mem_unfinished.mpr ⟨h1, e, he, hu, h2.symm⟩
  cases hs with
  | doomed h1 h2 => exact .doomed h1 (hown _ h2 rfl)
  | home p h1 h2 =>
    refine .home p ?_ h2
    cases h1 with
    | direct h3 => exact .direct h3
    | ahead l h3 h4 h5 => exact .ahead l h3 (hown _ h4 rfl) h5
    | behind l h3 h4 h5 =>
      -- the file still has its old name, so its entry of extent 0 has it too
      obtain ⟨j, f, hj, huf, hfl, -⟩ := h.first l p h5
      exact .behind l h3 (mem_unfinished.mpr ⟨h4, f, List.mem_of_getElem? hj, huf, hfl⟩) h5

/-- The invariant with more operations under way, and fewer sectors in the ledger. -/
lemma Inv.enlarge {ops' : List FileOp} {written' : ℕ → Option Sector} (h : Inv g ops written dk)
    (hsub : ∀ o ∈ ops, o ∈ ops') (ha : Apart ops') (hf : Fits ops' dk.dir)
    (hw : ∀ sid d, written' sid = some d → written sid = some d) : Inv g ops' written' dk := by
  have hn := h.names
  refine ⟨h.shaped, h.boot, ⟨hn.path, hn.denotes, hn.first, hn.present, hn.extents, hn.ordinary,
    ha, hf⟩, h.cacheData, fun sid d hd => h.data sid d (hw sid d hd), fun sid d hd => ?_⟩
  refine (h.kept sid d (hw sid d hd)).imp_right fun hs => ⟨hs.1, ?_⟩
  obtain ⟨i, e, b, s, c, hi, ho, hst, hat⟩ := hs.2
  exact ⟨i, e, b, s, c, hi, ho, hst.mono hsub, hat⟩

/-- **The invariant needs only the operations that are not finished.** -/
lemma Inv.shrink (h : Inv g ops written dk) : Inv g (unfinished dk.dir ops) written dk := by
  have hsub : ∀ o ∈ unfinished dk.dir ops, o ∈ ops := fun o ho => (mem_unfinished.mp ho).1
  have hn := h.names
  refine ⟨h.shaped, h.boot, ⟨hn.path, hn.denotes, hn.first, hn.present, hn.extents, hn.ordinary,
    fun o ho o' ho' => hn.apart o (hsub o ho) o' (hsub o' ho'),
    fun k l ho => hn.fits k l (hsub _ ho)⟩, h.cacheData, h.data, fun sid d hd => ?_⟩
  refine (h.kept sid d hd).imp_right fun hs => ⟨hs.1, ?_⟩
  obtain ⟨i, e, b, s, c, hi, ho, hst, hat⟩ := hs.2
  exact ⟨i, e, b, s, c, hi, ho, hst.shrink hn (List.mem_of_getElem? hi) ho.used, hat⟩

/-- **The entries of a disciplined directory write keep the invariant.**

**Proof sketch.** Induction on the entries that are written (`writeEntries_induction`), where each
change is `Inv.change`. First the ledger is enlarged by the new operations, and the sectors of
erased entries leave it. -/
lemma Inv.writeEntries {l : Ledger} (hg : g.Regular) (h : Inv g l.ops l.written dk) {sector : ℕ}
    {dma : Sector} (hw : writeEntries (sector <<< 2) dma [0, 1, 2, 3] dk = .ok () dk')
    (hd : Disciplined g.dpb l.ops dk.dir dk'.dir) :
    Inv g (l.ops ++ opsOf dk.dir dk'.dir) (l.directory g.dpb dk.dir dk'.dir).written dk' := by
  have hlen := length_writeEntries hw
  have hstart : Inv g (l.ops ++ opsOf dk.dir dk'.dir) (l.directory g.dpb dk.dir dk'.dir).written
      dk := by
    refine h.enlarge (fun o ho => List.mem_append_left _ ho) hd.apart hd.fits fun sid d hsid => ?_
    simp only [Ledger.directory] at hsid
    split at hsid
    · cases hsid
    · exact hsid
  refine writeEntries_induction (fun n old new dk₁ dk₂ hI hold hnew hat hb hc => ?_) (by decide)
    hstart (fun i => .inl rfl) (fun _ _ => rfl) hw rfl
  have hslot := hd.slot hold hnew
  refine hI.change hg hat hslot (hd.between h.names.extents hlen hb) (fun sid hsome hlists => ?_) hc
  -- a sector of the ledger is not listed by an entry that is erased
  by_contra hu
  have herased : erased g.dpb dk.dir dk'.dir sid = true := by
    refine List.any_eq_true.mpr ⟨(old, new), ?_, by simpa using ⟨hlists, hu⟩⟩
    refine List.mem_iff_getElem?.mpr ⟨n, ?_⟩
    rw [List.getElem?_zip_eq_some]
    exact ⟨hold, hnew⟩
  simp [Ledger.directory, herased] at hsome

/-! ## `Flush` -/

/-- The places of two stored sectors of one file are different, if the sectors are.

**Proof sketch.** The entries have the same name, or one of them has the other name of a file that
is renamed; in both cases their extents are different unless they are the same entry. -/
lemma Consistent.place_ne (hg : g.Regular) (h : Consistent ops dk) {i j : ℕ} {e f : CpmDir}
    {b s c t sid sid' : ℕ} (hi : dk.dir[i]? = some e) (hj : dk.dir[j]? = some f)
    (ho : Owns g.dpb e b s sid) (ho' : Owns g.dpb f c t sid') (hne : sid ≠ sid') {p q : Bytes}
    (hp : dk.cpm2unix.lookup e.getName = some p) (hq : Home dk ops f.getName q)
    (hpq : normal q = normal p) :
    place g.dpb f.getExtNumber c t ≠ place g.dpb e.getExtNumber b s := by
  intro hplace
  obtain ⟨h1, h2, h3⟩ := place_inj hg ho'.index ho.index ho'.inBlock ho.inBlock hplace
  have hme := List.mem_of_getElem? hi
  have hmf := List.mem_of_getElem? hj
  have hoe := h.ordinary e hme ho.used
  have hof := h.ordinary f hmf ho'.used
  have hxl : f.xl = e.xl := by
    rw [hoe.ext_eq, hof.ext_eq] at h1
    exact UInt8.toNat_inj.mp h1
  -- the name under which the file of `f` is found is the name of `e`
  have hname : ∀ m, dk.cpm2unix.lookup m = some q → m = e.getName := fun m hm =>
    (h.denotes m q hm).inj (h.denotes _ p hp) hpq
  cases hq with
  | direct hk =>
    have hij := h.extents j i f e hj hi ho'.used ho.used (hname _ hk) hxl
      (hof.2.2.trans hoe.2.2.symm)
    subst hij
    rw [hi] at hj
    cases hj
    subst h2 h3
    exact hne (ho.sector.trans ho'.sector.symm)
  | ahead m _ hop hm =>
    rw [hname m hm] at hop
    exact h.fits _ _ hop f hmf e hme ho'.used ho.used rfl rfl hxl
  | behind m _ hop hm =>
    rw [hname m hm] at hop
    exact h.fits _ _ hop e hme f hmf ho.used ho'.used rfl rfl hxl.symm

/-- Changing the contents of files keeps the disk consistent. -/
lemma Consistent.frame (h : Consistent ops dk) (hs : FlushFrame dk dk')
    (hfiles : ∀ n c, dk.host.contents n = some c → ∃ c', dk'.host.contents n = some c') :
    Consistent ops dk' where
  path := by rw [hs.path]; exact h.path
  denotes k p hk := by
    rw [hs.cpm2unix] at hk
    rw [hs.path]
    exact h.denotes k p hk
  first k p hk := by
    rw [hs.cpm2unix] at hk
    rw [hs.dir]
    exact h.first k p hk
  present k p hk := by
    rw [hs.cpm2unix] at hk
    obtain ⟨c, hc⟩ := h.present k p hk
    exact hfiles _ c hc
  extents := by rw [hs.dir]; exact h.extents
  ordinary := by rw [hs.dir]; exact h.ordinary
  apart := h.apart
  fits := by rw [hs.dir]; exact h.fits

/-- Flushing a sector keeps the frame. -/
lemma flushFrame_flushed (dk : Disk) (sid : ℕ) (data : Sector) (e : CpmDir) (p : Bytes) :
    FlushFrame dk (dk.flushed sid data e p) := ⟨⟨rfl, rfl, rfl, rfl, rfl, rfl⟩, rfl, rfl⟩

/-- A name keeps its home if the name map does not change. -/
lemma Home.congr (hm : dk'.cpm2unix = dk.cpm2unix) {k p : Bytes} (h : Home dk ops k p) :
    Home dk' ops k p := by
  cases h with
  | direct h3 => exact .direct (by rw [hm, h3])
  | ahead l h3 h4 h5 => exact .ahead l (by rw [hm, h3]) h4 (by rw [hm, h5])
  | behind l h3 h4 h5 => exact .behind l (by rw [hm, h3]) h4 (by rw [hm, h5])

/-- **A stored sector survives the flush of another one.**

**Proof sketch.** The content is in another file, which was not written, or in the same one at
another place (`place_ne`), of which the write changes no byte. -/
lemma Stored.flushed (hg : g.Regular) (h : Consistent ops dk) {i : ℕ} {e : CpmDir}
    {b s sid : ℕ} {data : Sector} {p c₀ : Bytes} (hi : dk.dir[i]? = some e)
    (ho : Owns g.dpb e b s sid) (hp : dk.cpm2unix.lookup e.getName = some p)
    (hc₀ : dk.host.contents (normal p) = some c₀)
    (hfiles : (dk.flushed sid data e p).host.contents = Function.update dk.host.contents (normal p)
      (some (writeAt c₀ (place g.dpb e.getExtNumber b s) (bytes data)))) {sid' : ℕ} {d : Sector}
    (hne : sid ≠ sid') (hs : Stored g ops dk sid' d) :
    Stored g ops (dk.flushed sid data e p) sid' d := by
  obtain ⟨j, f, b', s', c, hj, ho', hst, hat⟩ := hs
  cases hst with
  | doomed h1 h2 => exact ⟨j, f, b', s', c, hj, ho', .doomed h1 h2, hat⟩
  | home q h1 h2 =>
    have hhome : Home (dk.flushed sid data e p) ops f.getName q := h1.congr (by rfl)
    by_cases hpq : normal q = normal p
    · rw [hpq, hc₀] at h2
      cases h2
      have hplace := h.place_ne hg hi hj ho ho' hne hp h1 hpq
      refine ⟨j, f, b', s', _, hj, ho', .home q hhome ?_, hat.writeAt (place_apart hplace) data⟩
      rw [hfiles, hpq, Function.update_self]
    · refine ⟨j, f, b', s', c, hj, ho', .home q hhome ?_, hat⟩
      rw [hfiles, Function.update_of_ne hpq, h2]

/-- **Flushing one sector keeps the invariant**: it is stored now.

**Proof sketch.** The sector is at its place in the owner's file now, and it leaves the cache. A
sector that was stored before is at another place or in another file, since places and host paths
are apart, so that it is still there. -/
lemma Inv.flushed (hg : g.Regular) (h : Inv g ops written dk) (hdp : DistinctPointers g.dpb dk.dir)
    {sid : ℕ} {data : Sector} (hdata : dk.cache.lookup sid = some data) {e : CpmDir} {p : Bytes}
    (he : e ∈ dk.dir) (hl : e.Lists dk.dpb sid) (hp : dk.cpm2unix.lookup e.getName = some p)
    (hok : (dk.host.write p (fileOffset dk.dpb
      (e.findBlockIndex (sid >>> dk.dpb.bsh) dk.dpb.blockPtrType) sid) (bytes data)).1 = true) :
    Inv g ops written (dk.flushed sid data e p) := by
  have hdat := h.cacheData sid (AList.lookup_isSome.mp (by rw [hdata]; rfl))
  obtain ⟨i, hi⟩ := List.mem_iff_getElem?.mp he
  rw [h.shaped.dpb] at hl
  obtain ⟨b, ho⟩ := owns_of_lists hl
  have hoff := ho.fileOffset hg hdp he hdat
  have hframe := flushFrame_flushed dk sid data e p
  obtain ⟨-, c₀, hc₀, hfiles⟩ := Host.contents_write hok
  change (dk.flushed sid data e p).host.contents = _ at hfiles
  rw [h.shaped.dpb, hoff] at hfiles
  refine ⟨h.shaped.static hframe.toStatic, h.boot, h.names.frame hframe fun n c hc => ?_,
    fun x hx => h.cacheData x (AList.mem_erase.mp hx).2, h.data, fun x d hw => ?_⟩
  · rw [hfiles]
    rcases eq_or_ne n (normal p) with rfl | hn
    · exact ⟨_, Function.update_self ..⟩
    · exact ⟨c, by rw [Function.update_of_ne hn, hc]⟩
  · rcases eq_or_ne sid x with rfl | hne
    · -- the sector itself
      have hd : d = data := by
        rcases h.kept sid d hw with hk | ⟨hk, -⟩
        · rw [hdata] at hk
          exact (Option.some.inj hk).symm
        · exact absurd (AList.lookup_isSome.mp (by rw [hdata]; rfl)) hk
      subst hd
      refine .inr ⟨fun hx => (AList.mem_erase.mp hx).1 rfl, i, e, b, _, _, hi, ho,
        .home p (.direct hp) (by rw [hfiles, Function.update_self]), holdsAt_writeAt _ _ _⟩
    · change (dk.cache.erase sid).lookup x = _ ∨ (x ∉ dk.cache.erase sid ∧ _)
      rw [AList.lookup_erase_ne hne.symm]
      refine (h.kept x d hw).imp_right fun hs => ⟨fun hx => hs.1 (AList.mem_erase.mp hx).2, ?_⟩
      exact hs.2.flushed hg h.names hi ho hp hc₀ hfiles hne

/-- The outer loop of `Flush` only adds calls. -/
lemma calls_flushAll {sids : List ℕ} (h : flushAll sids dk = .ok () dk') :
    ∃ evs, dk'.host.calls = dk.host.calls ++ evs := by
  have hstart : Logged dk.path (fun _ => True) (fun _ => True) dk.host.calls dk :=
    ⟨rfl, fun _ _ _ => trivial, [], (List.append_nil _).symm, by simp⟩
  have hlog := flushAll_rule (Logged.kept fun _ _ _ => trivial).1
    (Logged.kept fun _ _ _ => trivial).2.2 sids dk hstart
  rw [h] at hlog
  obtain ⟨evs, hevs, -⟩ := hlog.calls
  exact ⟨evs, hevs⟩

/-- **The invariant rule for `Flush`**: what is kept by the flush of one sector is kept by all of
them, if no host call fails.

**Proof sketch.** Induction on the sectors that are left. A sector that is not cached, or that no
entry lists, is passed; otherwise the one entry that lists it has a file, and the write to it
succeeded, since its call is among those that the flush adds. -/
lemma flushAll_induction {P : Disk → Prop}
    (hone : ∀ dk, P dk → ∀ sid ∈ dk.cache, OneLister dk.dpb dk.dir sid)
    (hstep : ∀ (dk : Disk) (sid : ℕ) (data : Sector) (e : CpmDir) (p : Bytes), P dk →
      dk.cache.lookup sid = some data → e ∈ dk.dir → e.Lists dk.dpb sid →
      dk.cpm2unix.lookup e.getName = some p →
      (dk.host.write p (fileOffset dk.dpb
        (e.findBlockIndex (sid >>> dk.dpb.bsh) dk.dpb.blockPtrType) sid) (bytes data)).1 = true →
      P (dk.flushed sid data e p)) :
    ∀ {sids : List ℕ} {dk : Disk}, P dk → flushAll sids dk = .ok () dk' →
      (∀ ev ∈ dk'.host.calls.drop dk.host.calls.length, ev.ok = true) → P dk' := by
  intro sids
  induction sids with
  | nil =>
    intro dk h hf _
    cases hf
    exact h
  | cons sid sids ih =>
    intro dk h hf hfine
    rw [flushAll, Exc.bind_ok] at hf
    obtain ⟨⟨⟩, dk₁, h1, h2⟩ := hf
    rw [flushOne_apply] at h1
    cases hdata : dk.cache.lookup sid with
    | none =>
      rw [hdata] at h1
      cases h1
      exact ih h h2 hfine
    | some data =>
      rw [hdata] at h1
      simp only at h1
      rw [flushSector_eq (hone dk h sid (AList.lookup_isSome.mp (by rw [hdata]; rfl)))] at h1
      cases hown : owner dk.dpb dk.dir sid with
      | none =>
        rw [hown] at h1
        cases h1
        exact ih h h2 hfine
      | some e =>
        rw [hown] at h1
        simp only at h1
        cases hp : dk.cpm2unix.lookup e.getName with
        | none =>
          rw [hp] at h1
          cases h1
        | some p =>
          rw [hp] at h1
          cases h1
          obtain ⟨he, hl⟩ := owner_some hown
          obtain ⟨evs, hevs⟩ := calls_flushAll h2
          have hcalls := flushed_calls dk sid data e p
          simp only at hcalls
          rw [hevs, hcalls, List.append_assoc, List.drop_left] at hfine
          have hok := hfine _ (List.mem_append_left evs (List.mem_singleton_self _))
          refine ih (hstep dk sid data e p h hdata he hl hp hok) h2 fun ev hev => ?_
          rw [hevs, List.drop_left] at hev
          exact hfine ev (by simp [hev])

/-- At most one entry lists a cached sector. -/
lemma Inv.oneLister (hg : g.Regular) (h : Inv g ops written dk)
    (hdp : DistinctPointers g.dpb dk.dir) {sid : ℕ} (hsid : sid ∈ dk.cache) :
    OneLister dk.dpb dk.dir sid := by
  rw [h.shaped.dpb]
  exact hdp.oneLister (DataSector.block_ne_zero hg (h.cacheData sid hsid))

/-- **`Flush` keeps the invariant**, if no host call fails. -/
lemma Inv.flushAll (hg : g.Regular) {sids : List ℕ} (h : Inv g ops written dk)
    (hdp : DistinctPointers g.dpb dk.dir) (hf : Disk.flushAll sids dk = .ok () dk')
    (hfine : ∀ ev ∈ dk'.host.calls.drop dk.host.calls.length, ev.ok = true) :
    Inv g ops written dk' := by
  refine (flushAll_induction (P := fun dk => Inv g ops written dk ∧ DistinctPointers g.dpb dk.dir)
    (fun dk h sid hsid => h.1.oneLister hg h.2 hsid)
    (fun dk sid data e p h hdata he hl hp hok => ?_) ⟨h, hdp⟩ hf hfine).1
  exact ⟨h.1.flushed hg h.2 hdata he hl hp hok, h.2⟩

/-! ## Accesses -/

variable {l : Ledger} {track sector : ℕ} {dma : Sector}

/-- The file with the reserved tracks is not the file of a name. -/
lemma denotes_ne_cpmsys {path p k : Bytes} (hpath : path ≠ []) (h : Denotes path p k) :
    normal p ≠ normal (path ++ slash :: cpmsys) := by
  obtain ⟨u, n, s, hn, hs, -, -, hp⟩ := h
  rw [hp, normal_join_plain hpath (by decide)]
  intro heq
  simp only [NPath.mk.injEq, true_and, List.append_cancel_left_eq] at heq
  have hlast : n = cpmsys := by simpa using congrArg List.getLast? heq
  have hnone : cpmName cpmsys = none := by decide
  rw [hlast, hnone] at hs
  cases hs

/-- Replacing the host by one with the same files of names keeps the invariant.

**Proof sketch.** Only the files behind the names of the map matter: those are where the content of
a stored sector is. -/
lemma Inv.host (h : Inv g ops written dk) {host : Host}
    (hfiles : ∀ k p, dk.cpm2unix.lookup k = some p →
      host.contents (normal p) = dk.host.contents (normal p)) :
    Inv g ops written { dk with host := host } := by
  have hn := h.names
  refine ⟨⟨h.shaped.dpb, h.shaped.smap, h.shaped.datastart, h.shaped.dirstart⟩, h.boot,
    ⟨hn.path, hn.denotes, hn.first, fun k p hk => ?_, hn.extents, hn.ordinary, hn.apart, hn.fits⟩,
    h.cacheData, h.data, fun sid d hd => ?_⟩
  · obtain ⟨c, hc⟩ := hn.present k p hk
    exact ⟨c, (hfiles k p hk).trans hc⟩
  · refine (h.kept sid d hd).imp_right fun hs => ⟨hs.1, ?_⟩
    obtain ⟨i, e, b, s, c, hi, ho, hst, hat⟩ := hs.2
    refine ⟨i, e, b, s, c, hi, ho, ?_, hat⟩
    cases hst with
    | doomed h1 h2 => exact .doomed h1 h2
    | home p h1 h2 =>
      refine .home p (h1.congr (by rfl)) ?_
      cases h1 with
      | direct h3 => exact (hfiles _ p h3).trans h2
      | ahead m h3 h4 h5 => exact (hfiles _ p h5).trans h2
      | behind m h3 h4 h5 => exact (hfiles _ p h5).trans h2

/-- The entries of a directory sector only add calls. -/
lemma calls_writeEntries {extno : ℕ}
    (h : Disk.writeEntries extno dma [0, 1, 2, 3] dk = .ok () dk') :
    ∃ evs, dk'.host.calls = dk.host.calls ++ evs := by
  have hstart : Logged dk.path (fun _ => True) (fun _ => True) dk.host.calls dk :=
    ⟨rfl, fun _ _ _ => trivial, [], (List.append_nil _).symm, by simp⟩
  have hnd : ([0, 1, 2, 3] : List (Fin 4)).Nodup := by decide
  have hlog := logged_writeEntries (fun _ _ _ => trivial) extno dma hnd dk ⟨hstart, fun _ _ _ _ _ =>
    ⟨fun _ _ _ _ _ => trivial, fun _ => trivial, fun _ => trivial, fun _ _ => trivial,
      fun _ _ _ _ => trivial⟩⟩
  rw [h] at hlog
  obtain ⟨evs, hevs, -⟩ := hlog.calls
  exact ⟨evs, hevs⟩

/-- **The two halves of a directory write**: the entries, then the cached sectors, in which no host
call fails either. -/
lemma writeDir_halves {n r : ℕ} (hw : writeDir n dma dk = .ok r dk') (hfine : HostFine dk dk') :
    ∃ dk₁, writeEntries (n <<< 2) dma [0, 1, 2, 3] dk = .ok () dk₁ ∧
      flushAll dk₁.cached dk₁ = .ok () dk' ∧ dk'.dir = dk₁.dir ∧ HostFine dk₁ dk' := by
  obtain ⟨dk₁, h1, h2, hframe⟩ := writeDir_ok hw
  rw [flush_apply, Exc.bind_ok] at h2
  obtain ⟨⟨⟩, dk₂, h3, h4⟩ := h2
  cases h4
  obtain ⟨evs, hevs⟩ := calls_writeEntries h1
  obtain ⟨evs', hevs'⟩ := calls_flushAll h3
  refine ⟨dk₁, h1, h3, hframe.dir, fun ev hev => hfine ev ?_⟩
  rw [hevs', List.drop_left] at hev
  rw [hevs', hevs, List.append_assoc, List.drop_left]
  exact List.mem_append_right _ hev

/-- **A disciplined directory write keeps the invariant.** -/
lemma Inv.writeDir (hg : g.Regular) (h : Inv g l.ops l.written dk) {n r : ℕ}
    (hw : Disk.writeDir n dma dk = .ok r dk') (hfine : HostFine dk dk')
    (hd : Disciplined g.dpb l.ops dk.dir dk'.dir) :
    Inv g (l.directory g.dpb dk.dir dk'.dir).ops (l.directory g.dpb dk.dir dk'.dir).written
      dk' := by
  obtain ⟨dk₁, h1, h2, hdir, hfine'⟩ := writeDir_halves hw hfine
  rw [hdir] at hd ⊢
  have hend := ((h.writeEntries hg h1 hd).flushAll hg hd.pointers h2 hfine').shrink
  rwa [hdir] at hend

/-- Writing a data sector keeps the invariant.

**Proof sketch.** The written sector is in the cache with its new content. For the other sectors
neither the cache nor the files have changed. -/
lemma Inv.writeData (h : Inv g ops written dk) {sid : ℕ}
    (hsid : g.dpb.dirBlocks * 2 ^ g.dpb.bsh ≤ sid) (dma : Sector) :
    Inv g ops (Function.update written sid (some dma))
      { dk with cache := dk.cache.insert sid dma } := by
  have hn := h.names
  refine ⟨⟨h.shaped.dpb, h.shaped.smap, h.shaped.datastart, h.shaped.dirstart⟩, h.boot,
    hn.frame ⟨⟨rfl, rfl, rfl, rfl, rfl, rfl⟩, rfl, rfl⟩ fun _ c hc => ⟨c, hc⟩, fun x hx => ?_,
    fun x d hx => ?_, fun x d hx => ?_⟩
  · rcases (AList.mem_insert _).mp hx with rfl | hx
    · exact hsid
    · exact h.cacheData x hx
  · rcases eq_or_ne x sid with rfl | hne
    · exact hsid
    · rw [Function.update_of_ne hne] at hx
      exact h.data x d hx
  · change (dk.cache.insert sid dma).lookup x = _ ∨ (x ∉ dk.cache.insert sid dma ∧ _)
    rcases eq_or_ne x sid with rfl | hne
    · rw [Function.update_self] at hx
      cases hx
      exact .inl (AList.lookup_insert _)
    · rw [Function.update_of_ne hne] at hx
      rw [AList.lookup_insert_ne hne]
      refine (h.kept x d hx).imp_right fun hs => ⟨fun hm => ?_, ?_⟩
      · exact ((AList.mem_insert _).mp hm).elim hne hs.1
      · obtain ⟨i, e, b, s, c, hi, ho, hst, hat⟩ := hs.2
        exact ⟨i, e, b, s, c, hi, ho, hst.congr (by rfl) (by rfl), hat⟩

/-- **A `Write` of a disciplined run keeps the invariant.**

**Proof sketch.** By the area of the sector. The system file is none of the map, a directory write
is `Inv.writeDir`, and a data write is `Inv.writeData`. -/
theorem Inv.write (hg : g.Regular) (h : Inv g l.ops l.written dk)
    (hdp : DistinctPointers g.dpb dk.dir) {r : ℕ}
    (hw : Disk.write track sector dma dk = .ok r dk') (hfine : HostFine dk dk')
    (hd : ∀ n, dk.area track sector = some (.directory n) →
      Disciplined dk.dpb l.ops dk.dir dk'.dir) :
    Inv g (l.write dk dk' track sector dma).ops (l.write dk dk' track sector dma).written dk' ∧
      DistinctPointers g.dpb dk'.dir := by
  rcases write_cases hw with ⟨harea, a, hok, rfl⟩ | ⟨n, harea, hdir⟩ | ⟨sid, harea, hsid, rfl⟩
  · refine ⟨?_, hdp⟩
    rw [Ledger.write, harea]
    obtain ⟨-, c, -, hfiles⟩ := Host.contents_write hok
    refine h.host fun k p hk => ?_
    have hne := denotes_ne_cpmsys h.names.path (h.names.denotes k p hk)
    rw [← h.boot] at hne
    rw [hfiles, Function.update_of_ne hne]
  · have hdisc := hd _ harea
    rw [Ledger.write, harea]
    rw [h.shaped.dpb] at hdisc ⊢
    exact ⟨h.writeDir hg hdir hfine hdisc, hdisc.pointers⟩
  · rw [Ledger.write, harea]
    refine ⟨h.writeData ?_ dma, hdp⟩
    rw [← h.shaped.datastart]
    exact hsid

/-- The loop of `Read` over the directory changes nothing but the record of calls. -/
lemma readSector_frame (sid : ℕ) (es : List CpmDir) : ∀ (dma : Sector) (dk : Disk), ∃ d host,
    readSector sid es dma dk = .ok d { dk with host := host } ∧ host.node = dk.host.node := by
  induction es with
  | nil => exact fun dma dk => ⟨dma, dk.host, rfl, rfl⟩
  | cons e es ih =>
    intro dma dk
    rw [readSector, Exc.get_bind]
    split
    · rw [Exc.bind_of_ok (readHost_apply _ _ _ _)]
      obtain ⟨d, host, h1, h2⟩ := ih _ _
      exact ⟨d, host, h1, h2.trans (Host.node_read ..)⟩
    · exact ih dma dk

/-- Reading a directory sector changes nothing. -/
lemma readDir_frame {n : ℕ} {d : Sector} (h : readDir n dk = .ok d dk') : dk' = dk := by
  have hat : ∀ (m : ℕ) (dk₁ dk₂ : Disk) (e : CpmDir), dirAt m dk₁ = .ok e dk₂ → dk₂ = dk₁ := by
    intro m dk₁ dk₂ e he
    unfold dirAt at he
    split at he
    · cases he
      rfl
    · cases he
  simp only [readDir, Exc.bind_ok] at h
  obtain ⟨e₀, dk₀, h0, e₁, dk₁, h1, e₂, dk₂, h2, e₃, dk₃, h3, h4⟩ := h
  cases h4
  rw [hat _ _ _ _ h3, hat _ _ _ _ h2, hat _ _ _ _ h1, hat _ _ _ _ h0]

/-- **`Read` changes nothing but the record of calls.**

**Proof sketch.** By the area of the sector. Reading changes the host by the record of calls only,
and the disk in no other way. -/
lemma read_frame {r : ℕ × Sector} (h : read track sector dma dk = .ok r dk') :
    ∃ host, dk' = { dk with host := host } ∧ host.node = dk.host.node := by
  cases ha : dk.getAbsSector track sector with
  | none =>
    rw [read_badIndex ha] at h
    cases h
  | some a =>
    by_cases h1 : a < dk.dirstart
    · rw [read_system ha h1] at h
      simp only at h
      split at h
      · cases h
        exact ⟨_, rfl, Host.node_read ..⟩
      · cases h
    · have ha' : dk.getAbsSector track sector = some (a - dk.dirstart + dk.dirstart) := by
        rw [ha, Nat.sub_add_cancel (Nat.not_lt.mp h1)]
      by_cases h2 : a - dk.dirstart < dk.datastart
      · rw [read_dir ha' h2, Exc.bind_ok] at h
        obtain ⟨d, dk₁, h3, h4⟩ := h
        cases h4
        exact ⟨dk.host, readDir_frame h3, rfl⟩
      · rw [read_data ha' (Nat.not_lt.mp h2)] at h
        split at h
        · cases h
          exact ⟨dk.host, rfl, rfl⟩
        · obtain ⟨d, host, h3, h4⟩ := readSector_frame (a - dk.dirstart) dk.dir dma dk
          rw [Exc.bind_of_ok h3] at h
          cases h
          exact ⟨host, rfl, h4⟩

/-- **A read delivers what the ledger says.**

**Proof sketch.** A sector of the ledger is cached, or stored in a host file. In the second case
the entry that lists its block is the one that owns it, and its lookup succeeds, so its file is the
one with the sector. -/
theorem Inv.read (hg : g.Regular) (h : Inv g ops written dk) (hdp : DistinctPointers g.dpb dk.dir)
    (hmap : Mapped dk track sector) {r : ℕ × Sector}
    (hr : Disk.read track sector dma dk = .ok r dk') (hfine : HostFine dk dk') {sid : ℕ}
    {d : Sector} (harea : dk.area track sector = some (.data sid)) (hw : written sid = some d) :
    r = (0, d) := by
  obtain ⟨habs, hds⟩ := area_data harea
  rw [read_data habs hds] at hr
  rcases h.kept sid d hw with hc | ⟨hnot, i, e, b, s, c, hi, ho, hst, hat⟩
  · rw [hc] at hr
    cases hr
    rfl
  · have hlook : dk.cache.lookup sid = none := AList.lookup_eq_none.mpr hnot
    have he := List.mem_of_getElem? hi
    have hdat := h.data sid d hw
    have hone : OneLister dk.dpb dk.dir sid := by
      rw [h.shaped.dpb]
      exact hdp.oneLister (DataSector.block_ne_zero hg hdat)
    have hlists : e.Lists dk.dpb sid := by
      rw [h.shaped.dpb]
      exact ho.lists
    obtain ⟨p, hp⟩ := Option.isSome_iff_exists.mp (hmap sid harea hnot e he hlists)
    have hcp : dk.host.contents (normal p) = some c := by
      cases hst with
      | doomed h1 _ =>
        rw [hp] at h1
        cases h1
      | home q h1 h2 =>
        cases h1 with
        | direct h3 =>
          rw [hp] at h3
          cases h3
          exact h2
        | ahead m h3 _ _ =>
          rw [hp] at h3
          cases h3
        | behind m h3 _ _ =>
          rw [hp] at h3
          cases h3
    have hoff := ho.fileOffset hg hdp he hdat
    rw [← h.shaped.dpb] at hoff hat
    rw [hlook] at hr
    simp only at hr
    rw [Exc.bind_apply, readSector_eq hone, hone.owner_eq he hlists] at hr
    simp only [hp, Option.getD_some, hoff] at hr
    cases hr
    -- the call did not fail
    obtain ⟨ok, hcalls, hiff⟩ := Host.read_snd dk.host p (place dk.dpb e.getExtNumber b s)
    have hok : ok = true := by
      refine hfine ⟨.read p (place dk.dpb e.getExtNumber b s), ok⟩ ?_
      simp only [hcalls, List.drop_left, List.mem_singleton]
    obtain ⟨bs, hbs⟩ := Option.isSome_iff_exists.mp (hiff.mp hok)
    obtain ⟨c', hc', rfl⟩ := Host.read_eq_some hbs
    rw [hcp] at hc'
    cases hc'
    simp only [hbs, hat.overlay]

/-! ## Runs -/

/-- **An access of a disciplined run keeps the invariant.** -/
theorem Inv.step (hg : g.Regular) {a : Access} {l' : Ledger} (h : Inv g l.ops l.written dk)
    (hdp : DistinctPointers g.dpb dk.dir) (hs : Step a dk l dk' l') :
    Inv g l'.ops l'.written dk' ∧ DistinctPointers g.dpb dk'.dir := by
  cases a with
  | read track sector dma =>
    obtain ⟨⟨r, hr⟩, -, -, rfl⟩ := hs
    obtain ⟨host, rfl, hhost⟩ := read_frame hr
    exact ⟨h.host fun k p _ => by rw [Host.contents_congr hhost], hdp⟩
  | write track sector dma =>
    obtain ⟨⟨r, hw⟩, hd, hfine, rfl⟩ := hs
    exact h.write hg hdp hw hfine hd

/-- **Coherence along a run** from any state with the invariant.

**Proof sketch.** Induction on the accesses. Each of them keeps the invariant (`Inv.step`), and a
read gives what was written (`Inv.read`). -/
theorem Inv.coherent (hg : g.Regular) : ∀ {as : List Access} {dk : Disk} {l : Ledger},
    Inv g l.ops l.written dk → DistinctPointers g.dpb dk.dir → Keeps as dk l →
    Coherent as dk l := by
  intro as
  induction as with
  | nil => exact fun _ _ _ => trivial
  | cons a as ih =>
    rintro dk l h hdp ⟨dk', l', hs, hrest⟩
    obtain ⟨h', hdp'⟩ := h.step hg hdp hs
    have hgo := ih h' hdp' hrest
    cases a with
    | read track sector dma =>
      obtain ⟨⟨r, hr⟩, hmap, hfine, rfl⟩ := hs
      intro r' dk'' hr'
      rw [hr] at hr'
      cases hr'
      exact ⟨fun sid d ha hw => h.read hg hdp hmap hr hfine ha hw, hgo⟩
    | write track sector dma =>
      obtain ⟨⟨r, hw⟩, -, -, rfl⟩ := hs
      intro r' dk'' hw'
      rw [hw] at hw'
      cases hw'
      exact hgo

/-- A file below 512 KiB has an extent. -/
lemma fileDirs_pos {d : Dpb} {size : ℕ} (h : size < 524288) : 0 < fileDirs d size := by
  have hpos : 0 < d.blockSize := by
    rw [Dpb.blockSize_eq]
    exact Nat.mul_pos (by omega) (Nat.two_pow_pos _)
  have hblocks : fileBlocks d size ≤ size := by
    rw [fileBlocks, Nat.div_le_iff_le_mul_add_pred hpos]
    have := Nat.le_mul_of_pos_left size hpos
    omega
  have hdirs : fileBlocks d size / d.blockPtrType ≤ size := (Nat.div_le_self _ _).trans hblocks
  rw [fileDirs, Nat.mod_eq_of_lt (by omega)]
  exact Nat.add_pos_left Nat.one_pos _

/-- **An imported disk has the invariant**, with an empty ledger.

**Proof sketch.** The layout of the import gives distinct pointers, unique slots, and an entry of
extent 0 for every name, since a file below 512 KiB has at least one extent. Every path of the map
was found in the drive directory (`sourced_of_build`). The cache and the ledger are empty. -/
lemma inv_of_build {readdir : Bytes → Option (List Bytes)} {path : Bytes} {host : Host}
    (hg : g.Regular) (hpath : path ≠ [])
    (hslash : ∀ d ns, readdir d = some ns → ∀ n ∈ ns, slash ∉ n)
    (hbuild : build readdir path g host = .ok () dk)
    (hsmall : ∀ k p size, dk.cpm2unix.lookup k = some p → dk.host.stat p = some (.regular size) →
      size < 524288)
    (hord : ∀ e ∈ dk.dir, e.Used → e.Ordinary) :
    Inv g Ledger.start.ops Ledger.start.written dk ∧ DistinctPointers g.dpb dk.dir := by
  obtain ⟨hb, -⟩ := built_of_build hg hbuild
  obtain ⟨hp, hh, hsource⟩ := sourced_of_build hbuild
  have hframe := hb.frame
  obtain ⟨done, blocks, hl, -, hsome⟩ := hb.laid
  have hdpb : dk.dpb = g.dpb := hframe.dpb
  have hdist := hl.distinct
  rw [hdpb] at hdist
  refine ⟨⟨hframe.shaped, ?_, ⟨by rw [hp]; exact hpath, fun k p hk => ?_, fun k p hk => ?_,
    fun k p hk => ?_, hl.unique, hord, fun o ho => (nomatch ho), fun k l ho => (nomatch ho)⟩,
    fun sid hsid => ?_, fun sid d hw => (nomatch hw), fun sid d hw => (nomatch hw)⟩, hdist⟩
  · rw [hframe.bootblock, hp]
    rfl
  · obtain ⟨u, hu⟩ := hsource k p hk
    rw [hp]
    exact hu.denotes hpath hslash
  · obtain ⟨size, hsize, hdone, -⟩ := hsome k p hk
    obtain ⟨e, he, hu, hek, hnum, -⟩ := hl.entered k 0 (by
      rw [hdone]
      exact fileDirs_pos (hsmall k p size hk hsize))
    obtain ⟨i, hi⟩ := List.mem_iff_getElem?.mp he
    refine ⟨i, e, hi, hu, hek, ?_⟩
    rw [(hord e he hu).ext_eq, (numbered_iff.mp hnum).1]
  · obtain ⟨size, hsize, -⟩ := hsome k p hk
    obtain ⟨c, hc, -⟩ := Host.contents_of_stat hsize
    exact ⟨c, hc⟩
  · rw [hframe.cache] at hsid
    exact absurd hsid (AList.notMem_empty sid)

/-- **Sector coherence across cache and flush.** On a disk of a shipped geometry that was imported
from a host directory, along every run that keeps the discipline: from the last `Write` of a data
sector until an entry that lists its block is erased, every `Read` of it delivers exactly what was
written, however many directory writes there are in between. -/
theorem reads_coherent {readdir : Bytes → Option (List Bytes)} {path : Bytes} {host : Host}
    {as : List Access} (hg : g.Shipped) (hpath : path ≠ [])
    (hslash : ∀ d ns, readdir d = some ns → ∀ n ∈ ns, slash ∉ n)
    (hbuild : build readdir path g host = .ok () dk)
    (hsmall : ∀ k p size, dk.cpm2unix.lookup k = some p → dk.host.stat p = some (.regular size) →
      size < 524288)
    (hord : ∀ e ∈ dk.dir, e.Used → e.Ordinary) (hkeep : Keeps as dk Ledger.start) :
    Coherent as dk Ledger.start := by
  obtain ⟨h, hdp⟩ := inv_of_build hg.regular hpath hslash hbuild hsmall hord
  exact h.coherent hg.regular hdp hkeep

/-! ## A run -/

/-- The entry of a file `FOO` with one block. -/
def fooEntry : CpmDir :=
  { CpmDir.empty with
    st := 0
    fx := fun i => [ch 'F', ch 'O', ch 'O'].getD i (ch ' ')
    rc := 1
    al := fun i => if i = 0 then 2 else 0 }

/-- The directory sector with the file `FOO` alone. -/
def fooSector : Sector := fun i =>
  (if i.val < 32 then fooEntry else CpmDir.empty).toBytes ⟨i.val % 32, column_lt i⟩

/-- A run that writes a sector of block 2, then the entry that lists it, and reads the sector. -/
def fooRun : List Access :=
  [.write 2 20 fun _ => 7, .write 2 1 fooSector, .read 2 20 fun _ => 0]

/-- An empty 8-inch disk. -/
def fooStart : Disk := blank drivePath ibm8 emptyDrive

/-- The disk after the first access. -/
def fooWritten : Disk := { fooStart with cache := fooStart.cache.insert 16 fun _ => 7 }

/-- The disk after the second access. -/
def fooMade : Disk := Exc.final (write 2 1 fooSector fooWritten)

/-- The directory of an 8-inch disk with one entry. -/
def alone (e : CpmDir) : List CpmDir := e :: List.replicate 63 CpmDir.empty

/-- The used entry of a directory with one entry. -/
lemma used_alone {e f : CpmDir} {i : ℕ} (h : (alone e)[i]? = some f) (hu : f.Used) :
    i = 0 ∧ f = e := by
  cases i with
  | zero => exact ⟨rfl, (Option.some.inj h).symm⟩
  | succ i =>
    rw [alone, List.getElem?_cons_succ] at h
    rw [List.eq_of_mem_replicate (List.mem_of_getElem? h)] at hu
    exact absurd hu (by decide)

/-- The operations between two directories with one entry. -/
lemma opsOf_alone (e f : CpmDir) : opsOf (alone e) (alone f) = (opOf e f).toList := by
  have hnone : opOf CpmDir.empty CpmDir.empty = none := by decide
  cases ho : opOf e f with
  | none => simp [opsOf, alone, ho, hnone]
  | some o => simp [opsOf, alone, ho, hnone]

/-- **A directory write that keeps the discipline**, for directories with one entry: the entry is
made, grows, or is erased.

**Proof sketch.** The only slot in use is the first one, so that two entries are the same. The only
operation that one slot can make is erasing. -/
lemma disciplined_alone {e f : CpmDir} (hord : f.Used → f.Ordinary)
    (hptr : f.Used → ∀ b c : Fin 16, f.pointer 16 b = f.pointer 16 c → f.pointer 16 b ≠ 0 → b = c)
    (hgrow : e.Used → f.Used → f.getName = e.getName ∧ e.GrowsTo 16 f) :
    Disciplined ibm8.dpb [] (alone e) (alone f) := by
  have hbps : ibm8.dpb.blockPtrType = 16 := by decide
  have hop : ∀ o ∈ opsOf (alone e) (alone f), e.Used ∧ ¬ f.Used ∧ o = .erase e.getName := by
    intro o ho
    rw [opsOf_alone, Option.mem_toList, opOf] at ho
    split at ho
    · rename_i he
      split at ho
      · rename_i hf
        rw [if_neg (not_not.mpr (hgrow he hf).1)] at ho
        cases ho
      · rename_i hf
        exact ⟨he, hf, (Option.some.inj ho).symm⟩
    · cases ho
  refine ⟨?_, ?_, ?_, ?_, ?_, ?_, ?_⟩
  · intro i j e' f' b c hi hj hue huf hb hc heq hne
    obtain ⟨rfl, rfl⟩ := used_alone hi hue
    obtain ⟨rfl, rfl⟩ := used_alone hj huf
    rw [hbps] at hb hc heq hne
    exact ⟨rfl, congrArg Fin.val (hptr hue ⟨b, hb⟩ ⟨c, hc⟩ heq hne)⟩
  · intro i j e' f' hi hj hue huf _ _ _
    rw [(used_alone hi hue).1, (used_alone hj huf).1]
  · intro e' he hu
    obtain ⟨i, hi⟩ := List.mem_iff_getElem?.mp he
    obtain ⟨-, rfl⟩ := used_alone hi hu
    exact hord hu
  · intro i e' f' hi hj hue huf
    obtain ⟨rfl, rfl⟩ := used_alone hi hue
    obtain ⟨-, rfl⟩ := used_alone hj huf
    rw [hbps]
    exact (hgrow hue huf).2
  · intro o ho o' ho' _ _ _
    rw [(hop o ho).2.2, (hop o' ho').2.2]
  · intro k l ho
    have herase := (hop _ ho).2.2
    cases herase
  · intro i e' f' hi hj hue huf o ho
    obtain ⟨-, rfl⟩ := used_alone hj huf
    exact absurd huf (hop o ho).2.1

/-- The directory after the second access. -/
lemma dir_fooMade : fooMade.dir = alone (entryOf fooSector 0) := by
  decide

/-- The only used entry after the second access. -/
lemma used_fooMade {i : ℕ} {e : CpmDir} (h : fooMade.dir[i]? = some e) (hu : e.Used) :
    i = 0 ∧ e = entryOf fooSector 0 := by
  rw [dir_fooMade] at h
  exact used_alone h hu

/-- The empty disk has no used entry. -/
lemma unused_fooStart {e : CpmDir} (h : e ∈ fooStart.dir) : ¬ e.Used := by
  rw [List.eq_of_mem_replicate h]
  decide

/-- Making the file keeps the discipline. -/
lemma disciplined_foo : Disciplined fooWritten.dpb [] fooWritten.dir fooMade.dir := by
  rw [dir_fooMade]
  exact disciplined_alone (e := CpmDir.empty) (fun _ => by decide +kernel)
    (fun _ => by decide) fun hu => absurd hu (by decide)

/-- The ledger after the first access. -/
def fooLedger : Ledger := Ledger.start.write fooStart fooWritten 2 20 fun _ => 7

/-- The first access keeps the discipline. -/
lemma step_fooWritten :
    Step (.write 2 20 fun _ => 7) fooStart Ledger.start fooWritten fooLedger := by
  have habs : fooStart.getAbsSector 2 20 = some 68 := by decide
  have harea : fooStart.area 2 20 = some (.data 16) := by
    rw [area, habs]
    rfl
  refine ⟨⟨0, ?_⟩, fun n hn => ?_, fun ev hev => ?_, rfl⟩
  · rw [write_apply habs]
    rfl
  · rw [harea] at hn
    cases hn
  · cases hev

/-- The second access keeps the discipline. -/
lemma step_fooMade : Step (.write 2 1 fooSector) fooWritten fooLedger fooMade
    (fooLedger.write fooWritten fooMade 2 1 fooSector) := by
  obtain ⟨r, hw⟩ := Exc.ok_of_isOk
    (show Exc.isOk (write 2 1 fooSector fooWritten) = true by decide)
  have hfine : fooMade.host.calls.all (·.ok) = true := by decide
  exact ⟨⟨r, hw⟩, fun _ _ => disciplined_foo, fun ev hev =>
    List.all_eq_true.mp hfine ev (List.mem_of_mem_drop hev), rfl⟩

/-- The run keeps the discipline. -/
lemma keeps_foo : Keeps fooRun fooStart Ledger.start := by
  obtain ⟨r, hr⟩ := Exc.ok_of_isOk
    (show Exc.isOk (read 2 20 (fun _ => 0) fooMade) = true by decide)
  have hfine : (Exc.final (read 2 20 (fun _ => 0) fooMade)).host.calls.all (·.ok) = true := by
    decide
  have hmapped : (fooMade.cpm2unix.lookup (entryOf fooSector 0).getName).isSome := by
    decide
  refine ⟨fooWritten, _, step_fooWritten, fooMade, _, step_fooMade, _, _, ⟨⟨r, hr⟩,
    fun sid _ _ e he hl => ?_, fun ev hev =>
      List.all_eq_true.mp hfine ev (List.mem_of_mem_drop hev), rfl⟩, trivial⟩
  obtain ⟨i, hi⟩ := List.mem_iff_getElem?.mp he
  rw [(used_fooMade hi hl.1).2]
  exact hmapped

/-- A sector that is written before its entry is read back after it. -/
theorem reads_coherent_foo : Coherent fooRun fooStart Ledger.start := by
  have hbuild : build (fun _ => some []) drivePath ibm8 emptyDrive = .ok () fooStart := by rfl
  exact reads_coherent (.inl rfl) (by decide) (by simp) hbuild (fun k p _ hk => nomatch hk)
    (fun e he hu => absurd hu (unused_fooStart he)) keeps_foo

end Disk

end Cpm22
