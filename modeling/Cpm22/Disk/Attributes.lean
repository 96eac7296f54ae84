import Cpm22.Disk.Flush

set_option relaxedAutoImplicit false
set_option autoImplicit false

/-!
# Changing the attributes of a file

CP/M keeps the attributes of a file in the highest bits of its eleven name bytes. The BDOS sets
them by writing directory sectors that differ from the old ones in these bits only. `GetName` takes
the bits as part of the name, so that for `Write` such a change is a new name: the host file is
renamed, and the entries of the other extents lose their host file. This file has the condition
under which a change of attributes leaves the host files and the name map alone: that it changes
no name byte of a used entry.

## Main definitions

* `Cpm22.CpmDir.AttributesOf` — an entry with other attributes.
* `Cpm22.Disk.AttributesOnly` — a directory sector that changes attributes only.
* `Cpm22.Disk.Untouched` — the host files and the host paths of the entries stay.
* `Cpm22.Disk.Unrenamed` — no used entry of the sector changes its name.

## Main results

* `Cpm22.Disk.flush_withDir` — `Flush` does not depend on what it does not read of the directory.
* `Cpm22.Disk.attributes_untouched` — the condition.
* `Cpm22.Disk.readOnly_renames` — setting a file to read-only.
-/

namespace Cpm22

open HostPath HostFs

/-! ## Entries -/

namespace CpmDir

/-- **`f` is `e` with other attributes**: same status, extent, record count and pointers, and name
bytes that differ in their highest bit only. -/
structure AttributesOf (e f : CpmDir) : Prop where
  st : f.st = e.st
  xl : f.xl = e.xl
  xh : f.xh = e.xh
  rc : f.rc = e.rc
  al : f.al = e.al
  fx : ∀ i, f.fx i &&& 0x7f = e.fx i &&& 0x7f
  ex : ∀ i, f.ex i &&& 0x7f = e.ex i &&& 0x7f

/-- `f` is `e` as far as `Flush` and the name map are concerned: both are unused, or they differ
in the byte count only. -/
structure Similar (e f : CpmDir) : Prop where
  used : f.Used ↔ e.Used
  same : e.Used → f = { e with bc := f.bc }

/-- An entry is similar to itself. -/
lemma Similar.refl (e : CpmDir) : Similar e e := ⟨Iff.rfl, fun _ => rfl⟩

/-- Similar entries list the same blocks. -/
lemma Similar.lists {e f : CpmDir} (h : Similar e f) (d : Dpb) (sid : ℕ) :
    f.Lists d sid ↔ e.Lists d sid := by
  by_cases hu : e.Used
  · rw [h.same hu]
    exact Iff.rfl
  · exact iff_of_false (fun hl => hu (h.used.mp hl.1)) fun hl => hu hl.1

/-- Similar used entries have the same name. -/
lemma Similar.name {e f : CpmDir} (h : Similar e f) (hu : e.Used) : f.getName = e.getName := by
  rw [h.same hu]
  rfl

/-- Similar used entries have their blocks at the same positions. -/
lemma Similar.index {e f : CpmDir} (h : Similar e f) (hu : e.Used) (block bps : ℕ) :
    f.findBlockIndex block bps = e.findBlockIndex block bps := by
  rw [h.same hu]
  rfl

/-- Other attributes and the same name make a similar entry. -/
lemma AttributesOf.similar {e f : CpmDir} (h : AttributesOf e f)
    (hname : e.Used → f.getName = e.getName) : Similar e f := by
  have hused : f.Used ↔ e.Used := by rw [Used, Used, h.st]
  refine ⟨hused, fun hu => ?_⟩
  obtain ⟨-, hfx, hex⟩ := getName_inj (hname hu)
  obtain ⟨st, fx, ex, xl, bc, xh, rc, al⟩ := f
  obtain ⟨h1, h2, h3, h4, h5, -, -⟩ := h
  simp only at h1 h2 h3 h4 h5 hfx hex
  simp only [h1, h2, h3, h4, h5, hfx, hex]

end CpmDir

namespace Disk

variable {dk dk' : Disk} {n : ℕ} {d : Sector} {sid : ℕ} {data : Sector}

/-! ## `Flush` with similar entries -/

/-- A disk with another directory. -/
def withDir (D : List CpmDir) (dk : Disk) : Disk := { dk with dir := D }

/-- The inner loop of `Flush` over similar entries.

**Proof sketch.** Induction on the entries. Similar entries list the block together, have the same
host file and the same place in it. -/
lemma flushSector_withDir (D : List CpmDir) {es fs : List CpmDir}
    (h : List.Forall₂ CpmDir.Similar es fs) : ∀ (live : Bool) (dk : Disk),
      flushSector sid data live fs (withDir D dk) =
        Exc.mapState (withDir D) (flushSector sid data live es dk) := by
  induction h with
  | nil => exact fun _ _ => rfl
  | @cons e f es fs hef _ ih =>
    intro live dk
    by_cases he : e.Lists dk.dpb sid
    · have hf : f.Lists (withDir D dk).dpb sid := (hef.lists _ _).mpr he
      cases hp : dk.cpm2unix.lookup e.getName with
      | none =>
        have hp' : (withDir D dk).cpm2unix.lookup f.getName = none := by
          rw [hef.name he.1]
          exact hp
        rw [flushSector_unmapped he hp, flushSector_unmapped hf hp']
        rfl
      | some p =>
        have hp' : (withDir D dk).cpm2unix.lookup f.getName = some p := by
          rw [hef.name he.1]
          exact hp
        rw [flushSector_lists he hp, flushSector_lists hf hp']
        cases live with
        | false => rfl
        | true =>
          have hflushed : (withDir D dk).flushed sid data f p =
              withDir D (dk.flushed sid data e p) := by
            simp only [flushed, withDir, hef.index he.1]
          simp only [if_true, hflushed]
          exact ih false _
    · have hf : ¬ f.Lists (withDir D dk).dpb sid := fun hf => he ((hef.lists _ _).mp hf)
      rw [flushSector_other he, flushSector_other hf]
      exact ih live dk

/-- One round of `Flush` with similar entries. -/
lemma flushOne_withDir {D : List CpmDir} (h : List.Forall₂ CpmDir.Similar dk.dir D) :
    flushOne sid (withDir D dk) = Exc.mapState (withDir D) (flushOne sid dk) := by
  have hcache : (withDir D dk).cache = dk.cache := rfl
  rw [flushOne_apply, flushOne_apply, hcache]
  cases dk.cache.lookup sid with
  | none => rfl
  | some data => exact flushSector_withDir D h true dk

/-- The rounds of `Flush` with similar entries. -/
lemma flushAll_withDir {D : List CpmDir} {sids : List ℕ} : ∀ {dk : Disk},
    List.Forall₂ CpmDir.Similar dk.dir D →
      flushAll sids (withDir D dk) = Exc.mapState (withDir D) (flushAll sids dk) := by
  induction sids with
  | nil => exact fun _ => rfl
  | cons sid sids ih =>
    intro dk h
    refine Exc.bind_mapState (flushOne_withDir h) fun _ dk₁ h₁ => ih ?_
    have hdir : dk₁.dir = dk.dir := (flushOne_settles h₁).1.dir
    rw [hdir]
    exact h

/-- **`Flush` does not depend on what it does not read of the directory.** -/
lemma flush_withDir {D : List CpmDir} (h : List.Forall₂ CpmDir.Similar dk.dir D) :
    flush (withDir D dk) = Exc.mapState (withDir D) (flush dk) := by
  rw [flush_apply, flush_apply]
  exact Exc.bind_mapState (flushAll_withDir h) fun _ _ _ => rfl

/-- `Flush` does nothing when no entry lists a cached sector. -/
lemma flush_of_quiet (hq : Quiet dk) : flush dk = .ok 0 dk := by
  have hall : ∀ sids, flushAll sids dk = .ok () dk := by
    intro sids
    induction sids with
    | nil => rfl
    | cons sid sids ih =>
      have hone : flushOne sid dk = .ok () dk := by
        rw [flushOne_apply]
        cases hc : dk.cache.lookup sid with
        | none => rfl
        | some data =>
          have hmem : sid ∈ dk.cache := AList.lookup_isSome.mp (by rw [hc]; rfl)
          exact flushSector_skip (hq sid hmem)
      rw [flushAll, Exc.bind_of_ok hone, ih]
  rw [flush_apply, Exc.bind_of_ok (hall _)]
  rfl

/-! ## The four entries of a sector -/

/-- **A directory sector that changes attributes only.** -/
def AttributesOnly (dk : Disk) (n : ℕ) (d : Sector) : Prop :=
  ∀ idx : Fin 4, ∃ old, dk.dir[n * 4 + idx.val]? = some old ∧ old.AttributesOf (entryOf d idx)

/-- **No used entry of the sector changes its name**: its name bytes are the same, or a NUL hides
the change from the comparison of entries. -/
def Unrenamed (dk : Disk) (n : ℕ) (d : Sector) : Prop :=
  ∀ (idx : Fin 4) (old : CpmDir), dk.dir[n * 4 + idx.val]? = some old → old.Used →
    old.eq (entryOf d idx) = true ∨ (entryOf d idx).getName = old.getName

/-- Replacing an entry by one similar to the old one. -/
lemma similar_set {es fs : List CpmDir} (h : List.Forall₂ CpmDir.Similar es fs) :
    ∀ {m : ℕ} {e f : CpmDir}, es[m]? = some e → e.Similar f →
      List.Forall₂ CpmDir.Similar es (fs.set m f) := by
  induction h with
  | nil => exact fun hm _ => nomatch hm
  | @cons e₀ f₀ es fs hef hrest ih =>
    intro m e f hm hsim
    cases m with
    | zero =>
      obtain rfl : e₀ = e := Option.some.inj hm
      exact .cons hsim hrest
    | succ m => exact .cons hef (ih hm hsim)

/-- Writing an entry that keeps its name.

**Proof sketch.** An entry that compares equal is not written. Another one has the name of the old
one or takes the place of an unused one, so that its change does nothing on the host. -/
lemma writeEntry_similar {m : ℕ} {old new : CpmDir} (hold : dk.dir[m]? = some old)
    (hattr : old.AttributesOf new)
    (hname : old.Used → old.eq new = true ∨ new.getName = old.getName) :
    ∃ e, old.Similar e ∧ writeEntry m new dk = .ok () (withDir (dk.dir.set m e) dk) := by
  by_cases heq : old.eq new = true
  · refine ⟨old, .refl old, ?_⟩
    have hset : dk.dir.set m old = dk.dir := by
      obtain ⟨hlt, rfl⟩ := List.getElem?_eq_some_iff.mp hold
      exact List.set_getElem_self hlt
    rw [writeEntry_of_eq hold heq, hset]
    rfl
  · have hsim : old.Similar new :=
      hattr.similar fun hu => (hname hu).resolve_left heq
    refine ⟨new, hsim, ?_⟩
    have hskip : ¬ ChangesHost old new := by
      rintro (⟨hn, ho, -⟩ | ⟨hn, ho, -⟩ | ⟨-, ho, hne, -⟩)
      · exact hn (hsim.used.mpr ho)
      · exact ho (hsim.used.mp hn)
      · exact hne (hsim.name ho)
    rw [writeEntry_of_ne hold heq, Exc.bind_of_ok (hostChange_skip hskip dk)]
    rfl

/-- The entries of a sector that keeps the names: only the directory changes, to similar entries.

**Proof sketch.** Induction on the entries that are left; each slot is written once, so that it has
its old entry before. -/
lemma writeEntries_similar {extno : ℕ} {dir : List CpmDir} : ∀ {idxs : List (Fin 4)} {dk : Disk},
    idxs.Nodup → List.Forall₂ CpmDir.Similar dir dk.dir →
      (∀ idx ∈ idxs, ∃ old, dk.dir[extno + idx.val]? = some old ∧
        dir[extno + idx.val]? = some old ∧ old.AttributesOf (entryOf d idx) ∧
        (old.Used → old.eq (entryOf d idx) = true ∨ (entryOf d idx).getName = old.getName)) →
      ∃ D, List.Forall₂ CpmDir.Similar dir D ∧
        writeEntries extno d idxs dk = .ok () (withDir D dk) := by
  intro idxs
  induction idxs with
  | nil => exact fun _ hdir _ => ⟨_, hdir, rfl⟩
  | cons idx idxs ih =>
    intro dk hnd hdir hslots
    rw [List.nodup_cons] at hnd
    obtain ⟨old, hold, hdold, hattr, hname⟩ := hslots idx (by simp)
    obtain ⟨e, hsim, hw⟩ := writeEntry_similar hold hattr hname
    have hdir' : List.Forall₂ CpmDir.Similar dir (dk.dir.set (extno + idx.val) e) :=
      similar_set hdir hdold hsim
    have hslots' : ∀ i ∈ idxs, ∃ old',
        (dk.dir.set (extno + idx.val) e)[extno + i.val]? = some old' ∧
        dir[extno + i.val]? = some old' ∧ old'.AttributesOf (entryOf d i) ∧
        (old'.Used → old'.eq (entryOf d i) = true ∨ (entryOf d i).getName = old'.getName) := by
      intro i hi
      obtain ⟨old', hold', hrest⟩ := hslots i (by simp [hi])
      exact ⟨old', (List.getElem?_set_ne (slot_ne hnd.1 hi)).trans hold', hrest⟩
    obtain ⟨D, hD, hrest⟩ :
        ∃ D, List.Forall₂ CpmDir.Similar dir D ∧ writeEntries extno d idxs
          (withDir (dk.dir.set (extno + idx.val) e) dk) = .ok () (withDir D dk) :=
      ih hnd.2 hdir' hslots'
    refine ⟨D, hD, ?_⟩
    rw [writeEntries, Exc.bind_of_ok hw, hrest]

/-- **A sector that keeps the names is written by `Flush` alone**, up to the directory. -/
lemma writeDir_similar (hattr : AttributesOnly dk n d) (hname : Unrenamed dk n d) :
    ∃ D, List.Forall₂ CpmDir.Similar dk.dir D ∧
      writeDir n d dk = Exc.mapState (withDir D) (flush dk) := by
  have hshift : n <<< 2 = n * 4 := Nat.shiftLeft_eq n 2
  have hrefl : List.Forall₂ CpmDir.Similar dk.dir dk.dir :=
    List.forall₂_same.mpr fun e _ => .refl e
  have hslots : ∀ idx ∈ ([0, 1, 2, 3] : List (Fin 4)), ∃ old,
      dk.dir[n * 4 + idx.val]? = some old ∧ dk.dir[n * 4 + idx.val]? = some old ∧
        old.AttributesOf (entryOf d idx) ∧
        (old.Used → old.eq (entryOf d idx) = true ∨ (entryOf d idx).getName = old.getName) := by
    intro idx _
    obtain ⟨old, hold, hattr⟩ := hattr idx
    exact ⟨old, hold, hold, hattr, hname idx old hold⟩
  obtain ⟨D, hD, hw⟩ := writeEntries_similar (by decide) hrefl hslots
  refine ⟨D, hD, ?_⟩
  rw [writeDir, hshift, Exc.bind_of_ok hw, flush_withDir hD]

/-! ## The condition -/

/-- **A directory write leaves the host names alone**: the host files are those that the `Flush` at
its end leaves, which are the old ones if no cached sector was waiting for it, and every used entry
has the host path it had before. -/
structure Untouched (dk dk' : Disk) : Prop where
  files : dk'.host.contents = (Exc.final (flush dk)).host.contents
  quiet : Quiet dk → dk'.host.contents = dk.host.contents
  paths : ∀ (i : ℕ) (e e' : CpmDir) (p : Bytes), dk.dir[i]? = some e → dk'.dir[i]? = some e' →
    e.Used → dk.cpm2unix.lookup e.getName = some p → dk'.cpm2unix.lookup e'.getName = some p

/-- A sector that keeps the names leaves the host names alone. -/
lemma untouched_of_unrenamed (hattr : AttributesOnly dk n d) (hname : Unrenamed dk n d) :
    Untouched dk (Exc.final (writeDir n d dk)) := by
  obtain ⟨D, hD, hw⟩ := writeDir_similar hattr hname
  have hfinal : Exc.final (writeDir n d dk) = withDir D (Exc.final (flush dk)) := by
    rw [hw, Exc.final_mapState]
  have hframe : FlushFrame dk (Exc.final (flush dk)) := frame_flush.final (FlushFrame.refl dk)
  rw [hfinal]
  refine ⟨rfl, fun hq => ?_, fun i e e' p hi hi' hu hp => ?_⟩
  · rw [flush_of_quiet hq]
    rfl
  · have hsim : e.Similar e' := by
      have hi'' : D[i]? = some e' := hi'
      obtain ⟨hlt, rfl⟩ := List.getElem?_eq_some_iff.mp hi
      obtain ⟨hlt', rfl⟩ := List.getElem?_eq_some_iff.mp hi''
      exact hD.get hlt hlt'
    rw [hsim.name hu]
    exact hframe.cpm2unix ▸ hp

/-! ## A name that changes -/

/-- **Where a name can lead after a change**: to the same host path as before, to nothing, or to
the path `mkhostname` gives it. -/
def Leads (dk dk' : Disk) : Prop :=
  ∀ k, dk'.cpm2unix.lookup k = dk.cpm2unix.lookup k ∨ dk'.cpm2unix.lookup k = none ∨
    dk'.cpm2unix.lookup k = some (hostPath dk.path k)

/-- Changes follow each other. -/
lemma Leads.trans {dk'' : Disk} (h : Leads dk dk') (h' : Leads dk' dk'')
    (hpath : dk'.path = dk.path) : Leads dk dk'' := by
  intro k
  rcases h' k with hk | hk | hk
  · rw [hk]
    exact h k
  · exact .inr (.inl hk)
  · exact .inr (.inr (by rw [hk, hpath]))

/-- A change of the host.

**Proof sketch.** By the kind of the change. A name is taken out of the map, or the name of the new
entry is put into it; every other name stays as it was. -/
lemma leads_hostChange {old new : CpmDir} (h : hostChange old new dk = .ok () dk') :
    Leads dk dk' := by
  have herase : ∀ k l, (dk.cpm2unix.erase l).lookup k = dk.cpm2unix.lookup k ∨
      (dk.cpm2unix.erase l).lookup k = none := by
    intro k l
    by_cases hk : k = l
    · exact .inr (by rw [hk, AList.lookup_erase])
    · exact .inl (AList.lookup_erase_ne hk)
  intro k
  cases (hostChange_effect h).1 with
  | skip _ same => exact .inl (by rw [same])
  | delete p _ _ _ _ names _ =>
    rw [names]
    exact (herase k _).imp_right .inl
  | create _ _ _ names _ =>
    rw [names]
    by_cases hk : k = new.getName
    · exact .inr (.inr (by rw [hk, AList.lookup_insert]))
    · exact .inl (AList.lookup_insert_ne hk)
  | rename p c _ _ _ _ _ _ _ names _ =>
    rw [names]
    by_cases hk : k = new.getName
    · exact .inr (.inr (by rw [hk, AList.lookup_insert]))
    · rw [AList.lookup_insert_ne hk]
      exact (herase k _).imp_right .inl

/-- The entries of a sector. -/
lemma leads_writeEntries {extno : ℕ} {idxs : List (Fin 4)} : ∀ {dk : Disk},
    writeEntries extno d idxs dk = .ok () dk' → Leads dk dk' := by
  induction idxs with
  | nil =>
    intro dk h
    cases h
    exact fun k => .inl rfl
  | cons idx idxs ih =>
    intro dk h
    rw [writeEntries, Exc.bind_ok] at h
    obtain ⟨⟨⟩, dk₁, h1, h2⟩ := h
    have hstatic := static_writeEntry (extno + idx) (entryOf d idx) dk
    rw [h1] at hstatic
    refine Leads.trans ?_ (ih h2) hstatic.path
    obtain ⟨old, hold, ⟨-, rfl⟩ | ⟨heq, -⟩⟩ := dir_of_writeEntry h1
    · exact fun k => .inl rfl
    · rw [writeEntry_of_ne hold (by simp [heq]), Exc.bind_ok] at h1
      obtain ⟨⟨⟩, dk₂, hc, hset⟩ := h1
      cases hset
      have hleads := leads_hostChange hc
      exact fun k => hleads k

/-- A directory sector. -/
lemma leads_writeDir {r : ℕ} (h : writeDir n d dk = .ok r dk') : Leads dk dk' := by
  obtain ⟨dk₁, h1, -, hframe⟩ := writeDir_ok h
  intro k
  rw [hframe.cpm2unix]
  exact leads_writeEntries h1 k

/-- **The used entries of the sector have host files of their own**: each is in the name map, and
its host file is not the one that the written name stands for already. -/
def OwnFiles (dk : Disk) (n : ℕ) (d : Sector) : Prop :=
  ∀ (idx : Fin 4) (old : CpmDir), dk.dir[n * 4 + idx.val]? = some old → old.Used →
    ∃ p, dk.cpm2unix.lookup old.getName = some p ∧ ((entryOf d idx).getName ≠ old.getName →
      dk.cpm2unix.lookup (entryOf d idx).getName ≠ some p ∧
        hostPath dk.path (entryOf d idx).getName ≠ p)

/-- A sector that leaves the host names alone keeps the names. -/
lemma unrenamed_of_untouched {r : ℕ} (hw : writeDir n d dk = .ok r dk') (hown : OwnFiles dk n d)
    (h : Untouched dk dk') : Unrenamed dk n d := by
  intro idx old hold hu
  by_contra hren
  obtain ⟨hne, hname⟩ := not_or.mp hren
  obtain ⟨p, hp, hother⟩ := hown idx old hold hu
  obtain ⟨hnot, hpath⟩ := hother hname
  obtain ⟨-, -, hslots⟩ := dir_writeDir hw
  obtain ⟨old', hold', hnew⟩ := hslots idx
  obtain rfl : old = old' := Option.some.inj (hold.symm.trans hold')
  rw [kept, if_neg hne] at hnew
  have hsame := h.paths _ _ _ p hold hnew hu hp
  rcases leads_writeDir hw (entryOf d idx).getName with hk | hk | hk
  · exact hnot (hk ▸ hsame)
  · rw [hk] at hsame
    cases hsame
  · rw [hk] at hsame
    exact hpath (Option.some.inj hsame)

/-- **When a change of attributes leaves the host names alone.** For every disk state and every
directory sector that changes attributes only, the host files and the host paths of the entries
stay if no used entry changes its name bytes. If the write returns and the used entries of the
sector have host files of their own, they stay only then.

**Proof sketch.** Without a new name every entry is replaced by a similar one, and the write is the
`Flush` at its end (`writeDir_similar`). An entry with a new name has its slot, and the new name
leads to its old host path nowhere: the write can only make it lead to the path of `mkhostname`
(`leads_writeDir`). -/
theorem attributes_untouched {track sector : ℕ} (ha : dk.area track sector = some (.directory n))
    (hattr : AttributesOnly dk n d) :
    (Unrenamed dk n d → Untouched dk (Exc.final (write track sector d dk))) ∧
      ∀ r dk', write track sector d dk = .ok r dk' → OwnFiles dk n d → Untouched dk dk' →
        Unrenamed dk n d := by
  rw [write_directory ha]
  exact ⟨untouched_of_unrenamed hattr, fun r dk' hw hown => unrenamed_of_untouched hw hown⟩

/-! ## A file that becomes read-only -/

/-- The four entries of the directory sector with `FOO`. -/
def fooEntries (e : CpmDir) : Fin 4 → CpmDir := fun idx => if idx = 0 then e else CpmDir.empty

/-- The directory sector of `fooMade`. -/
lemma slots_fooMade (idx : Fin 4) :
    fooMade.dir[0 * 4 + idx.val]? = some (fooEntries (entryOf fooSector 0) idx) := by
  rw [dir_fooMade]
  fin_cases idx <;> rfl

/-- The directory sector with `FOO` in which the unused entry behind it is read-only. -/
def unusedSector : Sector := dirSector fun idx =>
  if idx = 1 then { CpmDir.empty with ex := fun i => if i = 0 then 0xa0 else ch ' ' }
  else fooEntries (entryOf fooSector 0) idx

/-- An attribute of an unused entry changes, and the host names are left alone.

**Proof sketch.** The sector changes the second slot, which is unused, and the condition speaks of
used entries only. -/
theorem attributes_untouched_foo :
    Untouched fooMade (Exc.final (write 2 1 unusedSector fooMade)) := by
  have hstatic : Static fooStart fooWritten := ⟨rfl, rfl, rfl, rfl, rfl, rfl⟩
  have harea : fooMade.area 2 1 = some (.directory 0) :=
    area_foo (hstatic.trans (static_write 2 1 _ fooWritten))
  have hattr : AttributesOnly fooMade 0 unusedSector := by
    intro idx
    refine ⟨_, slots_fooMade idx, ?_⟩
    rw [unusedSector, entryOf_dirSector]
    fin_cases idx
    · exact ⟨rfl, rfl, rfl, rfl, rfl, fun _ => rfl, fun _ => rfl⟩
    · exact ⟨rfl, rfl, rfl, rfl, rfl, fun _ => rfl, by decide⟩
    · exact ⟨rfl, rfl, rfl, rfl, rfl, fun _ => rfl, fun _ => rfl⟩
    · exact ⟨rfl, rfl, rfl, rfl, rfl, fun _ => rfl, fun _ => rfl⟩
  refine (attributes_untouched harea hattr).1 fun idx old hold hu => .inr ?_
  rw [slots_fooMade idx, Option.some.injEq] at hold
  subst hold
  have h0 : idx = 0 := by
    by_contra hne
    exact hu (by rw [fooEntries, if_neg hne]; rfl)
  rw [unusedSector, entryOf_dirSector, h0]
  rfl

/-- The entry of `FOO` with the read-only attribute. -/
def roEntry : CpmDir :=
  { entryOf fooSector 0 with ex := fun i => if i = 0 then 0xa0 else ch ' ' }

/-- The directory sector that makes `FOO` read-only. -/
def roSector : Sector := dirSector (fooEntries roEntry)

/-- The disk after `FOO` was made read-only. -/
def fooReadOnly : Disk := Exc.final (write 2 1 roSector fooMade)

/-- The path of the host file of `FOO`. -/
def fooFile : NPath := normal (hostPath drivePath fooEntry.getName)

/-- **Setting an attribute renames the host file**: the sector changes one attribute bit of `FOO`,
the write returns, and the host file of `FOO` is gone. `Flush` is taken to visit each cached sector
once, here as in the write that makes `fooMade`, where one is listed; the loop of the source gets
behind a listed sector only by luck (`pass_iff`).

**Proof sketch.** The sector differs in bit 7 of the first character of the extension. Running the
write gives the new disk, whose host has no file under the old path, while `Untouched` asks for the
same files if nothing is cached. -/
theorem readOnly_renames : AttributesOnly fooMade 0 roSector ∧
    (∃ r, write 2 1 roSector fooMade = .ok r fooReadOnly) ∧
    (fooMade.host.contents fooFile).isSome = true ∧ fooReadOnly.host.contents fooFile = none ∧
    ¬ Untouched fooMade fooReadOnly := by
  have hattr : AttributesOnly fooMade 0 roSector := by
    intro idx
    refine ⟨_, slots_fooMade idx, ?_⟩
    rw [roSector, entryOf_dirSector]
    fin_cases idx
    · exact ⟨rfl, rfl, rfl, rfl, rfl, fun _ => rfl, by decide⟩
    · exact ⟨rfl, rfl, rfl, rfl, rfl, fun _ => rfl, fun _ => rfl⟩
    · exact ⟨rfl, rfl, rfl, rfl, rfl, fun _ => rfl, fun _ => rfl⟩
    · exact ⟨rfl, rfl, rfl, rfl, rfl, fun _ => rfl, fun _ => rfl⟩
  have hret := Exc.ok_of_isOk
    (show Exc.isOk (write 2 1 roSector fooMade) = true by decide +kernel)
  have hbefore : (fooMade.host.contents fooFile).isSome = true := by decide +kernel
  have hafter : fooReadOnly.host.contents fooFile = none := by decide +kernel
  have hquiet : Quiet fooMade := by
    have hcache : fooMade.cache = ∅ := by rfl
    intro sid hs
    rw [hcache] at hs
    exact absurd hs (AList.notMem_empty sid)
  refine ⟨hattr, hret, hbefore, hafter, fun h => ?_⟩
  have hsame := congrFun (h.quiet hquiet) fooFile
  rw [hafter] at hsame
  rw [← hsame] at hbefore
  cases hbefore

end Disk

end Cpm22
