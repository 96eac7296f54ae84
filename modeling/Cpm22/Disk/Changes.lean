import Cpm22.Disk.Bdos

set_option relaxedAutoImplicit false
set_option autoImplicit false

/-!
# Rows of directory writes

An operation of the BDOS changes one directory entry at a time, with a `Flush` after each. This file
follows such a row of changes: what it does to the directory and to the names in the map, and when
no lookup fails on the way.

A file is entered in the map with its entry of extent 0 and leaves the map with it, whatever happens
to its other entries. So an operation must take all entries of a file along with its entry of
extent 0. While the entries change one by one, only the first directory write finds listed sectors
in the cache; afterwards the cache has no sector that an entry lists.

## Main definitions

* `Cpm22.Disk.NamesAgree` — the keys of the map are the names of the used entries.
* `Cpm22.Bdos.Change`, `Cpm22.Bdos.reached` — the entries that an operation changes.
* `Cpm22.Bdos.Changed` — what a row of changes did.
* `Cpm22.Bdos.Whole` — the changes of an operation concern whole files.

## Main results

* `Cpm22.Bdos.replaceAll_changed` — what a row of directory writes does.
* `Cpm22.Bdos.Changed.agree` — changes of whole files keep the map and the directory in step.
* `Cpm22.Bdos.sweep_all` — a search that changes every match is a row of directory writes.
-/

namespace Cpm22

open HostPath HostFs

namespace Disk

variable {dk dk' : Disk} {old new : CpmDir}

/-- **The keys of the name map are the names of the used entries.** -/
def NamesAgree (dk : Disk) : Prop := ∀ k, (dk.cpm2unix.lookup k).isSome ↔ HasName dk k

/-- If the names agree, every entry that lists a cached sector has a host file. -/
lemma NamesAgree.backed (h : NamesAgree dk) : Backed dk :=
  fun _ _ e he hl => (h e.getName).mpr ⟨e, he, hl.1, rfl⟩

/-- `Flush` keeps the agreement. -/
lemma NamesAgree.frame (h : NamesAgree dk) (hf : FlushFrame dk dk') : NamesAgree dk' := by
  intro k
  rw [hf.cpm2unix, h k, HasName, HasName, hf.dir]

/-- **The lookups of a directory change succeed** if the old entry of extent 0 has a host file.

**Proof sketch.** Only deleting and renaming look a name up, and it is the one of the old entry,
which is in the map. The other calls end with other faults. What the change did is
`hostChange_effect`. -/
lemma hostChange_avoids
    (h : old.Used → old.getExtNumber = 0 → (dk.cpm2unix.lookup old.getName).isSome) :
    Exc.Avoids .outOfRange (fun _ dk' => HostEffect old new dk dk' ∧ dk'.cache = dk.cache ∧
      dk'.dir = dk.dir ∧ Static dk dk') (hostChange old new dk) := by
  have havoid : Exc.Avoids .outOfRange (fun _ _ => True) (hostChange old new dk) := by
    by_cases hc : ChangesHost old new
    · rcases hc with ⟨hn, ho, h0⟩ | ⟨hn, ho, h0⟩ | ⟨hn, ho, hne, h0, h1⟩
      · obtain ⟨p, hp⟩ := Option.isSome_iff_exists.mp (h ho h0)
        rw [hostChange_delete hn ho h0, hp]
        simp only
        split
        · trivial
        · exact fun hh => Fault.noConfusion hh
      · rw [hostChange_create hn ho h0]
        simp only
        split
        · split
          · trivial
          · exact fun hh => Fault.noConfusion hh
        · exact fun hh => Fault.noConfusion hh
      · obtain ⟨p, hp⟩ := Option.isSome_iff_exists.mp (h ho h0)
        rw [hostChange_rename hn ho hne h0 h1, hp]
        simp only
        split
        · split
          · trivial
          · exact fun hh => Fault.noConfusion hh
        · exact fun hh => Fault.noConfusion hh
    · rw [hostChange_skip hc]
      trivial
  have hs := static_hostChange old new dk
  cases hr : hostChange old new dk with
  | error e dk₁ =>
    rw [hr] at havoid
    exact havoid
  | ok a dk₁ =>
    rw [hr] at hs
    obtain ⟨heff, hcache⟩ := hostChange_effect hr
    exact ⟨heff, hcache, hostChange_dir hr, hs⟩

/-- Changing an entry, with what it does to the host. -/
lemma writeEntry_avoids {n : ℕ} (hn : dk.dir[n]? = some old) (hne : old.eq new = false)
    (h : old.Used → old.getExtNumber = 0 → (dk.cpm2unix.lookup old.getName).isSome) :
    Exc.Avoids .outOfRange (fun _ dk' => ∃ dk₁, HostEffect old new dk dk₁ ∧
      dk'.cpm2unix = dk₁.cpm2unix ∧ dk'.cache = dk.cache ∧ dk'.dir = dk.dir.set n new ∧
      Static dk dk') (writeEntry n new dk) := by
  rw [writeEntry_of_ne hn (by simp [hne])]
  refine Exc.Avoids.bind (hostChange_avoids h) fun _ dk₁ hh => ?_
  obtain ⟨heff, hcache, hdir, hs⟩ := hh
  refine ⟨dk₁, heff, rfl, hcache, ?_, hs.trans ⟨rfl, rfl, rfl, rfl, rfl, rfl⟩⟩
  change dk₁.dir.set n new = _
  rw [hdir]

end Disk

namespace Bdos

open Disk

variable {g : Geometry} {dk dk' : Disk} {n : ℕ} {old new : CpmDir}

/-- **A directory write that leaves the names in step** does not fail in a lookup. -/
lemma replace_avoids {e : CpmDir} {Q : Disk → Prop}
    (hw : Exc.Avoids .outOfRange (fun _ dk' => Backed dk' ∧ ∀ dk'', FlushFrame dk' dk'' →
      (∀ s ∈ dk''.cache, s ∈ dk'.cache) → Quiet dk'' → Q dk'') (writeEntry n e dk)) :
    Exc.Avoids .outOfRange (fun _ dk' => Q dk') (replace n e dk) := by
  refine hw.bind fun _ dk₁ h => ?_
  refine (flush_quiet h.1).bind fun _ dk₂ hf => ?_
  exact h.2 dk₂ hf.1 hf.2.1 hf.2.2

/-! ## Changes -/

/-- A directory write that replaces one entry. -/
structure Change where
  slot : ℕ
  old : CpmDir
  new : CpmDir

/-- The entry is really replaced: it does not compare equal to the new one. -/
def Change.Real (c : Change) : Prop := c.old.eq c.new = false

/-- The change takes the old name out of the map. -/
def Change.Drops (c : Change) : Prop := c.Real ∧ c.old.getExtNumber = 0

instance (c : Change) : Decidable c.Real := inferInstanceAs (Decidable (_ = _))

instance (c : Change) : Decidable c.Drops := inferInstanceAs (Decidable (_ ∧ _))

/-- **The entries that an operation reaches**, in directory order: those that match, up to the first
one at which the operation ends. -/
def reached (p : CpmDir → Bool) (act : CpmDir → Option CpmDir) (dir : List CpmDir) :
    List ℕ → List Change
  | [] => []
  | n :: ns =>
    match dir[n]? with
    | none => []
    | some e =>
      if p e then
        match act e with
        | none => []
        | some e' => ⟨n, e, e'⟩ :: reached p act dir ns
      else reached p act dir ns

/-- A row of directory writes. -/
def replaceAll : List Change → DiskM Unit
  | [] => pure ()
  | c :: cs => do
    replace c.slot c.new
    replaceAll cs

/-- **The entry loses its name**, and with it nothing but the status, the base and the extension:
to no name, if it is erased, or to the name `t`. -/
structure Change.To (t : Option Bytes) (c : Change) : Prop where
  used : c.old.Used
  rest : c.new = named c.new.st c.new.fx c.new.ex c.old
  erased : t = none → ¬ c.new.Used
  named : ∀ k, t = some k → c.new.Used ∧ c.new.getName = k

/-- **What a row of directory writes did** to the directory and the name map. The changes have
different slots, and those whose entry compares equal did nothing. -/
structure Changed (t : Option Bytes) (cs : List Change) (dk dk' : Disk) : Prop where
  static : Static dk dk'
  cache : ∀ s ∈ dk'.cache, s ∈ dk.cache
  len : dk'.dir.length = dk.dir.length
  new : ∀ c ∈ cs, c.Real → dk'.dir[c.slot]? = some c.new
  other : ∀ i : ℕ, (∀ c ∈ cs, c.Real → c.slot ≠ i) → dk'.dir[i]? = dk.dir[i]?
  names : ∀ k, (dk'.cpm2unix.lookup k).isSome ↔
    ((dk.cpm2unix.lookup k).isSome ∧ ∀ c ∈ cs, c.Drops → c.old.getName ≠ k) ∨
      (t = some k ∧ ∃ c ∈ cs, c.Drops)

variable {t : Option Bytes} {c : Change} {cs : List Change}

/-- The extent number stays. -/
lemma Change.To.ext (h : c.To t) : c.new.getExtNumber = c.old.getExtNumber := by
  rw [h.rest]
  rfl

/-- The blocks stay. -/
lemma Change.To.lists (h : c.To t) {d : Dpb} {sid : ℕ} (hl : c.new.Lists d sid) :
    c.old.Lists d sid := by
  obtain ⟨-, b, hb, hp⟩ := CpmDir.lists_iff.mp hl
  refine CpmDir.lists_iff.mpr ⟨h.used, b, hb, ?_⟩
  rw [h.rest] at hp
  exact hp

/-- A real change changes the name. -/
lemma Change.To.name_ne (h : c.To t) (hr : c.Real) {k : Bytes} (ht : t = some k) :
    c.old.getName ≠ k := by
  intro hk
  obtain ⟨h1, h2, h3⟩ := CpmDir.getName_inj (hk.trans (h.named k ht).2.symm)
  have hsame : c.new = c.old := by
    rw [h.rest, ← h1, ← h2, ← h3]
    rfl
  rw [Change.Real, hsame, CpmDir.eq_refl] at hr
  cases hr

/-- **What one change does to the names.**

**Proof sketch.** By the kind of the change. A change that drops its name is a deletion or a
renaming, and its name leaves the map; a renaming puts in the name of the target. A change that is
skipped drops nothing, and no change creates a file, since the old entry was in use. -/
lemma Change.To.names (h : c.To t) (hr : c.Real) (heff : HostEffect c.old c.new dk dk')
    (k : Bytes) :
    (dk'.cpm2unix.lookup k).isSome ↔
      ((dk.cpm2unix.lookup k).isSome ∧ (c.Drops → c.old.getName ≠ k)) ∨
        (t = some k ∧ c.Drops) := by
  cases heff with
  | skip hskip hsame =>
    have hdrop : ¬ c.Drops := by
      rintro ⟨-, h0⟩
      refine hskip ?_
      cases t with
      | none => exact .inl ⟨h.erased rfl, h.used, h0⟩
      | some l =>
        obtain ⟨hu, hl⟩ := h.named l rfl
        exact .inr (.inr ⟨hu, h.used, fun hh => h.name_ne hr rfl (hh.symm.trans hl), h0,
          h.ext.trans h0⟩)
    rw [hsame]
    simp [hdrop]
  | delete p hn _ h0 _ hnames _ =>
    have hdrop : c.Drops := ⟨hr, h0⟩
    have ht : t ≠ some k := fun ht => hn (h.named k ht).1
    rw [hnames]
    rcases eq_or_ne k c.old.getName with rfl | hk
    · simp [hdrop, ht]
    · simp [hdrop, ht, AList.lookup_erase_ne hk, hk.symm]
  | create _ ho => exact absurd h.used ho
  | rename p x hn _ hne h0 _ _ _ hnames _ =>
    have hdrop : c.Drops := ⟨hr, h0⟩
    obtain ⟨l, rfl⟩ : ∃ l, t = some l := by
      cases t with
      | none => exact absurd hn (h.erased rfl)
      | some l => exact ⟨l, rfl⟩
    have hl := (h.named l rfl).2
    rw [hnames, hl]
    rcases eq_or_ne k l with rfl | hkl
    · simp [hdrop]
    · rw [AList.lookup_insert_ne hkl]
      rcases eq_or_ne k c.old.getName with rfl | hk
      · simp [hdrop, hkl.symm]
      · simp [hdrop, hkl.symm, AList.lookup_erase_ne hk, hk.symm]

/-- Nothing is changed by no directory write. -/
lemma Changed.refl (t : Option Bytes) (dk : Disk) : Changed t [] dk dk :=
  ⟨Static.refl dk, fun _ hs => hs, rfl, fun _ hc => (nomatch hc), fun _ _ => rfl, fun k => by simp⟩

/-- `Flush` adds nothing to what was changed. -/
lemma Changed.frame (h : Changed t cs dk dk') {dk'' : Disk} (hf : FlushFrame dk' dk'')
    (hsub : ∀ s ∈ dk''.cache, s ∈ dk'.cache) : Changed t cs dk dk'' where
  static := h.static.trans hf.toStatic
  cache s hs := h.cache s (hsub s hs)
  len := by rw [hf.dir, h.len]
  new c hc hr := by rw [hf.dir, h.new c hc hr]
  other i hi := by rw [hf.dir, h.other i hi]
  names k := by rw [hf.cpm2unix, h.names k]

/-- A change and then others.

**Proof sketch.** The later changes concern other slots and drop other names, since the name that
the entries get is none that a change drops. -/
lemma Changed.cons {dk₁ : Disk} (h1 : Changed t [c] dk dk₁) (h2 : Changed t cs dk₁ dk')
    (hto : ∀ c' ∈ cs, c'.To t) (hslot : ∀ c' ∈ cs, c'.slot ≠ c.slot) :
    Changed t (c :: cs) dk dk' where
  static := h1.static.trans h2.static
  cache s hs := h1.cache s (h2.cache s hs)
  len := h2.len.trans h1.len
  new c' hc' hr := by
    rcases List.mem_cons.mp hc' with rfl | hc'
    · rw [h2.other c'.slot fun x hx _ => hslot x hx, h1.new c' (by simp) hr]
    · exact h2.new c' hc' hr
  other i hi := by
    rw [h2.other i fun x hx hr => hi x (by simp [hx]) hr,
      h1.other i fun x hx hr => hi x (by simp [List.mem_singleton.mp hx]) hr]
  names k := by
    -- the name that the entries get is not taken out again
    have hkeep : t = some k → ∀ c' ∈ cs, c'.Drops → c'.old.getName ≠ k :=
      fun ht c' hc' hd => (hto c' hc').name_ne hd.1 ht
    have hone : ∀ P : Change → Prop, (∀ c' ∈ [c], P c') ↔ P c := fun P => by simp
    rw [h2.names k, h1.names k, hone fun c' => c'.Drops → c'.old.getName ≠ k]
    simp only [List.mem_cons, forall_eq_or_imp, exists_eq_or_imp, List.not_mem_nil, or_false,
      exists_eq_left]
    tauto

/-- One change of the directory, before `Flush`.

**Proof sketch.** A real change is written, and its lookups succeed (`writeEntry_avoids`); what it
does to the names is `Change.To.names`. A change that compares equal does nothing. -/
lemma writeEntry_changed (h : c.To t) (hat : dk.dir[c.slot]? = some c.old)
    (hdrop : c.Drops → (dk.cpm2unix.lookup c.old.getName).isSome) :
    Exc.Avoids .outOfRange (fun _ dk' => Changed t [c] dk dk') (writeEntry c.slot c.new dk) := by
  by_cases hr : c.Real
  · refine (writeEntry_avoids hat hr fun _ h0 => hdrop ⟨hr, h0⟩).weaken fun _ dk' hh => ?_
    obtain ⟨dk₁, heff, hmap, hcache, hdir, hs⟩ := hh
    have hlt := (List.getElem?_eq_some_iff.mp hat).1
    refine ⟨hs, fun s hin => by rwa [hcache] at hin, by rw [hdir, List.length_set],
      fun x hx _ => ?_, fun i hi => ?_, fun k => ?_⟩
    · obtain rfl := List.mem_singleton.mp hx
      rw [hdir, List.getElem?_set_self hlt]
    · rw [hdir, List.getElem?_set_ne (hi c (by simp) hr)]
    · rw [hmap, h.names hr heff k]
      simp
  · have heq : c.old.eq c.new = true := by simpa [Change.Real] using hr
    have hd : ¬ c.Drops := fun hd => hr hd.1
    rw [writeEntry_of_eq hat heq]
    refine ⟨Static.refl dk, fun _ hs => hs, rfl, fun x hx hrx => ?_, fun _ _ => rfl, fun k => ?_⟩
    · rw [List.mem_singleton.mp hx] at hrx
      exact absurd hrx hr
    · simp [hd]

/-- **One directory write**: it does not fail in a lookup if every entry that lists a cached sector
has a host file behind the change. -/
lemma replace_changed (h : c.To t) (hat : dk.dir[c.slot]? = some c.old)
    (hdrop : c.Drops → (dk.cpm2unix.lookup c.old.getName).isSome)
    (hback : ∀ dk₁, Changed t [c] dk dk₁ → Backed dk₁) :
    Exc.Avoids .outOfRange (fun _ dk' => Changed t [c] dk dk' ∧ Quiet dk')
      (replace c.slot c.new dk) :=
  replace_avoids ((writeEntry_changed h hat hdrop).weaken fun _ dk₁ hc =>
    ⟨hback dk₁ hc, fun _ hf hsub hq => ⟨hc.frame hf hsub, hq⟩⟩)

/-- The entries of a disk after one change. -/
lemma Changed.mem (h : Changed t [c] dk dk') {e : CpmDir} (he : e ∈ dk'.dir) :
    (c.Real ∧ e = c.new) ∨ ∃ i : ℕ, dk.dir[i]? = some e ∧ (c.Real → c.slot ≠ i) := by
  obtain ⟨i, hi⟩ := List.mem_iff_getElem?.mp he
  by_cases hr : c.Real ∧ c.slot = i
  · obtain ⟨hr, rfl⟩ := hr
    rw [h.new c (by simp) hr] at hi
    exact .inl ⟨hr, (Option.some.inj hi).symm⟩
  · refine .inr ⟨i, ?_, fun hx hs => hr ⟨hx, hs⟩⟩
    rw [← hi]
    refine (h.other i fun x hx hrx hs => ?_).symm
    rw [List.mem_singleton.mp hx] at hrx hs
    exact hr ⟨hrx, hs⟩

/-- If no entry lists a cached sector, none does after a change. -/
lemma Changed.backed_of_quiet (h : Changed t [c] dk dk') (hq : Quiet dk) (hto : c.To t)
    (hat : dk.dir[c.slot]? = some c.old) : Backed dk' := by
  intro s hs e he hl
  rw [h.static.dpb] at hl
  rcases h.mem he with ⟨-, rfl⟩ | ⟨i, hi, -⟩
  · exact absurd (hto.lists hl) (hq s (h.cache s hs) _ (List.mem_of_getElem? hat))
  · exact absurd hl (hq s (h.cache s hs) e (List.mem_of_getElem? hi))

/-- **A row of directory writes**: no lookup fails if each name that is taken out of the map is
there, and is taken out once, and if every entry that lists a cached sector has a host file behind
the first change.

**Proof sketch.** Induction on the changes. Each of them concerns its own slot, and after the first
`Flush` the cache has no listed sectors, so the later ones have nothing to do. -/
lemma replaceAll_changed : ∀ {cs : List Change} {dk : Disk},
    (∀ c ∈ cs.head?, ∀ dk₁, Changed t [c] dk dk₁ → Backed dk₁) →
    (∀ c ∈ cs, c.To t ∧ dk.dir[c.slot]? = some c.old) → (cs.map (·.slot)).Nodup →
    (∀ c ∈ cs, c.Drops → (dk.cpm2unix.lookup c.old.getName).isSome) →
    cs.Pairwise (fun c c' => c.Drops → c'.Drops → c.old.getName ≠ c'.old.getName) →
    Exc.Avoids .outOfRange (fun _ dk' => Changed t cs dk dk') (replaceAll cs dk) := by
  intro cs
  induction cs with
  | nil => exact fun _ _ _ _ _ => Changed.refl t _
  | cons c cs ih =>
    intro dk hback hto hnd hdrop hpair
    rw [List.map_cons, List.nodup_cons] at hnd
    rw [List.pairwise_cons] at hpair
    obtain ⟨hc, hat⟩ := hto c (by simp)
    have hslot : ∀ c' ∈ cs, c'.slot ≠ c.slot := fun c' hc' hs =>
      hnd.1 (List.mem_map.mpr ⟨c', hc', hs⟩)
    refine (replace_changed hc hat (hdrop c (by simp)) (hback c rfl)).bind fun _ dk₁ hh => ?_
    obtain ⟨h1, hq₁⟩ := hh
    have hto₁ : ∀ c' ∈ cs, c'.To t ∧ dk₁.dir[c'.slot]? = some c'.old := fun c' hc' => by
      obtain ⟨hto', hat'⟩ := hto c' (by simp [hc'])
      refine ⟨hto', ?_⟩
      rw [h1.other c'.slot fun x hx _ => ?_, hat']
      rw [List.mem_singleton.mp hx]
      exact (hslot c' hc').symm
    have hdrop₁ : ∀ c' ∈ cs, c'.Drops → (dk₁.cpm2unix.lookup c'.old.getName).isSome := by
      intro c' hc' hd
      refine (h1.names _).mpr (.inl ⟨hdrop c' (by simp [hc']) hd, fun x hx hdx => ?_⟩)
      obtain rfl := List.mem_singleton.mp hx
      exact hpair.1 c' hc' hdx hd
    have hback₁ : ∀ c' ∈ cs.head?, ∀ dk₂, Changed t [c'] dk₁ dk₂ → Backed dk₂ :=
      fun c' hc' dk₂ h2 => by
        obtain ⟨hto', hat'⟩ := hto₁ c' (List.mem_of_head? hc')
        exact h2.backed_of_quiet hq₁ hto' hat'
    exact (ih hback₁ hto₁ hnd.2 hdrop₁ hpair.2).weaken fun _ dk' h2 =>
      h1.cons h2 (fun c' hc' => (hto₁ c' hc').1) hslot

/-! ## Whole files -/

/-- **The changes concern whole files.** No name loses its entry of extent 0 twice. A file loses its
entry of extent 0 if and only if it loses all of its entries. A new name is in use already, or comes
with an entry of extent 0. The first directory write leaves no listed sector in the cache that
belongs to an entry without a name in the map. -/
structure Whole (dk : Disk) (t : Option Bytes) (cs : List Change) : Prop where
  once : cs.Pairwise fun c c' => c.Drops → c'.Drops → c.old.getName ≠ c'.old.getName
  together : ∀ c ∈ cs, c.Real →
    ((∃ c' ∈ cs, c'.Drops ∧ c'.old.getName = c.old.getName) ↔
      ∀ (i : ℕ) (e : CpmDir), dk.dir[i]? = some e → e.Used → e.getName = c.old.getName →
        ∃ c' ∈ cs, c'.Real ∧ c'.slot = i)
  target : ∀ k, t = some k → (∃ c ∈ cs, c.Real) → HasName dk k ∨ ∃ c ∈ cs, c.Drops
  settled : ∀ c ∈ cs.head?, c.Real →
    (c.Drops → ∀ (i : ℕ) (e : CpmDir), c.slot ≠ i → dk.dir[i]? = some e →
      e.getName = c.old.getName → ∀ sid ∈ dk.cache, ¬ e.Lists dk.dpb sid) ∧
    (¬ c.Drops → ∀ k, t = some k → HasName dk k ∨ ∀ sid ∈ dk.cache, ¬ c.old.Lists dk.dpb sid)

/-- Behind the first change every entry that lists a cached sector has a host file.

**Proof sketch.** The changed entry has the new name, which is in the map unless no cached sector
is listed. Another entry has its old name, and if the change drops it, then no cached sector is
listed by it. -/
lemma Whole.backed (h : Whole dk t cs) (hn : NamesAgree dk) (hc : c ∈ cs.head?) (hto : c.To t)
    {dk₁ : Disk} (h1 : Changed t [c] dk dk₁) : Backed dk₁ := by
  intro s hs e he hl
  have hs₀ := h1.cache s hs
  rw [h1.static.dpb] at hl
  have hnames : ∀ k, (dk₁.cpm2unix.lookup k).isSome ↔
      ((dk.cpm2unix.lookup k).isSome ∧ (c.Drops → c.old.getName ≠ k)) ∨ (t = some k ∧ c.Drops) :=
    fun k => by simpa using h1.names k
  rw [hnames]
  rcases h1.mem he with ⟨hr, rfl⟩ | ⟨i, hi, hne⟩
  · -- the entry that changed
    obtain ⟨k, rfl⟩ : ∃ k, t = some k := by
      cases t with
      | none => exact absurd hl.1 (hto.erased rfl)
      | some k => exact ⟨k, rfl⟩
    rw [(hto.named k rfl).2]
    by_cases hd : c.Drops
    · exact .inr ⟨rfl, hd⟩
    · rcases (h.settled c hc hr).2 hd k rfl with hk | hk
      · exact .inl ⟨(hn k).mpr hk, fun hd' => absurd hd' hd⟩
      · exact absurd (hto.lists hl) (hk s hs₀)
  · refine .inl ⟨(hn _).mpr ⟨e, List.mem_of_getElem? hi, hl.1, rfl⟩, fun hd hname => ?_⟩
    exact (h.settled c hc hd.1).1 hd i e (hne hd.1) hi hname.symm s hs₀ hl

/-- **The names after a row of changes**: those of the entries that did not change, and the new
name.

**Proof sketch.** A slot of a real change has its new entry, with the new name if it is used, and
every other slot has the entry that it had. -/
lemma Changed.hasName (h : Changed t cs dk dk') (hto : ∀ c ∈ cs, c.To t) (k : Bytes) :
    HasName dk' k ↔ (∃ (i : ℕ) (e : CpmDir), dk.dir[i]? = some e ∧ e.Used ∧ e.getName = k ∧
      ∀ c ∈ cs, c.Real → c.slot ≠ i) ∨ (t = some k ∧ ∃ c ∈ cs, c.Real) := by
  constructor
  · rintro ⟨e, he, hu, hk⟩
    obtain ⟨i, hi⟩ := List.mem_iff_getElem?.mp he
    by_cases hex : ∃ c ∈ cs, c.Real ∧ c.slot = i
    · obtain ⟨c, hc, hr, rfl⟩ := hex
      rw [h.new c hc hr, Option.some.injEq] at hi
      subst hi
      cases t with
      | none => exact absurd hu ((hto c hc).erased rfl)
      | some l => exact .inr ⟨by rw [← hk, ((hto c hc).named l rfl).2], c, hc, hr⟩
    · have hno : ∀ c ∈ cs, c.Real → c.slot ≠ i := fun c hc hr hs => hex ⟨c, hc, hr, hs⟩
      rw [h.other i hno] at hi
      exact .inl ⟨i, e, hi, hu, hk, hno⟩
  · rintro (⟨i, e, hi, hu, hk, hno⟩ | ⟨ht, c, hc, hr⟩)
    · rw [← h.other i hno] at hi
      exact ⟨e, List.mem_of_getElem? hi, hu, hk⟩
    · obtain ⟨hu, hk⟩ := (hto c hc).named k ht
      exact ⟨c.new, List.mem_of_getElem? (h.new c hc hr), hu, hk⟩

/-- **Changes of whole files keep the map and the directory in step.**

**Proof sketch.** A name that is in the map was there and was not dropped. If its entry of extent 0
changed, then another one with this name stays, since the changes concern whole files. Conversely
an entry that stays had its name in the map, and no change dropped it, since this entry would have
changed too. -/
lemma Changed.agree (h : Changed t cs dk dk')
    (hto : ∀ c ∈ cs, c.To t ∧ dk.dir[c.slot]? = some c.old) (hn : NamesAgree dk)
    (hw : Whole dk t cs) : NamesAgree dk' := by
  intro k
  rw [h.names k, hn k, h.hasName (fun c hc => (hto c hc).1) k]
  constructor
  · rintro (⟨⟨e, he, hu, hk⟩, hno⟩ | ⟨ht, c, hc, hd⟩)
    · obtain ⟨i, hi⟩ := List.mem_iff_getElem?.mp he
      by_cases hex : ∃ c ∈ cs, c.Real ∧ c.slot = i
      · -- the entry changed, and its file keeps its entry of extent 0, so another entry stays
        obtain ⟨c, hc, hr, rfl⟩ := hex
        have hold : c.old = e := Option.some.inj ((hto c hc).2.symm.trans hi)
        have hnot : ¬ ∃ c' ∈ cs, c'.Drops ∧ c'.old.getName = c.old.getName := by
          rintro ⟨c', hc', hd, hname⟩
          exact hno c' hc' hd (hname.trans (by rw [hold, hk]))
        rw [hw.together c hc hr] at hnot
        push Not at hnot
        obtain ⟨j, f, hj, hf, hname, hstay⟩ := hnot
        exact .inl ⟨j, f, hj, hf, by rw [hname, hold, hk], hstay⟩
      · exact .inl ⟨i, e, hi, hu, hk, fun c hc hr hs => hex ⟨c, hc, hr, hs⟩⟩
    · exact .inr ⟨ht, c, hc, hd.1⟩
  · rintro (⟨i, e, hi, hu, hk, hno⟩ | ⟨ht, hr⟩)
    · refine .inl ⟨⟨e, List.mem_of_getElem? hi, hu, hk⟩, fun c hc hd hname => ?_⟩
      -- the file lost its entry of extent 0, so this entry changed too
      obtain ⟨c', hc', hr', hs'⟩ := (hw.together c hc hd.1).mp ⟨c, hc, hd, rfl⟩ i e hi hu
        (hk.trans hname.symm)
      exact hno c' hc' hr' hs'
    · by_cases hd : ∃ c ∈ cs, c.Drops
      · exact .inr ⟨ht, hd⟩
      · refine .inl ⟨(hw.target k ht hr).resolve_right hd, fun c hc hdc => ?_⟩
        exact absurd ⟨c, hc, hdc⟩ hd

/-! ## The searches -/

/-- A change that a search reaches.

**Proof sketch.** Induction on the slots. A change of the list is the one of the first slot, whose
entry matches, or one of the rest. -/
lemma mem_reached {p : CpmDir → Bool} {act : CpmDir → Option CpmDir} {dir : List CpmDir}
    {ns : List ℕ} (hc : c ∈ reached p act dir ns) :
    c.slot ∈ ns ∧ dir[c.slot]? = some c.old ∧ p c.old = true ∧ act c.old = some c.new := by
  induction ns with
  | nil => exact nomatch hc
  | cons n ns ih =>
    unfold reached at hc
    have hrest : c ∈ reached p act dir ns → c.slot ∈ n :: ns ∧ dir[c.slot]? = some c.old ∧
        p c.old = true ∧ act c.old = some c.new := fun h =>
      ⟨List.mem_cons_of_mem n (ih h).1, (ih h).2⟩
    split at hc
    · exact nomatch hc
    · rename_i e he
      split at hc
      · rename_i hp
        split at hc
        · exact nomatch hc
        · rename_i e' ha
          rcases List.mem_cons.mp hc with rfl | hc
          · exact ⟨List.mem_cons_self, he, hp, ha⟩
          · exact hrest hc
      · exact hrest hc

/-- A search reaches each slot once. -/
lemma nodup_reached {p : CpmDir → Bool} {act : CpmDir → Option CpmDir} {dir : List CpmDir}
    {ns : List ℕ} (hnd : ns.Nodup) : ((reached p act dir ns).map (·.slot)).Nodup := by
  induction ns with
  | nil => exact List.nodup_nil
  | cons n ns ih =>
    rw [List.nodup_cons] at hnd
    unfold reached
    split
    · exact List.nodup_nil
    · split
      · split
        · exact List.nodup_nil
        · rw [List.map_cons, List.nodup_cons]
          refine ⟨fun hmem => ?_, ih hnd.2⟩
          obtain ⟨c, hc, hs⟩ := List.mem_map.mp hmem
          have hs' : c.slot = n := hs
          exact hnd.1 (hs' ▸ (mem_reached hc).1)
      · exact ih hnd.2

/-- What a search reaches depends on the slots it visits. -/
lemma reached_congr {p : CpmDir → Bool} {act : CpmDir → Option CpmDir} {dir dir' : List CpmDir}
    {ns : List ℕ} (h : ∀ n ∈ ns, dir'[n]? = dir[n]?) :
    reached p act dir' ns = reached p act dir ns := by
  induction ns with
  | nil => rfl
  | cons n ns ih =>
    rw [reached, reached, h n (by simp), ih fun m hm => h m (by simp [hm])]

/-- The entry of a slot. -/
lemma dirAt_of_lt (h : n < dk.dir.length) :
    ∃ e, dk.dir[n]? = some e ∧ dirAt n dk = .ok e dk := by
  have hat := List.getElem?_eq_getElem h
  exact ⟨_, hat, by simp only [dirAt, hat]⟩

/-- **A search that changes every match is a row of directory writes.**

**Proof sketch.** Induction on the slots that are left. A match is replaced, which is the first of
the directory writes; it changes no slot that is still to come, so that the later ones are reached
as before. A slot that does not match is passed. -/
lemma sweep_all {p : CpmDir → Bool} {act : CpmDir → Option CpmDir} {ns : List ℕ} :
    ∀ {dk : Disk}, ns.Nodup → (∀ n ∈ ns, n < dk.dir.length) →
      (sweep p act true ns >>= fun _ => pure ()) dk = replaceAll (reached p act dk.dir ns) dk := by
  induction ns with
  | nil => exact fun _ _ => rfl
  | cons n ns ih =>
    intro dk hnd hlen
    rw [List.nodup_cons] at hnd
    obtain ⟨e, hat, hdir⟩ := dirAt_of_lt (hlen n (by simp))
    rw [reached, hat, sweep, Exc.bind_apply, Exc.bind_of_ok hdir]
    simp only
    by_cases hp : p e = true
    · rw [if_pos hp, if_pos hp]
      cases act e with
      | none => rfl
      | some e' =>
        simp only [if_true]
        rw [replaceAll, Exc.bind_apply, Exc.bind_apply]
        cases hr : replace n e' dk with
        | error x dk₁ => rfl
        | ok x dk₁ =>
          obtain ⟨-, old, -, hd⟩ := replace_ok hr
          have hsame : ∀ m ∈ ns, dk₁.dir[m]? = dk.dir[m]? := fun m hm => by
            rw [hd, List.getElem?_set_ne]
            rintro rfl
            exact hnd.1 hm
          have hlen₁ : ∀ m ∈ ns, m < dk₁.dir.length := fun m hm => by
            rw [hd, List.length_set]
            exact hlen m (by simp [hm])
          have hih := ih hnd.2 hlen₁
          rw [reached_congr hsame] at hih
          simp only
          rw [← hih, Exc.bind_apply, Exc.bind_apply]
          cases sweep p act true ns dk₁ <;> rfl
    · rw [if_neg hp, if_neg hp]
      exact ih hnd.2 fun m hm => hlen m (by simp [hm])

/-- **A search that changes the first match**: what the change does, or nothing. -/
lemma sweep_first {p : CpmDir → Bool} {act : CpmDir → Option CpmDir} {Q : Disk → Prop}
    {ns : List ℕ} (hlen : ∀ n ∈ ns, n < dk.dir.length) (hQ : Q dk)
    (hstep : ∀ n e e', dk.dir[n]? = some e → p e = true → act e = some e' →
      Exc.Avoids .outOfRange (fun _ dk' => Q dk') (replace n e' dk)) :
    Exc.Avoids .outOfRange (fun _ dk' => Q dk') (sweep p act false ns dk) := by
  induction ns with
  | nil => exact hQ
  | cons n ns ih =>
    obtain ⟨e, hat, hdir⟩ := dirAt_of_lt (hlen n (by simp))
    rw [sweep, Exc.bind_of_ok hdir]
    by_cases hp : p e = true
    · rw [if_pos hp]
      cases ha : act e with
      | none => exact hQ
      | some e' => exact (hstep n e e' hat hp ha).bind fun _ _ h => h
    · rw [if_neg hp]
      exact ih fun m hm => hlen m (by simp [hm])

/-- A search that changes nothing. -/
lemma sweep_none {p : CpmDir → Bool} {ns : List ℕ} (hlen : ∀ n ∈ ns, n < dk.dir.length) :
    ∃ b, sweep p (fun _ => none) false ns dk = .ok b dk ∧
      (b = false → ∀ n ∈ ns, ∀ e, dk.dir[n]? = some e → p e = false) := by
  induction ns with
  | nil => exact ⟨false, rfl, by simp⟩
  | cons n ns ih =>
    obtain ⟨e, hat, hdir⟩ := dirAt_of_lt (hlen n (by simp))
    rw [sweep, Exc.bind_of_ok hdir]
    by_cases hp : p e = true
    · rw [if_pos hp]
      exact ⟨true, rfl, by simp⟩
    · rw [if_neg hp]
      obtain ⟨b, hb, hno⟩ := ih fun m hm => hlen m (by simp [hm])
      refine ⟨b, hb, fun h m hm f hf => ?_⟩
      rcases List.mem_cons.mp hm with rfl | hm
      · rw [hat, Option.some.injEq] at hf
        subst hf
        simpa using hp
      · exact hno h m hm f hf
end Bdos

end Cpm22
