import Cpm22.Disk.Changes

set_option relaxedAutoImplicit false
set_option autoImplicit false

/-!
# The name map and the directory

`cpm2unix_` is meant to have the names of the used directory entries as its keys. This file says
which operations of the BDOS keep the two in step without a lookup that fails, and that every run of
such operations does.

## Main definitions

* `Cpm22.Bdos.Named` — the invariant of a run.
* `Cpm22.Bdos.Op.Sound`, `Cpm22.Bdos.Obeys` — the condition on an operation and on a run.
* `Cpm22.Bdos.Agreeing` — the map and the directory agree along a run.

## Main results

* `Cpm22.Bdos.Op.run_agrees` — one operation keeps the map and the directory in step.
* `Cpm22.Bdos.names_agree` — every run whose operations meet the condition does.
-/

namespace Cpm22

open HostPath HostFs

namespace Disk

variable {dk : Disk}

/-! ## The users of an imported disk -/

/-- The used entries belong to the users of the BDOS. -/
def Users (dk : Disk) : Prop := ∀ e ∈ dk.dir, e.Used → e.st.toNat < 32

/-- An entry with the number of a user keeps the entries with users. -/
lemma Users.set (h : Users dk) {n : ℕ} {e : CpmDir} (he : e.Used → e.st.toNat < 32) :
    Users { dk with dir := dk.dir.set n e } := by
  intro f hf hu
  rcases List.mem_or_eq_of_mem_set hf with hf | rfl
  · exact h f hf hu
  · exact he hu

/-- Looking at an entry. -/
lemma users_dirAt (n : ℕ) : Exc.Triple Users (dirAt n)
    (fun e dk => Users dk ∧ (e.Used → e.st.toNat < 32)) (fun _ => True) := by
  intro dk h
  cases he : dk.dir[n]? with
  | none => simp [dirAt, he]
  | some e =>
    simp only [dirAt, he]
    exact ⟨h, h e (List.mem_of_getElem? he)⟩

/-- Setting block pointers keeps the users. -/
lemma users_addBlocks (slot : ℕ) (is : List ℕ) :
    Exc.Triple Users (addBlocks slot is) (fun _ => Users) (fun _ => True) := by
  induction is with
  | nil => exact .pure fun _ h => h
  | cons i is ih =>
    refine .bind .get fun dk => .bind ((users_dirAt slot).weaken (fun _ h => h.2)
      (fun _ _ h => h) fun _ h => h) fun e => ?_
    refine .bind (R := fun _ => Users) (.modify fun dk₁ h => h.1.set fun hu => ?_) fun _ => ?_
    · have hst := (CpmDir.setPointer_fields e dk.dpb.blockPtrType i dk.freeblock).1
      rw [CpmDir.Used, hst] at hu
      rw [hst]
      exact h.2 hu
    · refine .bind (R := fun _ => Users) (.modify fun _ h => h) fun _ => ?_
      exact .ite (fun _ => .throw fun _ _ => trivial) fun _ => ih

/-- Entering extents keeps the users. -/
lemma users_addExtents {u : UInt8} (hu : u.toNat < 32) (name : Bytes) (todo : ℕ) : ∀ d blocks,
    Exc.Triple Users (addExtents u name todo d blocks) (fun _ => Users) (fun _ => True) := by
  induction todo with
  | zero => exact fun _ _ => .pure fun _ h => h
  | succ todo ih =>
    intro d blocks
    refine .bind .get fun dk => ?_
    cases dk.newDir with
    | none => exact .throw fun _ _ => trivial
    | some slot =>
      refine .bind ((users_dirAt slot).weaken (fun _ h => h.2) (fun _ _ h => h) fun _ h => h)
        fun e => .bind (R := fun _ => Users) (.modify fun dk₁ h => h.1.set fun _ => hu) fun _ => ?_
      exact .bind (users_addBlocks slot _) fun _ => ih _ _

/-- Entering a file keeps the users. -/
lemma users_addfile {u : UInt8} (hu : u.toNat < 32) (p name : Bytes) :
    Exc.Triple Users (addfile p u name) (fun _ => Users) (fun _ => True) := by
  refine .bind .get fun dk => ?_
  cases dk.cpm2unix.lookup (keyOf u name) with
  | some q => exact .pure fun _ h => h.2
  | none =>
    rcases dk.host.stat p with _ | size | _ | _
    · exact .throw fun _ _ => trivial
    · exact .bind ((users_addExtents hu _ _ _ _).weaken (fun _ h => h.2) (fun _ _ h => h)
        fun _ h => h) fun _ => .modify fun _ h => h
    · exact .throw fun _ _ => trivial
    · exact .throw fun _ _ => trivial

/-- The names of a directory keep the users. -/
lemma users_importNames {u : UInt8} (hu : u.toNat < 32) (p : Bytes) (ns : List Bytes) :
    Exc.Triple Users (importNames p u ns) (fun _ => Users) (fun _ => True) := by
  induction ns with
  | nil => exact .pure fun _ h => h
  | cons n ns ih =>
    refine .bind ?_ fun _ => ih
    refine .bind .get fun dk => .ite (fun _ => .pure fun _ h => h.2) fun _ => ?_
    simp only
    rcases dk.host.stat (p ++ slash :: n) with _ | size | _ | _
    · exact .throw fun _ _ => trivial
    · cases cpmName n with
      | none => exact .pure fun _ h => h.2
      | some s =>
        exact (users_addfile hu _ s).weaken (fun _ h => h.2) (fun _ _ h => h) fun _ h => h
    · exact .pure fun _ h => h.2
    · exact .pure fun _ h => h.2

section Readdir

variable {readdir : Bytes → Option (List Bytes)} {path : Bytes} {host : Host} {g : Geometry}

/-- The directory of one user. -/
lemma users_readuser {u : UInt8} (hu : u.toNat < 32) (p : Bytes) :
    Exc.Triple Users (readuser readdir p u) (fun _ => Users) (fun _ => True) := by
  unfold readuser
  cases readdir p with
  | none => exact .throw fun _ _ => trivial
  | some names => exact users_importNames hu p names

/-- The numbered user directories. -/
lemma users_readusers : ∀ us : List UInt8, (∀ u ∈ us, u.toNat < 32) →
    Exc.Triple Users (readusers readdir path us) (fun _ => Users) (fun _ => True) := by
  intro us
  induction us with
  | nil => exact fun _ => .pure fun _ h => h
  | cons v us ih =>
    intro hus
    have hrest := ih fun w hw => hus w (by simp [hw])
    refine .bind .get fun dk => ?_
    simp only
    rcases dk.host.stat (path ++ slash :: decimal v.toNat) with _ | size | _ | _
    · exact hrest.weaken (fun _ h => h.2) (fun _ _ h => h) fun _ h => h
    · exact hrest.weaken (fun _ h => h.2) (fun _ _ h => h) fun _ h => h
    · exact .bind ((users_readuser (hus v (by simp)) _).weaken (fun _ h => h.2) (fun _ _ h => h)
        fun _ h => h) fun _ => hrest
    · exact hrest.weaken (fun _ h => h.2) (fun _ _ h => h) fun _ h => h

/-- **The entries of an imported disk belong to users.** -/
lemma users_of_build (h : build readdir path g host = .ok () dk) : Users dk := by
  have hstart : Users (blank path g host) := fun e he hu => by
    rw [List.eq_of_mem_replicate he] at hu
    exact absurd hu (by decide)
  have hread : Exc.Triple Users (readhost readdir path) (fun _ => Users) (fun _ => True) :=
    .bind (users_readuser (by decide) path) fun _ =>
      users_readusers users fun _ hu => (lt_of_mem_users hu).trans (by decide)
  have hfinal := hread (blank path g host) hstart
  rw [build] at h
  rw [h] at hfinal
  exact hfinal

/-- **The names of an imported disk agree**, if every file got an extent.

**Proof sketch.** A name of the map has at least one extent, and so an entry; a used entry has a
number below that of the extents of its name, so that its name is in the map. -/
lemma namesAgree_of_build (hg : g.Regular) (h : build readdir path g host = .ok () dk)
    (hsize : ∀ k p size, dk.cpm2unix.lookup k = some p → host.stat p = some (.regular size) →
      fileDirs g.dpb size ≠ 0) : NamesAgree dk := by
  obtain ⟨hb, -⟩ := built_of_build hg h
  obtain ⟨done, blocks, hl, hnone, hsome⟩ := hb.laid
  intro k
  constructor
  · intro hk
    obtain ⟨p, hp⟩ := Option.isSome_iff_exists.mp hk
    obtain ⟨size, hstat, hdone, -⟩ := hsome k p hp
    rw [hb.frame.host] at hstat
    rw [hb.frame.dpb] at hdone
    have hpos : 0 < done k := by
      rw [hdone]
      exact Nat.pos_of_ne_zero (hsize k p size hp hstat)
    obtain ⟨e, he, hu, hek, -⟩ := hl.entered k 0 hpos
    exact ⟨e, he, hu, hek⟩
  · rintro ⟨e, he, hu, rfl⟩
    obtain ⟨d, hd, -⟩ := hl.number e he hu
    by_contra hk
    rw [Option.not_isSome_iff_eq_none] at hk
    rw [hnone _ hk] at hd
    exact Nat.not_lt_zero d hd

end Readdir

end Disk

namespace Bdos

open Disk

variable {g : Geometry} {dk dk' : Disk} {n : ℕ} {old new : CpmDir} {t : Option Bytes} {c : Change}

/-! ## The operations -/

/-- **The invariant of a run**: the directory is in place, its entries belong to users, and its
names are the keys of the map. -/
structure Named (g : Geometry) (dk : Disk) : Prop where
  housed : Housed g dk
  users : Users dk
  agree : NamesAgree dk

/-- `Flush` keeps the invariant. -/
lemma Named.frame (h : Named g dk) (hf : FlushFrame dk dk') : Named g dk' :=
  ⟨⟨h.housed.shaped.static hf.toStatic, by rw [hf.dir, h.housed.len]⟩,
    fun e he => h.users e (by rwa [hf.dir] at he), h.agree.frame hf⟩

/-- The slots that a search visits. -/
lemma Named.slots (h : Named g dk) :
    ∀ n ∈ List.range g.dpb.directoryEntries, n < dk.dir.length := fun n hn => by
  rw [h.housed.len]
  exact List.mem_range.mp hn

/-- A directory write keeps the invariant if its entry does. -/
lemma replace_named {e : CpmDir}
    (h : Exc.Avoids .outOfRange (fun _ dk' => Named g dk') (writeEntry n e dk)) :
    Exc.Avoids .outOfRange (fun _ dk' => Named g dk') (replace n e dk) :=
  replace_avoids (h.weaken fun _ _ hn => ⟨hn.agree.backed, fun _ hf _ _ => hn.frame hf⟩)

/-- No empty slot matches the number of a user. -/
lemma match_user : ∀ u : Fin 32, matchByte 0 0 (UInt8.ofNat u) CpmDir.UNUSED = false := by
  decide

/-- An entry that matches an empty slot does not have the number of a user. -/
lemma match_empty : ∀ e : Fin 32, matchByte 0 0 CpmDir.UNUSED (UInt8.ofNat e) = false := by
  decide

/-- The first byte of a match. -/
lemma match_first {exm count : ℕ} (hc : 0 < count) {f e : CpmDir}
    (h : matching exm count f e = true) : matchByte 0 0 f.st e.st = true := by
  have h0 := List.all_eq_true.mp h 0 (List.mem_finRange 0)
  rw [Bool.or_eq_true, decide_eq_true_eq] at h0
  exact h0.resolve_left (Nat.not_le.mpr hc)

/-- An entry that matches a file control block is in use. -/
lemma used_of_matching {exm count : ℕ} (hc : 0 < count) {fcb : Fcb} {e : CpmDir}
    (h : matching exm count fcb.entry e = true) : e.Used := by
  intro hst
  have h0 := match_first hc h
  have hno := match_user ⟨fcb.entry.st.toNat, fcb.user⟩
  rw [UInt8.ofNat_toNat] at hno
  rw [hst, hno] at h0
  cases h0

/-- A file control block has the number of a user. -/
lemma Fcb.used (fcb : Fcb) : fcb.entry.Used := by
  intro hst
  have := fcb.user
  rw [hst] at this
  exact absurd this (by decide)

/-- **A search that changes every match** keeps the invariant, if its changes concern whole
files.

**Proof sketch.** The search is a row of directory writes (`sweep_all`), whose changes have
different slots. The lookups of a change succeed because its name is in the map, and then
`Changed.agree` brings map and directory together again. -/
lemma search_whole (hg : g.Regular) (h : Named g dk) {p : CpmDir → Bool}
    {act : CpmDir → Option CpmDir}
    (hto : ∀ c : Change, p c.old = true → act c.old = some c.new →
      c.To t ∧ (c.new.Used → c.new.st.toNat < 32))
    (hw : Whole dk t (reached p act dk.dir (List.range g.dpb.directoryEntries))) :
    Exc.Avoids .outOfRange (fun _ dk' => Named g dk')
      ((search g p act true >>= fun _ => pure ()) dk) := by
  have heq : (search g p act true >>= fun _ => pure ()) dk =
      (sweep p act true (List.range g.dpb.directoryEntries) >>= fun _ => pure ()) dk := by
    rw [Exc.bind_apply, Exc.bind_apply, search_eq hg h.housed]
  rw [heq, sweep_all List.nodup_range h.slots]
  set cs := reached p act dk.dir (List.range g.dpb.directoryEntries) with hcs
  have hat : ∀ c ∈ cs, c.To t ∧ dk.dir[c.slot]? = some c.old := fun c hc => by
    obtain ⟨-, h1, h2, h3⟩ := mem_reached hc
    exact ⟨(hto c h2 h3).1, h1⟩
  have hdrop : ∀ c ∈ cs, c.Drops → (dk.cpm2unix.lookup c.old.getName).isSome := fun c hc _ =>
    (h.agree _).mpr ⟨c.old, List.mem_of_getElem? (hat c hc).2, (hat c hc).1.used, rfl⟩
  refine (replaceAll_changed (fun c hc dk₁ h1 =>
    hw.backed h.agree hc (hat c (List.mem_of_head? hc)).1 h1) hat
    (nodup_reached List.nodup_range) hdrop hw.once).weaken fun _ dk' hch => ?_
  refine ⟨⟨h.housed.shaped.static hch.static, hch.len.trans h.housed.len⟩, fun e he hu => ?_,
    hch.agree hat h.agree hw⟩
  obtain ⟨i, hi⟩ := List.mem_iff_getElem?.mp he
  by_cases hex : ∃ c ∈ cs, c.Real ∧ c.slot = i
  · obtain ⟨c, hc, hr, rfl⟩ := hex
    rw [hch.new c hc hr, Option.some.injEq] at hi
    subst hi
    obtain ⟨-, -, h2, h3⟩ := mem_reached hc
    exact (hto c h2 h3).2 hu
  · rw [hch.other i fun c hc hr hs => hex ⟨c, hc, hr, hs⟩] at hi
    exact h.users e (List.mem_of_getElem? hi) hu

/-- Erasing an entry. -/
lemma to_erased (c : Change) (hu : c.old.Used) (hnew : c.new = { c.old with st := CpmDir.UNUSED }) :
    c.To none ∧ (c.new.Used → c.new.st.toNat < 32) := by
  have hno : ¬ c.new.Used := by
    rw [hnew]
    exact fun h => h rfl
  exact ⟨⟨hu, by rw [hnew]; rfl, fun _ => hno, fun k hk => nomatch hk⟩, fun h => absurd h hno⟩

/-- Giving an entry another name. -/
lemma to_named (c : Change) (hu : c.old.Used) {st : UInt8} {fx : Fin 8 → UInt8}
    {ex : Fin 3 → UInt8} (hst : st.toNat < 32) (hnew : c.new = named st fx ex c.old) :
    c.To (some (named st fx ex CpmDir.empty).getName) ∧ (c.new.Used → c.new.st.toNat < 32) := by
  have hused : c.new.Used := by
    rw [hnew]
    intro h
    rw [show st = CpmDir.UNUSED from h] at hst
    exact absurd hst (by decide)
  refine ⟨⟨hu, by rw [hnew]; rfl, fun h => (nomatch h), fun k hk => ⟨hused, ?_⟩⟩, fun _ => ?_⟩
  · rw [← Option.some.inj hk, hnew]
    exact CpmDir.getName_congr rfl rfl rfl
  · rw [hnew]
    exact hst

/-- The names of a directory with an entry in an empty slot.

**Proof sketch.** An entry of the new directory is an old one or the new one, and every used entry
of the old directory is in another slot than the empty one. -/
lemma hasName_fill (hat : dk.dir[n]? = some old) (ho : ¬ old.Used) (hnew : new.Used)
    (hdir : dk'.dir = dk.dir.set n new) (k : Bytes) :
    HasName dk' k ↔ HasName dk k ∨ new.getName = k := by
  have hlt := (List.getElem?_eq_some_iff.mp hat).1
  constructor
  · rintro ⟨e, he, hu, hk⟩
    rw [hdir] at he
    rcases List.mem_or_eq_of_mem_set he with he | rfl
    · exact .inl ⟨e, he, hu, hk⟩
    · exact .inr hk
  · rintro (⟨e, he, hu, hk⟩ | hk)
    · obtain ⟨i, hi⟩ := List.mem_iff_getElem?.mp he
      have hne : n ≠ i := by
        rintro rfl
        rw [hat, Option.some.injEq] at hi
        exact ho (hi ▸ hu)
      refine ⟨e, List.mem_of_getElem? (i := i) ?_, hu, hk⟩
      rw [hdir, List.getElem?_set_ne hne, hi]
    · refine ⟨new, ?_, hnew, hk⟩
      rw [hdir]
      exact List.mem_set hlt new

/-- **`GETEMPTY` keeps the invariant**, if the new entry is of extent 0 or its name is in use.

**Proof sketch.** The slot was unused, so the change makes an entry. For extent 0 its name is put
into the map; for a later extent the name was there already. -/
lemma getEmpty_named (hg : g.Regular) (h : Named g dk) {fcb : Fcb}
    (hext : fcb.entry.getExtNumber = 0 ∨ HasName dk fcb.entry.getName ∨ ∀ e ∈ dk.dir, e.Used) :
    Exc.Avoids .outOfRange (fun _ dk' => Named g dk') (getEmpty g fcb dk) := by
  rw [getEmpty, search_eq hg h.housed]
  refine sweep_first h.slots h fun n old new hat hp hnew => replace_named ?_
  have hold : ¬ old.Used := by
    intro hu
    have hmem := h.users old (List.mem_of_getElem? hat) hu
    have h0 := match_first Nat.one_pos hp
    have hno := match_empty ⟨old.st.toNat, hmem⟩
    rw [UInt8.ofNat_toNat] at hno
    exact absurd (h0.symm.trans hno) (by decide)
  obtain rfl : fresh fcb = new := Option.some.inj hnew
  have hused : (fresh fcb).Used := Fcb.used fcb
  have hne : old.eq (fresh fcb) = false := by
    have hst : (old.st == (fresh fcb).st) = false := by
      rw [beq_eq_false_iff_ne]
      intro hst
      exact hold (fun hh => hused (hst.symm.trans hh))
    simp [CpmDir.eq, hst]
  refine (writeEntry_avoids hat hne fun hu => absurd hu hold).weaken fun _ dk' hh => ?_
  obtain ⟨dk₁, heff, hmap, -, hdir, hs⟩ := hh
  refine ⟨⟨h.housed.shaped.static hs, by rw [hdir, List.length_set, h.housed.len]⟩,
    fun e he hu => ?_, fun k => ?_⟩
  · rw [hdir] at he
    rcases List.mem_or_eq_of_mem_set he with he | rfl
    · exact h.users e he hu
    · exact fcb.user
  · rw [hasName_fill hat hold hused hdir, hmap]
    cases heff with
    | skip hskip hsame =>
      have h1 : fcb.entry.getExtNumber ≠ 0 := fun h0 => hskip (.inr (.inl ⟨hused, hold, h0⟩))
      have h2 : HasName dk fcb.entry.getName :=
        (hext.resolve_left h1).resolve_right fun hall => hold (hall old (List.mem_of_getElem? hat))
      rw [hsame, h.agree k]
      exact ⟨.inl, fun hk => hk.elim id fun hk => hk ▸ h2⟩
    | delete _ hn => exact absurd hused hn
    | create _ _ _ hnames _ =>
      rw [hnames]
      rcases eq_or_ne k (fresh fcb).getName with rfl | hk
      · simp
      · rw [AList.lookup_insert_ne hk, h.agree k]
        simp [hk.symm]
    | rename _ _ _ ho => exact absurd ho hold

/-- **A change that keeps the name** keeps the invariant.

**Proof sketch.** Neither entry changes its name or its use, so that the host is not changed and
the map stays; the names of the directory stay with it. -/
lemma writeEntry_named (h : Named g dk) (hat : dk.dir[n]? = some old) (hu : old.Used)
    (h1 : new.st = old.st) (h2 : new.fx = old.fx) (h3 : new.ex = old.ex) :
    Exc.Avoids .outOfRange (fun _ dk' => Named g dk') (writeEntry n new dk) := by
  by_cases heq : old.eq new = true
  · rw [writeEntry_of_eq hat heq]
    exact h
  · have hne : old.eq new = false := by simpa using heq
    have hnew : new.Used := fun hh => hu (h1 ▸ hh)
    have hname : new.getName = old.getName := CpmDir.getName_congr h1 h2 h3
    have hmem := List.mem_of_getElem? hat
    refine (writeEntry_avoids hat hne fun _ _ => (h.agree _).mpr ⟨old, hmem, hu, rfl⟩).weaken
      fun _ dk' hh => ?_
    obtain ⟨dk₁, heff, hmap, -, hdir, hs⟩ := hh
    refine ⟨⟨h.housed.shaped.static hs, by rw [hdir, List.length_set, h.housed.len]⟩,
      fun e he hue => ?_, fun k => ?_⟩
    · rw [hdir] at he
      rcases List.mem_or_eq_of_mem_set he with he | rfl
      · exact h.users e he hue
      · rw [h1]
        exact h.users old hmem hu
    · have hsame : dk₁ = dk := by
        cases heff with
        | skip _ hsame => exact hsame
        | delete _ hn => exact absurd hnew hn
        | create _ ho => exact absurd hu ho
        | rename _ _ _ _ hne => exact absurd hname hne
      have hlt := (List.getElem?_eq_some_iff.mp hat).1
      rw [hmap, hsame, h.agree k]
      constructor
      · rintro ⟨e, he, hue, hk⟩
        obtain ⟨i, hi⟩ := List.mem_iff_getElem?.mp he
        rcases eq_or_ne n i with rfl | hi'
        · rw [hat, Option.some.injEq] at hi
          subst hi
          exact ⟨new, by rw [hdir]; exact List.mem_set hlt new, hnew, hname.trans hk⟩
        · refine ⟨e, List.mem_of_getElem? (i := i) ?_, hue, hk⟩
          rw [hdir, List.getElem?_set_ne hi', hi]
      · rintro ⟨e, he, hue, hk⟩
        rw [hdir] at he
        rcases List.mem_or_eq_of_mem_set he with he | rfl
        · exact ⟨e, he, hue, hk⟩
        · exact ⟨old, hmem, hu, hname.symm.trans hk⟩

/-- `CLOSEIT` keeps the name of an entry. -/
lemma closed_name {bps : ℕ} {fcb : Fcb} {e e' : CpmDir} (h : closed bps fcb e = some e') :
    e'.st = e.st ∧ e'.fx = e.fx ∧ e'.ex = e.ex := by
  unfold closed at h
  split at h
  · obtain rfl := Option.some.inj h
    split <;> exact ⟨rfl, rfl, rfl⟩
  · cases h

/-- **`CLOSEIT` keeps the invariant.** -/
lemma closeIt_named (hg : g.Regular) (h : Named g dk) (fcb : Fcb) :
    Exc.Avoids .outOfRange (fun _ dk' => Named g dk') (closeIt g fcb dk) := by
  unfold closeIt
  split
  · exact h
  · rw [search_eq hg h.housed]
    refine sweep_first h.slots h fun n old new hat hp hnew => replace_named ?_
    obtain ⟨h1, h2, h3⟩ := closed_name hnew
    exact writeEntry_named h hat (used_of_matching (by omega) hp) h1 h2 h3

/-- **The second half of `GETNEXT` keeps the invariant**, if there is an entry of the extent, or the
new one is of extent 0 or its name is in use. -/
lemma nextExtent_named (hg : g.Regular) (h : Named g dk) {fcb : Fcb}
    (hext : fcb.entry.getExtNumber = 0 ∨ HasName dk fcb.entry.getName ∨ (∀ e ∈ dk.dir, e.Used) ∨
      ∃ e ∈ dk.dir, matching g.dpb.exm 15 fcb.entry e = true) :
    Exc.Avoids .outOfRange (fun _ dk' => Named g dk') (nextExtent g fcb dk) := by
  obtain ⟨b, hb, hno⟩ := sweep_none (p := matching g.dpb.exm 15 fcb.entry) h.slots
  rw [← search_eq hg h.housed] at hb
  rw [nextExtent, Exc.bind_of_ok hb]
  cases b with
  | true => exact h
  | false =>
    refine getEmpty_named hg h ?_
    rcases hext with h0 | hk | hall | ⟨e, he, hm⟩
    · exact .inl h0
    · exact .inr (.inl hk)
    · exact .inr (.inr hall)
    · obtain ⟨i, hi⟩ := List.mem_iff_getElem?.mp he
      have hlt := (List.getElem?_eq_some_iff.mp hi).1
      rw [h.housed.len] at hlt
      exact absurd (hm.symm.trans (hno rfl i (List.mem_range.mpr hlt) e hi)) (by decide)

/-! ## Runs -/

/-- **The condition on an operation**, in the state before it. A new entry is of extent 0 or has a
name that is in use, unless there is no slot for it or, at the end of an extent, the entry is there
already. Erasing, renaming and setting attributes concern whole files. -/
def Op.Sound (dk : Disk) : Op g → Prop
  | .make fcb => (clearS2 fcb).entry.getExtNumber = 0 ∨ HasName dk (clearS2 fcb).entry.getName ∨
      ∀ e ∈ dk.dir, e.Used
  | .write _ _ _ => True
  | .extend fcb => fcb.entry.getExtNumber = 0 ∨ HasName dk fcb.entry.getName ∨
      (∀ e ∈ dk.dir, e.Used) ∨ ∃ e ∈ dk.dir, matching g.dpb.exm 15 fcb.entry e = true
  | .close _ => True
  | .delete fcb => Whole dk none (reached (matching g.dpb.exm 12 fcb.entry)
      (fun e => if readOnly e then none else some { e with st := CpmDir.UNUSED }) dk.dir
      (List.range g.dpb.directoryEntries))
  | .rename fcb => Whole dk (some (renamed fcb CpmDir.empty).getName)
      (reached (matching g.dpb.exm 12 fcb.entry)
        (fun e => if readOnly e then none else some (renamed fcb e)) dk.dir
        (List.range g.dpb.directoryEntries))
  | .setAttributes fcb => Whole dk (some (attributed fcb CpmDir.empty).getName)
      (reached (matching g.dpb.exm 12 fcb.entry) (fun e => some (attributed fcb e)) dk.dir
        (List.range g.dpb.directoryEntries))

/-- **Every operation of the run meets the condition** in the state in which it starts. -/
def Obeys : List (Op g) → Disk → Prop
  | [], _ => True
  | op :: ops, dk => op.Sound dk ∧ ∀ a dk', op.run g dk = .ok a dk' → Obeys ops dk'

/-- **The map and the directory agree along the run**: at the start and after each operation that
completes, and no operation ends in a lookup that fails. -/
def Agreeing : List (Op g) → Disk → Prop
  | [], dk => NamesAgree dk
  | op :: ops, dk => NamesAgree dk ∧ Exc.Avoids .outOfRange (fun _ dk' => Agreeing ops dk')
      (op.run g dk)

/-- The rest of a run that agrees. -/
lemma Agreeing.next {op : Op g} {ops : List (Op g)} {dk' : Disk} (h : Agreeing (op :: ops) dk)
    (hrun : op.run g dk = .ok () dk') : Agreeing ops dk' := by
  obtain ⟨-, h⟩ := h
  rw [hrun] at h
  exact h

/-- No lookup of a run that agrees fails. -/
lemma Agreeing.avoids {op : Op g} {ops : List (Op g)} {dk' : Disk} (h : Agreeing (op :: ops) dk) :
    op.run g dk ≠ .error .outOfRange dk' := by
  intro hrun
  obtain ⟨-, h⟩ := h
  rw [hrun] at h
  exact h rfl

/-- **One operation keeps the map and the directory in step**, and no lookup fails.

**Proof sketch.** By the operation. Making, extending and closing write one entry; deleting,
renaming and setting attributes are searches that change every match (`search_whole`); a data write
leaves directory and map alone. -/
theorem Op.run_agrees (hg : g.Regular) (h : Named g dk) (op : Op g) (hs : op.Sound dk) :
    Exc.Avoids .outOfRange (fun _ dk' => Named g dk') (op.run g dk) := by
  cases op with
  | make fcb => exact (getEmpty_named hg h hs).bind fun _ _ hn => hn
  | write sid hd data =>
    have habs := h.housed.shaped.getAbsSector hg hd.2
    have hdata : dk.datastart ≤ sid := by
      rw [h.housed.shaped.datastart]
      exact hd.1
    rw [Op.run, Exc.bind_of_ok (write_data habs hdata)]
    exact ⟨⟨⟨h.housed.shaped.dpb, h.housed.shaped.smap, h.housed.shaped.datastart,
      h.housed.shaped.dirstart⟩, h.housed.len⟩, h.users, h.agree⟩
  | extend fcb => exact (nextExtent_named hg h hs).bind fun _ _ hn => hn
  | close fcb => exact (closeIt_named hg h fcb).bind fun _ _ hn => hn
  | delete fcb =>
    refine search_whole hg h (fun c hp ha => ?_) hs
    have hu := used_of_matching (by omega) hp
    split at ha
    · cases ha
    · exact to_erased c hu (Option.some.inj ha).symm
  | rename fcb =>
    refine search_whole hg h (fun c hp ha => ?_) hs
    have hu := used_of_matching (by omega) hp
    split at ha
    · cases ha
    · exact to_named c hu fcb.user (Option.some.inj ha).symm
  | setAttributes fcb =>
    refine search_whole hg h (fun c hp ha => ?_) hs
    exact to_named c (used_of_matching (by omega) hp) fcb.user (Option.some.inj ha).symm

/-- **Every run whose operations meet the condition** keeps the map and the directory in step. -/
lemma Named.agreeing (hg : g.Regular) : ∀ {ops : List (Op g)} {dk : Disk}, Named g dk →
    Obeys ops dk → Agreeing ops dk := by
  intro ops
  induction ops with
  | nil => exact fun h _ => h.agree
  | cons op ops ih =>
    intro dk h hob
    have hrun := op.run_agrees hg h hob.1
    refine ⟨h.agree, ?_⟩
    cases hr : op.run g dk with
    | error e dk' =>
      rw [hr] at hrun
      exact hrun
    | ok a dk' =>
      rw [hr] at hrun
      exact ih hrun (hob.2 a dk' hr)

/-- **Name map consistency.** On a disk of a shipped geometry that was imported from a host
directory, along every run whose operations meet the condition: no lookup of `Write` or `Flush`
fails, and at the start and after each completed operation the keys of the name map are the names of
the used entries. Of the host tree it is required that no file has so many blocks that its number
of extents, which is counted in 32 bits, wraps around to 0. -/
theorem names_agree {readdir : Bytes → Option (List Bytes)} {path : Bytes} {host : Host}
    {ops : List (Op g)} (hg : g.Shipped) (hbuild : build readdir path g host = .ok () dk)
    (hsize : ∀ k p size, dk.cpm2unix.lookup k = some p → host.stat p = some (.regular size) →
      fileDirs g.dpb size ≠ 0) (hops : Obeys ops dk) : Agreeing ops dk := by
  have hr := hg.regular
  obtain ⟨hb, -⟩ := built_of_build hr hbuild
  obtain ⟨done, blocks, hl, -⟩ := hb.laid
  have hlen := hl.len
  rw [hb.frame.dpb] at hlen
  exact Named.agreeing hr ⟨⟨hb.frame.shaped, hlen⟩, users_of_build hbuild,
    namesAgree_of_build hr hbuild hsize⟩ hops

/-! ## Two runs -/

/-- Erasing a file with one entry concerns a whole file. -/
lemma whole_erase (hd : c.Drops) (honly : ∀ (i : ℕ) (e : CpmDir), dk.dir[i]? = some e → e.Used →
    e.getName = c.old.getName → c.slot = i) : Whole dk none [c] where
  once := List.pairwise_singleton _ _
  together x hx _ := by
    obtain rfl := List.mem_singleton.mp hx
    exact ⟨fun _ i e hi hu hk => ⟨x, hx, hd.1, honly i e hi hu hk⟩, fun _ => ⟨x, hx, hd, rfl⟩⟩
  target k hk := nomatch hk
  settled x hx _ := by
    obtain rfl : c = x := Option.some.inj hx
    refine ⟨fun _ i e hi he hk sid _ hl => hi (honly i e he hl.1 hk), fun hnd => absurd hd hnd⟩

/-- A file control block for the file `FOO`. -/
def fooFcb : Fcb := ⟨{ fooEntry with rc := 0, al := fun _ => 0 }, by decide⟩

/-- The entry of the empty file `FOO`. -/
def fooFresh : CpmDir := fresh (clearS2 fooFcb)

/-- The disk after `FOO` was made. -/
def fooOnce : Disk := Exc.final ((Op.make fooFcb).run ibm8 fooStart)

/-- The file `FOO` is made in the first slot. -/
lemma make_foo : (Op.make fooFcb).run ibm8 fooStart = .ok () fooOnce ∧
    fooOnce.dir = fooFresh :: List.replicate 63 CpmDir.empty := by
  obtain ⟨⟨⟩, hok⟩ := Exc.ok_of_isOk
    (show Exc.isOk ((Op.make fooFcb).run ibm8 fooStart) = true by decide)
  have hhoused : Housed ibm8 fooStart := ⟨(SameFrame.refl _).shaped, rfl⟩
  have hsweep : sweep (matching 0 1 CpmDir.empty) (fun _ => some fooFresh) false (List.range 64)
      fooStart = (replace 0 fooFresh >>= fun _ => pure true) fooStart := rfl
  refine ⟨hok, ?_⟩
  rw [Op.run, Exc.bind_ok] at hok
  obtain ⟨b, dk₁, h1, h2⟩ := hok
  cases h2
  rw [getEmpty, search_eq regular_ibm8 hhoused] at h1
  obtain ⟨⟨⟩, dk₂, h2, h3⟩ := Exc.bind_ok.mp (hsweep.symm.trans h1)
  cases h3
  obtain ⟨-, old, hold, hd⟩ := replace_ok h2
  obtain rfl : CpmDir.empty = old := Option.some.inj hold
  refine hd.trans ?_
  rw [kept, if_neg (by decide)]
  rfl

/-- The file `FOO` is made, and erased again without being closed. -/
theorem names_agree_foo : Agreeing (g := ibm8) [Op.make fooFcb, .delete fooFcb] fooStart := by
  have hbuild : build (fun _ => some []) drivePath ibm8 emptyDrive = .ok () fooStart := by rfl
  obtain ⟨hmake, hdir⟩ := make_foo
  refine names_agree (.inl rfl) hbuild (fun k p _ hk => nomatch hk)
    ⟨.inl (by decide), fun a dk hrun => ⟨?_, fun _ _ _ => trivial⟩⟩
  rw [hmake] at hrun
  cases hrun
  have hreached : reached (matching 0 12 fooFcb.entry)
      (fun e => if readOnly e then none else some { e with st := CpmDir.UNUSED })
      (fooFresh :: List.replicate 63 CpmDir.empty) (List.range 64) =
      [⟨0, fooFresh, { fooFresh with st := CpmDir.UNUSED }⟩] := by rfl
  rw [Op.Sound, hdir]
  refine hreached ▸ whole_erase ⟨by decide, by decide⟩ fun i e hi hu _ => ?_
  rw [hdir] at hi
  cases i with
  | zero => rfl
  | succ i =>
    rw [List.getElem?_cons_succ] at hi
    rw [List.eq_of_mem_replicate (List.mem_of_getElem? hi)] at hu
    exact absurd hu (by decide)

/-- The disk after `FOO` was made twice. -/
def fooTwice : Disk := Exc.final ((Op.make fooFcb).run ibm8 fooOnce)

/-- **A run that ends in a lookup that fails**: a file is made twice and erased. The first of its
two entries of extent 0 takes the name out of the map, and the second one is not found. -/
theorem make_twice_fails : (∃ dk', (Op.delete fooFcb).run ibm8 fooTwice = .error .outOfRange dk') ∧
    ¬ Agreeing (g := ibm8) [Op.make fooFcb, .make fooFcb, .delete fooFcb] fooStart := by
  obtain ⟨⟨⟩, h2⟩ : ∃ a, (Op.make fooFcb).run ibm8 fooOnce = .ok a fooTwice :=
    Exc.ok_of_isOk (by decide)
  have h3 := Exc.error_of_fault
    (show Exc.fault ((Op.delete fooFcb).run ibm8 fooTwice) = some .outOfRange by decide +kernel)
  exact ⟨⟨_, h3⟩, fun h => ((h.next make_foo.1).next h2).avoids h3⟩

end Bdos

end Cpm22