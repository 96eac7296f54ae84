import Cpm22.Disk.Discipline

set_option relaxedAutoImplicit false
set_option autoImplicit false

/-!
# The files behind the names

The name map, the directory and the host files while a disciplined guest changes the directory.
Each name of the map has an entry of extent 0 and a host file of its own. An entry whose name is
not in the map belongs to an operation that is under way: its file was renamed before it or will be
renamed after it, or its file is gone and it will be erased.

## Main definitions

* `Cpm22.Disk.Consistent` — the name map, the directory and the host files fit together.
* `Cpm22.Disk.Home` — where the file of a name is.
* `Cpm22.Disk.Status` — the file of a name with its contents, or the name is to be erased.

## Main results

* `Cpm22.Disk.Consistent.change` — a directory change keeps the disk consistent.
* `Cpm22.Disk.Status.slot` — a directory change keeps the contents behind every entry.
-/

namespace Cpm22

open HostPath HostFs

namespace Disk

/-- **The name map, the directory and the host files fit together**, with the operations `ops`
under way. -/
structure Consistent (ops : List FileOp) (dk : Disk) : Prop where
  path : dk.path ≠ []
  denotes : ∀ k p, dk.cpm2unix.lookup k = some p → Denotes dk.path p k
  first : ∀ k p, dk.cpm2unix.lookup k = some p →
    ∃ (i : ℕ) (e : CpmDir), dk.dir[i]? = some e ∧ e.Used ∧ e.getName = k ∧ e.getExtNumber = 0
  present : ∀ k p, dk.cpm2unix.lookup k = some p → ∃ c, dk.host.contents (normal p) = some c
  extents : DistinctExtents dk.dir
  ordinary : ∀ e ∈ dk.dir, e.Used → e.Ordinary
  apart : Apart ops
  fits : Fits ops dk.dir

/-- **Where the file of a name is**: under the name itself, or, while the file is renamed, under
its other name. -/
inductive Home (dk : Disk) (ops : List FileOp) (k p : Bytes) : Prop
  | direct (h : dk.cpm2unix.lookup k = some p)
  | ahead (l : Bytes) (h : dk.cpm2unix.lookup k = none) (ho : .rename k l ∈ ops)
      (hl : dk.cpm2unix.lookup l = some p)
  | behind (l : Bytes) (h : dk.cpm2unix.lookup k = none) (ho : .rename l k ∈ ops)
      (hl : dk.cpm2unix.lookup l = some p)

/-- **The file of a name**: it has the contents `c`, or it is gone and its entries will follow. -/
inductive Status (dk : Disk) (ops : List FileOp) (k c : Bytes) : Prop
  | doomed (h : dk.cpm2unix.lookup k = none) (ho : .erase k ∈ ops)
  | home (p : Bytes) (h : Home dk ops k p) (hc : dk.host.contents (normal p) = some c)

variable {dk dk' : Disk} {ops : List FileOp} {old new : CpmDir} {n : ℕ}

/-! ## Paths -/

/-- Different names have different files. -/
lemma Consistent.path_ne (h : Consistent ops dk) {k l p q : Bytes}
    (hk : dk.cpm2unix.lookup k = some p) (hl : dk.cpm2unix.lookup l = some q) (hne : k ≠ l) :
    normal p ≠ normal q :=
  fun hpq => hne ((h.denotes k p hk).inj (h.denotes l q hl) hpq)

/-- The path `mkhostname` gives an entry is not the file of another name. -/
lemma Consistent.path_ne_new (h : Consistent ops dk) (hnew : new.LegalName) {k p : Bytes}
    (hk : dk.cpm2unix.lookup k = some p) (hne : k ≠ new.getName) :
    normal p ≠ normal (hostPath dk.path new.getName) :=
  fun hpq => hne ((h.denotes k p hk).inj (denotes_hostPath h.path hnew) hpq)

/-- A name with a file is renamed to a name without one. -/
lemma Consistent.target_none (h : Consistent ops dk) {k l p : Bytes} (ho : .rename k l ∈ ops)
    (hk : dk.cpm2unix.lookup k = some p) : dk.cpm2unix.lookup l = none := by
  by_contra hl
  obtain ⟨q, hq⟩ := Option.ne_none_iff_exists'.mp hl
  obtain ⟨i, e, hi, he, hek, he0⟩ := h.first k p hk
  obtain ⟨j, f, hj, hf, hfl, hf0⟩ := h.first l q hq
  have hei := List.mem_of_getElem? hi
  have hfj := List.mem_of_getElem? hj
  exact h.fits k l ho e hei f hfj he hf hek hfl
    ((h.ordinary e hei he).zero (h.ordinary f hfj hf) he0 hf0).1

/-- A new entry of extent 0 has a name without a file. -/
lemma Consistent.new_none (h : Consistent ops dk) (hn : dk.dir[n]? = some old) (ho : ¬ old.Used)
    (hnew : new.Used) (hord : new.Ordinary) (h0 : new.getExtNumber = 0)
    (hext : DistinctExtents (dk.dir.set n new)) : dk.cpm2unix.lookup new.getName = none := by
  by_contra hl
  obtain ⟨p, hp⟩ := Option.ne_none_iff_exists'.mp hl
  obtain ⟨i, e, hi, he, hek, he0⟩ := h.first _ p hp
  have hin : n ≠ i := by
    rintro rfl
    rw [hn] at hi
    cases hi
    exact ho he
  have hlt := (List.getElem?_eq_some_iff.mp hn).1
  obtain ⟨hxl, hxh⟩ := (h.ordinary e (List.mem_of_getElem? hi) he).zero hord he0 h0
  refine hin (hext i n e new ?_ ?_ he hnew hek hxl hxh).symm
  · rw [List.getElem?_set_ne hin]
    exact hi
  · rw [List.getElem?_set_self hlt]

/-! ## The status of a name -/

/-- The operations that concern a name are the same. -/
lemma Apart.eq (h : Apart ops) {o o' : FileOp} (ho : o ∈ ops) (ho' : o' ∈ ops) (k : Bytes)
    (hk : o.Touches k) (hk' : o'.Touches k) : o = o' := h o ho o' ho' k hk hk'

/-- **An entry that is renamed** keeps the file behind it. -/
lemma Status.follow (h : Apart ops) {k l c : Bytes} (ho : .rename k l ∈ ops) (hne : l ≠ k)
    (hl : ∀ p, dk.cpm2unix.lookup k = some p → dk.cpm2unix.lookup l = none)
    (hs : Status dk ops k c) : Status dk ops l c := by
  cases hs with
  | doomed _ ho' => cases h.eq ho ho' k (.inl rfl) rfl
  | home p hp hc =>
    refine .home p ?_ hc
    cases hp with
    | direct hk => exact .behind k (hl p hk) ho hk
    | ahead m _ ho' hm =>
      cases h.eq ho ho' k (.inl rfl) (.inl rfl)
      exact .direct hm
    | behind m _ ho' _ =>
      cases h.eq ho ho' k (.inl rfl) (.inr rfl)
      exact absurd rfl hne

/-- Removing a file keeps the contents behind every name but its own, which is doomed.

**Proof sketch.** By where the content of the name is. The paths of different names are apart, so
that deleting one file leaves the others. A name that is found through another one belongs to
another operation, so that its partner is not the deleted name. -/
lemma Status.delete (h : Consistent ops dk) {k p : Bytes} (ho : .erase k ∈ ops)
    (hp : dk.cpm2unix.lookup k = some p) (hnames : dk'.cpm2unix = dk.cpm2unix.erase k)
    (hfiles : dk'.host.contents = Function.update dk.host.contents (normal p) none) {l c : Bytes}
    (hs : Status dk ops l c) : Status dk' ops l c := by
  have hlook : ∀ m, m ≠ k → dk'.cpm2unix.lookup m = dk.cpm2unix.lookup m := fun m hm => by
    rw [hnames, AList.lookup_erase_ne hm]
  have hself : dk'.cpm2unix.lookup k = none := by rw [hnames, AList.lookup_erase]
  have hnone : ∀ m, dk.cpm2unix.lookup m = none → dk'.cpm2unix.lookup m = none := fun m hm => by
    rcases eq_or_ne m k with rfl | hmk
    · exact hself
    · rw [hlook m hmk, hm]
  -- the files of other names are still there
  have hkeep : ∀ m q, m ≠ k → dk.cpm2unix.lookup m = some q →
      dk.host.contents (normal q) = some c → dk'.host.contents (normal q) = some c :=
    fun m q hm hq hc => by
      rw [hfiles, Function.update_of_ne (h.path_ne hq hp hm), hc]
  cases hs with
  | doomed hl ho' => exact .doomed (hnone l hl) ho'
  | home q hq hc =>
    cases hq with
    | direct hl =>
      rcases eq_or_ne l k with rfl | hlk
      · exact .doomed hself ho
      · exact .home q (.direct (by rw [hlook l hlk, hl])) (hkeep l q hlk hl hc)
    | ahead m hl ho' hm =>
      have hmk : m ≠ k := by
        rintro rfl
        cases h.apart.eq ho ho' m rfl (.inr rfl)
      exact .home q (.ahead m (hnone l hl) ho' (by rw [hlook m hmk, hm])) (hkeep m q hmk hm hc)
    | behind m hl ho' hm =>
      have hmk : m ≠ k := by
        rintro rfl
        cases h.apart.eq ho ho' m rfl (.inl rfl)
      exact .home q (.behind m (hnone l hl) ho' (by rw [hlook m hmk, hm])) (hkeep m q hmk hm hc)

/-- Creating a file keeps the contents behind every name.

**Proof sketch.** The new name was in no operation and not in the map, so that it is none of the
names that the content is found by, and its file is none of theirs. -/
lemma Status.create (h : Consistent ops dk) (hlegal : new.LegalName)
    (hun : dk.cpm2unix.lookup new.getName = none) (hmake : ∀ o ∈ ops, ¬ o.Touches new.getName)
    (hnames : dk'.cpm2unix = dk.cpm2unix.insert new.getName (hostPath dk.path new.getName))
    (hfiles : dk'.host.contents = Function.update dk.host.contents
      (normal (hostPath dk.path new.getName)) (some [])) {l c : Bytes}
    (hs : Status dk ops l c) : Status dk' ops l c := by
  have hlook : ∀ m, m ≠ new.getName → dk'.cpm2unix.lookup m = dk.cpm2unix.lookup m :=
    fun m hm => by rw [hnames, AList.lookup_insert_ne hm]
  have hmapped : ∀ m q, dk.cpm2unix.lookup m = some q → m ≠ new.getName := by
    rintro m q hq rfl
    rw [hun] at hq
    cases hq
  have hkeep : ∀ m q, dk.cpm2unix.lookup m = some q → dk.host.contents (normal q) = some c →
      dk'.host.contents (normal q) = some c := fun m q hq hc => by
    rw [hfiles, Function.update_of_ne (h.path_ne_new hlegal hq (hmapped m q hq)), hc]
  have htouch : ∀ o ∈ ops, o.Touches l → l ≠ new.getName := by
    rintro o ho hl rfl
    exact hmake o ho hl
  cases hs with
  | doomed hl ho => exact .doomed (by rw [hlook l (htouch _ ho rfl), hl]) ho
  | home q hq hc =>
    cases hq with
    | direct hl =>
      exact .home q (.direct (by rw [hlook l (hmapped l q hl), hl])) (hkeep l q hl hc)
    | ahead m hl ho hm =>
      refine .home q (.ahead m ?_ ho (by rw [hlook m (hmapped m q hm), hm])) (hkeep m q hm hc)
      rw [hlook l (htouch _ ho (.inl rfl)), hl]
    | behind m hl ho hm =>
      refine .home q (.behind m ?_ ho (by rw [hlook m (hmapped m q hm), hm])) (hkeep m q hm hc)
      rw [hlook l (htouch _ ho (.inr rfl)), hl]

/-- **Renaming a file** keeps the contents behind every name.

**Proof sketch.** The old name loses its entry in the map; its file is now ahead of it. A name
that was ahead of the file is now the file's own name. Every other operation concerns other names,
and every other name has another file. -/
lemma Status.rename (h : Consistent ops dk) {k p c₀ : Bytes} (hlegal : new.LegalName)
    (ho : .rename k new.getName ∈ ops) (hne : new.getName ≠ k)
    (hp : dk.cpm2unix.lookup k = some p) (hc₀ : dk.host.contents (normal p) = some c₀)
    (hnames : dk'.cpm2unix =
      (dk.cpm2unix.erase k).insert new.getName (hostPath dk.path new.getName))
    (hfiles : dk'.host.contents = Function.update (Function.update dk.host.contents (normal p) none)
      (normal (hostPath dk.path new.getName)) (some c₀)) {l c : Bytes}
    (hs : Status dk ops l c) : Status dk' ops l c := by
  have hun := h.target_none ho hp
  have hlook : ∀ m, m ≠ k → m ≠ new.getName → dk'.cpm2unix.lookup m = dk.cpm2unix.lookup m :=
    fun m h1 h2 => by rw [hnames, AList.lookup_insert_ne h2, AList.lookup_erase_ne h1]
  have hold : dk'.cpm2unix.lookup k = none := by
    rw [hnames, AList.lookup_insert_ne hne.symm, AList.lookup_erase]
  have hnew : dk'.cpm2unix.lookup new.getName = some (hostPath dk.path new.getName) := by
    rw [hnames, AList.lookup_insert]
  have hmoved : dk.host.contents (normal p) = some c →
      dk'.host.contents (normal (hostPath dk.path new.getName)) = some c := fun hc => by
    rw [hfiles, Function.update_self, ← hc₀, hc]
  have hkeep : ∀ m q, m ≠ k → m ≠ new.getName → dk.cpm2unix.lookup m = some q →
      dk.host.contents (normal q) = some c → dk'.host.contents (normal q) = some c :=
    fun m q h1 h2 hq hc => by
      rw [hfiles, Function.update_of_ne (h.path_ne_new hlegal hq h2),
        Function.update_of_ne (h.path_ne hq hp h1), hc]
  -- an operation on one of the two names is this one
  have hthis : ∀ o ∈ ops, o.Touches k ∨ o.Touches new.getName → o = .rename k new.getName :=
    fun o ho' ht => ht.elim (fun ht => h.apart.eq ho' ho k ht (.inl rfl))
      fun ht => h.apart.eq ho' ho _ ht (.inr rfl)
  cases hs with
  | doomed hl ho' =>
    have h1 : l ≠ k := by
      rintro rfl
      cases hthis _ ho' (.inl rfl)
    have h2 : l ≠ new.getName := by
      rintro rfl
      cases hthis _ ho' (.inr rfl)
    exact .doomed (by rw [hlook l h1 h2, hl]) ho'
  | home q hq hc =>
    cases hq with
    | direct hl =>
      rcases eq_or_ne l k with rfl | h1
      · rw [hp] at hl
        cases hl
        exact .home _ (.ahead _ hold ho hnew) (hmoved hc)
      · have h2 : l ≠ new.getName := by
          rintro rfl
          rw [hun] at hl
          cases hl
        exact .home q (.direct (by rw [hlook l h1 h2, hl])) (hkeep l q h1 h2 hl hc)
    | ahead m hl ho' hm =>
      have h1 : l ≠ k := by
        rintro rfl
        rw [hp] at hl
        cases hl
      -- the operation is not this one, so it concerns neither name
      have hother : ∀ x, (FileOp.rename l m).Touches x → x ≠ k ∧ x ≠ new.getName := by
        intro x hx
        refine ⟨?_, ?_⟩ <;> rintro rfl
        · cases hthis _ ho' (.inl hx)
          exact h1 rfl
        · cases hthis _ ho' (.inr hx)
          exact h1 rfl
      obtain ⟨hlk, hln⟩ := hother l (.inl rfl)
      obtain ⟨hmk, hmn⟩ := hother m (.inr rfl)
      exact .home q (.ahead m (by rw [hlook l hlk hln, hl]) ho' (by rw [hlook m hmk hmn, hm]))
        (hkeep m q hmk hmn hm hc)
    | behind m hl ho' hm =>
      by_cases h2 : l = new.getName
      · cases hthis _ ho' (.inr (.inr h2.symm))
        rw [hp] at hm
        cases hm
        exact .home _ (.direct hnew) (hmoved hc)
      · have hother : ∀ x, (FileOp.rename m l).Touches x → x ≠ k ∧ x ≠ new.getName := by
          intro x hx
          refine ⟨?_, ?_⟩ <;> rintro rfl
          · cases hthis _ ho' (.inl hx)
            exact h2 rfl
          · cases hthis _ ho' (.inr hx)
            exact h2 rfl
        obtain ⟨hlk, hln⟩ := hother l (.inr rfl)
        obtain ⟨hmk, hmn⟩ := hother m (.inl rfl)
        exact .home q (.behind m (by rw [hlook l hlk hln, hl]) ho' (by rw [hlook m hmk hmn, hm]))
          (hkeep m q hmk hmn hm hc)

/-! ## A directory change -/

/-- **A directory change keeps the status of every name.** -/
lemma Status.effect {bps : ℕ} (h : Consistent ops dk) (hn : dk.dir[n]? = some old)
    (hslot : SlotStep bps ops old new) (hext : DistinctExtents (dk.dir.set n new))
    (heff : HostEffect old new dk dk') {k c : Bytes} (hs : Status dk ops k c) :
    Status dk' ops k c := by
  cases heff with
  | skip _ hsame => rwa [hsame]
  | delete p hnew ho h0 hp hnames hfiles =>
    exact hs.delete h (hslot.erase ho hnew) hp hnames hfiles
  | create hnew ho h0 hnames hfiles =>
    exact hs.create h (hslot.ordinary hnew).1
      (h.new_none hn ho hnew (hslot.ordinary hnew) h0 hext) (hslot.make ho hnew) hnames hfiles
  | rename p c₀ hnew ho hne h0 h1 hp hc hnames hfiles =>
    exact hs.rename h (hslot.ordinary hnew).1 (hslot.rename ho hnew hne) hne hp hc hnames hfiles

/-- **A directory change keeps the contents behind every entry**, also behind the entry that
changes, unless it is erased.

**Proof sketch.** An entry of another slot has its name still (`Status.effect`). If the changed
entry has a new name, the slot was renamed in an open operation, and the content is found ahead or
behind, as the map has the old name or the new one. -/
theorem Status.slot {bps : ℕ} (h : Consistent ops dk) (hn : dk.dir[n]? = some old)
    (hslot : SlotStep bps ops old new) (hext : DistinctExtents (dk.dir.set n new))
    (heff : HostEffect old new dk dk') {i : ℕ} {e e' : CpmDir} (hi : dk.dir[i]? = some e)
    (hi' : (dk.dir.set n new)[i]? = some e') (hu : e.Used) (hu' : e'.Used) {c : Bytes}
    (hs : Status dk ops e.getName c) : Status dk' ops e'.getName c := by
  have hs' := hs.effect h hn hslot hext heff
  rcases eq_or_ne n i with rfl | hne
  · have hlt := (List.getElem?_eq_some_iff.mp hn).1
    rw [List.getElem?_set_self hlt] at hi'
    cases hi'
    rw [hn] at hi
    cases hi
    by_cases hname : new.getName = old.getName
    · rwa [hname]
    · refine hs'.follow h.apart (hslot.rename hu hu' hname) hname fun p hp => ?_
      cases heff with
      | skip _ hsame =>
        rw [hsame] at hp ⊢
        exact h.target_none (hslot.rename hu hu' hname) hp
      | delete _ hnew => exact absurd hu' hnew
      | create _ ho => exact absurd hu ho
      | rename _ _ _ _ _ _ _ _ _ hnames _ =>
        rw [hnames, AList.lookup_insert_ne (Ne.symm hname), AList.lookup_erase] at hp
        cases hp
  · rw [List.getElem?_set_ne hne, hi] at hi'
    cases hi'
    exact hs'

/-- Where an entry comes from whose name is renamed: its slot had an entry of the same extent
already, under the same name or under the name that is given up. -/
lemma SlotStep.origin {bps : ℕ} {dir : List CpmDir} (hslot : SlotStep bps ops old new)
    (ha : Apart ops) (hn : dir[n]? = some old) {k l : Bytes} (ho : .rename k l ∈ ops) {i : ℕ}
    {e : CpmDir} (hi : (dir.set n new)[i]? = some e) (hu : e.Used)
    (ht : (FileOp.rename k l).Touches e.getName) :
    ∃ e₀, dir[i]? = some e₀ ∧ e₀.Used ∧ e₀.xl = e.xl ∧
      (e₀.getName = e.getName ∨ (e₀.getName = k ∧ e.getName = l ∧ k ≠ l)) := by
  rcases eq_or_ne n i with rfl | hne
  · rw [List.getElem?_set_self (List.getElem?_eq_some_iff.mp hn).1] at hi
    cases hi
    by_cases hold : old.Used
    · refine ⟨old, hn, hold, (hslot.grows hold hu).1.symm, ?_⟩
      by_cases hname : new.getName = old.getName
      · exact .inl hname.symm
      · cases ha.eq ho (hslot.rename hold hu hname) _ ht (.inr rfl)
        exact .inr ⟨rfl, rfl, Ne.symm hname⟩
    · exact absurd ht (hslot.make hold hu _ ho)
  · rw [List.getElem?_set_ne hne] at hi
    exact ⟨e, hi, hu, rfl, .inl rfl⟩

/-- The extents that a renamed file brings are not there under its new name, also after a directory
change.

**Proof sketch.** Two entries of the new directory with the names of an operation were there
before, with these names or, in the renamed slot, with the old one (`SlotStep.origin`). If both had
the old name, they were the same entry, since the extents of a name are different. -/
lemma Fits.set {bps : ℕ} {dir : List CpmDir} (h : Fits ops dir) (ha : Apart ops)
    (hd : DistinctExtents dir) (hord : ∀ e ∈ dir, e.Used → e.Ordinary) (hn : dir[n]? = some old)
    (hslot : SlotStep bps ops old new) : Fits ops (dir.set n new) := by
  intro k l ho e he f hf hue huf hek hfl hxl
  obtain ⟨i, hi⟩ := List.mem_iff_getElem?.mp he
  obtain ⟨j, hj⟩ := List.mem_iff_getElem?.mp hf
  obtain ⟨e₀, hi₀, hue₀, hxe, hce⟩ := hslot.origin ha hn ho hi hue (.inl hek)
  obtain ⟨f₀, hj₀, huf₀, hxf, hcf⟩ := hslot.origin ha hn ho hj huf (.inr hfl)
  have hmi := List.mem_of_getElem? hi₀
  have hmj := List.mem_of_getElem? hj₀
  have hx₀ : e₀.xl = f₀.xl := hxe.trans (hxl.trans hxf.symm)
  have hek₀ : e₀.getName = k := hce.elim (fun hh => hh.trans hek) fun hh => hh.1
  rcases hcf with hcf | ⟨hfk, -, hkl⟩
  · exact h k l ho e₀ hmi f₀ hmj hue₀ huf₀ hek₀ (hcf.trans hfl) hx₀
  · -- both entries were entries of the file that is renamed
    have hxh : e₀.xh = f₀.xh := (hord e₀ hmi hue₀).2.2.trans (hord f₀ hmj huf₀).2.2.symm
    have hij := hd i j e₀ f₀ hi₀ hj₀ hue₀ huf₀ (hek₀.trans hfk.symm) hx₀ hxh
    subst hij
    rw [hi] at hj
    cases hj
    exact hkl (hek.symm.trans hfl)

/-- The disk after a directory change: the host and the name map of `dk'`, the new entry in slot
`n`. -/
def withEntry (dk' : Disk) (n : ℕ) (new : CpmDir) : Disk :=
  { dk' with dir := dk'.dir.set n new }

/-- A name that is found after another one was erased. -/
lemma lookup_of_erase {m : AList fun _ : Bytes => Bytes} {k l p : Bytes}
    (h : (m.erase l).lookup k = some p) : k ≠ l ∧ m.lookup k = some p := by
  rcases eq_or_ne k l with rfl | hne
  · rw [AList.lookup_erase] at h
    cases h
  · rw [AList.lookup_erase_ne hne] at h
    exact ⟨hne, h⟩

/-- A name that is found after one was entered. -/
lemma lookup_of_insert {m : AList fun _ : Bytes => Bytes} {k l p q : Bytes}
    (h : (m.insert l q).lookup k = some p) :
    (k = l ∧ p = q) ∨ (k ≠ l ∧ m.lookup k = some p) := by
  rcases eq_or_ne k l with rfl | hne
  · rw [AList.lookup_insert, Option.some.injEq] at h
    exact .inl ⟨rfl, h.symm⟩
  · rw [AList.lookup_insert_ne hne] at h
    exact .inr ⟨hne, h⟩

/-- Every name of the map has an entry of extent 0, also after a directory change.

**Proof sketch.** An entry of another slot stays. If the map is as it was, the changed slot has an
entry of extent 0 of the same name, since otherwise the host would have been changed. Erasing and
renaming take the old name out of the map, and making and renaming put in the one of the new entry.
-/
lemma Consistent.first_change {bps : ℕ} (h : Consistent ops dk) (hn : dk.dir[n]? = some old)
    (hslot : SlotStep bps ops old new) (heff : HostEffect old new dk dk') {k p : Bytes}
    (hk : dk'.cpm2unix.lookup k = some p) :
    ∃ (i : ℕ) (e : CpmDir), (dk.dir.set n new)[i]? = some e ∧ e.Used ∧ e.getName = k ∧
      e.getExtNumber = 0 := by
  have hself : (dk.dir.set n new)[n]? = some new :=
    List.getElem?_set_self (List.getElem?_eq_some_iff.mp hn).1
  -- an entry of another slot stays
  have hother : (∃ q, dk.cpm2unix.lookup k = some q) → (old.Used → old.getName ≠ k) →
      ∃ (i : ℕ) (e : CpmDir), (dk.dir.set n new)[i]? = some e ∧ e.Used ∧ e.getName = k ∧
        e.getExtNumber = 0 := by
    rintro ⟨q, hq⟩ hold
    obtain ⟨i, e, hi, hu, hek, h0⟩ := h.first k q hq
    have hne : n ≠ i := by
      rintro rfl
      rw [hn] at hi
      cases hi
      exact hold hu hek
    exact ⟨i, e, by rw [List.getElem?_set_ne hne, hi], hu, hek, h0⟩
  cases heff with
  | skip hskip hsame =>
    rw [hsame] at hk
    by_cases hold : old.Used ∧ old.getName = k
    · obtain ⟨hu, hok⟩ := hold
      obtain ⟨i, e, hi, hue, hek, h0⟩ := h.first k p hk
      rcases eq_or_ne n i with rfl | hne
      · rw [hn] at hi
        cases hi
        -- an entry of extent 0 that loses its name has an effect on the host
        have hnew : new.Used := by
          by_contra hnew
          exact hskip (.inl ⟨hnew, hu, h0⟩)
        have h1 : new.getExtNumber = 0 := (hslot.grows hu hnew).ext.trans h0
        have hname : new.getName = old.getName := by
          by_contra hname
          exact hskip (.inr (.inr ⟨hnew, hu, hname, h0, h1⟩))
        exact ⟨n, new, hself, hnew, hname.trans hek, h1⟩
      · exact ⟨i, e, by rw [List.getElem?_set_ne hne, hi], hue, hek, h0⟩
    · exact hother ⟨p, hk⟩ fun hu hok => hold ⟨hu, hok⟩
  | delete q hnew ho h0 hq hnames hfiles =>
    rw [hnames] at hk
    obtain ⟨hne, hk⟩ := lookup_of_erase hk
    exact hother ⟨p, hk⟩ fun _ => hne.symm
  | create hnew ho h0 hnames hfiles =>
    rcases eq_or_ne k new.getName with rfl | hne
    · exact ⟨n, new, hself, hnew, rfl, h0⟩
    · rw [hnames, AList.lookup_insert_ne hne] at hk
      exact hother ⟨p, hk⟩ fun hu => absurd hu ho
  | rename q c hnew ho hne h0 h1 hq hc hnames hfiles =>
    rcases eq_or_ne k new.getName with rfl | hkn
    · exact ⟨n, new, hself, hnew, rfl, h1⟩
    · rw [hnames, AList.lookup_insert_ne hkn] at hk
      obtain ⟨hko, hk⟩ := lookup_of_erase hk
      exact hother ⟨p, hk⟩ fun _ => hko.symm

/-- **The names after a directory change**: a name of the map was there before, with the same file,
or it is the name of the new entry, with an empty file or the one of the old name.

**Proof sketch.** By the kind of the change. A name that was there before has its old path, and the
changed files are those of other names. A name that is new is that of the new entry; its file is
empty after creating and has the content of the old name after renaming. -/
lemma Consistent.lookup_change {bps : ℕ} (h : Consistent ops dk) (hslot : SlotStep bps ops old new)
    (heff : HostEffect old new dk dk') {k p : Bytes} (hk : dk'.cpm2unix.lookup k = some p) :
    (dk.cpm2unix.lookup k = some p ∧
        dk'.host.contents (normal p) = dk.host.contents (normal p)) ∨
      (k = new.getName ∧ new.LegalName ∧ p = hostPath dk.path new.getName ∧
        (dk'.host.contents (normal p) = some [] ∨ ∃ l q, dk.cpm2unix.lookup l = some q ∧
          dk'.host.contents (normal p) = dk.host.contents (normal q))) := by
  cases heff with
  | skip hskip hsame =>
    rw [hsame] at hk ⊢
    exact .inl ⟨hk, rfl⟩
  | delete q hnew ho h0 hq hnames hfiles =>
    rw [hnames] at hk
    obtain ⟨hne, hk⟩ := lookup_of_erase hk
    exact .inl ⟨hk, by rw [hfiles, Function.update_of_ne (h.path_ne hk hq hne)]⟩
  | create hnew ho h0 hnames hfiles =>
    have hlegal := (hslot.ordinary hnew).1
    rw [hnames] at hk
    rcases eq_or_ne k new.getName with rfl | hne
    · rw [AList.lookup_insert] at hk
      cases hk
      exact .inr ⟨rfl, hlegal, rfl, .inl (by rw [hfiles, Function.update_self])⟩
    · rw [AList.lookup_insert_ne hne] at hk
      exact .inl ⟨hk, by rw [hfiles, Function.update_of_ne (h.path_ne_new hlegal hk hne)]⟩
  | rename q c hnew ho hne h0 h1 hq hc hnames hfiles =>
    have hlegal := (hslot.ordinary hnew).1
    rw [hnames] at hk
    rcases eq_or_ne k new.getName with rfl | hkn
    · rw [AList.lookup_insert] at hk
      cases hk
      exact .inr ⟨rfl, hlegal, rfl, .inr ⟨_, q, hq, by rw [hfiles, Function.update_self, hc]⟩⟩
    · rw [AList.lookup_insert_ne hkn] at hk
      obtain ⟨hko, hk⟩ := lookup_of_erase hk
      exact .inl ⟨hk, by rw [hfiles, Function.update_of_ne (h.path_ne_new hlegal hk hkn),
        Function.update_of_ne (h.path_ne hk hq hko)]⟩

/-- The paths of the map belong to their names and have files, also after a directory change. -/
lemma Consistent.paths_change {bps : ℕ} (h : Consistent ops dk) (hslot : SlotStep bps ops old new)
    (heff : HostEffect old new dk dk') {k p : Bytes} (hk : dk'.cpm2unix.lookup k = some p) :
    Denotes dk.path p k ∧ ∃ c, dk'.host.contents (normal p) = some c := by
  rcases h.lookup_change hslot heff hk with ⟨hk, hsame⟩ | ⟨rfl, hlegal, rfl, hc⟩
  · rw [hsame]
    exact ⟨h.denotes k p hk, h.present k p hk⟩
  · refine ⟨denotes_hostPath h.path hlegal, ?_⟩
    rcases hc with hc | ⟨l, q, hq, hc⟩
    · exact ⟨[], hc⟩
    · rw [hc]
      exact h.present l q hq

/-- **A directory change keeps the disk consistent.**

**Proof sketch.** One field after the other: paths and files of the map by `paths_change`, entries
of extent 0 by `first_change`, and the operations that are open by what the slot may change. -/
theorem Consistent.change {bps : ℕ} (h : Consistent ops dk) (hn : dk.dir[n]? = some old)
    (hslot : SlotStep bps ops old new) (hext : DistinctExtents (dk.dir.set n new))
    (heff : HostEffect old new dk dk') (hdir : dk'.dir = dk.dir) (hpath : dk'.path = dk.path) :
    Consistent ops (dk'.withEntry n new) where
  path := by
    change dk'.path ≠ []
    rw [hpath]
    exact h.path
  denotes k p hk := by
    change Denotes dk'.path p k
    rw [hpath]
    exact (h.paths_change hslot heff hk).1
  first k p hk := by
    obtain ⟨i, e, hi, he⟩ := h.first_change hn hslot heff hk
    refine ⟨i, e, ?_, he⟩
    simpa only [withEntry, hdir] using hi
  present k p hk := (h.paths_change hslot heff hk).2
  extents := by
    simpa only [withEntry, hdir] using hext
  ordinary e he hu := by
    simp only [withEntry, hdir] at he
    rcases List.mem_or_eq_of_mem_set he with he | rfl
    · exact h.ordinary e he hu
    · exact hslot.ordinary hu
  apart := h.apart
  fits := by
    have := h.fits.set h.apart h.extents h.ordinary hn hslot
    simpa only [withEntry, hdir] using this

end Disk

end Cpm22
