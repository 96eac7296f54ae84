import Cpm22.Disk.Coherence
import Cpm22.Disk.Containment
import Cpm22.Disk.Fidelity

set_option relaxedAutoImplicit false
set_option autoImplicit false

/-!
# Restart transparency

A session starts on an empty drive directory and leaves its files there under host names; a new
disk that is built from the directory has other slots and other blocks. This file shows that it has
the same files: the same users and names, and every record that was written is read back through
the new directory.

## Main definitions

* `Cpm22.Disk.Session` — a disciplined run with users 0 to 15 and files up to 256 KiB.
* `Cpm22.Disk.Fresh` — the host files of the drive are those of the name map.
* `Cpm22.Disk.Claimed` — every used entry has a file or takes part in an operation.
* `Cpm22.Disk.ReaddirOf` — what `readdir` lists.
* `Cpm22.Disk.Delivers` — reading a record through the directory.

## Main results

* `Cpm22.Disk.Session.good` — the invariants along a session.
* `Cpm22.Disk.restart_transparent` — the new disk has the names and the records of the old one.
-/

namespace Cpm22

open HostPath HostFs

namespace Disk

/-! ## Sessions -/

/-- A directory write of a session: users 0 to 15, extents 0 to 15, and a new entry belongs to a
file that has its entry of extent 0. -/
structure Tidy (dir dir' : List CpmDir) : Prop where
  users : ∀ e ∈ dir', e.Used → e.st.toNat ≤ 15
  small : ∀ e ∈ dir', e.Used → e.xl.toNat ≤ 15
  first : ∀ (i : ℕ) (e f : CpmDir), dir[i]? = some e → dir'[i]? = some f → ¬ e.Used → f.Used →
    ∃ f₀ ∈ dir', f₀.Used ∧ f₀.getName = f.getName ∧ f₀.getExtNumber = 0

/-- The directory write of an access, if it is one, is tidy. -/
def TidyStep : Access → Disk → Disk → Prop
  | .read _ _ _, _, _ => True
  | .write track sector _, dk, dk' =>
      ∀ n, dk.area track sector = some (.directory n) → Tidy dk.dir dk'.dir

/-- **A session**: the disks and ledgers that disciplined and tidy accesses reach. -/
inductive Session (dk₀ : Disk) : Disk → Ledger → Prop
  | start : Session dk₀ dk₀ Ledger.start
  | step {dk dk' : Disk} {l l' : Ledger} {a : Access} (h : Session dk₀ dk l)
      (hs : Step a dk l dk' l') (ht : TidyStep a dk dk') : Session dk₀ dk' l'

/-! ## The invariants -/

/-- **The host files of the drive are those of the name map**: every entry of extent 0 is in the
map, every file of the drive directory belongs to a name, no file has more than 256 KiB, and the
user directories are there. -/
structure Fresh (dk : Disk) : Prop where
  mapped : ∀ e ∈ dk.dir, e.Used → e.getExtNumber = 0 → (dk.cpm2unix.lookup e.getName).isSome
  only : ∀ n c, dk.host.contents n = some c → Inside (normal dk.path) n →
    ∃ k p, dk.cpm2unix.lookup k = some p ∧ normal p = n
  sizes : ∀ k p c, dk.cpm2unix.lookup k = some p → dk.host.contents (normal p) = some c →
    c.length ≤ 262144
  userDir : ∀ e ∈ dk.dir, e.Used → e.getExtNumber = 0 → e.st ≠ 0 →
    dk.host.node (normal (hostDir dk.path e.st.toNat)) = some .dir

/-- **Every used entry has a file, or takes part in an operation.** -/
def Claimed (ops : List FileOp) (dk : Disk) : Prop :=
  ∀ e ∈ dk.dir, e.Used → ∃ c, Status dk ops e.getName c

variable {g : Geometry} {dk dk' : Disk} {ops : List FileOp} {old new : CpmDir} {n : ℕ}

/-! ## One directory entry -/

/-- A directory change keeps the directories of the host, and makes the one of a new name.

**Proof sketch.** Erasing removes a file, and making and renaming create directories and a file;
none of them removes a directory. A change that makes a name has made the directory of its user,
since this succeeded. -/
lemma hostChange_dirs (h : hostChange old new dk = .ok () dk') :
    Host.KeepsDirs dk.host dk'.host ∧ (MakesName old new →
      (normal (hostDir dk.path new.st.toNat)).comps ≠ [] →
      dk'.host.node (normal (hostDir dk.path new.st.toNat)) = some .dir) := by
  by_cases hc : ChangesHost old new
  · rcases hc with ⟨hn, ho, h0⟩ | ⟨hn, ho, h0⟩ | ⟨hn, ho, hne, h0, h1⟩
    · rw [hostChange_delete hn ho h0] at h
      split at h
      · cases h
      · split at h <;> cases h
        exact ⟨Host.keepsDirs_remove _ _, fun hm => absurd hm.1 hn⟩
    · rw [hostChange_create hn ho h0] at h
      simp only at h
      split at h
      · rename_i hok
        split at h <;> cases h
        have hkeep := Host.keepsDirs_create
          (dk.host.createDirectories (hostDir dk.path new.st.toNat)).2
          (hostPath dk.path new.getName)
        exact ⟨fun m hm => hkeep m (Host.keepsDirs_createDirectories _ _ m hm),
          fun _ hcomps => hkeep _ (Host.createDirectories_dir hok hcomps)⟩
      · cases h
    · rw [hostChange_rename hn ho hne h0 h1] at h
      split at h
      · cases h
      · rename_i p hp
        simp only at h
        split at h
        · rename_i hok
          split at h <;> cases h
          have hkeep := Host.keepsDirs_rename
            (dk.host.createDirectories (hostDir dk.path new.st.toNat)).2 p
            (hostPath dk.path new.getName)
          exact ⟨fun m hm => hkeep m (Host.keepsDirs_createDirectories _ _ m hm),
            fun _ hcomps => hkeep _ (Host.createDirectories_dir hok hcomps)⟩
        · cases h
  · rw [hostChange_skip hc] at h
    cases h
    refine ⟨fun _ hm => hm, fun hm => absurd ?_ hc⟩
    by_cases ho : old.Used
    · obtain ⟨hne, h0⟩ := hm.2.2.resolve_left fun h => h ho
      exact .inr (.inr ⟨hm.1, ho, hne, h0, hm.2.1⟩)
    · exact .inr (.inl ⟨hm.1, ho, hm.2.1⟩)

/-- The directory of a user other than 0 is not the root. -/
lemma comps_hostDir_ne {path : Bytes} (hpath : path ≠ []) {u : UInt8} (hu : u ≠ 0) :
    (normal (hostDir path u.toNat)).comps ≠ [] := by
  rw [(normal_hostDir hpath u).2]
  simp [userComps, hu]

/-- Every entry of extent 0 is in the map, also after a directory change.

**Proof sketch.** The changed slot was of the same name with extent 0 before, or its name was put
into the map. An entry of another slot was in the map, and it is taken out only if the changed slot
had its name and extent 0, which a consistent directory has once. -/
lemma Fresh.mapped_change {bps : ℕ} (hf : Fresh dk) (h : Consistent ops dk)
    (hn : dk.dir[n]? = some old) (hslot : SlotStep bps ops old new)
    (heff : HostEffect old new dk dk') {i : ℕ} {e : CpmDir}
    (hi : (dk.dir.set n new)[i]? = some e) (hu : e.Used) (h0 : e.getExtNumber = 0) :
    (dk'.cpm2unix.lookup e.getName).isSome := by
  have hself : (dk.dir.set n new)[n]? = some new :=
    List.getElem?_set_self (List.getElem?_eq_some_iff.mp hn).1
  rcases eq_or_ne n i with rfl | hne
  · rw [hself] at hi
    cases hi
    cases heff with
    | skip hskip hsame =>
      -- the slot had the entry of extent 0 of the same name already
      have hold : old.Used := by
        by_contra hold
        exact hskip (.inr (.inl ⟨hu, hold, h0⟩))
      have hold0 : old.getExtNumber = 0 := (hslot.grows hold hu).ext.symm.trans h0
      have hname : new.getName = old.getName := by
        by_contra hname
        exact hskip (.inr (.inr ⟨hu, hold, hname, hold0, h0⟩))
      rw [hsame, hname]
      exact hf.mapped old (List.mem_of_getElem? hn) hold hold0
    | delete _ hnew => exact absurd hu hnew
    | create _ _ _ hnames _ =>
      rw [hnames, AList.lookup_insert]
      rfl
    | rename _ _ _ _ _ _ _ _ _ hnames _ =>
      rw [hnames, AList.lookup_insert]
      rfl
  · have hi' := hi
    rw [List.getElem?_set_ne hne] at hi'
    have hmem := List.mem_of_getElem? hi'
    have hbefore := hf.mapped e hmem hu h0
    -- another entry of extent 0 has another name
    have hother : old.Used → old.getExtNumber = 0 → e.getName ≠ old.getName := by
      intro hold hold0 hname
      have hmo := List.mem_of_getElem? hn
      obtain ⟨hxl, hxh⟩ := (h.ordinary old hmo hold).zero (h.ordinary e hmem hu) hold0 h0
      exact hne (h.extents n i old e hn hi' hold hu hname.symm hxl hxh)
    cases heff with
    | skip _ hsame => rwa [hsame]
    | delete _ _ ho hold0 _ hnames _ =>
      rwa [hnames, AList.lookup_erase_ne (hother ho hold0)]
    | create _ _ _ hnames _ =>
      rcases eq_or_ne e.getName new.getName with heq | heq
      · rw [hnames, heq, AList.lookup_insert]
        rfl
      · rwa [hnames, AList.lookup_insert_ne heq]
    | rename _ _ _ ho _ hold0 _ _ _ hnames _ =>
      rcases eq_or_ne e.getName new.getName with heq | heq
      · rw [hnames, heq, AList.lookup_insert]
        rfl
      · rwa [hnames, AList.lookup_insert_ne heq, AList.lookup_erase_ne (hother ho hold0)]

/-- Every file of the drive directory belongs to a name, also after a directory change.

**Proof sketch.** By the effect of the change on the host. A file that was there before belongs to
a name that is still in the map, since the change takes out only the name whose file it removes; a
new file belongs to the new name. -/
lemma Fresh.only_change {bps : ℕ} (hf : Fresh dk) (h : Consistent ops dk)
    (hn : dk.dir[n]? = some old) (hslot : SlotStep bps ops old new)
    (hext : DistinctExtents (dk.dir.set n new)) (heff : HostEffect old new dk dk') {m : NPath}
    {c : Bytes} (hc : dk'.host.contents m = some c) (hin : Inside (normal dk.path) m) :
    ∃ k p, dk'.cpm2unix.lookup k = some p ∧ normal p = m := by
  cases heff with
  | skip _ hsame =>
    rw [hsame] at hc ⊢
    exact hf.only m c hc hin
  | delete q hnew ho h0 hq hnames hfiles =>
    rw [hfiles] at hc
    rcases eq_or_ne m (normal q) with rfl | hm
    · rw [Function.update_self] at hc
      cases hc
    · rw [Function.update_of_ne hm] at hc
      obtain ⟨k, p, hk, hp⟩ := hf.only m c hc hin
      have hne : k ≠ old.getName := by
        rintro rfl
        rw [hq] at hk
        cases hk
        exact hm hp.symm
      exact ⟨k, p, by rw [hnames, AList.lookup_erase_ne hne, hk], hp⟩
  | create hnew ho h0 hnames hfiles =>
    rw [hfiles] at hc
    rcases eq_or_ne m (normal (hostPath dk.path new.getName)) with rfl | hm
    · exact ⟨_, _, by rw [hnames, AList.lookup_insert], rfl⟩
    · rw [Function.update_of_ne hm] at hc
      obtain ⟨k, p, hk, hp⟩ := hf.only m c hc hin
      have hne : k ≠ new.getName := by
        rintro rfl
        rw [h.new_none hn ho hnew (hslot.ordinary hnew) h0 hext] at hk
        cases hk
      exact ⟨k, p, by rw [hnames, AList.lookup_insert_ne hne, hk], hp⟩
  | rename q c₀ hnew ho hne h0 h1 hq hc₀ hnames hfiles =>
    rw [hfiles] at hc
    rcases eq_or_ne m (normal (hostPath dk.path new.getName)) with rfl | hm
    · exact ⟨_, _, by rw [hnames, AList.lookup_insert], rfl⟩
    · rw [Function.update_of_ne hm] at hc
      rcases eq_or_ne m (normal q) with rfl | hmq
      · rw [Function.update_self] at hc
        cases hc
      · rw [Function.update_of_ne hmq] at hc
        obtain ⟨k, p, hk, hp⟩ := hf.only m c hc hin
        have hko : k ≠ old.getName := by
          rintro rfl
          rw [hq] at hk
          cases hk
          exact hmq hp.symm
        have hkn : k ≠ new.getName := by
          rintro rfl
          rw [h.target_none (hslot.rename ho hnew hne) hq] at hk
          cases hk
        exact ⟨k, p, by rw [hnames, AList.lookup_insert_ne hkn, AList.lookup_erase_ne hko, hk], hp⟩

/-- **A directory change keeps the host files those of the name map.**

**Proof sketch.** One part after the other: the map by `Fresh.mapped_change`, the files by
`Fresh.only_change`, their sizes by what the change did to the content, and the user directories,
which a change keeps and makes where it makes a name. -/
lemma Fresh.change {bps : ℕ} (hf : Fresh dk) (h : Consistent ops dk) (hn : dk.dir[n]? = some old)
    (hslot : SlotStep bps ops old new) (hext : DistinctExtents (dk.dir.set n new))
    (hc : hostChange old new dk = .ok () dk') : Fresh (dk'.withEntry n new) := by
  obtain ⟨heff, -⟩ := hostChange_effect hc
  have hdir := hostChange_dir hc
  obtain ⟨hkeep, hmake⟩ := hostChange_dirs hc
  have hstat := static_hostChange old new dk
  rw [hc, Exc.final_ok] at hstat
  have hpath : (dk'.withEntry n new).path = dk.path := hstat.path
  have hmem : ∀ e, e ∈ (dk'.withEntry n new).dir ↔ e ∈ dk.dir.set n new := fun e => by
    simp only [withEntry, hdir]
  refine ⟨fun e he hu h0 => ?_, fun m c hm hin => ?_, fun k p c hk hp => ?_,
    fun e he hu h0 hst => ?_⟩
  · obtain ⟨i, hi⟩ := List.mem_iff_getElem?.mp ((hmem e).mp he)
    exact hf.mapped_change h hn hslot heff hi hu h0
  · rw [hpath] at hin
    exact hf.only_change h hn hslot hext heff hm hin
  · change dk'.host.contents (normal p) = some c at hp
    rcases h.lookup_change hslot heff hk with ⟨hk, hsame⟩ | ⟨-, -, -, hnil | ⟨l, q, hq, hsame⟩⟩
    · rw [hsame] at hp
      exact hf.sizes k p c hk hp
    · rw [hnil] at hp
      cases hp
      exact Nat.zero_le _
    · rw [hsame] at hp
      exact hf.sizes l q c hq hp
  · rw [hpath]
    rcases List.mem_or_eq_of_mem_set ((hmem e).mp he) with he | rfl
    · exact hkeep _ (hf.userDir e he hu h0 hst)
    · by_cases hm : MakesName old e
      · exact hmake hm (comps_hostDir_ne h.path hst)
      · -- the slot had the entry of extent 0 of the same name already
        have hold : old.Used := by
          by_contra hold
          exact hm ⟨hu, h0, .inl hold⟩
        have hold0 : old.getExtNumber = 0 := (hslot.grows hold hu).ext.symm.trans h0
        have hname : e.getName = old.getName := by
          by_contra hname
          exact hm ⟨hu, h0, .inr ⟨hname, hold0⟩⟩
        have hsteq := (CpmDir.getName_inj hname).1
        rw [hsteq] at hst ⊢
        exact hkeep _ (hf.userDir old (List.mem_of_getElem? hn) hold hold0 hst)

/-! ## `Flush` -/

/-- The end of a place of the first sixteen extents. -/
lemma place_le (hg : g.Regular) {x b s : ℕ} (hx : x ≤ 15) (hb : b < g.dpb.blockPtrType)
    (hs : s < 2 ^ g.dpb.bsh) : place g.dpb x b s + 128 ≤ 262144 := by
  have hext := hg.extent
  have hmul := Nat.mul_le_mul_right (2 ^ g.dpb.bsh) (Nat.succ_le_of_lt hb)
  rw [Nat.succ_mul] at hmul
  rw [place, blockSize_div]
  omega

/-- Writing a sector of an extent up to 15 keeps the host files those of the name map.

**Proof sketch.** The write changes the content of one file of the map, and its end is below 256
KiB, since the extents are below 16 (`place_le`). Names and directories stay. -/
lemma Fresh.flushed (hg : g.Regular) (hf : Fresh dk) (h : Consistent ops dk)
    (hdpb : dk.dpb = g.dpb) (hsmall : ∀ e ∈ dk.dir, e.Used → e.xl.toNat ≤ 15) {sid : ℕ}
    {data : Sector} {e : CpmDir} {p : Bytes} (he : e ∈ dk.dir) (hl : e.Lists dk.dpb sid)
    (hp : dk.cpm2unix.lookup e.getName = some p)
    (hok : (dk.host.write p (fileOffset dk.dpb
      (e.findBlockIndex (sid >>> dk.dpb.bsh) dk.dpb.blockPtrType) sid) (bytes data)).1 = true) :
    Fresh (dk.flushed sid data e p) := by
  have hkeep := Host.keepsDirs_write dk.host p (fileOffset dk.dpb
    (e.findBlockIndex (sid >>> dk.dpb.bsh) dk.dpb.blockPtrType) sid) (bytes data)
  obtain ⟨-, c₀, hc₀, hfiles⟩ := Host.contents_write hok
  change (dk.flushed sid data e p).host.contents = _ at hfiles
  have hpos : fileOffset dk.dpb (e.findBlockIndex (sid >>> dk.dpb.bsh) dk.dpb.blockPtrType) sid +
      128 ≤ 262144 := by
    rw [hdpb] at hl ⊢
    obtain ⟨b, ho, hoff⟩ := fileOffset_of_lists hg hl
    rw [hoff, (h.ordinary e he hl.1).ext_eq]
    exact place_le hg (hsmall e he hl.1) ho.index ho.inBlock
  refine ⟨hf.mapped, fun m c hm hin => ?_, fun k q c hk hq => ?_, fun f hf' hu h0 hst => ?_⟩
  · rw [hfiles] at hm
    rcases eq_or_ne m (normal p) with rfl | hne
    · exact ⟨_, p, hp, rfl⟩
    · rw [Function.update_of_ne hne] at hm
      exact hf.only m c hm hin
  · rw [hfiles] at hq
    rcases eq_or_ne (normal q) (normal p) with heq | hne
    · rw [heq, Function.update_self] at hq
      cases hq
      have := hf.sizes _ p c₀ hp hc₀
      rw [length_writeAt, length_bytes]
      omega
    · rw [Function.update_of_ne hne] at hq
      exact hf.sizes k q c hk hq
  · exact hkeep _ (hf.userDir f hf' hu h0 hst)

/-- A name keeps a file while sectors are flushed. -/
lemma Status.flushed {sid : ℕ} {data : Sector} {e : CpmDir} {p : Bytes}
    (hok : (dk.host.write p (fileOffset dk.dpb
      (e.findBlockIndex (sid >>> dk.dpb.bsh) dk.dpb.blockPtrType) sid) (bytes data)).1 = true)
    {k c : Bytes} (hs : Status dk ops k c) : ∃ c', Status (dk.flushed sid data e p) ops k c' := by
  obtain ⟨-, c₀, hc₀, hfiles⟩ := Host.contents_write hok
  change (dk.flushed sid data e p).host.contents = _ at hfiles
  cases hs with
  | doomed h1 h2 => exact ⟨c, .doomed h1 h2⟩
  | home q h1 h2 =>
    have hhome : Home (dk.flushed sid data e p) ops k q := h1.congr (by rfl)
    by_cases hq : normal q = normal p
    · exact ⟨_, .home q hhome (by rw [hfiles, hq, Function.update_self])⟩
    · exact ⟨c, .home q hhome (by rw [hfiles, Function.update_of_ne hq, h2])⟩

/-! ## Accesses -/

/-- **The invariants of a session.** -/
structure Good (g : Geometry) (ops : List FileOp) (written : ℕ → Option Sector) (dk : Disk) :
    Prop where
  inv : Inv g ops written dk
  pointers : DistinctPointers g.dpb dk.dir
  fresh : Fresh dk
  claimed : Claimed ops dk
  users : ∀ e ∈ dk.dir, e.Used → e.st.toNat ≤ 15
  small : ∀ e ∈ dk.dir, e.Used → e.xl.toNat ≤ 15

variable {l l' : Ledger} {track sector : ℕ} {dma : Sector} {written : ℕ → Option Sector}

/-- The outer loop of `Flush` keeps the invariants. -/
lemma Good.flushAll (hg : g.Regular) {sids : List ℕ} (h : Good g ops written dk)
    (hf : Disk.flushAll sids dk = .ok () dk')
    (hfine : ∀ ev ∈ dk'.host.calls.drop dk.host.calls.length, ev.ok = true) :
    Good g ops written dk' := by
  refine flushAll_induction (fun dk h sid hsid => h.inv.oneLister hg h.pointers hsid)
    (fun dk sid data e p h hdata he hl hp hok => ?_) h hf hfine
  refine ⟨h.inv.flushed hg h.pointers hdata he hl hp hok, h.pointers,
    h.fresh.flushed hg h.inv.names h.inv.shaped.dpb h.small he hl hp hok, fun f hf hu => ?_,
    h.users, h.small⟩
  obtain ⟨c, hs⟩ := h.claimed f hf hu
  exact hs.flushed hok

/-- **The entries of a tidy directory write keep the invariants.**

**Proof sketch.** Slot by slot the entries that were in use before keep their file. A new entry
belongs to a file with an entry of extent 0, which is in the map once all slots are written. -/
lemma Good.writeEntries (hg : g.Regular) (h : Good g l.ops l.written dk) {m : ℕ}
    (hw : Disk.writeEntries (m <<< 2) dma [0, 1, 2, 3] dk = .ok () dk')
    (hd : Disciplined g.dpb l.ops dk.dir dk'.dir) (ht : Tidy dk.dir dk'.dir) :
    Good g (l.ops ++ opsOf dk.dir dk'.dir) (l.directory g.dpb dk.dir dk'.dir).written dk' := by
  set ops' := l.ops ++ opsOf dk.dir dk'.dir with hops
  have hlen := length_writeEntries hw
  have hinv := h.inv.writeEntries hg hw hd
  have hmid : Consistent ops' dk' ∧ Fresh dk' ∧ ∀ (i : ℕ) (e f : CpmDir), dk.dir[i]? = some e →
      dk'.dir[i]? = some f → e.Used → f.Used → ∃ c, Status dk' ops' f.getName c := by
    have hn := h.inv.names
    have hstart : Consistent ops' dk := ⟨hn.path, hn.denotes, hn.first, hn.present, hn.extents,
      hn.ordinary, hd.apart, hd.fits⟩
    refine writeEntries_induction (P := fun dk₁ => Consistent ops' dk₁ ∧ Fresh dk₁ ∧
      ∀ (i : ℕ) (e f : CpmDir), dk.dir[i]? = some e → dk₁.dir[i]? = some f → e.Used → f.Used →
        ∃ c, Status dk₁ ops' f.getName c) (fun n old new dk₁ dk₂ hP hold hnew hat hb hc => ?_)
      (by decide) ⟨hstart, h.fresh, fun i e f hi hj _ hu => ?_⟩ (fun i => .inl rfl) (fun _ _ => rfl)
      hw rfl
    · obtain ⟨hC, hF, hS⟩ := hP
      have hslot := hd.slot hold hnew
      have hext := hd.between h.inv.names.extents hlen hb
      obtain ⟨heff, -⟩ := hostChange_effect hc
      have hdir := hostChange_dir hc
      have hstat := static_hostChange old new dk₁
      rw [hc, Exc.final_ok] at hstat
      refine ⟨hC.change hat hslot hext heff hdir hstat.path, hF.change hC hat hslot hext hc,
        fun i e f hi hj hue huf => ?_⟩
      have hj' : (dk₁.dir.set n new)[i]? = some f := by
        simpa only [withEntry, hdir] using hj
      -- the entry of the slot before this change
      obtain ⟨f₁, hf₁⟩ : ∃ f₁, dk₁.dir[i]? = some f₁ := by
        have hlt := (List.getElem?_eq_some_iff.mp hj').1
        rw [List.length_set] at hlt
        exact ⟨_, List.getElem?_eq_getElem hlt⟩
      have hused : f₁.Used := by
        rcases eq_or_ne n i with rfl | hne
        · rw [hat] at hf₁
          cases hf₁
          rw [hold] at hi
          cases hi
          exact hue
        · rw [List.getElem?_set_ne hne, hf₁] at hj'
          cases hj'
          exact huf
      obtain ⟨c, hs⟩ := hS i e f₁ hi hf₁ hue hused
      exact ⟨c, (hs.slot hC hat hslot hext heff hf₁ hj' hused huf).congr (by rfl) (by rfl)⟩
    · obtain ⟨c, hs⟩ := h.claimed f (List.mem_of_getElem? hj) hu
      exact ⟨c, hs.mono fun o ho => List.mem_append_left _ ho⟩
  obtain ⟨hC, hF, hS⟩ := hmid
  refine ⟨hinv, hd.pointers, hF, fun f hf hu => ?_, ht.users, ht.small⟩
  obtain ⟨i, hi⟩ := List.mem_iff_getElem?.mp hf
  obtain ⟨e, he⟩ : ∃ e, dk.dir[i]? = some e := by
    have hlt := (List.getElem?_eq_some_iff.mp hi).1
    rw [hlen] at hlt
    exact ⟨_, List.getElem?_eq_getElem hlt⟩
  by_cases hue : e.Used
  · exact hS i e f he hi hue hu
  · obtain ⟨f₀, hf₀, hu₀, hname, h0⟩ := ht.first i e f he hi hue hu
    obtain ⟨p, hp⟩ := Option.isSome_iff_exists.mp (hF.mapped f₀ hf₀ hu₀ h0)
    rw [hname] at hp
    obtain ⟨c, hc⟩ := hC.present _ p hp
    exact ⟨c, .home p (.direct hp) hc⟩

/-- **A directory write of a session keeps the invariants.** -/
lemma Good.writeDir (hg : g.Regular) (h : Good g l.ops l.written dk) {m r : ℕ}
    (hw : Disk.writeDir m dma dk = .ok r dk') (hfine : HostFine dk dk')
    (hd : Disciplined g.dpb l.ops dk.dir dk'.dir) (ht : Tidy dk.dir dk'.dir) :
    Good g (l.directory g.dpb dk.dir dk'.dir).ops (l.directory g.dpb dk.dir dk'.dir).written
      dk' := by
  obtain ⟨dk₁, h1, h2, hdir, hfine'⟩ := writeDir_halves hw hfine
  rw [hdir] at hd ht ⊢
  have hend := (h.writeEntries hg h1 hd ht).flushAll hg h2 hfine'
  have hshrink : ∀ e ∈ dk'.dir, e.Used → ∃ c, Status dk' (unfinished dk'.dir
      (l.ops ++ opsOf dk.dir dk₁.dir)) e.getName c := fun e he hu => by
    obtain ⟨c, hs⟩ := hend.claimed e he hu
    exact ⟨c, hs.shrink hend.inv.names he hu⟩
  have hinv := hend.inv.shrink
  rw [hdir] at hinv hshrink
  exact ⟨hinv, hend.pointers, hend.fresh, by rwa [Claimed, hdir], hend.users, hend.small⟩

/-- A session does not write to the reserved tracks: their file is not there. -/
lemma Good.no_system (h : Good g ops written dk) {pos : ℕ} {d : Bytes} :
    (dk.host.write dk.bootblock pos d).1 ≠ true := by
  intro hok
  obtain ⟨-, c, hc, -⟩ := Host.contents_write hok
  have hpath := h.inv.names.path
  have hin : Inside (normal dk.path) (normal dk.bootblock) := by
    rw [h.inv.boot, normal_join_plain hpath (by decide)]
    exact (inside_refl _).concat (by decide)
  obtain ⟨k, p, hk, hp⟩ := h.fresh.only _ c hc hin
  rw [h.inv.boot] at hp
  exact denotes_ne_cpmsys hpath (h.inv.names.denotes k p hk) hp

/-- **An access of a session keeps the invariants.**

**Proof sketch.** By the kind of the access. A read leaves the files as they are. A write to the
directory is `Good.writeDir`; a data write changes the cache only; a sector of the system tracks is
not written in such a session. -/
theorem Good.step (hg : g.Regular) {a : Access} (h : Good g l.ops l.written dk)
    (hs : Step a dk l dk' l') (ht : TidyStep a dk dk') : Good g l'.ops l'.written dk' := by
  have hinv := h.inv.step hg h.pointers hs
  cases a with
  | read track sector dma =>
    obtain ⟨⟨r, hr⟩, -, -, rfl⟩ := hs
    obtain ⟨host, rfl, hhost⟩ := read_frame hr
    have hc := Host.contents_congr hhost
    have hf := h.fresh
    refine ⟨hinv.1, hinv.2, ⟨hf.mapped, fun n c hn => ?_, fun k p c hk hp => ?_,
      fun e he hu h0 hst => ?_⟩, fun e he hu => ?_, h.users, h.small⟩
    · exact hf.only n c (by rw [← hc]; exact hn)
    · exact hf.sizes k p c hk (by rw [← hc]; exact hp)
    · change host.node _ = _
      rw [hhost]
      exact hf.userDir e he hu h0 hst
    · obtain ⟨c, hs⟩ := h.claimed e he hu
      exact ⟨c, hs.congr (by rfl) (by exact hc)⟩
  | write track sector dma =>
    obtain ⟨⟨r, hw⟩, hd, hfine, rfl⟩ := hs
    rcases write_cases hw with ⟨-, a, hok, -⟩ | ⟨n, harea, hdir⟩ | ⟨sid, harea, -, rfl⟩
    · exact absurd hok h.no_system
    · have hdisc := hd _ harea
      rw [Ledger.write, harea]
      rw [h.inv.shaped.dpb] at hdisc ⊢
      exact h.writeDir hg hdir hfine hdisc (ht _ harea)
    · have hops : (l.write dk { dk with cache := dk.cache.insert sid dma }
          track sector dma).ops = l.ops := by
        rw [Ledger.write, harea]
      have hf := h.fresh
      refine ⟨hinv.1, hinv.2, ⟨hf.mapped, hf.only, hf.sizes, hf.userDir⟩, fun e he hu => ?_,
        h.users, h.small⟩
      obtain ⟨c, hs⟩ := h.claimed e he hu
      rw [hops]
      exact ⟨c, hs.congr (by rfl) (by rfl)⟩

/-- **The invariants hold along a session.** -/
theorem Session.good (hg : g.Regular) {dk₀ : Disk}
    (h₀ : Good g Ledger.start.ops Ledger.start.written dk₀) (h : Session dk₀ dk l) :
    Good g l.ops l.written dk := by
  induction h with
  | start => exact h₀
  | step _ hs ht ih => exact ih.step hg hs ht

/-- A session stays in its drive directory. -/
lemma Session.path {dk₀ : Disk} (h : Session dk₀ dk l) : dk.path = dk₀.path := by
  induction h with
  | start => rfl
  | @step dk dk' l l' a _ hs _ ih =>
    rw [← ih]
    cases a with
    | read track sector dma =>
      obtain ⟨⟨r, hr⟩, -⟩ := hs
      obtain ⟨host, rfl, -⟩ := read_frame hr
      rfl
    | write track sector dma =>
      obtain ⟨⟨r, hw⟩, -⟩ := hs
      have hstat := static_write track sector dma dk
      rw [hw] at hstat
      exact hstat.path

/-- A drive directory without files is imported as an empty disk.

**Proof sketch.** The map is empty, since no file is inside the drive directory, and so no entry of
the layout is in use. What the invariants say of names and entries is then void. -/
lemma good_of_build {readdir : Bytes → Option (List Bytes)} {path : Bytes} {host : Host}
    (hg : g.Regular) (hpath : path ≠ [])
    (hslash : ∀ d ns, readdir d = some ns → ∀ n ∈ ns, slash ∉ n)
    (hempty : ∀ n c, host.contents n = some c → ¬ Inside (normal path) n)
    (hbuild : build readdir path g host = .ok () dk) :
    Good g Ledger.start.ops Ledger.start.written dk := by
  obtain ⟨hb, -⟩ := built_of_build hg hbuild
  obtain ⟨hp, hh, -⟩ := sourced_of_build hbuild
  obtain ⟨done, blocks, hl, hnone, -⟩ := hb.laid
  -- no name is in the map, so no entry is in use
  have hnames := names_of_empty hg hpath hslash hempty hbuild
  have hunused : ∀ e ∈ dk.dir, ¬ e.Used := by
    intro e he hu
    obtain ⟨d, hd, -⟩ := hl.number e he hu
    rw [hnone _ (hnames _)] at hd
    exact Nat.not_lt_zero d hd
  have hno : ∀ k p, dk.cpm2unix.lookup k ≠ some p := fun k p hk => by
    rw [hnames k] at hk
    cases hk
  obtain ⟨hinv, hdp⟩ := inv_of_build hg hpath hslash hbuild (fun k p _ hk => absurd hk (hno k p))
    fun e he hu => absurd hu (hunused e he)
  refine ⟨hinv, hdp, ⟨fun e he hu => absurd hu (hunused e he), fun n c hc hin => ?_,
    fun k p _ hk => absurd hk (hno k p), fun e he hu => absurd hu (hunused e he)⟩,
    fun e he hu => absurd hu (hunused e he), fun e he hu => absurd hu (hunused e he),
    fun e he hu => absurd hu (hunused e he)⟩
  rw [hh] at hc
  rw [hp] at hin
  exact absurd hin (hempty n c hc)

/-! ## The new disk -/

/-- **What `readdir` lists**, in any order: the two dots and every name of the directory. -/
def ReaddirOf (host : Host) (readdir : Bytes → Option (List Bytes)) : Prop :=
  ∀ d ns, readdir d = some ns → ∀ n, n ∈ ns ↔
    n = here ∨ n = parentDir ∨ (Plain n ∧ (host.find (d ++ slash :: n)).isSome)

/-- Listed names have no slash. -/
lemma ReaddirOf.slash {host : Host} {readdir : Bytes → Option (List Bytes)}
    (h : ReaddirOf host readdir) : ∀ d ns, readdir d = some ns → ∀ n ∈ ns, slash ∉ n := by
  intro d ns hns n hn
  rcases (h d ns hns n).mp hn with rfl | rfl | ⟨hpl, -⟩
  · decide
  · decide
  · exact hpl.2.2.2

section Build

variable {readdir : Bytes → Option (List Bytes)} {path : Bytes} {host : Host}

/-- A directory that is read can be listed. -/
lemma readdir_of_readuser {userpath : Bytes} {u : UInt8}
    (h : readuser readdir userpath u dk = .ok () dk') : ∃ names, readdir userpath = some names := by
  unfold readuser at h
  cases hr : readdir userpath with
  | none =>
    rw [hr] at h
    cases h
  | some names => exact ⟨names, rfl⟩

/-- The user directories of a disk that was built can be listed.

**Proof sketch.** Induction on the users. A user with a directory was listed in his round, since
otherwise the import would have ended there. -/
lemma readdir_of_readusers : ∀ {us : List UInt8} {dk : Disk}, Sourced readdir path host dk →
    (∀ u ∈ us, u ≠ 0) → readusers readdir path us dk = .ok () dk' → ∀ u ∈ us,
    host.stat (userPath path u) = some .directory →
    ∃ names, readdir (userPath path u) = some names := by
  intro us
  induction us with
  | nil => exact fun _ _ _ u hu => (nomatch hu)
  | cons v us ih =>
    intro dk hsrc hne h u hu hstat
    have hv : path ++ slash :: decimal v.toNat = userPath path v := by
      rw [userPath, if_neg (hne v (by simp))]
    rw [readusers, Exc.get_bind] at h
    simp only [hsrc.2.1, hv] at h
    cases hst : host.stat (userPath path v) with
    | none =>
      rw [hst] at h
      rcases List.mem_cons.mp hu with rfl | hu
      · rw [hst] at hstat
        cases hstat
      · exact ih hsrc (fun x hx => hne x (by simp [hx])) h u hu hstat
    | some st =>
      rw [hst] at h
      cases st with
      | directory =>
        rw [Exc.bind_ok] at h
        obtain ⟨⟨⟩, dk₁, h1, h2⟩ := h
        rcases List.mem_cons.mp hu with rfl | hu
        · exact readdir_of_readuser h1
        · have hsrc₁ := sourced_readuser v dk hsrc
          rw [h1] at hsrc₁
          exact ih hsrc₁ (fun x hx => hne x (by simp [hx])) h2 u hu hstat
      | regular size =>
        rcases List.mem_cons.mp hu with rfl | hu
        · rw [hst] at hstat
          cases hstat
        · exact ih hsrc (fun x hx => hne x (by simp [hx])) h u hu hstat
      | other =>
        rcases List.mem_cons.mp hu with rfl | hu
        · rw [hst] at hstat
          cases hstat
        · exact ih hsrc (fun x hx => hne x (by simp [hx])) h u hu hstat

/-- The directories that the constructor reads can be listed. -/
lemma readdir_of_build (h : build readdir path g host = .ok () dk) {u : UInt8}
    (hu : u = 0 ∨ u ∈ users ∧ host.stat (userPath path u) = some .directory) :
    ∃ names, readdir (userPath path u) = some names := by
  rw [build, readhost, Exc.bind_ok] at h
  obtain ⟨⟨⟩, dk₁, h1, h2⟩ := h
  rcases hu with rfl | ⟨hu, hst⟩
  · exact readdir_of_readuser h1
  · have hstart : Sourced readdir path host (blank path g host) := sourced_blank
    have hsrc := sourced_readuser 0 (blank path g host) hstart
    have h1' : readuser readdir (userPath path 0) 0 (blank path g host) = .ok () dk₁ := h1
    rw [h1'] at hsrc
    exact readdir_of_readusers hsrc (fun _ => ne_zero_of_mem_users) h2 u hu hst

end Build

/-! ## Names and records -/

/-- **The sector of record `r` of the file `k`** through the directory, as the BDOS finds it. -/
def RecordAt (g : Geometry) (dk : Disk) (k : Bytes) (r sid : ℕ) : Prop :=
  ∃ e ∈ dk.dir, e.Used ∧ e.getName = k ∧ e.xl.toNat = r / 128 % 32 ∧ e.xh.toNat = r / 128 / 32 ∧
    let block := e.pointer g.dpb.blockPtrType (r % 128 / (g.dpb.blockSize / 128))
    block ≠ 0 ∧ sid = block * (g.dpb.blockSize / 128) + r % (g.dpb.blockSize / 128)

/-- **Reading the sector delivers `d`**, unless a host call fails. -/
def Delivers (g : Geometry) (dk : Disk) (sid : ℕ) (d : Sector) : Prop :=
  ∀ dma, ∃ res dk', read (g.trackOf sid) (g.sectorOf sid) dma dk = .ok res dk' ∧
    (HostFine dk dk' → res = (0, d))

/-- Without an operation under way a name has its file under its own name. -/
lemma Status.direct {k c : Bytes} (h : Status dk [] k c) :
    ∃ p, dk.cpm2unix.lookup k = some p ∧ dk.host.contents (normal p) = some c := by
  cases h with
  | doomed _ ho => exact nomatch ho
  | home p hp hc =>
    cases hp with
    | direct hk => exact ⟨p, hk, hc⟩
    | ahead _ _ ho _ => exact nomatch ho
    | behind _ _ ho _ => exact nomatch ho

section Restart

variable {readdir : Bytes → Option (List Bytes)} {dk₂ : Disk}

/-- **A file of the new disk** is the file of the same name of the old one. -/
lemma Good.restart_old (h : Good g [] written dk) (hr : ReaddirOf dk.host readdir)
    (hbuild : build readdir dk.path g dk.host = .ok () dk₂) (hg : g.Regular) {k q : Bytes}
    (hk : dk₂.cpm2unix.lookup k = some q) :
    ∃ p c, dk.cpm2unix.lookup k = some p ∧ normal q = normal p ∧
      dk.host.contents (normal p) = some c ∧ dk₂.host.stat q = some (.regular c.length) := by
  obtain ⟨hp, hh, hsource⟩ := sourced_of_build hbuild
  obtain ⟨hb, -⟩ := built_of_build hg hbuild
  obtain ⟨done, blocks, hl, -, hsome⟩ := hb.laid
  obtain ⟨u, hu⟩ := hsource k q hk
  have hden := hu.denotes h.inv.names.path hr.slash
  obtain ⟨size, hsize, -⟩ := hsome k q hk
  obtain ⟨c, hc, rfl⟩ := Host.contents_of_stat hsize
  rw [hh] at hc
  obtain ⟨k', p, hk', hpq⟩ := h.fresh.only _ c hc (inside_of_denotes hden)
  have hkk := (h.inv.names.denotes k' p hk').inj hden hpq
  subst hkk
  exact ⟨p, c, hk', hpq.symm, by rw [hpq]; exact hc, hsize⟩

/-- The user number in a key. -/
lemma user_of_keyOf {e : CpmDir} {u : UInt8} {s : Bytes} (h : e.getName = keyOf u s) : e.st = u :=
  (CpmDir.getName_inj h).1

/-- The user numbers up to 15. -/
lemma mem_users {u : UInt8} (h : u.toNat ≤ 15) : u = 0 ∨ u ∈ users := by
  have key : ∀ n : Fin 16, UInt8.ofNat n = 0 ∨ UInt8.ofNat n ∈ users := by decide
  have := key ⟨u.toNat, by omega⟩
  simpa using this

/-- The directory of a user, as the constructor names it. -/
lemma normal_userPath {path : Bytes} (hpath : path ≠ []) (u : UInt8) :
    userPath path u ≠ [] ∧ normal (userPath path u) = normal (hostDir path u.toNat) := by
  rw [(normal_hostDir hpath u).2, userPath, userComps]
  by_cases hu : u = 0
  · simp [hu, hpath]
  · simp [hu, normal_join_plain hpath (plain_decimal u)]

/-- **A file of the old disk** is imported into the new one.

**Proof sketch.** The name has an entry of extent 0, so that its user is 0 or has a directory. The
file is one of this directory under its host name, `readdir` lists it, and the import takes every
regular file with a CP/M name. -/
lemma Good.restart_new (h : Good g [] written dk) (hr : ReaddirOf dk.host readdir)
    (hbuild : build readdir dk.path g dk.host = .ok () dk₂) (hg : g.Regular) {k p : Bytes}
    (hk : dk.cpm2unix.lookup k = some p) : (dk₂.cpm2unix.lookup k).isSome := by
  have hn := h.inv.names
  obtain ⟨-, himport⟩ := built_of_build hg hbuild
  obtain ⟨i, e, hi, hu, hname, h0⟩ := hn.first k p hk
  have he := List.mem_of_getElem? hi
  obtain ⟨c, hc⟩ := hn.present k p hk
  obtain ⟨u, n, s, hpl, hs, rfl, -, hnorm⟩ := hn.denotes k p hk
  have hst := user_of_keyOf hname
  obtain ⟨hupne, hupath⟩ := normal_userPath hn.path u
  have hdir : u = 0 ∨ u ∈ Disk.users ∧ dk.host.stat (userPath dk.path u) = some .directory := by
    rcases mem_users (hst ▸ h.users e he hu) with hu0 | hmem
    · exact .inl hu0
    · have hne : u ≠ 0 := by
        rintro rfl
        exact absurd hmem (by decide)
      have hnode := h.fresh.userDir e he hu h0 (by rw [hst]; exact hne)
      rw [hst] at hnode
      refine .inr ⟨hmem, ?_⟩
      rw [Host.stat, Host.find, if_neg hupne, hupath, hnode]
  -- the path of the file, as the constructor names it
  have hpath : normal (userPath dk.path u ++ slash :: n) = normal p := by
    rw [normal_join_plain hupne hpl, hupath, (normal_hostDir hn.path u).2, hnorm]
    simp
  have hfind : dk.host.find (userPath dk.path u ++ slash :: n) = some (.file c) :=
    Host.find_eq_file.mpr ⟨by simp, by rw [hpath, hc]⟩
  obtain ⟨names, hnames⟩ := readdir_of_build hbuild hdir
  refine himport u names n s hdir hnames ((hr _ _ hnames n).mpr (.inr (.inr ⟨hpl, ?_⟩)))
    ⟨hpl.2.1, hpl.2.2.1, hs, c.length, ?_⟩
  · rw [hfind]
    rfl
  · rw [Host.stat, hfind]

/-- **The new disk has the names of the old one.**

**Proof sketch.** A used entry of the new disk has a file of the old one behind its name
(`Good.restart_old`), and this name has an entry there. Conversely the file of an old name is
imported (`Good.restart_new`) and has at least one extent. -/
lemma Good.restart_names (h : Good g [] written dk) (hr : ReaddirOf dk.host readdir)
    (hbuild : build readdir dk.path g dk.host = .ok () dk₂) (hg : g.Regular) (k : Bytes) :
    HasName dk₂ k ↔ HasName dk k := by
  obtain ⟨hb, -⟩ := built_of_build hg hbuild
  obtain ⟨done, blocks, hl, hnone, hsome⟩ := hb.laid
  constructor
  · rintro ⟨e, he, hu, rfl⟩
    obtain ⟨d, hd, -⟩ := hl.number e he hu
    have hmap : dk₂.cpm2unix.lookup e.getName ≠ none := fun hh => by
      rw [hnone _ hh] at hd
      exact Nat.not_lt_zero d hd
    obtain ⟨q, hq⟩ := Option.ne_none_iff_exists'.mp hmap
    obtain ⟨p, -, hp, -⟩ := h.restart_old hr hbuild hg hq
    obtain ⟨i, f, hf, huf, hname, -⟩ := h.inv.names.first _ p hp
    exact ⟨f, List.mem_of_getElem? hf, huf, hname⟩
  · rintro ⟨e, he, hu, rfl⟩
    obtain ⟨c, hs⟩ := h.claimed e he hu
    obtain ⟨p, hp, -⟩ := hs.direct
    obtain ⟨q, hq⟩ := Option.isSome_iff_exists.mp (h.restart_new hr hbuild hg hp)
    obtain ⟨p', c', hp', -, hc', hstat⟩ := h.restart_old hr hbuild hg hq
    obtain ⟨size, hsize, hdone, -⟩ := hsome _ q hq
    rw [hstat] at hsize
    cases hsize
    have hlen := h.fresh.sizes _ p' c' hp' hc'
    obtain ⟨f, hf, huf, hname, -⟩ := hl.entered e.getName 0 (by
      rw [hdone]
      exact fileDirs_pos (by omega))
    exact ⟨f, hf, huf, hname⟩

/-- The sector of a record is owned by the entry of its extent. -/
lemma RecordAt.owns (hg : g.Regular) {k : Bytes} {r sid : ℕ} (h : RecordAt g dk k r sid) :
    ∃ e ∈ dk.dir, e.Used ∧ e.getName = k ∧ e.xl.toNat = r / 128 % 32 ∧ e.xh.toNat = r / 128 / 32 ∧
      Owns g.dpb e (r % 128 / 2 ^ g.dpb.bsh) (r % 2 ^ g.dpb.bsh) sid ∧ sid >>> g.dpb.bsh ≠ 0 := by
  obtain ⟨e, he, hu, hname, hxl, hxh, hne, hsid⟩ := h
  rw [blockSize_div] at hne hsid
  have ho : Owns g.dpb e (r % 128 / 2 ^ g.dpb.bsh) (r % 2 ^ g.dpb.bsh) sid :=
    ⟨hu, record_index hg r, Nat.mod_lt _ (Nat.two_pow_pos _), hsid⟩
  exact ⟨e, he, hu, hname, hxl, hxh, ho, by rw [ho.block]; exact hne⟩

/-- Block pointers have at most sixteen bits. -/
lemma pointer_lt (e : CpmDir) (bps b : ℕ) : e.pointer bps b < 65536 := by
  have hbyte : ∀ i, e.getALByte i < 256 := by
    intro i
    unfold CpmDir.getALByte
    split
    · exact UInt8.toNat_lt _
    · omega
  have h1 := hbyte b
  have h2 := hbyte (2 * b)
  have h3 := hbyte (2 * b + 1)
  unfold CpmDir.pointer CpmDir.getALWord
  split <;> omega

/-- **The old disk delivers a record that was written.**

**Proof sketch.** The sector number fits into 32 bits on both disks, so that track and sector
address it. Its owner has a host file, since no operation is open, and then `Inv.read` says that a
read that returns gives what was written. -/
lemma Good.delivers (h : Good g [] written dk) (hg : g.Shipped) {k : Bytes} {r sid : ℕ} {d : Sector}
    (hrec : RecordAt g dk k r sid) (hw : written sid = some d) : Delivers g dk sid d := by
  obtain ⟨e, he, hu, -, -, -, ho, -⟩ := hrec.owns hg.regular
  have hdat := h.inv.data sid d hw
  have hlt : sid + g.dpb.off * g.dpb.spt < 2 ^ 32 := by
    have hp := pointer_lt e g.dpb.blockPtrType (r % 128 / 2 ^ g.dpb.bsh)
    have hin := ho.inBlock
    have hsid := ho.sector
    rcases hg with rfl | rfl
    · simp only [ibm8] at hp hin hsid ⊢
      omega
    · simp only [hardDisk] at hp hin hsid ⊢
      omega
  have habs := h.inv.shaped.getAbsSector_of_lt hg.regular hlt
  have hds : dk.datastart ≤ sid := by
    rw [h.inv.shaped.datastart]
    exact hdat
  have harea : dk.area (g.trackOf sid) (g.sectorOf sid) = some (.data sid) := by
    simp [area, habs, Nat.not_lt.mpr hds]
  have hmap : Mapped dk (g.trackOf sid) (g.sectorOf sid) := by
    intro _ _ _ f hf hl
    obtain ⟨c, hs⟩ := h.claimed f hf hl.1
    obtain ⟨p, hp, -⟩ := hs.direct
    rw [hp]
    rfl
  intro dma
  obtain ⟨res, dk', hread⟩ : ∃ res dk', read (g.trackOf sid) (g.sectorOf sid) dma dk =
      .ok res dk' := by
    rw [read_data habs hds]
    cases dk.cache.lookup sid with
    | some d => exact ⟨_, _, rfl⟩
    | none =>
      obtain ⟨d', host, h1, -⟩ := readSector_frame sid dk.dir dma dk
      exact ⟨_, _, Exc.bind_of_ok h1⟩
  exact ⟨res, dk', hread, fun hfine =>
    h.inv.read hg.regular h.pointers hmap hread hfine harea hw⟩

/-- **The host file has a record that was written and flushed.**

**Proof sketch.** The sector is not cached, so that it is stored. The entry that owns it is the one
of the record, since pointers are distinct, and its place is that of the record in the file. -/
lemma Good.record_stored (h : Good g [] written dk) (hg : g.Regular) {k : Bytes} {r sid : ℕ}
    {d : Sector} (hrec : RecordAt g dk k r sid) (hw : written sid = some d)
    (hflushed : sid ∉ dk.cache) :
    r / 128 ≤ 15 ∧ ∃ p c, dk.cpm2unix.lookup k = some p ∧ dk.host.contents (normal p) = some c ∧
      HoldsAt c (128 * r) d := by
  obtain ⟨e, he, hu, hname, hxl, hxh, ho, hblock⟩ := hrec.owns hg
  have hord := h.inv.names.ordinary e he hu
  have hsmall := h.small e he hu
  have hx : e.getExtNumber = r / 128 := by
    rw [hord.ext_eq, hxl]
    rw [hord.2.2, UInt8.toNat_zero] at hxh
    omega
  rcases h.inv.kept sid d hw with hc | ⟨-, i, f, b, s, c, hi, ho', hst, hat⟩
  · exact absurd (AList.lookup_isSome.mp (by rw [hc]; rfl)) hflushed
  · obtain ⟨j, hj⟩ := List.mem_iff_getElem?.mp he
    obtain ⟨hij, hb, hs⟩ := h.pointers.owns_unique hblock hj hi ho ho'
    subst hij
    rw [hj] at hi
    cases hi
    rw [← hb, ← hs, hx, place_record hg] at hat
    obtain ⟨p, hp, hc⟩ := hst.direct
    rw [hname] at hp
    refine ⟨?_, p, c, hp, hc, hat⟩
    rw [hord.ext_eq] at hx
    omega

/-- **The new disk delivers a record of the host file.**

**Proof sketch.** The new disk has the name with a file of the same content (`Good.restart_old`,
`Good.restart_new`), so that by its layout an entry has a block for the record (`Built.record`).
Nothing is cached, and reading the sector reads the file at the place of the record. -/
lemma Good.restart_delivers (h : Good g [] written dk) (hr : ReaddirOf dk.host readdir)
    (hbuild : build readdir dk.path g dk.host = .ok () dk₂) (hg : g.Regular) {k p c : Bytes}
    {r : ℕ} {d : Sector} (hx : r / 128 ≤ 15) (hk : dk.cpm2unix.lookup k = some p)
    (hc : dk.host.contents (normal p) = some c) (hat : HoldsAt c (128 * r) d) :
    ∃ sid, RecordAt g dk₂ k r sid ∧ Delivers g dk₂ sid d := by
  obtain ⟨hb, -⟩ := built_of_build hg hbuild
  obtain ⟨q, hq⟩ := Option.isSome_iff_exists.mp (h.restart_new hr hbuild hg hk)
  obtain ⟨p', c', hp', hpq, hc', hstat⟩ := h.restart_old hr hbuild hg hq
  rw [hk] at hp'
  cases hp'
  rw [hc] at hc'
  cases hc'
  have hle := h.fresh.sizes k p c hk hc
  have hlen : 128 * r < c.length := by
    have hlast := holdsAt_iff.mp hat 0 (by omega)
    rw [List.getElem?_eq_getElem (by simp : 0 < (bytes d).length), Nat.add_zero] at hlast
    exact (List.getElem?_eq_some_iff.mp hlast).1
  obtain ⟨e, he, hu, hname, hxl, hxh, hext, hne, ho, hd, hplace⟩ :=
    hb.record hg rfl hq hstat hle hlen
  obtain ⟨done, blocks, hl, -⟩ := hb.laid
  have hdpb : dk₂.dpb = g.dpb := hb.frame.dpb
  have hdp := hl.distinct
  rw [hdpb] at hdp
  have hcache : ∀ x, x ∉ dk₂.cache := fun x => by
    rw [hb.frame.cache]
    exact AList.notMem_empty x
  have hhof : dk₂.hostOf e = q := by
    rw [hostOf, hname, hq]
    rfl
  refine ⟨e.pointer g.dpb.blockPtrType (r % 128 / 2 ^ g.dpb.bsh) * 2 ^ g.dpb.bsh +
    r % 2 ^ g.dpb.bsh, ⟨e, he, hu, hname, by omega, by rw [hxh, UInt8.toNat_zero]; omega, ?_⟩,
    fun dma => ?_⟩
  · rw [blockSize_div]
    exact ⟨hne, rfl⟩
  · refine ⟨_, _, read_owned hb.frame.shaped hg hdp he ho hd (hcache _), fun hfine => ?_⟩
    rw [hext, hplace, hhof] at hfine ⊢
    obtain ⟨ok, hcalls, hiff⟩ := Host.read_snd dk₂.host q (128 * r)
    have hok : ok = true := by
      refine hfine ⟨.read q (128 * r), ok⟩ ?_
      simp only [hcalls, List.drop_left, List.mem_singleton]
    obtain ⟨bs, hbs⟩ := Option.isSome_iff_exists.mp (hiff.mp hok)
    obtain ⟨c', hc', rfl⟩ := Host.read_eq_some hbs
    have hhost : dk₂.host = dk.host := hb.frame.host
    rw [hhost, hpq, hc] at hc'
    cases hc'
    simp only [hbs, hat.overlay]

end Restart

/-- **Restart transparency.** A session starts on a drive directory without files and ends with
every operation finished and no owned sector in the cache. If a new disk can be built from the
drive directory, whatever the order of its names, it has the same users and names; and every record
that was written is delivered alike through the old and the new directory.

**Proof sketch.** The session keeps the invariants (`Session.good`), and at its end no operation is
open. A record that was written is then in the host file (`Good.record_stored`), the old disk
delivers it (`Good.delivers`), and the new one has the same names (`Good.restart_names`) and
delivers it, too (`Good.restart_delivers`). -/
theorem restart_transparent {readdir readdir' : Bytes → Option (List Bytes)} {path : Bytes}
    {host : Host} {dk₀ dk₂ : Disk} (hg : g.Shipped) (hpath : path ≠ [])
    (hslash : ∀ d ns, readdir d = some ns → ∀ n ∈ ns, slash ∉ n)
    (hempty : ∀ n c, host.contents n = some c → ¬ Inside (normal path) n)
    (hbuild : build readdir path g host = .ok () dk₀) (hrun : Session dk₀ dk l)
    (hdone : l.ops = [])
    (hflushed : ∀ sid ∈ dk.cache, ∀ e ∈ dk.dir, ¬ e.Lists dk.dpb sid)
    (hreaddir : ReaddirOf dk.host readdir')
    (hbuild' : build readdir' path g dk.host = .ok () dk₂) :
    (∀ k, HasName dk₂ k ↔ HasName dk k) ∧
      ∀ k r sid d, RecordAt g dk k r sid → l.written sid = some d →
        Delivers g dk sid d ∧ ∃ sid', RecordAt g dk₂ k r sid' ∧ Delivers g dk₂ sid' d := by
  have hreg := hg.regular
  have h := hrun.good hreg (good_of_build hreg hpath hslash hempty hbuild)
  rw [hdone] at h
  have hp : dk.path = path := hrun.path.trans (sourced_of_build hbuild).1
  subst hp
  refine ⟨h.restart_names hreaddir hbuild' hreg, fun k r sid d hrec hw => ?_⟩
  have hnot : sid ∉ dk.cache := by
    intro hc
    obtain ⟨e, he, -, -, -, -, ho, -⟩ := hrec.owns hreg
    exact hflushed sid hc e he (by rw [h.inv.shaped.dpb]; exact ho.lists)
  obtain ⟨hx, p, c, hk, hc, hat⟩ := h.record_stored hreg hrec hw hnot
  exact ⟨h.delivers hg hrec hw, h.restart_delivers hreaddir hbuild' hreg hx hk hc hat⟩

/-! ## A restart -/

/-- The host file `FOO` of the drive directory `/d`. -/
def fooNode : NPath := ⟨true, [[ch 'd'], [ch 'F', ch 'O', ch 'O']]⟩

/-- The names of the drive directory with the file `FOO`. -/
def fooReaddir (d : Bytes) : Option (List Bytes) :=
  if d = drivePath then some [here, parentDir, [ch 'F', ch 'O', ch 'O']] else none

/-- The host after the file `FOO` was made and its sector flushed. -/
lemma node_fooMade : fooMade.host.node = Function.update (Function.update emptyDrive.node fooNode
    (some (.file []))) fooNode (some (.file (writeAt [] 0 (bytes fun _ => 7)))) := by
  rfl

/-- The names are those of the drive directory.

**Proof sketch.** The drive directory has one file, FOO, and no other node. The names that are
listed are this one and the two that every directory has. -/
lemma readdirOf_foo : ReaddirOf fooMade.host fooReaddir := by
  intro d ns hns n
  unfold fooReaddir at hns
  split at hns
  · rename_i hd
    subst hd
    cases hns
    have hfoo : Plain [ch 'F', ch 'O', ch 'O'] ∧
        (fooMade.host.find (drivePath ++ slash :: [ch 'F', ch 'O', ch 'O'])).isSome := by
      decide
    constructor
    · intro hn
      simp only [List.mem_cons, List.not_mem_nil, or_false] at hn
      rcases hn with rfl | rfl | rfl
      · exact .inl rfl
      · exact .inr (.inl rfl)
      · exact .inr (.inr hfoo)
    · rintro (rfl | rfl | ⟨hpl, hfind⟩)
      · simp
      · simp
      · -- the only other node of the drive directory is the file
        have hnorm : normal (drivePath ++ slash :: n) = ⟨true, [[ch 'd'], n]⟩ := by
          rw [normal_join_plain (by decide) hpl]
          rfl
        rw [Host.find, if_neg (by simp), hnorm, node_fooMade] at hfind
        by_cases hn : (⟨true, [[ch 'd'], n]⟩ : NPath) = fooNode
        · simp only [fooNode, NPath.mk.injEq, List.cons.injEq, and_true, true_and] at hn
          simp [hn]
        · rw [Function.update_of_ne hn, Function.update_of_ne hn] at hfind
          simp [emptyDrive] at hfind
  · cases hns

/-- Making the file is tidy. -/
lemma tidy_foo : Tidy fooWritten.dir fooMade.dir := by
  have hst : (entryOf fooSector 0).st.toNat ≤ 15 := by decide
  have hxl : (entryOf fooSector 0).xl.toNat ≤ 15 := by decide +kernel
  have hext : (entryOf fooSector 0).getExtNumber = 0 := by decide +kernel
  refine ⟨fun e he hu => ?_, fun e he hu => ?_, fun i e f hi hj _ hu => ?_⟩
  · obtain ⟨i, hi⟩ := List.mem_iff_getElem?.mp he
    rw [(used_fooMade hi hu).2]
    exact hst
  · obtain ⟨i, hi⟩ := List.mem_iff_getElem?.mp he
    rw [(used_fooMade hi hu).2]
    exact hxl
  · refine ⟨f, List.mem_of_getElem? hj, hu, rfl, ?_⟩
    rw [(used_fooMade hj hu).2]
    exact hext

/-- **A file that was written is there after a restart.**

**Proof sketch.** The session writes a data sector and then the directory sector with the entry of
FOO. Both steps keep to the discipline; behind them no operation is open and nothing is cached. -/
theorem restart_transparent_foo : ∃ dk₂, build fooReaddir drivePath ibm8 fooMade.host = .ok () dk₂ ∧
    (∀ k, HasName dk₂ k ↔ HasName fooMade k) ∧ ∀ k r sid d, RecordAt ibm8 fooMade k r sid →
      (fooLedger.write fooWritten fooMade 2 1 fooSector).written sid = some d →
        Delivers ibm8 fooMade sid d ∧
          ∃ sid', RecordAt ibm8 dk₂ k r sid' ∧ Delivers ibm8 dk₂ sid' d := by
  have hbuild : build (fun _ => some []) drivePath ibm8 emptyDrive = .ok () fooStart := by rfl
  obtain ⟨⟨⟩, hb⟩ := Exc.ok_of_isOk
    (show Exc.isOk (build fooReaddir drivePath ibm8 fooMade.host) = true by decide +kernel)
  have hops : (fooLedger.write fooWritten fooMade 2 1 fooSector).ops = [] := by decide +kernel
  have hcache : fooMade.cache.keys = [] := by decide +kernel
  have hempty : ∀ n c, emptyDrive.contents n = some c → ¬ Inside (normal drivePath) n := by
    intro n c hc
    rw [contents_emptyDrive] at hc
    cases hc
  have hrun : Session fooStart fooMade (fooLedger.write fooWritten fooMade 2 1 fooSector) := by
    refine .step (.step .start step_fooWritten ?_) step_fooMade fun _ _ => tidy_foo
    intro n hn
    have harea : fooStart.area 2 20 = some (.data 16) := by
      rw [area, show fooStart.getAbsSector 2 20 = some 68 by decide +kernel]
      rfl
    rw [harea] at hn
    cases hn
  refine ⟨_, hb, restart_transparent (.inl rfl) (by decide) (by simp) hempty hbuild hrun hops
    (fun sid hsid => ?_) readdirOf_foo hb⟩
  rw [AList.mem_keys, hcache] at hsid
  cases hsid

end Disk

end Cpm22
