import Cpm22.Disk.Flush

set_option relaxedAutoImplicit false
set_option autoImplicit false

/-!
# The directory operations of the BDOS

`bdos.asm` searches the directory slot by slot, sector by sector: a sector is read into the
directory buffer when the search enters it, an entry that matches is changed in the buffer, and the
whole buffer is written back before the search goes on. Erasing, renaming and setting attributes
change every match; making and closing a file change the first one.

A search stops behind the highest slot that was seen in use (`MOREFLS`). The slots behind it are
unused and match no file control block of a user, so the embedding searches all slots.

## Main definitions

* `Cpm22.Fcb` — a file control block, as `AUTOSEL` leaves it.
* `Cpm22.Bdos.matching` — the comparison of `FINDNXT`.
* `Cpm22.Bdos.scan` — the search with its directory writes.
* `Cpm22.Bdos.getEmpty`, `closeIt`, `eraFile`, `chgNames`, `saveAttr` — the operations.
* `Cpm22.Bdos.Op` — an operation of a guest on a file; `Cpm22.Bdos.Op.run` runs it.
* `Cpm22.Bdos.sweep` — the search on slots, without the buffer.

## Main results

* `Cpm22.Bdos.dirWrite_eq` — a buffer with one changed entry writes that entry.
* `Cpm22.Bdos.search_eq` — the search through the buffer is the search on slots.
-/

namespace Cpm22

open HostPath HostFs Disk

/-- **A file control block**: the 32 bytes that take part in directory operations, with the number
of the current user, which `AUTOSEL` puts into the first byte. -/
structure Fcb where
  entry : CpmDir
  user : entry.st.toNat < 32

namespace Bdos

/-! ## Comparing -/

/-- `SAMEXT`: the extent bytes agree in the bits 0 to 4 outside the extent mask. -/
def sameExt (exm : ℕ) (a c : UInt8) : Bool :=
  ((a &&& ~~~exm.toUInt8) - (c &&& ~~~exm.toUInt8)) &&& 0x1f == 0

/-- One byte of `FNDNXT2`: a question mark matches everything, byte 13 is not compared, byte 12 is
the extent, and the attribute bit is not compared. -/
def matchByte (exm i : ℕ) (f e : UInt8) : Bool :=
  f == ch '?' || i == 13 || (if i = 12 then sameExt exm f e else (f - e) &&& 0x7f == 0)

/-- **The comparison of `FINDNXT`** in the first `count` bytes. -/
def matching (exm count : ℕ) (f e : CpmDir) : Bool :=
  (List.finRange 32).all fun i =>
    decide (count ≤ i.val) || matchByte exm i.val (f.toBytes i) (e.toBytes i)

/-- `CHKROFL`: the read-only attribute, bit 7 of the first byte of the extension. -/
def readOnly (e : CpmDir) : Bool := e.ex 0 &&& 0x80 != 0

/-! ## The directory buffer -/

/-- The place of a slot in its sector. -/
def place4 (n : ℕ) : Fin 4 := ⟨n % 4, Nat.mod_lt _ (by omega)⟩

/-- The directory buffer after one entry of it was changed. -/
def put (buf : Sector) (idx : Fin 4) (e : CpmDir) : Sector := fun i =>
  if i.val / 32 = idx.val then e.toBytes ⟨i.val % 32, Disk.column_lt i⟩ else buf i

section Operations

variable (g : Geometry)

/-- `DIRREAD` of a directory sector. -/
def dirRead (s : ℕ) (buf : Sector) : DiskM Sector := do
  let r ← Disk.read (g.trackOf s) (g.sectorOf s) buf
  pure r.2

/-- `DIRWRITE` of a directory sector. -/
def dirWrite (s : ℕ) (buf : Sector) : DiskM Unit := do
  let _ ← Disk.write (g.trackOf s) (g.sectorOf s) buf
  pure ()

/-- `NXENTRY`: the buffer when the search is at slot `n`. -/
def nxEntry (n : ℕ) (buf : Sector) : DiskM Sector :=
  if n % 4 = 0 then dirRead g (n / 4) buf else pure buf

/-- **The search with its directory writes.** `p` is the comparison; an entry that matches becomes
what `act` says, or the search ends there. `all` says whether the search goes on after a match. The
result says whether there was a match. -/
def scan (p : CpmDir → Bool) (act : CpmDir → Option CpmDir) (all : Bool) :
    List ℕ → Sector → DiskM Bool
  | [], _ => pure false
  | n :: ns, buf => do
    let buf ← nxEntry g n buf
    let e := entryOf buf (place4 n)
    if p e then
      match act e with
      | none => pure true
      | some e' => do
        dirWrite g (n / 4) (put buf (place4 n) e')
        if all then
          let _ ← scan p act all ns (put buf (place4 n) e')
          pure true
        else pure true
    else scan p act all ns buf

/-- `FINDFST` with what follows it, over all slots. -/
def search (p : CpmDir → Bool) (act : CpmDir → Option CpmDir) (all : Bool) : DiskM Bool :=
  scan g p act all (List.range g.dpb.directoryEntries) fun _ => 0

/-! ## The operations -/

/-- **`ERAFILE`**: every match becomes unused, up to the first read-only one. -/
def eraFile (fcb : Fcb) : DiskM Bool :=
  search g (matching g.dpb.exm 12 fcb.entry)
    (fun e => if readOnly e then none else some { e with st := CpmDir.UNUSED }) true

/-- An entry with the first twelve bytes replaced. -/
def named (st : UInt8) (fx : Fin 8 → UInt8) (ex : Fin 3 → UInt8) (e : CpmDir) : CpmDir :=
  { e with st := st, fx := fx, ex := ex }

/-- What `CHGNAMES` makes of an entry: the name from the second half of the file control block, with
the user of the first. -/
def renamed (fcb : Fcb) : CpmDir → CpmDir :=
  named fcb.entry.st (fun i => fcb.entry.al ⟨i + 1, by omega⟩) fun i =>
    fcb.entry.al ⟨i + 9, by omega⟩

/-- **`CHGNAMES`**: every match gets the new name, up to the first read-only one. -/
def chgNames (fcb : Fcb) : DiskM Bool :=
  search g (matching g.dpb.exm 12 fcb.entry)
    (fun e => if readOnly e then none else some (renamed fcb e)) true

/-- What `SAVEATTR` makes of an entry: the first twelve bytes of the file control block. -/
def attributed (fcb : Fcb) : CpmDir → CpmDir :=
  named fcb.entry.st fcb.entry.fx fcb.entry.ex

/-- **`SAVEATTR`**: every match gets the name of the file control block with its attributes. -/
def saveAttr (fcb : Fcb) : DiskM Bool :=
  search g (matching g.dpb.exm 12 fcb.entry) (fun e => some (attributed fcb e)) true

/-- The entry that `GETEMPTY` writes: no records, no blocks, and `S1` cleared. -/
def fresh (fcb : Fcb) : CpmDir := { fcb.entry with bc := 0, rc := 0, al := fun _ => 0 }

/-- **`GETEMPTY`**: the first empty slot gets the entry of the file control block. -/
def getEmpty (fcb : Fcb) : DiskM Bool :=
  search g (matching g.dpb.exm 1 CpmDir.empty) (fun _ => some (fresh fcb)) false

/-- The number of block pointers as the BDOS counts them (`BIGDISK`). -/
def pointers (d : Dpb) : ℕ := if d.dsm < 256 then 16 else 8

/-- The pointers that `CLOSEIT` writes: those of the directory, and those of the file control block
where the directory has none. -/
def merged (bps : ℕ) (f e : CpmDir) : Fin 16 → UInt8 := fun i =>
  if e.pointer bps (i.val / (16 / bps)) = 0 then f.al i else e.al i

/-- The pointers can be merged: where both have one, it is the same. -/
def mergeable (bps : ℕ) (f e : CpmDir) : Bool :=
  (List.range bps).all fun j =>
    e.pointer bps j == 0 || f.pointer bps j == 0 || f.pointer bps j == e.pointer bps j

/-- The entry that `CLOSEIT` writes: the pointers merged, and the extent byte and the record count
of the file control block unless the directory has a later extent. -/
def closed (bps : ℕ) (fcb : Fcb) (e : CpmDir) : Option CpmDir :=
  if mergeable bps fcb.entry e then
    let e' := { e with al := merged bps fcb.entry e }
    some (if fcb.entry.xl < e.xl then e' else { e' with xl := fcb.entry.xl, rc := fcb.entry.rc })
  else none

/-- **`CLOSEIT`**: the first match of the extent takes over the file control block, unless this was
not written since it was opened. -/
def closeIt (fcb : Fcb) : DiskM Bool :=
  if fcb.entry.xh &&& 0x80 ≠ 0 then pure true
  else search g (matching g.dpb.exm 15 fcb.entry) (closed (pointers g.dpb) fcb) false

/-- The second half of `GETNEXT` while writing, behind the `CLOSEIT` of the old extent: a new entry
for the extent of the file control block, unless there is one. -/
def nextExtent (fcb : Fcb) : DiskM Bool := do
  if ← search g (matching g.dpb.exm 15 fcb.entry) (fun _ => none) false then pure true
  else getEmpty g fcb

/-- **An operation of a guest on a file.** Writing a record is writing its data sector, and at the
end of an extent `close` and `extend`. -/
inductive Op
  | make (fcb : Fcb)
  | write (sid : ℕ) (h : DataSector g.dpb sid) (data : Sector)
  | extend (fcb : Fcb)
  | close (fcb : Fcb)
  | delete (fcb : Fcb)
  | rename (fcb : Fcb)
  | setAttributes (fcb : Fcb)

/-- `FCREATE` clears `S2`. -/
def clearS2 (fcb : Fcb) : Fcb := ⟨{ fcb.entry with xh := 0 }, fcb.user⟩

/-- **Running an operation.** The results of the routines are dropped: an operation is run for what
it leaves on the disk. -/
def Op.run : Op g → DiskM Unit
  | .make fcb => do
    let _ ← getEmpty g (clearS2 fcb)
  | .write sid _ data => do
    let _ ← Disk.write (g.trackOf sid) (g.sectorOf sid) data
  | .extend fcb => do
    let _ ← nextExtent g fcb
  | .close fcb => do
    let _ ← closeIt g fcb
  | .delete fcb => do
    let _ ← eraFile g fcb
  | .rename fcb => do
    let _ ← chgNames g fcb
  | .setAttributes fcb => do
    let _ ← saveAttr g fcb

end Operations

/-! ## The search on slots -/

/-- **A directory write that changes one slot**: the entry, then `Flush`. -/
def replace (n : ℕ) (e : CpmDir) : DiskM Unit := do
  writeEntry n e
  let _ ← flush

/-- **The search on slots**, without the buffer. It stops behind the first match unless all of them
are changed, and at a match that may not be changed. -/
def sweep (p : CpmDir → Bool) (act : CpmDir → Option CpmDir) (all : Bool) : List ℕ → DiskM Bool
  | [] => pure false
  | n :: ns => do
    let e ← dirAt n
    if p e then
      match act e with
      | none => pure true
      | some e' => do
        replace n e'
        if all then
          let _ ← sweep p act all ns
          pure true
        else pure true
    else sweep p act all ns

/-! ## Sectors of the directory -/

/-- **The disk has the tables of a geometry and a directory of its size.** -/
structure Housed (g : Geometry) (dk : Disk) : Prop where
  shaped : Shaped g dk
  len : dk.dir.length = g.dpb.directoryEntries

variable {g : Geometry} {dk dk' : Disk} {n s : ℕ} {buf : Sector}

/-- The area of a directory sector. -/
lemma Housed.area (h : Housed g dk) (hg : g.Regular) (hs : s * 4 < g.dpb.directoryEntries) :
    dk.area (g.trackOf s) (g.sectorOf s) = some (.directory s) := by
  have hdirs := hg.dirs
  have hlt : s < g.dpb.dirBlocks * 2 ^ g.dpb.bsh := by omega
  have hroom := Nat.mul_le_mul_right (2 ^ g.dpb.bsh) (Nat.le_of_lt hg.room)
  rw [Disk.area, h.shaped.getAbsSector hg (by omega), Option.map_some,
    if_neg (Nat.not_lt.mpr (Nat.le_add_left _ _)), Nat.add_sub_cancel, h.shaped.datastart,
    if_pos hlt]

/-- A slot of the directory has an entry. -/
lemma Housed.entry (h : Housed g dk) (hn : n < g.dpb.directoryEntries) :
    ∃ e, dk.dir[n]? = some e := by
  rw [← h.len] at hn
  exact ⟨_, List.getElem?_eq_getElem hn⟩

/-- The sector of a slot has four entries. -/
lemma Housed.entries (h : Housed g dk) (hg : g.Regular) (hn : n < g.dpb.directoryEntries) :
    ∃ es : Fin 4 → CpmDir, ∀ idx : Fin 4, dk.dir[n / 4 * 4 + idx.val]? = some (es idx) := by
  have hdirs := hg.dirs
  choose es hes using fun idx : Fin 4 => h.entry (n := n / 4 * 4 + idx.val) (by omega)
  exact ⟨es, hes⟩

/-- A slot is at its place of its sector. -/
lemma slot_eq (n : ℕ) : n / 4 * 4 + (place4 n).val = n := Nat.div_add_mod' n 4

/-- Reading the sector of a slot. -/
lemma dirRead_eq (h : Housed g dk) (hg : g.Regular) (hn : n < g.dpb.directoryEntries)
    {es : Fin 4 → CpmDir} (hes : ∀ idx : Fin 4, dk.dir[n / 4 * 4 + idx.val]? = some (es idx)) :
    dirRead g (n / 4) buf dk = .ok (dirSector es) dk := by
  rw [dirRead, Exc.bind_of_ok (read_directory (h.area hg (by omega)) hes)]
  rfl

/-- The entries of a buffer with one changed entry. -/
lemma entryOf_put (buf : Sector) (idx j : Fin 4) (e : CpmDir) :
    entryOf (put buf idx e) j = if j = idx then e else entryOf buf j := by
  have hdiv : ∀ i : Fin 32, (j.val * 32 + i.val) / 32 = j.val := fun i => by omega
  have hmod : ∀ i : Fin 32, (⟨(j.val * 32 + i.val) % 32, Nat.mod_lt _ (by omega)⟩ : Fin 32) = i :=
    fun i => Fin.ext (show (j.val * 32 + i.val) % 32 = i.val by omega)
  by_cases hj : j = idx
  · subst hj
    rw [if_pos rfl, entryOf]
    refine Eq.trans (congrArg CpmDir.ofBytes (funext fun i => ?_)) (CpmDir.ofBytes_toBytes e)
    rw [put, if_pos (hdiv i)]
    exact congrArg e.toBytes (hmod i)
  · rw [if_neg hj, entryOf, entryOf]
    refine congrArg CpmDir.ofBytes (funext fun i => ?_)
    have hne : (j.val * 32 + i.val) / 32 ≠ idx.val := by
      rw [hdiv]
      exact fun hh => hj (Fin.ext hh)
    rw [put, if_neg hne]

/-- Entries that compare equal to the ones that are there are not written. -/
lemma writeEntries_same {extno : ℕ} {d : Sector} {idxs : List (Fin 4)}
    (h : ∀ idx ∈ idxs, ∃ old, dk.dir[extno + idx.val]? = some old ∧
      old.eq (entryOf d idx) = true) : writeEntries extno d idxs dk = .ok () dk := by
  induction idxs with
  | nil => rfl
  | cons idx idxs ih =>
    obtain ⟨old, hat, heq⟩ := h idx (by simp)
    rw [writeEntries, Exc.bind_of_ok (writeEntry_of_eq hat heq)]
    exact ih fun i hi => h i (by simp [hi])

/-- **If all entries but one compare equal, only that one is written.**

**Proof sketch.** Induction on the slots. A slot that compares equal is passed. Behind the one that
does not all others compare equal, and they still do after it was written, since their slots are
other ones. -/
lemma writeEntries_single {extno : ℕ} {d : Sector} {j : Fin 4} {idxs : List (Fin 4)}
    (hnd : idxs.Nodup) (hj : j ∈ idxs) (h : ∀ idx ∈ idxs, idx ≠ j → ∃ old,
      dk.dir[extno + idx.val]? = some old ∧ old.eq (entryOf d idx) = true) :
    writeEntries extno d idxs dk = writeEntry (extno + j.val) (entryOf d j) dk := by
  induction idxs with
  | nil => exact nomatch hj
  | cons idx idxs ih =>
    rw [List.nodup_cons] at hnd
    rw [writeEntries]
    by_cases hidx : idx = j
    · subst hidx
      rw [Exc.bind_apply]
      cases hw : writeEntry (extno + idx.val) (entryOf d idx) dk with
      | error e dk₁ => rfl
      | ok a dk₁ =>
        refine writeEntries_same fun i hi => ?_
        have hne : i ≠ idx := fun hh => hnd.1 (hh ▸ hi)
        obtain ⟨old, hat, heq⟩ := h i (by simp [hi]) hne
        refine ⟨old, ?_, heq⟩
        have hslot : extno + idx.val ≠ extno + i.val := fun hh => hne (Fin.ext (by omega))
        obtain ⟨_, -, ⟨-, rfl⟩ | ⟨-, hd⟩⟩ := dir_of_writeEntry hw
        · exact hat
        · rw [hd, List.getElem?_set_ne hslot, hat]
    · obtain ⟨old, hat, heq⟩ := h idx (by simp) hidx
      rw [Exc.bind_of_ok (writeEntry_of_eq hat heq)]
      exact ih hnd.2 ((List.mem_cons.mp hj).resolve_left (Ne.symm hidx))
        fun i hi hne => h i (by simp [hi]) hne

/-- The buffer agrees with a sector of the directory, and exactly so from place `k` on. -/
def Holds (es : Fin 4 → CpmDir) (buf : Sector) (k : ℕ) : Prop :=
  ∀ idx : Fin 4, (es idx).eq (entryOf buf idx) = true ∧ (k ≤ idx.val → entryOf buf idx = es idx)

/-- **A buffer with one changed entry writes that entry.** -/
lemma dirWrite_eq (h : Housed g dk) (hg : g.Regular) (hn : n < g.dpb.directoryEntries)
    {es : Fin 4 → CpmDir} (hes : ∀ idx : Fin 4, dk.dir[n / 4 * 4 + idx.val]? = some (es idx))
    {k : ℕ} (hb : Holds es buf k) (e : CpmDir) :
    dirWrite g (n / 4) (put buf (place4 n) e) dk = replace n e dk := by
  have hnd : ([0, 1, 2, 3] : List (Fin 4)).Nodup := by decide
  have hmem : place4 n ∈ ([0, 1, 2, 3] : List (Fin 4)) := by
    generalize place4 n = j
    fin_cases j <;> simp
  have hentries : writeEntries (n / 4 * 4) (put buf (place4 n) e) [0, 1, 2, 3] dk =
      writeEntry n e dk := by
    rw [writeEntries_single hnd hmem fun idx _ hne => ⟨es idx, hes idx, by
      rw [entryOf_put, if_neg hne]
      exact (hb idx).1⟩, slot_eq, entryOf_put, if_pos rfl]
  have hwrite : Disk.write (g.trackOf (n / 4)) (g.sectorOf (n / 4)) (put buf (place4 n) e) dk =
      (writeEntry n e >>= fun _ => flush) dk := by
    rw [write_directory (h.area hg (by omega)), writeDir, Nat.shiftLeft_eq, Exc.bind_apply]
    rw [show n / 4 * 2 ^ 2 = n / 4 * 4 from rfl, hentries, Exc.bind_apply]
  rw [dirWrite, replace, Exc.bind_apply, hwrite, Exc.bind_apply, Exc.bind_apply]
  cases writeEntry n e dk <;> rfl

/-! ## From the buffer to the slots -/

/-- What a directory write of one slot leaves as it is. -/
lemma replace_ok {e : CpmDir} (h : replace n e dk = .ok () dk') :
    Static dk dk' ∧ ∃ old, dk.dir[n]? = some old ∧ dk'.dir = dk.dir.set n (kept old e) := by
  rw [replace, Exc.bind_ok] at h
  obtain ⟨⟨⟩, dk₁, h1, h2⟩ := h
  rw [Exc.bind_ok] at h2
  obtain ⟨r, dk₂, h2, h3⟩ := h2
  cases h3
  obtain ⟨hf, -, -⟩ := quiet_of_flush h2
  have hs := static_writeEntry n e dk
  rw [h1] at hs
  obtain ⟨old, hat, hcase⟩ := dir_of_writeEntry h1
  refine ⟨hs.trans hf.toStatic, old, hat, ?_⟩
  rw [hf.dir]
  rcases hcase with ⟨heq, rfl⟩ | ⟨heq, hd⟩
  · rw [kept, if_pos heq]
    obtain ⟨hlt, hget⟩ := List.getElem?_eq_some_iff.mp hat
    rw [← hget, List.set_getElem_self]
  · rw [kept, if_neg (by simp [heq]), hd]

/-- A directory write of one slot keeps the directory in place. -/
lemma Housed.replace {e : CpmDir} (h : Housed g dk) (hr : Bdos.replace n e dk = .ok () dk') :
    Housed g dk' := by
  obtain ⟨hs, old, -, hd⟩ := replace_ok hr
  exact ⟨h.shaped.static hs, by rw [hd, List.length_set, h.len]⟩

/-- The buffer at slot `n` agrees with the directory, unless the search is about to read it. -/
def InBuffer (dk : Disk) (n : ℕ) (buf : Sector) : Prop :=
  n % 4 ≠ 0 → ∀ es : Fin 4 → CpmDir, (∀ idx : Fin 4, dk.dir[n / 4 * 4 + idx.val]? = some (es idx)) →
    Holds es buf (n % 4)

/-- The buffer when the search is at a slot. -/
lemma nxEntry_eq (h : Housed g dk) (hg : g.Regular) (hn : n < g.dpb.directoryEntries)
    (hb : InBuffer dk n buf) {es : Fin 4 → CpmDir}
    (hes : ∀ idx : Fin 4, dk.dir[n / 4 * 4 + idx.val]? = some (es idx)) :
    ∃ buf', nxEntry g n buf dk = .ok buf' dk ∧ Holds es buf' (n % 4) := by
  by_cases h4 : n % 4 = 0
  · refine ⟨dirSector es, ?_, fun idx => ?_⟩
    · rw [nxEntry, if_pos h4, dirRead_eq h hg hn hes]
    · rw [entryOf_dirSector]
      exact ⟨CpmDir.eq_refl _, fun _ => rfl⟩
  · refine ⟨buf, ?_, hb h4 es hes⟩
    rw [nxEntry, if_neg h4]
    rfl

/-- The buffer stays when the search passes a slot. -/
lemma Holds.next {es : Fin 4 → CpmDir}
    (hes : ∀ idx : Fin 4, dk.dir[n / 4 * 4 + idx.val]? = some (es idx))
    (hb : Holds es buf (n % 4)) : InBuffer dk (n + 1) buf := by
  intro h4 fs hfs idx
  have hdiv : (n + 1) / 4 = n / 4 := by omega
  have hsame : fs idx = es idx := by
    have := hfs idx
    rw [hdiv, hes idx] at this
    exact (Option.some.inj this).symm
  rw [hsame]
  exact ⟨(hb idx).1, fun hk => (hb idx).2 (by omega)⟩

/-- The buffer agrees with the directory after a slot was changed in both.

**Proof sketch.** By the slot of the sector: the changed one has the entry in the buffer and, up to
an equal one, in the directory; the others were not changed in either. -/
lemma Holds.replace {es : Fin 4 → CpmDir}
    (hes : ∀ idx : Fin 4, dk.dir[n / 4 * 4 + idx.val]? = some (es idx))
    (hb : Holds es buf (n % 4)) {e : CpmDir} (hr : Bdos.replace n e dk = .ok () dk') :
    InBuffer dk' (n + 1) (put buf (place4 n) e) := by
  intro h4 fs hfs idx
  have hdiv : (n + 1) / 4 = n / 4 := by omega
  obtain ⟨-, old, hold, hd⟩ := replace_ok hr
  have hlt := (List.getElem?_eq_some_iff.mp hold).1
  have hfs' := hfs idx
  rw [hdiv, hd] at hfs'
  rw [entryOf_put]
  by_cases hidx : idx = place4 n
  · subst hidx
    rw [slot_eq, List.getElem?_set_self hlt, Option.some.injEq] at hfs'
    rw [if_pos rfl, ← hfs', kept]
    refine ⟨?_, fun hk => ?_⟩
    · split
      · assumption
      · exact CpmDir.eq_refl e
    · have : (place4 n).val = n % 4 := rfl
      omega
  · have hne : n ≠ n / 4 * 4 + idx.val := fun hh => hidx (Fin.ext (by
      have : (place4 n).val = n % 4 := rfl
      omega))
    rw [List.getElem?_set_ne hne, hes idx, Option.some.injEq] at hfs'
    rw [if_neg hidx, ← hfs']
    exact ⟨(hb idx).1, fun hk => (hb idx).2 (by omega)⟩

/-- **The search through the buffer is the search on slots.**

**Proof sketch.** Induction on the slots that are left. The entry in the buffer at the current slot
is the one of the directory, since a write changes no slot that is ahead; the other entries of the
buffer compare equal to those of the directory, so that writing the buffer writes one entry. -/
lemma scan_eq (hg : g.Regular) (p : CpmDir → Bool) (act : CpmDir → Option CpmDir) (all : Bool)
    (m : ℕ) : ∀ (n : ℕ) (buf : Sector) (dk : Disk), n + m ≤ g.dpb.directoryEntries →
      Housed g dk → InBuffer dk n buf →
      scan g p act all (List.range' n m) buf dk = sweep p act all (List.range' n m) dk := by
  induction m with
  | zero => exact fun _ _ _ _ _ _ => rfl
  | succ m ih =>
    intro n buf dk hlt h hb
    have hn : n < g.dpb.directoryEntries := by omega
    obtain ⟨es, hes⟩ := h.entries hg hn
    obtain ⟨buf', hbuf, hh⟩ := nxEntry_eq h hg hn hb hes
    have he : entryOf buf' (place4 n) = es (place4 n) := (hh (place4 n)).2 le_rfl
    have hat : dirAt n dk = .ok (es (place4 n)) dk := by
      have := hes (place4 n)
      rw [slot_eq] at this
      simp only [dirAt, this]
    rw [List.range'_succ, scan, sweep, Exc.bind_of_ok hbuf, Exc.bind_of_ok hat]
    simp only [he]
    by_cases hp : p (es (place4 n)) = true
    · rw [if_pos hp, if_pos hp]
      cases act (es (place4 n)) with
      | none => rfl
      | some e' =>
        simp only
        rw [Exc.bind_apply, Exc.bind_apply, dirWrite_eq h hg hn hes hh e']
        cases hr : replace n e' dk with
        | error x dk₁ => rfl
        | ok x dk₁ =>
          cases all with
          | false => rfl
          | true =>
            simp only [if_true]
            rw [Exc.bind_apply, Exc.bind_apply,
              ih (n + 1) _ dk₁ (by omega) (h.replace hr) (hh.replace hes hr)]
    · rw [if_neg hp, if_neg hp]
      exact ih (n + 1) buf' dk (by omega) h (hh.next hes)

/-- **`FINDFST` with what follows it is the search on slots.** -/
theorem search_eq (hg : g.Regular) (h : Housed g dk) (p : CpmDir → Bool)
    (act : CpmDir → Option CpmDir) (all : Bool) :
    search g p act all dk = sweep p act all (List.range g.dpb.directoryEntries) dk := by
  rw [search, List.range_eq_range']
  exact scan_eq hg p act all _ 0 _ dk (by omega) h fun h0 => absurd rfl h0

end Bdos

end Cpm22
