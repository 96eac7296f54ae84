import Cpm22.Lib.Runs
import Cpm22.Disk.Address
import Cpm22.Disk.Buffer
import Cpm22.Disk.Containment
import Cpm22.Disk.Flush

set_option relaxedAutoImplicit false
set_option autoImplicit false

/-!
# The length of a host file

A host file should not be longer than the file is for the guest: 128 bytes for each of its records,
which the guest counts by the extent numbers and record counts of the entries. `Flush` writes a
cached sector as soon as an entry lists its block, whoever it was written for. This file follows a
run of the guest with a ledger that has, for each data sector that was written, the file and the
record it was written for, until a directory lists its block; and at each directory write it follows
the names of the host files.

A sector that is listed as the record it was written for is placed at that record. So the host files
stay within their records if the directory lists the sectors of the ledger as what they were written
for and counts these records, and takes away no record that a host file has.

## Main definitions

* `Cpm22.Disk.recordCount` — the number of records of a file.
* `Cpm22.Disk.Covered` — no host file is longer than its records.
* `Cpm22.Disk.CoveredAlong` — this holds after every directory write of a run.
* `Cpm22.Disk.Pending` — the ledger.
* `Cpm22.Disk.Outlook` — the directory after a directory write, and where its host files come from.
* `Cpm22.Disk.Recorded`, `Cpm22.Disk.Retained` — the condition on a directory write.
* `Cpm22.Disk.RecordedAlong` — the condition, along a run.

## Main results

* `Cpm22.Disk.Pending.tracks_write` — the ledger has every cached sector, along every run.
* `Cpm22.Disk.Foreseen.entries` — the outlook is what the entries of a directory sector do.
* `Cpm22.Disk.Sized.flushAll` — one `Flush`.
* `Cpm22.Disk.lengths_covered` — no host file is longer than its records, along every run that meets
  the condition.
* `Cpm22.Disk.stale_sector_flushed` — a run that reuses a block of a file that was never closed.
-/

namespace Cpm22

open HostPath HostFs

/-! ## Records -/

/-- The records of a file up to the end of an entry, with the extent number of the BDOS. -/
def CpmDir.records (e : CpmDir) : ℕ := 128 * e.logicalExtent + e.rc.toNat

/-- **The record that an entry has in a sector**: sector `s` of the block at pointer index `b`. -/
def CpmDir.recordAt (d : Dpb) (e : CpmDir) (b s : ℕ) : ℕ :=
  128 * e.logicalExtent + b * (d.blockSize / 128) + s

namespace Disk

/-- **The number of records of a file**: the maximum over its used entries. -/
def recordCount (dir : List CpmDir) (k : Bytes) : ℕ :=
  ((dir.filter fun e => decide (e.Used ∧ e.getName = k)).map CpmDir.records).foldr max 0

variable {g : Geometry} {dk dk' : Disk} {dir : List CpmDir} {k : Bytes} {n : ℕ} {old new : CpmDir}

/-! ## The law -/

/-- **No host file is longer than its records.** -/
def Covered (dk : Disk) : Prop :=
  ∀ k p c, dk.cpm2unix.lookup k = some p → dk.host.contents (normal p) = some c →
    c.length ≤ 128 * recordCount dk.dir k

/-- **No host file is longer than its records after any directory write of the run.** -/
def CoveredAlong : List Access → Disk → Prop
  | [], _ => True
  | .read track sector dma :: as, dk =>
    ∀ r dk', read track sector dma dk = .ok r dk' → CoveredAlong as dk'
  | .write track sector dma :: as, dk => ∀ r dk', write track sector dma dk = .ok r dk' →
      ((∃ n, dk.area track sector = some (.directory n)) → Covered dk') ∧ CoveredAlong as dk'

/-- **The guest gives its files legal names**: so have the used entries of every directory sector
that it writes. -/
def LegalAlong : List Access → Disk → Prop
  | [], _ => True
  | .read track sector dma :: as, dk =>
    ∀ r dk', read track sector dma dk = .ok r dk' → LegalAlong as dk'
  | .write track sector dma :: as, dk =>
    (∀ n, dk.area track sector = some (.directory n) →
      ∀ idx : Fin 4, (entryOf dma idx).Used → (entryOf dma idx).LegalName) ∧
    ∀ r dk', write track sector dma dk = .ok r dk' → LegalAlong as dk'

/-! ## What the guest writes -/

/-- **What a data sector is written for**: a record of a file. -/
structure FileRecord where
  /-- the name of the file, with its user -/
  file : Bytes
  number : ℕ

/-- Where the host file of a name comes from that it has after some entries were written. -/
inductive Origin
  /-- it was there before them, for a name -/
  | before (k : Bytes)
  /-- it was made with one of them -/
  | made
  /-- there is none: it was erased, or has another name -/
  | gone

/-- **What writing entries comes to**: the directory after them, and where the host files come
from. -/
structure Outlook where
  dir : List CpmDir
  origin : Bytes → Origin

/-- The outlook with one more entry replaced. The origin of a file follows the three branches of
`hostChange`: it is gone, it is made empty, or it is the file of the old name. -/
def Outlook.replace (n : ℕ) (old new : CpmDir) (o : Outlook) : Outlook where
  dir := o.dir.set n new
  origin :=
    if ¬ new.Used ∧ old.Used ∧ old.getExtNumber = 0 then
      Function.update o.origin old.getName .gone
    else if new.Used ∧ ¬ old.Used ∧ new.getExtNumber = 0 then
      Function.update o.origin new.getName .made
    else if new.Used ∧ old.Used ∧ new.getName ≠ old.getName ∧ old.getExtNumber = 0 ∧
        new.getExtNumber = 0 then
      Function.update (Function.update o.origin old.getName .gone) new.getName
        (o.origin old.getName)
    else o.origin

/-- The outlook with one entry written. -/
def Outlook.entry (n : ℕ) (new : CpmDir) (o : Outlook) : Outlook :=
  match o.dir[n]? with
  | some old => if old.eq new then o else o.replace n old new
  | none => o

/-- The outlook with the entries of a directory sector written. -/
def Outlook.entries (extno : ℕ) (dma : Sector) : List (Fin 4) → Outlook → Outlook
  | [], o => o
  | idx :: idxs, o =>
    Outlook.entries extno dma idxs (o.entry (extno + idx) (entryOf dma idx))

/-- **The outlook of a directory write.** -/
def outlook (dk : Disk) (n : ℕ) (dma : Sector) : Outlook :=
  Outlook.entries (n <<< 2) dma [0, 1, 2, 3] ⟨dk.dir, .before⟩

/-- **The ledger of the data sectors**: what a sector was written for, since it was last listed by
the directory after a directory write. -/
abbrev Pending := ℕ → Option FileRecord

/-- The ledger after a `Write`, of a data sector for the record `w`. -/
def Pending.write (π : Pending) (dk : Disk) (track sector : ℕ) (dma : Sector) (w : FileRecord) :
    Pending :=
  match dk.area track sector with
  | some (.directory n) => fun sid =>
    if (dk.outlook n dma).dir.any fun e => decide (e.Lists dk.dpb sid) then none else π sid
  | some (.data sid) => Function.update π sid (some w)
  | _ => π

/-! ## The condition -/

/-- **The directory lists the sectors of the ledger as what they were written for**: an entry that
lists a sector is of the file that it was written for and has it as the record it was written for,
and the directory counts the record. -/
def Recorded (d : Dpb) (π : Pending) (dir : List CpmDir) : Prop :=
  ∀ sid w, π sid = some w → ∀ e ∈ dir, ∀ b s, Owns d e b s sid →
    e.getName = w.file ∧ e.xh = 0 ∧ e.recordAt d b s = w.number ∧
      w.number < recordCount dir w.file

/-- **No record is taken away that a host file has**: a host file that is there before a directory
write, and after it, is no longer than the records of the name that it has then. -/
def Retained (dk : Disk) (o : Outlook) : Prop :=
  ∀ k k₀ p c, o.origin k = .before k₀ → dk.cpm2unix.lookup k₀ = some p →
    dk.host.contents (normal p) = some c → c.length ≤ 128 * recordCount o.dir k

/-- **The condition along a run** of accesses, each with the record that it writes if it writes a
data sector. -/
def RecordedAlong : List (Access × FileRecord) → Disk → Pending → Prop
  | [], _, _ => True
  | (.read track sector dma, _) :: as, dk, π =>
    ∀ r dk', read track sector dma dk = .ok r dk' → RecordedAlong as dk' π
  | (.write track sector dma, w) :: as, dk, π =>
    (∀ n, dk.area track sector = some (.directory n) →
      Recorded dk.dpb π (dk.outlook n dma).dir ∧ Retained dk (dk.outlook n dma)) ∧
    ∀ r dk', write track sector dma dk = .ok r dk' →
      RecordedAlong as dk' (π.write dk track sector dma w)

/-! ## The invariants -/

/-- **The host files of different names are different**, and none of them is the system file. -/
structure Named (dk : Disk) : Prop where
  path : dk.path ≠ []
  boot : dk.bootblock = dk.path ++ slash :: cpmsys
  denotes : ∀ k p, dk.cpm2unix.lookup k = some p → Denotes dk.path p k

/-- **The invariant of a run**: the host files have their names, and none is longer than its
records. -/
structure Sized (dk : Disk) : Prop extends Named dk where
  covered : Covered dk

/-- **The ledger has every cached sector.** -/
def Pending.Tracks (π : Pending) (dk : Disk) : Prop := ∀ sid ∈ dk.cache, (π sid).isSome

/-- The cached sectors that an entry lists are placed below the end of the records of the entry's
file. -/
def Within (dk : Disk) : Prop :=
  ∀ sid ∈ dk.cache, ∀ e ∈ dk.dir, e.Lists dk.dpb sid →
    dk.placeOf sid e + 128 ≤ 128 * recordCount dk.dir e.getName

/-- **The outlook has come true**: the directory is the foreseen one, and every host file is from
where it says, with the contents that it had there. -/
structure Foreseen (dk₀ : Disk) (o : Outlook) (dk : Disk) : Prop where
  dir : dk.dir = o.dir
  files : ∀ k p c, dk.cpm2unix.lookup k = some p → dk.host.contents (normal p) = some c →
    (o.origin k = .made ∧ c = []) ∨ ∃ k₀ p₀, o.origin k = .before k₀ ∧
      dk₀.cpm2unix.lookup k₀ = some p₀ ∧ dk₀.host.contents (normal p₀) = some c

/-! ## `Flush` -/

/-- Different names have different host files. -/
lemma Named.eq_of_path (h : Named dk) {l p q : Bytes} (hk : dk.cpm2unix.lookup k = some p)
    (hl : dk.cpm2unix.lookup l = some q) (hpq : normal p = normal q) : k = l :=
  (h.denotes k p hk).inj (h.denotes l q hl) hpq

/-- Replacing the host keeps the invariant if no host file of a name gets too long. -/
lemma Sized.host (h : Sized dk) {host : Host} (hc : Covered { dk with host := host }) :
    Sized { dk with host := host } :=
  ⟨⟨h.path, h.boot, h.denotes⟩, hc⟩

/-- **Writing into a host file below the end of its records.** -/
lemma Sized.write (h : Sized dk) {p : Bytes} {pos : ℕ} {d : Bytes}
    (hk : dk.cpm2unix.lookup k = some p) (hpos : pos + d.length ≤ 128 * recordCount dk.dir k) :
    Sized { dk with host := (dk.host.write p pos d).2 } := by
  refine h.host fun l q c hl hc => ?_
  simp only at hl hc ⊢
  by_cases hok : (dk.host.write p pos d).1 = true
  · obtain ⟨-, c₀, hc₀, hfiles⟩ := Host.contents_write hok
    rw [hfiles] at hc
    by_cases hpq : normal q = normal p
    · obtain rfl := h.eq_of_path hl hk hpq
      rw [hpq, Function.update_self, Option.some.injEq] at hc
      have hlen := h.covered l p c₀ hk hc₀
      rw [← hc, length_writeAt]
      omega
    · rw [Function.update_of_ne hpq] at hc
      exact h.covered l q c hl hc
  · have hsame : (dk.host.write p pos d).2.contents = dk.host.contents :=
      Host.contents_attempt (Bool.eq_false_iff.mpr hok)
    rw [hsame] at hc
    exact h.covered l q c hl hc

/-- **One round of `Flush`** keeps the invariant, and the other cached sectors are records still. -/
lemma Sized.flushOne {sid : ℕ} (h : Sized dk) (hw : Within dk)
    (hf : Disk.flushOne sid dk = .ok () dk') : Sized dk' ∧ Within dk' := by
  rcases flushOne_ok hf with ⟨-, rfl⟩ | ⟨d, hd, e, he, p, hl, hp, rfl⟩
  · exact ⟨h, hw⟩
  · have hsid : sid ∈ dk.cache := AList.lookup_isSome.mp (by rw [hd]; rfl)
    have hpos := hw sid hsid e he hl
    have hwrite : Sized { dk with host := (dk.host.write p (dk.placeOf sid e) (bytes d)).2 } :=
      h.write hp (by rw [length_bytes]; exact hpos)
    exact ⟨⟨⟨hwrite.path, hwrite.boot, hwrite.denotes⟩, hwrite.covered⟩,
      fun s hs => hw s (AList.mem_erase.mp hs).2⟩

/-- **`Flush`** keeps the invariant if the cached sectors are records. -/
lemma Sized.flushAll {sids : List ℕ} : ∀ {dk : Disk}, Sized dk → Within dk →
    Disk.flushAll sids dk = .ok () dk' → Sized dk' := by
  induction sids with
  | nil =>
    intro dk h _ hf
    cases hf
    exact h
  | cons sid sids ih =>
    intro dk h hw hf
    rw [Disk.flushAll, Exc.bind_ok] at hf
    obtain ⟨⟨⟩, dk₁, h1, h2⟩ := hf
    obtain ⟨hs, hw₁⟩ := h.flushOne hw h1
    exact ih hs hw₁ h2

/-! ## Directory entries -/

variable {dk₀ : Disk} {o : Outlook}

/-- A change that has no effect on the host leaves the origins. -/
lemma Outlook.origin_skip (h : ¬ ChangesHost old new) :
    (o.replace n old new).origin = o.origin := by
  unfold ChangesHost at h
  push Not at h
  obtain ⟨hdelete, hcreate, hrename⟩ := h
  rw [replace, if_neg fun hc => hdelete hc.1 hc.2.1 hc.2.2,
    if_neg fun hc => hcreate hc.1 hc.2.1 hc.2.2,
    if_neg fun hc => hrename hc.1 hc.2.1 hc.2.2.1 hc.2.2.2.1 hc.2.2.2.2]

/-- The file of an entry of extent 0 that is erased is gone. -/
lemma Outlook.origin_delete (hn : ¬ new.Used) (ho : old.Used) (h0 : old.getExtNumber = 0) :
    (o.replace n old new).origin = Function.update o.origin old.getName .gone :=
  if_pos ⟨hn, ho, h0⟩

/-- The file of a new entry of extent 0 is made. -/
lemma Outlook.origin_create (hn : new.Used) (ho : ¬ old.Used) (h0 : new.getExtNumber = 0) :
    (o.replace n old new).origin = Function.update o.origin new.getName .made := by
  rw [replace, if_neg fun hc => hc.1 hn, if_pos ⟨hn, ho, h0⟩]

/-- The file of an entry of extent 0 that gets a new name takes its origin along. -/
lemma Outlook.origin_rename (hn : new.Used) (ho : old.Used) (hne : new.getName ≠ old.getName)
    (h0 : old.getExtNumber = 0) (h1 : new.getExtNumber = 0) :
    (o.replace n old new).origin = Function.update (Function.update o.origin old.getName .gone)
      new.getName (o.origin old.getName) := by
  rw [replace, if_neg fun hc => hc.1 hn, if_neg fun hc => hc.2.1 ho, if_pos ⟨hn, ho, hne, h0, h1⟩]

/-- **The host files after a change of an entry** are from where the outlook says.

**Proof sketch.** By what the change does to the host. Different names have different host files, so
erasing, making or renaming the file of one name leaves the files of the other names, and their
origins. -/
lemma Foreseen.effect (hn : Named dk) (h : Foreseen dk₀ o dk) (hlegal : new.Used → new.LegalName)
    (heff : HostEffect old new dk dk') :
    (∀ k p, dk'.cpm2unix.lookup k = some p → Denotes dk.path p k) ∧
      ∀ k p c, dk'.cpm2unix.lookup k = some p → dk'.host.contents (normal p) = some c →
        ((o.replace n old new).origin k = .made ∧ c = []) ∨
          ∃ k₀ p₀, (o.replace n old new).origin k = .before k₀ ∧
            dk₀.cpm2unix.lookup k₀ = some p₀ ∧ dk₀.host.contents (normal p₀) = some c := by
  cases heff with
  | skip hskip same =>
    subst same
    rw [Outlook.origin_skip hskip]
    exact ⟨hn.denotes, h.files⟩
  | delete q hnu ho h0 hq names files =>
    rw [Outlook.origin_delete hnu ho h0]
    have hlook : ∀ k p, dk'.cpm2unix.lookup k = some p →
        k ≠ old.getName ∧ dk.cpm2unix.lookup k = some p := by
      intro k p hk
      rw [names] at hk
      exact lookup_of_erase hk
    refine ⟨fun k p hk => hn.denotes k p (hlook k p hk).2, fun k p c hk hc => ?_⟩
    obtain ⟨hne, hk⟩ := hlook k p hk
    rw [Function.update_of_ne hne]
    rw [files, Function.update_of_ne fun hpq => hne (hn.eq_of_path hk hq hpq)] at hc
    exact h.files k p c hk hc
  | create hnu ho h0 names files =>
    rw [Outlook.origin_create hnu ho h0]
    have hden := denotes_hostPath hn.path (hlegal hnu)
    have hlook : ∀ k p, dk'.cpm2unix.lookup k = some p →
        (k = new.getName ∧ p = hostPath dk.path new.getName) ∨
          (k ≠ new.getName ∧ dk.cpm2unix.lookup k = some p) := by
      intro k p hk
      rw [names] at hk
      exact lookup_of_insert hk
    refine ⟨fun k p hk => ?_, fun k p c hk hc => ?_⟩
    · rcases hlook k p hk with ⟨rfl, rfl⟩ | ⟨-, hk⟩
      · exact hden
      · exact hn.denotes k p hk
    · rw [files] at hc
      rcases hlook k p hk with ⟨rfl, rfl⟩ | ⟨hne, hk⟩
      · rw [Function.update_self, Option.some.injEq] at hc
        exact .inl ⟨Function.update_self .., hc.symm⟩
      · rw [Function.update_of_ne fun hpq => hne ((hn.denotes k p hk).inj hden hpq)] at hc
        rw [Function.update_of_ne hne]
        exact h.files k p c hk hc
  | rename q c₀ hnu ho hne h0 h1 hq hc₀ names files =>
    rw [Outlook.origin_rename hnu ho hne h0 h1]
    have hden := denotes_hostPath hn.path (hlegal hnu)
    have hlook : ∀ k p, dk'.cpm2unix.lookup k = some p →
        (k = new.getName ∧ p = hostPath dk.path new.getName) ∨
          (k ≠ new.getName ∧ k ≠ old.getName ∧ dk.cpm2unix.lookup k = some p) := by
      intro k p hk
      rw [names] at hk
      rcases lookup_of_insert hk with hnew | ⟨hk', hk⟩
      · exact .inl hnew
      · exact .inr ⟨hk', lookup_of_erase hk⟩
    refine ⟨fun k p hk => ?_, fun k p c hk hc => ?_⟩
    · rcases hlook k p hk with ⟨rfl, rfl⟩ | ⟨-, -, hk⟩
      · exact hden
      · exact hn.denotes k p hk
    · rw [files] at hc
      rcases hlook k p hk with ⟨rfl, rfl⟩ | ⟨hnew, hold, hk⟩
      · rw [Function.update_self, Option.some.injEq] at hc
        rw [Function.update_self, ← hc]
        exact h.files _ q c₀ hq hc₀
      · rw [Function.update_of_ne fun hpq => hnew ((hn.denotes k p hk).inj hden hpq),
          Function.update_of_ne fun hpq => hold (hn.eq_of_path hk hq hpq)] at hc
        rw [Function.update_of_ne hnew, Function.update_of_ne hold]
        exact h.files k p c hk hc

/-- **One entry of a directory sector** does what the outlook says. -/
lemma Foreseen.writeEntry (hn : Named dk) (h : Foreseen dk₀ o dk) (hat : dk.dir[n]? = some old)
    (hne : old.eq new = false) (hlegal : new.Used → new.LegalName)
    (hw : Disk.writeEntry n new dk = .ok () dk') :
    Named dk' ∧ Foreseen dk₀ (o.replace n old new) dk' := by
  rw [writeEntry_of_ne hat (by simp [hne]), Exc.bind_ok] at hw
  obtain ⟨⟨⟩, dk₁, h1, h2⟩ := hw
  cases h2
  have hs := static_hostChange old new dk
  rw [h1] at hs
  obtain ⟨hden, hfiles⟩ := Foreseen.effect (n := n) hn h hlegal (hostChange_effect h1).1
  have hpath : dk₁.path = dk.path := hs.path
  have hboot : dk₁.bootblock = dk.bootblock := hs.bootblock
  refine ⟨⟨fun hp => hn.path (hpath.symm.trans hp), ?_, fun k p hk => ?_⟩, ?_, hfiles⟩
  · exact hboot.trans (hn.boot.trans (by rw [hpath]))
  · exact hpath ▸ hden k p hk
  · exact congrArg (List.set · n new) ((hostChange_dir h1).trans h.dir)

/-- **The entries of a directory sector** do what the outlook says.

**Proof sketch.** Induction on the slots, with one step of the outlook for each of them. An entry
that compares equal changes neither the disk nor the outlook, and for another one the step is
`Foreseen.writeEntry`. -/
lemma Foreseen.entries {extno : ℕ} {dma : Sector} {idxs : List (Fin 4)} :
    ∀ {dk : Disk} {o : Outlook},
    (∀ idx ∈ idxs, (entryOf dma idx).Used → (entryOf dma idx).LegalName) → Named dk →
      Foreseen dk₀ o dk → writeEntries extno dma idxs dk = .ok () dk' →
        Named dk' ∧ Foreseen dk₀ (Outlook.entries extno dma idxs o) dk' := by
  induction idxs with
  | nil =>
    intro dk o _ hn h hw
    cases hw
    exact ⟨hn, h⟩
  | cons idx idxs ih =>
    intro dk o hlegal hn h hw
    rw [writeEntries, Exc.bind_ok] at hw
    obtain ⟨⟨⟩, dk₁, h1, h2⟩ := hw
    suffices hone : Named dk₁ ∧ Foreseen dk₀ (o.entry (extno + idx) (entryOf dma idx)) dk₁ from
      ih (fun i hi => hlegal i (by simp [hi])) hone.1 hone.2 h2
    rw [Outlook.entry, ← h.dir]
    cases hat : dk.dir[extno + idx.val]? with
    | none =>
      rw [writeEntry_of_none hat] at h1
      cases h1
    | some old =>
      by_cases heq : old.eq (entryOf dma idx) = true
      · rw [writeEntry_of_eq hat heq] at h1
        cases h1
        simp only [heq, if_true]
        exact ⟨hn, h⟩
      · simp only [heq]
        exact h.writeEntry hn hat (by simpa using heq) (hlegal idx (by simp)) h1

/-- **The outlook of a directory write** comes true when its entries are written. -/
lemma foreseen_outlook {m : ℕ} {dma : Sector} (hn : Named dk)
    (hlegal : ∀ idx : Fin 4, (entryOf dma idx).Used → (entryOf dma idx).LegalName)
    (hw : writeEntries (m <<< 2) dma [0, 1, 2, 3] dk = .ok () dk') :
    Named dk' ∧ Foreseen dk (dk.outlook m dma) dk' ∧ dk'.dpb = dk.dpb := by
  have hstart : Foreseen dk ⟨dk.dir, .before⟩ dk :=
    ⟨rfl, fun k p c hk hc => .inr ⟨k, p, rfl, hk, hc⟩⟩
  have hs := static_writeEntries (m <<< 2) dma [0, 1, 2, 3] dk
  rw [hw] at hs
  obtain ⟨hnamed, hfore⟩ := Foreseen.entries (fun idx _ => hlegal idx) hn hstart hw
  exact ⟨hnamed, hfore, hs.dpb⟩

/-- **The host files after the entries of a directory sector** are covered by the new directory, if
no record is taken away that a host file has. -/
lemma Foreseen.covered (h : Foreseen dk₀ o dk) (hs : Retained dk₀ o) : Covered dk := by
  intro k p c hk hc
  rw [h.dir]
  rcases h.files k p c hk hc with ⟨-, rfl⟩ | ⟨k₀, p₀, hk₀, hp₀, hc₀⟩
  · exact Nat.zero_le _
  · exact hs k k₀ p₀ c hk₀ hp₀ hc₀

/-! ## The ledger -/

/-- **A sector of the ledger is placed at the record it was written for**, so the cached sectors are
placed below the end of the records. -/
lemma Recorded.within {π : Pending} (hg : g.Regular) (hdpb : dk.dpb = g.dpb) (ht : π.Tracks dk)
    (h : Recorded dk.dpb π dk.dir) : Within dk := by
  intro sid hsid e he hl
  obtain ⟨w, hw⟩ := Option.isSome_iff_exists.mp (ht sid hsid)
  rw [placeOf, hdpb]
  rw [hdpb] at h hl
  obtain ⟨b, ho, hoff⟩ := fileOffset_of_lists hg hl
  obtain ⟨hname, hxh, hrec, hcount⟩ := h sid w hw e he b _ ho
  have hext : e.getExtNumber = e.logicalExtent := by
    rw [CpmDir.getExtNumber_of_xh_zero hxh, CpmDir.logicalExtent, hxh]
    simp
  rw [hoff, hext, hname]
  unfold CpmDir.recordAt at hrec
  unfold place
  omega

/-- **The ledger has every cached sector after a `Write`**: a data sector that is written is noted,
and one that is struck out was listed by the directory, so that `Flush` has not left it.

**Proof sketch.** By the area of the sector. `Flush` leaves in the cache what was there before it
and no entry lists; and its directory is the foreseen one. -/
lemma Pending.tracks_write {π : Pending} {track sector r : ℕ} {dma : Sector} {w : FileRecord}
    (hn : Named dk) (hlegal : ∀ m, dk.area track sector = some (.directory m) →
      ∀ idx : Fin 4, (entryOf dma idx).Used → (entryOf dma idx).LegalName)
    (h : π.Tracks dk) (hw : Disk.write track sector dma dk = .ok r dk') :
    (π.write dk track sector dma w).Tracks dk' := by
  rcases write_cases hw with ⟨harea, a, -, rfl⟩ | ⟨m, harea, hdir⟩ | ⟨sid, harea, -, rfl⟩
  · rw [Pending.write, harea]
    exact h
  · obtain ⟨dk₁, hentries, hflush, -⟩ := writeDir_ok hdir
    obtain ⟨hf, hsub, hquiet⟩ := quiet_of_flush hflush
    obtain ⟨-, hfore, hdpb⟩ := foreseen_outlook hn (hlegal m harea) hentries
    rw [Pending.write, harea]
    intro sid hsid
    have hno : ((dk.outlook m dma).dir.any fun e => decide (e.Lists dk.dpb sid)) = false := by
      rw [List.any_eq_false]
      intro e he hl
      rw [← hfore.dir, ← hf.dir] at he
      have hl' := of_decide_eq_true hl
      rw [← hdpb, ← hf.dpb] at hl'
      exact hquiet sid hsid e he hl'
    simp only [hno, Bool.false_eq_true, if_false]
    refine h sid ?_
    rw [← cache_writeEntries hentries]
    exact hsub sid hsid
  · rw [Pending.write, harea]
    intro s hs
    by_cases hsid : s = sid
    · rw [hsid]
      exact (congrArg Option.isSome (Function.update_self sid (some w) π)).trans rfl
    · have hold : s ∈ dk.cache := by
        rw [AList.mem_insert] at hs
        exact hs.resolve_left hsid
      exact (congrArg Option.isSome (Function.update_of_ne hsid (some w) π)).trans (h s hold)

/-! ## Every run -/

/-- **A `Write` keeps the invariant**, if a directory write meets the condition.

**Proof sketch.** By the area of the sector. The system file is none of the map. Behind a directory
write the files have the lengths of the outlook, and the flush writes inside the records that it
foresees (`Recorded.within`), so that no file grows beyond them. A data sector enters the cache
only. -/
lemma Sized.access_write {π : Pending} {track sector r : ℕ} {dma : Sector} (hg : g.Regular)
    (hdpb : dk.dpb = g.dpb) (h : Sized dk) (ht : π.Tracks dk)
    (hlegal : ∀ m, dk.area track sector = some (.directory m) →
      ∀ idx : Fin 4, (entryOf dma idx).Used → (entryOf dma idx).LegalName)
    (hcond : ∀ m, dk.area track sector = some (.directory m) →
      Recorded dk.dpb π (dk.outlook m dma).dir ∧ Retained dk (dk.outlook m dma))
    (hw : Disk.write track sector dma dk = .ok r dk') : Sized dk' := by
  rcases write_cases hw with ⟨-, a, hok, rfl⟩ | ⟨m, harea, hdir⟩ | ⟨sid, -, -, rfl⟩
  · obtain ⟨-, c₀, -, hfiles⟩ := Host.contents_write hok
    refine h.host fun k p c hk hc => ?_
    have hne := denotes_ne_cpmsys h.path (h.denotes k p hk)
    rw [← h.boot] at hne
    simp only at hc
    rw [hfiles, Function.update_of_ne hne] at hc
    exact h.covered k p c hk hc
  · obtain ⟨dk₁, hentries, hflush, -⟩ := writeDir_ok hdir
    obtain ⟨hrec, hretained⟩ := hcond m harea
    obtain ⟨hnamed, hfore, hdpb₁⟩ := foreseen_outlook h.toNamed (hlegal m harea) hentries
    have hwithin : Within dk₁ := by
      refine Recorded.within (π := π) hg (hdpb₁.trans hdpb) (fun sid hsid => ht sid ?_) ?_
      · rwa [← cache_writeEntries hentries]
      · rw [hdpb₁, hfore.dir]
        exact hrec
    rw [flush_apply, Exc.bind_ok] at hflush
    obtain ⟨⟨⟩, dk₂, hall, hret⟩ := hflush
    cases hret
    exact Sized.flushAll ⟨hnamed, hfore.covered hretained⟩ hwithin hall
  · exact ⟨⟨h.path, h.boot, h.denotes⟩, h.covered⟩

/-- The law along a run, from a state with the invariant.

**Proof sketch.** Induction on the accesses. A read changes no file. A write keeps the invariant
(`Sized.access_write`), which says that the files are covered by their entries. -/
lemma Sized.coveredAlong (hg : g.Regular) {as : List (Access × FileRecord)} : ∀ {dk : Disk}
    {π : Pending}, dk.dpb = g.dpb → Sized dk → π.Tracks dk → LegalAlong (as.map Prod.fst) dk →
      RecordedAlong as dk π → CoveredAlong (as.map Prod.fst) dk := by
  induction as with
  | nil => exact fun _ _ _ _ _ => trivial
  | cons a as ih =>
    intro dk π hdpb h ht hlegal hcond
    obtain ⟨a, w⟩ := a
    cases a with
    | read track sector dma =>
      intro r dk' hr
      obtain ⟨host, rfl, hnode⟩ := read_frame hr
      refine ih hdpb (h.host fun k p c hk hc => ?_) ht (hlegal r _ hr) (hcond r _ hr)
      rw [show ({ dk with host := host } : Disk).host.contents = dk.host.contents from
        Host.contents_congr hnode] at hc
      exact h.covered k p c hk hc
    | write track sector dma =>
      intro r dk' hw
      have hs := h.access_write hg hdpb ht hlegal.1 hcond.1 hw
      have hstatic := static_write track sector dma dk
      rw [hw] at hstatic
      exact ⟨fun _ => hs.covered, ih (hstatic.dpb.trans hdpb) hs
        (Pending.tracks_write h.toNamed hlegal.1 ht hw) (hlegal.2 r dk' hw) (hcond.2 r dk' hw)⟩

/-- **No host file is longer than its records.** A run starts on a drive directory without files, on
a disk of a shipped geometry, and each of its writes to a data sector is for a record of a file. If
at every directory write the new directory lists the sectors that were written, and were not listed
since, as the records they were written for and counts these records, and takes away no record that
a host file has, then after every directory write every host file of the name map has at most 128
bytes for each record of its name.

**Proof sketch.** Induction on the run. The ledger has every cached sector. An entry that is written
creates an empty file, removes one, or carries one over to another name; the host files of different
names are different, so nothing else changes. `Flush` writes cached sectors only, each at the record
it was written for, below the end of the records. -/
theorem lengths_covered {readdir : Bytes → Option (List Bytes)} {path : Bytes} {host : Host}
    {as : List (Access × FileRecord)} (hg : g.Shipped) (hpath : path ≠ [])
    (hslash : ∀ d ns, readdir d = some ns → ∀ n ∈ ns, slash ∉ n)
    (hempty : ∀ n c, host.contents n = some c → ¬ Inside (normal path) n)
    (hbuild : build readdir path g host = .ok () dk) (hlegal : LegalAlong (as.map Prod.fst) dk)
    (hcond : RecordedAlong as dk fun _ => none) : CoveredAlong (as.map Prod.fst) dk := by
  obtain ⟨hb, -⟩ := built_of_build hg.regular hbuild
  have hnames := names_of_empty hg.regular hpath hslash hempty hbuild
  have hno : ∀ k p, dk.cpm2unix.lookup k ≠ some p := fun k p hk => by
    rw [hnames k] at hk
    cases hk
  have hcache : dk.cache = ∅ := hb.frame.cache
  refine Sized.coveredAlong hg.regular hb.frame.shaped.dpb ⟨⟨?_, ?_, fun k p hk =>
    absurd hk (hno k p)⟩, fun k p c hk => absurd hk (hno k p)⟩ (fun sid hsid => ?_) hlegal hcond
  · rw [hb.frame.path]
    exact hpath
  · rw [hb.frame.bootblock, hb.frame.path]
    rfl
  · rw [hcache] at hsid
    exact absurd hsid (AList.notMem_empty _)

/-! ## Two runs -/

section Runs

variable {e f : CpmDir} {l : Ledger} {as : List Access} {track sector sid : ℕ} {dma : Sector}

/-- The directory sector with one entry. -/
def aloneSector (e : CpmDir) : Sector := dirSector fun idx => if idx = 0 then e else .empty

/-- The first two data sectors of the disks made from the empty 8-inch disk. -/
lemma area_block2 :
    fooStart.area 2 20 = some (.data 16) ∧ fooStart.area 2 26 = some (.data 17) := by
  rw [area, area, show fooStart.getAbsSector 2 20 = some 68 by decide,
    show fooStart.getAbsSector 2 26 = some 69 by decide]
  exact ⟨rfl, rfl⟩

/-- The foreseen directory when its first sector is written with one entry.

**Proof sketch.** The first entry is replaced. The other three of the sector are empty, as they are
in the directory, and are passed. -/
lemma dir_outlook_alone (hdir : dk.dir = alone e) (hne : e.eq f = false) :
    (dk.outlook 0 (aloneSector f)).dir = alone f := by
  have h0 : entryOf (aloneSector f) 0 = f := by rw [aloneSector, entryOf_dirSector, if_pos rfl]
  have hfirst : Outlook.entry 0 f ⟨dk.dir, .before⟩ = Outlook.replace 0 e f ⟨dk.dir, .before⟩ := by
    rw [Outlook.entry, hdir]
    exact if_neg (by simp [hne])
  have hreplace : (Outlook.replace 0 e f ⟨dk.dir, .before⟩).dir = alone f := by
    rw [Outlook.replace, hdir]
    rfl
  -- the other three entries are empty and stay so
  have hrest : ∀ (idx : Fin 4) (o : Outlook), idx ≠ 0 → o.dir = alone f →
      o.entry idx (entryOf (aloneSector f) idx) = o := by
    intro idx o hidx ho
    have hat : o.dir[idx.val]? = some .empty := by
      rw [ho]
      fin_cases idx
      · exact absurd rfl hidx
      · rfl
      · rfl
      · rfl
    rw [Outlook.entry, hat, aloneSector, entryOf_dirSector, if_neg hidx]
    exact if_pos (by decide)
  have hall : dk.outlook 0 (aloneSector f) =
      (((Outlook.entry 0 (entryOf (aloneSector f) 0) ⟨dk.dir, .before⟩).entry (1 : Fin 4)
        (entryOf (aloneSector f) 1)).entry (2 : Fin 4)
          (entryOf (aloneSector f) 2)).entry (3 : Fin 4) (entryOf (aloneSector f) 3) := rfl
  rw [hall, h0, hfirst, hrest 1 _ (by decide) hreplace, hrest 2 _ (by decide) hreplace,
    hrest 3 _ (by decide) hreplace, hreplace]

/-- The names of a directory sector with one entry. -/
lemma legal_aloneSector (he : e.Used → e.LegalName) (idx : Fin 4) :
    (entryOf (aloneSector e) idx).Used → (entryOf (aloneSector e) idx).LegalName := by
  rw [aloneSector, entryOf_dirSector]
  split
  · exact he
  · exact fun hu => absurd hu (by decide)

/-- Legal names along a run whose accesses write legal entries or data sectors. -/
lemma legalAlong_of_static : ∀ {as : List Access} {dk : Disk}, Static fooStart dk →
    (∀ a ∈ as, ∃ track sector dma, a = .write track sector dma ∧
      ((∃ sid, fooStart.area track sector = some (.data sid)) ∨
        ∀ idx : Fin 4, (entryOf dma idx).Used → (entryOf dma idx).LegalName)) →
    LegalAlong as dk := by
  intro as
  induction as with
  | nil => exact fun _ _ => trivial
  | cons a as ih =>
    intro dk hs has
    obtain ⟨track, sector, dma, rfl, hcase⟩ := has a (by simp)
    refine ⟨fun n hn => ?_, fun r dk' hw => ih ?_ fun b hb => has b (by simp [hb])⟩
    · rcases hcase with ⟨sid, hdata⟩ | hlegal
      · rw [hs.area, hdata] at hn
        cases hn
      · exact hlegal
    · have hw' := static_write track sector dma dk
      rw [hw] at hw'
      exact hs.trans hw'

/-- The entry of `FOO` has its first record in the first sector of block 2, and nothing else. -/
lemma owns_fooEntry {b s : ℕ} (h : Owns fooStart.dpb fooEntry b s 16) : b = 0 ∧ s = 0 := by
  have hzero : ∀ b < 16, b ≠ 0 → fooEntry.pointer 16 b = 0 := by decide +kernel
  have hb : b < 16 := h.index
  have hs : s < 8 := h.inBlock
  have hsector : 16 = fooEntry.pointer 16 b * 8 + s := h.sector
  have hb0 : b = 0 := by
    by_contra hne
    rw [hzero b hb hne] at hsector
    omega
  subst hb0
  rw [show fooEntry.pointer 16 0 = 2 by decide +kernel] at hsector
  exact ⟨rfl, by omega⟩

/-- The sector of `FOO` is listed as the record that it was written for, and counted. -/
lemma recorded_foo : Recorded fooStart.dpb
    (Function.update (fun _ => none) 16 (some ⟨fooEntry.getName, 0⟩)) (alone fooEntry) := by
  intro sid w hw e he b s ho
  have hsid : sid = 16 := by
    by_contra hne
    rw [Function.update_of_ne hne] at hw
    cases hw
  subst hsid
  rw [Function.update_self] at hw
  cases hw
  rcases List.mem_cons.mp he with rfl | he
  · obtain ⟨rfl, rfl⟩ := owns_fooEntry ho
    exact ⟨rfl, rfl, by decide +kernel, by decide +kernel⟩
  · rw [List.eq_of_mem_replicate he] at ho
    exact absurd ho.used (by decide)

/-- `FOO` is made and closed with one record, which is written before. -/
def fooNoted : List (Access × FileRecord) :=
  [(.write 2 20 fun _ => 7, ⟨fooEntry.getName, 0⟩), (.write 2 1 (aloneSector fooEntry), ⟨[], 0⟩)]

/-- The host file of `FOO` has one record after it was closed.

**Proof sketch.** The first access writes a data sector and the second one the entry of FOO, which
has one record and lists the block. No name is in the map before, so that no file has to be
retained. -/
theorem lengths_covered_foo : CoveredAlong (fooNoted.map Prod.fst) fooStart := by
  have hbuild : build (fun _ => some []) drivePath ibm8 emptyDrive = .ok () fooStart := by rfl
  obtain ⟨⟨r, hwritten⟩, -⟩ := step_fooWritten
  refine lengths_covered (.inl rfl) (by decide) (by simp) (fun n c hc => ?_) hbuild ?_ ?_
  · rw [contents_emptyDrive] at hc
    cases hc
  · refine legalAlong_of_static (Static.refl _) ?_
    simp only [fooNoted, List.map_cons, List.map_nil, List.forall_mem_cons]
    exact ⟨⟨_, _, _, rfl, .inl ⟨_, area_block2.1⟩⟩,
      ⟨_, _, _, rfl, .inr (legal_aloneSector fun _ => by decide +kernel)⟩, nofun⟩
  · refine ⟨fun n hn => ?_, fun r' dk' hw => ⟨fun n hn => ?_, fun _ _ _ => trivial⟩⟩
    · rw [area_block2.1] at hn
      cases hn
    · rw [hwritten] at hw
      cases hw
      rw [show fooWritten.area 2 1 = some (.directory 0) from
        area_foo ⟨rfl, rfl, rfl, rfl, rfl, rfl⟩] at hn
      cases hn
      have hdir : (fooWritten.outlook 0 (aloneSector fooEntry)).dir = alone fooEntry :=
        dir_outlook_alone rfl (by decide)
      rw [Pending.write, area_block2.1, hdir]
      refine ⟨recorded_foo, fun k k₀ p c _ hp => ?_⟩
      have hnone : fooWritten.cpm2unix.lookup k₀ = none := rfl
      rw [hnone] at hp
      cases hp

/-- The entry of a new file. -/
def newEntry (name : Bytes) : CpmDir :=
  { fooEntry with fx := fun i => name.getD i (ch ' '), rc := 0, al := fun _ => 0 }

/-- The entry of the new file `BAR`. -/
def barEntry : CpmDir := newEntry [ch 'B', ch 'A', ch 'R']

/-- The entry of the new file `FOO`. -/
def fooNew : CpmDir := newEntry [ch 'F', ch 'O', ch 'O']

/-- **A file that is deleted without being closed, and another one that gets its block**: `BAR` is
made, its second record is written to block 2, and it is erased; `FOO` is made. -/
def staleRun : List Access :=
  [.write 2 1 (aloneSector barEntry), .write 2 26 fun _ => 7,
    .write 2 1 (aloneSector { barEntry with st := CpmDir.UNUSED }),
    .write 2 1 (aloneSector fooNew)]

/-- `FOO` is closed, with one record. -/
def closeFoo : Access := .write 2 1 (aloneSector fooEntry)

/-- The disk after an access that returns. A run is a row of such accesses; one that ends without a
result has no disk behind it. -/
def returned (dk : Disk) : Access → Option Disk
  | .read track sector dma =>
    match read track sector dma dk with
    | .ok _ dk' => some dk'
    | .error _ _ => none
  | .write track sector dma =>
    match write track sector dma dk with
    | .ok _ dk' => some dk'
    | .error _ _ => none

/-- An access that returned. -/
lemma returned_cases {a : Access} (h : returned dk a = some dk') :
    (∃ track sector dma r, a = .read track sector dma ∧ read track sector dma dk = .ok r dk') ∨
      ∃ track sector dma r, a = .write track sector dma ∧
        write track sector dma dk = .ok r dk' := by
  cases a with
  | read track sector dma =>
    simp only [returned] at h
    split at h
    · rename_i r dk₁ hr
      cases h
      exact .inl ⟨track, sector, dma, r, rfl, hr⟩
    · cases h
  | write track sector dma =>
    simp only [returned] at h
    split at h
    · rename_i r dk₁ hw
      cases h
      exact .inr ⟨track, sector, dma, r, rfl, hw⟩
    · cases h

/-- A run keeps the tables. -/
lemma static_run (h : Runs.run returned dk as = some dk') : Static dk dk' := by
  refine Runs.run_induction (fun _ dk₁ => Static dk dk₁) (Static.refl dk) ?_ h
  intro _ dk₁ a dk₂ hs ha
  rcases returned_cases ha with ⟨track, sector, dma, r, -, hr⟩ | ⟨track, sector, dma, r, -, hw⟩
  · obtain ⟨host, rfl, -⟩ := read_frame hr
    exact hs.trans ⟨rfl, rfl, rfl, rfl, rfl, rfl⟩
  · have hs' := static_write track sector dma dk₁
    rw [hw] at hs'
    exact hs.trans hs'

/-- The law after the last directory write of a run. -/
lemma CoveredAlong.last {r : ℕ} {dk₁ : Disk} (h : CoveredAlong (as ++ [.write track sector dma]) dk)
    (hrun : Runs.run returned dk as = some dk₁)
    (harea : dk₁.area track sector = some (.directory n))
    (hw : Disk.write track sector dma dk₁ = .ok r dk') : Covered dk' := by
  induction as generalizing dk with
  | nil =>
    cases hrun
    exact (h r dk' hw).1 ⟨n, harea⟩
  | cons a as ih =>
    obtain ⟨dk₂, ha, hrest⟩ := Runs.run_cons hrun
    rcases returned_cases ha with ⟨t, s, d, r₁, rfl, hr⟩ | ⟨t, s, d, r₁, rfl, hr⟩
    · exact ih (h r₁ dk₂ hr) hrest
    · exact ih (h r₁ dk₂ hr).2 hrest

/-- **An 8-inch disk with one entry** in its directory, and no operation under way. -/
structure Alone (e : CpmDir) (dk : Disk) (l : Ledger) : Prop where
  static : Static fooStart dk
  dir : dk.dir = alone e
  ops : l.ops = []

/-- A data sector is written. -/
lemma Alone.keeps_data (h : Alone e dk l) (ha : fooStart.area track sector = some (.data sid))
    (hrest : ∀ l', Alone e { dk with cache := dk.cache.insert sid dma } l' →
      Keeps as { dk with cache := dk.cache.insert sid dma } l') :
    Keeps (.write track sector dma :: as) dk l := by
  have harea : dk.area track sector = some (.data sid) := by rw [h.static.area, ha]
  obtain ⟨habs, hdata⟩ := area_data harea
  refine ⟨_, _, ⟨⟨0, write_data habs hdata⟩, fun n hn => ?_, fun ev hev => ?_, rfl⟩,
    hrest _ ⟨?_, h.dir, ?_⟩⟩
  · rw [harea] at hn
    cases hn
  · simp at hev
  · exact h.static.trans ⟨rfl, rfl, rfl, rfl, rfl, rfl⟩
  · rw [Ledger.write, harea]
    exact h.ops

/-- The directory after its first sector was written with one entry.

**Proof sketch.** The first slot has the new entry, since it does not compare equal to the old one;
the other slots of the sector are empty and stay so, and those of other sectors are not written. -/
lemma dir_aloneSector {r : ℕ} (hdir : dk.dir = alone e) (hne : e.eq f = false)
    (h : writeDir 0 (aloneSector f) dk = .ok r dk') : dk'.dir = alone f := by
  obtain ⟨-, hother, hslots⟩ := dir_writeDir h
  rw [hdir] at hother hslots
  refine List.ext_getElem? fun m => ?_
  by_cases hm : m < 4
  · obtain ⟨old, hold, hnew⟩ := hslots ⟨m, hm⟩
    rw [aloneSector, entryOf_dirSector] at hnew
    simp only [Nat.zero_mul, Nat.zero_add] at hold hnew
    rw [hnew]
    cases m with
    | zero =>
      obtain rfl : e = old := Option.some.inj hold
      simp [kept, hne, alone]
    | succ i =>
      rw [alone, List.getElem?_cons_succ] at hold
      obtain rfl := List.eq_of_mem_replicate (List.mem_of_getElem? hold)
      rw [if_neg (by simp [Fin.ext_iff]), kept, ite_self, alone, List.getElem?_cons_succ, hold]
  · have hlarge : ∀ idx : Fin 4, 0 * 4 + idx.val ≠ m := fun idx => by omega
    rw [hother m hlarge]
    cases m with
    | zero => exact absurd (by decide : 0 < 4) hm
    | succ i => rfl

/-- The entry is made, grows, or is erased. -/
lemma Alone.keeps_directory (h : Alone e dk l) (hne : e.eq f = false)
    (hok : Exc.isOk (write 2 1 (aloneSector f) dk) = true)
    (hfine : (Exc.final (write 2 1 (aloneSector f) dk)).host.calls.all (·.ok) = true)
    (hops : unfinished (alone f) (opsOf (alone e) (alone f)) = [])
    (hdisc : Disciplined ibm8.dpb [] (alone e) (alone f))
    (hrest : ∀ l', Alone f (Exc.final (write 2 1 (aloneSector f) dk)) l' →
      Keeps as (Exc.final (write 2 1 (aloneSector f) dk)) l') :
    Keeps (.write 2 1 (aloneSector f) :: as) dk l := by
  obtain ⟨r, hw⟩ := Exc.ok_of_isOk hok
  have harea := area_foo h.static
  have hdir := dir_aloneSector h.dir hne ((write_directory harea).symm.trans hw)
  refine ⟨_, _, ⟨⟨r, hw⟩, fun _ _ => ?_, fun ev hev => ?_, rfl⟩, hrest _ ⟨?_, hdir, ?_⟩⟩
  · rw [h.static.dpb, h.ops, h.dir, hdir]
    exact hdisc
  · exact List.all_eq_true.mp hfine ev (List.mem_of_mem_drop hev)
  · exact h.static.trans (static_write 2 1 _ dk)
  · rw [Ledger.write, harea]
    simp only [Ledger.directory, h.ops, h.dir, hdir, List.nil_append]
    exact hops

/-- The run keeps the discipline. -/
lemma keeps_stale : Keeps (staleRun ++ [closeFoo]) fooStart Ledger.start := by
  have hstart : Alone CpmDir.empty fooStart Ledger.start := ⟨Static.refl _, rfl, rfl⟩
  refine hstart.keeps_directory (by decide) (by decide) (by decide)
    (by decide) (disciplined_alone (fun _ => by decide +kernel) (fun _ => by decide +kernel)
      fun hu => absurd hu (by decide)) fun l₁ h₁ => ?_
  refine h₁.keeps_data area_block2.2 fun l₂ h₂ => ?_
  refine h₂.keeps_directory (by decide) (by decide +kernel) (by decide +kernel)
    (by decide) (disciplined_alone (fun hu => absurd hu (by decide))
      (fun hu => absurd hu (by decide)) fun _ hu => absurd hu (by decide +kernel))
      fun l₃ h₃ => ?_
  refine h₃.keeps_directory (by decide +kernel) (by decide +kernel) (by decide +kernel)
    (by decide +kernel) (disciplined_alone (fun _ => by decide +kernel) (fun _ => by decide)
      fun hu => absurd hu (by decide +kernel)) fun l₄ h₄ => ?_
  exact h₄.keeps_directory (by decide +kernel) (by decide +kernel) (by decide +kernel)
    (by decide) (disciplined_alone (fun _ => by decide +kernel) (fun _ => by decide +kernel)
      fun _ _ => by decide) fun _ _ => trivial

/-- The names of the run are legal. -/
lemma legal_stale : LegalAlong (staleRun ++ [closeFoo]) fooStart := by
  refine legalAlong_of_static (Static.refl _) ?_
  simp only [staleRun, closeFoo, List.cons_append, List.nil_append, List.forall_mem_cons]
  refine ⟨⟨_, _, _, rfl, .inr (legal_aloneSector fun _ => by decide +kernel)⟩,
    ⟨_, _, _, rfl, .inl ⟨_, area_block2.2⟩⟩,
    ⟨_, _, _, rfl, .inr (legal_aloneSector fun hu => absurd hu (by decide))⟩,
    ⟨_, _, _, rfl, .inr (legal_aloneSector fun _ => by decide +kernel)⟩,
    ⟨_, _, _, rfl, .inr (legal_aloneSector fun _ => by decide +kernel)⟩, nofun⟩

/-- **A stale sector that is flushed.** The second record of `BAR` is still cached, and nothing else
is, when `FOO` is closed with one record and lists the block; the host file of `FOO` gets 256
bytes.

**Proof sketch.** Running the accesses gives a disk whose host file of `FOO` has 256 bytes while
its entry has one record, and the law asks for at most 128. -/
theorem stale_sector_flushed :
    build (fun _ => some []) drivePath ibm8 emptyDrive = .ok () fooStart ∧
      Keeps (staleRun ++ [closeFoo]) fooStart Ledger.start ∧
      LegalAlong (staleRun ++ [closeFoo]) fooStart ∧
      ¬ CoveredAlong (staleRun ++ [closeFoo]) fooStart := by
  refine ⟨rfl, keeps_stale, legal_stale, fun h => ?_⟩
  have hlast : ((Runs.run returned fooStart staleRun).any fun dk =>
      Exc.isOk (write 2 1 (aloneSector fooEntry) dk) &&
        ((Exc.final (write 2 1 (aloneSector fooEntry) dk)).cpm2unix.lookup fooEntry.getName).any
          fun p => decide (((Exc.final (write 2 1 (aloneSector fooEntry) dk)).host.contents
              (normal p)).map List.length = some 256 ∧
            recordCount (Exc.final (write 2 1 (aloneSector fooEntry) dk)).dir fooEntry.getName = 1))
      = true := by decide +kernel
  obtain ⟨dk, hrun, hlast⟩ := (Option.any_eq_true _ _).mp hlast
  obtain ⟨hret, hfile⟩ := Bool.and_eq_true_iff.mp hlast
  obtain ⟨r, hw⟩ := Exc.ok_of_isOk hret
  obtain ⟨p, hp, hlong⟩ := (Option.any_eq_true _ _).mp hfile
  obtain ⟨hlen, hcount⟩ := of_decide_eq_true hlong
  obtain ⟨c, hc, hlen⟩ := Option.map_eq_some_iff.mp hlen
  have hle := h.last hrun (area_foo (static_run hrun)) hw _ p c hp hc
  omega

end Runs

end Disk

end Cpm22
