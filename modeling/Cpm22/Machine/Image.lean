import Cpm22.Machine.Dma

set_option relaxedAutoImplicit false
set_option autoImplicit false

/-!
# A disk image as an array of sectors

`dskimage` keeps one stream open for the life of the drive, and each `Read` and `Write` seeks in
it. A `Read` that reaches over the end of the image sets `failbit`, which nothing clears, and every
later call fails. The position of a sector is computed in 32 bits, so that a sector number out of
range may name the position of another sector.

As an array the image has 128 bytes for each sector number `track * spt + sector`, counted from
one: those that were last written to it, and before that the initial ones, with zeros behind the
end of the initial image.

## Main definitions

* `Cpm22.DskImage.Call`, `Cpm22.DskImage.answers`, `Cpm22.DskImage.stateAfter` — calls on an image.
* `Cpm22.DskImage.lastWritten` — the array.
* `Cpm22.DskImage.ArrayLike` — what the calls are to do.
* `Cpm22.DskImage.Orderly` — no sector number is out of range, and no call follows a `Read` that
  reaches over the end of the image.

## Main results

* `Cpm22.DskImage.sectorAt_fileAfter` — the file holds the array.
* `Cpm22.DskImage.run_of_orderly` — the answers of an orderly run are those of the array.
* `Cpm22.DskImage.arrayLike_of_orderly` — an orderly run does what it is to do.
-/

namespace Cpm22

open HostPath HostFs

namespace DskImage

/-! ## Runs of calls -/

/-- **A call on a drive image**, with the sector buffer. -/
inductive Call
  | read (track sector : ℕ) (dma : Sector)
  | write (track sector : ℕ) (dma : Sector)

/-- The number of the sector that a call names, counted from one. -/
def Call.number (spt : ℕ) : Call → ℕ
  | .read track sector _ => track * spt + sector
  | .write track sector _ => track * spt + sector

/-- One call: the returned status, with the buffer after it. -/
def Call.run : Call → EStateM Fault DskImage (ℕ × Sector)
  | .read track sector dma => DskImage.read track sector dma
  | .write track sector dma => do
    let st ← DskImage.write track sector dma
    pure (st, dma)

/-- Calls one after the other. -/
def runCalls : List Call → EStateM Fault DskImage (List (ℕ × Sector))
  | [] => pure []
  | k :: calls => do
    let r ← k.run
    let rs ← runCalls calls
    pure (r :: rs)

/-- **The answers to the calls**, in order. -/
def answers (img : DskImage) (calls : List Call) : List (ℕ × Sector) :=
  match runCalls calls img with
  | .ok rs _ => rs
  | .error _ _ => []

/-- The image after the calls. -/
def stateAfter (img : DskImage) (calls : List Call) : DskImage := Exc.final (runCalls calls img)

/-- The bytes of the image file. -/
def contents (img : DskImage) : Bytes :=
  match img.host.find img.path with
  | some (.file content) => content
  | _ => []

/-! ## The array -/

/-- The bytes of a sector in a file, with zeros behind its end. -/
def sectorAt (content : Bytes) (n : ℕ) : Sector := fun i => content.getD (128 * (n - 1) + i) 0

/-- **The sector lies completely inside the image.** -/
def Inside (content : Bytes) (n : ℕ) : Prop := 0 < n ∧ 128 * n ≤ content.length

/-- **The bytes last written to a sector** by the calls, or its initial bytes. -/
def lastWritten (spt : ℕ) (content : Bytes) (n : ℕ) (calls : List Call) : Sector :=
  calls.foldl (fun old k =>
    match k with
    | .read _ _ _ => old
    | .write track sector dma => if track * spt + sector = n then dma else old) (sectorAt content n)

/-- **The image behaves as an array of sectors** in a run of calls, also after errors. Which sectors
are inside the image is decided by the file as it is before the call. -/
structure ArrayLike (img : DskImage) (calls : List Call) : Prop where
  /-- a `Read` of a sector inside the image delivers the bytes last written to it -/
  reads : ∀ k track sector dma, calls[k]? = some (.read track sector dma) →
    Inside (img.stateAfter (calls.take k)).contents (track * img.dpb.spt + sector) →
    (img.answers calls)[k]? = some (0, lastWritten img.dpb.spt img.contents
      (track * img.dpb.spt + sector) (calls.take k))
  /-- a `Write` leaves the other sectors inside the image as they are -/
  apart : ∀ k track sector dma, calls[k]? = some (.write track sector dma) →
    ∀ track' sector', 1 ≤ sector → sector ≤ img.dpb.spt → 1 ≤ sector' → sector' ≤ img.dpb.spt →
      (track, sector) ≠ (track', sector') →
      Inside (img.stateAfter (calls.take k)).contents (track' * img.dpb.spt + sector') →
      sectorAt (img.stateAfter (calls.take (k + 1))).contents (track' * img.dpb.spt + sector') =
        sectorAt (img.stateAfter (calls.take k)).contents (track' * img.dpb.spt + sector')
  /-- a call that failed could as well be left out -/
  errors : ∀ k r, (img.answers calls)[k]? = some r → r.1 ≠ 0 →
    img.answers (calls.eraseIdx k) = (img.answers calls).eraseIdx k

/-- **An orderly run**: every call names a sector number whose position is a 32-bit number, and a
`Read` that is followed by another call lies inside the image at that time. -/
structure Orderly (img : DskImage) (calls : List Call) : Prop where
  numbers : ∀ k ∈ calls, 0 < k.number img.dpb.spt ∧ k.number img.dpb.spt ≤ 2 ^ 25
  inside : ∀ k track sector dma, calls[k]? = some (.read track sector dma) → k + 1 < calls.length →
    Inside (img.stateAfter (calls.take k)).contents (track * img.dpb.spt + sector)

/-- The bytes of the file after calls that all succeed. -/
def fileAfter (spt : ℕ) (content : Bytes) (calls : List Call) : Bytes :=
  calls.foldl (fun old k =>
    match k with
    | .read _ _ _ => old
    | .write track sector dma =>
      HostFs.writeAt old (128 * (track * spt + sector - 1)) (Disk.bytes dma)) content

/-- The bytes of the file after some calls, then others. -/
lemma fileAfter_append (spt : ℕ) (content : Bytes) (calls calls' : List Call) :
    fileAfter spt content (calls ++ calls') = fileAfter spt (fileAfter spt content calls) calls' :=
  List.foldl_append

/-- A write to a sector of the file, seen at a sector number.

**Proof sketch.** The 128 bytes of one sector are written. A sector in front of it or behind it has
no byte in this range, and what is beyond the end of the file is 0 in both. -/
lemma sectorAt_writeAt (old : Bytes) {n m : ℕ} (hn : 0 < n) (hm : 0 < m) (dma : Sector) :
    sectorAt (HostFs.writeAt old (128 * (m - 1)) (Disk.bytes dma)) n =
      if m = n then dma else sectorAt old n := by
  have hlen : (Disk.bytes dma).length = 128 := List.length_ofFn
  funext i
  have hi := i.isLt
  rw [sectorAt, List.getD_eq_getElem?_getD, getElem?_writeAt, hlen]
  rcases Nat.lt_trichotomy m n with h | h | h
  · rw [if_neg (by omega), if_neg (by omega), if_neg (Nat.ne_of_lt h)]
    exact (List.getD_eq_getElem?_getD ..).symm
  · subst h
    rw [if_neg (by omega), if_pos (by omega), if_pos rfl, Nat.add_sub_cancel_left, Disk.bytes,
      List.getElem?_ofFn, dif_pos hi]
    rfl
  · rw [if_pos (show 128 * (n - 1) + i < 128 * (m - 1) by omega), if_neg (Nat.ne_of_gt h)]
    change _ = old.getD (128 * (n - 1) + i) 0
    rw [List.getD_eq_getElem?_getD]
    by_cases hold : 128 * (n - 1) + i < old.length
    · rw [if_pos hold]
    · rw [if_neg hold, List.getElem?_eq_none (by omega)]
      rfl

/-- **The file holds the array.** -/
lemma sectorAt_fileAfter (spt : ℕ) (content : Bytes) {n : ℕ} (hn : 0 < n) (calls : List Call)
    (hpos : ∀ k ∈ calls, 0 < k.number spt) :
    sectorAt (fileAfter spt content calls) n = lastWritten spt content n calls := by
  induction calls using List.reverseRecOn with
  | nil => rfl
  | append_singleton calls k ih =>
    have ih := ih fun k' hk' => hpos k' (List.mem_append_left _ hk')
    have hk := hpos k (by simp)
    rw [fileAfter, lastWritten, List.foldl_append, List.foldl_append]
    cases k with
    | read track sector dma => exact ih
    | write track sector dma =>
      have hm : 0 < track * spt + sector := hk
      change sectorAt (HostFs.writeAt (fileAfter spt content calls) _ _) n =
        if track * spt + sector = n then dma else lastWritten spt content n calls
      rw [sectorAt_writeAt _ hn hm, ih]

/-! ## Splitting runs -/

variable {img : DskImage} {content : Bytes}

/-- A call always returns. -/
lemma Call.run_ok (k : Call) (img : DskImage) : ∃ r img', k.run img = .ok r img' := by
  cases k with
  | read track sector dma =>
    simp only [Call.run, DskImage.read, DskImage.readAt]
    split
    · exact ⟨_, _, rfl⟩
    · exact ⟨_, _, rfl⟩
  | write track sector dma =>
    simp only [Call.run, Exc.bind_apply, DskImage.write, DskImage.writeAt]
    by_cases h : img.good = true
    · rw [if_pos h]
      exact ⟨_, _, rfl⟩
    · rw [if_neg h]
      exact ⟨_, _, rfl⟩

/-- Calls always return, with one answer each. -/
lemma runCalls_ok (calls : List Call) (img : DskImage) :
    runCalls calls img = .ok (img.answers calls) (img.stateAfter calls) ∧
      (img.answers calls).length = calls.length := by
  suffices h : ∃ rs img', runCalls calls img = .ok rs img' ∧ rs.length = calls.length by
    obtain ⟨rs, img', hrun, hlen⟩ := h
    unfold answers stateAfter
    rw [hrun]
    exact ⟨rfl, hlen⟩
  induction calls generalizing img with
  | nil => exact ⟨[], img, rfl, rfl⟩
  | cons k calls ih =>
    obtain ⟨r, img₁, hk⟩ := k.run_ok img
    obtain ⟨rs, img₂, hrest, hlen⟩ := ih img₁
    refine ⟨r :: rs, img₂, ?_, by simp [hlen]⟩
    rw [runCalls, Exc.bind_of_ok hk, Exc.bind_of_ok hrest]
    rfl

/-- The first call, then the others. -/
lemma run_cons {k : Call} {r : ℕ × Sector} {img' : DskImage} (h : k.run img = .ok r img')
    (calls : List Call) : img.answers (k :: calls) = r :: img'.answers calls ∧
      img.stateAfter (k :: calls) = img'.stateAfter calls := by
  have hrun : runCalls (k :: calls) img =
      .ok (r :: img'.answers calls) (img'.stateAfter calls) := by
    rw [runCalls, Exc.bind_of_ok h, Exc.bind_of_ok (runCalls_ok calls img').1]
    rfl
  have hanswers : img.answers (k :: calls) = r :: img'.answers calls := by rw [answers, hrun]
  refine ⟨hanswers, ?_⟩
  rw [stateAfter, hrun]
  rfl

/-- Some calls, then others. -/
lemma run_append (calls calls' : List Call) (img : DskImage) :
    img.answers (calls ++ calls') =
        img.answers calls ++ (img.stateAfter calls).answers calls' ∧
      img.stateAfter (calls ++ calls') = (img.stateAfter calls).stateAfter calls' := by
  induction calls generalizing img with
  | nil => exact ⟨rfl, rfl⟩
  | cons k calls ih =>
    obtain ⟨r, img', hk⟩ := k.run_ok img
    obtain ⟨ha, hs⟩ := run_cons hk (calls ++ calls')
    obtain ⟨ha', hs'⟩ := run_cons hk calls
    rw [List.cons_append, ha, hs, ha', hs', (ih img').1, (ih img').2]
    exact ⟨rfl, rfl⟩

/-- **The call at an index**: it is answered in the state that the calls before it leave. -/
lemma answer_at {calls : List Call} {j : ℕ} {k : Call} (hk : calls[j]? = some k)
    {r : ℕ × Sector} {img' : DskImage}
    (hrun : k.run (img.stateAfter (calls.take j)) = .ok r img') :
    (img.answers calls)[j]? = some r ∧ img.stateAfter (calls.take (j + 1)) = img' := by
  obtain ⟨hlt, hget⟩ := List.getElem?_eq_some_iff.mp hk
  have hsplit : calls = calls.take j ++ k :: calls.drop (j + 1) := by
    rw [← hget, ← List.drop_eq_getElem_cons hlt, List.take_append_drop]
  have htake : calls.take (j + 1) = calls.take j ++ [k] := by
    rw [List.take_add_one, hk]
    rfl
  constructor
  · have hlen := (runCalls_ok (calls.take j) img).2
    rw [List.length_take, Nat.min_eq_left hlt.le] at hlen
    have hanswers := (run_append (calls.take j) (k :: calls.drop (j + 1)) img).1
    rw [← hsplit, (run_cons hrun _).1] at hanswers
    rw [hanswers, List.getElem?_append_right hlen.le, hlen, Nat.sub_self]
    rfl
  · rw [htake, (run_append _ _ _).2, (run_cons hrun []).2]
    rfl

/-! ## Orderly runs -/

/-- The stream is good, and the file has these bytes. -/
structure Ready (img : DskImage) (spt : ℕ) (content : Bytes) : Prop where
  good : img.good = true
  spt : img.dpb.spt = spt
  file : img.host.find img.path = some (.file content)
  works : img.host.Works

/-- The bytes of the file. -/
lemma Ready.contents {spt : ℕ} (h : Ready img spt content) : img.contents = content := by
  rw [DskImage.contents, h.file]

/-- The position of a sector number in range. -/
lemma offset_eq (img : DskImage) {track sector : ℕ} (hpos : 0 < track * img.dpb.spt + sector)
    (hle : track * img.dpb.spt + sector ≤ 2 ^ 25) :
    img.offset track sector = 128 * (track * img.dpb.spt + sector - 1) := by
  unfold offset
  generalize track * img.dpb.spt + sector = n at hpos hle
  omega

/-- A `Read` inside the image.

**Proof sketch.** The number of the sector is computed without an overflow, and the file has 128
bytes at its place, which replace the whole buffer. -/
lemma Ready.read {spt : ℕ} (h : Ready img spt content) (track sector : ℕ) (dma : Sector)
    (hin : Inside content (track * spt + sector)) (hle : track * spt + sector ≤ 2 ^ 25) :
    ∃ img', DskImage.read track sector dma img =
      .ok (0, sectorAt content (track * spt + sector)) img' ∧ Ready img' spt content := by
  obtain rfl := h.spt
  set n := track * img.dpb.spt + sector with hn
  obtain ⟨hpos, hlen⟩ := hin
  have hoff : img.offset track sector = 128 * (n - 1) := offset_eq img hpos hle
  have hbs : ((content.drop (128 * (n - 1))).take 128).length = 128 := by
    rw [List.length_take, List.length_drop]
    omega
  have hoverlay : Disk.overlay dma ((content.drop (128 * (n - 1))).take 128) =
      sectorAt content n := by
    funext i
    have hi := i.isLt
    rw [Disk.overlay, sectorAt, List.getD_eq_getElem _ _ (by omega),
      List.getD_eq_getElem _ _ (by omega)]
    simp
  rw [DskImage.read, hoff, DskImage.readAt, if_pos h.good, Host.read_of_works h.works h.file]
  simp only [Option.getD_some, hbs, hoverlay, if_true, decide_true]
  exact ⟨_, rfl, rfl, rfl, h.file, h.works⟩

/-- A `Write` to a sector number in range. -/
lemma Ready.write {spt : ℕ} (h : Ready img spt content) (track sector : ℕ) (dma : Sector)
    (hpos : 0 < track * spt + sector) (hle : track * spt + sector ≤ 2 ^ 25) :
    ∃ img', (Call.write track sector dma).run img = .ok (0, dma) img' ∧
      Ready img' spt (HostFs.writeAt content (128 * (track * spt + sector - 1))
        (Disk.bytes dma)) := by
  obtain rfl := h.spt
  have hpath : img.path ≠ [] := by
    intro hnil
    have hfile := h.file
    rw [Host.find, if_pos hnil] at hfile
    cases hfile
  rw [Call.run, Exc.bind_apply, DskImage.write, offset_eq img hpos hle, DskImage.writeAt,
    if_pos h.good, Host.write, Host.writeEffect, h.file, Host.attempt_of_works h.works]
  refine ⟨_, rfl, rfl, rfl, ?_, h.works⟩
  simp only [Host.find, if_neg hpath, Function.update_self]

/-- **One call of an orderly run.** -/
lemma Ready.call {spt : ℕ} (h : Ready img spt content) (k : Call) (hpos : 0 < k.number spt)
    (hle : k.number spt ≤ 2 ^ 25)
    (hin : ∀ track sector dma, k = .read track sector dma →
      Inside content (track * spt + sector)) :
    ∃ r img', k.run img = .ok r img' ∧ r.1 = 0 ∧ Ready img' spt (fileAfter spt content [k]) := by
  cases k with
  | read track sector dma =>
    obtain ⟨img', hrun, hready⟩ := h.read track sector dma (hin _ _ _ rfl) hle
    exact ⟨_, img', hrun, rfl, hready⟩
  | write track sector dma =>
    obtain ⟨img', hrun, hready⟩ := h.write track sector dma hpos hle
    exact ⟨_, img', hrun, rfl, hready⟩

section Runs

variable {calls : List Call} (ho : Orderly img calls)
include ho

/-- A call of an orderly run that is not the last one, in the state before it. -/
lemma call_of_ready {j : ℕ} (hj : j + 1 < calls.length)
    (hready : Ready (img.stateAfter (calls.take j)) img.dpb.spt
      (fileAfter img.dpb.spt content (calls.take j))) :
    ∃ r, (img.answers calls)[j]? = some r ∧ r.1 = 0 ∧
      Ready (img.stateAfter (calls.take (j + 1))) img.dpb.spt
        (fileAfter img.dpb.spt content (calls.take (j + 1))) := by
  have hk : calls[j]? = some calls[j] := List.getElem?_eq_getElem (by omega)
  obtain ⟨hpos, hle⟩ := ho.numbers calls[j] (List.getElem_mem _)
  obtain ⟨r, img', hrun, hzero, hready'⟩ := hready.call calls[j] hpos hle (by
    intro track sector dma hread
    rw [← hready.contents]
    exact ho.inside j track sector dma (hread ▸ hk) hj)
  obtain ⟨hanswer, hstate⟩ := answer_at hk hrun
  refine ⟨r, hanswer, hzero, ?_⟩
  rw [hstate, List.take_add_one, hk, fileAfter_append]
  exact hready'

variable (h : Ready img img.dpb.spt content)
include h

/-- **The state before a call of an orderly run**: the stream is good, and the file holds what the
calls so far make of it.

**Proof sketch.** Induction on the number of calls so far. The call before is not the last one, so
that it lies inside the image if it is a `Read`. -/
lemma ready_take {j : ℕ} (hj : j < calls.length) :
    Ready (img.stateAfter (calls.take j)) img.dpb.spt
      (fileAfter img.dpb.spt content (calls.take j)) := by
  induction j with
  | zero => exact h
  | succ j ih =>
    obtain ⟨r, -, -, hready⟩ := call_of_ready ho hj (ih (by omega))
    exact hready

/-- A call that fails is the last one of an orderly run. -/
lemma length_of_fails {j : ℕ} {r : ℕ × Sector} (hr : (img.answers calls)[j]? = some r)
    (hne : r.1 ≠ 0) : calls.length = j + 1 := by
  have hlen := (runCalls_ok calls img).2
  obtain ⟨hlt, -⟩ := List.getElem?_eq_some_iff.mp hr
  by_contra hcon
  obtain ⟨r', hr', hzero, -⟩ :=
    call_of_ready ho (show j + 1 < calls.length by omega) (ready_take ho h (by omega))
  obtain rfl : r = r' := by simpa [hr] using hr'
  exact hne hzero

end Runs

/-- Different tracks and sectors have different numbers. -/
lemma number_inj {spt track sector track' sector' : ℕ} (h1 : 1 ≤ sector) (h2 : sector ≤ spt)
    (h1' : 1 ≤ sector') (h2' : sector' ≤ spt)
    (h : track * spt + sector = track' * spt + sector') : (track, sector) = (track', sector') := by
  rcases Nat.lt_trichotomy track track' with hlt | rfl | hlt
  · have hmul := Nat.mul_le_mul_right spt (Nat.succ_le_of_lt hlt)
    rw [Nat.succ_mul] at hmul
    omega
  · obtain rfl : sector = sector' := by omega
    rfl
  · have hmul := Nat.mul_le_mul_right spt (Nat.succ_le_of_lt hlt)
    rw [Nat.succ_mul] at hmul
    omega

/-- **A disk image behaves as an array of sectors in every orderly run**, from an image file of any
contents, with any number of sectors on a track.

**Proof sketch.** Before each call the stream is good and the file holds the array
(`DskImage.ready_take`, `DskImage.sectorAt_fileAfter`), so a `Read` inside the image delivers the
array. Different tracks and sectors have different numbers, so a `Write` leaves the other sectors.
Only the last call can fail, and leaving it out leaves the answers before it. -/
theorem arrayLike_of_orderly (img : DskImage) (content : Bytes)
    (h : Ready img img.dpb.spt content) (calls : List Call) (ho : Orderly img calls) :
    ArrayLike img calls := by
  refine ⟨?_, ?_, ?_⟩
  · intro j track sector dma hk hin
    obtain ⟨hlt, -⟩ := List.getElem?_eq_some_iff.mp hk
    have hready := ready_take ho h hlt
    have hle := (ho.numbers _ (List.mem_of_getElem? hk)).2
    rw [hready.contents] at hin
    obtain ⟨img', hrun, -⟩ := hready.read track sector dma hin hle
    obtain ⟨hanswer, -⟩ := answer_at hk hrun
    rw [hanswer, h.contents, sectorAt_fileAfter _ _ hin.1]
    exact fun k hk => (ho.numbers k (List.mem_of_mem_take hk)).1
  · intro j track sector dma hk track' sector' h1 h2 h1' h2' hne hin
    obtain ⟨hlt, -⟩ := List.getElem?_eq_some_iff.mp hk
    have hready := ready_take ho h hlt
    obtain ⟨hpos, hle⟩ := ho.numbers _ (List.mem_of_getElem? hk)
    have hpos' : 0 < track * img.dpb.spt + sector := hpos
    obtain ⟨img', hrun, hready'⟩ := hready.write track sector dma hpos hle
    obtain ⟨-, hstate⟩ := answer_at hk hrun
    have hnumber : track * img.dpb.spt + sector ≠ track' * img.dpb.spt + sector' :=
      fun heq => hne (number_inj h1 h2 h1' h2' heq)
    rw [hstate, hready'.contents, hready.contents, sectorAt_writeAt _ hin.1 hpos',
      if_neg hnumber]
  · intro j r hr hne
    have hlast := length_of_fails ho h hr hne
    have hlen := (runCalls_ok calls img).2
    have hanswers := (run_append (calls.take j) (calls.drop j) img).1
    rw [List.take_append_drop] at hanswers
    have hbefore : (img.answers (calls.take j)).length = j := by
      rw [(runCalls_ok _ _).2, List.length_take, hlast]
      omega
    have hcut : (img.answers calls).take j = img.answers (calls.take j) := by
      rw [hanswers, List.take_left' hbefore]
    rw [List.eraseIdx_eq_take_drop_succ, List.eraseIdx_eq_take_drop_succ, hcut,
      List.drop_eq_nil_of_le hlast.le, List.drop_eq_nil_of_le (by omega), List.append_nil,
      List.append_nil]

/-! ## Behind a failure -/

/-- The buffer of a call. -/
def Call.dma : Call → Sector
  | .read _ _ dma => dma
  | .write _ _ dma => dma

/-- **After a failure every call fails**, and the image stays as it is. -/
lemma answers_of_failed (h : img.good = false) (calls : List Call) :
    img.answers calls = calls.map fun k => (1, k.dma) := by
  have hgood : ¬ img.good = true := by simp [h]
  have hcall : ∀ k : Call, k.run img = .ok (1, k.dma) img := by
    intro k
    cases k with
    | read track sector dma => exact if_neg hgood
    | write track sector dma =>
      have hwrite : DskImage.write track sector dma img = .ok 1 img := if_neg hgood
      rw [Call.run, Exc.bind_of_ok hwrite]
      rfl
  induction calls with
  | nil => rfl
  | cons k calls ih => rw [(run_cons (hcall k) calls).1, ih, List.map_cons]

/-- Fewer than 128 bytes are left from the position on: the stream fails. -/
lemma Ready.readAt_short {spt pos : ℕ} (h : Ready img spt content)
    (hend : content.length < pos + 128) (dma : Sector) :
    ∃ r img', DskImage.readAt pos dma img = .ok (1, r) img' ∧ img'.good = false ∧
      img'.contents = content := by
  have hbs : ((content.drop pos).take 128).length ≠ 128 := by
    rw [List.length_take, List.length_drop]
    omega
  have hcontents := h.contents
  rw [DskImage.readAt, if_pos h.good, Host.read_of_works h.works h.file]
  simp only [Option.getD_some, hbs, if_false, decide_false]
  exact ⟨_, _, rfl, rfl, hcontents⟩

/-- **A `Read` that reaches over the end of the image fails, and so does every call after it.** -/
lemma answers_over_end {spt : ℕ} (h : Ready img spt content) (track sector : ℕ) (dma : Sector)
    (hpos : 0 < track * spt + sector) (hle : track * spt + sector ≤ 2 ^ 25)
    (hend : content.length < 128 * (track * spt + sector)) (calls : List Call) :
    (∃ r, img.answers (.read track sector dma :: calls) =
      (1, r) :: calls.map fun k => (1, k.dma)) ∧
    (img.stateAfter [.read track sector dma]).contents = content := by
  obtain rfl := h.spt
  obtain ⟨r, img', hrun, hgood, hcontents⟩ := h.readAt_short
    (show content.length < 128 * (track * img.dpb.spt + sector - 1) + 128 by omega) dma
  have hread : (Call.read track sector dma).run img = .ok (1, r) img' := by
    rw [Call.run, DskImage.read, offset_eq img hpos hle, hrun]
  refine ⟨⟨r, ?_⟩, ?_⟩
  · rw [(run_cons hread calls).1, answers_of_failed hgood]
  · rw [(run_cons hread []).2]
    exact hcontents

/-- The image file of one sector. -/
lemma ready_sectorImage : Ready Cpu.sectorImage 26 (List.replicate 128 1) :=
  ⟨rfl, rfl, rfl, fun _ => rfl⟩

/-- The second sector is written and read back, and then a sector behind the end is read. -/
def writtenAndRead : List Call :=
  [.write 0 2 fun _ => 7, .read 0 2 fun _ => 0, .read 0 9 fun _ => 0]

/-- That run is orderly. -/
theorem arrayLike_sectorImage : ArrayLike Cpu.sectorImage writtenAndRead := by
  refine arrayLike_of_orderly Cpu.sectorImage _ ready_sectorImage _ ⟨?_, ?_⟩
  · simp [writtenAndRead, Call.number]
  · obtain ⟨img', hrun, hready⟩ :=
      ready_sectorImage.write 0 2 (fun _ => 7) (by decide) (by decide)
    intro j track sector dma hk hj
    have hlen : writtenAndRead.length = 3 := rfl
    obtain rfl : j = 1 := by
      rcases j with _ | _ | j
      · cases hk
      · rfl
      · omega
    obtain ⟨rfl, rfl, -⟩ : 0 = track ∧ 2 = sector ∧ (fun _ => 0) = dma := by
      simpa [writtenAndRead] using hk
    have hstate : Cpu.sectorImage.stateAfter (writtenAndRead.take 1) = img' :=
      (run_cons hrun []).2
    rw [hstate, hready.contents]
    refine ⟨by decide, ?_⟩
    rw [length_writeAt, Disk.bytes, List.length_ofFn, List.length_replicate]
    decide

/-- A `Read` behind the end spoils the `Read` of a sector that the image has. -/
theorem not_arrayLike_sectorImage :
    Ready Cpu.sectorImage Cpu.sectorImage.dpb.spt (List.replicate 128 1) ∧
      ¬ ArrayLike Cpu.sectorImage [.read 0 2 fun _ => 0, .read 0 1 fun _ => 0] := by
  refine ⟨ready_sectorImage, ?_⟩
  intro h
  obtain ⟨⟨r, hanswers⟩, hcontents⟩ := answers_over_end ready_sectorImage 0 2 (fun _ => 0)
    (by decide) (by decide) (by rw [List.length_replicate]; decide) [.read 0 1 fun _ => 0]
  have hread := h.reads 1 0 1 (fun _ => 0) rfl ?_
  · rw [hanswers] at hread
    cases hread
  · change Inside (Cpu.sectorImage.stateAfter [.read 0 2 fun _ => 0]).contents 1
    rw [hcontents]
    exact ⟨by decide, by rw [List.length_replicate]⟩

end DskImage

end Cpm22
