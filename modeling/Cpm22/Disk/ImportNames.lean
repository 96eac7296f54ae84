import Cpm22.Disk.Listing

set_option relaxedAutoImplicit false
set_option autoImplicit false

/-!
# The names of imported files

Whether the names that `readhost` makes of host names are names for the BDOS. The scanner stops at
the characters of `noname`, and copies every other one in upper case: control characters and bytes
with bit 7 set as well. `addfile` takes two names as different if any byte differs, but the BDOS
does not look at bit 7.

## Main definitions

* `Cpm22.CpmDir.ValidName` — a CP/M name.
* `Cpm22.CpmDir.SameName` — the comparison of names in the BDOS.
* `Cpm22.scanned` — the characters of a host name that the scanner copies.
* `Cpm22.Disk.NamesForBdos` — the names of a directory are CP/M names, and different for the BDOS.

## Main results

* `Cpm22.validName_iff` — when a scanned name is a CP/M name.
* `Cpm22.Disk.import_names_iff` — when the names of an import are names for the BDOS.
-/

namespace Cpm22

open HostPath HostFs

/-! ## CP/M names -/

/-- A character of a CP/M name: upper-case, printable and none of `< > . , ; : = ? * [ ]`. -/
def nameChar (c : UInt8) : Bool :=
  0x21 ≤ c && c ≤ 0x7e && !(noname.contains c) && !(0x61 ≤ c && c ≤ 0x7a)

/-- A field of a CP/M name: characters of a name, then blanks. -/
def NameField (l : Bytes) : Prop := ∀ c ∈ l.dropWhile nameChar, c = ch ' '

/-- **A CP/M name**: the base is not empty, base and extension are padded with blanks. -/
def CpmDir.ValidName (e : CpmDir) : Prop :=
  NameField (List.ofFn e.fx) ∧ NameField (List.ofFn e.ex) ∧ nameChar (e.fx 0) = true

/-- The comparison of two characters in `FNDNXT2`: subtract and mask bit 7. -/
def bdosEq (a b : UInt8) : Bool := (a - b) &&& 0x7f == 0

/-- **The comparison of two names in the BDOS.** -/
def CpmDir.SameName (e f : CpmDir) : Prop :=
  (∀ i, bdosEq (e.fx i) (f.fx i) = true) ∧ ∀ i, bdosEq (e.ex i) (f.ex i) = true

/-- A character of a name or a blank has seven bits. -/
lemma lt_of_nameChar {c : UInt8} (h : nameChar c = true ∨ c = ch ' ') : c.toNat < 128 := by
  rcases h with h | rfl
  · simp only [nameChar, Bool.and_eq_true, decide_eq_true_eq] at h
    have : c.toNat ≤ 0x7e := h.1.1.2
    omega
  · decide

/-- **For characters of seven bits the comparison is equality.** -/
lemma eq_of_bdosEq {a b : UInt8} (ha : a.toNat < 128) (hb : b.toNat < 128)
    (h : bdosEq a b = true) : a = b := by
  have hand : (a - b).toNat &&& 0x7f = 0 := by
    have := congrArg UInt8.toNat (eq_of_beq h)
    simpa [UInt8.toNat_and] using this
  rw [show (0x7f : ℕ) = 2 ^ 7 - 1 from rfl, Nat.and_two_pow_sub_one_eq_mod, UInt8.toNat_sub] at hand
  rw [← UInt8.toNat_inj]
  omega

/-- The characters of a field have seven bits. -/
lemma NameField.lt {l : Bytes} (h : NameField l) : ∀ c ∈ l, c.toNat < 128 := by
  intro c hc
  rw [← List.takeWhile_append_dropWhile (p := nameChar) (l := l), List.mem_append] at hc
  rcases hc with hc | hc
  · exact lt_of_nameChar (.inl (List.mem_takeWhile_imp hc))
  · exact lt_of_nameChar (.inr (h c hc))

/-- **Two CP/M names that are the same for the BDOS are equal.** -/
lemma CpmDir.SameName.eq {e f : CpmDir} (h : e.SameName f) (he : e.ValidName) (hf : f.ValidName) :
    e.fx = f.fx ∧ e.ex = f.ex := by
  constructor
  · funext i
    exact eq_of_bdosEq (he.1.lt _ (List.mem_ofFn.mpr ⟨i, rfl⟩))
      (hf.1.lt _ (List.mem_ofFn.mpr ⟨i, rfl⟩)) (h.1 i)
  · funext i
    exact eq_of_bdosEq (he.2.1.lt _ (List.mem_ofFn.mpr ⟨i, rfl⟩))
      (hf.2.1.lt _ (List.mem_ofFn.mpr ⟨i, rfl⟩)) (h.2 i)

/-! ## Scanned names -/

/-- A printable character of seven bits. -/
def printable (c : UInt8) : Bool := 0x21 ≤ c && c ≤ 0x7e

/-- The characters of the base that the scanner copies. -/
def scannedBase (n : Bytes) : Bytes := (n.takeWhile copied).take 8

/-- The characters of the extension that the scanner copies. -/
def scannedExt (n : Bytes) : Bytes :=
  match (n.drop (scannedBase n).length).dropWhile fun c => c != 0 && c != ch '.' with
  | [] => []
  | c :: ext => if c = ch '.' then (ext.takeWhile copied).take 3 else []

/-- **The characters of a host name that the scanner copies.** -/
def scanned (n : Bytes) : Bytes := scannedBase n ++ scannedExt n

/-- **What the scanner makes of the characters that it copies.** -/
lemma cpmName_scanned {n s : Bytes} (h : cpmName n = some s) : scannedBase n ≠ [] ∧
    ∃ sep, s = padded 8 (scannedBase n) ++ sep :: padded 3 (scannedExt n) := by
  have hblank : [ch ' ', ch ' ', ch ' ', ch ' '] = ch ' ' :: padded 3 [] := by decide
  have hdef : (n.takeWhile copied).take 8 = scannedBase n := rfl
  simp only [cpmName, hdef] at h
  by_cases hbase : scannedBase n = []
  · simp [hbase] at h
  · refine ⟨hbase, ?_⟩
    rw [if_neg hbase, hblank] at h
    rw [scannedExt]
    revert h
    -- the rest of the name from the first dot on
    cases (n.drop (scannedBase n).length).dropWhile fun c => c != 0 && c != ch '.' with
    | nil => exact fun h => ⟨_, (Option.some.inj h).symm⟩
    | cons c ext =>
      simp only
      split
      · exact fun h => ⟨_, (Option.some.inj h).symm⟩
      · exact fun h => ⟨_, (Option.some.inj h).symm⟩

/-- The copied characters are copied. -/
lemma copied_of_mem_scanned {n : Bytes} : (∀ c ∈ scannedBase n, copied c = true) ∧
    ∀ c ∈ scannedExt n, copied c = true := by
  refine ⟨fun c hc => List.mem_takeWhile_imp (List.mem_of_mem_take hc), ?_⟩
  intro c hc
  rw [scannedExt] at hc
  split at hc
  · cases hc
  · split at hc
    · exact List.mem_takeWhile_imp (List.mem_of_mem_take hc)
    · cases hc

/-- The fields are not too long. -/
lemma length_scanned (n : Bytes) : (scannedBase n).length ≤ 8 ∧ (scannedExt n).length ≤ 3 := by
  refine ⟨List.length_take_le 8 _, ?_⟩
  rw [scannedExt]
  split
  · simp
  · split
    · exact List.length_take_le 3 _
    · simp

/-- What becomes of a copied character in upper case. -/
lemma toUpper_spec {c : UInt8} (h : copied c = true) :
    (nameChar (toUpper c) = true ↔ printable c = true) ∧ toUpper c ≠ ch ' ' := by
  have key : ∀ c : Fin 256, copied (UInt8.ofNat c) = true →
      (nameChar (toUpper (UInt8.ofNat c)) = true ↔ printable (UInt8.ofNat c) = true) ∧
        toUpper (UInt8.ofNat c) ≠ ch ' ' := by decide +kernel
  have hc := key ⟨c.toNat, c.toNat_lt⟩
  simp only [UInt8.ofNat_toNat] at hc
  exact hc h

/-- **A scanned field is a field of a CP/M name iff its characters are printable.**

**Proof sketch.** Induction on the word. A character of the field is one of a CP/M name iff it is
printable, and behind the word are only blanks. -/
lemma nameField_iff {w : Bytes} (hw : ∀ c ∈ w, copied c = true) (m : ℕ) :
    NameField (w.map toUpper ++ List.replicate m (ch ' ')) ↔ ∀ c ∈ w, printable c = true := by
  induction w with
  | nil =>
    constructor
    · intro _ c hc
      cases hc
    · intro _ c hc
      exact List.eq_of_mem_replicate ((List.dropWhile_sublist nameChar).subset hc)
  | cons c w ih =>
    obtain ⟨hname, hblank⟩ := toUpper_spec (hw c (by simp))
    have ih := ih fun c' hc' => hw c' (by simp [hc'])
    rw [List.forall_mem_cons, ← hname, ← ih, NameField, List.map_cons, List.cons_append,
      List.dropWhile_cons]
    split
    · rename_i hc
      simp only [hc, true_and]
      rfl
    · rename_i hc
      constructor
      · intro h
        exact absurd (h (toUpper c) (by simp)) hblank
      · rintro ⟨h, -⟩
        exact absurd h hc

/-- Setting a name of two fields. -/
lemma setName_fields {b x : Bytes} (hb : b.length = 8) (hx : x.length = 3) (e : CpmDir)
    (sep : UInt8) : List.ofFn (e.setName (b ++ sep :: x)).fx = b ∧
      List.ofFn (e.setName (b ++ sep :: x)).ex = x := by
  constructor
  · refine List.ext_getElem (by simp [hb]) fun i h1 h2 => ?_
    rw [List.getElem_ofFn]
    simp only [CpmDir.setName, List.getD_eq_getElem?_getD, List.getElem?_append_left h2,
      List.getElem?_eq_getElem h2, Option.getD_some]
  · refine List.ext_getElem (by simp [hx]) fun i h1 h2 => ?_
    have hsub : i + 9 - b.length = i + 1 := by omega
    rw [List.getElem_ofFn]
    simp only [CpmDir.setName, List.getD_eq_getElem?_getD,
      List.getElem?_append_right (show b.length ≤ i + 9 by omega), hsub, List.getElem?_cons_succ,
      List.getElem?_eq_getElem h2, Option.getD_some]

/-- The length of a field. -/
lemma length_padded {n : ℕ} {w : Bytes} (h : w.length ≤ n) : (padded n w).length = n := by
  rw [padded, List.length_append, List.length_map, List.length_replicate]
  omega

/-- **A scanned name is a CP/M name iff its characters are printable.**

**Proof sketch.** Both fields of the entry are scanned words, filled with blanks (`nameField_iff`).
The name has a first character, which is printable and no blank. -/
lemma validName_iff {n s : Bytes} (h : cpmName n = some s) (e : CpmDir) :
    (e.setName s).ValidName ↔ ∀ c ∈ scanned n, printable c = true := by
  obtain ⟨hne, sep, rfl⟩ := cpmName_scanned h
  obtain ⟨hcb, hcx⟩ := copied_of_mem_scanned (n := n)
  obtain ⟨hlb, hlx⟩ := length_scanned n
  obtain ⟨hfx, hex⟩ := setName_fields (length_padded hlb) (length_padded hlx) e sep
  rw [CpmDir.ValidName, hfx, hex, padded, nameField_iff hcb, padded, nameField_iff hcx, scanned]
  have hfirst : ∀ c w, scannedBase n = c :: w →
      (e.setName (padded 8 (scannedBase n) ++ sep :: padded 3 (scannedExt n))).fx 0 =
        toUpper c := by
    intro c w hcw
    simp [CpmDir.setName, padded, hcw]
  simp only [List.forall_mem_append]
  constructor
  · rintro ⟨h1, h2, -⟩
    exact ⟨h1, h2⟩
  · rintro ⟨h1, h2⟩
    obtain ⟨c, w, hcw⟩ := List.exists_cons_of_ne_nil hne
    have hmem : c ∈ scannedBase n := by simp [hcw]
    refine ⟨h1, h2, ?_⟩
    rw [← padded, ← padded, hfirst c w hcw]
    exact (toUpper_spec (hcb c hmem)).1.mpr (h1 c hmem)

namespace Disk

variable {readdir : Bytes → Option (List Bytes)} {g : Geometry} {host : Host} {path : Bytes}
  {ks fs : List HostFile} {f : HostFile} {dk : Disk}

/-! ## The names of an import -/

/-- **The names of a directory are names for the BDOS**: they are CP/M names, and the BDOS tells
apart the files of one user. -/
structure NamesForBdos (dir : List CpmDir) : Prop where
  legal : ∀ e ∈ dir, e.Used → e.ValidName
  different : ∀ e ∈ dir, ∀ e' ∈ dir, e.Used → e'.Used → e.st = e'.st → e.getName ≠ e'.getName →
    ¬ e.SameName e'

/-- If all names are CP/M names, the BDOS tells them apart. -/
lemma namesForBdos_iff (dir : List CpmDir) :
    NamesForBdos dir ↔ ∀ e ∈ dir, e.Used → e.ValidName := by
  constructor
  · exact fun h => h.legal
  · intro h
    refine ⟨h, fun e he e' he' hu hu' hst hne hsame => hne ?_⟩
    obtain ⟨hfx, hex⟩ := hsame.eq (h e he hu) (h e' he' hu')
    exact CpmDir.getName_congr hst hfx hex

/-- The name of an entry decides whether it is a CP/M name. -/
lemma validName_of_getName {e : CpmDir} {u : UInt8} {s n : Bytes} (hs : cpmName n = some s)
    (h : e.getName = keyOf u s) : e.ValidName ↔ ∀ c ∈ scanned n, printable c = true := by
  obtain ⟨-, hfx, hex⟩ := CpmDir.getName_inj h
  rw [← validName_iff hs { CpmDir.empty with st := u }, CpmDir.ValidName, CpmDir.ValidName, hfx,
    hex]

/-- Every file with an extent has an entry. -/
lemma entry_of_file (path : Bytes) (g : Geometry) (host : Host) (hf : f ∈ ks)
    (hdirs : f.dirs g.dpb ≠ 0) (hnodup : (ks.map HostFile.key).Nodup)
    (huser : f.user ≠ CpmDir.UNUSED) :
    ∃ e ∈ (packed path g host ks).dir, e.Used ∧ e.getName = f.key := by
  obtain ⟨before, after, hks⟩ := List.append_of_mem hf
  have hentries := entriesOf_packed path g host hks hnodup huser
  have hne : entriesOf (packed path g host ks).dir f.key ≠ [] := by
    rw [hentries, ← List.length_pos_iff, fileEntries, length_extents]
    exact Nat.pos_of_ne_zero hdirs
  obtain ⟨e, hmem⟩ := List.exists_mem_of_ne_nil _ hne
  obtain ⟨he, hused⟩ := List.mem_filter.mp hmem
  exact ⟨e, he, of_decide_eq_true hused⟩

/-- **The names of an import are names for the BDOS iff the scanner copies printable characters
only**, from the name of every file that gets an entry.

**Proof sketch.** A used entry is one of a file that was imported, under the name that was scanned,
and every imported file with an extent has such an entry. The condition on the name is
`validName_iff`. -/
theorem import_names_iff (hg : g.Shipped) (hbuild : build readdir path g host = .ok () dk) :
    NamesForBdos dk.dir ↔ ∀ fs, scanHost readdir host path = some fs → ∀ f ∈ imported fs,
      f.dirs g.dpb ≠ 0 → ∀ n, Gives host (userPath path f.user) f.user n f →
        ∀ c ∈ scanned n, printable c = true := by
  obtain ⟨fs, hscan, -, rfl⟩ := (build_iff hg.regular).mp hbuild
  rw [namesForBdos_iff]
  constructor
  · intro hlegal fs' hscan' f hf hdirs n hgives
    obtain rfl : fs = fs' := by simpa [hscan] using hscan'
    obtain ⟨e, he, hused, hname⟩ := entry_of_file path g host hf hdirs
      (nodup_imported fs) (found_of_imported hscan hf).1
    exact (validName_of_getName hgives.2.2.2.1 hname).mp (hlegal e he hused)
  · intro hprint e he hused
    have hmem : e ∈ entries g.dpb (imported fs) g.dpb.dirBlocks := by
      rcases List.mem_append.mp he with he | he
      · exact he
      · rw [List.eq_of_mem_replicate he] at hused
        exact absurd hused (by decide)
    obtain ⟨f, hf, hdirs, hname⟩ := owner_of_mem_entries hmem
    have hfound := (mem_scanHost hscan).mp ((mem_keep hf).resolve_left List.not_mem_nil)
    obtain ⟨-, names, n, -, -, hgives⟩ := hfound
    exact (validName_of_getName hgives.2.2.2.1 hname).mpr (hprint fs hscan f hf hdirs n hgives)

/-- Two files with printable names. -/
theorem import_names_pair : ∃ dk,
    build (pairReaddir (ch 'A') (ch 'B')) [slash, ch 'd'] ibm8 (pairHost (ch 'A') (ch 'B')) =
      .ok () dk ∧ NamesForBdos dk.dir := by
  have hbuild := (build_iff (g := ibm8) regular_ibm8).mpr
    ⟨_, scanHost_pair, by decide, rfl⟩
  refine ⟨_, hbuild, (import_names_iff (.inl rfl) hbuild).mpr ?_⟩
  intro fs hscan f hf _ n hgives
  obtain rfl : [letterFile (ch 'A') 1, letterFile (ch 'B') 2] = fs := by
    simpa [scanHost_pair] using hscan
  have hpath := hgives.2.2.2.2.1
  have hfiles : imported [letterFile (ch 'A') 1, letterFile (ch 'B') 2] =
      [letterFile (ch 'A') 1, letterFile (ch 'B') 2] := by decide
  rw [hfiles, List.mem_cons, List.mem_singleton] at hf
  have hprint : (scanned [ch 'A']).all printable = true ∧
      (scanned [ch 'B']).all printable = true := by decide
  rcases hf with rfl | rfl
  · obtain rfl : [ch 'A'] = n := by simpa [letterFile, userPath] using hpath
    exact List.all_eq_true.mp hprint.1
  · obtain rfl : [ch 'B'] = n := by simpa [letterFile, userPath] using hpath
    exact List.all_eq_true.mp hprint.2

/-- **Two files that are one for the BDOS**: `A`, and the byte `0xC1`, which is `A` with bit 7
set. -/
theorem same_for_bdos : ∃ dk,
    build (pairReaddir (ch 'A') 0xc1) [slash, ch 'd'] ibm8 (pairHost (ch 'A') 0xc1) = .ok () dk ∧
      (∃ e ∈ dk.dir, ∃ e' ∈ dk.dir, e.Used ∧ e'.Used ∧ e.st = e'.st ∧ e.getName ≠ e'.getName ∧
        e.SameName e') ∧ ¬ NamesForBdos dk.dir := by
  have hscan : scanHost (pairReaddir (ch 'A') 0xc1) (pairHost (ch 'A') 0xc1) [slash, ch 'd'] =
      some [letterFile (ch 'A') 1, letterFile 0xc1 2] := by decide
  have hbuild := (build_iff (g := ibm8) regular_ibm8).mpr
    ⟨_, hscan, by decide, rfl⟩
  have hsame : ∃ e ∈ entries ibm8.dpb (imported [letterFile (ch 'A') 1, letterFile 0xc1 2]) 2,
      ∃ e' ∈ entries ibm8.dpb (imported [letterFile (ch 'A') 1, letterFile 0xc1 2]) 2,
        e.Used ∧ e'.Used ∧ e.st = e'.st ∧ e.getName ≠ e'.getName ∧ e.SameName e' := by
    unfold CpmDir.SameName
    decide
  obtain ⟨e, he, e', he', hu, hu', hst, hne, heq⟩ := hsame
  have hmem := List.mem_append_left (List.replicate (ibm8.dpb.directoryEntries - slots ibm8.dpb
    (imported [letterFile (ch 'A') 1, letterFile 0xc1 2])) CpmDir.empty) he
  have hmem' := List.mem_append_left (List.replicate (ibm8.dpb.directoryEntries - slots ibm8.dpb
    (imported [letterFile (ch 'A') 1, letterFile 0xc1 2])) CpmDir.empty) he'
  exact ⟨_, hbuild, ⟨e, hmem, e', hmem', hu, hu', hst, hne, heq⟩,
    fun h => h.different e hmem e' hmem' hu hu' hst hne heq⟩

end Disk

end Cpm22
