import Mathlib.Data.List.TakeWhile
import Cpm22.Disk.CpmDir

set_option relaxedAutoImplicit false
set_option autoImplicit false

/-!
# CP/M names and host names

Two translations between the names of CP/M files and the paths of host files. `mkhostname`
turns the name of a directory entry into a host path when the guest creates or renames a file;
`readhost` turns the names it finds in a host directory into CP/M names when a disk is built.

## Main definitions

* `Cpm22.hostPath` — the path `mkhostname` computes; `hostDir` is the directory it makes.
* `Cpm22.cpmName` — the scanner of `readhost`.
* `Cpm22.keyOf` — the key in the name map of a user number and a scanned name.
* `Cpm22.CpmDir.LegalName` — upper-case legal names, blank-padded, without a slash.
* `Cpm22.Denotes` — a host path is one that `readhost` gives a certain key.

## Main results

* `Cpm22.cpmName_hostFile` — scanning the host name of a legal entry gives back its name.
* `Cpm22.Denotes.inj` — host paths of different keys are different files.
* `Cpm22.denotes_hostPath` — the path `mkhostname` gives a legal entry is one of its key.
-/

namespace Cpm22

open HostPath

/-! ## `mkhostname` -/

/-- `isspace` in the C locale. -/
def isSpace (c : UInt8) : Bool := c == 0x20 || (0x09 ≤ c && c ≤ 0x0d)

/-- `toupper` in the C locale. -/
def toUpper (c : UInt8) : UInt8 := if 0x61 ≤ c ∧ c ≤ 0x7a then c - 0x20 else c

/-- `std::to_string`. -/
def decimal (n : ℕ) : Bytes := (Nat.toDigits 10 n).map ch

/-- The value of a hexadecimal digit, zero for other characters. -/
def hexVal (c : UInt8) : ℕ :=
  if ch '0' ≤ c ∧ c ≤ ch '9' then c.toNat - 48
  else if ch 'a' ≤ c ∧ c ≤ ch 'f' then c.toNat - 97 + 10
  else if ch 'A' ≤ c ∧ c ≤ ch 'F' then c.toNat - 65 + 10
  else 0

/-- The user number in front of a name, and the name without it. -/
def splitUser (cpmname : Bytes) : ℕ × Bytes :=
  if 3 ≤ cpmname.length ∧ cpmname.getD 2 0 = ch '_' then
    ((hexVal (cpmname.getD 0 0) <<< 4) ||| hexVal (cpmname.getD 1 0), cpmname.drop 3)
  else (0, cpmname)

/-- The host directory of a user: the drive's own directory for user 0, a numbered directory in
it for the others. -/
def hostDir (path : Bytes) (userno : ℕ) : Bytes :=
  if userno ≠ 0 then append path (decimal userno) else path

/-- The host file name: the CP/M name without white space. The host calls take it as a C string,
so it ends before the first NUL. -/
def hostFile (name : Bytes) : Bytes :=
  (name.filter fun c => !isSpace c).takeWhile fun c => c != 0

/-- **The path `mkhostname` computes** for a drive at `path`. -/
def hostPath (path cpmname : Bytes) : Bytes :=
  append (hostDir path (splitUser cpmname).1) (hostFile (splitUser cpmname).2)

/-! ## The scanner of `readhost` -/

/-- The characters at which `readhost` stops. -/
def noname : Bytes := [0x20, 0x3c, 0x3e, 0x2c, 0x3b, 0x3a, 0x3d, 0x3f, 0x2a, 0x5b, 0x5d, 0x2e]

/-- A character that is copied: not the end of the C string and not in `noname`. -/
def copied (c : UInt8) : Bool := c != 0 && !noname.contains c

/-- A scanned field, upper-case and padded with blanks. -/
def padded (n : ℕ) (w : Bytes) : Bytes :=
  w.map toUpper ++ List.replicate (n - w.length) (ch ' ')

/-- **The scanner**: up to eight characters of the base, then up to three behind the next dot;
`none` if the first character is not allowed, in which case the file is skipped. -/
def cpmName (dname : Bytes) : Option Bytes :=
  let base := (dname.takeWhile copied).take 8
  if base = [] then none
  else
    match (dname.drop base.length).dropWhile fun c => c != 0 && c != ch '.' with
    | [] => some (padded 8 base ++ [ch ' ', ch ' ', ch ' ', ch ' '])
    | c :: ext =>
      if c = ch '.' then some (padded 8 base ++ ch '.' :: padded 3 ((ext.takeWhile copied).take 3))
      else some (padded 8 base ++ [ch ' ', ch ' ', ch ' ', ch ' '])

/-- The key of a scanned name for a user: the name of an entry with that status and name. -/
def keyOf (u : UInt8) (cpmname : Bytes) : Bytes :=
  (({ CpmDir.empty with st := u } : CpmDir).setName cpmname).getName

/-! ## Legal names -/

/-- An upper-case legal character: printable, not one of `< > . , ; : = ? * [ ]`, no lower-case
letter and no slash. -/
def legalChar (c : UInt8) : Bool :=
  0x21 ≤ c && c ≤ 0x7e && !(noname.contains c) && !(0x61 ≤ c && c ≤ 0x7a) && c != slash

/-- A name field: legal characters, then blanks. -/
def LegalField (l : Bytes) : Prop := ∀ c ∈ l.dropWhile legalChar, c = ch ' '

instance (l : Bytes) : Decidable (LegalField l) := inferInstanceAs (Decidable (∀ c ∈ _, _))

/-- **An upper-case legal 7-bit name**: blanks only as padding, the base not empty. -/
def CpmDir.LegalName (e : CpmDir) : Prop :=
  LegalField (List.ofFn e.fx) ∧ LegalField (List.ofFn e.ex) ∧ legalChar (e.fx 0) = true

instance (e : CpmDir) : Decidable e.LegalName := inferInstanceAs (Decidable (_ ∧ _))

/-- The text of a name: base, and the extension behind a dot unless it is blank. -/
def CpmDir.nameText (e : CpmDir) : Bytes :=
  List.ofFn e.fx ++
    ((if List.ofFn e.ex ≠ [ch ' ', ch ' ', ch ' '] then [ch '.'] else []) ++ List.ofFn e.ex)

/-! ## Lemmas on characters and fields -/

/-- Two hexadecimal digits read back as the number they were printed from. -/
lemma hexVal_hexDigit : ∀ n < 16, hexVal (CpmDir.hexDigit n) = n := by decide

/-- **`mkhostname` recovers the user number** from the name of an entry. -/
lemma splitUser_getName (e : CpmDir) : splitUser e.getName = (e.st.toNat, e.nameText) := by
  have hst := e.st.toNat_lt
  have h1 := hexVal_hexDigit (e.st.toNat / 16) (by omega)
  have h2 := hexVal_hexDigit (e.st.toNat % 16) (by omega)
  have hor : (e.st.toNat / 16) <<< 4 ||| e.st.toNat % 16 = e.st.toNat := by
    rw [← Nat.shiftLeft_add_eq_or_of_lt (by omega), Nat.shiftLeft_eq]
    omega
  simp only [splitUser, CpmDir.getName, CpmDir.hexStatus, List.cons_append, List.nil_append,
    List.length_cons, List.getD_cons_succ, List.getD_cons_zero, h1, h2, hor, List.drop_succ_cons,
    List.drop_zero]
  rw [if_pos ⟨by omega, trivial⟩]
  rfl

/-- A legal character is copied by the scanner, is its own upper case and is no white space. -/
lemma legalChar_spec {c : UInt8} (h : legalChar c = true) :
    copied c = true ∧ toUpper c = c ∧ isSpace c = false ∧ c ≠ slash ∧ c ≠ ch '.' ∧ c ≠ 0 ∧
      c ≠ ch ' ' := by
  have key : ∀ c : Fin 256, legalChar (UInt8.ofNat c) = true →
      copied (UInt8.ofNat c) = true ∧ toUpper (UInt8.ofNat c) = UInt8.ofNat c ∧
        isSpace (UInt8.ofNat c) = false ∧ UInt8.ofNat c ≠ slash ∧ UInt8.ofNat c ≠ ch '.' ∧
        UInt8.ofNat c ≠ 0 ∧ UInt8.ofNat c ≠ ch ' ' := by decide +kernel
  have hc := key ⟨c.toNat, c.toNat_lt⟩
  simp only [UInt8.ofNat_toNat] at hc
  exact hc h

/-- A legal field is its legal characters followed by blanks. -/
lemma LegalField.eq {l : Bytes} (h : LegalField l) :
    l = l.takeWhile legalChar ++
      List.replicate (l.length - (l.takeWhile legalChar).length) (ch ' ') := by
  have hsplit := List.takeWhile_append_dropWhile (p := legalChar) (l := l)
  have hrep : l.dropWhile legalChar =
      List.replicate (l.length - (l.takeWhile legalChar).length) (ch ' ') := by
    refine List.eq_replicate_iff.mpr ⟨?_, h⟩
    have := congrArg List.length hsplit
    simp only [List.length_append] at this
    omega
  rw [← hrep, hsplit]

/-- Without white space a legal field is its legal characters. -/
lemma LegalField.filter {l : Bytes} (h : LegalField l) :
    (l.filter fun c => !isSpace c) = l.takeWhile legalChar := by
  have hw : ∀ c ∈ l.takeWhile legalChar, isSpace c = false := fun c hc =>
    (legalChar_spec (List.mem_takeWhile_imp hc)).2.2.1
  conv_lhs => rw [h.eq]
  have hsp : isSpace (ch ' ') = true := by decide
  simp only [List.filter_append, List.filter_replicate, hsp, Bool.not_true,
    if_false, List.append_nil, Bool.false_eq_true]
  exact List.filter_eq_self.mpr fun c hc => by simp [hw c hc]

/-- The base of a legal name is not empty. -/
lemma CpmDir.LegalName.base_ne_nil {e : CpmDir} (h : e.LegalName) :
    (List.ofFn e.fx).takeWhile legalChar ≠ [] := by
  simp [List.ofFn_succ, List.takeWhile_cons, h.2.2]

/-- A blank extension has no legal characters, and conversely. -/
lemma LegalField.blank_iff {l : Bytes} (h : LegalField l) (hl : l.length = 3) :
    l = [ch ' ', ch ' ', ch ' '] ↔ l.takeWhile legalChar = [] := by
  constructor
  · rintro rfl
    decide
  · intro hw
    rw [h.eq, hw, hl]
    rfl

/-- **The host name of a legal entry**: its base, and its extension behind a dot if there is
one.

**Proof sketch.** Base and extension are legal characters and then blanks, so that dropping blanks
leaves the legal characters. The dot is there iff the extension is not blank. None of these
characters is NUL, which would end the name. -/
lemma CpmDir.LegalName.hostFile_nameText {e : CpmDir} (h : e.LegalName) :
    hostFile e.nameText = (List.ofFn e.fx).takeWhile legalChar ++
      (if (List.ofFn e.ex).takeWhile legalChar = [] then []
        else ch '.' :: (List.ofFn e.ex).takeWhile legalChar) := by
  have hb := h.1.filter
  have hx := h.2.1.filter
  have hiff := h.2.1.blank_iff (by simp)
  have hdot : isSpace (ch '.') = false := by decide
  have hfilter : (e.nameText.filter fun c => !isSpace c) =
      (List.ofFn e.fx).takeWhile legalChar ++
        (if (List.ofFn e.ex).takeWhile legalChar = [] then []
          else ch '.' :: (List.ofFn e.ex).takeWhile legalChar) := by
    by_cases hw : (List.ofFn e.ex).takeWhile legalChar = []
    · simp only [CpmDir.nameText, hiff.mpr hw, List.filter_append, hb, ne_eq,
        not_true_eq_false, if_false, List.nil_append]
      rw [if_pos (by decide)]
      congr 1
    · have hne : List.ofFn e.ex ≠ [ch ' ', ch ' ', ch ' '] := fun h => hw (hiff.mp h)
      simp only [CpmDir.nameText, if_pos hne, List.filter_append, hb, hx, if_neg hw]
      congr 1
  -- no character of a legal name is NUL
  rw [hostFile, hfilter, List.takeWhile_eq_self_iff]
  intro c hc
  have hlegal : legalChar c = true ∨ c = ch '.' := by
    rw [List.mem_append] at hc
    rcases hc with hc | hc
    · exact .inl (List.mem_takeWhile_imp hc)
    · split at hc
      · simp at hc
      · rcases List.mem_cons.mp hc with hc | hc
        · exact .inr hc
        · exact .inl (List.mem_takeWhile_imp hc)
  rcases hlegal with hl | rfl
  · simpa using (legalChar_spec hl).2.2.2.2.2.1
  · decide

/-! ## The round trip -/

/-- Legal characters up to the field's length are scanned back into the padded field. -/
lemma LegalField.padded {l : Bytes} (h : LegalField l) {n : ℕ} (hl : l.length = n) :
    padded n (l.takeWhile legalChar) = l := by
  have hmap : (l.takeWhile legalChar).map toUpper = l.takeWhile legalChar := by
    refine List.map_congr_left (g := id) (fun c hc => ?_) |>.trans (List.map_id _)
    exact (legalChar_spec (List.mem_takeWhile_imp hc)).2.1
  rw [Cpm22.padded, hmap, ← hl]
  exact h.eq.symm

/-- Scanning a run of legal characters before a stop copies exactly the run. -/
lemma takeWhile_copied_append {w rest : Bytes} (hw : ∀ c ∈ w, legalChar c = true)
    (hr : rest.takeWhile copied = []) : (w ++ rest).takeWhile copied = w := by
  have hcopy : ∀ c ∈ w, copied c = true := fun c hc => (legalChar_spec (hw c hc)).1
  rw [List.takeWhile_append_of_pos hcopy, hr, List.append_nil]

/-- **Scanning the host name of a legal entry gives back its name**, in the form `SetName`
expects.

**Proof sketch.** The base has at most eight legal characters and ends at the dot or at the end
of the name, so the first loop copies all of it and the skip to the dot is empty; the second
loop copies the extension. Padding restores the blanks. -/
theorem cpmName_hostFile {e : CpmDir} (h : e.LegalName) :
    ∃ c, cpmName (hostFile e.nameText) = some (List.ofFn e.fx ++ c :: List.ofFn e.ex) := by
  have hb : ∀ c ∈ (List.ofFn e.fx).takeWhile legalChar, legalChar c = true :=
    fun c hc => List.mem_takeWhile_imp hc
  have hx : ∀ c ∈ (List.ofFn e.ex).takeWhile legalChar, legalChar c = true :=
    fun c hc => List.mem_takeWhile_imp hc
  have hpad := h.1.padded (n := 8) (by simp)
  have hxpad := h.2.1.padded (n := 3) (by simp)
  have hblen : ((List.ofFn e.fx).takeWhile legalChar).length ≤ 8 := by
    simpa using (List.takeWhile_sublist legalChar (l := List.ofFn e.fx)).length_le
  have hxlen : ((List.ofFn e.ex).takeWhile legalChar).length ≤ 3 := by
    simpa using (List.takeWhile_sublist legalChar (l := List.ofFn e.ex)).length_le
  rw [h.hostFile_nameText]
  have hbne := h.base_ne_nil
  generalize (List.ofFn e.fx).takeWhile legalChar = base at *
  by_cases hw : (List.ofFn e.ex).takeWhile legalChar = []
  · -- no extension: the scan ends with the name
    refine ⟨ch ' ', ?_⟩
    have hbase : (base.takeWhile copied).take 8 = base := by
      have : (base ++ []).takeWhile copied = base := takeWhile_copied_append hb rfl
      rw [List.append_nil] at this
      rw [this, List.take_of_length_le hblen]
    have hex : List.ofFn e.ex = [ch ' ', ch ' ', ch ' '] :=
      (h.2.1.blank_iff (by simp)).mpr hw
    rw [if_pos hw, List.append_nil, cpmName]
    simp only [hbase, if_neg hbne, List.drop_length, List.dropWhile_nil, hpad]
    rw [hex]
  · refine ⟨ch '.', ?_⟩
    generalize hext : (List.ofFn e.ex).takeWhile legalChar = ext at *
    have hdot : copied (ch '.') = false := by decide
    have hbase : ((base ++ ch '.' :: ext).takeWhile copied).take 8 = base := by
      rw [takeWhile_copied_append hb (by simp [hdot]), List.take_of_length_le hblen]
    have hskip : ((base ++ ch '.' :: ext).drop base.length).dropWhile
        (fun c => c != 0 && c != ch '.') = ch '.' :: ext := by
      rw [List.drop_left]
      simp
    have hexts : (ext.takeWhile copied).take 3 = ext := by
      have : (ext ++ []).takeWhile copied = ext := takeWhile_copied_append hx rfl
      rw [List.append_nil] at this
      rw [this, List.take_of_length_le hxlen]
    simp only [if_neg hw, cpmName, hbase, if_neg hbne, hskip, if_true, hexts, hpad, hxpad]

/-- Setting a name from base, one character and extension stores base and extension. -/
lemma setName_append (e f : CpmDir) (c : UInt8) :
    (f.setName (List.ofFn e.fx ++ c :: List.ofFn e.ex)).fx = e.fx ∧
      (f.setName (List.ofFn e.fx ++ c :: List.ofFn e.ex)).ex = e.ex := by
  constructor
  · funext i
    have hi : i.val < (List.ofFn e.fx).length := by simp
    simp only [CpmDir.setName, List.getD_eq_getElem?_getD, List.getElem?_append_left hi,
      List.getElem?_ofFn]
    simp
  · funext i
    have hi : (List.ofFn e.fx).length ≤ i.val + 9 := by simp
    have hsub : i.val + 9 - (List.ofFn e.fx).length = i.val + 1 := by simp
    simp only [CpmDir.setName, List.getD_eq_getElem?_getD, List.getElem?_append_right hi, hsub,
      List.getElem?_cons_succ, List.getElem?_ofFn]
    simp

/-- **The round trip of names**: the scanner reads the host name of a legal entry as a name
with the entry's own key. -/
lemma keyOf_cpmName_hostFile {e : CpmDir} (h : e.LegalName) :
    ∃ s, cpmName (hostFile e.nameText) = some s ∧ keyOf e.st s = e.getName := by
  obtain ⟨c, hc⟩ := cpmName_hostFile h
  obtain ⟨hfx, hex⟩ := setName_append e { CpmDir.empty with st := e.st } c
  exact ⟨_, hc, CpmDir.getName_congr rfl hfx hex⟩

/-! ## Paths and keys -/

/-- The decimal text of a user number is a plain name. -/
lemma plain_decimal (u : UInt8) : Plain (decimal u.toNat) := by
  have key : ∀ n : Fin 256, Plain (decimal n) := by decide +kernel
  exact key ⟨u.toNat, u.toNat_lt⟩

/-- Different user numbers have different decimal texts. -/
lemma decimal_inj {u v : UInt8} (h : decimal u.toNat = decimal v.toNat) : u = v := by
  -- reading the digits back is a left inverse
  have key : ∀ n : Fin 256,
      (decimal n).foldl (fun (a : ℕ) c => 10 * a + (c.toNat - 48)) 0 = n.val := by
    decide +kernel
  have hu := key ⟨u.toNat, u.toNat_lt⟩
  have hv := key ⟨v.toNat, v.toNat_lt⟩
  simp only at hu hv
  rw [h, hv] at hu
  exact (UInt8.toNat_inj.mp hu).symm

/-- The components of a user's directory below the drive directory. -/
def userComps (u : UInt8) : List Bytes := if u = 0 then [] else [decimal u.toNat]

/-- **`p` is a path that belongs to key `k`** on the drive at `path`: a plain name in the
directory of some user, which the scanner reads as a name with that key. -/
def Denotes (path p k : Bytes) : Prop :=
  ∃ (u : UInt8) (n s : Bytes), Plain n ∧ cpmName n = some s ∧ k = keyOf u s ∧ p ≠ [] ∧
    normal p = ⟨(normal path).absolute, (normal path).comps ++ (userComps u ++ [n])⟩

/-- **Paths of different keys are different files.** -/
theorem Denotes.inj {path p q k l : Bytes} (hp : Denotes path p k) (hq : Denotes path q l)
    (h : normal p = normal q) : k = l := by
  obtain ⟨u, n, s, -, hs, rfl, -, hpn⟩ := hp
  obtain ⟨v, m, t, -, ht, rfl, -, hqn⟩ := hq
  rw [hpn, hqn] at h
  simp only [NPath.mk.injEq, true_and, List.append_cancel_left_eq] at h
  obtain ⟨hu, hn⟩ := List.append_inj' h rfl
  simp only [List.cons.injEq, and_true] at hn
  subst hn
  rw [hs] at ht
  have huv : u = v := by
    unfold userComps at hu
    by_cases h1 : u = 0 <;> by_cases h2 : v = 0
    · rw [h1, h2]
    · simp [h1, h2] at hu
    · simp [h1, h2] at hu
    · simp only [h1, h2, if_false, List.cons.injEq, and_true] at hu
      exact decimal_inj hu
  rw [huv, Option.some.inj ht]

/-- A legal entry's host name is a plain name.

**Proof sketch.** The name starts with a legal character, which is no dot, so that it is neither
`.` nor `..`, and no legal character is a slash. -/
lemma CpmDir.LegalName.plain {e : CpmDir} (h : e.LegalName) : Plain (hostFile e.nameText) := by
  have hb : ∀ c ∈ (List.ofFn e.fx).takeWhile legalChar, legalChar c = true :=
    fun c hc => List.mem_takeWhile_imp hc
  have hx : ∀ c ∈ (List.ofFn e.ex).takeWhile legalChar, legalChar c = true :=
    fun c hc => List.mem_takeWhile_imp hc
  have hbne := h.base_ne_nil
  rw [h.hostFile_nameText]
  generalize (List.ofFn e.fx).takeWhile legalChar = base at *
  generalize (List.ofFn e.ex).takeWhile legalChar = ext at *
  cases base with
  | nil => exact absurd rfl hbne
  | cons a base =>
    have ha := legalChar_spec (hb a (by simp))
    have hdot : a ≠ dot := ha.2.2.2.2.1
    refine ⟨by simp, ?_, ?_, ?_⟩
    · intro hh
      simp only [List.cons_append, here, List.cons.injEq] at hh
      exact hdot hh.1
    · intro hh
      simp only [List.cons_append, parentDir, List.cons.injEq] at hh
      exact hdot hh.1
    · intro hh
      rw [List.mem_append] at hh
      rcases hh with hh | hh
      · exact (legalChar_spec (hb _ hh)).2.2.2.1 rfl
      · by_cases hw : ext = []
        · simp [hw] at hh
        · rw [if_neg hw, List.mem_cons] at hh
          rcases hh with hh | hh
          · exact absurd hh (by decide)
          · exact (legalChar_spec (hx _ hh)).2.2.2.1 rfl

/-- The normal form of a user's directory. -/
lemma normal_hostDir {path : Bytes} (hpath : path ≠ []) (u : UInt8) :
    hostDir path u.toNat ≠ [] ∧ normal (hostDir path u.toNat) =
      ⟨(normal path).absolute, (normal path).comps ++ userComps u⟩ := by
  unfold hostDir userComps
  by_cases hu : u = 0
  · subst hu
    simp [hpath]
  · have hun : u.toNat ≠ 0 := fun h => hu (by rw [← UInt8.toNat_inj]; simpa using h)
    rw [if_pos hun, if_neg hu]
    have hpl := plain_decimal u
    refine ⟨?_, normal_append_plain hpath hpl⟩
    unfold append
    split
    · exact hpl.1
    · split <;> simp [hpath]

/-- **The path `mkhostname` gives a legal entry belongs to the entry's key.** -/
theorem denotes_hostPath {path : Bytes} (hpath : path ≠ []) {e : CpmDir} (h : e.LegalName) :
    Denotes path (hostPath path e.getName) e.getName := by
  obtain ⟨s, hs, hk⟩ := keyOf_cpmName_hostFile h
  obtain ⟨hne, hdir⟩ := normal_hostDir hpath e.st
  have hpl := h.plain
  refine ⟨e.st, hostFile e.nameText, s, hpl, hs, hk.symm, ?_, ?_⟩
  · simp only [hostPath, splitUser_getName]
    unfold append
    split
    · exact hpl.1
    · split <;> simp [hne]
  · simp only [hostPath, splitUser_getName]
    rw [normal_append_plain hne hpl, hdir]
    simp

/-- The path under which `readhost` imports a file of user 0 belongs to its key. -/
lemma denotes_root {path n s : Bytes} (hpath : path ≠ []) (hn : Plain n)
    (hs : cpmName n = some s) : Denotes path (path ++ slash :: n) (keyOf 0 s) :=
  ⟨0, n, s, hn, hs, rfl, by simp, by simp [normal_join_plain hpath hn, userComps]⟩

/-- The path under which `readhost` imports a file of another user belongs to its key. -/
lemma denotes_user {path n s : Bytes} (hpath : path ≠ []) {u : UInt8} (hu : u ≠ 0)
    (hn : Plain n) (hs : cpmName n = some s) :
    Denotes path ((path ++ slash :: decimal u.toNat) ++ slash :: n) (keyOf u s) := by
  refine ⟨u, n, s, hn, hs, rfl, by simp, ?_⟩
  rw [normal_join_plain (by simp) hn, normal_join_plain hpath (plain_decimal u)]
  simp [userComps, hu]

end Cpm22
