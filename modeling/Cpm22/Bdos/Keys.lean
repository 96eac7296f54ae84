import Cpm22.Bdos.Drive

set_option relaxedAutoImplicit false
set_option autoImplicit false

/-!
# Names and extents of entries

The comparison of `FINDNXT` ignores the highest bit of every byte, which holds an attribute in a
name and a flag in `S2`, and compares five bits of the extent byte. For a file control block without
question marks it is an equality of keys: the name, and the number of the extent.

## Main definitions

* `Cpm22.Bdos.nameOf`, `Cpm22.Bdos.extOf` — the name and the extent of an entry.
* `Cpm22.Bdos.Plain` — a file control block of a user without question marks in its name.

## Main results

* `Cpm22.Bdos.matching_name_iff`, `Cpm22.Bdos.matching_extent_iff` — the comparison by keys.
-/

namespace Cpm22

namespace Bdos

/-- **The name of an entry**, with its user and without attributes. -/
def nameOf (e : CpmDir) (i : Fin 12) : ℕ := (e.toBytes ⟨i, by omega⟩).toNat % 128

/-- **The extent of an entry**: five bits in `Xl`, and `Xh` without its flag. -/
def extOf (e : CpmDir) : ℕ := e.xl.toNat % 32 + 32 * (e.xh.toNat % 128)

/-- **A file control block of a user without question marks in its name.** -/
structure Plain (f : CpmDir) : Prop where
  user : f.st.toNat < 32
  clear : ∀ i : Fin 12, f.toBytes ⟨i, by omega⟩ ≠ ch '?'

/-- Bytes that agree up to the highest bit. -/
lemma sub_and_7f (a b : UInt8) :
    ((a - b) &&& 0x7f == 0) = true ↔ a.toNat % 128 = b.toNat % 128 := by
  have ha := a.toNat_lt
  have hb := b.toNat_lt
  rw [beq_iff_eq, ← UInt8.toNat_inj, toNat_and_mask _ 7 0x7f rfl, UInt8.toNat_sub, UInt8.toNat_zero]
  omega

/-- Bytes that agree in five bits. -/
lemma sub_and_1f (a b : UInt8) :
    ((a - b) &&& 0x1f == 0) = true ↔ a.toNat % 32 = b.toNat % 32 := by
  have ha := a.toNat_lt
  have hb := b.toNat_lt
  rw [beq_iff_eq, ← UInt8.toNat_inj, toNat_and_mask _ 5 0x1f rfl, UInt8.toNat_sub, UInt8.toNat_zero]
  omega

/-- Without an extent mask, `SAMEXT` compares five bits. -/
lemma sameExt_zero (a c : UInt8) : sameExt 0 a c = true ↔ a.toNat % 32 = c.toNat % 32 := by
  have hmask : ~~~(0 : ℕ).toUInt8 = 0xff := by decide
  have hall : ∀ x : UInt8, x &&& 0xff = x := fun x => UInt8.and_neg_one
  rw [sameExt, hmask, hall, hall]
  exact sub_and_1f a c

/-- The comparison of a byte of the name. -/
lemma matchByte_name {exm : ℕ} {i : ℕ} (hi : i < 12) {f e : UInt8} (hf : f ≠ ch '?') :
    matchByte exm i f e = true ↔ f.toNat % 128 = e.toNat % 128 := by
  rw [matchByte, if_neg (by omega), ← sub_and_7f]
  simp [hf, show i ≠ 13 by omega]

/-- **The name of a file control block stands for the name `k`**: it agrees with it where it has no
question mark. -/
def Matches (f : CpmDir) (k : Fin 12 → ℕ) : Prop :=
  ∀ i : Fin 12, f.toBytes ⟨i, by omega⟩ = ch '?' ∨ nameOf f i = k i

/-- The comparison of a byte of the name, which may be a question mark. -/
lemma matchByte_iff {exm : ℕ} (f e : CpmDir) (i : Fin 12) :
    matchByte exm i (f.toBytes ⟨i, by omega⟩) (e.toBytes ⟨i, by omega⟩) = true ↔
      f.toBytes ⟨i, by omega⟩ = ch '?' ∨ nameOf f i = nameOf e i := by
  by_cases hf : f.toBytes ⟨i, by omega⟩ = ch '?'
  · simp [matchByte, hf]
  · rw [matchByte_name i.isLt hf]
    simp [hf, nameOf]

/-- **Comparing twelve bytes is comparing the names**, up to question marks. -/
lemma matching_name_iff {exm : ℕ} {f e : CpmDir} :
    matching exm 12 f e = true ↔ Matches f (nameOf e) := by
  rw [matching, List.all_eq_true]
  constructor
  · intro h i
    have hi := h ⟨i, by omega⟩ (List.mem_finRange _)
    rw [Bool.or_eq_true, decide_eq_true_eq] at hi
    exact (matchByte_iff f e i).mp (hi.resolve_left (by simp))
  · intro h i _
    rw [Bool.or_eq_true, decide_eq_true_eq]
    by_cases hi : i.val < 12
    · exact .inr ((matchByte_iff f e ⟨i, hi⟩).mpr (h ⟨i, hi⟩))
    · exact .inl (by omega)

/-- A name without question marks stands for itself. -/
lemma Plain.matches_iff {f : CpmDir} (hf : Plain f) {k : Fin 12 → ℕ} :
    Matches f k ↔ nameOf f = k := by
  rw [funext_iff]
  exact forall_congr' fun i => or_iff_right (hf.clear i)

/-- **Comparing fifteen bytes is comparing the names and the extents**, on a disk without an extent
mask.

**Proof sketch.** The first twelve bytes are the name, byte 12 compares the extent byte modulo 32,
byte 13 is not compared, and byte 14 compares `S2` without its flag. Neither of the extent bytes is
a question mark. -/
lemma matching_pattern_iff {f e : CpmDir} (hxl : f.xl.toNat < 32) (hxh : f.xh.toNat % 128 < 32) :
    matching 0 15 f e = true ↔ Matches f (nameOf e) ∧ extOf f = extOf e := by
  have hq : (ch '?').toNat = 63 := by decide
  have hxl' : f.xl ≠ ch '?' := by
    rintro h
    rw [h] at hxl
    omega
  have hxh' : f.xh ≠ ch '?' := by
    rintro h
    rw [h] at hxh
    omega
  have h12 : matchByte 0 12 f.xl e.xl = true ↔ f.xl.toNat % 32 = e.xl.toNat % 32 := by
    rw [matchByte, if_pos rfl, ← sameExt_zero]
    simp [hxl']
  have h14 : matchByte 0 14 f.xh e.xh = true ↔ f.xh.toNat % 128 = e.xh.toNat % 128 := by
    rw [matchByte, if_neg (by omega), ← sub_and_7f]
    simp [hxh']
  have hext : extOf f = extOf e ↔
      f.xl.toNat % 32 = e.xl.toNat % 32 ∧ f.xh.toNat % 128 = e.xh.toNat % 128 := by
    unfold extOf
    omega
  rw [hext, ← h12, ← h14, matching, List.all_eq_true]
  constructor
  · intro h
    have hat : ∀ i : Fin 32, i.val < 15 → matchByte 0 i.val (f.toBytes i) (e.toBytes i) = true := by
      intro i hi
      have := h i (List.mem_finRange _)
      rw [Bool.or_eq_true, decide_eq_true_eq] at this
      exact this.resolve_left (by omega)
    refine ⟨fun i => (matchByte_iff f e i).mp (hat ⟨i, by omega⟩ (by simp; omega)),
      hat 12 (by decide), hat 14 (by decide)⟩
  · rintro ⟨hname, hxl, hxh⟩ i _
    rw [Bool.or_eq_true, decide_eq_true_eq]
    by_cases hi : i.val < 12
    · exact .inr ((matchByte_iff f e ⟨i, hi⟩).mpr (hname ⟨i, hi⟩))
    · rcases Nat.lt_or_ge i.val 15 with h15 | h15
      · right
        obtain h | h | h : i = 12 ∨ i = 13 ∨ i = 14 := by
          simp only [Fin.ext_iff]
          show i.val = 12 ∨ i.val = 13 ∨ i.val = 14
          omega
        · subst h
          exact hxl
        · subst h
          simp [matchByte]
        · subst h
          exact hxh
      · exact .inl h15

/-- The same for a name without question marks. -/
lemma matching_extent_iff {f e : CpmDir} (hf : Plain f) (hxl : f.xl.toNat < 32)
    (hxh : f.xh.toNat % 128 < 32) :
    matching 0 15 f e = true ↔ nameOf f = nameOf e ∧ extOf f = extOf e := by
  rw [matching_pattern_iff hxl hxh, hf.matches_iff]

/-- **The search for an empty entry** looks at the first byte.

**Proof sketch.** One byte is compared, which is that of the user. It matches the empty entry iff
it is `E5` or differs from it only in bits that are not compared, and a user below 32 does not. -/
lemma matching_empty_iff {exm : ℕ} {e : CpmDir} (he : e.Used → e.st.toNat < 32) :
    matching exm 1 CpmDir.empty e = true ↔ ¬ e.Used := by
  have hbyte : matching exm 1 CpmDir.empty e = true ↔
      matchByte exm 0 CpmDir.UNUSED e.st = true := by
    rw [matching, List.all_eq_true]
    constructor
    · intro h
      have := h 0 (List.mem_finRange _)
      rw [Bool.or_eq_true, decide_eq_true_eq] at this
      exact this.resolve_left (by decide)
    · intro h i _
      rw [Bool.or_eq_true, decide_eq_true_eq]
      by_cases hi : i.val = 0
      · obtain rfl : i = 0 := Fin.ext hi
        exact .inr h
      · exact .inl (by omega)
  rw [hbyte, matchByte_name (by omega) (by decide)]
  have hunused : CpmDir.UNUSED.toNat = 229 := rfl
  rw [hunused, CpmDir.Used, not_not]
  constructor
  · intro h
    by_contra hne
    have := he hne
    omega
  · intro h
    rw [h, hunused]

end Bdos

end Cpm22
