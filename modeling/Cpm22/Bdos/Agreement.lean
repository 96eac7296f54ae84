import Cpm22.Bdos.Entries
import Cpm22.Bdos.Size
import Cpm22.Disk.ImportLength
import Cpm22.Disk.NameMap

set_option relaxedAutoImplicit false
set_option autoImplicit false

/-!
# The directory calls on a drive and on a host directory

Some routines of the BDOS are embedded twice. The modules about the image of a disk run them against
the files of the host, where every directory write is followed by `Flush` and the record number of
`COMPRAND` is a number; the modules about the calls run them on the sectors of a drive, with the
allocation vector and the bytes of the file control block. Here the two are compared: on a disk that
has the directory of a drive they compute the same number and leave the same entries.

A slot that is written with an entry that compares equal keeps its old entry on the host
(`Cpm22.Disk.kept`), which is the one difference.

## Main definitions

* `Cpm22.Bdos.Mirrors` — the disk has the directory of the drive.

## Main results

* `Cpm22.Bdos.File.endOf_eq_comprand` — the two embeddings of `COMPRAND`.
* `Cpm22.Bdos.File.random_ranSize_eq` — the two embeddings of `RANSIZE`.
* `Cpm22.Bdos.closed_eq_merge` — the two embeddings of `CLOSEIT`, for one entry.
* `Cpm22.Bdos.eraFile_mirrors`, `chgNames_mirrors`, `saveAttr_mirrors` — the two embeddings of
  `ERAFILE`, `CHGNAMES` and `SAVEATTR`.
-/

namespace Cpm22

namespace Bdos

open Disk

/-! ## Record numbers -/

namespace File

variable {d : Dpb} {s : Drive} {E : ℕ → CpmDir} {f : FileFcb}

/-- Two bytes that are 0 or 1, put together. -/
lemma toNat_or_bits {a b : ℕ} (ha : a < 2) (hb : b < 2) :
    (UInt8.ofNat a ||| UInt8.ofNat b).toNat = if a = 1 ∨ b = 1 then 1 else 0 := by
  obtain rfl | rfl : a = 0 ∨ a = 1 := by omega
  · obtain rfl | rfl : b = 0 ∨ b = 1 := by omega
    · rfl
    · rfl
  · obtain rfl | rfl : b = 0 ∨ b = 1 := by omega
    · rfl
    · rfl

/-- **Both embeddings of `COMPRAND` compute the same number**, whatever the bytes of the entry are.

**Proof sketch.** The two lower bytes are sums of the same parts. The third one has the bit that the
fourth doubling of `S2` shifts out and the carry of the addition to `R1`, and each of them is 0
or 1. -/
lemma endOf_eq_comprand (e : CpmDir) : endOf e = e.comprand := by
  have hrc := e.rc.toNat_lt
  have hxh := e.xh.toNat_lt
  obtain ⟨h80, h0f⟩ := toNat_rotr_and e.xl
  have hs8 : ((fun a : UInt8 => a + a)^[3] e.xh).toNat = 8 * (e.xh.toNat % 32) := by
    simp only [Function.iterate_succ, Function.iterate_zero, Function.comp_apply, id_eq,
      UInt8.toNat_add]
    omega
  have hs16 : ((fun a : UInt8 => a + a)^[4] e.xh).toNat = 16 * e.xh.toNat % 256 := by
    simp only [Function.iterate_succ, Function.iterate_zero, Function.comp_apply, id_eq,
      UInt8.toNat_add]
    omega
  have hzero : UInt8.toNat 0 = 0 := rfl
  -- the byte `B` has room for the carry of the lowest byte
  have hb : (e.xl.toNat / 2 % 16 + (0 + (128 * (e.xl.toNat % 2) + e.rc.toNat) / 256 % 2 ^ 8) %
      2 ^ 8) % 2 ^ 8 = (e.rc.toNat + 128 * (e.xl.toNat % 2)) / 256 + e.xl.toNat / 2 % 16 := by
    omega
  simp only [endOf, comPRand, CpmDir.comprand, UInt8.toNat_add, UInt8.toNat_ofNat', h80, h0f, hs8,
    hs16, hzero, hb]
  rw [toNat_or_bits (by omega) (by omega)]
  have hor : ((8 * (e.xh.toNat % 32) + 8 * (e.xh.toNat % 32)) / 256 = 1 ∨
      (16 * e.xh.toNat % 256 + ((e.rc.toNat + 128 * (e.xl.toNat % 2)) / 256 +
        e.xl.toNat / 2 % 16)) / 256 = 1) ↔
      (e.xh.toNat / 16 % 2 = 1 ∨ 256 ≤ 16 * e.xh.toNat % 256 +
        ((e.rc.toNat + 128 * (e.xl.toNat % 2)) / 256 + e.xl.toNat / 2 % 16)) := by
    omega
  rw [if_congr hor rfl rfl]
  omega

/-- **A round of `RANSIZ1` is a step of the loop on numbers.** -/
lemma random_ranSiz1_comprand (e : CpmDir) (f : FileFcb) :
    random (ranSiz1 e f) = if e.comprand < random f then random f else e.comprand := by
  rw [random_ranSiz1, endOf_eq_comprand]
  split <;> omega

/-- **Both embeddings of `RANSIZE` compute the same size** on a sound drive whose slots are the
directory, where the key is that of the entries that the file control block stands for.

**Proof sketch.** Both sizes are least upper bounds: a number is at least either of them iff no
entry of the name ends behind it. The end of an entry is the same number in both, and the entries
of the name are the same by the hypothesis on the key. -/
lemma random_ranSize_eq (hs : Sound d s E) (hst : f.entry.st.toNat < 32) {dir : List CpmDir}
    (hdir : dir = (List.range d.directoryEntries).map s.slot) {k : Bytes}
    (hk : ∀ e ∈ dir, e.Used → (Matches f.entry (nameOf e) ↔ e.getName = k)) :
    random (ranSize d f s).1 = ransize dir k := by
  obtain ⟨-, hle⟩ := ranSize_spec f hs hst
  refine eq_of_forall_ge_iff fun b => ?_
  rw [hle, ransize_le]
  have hnum : ∀ n ≤ d.drm, (s.slot n).Used →
      (s.slot n).comprand = 128 * extOf (s.slot n) + (s.slot n).rc.toNat := by
    intro n hn hu
    have hview := hs.view n hn
    have hproper := hs.orderly.proper n hn (hview.used_iff.mpr hu)
    have hxh : (s.slot n).xh = (E n).xh := by rw [hview.same]
    rw [← endOf_eq_comprand, endOf_eq (by rw [hxh]; exact hproper.xh)]
  have hmem : ∀ n ≤ d.drm, s.slot n ∈ dir := fun n hn => by
    rw [hdir]
    exact List.mem_map_of_mem (List.mem_range.mpr (Nat.lt_succ_of_le hn))
  constructor
  · intro h e he
    obtain ⟨he, hp⟩ := List.mem_filter.mp he
    obtain ⟨hu, hkey⟩ := of_decide_eq_true hp
    obtain ⟨n, hn, rfl⟩ := List.mem_map.mp (hdir ▸ he)
    have hn' : n ≤ d.drm := Nat.le_of_lt_succ (List.mem_range.mp hn)
    rw [hnum n hn' hu]
    exact h n hn' hu ((hk _ he hu).mpr hkey)
  · intro h n hn hu hm
    rw [← hnum n hn hu]
    exact h _ (List.mem_filter.mpr ⟨hmem n hn, decide_eq_true ⟨hu, (hk _ (hmem n hn) hu).mp hm⟩⟩)

end File

/-! ## Closing -/

/-- A pointer of the pointers that are merged. -/
lemma pointer_merged {bps : ℕ} (hp : bps = 8 ∨ bps = 16) (u v : CpmDir) {j : ℕ} (hj : j < bps) :
    ({ v with al := merged bps u v } : CpmDir).pointer bps j =
      if v.pointer bps j = 0 then u.pointer bps j else v.pointer bps j := by
  have hbyte : ∀ i (hi : i < 16), i / (16 / bps) = j →
      ({ v with al := merged bps u v } : CpmDir).getALByte i =
        if v.pointer bps j = 0 then u.getALByte i else v.getALByte i := by
    intro i hi hij
    simp only [CpmDir.getALByte, dif_pos hi, merged, hij]
    split <;> rfl
  rcases hp with rfl | rfl
  · have hlow := hbyte (2 * j) (by omega) (by omega)
    have hhigh := hbyte (2 * j + 1) (by omega) (by omega)
    rw [CpmDir.pointer, if_neg (by decide), CpmDir.getALWord, hlow, hhigh]
    split
    · rfl
    · rfl
  · rw [CpmDir.pointer, if_pos rfl, hbyte j hj (by omega)]
    rfl

/-- **Both embeddings of `CLOSEIT` merge to the same entry**, if the directory lags behind the file
control block. -/
lemma closed_eq_merge {d : Dpb} {fcb : Fcb} {v : CpmDir} (h : Lags d v fcb.entry) :
    ∃ w, File.merge (pointers d) (List.range (pointers d)) fcb.entry v = (true, fcb.entry, w) ∧
      closed (pointers d) fcb v =
        some (if fcb.entry.xl < w.xl then w else
          { w with xl := fcb.entry.xl, rc := fcb.entry.rc }) := by
  have hal : merged (pointers d) fcb.entry v = fcb.entry.al := by
    refine CpmDir.al_ext (u := { v with al := merged (pointers d) fcb.entry v }) (pointers_cases d)
      fun j hj => ?_
    rw [pointer_merged (pointers_cases d) _ _ hj]
    split
    · rfl
    · rename_i hne
      exact (h j hj hne).symm
  have hable : mergeable (pointers d) fcb.entry v = true := by
    refine List.all_eq_true.mpr fun j hj => ?_
    by_cases hzero : v.pointer (pointers d) j = 0
    · simp [hzero]
    · simp [h j (List.mem_range.mp hj) hzero]
  refine ⟨_, File.merge_of_lags h, ?_⟩
  rw [closed, if_pos hable, hal]

/-! ## The calls for all entries of a name -/

variable {g : Geometry} {dk dk' : Disk} {s t : Drive} {E : ℕ → CpmDir} {fcb : Fcb} {b : Bool}

/-- **The disk has the directory of the drive.** -/
def Mirrors (g : Geometry) (dk : Disk) (s : Drive) : Prop :=
  ∀ n < g.dpb.directoryEntries, dk.dir[n]? = some (s.slot n)

/-- **The slots after a search that changes every match**, if it ends at none of them.

**Proof sketch.** Induction on the slots that are left. A directory write changes the slot that the
search is at, so that the slots ahead are as they were. -/
lemma dir_of_sweep {p : CpmDir → Bool} {act : CpmDir → Option CpmDir} {change : CpmDir → CpmDir}
    {ns : List ℕ} : ∀ {dk : Disk} {b : Bool}, ns.Nodup → (∀ n ∈ ns, n < dk.dir.length) →
      (∀ n ∈ ns, ∀ e, dk.dir[n]? = some e → p e = true → act e = some (change e)) →
      sweep p act true ns dk = .ok b dk' → ∀ n e, dk.dir[n]? = some e →
      dk'.dir[n]? = some (if n ∈ ns ∧ p e = true then kept e (change e) else e) := by
  induction ns with
  | nil =>
    intro dk b _ _ _ h n e hat
    cases h
    simpa using hat
  | cons m ns ih =>
    intro dk b hnd hlen hact h n e hat
    rw [List.nodup_cons] at hnd
    obtain ⟨old, hold, hdir⟩ := dirAt_of_lt (hlen m (by simp))
    rw [sweep, Exc.bind_of_ok hdir] at h
    by_cases hp : p old = true
    · rw [if_pos hp, hact m (by simp) old hold hp] at h
      simp only [if_true] at h
      obtain ⟨⟨⟩, dk₁, h1, h2⟩ := Exc.bind_ok.mp h
      obtain ⟨b₂, dk₂, h2, h3⟩ := Exc.bind_ok.mp h2
      cases h3
      obtain ⟨-, old', hold', hd⟩ := replace_ok h1
      rw [hold, Option.some.injEq] at hold'
      subst hold'
      have hsame : ∀ i ∈ ns, dk₁.dir[i]? = dk.dir[i]? := fun i hi => by
        rw [hd, List.getElem?_set_ne]
        rintro rfl
        exact hnd.1 hi
      have hrest := ih hnd.2 (fun i hi => by rw [hd, List.length_set]; exact hlen i (by simp [hi]))
        (fun i hi e he => hact i (by simp [hi]) e (hsame i hi ▸ he)) h2
      by_cases hnm : n = m
      · subst hnm
        rw [hold, Option.some.injEq] at hat
        subst hat
        rw [hrest n _ (by rw [hd, List.getElem?_set_self (hlen n (by simp))]),
          if_neg fun hh => hnd.1 hh.1, if_pos ⟨by simp, hp⟩]
      · rw [hrest n e (by rw [hd, List.getElem?_set_ne (Ne.symm hnm), hat])]
        simp [hnm]
    · rw [if_neg hp] at h
      rw [ih hnd.2 (fun i hi => hlen i (by simp [hi]))
        (fun i hi => hact i (by simp [hi])) h n e hat]
      by_cases hnm : n = m
      · subst hnm
        rw [hold, Option.some.injEq] at hat
        subst hat
        simp [hp]
      · simp [hnm]

/-- **A search on the disk and the rounds on the drive** that make the same change leave the same
entries.

**Proof sketch.** Both sides go over all slots. The search replaces each match by its changed entry
(`dir_of_sweep`), and the rounds leave the same in the slot; an entry of the view matches iff its
slot does, as both have the same name. -/
lemma Mirrors.swept (hg : g.Regular) (h : Housed g dk) (hm : Mirrors g dk s)
    {act : CpmDir → Option CpmDir} {change : CpmDir → CpmDir} (hs : Sound g.dpb s E)
    (hact : ∀ n ≤ g.dpb.drm, matching g.dpb.exm 12 fcb.entry (s.slot n) = true →
      act (s.slot n) = some (change (s.slot n)))
    (hset : ∀ n ≤ g.dpb.drm, matching g.dpb.exm 12 fcb.entry (E n) = true → E n = s.slot n)
    (hsw : Swept g.dpb fcb.entry change s E (g.dpb.drm + 1) t)
    (hrun : search g (matching g.dpb.exm 12 fcb.entry) act true dk = .ok b dk') :
    ∀ n < g.dpb.directoryEntries, dk'.dir[n]? = some (kept (s.slot n) (t.slot n)) := by
  intro n hn
  have hle : n ≤ g.dpb.drm := Nat.le_of_lt_succ hn
  have hname : matching g.dpb.exm 12 fcb.entry (E n) = matching g.dpb.exm 12 fcb.entry (s.slot n) :=
    matching_congr (hs.view n hle).keys.1
  have hact' : ∀ i ∈ List.range g.dpb.directoryEntries, ∀ e, dk.dir[i]? = some e →
      matching g.dpb.exm 12 fcb.entry e = true → act e = some (change e) := by
    intro i hi e he hp
    have hi' := List.mem_range.mp hi
    rw [hm i hi', Option.some.injEq] at he
    subst he
    exact hact i (Nat.le_of_lt_succ hi') hp
  rw [search_eq hg h] at hrun
  rw [dir_of_sweep List.nodup_range
    (fun i hi => by rw [h.len]; exact List.mem_range.mp hi) hact' hrun
    n _ (hm n hn), hsw.slot n hle, hname]
  by_cases hp : matching g.dpb.exm 12 fcb.entry (s.slot n) = true
  · rw [if_pos ⟨List.mem_range.mpr hn, hp⟩, if_pos ⟨Nat.lt_succ_of_le hle, hp⟩,
      hset n hle (by rw [hname]; exact hp)]
  · rw [if_neg fun hh => hp hh.2, if_neg fun hh => hp hh.2, kept, ite_self]

/-- **Both embeddings of `ERAFILE` erase the same entries**, where no entry of the name is
read-only. -/
lemma eraFile_mirrors (hg : g.Regular) (hd : Flat g.dpb) (h : Housed g dk) (hm : Mirrors g dk s)
    (hs : Sound g.dpb s E)
    (hset : ∀ n ≤ g.dpb.drm, matching g.dpb.exm 12 fcb.entry (E n) = true → E n = s.slot n)
    (hro : ∀ n ≤ g.dpb.drm, matching g.dpb.exm 12 fcb.entry (s.slot n) = true →
      readOnly (s.slot n) = false) (hrun : eraFile g fcb dk = .ok b dk') :
    ∃ t, File.eraFile g.dpb fcb.entry s = some t ∧
      ∀ n < g.dpb.directoryEntries, dk'.dir[n]? = some (kept (s.slot n) (t.slot n)) := by
  rcases File.eraFile_spec hd hs fcb.user hset with ⟨-, n, hn, hmatch, hread⟩ | ⟨t, ht, hsw, -⟩
  · have hentry := hset n hn hmatch
    rw [hentry] at hmatch hread
    rw [hro n hn hmatch] at hread
    cases hread
  · refine ⟨t, ht, hm.swept hg h hs (fun n hn hp => ?_) hset hsw hrun⟩
    rw [hro n hn hp]
    rfl

/-- **Both embeddings of `CHGNAMES` give the same entries the new name**, where no entry of the old
name is read-only and none has the new one. -/
lemma chgNames_mirrors (hg : g.Regular) (hd : Flat g.dpb) (h : Housed g dk) (hm : Mirrors g dk s)
    (hs : Sound g.dpb s E) (hp : Plain fcb.entry) (hnew : Plain (File.newName fcb.entry))
    (hset : ∀ n ≤ g.dpb.drm, matching g.dpb.exm 12 fcb.entry (E n) = true → E n = s.slot n)
    (hno : ∀ n ≤ g.dpb.drm, (E n).Used → nameOf (E n) ≠ nameOf (File.newName fcb.entry))
    (hro : ∀ n ≤ g.dpb.drm, matching g.dpb.exm 12 fcb.entry (s.slot n) = true →
      readOnly (s.slot n) = false) (hrun : chgNames g fcb dk = .ok b dk') :
    ∃ f t, File.chgNames g.dpb fcb.entry s = some (f, t) ∧
      ∀ n < g.dpb.directoryEntries, dk'.dir[n]? = some (kept (s.slot n) (t.slot n)) := by
  rcases File.chgNames_spec hd hs hp hnew hset hno with ⟨-, n, hn, hmatch, hread⟩ | ⟨t, ht, hsw, -⟩
  · have hentry := hset n hn hmatch
    rw [hentry] at hmatch hread
    rw [hro n hn hmatch] at hread
    cases hread
  · refine ⟨_, t, ht, hm.swept hg h hs (fun n hn hp => ?_) hset hsw hrun⟩
    rw [hro n hn hp]
    rfl

/-- **Both embeddings of `SAVEATTR` give the same entries the attributes.** -/
lemma saveAttr_mirrors (hg : g.Regular) (hd : Flat g.dpb) (h : Housed g dk) (hm : Mirrors g dk s)
    (hs : Sound g.dpb s E) (hp : Plain fcb.entry)
    (hset : ∀ n ≤ g.dpb.drm, matching g.dpb.exm 12 fcb.entry (E n) = true → E n = s.slot n)
    (hrun : saveAttr g fcb dk = .ok b dk') :
    ∃ t, File.saveAttr g.dpb fcb.entry s = some t ∧
      ∀ n < g.dpb.directoryEntries, dk'.dir[n]? = some (kept (s.slot n) (t.slot n)) := by
  obtain ⟨t, ht, hsw, -⟩ := File.saveAttr_spec hd hs hp hset
  exact ⟨t, ht, hm.swept hg h hs (fun _ _ _ => rfl) hset hsw hrun⟩

end Bdos

end Cpm22
