import Cpm22.Bdos.Entries
import Cpm22.Ccp.Dir

set_option relaxedAutoImplicit false
set_option autoImplicit false

/-!
# Erasing files

`ERA` converts the name behind the command and has the BDOS delete the files that it stands for; for
a name of question marks only it asks first. On a sound drive exactly the files that the typed words
stand for are gone then, and the blocks of all others are left.

## Main definitions

* `Cpm22.Ccp.erase` — the command.

## Main results

* `Cpm22.Ccp.erase_exact` — the files that are left.
-/

namespace Cpm22

namespace Ccp

open Bdos Bdos.Drive Bdos.File

/-! ## The command -/

/-- The file control block: `DSELECT` clears the drive and `AUTOSEL` stores the user there. -/
def eraseFcb (user : UInt8) (c : Converted) (e : CpmDir) : CpmDir := { c.put e with st := user }

/-- **`ERASE`**, `none` where it ends in a syntax error or the BDOS stops: whether there is the
message that there is no file, and the drive. The answer to the question must be exactly `Y`. -/
def erase (d : Dpb) (user cdrive : UInt8) (line answer : List UInt8) (e : CpmDir) (s : Drive) :
    Option (Bool × Drive) :=
  (convert cdrive line).bind fun c =>
    if c.marks = 11 ∧ answer ≠ [ch 'Y'] then some (false, s)
    else (delFile d (eraseFcb user c e) s).map fun s => (s.status == 0xff, s)

/-! ## What is left -/

/-- **The names that the words of an `ERA` command stand for.** -/
def Named (user : UInt8) (base ext : List UInt8) (k : Fin 12 → ℕ) : Prop :=
  charAt k 0 = user.toNat ∧ Fitted 8 base (fun i => charAt k (i + 1)) ∧
    Fitted 3 ext fun i => charAt k (i + 9)

/-- The deletion is of these names. -/
lemma matches_eraseFcb_iff {user : UInt8} {c : Converted} {base ext : List UInt8}
    (huser : user.toNat < 32) (hfx : c.fx = glob 8 base) (hex : c.ex = glob 3 ext) (e : CpmDir)
    (k : Fin 12 → ℕ) : Matches (eraseFcb user c e) k ↔ Named user base ext k := by
  have hfcb : eraseFcb user c e = ({ c with drive := user } : Converted).put e := rfl
  rw [hfcb, matches_put_charAt, agrees_user huser, Named, fitted_iff, fitted_iff, hfx, hex]
  exact Iff.rfl

/-- An erased entry is not used. -/
lemma not_used_erased (e : CpmDir) : ¬ (erased e).Used := not_not.mpr rfl

section Delete

variable {d : Dpb} {s s' : Drive} {g : CpmDir}

/-- **Deleting returns**, if no entry that the name stands for is read-only. -/
lemma delFile_returns (hd : Flat d) (hs : Sound d s s.slot) (hg : g.st.toNat < 32)
    (hro : ∀ n ≤ d.drm, Matches g (nameOf (s.slot n)) → readOnly (s.slot n) = false) :
    ∃ s', delFile d g s = some s' := by
  rcases eraFile_spec hd hs hg fun _ _ _ => rfl with ⟨-, n, hn, hm, hr⟩ | ⟨t, ht, -⟩
  · rw [hro n hn (matching_name_iff.mp hm)] at hr
    cases hr
  · exact ⟨stStatus t, by rw [delFile, ht, Option.map_some]⟩

/-- **`DELFILE` on a sound drive with no open file**: what is left.

**Proof sketch.** By `eraFile_spec`: a slot that matches is erased, and the others stay. Everything
that is said of the slots afterwards is read off from this, case by case. -/
lemma delFile_spec (hd : Flat d) (hs : Sound d s s.slot) (hg : g.st.toNat < 32)
    (h : delFile d g s = some s') : Sound d s' s'.slot ∧
      (∀ n ≤ d.drm, (s'.slot n).Used ↔ (s.slot n).Used ∧ ¬ Matches g (nameOf (s.slot n))) ∧
      (∀ n ≤ d.drm, (s'.slot n).Used → s'.slot n = s.slot n) ∧
      (∀ k r x, ¬ Matches g k → Stores d s s.slot k r x → Stores d s' s'.slot k r x) ∧
      (s'.status = 0xff ↔ ∀ n ≤ d.drm, ¬ Matches g (nameOf (s.slot n))) := by
  rcases eraFile_spec hd hs hg fun _ _ _ => rfl with ⟨hnone, -⟩ | ⟨t, ht, hsw, hstat⟩
  · rw [delFile, hnone] at h
    cases h
  · rw [delFile, ht] at h
    obtain rfl : stStatus t = s' := Option.some.inj h
    have hE : ∀ n ≤ d.drm, swept d g erased s.slot (d.drm + 1) n = t.slot n := by
      intro n hn
      rw [hsw.slot n hn, swept]
    have hslot : ∀ n ≤ d.drm, (stStatus t).slot n =
        if matching d.exm 12 g (s.slot n) = true then erased (s.slot n) else s.slot n := by
      intro n hn
      rw [show (stStatus t).slot n = t.slot n from rfl, hsw.slot n hn]
      simp only [show n < d.drm + 1 by omega, true_and]
    refine ⟨(hsw.sound.ext hE).same ⟨rfl, rfl, rfl, rfl, rfl⟩, fun n hn => ?_, fun n hn hu => ?_,
      fun k r x hk hx => ?_, ?_⟩
    · rw [hslot n hn]
      by_cases hm : matching d.exm 12 g (s.slot n) = true
      · rw [if_pos hm]
        exact iff_of_false (not_used_erased _) fun h => h.2 (matching_name_iff.mp hm)
      · rw [if_neg hm, and_iff_left fun h => hm (matching_name_iff.mpr h)]
    · rw [hslot n hn] at hu ⊢
      split at hu
      · exact absurd hu (not_used_erased _)
      · next hm => rw [if_neg hm]
    · obtain ⟨n, hn, hrest⟩ := stores_other hd hs hsw hk hx
      rw [hE n hn] at hrest
      exact ⟨n, hn, hrest⟩
    · rw [show (stStatus t).status = t.fndStat from rfl, hstat]
      split
      · next hex =>
        obtain ⟨n, hn, hm⟩ := hex
        exact iff_of_false (by decide) fun h => h n hn (matching_name_iff.mp hm)
      · next hno => exact iff_of_true rfl fun n hn hm => hno ⟨n, hn, matching_name_iff.mpr hm⟩

end Delete

/-- **`ERA` erases exactly the files that are asked for.** For every line that is converted, with
the question answered by `Y` if there is one, on a sound drive with no open file and if none of the
files is read-only: the command returns, the drive is sound again, an entry is used then exactly if
it was used and the typed words do not stand for its name, it is as it was, all records of such
files are as they were, and there is a message exactly if the words stood for no file.

**Proof sketch.** The converted name matches a name iff the typed words stand for it
(`matches_eraseFcb_iff`). The question is answered by `Y`, so that `DELFILE` is called, which
returns (`delFile_returns`) and does what `delFile_spec` says. -/
theorem erase_exact (d : Dpb) (s : Drive) (user cdrive : UInt8) (line answer : List UInt8)
    (c : Converted) (e : CpmDir) (hd : Flat d) (hs : Sound d s s.slot) (huser : user.toNat < 32)
    (h : convert cdrive line = some c) (hyes : c.marks = 11 → answer = [ch 'Y'])
    (hro : ∀ n ≤ d.drm, Matches (eraseFcb user c e) (nameOf (s.slot n)) →
      readOnly (s.slot n) = false) :
    ∃ base ext missing s', parts (driveOf cdrive (nonBlank line)).2.2 = some (base, ext, c.rest) ∧
      erase d user cdrive line answer e s = some (missing, s') ∧ Sound d s' s'.slot ∧
      (∀ n ≤ d.drm, (s'.slot n).Used ↔
        (s.slot n).Used ∧ ¬ Named user base ext (nameOf (s.slot n))) ∧
      (∀ n ≤ d.drm, (s'.slot n).Used → s'.slot n = s.slot n) ∧
      (∀ k r x, ¬ Named user base ext k → Stores d s s.slot k r x → Stores d s' s'.slot k r x) ∧
      (missing = true ↔ ∀ n ≤ d.drm, ¬ Named user base ext (nameOf (s.slot n))) := by
  have hconvert := h
  rw [convert_eq] at h
  obtain ⟨⟨base, ext, rest⟩, hp, hc⟩ := Option.map_eq_some_iff.mp h
  have hmatch (k : Fin 12 → ℕ) : Matches (eraseFcb user c e) k ↔ Named user base ext k :=
    matches_eraseFcb_iff huser (by rw [← hc]) (by rw [← hc]) e k
  have huser' : (eraseFcb user c e).st.toNat < 32 := huser
  obtain ⟨s', hdel⟩ := delFile_returns hd hs huser' hro
  obtain ⟨hsound, hused, hkept, hstores, hstat⟩ := delFile_spec hd hs huser' hdel
  simp only [hmatch] at hused hstores hstat
  refine ⟨base, ext, s'.status == 0xff, s', by rw [hp, ← hc], ?_, hsound, hused, hkept, hstores,
    by rw [beq_iff_eq, hstat]⟩
  rw [erase, hconvert, Option.bind_some, if_neg fun hno => hno.2 (hyes hno.1), hdel,
    Option.map_some]

/-- `erase_exact` for the pattern `*.*` on the small disk: its one file is erased. -/
theorem erase_exact_tiny : ∃ missing s', erase tinyDpb 0 0 [ch '*', ch '.', ch '*'] [ch 'Y']
    CpmDir.empty tinyDrive = some (missing, s') ∧ ¬ (s'.slot 0).Used := by
  have hconvert : convert 0 [ch '*', ch '.', ch '*'] =
      some ⟨0, 0, List.replicate 8 (ch '?'), List.replicate 3 (ch '?'), []⟩ := by decide
  obtain ⟨base, ext, missing, s', hp, herase, -, hused, -⟩ := erase_exact tinyDpb tinyDrive 0 0
    [ch '*', ch '.', ch '*'] [ch 'Y'] _ CpmDir.empty tiny_flat tiny_sound (by decide) hconvert
    (fun _ => rfl) fun n hn _ => by
      obtain rfl : n = 0 := Nat.le_zero.mp hn
      rw [tiny_slot]
      rfl
  have hparts : parts (driveOf 0 (nonBlank [ch '*', ch '.', ch '*'])).2.2 =
      some ([ch '*'], [ch '*'], []) := by decide
  rw [hparts, Option.some.injEq, Prod.mk.injEq, Prod.mk.injEq] at hp
  obtain ⟨rfl, rfl, -⟩ := hp
  refine ⟨missing, s', herase, fun hu => ((hused 0 le_rfl).mp hu).2 ?_⟩
  rw [tiny_slot]
  exact ⟨rfl, .inl rfl, .inl rfl⟩

end Ccp

end Cpm22
