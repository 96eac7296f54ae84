import Cpm22.Bdos.Sequential
import Cpm22.Ccp.Erase
import Cpm22.Ccp.Numbers

set_option relaxedAutoImplicit false
set_option autoImplicit false

/-!
# Saving the memory

`SAVE n name` writes `n` pages of the memory from `TBASE` on to a file: an old file of the name is
deleted, a new one is made, the records are written one after the other, and the file is closed.

## Main definitions

* `Cpm22.Ccp.save` — the command.
* `Cpm22.Ccp.saveLoop` — its loop over the records.

## Main results

* `Cpm22.Ccp.saveFile_returns` — the command returns.
* `Cpm22.Ccp.save_stores` — a file that was saved has the memory, and no other file has changed.
-/

namespace Cpm22

namespace Ccp

open Bdos Bdos.File

/-! ## The command -/

/-- The record `i` of the memory from `TBASE` on. `mem i` is the memory when this record is written:
the program area stays as it is while it is saved, but pages above it, where the CCP and the BDOS
have their variables, may not. -/
def pageRecord (mem : ℕ → ℕ → UInt8) (i : ℕ) : Sector := fun j => mem i (0x100 + 128 * i + j)

/-- The file control block: `CONVERT` stores the name, `DSELECT` clears the drive and `AUTOSEL`
stores the user there. -/
def saveFcb (user : UInt8) (c : Converted) (f : FileFcb) : FileFcb :=
  { f with entry := { c.put f.entry with st := user } }

variable (d : Dpb)

/-- **The rounds of `SAVE1`**, with the number of records that are left and the next one: whether
all were written without an error. -/
def saveLoop (mem : ℕ → ℕ → UInt8) : ℕ → ℕ → FileFcb → Drive → Option (Bool × FileFcb × Drive)
  | 0, _, f, s => some (true, f, s)
  | k + 1, i, f, s =>
    match wtSeq d f { s with dma := pageRecord mem i, status := 0 } with
    | none => none
    | some (f, s) => if s.status = 0 then saveLoop mem k (i + 1) f s else some (false, f, s)

/-- **`SAVE`** behind the conversion of its parameters, `none` where the BDOS stops: whether there
was no message, and the drive. -/
def saveFile (mem : ℕ → ℕ → UInt8) (n : UInt8) (f : FileFcb) (s : Drive) : Option (Bool × Drive) :=
  match delFile d f.entry s with
  | none => none
  | some s =>
    match fCreate d f { s with status := 0 } with
    | none => none
    | some (f, s) =>
      if s.status = 0xff then some (false, s)
      else
        match saveLoop d mem (2 * n.toNat) 0 { f with cr := 0 } s with
        | none => none
        | some (false, _, s) => some (false, s)
        | some (true, f, s) =>
          let s := (closeIt d f { s with status := 0 }).2.1
          -- `ENTRY1` has incremented the status, and `SAVE2` does it once more
          some (s.status + 2 != 0, s)

/-- **`SAVE`**, `none` where it ends in a syntax error or the BDOS stops. -/
def save (user : UInt8) (mem : ℕ → ℕ → UInt8) (cdrive : UInt8) (line : List UInt8) (f : FileFcb)
    (s : Drive) : Option (Bool × Drive) :=
  (decode cdrive line).bind fun (n, c) =>
    (convert cdrive c.rest).bind fun c =>
      if c.marks = 0 then saveFile d mem n (saveFcb user c f) s else none

/-! ## The steps -/

variable {d} {s s' : Drive} {f f' : FileFcb} {mem : ℕ → ℕ → UInt8}

/-- **The records that are written.**

**Proof sketch.** Induction on the number of records. The loop ends without an error only if each
write had status 0, and then it is the write of this record and the loop over the rest. -/
lemma writeAll_of_saveLoop (k i : ℕ) (h : saveLoop d mem k i f s = some (true, f', s')) :
    writeAll d ((List.range' i k).map (pageRecord mem)) f s = some (f', s') := by
  induction k generalizing i f s with
  | zero =>
    obtain ⟨rfl, rfl⟩ := Prod.mk.inj (Prod.mk.inj (Option.some.inj h)).2
    rfl
  | succ k ih =>
    rw [saveLoop] at h
    rw [List.range'_succ, List.map_cons, writeAll]
    cases hwt : wtSeq d f { s with dma := pageRecord mem i, status := 0 } with
    | none =>
      rw [hwt] at h
      cases h
    | some r =>
      obtain ⟨f₁, s₁⟩ := r
      rw [hwt] at h
      simp only at h ⊢
      split at h
      · next h0 =>
        rw [if_pos h0]
        exact ih _ h
      · cases h

/-- `GETEMPTY` does not look at the record of the file control block. -/
lemma fCreate_cr (f : FileFcb) (s : Drive) : fCreate d { f with cr := 0 } s =
    (fCreate d f s).map fun r => ({ r.1 with cr := 0 }, r.2) := by
  unfold fCreate File.getEmpty
  split
  · rfl
  · simp only
    split
    · rfl
    · rfl

/-- **Deleting a file without question marks**: it is absent then, and no other file has changed. -/
lemma delFile_absent {g : CpmDir} (hd : Flat d) (hs : Sound d s s.slot) (hg : Plain g)
    (h : delFile d g s = some s') : Sound d s' s'.slot ∧
      (∀ n ≤ d.drm, (s'.slot n).Used → nameOf (s'.slot n) ≠ nameOf g) ∧
      ∀ k r x, k ≠ nameOf g → Stores d s s.slot k r x → Stores d s' s'.slot k r x := by
  obtain ⟨hsound, hused, hkept, hstores, -⟩ := delFile_spec hd hs hg.user h
  refine ⟨hsound, fun n hn hu hname => ?_, fun k r x hk => hstores k r x fun hm => ?_⟩
  · rw [hkept n hn hu] at hname
    exact ((hused n hn).mp hu).2 (hg.matches_iff.mpr hname.symm)
  · exact hk (hg.matches_iff.mp hm).symm

/-- **A new file in the place of an old one** is a writer of no records. The record of the file
control block is cleared behind the call. -/
lemma writer_of_made {t s₁ : Drive} {f₁ : FileFcb} (hd : Flat d) (hs : Sound d s s.slot)
    (hp : Plain f.entry) (hxl : f.entry.xl = 0) (hro : readOnly f.entry = false)
    (hdel : delFile d f.entry s = some t)
    (hmake : fCreate d f { t with status := 0 } = some (f₁, s₁))
    (hst : s₁.status ≠ 0xff) : ∃ E₁, Writer d s₁ E₁ { f₁ with cr := 0 } 0 ∧
      Keeps d { t with status := 0 } t.slot { f with cr := 0 } s₁ E₁ { f₁ with cr := 0 } ∧
      ∀ k r x, k ≠ nameOf f.entry → Stores d s s.slot k r x → Stores d s₁ E₁ k r x := by
  obtain ⟨hsound, habs, hother⟩ := delFile_absent hd hs hp hdel
  have hsound₀ : Sound d { t with status := 0 } ({ t with status := 0 } : Drive).slot :=
    hsound.same ⟨rfl, rfl, rfl, rfl, rfl⟩
  have hmake' : fCreate d { f with cr := 0 } { t with status := 0 } =
      some ({ f₁ with cr := 0 }, s₁) := by
    rw [fCreate_cr, hmake, Option.map_some]
  obtain ⟨E₁, hw, -, hk, hpres⟩ := fCreate_writer (f := { f with cr := 0 }) hd hsound₀ hp hxl rfl
    hro habs hmake' hst
  exact ⟨E₁, hw, hk, fun k r x hne hx => hpres k r x (hother k r x hne hx)⟩

/-- **The file that a writer has closed**: its directory is on the disk, and no other file of the
state before has changed.

**Proof sketch.** Closing puts the newest entries of the file into the directory (`closeIt_spec`),
and those of other files were there, since no other file is open. So the view is the directory of
the disk, and what is said of the view holds of it. -/
lemma closed_stores {E₂ : ℕ → CpmDir} {f₂ : FileFcb} {s₂ : Drive} {len : ℕ} (hd : Flat d)
    (hk : Keeps d s s.slot f s₂ E₂ f₂) (hw : Writer d s₂ E₂ f₂ len) :
    ∃ s₃, s₃ = (closeIt d f₂ { s₂ with status := 0 }).2.1 ∧ Sound d s₃ s₃.slot ∧
      Stops d s₃.slot (nameOf f.entry) len ∧
      ∀ k r x, Stores d s₂ E₂ k r x → Stores d s₃ s₃.slot k r x := by
  have hsame : s₂.SameDisk { s₂ with status := 0 } := ⟨rfl, rfl, rfl, rfl, rfl⟩
  have hk₂ : Keeps d s₂ E₂ f₂ { s₂ with status := 0 } E₂ f₂ :=
    keeps_same hw.sound hw.coherent hsame rfl
  obtain ⟨-, hk₃, hset, hpres, -⟩ := closeIt_spec hd hk₂.sound hk₂.coherent fun h =>
    (hw.behind.usable h).imp fun n ha => ha.congr rfl rfl
  refine ⟨_, rfl, ?_⟩
  have hall := (hk.trans hk₂).trans hk₃
  -- the entries of the file were closed, and those of other files are as they were
  have hE : ∀ n ≤ d.drm, E₂ n = (closeIt d f₂ { s₂ with status := 0 }).2.1.slot n := by
    intro n hn
    by_cases hmine : Mine s.slot f n
    · exact hset n hn fun hu => (hall.mine n hn hmine hu).trans hall.name.symm
    · obtain ⟨hu, hne⟩ := Classical.not_imp.mp hmine
      obtain ⟨h1, h2⟩ := hall.others n hn hu hne
      exact h1.trans h2.symm
  refine ⟨hk₃.sound.ext hE, ?_, fun k r x hx => ?_⟩
  · have hstop := hw.stops
    rw [hk.name] at hstop
    intro n hn
    rw [← hE n hn]
    exact hstop n hn
  · obtain ⟨n, hn, hrest⟩ := hpres _ _ _ (preserves_same hsame _ _ _ hx)
    rw [hE n hn] at hrest
    exact ⟨n, hn, hrest⟩

/-- **A file that was saved**, behind the conversion.

**Proof sketch.** After deleting, the file is made, which gives a writer of no records
(`writer_of_made`). The loop of `SAVE` is a run of sequential writes (`writeAll_of_saveLoop`), and
closing puts the last extent into the directory. -/
lemma saveFile_stores {n : UInt8} (hd : Flat d) (hs : Sound d s s.slot) (hp : Plain f.entry)
    (hxl : f.entry.xl = 0) (hro : readOnly f.entry = false)
    (h : saveFile d mem n f s = some (true, s')) : Sound d s' s'.slot ∧
      (∀ i < 2 * n.toNat, Stores d s' s'.slot (nameOf f.entry) i (pageRecord mem i)) ∧
      Stops d s'.slot (nameOf f.entry) (2 * n.toNat) ∧
      ∀ k r x, k ≠ nameOf f.entry → Stores d s s.slot k r x → Stores d s' s'.slot k r x := by
  rw [saveFile] at h
  cases hdel : delFile d f.entry s with
  | none =>
    rw [hdel] at h
    cases h
  | some t =>
    rw [hdel] at h
    simp only at h
    cases hmake : fCreate d f { t with status := 0 } with
    | none =>
      rw [hmake] at h
      cases h
    | some r =>
      obtain ⟨f₁, s₁⟩ := r
      rw [hmake] at h
      simp only at h
      split at h
      · cases h
      · next hff =>
        obtain ⟨E₁, hw₁, hk₁, hother⟩ := writer_of_made hd hs hp hxl hro hdel hmake hff
        split at h
        · cases h
        · cases h
        · next f₂ s₂ hloop =>
          obtain ⟨E₂, hw₂, hk₂, hrecs, hothers⟩ := writeAll_spec hd _ _ _ E₁ 0 hw₁
            (writeAll_of_saveLoop _ _ hloop)
          obtain ⟨s₃, hs₃, hsound, hstop, hstores⟩ := closed_stores hd (hk₁.trans hk₂) hw₂
          obtain rfl : s₃ = s' := by
            rw [hs₃]
            exact (Prod.mk.inj (Option.some.inj h)).2
          have hname₁ : nameOf ({ f₁ with cr := 0 } : FileFcb).entry = nameOf f.entry := hk₁.name
          refine ⟨hsound, fun i hi => hstores _ _ _ ?_, ?_, fun k r x hk hx => hstores _ _ _ ?_⟩
          · have hrec := hrecs i (pageRecord mem i) (by simp [hi])
            rwa [hname₁, Nat.zero_add] at hrec
          · simpa using hstop
          · exact hothers k r x (.inl (by rwa [hname₁])) (hother k r x hk hx)

/-! ## The command returns -/

/-- A call of a writer returns, and if there is no error it is a writer again. -/
lemma writer_returns {E : ℕ → CpmDir} {len : ℕ} (hd : Flat d) (hw : Writer d s E f len)
    (x : Sector) : ∃ f₁ s₁, wtSeq d f { s with dma := x, status := 0 } = some (f₁, s₁) ∧
      (s₁.status = 0 → ∃ E₁, Writer d s₁ E₁ f₁ (len + 1)) := by
  have hsame : s.SameDisk { s with dma := x, status := 0 } := ⟨rfl, rfl, rfl, rfl, rfl⟩
  have hk₀ : Keeps d s E f { s with dma := x, status := 0 } E f :=
    keeps_same hw.sound hw.coherent hsame rfl
  obtain ⟨⟨n, ha, hcr⟩, hlt⟩ | ⟨h128, -, -⟩ := hw.behind
  · obtain ⟨f₁, s₁, E₁, hwt, hk, hcase⟩ := wtSeq_spec hd hk₀.sound hk₀.coherent hw.writable rfl
      ⟨n, ha.congr rfl rfl, hcr⟩ hlt hw.stops
    refine ⟨f₁, s₁, hwt, fun h0 => ?_⟩
    rcases hcase with ⟨-, -, hbehind, hstop, -⟩ | ⟨h2, -⟩
    · exact ⟨E₁, hk.sound, hk.coherent, hk.writable hw.writable, hbehind, hk.name ▸ hstop⟩
    · rw [h2] at h0
      exact absurd h0 (by decide)
  · exact ⟨_, _, hw.wtSeq_full hd h128 x, fun h0 => absurd h0 (by simp)⟩

/-- **The loop returns.** -/
lemma saveLoop_returns (hd : Flat d) (k : ℕ) : ∀ (i : ℕ) (f : FileFcb) (s : Drive)
    (E : ℕ → CpmDir) (len : ℕ), Writer d s E f len → ∃ r, saveLoop d mem k i f s = some r := by
  induction k with
  | zero =>
    intro i f s E len _
    exact ⟨_, rfl⟩
  | succ k ih =>
    intro i f s E len hw
    obtain ⟨f₁, s₁, hwt, hnext⟩ := writer_returns hd hw (pageRecord mem i)
    rw [saveLoop, hwt]
    simp only
    split
    · next h0 =>
      obtain ⟨E₁, hw₁⟩ := hnext h0
      exact ih _ _ _ _ _ hw₁
    · exact ⟨_, rfl⟩

/-- Making a file returns. -/
lemma fCreate_returns (hs : s.wrtPrt = false) (f : FileFcb) : ∃ r, fCreate d f s = some r := by
  unfold fCreate File.getEmpty
  rw [if_neg (by simp [hs])]
  simp only
  split
  · exact ⟨_, rfl⟩
  · exact ⟨_, rfl⟩

/-- **`SAVE` returns**, if no entry of the old file is read-only.

**Proof sketch.** Deleting returns, since no entry is read-only, and making the file returns on a
drive that is not protected. Then the file control block is a writer, whose writes return
(`saveLoop_returns`). -/
lemma saveFile_returns (mem : ℕ → ℕ → UInt8) (n : UInt8) (hd : Flat d) (hs : Sound d s s.slot)
    (hp : Plain f.entry) (hxl : f.entry.xl = 0) (hro : readOnly f.entry = false)
    (hold : ∀ m ≤ d.drm, nameOf (s.slot m) = nameOf f.entry → readOnly (s.slot m) = false) :
    ∃ r, saveFile d mem n f s = some r := by
  obtain ⟨t, hdel⟩ := delFile_returns hd hs hp.user fun m hm hmatch =>
    hold m hm (hp.matches_iff.mp hmatch).symm
  have hwp : ({ t with status := 0 } : Drive).wrtPrt = false :=
    (delFile_absent hd hs hp hdel).1.writable
  obtain ⟨⟨f₁, s₁⟩, hmake⟩ := fCreate_returns hwp f
  rw [saveFile, hdel]
  simp only
  rw [hmake]
  simp only
  split
  · exact ⟨_, rfl⟩
  · next hff =>
    obtain ⟨E₁, hw₁, -⟩ := writer_of_made hd hs hp hxl hro hdel hmake hff
    obtain ⟨⟨b, f₂, s₂⟩, hloop⟩ := saveLoop_returns hd (2 * n.toNat) 0 _ _ E₁ 0 hw₁
    rw [hloop]
    cases b with
    | false => exact ⟨_, rfl⟩
    | true => exact ⟨_, rfl⟩

/-! ## A file that was saved -/

/-- **`SAVE` returns, and a file that was saved has the memory.** On a sound drive with no open file
whose old file of the name, if there is one, is not read-only: if there is no message, the drive is
sound again, the file of the second name has exactly as many records as the pages of the number, two
for each, these are the memory from `TBASE` on, each as the memory is when it is written, and all
records of other files are as they were.

**Proof sketch.** The routine returns by `saveFile_returns`, and what the saved file has is
`saveFile_stores`. The records end there (`Stops`), so that none is behind them. -/
theorem save_stores (d : Dpb) (s : Drive) (f : FileFcb) (mem : ℕ → ℕ → UInt8)
    (user cdrive n : UInt8)
    (line : List UInt8) (c c' : Converted) (hd : Flat d) (hs : Sound d s s.slot)
    (huser : user.toNat < 32) (hnum : decode cdrive line = some (n, c))
    (hname : convert cdrive c.rest = some c') (hmarks : c'.marks = 0)
    (hro : readOnly (saveFcb user c' f).entry = false)
    (hold : ∀ m ≤ d.drm, nameOf (s.slot m) = nameOf (saveFcb user c' f).entry →
      readOnly (s.slot m) = false) :
    ∃ ok s', save d user mem cdrive line f s = some (ok, s') ∧ (ok = true →
      Sound d s' s'.slot ∧
      (∀ i < 2 * n.toNat,
        Stores d s' s'.slot (nameOf (saveFcb user c' f).entry) i (pageRecord mem i)) ∧
      (∀ i, 2 * n.toNat ≤ i →
        ∀ x, ¬ Stores d s' s'.slot (nameOf (saveFcb user c' f).entry) i x) ∧
      ∀ k r x, k ≠ nameOf (saveFcb user c' f).entry → Stores d s s.slot k r x →
        Stores d s' s'.slot k r x) := by
  have hp : Plain (saveFcb user c' f).entry :=
    plain_put (c := { c' with drive := user }) f.entry hmarks huser
  have hsave : save d user mem cdrive line f s = saveFile d mem n (saveFcb user c' f) s := by
    rw [save, hnum, Option.bind_some]
    simp only [hname, Option.bind_some, if_pos hmarks]
  obtain ⟨⟨ok, s'⟩, hret⟩ := saveFile_returns mem n hd hs hp rfl hro hold
  refine ⟨ok, s', hsave.trans hret, ?_⟩
  rintro rfl
  obtain ⟨hsound, hall, hstop, hother⟩ := saveFile_stores hd hs hp rfl hro hret
  exact ⟨hsound, hall, fun i hi => hstop.not_stores hi, hother⟩

/-- The parameters `1 A` of a `SAVE` command. -/
def saveLine : List UInt8 := [ch ' ', ch '1', ch ' ', ch 'A']

/-- What the first of them is converted to. -/
def saveNumber : Converted :=
  ⟨0, 0, ch '1' :: List.replicate 7 (ch ' '), List.replicate 3 (ch ' '), [ch ' ', ch 'A']⟩

/-- What the second of them is converted to. -/
def saveName : Converted :=
  ⟨0, 0, ch 'A' :: List.replicate 7 (ch ' '), List.replicate 3 (ch ' '), []⟩

/-- `save_stores` for one page on the blank small disk. -/
theorem save_stores_tiny :
    ∃ s', save tinyDpb 0 (fun _ _ => 7) 0 saveLine tinyFcb tinyBlank = some (true, s') ∧
      Stores tinyDpb s' s'.slot (nameOf (saveFcb 0 saveName tinyFcb).entry) 1 fun _ => 7 := by
  have hnum : decode 0 saveLine = some (1, saveNumber) := by decide
  have hname : convert 0 saveNumber.rest = some saveName := by decide
  have hp : Plain (saveFcb 0 saveName tinyFcb).entry :=
    plain_put (c := { saveName with drive := 0 }) tinyEntry (by decide) (by decide)
  have hok : (save tinyDpb 0 (fun _ _ => 7) 0 saveLine tinyFcb tinyBlank).map Prod.fst =
      some true := by decide +kernel
  obtain ⟨ok, s', hs', hall⟩ := save_stores tinyDpb tinyBlank tinyFcb (fun _ _ => 7) 0 0 1 saveLine
    saveNumber saveName tiny_flat tinyBlank_sound (by decide) hnum hname (by decide) rfl
    fun m _ h => absurd h.symm (nameOf_ne_of_unused hp (tinyBlank_unused m))
  obtain rfl : ok = true := by
    rw [hs'] at hok
    exact Option.some.inj hok
  exact ⟨s', hs', (hall rfl).2.1 1 (by decide)⟩

end Ccp

end Cpm22
