import Mathlib.Tactic.Ring
import Cpm22.Disk.Layout

set_option relaxedAutoImplicit false
set_option autoImplicit false

/-!
# Sectors, blocks and file positions

The arithmetic that connects a data sector of a disk with its place: track and sector in one
direction, the block pointer that lists it and the position in the owner's host file in the other.

## Main definitions

* `Cpm22.Disk.Shaped` — the disk has the tables of a geometry.
* `Cpm22.Geometry.trackOf`, `Cpm22.Geometry.sectorOf` — the address of a linear sector.
* `Cpm22.Disk.Owns` — an entry has a sector at a pointer index.
* `Cpm22.Disk.place` — the position of a sector of extent `ext`.

## Main results

* `Cpm22.Disk.Shaped.getAbsSector` — addressing a sector reaches it.
* `Cpm22.Disk.Owns.fileOffset` — where `Flush` and `Read` place an owned sector.
* `Cpm22.Disk.read_owned` — what `Read` does with an owned sector.
-/

namespace Cpm22

open HostPath HostFs

/-- The track of a linear sector, counted from block 0. -/
def Geometry.trackOf (g : Geometry) (sid : ℕ) : ℕ := sid / g.dpb.spt + g.dpb.off

/-- The physical sector of a linear sector, as the BIOS translates it. -/
def Geometry.sectorOf (g : Geometry) (sid : ℕ) : ℕ := g.stbl.getD (sid % g.dpb.spt) 0

namespace Disk

/-- **The disk has the tables of a geometry**, as the constructor sets them up. -/
structure Shaped (g : Geometry) (dk : Disk) : Prop where
  dpb : dk.dpb = g.dpb
  smap : dk.smap = g.retranslate
  datastart : dk.datastart = g.dpb.dirBlocks * 2 ^ g.dpb.bsh
  dirstart : dk.dirstart = g.dpb.off * g.dpb.spt

/-- A disk that agrees with a blank one has the tables of its geometry. -/
lemma SameFrame.shaped {path : Bytes} {g : Geometry} {host : Host} {dk : Disk}
    (h : SameFrame (blank path g host) dk) : Shaped g dk :=
  ⟨h.dpb, h.smap, h.datastart.trans (Nat.shiftLeft_eq _ _), h.dirstart⟩

variable {g : Geometry} {dk : Disk} {sid : ℕ}

/-- **Addressing a sector reaches it**, as long as the sum fits in 32 bits. -/
lemma Shaped.getAbsSector_of_lt (hs : Shaped g dk) (hg : g.Regular)
    (hlt : sid + g.dpb.off * g.dpb.spt < 2 ^ 32) :
    dk.getAbsSector (g.trackOf sid) (g.sectorOf sid) = some (sid + dk.dirstart) := by
  have hmod : sid % g.dpb.spt < g.dpb.spt := Nat.mod_lt _ hg.spt
  obtain ⟨hne, hmap⟩ := hg.retrans _ hmod
  have htrack : g.dpb.off ≤ g.trackOf sid := Nat.le_add_left _ _
  unfold Disk.getAbsSector
  simp only [hs.dpb, ge_iff_le, htrack, if_true, Geometry.sectorOf, hne, if_false, hs.smap, hmap,
    Option.map_some, Option.some.injEq, hs.dirstart]
  have hdiv : sid / g.dpb.spt * g.dpb.spt + sid % g.dpb.spt = sid := Nat.div_add_mod' ..
  have htr : g.trackOf sid * g.dpb.spt = sid / g.dpb.spt * g.dpb.spt + g.dpb.off * g.dpb.spt :=
    Nat.add_mul ..
  omega

/-- **Addressing a sector of the disk reaches it**, on every regular geometry. -/
lemma Shaped.getAbsSector (hs : Shaped g dk) (hg : g.Regular)
    (hsid : sid < g.dpb.maxBlock * 2 ^ g.dpb.bsh) :
    dk.getAbsSector (g.trackOf sid) (g.sectorOf sid) = some (sid + dk.dirstart) := by
  have hsmall := hg.small
  exact hs.getAbsSector_of_lt hg (by omega)

/-! ## Blocks and pointers -/

/-- The block of a sector. -/
lemma shiftRight_eq (d : Dpb) (sid : ℕ) : sid >>> d.bsh = sid / 2 ^ d.bsh :=
  Nat.shiftRight_eq_div_pow _ _

/-- The sector number within its block. -/
lemma and_blm_eq (hg : g.Regular) (sid : ℕ) : sid &&& g.dpb.blm = sid % 2 ^ g.dpb.bsh := by
  rw [hg.blm]
  exact Nat.and_two_pow_sub_one_eq_mod _ _

/-- **The entry has sector `sid` of the disk as sector `s` of the block at pointer index `b`.** -/
structure Owns (d : Dpb) (e : CpmDir) (b s sid : ℕ) : Prop where
  used : e.Used
  index : b < d.blockPtrType
  inBlock : s < 2 ^ d.bsh
  sector : sid = e.pointer d.blockPtrType b * 2 ^ d.bsh + s

/-- The sector is one of the data area. -/
def DataSector (d : Dpb) (sid : ℕ) : Prop :=
  d.dirBlocks * 2 ^ d.bsh ≤ sid ∧ sid < d.maxBlock * 2 ^ d.bsh

/-- The block of a data sector is not block 0. -/
lemma DataSector.block_ne_zero (hg : g.Regular) (h : g.dpb.dirBlocks * 2 ^ g.dpb.bsh ≤ sid) :
    sid >>> g.dpb.bsh ≠ 0 := by
  rw [shiftRight_eq]
  have hle := (Nat.le_div_iff_mul_le (Nat.two_pow_pos g.dpb.bsh)).mpr h
  have := hg.first
  omega

/-- The block of an owned sector. -/
lemma Owns.block {d : Dpb} {e : CpmDir} {b s : ℕ} (h : Owns d e b s sid) :
    sid >>> d.bsh = e.pointer d.blockPtrType b := by
  rw [shiftRight_eq, h.sector, Nat.mul_comm, Nat.mul_add_div (Nat.two_pow_pos _),
    Nat.div_eq_of_lt h.inBlock, Nat.add_zero]

/-- An owner lists the block. -/
lemma Owns.lists {d : Dpb} {e : CpmDir} {b s : ℕ} (h : Owns d e b s sid) : e.Lists d sid :=
  CpmDir.lists_iff.mpr ⟨h.used, b, h.index, h.block.symm⟩

/-- An entry that lists the block of a sector owns the sector. -/
lemma owns_of_lists {d : Dpb} {e : CpmDir} (h : e.Lists d sid) :
    ∃ b, Owns d e b (sid % 2 ^ d.bsh) sid := by
  obtain ⟨hu, b, hb, hp⟩ := CpmDir.lists_iff.mp h
  refine ⟨b, hu, hb, Nat.mod_lt _ (Nat.two_pow_pos _), ?_⟩
  rw [hp, shiftRight_eq, Nat.div_add_mod']

/-- The sector number within the block of an owned sector. -/
lemma Owns.mod_eq {d : Dpb} {e : CpmDir} {b s : ℕ} (h : Owns d e b s sid) :
    sid % 2 ^ d.bsh = s := by
  rw [h.sector, Nat.mul_comm, Nat.mul_add_mod, Nat.mod_eq_of_lt h.inBlock]

/-- With distinct pointers a sector has one owner, at one index. -/
lemma DistinctPointers.owns_unique {d : Dpb} {dir : List CpmDir} (h : DistinctPointers d dir)
    (hsid : sid >>> d.bsh ≠ 0) {i j : ℕ} {e f : CpmDir} {b c s t : ℕ} (hi : dir[i]? = some e)
    (hj : dir[j]? = some f) (he : Owns d e b s sid) (hf : Owns d f c t sid) :
    i = j ∧ b = c ∧ s = t := by
  obtain ⟨h1, h2⟩ := h i j e f b c hi hj he.used hf.used he.index hf.index
    (he.block.symm.trans hf.block) (by rw [← he.block]; exact hsid)
  exact ⟨h1, h2, he.mod_eq.symm.trans hf.mod_eq⟩

/-- The position in its file of sector `s` of the block at pointer index `b` of extent `ext`. -/
def place (d : Dpb) (ext b s : ℕ) : ℕ := 128 * (128 * ext + b * (d.blockSize / 128) + s)

/-- Places of different sectors of one file are different.

**Proof sketch.** The place is 128 times the extent and the position in it, which is below 128, so
that extent and position are determined; the position determines the block and the sector in it. -/
lemma place_inj (hg : g.Regular) {ext ext' b c s t : ℕ} (hb : b < g.dpb.blockPtrType)
    (hc : c < g.dpb.blockPtrType) (hs : s < 2 ^ g.dpb.bsh) (ht : t < 2 ^ g.dpb.bsh)
    (h : place g.dpb ext b s = place g.dpb ext' c t) : ext = ext' ∧ b = c ∧ s = t := by
  have hext := hg.extent
  have hbs : g.dpb.blockSize / 128 = 2 ^ g.dpb.bsh := by
    rw [Dpb.blockSize_eq]
    omega
  unfold place at h
  rw [hbs] at h
  -- the position within the extent is below 128
  have hlt : ∀ b s, b < g.dpb.blockPtrType → s < 2 ^ g.dpb.bsh → b * 2 ^ g.dpb.bsh + s < 128 := by
    intro b s hb hs
    have := Nat.mul_le_mul_right (2 ^ g.dpb.bsh) (Nat.succ_le_of_lt hb)
    rw [Nat.succ_mul] at this
    omega
  have h1 := hlt b s hb hs
  have h2 := hlt c t hc ht
  have hin : b * 2 ^ g.dpb.bsh + s = c * 2 ^ g.dpb.bsh + t := by omega
  have hdiv : ∀ b s, s < 2 ^ g.dpb.bsh → (b * 2 ^ g.dpb.bsh + s) / 2 ^ g.dpb.bsh = b := by
    intro b s hs
    rw [Nat.mul_comm, Nat.mul_add_div (Nat.two_pow_pos _), Nat.div_eq_of_lt hs, Nat.add_zero]
  have hbc : b = c := by rw [← hdiv b s hs, ← hdiv c t ht, hin]
  subst hbc
  omega

/-- The position computed from a block index in arithmetic terms. -/
lemma fileOffset_eq (hg : g.Regular) (ext b sid : ℕ) :
    fileOffset g.dpb (b + 1 + ext * g.dpb.blockPtrType) sid =
      place g.dpb ext b (sid % 2 ^ g.dpb.bsh) := by
  have hext := hg.extent
  have hsub : b + 1 + ext * g.dpb.blockPtrType - 1 = b + ext * g.dpb.blockPtrType := by omega
  rw [fileOffset, and_blm_eq hg, place, Dpb.blockSize_eq, Nat.mul_div_cancel_left _ (by omega),
    hsub, ← hext]
  ring

/-- **Where `Flush` and `Read` place a listed sector**: at a place of the entry's extent number
that belongs to the sector. -/
lemma fileOffset_of_lists (hg : g.Regular) {e : CpmDir} (h : e.Lists g.dpb sid) :
    ∃ b, Owns g.dpb e b (sid % 2 ^ g.dpb.bsh) sid ∧
      fileOffset g.dpb (e.findBlockIndex (sid >>> g.dpb.bsh) g.dpb.blockPtrType) sid =
        place g.dpb e.getExtNumber b (sid % 2 ^ g.dpb.bsh) := by
  obtain ⟨hu, hne⟩ := h
  have hst : e.st ≠ CpmDir.UNUSED := hu
  rw [CpmDir.findBlockIndex, if_pos hst] at hne ⊢
  cases hf : (List.range g.dpb.blockPtrType).find?
      fun b => e.pointer g.dpb.blockPtrType b == sid >>> g.dpb.bsh with
  | none =>
    rw [hf] at hne
    exact absurd rfl hne
  | some b =>
    obtain ⟨hb, hp⟩ := CpmDir.find?_range_some hf
    refine ⟨b, ⟨hu, hb, Nat.mod_lt _ (Nat.two_pow_pos _), ?_⟩, fileOffset_eq hg _ _ _⟩
    rw [beq_iff_eq] at hp
    rw [hp, shiftRight_eq, Nat.div_add_mod']

/-- **Where `Flush` and `Read` place an owned sector**: at the place of its extent number. -/
lemma Owns.fileOffset {dir : List CpmDir} (hg : g.Regular) (hd : DistinctPointers g.dpb dir)
    {e : CpmDir} (he : e ∈ dir) {b s : ℕ} (h : Owns g.dpb e b s sid)
    (hsid : g.dpb.dirBlocks * 2 ^ g.dpb.bsh ≤ sid) :
    fileOffset g.dpb (e.findBlockIndex (sid >>> g.dpb.bsh) g.dpb.blockPtrType) sid =
      place g.dpb e.getExtNumber b s := by
  obtain ⟨i, hi⟩ := List.mem_iff_getElem?.mp he
  obtain ⟨c, hc, hoff⟩ := fileOffset_of_lists hg h.lists
  obtain ⟨-, hcb, hcs⟩ := hd.owns_unique (DataSector.block_ne_zero hg hsid) hi hi hc h
  rw [hoff, hcb, hcs]

/-- The host file of an entry. -/
def hostOf (dk : Disk) (e : CpmDir) : Bytes := (dk.cpm2unix.lookup e.getName).getD []

/-- **`Read` of an owned data sector that is not cached** reads the owner's host file at the place
of the owner's extent number.

**Proof sketch.** The sector is behind the directory and not cached, so that the directory is
searched. Its owner is the only entry that lists the block, and the place is that of the entry. -/
theorem read_owned (hs : Shaped g dk) (hg : g.Regular) (hdp : DistinctPointers g.dpb dk.dir)
    {e : CpmDir} (he : e ∈ dk.dir) {b s : ℕ} (ho : Owns g.dpb e b s sid)
    (hd : DataSector g.dpb sid) (hc : sid ∉ dk.cache) {dma : Sector} :
    read (g.trackOf sid) (g.sectorOf sid) dma dk =
      let r := dk.host.read (dk.hostOf e) (place g.dpb e.getExtNumber b s)
      .ok (0, match r.1 with
        | some bs => overlay dma (bs.take 128)
        | none => dma) { dk with host := r.2 } := by
  have habs := hs.getAbsSector hg hd.2
  have hone : OneLister dk.dpb dk.dir sid := by
    rw [hs.dpb]
    exact hdp.oneLister (DataSector.block_ne_zero hg hd.1)
  have hown : owner dk.dpb dk.dir sid = some e := hone.owner_eq he (by rw [hs.dpb]; exact ho.lists)
  have hlook : dk.cache.lookup sid = none := AList.lookup_eq_none.mpr hc
  have hoff := ho.fileOffset hg hdp he hd.1
  rw [← hs.dpb] at hoff
  rw [read_data habs (by rw [hs.datastart]; exact hd.1), hlook]
  simp only
  rw [Exc.bind_apply, readSector_eq hone, hown]
  simp only
  rw [hoff, hs.dpb]
  rfl

end Disk

end Cpm22
