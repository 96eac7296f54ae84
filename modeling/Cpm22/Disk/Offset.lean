import Cpm22.Disk.Address

set_option relaxedAutoImplicit false
set_option autoImplicit false

/-!
# The host offset of a data sector

Both `Flush` and `Read` place a data sector in the owner's host file by the owner's extent number
and the position of the block in the entry. The BDOS counts logical extents with five bits in `Xl`
and the rest in `Xh`; `GetExtNumber` takes `Xh` as bit 8 and up and keeps nine bits. The two agree
exactly as long as `Xh` is zero.

## Main definitions

* `Cpm22.Disk.OffsetState` — a disk with distinct pointers and BDOS numbering.
* `Cpm22.Disk.FlushLaw`, `Cpm22.Disk.ReadLaw`, `Cpm22.Disk.NoSharing` — where the sectors go.
* `Cpm22.Disk.OffsetLaw` — the three together.

## Main results

* `Cpm22.Disk.flush_calls` — the writes of `Flush`.
* `Cpm22.Disk.read_calls` — the access of `Read`.
* `Cpm22.Disk.offsetLaw_iff` — the law holds exactly while data extents have `Xh = 0`.
* `Cpm22.Disk.offsetLaw_fails` — a file with an extent 64.
-/

namespace Cpm22

open HostPath HostFs

namespace Disk

/-- **A disk state with BDOS numbering**: the nonzero block pointers are pairwise distinct, no two
entries of a file have the same logical extent, every used entry's file has a host file, and only
data sectors are cached. -/
structure OffsetState (g : Geometry) (dk : Disk) : Prop extends Shaped g dk where
  distinct : DistinctPointers g.dpb dk.dir
  numbered : ∀ e ∈ dk.dir, e.Used → e.BdosNumbered
  unique : ∀ (i j : ℕ) (e f : CpmDir), dk.dir[i]? = some e → dk.dir[j]? = some f → e.Used →
    f.Used → e.getName = f.getName → e.logicalExtent = f.logicalExtent → i = j
  named : ∀ e ∈ dk.dir, e.Used → (dk.cpm2unix.lookup e.getName).isSome
  cacheData : ∀ sid ∈ dk.cache, g.dpb.dirBlocks * 2 ^ g.dpb.bsh ≤ sid

/-- The cached sectors that an entry lists, in order. -/
def ownedCached (dk : Disk) : List ℕ :=
  dk.cached.filter fun sid => (owner dk.dpb dk.dir sid).isSome

/-- **`Flush` writes each cached and owned sector** of the data area at the place of the owner's
logical extent, one write for each. -/
def FlushLaw (dk : Disk) : Prop :=
  ∃ evs, (Exc.final (flush dk)).host.calls = dk.host.calls ++ evs ∧
    List.Forall₂ (fun ev sid => ∀ e ∈ dk.dir, ∀ b s, Owns dk.dpb e b s sid → DataSector dk.dpb sid →
      ∃ data, dk.cache.lookup sid = some data ∧
        ev.call = .write (dk.hostOf e) (place dk.dpb e.logicalExtent b s) (bytes data))
      evs dk.ownedCached

/-- **`Read` fetches each owned data sector that is not cached** at the place of the owner's
logical extent. -/
def ReadLaw (g : Geometry) (dk : Disk) : Prop :=
  ∀ e ∈ dk.dir, ∀ b s sid, Owns dk.dpb e b s sid → DataSector dk.dpb sid → sid ∉ dk.cache →
    ∀ dma, ∃ ok, (Exc.final (read (g.trackOf sid) (g.sectorOf sid) dma dk)).host.calls =
      dk.host.calls ++ [⟨.read (dk.hostOf e) (place dk.dpb e.logicalExtent b s), ok⟩]

/-- **Different records of one file are placed at different offsets** by `Flush` and `Read`. -/
def NoSharing (dk : Disk) : Prop :=
  ∀ (i j : ℕ) (e f : CpmDir) (b c s t sid sid' : ℕ), dk.dir[i]? = some e → dk.dir[j]? = some f →
    e.getName = f.getName → Owns dk.dpb e b s sid → Owns dk.dpb f c t sid' →
    DataSector dk.dpb sid → DataSector dk.dpb sid' → (i, b, s) ≠ (j, c, t) →
    fileOffset dk.dpb (e.findBlockIndex (sid >>> dk.dpb.bsh) dk.dpb.blockPtrType) sid ≠
      fileOffset dk.dpb (f.findBlockIndex (sid' >>> dk.dpb.bsh) dk.dpb.blockPtrType) sid'

/-- **The host offset law.** -/
def OffsetLaw (g : Geometry) (dk : Disk) : Prop := FlushLaw dk ∧ ReadLaw g dk ∧ NoSharing dk

/-- The entry has a block of the data area. -/
def OwnsData (d : Dpb) (e : CpmDir) : Prop :=
  ∃ b < d.blockPtrType, d.dirBlocks ≤ e.pointer d.blockPtrType b ∧
    e.pointer d.blockPtrType b < d.maxBlock

variable {g : Geometry} {dk : Disk}

/-! ## What the code does -/

/-- What holds of all pairs holds of all right sides. -/
lemma forall_of_forall₂ {α β : Type} {P : β → Prop} {l : List α} {l' : List β}
    (h : List.Forall₂ (fun _ b => P b) l l') : ∀ b ∈ l', P b := by
  induction h with
  | nil => simp
  | cons hab _ ih => simpa using ⟨hab, ih⟩

/-- The writes of the outer loop of `Flush`: one for each owned sector of the list, at the place of
the owner's extent number.

**Proof sketch.** Induction on the sectors. A sector without an owner changes nothing. A sector
with an owner is written and leaves the cache, which does not concern the other sectors of the
list. -/
lemma flushAll_calls (hg : g.Regular) : ∀ (sids : List ℕ), sids.Nodup → ∀ dk : Disk,
    OffsetState g dk → (∀ sid ∈ sids, sid ∈ dk.cache) →
    ∃ dk' evs, flushAll sids dk = .ok () dk' ∧ dk'.host.calls = dk.host.calls ++ evs ∧
      List.Forall₂ (fun ev sid => ∀ e ∈ dk.dir, ∀ b s, Owns dk.dpb e b s sid →
        ∃ data, dk.cache.lookup sid = some data ∧
          ev.call = .write (dk.hostOf e) (place dk.dpb e.getExtNumber b s) (bytes data))
        evs (sids.filter fun sid => (owner dk.dpb dk.dir sid).isSome) := by
  intro sids
  induction sids with
  | nil => exact fun _ dk _ _ => ⟨dk, [], rfl, (List.append_nil _).symm, .nil⟩
  | cons sid sids ih =>
    intro hnd dk hs hsub
    rw [List.nodup_cons] at hnd
    obtain ⟨data, hdata⟩ := Option.isSome_iff_exists.mp
      (AList.lookup_isSome.mpr (hsub sid (by simp)))
    have hdat := hs.cacheData sid (hsub sid (by simp))
    have hone : OneLister dk.dpb dk.dir sid := by
      rw [hs.dpb]
      exact hs.distinct.oneLister (DataSector.block_ne_zero hg hdat)
    have hstep := flushOne_apply sid dk
    rw [hdata] at hstep
    simp only at hstep
    rw [flushSector_eq hone] at hstep
    cases hown : owner dk.dpb dk.dir sid with
    | none =>
      rw [hown] at hstep
      rw [flushAll, Exc.bind_of_ok hstep, List.filter_cons_of_neg (by simp [hown])]
      exact ih hnd.2 dk hs fun x hx => hsub x (by simp [hx])
    | some e =>
      obtain ⟨hmem, hlists⟩ := owner_some hown
      obtain ⟨p, hp⟩ := Option.isSome_iff_exists.mp (hs.named e hmem hlists.1)
      rw [hown] at hstep
      simp only [hp] at hstep
      -- the rest of the list does not see the difference
      have hs' : OffsetState g (dk.flushed sid data e p) := by
        refine ⟨⟨hs.dpb, hs.smap, hs.datastart, hs.dirstart⟩, hs.distinct, hs.numbered, hs.unique,
          hs.named, fun x hx => hs.cacheData x ?_⟩
        exact (AList.mem_erase.mp hx).2
      have hsub' : ∀ x ∈ sids, x ∈ (dk.flushed sid data e p).cache := fun x hx =>
        AList.mem_erase.mpr ⟨fun h => hnd.1 (h ▸ hx), hsub x (by simp [hx])⟩
      obtain ⟨dk', evs, h1, h2, h3⟩ := ih hnd.2 _ hs' hsub'
      obtain ⟨b₀, hb₀⟩ := owns_of_lists hlists
      have hok := flushed_calls dk sid data e p
      refine ⟨dk', _ :: evs, ?_, by rw [h2, hok, List.append_assoc, List.singleton_append], ?_⟩
      · rw [flushAll, Exc.bind_of_ok hstep]
        exact h1
      · rw [List.filter_cons_of_pos (by simp [hown])]
        refine .cons ?_ (h3.imp ?_)
        · intro f hf b s hfo
          have hfe : f = e := Option.some.inj ((hone.owner_eq hf hfo.lists).symm.trans hown)
          subst hfe
          refine ⟨data, hdata, ?_⟩
          rw [hs.dpb] at hfo ⊢
          rw [hfo.fileOffset hg hs.distinct hf hdat, hostOf, hp]
          rfl
        · intro ev x h f hf b s hfo
          obtain ⟨d, hd, hc⟩ := h f hf b s hfo
          refine ⟨d, ?_, hc⟩
          rw [flushed] at hd
          by_cases hxs : x = sid
          · subst hxs
            simp only [AList.lookup_erase] at hd
            cases hd
          · simpa only [AList.lookup_erase_ne hxs] using hd

/-- **The writes of `Flush`**: one for each cached and owned sector, at the place of the owner's
extent number. -/
theorem flush_calls (hg : g.Regular) (hs : OffsetState g dk) :
    ∃ evs, (Exc.final (flush dk)).host.calls = dk.host.calls ++ evs ∧
      List.Forall₂ (fun ev sid => ∀ e ∈ dk.dir, ∀ b s, Owns dk.dpb e b s sid →
        ∃ data, dk.cache.lookup sid = some data ∧
          ev.call = .write (dk.hostOf e) (place dk.dpb e.getExtNumber b s) (bytes data))
        evs dk.ownedCached := by
  have hnd : dk.cached.Nodup :=
    (List.perm_insertionSort (· ≤ ·) dk.cache.keys).nodup_iff.mpr dk.cache.nodupKeys
  obtain ⟨dk', evs, h1, h2, h3⟩ := flushAll_calls hg dk.cached hnd dk hs fun _ h => mem_cached.mp h
  refine ⟨evs, ?_, h3⟩
  rw [flush_apply, Exc.bind_of_ok h1]
  exact h2

/-- **The access of `Read`** to an owned data sector that is not cached: one read, at the place of
the owner's extent number. -/
theorem read_calls (hg : g.Regular) (hs : OffsetState g dk) {e : CpmDir} (he : e ∈ dk.dir)
    {b s sid : ℕ} (ho : Owns g.dpb e b s sid) (hd : DataSector g.dpb sid) (hc : sid ∉ dk.cache)
    (dma : Sector) :
    ∃ ok, (Exc.final (read (g.trackOf sid) (g.sectorOf sid) dma dk)).host.calls =
      dk.host.calls ++ [⟨.read (dk.hostOf e) (place g.dpb e.getExtNumber b s), ok⟩] := by
  rw [read_owned hs.toShaped hg hs.distinct he ho hd hc]
  obtain ⟨ok, hok, -⟩ := Host.read_snd dk.host (dk.hostOf e) (place g.dpb e.getExtNumber b s)
  refine ⟨ok, ?_⟩
  simp only [hok]
  rfl

/-! ## When the law holds -/

/-- If the code puts a sector where the law wants it, `Xh` is zero. -/
lemma xh_zero_of_place (hg : g.Regular) {e : CpmDir} (hn : e.BdosNumbered) {b s sid : ℕ}
    (ho : Owns g.dpb e b s sid)
    (h : place g.dpb e.getExtNumber b s = place g.dpb e.logicalExtent b s) : e.xh = 0 :=
  (CpmDir.getExtNumber_eq_logicalExtent_iff hn).mp
    (place_inj hg ho.index ho.index ho.inBlock ho.inBlock h).1

/-- **The law needs `Xh = 0` in every data extent.**

**Proof sketch.** Take the first sector of a data block of the entry. If it is cached, `Flush`
writes it at the place of the extent number; otherwise `Read` fetches it there. The law wants the
place of the logical extent. -/
lemma xh_zero_of_offsetLaw (hg : g.Regular) (hs : OffsetState g dk) (hlaw : OffsetLaw g dk)
    {e : CpmDir} (he : e ∈ dk.dir) (hu : e.Used) (hdata : OwnsData g.dpb e) : e.xh = 0 := by
  obtain ⟨b, hb, hlo, hhi⟩ := hdata
  have hpos := Nat.two_pow_pos g.dpb.bsh
  have ho : Owns g.dpb e b 0 (e.pointer g.dpb.blockPtrType b * 2 ^ g.dpb.bsh) :=
    ⟨hu, hb, hpos, rfl⟩
  have hd : DataSector g.dpb (e.pointer g.dpb.blockPtrType b * 2 ^ g.dpb.bsh) :=
    ⟨Nat.mul_le_mul_right _ hlo, Nat.mul_lt_mul_of_pos_right hhi hpos⟩
  set sid := e.pointer g.dpb.blockPtrType b * 2 ^ g.dpb.bsh
  have hn := hs.numbered e he hu
  by_cases hc : sid ∈ dk.cache
  · -- the same call of `Flush`, described by the law and by the code
    obtain ⟨evs, h1, h2⟩ := hlaw.1
    obtain ⟨evs', h1', h2'⟩ := flush_calls hg hs
    have hevs : evs' = evs := List.append_cancel_left (h1'.symm.trans h1)
    subst hevs
    have hmem : sid ∈ dk.ownedCached := by
      refine List.mem_filter.mpr ⟨mem_cached.mpr hc, ?_⟩
      by_contra hno
      rw [Bool.not_eq_true, Option.isSome_eq_false_iff, Option.isNone_iff_eq_none] at hno
      exact owner_none.mp hno e he (by rw [hs.dpb]; exact ho.lists)
    have hboth := List.Forall₂.mp
      (S := fun _ sid => ∀ b s, Owns g.dpb e b s sid → DataSector g.dpb sid → e.xh = 0)
      (fun ev x hx hx' b s hxo hxd => by
        rw [← hs.dpb] at hxo hxd
        obtain ⟨d, -, hev⟩ := hx e he b s hxo hxd
        obtain ⟨d', -, hev'⟩ := hx' e he b s hxo
        rw [hev] at hev'
        rw [hs.dpb] at hxo hev'
        exact xh_zero_of_place hg hn hxo (Call.write.inj hev').2.1.symm) h2 h2'
    exact forall_of_forall₂ hboth sid hmem b 0 ho hd
  · obtain ⟨ok, h1⟩ := hlaw.2.1 e he b 0 sid (by rw [hs.dpb]; exact ho) (by rw [hs.dpb]; exact hd)
      hc (fun _ => 0)
    obtain ⟨ok', h2⟩ := read_calls hg hs he ho hd hc (fun _ => 0)
    rw [h1] at h2
    have hev := List.append_cancel_left h2
    simp only [List.cons.injEq, Event.mk.injEq, Call.read.injEq, true_and, and_true] at hev
    rw [hs.dpb] at hev
    exact xh_zero_of_place hg hn ho hev.1.symm

/-- With `Xh = 0` in every data extent the law holds.

**Proof sketch.** With `Xh` zero the extent number of the source is the logical one. The calls of
the flush and of a read are at the place that the source computes (`flush_calls`, `read_calls`),
and two sectors of one name at one place are the same one (`place_inj`). -/
lemma offsetLaw_of_xh_zero (hg : g.Regular) (hs : OffsetState g dk)
    (h : ∀ e ∈ dk.dir, e.Used → OwnsData g.dpb e → e.xh = 0) : OffsetLaw g dk := by
  have hext : ∀ e ∈ dk.dir, ∀ b s sid, Owns g.dpb e b s sid → DataSector g.dpb sid →
      e.getExtNumber = e.logicalExtent := by
    intro e he b s sid ho hd
    have hpos := Nat.two_pow_pos g.dpb.bsh
    refine (CpmDir.getExtNumber_eq_logicalExtent_iff (hs.numbered e he ho.used)).mpr
      (h e he ho.used ⟨b, ho.index, ?_, ?_⟩)
    · rw [← ho.block, shiftRight_eq]
      exact (Nat.le_div_iff_mul_le hpos).mpr hd.1
    · rw [← ho.block, shiftRight_eq]
      exact Nat.div_lt_of_lt_mul (by rw [Nat.mul_comm]; exact hd.2)
  refine ⟨?_, ?_, ?_⟩
  · obtain ⟨evs, h1, h2⟩ := flush_calls hg hs
    refine ⟨evs, h1, h2.imp fun ev sid hev e he b s ho hd => ?_⟩
    obtain ⟨data, hdata, hcall⟩ := hev e he b s ho
    rw [hs.dpb] at ho hd hcall ⊢
    exact ⟨data, hdata, by rw [hcall, hext e he b s sid ho hd]⟩
  · intro e he b s sid ho hd hc dma
    rw [hs.dpb] at ho hd ⊢
    rw [← hext e he b s sid ho hd]
    exact read_calls hg hs he ho hd hc dma
  · intro i j e f b c s t sid sid' hi hj hname ho ho' hd hd' hne heq
    rw [hs.dpb] at ho ho' hd hd' heq
    have he := List.mem_of_getElem? hi
    have hf := List.mem_of_getElem? hj
    rw [ho.fileOffset hg hs.distinct he hd.1, ho'.fileOffset hg hs.distinct hf hd'.1,
      hext e he b s sid ho hd, hext f hf c t sid' ho' hd'] at heq
    obtain ⟨h1, h2, h3⟩ := place_inj hg ho.index ho'.index ho.inBlock ho'.inBlock heq
    have hij := hs.unique i j e f hi hj ho.used ho'.used hname h1
    exact hne (by rw [hij, h2, h3])

/-- **The host offset law holds exactly while every data extent has `Xh = 0`**, that is, while no
file reaches its logical extent 32. `Flush` is taken to visit each cached sector once, as `flush`
does: the law is about where a sector goes, and `pass_iff` says when the loop of the source gets
behind it. -/
theorem offsetLaw_iff (hg : g.Shipped) (hs : OffsetState g dk) :
    OffsetLaw g dk ↔ ∀ e ∈ dk.dir, e.Used → OwnsData g.dpb e → e.xh = 0 :=
  ⟨fun h _ he hu hd => xh_zero_of_offsetLaw hg.regular hs h he hu hd,
    offsetLaw_of_xh_zero hg.regular hs⟩

/-! ## A file with a logical extent 64 -/

/-- The entry of a file `BIG` with one block. -/
def bigEntry (xh block : UInt8) : CpmDir where
  st := 0
  fx i := [ch 'B', ch 'I', ch 'G'].getD i (ch ' ')
  ex _ := ch ' '
  xl := 0
  bc := 0
  xh := xh
  rc := 1
  al i := if i = 0 then block else 0

/-- A hard disk with a file `BIG` that has its logical extents 0 and `32 * xh`, one block each, in
the blocks 16 and 17. The first sector of each is cached. -/
def bigDisk (xh : UInt8) : Disk where
  path := [slash, ch 'd']
  dpb := hardDisk.dpb
  smap := hardDisk.retranslate
  dir := [bigEntry 0 16, bigEntry xh 17] ++ List.replicate 1022 CpmDir.empty
  cpm2unix := (∅ : AList fun _ : Bytes => Bytes).insert (bigEntry 0 16).getName
    [slash, ch 'd', slash, ch 'B', ch 'I', ch 'G']
  freeblock := 16
  bootblock := []
  datastart := 256
  dirstart := 0
  cache := ((∅ : AList fun _ : ℕ => Sector).insert 272 fun _ => 2).insert 256 fun _ => 1
  host := ⟨fun _ => none, [], fun _ => false⟩

/-- The used entries of the disk with the big file. -/
lemma bigDisk_used {xh : UInt8} {i : ℕ} {e : CpmDir} (h : (bigDisk xh).dir[i]? = some e)
    (hu : e.Used) : (i = 0 ∧ e = bigEntry 0 16) ∨ (i = 1 ∧ e = bigEntry xh 17) := by
  match i, h with
  | 0, h => exact .inl ⟨rfl, (Option.some.inj h).symm⟩
  | 1, h => exact .inr ⟨rfl, (Option.some.inj h).symm⟩
  | n + 2, h =>
    have he : e = CpmDir.empty := List.eq_of_mem_replicate (List.mem_of_getElem? (i := n) h)
    rw [he] at hu
    exact absurd hu (by decide)

/-- The block pointers of an entry of the big file: the first one, and zero. -/
lemma bigEntry_pointer (xh block : UInt8) {b : ℕ} (hb : b < 8) :
    (bigEntry xh block).pointer hardDisk.dpb.blockPtrType b = if b = 0 then block.toNat else 0 := by
  have hptr : hardDisk.dpb.blockPtrType = 8 := by decide
  rw [hptr]
  have hcases : b = 0 ∨ b = 1 ∨ b = 2 ∨ b = 3 ∨ b = 4 ∨ b = 5 ∨ b = 6 ∨ b = 7 := by omega
  rcases hcases with rfl | rfl | rfl | rfl | rfl | rfl | rfl | rfl <;>
    simp [CpmDir.pointer, CpmDir.getALWord, CpmDir.getALByte, bigEntry]

/-- The disk with the big file has BDOS numbering.

**Proof sketch.** Two entries of the disk are in use, of one name and with one block each; every
condition is checked for them. -/
lemma offsetState_bigDisk {xh : UInt8} (hxh : xh ≠ 0) (hle : xh.toNat ≤ 15) :
    OffsetState hardDisk (bigDisk xh) := by
  have hptr : hardDisk.dpb.blockPtrType = 8 := by decide
  have hname : (bigEntry xh 17).getName = (bigEntry 0 16).getName :=
    CpmDir.getName_congr rfl rfl rfl
  refine ⟨⟨rfl, rfl, rfl, rfl⟩, ?_, ?_, ?_, ?_, ?_⟩
  · intro i j e f b c hi hj hue huf hb hc heq hne
    rw [hptr] at hb hc
    rcases bigDisk_used hi hue with ⟨rfl, rfl⟩ | ⟨rfl, rfl⟩ <;>
      rcases bigDisk_used hj huf with ⟨rfl, rfl⟩ | ⟨rfl, rfl⟩ <;>
      rw [bigEntry_pointer _ _ hb] at heq hne <;> rw [bigEntry_pointer _ _ hc] at heq <;>
      by_cases hb0 : b = 0 <;> by_cases hc0 : c = 0 <;> simp [hb0, hc0] at heq hne ⊢
  · intro e he hu
    obtain ⟨i, hi⟩ := List.mem_iff_getElem?.mp he
    rcases bigDisk_used hi hu with ⟨-, rfl⟩ | ⟨-, rfl⟩
    · exact ⟨by decide, by decide⟩
    · exact ⟨by simp [bigEntry], hle⟩
  · intro i j e f hi hj hue huf _ hext
    have hpos : xh.toNat ≠ 0 := fun h => hxh (UInt8.toNat_inj.mp (by simpa using h))
    rcases bigDisk_used hi hue with ⟨rfl, rfl⟩ | ⟨rfl, rfl⟩ <;>
      rcases bigDisk_used hj huf with ⟨rfl, rfl⟩ | ⟨rfl, rfl⟩
    · rfl
    · simp [CpmDir.logicalExtent, bigEntry] at hext
      omega
    · simp [CpmDir.logicalExtent, bigEntry] at hext
      omega
    · rfl
  · intro e he hu
    obtain ⟨i, hi⟩ := List.mem_iff_getElem?.mp he
    have hnm : e.getName = (bigEntry 0 16).getName := by
      rcases bigDisk_used hi hu with ⟨-, rfl⟩ | ⟨-, rfl⟩
      · rfl
      · exact hname
    change (AList.lookup e.getName (AList.insert _ _ _)).isSome = true
    rw [hnm, AList.lookup_insert]
    rfl
  · intro sid hsid
    change sid ∈ AList.insert 256 _ (AList.insert 272 _ ∅) at hsid
    rw [AList.mem_insert, AList.mem_insert] at hsid
    have hempty : sid ∉ (∅ : AList fun _ : ℕ => Sector) := AList.notMem_empty sid
    have hcases : sid = 256 ∨ sid = 272 := by
      rcases hsid with h | h | h
      · exact .inl h
      · exact .inr h
      · exact absurd h hempty
    have hstart : hardDisk.dpb.dirBlocks * 2 ^ hardDisk.dpb.bsh = 256 := by decide
    omega

/-- The law on a disk whose file reaches its logical extent 32. -/
theorem offsetLaw_iff_bigDisk :
    OffsetLaw hardDisk (bigDisk 1) ↔
      ∀ e ∈ (bigDisk 1).dir, e.Used → OwnsData hardDisk.dpb e → e.xh = 0 :=
  offsetLaw_iff (.inr rfl) (offsetState_bigDisk (by decide) (by decide))

/-- **The law fails for a file that reaches its logical extent 64**: its first sector and the first
sector of extent 64 are both written at offset 0, by a `Flush` that visits each of the two once (the
loop of the source does not get behind the first of them, as in `pass_fooAgain`). -/
theorem offsetLaw_fails : OffsetState hardDisk (bigDisk 2) ∧ ¬ OffsetLaw hardDisk (bigDisk 2) := by
  have hs : OffsetState hardDisk (bigDisk 2) := offsetState_bigDisk (by decide) (by decide)
  refine ⟨hs, fun hlaw => ?_⟩
  have he : bigEntry 2 17 ∈ (bigDisk 2).dir := List.mem_of_getElem? (i := 1) rfl
  have hdata : OwnsData hardDisk.dpb (bigEntry 2 17) := ⟨0, by decide, by decide, by decide⟩
  have hreg : hardDisk.Regular := regular_hardDisk
  have hxh := xh_zero_of_offsetLaw hreg hs hlaw he (by decide) hdata
  exact absurd hxh (by decide)

end Disk

end Cpm22
