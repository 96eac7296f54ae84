import Cpm22.Disk.Readback

set_option relaxedAutoImplicit false
set_option autoImplicit false

/-!
# The buffer after a successful read

`Read` is given the guest's buffer and returns 0 whenever it returns. What it leaves in the buffer
comes from the system file, the directory, the cache or the host files of the entries that list
the block, and where these have fewer than 128 bytes the rest of the buffer is what the guest
had in it before. This file has the exact condition under which the buffer does not depend on its
earlier contents.

## Main definitions

* `Cpm22.Disk.DefinesBuffer` — two successful reads of a sector into different buffers leave the
  same bytes.
* `Cpm22.Disk.Supplied` — some source of the sector has all of its 128 bytes.

## Main results

* `Cpm22.Disk.readSector_pieces` — what the loop over the directory leaves in the buffer.
* `Cpm22.Disk.definesBuffer_iff` — the condition.
* `Cpm22.Disk.unlisted_keeps_buffer` — a sector of an empty disk.
-/

namespace Cpm22.Disk

open HostPath HostFs

/-! ## Overlays -/

/-- **When an overlaid buffer forgets a byte**: two buffers agree at a place after the same
overlays iff they did before, or one of the overlays reaches the place.

**Proof sketch.** Induction on the overlays. An overlay that reaches the place makes the buffers
agree there, and they stay so. -/
lemma foldl_overlay_eq_iff (bss : List Bytes) (i : Fin 128) : ∀ b₁ b₂ : Sector,
    bss.foldl overlay b₁ i = bss.foldl overlay b₂ i ↔
      b₁ i = b₂ i ∨ ∃ bs ∈ bss, i.val < bs.length := by
  induction bss with
  | nil => simp
  | cons bs bss ih =>
    intro b₁ b₂
    rw [List.foldl_cons, List.foldl_cons, ih]
    by_cases hi : i.val < bs.length
    · simp [overlay, hi]
    · simp [overlay, hi]

/-- **When overlays fill the buffer**: one of them has all 128 bytes. -/
lemma foldl_overlay_fills (bss : List Bytes) :
    (∀ b₁ b₂ : Sector, bss.foldl overlay b₁ = bss.foldl overlay b₂) ↔
      ∃ bs ∈ bss, 128 ≤ bs.length := by
  constructor
  · intro h
    have hlast := congrFun (h (fun _ => 0) fun _ => 1) 127
    rcases (foldl_overlay_eq_iff bss 127 _ _).mp hlast with h01 | ⟨bs, hbs, hlen⟩
    · exact absurd h01 (by decide)
    · exact ⟨bs, hbs, hlen⟩
  · rintro ⟨bs, hbs, hlen⟩ b₁ b₂
    funext i
    exact (foldl_overlay_eq_iff bss i b₁ b₂).mpr (.inr ⟨bs, hbs, i.isLt.trans_le hlen⟩)

/-! ## The loop over the directory -/

/-- The place in its host file of the sector `sid`, for an entry that lists its block. -/
def placeOf (dk : Disk) (sid : ℕ) (e : CpmDir) : ℕ :=
  fileOffset dk.dpb (e.findBlockIndex (sid >>> dk.dpb.bsh) dk.dpb.blockPtrType) sid

/-- The bytes that the entry `e` supplies for the sector `sid` by the host call number `n`. -/
def piece (dk : Disk) (sid n : ℕ) (e : CpmDir) : Bytes :=
  match dk.host.find (dk.hostOf e) with
  | some (.file c) => if dk.host.refuses n then [] else (c.drop (dk.placeOf sid e)).take 128
  | _ => []

/-- The bytes that the entries of `es` supply for the sector `sid`, one host call each. -/
def pieces (dk : Disk) (sid : ℕ) (es : List CpmDir) : List Bytes :=
  (es.filter fun e => e.Lists dk.dpb sid).mapIdx fun k e =>
    piece dk sid (dk.host.calls.length + k) e

/-- An entry that does not list the block supplies nothing. -/
lemma pieces_skip {dk : Disk} {sid : ℕ} {e : CpmDir} (es : List CpmDir)
    (he : ¬ e.Lists dk.dpb sid) : pieces dk sid (e :: es) = pieces dk sid es := by
  simp [pieces, he]

/-- An entry that lists the block is asked first, and the others by the calls after it. -/
lemma pieces_cons {dk : Disk} {sid : ℕ} {e : CpmDir} (es : List CpmDir)
    (he : e.Lists dk.dpb sid) (host : Host) (hnode : host.node = dk.host.node)
    (hrefuses : host.refuses = dk.host.refuses)
    (hcalls : host.calls.length = dk.host.calls.length + 1) :
    pieces dk sid (e :: es) =
      piece dk sid dk.host.calls.length e :: pieces { dk with host := host } sid es := by
  have hpiece : ∀ k f, piece { dk with host := host } sid (dk.host.calls.length + 1 + k) f =
      piece dk sid (dk.host.calls.length + (k + 1)) f := by
    intro k f
    have hfind : host.find (dk.hostOf f) = dk.host.find (dk.hostOf f) := by
      simp only [Host.find, hnode]
    have hn : dk.host.calls.length + 1 + k = dk.host.calls.length + (k + 1) := by omega
    have hhost : ({ dk with host := host } : Disk).hostOf f = dk.hostOf f := rfl
    have hplace : ({ dk with host := host } : Disk).placeOf sid f = dk.placeOf sid f := rfl
    simp only [piece, hn, hrefuses, hhost, hfind, hplace]
  simp only [pieces, hcalls, hpiece, List.filter_cons, he, decide_true, if_true, List.mapIdx_cons,
    Nat.add_zero]

/-- What `ReadHost` puts into the buffer. -/
lemma readHost_piece (dk : Disk) (sid : ℕ) (e : CpmDir) (dma : Sector) : ∃ ok,
    readHost (dk.hostOf e) (dk.placeOf sid e) dma dk =
      .ok (ok, overlay dma (piece dk sid dk.host.calls.length e))
        { dk with host := (dk.host.read (dk.hostOf e) (dk.placeOf sid e)).2 } := by
  have hnil : overlay dma [] = dma := by
    funext i
    simp [overlay]
  rw [readHost_apply, Host.read_fst, piece]
  rcases dk.host.find (dk.hostOf e) with _ | c | _ | _
  · exact ⟨false, by rw [hnil]⟩
  · by_cases hr : dk.host.refuses dk.host.calls.length
    · exact ⟨false, by simp [hr, hnil]⟩
    · exact ⟨true, by simp [hr]⟩
  · exact ⟨false, by rw [hnil]⟩
  · exact ⟨false, by rw [hnil]⟩

/-- **The loop of `Read` over the directory** lays what the listing entries supply over the
buffer.

**Proof sketch.** Induction on the entries. An entry that lists the block makes one read call,
which changes the record of calls only. -/
lemma readSector_pieces (sid : ℕ) (es : List CpmDir) : ∀ (dma : Sector) (dk : Disk),
    ∃ dk', readSector sid es dma dk = .ok ((pieces dk sid es).foldl overlay dma) dk' := by
  induction es with
  | nil => exact fun dma dk => ⟨dk, rfl⟩
  | cons e es ih =>
    intro dma dk
    rw [readSector, Exc.get_bind]
    by_cases he : e.Used ∧ e.findBlockIndex (sid >>> dk.dpb.bsh) dk.dpb.blockPtrType ≠ 0
    · obtain ⟨ok, hhost, -⟩ := Host.read_snd dk.host (dk.hostOf e) (dk.placeOf sid e)
      have hcons := pieces_cons es he (dk.host.read (dk.hostOf e) (dk.placeOf sid e)).2
        (by rw [hhost]) (by rw [hhost]) (by simp [hhost])
      obtain ⟨dk', h⟩ := ih (overlay dma (piece dk sid dk.host.calls.length e))
        { dk with host := (dk.host.read (dk.hostOf e) (dk.placeOf sid e)).2 }
      refine ⟨dk', ?_⟩
      obtain ⟨b, hread⟩ := readHost_piece dk sid e dma
      rw [if_pos he, hcons, List.foldl_cons, ← h]
      exact Exc.bind_of_ok hread
    · rw [if_neg he, pieces_skip es he]
      exact ih dma dk

/-! ## The condition -/

/-- **A read of the sector defines the whole buffer**: two successful reads from the same state
into different buffers leave the same bytes. -/
def DefinesBuffer (dk : Disk) (track sector : ℕ) : Prop :=
  ∀ (b₁ b₂ v₁ v₂ : Sector) (dk₁ dk₂ : Disk), read track sector b₁ dk = .ok (0, v₁) dk₁ →
    read track sector b₂ dk = .ok (0, v₂) dk₂ → v₁ = v₂

/-- **Some source has all 128 bytes of the sector** at the address `a`: a system file that can be
read reaches the end of the sector; a data sector is cached, or one of the used entries that list
its block, the one asked by the call number `k` of the read, has a host file that can be read and
reaches the end of the sector. A directory sector is always complete. -/
def Supplied (dk : Disk) (a : ℕ) : Prop :=
  (a < dk.dirstart → ∀ c, dk.host.find dk.bootblock = some (.file c) →
    dk.host.refuses dk.host.calls.length = false → a * 128 + 128 ≤ c.length) ∧
  (dk.dirstart + dk.datastart ≤ a → a - dk.dirstart ∈ dk.cache ∨
    ∃ k e c, (dk.dir.filter fun e => e.Lists dk.dpb (a - dk.dirstart))[k]? = some e ∧
      dk.host.find (dk.hostOf e) = some (.file c) ∧
      dk.host.refuses (dk.host.calls.length + k) = false ∧
      dk.placeOf (a - dk.dirstart) e + 128 ≤ c.length)

/-- When the entries supply a whole sector.

**Proof sketch.** A piece is what one read delivers, and it is a whole sector iff the file is
found, the call is not refused, and the file has 128 bytes from the place on. The number of the
piece is the number of reads before it. -/
lemma exists_pieces_iff (dk : Disk) (sid : ℕ) :
    (∃ bs ∈ pieces dk sid dk.dir, 128 ≤ bs.length) ↔
      ∃ k e c, (dk.dir.filter fun e => e.Lists dk.dpb sid)[k]? = some e ∧
        dk.host.find (dk.hostOf e) = some (.file c) ∧
        dk.host.refuses (dk.host.calls.length + k) = false ∧
        dk.placeOf sid e + 128 ≤ c.length := by
  have hlen : ∀ n e, 128 ≤ (piece dk sid n e).length ↔
      ∃ c, dk.host.find (dk.hostOf e) = some (.file c) ∧ dk.host.refuses n = false ∧
        dk.placeOf sid e + 128 ≤ c.length := by
    intro n e
    rw [piece]
    rcases dk.host.find (dk.hostOf e) with _ | c | _ | _
    · simp
    · by_cases hr : dk.host.refuses n
      · simp [hr]
      · simp [hr]
        omega
    · simp
    · simp
  constructor
  · rintro ⟨bs, hbs, h128⟩
    obtain ⟨k, hk⟩ := List.mem_iff_getElem?.mp hbs
    rw [pieces, List.getElem?_mapIdx, Option.map_eq_some_iff] at hk
    obtain ⟨e, he, rfl⟩ := hk
    obtain ⟨c, hc⟩ := (hlen _ e).mp h128
    exact ⟨k, e, c, he, hc⟩
  · rintro ⟨k, e, c, he, hc⟩
    refine ⟨piece dk sid (dk.host.calls.length + k) e, ?_, (hlen _ e).mpr ⟨c, hc⟩⟩
    refine List.mem_iff_getElem?.mpr ⟨k, ?_⟩
    rw [pieces, List.getElem?_mapIdx, he]
    rfl

/-- The buffer after a read that lays the byte strings `bss` over it. -/
lemma definesBuffer_of_overlays {dk : Disk} {track sector : ℕ} (bss : List Bytes)
    (h : ∀ dma, ∃ dk', read track sector dma dk = .ok (0, bss.foldl overlay dma) dk') :
    DefinesBuffer dk track sector ↔ ∃ bs ∈ bss, 128 ≤ bs.length := by
  rw [← foldl_overlay_fills]
  constructor
  · intro hd b₁ b₂
    obtain ⟨dk₁, h₁⟩ := h b₁
    obtain ⟨dk₂, h₂⟩ := h b₂
    exact hd b₁ b₂ _ _ dk₁ dk₂ h₁ h₂
  · intro hfill b₁ b₂ v₁ v₂ dk₁ dk₂ h₁ h₂
    obtain ⟨dk₁', h₁'⟩ := h b₁
    obtain ⟨dk₂', h₂'⟩ := h b₂
    rw [h₁'] at h₁
    rw [h₂'] at h₂
    cases h₁
    cases h₂
    exact hfill b₁ b₂

/-- A read of a reserved sector defines the buffer iff the system file cannot be read or reaches
the end of the sector.

**Proof sketch.** If the system file is not found or the call is refused, the read ends with an
error. Otherwise it stores what the file has from the place on, which is a whole sector iff the
file reaches its end. -/
lemma definesBuffer_system {dk : Disk} {track sector a : ℕ}
    (ha : dk.getAbsSector track sector = some a) (h1 : a < dk.dirstart) :
    DefinesBuffer dk track sector ↔ ∀ c, dk.host.find dk.bootblock = some (.file c) →
      dk.host.refuses dk.host.calls.length = false → a * 128 + 128 ≤ c.length := by
  have hfst := Host.read_fst dk.host dk.bootblock (a <<< 7)
  have hread := fun dma : Sector => (read_system ha h1 : read track sector dma dk = _)
  have hshift : a <<< 7 = a * 128 := Nat.shiftLeft_eq a 7
  -- a read call that delivers nothing ends in `throw`
  have hthrow : (dk.host.read dk.bootblock (a <<< 7)).1 = none → DefinesBuffer dk track sector := by
    intro hnone b₁ b₂ v₁ v₂ dk₁ dk₂ h₁ h₂
    simp only [hread, hnone] at h₁
    cases h₁
  rcases hf : dk.host.find dk.bootblock with _ | c | _ | _
  · exact iff_of_true (hthrow (by rw [hfst, hf])) nofun
  · by_cases hr : dk.host.refuses dk.host.calls.length
    · exact iff_of_true (hthrow (by simp [hfst, hf, hr])) (by simp [hr])
    · have hsome : (dk.host.read dk.bootblock (a <<< 7)).1 = some (c.drop (a <<< 7)) := by
        simp [hfst, hf, hr]
      rw [definesBuffer_of_overlays [(c.drop (a <<< 7)).take 128]]
      · simp only [List.mem_singleton, exists_eq_left, List.length_take, List.length_drop, hshift,
          Option.some.injEq, Node.file.injEq, forall_eq', hr, forall_const]
        omega
      · intro dma
        simp only [hread, hsome]
        exact ⟨_, rfl⟩
  · exact iff_of_true (hthrow (by rw [hfst, hf])) nofun
  · exact iff_of_true (hthrow (by rw [hfst, hf])) nofun

/-- **When a successful read defines the whole buffer**: for every disk state and every address,
two successful reads into different buffers leave the same bytes if and only if some source of
the sector has all of its 128 bytes.

**Proof sketch.** By the area of the address. Outside the table nothing is returned. A system
sector and a data sector that is not cached lay byte strings over the buffer
(`readSector_pieces`), which forget its contents iff one of them is complete. Directory and cache
do not look at the buffer. -/
theorem definesBuffer_iff (dk : Disk) (track sector : ℕ) :
    DefinesBuffer dk track sector ↔
      ∀ a, dk.getAbsSector track sector = some a → Supplied dk a := by
  cases ha : dk.getAbsSector track sector with
  | none =>
    refine iff_of_true (fun b₁ b₂ v₁ v₂ dk₁ dk₂ h₁ h₂ => ?_) nofun
    rw [read_badIndex ha] at h₁
    cases h₁
  | some a =>
    simp only [Option.some.injEq, forall_eq']
    by_cases h1 : a < dk.dirstart
    · rw [definesBuffer_system ha h1]
      exact ⟨fun h => ⟨fun _ => h, fun h' => absurd h' (by omega)⟩, fun h => h.1 h1⟩
    · have ha' : dk.getAbsSector track sector = some (a - dk.dirstart + dk.dirstart) := by
        rw [ha, Nat.sub_add_cancel (Nat.not_lt.mp h1)]
      by_cases h2 : a - dk.dirstart < dk.datastart
      · refine iff_of_true (fun b₁ b₂ v₁ v₂ dk₁ dk₂ h₁ h₂ => ?_)
          ⟨fun h => absurd h h1, fun h => absurd h (by omega)⟩
        rw [read_dir ha' h2] at h₁ h₂
        rw [h₁] at h₂
        cases h₂
        rfl
      · have hdata : dk.dirstart + dk.datastart ≤ a := by omega
        cases hc : dk.cache.lookup (a - dk.dirstart) with
        | some d =>
          have hmem : a - dk.dirstart ∈ dk.cache := by
            rw [← AList.lookup_isSome, hc]
            rfl
          refine iff_of_true (fun b₁ b₂ v₁ v₂ dk₁ dk₂ h₁ h₂ => ?_)
            ⟨fun h => absurd h h1, fun _ => .inl hmem⟩
          rw [read_data ha' (Nat.not_lt.mp h2), hc] at h₁ h₂
          cases h₁
          cases h₂
          rfl
        | none =>
          have hmem : a - dk.dirstart ∉ dk.cache := AList.lookup_eq_none.mp hc
          rw [definesBuffer_of_overlays (pieces dk (a - dk.dirstart) dk.dir), exists_pieces_iff]
          · exact ⟨fun h => ⟨fun h' => absurd h' h1, fun _ => .inr h⟩,
              fun h => (h.2 hdata).resolve_left hmem⟩
          · intro dma
            obtain ⟨dk', h⟩ := readSector_pieces (a - dk.dirstart) dk.dir dma dk
            refine ⟨dk', ?_⟩
            rw [read_data ha' (Nat.not_lt.mp h2), hc]
            exact Exc.bind_of_ok h

/-! ## A sector of an empty disk -/

/-- **A read that leaves the buffer as it was**: on an empty disk, as the constructor builds it, a
read of a data sector returns 0 and whatever the buffer held before. -/
theorem unlisted_keeps_buffer :
    build (fun _ => some []) drivePath ibm8 emptyDrive = .ok () fooStart ∧
      (∀ b, read 2 20 b fooStart = .ok (0, b) fooStart) ∧ ¬ DefinesBuffer fooStart 2 20 := by
  have hread : ∀ b, read 2 20 b fooStart = .ok (0, b) fooStart := by
    intro b
    have habs : fooStart.getAbsSector 2 20 = some (16 + fooStart.dirstart) := by decide
    have hskip : ∀ e ∈ fooStart.dir, ¬ e.Lists fooStart.dpb 16 :=
      fun e he hl => unused_fooStart he hl.1
    rw [read_data habs (by decide)]
    exact Exc.bind_of_ok (readSector_skip hskip)
  refine ⟨rfl, hread, fun h => ?_⟩
  have heq := h (fun _ => 0) (fun _ => 1) _ _ _ _ (hread _) (hread _)
  exact absurd (congrFun heq 0) (by decide)

end Cpm22.Disk
