import Cpm22.Bdos.Files
import Cpm22.Bdos.Sound

set_option relaxedAutoImplicit false
set_option autoImplicit false

/-!
# Listing the directory

`GETFST` and `GETNXT`, functions 17 and 18 of the BDOS: a program asks for the first entry that
agrees with a pattern, and then for the next one, until there is none. Each time the sector of the
entry goes to the buffer of the program, and the status says which of its four entries it is.

## Main definitions

* `Cpm22.Bdos.Drive.getFst`, `Cpm22.Bdos.Drive.getNxt` — the two functions.
* `Cpm22.Bdos.Drive.search` — what a program sees that asks until there is nothing more.
* `Cpm22.Bdos.Drive.hits` — the slots that agree, in order.

## Main results

* `Cpm22.Bdos.Drive.search_lists` — the program sees exactly the entries that agree, in order.
* `Cpm22.Bdos.search_files` — a listing of a sound drive has every file once.
-/

namespace Cpm22

namespace Bdos

open BitMap Disk

namespace Drive

variable (d : Dpb)

/-! ## The functions -/

/-- `MOVEDIR`: the directory buffer goes to the buffer of the program. -/
def moveDir (s : Drive) : Drive := { s with dma := s.dirBuf }

/-- The file control block that `GETFST` searches for: without a drive or an extent left open, the
first extents are asked for. -/
def wanted (f : CpmDir) : CpmDir := if f.st = ch '?' ∨ f.xl = ch '?' then f else { f with xh := 0 }

/-- The number of bytes that `GETFST` compares, `COUNTER`. -/
def counter (f : CpmDir) : ℕ := if f.st = ch '?' then 0 else 15

/-- **`GETFST`**, behind `AUTOSEL`. -/
def getFst (f : CpmDir) (s : Drive) : Drive := (findFst d (wanted f) (counter f) s).moveDir

/-- **`GETNXT`**, behind `AUTOSEL`: the search goes on for the file control block of `GETFST`. -/
def getNxt (f : CpmDir) (s : Drive) : Drive := (findNxt d (wanted f) (counter f) s).moveDir

/-- The entry that a program finds in its buffer. -/
def answer (s : Drive) : CpmDir := entryOf s.dma (place4 s.status.toNat)

/-- The entries that a program sees from a state on, `k` at most. -/
def searchLoop (f : CpmDir) : ℕ → Drive → List CpmDir
  | 0, _ => []
  | k + 1, s => if s.status = 0xff then [] else answer s :: searchLoop f k (getNxt d f s)

/-- **The entries that a program sees** that asks for the first one and then for the next until
there is none. -/
def search (f : CpmDir) (s : Drive) : List CpmDir := searchLoop d f (d.drm + 2) (getFst d f s)

/-! ## The slots that agree -/

/-- The search stops at the slot `n`: it is in front of the limit, and its entry agrees. -/
def hit (f : CpmDir) (s : Drive) (n : ℕ) : Bool :=
  (decide (f.st = CpmDir.UNUSED) || decide (n < s.scratch1)) &&
    matching d.exm (counter f) (wanted f) (s.slot n)

/-- **The slots from `m` on that the search stops at**, in order. -/
def hits (f : CpmDir) (s : Drive) (m : ℕ) : List ℕ :=
  (List.range' m (d.drm + 1 - m)).filter (hit d f s)

variable {d} {s t : Drive} {f : CpmDir} {m n : ℕ}

/-- The first byte stays. -/
lemma wanted_st (f : CpmDir) : (wanted f).st = f.st := by
  unfold wanted
  split <;> rfl

/-- The search stops at a slot iff it is in the search and agrees. -/
lemma hit_iff : hit d f s n = true ↔
    InSearch (wanted f) s n ∧ matching d.exm (counter f) (wanted f) (s.slot n) = true := by
  rw [hit, Bool.and_eq_true, Bool.or_eq_true, decide_eq_true_eq, decide_eq_true_eq, InSearch,
    wanted_st]
  refine and_congr_left fun _ => ⟨fun h hne => h.resolve_left hne, fun h => ?_⟩
  by_cases hf : f.st = CpmDir.UNUSED
  · exact .inl hf
  · exact .inr (h hf)

/-- Nothing agrees from `m` on. -/
lemma hits_eq_nil (h : ∀ i, m ≤ i → i ≤ d.drm → hit d f s i = false) : hits d f s m = [] := by
  rw [hits, List.filter_eq_nil_iff]
  intro i hi
  rw [List.mem_range'_1] at hi
  rw [h i hi.1 (by omega)]
  simp

/-- The first slot from `m` on that agrees. -/
lemma hits_eq_cons (hmn : m ≤ n) (hn : n ≤ d.drm) (hhit : hit d f s n = true)
    (h : ∀ i, m ≤ i → i < n → hit d f s i = false) : hits d f s m = n :: hits d f s (n + 1) := by
  have hsplit : List.range' m (d.drm + 1 - m) =
      List.range' m (n - m) ++ n :: List.range' (n + 1) (d.drm + 1 - (n + 1)) := by
    have hcons : n :: List.range' (n + 1) (d.drm + 1 - (n + 1)) =
        List.range' (m + (n - m)) (d.drm + 1 - n) := by
      rw [show d.drm + 1 - n = d.drm + 1 - (n + 1) + 1 by omega, List.range'_succ,
        show m + (n - m) = n by omega]
    rw [hcons, List.range'_append_1]
    congr 1
    omega
  have hnone : (List.range' m (n - m)).filter (hit d f s) = [] := by
    rw [List.filter_eq_nil_iff]
    intro i hi
    rw [List.mem_range'_1] at hi
    rw [h i hi.1 (by omega)]
    simp
  rw [hits, hsplit, List.filter_append, hnone, List.nil_append, List.filter_cons_of_pos hhit]
  rfl

/-! ## The search -/

/-- **The state between two calls of a search**: the disk is that of the state `s`, the sector of
the entry is in the buffer of the program, and the entry is the first one from `m` on that agrees.
-/
structure Listing (d : Dpb) (f : CpmDir) (s : Drive) (m : ℕ) (t : Drive) : Prop where
  same : SameDisk s t
  buffered : Buffered t
  moved : t.dma = t.dirBuf
  at_hit : (∃ n, m ≤ n ∧ n ≤ d.drm ∧ hit d f s n = true ∧
      (∀ i, m ≤ i → i < n → hit d f s i = false) ∧ t.filePos = some n ∧
      t.status = UInt8.ofNat (n % 4)) ∨
    ((∀ i, m ≤ i → i ≤ d.drm → hit d f s i = false) ∧ t.status = 0xff)

/-- The slots that agree are those of the disk. -/
lemma hit_congr (h : SameDisk s t) (n : ℕ) : hit d f t n = hit d f s n := by
  rw [hit, hit, h.slot, h.scratch1]

/-- What a search ends with, for the program. -/
lemma listing_of_ends {u v : Drive} (hsu : SameDisk s u) (hmv : Moved u v) (hb : Buffered v)
    (he : Ends d (wanted f) (counter f) u m v) : Listing d f s m v.moveDir := by
  have hsv : SameDisk s v := by
    have huv := hmv.sameDisk
    exact ⟨huv.sec.trans hsu.sec, huv.alv.trans hsu.alv, huv.csv.trans hsu.csv,
      huv.scratch1.trans hsu.scratch1, huv.wrtPrt.trans hsu.wrtPrt⟩
  have hno {i : ℕ} (h : matching d.exm (counter f) (wanted f) (u.slot i) = false) :
      hit d f s i = false := by
    rw [← hit_congr hsu, hit, h, Bool.and_false]
  refine ⟨⟨hsv.sec, hsv.alv, hsv.csv, hsv.scratch1, hsv.wrtPrt⟩, fun n hn => hb n hn, rfl, ?_⟩
  obtain ⟨n, h1, h2, h3, h4, h5, h6, h7, -⟩ | ⟨h1, -, h3, -⟩ := he
  · refine .inl ⟨n, h1, h2, ?_, fun i hi1 hi2 => hno (h5 i hi1 hi2), h6, h7⟩
    rw [← hit_congr hsu]
    exact hit_iff.mpr ⟨h3, h4⟩
  · refine .inr ⟨fun i hi1 hi2 => ?_, h3⟩
    by_cases hin : InSearch (wanted f) u i
    · exact hno (h1 i hi1 hi2 hin)
    · rw [← hit_congr hsu, ← Bool.not_eq_true]
      exact fun hh => hin (hit_iff.mp hh).1

/-- **The next call.** -/
lemma Listing.next (h : Listing d f s m t) (hu : Unchanged d s) (hn : n ≤ d.drm)
    (hpos : t.filePos = some n) : Listing d f s (n + 1) (getNxt d f t) := by
  have hut : Unchanged d t := by
    intro i hi hle
    rw [h.same.csv, h.same.sec]
    exact hu i hi hle
  have hslot : nextSlot t.filePos = n + 1 := by rw [hpos]; rfl
  obtain ⟨hmv, hb, he⟩ := findNxtLoop_spec (wanted f) (counter f) (d.drm + 2) t hut h.buffered
    (by omega) (by omega)
  rw [hslot] at he
  exact listing_of_ends h.same hmv hb he

/-- The status of a slot, as a number. -/
lemma toNat_status (n : ℕ) : (UInt8.ofNat (n % 4)).toNat = n % 4 := by
  rw [UInt8.toNat_ofNat']
  omega

/-- The entry that the program finds. -/
lemma Listing.answer (h : Listing d f s m t) (hpos : t.filePos = some n)
    (hst : t.status = UInt8.ofNat (n % 4)) : t.answer = s.slot n := by
  have hplace : place4 t.status.toNat = place4 n := by
    rw [hst, toNat_status, Fin.ext_iff]
    show n % 4 % 4 = n % 4
    omega
  rw [Drive.answer, h.moved, hplace, h.buffered n hpos, h.same.sec, slot]

/-- **The program sees the entries that agree.**

**Proof sketch.** Induction on the number of calls; each one moves on behind the entry that the one
before found. -/
lemma searchLoop_eq {k : ℕ} (hu : Unchanged d s) (h : Listing d f s m t)
    (hk : d.drm + 1 < k + m) : searchLoop d f k t = (hits d f s m).map s.slot := by
  induction k generalizing m t with
  | zero =>
    rw [hits_eq_nil fun i h1 h2 => by omega]
    rfl
  | succ k ih =>
    rw [searchLoop]
    obtain ⟨n, h1, h2, h3, h4, h5, h6⟩ | ⟨h1, h2⟩ := h.at_hit
    · have hne : t.status ≠ 0xff := by
        intro hff
        have hnat := congrArg UInt8.toNat (h6.symm.trans hff)
        rw [toNat_status] at hnat
        change n % 4 = 255 at hnat
        omega
      rw [if_neg hne, h.answer h5 h6, ih (h.next hu h2 h5) (by omega), hits_eq_cons h1 h2 h3 h4,
        List.map_cons]
    · rw [if_pos h2, hits_eq_nil h1]
      rfl

/-- The first call. -/
lemma getFst_listing (hu : Unchanged d s) (f : CpmDir) : Listing d f s 0 (getFst d f s) := by
  obtain ⟨hmv, hb, he⟩ := findFst_spec hu (wanted f) (counter f)
  have hstart : SameDisk s { s with fndStat := 0xff } := ⟨rfl, rfl, rfl, rfl, rfl⟩
  have hmv' : Moved { s with fndStat := 0xff } (findFst d (wanted f) (counter f) s) :=
    ⟨hmv.sec, hmv.alv, hmv.csv, hmv.scratch1, hmv.wrtPrt, hmv.dma⟩
  exact listing_of_ends hstart hmv' hb he

/-- **A search lists the directory exactly.** On a disk that was not changed, a program that asks
for the first entry and then for the next until there is none sees exactly the entries that agree
with its pattern in front of the search limit, each once and in the order of the directory. -/
theorem search_lists (d : Dpb) (f : CpmDir) (s : Drive) (hu : Unchanged d s) :
    search d f s = (hits d f s 0).map s.slot :=
  searchLoop_eq hu (getFst_listing hu f) (by omega)

/-- The pattern `*.*` of user 0. -/
def allFiles : CpmDir := { tinyEntry with fx := fun _ => ch '?', ex := fun _ => ch '?' }

/-- `search_lists` for the small disk: the one entry is seen. -/
theorem search_lists_tiny : tinyDrive.search tinyDpb allFiles = [tinyEntry] := by
  rw [search_lists tinyDpb allFiles tinyDrive tiny_sound.unchanged]
  have hhit : hit tinyDpb allFiles tinyDrive 0 = true := by
    rw [hit, tiny_slot]
    decide
  have hhits : hits tinyDpb allFiles tinyDrive 0 = [0] := by
    change List.filter _ [0] = [0]
    rw [List.filter_cons_of_pos hhit]
    rfl
  rw [hhits, List.map_singleton, tiny_slot]

end Drive

/-! ## Files -/

open Drive

section Files

variable {d : Dpb} {s : Drive} {E : ℕ → CpmDir} {f : CpmDir} {n : ℕ}

/-- The entry of the first extent of a file that the pattern stands for. -/
def FirstOf (d : Dpb) (s : Drive) (f : CpmDir) (n : ℕ) : Prop :=
  n ≤ d.drm ∧ (s.slot n).Used ∧ Matches f (nameOf (s.slot n)) ∧ extOf (s.slot n) = 0

/-- **A search of a user for first extents** stops at the entries of first extents.

**Proof sketch.** The user is no question mark, so that fifteen bytes are compared with `S2`
cleared. The comparison is that of names and extents, and an entry in use is in front of the search
limit. -/
lemma hit_iff_firstOf (hd : Flat d) (hs : Sound d s E) (hst : f.st.toNat < 32) (hxl : f.xl = 0)
    (hn : n ≤ d.drm) : hit d f s n = true ↔ FirstOf d s f n := by
  have hq : f.st ≠ ch '?' := by
    intro h
    rw [h] at hst
    exact absurd hst (by decide)
  have hE5 : f.st ≠ CpmDir.UNUSED := by
    intro h
    rw [h] at hst
    exact absurd hst (by decide)
  have hw : wanted f = { f with xh := 0 } := by
    rw [wanted, if_neg]
    rintro (h | h)
    · exact hq h
    · rw [hxl] at h
      exact absurd h (by decide)
  have hcount : counter f = 15 := if_neg hq
  have hbytes (i : Fin 12) :
      ({ f with xh := 0 } : CpmDir).toBytes ⟨i, by omega⟩ = f.toBytes ⟨i, by omega⟩ := by
    have hi := i.isLt
    simp only [CpmDir.toBytes, hi, dite_true]
  have hmatch : Matches { f with xh := 0 } (nameOf (s.slot n)) ↔
      Matches f (nameOf (s.slot n)) := by
    refine forall_congr' fun i => ?_
    rw [hbytes, nameOf_congr (u := { f with xh := 0 }) (v := f) rfl rfl rfl]
  have hext : extOf { f with xh := 0 } = 0 := by
    rw [extOf, hxl]
    rfl
  rw [hit_iff, hw, hcount, hd.exm, matching_pattern_iff (by rw [hxl]; decide)
    (show (0 : UInt8).toNat % 128 < 32 by decide), hmatch,
    hext, eq_comm, InSearch]
  constructor
  · rintro ⟨-, hm, he⟩
    refine ⟨hn, fun hun => ?_, hm, he⟩
    -- an unused entry has no user
    have h0 := (hm 0).resolve_left hq
    rw [nameOf_zero, nameOf_zero, hun, show CpmDir.UNUSED.toNat = 229 from rfl] at h0
    omega
  · rintro ⟨-, hused, hm, he⟩
    refine ⟨fun _ => ?_, hm, he⟩
    by_contra hlim
    exact hs.limit n hn (by omega) hused

/-- The slots of a search of a user for first extents. -/
lemma mem_hits_iff (hd : Flat d) (hs : Sound d s E) (hst : f.st.toNat < 32) (hxl : f.xl = 0) :
    n ∈ hits d f s 0 ↔ FirstOf d s f n := by
  rw [hits, List.mem_filter, List.mem_range'_1]
  constructor
  · rintro ⟨⟨-, hlt⟩, hhit⟩
    exact (hit_iff_firstOf hd hs hst hxl (by omega)).mp hhit
  · intro h
    have hn := h.1
    exact ⟨⟨by omega, by omega⟩, (hit_iff_firstOf hd hs hst hxl hn).mpr h⟩

/-- A file has one first extent. -/
lemma FirstOf.inj {m : ℕ} (hs : Sound d s E) (hn : FirstOf d s f n) (hm : FirstOf d s f m)
    (hname : nameOf (s.slot n) = nameOf (s.slot m)) : n = m := by
  obtain ⟨hn1, hn2, -, hn4⟩ := hn
  obtain ⟨hm1, hm2, -, hm4⟩ := hm
  have hvn := hs.view n hn1
  have hvm := hs.view m hm1
  refine hs.orderly.unique n hn1 m hm1 (hvn.used_iff.mpr hn2) (hvm.used_iff.mpr hm2) ?_ ?_
  · rw [hvn.keys.1, hvm.keys.1, hname]
  · rw [hvn.keys.2.1, hvm.keys.2.1, hn4, hm4]

/-- **A listing has every file once.** On a sound drive, with files open or not, a user that lists
the first extents with a pattern sees the names of exactly the files that the pattern stands for and
that have a first extent, none of them twice. -/
theorem search_files (d : Dpb) (s : Drive) (E : ℕ → CpmDir) (f : CpmDir) (hd : Flat d)
    (hs : Sound d s E) (hst : f.st.toNat < 32) (hxl : f.xl = 0) :
    ((s.search d f).map nameOf).Nodup ∧
      ∀ k, k ∈ (s.search d f).map nameOf ↔ ∃ n, FirstOf d s f n ∧ nameOf (s.slot n) = k := by
  have hsearch : s.search d f = (hits d f s 0).map s.slot :=
    searchLoop_eq hs.unchanged (getFst_listing hs.unchanged f) (by omega)
  rw [hsearch, List.map_map]
  constructor
  · refine List.Nodup.map_on (fun n hn m hm hname => ?_) ((List.nodup_range' ..).filter _)
    exact ((mem_hits_iff hd hs hst hxl).mp hn).inj hs ((mem_hits_iff hd hs hst hxl).mp hm) hname
  · intro k
    simp only [List.mem_map, mem_hits_iff hd hs hst hxl, Function.comp]

/-- `search_files` for the small disk. -/
theorem search_files_tiny :
    ((tinyDrive.search tinyDpb allFiles).map nameOf).Nodup ∧
      ∀ k, k ∈ (tinyDrive.search tinyDpb allFiles).map nameOf ↔
        ∃ n, FirstOf tinyDpb tinyDrive allFiles n ∧ nameOf (tinyDrive.slot n) = k :=
  search_files tinyDpb tinyDrive tinyDrive.slot allFiles tiny_flat tiny_sound (by decide) rfl

end Files

end Bdos

end Cpm22
