import Cpm22.Lib.Circular

set_option relaxedAutoImplicit false
set_option autoImplicit false

/-!
# Host access to the memory

`IntelCPU::readmem` and `IntelCPU::writemem` copy between the memory of the machine and a buffer
or a stream of the host. The address is a 16-bit number that wraps around at the end of the
memory; a loop copies up to the end, then goes on at cell 0. The model has the loops with the
16-bit arithmetic of the source, over a memory copy that has no result where it would use a cell
outside the 64 KiB; what the loops copy is the circular range of `Circular`.

## Main definitions

* `Cpm22.Cpu.memcpyFrom`, `Cpm22.Cpu.memcpyTo` — `memcpy` from and to the memory.
* `Cpm22.Cpu.readmem`, `Cpm22.Cpu.writemem` — the buffer forms.
* `Cpm22.OStream`, `Cpm22.IStream` — the streams.
* `Cpm22.Cpu.readmemStream`, `Cpm22.Cpu.writememStream` — the stream forms.

## Main results

* `Cpm22.Cpu.memory_transfer` — both forms copy the cells `(addr + i) mod 65536`, end with every
  index inside the memory, and what is written is read back.
-/

namespace Cpm22

/-- **An output stream**: what was written, whether the stream is good, and the number of bytes
that the device still takes, `none` for a device that is never full. -/
structure OStream where
  /-- bytes written so far -/
  written : List UInt8
  /-- neither `failbit` nor `badbit` is set -/
  good : Bool
  /-- bytes the device still takes -/
  room : Option ℕ

/-- `ostream::write`: a device that is full ends the stream, after as many bytes as it has room for.
A stream that is not good takes nothing. -/
def OStream.write (f : OStream) (bytes : List UInt8) : OStream :=
  if f.good then
    match f.room with
    | none => { f with written := f.written ++ bytes }
    | some r =>
      if bytes.length ≤ r then
        { f with written := f.written ++ bytes, room := some (r - bytes.length) }
      else { written := f.written ++ bytes.take r, good := false, room := some 0 }
  else f

/-- **An input stream**: what is left to read, and whether the stream is good. -/
structure IStream where
  /-- bytes that were not read yet -/
  rest : List UInt8
  /-- neither `failbit` nor `badbit` is set -/
  good : Bool
  deriving DecidableEq

/-- `istream::read` with the bytes that it got, whose number is `gcount`: fewer than `n` bytes set
`eofbit` and `failbit`. -/
def IStream.read (f : IStream) (n : ℕ) : List UInt8 × IStream :=
  if f.good then (f.rest.take n, ⟨f.rest.drop n, decide (n ≤ f.rest.length)⟩) else ([], f)

namespace Cpu

/-! ## The loops of the source -/

/-- `memcpy(buffer, m_ram + addr, n)`, the bytes copied. -/
def memcpyFrom (ram : ℕ → UInt8) (addr n : ℕ) : Option (List UInt8) :=
  if addr + n ≤ 0x10000 then some ((List.range n).map fun i => ram (addr + i)) else none

/-- `memcpy(m_ram + addr, buffer, n)` of a buffer of `n` bytes. -/
def memcpyTo (ram : ℕ → UInt8) (addr : ℕ) (buffer : List UInt8) : Option (ℕ → UInt8) :=
  if addr + buffer.length ≤ 0x10000 then
    some fun j => if addr ≤ j then (buffer[j - addr]?).getD (ram j) else ram j
  else none

/-- The number of bytes up to the end of the memory, at most the bytes that are left to copy. -/
def chunk (addr size : UInt16) : ℕ := min (0x10000 - addr.toNat) size.toNat

/-- `static_cast<uint16_t>(addr + n)`. -/
def advance (addr : UInt16) (n : ℕ) : UInt16 := UInt16.ofNat (addr.toNat + n)

/-- `static_cast<uint16_t>(size - n)`. -/
def remain (size : UInt16) (n : ℕ) : UInt16 := UInt16.ofNat (size.toNat - n)

/-- The count after a step, as a number. -/
@[simp]
lemma toNat_remain (size : UInt16) (n : ℕ) : (remain size n).toNat = size.toNat - n := by
  have := size.toNat_lt
  rw [remain, UInt16.toNat_ofNat']
  omega

/-- Two steps take away what both take. -/
lemma remain_remain (size : UInt16) (n k : ℕ) : remain (remain size n) k = remain size (n + k) := by
  apply UInt16.toNat_inj.mp
  rw [toNat_remain, toNat_remain, toNat_remain]
  omega

/-- A step that takes nothing away. -/
lemma remain_zero (size : UInt16) : remain size 0 = size := by
  apply UInt16.toNat_inj.mp
  rw [toNat_remain]
  omega

/-- The address after a step, as a number. -/
@[simp]
lemma toNat_advance (addr : UInt16) (n : ℕ) :
    (advance addr n).toNat = (addr.toNat + n) % 0x10000 := by
  rw [advance, UInt16.toNat_ofNat']

/-- A count that is not 0, as a number. -/
lemma toNat_pos {size : UInt16} (h : size ≠ 0) : 0 < size.toNat := by
  rw [Nat.pos_iff_ne_zero]
  intro h0
  apply h
  exact UInt16.toNat_inj.mp (by simpa using h0)

/-- A step of a loop makes the count smaller. -/
lemma remain_lt {size : UInt16} {n : ℕ} (h : size ≠ 0) (hn : 0 < n) :
    (remain size n).toNat < size.toNat := by
  have := toNat_pos h
  rw [toNat_remain]
  omega

/-- A step copies at least one byte. -/
lemma chunk_pos (addr : UInt16) {size : UInt16} (h : size ≠ 0) : 0 < chunk addr size := by
  have := toNat_pos h
  have := addr.toNat_lt
  rw [chunk]
  omega

/-- **`readmem`** into a buffer: the bytes put there. -/
def readmem (ram : ℕ → UInt8) (addr size : UInt16) : Option (List UInt8) :=
  if size = 0 then some []
  else do
    let bytes ← memcpyFrom ram addr.toNat (chunk addr size)
    let rest ← readmem ram (advance addr (chunk addr size)) (remain size (chunk addr size))
    pure (bytes ++ rest)
termination_by size.toNat
decreasing_by exact remain_lt ‹_› (chunk_pos _ ‹_›)

/-- **`writemem`** from a buffer: the memory after it. A buffer that is too short is read
behind its end. -/
def writemem (ram : ℕ → UInt8) (buffer : List UInt8) (addr size : UInt16) :
    Option (ℕ → UInt8) :=
  if size = 0 then some ram
  else if chunk addr size ≤ buffer.length then do
    let ram' ← memcpyTo ram addr.toNat (buffer.take (chunk addr size))
    writemem ram' (buffer.drop (chunk addr size)) (advance addr (chunk addr size))
      (remain size (chunk addr size))
  else none
termination_by size.toNat
decreasing_by exact remain_lt ‹_› (chunk_pos _ ‹_›)

/-- **`readmem`** to a stream: the stream, and the count that is left. Each round copies up to the
end of the memory or of the range; behind the end of the memory it goes on at address 0. -/
def readmemStream (ram : ℕ → UInt8) (f : OStream) (addr size : UInt16) :
    Option (OStream × UInt16) :=
  if f.good = true ∧ size ≠ 0 then do
    let bytes ← memcpyFrom ram addr.toNat (chunk addr size)
    if (f.write bytes).good then
      readmemStream ram (f.write bytes) (advance addr (chunk addr size))
        (remain size (chunk addr size))
    else some (f.write bytes, size)
  else some (f, size)
termination_by size.toNat
decreasing_by exact remain_lt (And.right ‹_›) (chunk_pos _ (And.right ‹_›))

/-- **`writemem`** from a stream: the memory, the stream, and the count that is left. -/
def writememStream (ram : ℕ → UInt8) (f : IStream) (addr size : UInt16) :
    Option ((ℕ → UInt8) × IStream × UInt16) :=
  if f.good = true ∧ size ≠ 0 then do
    let got := f.read (chunk addr size)
    let ram' ← memcpyTo ram addr.toNat got.1
    if got.1.length = 0 then some (ram', got.2, size)
    else writememStream ram' got.2 (advance addr got.1.length) (remain size got.1.length)
  else some (ram, f, size)
termination_by size.toNat
decreasing_by exact remain_lt (And.right ‹_›) (Nat.pos_of_ne_zero ‹_›)

/-! ## What a step copies -/

/-- A copy from the memory that stays inside is a range. -/
lemma memcpyFrom_of_le {ram : ℕ → UInt8} {addr n : ℕ} (h : addr + n ≤ 0x10000) :
    memcpyFrom ram addr n = some (Circular.load 0x10000 ram addr n) := by
  rw [memcpyFrom, if_pos h, Circular.load_of_le ram h]

/-- A copy to the memory that stays inside is a range. -/
lemma memcpyTo_of_le {ram : ℕ → UInt8} {addr : ℕ} {buffer : List UInt8}
    (h : addr + buffer.length ≤ 0x10000) :
    memcpyTo ram addr buffer = some (Circular.save 0x10000 ram addr buffer) := by
  rw [memcpyTo, if_pos h, Circular.save_of_le h]

/-- A step stays inside the memory. -/
lemma add_chunk_le (addr size : UInt16) : addr.toNat + chunk addr size ≤ 0x10000 := by
  have := addr.toNat_lt
  rw [chunk]
  omega

/-- A step copies no more than is left. -/
lemma chunk_le (addr size : UInt16) : chunk addr size ≤ size.toNat := Nat.min_le_right _ _

/-- The range from the address after a step on. -/
lemma load_advance (ram : ℕ → UInt8) (addr : UInt16) (n k : ℕ) :
    Circular.load 0x10000 ram (advance addr n).toNat k =
      Circular.load 0x10000 ram (addr.toNat + n) k := by
  rw [toNat_advance, Circular.load_mod]

/-- A write from the address after a step on. -/
lemma save_advance (ram : ℕ → UInt8) (addr : UInt16) (n : ℕ) (bytes : List UInt8) :
    Circular.save 0x10000 ram (advance addr n).toNat bytes =
      Circular.save 0x10000 ram (addr.toNat + n) bytes := by
  rw [toNat_advance, Circular.save_mod]

/-- A range is what a step copies, then the range from the next address on. -/
lemma load_chunk (ram : ℕ → UInt8) (addr size : UInt16) :
    Circular.load 0x10000 ram addr.toNat size.toNat =
      Circular.load 0x10000 ram addr.toNat (chunk addr size) ++
      Circular.load 0x10000 ram (advance addr (chunk addr size)).toNat
        (remain size (chunk addr size)).toNat := by
  have hle := chunk_le addr size
  rw [load_advance, ← Circular.load_add, toNat_remain]
  congr 1
  omega

/-! ## What the loops copy -/

/-- **`readmem` delivers the range.** -/
lemma readmem_eq (ram : ℕ → UInt8) (addr size : UInt16) :
    readmem ram addr size = some (Circular.load 0x10000 ram addr.toNat size.toNat) := by
  fun_induction readmem ram addr size with
  | case1 addr => simp
  | case2 addr size h ih =>
    rw [memcpyFrom_of_le (add_chunk_le addr size), ih, load_chunk ram addr size]
    rfl

/-- **`writemem` writes the range.**

**Proof sketch.** Induction along the loop: what a step writes and what is written from the next
address on are two parts of the buffer. -/
lemma writemem_eq {ram : ℕ → UInt8} {buffer : List UInt8} {addr size : UInt16}
    (h : size.toNat ≤ buffer.length) : writemem ram buffer addr size =
      some (Circular.save 0x10000 ram addr.toNat (buffer.take size.toNat)) := by
  fun_induction writemem ram buffer addr size with
  | case1 ram buffer addr => simp [Circular.save]
  | case2 ram buffer addr size hsize hbuf ih =>
    have hle := chunk_le addr size
    have hlen : (buffer.take (chunk addr size)).length = chunk addr size :=
      List.length_take_of_le hbuf
    have hinside : addr.toNat + (buffer.take (chunk addr size)).length ≤ 0x10000 := by
      rw [hlen]
      exact add_chunk_le addr size
    have hsplit : buffer.take size.toNat = buffer.take (chunk addr size) ++
        (buffer.drop (chunk addr size)).take (size.toNat - chunk addr size) := by
      rw [← List.take_add, Nat.add_sub_cancel' hle]
    rw [memcpyTo_of_le hinside, Option.bind_eq_bind, Option.bind_some]
    rw [ih _ (by rw [toNat_remain, List.length_drop]; omega)]
    rw [save_advance, toNat_remain, hsplit, Circular.save_append, hlen]
  | case3 ram buffer addr size hsize hbuf =>
    have := chunk_le addr size
    omega

/-- A stream that takes everything, after a write. -/
lemma OStream.write_of_room {f : OStream} (hgood : f.good = true) (hroom : f.room = none)
    (bytes : List UInt8) : f.write bytes = { f with written := f.written ++ bytes } := by
  rw [OStream.write, if_pos hgood, hroom]

/-- **`readmem` to a stream that takes everything writes the range** and leaves no count. -/
lemma readmemStream_eq {ram : ℕ → UInt8} {f : OStream} {addr size : UInt16}
    (hgood : f.good = true) (hroom : f.room = none) : readmemStream ram f addr size =
      some ({ f with written := f.written ++
        Circular.load 0x10000 ram addr.toNat size.toNat }, 0) := by
  fun_induction readmemStream ram f addr size with
  | case1 f addr size h ih =>
    rw [memcpyFrom_of_le (add_chunk_le addr size), Option.bind_eq_bind, Option.bind_some,
      OStream.write_of_room hgood hroom, if_pos hgood]
    simp only [OStream.write_of_room hgood hroom] at ih
    rw [ih _ hgood hroom, load_chunk ram addr size, List.append_assoc]
  | case2 f addr size h =>
    have hsize : size = 0 := by
      by_contra hne
      exact h ⟨hgood, hne⟩
    subst hsize
    simp

/-- What a stream that is good delivers. -/
lemma IStream.read_of_good {f : IStream} (hgood : f.good = true) (n : ℕ) :
    f.read n = (f.rest.take n, ⟨f.rest.drop n, decide (n ≤ f.rest.length)⟩) := by
  rw [IStream.read, if_pos hgood]

/-- A loop over a stream that has failed does nothing. -/
lemma writememStream_of_failed {ram : ℕ → UInt8} {f : IStream} {addr size : UInt16}
    (h : f.good = false) : writememStream ram f addr size = some (ram, f, size) := by
  rw [writememStream, if_neg]
  simp [h]

/-- **`writemem` from a stream writes the range**, up to the end of the stream; the stream has
failed iff it was too short, and the count that is left is what was missing.

**Proof sketch.** Induction along the loop. A step that gets all it asked for goes on with the
rest of the stream; a step that gets less is the last one. -/
lemma writememStream_eq {ram : ℕ → UInt8} {f : IStream} {addr size : UInt16}
    (hgood : f.good = true) : writememStream ram f addr size =
      some (Circular.save 0x10000 ram addr.toNat (f.rest.take size.toNat),
        ⟨f.rest.drop size.toNat, decide (size.toNat ≤ f.rest.length)⟩,
        remain size (min size.toNat f.rest.length)) := by
  fun_induction writememStream ram f addr size with
  | case1 ram f addr size h got ih =>
    have hpos := chunk_pos addr h.2
    have hle := chunk_le addr size
    have hgot : got = (f.rest.take (chunk addr size),
        ⟨f.rest.drop (chunk addr size), decide (chunk addr size ≤ f.rest.length)⟩) :=
      IStream.read_of_good hgood _
    have hinside : addr.toNat + (f.rest.take (chunk addr size)).length ≤ 0x10000 := by
      have := add_chunk_le addr size
      rw [List.length_take]
      omega
    clear_value got
    subst hgot
    simp only at ih ⊢
    rw [memcpyTo_of_le hinside, Option.bind_eq_bind, Option.bind_some]
    by_cases hshort : chunk addr size ≤ f.rest.length
    · -- all of the step was read
      have hlen : (f.rest.take (chunk addr size)).length = chunk addr size :=
        List.length_take_of_le hshort
      have hsplit : f.rest.take size.toNat = f.rest.take (chunk addr size) ++
          (f.rest.drop (chunk addr size)).take (size.toNat - chunk addr size) := by
        rw [← List.take_add, Nat.add_sub_cancel' hle]
      rw [if_neg (by omega), ih _ (by omega) (by simpa using hshort), hlen]
      refine congrArg some (Prod.ext ?_ (Prod.ext ?_ ?_))
      · show Circular.save _ _ _ _ = _
        rw [save_advance, toNat_remain, hsplit, Circular.save_append, hlen]
      · show IStream.mk _ _ = _
        rw [toNat_remain, List.drop_drop, Nat.add_sub_cancel' hle, List.length_drop]
        congr 2
        apply propext
        omega
      · show remain _ _ = _
        rw [remain_remain, toNat_remain, List.length_drop]
        congr 1
        omega
    · -- the stream ends in this step
      have htake : ∀ n, chunk addr size ≤ n → f.rest.take n = f.rest := by
        intro n hn
        exact List.take_of_length_le (by omega)
      have hdrop : ∀ n, chunk addr size ≤ n → f.rest.drop n = [] := by
        intro n hn
        exact List.drop_of_length_le (by omega)
      have hmin : min size.toNat f.rest.length = f.rest.length := by omega
      have hfail : decide (size.toNat ≤ f.rest.length) = false := by
        rw [decide_eq_false_iff_not]
        omega
      rw [htake _ (le_refl _), hdrop _ (le_refl _), htake _ hle, hdrop _ hle, hmin, hfail,
        decide_eq_false hshort]
      split_ifs with hnone
      · rw [hnone, remain_zero]
      · rw [writememStream_of_failed rfl]
  | case2 ram f addr size h =>
    have hsize : size = 0 := by
      by_contra hne
      exact h ⟨hgood, hne⟩
    subst hsize
    obtain ⟨rest, good⟩ := f
    obtain rfl : good = true := hgood
    simp [Circular.save, remain_zero]

/-! ## Transfers -/

/-- **`ram'` is `ram` with the bytes stored from `addr` on**: byte `i` is in the cell `addr + i`
modulo 65536, and no other cell differs. -/
def Stored (ram ram' : ℕ → UInt8) (addr : ℕ) (bytes : List UInt8) : Prop :=
  (∀ i (h : i < bytes.length), ram' ((addr + i) % 0x10000) = bytes[i]) ∧
  ∀ j, (∀ i < bytes.length, j ≠ (addr + i) % 0x10000) → ram' j = ram j

/-- A write of at most 64 KiB stores its bytes. -/
lemma stored_save (ram : ℕ → UInt8) (addr : ℕ) {bytes : List UInt8}
    (h : bytes.length ≤ 0x10000) :
    Stored ram (Circular.save 0x10000 ram addr bytes) addr bytes :=
  ⟨fun _ hi => Circular.save_cell h hi, fun _ hj => Circular.save_other hj⟩

/-- The first bytes of a range are read back from the memory that holds them. -/
lemma take_load_save (ram : ℕ → UInt8) (addr : ℕ) {bytes : List UInt8} {n : ℕ}
    (h : bytes.length ≤ 0x10000) (hn : bytes.length ≤ n) :
    (Circular.load 0x10000 (Circular.save 0x10000 ram addr bytes) addr n).take bytes.length =
      bytes := by
  obtain ⟨k, rfl⟩ := Nat.exists_eq_add_of_le hn
  rw [Circular.load_add, List.take_append_of_le_length (by simp),
    List.take_of_length_le (by simp), Circular.load_save h]

/-- **Host memory transfers copy with wrap-around.** Both forms of `writemem` end, use no cell
outside the memory, and store the bytes that they got; both forms of `readmem` end, use no cell
outside the memory, and deliver the range; what was written is read back.

**Proof sketch.** Each of the four loops is a transfer of the circular memory (`writemem_eq`,
`writememStream_eq`, `readmem_eq`, `readmemStream_eq`). That the bytes come back is
`Circular.load_save`, since no more than 65536 of them were stored. -/
theorem memory_transfer (ram : ℕ → UInt8) (addr size : UInt16) :
    (∀ buffer : List UInt8, size.toNat ≤ buffer.length →
      ∃ ram', writemem ram buffer addr size = some ram' ∧
        Stored ram ram' addr.toNat (buffer.take size.toNat) ∧
        readmem ram' addr size = some (buffer.take size.toNat)) ∧
    (∀ f : IStream, f.good = true →
      ∃ ram' f' left bytes, writememStream ram f addr size = some (ram', f', left) ∧
        left.toNat = size.toNat - min size.toNat f.rest.length ∧
        f.rest.take (min size.toNat f.rest.length) = bytes ∧
        Stored ram ram' addr.toNat bytes ∧
        (readmem ram' addr size).map (List.take bytes.length) = some bytes ∧
        (readmem ram' addr (UInt16.ofNat bytes.length)) = some bytes) ∧
    readmem ram addr size =
      some ((List.range size.toNat).map fun i => ram ((addr.toNat + i) % 0x10000)) ∧
    ∀ f : OStream, f.good = true → f.room = none →
      ∃ f', readmemStream ram f addr size = some (f', 0) ∧ f'.good = true ∧
        f'.written = f.written ++
          (List.range size.toNat).map fun i => ram ((addr.toNat + i) % 0x10000) := by
  have hsize := size.toNat_lt
  refine ⟨?_, ?_, ?_, ?_⟩
  · intro buffer hlen
    have htake : (buffer.take size.toNat).length = size.toNat := List.length_take_of_le hlen
    have hload := Circular.load_save (m := ram) (a := addr.toNat)
      (show (buffer.take size.toNat).length ≤ 0x10000 by omega)
    rw [htake] at hload
    exact ⟨_, writemem_eq hlen, stored_save ram _ (by omega), by rw [readmem_eq, hload]⟩
  · intro f hgood
    have htake : f.rest.take (min size.toNat f.rest.length) = f.rest.take size.toNat := by
      rw [List.take_eq_take_iff]
      omega
    have hlen : (f.rest.take size.toNat).length ≤ size.toNat := List.length_take_le _ _
    refine ⟨_, _, _, _, writememStream_eq hgood, toNat_remain _ _, htake,
      stored_save ram _ (by omega), ?_, ?_⟩
    · rw [readmem_eq, Option.map_some, take_load_save ram _ (by omega) hlen]
    · rw [readmem_eq, UInt16.toNat_ofNat', Nat.mod_eq_of_lt (by omega),
        Circular.load_save (by omega)]
  · exact readmem_eq ram addr size
  · intro f hgood hroom
    exact ⟨_, readmemStream_eq hgood hroom, hgood, rfl⟩

/-- Two bytes at the last cell go to the last cell and to cell 0, from a buffer and from a stream
that ends after one of them. -/
theorem memory_transfer_last_cell :
    (∃ ram', writemem (fun _ => 0) [1, 2] 0xffff 2 = some ram' ∧
      Stored (fun _ => 0) ram' 0xffff [1, 2] ∧ readmem ram' 0xffff 2 = some [1, 2]) ∧
    (∃ ram' f' left, writememStream (fun _ => 0) ⟨[7], true⟩ 0xffff 2 = some (ram', f', left) ∧
      left.toNat = 1 ∧ Stored (fun _ => 0) ram' 0xffff [7]) ∧
    ∃ f', readmemStream (fun _ => 5) ⟨[], true, none⟩ 0xffff 2 = some (f', 0) ∧
      f'.written = [5, 5] := by
  have hzero := memory_transfer (fun _ => 0) 0xffff 2
  have hfive := memory_transfer (fun _ => 5) 0xffff 2
  refine ⟨hzero.1 [1, 2] (by decide), ?_, ?_⟩
  · obtain ⟨ram', f', left, bytes, hrun, hleft, rfl, hstored, -⟩ := hzero.2.1 ⟨[7], true⟩ rfl
    exact ⟨ram', f', left, hrun, hleft, hstored⟩
  · obtain ⟨f', hrun, -, hwritten⟩ := hfive.2.2.2 ⟨[], true, none⟩ rfl rfl
    exact ⟨f', hrun, hwritten⟩

end Cpu

end Cpm22
