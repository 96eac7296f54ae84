import Cpm22.Console.Input

set_option relaxedAutoImplicit false
set_option autoImplicit false

/-!
# Line ends in the console queue

A client ends a line with CR, with LF, with CR LF or, as TELNET asks, with CR NUL. `console` is to
queue one carriage return for each, because a second byte would be a pending key for `CHKCON`. The
test for the line feed comes before the byte is masked to seven bits, so that a data byte `8AH`
becomes a line feed behind the test.

## Main definitions

* `Cpm22.Console.dataBytes` — the bytes of a connection that pass the TELNET filter.
* `Cpm22.Console.Token`, `Cpm22.Console.lex` — line ends and other characters of a client.
* `Cpm22.Console.SingleReturns` — what the queue is to hold.

## Main results

* `Cpm22.Console.lex_wire` — the tokens are the data bytes, cut at the line ends.
* `Cpm22.Console.feed_consoleByte_lex` — `console` queues one byte for each token.
* `Cpm22.Console.singleReturns_iff` — over all connections, the queue is as it should be exactly
  when no data byte is `8AH`.
-/

namespace Cpm22.Console

open Transducer Runs

/-! ## What a client sends -/

/-- The `switch` of `console` on its own: it hands on the bytes that leave it by `break`. -/
def pass (st : TelnetState) (c : UInt8) : TelnetState × List UInt8 :=
  let (st', isData) := telnetSwitch st c
  (st', if isData then [c] else [])

/-- **The data bytes of a connection**: the received bytes that pass the TELNET filter. -/
def dataBytes (bs : List UInt8) : List UInt8 := (feed pass .data bs).2

/-- **A line end or another character** of a client. -/
inductive Token
  | cr
  | lf
  | crLf
  | crNul
  | char (c : UInt8)
  deriving DecidableEq, Repr

/-- The token of a byte on its own. -/
def Token.ofByte (c : UInt8) : Token := if c = CR then .cr else if c = LF then .lf else .char c

/-- A token as the client sends it. -/
def Token.wire : Token → List UInt8
  | .cr => [CR]
  | .lf => [LF]
  | .crLf => [CR, LF]
  | .crNul => [CR, 0]
  | .char c => [c]

/-- The byte that is queued for a token: **one carriage return for each line end**. -/
def Token.queued : Token → UInt8
  | .char c => c &&& 0x7f
  | _ => CR

/-- **The line ends of a data byte string**, a CR together with the LF or NUL behind it. -/
def lex : List UInt8 → List Token
  | [] => []
  | [c] => [.ofByte c]
  | c :: d :: rest =>
    if c = CR ∧ d = LF then .crLf :: lex rest
    else if c = CR ∧ d = 0 then .crNul :: lex rest
    else .ofByte c :: lex (d :: rest)

/-- **What the queue is to hold** for the connections `conns`, the newest first: no line feed,
seven-bit characters, and one carriage return for each line end of each connection. -/
structure SingleReturns (conns : List (List UInt8)) (queue : List UInt8) : Prop where
  noLineFeed : LF ∉ queue
  sevenBit : ∀ b ∈ queue, b < 0x80
  lineEnds : queue = conns.reverse.flatMap fun bs => (lex (dataBytes bs)).map Token.queued

/-! ## The tokens of a connection -/

/-- A byte on its own is sent as itself. -/
lemma wire_ofByte (c : UInt8) : (Token.ofByte c).wire = [c] := by
  by_cases h1 : c = CR
  · simp [Token.ofByte, h1, Token.wire]
  · by_cases h2 : c = LF
    · subst h2
      rfl
    · simp [Token.ofByte, h1, h2, Token.wire]

/-- **The tokens are the data bytes**, cut at the line ends. -/
theorem lex_wire (x : List UInt8) : (lex x).flatMap Token.wire = x := by
  induction x using lex.induct with
  | case1 => rfl
  | case2 c => simp [lex, wire_ofByte]
  | case3 c d rest h ih =>
    obtain ⟨rfl, rfl⟩ := h
    simp [lex, Token.wire, ih]
  | case4 c d rest h1 h2 ih =>
    obtain ⟨rfl, rfl⟩ := h2
    rw [lex, if_neg h1, if_pos ⟨rfl, rfl⟩, List.flatMap_cons, ih]
    rfl
  | case5 c d rest h1 h2 ih =>
    rw [lex, if_neg h1, if_neg h2, List.flatMap_cons, ih, wire_ofByte]
    rfl

/-- A byte without the CR flag emits the byte of its token, and sets the flag if it is a CR. -/
lemma lineEnd_false (c : UInt8) :
    lineEnd false c = (decide (c = CR), [(Token.ofByte c).queued]) := by
  by_cases h1 : c = CR
  · simp [lineEnd, Token.ofByte, Token.queued, h1]
  · by_cases h2 : c = LF
    · subst h2
      rfl
    · simp [lineEnd, Token.ofByte, Token.queued, h1, h2]

/-- With the CR flag a byte that completes no line end is treated as without it. -/
lemma lineEnd_true {d : UInt8} (h1 : d ≠ LF) (h2 : d ≠ 0) : lineEnd true d = lineEnd false d := by
  simp [lineEnd, h1, h2]

/-- The translation of line ends emits one byte for each token.

**Proof sketch.** Induction on the cases of `lex`. The two bytes of a line end give one byte, and
so does any other byte; a flag that a carriage return leaves behind does not matter to a byte that
is neither a line feed nor 0. -/
lemma feed_lineEnd (x : List UInt8) :
    (feed lineEnd false x).2 = (lex x).map Token.queued := by
  induction x using lex.induct with
  | case1 => rfl
  | case2 c => simp [lex, lineEnd_false]
  | case3 c d rest h ih =>
    obtain ⟨rfl, rfl⟩ := h
    rw [lex, if_pos ⟨rfl, rfl⟩, List.map_cons, ← ih]
    rfl
  | case4 c d rest h1 h2 ih =>
    obtain ⟨rfl, rfl⟩ := h2
    rw [lex, if_neg h1, if_pos ⟨rfl, rfl⟩, List.map_cons, ← ih]
    rfl
  | case5 c d rest h1 h2 ih =>
    -- a CR flag that `c` leaves behind does not matter to `d`
    have hflag : feed lineEnd (decide (c = CR)) (d :: rest) = feed lineEnd false (d :: rest) := by
      by_cases hc : c = CR
      · have hd1 : d ≠ LF := fun h => h1 ⟨hc, h⟩
        have hd2 : d ≠ 0 := fun h => h2 ⟨hc, h⟩
        simp [feed, hc, lineEnd_true hd1 hd2]
      · simp [hc]
    rw [lex, if_neg h1, if_neg h2, List.map_cons, ← ih, ← hflag, feed, lineEnd_false]
    rfl

/-- The loop body of `console` is the `switch` with the translation of line ends behind it. -/
lemma feed_consoleByte (bs : List UInt8) :
    (feed consoleByte .init bs).2 = (feed lineEnd false (dataBytes bs)).2 := by
  have h := feed_comp pass lineEnd consoleByte Filter.mk ?_ .data false bs
  · exact congrArg Prod.snd h
  · intro st cr c
    rcases hsw : telnetSwitch st c with ⟨st', isData⟩
    cases isData <;> simp [consoleByte, pass, hsw]

/-- **`console` queues one byte for each token** of a connection. -/
theorem feed_consoleByte_lex (bs : List UInt8) :
    (feed consoleByte .init bs).2 = (lex (dataBytes bs)).map Token.queued := by
  rw [feed_consoleByte, feed_lineEnd]

/-! ## The queue -/

/-- Masking gives a line feed for a line feed and for `8AH`. -/
lemma and_eq_lf (c : UInt8) : c &&& 0x7f = LF ↔ c = LF ∨ c = 0x8a := by
  have h : ∀ n < 256,
      (UInt8.ofNat n &&& 0x7f = LF ↔ UInt8.ofNat n = LF ∨ UInt8.ofNat n = 0x8a) := by
    decide +kernel
  simpa using h c.toNat c.toNat_lt

/-- A masked byte has seven bits. -/
lemma and_lt (c : UInt8) : c &&& 0x7f < 0x80 := by
  rw [UInt8.lt_iff_toNat_lt, UInt8.toNat_and]
  exact Nat.lt_of_le_of_lt Nat.and_le_right (by decide)

/-- Every token queues a seven-bit byte. -/
lemma Token.queued_lt (t : Token) : t.queued < 0x80 := by
  cases t with
  | char c => exact and_lt c
  | _ => decide

/-- The token of a byte queues a line feed for `8AH` only. -/
lemma queued_ofByte (c : UInt8) : LF = (Token.ofByte c).queued ↔ 0x8a = c := by
  rw [eq_comm, eq_comm (a := (0x8a : UInt8))]
  by_cases h1 : c = CR
  · subst h1
    decide
  · by_cases h2 : c = LF
    · subst h2
      decide
    · simp [Token.ofByte, h1, h2, Token.queued, and_eq_lf]

/-- **A line feed is queued exactly for a data byte `8AH`.**

**Proof sketch.** Induction along `lex`. A line end of two bytes queues a CR and neither of its
bytes is `8AH`; any other byte is a token of its own. -/
lemma lf_mem_queued (x : List UInt8) : LF ∈ (lex x).map Token.queued ↔ 0x8a ∈ x := by
  have hcr : (0x8a : UInt8) ≠ CR := by decide
  have hlf : (0x8a : UInt8) ≠ LF := by decide
  have hne : LF ≠ CR := by decide
  induction x using lex.induct with
  | case1 => simp [lex]
  | case2 c => simp [lex, queued_ofByte]
  | case3 c d rest h ih =>
    obtain ⟨rfl, rfl⟩ := h
    simp [lex, Token.queued, ← ih, hcr, hlf, hne]
  | case4 c d rest h1 h2 ih =>
    obtain ⟨rfl, rfl⟩ := h2
    rw [lex, if_neg h1, if_pos ⟨rfl, rfl⟩]
    simp [Token.queued, ← ih, hcr, hne]
  | case5 c d rest h1 h2 ih =>
    rw [lex, if_neg h1, if_neg h2, List.map_cons, List.mem_cons, List.mem_cons, queued_ofByte]
    exact or_congr Iff.rfl ih

/-- What the filter lets through of the connections, token by token. -/
lemma filtered_eq_lex (conns : List (List UInt8)) :
    filtered conns = conns.reverse.flatMap fun bs => (lex (dataBytes bs)).map Token.queued := by
  simp only [filtered, feed_consoleByte_lex]

/-- The filter lets seven-bit bytes through. -/
lemma lt_of_mem_filtered {conns : List (List UInt8)} {b : UInt8} (h : b ∈ filtered conns) :
    b < 0x80 := by
  rw [filtered_eq_lex] at h
  obtain ⟨bs, -, hb⟩ := List.mem_flatMap.mp h
  obtain ⟨t, -, rfl⟩ := List.mem_map.mp hb
  exact t.queued_lt

/-- The filter lets a line feed through exactly for a data byte `8AH`. -/
lemma lf_mem_filtered (conns : List (List UInt8)) :
    LF ∈ filtered conns ↔ ∃ bs ∈ conns, 0x8a ∈ dataBytes bs := by
  simp only [filtered_eq_lex, List.mem_flatMap, List.mem_reverse, lf_mem_queued]

/-- Everything that `console` has passed to `enqueueConsoleByte` by now: what the guest has read,
what is in the queue, and the byte that is being enqueued. -/
def State.enqueued (s : State) : List UInt8 :=
  s.delivered ++ s.cpu.last ++ s.consoleBuffer ++ s.server.pending

/-- **Line ends in the console queue.** After every run of the two threads, over all connections
there were, `console` has queued no line feed, only seven-bit bytes, and one carriage return for
each line end of a client, exactly when none of the data bytes it received was `8AH`.

**Proof sketch.** By the invariant of console input the bytes queued are those that the filter
lets through of the connections, each with a fresh filter (`run_ordered`). These are one byte for
each token, and only the token of `8AH` gives a line feed. -/
theorem singleReturns_iff (es : List Event) (s : State) (h : run step .init es = some s) :
    SingleReturns (streams es) s.enqueued ↔ ∀ bs ∈ streams es, 0x8a ∉ dataBytes bs := by
  have hq : s.enqueued = filtered (streams es) := (run_ordered h).queued.symm
  rw [hq]
  constructor
  · intro hs bs hbs hmem
    exact hs.noLineFeed ((lf_mem_filtered _).mpr ⟨bs, hbs, hmem⟩)
  · intro hno
    refine ⟨?_, fun b hb => lt_of_mem_filtered hb, filtered_eq_lex _⟩
    intro hlf
    obtain ⟨bs, hbs, hmem⟩ := (lf_mem_filtered _).mp hlf
    exact hno bs hbs hmem

/-- The two connections of `twoClients` end a line each. -/
theorem singleReturns_twoClients :
    SingleReturns (streams twoClients) afterTwoClients.enqueued :=
  (singleReturns_iff twoClients afterTwoClients (by decide)).mpr (by decide)

/-- A client that sends the byte `8AH`. -/
def markedLineFeed : List Event := [.accept 5, .lookup true, .recv (.byte 0x8a), .enqueue]

/-- The state after `markedLineFeed`: a line feed is in the queue. -/
def afterMarkedLineFeed : State :=
  ⟨some 5, some 5, .serving ⟨.data, false⟩ [], [LF], .running, []⟩

/-- The byte `8AH` queues a line feed. -/
theorem not_singleReturns_8a :
    run step .init markedLineFeed = some afterMarkedLineFeed ∧
      afterMarkedLineFeed.consoleBuffer = [LF] ∧
      ¬ SingleReturns (streams markedLineFeed) afterMarkedLineFeed.enqueued := by
  refine ⟨by decide, rfl, ?_⟩
  intro h
  exact h.noLineFeed (by decide)

end Cpm22.Console
