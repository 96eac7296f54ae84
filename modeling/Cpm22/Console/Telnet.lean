import Cpm22.Lib.Transducer

set_option relaxedAutoImplicit false
set_option autoImplicit false

/-!
# The console filter

The console of the emulator is a TCP connection. `console` in `server.cpp` receives it byte by
byte, removes TELNET negotiation, turns the client's line ends into single carriage returns
and queues what is left for the CP/M console port.

The loop body is modelled as two steps that the source runs one after the other: the `switch`
over the TELNET state, which either consumes the byte (`continue`) or lets it pass (`break`),
and the translation of line ends for a byte that passed.

## Main definitions

* `Cpm22.Console.telnetSwitch`, `Cpm22.Console.lineEnd`, `Cpm22.Console.consoleByte` — the loop
  body of `console`.
* `Cpm22.Console.console` — the loop over the results of `recv`.
* `Cpm22.Console.Item`, `Cpm22.Console.encode` — a TELNET stream: data bytes with `IAC` doubled
  and complete commands between them.
* `Cpm22.Console.translate` — what the guest is meant to see of a data byte string, position by
  position.

## Main results

* `Cpm22.Console.feed_command` — a complete command leaves the filter as it was and queues
  nothing.
* `Cpm22.Console.console_transparent` — commands inserted anywhere between data bytes do not
  change what is queued.
-/

namespace Cpm22.Console

open Transducer

/-! ## The filter -/

/-- The states of the TELNET filter of `console`. -/
inductive TelnetState
  | data
  | iac
  | option
  | subnegotiation
  | subnegotiationIac
  deriving DecidableEq, Repr

/-- The local variables of `console` that survive from one byte to the next. -/
structure Filter where
  telnetState : TelnetState
  previousWasCr : Bool
  deriving DecidableEq, Repr

/-- The filter at the start of a connection. -/
def Filter.init : Filter := ⟨.data, false⟩

/-- Carriage return. -/
def CR : UInt8 := 0x0d
/-- Line feed. -/
def LF : UInt8 := 0x0a
/-- The TELNET escape byte `IAC`. -/
def IAC : UInt8 := 0xff
/-- The TELNET command `SB`, start of a subnegotiation. -/
def SB : UInt8 := 0xfa
/-- The TELNET command `SE`, end of a subnegotiation. -/
def SE : UInt8 := 0xf0

/-- **The `switch` of `console`**: the next TELNET state, and whether the byte leaves the
`switch` by `break` (it is data) or by `continue` (it is consumed). -/
def telnetSwitch (st : TelnetState) (c : UInt8) : TelnetState × Bool :=
  match st with
  | .iac =>
    if c = 0xff then (.data, true)                      -- IAC IAC is a literal 0xff
    else if 0xfb ≤ c ∧ c ≤ 0xfe then (.option, false)   -- WILL/WONT/DO/DONT
    else if c = 0xfa then (.subnegotiation, false)      -- SB
    else (.data, false)
  | .option => (.data, false)
  | .subnegotiation => (if c = 0xff then .subnegotiationIac else .subnegotiation, false)
  | .subnegotiationIac => (if c = 0xf0 then .data else .subnegotiation, false)
  | .data => if c = 0xff then (.iac, false) else (.data, true)

/-- **The translation of line ends** for a byte that passed the filter: the new CR flag and the
bytes handed to `enqueueConsoleByte`. -/
def lineEnd (previousWasCr : Bool) (c : UInt8) : Bool × List UInt8 :=
  if previousWasCr = true ∧ (c = LF ∨ c = 0) then (false, [])
  else if c = CR then (true, [CR])
  else if c = LF then (false, [CR])
  else (false, [c &&& 0x7f])

/-- The loop body of `console` for one received byte. -/
def consoleByte (f : Filter) (c : UInt8) : Filter × List UInt8 :=
  let (st, isData) := telnetSwitch f.telnetState c
  if isData then
    let (cr, out) := lineEnd f.previousWasCr c
    (⟨st, cr⟩, out)
  else (⟨st, f.previousWasCr⟩, [])

/-- The result of one `recv` call for a single byte. -/
inductive Recv
  | byte (c : UInt8)
  | closed
  | failed (errno : ℕ)
  deriving DecidableEq, Repr

/-- The `errno` value of an interrupted call. -/
def EINTR : ℕ := 4
/-- The `errno` value of a call that would block, `EWOULDBLOCK` on the same systems. -/
def EAGAIN : ℕ := 11

/-- **The loop of `console`** over the results `recv` gives it, with the contents of
`consoleBuffer`: the filter, the buffer and the returned value once the loop has ended. -/
def console (f : Filter) (buf : List UInt8) : List Recv → Filter × List UInt8 × Option ℕ
  | [] => (f, buf, none)
  | .closed :: _ => (f, buf, some 0)
  | .failed e :: rs =>
    if e = EINTR ∨ e = EAGAIN then console f buf rs else (f, buf, some e)
  | .byte c :: rs =>
    let r := consoleByte f c
    console r.1 (buf ++ r.2) rs

/-- `recv` delivers exactly the bytes `bs`, with any number of interrupted and would-block
results in between, and the connection stays open. -/
inductive Delivers : List Recv → List UInt8 → Prop
  | nil : Delivers [] []
  | byte {rs bs} (c : UInt8) : Delivers rs bs → Delivers (.byte c :: rs) (c :: bs)
  | again {rs bs} (e : ℕ) (he : e = EINTR ∨ e = EAGAIN) :
      Delivers rs bs → Delivers (.failed e :: rs) bs

/-- The loop appends to the buffer what the loop body emits for the delivered bytes.

**Proof sketch.** Induction on the delivery: a retry leaves filter and buffer alone, a byte is
one step of the transducer. -/
lemma console_of_delivers {rs : List Recv} {bs : List UInt8} (h : Delivers rs bs) (f : Filter)
    (buf : List UInt8) :
    console f buf rs = ((feed consoleByte f bs).1, buf ++ (feed consoleByte f bs).2, none) := by
  induction h generalizing f buf with
  | nil => simp [console]
  | byte c _ ih => simp [console, feed, ih, List.append_assoc]
  | again e he _ ih => simp [console, he, ih]

/-! ## TELNET streams -/

/-- A complete TELNET command. `plain` is `IAC` followed by a command byte that is neither
`IAC` itself, nor one of the four option verbs, nor `SB`. -/
inductive Command
  | negotiate (verb : UInt8) (hverb : 0xfb ≤ verb ∧ verb ≤ 0xfe) (opt : UInt8)
  | subnegotiate (payload : List UInt8)
  | plain (c : UInt8) (hc : c < 0xfa)

/-- A data byte on the wire: `IAC` is doubled. -/
def encodeByte (c : UInt8) : List UInt8 := if c = IAC then [IAC, IAC] else [c]

/-- A command on the wire. -/
def Command.encode : Command → List UInt8
  | .negotiate verb _ opt => [IAC, verb, opt]
  | .subnegotiate payload => IAC :: SB :: (payload.flatMap encodeByte ++ [IAC, SE])
  | .plain c _ => [IAC, c]

/-- One element of a TELNET stream. -/
inductive Item
  | data (c : UInt8)
  | command (cmd : Command)

/-- An element on the wire. -/
def Item.encode : Item → List UInt8
  | .data c => encodeByte c
  | .command cmd => cmd.encode

/-- A stream on the wire. -/
def encode (items : List Item) : List UInt8 := items.flatMap Item.encode

/-- The data bytes of a stream. -/
def dataOf (items : List Item) : List UInt8 :=
  items.filterMap fun
    | .data c => some c
    | .command _ => none

/-- What becomes of the data byte `c` when `prev` is the data byte before it, if any. -/
def translateByte (prev : Option UInt8) (c : UInt8) : List UInt8 :=
  if (c = LF ∨ c = 0) ∧ prev = some CR then []
  else if c = LF then [CR]
  else [c &&& 0x7f]

/-- **The intended translation** of a data byte string: each byte on its own, looking only at
the byte directly before it. -/
def translate (x : List UInt8) : List UInt8 :=
  (List.zipWith translateByte (none :: x.map some) x).flatten

/-! ## Transparency -/

/-- The effect of one stream element on a filter that is between elements. -/
def itemStep (f : Filter) : Item → Filter × List UInt8
  | .data c => (⟨.data, (lineEnd f.previousWasCr c).1⟩, (lineEnd f.previousWasCr c).2)
  | .command _ => (f, [])

/-- An encoded data byte passes the filter and is translated. -/
lemma feed_encodeByte (f : Filter) (hf : f.telnetState = .data) (c : UInt8) :
    feed consoleByte f (encodeByte c) =
      (⟨.data, (lineEnd f.previousWasCr c).1⟩, (lineEnd f.previousWasCr c).2) := by
  by_cases hc : c = IAC
  · subst hc
    simp [encodeByte, feed, consoleByte, telnetSwitch, hf, IAC]
  · have hc' : c ≠ 0xff := hc
    simp [encodeByte, hc, consoleByte, telnetSwitch, hf, hc']

/-- Inside a subnegotiation an encoded payload is consumed and leaves the filter there. -/
lemma feed_payload (cr : Bool) (payload : List UInt8) :
    feed consoleByte ⟨.subnegotiation, cr⟩ (payload.flatMap encodeByte) =
      (⟨.subnegotiation, cr⟩, []) := by
  induction payload with
  | nil => rfl
  | cons c payload ih =>
    have hc : feed consoleByte ⟨.subnegotiation, cr⟩ (encodeByte c) =
        (⟨.subnegotiation, cr⟩, []) := by
      by_cases h : c = IAC
      · subst h
        simp [encodeByte, feed, consoleByte, telnetSwitch, IAC]
      · have h' : c ≠ 0xff := h
        simp [encodeByte, h, consoleByte, telnetSwitch, h']
    rw [List.flatMap_cons, feed_append, hc, ih]
    rfl

/-- **A complete command is invisible**: it returns the filter to the state it was in,
the CR flag included, and emits nothing.

**Proof sketch.** By the kind of command. An option verb leads through `option`, any other
command byte back at once; a subnegotiation consumes its payload by `feed_payload` and is left
by `IAC SE`. -/
lemma feed_command (f : Filter) (hf : f.telnetState = .data) (cmd : Command) :
    feed consoleByte f cmd.encode = (f, []) := by
  obtain ⟨st, cr⟩ := f
  simp only at hf
  subst hf
  cases cmd with
  | negotiate verb hverb opt =>
    have h1 : verb ≠ 0xff := by
      rintro rfl
      exact absurd hverb.2 (by decide)
    simp [Command.encode, feed, consoleByte, telnetSwitch, IAC, h1, hverb]
  | subnegotiate payload =>
    have h0 : feed consoleByte ⟨.data, cr⟩ [IAC, SB] = (⟨.subnegotiation, cr⟩, []) := by
      simp [feed, consoleByte, telnetSwitch, IAC, SB]
    have h1 : feed consoleByte ⟨.subnegotiation, cr⟩ [IAC, SE] = (⟨.data, cr⟩, []) := by
      simp [feed, consoleByte, telnetSwitch, IAC, SE]
    have hsplit : (Command.subnegotiate payload).encode =
        [IAC, SB] ++ (payload.flatMap encodeByte ++ [IAC, SE]) := rfl
    rw [hsplit, feed_append, h0]
    simp only [feed_append, feed_payload, h1, List.append_nil]
  | plain c hc =>
    have h1 : c ≠ 0xff := by
      rintro rfl
      exact absurd hc (by decide)
    have h2 : ¬ (0xfb ≤ c ∧ c ≤ 0xfe) := by
      rintro ⟨h, -⟩
      exact absurd (UInt8.lt_of_le_of_lt h hc) (by decide)
    have h3 : c ≠ 0xfa := UInt8.ne_of_lt hc
    simp [Command.encode, feed, consoleByte, telnetSwitch, IAC, h1, h2, h3]

/-- The filter on a stream is the element-wise step on its items. -/
lemma feed_encode (f : Filter) (hf : f.telnetState = .data) (items : List Item) :
    feed consoleByte f (encode items) = feed itemStep f items := by
  refine feed_flatMap consoleByte itemStep Item.encode (fun f => f.telnetState = .data) ?_ f hf
    items
  intro s k hs
  cases k with
  | data c => exact ⟨feed_encodeByte s hs c, rfl⟩
  | command cmd => exact ⟨feed_command s hs cmd, hs⟩

/-- With the CR flag telling whether the previous data byte was a carriage return, the
translation of line ends emits what `translateByte` says and keeps the flag in step. -/
lemma lineEnd_eq (prev : Option UInt8) (c : UInt8) :
    lineEnd (decide (prev = some CR)) c = (decide (some c = some CR), translateByte prev c) := by
  have hmask : CR &&& 0x7f = CR := by decide
  by_cases h3 : c = CR
  · subst h3
    simp [lineEnd, translateByte, hmask, show CR ≠ LF by decide, show CR ≠ 0 by decide]
  · by_cases hp : prev = some CR
    · by_cases h1 : c = LF ∨ c = 0
      · simp [lineEnd, translateByte, hp, h1, h3]
      · obtain ⟨h1, h2⟩ := not_or.mp h1
        simp [lineEnd, translateByte, hp, h1, h2, h3]
    · by_cases h1 : c = LF
      · simp [lineEnd, translateByte, hp, h1, show LF ≠ CR by decide]
      · simp [lineEnd, translateByte, hp, h1, h3]

/-- The element-wise step emits the translation of the data bytes.

**Proof sketch.** Induction on the stream, with the data byte before it generalised: the CR
flag is set exactly when that byte is a carriage return. A command changes neither. -/
lemma feed_itemStep (items : List Item) (prev : Option UInt8) (f : Filter)
    (hcr : f.previousWasCr = decide (prev = some CR)) :
    (feed itemStep f items).2 =
      (List.zipWith translateByte (prev :: (dataOf items).map some) (dataOf items)).flatten := by
  induction items generalizing prev f with
  | nil => rfl
  | cons i items ih =>
    cases i with
    | command cmd =>
      simpa [feed, itemStep, dataOf] using ih prev f hcr
    | data c =>
      have hdata : dataOf (.data c :: items) = c :: dataOf items := rfl
      rw [hdata]
      simp only [feed, itemStep, List.map_cons, List.zipWith_cons_cons, List.flatten_cons, hcr,
        lineEnd_eq]
      rw [ih (some c) _ rfl]

/-- The stream that carries the data bytes `x` and nothing else. -/
def plainStream (x : List UInt8) : List Item := x.map .data

/-- The plain stream carries exactly its data bytes. -/
lemma dataOf_plainStream (x : List UInt8) : dataOf (plainStream x) = x := by
  simp [dataOf, plainStream, List.filterMap_map]

/-- On a fresh connection the filter queues the translation of the data bytes of a stream. -/
lemma console_buffer (items : List Item) {rs : List Recv} (hrs : Delivers rs (encode items))
    (buf : List UInt8) :
    (console .init buf rs).2.1 = buf ++ translate (dataOf items) := by
  rw [console_of_delivers hrs, feed_encode _ rfl]
  simp only [translate, feed_itemStep items none Filter.init rfl]

/-- **TELNET transparency of the console filter.** For every data byte string `x` and every
stream that carries it with complete commands inserted anywhere between the encoded data bytes,
a fresh `console` appends to the queue exactly the translation of `x`, which is what it appends
for the encoding of `x` without any command.

**Proof sketch.** By `feed_encode` the filter sees a stream element by element and commands are
no-ops, so only the data bytes matter; `feed_itemStep` evaluates what they emit. -/
theorem console_transparent (x : List UInt8) (items : List Item) (hx : dataOf items = x)
    (rs rs₀ : List Recv) (hrs : Delivers rs (encode items))
    (hrs₀ : Delivers rs₀ (encode (plainStream x))) (buf : List UInt8) :
    (console .init buf rs).2.1 = (console .init buf rs₀).2.1 ∧
      (console .init buf rs).2.1 = buf ++ translate x := by
  rw [console_buffer items hrs, console_buffer _ hrs₀, dataOf_plainStream, hx]
  exact ⟨rfl, rfl⟩

/-- A stream with a command between CR and LF, received with an interrupted call in between. -/
theorem console_transparent_cr_lf :
    (console .init [] [.byte CR, .byte IAC, .byte 0xfd, .failed EINTR, .byte 1, .byte LF,
      .byte 0x41]).2.1 = [CR, 0x41] := by
  have h := console_transparent [CR, LF, 0x41]
    [.data CR, .command (.negotiate 0xfd (by decide) 1), .data LF, .data 0x41] rfl
    [.byte CR, .byte IAC, .byte 0xfd, .failed EINTR, .byte 1, .byte LF, .byte 0x41]
    [.byte CR, .byte LF, .byte 0x41]
    (.byte _ (.byte _ (.byte _ (.again _ (.inl rfl) (.byte _ (.byte _ (.byte _ .nil)))))))
    (.byte _ (.byte _ (.byte _ .nil))) []
  exact h.2.trans (by decide)

end Cpm22.Console
