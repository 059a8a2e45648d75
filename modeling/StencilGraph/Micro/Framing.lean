import Mathlib.Data.List.Basic
import Mathlib.Tactic.Common
import StencilGraph.Framework.LittleEndian

namespace StencilGraph.Micro

open Framework

/-- The values of `tvm_crt_error_t` that framing returns; `system` is a negative result of a
stream's `Write`. -/
inductive TvmCrtError where
  | noError
  | framingInvalidState
  | framingShortPacket
  | framingInvalidEscape
  | framingPayloadOverflow
  | framingPayloadIncomplete
  | writeStreamShortWrite
  | writeStreamLongWrite
  | system (code : Int)
  deriving DecidableEq

inductive StreamCall where
  | write (data : List UInt8)
  | packetDone (isValid : Bool)
  deriving DecidableEq

/-- What `Write` answers to the bytes offered, after the calls the stream has had so far. -/
structure WriteStream where
  write : List StreamCall → List UInt8 → Int

namespace WriteStream

def AcceptsEverything (stream : WriteStream) : Prop :=
  ∀ calls data, stream.write calls data = data.length

/-- The loop of `WriteAll`; every round that goes on consumes a byte, so the length of the data is
fuel enough. The calls made are returned as well. -/
def writeAllLoop (stream : WriteStream) :
    Nat → List StreamCall → List UInt8 → Nat → TvmCrtError × Nat × List StreamCall
  | 0, _, _, bytesConsumed => (.noError, bytesConsumed, [])
  | fuel + 1, calls, data, bytesConsumed =>
    if data = [] then (.noError, bytesConsumed, [])
    else
      let toReturn := stream.write calls data
      if toReturn = 0 then (.writeStreamShortWrite, bytesConsumed, [.write data])
      else if toReturn < 0 then (.system toReturn, bytesConsumed, [.write data])
      else if data.length < toReturn then (.writeStreamLongWrite, bytesConsumed, [.write data])
      else
        let (error, bytesConsumed, made) := writeAllLoop stream fuel (calls ++ [.write data])
          (data.drop toReturn.toNat) (bytesConsumed + toReturn.toNat)
        (error, bytesConsumed, .write data :: made)

def writeAll (stream : WriteStream) (calls : List StreamCall) (data : List UInt8) :
    TvmCrtError × Nat × List StreamCall :=
  stream.writeAllLoop data.length calls data 0

end WriteStream

namespace Escape

def kEscapeStart : UInt8 := 0xff
def kEscapeNop : UInt8 := 0xfe
def kPacketStart : UInt8 := 0xfd

end Escape

open Escape

namespace PacketFieldSizeBytes

def kPayloadLength : Nat := 4
def kCrc : Nat := 2

end PacketFieldSizeBytes

/-- `previousCrc` is `none` for a null pointer. -/
def crc16Compute (updateCrcCcitt : UInt16 → UInt8 → UInt16) (data : List UInt8)
    (previousCrc : Option UInt16) : UInt16 :=
  data.foldl updateCrcCcitt (previousCrc.getD 0xffff)

/-- What a framer or an unframer is built over: the external crc step and its stream. -/
structure Transport where
  updateCrcCcitt : UInt16 → UInt8 → UInt16
  stream : WriteStream

inductive UnframerState where
  | findPacketStart
  | findPacketLength
  | findPacketCrc
  | findCrcEnd
  deriving DecidableEq

/-- `buffer` holds the valid bytes of `buffer_` only. -/
structure Unframer where
  state : UnframerState
  sawEscapeStart : Bool
  buffer : List UInt8
  numPayloadBytesRemaining : Nat
  crc : UInt16
  deriving DecidableEq

namespace Unframer

/-- `sizeof(buffer_)` -/
def bufferSizeBytes : Nat := 128

/-- The constructor sets neither the remaining length nor the crc. -/
def create (numPayloadBytesRemaining : Nat) (crc : UInt16) : Unframer :=
  ⟨.findPacketStart, false, [], numPayloadBytesRemaining, crc⟩

def clearBuffer (u : Unframer) : Unframer := { u with buffer := [] }

def isBufferFull (u : Unframer) (bufferFullBytes : Nat) : Bool :=
  decide (bufferFullBytes ≤ u.buffer.length)

/-- The loop of `FindPacketStart`: the escape flag, whether the start was found and the input
left. -/
def findPacketStartLoop : Bool → List UInt8 → Bool × Bool × List UInt8
  | sawEscapeStart, [] => (sawEscapeStart, false, [])
  | sawEscapeStart, c :: input =>
    if c = kEscapeStart then findPacketStartLoop true input
    else if c = kPacketStart ∧ sawEscapeStart = true then (false, true, input)
    else findPacketStartLoop false input

/-- What `ConsumeInput` does with one byte. -/
inductive ByteAction where
  | shortPacket
  | invalidEscape
  | skip (sawEscapeStart : Bool)
  | store

def byteAction (sawEscapeStart : Bool) (c : UInt8) : ByteAction :=
  if sawEscapeStart then
    if c = kPacketStart then .shortPacket
    else if c = kEscapeNop then .skip false
    else if c = kEscapeStart then .store
    else .invalidEscape
  else if c = kEscapeStart then .skip true
  else .store

/-- Where the loop of `ConsumeInput` stops. -/
structure Stop where
  toReturn : TvmCrtError
  sawEscapeStart : Bool
  buffer : List UInt8
  input : List UInt8

def consumeInputLoop (bufferSizeBytes : Nat) : Bool → List UInt8 → List UInt8 → Stop
  | sawEscapeStart, buffer, [] => ⟨.noError, sawEscapeStart, buffer, []⟩
  | sawEscapeStart, buffer, c :: input =>
    match byteAction sawEscapeStart c with
    -- the start byte stays in the input, and the flag says that its escape byte was read
    | .shortPacket => ⟨.framingShortPacket, true, buffer, c :: input⟩
    | .invalidEscape => ⟨.framingInvalidEscape, false, buffer, input⟩
    | .skip flag => consumeInputLoop bufferSizeBytes flag buffer input
    | .store =>
      if (buffer ++ [c]).length = bufferSizeBytes then ⟨.noError, false, buffer ++ [c], input⟩
      else consumeInputLoop bufferSizeBytes false (buffer ++ [c]) input

end Unframer

/-- What a call of `Unframer::Write` works on. `input` are the bytes from `input_` on; `rewound`
counts the bytes by which a failed write moved `input_` back. The stream had the calls `history`
before; each call made now is kept with the number of input bytes left at that time. -/
structure Unframing where
  unframer : Unframer
  input : List UInt8
  rewound : Nat
  history : List StreamCall
  calls : List (Nat × StreamCall)
  deriving DecidableEq

namespace Unframing

def inputSizeBytes (s : Unframing) : Nat := s.input.length + s.rewound

def findPacketStart (transport : Transport) (s : Unframing) : Option (TvmCrtError × Unframing) :=
  let (sawEscapeStart, found, input) :=
    Unframer.findPacketStartLoop s.unframer.sawEscapeStart s.input
  let u := { s.unframer with sawEscapeStart := sawEscapeStart }
  let u := if found then
      { u with
        crc := crc16Compute transport.updateCrcCcitt [kEscapeStart, kPacketStart] none
        state := .findPacketLength }
    else u
  some (.noError, { s with unframer := u, input := input })

/-- `none` when the check on the fill fails. -/
def consumeInput (transport : Transport) (s : Unframing) (bufferSizeBytes : Nat) (updateCrc : Bool) :
    Option (TvmCrtError × Unframing) :=
  if s.unframer.buffer.length < bufferSizeBytes then
    let stop := Unframer.consumeInputLoop bufferSizeBytes s.unframer.sawEscapeStart
      s.unframer.buffer s.input
    let crc := if stop.toReturn = .framingShortPacket then
        crc16Compute transport.updateCrcCcitt [kEscapeStart] none
      else s.unframer.crc
    let crc := if updateCrc then
        crc16Compute transport.updateCrcCcitt (s.input.take (s.input.length - stop.input.length))
          (some crc)
      else crc
    some (stop.toReturn, { s with
      unframer := { s.unframer with
        sawEscapeStart := stop.sawEscapeStart
        buffer := stop.buffer
        crc := crc }
      input := stop.input })
  else none

def addToBuffer (transport : Transport) (s : Unframing) (bufferFullBytes : Nat) (updateCrc : Bool) :
    Option (TvmCrtError × Unframing) :=
  if s.unframer.isBufferFull bufferFullBytes then none
  else s.consumeInput transport bufferFullBytes updateCrc

def findPacketLength (transport : Transport) (s : Unframing) : Option (TvmCrtError × Unframing) :=
  match s.addToBuffer transport PacketFieldSizeBytes.kPayloadLength true with
  | none => none
  | some (toReturn, s) =>
    if toReturn ≠ .noError then some (toReturn, s)
    else if ¬ s.unframer.isBufferFull PacketFieldSizeBytes.kPayloadLength then some (toReturn, s)
    else some (toReturn, { s with unframer := { s.unframer with
      numPayloadBytesRemaining :=
        ofLittleEndian (s.unframer.buffer.take PacketFieldSizeBytes.kPayloadLength)
      buffer := []
      state := .findPacketCrc } })

/-- Counts the input bytes up to the last one accepted downstream; `none` when the count reads
past the input. -/
def rewindLoop : List UInt8 → Nat → Option Nat
  | _, 0 => some 0
  | [], _ + 1 => none
  | c :: input, bytesConsumed + 1 =>
    (rewindLoop input (if c ≠ kEscapeStart then bytesConsumed else bytesConsumed + 1)).map (· + 1)

/-- The loop of `FindPacketCrc`. A round that goes on consumes input. -/
def findPacketCrcLoop (transport : Transport) : Nat → Unframing → Option (TvmCrtError × Unframing)
  | 0, _ => none
  | fuel + 1, s =>
    if s.unframer.numPayloadBytesRemaining = 0 then
      some (.noError, { s with unframer := { s.unframer with state := .findCrcEnd } })
    else
      let numBytesToBuffer := min s.unframer.numPayloadBytesRemaining Unframer.bufferSizeBytes
      match s.addToBuffer transport numBytesToBuffer true with
      | none => none
      | some (toReturn, t) =>
        if toReturn ≠ .noError then some (toReturn, t)
        else if s.unframer.buffer.length = t.unframer.buffer.length then some (.noError, t)
        else
          let (toReturn, bytesConsumed, made) := transport.stream.writeAll
            (t.history ++ t.calls.map Prod.snd) t.unframer.buffer
          let t := { t with
            unframer := { t.unframer with
              numPayloadBytesRemaining := t.unframer.numPayloadBytesRemaining - bytesConsumed }
            calls := t.calls ++ made.map (Prod.mk t.input.length) }
          if toReturn ≠ .noError then
            match rewindLoop s.input bytesConsumed with
            | none => none
            | some bufferBytesConsumed =>
              some (toReturn, { t with
                unframer := { t.unframer with sawEscapeStart := false }
                rewound := s.input.length - bufferBytesConsumed })
          else findPacketCrcLoop transport fuel { t with unframer := t.unframer.clearBuffer }

def findPacketCrc (transport : Transport) (s : Unframing) : Option (TvmCrtError × Unframing) :=
  findPacketCrcLoop transport (s.input.length + 1) s

def findCrcEnd (transport : Transport) (s : Unframing) : Option (TvmCrtError × Unframing) :=
  match s.addToBuffer transport PacketFieldSizeBytes.kCrc false with
  | none => none
  | some (toReturn, s) =>
    if toReturn ≠ .noError then some (toReturn, s)
    else if ¬ s.unframer.isBufferFull PacketFieldSizeBytes.kCrc then some (.noError, s)
    else
      let isValid := s.unframer.crc.toNat ==
        ofLittleEndian (s.unframer.buffer.take PacketFieldSizeBytes.kCrc)
      some (.noError, { s with
        unframer := { s.unframer with buffer := [], state := .findPacketStart }
        calls := s.calls ++ [(s.input.length, .packetDone isValid)] })

def dispatch (transport : Transport) (s : Unframing) : Option (TvmCrtError × Unframing) :=
  match s.unframer.state with
  | .findPacketStart => s.findPacketStart transport
  | .findPacketLength => s.findPacketLength transport
  | .findPacketCrc => s.findPacketCrc transport
  | .findCrcEnd => s.findCrcEnd transport

/-- The loop of `Unframer::Write`. A round consumes input or leaves `findPacketCrc` for
`findCrcEnd`. -/
def writeLoop (transport : Transport) : Nat → Unframing → Option (TvmCrtError × Unframing)
  | 0, _ => none
  | fuel + 1, s =>
    if s.inputSizeBytes = 0 then some (.noError, s)
    else
      match s.dispatch transport with
      | none => none
      | some (returnCode, s) =>
        if returnCode ≠ .noError then some (returnCode, s) else writeLoop transport fuel s

end Unframing

namespace Unframer

/-- What `Unframer::Write` leaves. `bytesConsumed` is the difference of two sizes before it is
taken modulo the word size. -/
structure Written where
  returnCode : TvmCrtError
  bytesConsumed : Int
  unframer : Unframer
  calls : List (Nat × StreamCall)
  deriving DecidableEq

/-- `Unframer::Write`; `none` when a check fails or memory outside the data is read. -/
def write (transport : Transport) (u : Unframer) (history : List StreamCall) (data : List UInt8) :
    Option Written :=
  match Unframing.writeLoop transport (2 * data.length + 2) ⟨u, data, 0, history, []⟩ with
  | none => none
  | some (returnCode, s) =>
    let u := if returnCode ≠ .noError then
        { s.unframer with state := .findPacketStart, buffer := [] }
      else s.unframer
    some ⟨returnCode, (data.length : Int) - s.inputSizeBytes, u, s.calls⟩

end Unframer

inductive FramerState where
  | reset
  | idle
  | transmitPacketPayload
  deriving DecidableEq

structure Framer where
  state : FramerState
  numPayloadBytesRemaining : Nat
  crc : UInt16
  deriving DecidableEq

namespace Framer

def kMaxStackBufferSizeBytes : Nat := 128

def create (crc : UInt16) : Framer := ⟨.reset, 0, crc⟩

/-- Fills the stack buffer; an escape pair is never split. -/
def fillBuffer (escape : Bool) : List UInt8 → List UInt8 → List UInt8 × List UInt8
  | buffer, [] => (buffer, [])
  | buffer, c :: data =>
    if buffer.length = kMaxStackBufferSizeBytes then (buffer, c :: data)
    else if escape = false ∨ c ≠ kEscapeStart then fillBuffer escape (buffer ++ [c]) data
    else if buffer.length = kMaxStackBufferSizeBytes - 1 then (buffer, c :: data)
    else fillBuffer escape (buffer ++ [kEscapeStart, kEscapeStart]) data

/-- The loop of `WriteAndCrc`; every round that goes on takes a byte of the data. -/
def writeAndCrcLoop (transport : Transport) (escape updateCrc : Bool) :
    Nat → Framer → List StreamCall → List UInt8 → TvmCrtError × Framer × List StreamCall
  | 0, f, calls, _ => (.noError, f, calls)
  | fuel + 1, f, calls, data =>
    if data = [] then (.noError, f, calls)
    else
      let (buffer, rest) := fillBuffer escape [] data
      let (toReturn, _, made) := transport.stream.writeAll calls buffer
      if toReturn ≠ .noError then (toReturn, f, calls ++ made)
      else
        let f := if updateCrc then
            { f with crc := crc16Compute transport.updateCrcCcitt buffer (some f.crc) }
          else f
        writeAndCrcLoop transport escape updateCrc fuel f (calls ++ made) rest

/-- `calls` are the calls the stream had before; those made now are added to them. -/
def writeAndCrc (transport : Transport) (f : Framer) (calls : List StreamCall) (data : List UInt8)
    (escape updateCrc : Bool) : TvmCrtError × Framer × List StreamCall :=
  writeAndCrcLoop transport escape updateCrc data.length f calls data

def startPacket (transport : Transport) (f : Framer) (calls : List StreamCall)
    (payloadSizeBytes : Nat) : TvmCrtError × Framer × List StreamCall :=
  let (toReturn, f, calls) := if f.state = .reset then
      f.writeAndCrc transport calls [kEscapeNop] false false
    else (.noError, f, calls)
  if toReturn ≠ .noError then (toReturn, f, calls)
  else
    let (toReturn, f, calls) := { f with crc := 0xffff }.writeAndCrc transport calls
      [kEscapeStart, kPacketStart] false true
    if toReturn ≠ .noError then (toReturn, f, calls)
    else
      let (toReturn, f, calls) := f.writeAndCrc transport calls
        (littleEndian 4 payloadSizeBytes) true true
      if toReturn = .noError then
        (toReturn, { f with
          state := .transmitPacketPayload
          numPayloadBytesRemaining := payloadSizeBytes }, calls)
      else (toReturn, f, calls)

def writePayloadChunk (transport : Transport) (f : Framer) (calls : List StreamCall)
    (payloadChunk : List UInt8) : TvmCrtError × Framer × List StreamCall :=
  if f.state ≠ .transmitPacketPayload then (.framingInvalidState, f, calls)
  else if f.numPayloadBytesRemaining < payloadChunk.length then
    (.framingPayloadOverflow, f, calls)
  else
    let (toReturn, f, calls) := f.writeAndCrc transport calls payloadChunk true true
    if toReturn ≠ .noError then (toReturn, { f with state := .reset }, calls)
    else
      (.noError, { f with
        numPayloadBytesRemaining := f.numPayloadBytesRemaining - payloadChunk.length }, calls)

def finishPacket (transport : Transport) (f : Framer) (calls : List StreamCall) :
    TvmCrtError × Framer × List StreamCall :=
  if f.state ≠ .transmitPacketPayload then (.framingInvalidState, f, calls)
  else if f.numPayloadBytesRemaining ≠ 0 then (.framingPayloadIncomplete, f, calls)
  else
    let (toReturn, f, calls) := f.writeAndCrc transport calls (littleEndian 2 f.crc.toNat) true false
    if toReturn ≠ .noError then (toReturn, { f with state := .reset }, calls)
    else (toReturn, { f with state := .idle }, calls)

def write (transport : Transport) (f : Framer) (calls : List StreamCall) (payload : List UInt8) :
    TvmCrtError × Framer × List StreamCall :=
  let (toReturn, f, calls) := f.startPacket transport calls payload.length
  if toReturn ≠ .noError then (toReturn, f, calls)
  else
    let (toReturn, f, calls) := f.writePayloadChunk transport calls payload
    if toReturn ≠ .noError then (toReturn, f, calls) else f.finishPacket transport calls

end Framer

end StencilGraph.Micro
