import Mathlib.Algebra.Order.Ring.Int
import Mathlib.Data.List.Basic
import Mathlib.Logic.Relation
import Mathlib.Tactic.Common
import Mathlib.Tactic.IntervalCases

namespace StencilGraph.Micro

/-- `data` holds the valid bytes only, so `num_valid_bytes_` is its length. -/
structure FrameBuffer where
  data : List UInt8
  capacity : Nat
  readCursor : Nat

namespace FrameBuffer

def write (b : FrameBuffer) (bytes : List UInt8) : Nat × FrameBuffer :=
  let numBytesToCopy := min bytes.length (b.capacity - b.data.length)
  (numBytesToCopy, { b with data := b.data ++ bytes.take numBytesToCopy })

def read (b : FrameBuffer) (dataSizeBytes : Nat) : List UInt8 × FrameBuffer :=
  let numBytesToCopy := min dataSizeBytes (b.data.length - b.readCursor)
  ((b.data.drop b.readCursor).take numBytesToCopy,
    { b with readCursor := b.readCursor + numBytesToCopy })

def clear (b : FrameBuffer) : FrameBuffer := { b with data := [], readCursor := 0 }

end FrameBuffer

namespace MessageType

def kStartSessionInit : UInt8 := 0x00
def kStartSessionReply : UInt8 := 0x01
def kTerminateSession : UInt8 := 0x02
def kLog : UInt8 := 0x03
def kNormal : UInt8 := 0x10

end MessageType

structure SessionHeader where
  sessionId : UInt16
  messageType : UInt8
  deriving DecidableEq

/-- The packed header: three bytes, the session id with its low byte first. -/
def SessionHeader.bytes (header : SessionHeader) : List UInt8 :=
  [header.sessionId.toUInt8, (header.sessionId >>> 8).toUInt8, header.messageType]

def SessionHeader.ofBytes : List UInt8 → Option SessionHeader
  | [lo, hi, messageType] => some ⟨lo.toUInt16 ||| hi.toUInt16 <<< 8, messageType⟩
  | _ => none

structure Message where
  header : SessionHeader
  body : List UInt8
  deriving DecidableEq

def Message.bytes (m : Message) : List UInt8 := m.header.bytes ++ m.body

inductive SessionState where
  | reset
  | noSessionEstablished
  | startSessionSent
  | sessionEstablished
  deriving DecidableEq

/-- What a session does to its surroundings: it hands a message to the framer, which is taken to
succeed, or calls `message_received_func_` with the unread bytes of the buffer, if one is given. -/
inductive Output where
  | send (m : Message)
  | received (messageType : UInt8) (message : Option (List UInt8))
  deriving DecidableEq

structure Session where
  localNonce : UInt8
  sessionId : UInt16
  state : SessionState
  receiveBuffer : FrameBuffer
  hasCompleteMessage : Bool

namespace Session

def kInvalidNonce : UInt8 := 0
def kVersion : UInt8 := 0x01

def initiatorNonce (sessionId : UInt16) : UInt8 := (sessionId &&& 0xff).toUInt8

def responderNonce (sessionId : UInt16) : UInt8 := ((sessionId >>> 8) &&& 0xff).toUInt8

/-- The value `SetSessionId` stores. -/
def makeSessionId (initiatorNonce responderNonce : UInt8) : UInt16 :=
  initiatorNonce.toUInt16 ||| responderNonce.toUInt16 <<< 8

def create (receiveBuffer : FrameBuffer) : Session :=
  ⟨kInvalidNonce, 0, .reset, receiveBuffer.clear, false⟩

/-- The sum is an `int`; storing it in the nonce keeps its low byte. -/
def regenerateNonce (nonce : UInt8) : UInt8 :=
  let next := UInt8.ofNat (((nonce.toNat <<< 5) ||| (nonce.toNat >>> 5)) + 1)
  if next = kInvalidNonce then next + 1 else next

def sendInternal (s : Session) (messageType : UInt8) (body : List UInt8) : Output :=
  .send ⟨⟨if messageType = MessageType.kLog then 0 else s.sessionId, messageType⟩, body⟩

/-- `none` is the failed `CHECK_NE(state_, State::kReset)`. -/
def startSession (s : Session) : Option (Session × List Output) :=
  if s.state = .reset then none
  else
    let nonce := regenerateNonce s.localNonce
    let s := { s with localNonce := nonce, sessionId := makeSessionId nonce 0 }
    some ({ s with state := .startSessionSent },
      [s.sendInternal MessageType.kStartSessionInit [kVersion]])

def terminateSession (s : Session) : Session × List Output :=
  let s := { s with sessionId := makeSessionId 0 0, state := .noSessionEstablished }
  (s, [s.sendInternal MessageType.kTerminateSession []])

/-- `Initialize`. -/
def initializeWith (s : Session) (initialSessionNonce : UInt8) : Session × List Output :=
  terminateSession { s with localNonce := initialSessionNonce }

def clearReceiveBuffer (s : Session) : Session :=
  { s with hasCompleteMessage := false, receiveBuffer := s.receiveBuffer.clear }

def onSessionEstablishedMessage : Output := .received MessageType.kStartSessionReply none

def onSessionTerminatedMessage : Output := .received MessageType.kTerminateSession none

def sendSessionStartReply (s : Session) (header : SessionHeader) : Session × List Output :=
  let nonce := regenerateNonce s.localNonce
  let s := { s with
    localNonce := nonce, sessionId := makeSessionId (initiatorNonce header.sessionId) nonce }
  ({ s with state := .sessionEstablished },
    [s.sendInternal MessageType.kStartSessionReply [kVersion], onSessionEstablishedMessage])

/-- Reads the payload of a session start message; `none` when the version byte is missing. -/
def readVersion (s : Session) : Option UInt8 × Session :=
  let (bytes, buffer) := s.receiveBuffer.read 1
  (bytes.head?, { s with receiveBuffer := buffer })

def processStartSessionInit (s : Session) (header : SessionHeader) : Session × List Output :=
  if initiatorNonce header.sessionId = kInvalidNonce then (s, [])
  else match s.readVersion with
  | (none, s) => (s, [])
  | (some version, s) =>
    match s.state with
    | .reset | .noSessionEstablished => s.sendSessionStartReply header
    | .startSessionSent =>
      -- the lowest nonce wins, ties retry
      if initiatorNonce header.sessionId < s.localNonce then
        if version = kVersion then s.sendSessionStartReply header else (s, [])
      else if initiatorNonce header.sessionId = s.localNonce then (s.startSession).getD (s, [])
      else (s, [])
    | .sessionEstablished =>
      let (s, out) := s.sendSessionStartReply header
      (s, out ++ [onSessionEstablishedMessage])

def processStartSessionReply (s : Session) (header : SessionHeader) : Session × List Output :=
  if responderNonce header.sessionId = kInvalidNonce then (s, [])
  else match s.readVersion with
  | (none, s) => (s, [])
  | (some version, s) =>
    match s.state with
    | .reset | .noSessionEstablished => (s, [])
    | .startSessionSent =>
      if initiatorNonce header.sessionId = s.localNonce ∧ version = kVersion then
        ({ s with
            sessionId := makeSessionId s.localNonce (responderNonce header.sessionId)
            state := .sessionEstablished },
          [onSessionEstablishedMessage])
      else (s, [])
    | .sessionEstablished =>
      if initiatorNonce header.sessionId ≠ kInvalidNonce ∧
          responderNonce header.sessionId = kInvalidNonce then
        if version = kVersion then s.sendSessionStartReply header
        else ({ s with sessionId := makeSessionId s.localNonce 0, state := .reset }, [])
      else ({ s with state := .reset }, [])

/-- The callback: it reads the whole message and then calls `ClearReceiveBuffer`. -/
def receiveMessage (s : Session) (messageType : UInt8) : Session × List Output :=
  let unread := s.receiveBuffer.data.drop s.receiveBuffer.readCursor
  (s.clearReceiveBuffer, [.received messageType (some unread)])

/-- The result of `SessionReceiver::Write`. -/
inductive WriteResult where
  | written (n : Nat)
  | receiveBufferBusy
  | receiveBufferShortWrite
  deriving DecidableEq

def write (s : Session) (bytes : List UInt8) : WriteResult × Session :=
  if s.hasCompleteMessage then (.receiveBufferBusy, s)
  else
    let (bytesWritten, buffer) := s.receiveBuffer.write bytes
    let s := { s with receiveBuffer := buffer }
    if bytesWritten ≠ bytes.length then (.receiveBufferShortWrite, s)
    else (.written bytesWritten, s)

def packetDone (s : Session) (isValid : Bool) : Session × List Output :=
  if !isValid then (s, [])
  else
    let (bytes, buffer) := s.receiveBuffer.read 3
    let s := { s with receiveBuffer := buffer }
    match SessionHeader.ofBytes bytes with
    | none => (s, [])
    | some header =>
      let s := { s with hasCompleteMessage := true }
      if header.messageType = MessageType.kStartSessionInit then
        let (s, out) := s.processStartSessionInit header
        ({ s with hasCompleteMessage := false }, out)
      else if header.messageType = MessageType.kStartSessionReply then
        let (s, out) := s.processStartSessionReply header
        ({ s with hasCompleteMessage := false }, out)
      else if header.messageType = MessageType.kTerminateSession then
        let (s, out) :=
          if s.state = .sessionEstablished then
            ({ s with state := .noSessionEstablished }, [onSessionTerminatedMessage])
          else (s, [])
        ({ s with hasCompleteMessage := false }, out)
      else if header.messageType = MessageType.kLog then
        -- the session id of a log message may be zero
        if header.sessionId = 0 ∨ header.sessionId = s.sessionId then
          s.receiveMessage header.messageType
        else (s, [])
      else if s.state = .sessionEstablished ∧ header.sessionId = s.sessionId then
        s.receiveMessage header.messageType
      else (s, [])

theorem ofBytes_bytes (header : SessionHeader) :
    SessionHeader.ofBytes header.bytes = some header := by
  have hid : header.sessionId.toUInt8.toUInt16 ||| (header.sessionId >>> 8).toUInt8.toUInt16 <<< 8 =
      header.sessionId := by
    apply UInt16.toBitVec_inj.mp
    simp only [UInt16.toBitVec_or, UInt8.toBitVec_toUInt16, UInt16.toBitVec_toUInt8,
      UInt16.toBitVec_shiftLeft, UInt16.toBitVec_shiftRight]
    ext k hk
    simp
    interval_cases k <;> simp [BitVec.getLsbD_eq_getElem]
  unfold SessionHeader.bytes SessionHeader.ofBytes
  simp only [hid]

end Session

end StencilGraph.Micro
