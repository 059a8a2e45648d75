import StencilGraph.Micro.Session

namespace StencilGraph.Micro

/-- The channel as `Recv` sees it: the message not read to its end, and the messages of an established
session that are still to arrive. -/
structure MicroTransportChannel where
  messageBuffer : Option FrameBuffer
  arriving : List Message
  capacity : Nat

def FrameBuffer.readAvailable (b : FrameBuffer) : Nat := b.data.length - b.readCursor

/-- The memory behind `data`; a byte is `none` until it is written. -/
abbrev Memory := List (Option UInt8)

/-- `memcpy` to the start of the memory. -/
def Memory.copy (data : Memory) (bytes : List UInt8) : Memory :=
  bytes.map some ++ data.drop bytes.length

namespace MicroTransportChannel

def kHeaderBytes : Nat := 3

/-- `HandleMessageReceived` with a normal message: the session has read the header. -/
def handleMessageReceived (s : MicroTransportChannel) (m : Message) : MicroTransportChannel :=
  { s with messageBuffer := some ⟨m.bytes, s.capacity, kHeaderBytes⟩ }

/-- `ReceiveUntil` a message is there. While the receive buffer holds a message the session takes no
other one, so nothing is received then; nothing is received either when no message arrives. -/
def receiveUntil (s : MicroTransportChannel) : Option MicroTransportChannel :=
  match s.messageBuffer, s.arriving with
  | none, m :: arriving => some ({ s with arriving := arriving }.handleMessageReceived m)
  | _, _ => none

/-- Reading from the message at hand; a message read to its end is cleared. -/
def readMessage (s : MicroTransportChannel) (buf : FrameBuffer) (size : Nat) :
    List UInt8 × MicroTransportChannel :=
  let (bytes, buf) := buf.read size
  (bytes, { s with messageBuffer := if buf.readAvailable = 0 then none else some buf })

/-- The loop of `Recv`; every round that goes on takes an arriving message. -/
def recvLoop (size : Nat) : Nat → Nat → Memory → MicroTransportChannel →
    Option (Nat × Memory × MicroTransportChannel)
  | 0, _, _, _ => none
  | fuel + 1, numBytesRecv, data, s =>
    if numBytesRecv < size then
      match s.messageBuffer with
      | some buf =>
        let (bytes, s) := s.readMessage buf size
        let numBytesRecv := numBytesRecv + bytes.length
        let data := data.copy bytes
        if numBytesRecv = size then some (numBytesRecv, data, s)
        else
          match s.receiveUntil with
          | none => none
          | some s => recvLoop size fuel numBytesRecv data s
      | none =>
        match s.receiveUntil with
        | none => none
        | some s => recvLoop size fuel numBytesRecv data s
    else some (numBytesRecv, data, s)

/-- `Recv`: the result, the memory and the channel afterwards; `none` when it waits for a message that
does not come. -/
def recv (s : MicroTransportChannel) (size : Nat) : Option (Nat × Memory × MicroTransportChannel) :=
  recvLoop size (s.arriving.length + 1) 0 (List.replicate size none) s

/-- The payload bytes left, message by message. -/
def chunks (s : MicroTransportChannel) : List (List UInt8) :=
  (s.messageBuffer.map fun buf => buf.data.drop buf.readCursor).toList ++ s.arriving.map Message.body

/-- The payload bytes left. -/
def unread (s : MicroTransportChannel) : List UInt8 := s.chunks.flatten

/-- Call after call, a read of `n` bytes fills exactly its memory with the next `n` bytes and returns
`n`; a read of more bytes than there are left may wait. -/
def Streams : MicroTransportChannel → List Nat → Prop
  | _, [] => True
  | s, n :: sizes => n ≤ s.unread.length →
    ∃ s', s.recv n = some (n, (s.unread.take n).map some, s') ∧ s'.unread = s.unread.drop n ∧
      Streams s' sizes

/-- A fresh channel with the messages to come. -/
def create (capacity : Nat) (messages : List Message) : MicroTransportChannel :=
  ⟨none, messages, capacity⟩

end MicroTransportChannel

end StencilGraph.Micro
