import StencilGraph.Support.RingBuffer

namespace StencilGraph.Support
open Framework

namespace RingBuffer

/-- `fsend k part` is how many bytes the callback takes in its `k`-th call. The bytes it takes are
returned with the buffer. -/
def readWithCallback (b : RingBuffer) (fsend : Nat → List UInt8 → Nat) (maxNbytes : Nat) :
    Option (List UInt8 × RingBuffer) :=
  let size := min maxNbytes b.bytesAvailable
  if size = 0 then none
  else do
    let ncopy := min size (b.ring.length - b.headPtr)
    let part ← load b.ring b.headPtr ncopy
    let nsend := fsend 0 part
    let b := { b with bytesAvailable := b.bytesAvailable - nsend }
    if ncopy = nsend ∧ ncopy < size then do
      let part2 ← load b.ring 0 (size - ncopy)
      let nsend2 := fsend 1 part2
      some (part.take nsend ++ part2.take nsend2,
        { b with bytesAvailable := b.bytesAvailable - nsend2 })
    else some (part.take nsend, b)

/-- `frecv k size` is what the callback delivers in its `k`-th call. The bytes are returned with the
buffer. -/
def writeWithCallback (b : RingBuffer) (frecv : Nat → Nat → List UInt8) (maxNbytes : Nat) :
    Option (List UInt8 × RingBuffer) := do
  let b ← b.reserve (b.bytesAvailable + maxNbytes)
  let nbytes := maxNbytes
  let tail := b.headPtr + b.bytesAvailable
  if tail ≥ b.ring.length then do
    let data := frecv 0 nbytes
    let ring ← store b.ring (tail - b.ring.length) data
    some (data, { b with ring := ring, bytesAvailable := b.bytesAvailable + data.length })
  else do
    let ncopy := min (b.ring.length - tail) nbytes
    let data := frecv 0 ncopy
    let ring ← store b.ring tail data
    let b := { b with ring := ring, bytesAvailable := b.bytesAvailable + data.length }
    if data.length = ncopy ∧ ncopy < nbytes then do
      let data2 := frecv 1 (nbytes - ncopy)
      let ring ← store b.ring 0 data2
      some (data ++ data2, { b with ring := ring, bytesAvailable := b.bytesAvailable + data2.length })
    else some (data, b)

/-- `Reserve` neither grows nor shrinks the ring. -/
def Steady (b : RingBuffer) (n : Nat) : Prop :=
  ¬ b.ring.length < n ∧ ¬ (b.ring.length > n * 8 % 2 ^ 64 ∧ b.ring.length > kInitCapacity)

/-- The bytes in the ring, the oldest first. -/
def contents (b : RingBuffer) : List UInt8 :=
  (List.range b.bytesAvailable).map fun i => (b.ring[slot b.headPtr b.ring.length i]?).getD 0

end RingBuffer

/-- A ring buffer with the bytes taken from it and the bytes given to it so far. -/
structure Traffic where
  buffer : RingBuffer
  taken : List UInt8
  given : List UInt8

namespace Traffic

inductive Op where
  | write (data : List UInt8)
  | read (size : Nat)
  | writeWithCallback (frecv : Nat → Nat → List UInt8) (maxNbytes : Nat)
  | readWithCallback (fsend : Nat → List UInt8 → Nat) (maxNbytes : Nat)

def step (t : Traffic) : Op → Option Traffic
  | .write data => do
    let buffer ← t.buffer.write data
    some ⟨buffer, t.taken, t.given ++ data⟩
  | .read size => do
    let (data, buffer) ← t.buffer.read (List.replicate size 0) size
    some ⟨buffer, t.taken ++ data, t.given⟩
  | .writeWithCallback frecv maxNbytes => do
    let (data, buffer) ← t.buffer.writeWithCallback frecv maxNbytes
    some ⟨buffer, t.taken, t.given ++ data⟩
  | .readWithCallback fsend maxNbytes => do
    let (data, buffer) ← t.buffer.readWithCallback fsend maxNbytes
    some ⟨buffer, t.taken ++ data, t.given⟩

/-- The checks of the calls, callbacks that stay within what they are offered, and a ring that
neither grows nor shrinks. -/
def Called (t : Traffic) : Op → Prop
  | .write data => t.buffer.Steady (t.buffer.bytesAvailable + data.length)
  | .read size => size ≤ t.buffer.bytesAvailable
  | .writeWithCallback frecv maxNbytes =>
    t.buffer.Steady (t.buffer.bytesAvailable + maxNbytes) ∧ ∀ k n, (frecv k n).length ≤ n
  | .readWithCallback fsend maxNbytes =>
    min maxNbytes t.buffer.bytesAvailable ≠ 0 ∧ ∀ k part, fsend k part ≤ part.length

/-- No byte is lost or repeated, nor by a `Read` of all that is there. -/
def Faithful (t : Traffic) : Prop :=
  t.taken <+: t.given ∧
    ∃ t', t.step (.read t.buffer.bytesAvailable) = some t' ∧ t'.taken <+: t'.given

/-- The same in every state of a run. -/
def FaithfulAlong (t : Traffic) : List Op → Prop
  | [] => t.Faithful
  | op :: ops => t.Faithful ∧ (t.Called op → ∃ t', t.step op = some t' ∧ t'.FaithfulAlong ops)

/-- What the callback leaves is the same bytes as those at the front: it takes nothing or everything
that is there, or the bytes repeat with the period of what it takes. -/
def Meets (t : Traffic) : Op → Prop
  | .readWithCallback fsend maxNbytes =>
    ∀ data buffer, t.buffer.readWithCallback fsend maxNbytes = some (data, buffer) →
      t.buffer.contents.drop data.length =
        t.buffer.contents.take (t.buffer.contents.length - data.length)
  | _ => True

def MeetsAlong (t : Traffic) : List Op → Prop
  | [] => True
  | op :: ops => t.Called op → t.Meets op ∧ ∀ t', t.step op = some t' → t'.MeetsAlong ops

/-- A new ring buffer. -/
def create : Traffic := ⟨RingBuffer.create, [], []⟩

end Traffic

end StencilGraph.Support
