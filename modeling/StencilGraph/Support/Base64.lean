import Mathlib.Algebra.Order.Ring.Int
import Mathlib.Data.List.Basic
import Mathlib.Tactic.Common

namespace StencilGraph.Support.Base64

def decodeTable : List Nat :=
  List.replicate 43 0 ++
  [62] ++  -- '+'
  [0, 0, 0] ++
  [63] ++  -- '/'
  [52, 53, 54, 55, 56, 57, 58, 59, 60, 61] ++  -- '0'-'9'
  List.replicate 7 0 ++
  [0, 1, 2, 3, 4, 5, 6, 7, 8, 9, 10, 11, 12, 13, 14, 15, 16, 17, 18, 19, 20, 21, 22, 23, 24,
    25] ++  -- 'A'-'Z'
  List.replicate 6 0 ++
  [26, 27, 28, 29, 30, 31, 32, 33, 34, 35, 36, 37, 38, 39, 40, 41, 42, 43, 44, 45, 46, 47, 48, 49,
    50, 51]  -- 'a'-'z'

def encodeTable : List UInt8 :=
  ['A', 'B', 'C', 'D', 'E', 'F', 'G', 'H', 'I', 'J', 'K', 'L', 'M', 'N', 'O', 'P', 'Q', 'R', 'S',
    'T', 'U', 'V', 'W', 'X', 'Y', 'Z', 'a', 'b', 'c', 'd', 'e', 'f', 'g', 'h', 'i', 'j', 'k', 'l',
    'm', 'n', 'o', 'p', 'q', 'r', 's', 't', 'u', 'v', 'w', 'x', 'y', 'z', '0', '1', '2', '3', '4',
    '5', '6', '7', '8', '9', '+', '/'].map Char.toUInt8

/-- `isspace` in the C locale. -/
def isSpace (c : UInt8) : Bool := c == 32 || (9 ≤ c && c ≤ 13)

/-- The character `=`. -/
def pad : UInt8 := 61

/-- A character of the encoding; the index is below 64. -/
def encodeChar (v : Nat) : UInt8 := encodeTable.getD v 0

/-- The stream hands out `pieces`, one for each `Read`, and nothing behind them; `buffer` is the part
of the last piece that is not read yet. -/
structure StreamBufferReader where
  buffer : List UInt8
  pieces : List (List UInt8)

/-- `none` is `EOF`. -/
def StreamBufferReader.getChar (r : StreamBufferReader) : Option UInt8 × StreamBufferReader :=
  match r.buffer, r.pieces with
  | c :: buffer, pieces => (some c, ⟨buffer, pieces⟩)
  | [], (c :: buffer) :: pieces => (some c, ⟨buffer, pieces⟩)
  | [], [] :: pieces => (none, ⟨[], pieces⟩)
  | [], [] => (none, ⟨[], []⟩)

/-- `prev` holds the first `num_prev_` bytes of `buf_prev`. -/
structure Base64InStream where
  reader : StreamBufferReader
  tempCh : Option UInt8
  prev : List UInt8

namespace Base64InStream

def create (pieces : List (List UInt8)) : Base64InStream := ⟨⟨[], pieces⟩, some 0, []⟩

def nextChar (s : Base64InStream) : Base64InStream :=
  { s with tempCh := s.reader.getChar.1, reader := s.reader.getChar.2 }

/-- The loop of `InitPosition`; a round consumes a character, so their number is enough fuel. -/
def skipSpace : Nat → Base64InStream → Base64InStream
  | 0, s => s
  | fuel + 1, s => if s.nextChar.tempCh.any isSpace then skipSpace fuel s.nextChar else s.nextChar

def initPosition (s : Base64InStream) : Base64InStream :=
  skipSpace (s.reader.buffer.length + s.reader.pieces.flatten.length + 1) s

/-- `temp_ch_ == EOF || isspace(temp_ch_)`. -/
def atSpace (s : Base64InStream) : Bool := s.tempCh.all isSpace

def isEOF (s : Base64InStream) : Bool := s.prev.isEmpty && s.atSpace

/-- The character in hand, which must not end the text. -/
def checkedChar (s : Base64InStream) : Option UInt8 := s.tempCh.filter fun c => !isSpace c

def decodeChar (c : UInt8) : Option Nat := decodeTable[c.toNat]?

/-- A decoded byte goes to the caller while he wants more, else it is kept. -/
def deliver (s : Base64InStream) (tlen : Nat) (byte : UInt8) : List UInt8 × Nat × Base64InStream :=
  if tlen ≠ 0 then ([byte], tlen - 1, s) else ([], tlen, { s with prev := s.prev ++ [byte] })

/-- One round of the loop of `Read`: the bytes for the caller, how many more he wants, the stream, and
whether the padding ended the loop. `none` is a failed `ICHECK`. -/
def readGroup (s : Base64InStream) (tlen : Nat) :
    Option (List UInt8 × Nat × Base64InStream × Bool) := do
  let c ← s.tempCh
  let nvalue := (← decodeChar c) <<< 18
  -- second byte
  let s := s.nextChar
  let c ← s.checkedChar
  let nvalue := nvalue ||| (← decodeChar c) <<< 12
  let first := UInt8.ofNat ((nvalue >>> 16) &&& 0xFF)
  let tlen := tlen - 1
  -- third byte
  let s := s.nextChar
  let c ← s.checkedChar
  if c = pad then
    let s := s.nextChar
    if s.tempCh ≠ some pad then none
    else
      let s := s.nextChar
      if !s.atSpace then none else some ([first], tlen, s, true)
  else
    let nvalue := nvalue ||| (← decodeChar c) <<< 6
    let (second, tlen, s) := s.deliver tlen (UInt8.ofNat ((nvalue >>> 8) &&& 0xFF))
    -- fourth byte
    let s := s.nextChar
    let c ← s.checkedChar
    if c = pad then
      let s := s.nextChar
      if !s.atSpace then none else some (first :: second, tlen, s, true)
    else
      let nvalue := nvalue ||| (← decodeChar c)
      let (third, tlen, s) := s.deliver tlen (UInt8.ofNat (nvalue &&& 0xFF))
      some (first :: second ++ third, tlen, s.nextChar, false)

/-- The loop of `Read`; a round delivers a byte at least, so `tlen` is enough fuel. -/
def readLoop : Nat → Base64InStream → Nat → Option (List UInt8 × Base64InStream)
  | 0, s, _ => some ([], s)
  | fuel + 1, s, tlen =>
    if tlen = 0 ∨ s.atSpace then some ([], s)
    else do
      let (bytes, tlen, s, stop) ← s.readGroup tlen
      if stop then some (bytes, s)
      else do
        let (rest, s) ← readLoop fuel s tlen
        some (bytes ++ rest, s)

/-- `Read`: the bytes delivered, at most `size`. -/
def read (s : Base64InStream) (size : Nat) : Option (List UInt8 × Base64InStream) := do
  if size = 0 then some ([], s)
  else
    let kept := s.prev.take size
    let s := { s with prev := s.prev.drop size }
    let (bytes, s) ← readLoop (size - kept.length) s (size - kept.length)
    some (kept ++ bytes, s)

end Base64InStream

/-- `buf` holds the `buf__top_` bytes that wait for a group, `fp` what the stream below received. -/
structure Base64OutStream where
  buf : List UInt8
  outBuf : List UInt8
  fp : List UInt8

namespace Base64OutStream

def kBufferSize : Nat := 256

def create : Base64OutStream := ⟨[], [], []⟩

def flush (s : Base64OutStream) : Base64OutStream :=
  if s.outBuf.length ≠ 0 then { s with outBuf := [], fp := s.fp ++ s.outBuf } else s

def putChar (s : Base64OutStream) (ch : UInt8) : Base64OutStream :=
  let s := { s with outBuf := s.outBuf ++ [ch] }
  if s.outBuf.length ≥ kBufferSize then s.flush else s

def putChars (s : Base64OutStream) (chars : List UInt8) : Base64OutStream := chars.foldl putChar s

/-- The characters of one, two and three bytes. -/
def group1 (a : UInt8) : List UInt8 :=
  [encodeChar (a.toNat >>> 2), encodeChar ((a.toNat <<< 4) &&& 0x3F), pad, pad]

def group2 (a b : UInt8) : List UInt8 :=
  [encodeChar (a.toNat >>> 2), encodeChar ((a.toNat <<< 4 ||| b.toNat >>> 4) &&& 0x3F),
    encodeChar ((b.toNat <<< 2) &&& 0x3F), pad]

def group3 (a b c : UInt8) : List UInt8 :=
  [encodeChar (a.toNat >>> 2), encodeChar ((a.toNat <<< 4 ||| b.toNat >>> 4) &&& 0x3F),
    encodeChar ((b.toNat <<< 2 ||| c.toNat >>> 6) &&& 0x3F), encodeChar (c.toNat &&& 0x3F)]

/-- One byte of `Write`: the loops fill `buf` and empty it whenever it has three bytes. -/
def writeByte (s : Base64OutStream) (byte : UInt8) : Base64OutStream :=
  match s.buf ++ [byte] with
  | [a, b, c] => { s with buf := [] }.putChars (group3 a b c)
  | buf => { s with buf := buf }

def write (s : Base64OutStream) (data : List UInt8) : Base64OutStream := data.foldl writeByte s

/-- `Finish`; without `endch` it is called with `EOF`. -/
def finish (s : Base64OutStream) (endch : Option UInt8) : Base64OutStream :=
  let s := match s.buf with
    | [a] => s.putChars (group1 a)
    | [a, b] => s.putChars (group2 a b)
    | _ => s
  let s := { s with buf := [] }
  (s.putChars endch.toList).flush

end Base64OutStream

end StencilGraph.Support.Base64
