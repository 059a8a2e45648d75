import StencilGraph.Framework.Memcpy

namespace StencilGraph.Crt
open Framework

/-- A C string without its terminating zero. -/
structure CString where
  chars : List UInt8
  noNul : 0 ∉ chars

/-- The string as it lies in memory. -/
def CString.bytes (s : CString) : List UInt8 := s.chars ++ [0]

/-- A function pointer, as the `w` bytes it is stored in. -/
structure FuncPtr (w : Nat) where
  bytes : List UInt8
  size : bytes.length = w

inductive RegistryError where
  | functionNameNotFound
  | functionIndexInvalid
  | functionRegistryFull
  | functionAlreadyDefined
  | bufferTooSmall
  deriving DecidableEq

/-- The name list starts at the front of `buffer`, the function table at offset `funcs`; `w` is
`sizeof(void*)`. An access outside of `buffer` makes an operation `none`. -/
structure FuncRegistry (w : Nat) where
  buffer : List UInt8
  funcs : Nat
  maxFunctions : Nat

def kTvmAverageFunctionNameStrlenBytes : Nat := 10

def kTvmAverageFuncEntrySizeBytes (w : Nat) : Nat := kTvmAverageFunctionNameStrlenBytes + 1 + w

/-- The first loop of `strcmp_cursor`: whether the strings were equal up to where it stops, and the
cursor there. -/
def compareLoop : List UInt8 → List UInt8 → Option (Bool × List UInt8)
  | c :: cursor, n :: name =>
    if n = 0 ∨ c = 0 then some (c == n, c :: cursor)
    else if c = n then compareLoop cursor name
    else some (false, cursor)
  | _, _ => none

/-- The second loop moves the cursor to the end of the string. -/
def skipToNul : List UInt8 → Option (List UInt8)
  | [] => none
  | c :: cursor => if c = 0 then some (c :: cursor) else skipToNul cursor

def strcmpCursor (cursor name : List UInt8) : Option (Bool × List UInt8) := do
  let (equal, cursor) ← compareLoop cursor name
  let cursor ← skipToNul cursor
  some (equal, cursor)

inductive ScanResult where
  | found (idx : Nat)
  | listEnd (idx : Nat) (cursor : List UInt8)

/-- The loop over the names, the same in `Lookup` and `Set`. Each round consumes a byte at least, so
the length of the buffer is enough fuel. -/
def scan (name : List UInt8) : Nat → List UInt8 → Nat → Option ScanResult
  | 0, _, _ => none
  | _, [], _ => none
  | fuel + 1, c :: cursor, idx =>
    if c = 0 then some (.listEnd idx (c :: cursor))
    else do
      let (equal, cursor) ← strcmpCursor (c :: cursor) name
      if equal then some (.found idx) else scan name fuel (cursor.drop 1) (idx + 1)

namespace FuncRegistry

variable {w : Nat}

/-- Byte 0 of the buffer is the number of functions, so the names start at byte 1. -/
def scanNames (reg : FuncRegistry w) (name : CString) : Option ScanResult :=
  scan name.bytes reg.buffer.length (reg.buffer.drop 1) 0

/-- The index is a `uint16_t`. -/
def lookup (reg : FuncRegistry w) (name : CString) : Option (Except RegistryError Nat) := do
  match ← reg.scanNames name with
  | .found idx => some (.ok (idx % 2 ^ 16))
  | .listEnd _ _ => some (.error .functionNameNotFound)

def getByIndex (reg : FuncRegistry w) (functionIndex : Nat) :
    Option (Except RegistryError (List UInt8)) := do
  let numFuncs ← reg.buffer.head?
  if functionIndex ≥ numFuncs.toNat then some (.error .functionIndexInvalid)
  else do
    let func ← load reg.buffer (reg.funcs + functionIndex * w) w
    some (.ok func)

/-- `Lookup` followed by `GetByIndex`. -/
def find (reg : FuncRegistry w) (name : CString) : Option (Except RegistryError (List UInt8)) := do
  match ← reg.lookup name with
  | .ok idx => reg.getByIndex idx
  | .error e => some (.error e)

def create (w : Nat) (buffer : List UInt8) : Option (Except RegistryError (FuncRegistry w)) :=
  if buffer.length < kTvmAverageFuncEntrySizeBytes w then some (.error .bufferTooSmall)
  else do
    let bytes ← store buffer 0 [0]
    let bytes ← store bytes 1 [0]
    let maxFunctions := buffer.length / kTvmAverageFuncEntrySizeBytes w
    some (.ok ⟨bytes, buffer.length - maxFunctions * w, maxFunctions⟩)

/-- The arguments of `TVMMutableFuncRegistry_Set`; an empty name would end the name list. -/
structure SetCall (w : Nat) where
  name : CString
  nonempty : name.chars ≠ []
  func : FuncPtr w
  override : Bool

/-- What `Set` leaves behind; `namesEnd` is the end of what it wrote as part of the name list. -/
structure SetOutcome (w : Nat) where
  registry : FuncRegistry w
  result : Except RegistryError Unit
  namesEnd : Nat

def set (reg : FuncRegistry w) (call : SetCall w) : Option (SetOutcome w) := do
  match ← reg.scanNames call.name with
  | .found idx =>
    if call.override = false then some ⟨reg, .error .functionAlreadyDefined, 0⟩
    else do
      let buffer ← store reg.buffer (reg.funcs + idx * w) call.func.bytes
      some ⟨{ reg with buffer := buffer }, .ok (), 0⟩
  | .listEnd idx cursor =>
    let regNamePtr := reg.buffer.length - cursor.length
    let nameLen := call.name.chars.length
    if regNamePtr > reg.funcs then some ⟨reg, .error .functionRegistryFull, 0⟩
    else if idx ≥ reg.maxFunctions ∨ nameLen + 1 > reg.funcs - regNamePtr then
      some ⟨reg, .error .functionRegistryFull, 0⟩
    else do
      let buffer ← store reg.buffer regNamePtr call.name.bytes
      let buffer ← store buffer (regNamePtr + nameLen + 1) [0]
      let buffer ← store buffer (reg.funcs + idx * w) call.func.bytes
      let numFuncs ← buffer.head?
      let buffer ← store buffer 0 [numFuncs + 1]
      some ⟨{ reg with buffer := buffer }, .ok (), regNamePtr + nameLen + 2⟩

end FuncRegistry

end StencilGraph.Crt
