import StencilGraph.Framework.PyText

namespace StencilGraph.Codegen
open Framework

/-- `"_" + "".join(map(str, offset))` -/
def strOffset (offset : List Int) : Text := '_' :: offset.flatMap Text.str

/-- `", ".join(map(str, offset))` -/
def joinOffset (offset : List Int) : Text := ", ".toList.intercalate (offset.map Text.str)

/-- `origin_offset`, the numbers between the brackets of an access. -/
def originOffset (line : Text) : Option (List Int) :=
  (Text.split ", ".toList
    (Text.slice line (Text.find '[' line + 1) (Text.find ']' line))).mapM Text.int

def isAccess (line : Text) : Bool := Text.contains "stencil.access".toList line

/-- The offset of an access is moved; every other line stays. -/
def moveAccess (line : Text) (offset : List Int) : Option Text :=
  if isAccess line then do
    let origin ← originOffset line
    let newOffset := List.zipWith (· + ·) origin offset
    some (Text.replace (joinOffset origin) (joinOffset newOffset) line)
  else some line

/-- `format_token`; a token of one `%` raises. -/
def formatToken (strOffset : Text) (deepVars : List Text) (token : Text) : Option Text :=
  if token.head? = some '%' then
    match token[1]? with
    | none => none
    | some c =>
      if c.isDigit ∧ token ∉ deepVars then
        if token.getLast? ≠ some ',' then some (token ++ strOffset)
        else some (token.dropLast ++ strOffset ++ [','])
      else some token
  else some token

def addOffsetLine (offset : List Int) (deepVars : List Text) (line : Text) : Option Text := do
  let line ← moveAccess line offset
  let tokens ← (Text.words line).mapM (formatToken (strOffset offset) deepVars)
  some ([' '].intercalate tokens)

/-- `add_offset` -/
def addOffset (relatedLine : List (Nat × Text)) (offset : List Int) (deepVars : List Text) :
    Option (List (Nat × Text)) :=
  relatedLine.mapM fun idxLine => do
    let line ← addOffsetLine offset deepVars idxLine.2
    some (idxLine.1, line)

/-- The SSA name that a clone of the `k`-th line defines. -/
def cloneName (relatedLine : List (Nat × Text)) (deepVars : List Text) (k : Nat)
    (offset : List Int) : Option Text := do
  let offsetedLine ← addOffset relatedLine offset deepVars
  let idxLine ← offsetedLine[k]?
  (Text.words idxLine.2).head?

/-- The offsets of a rank with components up to a halo width. -/
def InOffsets (rank halo : Nat) (offset : List Int) : Prop :=
  offset.length = rank ∧ ∀ i ∈ offset, i.natAbs ≤ halo

/-- Different offsets give the clones of the line different names. -/
def ClonesSeparate (relatedLine : List (Nat × Text)) (deepVars : List Text) (k rank halo : Nat) :
    Prop :=
  ∀ offset offset', InOffsets rank halo offset → InOffsets rank halo offset' → offset ≠ offset' →
    cloneName relatedLine deepVars k offset ≠ cloneName relatedLine deepVars k offset'

/-- A numbered SSA name. -/
structure SsaName (name : Text) : Prop where
  numbered : ∃ d t, name = '%' :: d :: t ∧ d.isDigit
  noSpace : ∀ c ∈ name, Text.isSpace c = false
  noComma : ',' ∉ name

/-- The line defines the name; if it is an access, its own offset has the rank. -/
structure Producer (line name : Text) (rank : Nat) : Prop where
  defines : ∃ rest, line = name ++ " = ".toList ++ rest
  name : SsaName name
  rank : isAccess line → ∀ origin, originOffset line = some origin → origin.length = rank

/-- The line is an access whose own offset, a single number, is a part of the name. -/
def MovesName (line name : Text) : Prop :=
  isAccess line ∧ ∃ origin, originOffset line = some origin ∧ origin.length = 1 ∧
    joinOffset origin <:+: name

/-- There is one offset only, or the name gets a suffix and the components do not run into each
other, or it is moved itself. -/
def NamesApart (line name : Text) (deepVars : List Text) (rank halo : Nat) : Prop :=
  rank = 0 ∨ halo = 0 ∨
    (name ∉ deepVars ∧ (rank = 1 ∨ halo ≤ 9 ∨ (rank = 2 ∧ halo ≤ 10))) ∨ MovesName line name

end StencilGraph.Codegen
