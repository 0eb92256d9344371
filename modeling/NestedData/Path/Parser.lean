import NestedData.Path.Basic
import NestedData.Path.Split
import NestedData.Text.Blank
import NestedData.Text.Integer

/-!
# Reading paths

This module reads the text of a path.  The text is split into groups at two dots, every group into
compounds at single dots, and every compound into an optional bare part and selectors in brackets.
The first fault, from left to right, is reported.
-/

namespace NestedData

namespace PathText

/-- A fault of a segment that is written as `text`. -/
def invalid {α : Type} (text : List Char) (fault : SegmentFault) : Except PathFault α :=
  .error (.segment (String.ofList text) fault)

/-! ## Selectors in brackets -/

/-- Reads the rest of a quoted name, up to a mark that ends the text. -/
def unquoteRest? (mark : Char) : List Char → Option (List Char)
  | [] => none
  | '\\' :: c :: rest => (unquoteRest? mark rest).map (c :: ·)
  | c :: rest =>
    if c = '\\' then none
    else if c = mark then if rest.isEmpty then some [] else none
    else (unquoteRest? mark rest).map (c :: ·)

/-- Reads a quoted name that takes up the whole text. -/
def unquote? : List Char → Option String
  | [] => none
  | mark :: rest => (unquoteRest? mark rest).map String.ofList

/-- Whether the text starts with a quotation mark. -/
def startsQuoted : List Char → Bool
  | [] => false
  | c :: _ => isQuoteMark c

/-- Reads an entry of a union. -/
def readSelector? (text : List Char) : Option Selector :=
  let entry := Text.trim text
  if startsQuoted entry then (unquote? entry).map .key
  else
    match Text.readNat? entry with
    | some position => if position < UInt64.size then some (.index position) else none
    | none => none

/-- Reads a part of a slice, which may be absent. -/
def readBound? (text : List Char) : Option (Option Int64) :=
  let part := Text.trim text
  if part.isEmpty then some none else (Text.readInt64? part).map some

/-- The slice with the given parts; one without any bound selects every child. -/
def sliceOf (start stop step : Option Int64) : Segment :=
  if start.isNone && stop.isNone && step.isNone then .wildcard else .slice start stop step

/-- Reads the parts of a slice. -/
def readSlice (parts : List (List Char)) : Except SegmentFault Segment :=
  if 3 < parts.length then .error .tooManyParts
  else
    match parts.mapM readBound? with
    | none => .error .badBound
    | some bounds =>
      .ok (sliceOf (bounds[0]?.getD none) (bounds[1]?.getD none) (bounds[2]?.getD none))

/-- Reads a single position. -/
def readIndex (text : List Char) : Except SegmentFault Segment :=
  match Text.readInt64? text with
  | some number => if number < 0 then .error .negativeIndex else .ok (.index number.toInt.toNat)
  | none => .error .unknownSelector

/-- Reads the text between two brackets. -/
def readBracket (content : List Char) : Except SegmentFault Segment :=
  let text := Text.trim content
  if text.isEmpty then .error .emptySelector
  else if text = ['*'] then .ok .wildcard
  else
    let entries := (splitOutside ',' .outside text).toList
    if 1 < entries.length then
      match entries.mapM readSelector? with
      | some selectors => .ok (.union selectors)
      | none => .error .badUnionEntry
    else if startsQuoted text then
      match unquote? text with
      | some name => .ok (.key name)
      | none => .error .malformedName
    else
      let parts := (splitOutside ':' .outside text).toList
      if 1 < parts.length then readSlice parts else readIndex text

/-! ## Compounds -/

/-- Reads selectors in brackets up to the end of a compound. -/
def readBrackets (compound : List Char) (text : List Char) : Except PathFault (List Segment) :=
  match text with
  | [] => .ok []
  | c :: rest =>
    if c = '[' then
      match _taken : takeBracket? .outside rest with
      | none => .error (.unbalanced '[')
      | some (content, after) =>
        match readBracket content with
        | .error fault => invalid ('[' :: content ++ [']']) fault
        | .ok segment => do
          let segments ← readBrackets compound after
          .ok (segment :: segments)
    else invalid compound .textAfterBracket
termination_by text.length
decreasing_by
  have := length_takeBracket? _taken
  simp only [List.length_cons]
  omega

/-- Whether a bare name may not hold the character. -/
def needsQuotes (c : Char) : Bool :=
  isQuoteMark c || c == ']' || c == ' '

/-- Reads the bare part of a compound; `atStart` says that it starts the path. -/
def readBare (atStart : Bool) (bare : List Char) : Except PathFault Segment :=
  if bare = ['$'] then if atStart then .ok .root else invalid bare .rootNotFirst
  else if bare = ['*'] then .ok .wildcard
  else if bare.any needsQuotes then invalid bare .needsQuotes
  else .ok (.key (String.ofList bare))

/-- Reads a compound such as `name[0]['x']`. -/
def readCompound (atStart : Bool) (compound : List Char) : Except PathFault (List Segment) :=
  let bare := compound.takeWhile (· != '[')
  let brackets := compound.dropWhile (· != '[')
  if bare.isEmpty then readBrackets compound brackets
  else do
    let segment ← readBare atStart bare
    let segments ← readBrackets compound brackets
    .ok (segment :: segments)

/-! ## Groups -/

/-- Reads the compounds of a group in order; `atStart` says that the first one starts the path. -/
def readCompounds (group : List Char) : Bool → List (List Char) → Except PathFault (List Segment)
  | _, [] => .ok []
  | atStart, compound :: rest =>
    if compound.isEmpty then invalid group .emptySegment
    else do
      let segments ← readCompound atStart compound
      let others ← readCompounds group false rest
      .ok (segments ++ others)

/-- Reads the text of a group; `atStart` says that it is the first group. -/
def readGroup (atStart : Bool) (group : List Char) : Except PathFault (List Segment) := do
  let compounds ← splitCompounds (.bare 0) group
  readCompounds group atStart compounds.toList

/-- Reads the groups of the searches. -/
def readSearches : List (List Char) → Except PathFault (List (List Segment))
  | [] => .ok []
  | group :: rest =>
    if group.isEmpty then invalid ['.', '.'] .searchWithoutTarget
    else do
      let segments ← readGroup false group
      let others ← readSearches rest
      .ok (segments :: others)

/-- Reads the text of a path. -/
def readPath (text : List Char) : Except PathFault Path :=
  if text.isEmpty then .ok (Path.ofGroups [])
  else do
    let (first, others) ← splitGroups (.bare 0) text
    let segments ← if first.isEmpty then .ok [] else readGroup true first
    let searches ← readSearches others
    .ok { first := segments, searches }

end PathText

namespace Path

/-- Reads the text of a path. -/
def parse (text : String) : Except PathError Path :=
  (PathText.readPath text.toList).mapError fun fault => { path := text, fault }

end Path

end NestedData
