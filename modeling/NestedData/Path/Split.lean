import NestedData.Path.Error

/-!
# Splitting the text of a path

This module splits path text at separators that stand outside brackets and quotes.  Quotes count
only inside brackets, a backslash inside quotes makes the next character an ordinary one, and
brackets nest.  All splitters go through the text once and share one account of what is quoted.

Main results:

- `join_splitOutside`: joining the pieces with the separator gives the text back.
- `length_takeBracket?`: what follows a bracket is shorter than the text.
-/

namespace NestedData.PathText

/-- Whether the next character is quoted. -/
inductive Quoting
  /-- It is not. -/
  | outside
  /-- It is, up to the next `mark`; `escaped` says that a backslash precedes it. -/
  | inside (mark : Char) (escaped : Bool)
deriving DecidableEq

/-- Whether the character is a quotation mark. -/
def isQuoteMark (c : Char) : Bool :=
  c == '\'' || c == '"'

/-- Reads one character inside quotes. -/
def Quoting.insideStep (mark : Char) (escaped : Bool) (c : Char) : Quoting :=
  if escaped then .inside mark false
  else if c = '\\' then .inside mark true
  else if c = mark then .outside
  else .inside mark false

/-- Reads one character, where any quotation mark opens quotes. -/
def Quoting.step (quoting : Quoting) (c : Char) : Quoting :=
  match quoting with
  | .inside mark escaped => insideStep mark escaped c
  | .outside => if isQuoteMark c then .inside c false else .outside

/-- Pieces of a text: the first one and the ones after a separator each. -/
abbrev Pieces := List Char × List (List Char)

/-- The pieces in order. -/
def Pieces.toList (pieces : Pieces) : List (List Char) :=
  pieces.1 :: pieces.2

/-- The pieces with a character before the first. -/
def Pieces.cons (c : Char) (pieces : Pieces) : Pieces :=
  (c :: pieces.1, pieces.2)

/-- The pieces with an empty one before the first. -/
def Pieces.open (pieces : Pieces) : Pieces :=
  ([], pieces.1 :: pieces.2)

/-- Splits a text at every separator outside quotes. -/
def splitOutside (separator : Char) (quoting : Quoting) : List Char → Pieces
  | [] => ([], [])
  | c :: rest =>
    if quoting = .outside ∧ c = separator then
      Pieces.open (splitOutside separator .outside rest)
    else Pieces.cons c (splitOutside separator (quoting.step c) rest)

/-- Joining the pieces with the separator gives the text back. -/
theorem join_splitOutside (separator : Char) (quoting : Quoting) (text : List Char) :
    [separator].intercalate (splitOutside separator quoting text).toList = text := by
  induction text generalizing quoting with
  | nil => simp [splitOutside, Pieces.toList]
  | cons c rest ih =>
    have split (pieces : Pieces) :
        [separator].intercalate (Pieces.open pieces).toList =
          separator :: [separator].intercalate pieces.toList := by
      simp [Pieces.open, Pieces.toList, List.intercalate]
    have kept (pieces : Pieces) :
        [separator].intercalate (Pieces.cons c pieces).toList =
          c :: [separator].intercalate pieces.toList := by
      obtain ⟨first, others⟩ := pieces
      cases others <;> simp [Pieces.cons, Pieces.toList, List.intercalate]
    unfold splitOutside
    split
    · rename_i here
      rw [split, ih, here.2]
    · rw [kept, ih]

/-! ## Brackets -/

/-- Splits off the text up to the bracket that closes an open one. -/
def takeBracket? (quoting : Quoting) : List Char → Option (List Char × List Char)
  | [] => none
  | c :: rest =>
    if quoting = .outside ∧ c = ']' then some ([], rest)
    else (takeBracket? (quoting.step c) rest).map fun (content, after) => (c :: content, after)

/-- What follows a bracket is shorter than the text. -/
theorem length_takeBracket? {quoting : Quoting} {text content after : List Char}
    (taken : takeBracket? quoting text = some (content, after)) : after.length < text.length := by
  induction text generalizing quoting content with
  | nil => simp [takeBracket?] at taken
  | cons c rest ih =>
    unfold takeBracket? at taken
    split at taken
    · simp only [Option.some.injEq, Prod.mk.injEq] at taken
      simp [taken.2]
    · obtain ⟨⟨inner, left⟩, found, same⟩ := Option.map_eq_some_iff.1 taken
      simp only [Prod.mk.injEq] at same
      have := ih (same.2 ▸ found)
      simp only [List.length_cons]
      omega

/-! ## Separators outside brackets -/

/-- Where in the nesting of brackets and quotes a character stands. -/
inductive Nesting
  /-- Inside so many brackets and no quotes. -/
  | bare (depth : Nat)
  /-- Inside quotes inside so many brackets. -/
  | quoted (depth : Nat) (mark : Char) (escaped : Bool)
deriving DecidableEq

namespace Nesting

/-- Reads one character; a closing bracket needs an open one. -/
def step? (nesting : Nesting) (c : Char) : Except PathFault Nesting :=
  match nesting with
  | .quoted depth mark escaped =>
    match Quoting.insideStep mark escaped c with
    | .outside => .ok (.bare depth)
    | .inside mark escaped => .ok (.quoted depth mark escaped)
  | .bare depth =>
    if isQuoteMark c && 0 < depth then .ok (.quoted depth c false)
    else if c = '[' then .ok (.bare (depth + 1))
    else if c = ']' then
      if depth = 0 then .error (.unbalanced ']') else .ok (.bare (depth - 1))
    else .ok (.bare depth)

/-- At the end of a text nothing may be open. -/
def finish (nesting : Nesting) : Except PathFault Pieces :=
  match nesting with
  | .quoted _ mark _ => .error (.unbalanced mark)
  | .bare depth => if depth = 0 then .ok ([], []) else .error (.unbalanced '[')

end Nesting

/-- Splits a text at every pair of dots outside brackets. -/
def splitGroups (nesting : Nesting) : List Char → Except PathFault Pieces
  | [] => nesting.finish
  | '.' :: '.' :: rest =>
    if nesting = .bare 0 then (splitGroups (.bare 0) rest).map Pieces.open
    else do
      let next ← nesting.step? '.'
      (splitGroups next ('.' :: rest)).map (Pieces.cons '.')
  | c :: rest => do
    let next ← nesting.step? c
    (splitGroups next rest).map (Pieces.cons c)

/-- Splits the text of a group at every dot outside brackets. -/
def splitCompounds (nesting : Nesting) : List Char → Except PathFault Pieces
  | [] => nesting.finish
  | c :: rest =>
    if nesting = .bare 0 ∧ c = '.' then (splitCompounds (.bare 0) rest).map Pieces.open
    else do
      let next ← nesting.step? c
      (splitCompounds next rest).map (Pieces.cons c)

end NestedData.PathText
