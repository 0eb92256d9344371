import NestedData.Decimal.Numeral
import NestedData.Json.Token
import NestedData.Json.Writer

/-!
# Reading documents

This module reads a document as a tree.  The reader goes through the tokens once, keeping the containers
that are open.  A repeated key keeps its first place and its last value.  A whole number in one of the
64-bit ranges is kept exactly and every other number is rounded to double precision, correctly however
many digits are written.  Together with the writer it makes up a library.
-/

namespace NestedData.Json

/-- What is said about a text that is not a document; where it goes wrong is not recorded. -/
def malformed : String := "<json error>"

/-! ## Words and numbers -/

/-- The value of a bare word. -/
def wordValue? (letters : List Char) : Option Tree :=
  if letters = "null".toList then some .null
  else if letters = "true".toList then some (.bool true)
  else if letters = "false".toList then some (.bool false)
  else none

/-- Whether a numeral is spelled as documents require: no plus sign, no leading zeros, and at
least one digit on either side of a decimal point. -/
def isStrict (numeral : Numeral) : Bool :=
  numeral.sign != some false && numeral.whole != [] &&
    (numeral.whole == ['0'] || numeral.whole.head? != some '0') && numeral.fraction != some []

/-- The whole number that is spelled, if it is in range.  Negative zero is no whole number. -/
def wholeValue? (numeral : Numeral) (spelling : List Char) : Option Number :=
  match Text.readInt? spelling with
  | some value =>
    if range : InRange value then
      if numeral.isNegative && value == 0 then none else some (.whole value range)
    else none
  | none => none

/-- The value of a number, if it is spelled as documents require and is in range. -/
def numberValue? (spelling : List Char) : Option Number :=
  match Numeral.scan? spelling with
  | none => none
  | some numeral =>
    if isStrict numeral then
      (wholeValue? numeral spelling).or (Number.ofBinary64? (.ofNumeral numeral))
    else none

/-! ## Open containers -/

/-- A container that has been opened and not yet closed. -/
inductive Frame
  /-- A list with the elements read so far. -/
  | items (done : Array Tree)
  /-- A map with the entries read so far and the key whose value is being read. -/
  | entry (done : Entries Tree) (key : String)

/-- What the reader expects next. -/
inductive State
  /-- A value. -/
  | nextValue (frames : List Frame)
  /-- A value or the end of an empty list. -/
  | firstItem (frames : List Frame)
  /-- A comma or the end of a list. -/
  | afterItem (done : Array Tree) (frames : List Frame)
  /-- A key or the end of an empty map. -/
  | firstKey (frames : List Frame)
  /-- A key. -/
  | nextKey (done : Entries Tree) (frames : List Frame)
  /-- A colon after a key. -/
  | afterKey (done : Entries Tree) (key : String) (frames : List Frame)
  /-- A comma or the end of a map. -/
  | afterEntry (done : Entries Tree) (frames : List Frame)
  /-- Nothing: the document is read. -/
  | finished (value : Tree)

namespace State

/-- Hands a finished value to the innermost open container. -/
def complete (value : Tree) : List Frame → State
  | [] => .finished value
  | .items done :: frames => .afterItem (done.push value) frames
  | .entry done key :: frames => .afterEntry (Entries.insert done key value) frames

/-- Reads the first token of a value. -/
def beginValue? (frames : List Frame) : Token → Option State
  | .openList => if frames.length < depthLimit then some (.firstItem frames) else none
  | .openMap => if frames.length < depthLimit then some (.firstKey frames) else none
  | .word letters => (wordValue? letters).map fun value => complete value frames
  | .number spelling => (numberValue? spelling).map fun value => complete (.number value) frames
  | .quoted content => some (complete (.text (String.ofList content)) frames)
  | _ => none

/-- Reads one token. -/
def step? (state : State) (token : Token) : Option State :=
  match state with
  | .nextValue frames => beginValue? frames token
  | .firstItem frames =>
    if token = .closeList then some (complete (.list #[]) frames)
    else beginValue? (.items #[] :: frames) token
  | .afterItem done frames =>
    match token with
    | .comma => some (.nextValue (.items done :: frames))
    | .closeList => some (complete (.list done) frames)
    | _ => none
  | .firstKey frames =>
    match token with
    | .quoted content => some (.afterKey [] (String.ofList content) frames)
    | .closeMap => some (complete (.map []) frames)
    | _ => none
  | .nextKey done frames =>
    match token with
    | .quoted content => some (.afterKey done (String.ofList content) frames)
    | _ => none
  | .afterKey done key frames =>
    match token with
    | .colon => some (.nextValue (.entry done key :: frames))
    | _ => none
  | .afterEntry done frames =>
    match token with
    | .comma => some (.nextKey done frames)
    | .closeMap => some (complete (.map done) frames)
    | _ => none
  | .finished _ => none

end State

/-- Reads a document that takes up the whole text. -/
def read? (text : List Char) : Option Tree :=
  match tokens? text with
  | none => none
  | some tokens =>
    match tokens.foldlM State.step? (.nextValue []) with
    | some (.finished tree) => some tree
    | _ => none

/-- The library that is made up of the writer and the reader. -/
def exact : Library where
  print := fun tree => String.ofList (write tree)
  parse := fun text =>
    match read? text.toList with
    | some tree => .ok tree
    | none => .error malformed

end NestedData.Json
