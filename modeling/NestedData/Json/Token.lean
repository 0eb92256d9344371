/-!
# Tokens of structured text

This module cuts the text of a JSON document into tokens: brackets, separators, bare words, numbers
and quoted texts.  The cutter reads one character at a time and remembers only what it is in the
middle of.  Words and numbers are cut out whole and judged later; quoted texts are decoded here, where
a raw control character, an unknown escape or half of a surrogate pair is refused.
-/

namespace NestedData.Json

/-- One token of a document. -/
inductive Token
  /-- `[` -/
  | openList
  /-- `]` -/
  | closeList
  /-- An opening brace. -/
  | openMap
  /-- A closing brace. -/
  | closeMap
  /-- `:` -/
  | colon
  /-- `,` -/
  | comma
  /-- A run of letters. -/
  | word (letters : List Char)
  /-- A run of the characters that occur in numbers. -/
  | number (spelling : List Char)
  /-- A quoted text, decoded. -/
  | quoted (content : List Char)
deriving DecidableEq

/-- How far an escape inside a quoted text has been read. -/
inductive Escape
  /-- No escape is open. -/
  | none
  /-- A backslash has been read. -/
  | begun
  /-- Some of the four hexadecimal digits of a code unit have been read. -/
  | unit (high : Option Nat) (digits value : Nat)
  /-- The first half of a surrogate pair has been read. -/
  | half (high : Nat)
  /-- The first half of a surrogate pair and a backslash have been read. -/
  | halfBegun (high : Nat)
deriving DecidableEq

/-- What the cutter is in the middle of; characters are collected in reverse. -/
inductive Cutter
  /-- Nothing. -/
  | between
  /-- A number. -/
  | number (collected : List Char)
  /-- A bare word. -/
  | word (collected : List Char)
  /-- A quoted text. -/
  | quoted (collected : List Char) (escape : Escape)
deriving DecidableEq

/-- Whether the character may stand between tokens. -/
def isSpace (c : Char) : Bool :=
  c == ' ' || c == '\t' || c == '\n' || c == '\r'

/-- Whether the character occurs in numbers. -/
def isNumberPart (c : Char) : Bool :=
  c.isDigit || c == '-' || c == '+' || c == '.' || c == 'e' || c == 'E'

/-- The value of a hexadecimal digit. -/
def hexDigit? (c : Char) : Option Nat :=
  if c.isDigit then some (c.toNat - '0'.toNat)
  else if 'a' ≤ c ∧ c ≤ 'f' then some (c.toNat - 'a'.toNat + 10)
  else if 'A' ≤ c ∧ c ≤ 'F' then some (c.toNat - 'A'.toNat + 10)
  else none

/-- The character that a one-letter escape stands for. -/
def simpleEscape? : Char → Option Char
  | '"' => some '"'
  | '\\' => some '\\'
  | '/' => some '/'
  | 'b' => some '\x08'
  | 'f' => some '\x0c'
  | 'n' => some '\n'
  | 'r' => some '\r'
  | 't' => some '\t'
  | _ => none

/-- Whether a code unit is the first half of a surrogate pair. -/
def isHighHalf (unit : Nat) : Bool :=
  0xD800 ≤ unit && unit ≤ 0xDBFF

/-- Whether a code unit is the second half of a surrogate pair. -/
def isLowHalf (unit : Nat) : Bool :=
  0xDC00 ≤ unit && unit ≤ 0xDFFF

namespace Cutter

/-- Ends an escaped code unit: alone it is a character or the first half of a pair, after a first
half it must be the second. -/
def endUnit? (collected : List Char) (high : Option Nat) (unit : Nat) : Option Cutter :=
  match high with
  | some first =>
    if isLowHalf unit then
      some (.quoted (Char.ofNat (0x10000 + (first - 0xD800) * 0x400 + (unit - 0xDC00)) :: collected)
        .none)
    else none
  | none =>
    if isHighHalf unit then some (.quoted collected (.half unit))
    else if isLowHalf unit then none
    else some (.quoted (Char.ofNat unit :: collected) .none)

/-- Reads a character inside a quoted text that is not finished by it. -/
def quotedStep? (collected : List Char) (escape : Escape) (c : Char) : Option Cutter :=
  match escape with
  | .none =>
    if c = '\\' then some (.quoted collected .begun)
    else if c.toNat < 0x20 then none
    else some (.quoted (c :: collected) .none)
  | .begun =>
    if c = 'u' then some (.quoted collected (.unit none 0 0))
    else (simpleEscape? c).map fun plain => .quoted (plain :: collected) .none
  | .unit high digits value =>
    (hexDigit? c).bind fun digit =>
      if digits = 3 then endUnit? collected high (16 * value + digit)
      else some (.quoted collected (.unit high (digits + 1) (16 * value + digit)))
  | .half high => if c = '\\' then some (.quoted collected (.halfBegun high)) else none
  | .halfBegun high => if c = 'u' then some (.quoted collected (.unit (some high) 0 0)) else none

/-- Reads a character outside every token: the tokens it completes and what it begins. -/
def begin? (c : Char) : Option (List Token × Cutter) :=
  if isSpace c then some ([], .between)
  else if c = '[' then some ([.openList], .between)
  else if c = ']' then some ([.closeList], .between)
  else if c = '\x7b' then some ([.openMap], .between)
  else if c = '\x7d' then some ([.closeMap], .between)
  else if c = ':' then some ([.colon], .between)
  else if c = ',' then some ([.comma], .between)
  else if c = '"' then some ([], .quoted [] .none)
  else if c.isDigit ∨ c = '-' then some ([], .number [c])
  else if c.isAlpha then some ([], .word [c])
  else none

/-- Reads one character: the tokens it completes and what the cutter is in the middle of then. -/
def step? (cutter : Cutter) (c : Char) : Option (List Token × Cutter) :=
  match cutter with
  | .between => begin? c
  | .number collected =>
    if isNumberPart c then some ([], .number (c :: collected))
    else (begin? c).map fun (tokens, next) => (.number collected.reverse :: tokens, next)
  | .word collected =>
    if c.isAlpha then some ([], .word (c :: collected))
    else (begin? c).map fun (tokens, next) => (.word collected.reverse :: tokens, next)
  | .quoted collected escape =>
    if escape = .none ∧ c = '"' then some ([.quoted collected.reverse], .between)
    else (quotedStep? collected escape c).map fun next => ([], next)

/-- The tokens completed by the end of the text. -/
def finish? : Cutter → Option (List Token)
  | .between => some []
  | .number collected => some [.number collected.reverse]
  | .word collected => some [.word collected.reverse]
  | .quoted .. => none

/-- Cuts the rest of a text into tokens. -/
def run? (cutter : Cutter) : List Char → Option (List Token)
  | [] => cutter.finish?
  | c :: rest =>
    match cutter.step? c with
    | some (tokens, next) => (next.run? rest).map (tokens ++ ·)
    | none => none

end Cutter

/-- The tokens of a text, or nothing if it has none. -/
def tokens? (text : List Char) : Option (List Token) :=
  Cutter.between.run? text

end NestedData.Json
