import Mathlib.Algebra.Group.Nat.Defs
import Mathlib.Data.List.Forall2
import NestedData.Path.Basic
import NestedData.Proofs.Text.Trimming

/-!
# The grammar of paths

This module gives the grammar of the texts that spell paths, with the segments that
every phrase denotes.  Phrases are texts, and the grammar says how they are put
together; nothing in it says how a text is split.

Main results:

- `Grammar.Inner`: a text spells a selector between brackets.
- `Grammar.Derives`: a text spells a path.
-/

namespace NestedData.Grammar

open Text (Blank)

/-! ## Phrases between brackets -/

/-- One or more decimal digits denote a number. -/
inductive Digits : List Char → Nat → Prop
  /-- A single digit. -/
  | digit {c : Char} (hdigit : c.isDigit = true) : Digits [c] (c.toNat - '0'.toNat)
  /-- One more digit at the end. -/
  | more {text : List Char} {n : Nat} {c : Char} (htext : Digits text n)
      (hdigit : c.isDigit = true) : Digits (text ++ [c]) (10 * n + (c.toNat - '0'.toNat))

/-- A numeral that may carry a plus sign. -/
inductive Unsigned : List Char → Nat → Prop
  | plain {text : List Char} {n : Nat} (htext : Digits text n) : Unsigned text n
  | plus {text : List Char} {n : Nat} (htext : Digits text n) : Unsigned ('+' :: text) n

/-- A numeral that may carry a plus or a minus sign. -/
inductive Signed : List Char → Int → Prop
  | plain {text : List Char} {n : Nat} (htext : Digits text n) : Signed text n
  | plus {text : List Char} {n : Nat} (htext : Digits text n) : Signed ('+' :: text) n
  | minus {text : List Char} {n : Nat} (htext : Digits text n) : Signed ('-' :: text) (-n)

/-- What follows the opening mark of a quoted name, with the characters of the name. -/
inductive QuotedRest (mark : Char) : List Char → List Char → Prop
  /-- The closing mark. -/
  | close : QuotedRest mark [mark] []
  /-- A backslash makes the next character an ordinary one. -/
  | escaped (c : Char) {rest name : List Char} (hrest : QuotedRest mark rest name) :
      QuotedRest mark ('\\' :: c :: rest) (c :: name)
  /-- Any other character stands for itself. -/
  | plain {c : Char} {rest name : List Char} (hbackslash : c ≠ '\\') (hmark : c ≠ mark)
      (hrest : QuotedRest mark rest name) : QuotedRest mark (c :: rest) (c :: name)

/-- A name between two quotation marks of one sort. -/
inductive Quoted : List Char → String → Prop
  | single {rest name : List Char} (hrest : QuotedRest '\'' rest name) :
      Quoted ('\'' :: rest) (String.ofList name)
  | double {rest name : List Char} (hrest : QuotedRest '"' rest name) :
      Quoted ('"' :: rest) (String.ofList name)

/-- An entry of a union: a quoted name or a position of the unsigned 64-bit range,
with blanks around it. -/
inductive Entry : List Char → Selector → Prop
  | key {before text after : List Char} {name : String} (hbefore : Blank before)
      (htext : Quoted text name) (hafter : Blank after) :
      Entry (before ++ text ++ after) (.key name)
  | index {before text after : List Char} {position : Nat} (hbefore : Blank before)
      (htext : Unsigned text position) (hfits : position < 2 ^ 64) (hafter : Blank after) :
      Entry (before ++ text ++ after) (.index position)

/-- A part of a slice: an integer of the signed 64-bit range or nothing, with blanks
around it. -/
inductive Part : List Char → Option Int64 → Prop
  | absent {text : List Char} (htext : Blank text) : Part text none
  | bound {before text after : List Char} {word : Int64} (hbefore : Blank before)
      (htext : Signed text word.toInt) (hafter : Blank after) :
      Part (before ++ text ++ after) (some word)

/-- Two or three parts with colons between them. -/
inductive Slice : List Char → Option Int64 → Option Int64 → Option Int64 → Prop
  | two {first second : List Char} {start stop : Option Int64} (hfirst : Part first start)
      (hsecond : Part second stop) : Slice (first ++ ':' :: second) start stop none
  | three {first second third : List Char} {start stop step : Option Int64}
      (hfirst : Part first start) (hsecond : Part second stop) (hthird : Part third step) :
      Slice (first ++ ':' :: (second ++ ':' :: third)) start stop step

/-- What stands between two brackets, apart from blanks around it. -/
inductive Inner : List Char → Segment → Prop
  | star : Inner ['*'] .wildcard
  | key {text : List Char} {name : String} (htext : Quoted text name) : Inner text (.key name)
  /-- Two or more entries with commas between them. -/
  | union {texts : List (List Char)} {selectors : List Selector} (hmany : 2 ≤ texts.length)
      (hentries : List.Forall₂ Entry texts selectors) :
      Inner ([','].intercalate texts) (.union selectors)
  /-- A slice without any bound selects every child. -/
  | everything {text : List Char} (htext : Slice text none none none) : Inner text .wildcard
  | slice {text : List Char} {start stop step : Option Int64} (htext : Slice text start stop step)
      (hsome : start.isSome ∨ stop.isSome ∨ step.isSome) : Inner text (.slice start stop step)
  | index {text : List Char} {position : Nat} (htext : Signed text position)
      (hfits : position ≤ 2 ^ 63 - 1) : Inner text (.index position)

/-- A selector in brackets, with blanks around what stands between them. -/
inductive Bracket : List Char → Segment → Prop
  | intro {before text after : List Char} {segment : Segment} (hbefore : Blank before)
      (htext : Inner text segment) (hafter : Blank after) :
      Bracket ('[' :: (before ++ text ++ after) ++ [']']) segment

/-! ## Paths -/

/-- Any number of selectors in brackets. -/
inductive Brackets : List Char → List Segment → Prop
  | none : Brackets [] []
  | more {text rest : List Char} {segment : Segment} {segments : List Segment}
      (htext : Bracket text segment) (hrest : Brackets rest segments) :
      Brackets (text ++ rest) (segment :: segments)

/-- A segment without brackets: the root mark, which starts a path, the star, or a
name without reserved characters. -/
inductive Bare (atStart : Bool) : List Char → Segment → Prop
  | root (hstart : atStart = true) : Bare atStart ['$'] .root
  | star : Bare atStart ['*'] .wildcard
  | key {text : List Char} (hne : text ≠ []) (hroot : text ≠ ['$']) (hstar : text ≠ ['*'])
      (hplain : ∀ c ∈ text, c ∉ ['.', '[', ']', '\'', '"', ' ']) :
      Bare atStart text (.key (String.ofList text))

/-- A bare segment with any number of selectors in brackets, or one or more of these
alone. -/
inductive Compound (atStart : Bool) : List Char → List Segment → Prop
  | bare {text rest : List Char} {segment : Segment} {segments : List Segment}
      (htext : Bare atStart text segment) (hrest : Brackets rest segments) :
      Compound atStart (text ++ rest) (segment :: segments)
  | brackets {text rest : List Char} {segment : Segment} {segments : List Segment}
      (htext : Bracket text segment) (hrest : Brackets rest segments) :
      Compound atStart (text ++ rest) (segment :: segments)

/-- Compounds with dots between them; only the first may start the path. -/
inductive Group : Bool → List Char → List Segment → Prop
  | last {atStart : Bool} {text : List Char} {segments : List Segment}
      (htext : Compound atStart text segments) : Group atStart text segments
  | more {atStart : Bool} {text rest : List Char} {segments others : List Segment}
      (htext : Compound atStart text segments) (hrest : Group false rest others) :
      Group atStart (text ++ '.' :: rest) (segments ++ others)

/-- Any number of groups, each after two dots. -/
inductive Searches : List Char → List (List Segment) → Prop
  | none : Searches [] []
  | more {text rest : List Char} {group : List Segment} {groups : List (List Segment)}
      (htext : Group false text group) (hrest : Searches rest groups) :
      Searches ('.' :: '.' :: (text ++ rest)) (group :: groups)

/-- A text spells a path: it is empty, or it is a group and then searches, where the
group may be missing if there is a search. -/
inductive Derives : List Char → Path → Prop
  | empty : Derives [] { first := [], searches := [] }
  | groups {text rest : List Char} {first : List Segment} {searches : List (List Segment)}
      (htext : Group true text first) (hrest : Searches rest searches) :
      Derives (text ++ rest) { first, searches }
  | searches {text : List Char} {searches : List (List Segment)} (hne : searches ≠ [])
      (htext : Searches text searches) : Derives text { first := [], searches }

end NestedData.Grammar
