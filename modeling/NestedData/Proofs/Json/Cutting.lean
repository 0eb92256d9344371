import Mathlib.Tactic.SplitIfs
import NestedData.Json.Reader
import NestedData.Json.Writer

/-!
# Pieces of documents are read back

A document is read by two machines in a row: the cutter puts characters together to tokens, and the
reader takes one token after the other.  This module follows both at once along a text, and says for
every piece that a document is made of which token the reader is handed for it: for marks, for words
and numbers that something else follows, and for quoted texts, whose escapes are undone.

Main results:

- `resume?_mark`: a mark is a token of its own.
- `resume?_word`, `resume?_number`: a run of letters or of number characters is one token.
- `quotedStep?_escape`, `resume?_quote`: what is read from a quoted text is the text.
-/

namespace NestedData.Json

/-- Goes on reading a document: the rest of the text is cut into tokens, and these are read. -/
def resume? (cutter : Cutter) (state : State) (text : List Char) : Option State :=
  (cutter.run? text).bind fun tokens => tokens.foldlM State.step? state

variable {cutter next : Cutter} {state : State} {c : Char} {tokens : List Token}
  {collected rest : List Char}

@[simp]
theorem resume?_nil (state : State) : resume? .between state [] = some state := rfl

theorem resume?_cons (hstep : cutter.step? c = some (tokens, next)) :
    resume? cutter state (c :: rest) =
      (tokens.foldlM State.step? state).bind fun state => resume? next state rest := by
  simp only [resume?, Cutter.run?, hstep]
  cases next.run? rest with
  | none => simp
  | some later => simp [List.foldlM_append]

theorem resume?_collect (hstep : cutter.step? c = some ([], next)) :
    resume? cutter state (c :: rest) = resume? next state rest := by
  rw [resume?_cons hstep]
  rfl

/-- A mark is a token of its own. -/
theorem resume?_mark (c : Char) (token : Token)
    (hbegin : Cutter.begin? c = some ([token], .between)) :
    resume? .between state (c :: rest) =
      (state.step? token).bind fun state => resume? .between state rest := by
  have hstep : Cutter.between.step? c = some ([token], .between) := hbegin
  rw [resume?_cons hstep]
  simp

/-! ## Words and numbers -/

/-- A token that runs on until something else follows is read before what follows. -/
theorem resume?_end {token : Token} (hfinish : cutter.finish? = some [token])
    (hstep : ∀ c ∈ rest.head?,
      cutter.step? c = (Cutter.begin? c).map fun begun => (token :: begun.1, begun.2)) :
    resume? cutter state rest =
      (state.step? token).bind fun state => resume? .between state rest := by
  cases rest with
  | nil =>
    rw [resume?, Cutter.run?, hfinish]
    simp
  | cons c rest =>
    have hbetween : Cutter.between.step? c = Cutter.begin? c := rfl
    simp only [resume?, Cutter.run?, hstep c (by simp), hbetween]
    cases Cutter.begin? c with
    | none => simp
    | some begun =>
      rcases begun with ⟨tokens, next⟩
      simp only [Option.map_some]
      cases next.run? rest <;> simp

/-- The characters of a run are collected in reverse. -/
theorem resume?_run (collecting : List Char → Cutter) {run : List Char}
    (hcollect : ∀ c ∈ run, ∀ collected,
      (collecting collected).step? c = some ([], collecting (c :: collected))) :
    resume? (collecting collected) state (run ++ rest) =
      resume? (collecting (run.reverse ++ collected)) state rest := by
  induction run generalizing collected with
  | nil => rfl
  | cons c run ih =>
    rw [List.cons_append, resume?_collect (hcollect c List.mem_cons_self collected),
      ih fun other hother => hcollect other (List.mem_cons_of_mem _ hother)]
    simp

/-- A run of letters is a word, if something else follows. -/
theorem resume?_word {letters : List Char} (hbegin : Cutter.begin? c = some ([], .word [c]))
    (hletters : ∀ c ∈ letters, c.isAlpha = true) (hrest : ∀ c ∈ rest.head?, c.isAlpha = false) :
    resume? .between state (c :: (letters ++ rest)) =
      (state.step? (.word (c :: letters))).bind fun state => resume? .between state rest := by
  have hstep : Cutter.between.step? c = some ([], .word [c]) := hbegin
  have hcollect : ∀ c ∈ letters, ∀ collected,
      (Cutter.word collected).step? c = some ([], .word (c :: collected)) := by
    intro c hmem collected
    simp [Cutter.step?, hletters c hmem]
  rw [resume?_collect hstep, resume?_run Cutter.word hcollect]
  apply resume?_end
  · simp [Cutter.finish?]
  · intro c hmem
    simp [Cutter.step?, hrest c hmem]

/-- A digit or a minus sign begins a number. -/
theorem begin?_number (hc : c.isDigit = true ∨ c = '-') :
    Cutter.begin? c = some ([], .number [c]) := by
  rcases hc with hdigit | rfl
  · have hne (d : Char) (hother : d.isDigit = false) : c ≠ d := by
      rintro rfl
      rw [hdigit] at hother
      cases hother
    simp [Cutter.begin?, isSpace, hdigit, hne ' ' rfl, hne '\t' rfl, hne '\n' rfl, hne '\r' rfl,
      hne '[' rfl, hne ']' rfl, hne '\x7b' rfl, hne '\x7d' rfl, hne ':' rfl, hne ',' rfl,
      hne '"' rfl]
  · decide

/-- A run of number characters is a number, if something else follows. -/
theorem resume?_number {more : List Char} (hc : c.isDigit = true ∨ c = '-')
    (hmore : ∀ c ∈ more, isNumberPart c = true)
    (hrest : ∀ c ∈ rest.head?, isNumberPart c = false) :
    resume? .between state (c :: (more ++ rest)) =
      (state.step? (.number (c :: more))).bind fun state => resume? .between state rest := by
  have hstep : Cutter.between.step? c = some ([], .number [c]) := begin?_number hc
  have hcollect : ∀ c ∈ more, ∀ collected,
      (Cutter.number collected).step? c = some ([], .number (c :: collected)) := by
    intro c hmem collected
    simp [Cutter.step?, hmore c hmem]
  rw [resume?_collect hstep, resume?_run Cutter.number hcollect]
  apply resume?_end
  · simp [Cutter.finish?]
  · intro c hmem
    simp [Cutter.step?, hrest c hmem]

/-! ## Quoted texts -/

theorem hexDigit?_hexDigit {value : Nat} (hvalue : value < 16) :
    hexDigit? (hexDigit value) = some value := by
  decide +revert

theorem resume?_quoted {escape after : Escape} {now : List Char}
    (hquote : ¬(escape = .none ∧ c = '"'))
    (hstep : Cutter.quotedStep? collected escape c = some (.quoted now after)) :
    resume? (.quoted collected escape) state (c :: rest) =
      resume? (.quoted now after) state rest := by
  apply resume?_collect
  rw [Cutter.step?, if_neg hquote, hstep]
  rfl

/-- A character escaped by a letter is read. -/
theorem resume?_simpleEscape {letter : Char} (hletter : letter ≠ 'u')
    (hplain : simpleEscape? letter = some c) :
    resume? (.quoted collected .none) state ('\\' :: letter :: rest) =
      resume? (.quoted (c :: collected) .none) state rest := by
  have hbegun : Cutter.quotedStep? collected .none '\\' = some (.quoted collected .begun) := rfl
  have hended : Cutter.quotedStep? collected .begun letter =
      some (.quoted (c :: collected) .none) := by
    rw [Cutter.quotedStep?, if_neg hletter, hplain]
    rfl
  rw [resume?_quoted (by decide) hbegun, resume?_quoted (by simp) hended]

/-- A control character escaped by its code is read. -/
theorem resume?_controlEscape (hcontrol : c.toNat < 0x20) :
    resume? (.quoted collected .none) state
        ('\\' :: 'u' :: '0' :: '0' :: hexDigit (c.toNat / 16) :: hexDigit (c.toNat % 16) :: rest) =
      resume? (.quoted (c :: collected) .none) state rest := by
  have hunit (digits value : Nat) (hdigits : digits ≠ 3) {digit : Nat} (hdigit : digit < 16) :
      Cutter.quotedStep? collected (.unit none digits value) (hexDigit digit) =
        some (.quoted collected (.unit none (digits + 1) (16 * value + digit))) := by
    simp [Cutter.quotedStep?, hexDigit?_hexDigit hdigit, hdigits]
  have hlast : Cutter.quotedStep? collected (.unit none 3 (c.toNat / 16))
      (hexDigit (c.toNat % 16)) = some (.quoted (c :: collected) .none) := by
    have hvalue : 16 * (c.toNat / 16) + c.toNat % 16 = c.toNat := Nat.div_add_mod c.toNat 16
    have hhigh : isHighHalf c.toNat = false := by
      simp [isHighHalf]
      omega
    have hlow : isLowHalf c.toNat = false := by
      simp [isLowHalf]
      omega
    simp [Cutter.quotedStep?, hexDigit?_hexDigit (Nat.mod_lt _ (by decide : 0 < 16)),
      Cutter.endUnit?, hvalue, hhigh, hlow]
  have hzero : '0' = hexDigit 0 := by decide
  have hbegun : Cutter.quotedStep? collected .none '\\' = some (.quoted collected .begun) := rfl
  have hcode : Cutter.quotedStep? collected .begun 'u' =
      some (.quoted collected (.unit none 0 0)) := rfl
  have hsmall : c.toNat / 16 < 16 := by omega
  rw [resume?_quoted (by decide) hbegun, resume?_quoted (by simp) hcode, hzero,
    resume?_quoted (by simp) (hunit 0 0 (by decide) (by decide)),
    resume?_quoted (by simp) (hunit 1 0 (by decide) (by decide)),
    resume?_quoted (by simp) (hunit 2 0 (by decide) hsmall),
    Nat.mul_zero, Nat.zero_add, resume?_quoted (by simp) hlast]

/-- What is written for a character inside quotes is read as that character. -/
theorem resume?_escape (c : Char) :
    resume? (.quoted collected .none) state (escape c ++ rest) =
      resume? (.quoted (c :: collected) .none) state rest := by
  unfold escape
  split_ifs with hquote hbackslash hback hfeed hline hreturn htab hcontrol
  -- Seven characters have a letter of their own.
  · subst hquote
    exact resume?_simpleEscape (by decide) rfl
  · subst hbackslash
    exact resume?_simpleEscape (by decide) rfl
  · subst hback
    exact resume?_simpleEscape (by decide) rfl
  · subst hfeed
    exact resume?_simpleEscape (by decide) rfl
  · subst hline
    exact resume?_simpleEscape (by decide) rfl
  · subst hreturn
    exact resume?_simpleEscape (by decide) rfl
  · subst htab
    exact resume?_simpleEscape (by decide) rfl
  · exact resume?_controlEscape hcontrol
  · refine resume?_quoted (by simp [hquote]) ?_
    rw [Cutter.quotedStep?, if_neg hbackslash, if_neg hcontrol]

/-- A quoted text is read as the text. -/
theorem resume?_quote (content : String) :
    resume? .between state (quote content ++ rest) =
      (state.step? (.quoted content.toList)).bind fun state => resume? .between state rest := by
  have hletters (letters collected : List Char) :
      resume? (.quoted collected .none) state (letters.flatMap escape ++ '"' :: rest) =
        (state.step? (.quoted (collected.reverse ++ letters))).bind
          fun state => resume? .between state rest := by
    induction letters generalizing collected with
    | nil =>
      have hend : (Cutter.quoted collected .none).step? '"' =
          some ([.quoted collected.reverse], .between) := rfl
      rw [List.flatMap_nil, List.nil_append, resume?_cons hend]
      simp
    | cons c letters ih =>
      rw [List.flatMap_cons, List.append_assoc, resume?_escape, ih]
      simp
  have hbegin : Cutter.between.step? '"' = some ([], .quoted [] .none) := rfl
  rw [quote, List.append_assoc, List.cons_append, resume?_collect hbegin]
  exact hletters content.toList []

end NestedData.Json
