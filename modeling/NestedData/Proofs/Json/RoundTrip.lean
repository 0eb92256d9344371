import NestedData.Proofs.Json.Numbers
import NestedData.Proofs.Json.Trees
import NestedData.Proofs.Value.Assembly

/-!
# The writer and the reader make up a faithful library

The proof follows the reader through the document of a tree that stands anywhere inside another
document: it goes on behind the tree as if the tree had been handed to the innermost open container at
once.  How many containers may be open bounds how deep the tree may be nested there.

Main results:

- `resume?_items`, `resume?_entries`: the elements of a list and the entries of a map are read one after
  the other.
- `readsInside_of_wellFormed`: a document inside another one is read as its tree.
- `exact_faithful`: the writer and the reader keep the laws of a library.
-/

namespace NestedData.Json

variable {state : State} {frames : List Frame} {tree : Tree} {rest : List Char} {token : Token}

/-! ## Where a value or a key is expected -/

/-- The reader expects a value for the innermost of some open containers. -/
inductive AwaitsValue : State → List Frame → Prop
  | next (frames : List Frame) : AwaitsValue (.nextValue frames) frames
  | first (frames : List Frame) : AwaitsValue (.firstItem frames) (.items #[] :: frames)

/-- The reader expects a key in a map of which some entries have been read. -/
inductive AwaitsKey : State → Entries Tree → List Frame → Prop
  | first (frames : List Frame) : AwaitsKey (.firstKey frames) [] frames
  | next (done : Entries Tree) (frames : List Frame) : AwaitsKey (.nextKey done frames) done frames

theorem AwaitsValue.step?_eq (hstate : AwaitsValue state frames) (htoken : token ≠ .closeList) :
    state.step? token = State.beginValue? frames token := by
  cases hstate with
  | next => rfl
  | first => rw [State.step?, if_neg htoken]

theorem AwaitsKey.step?_eq {done : Entries Tree} (hstate : AwaitsKey state done frames)
    (key : String) : state.step? (.quoted key.toList) = some (.afterKey done key frames) := by
  cases hstate <;> simp [State.step?]

/-- What stands behind a value in a document does not go on with a word or a number. -/
def Follows (rest : List Char) : Prop :=
  ∀ c ∈ rest.head?, isNumberPart c = false ∧ c.isAlpha = false

/-- The document of a tree is read as the tree, wherever it stands inside another document and not
too many containers are open. -/
def ReadsInside (tree : Tree) : Prop :=
  ∀ {state frames rest}, AwaitsValue state frames → frames.length + tree.nesting ≤ depthLimit →
    Follows rest →
      resume? .between state (write tree ++ rest) =
        resume? .between (.complete tree frames) rest

/-! ## Scalars -/

/-- A word is read as its value. -/
theorem resume?_wordValue {c : Char} {letters : List Char}
    (hbegin : Cutter.begin? c = some ([], .word [c])) (hletters : letters.all Char.isAlpha = true)
    (hvalue : wordValue? (c :: letters) = some tree) (hstate : AwaitsValue state frames)
    (hrest : Follows rest) :
    resume? .between state (c :: (letters ++ rest)) =
      resume? .between (.complete tree frames) rest := by
  rw [resume?_word hbegin (List.all_eq_true.mp hletters) fun c hc => (hrest c hc).2,
    hstate.step?_eq (by simp), State.beginValue?, hvalue]
  rfl

/-- A number is read back. -/
theorem resume?_writeNumber (number : Number) (hstate : AwaitsValue state frames)
    (hrest : Follows rest) :
    resume? .between state (writeNumber number ++ rest) =
      resume? .between (.complete (.number number) frames) rest := by
  obtain ⟨numeral, hspell, hstrict, hdigits, hvalue⟩ := exists_numeral number
  rw [hspell, resume?_spell hstrict hdigits fun c hc => (hrest c hc).1, hstate.step?_eq (by simp),
    State.beginValue?, hvalue]
  rfl

/-! ## Containers -/

theorem follows_cons {c : Char} (hc : isNumberPart c = false ∧ c.isAlpha = false)
    (rest : List Char) : Follows (c :: rest) := by
  intro other hother
  exact Option.some.inj hother ▸ hc

/-- The elements of a list are read one after the other, and the list is finished behind them. -/
theorem resume?_items {items : List Tree} (hitems : ∀ item ∈ items, ReadsInside item)
    (hsome : items ≠ []) {done : Array Tree} (hstate : AwaitsValue state (.items done :: frames))
    (hdepth : ∀ item ∈ items, frames.length + item.nesting < depthLimit) :
    resume? .between state ([','].intercalate (items.map write) ++ ']' :: rest) =
      resume? .between (.complete (.list (done ++ items.toArray)) frames) rest := by
  induction items generalizing state done with
  | nil => exact absurd rfl hsome
  | cons item more ih =>
    have hopen : (Frame.items done :: frames).length + item.nesting ≤ depthLimit := by
      have hitem := hdepth item List.mem_cons_self
      rw [List.length_cons]
      omega
    have hread (c : Char) (hc : isNumberPart c = false ∧ c.isAlpha = false) (rest : List Char) :
        resume? .between state (write item ++ c :: rest) =
          resume? .between (.afterItem (done.push item) frames) (c :: rest) :=
      hitems item List.mem_cons_self hstate hopen (follows_cons hc rest)
    cases more with
    | nil =>
      rw [List.map_singleton, List.intercalate_singleton, hread ']' (by decide),
        resume?_mark ']' .closeList rfl]
      simp [State.step?]
    | cons next later =>
      rw [List.map_cons, List.map_cons, List.intercalate_cons_cons, List.append_assoc,
        List.append_assoc, List.singleton_append, hread ',' (by decide),
        resume?_mark ',' .comma rfl]
      refine (ih (fun other hother => hitems other (List.mem_cons_of_mem _ hother)) (by simp)
        (.next _) fun other hother => hdepth other (List.mem_cons_of_mem _ hother)).trans ?_
      simp

/-- The entries of a map are read one after the other, and the map is finished behind them. -/
theorem resume?_entries {entries : Entries Tree} (hentries : ∀ entry ∈ entries, ReadsInside entry.2)
    (hsome : entries ≠ []) {done : Entries Tree} (hkeys : (Entries.keys (done ++ entries)).Nodup)
    (hstate : AwaitsKey state done frames)
    (hdepth : ∀ entry ∈ entries, frames.length + entry.2.nesting < depthLimit) :
    resume? .between state ([','].intercalate
        (entries.map fun entry => quote entry.1 ++ ':' :: write entry.2) ++ '\x7d' :: rest) =
      resume? .between (.complete (.map (done ++ entries)) frames) rest := by
  induction entries generalizing state done with
  | nil => exact absurd rfl hsome
  | cons entry more ih =>
    obtain ⟨key, value⟩ := entry
    have hopen : (Frame.entry done key :: frames).length + value.nesting ≤ depthLimit := by
      have hentry : frames.length + value.nesting < depthLimit :=
        hdepth (key, value) List.mem_cons_self
      rw [List.length_cons]
      omega
    have hnew : key ∉ Entries.keys done := by
      intro hold
      rw [Entries.keys, List.map_append] at hkeys
      exact List.disjoint_of_nodup_append hkeys hold (by simp)
    have hread (c : Char) (hc : isNumberPart c = false ∧ c.isAlpha = false) (rest : List Char) :
        resume? .between state (quote key ++ ':' :: write value ++ c :: rest) =
          resume? .between (.afterEntry (done ++ [(key, value)]) frames) (c :: rest) := by
      rw [List.append_assoc, resume?_quote, hstate.step?_eq, Option.bind_some, List.cons_append,
        resume?_mark ':' .colon rfl]
      refine (hentries (key, value) List.mem_cons_self (.next _) hopen
        (follows_cons hc rest)).trans ?_
      rw [State.complete, Entries.insert_of_not_mem hnew]
    cases more with
    | nil =>
      rw [List.map_singleton, List.intercalate_singleton, hread '\x7d' (by decide),
        resume?_mark '\x7d' .closeMap rfl]
      simp [State.step?]
    | cons next later =>
      rw [List.map_cons, List.map_cons, List.intercalate_cons_cons, List.append_assoc,
        List.append_assoc, List.singleton_append, hread ',' (by decide),
        resume?_mark ',' .comma rfl]
      refine (ih (fun other hother => hentries other (List.mem_cons_of_mem _ hother)) (by simp)
        (by simpa using hkeys) (.next _ _)
        fun other hother => hdepth other (List.mem_cons_of_mem _ hother)).trans ?_
      simp

/-! ## Documents -/

/-- The document of a well-formed tree is read back inside any other. -/
theorem readsInside_of_wellFormed (htree : tree.WellFormed) : ReadsInside tree := by
  induction htree with
  | null =>
    intro state frames rest hstate _ hrest
    rw [write]
    exact resume?_wordValue rfl rfl rfl hstate hrest
  | bool truth =>
    intro state frames rest hstate _ hrest
    rw [write]
    cases truth with
    | true => exact resume?_wordValue rfl rfl rfl hstate hrest
    | false => exact resume?_wordValue rfl rfl rfl hstate hrest
  | number value =>
    intro state frames rest hstate _ hrest
    rw [write]
    exact resume?_writeNumber value hstate hrest
  | text content =>
    intro state frames rest hstate _ hrest
    rw [write, resume?_quote, hstate.step?_eq (by simp), State.beginValue?]
    simp
  | @list items hitems ih =>
    intro state frames rest hstate hdepth _
    have hnested : ∀ item ∈ items.toList, frames.length + item.nesting < depthLimit := by
      intro item hmem
      have hitem := Tree.nesting_item_lt (Array.mem_toList_iff.mp hmem)
      omega
    have hroom : frames.length < depthLimit := by
      rw [Tree.nesting] at hdepth
      omega
    rw [write, List.append_assoc, List.cons_append, resume?_mark '[' .openList rfl,
      hstate.step?_eq (by simp), State.beginValue?, if_pos hroom, Option.bind_some,
      Array.toList_map]
    by_cases hsome : items.toList = []
    · obtain rfl : items = #[] := Array.toList_eq_nil_iff.mp hsome
      exact resume?_mark ']' .closeList rfl
    · refine (resume?_items (fun item hmem => ih item (Array.mem_toList_iff.mp hmem)) hsome
        (.first frames) hnested).trans ?_
      simp
  | @map entries hkeys hentries ih =>
    intro state frames rest hstate hdepth _
    have hnested : ∀ entry ∈ entries, frames.length + entry.2.nesting < depthLimit := by
      intro entry hmem
      have hentry := Tree.nesting_entry_lt hmem
      omega
    have hroom : frames.length < depthLimit := by
      rw [Tree.nesting] at hdepth
      omega
    rw [write, List.append_assoc, List.cons_append, resume?_mark '\x7b' .openMap rfl,
      hstate.step?_eq (by simp), State.beginValue?, if_pos hroom, Option.bind_some]
    by_cases hsome : entries = []
    · subst hsome
      exact resume?_mark '\x7d' .closeMap rfl
    · have hall : (Entries.keys ([] ++ entries)).Nodup := hkeys
      exact resume?_entries ih hsome hall (.first frames) hnested

theorem read?_of_resume? {text : List Char}
    (hfinished : resume? .between (.nextValue []) text = some (.finished tree)) :
    read? text = some tree := by
  obtain ⟨tokens, htokens, hstate⟩ := Option.bind_eq_some_iff.mp hfinished
  rw [read?, tokens?, htokens]
  simp [hstate]

/-- The document of a well-formed tree that is not nested too deep is read as that tree. -/
theorem read?_write (htree : tree.WellFormed) (hdepth : tree.nesting ≤ depthLimit) :
    read? (write tree) = some tree := by
  apply read?_of_resume?
  have hopen : ([] : List Frame).length + tree.nesting ≤ depthLimit := by
    simpa using hdepth
  have hend : Follows [] := by
    simp [Follows]
  have hread := readsInside_of_wellFormed htree (.next []) hopen hend
  rwa [List.append_nil] at hread

theorem exact_readsBack (htree : tree.WellFormed) (hdepth : tree.nesting ≤ depthLimit) :
    exact.ReadsBack tree := by
  simp only [Library.ReadsBack, exact, String.toList_ofList, read?_write htree hdepth]

/-- The writer and the reader keep the laws of a library. -/
theorem exact_faithful : exact.Faithful where
  null := exact_readsBack .null (by simp [Tree.nesting])
  bool := fun truth => exact_readsBack (.bool truth) (by simp [Tree.nesting])
  whole := fun _ _ => exact_readsBack (.number _) (by simp [Tree.nesting])
  float := fun _ _ => exact_readsBack (.number _) (by simp [Tree.nesting])
  text := fun content => exact_readsBack (.text content) (by simp [Tree.nesting])
  list := fun _ htree hdepth _ => exact_readsBack htree hdepth
  map := fun _ htree hdepth _ => exact_readsBack htree hdepth

end NestedData.Json
