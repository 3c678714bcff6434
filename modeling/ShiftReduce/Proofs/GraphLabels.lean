/-
  The labels of a graph can be read back from its text.

  A backslash and the character behind it are one glyph (`glyphs`). What is escaped has a glyph
  for each of its characters, none of which is a bare quote or the end of a line
  (`glyphs_escape_append`). So the glyphs of a label, cut at the ends of lines, are its lines
  (`lines_glyphs_label`), and the quote behind a label is the first one that ends it
  (`read_quoted`). Between the labels a graph has neither quotes nor backslashes, so what stands
  between its quotes is the labels, one after the other (`read_labelled`): the items of the
  states, then the names on the arrows (`labels_dot`).
-/
import Mathlib.Data.List.Forall2
import ShiftReduce.Report.Dot
import ShiftReduce.Proofs.Table.Pruned

namespace ShiftReduce

namespace Dot

/-! ### Glyphs -/

/-- What a text in a graph is made of: characters, and escapes of characters. -/
inductive Glyph where
  | plain (c : Char)
  | escaped (c : Char)
deriving DecidableEq, Repr

/-- The character that a glyph stands for. -/
def Glyph.char : Glyph → Char
  | plain c => c
  | escaped c => c

/-- The glyphs of a text, where a backslash escapes the character behind it. At the end of the
text there is nothing to escape. -/
def glyphs : List Char → List Glyph
  | [] => []
  | [c] => [.plain c]
  | c :: d :: rest => if c = '\\' then .escaped d :: glyphs rest else .plain c :: glyphs (d :: rest)

/-- The lines of a label: it is cut where an `l` is escaped, and any other escape stands for its
character. -/
def lines (label : List Glyph) : List String :=
  (label.splitOn (.escaped 'l')).map fun line => String.ofList (line.map Glyph.char)

/-- Every other member of a list, from the second one on. -/
def seconds {α : Type} : List α → List α
  | _ :: second :: rest => second :: seconds rest
  | _ => []

/-- The labels in the text of a graph, which stand between the quotes that are not escaped. -/
def read (text : List Char) : List (List String) :=
  (seconds ((glyphs text).splitOn (.plain '"'))).map lines

/-- The labels of a graph, each as its lines. -/
def labels (graph : String) : List (List String) := read graph.toList

theorem glyphs_escape (c : Char) (rest : List Char) :
    glyphs ('\\' :: c :: rest) = .escaped c :: glyphs rest := by
  rw [glyphs, if_pos rfl]

theorem glyphs_cons {c : Char} (bare : c ≠ '\\') (rest : List Char) :
    glyphs (c :: rest) = .plain c :: glyphs rest := by
  cases rest with
  | nil => rfl
  | cons d rest => rw [glyphs, if_neg bare]

/-! ### Escaping -/

/-- A text with a backslash before every occurrence of a character. -/
def guarded (mark : Char) (text : List Char) : List Char :=
  text.flatMap fun c => if c = mark then ['\\', c] else [c]

/-- Escaping guards the backslashes, and then the quotes with backslashes of their own. -/
theorem toList_escape_eq_guarded (text : String) :
    (escape text).toList = guarded '"' (guarded '\\' text.toList) := by
  rw [escape, String.toList_ofList, guarded, guarded, List.flatMap_assoc]
  congr 1
  funext c
  unfold escapeChar
  by_cases backslash : c = '\\'
  · rw [backslash]
    decide
  · by_cases quote : c = '"' <;> simp [backslash, quote]

-- the other way round, the backslash that guards a quote would be guarded as well
example : guarded '\\' (guarded '"' ['"']) = ['\\', '\\', '"'] := by decide

namespace Glyph

/-- The glyph of a character, which is escaped if it has to be. -/
def ofChar (c : Char) : Glyph := if c = '\\' ∨ c = '"' then .escaped c else .plain c

/-- The glyphs of the characters of a text. -/
def ofText (text : String) : List Glyph := text.toList.map ofChar

@[simp] theorem char_ofChar (c : Char) : (ofChar c).char = c := by
  unfold ofChar
  split <;> rfl

theorem ofChar_ne_quote (c : Char) : ofChar c ≠ .plain '"' := by
  unfold ofChar
  split
  · exact Glyph.noConfusion
  · rintro ⟨rfl⟩
    simp_all

theorem ofChar_ne_lineEnd (c : Char) : ofChar c ≠ .escaped 'l' := by
  unfold ofChar
  split
  · rintro ⟨rfl⟩
    simp_all
  · exact Glyph.noConfusion

theorem ofList_map_char_ofText (text : String) :
    String.ofList ((ofText text).map char) = text := by
  simp [ofText, Function.comp_def]

theorem quote_notMem_ofText (text : String) : .plain '"' ∉ ofText text := by
  rw [ofText, List.mem_map]
  rintro ⟨c, -, same⟩
  exact ofChar_ne_quote c same

theorem lineEnd_notMem_ofText (text : String) : .escaped 'l' ∉ ofText text := by
  rw [ofText, List.mem_map]
  rintro ⟨c, -, same⟩
  exact ofChar_ne_lineEnd c same

end Glyph

theorem glyphs_escapeChar_append (c : Char) (rest : List Char) :
    glyphs (escapeChar c ++ rest) = Glyph.ofChar c :: glyphs rest := by
  unfold escapeChar Glyph.ofChar
  by_cases backslash : c = '\\'
  · simp [backslash, glyphs_escape]
  · by_cases quote : c = '"'
    · simp [quote, glyphs_escape]
    · simp [backslash, quote, glyphs_cons]

/-- What is escaped has a glyph for each of its characters, whatever is behind it. -/
theorem glyphs_escape_append (text : String) (rest : List Char) :
    glyphs ((escape text).toList ++ rest) = Glyph.ofText text ++ glyphs rest := by
  rw [escape, String.toList_ofList, Glyph.ofText]
  induction text.toList with
  | nil => rfl
  | cons c chars ih =>
    rw [List.flatMap_cons, List.append_assoc, glyphs_escapeChar_append, ih, List.map_cons,
      List.cons_append]

/-! ### Labels -/

theorem label_singleton (text : String) : label [text] = escape text :=
  String.intercalate_singleton

theorem label_append {texts others : List String} (left : texts ≠ []) (right : others ≠ []) :
    label (texts ++ others) = label texts ++ "\\l" ++ label others := by
  rw [label, List.map_append,
    String.intercalate_append_of_ne_nil (by simpa using left) (by simpa using right), label, label]

/-- A label is made of its lines, all of them guarded, with the end of a line between any two. -/
theorem toList_label (texts : List String) :
    (label texts).toList =
      ['\\', 'l'].intercalate (texts.map fun text => guarded '"' (guarded '\\' text.toList)) := by
  rw [label, String.toList_intercalate, List.map_map]
  exact congrArg _ (List.map_congr_left fun text _ => toList_escape_eq_guarded text)

/-- The glyphs of a label are those of its lines, with the end of a line between any two, whatever
is behind it. -/
theorem glyphs_label_append (texts : List String) (rest : List Char) :
    glyphs ((label texts).toList ++ rest) =
      [.escaped 'l'].intercalate (texts.map Glyph.ofText) ++ glyphs rest := by
  induction texts with
  | nil => rfl
  | cons text texts ih =>
    -- the end of a line stands between two lines, so there is none behind the last one
    cases texts with
    | nil =>
      rw [label_singleton, glyphs_escape_append, List.map_singleton, List.intercalate_singleton]
    | cons next texts =>
      have first : (label (text :: next :: texts)).toList ++ rest =
          (escape text).toList ++ '\\' :: 'l' :: ((label (next :: texts)).toList ++ rest) := by
        rw [← List.singleton_append,
          label_append (List.cons_ne_nil _ _) (List.cons_ne_nil _ _), label_singleton]
        simp
      rw [first, glyphs_escape_append, glyphs_escape, ih]
      simp only [List.map_cons, List.intercalate_cons_cons, List.append_assoc, List.cons_append,
        List.nil_append]

theorem glyphs_label (texts : List String) :
    glyphs (label texts).toList = [.escaped 'l'].intercalate (texts.map Glyph.ofText) := by
  have all := glyphs_label_append texts []
  rwa [List.append_nil, glyphs, List.append_nil] at all

/-- No quote in a label is bare. -/
theorem quote_notMem_glyphs_label (texts : List String) :
    .plain '"' ∉ glyphs (label texts).toList := by
  rw [glyphs_label]
  induction texts with
  | nil => exact List.not_mem_nil
  | cons text texts ih =>
    have first := Glyph.quote_notMem_ofText text
    cases texts with
    | nil => rwa [List.map_singleton, List.intercalate_singleton]
    | cons next texts =>
      rw [List.map_cons] at ih
      rw [List.map_cons, List.map_cons, List.intercalate_cons_cons]
      simp [first, ih]

/-- A label that has lines is cut into these. -/
theorem lines_glyphs_label {texts : List String} (nonempty : texts ≠ []) :
    lines (glyphs (label texts).toList) = texts := by
  have apart : ∀ line ∈ texts.map Glyph.ofText, .escaped 'l' ∉ line := by
    rw [List.forall_mem_map]
    exact fun text _ => Glyph.lineEnd_notMem_ofText text
  have lined : texts.map Glyph.ofText ≠ [] := by simpa using nonempty
  rw [lines, glyphs_label, List.splitOn_intercalate _ apart lined, List.map_map]
  exact List.map_id'' Glyph.ofList_map_char_ofText texts

-- a label of no lines could not be told from that of an empty line
example : label [] = label [""] := by decide

/-! ### Graphs -/

/-- A stretch of a graph with neither quotes nor backslashes. -/
def Bare (text : List Char) : Prop := ∀ c ∈ text, c ≠ '\\' ∧ c ≠ '"'

instance (text : List Char) : Decidable (Bare text) := List.decidableBAll _ text

theorem Bare.append {text more : List Char} (bare : Bare text) (bareMore : Bare more) :
    Bare (text ++ more) :=
  List.forall_mem_append.mpr ⟨bare, bareMore⟩

theorem bare_append {front behind : String} (bareFront : Bare front.toList)
    (bareBehind : Bare behind.toList) : Bare (front ++ behind).toList := by
  rw [String.toList_append]
  exact bareFront.append bareBehind

/-- A number is written in digits. -/
theorem bare_number (n : Nat) : Bare (toString n).toList := by
  intro c mem
  rw [Nat.toString_eq_repr, Nat.toList_repr] at mem
  have digit : c.isDigit = true := Nat.isDigit_of_mem_toDigits (by decide) (by decide) mem
  constructor <;> rintro rfl <;> exact absurd digit (by decide)

/-- A bare stretch is not changed by escaping. -/
theorem flatMap_escapeChar_of_bare {text : List Char} (bare : Bare text) :
    text.flatMap escapeChar = text := by
  induction text with
  | nil => rfl
  | cons c text ih =>
    obtain ⟨⟨backslash, quote⟩, more⟩ := List.forall_mem_cons.mp bare
    rw [List.flatMap_cons, ih more, escapeChar, if_neg backslash, if_neg quote,
      List.singleton_append]

theorem escape_bare_append {front : String} (bare : Bare front.toList) (text : String) :
    escape (front ++ text) = front ++ escape text := by
  rw [escape, String.toList_append, List.flatMap_append, flatMap_escapeChar_of_bare bare,
    String.ofList_append, String.ofList_toList, escape]

/-- A bare text in front of a label stands in front of its first line. -/
theorem label_modifyHead {front : String} (bare : Bare front.toList) {texts : List String}
    (nonempty : texts ≠ []) : label (texts.modifyHead (front ++ ·)) = front ++ label texts := by
  cases texts with
  | nil => exact absurd rfl nonempty
  | cons text texts =>
    rw [List.modifyHead_cons, label, List.map_cons, escape_bare_append bare,
      String.intercalate_cons_append, label, List.map_cons]

theorem glyphs_bare_append {text : List Char} (bare : Bare text) (rest : List Char) :
    glyphs (text ++ rest) = text.map .plain ++ glyphs rest := by
  induction text with
  | nil => rfl
  | cons c text ih =>
    obtain ⟨first, more⟩ := List.forall_mem_cons.mp bare
    rw [List.cons_append, glyphs_cons first.1, ih more, List.map_cons, List.cons_append]

theorem seconds_modifyHead {α : Type} (f : α → α) (l : List α) :
    seconds (l.modifyHead f) = seconds l := by
  cases l with
  | nil => rfl
  | cons first l => cases l <;> rfl

/-- What is in front of the first stop makes the first piece longer, which is not read. -/
theorem seconds_splitOn_append {α : Type} [BEq α] [LawfulBEq α] {stop : α} {front : List α}
    (notMem : stop ∉ front) (rest : List α) :
    seconds ((front ++ rest).splitOn stop) = seconds (rest.splitOn stop) := by
  induction front with
  | nil => rfl
  | cons a front ih =>
    obtain ⟨other, more⟩ := List.ne_and_not_mem_of_not_mem_cons notMem
    have differs : (a == stop) ≠ true := by simpa using other.symm
    rw [List.cons_append, List.splitOn_cons_eq_if_modifyHead, if_neg differs, seconds_modifyHead,
      ih more]

/-- Nothing is read in a bare stretch. -/
theorem read_bare_append {text : List Char} (bare : Bare text) (rest : List Char) :
    read (text ++ rest) = read rest := by
  have notMem : .plain '"' ∉ text.map Glyph.plain := by
    rw [List.mem_map]
    rintro ⟨c, isIn, ⟨rfl⟩⟩
    exact (bare '"' isIn).2 rfl
  rw [read, glyphs_bare_append bare, seconds_splitOn_append notMem, read]

/-- Between quotes, a label is read. -/
theorem read_quoted {texts : List String} (nonempty : texts ≠ []) (rest : List Char) :
    read ('"' :: ((label texts).toList ++ '"' :: rest)) = texts :: read rest := by
  have inside := quote_notMem_glyphs_label texts
  have all : glyphs ('"' :: ((label texts).toList ++ '"' :: rest)) =
      [] ++ .plain '"' :: (glyphs (label texts).toList ++ .plain '"' :: glyphs rest) := by
    rw [glyphs_cons (by decide), glyphs_label_append, glyphs_cons (by decide), glyphs_label,
      List.nil_append]
  rw [read, all, List.splitOn_append_cons_self_of_not_mem List.not_mem_nil,
    List.splitOn_append_cons_self_of_not_mem inside, seconds, List.map_cons,
    lines_glyphs_label nonempty, read]

/-- A line of a graph with a label, between the only quotes that are not in the label. -/
def Labelled (line : String) (texts : List String) : Prop :=
  ∃ front behind, Bare front ∧ Bare behind ∧ texts ≠ [] ∧
    line.toList = front ++ '"' :: ((label texts).toList ++ '"' :: behind)

/-- An arrow with its name between quotes is labelled with the name. -/
theorem labelled_arrow (number target : Nat) (name : String) {style : String}
    (bare : Bare style.toList) :
    Labelled ("\t" ++ toString number ++ " -> " ++ toString target ++ " [label=\"" ++
      escape name ++ "\"" ++ style ++ "];") [name] := by
  have bareSource : Bare ("\t" ++ toString number ++ " -> ").toList :=
    bare_append (bare_append (by decide) (bare_number number)) (by decide)
  have bareFront : Bare
      ("\t" ++ toString number ++ " -> " ++ toString target ++ " [label=").toList :=
    bare_append (bare_append bareSource (bare_number target)) (by decide)
  have bareBehind : Bare (style ++ "];").toList := bare_append bare (by decide)
  refine ⟨_, _, bareFront, bareBehind, List.cons_ne_nil _ _, ?_⟩
  rw [label_singleton]
  simp

/-- From lines with labels the labels are read, whatever is behind the lines. -/
theorem read_labelled {graph : List String} {texts : List (List String)}
    (labelled : List.Forall₂ Labelled graph texts) (rest : List Char) :
    read ((Text.lines graph).toList ++ rest) = texts ++ read rest := by
  induction labelled with
  | nil => rfl
  | @cons line text graph texts here _ ih =>
    obtain ⟨front, behind, bareFront, bareBehind, nonempty, shape⟩ := here
    -- the line break goes with what is bare behind the label
    have lineBreak : Bare (behind ++ ['\n']) := bareBehind.append (by decide)
    have whole : (Text.lines (line :: graph)).toList ++ rest =
        front ++ '"' :: ((label text).toList ++
          '"' :: ((behind ++ ['\n']) ++ ((Text.lines graph).toList ++ rest))) := by
      simp [Text.lines, shape]
    rw [whole, read_bare_append bareFront, read_quoted nonempty, read_bare_append lineBreak, ih,
      List.cons_append]

end Dot

/-! ### Tables -/

namespace Table

variable {τ κ T N : Type} [Ordered τ] [Ordered κ] [Named κ]

/-- The texts of the items of a state. -/
def itemTexts (table : Table τ κ T N) (state : State τ κ) : List String :=
  state.items.toList.map table.grammar.itemText

/-- The lines in the box of a state: its items, the first one behind the number of the state, and
nothing behind the end of the last one. -/
def boxLines (table : Table τ κ T N) (number : Nat) (state : State τ κ) : List String :=
  (table.itemTexts state).modifyHead (toString number ++ ": " ++ ·) ++ [""]

/-- The names on the arrows out of a state: the terminals that it shifts, then the keys at which
it goes on. -/
def arrowNames (table : Table τ κ T N) (state : State τ κ) : List String :=
  let shifts := state.actions.entries.filterMap fun entry =>
    match entry.2 with
    | .shift _ => some (table.grammar.terminalName entry.1)
    | .reduce _ => none
  shifts ++ state.gotos.entries.map fun entry => Named.name entry.1

/-- The box of a state with items is labelled with their lines. -/
theorem labelled_dotNode (table : Table τ κ T N) (number : Nat) {state : State τ κ}
    (nonempty : table.itemTexts state ≠ []) :
    Dot.Labelled (table.dotNode number state) (table.boxLines number state) := by
  have bareNumber : Dot.Bare (toString number ++ ": ").toList :=
    Dot.bare_append (Dot.bare_number number) (by decide)
  have bareFront : Dot.Bare ("\t" ++ toString number ++ " [label=").toList :=
    Dot.bare_append (Dot.bare_append (by decide) (Dot.bare_number number)) (by decide)
  have numbered : (table.itemTexts state).modifyHead (toString number ++ ": " ++ ·) ≠ [] := by
    simpa using nonempty
  have box : Dot.label (table.boxLines number state) =
      toString number ++ ": " ++ Dot.label (table.itemTexts state) ++ "\\l" := by
    rw [boxLines, Dot.label_append numbered (List.cons_ne_nil _ _),
      Dot.label_modifyHead bareNumber nonempty, Dot.label_singleton,
      show Dot.escape "" = "" by decide, String.append_empty]
  refine ⟨_, "];".toList, bareFront, by decide, by simp [boxLines], ?_⟩
  rw [box, dotNode, itemTexts]
  simp

theorem labelled_dotEdges (table : Table τ κ T N) (number : Nat) (state : State τ κ) :
    List.Forall₂ Dot.Labelled (table.dotEdges number state)
      ((table.arrowNames state).map ([·])) := by
  rw [dotEdges, arrowNames, List.map_append]
  refine List.rel_append ?_ ?_
  · rw [List.map_filterMap]
    refine List.rel_filterMap (R := Eq) ?_ (List.forall₂_refl _)
    rintro ⟨t, action⟩ _ rfl
    cases action with
    | shift target => exact .some (Dot.labelled_arrow number target _ (by decide))
    | reduce rule => exact .none
  · rw [List.map_map, List.forall₂_map_left_iff, List.forall₂_map_right_iff, List.forall₂_same]
    exact fun entry _ => Dot.labelled_arrow number entry.2 _ (by decide)

/-- The labels of the graph of a table whose states have items are the items of the states and
the names on the arrows. -/
theorem labels_dot (table : Table τ κ T N)
    (nonempty : ∀ state ∈ table.states, table.itemTexts state ≠ []) :
    Dot.labels table.dot =
      table.states.zipIdx.map (fun entry => table.boxLines entry.2 entry.1) ++
        table.states.flatMap fun state => (table.arrowNames state).map ([·]) := by
  have boxes : List.Forall₂ Dot.Labelled
      (table.states.zipIdx.map fun entry => table.dotNode entry.2 entry.1)
      (table.states.zipIdx.map fun entry => table.boxLines entry.2 entry.1) := by
    rw [List.forall₂_map_left_iff, List.forall₂_map_right_iff, List.forall₂_same]
    intro entry mem
    exact table.labelled_dotNode entry.2 (nonempty entry.1 (List.fst_mem_of_mem_zipIdx mem))
  have arrows : List.Forall₂ Dot.Labelled
      (table.states.zipIdx.flatMap fun entry => table.dotEdges entry.2 entry.1)
      (table.states.zipIdx.flatMap fun entry => (table.arrowNames entry.1).map ([·])) := by
    refine List.rel_flatMap (R := Eq) (List.forall₂_refl _) ?_
    rintro entry _ rfl
    exact table.labelled_dotEdges entry.2 entry.1
  have names : (table.states.zipIdx.flatMap fun entry => (table.arrowNames entry.1).map ([·])) =
      table.states.flatMap fun state => (table.arrowNames state).map ([·]) := by
    conv => rhs; rw [← List.zipIdx_map_fst 0 table.states, List.flatMap_map]
  have nothing : Dot.read (Text.lines ["\x7d"]).toList = [] := by decide
  rw [Dot.labels, dot]
  simp only [Text.lines_append, String.toList_append, List.append_assoc]
  -- the lines in front of the boxes and those between them and the arrows are bare
  rw [Dot.read_bare_append (by decide), Dot.read_labelled boxes, Dot.read_bare_append (by decide),
    Dot.read_labelled arrows, nothing, names, List.append_nil]

variable [DecidableEq τ] [DecidableEq κ]

/-- The states of a table have items. -/
theorem itemTexts_ne_nil {g : Grammar τ κ T N} {start : κ} {placeholders : List (κ × Tree T N)}
    {table : Table τ κ T N} (built : g.table start placeholders = .ok table) {state : State τ κ}
    (mem : state ∈ table.states) : table.itemTexts state ≠ [] := by
  obtain ⟨number, isState⟩ := List.mem_iff_getElem?.mp mem
  obtain ⟨path, reached⟩ := (Grammar.automaton_of_table built).reached number state isState
  obtain ⟨item, isItem⟩ := reached.exists_mem (Grammar.defines_of_table built)
  exact List.ne_nil_of_mem (List.mem_map_of_mem isItem)

/-- The labels of a graph can be read back. A label is made of lines, with first the backslashes
and then the quotes in them guarded. No quote in it is bare, and if there are lines, it is cut into
these. The box of a state has the items of the state as its lines, of which there are some, and an
arrow has its name as its only line; and these are the labels that are read from the graph of a
table. -/
theorem readable_labels_of_table {g : Grammar τ κ T N} {start : κ}
    {placeholders : List (κ × Tree T N)} {table : Table τ κ T N}
    (built : g.table start placeholders = .ok table) :
    (∀ texts : List String, (Dot.label texts).toList = ['\\', 'l'].intercalate
      (texts.map fun text => Dot.guarded '"' (Dot.guarded '\\' text.toList))) ∧
      (∀ texts : List String, .plain '"' ∉ Dot.glyphs (Dot.label texts).toList) ∧
      (∀ texts : List String, texts ≠ [] →
        Dot.lines (Dot.glyphs (Dot.label texts).toList) = texts) ∧
      (∀ state ∈ table.states, table.itemTexts state ≠ []) ∧
      Dot.labels table.dot =
        table.states.zipIdx.map (fun entry => table.boxLines entry.2 entry.1) ++
          table.states.flatMap fun state => (table.arrowNames state).map ([·]) :=
  ⟨Dot.toList_label, Dot.quote_notMem_glyphs_label, fun _ => Dot.lines_glyphs_label,
    fun _ => itemTexts_ne_nil built, table.labels_dot fun _ => itemTexts_ne_nil built⟩

end Table

/-! ### Names with quotes and backslashes -/

namespace Backslashes

/-- A grammar in which a name is a quote, one the end of a line, and one ends with a backslash. -/
def grammar : Grammar (Fin 2) String (Fin 2) String where
  alphabet t := { name := if t = 0 then "\"" else "\\l", accepts := fun token => token = t }
  rules :=
    [{ key := "Text", kind := "Text", parts := [.terminal 0, .nonterminal "Rest\\"] },
      { key := "Rest\\", kind := "Rest\\", parts := [.terminal 1, .terminal 0] }]
  rules_ne_nil := List.cons_ne_nil _ _
  defined := defined_of_undefinedUse? rfl

theorem exists_table : (grammar.table "Text" []).toOption.isSome := by decide +kernel

/-- The parse table of the grammar. -/
def table : Table (Fin 2) String (Fin 2) String :=
  (grammar.table "Text" []).toOption.get exists_table

theorem table_eq : grammar.table "Text" [] = .ok table := eq_ok_get exists_table

/-- All the names are read back, also where a backslash is in front of the end of a line or of the
quote behind the label. -/
theorem readable_labels_backslashes :
    grammar.table "Text" [] = .ok table ∧ ["\\l", "", "\\\""] ≠ [] ∧
      Dot.lines (Dot.glyphs (Dot.label ["\\l", "", "\\\""]).toList) = ["\\l", "", "\\\""] ∧
      Dot.labels table.dot =
        [["0: Text → · \" Rest\\", ""], ["1: Text → \" · Rest\\", "Rest\\ → · \\l \"", ""],
          ["2: Rest\\ → \\l · \"", ""], ["3: Text → \" Rest\\ ·", ""],
          ["4: Rest\\ → \\l \" ·", ""], ["\""], ["\\l"], ["Rest\\"], ["\""]] := by
  have nonempty : ["\\l", "", "\\\""] ≠ [] := by decide
  obtain ⟨-, -, cut, -, graph⟩ := Table.readable_labels_of_table table_eq
  refine ⟨table_eq, nonempty, cut _ nonempty, ?_⟩
  rw [graph]
  decide +kernel

end Backslashes

end ShiftReduce
