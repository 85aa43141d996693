import TagLang.Proofs.Compile.Validity
import TagLang.Proofs.Program.OneLine
import TagLang.Proofs.Program.Unambiguous

/-!
# The layout of programs

The text of a program shows its blocks by indentation only, so that a line feed in a name or string,
or a blank in front of one, could change them. In the program of a source none does
(`Program.text_layout`).

The rows of a program say what each line is for and how deep it is (`Program.rows`), and the lines
are those of the rows (`Stmt.lines_eq_map_rows`). Leaving out the rows that are for no statement, a
statement comes first and then those of its blocks, one level deeper (`Stmt.placed_rows`); so the
rows have the statements in order, and each is as deep as it is nested. The lines are tight since
names are words (`Program.isWord_of_ofSource`), and hence the line feeds of the text are those
between the rows.
-/

namespace TagLang

open Text (IsWord IsTight)

/-! ## Rows -/

/-- What a line of a program is for. -/
inductive LineContent where
  /-- A statement, or the head of one with blocks. -/
  | stmt (s : Stmt)
  /-- The head of a second block. -/
  | otherwise
  /-- A block without statements. -/
  | pass

/-- What a line is for, and how many blocks it is nested in. -/
structure Row where
  depth : Nat
  content : LineContent

namespace Row

def heading (row : Row) : Heading :=
  match row.content with
  | .stmt s => s.heading
  | .otherwise => .otherwise
  | .pass => .pass

/-- The statement of a row, with the number of blocks that it is nested in. -/
def placed? (row : Row) : Option (Nat × Stmt) :=
  match row.content with
  | .stmt s => some (row.depth, s)
  | _ => none

def line (row : Row) : Line := ⟨row.depth, row.heading.text⟩

/-- The characters of a row: four spaces for each block, and the heading. -/
def chars (row : Row) : List Char :=
  List.replicate (4 * row.depth) ' ' ++ row.heading.text.toList

/-- Rows on one line each are what the text of all lines is split into. -/
theorem splitOn_renderAll {rows : List Row} (h : ∀ row ∈ rows, '\n' ∉ row.heading.text.toList) :
    (Line.renderAll (rows.map line)).toList.splitOn '\n' = rows.map chars ++ [[]] := by
  induction rows with
  | nil => rfl
  | cons row rows ih =>
    rw [List.forall_mem_cons] at h
    have hrow : '\n' ∉ row.chars := by simp [chars, h.1]
    rw [List.map_cons, Line.toList_renderAll_cons, ← List.append_assoc,
      List.splitOn_append_cons_self, ih h.2]
    exact congrArg (· ++ (rows.map chars ++ [[]])) (List.splitOn_eq_singleton hrow)

/-- The rows of a block, from those of its statements. -/
def ofBlock (depth : Nat) (block : List Stmt) (rows : List Row) : List Row :=
  if block.isEmpty then [⟨depth, .pass⟩] else rows

end Row

mutual

/-- The rows of a statement that is nested in `depth` blocks. -/
def Stmt.rows (depth : Nat) : Stmt → List Row
  | .eval value => [⟨depth, .stmt (.eval value)⟩]
  | .assign target value => [⟨depth, .stmt (.assign target value)⟩]
  | .define name params body =>
    ⟨depth, .stmt (.define name params body)⟩ ::
      Row.ofBlock (depth + 1) body (Stmt.rowsOf (depth + 1) body)
  | .branch test yes no =>
    ⟨depth, .stmt (.branch test yes no)⟩ ::
      (Row.ofBlock (depth + 1) yes (Stmt.rowsOf (depth + 1) yes) ++
        if no.isEmpty then [] else ⟨depth, .otherwise⟩ :: Stmt.rowsOf (depth + 1) no)
  | .ret value => [⟨depth, .stmt (.ret value)⟩]

/-- The rows of statements, one after the other. -/
def Stmt.rowsOf (depth : Nat) : List Stmt → List Row
  | [] => []
  | s :: rest => s.rows depth ++ Stmt.rowsOf depth rest

end

/-- The rows of a program. -/
def Program.rows (p : Program) : List Row := Row.ofBlock 0 p.body (Stmt.rowsOf 0 p.body)

/-- A statement stands in a number of blocks inside of a given one. -/
inductive Stmt.NestedIn (s : Stmt) : Nat → List Stmt → Prop
  | here {block : List Stmt} : s ∈ block → NestedIn s 0 block
  | inside {block inner : List Stmt} {outer : Stmt} {depth : Nat} :
      outer ∈ block → inner ∈ outer.blocks → NestedIn s depth inner → NestedIn s (depth + 1) block

namespace Stmt

/-! ## Lines are those of the rows -/

theorem rowsOf_eq_flatMap (depth : Nat) (block : List Stmt) :
    rowsOf depth block = block.flatMap (rows depth) := by
  induction block with
  | nil => rfl
  | cons s block ih => rw [rowsOf, ih, List.flatMap_cons]

theorem allLines_eq_flatMap (depth : Nat) (block : List Stmt) :
    allLines depth block = block.flatMap (lines depth) := by
  induction block with
  | nil => rfl
  | cons s block ih => rw [allLines, ih, List.flatMap_cons]

/-- The lines of a block are empty only if the block is. -/
theorem block_allLines (depth : Nat) (block : List Stmt) :
    Line.block depth (allLines depth block) =
      if block.isEmpty then [⟨depth, "pass"⟩] else allLines depth block := by
  cases block with
  | nil => rfl
  | cons s block => rw [allLines, lines_eq]; rfl

theorem allLines_eq_map_rowsOf {depth : Nat} {block : List Stmt}
    (h : ∀ s ∈ block, s.lines depth = (s.rows depth).map Row.line) :
    allLines depth block = (rowsOf depth block).map Row.line := by
  rw [allLines_eq_flatMap, rowsOf_eq_flatMap, List.map_flatMap]
  exact List.flatMap_congr h

theorem map_line_ofBlock {depth : Nat} {block : List Stmt}
    (h : allLines depth block = (rowsOf depth block).map Row.line) :
    (Row.ofBlock depth block (rowsOf depth block)).map Row.line =
      Line.block depth (allLines depth block) := by
  rw [block_allLines, Row.ofBlock]
  split
  · rfl
  · exact h.symm

/-- **The lines of a statement are those of its rows.** -/
theorem lines_eq_map_rows (s : Stmt) (depth : Nat) :
    s.lines depth = (s.rows depth).map Row.line := by
  induction s using parts_induction generalizing depth with
  | step s ih =>
    have hblocks : ∀ block ∈ s.blocks,
        allLines (depth + 1) block = (rowsOf (depth + 1) block).map Row.line := fun block hblock =>
      allLines_eq_map_rowsOf fun part hpart => ih block hblock part hpart (depth + 1)
    rw [lines_eq]
    cases s with
    | eval value | assign target value | ret value => rfl
    | define name params body =>
      rw [rows, List.map_cons, map_line_ofBlock (hblocks body List.mem_cons_self)]
      rfl
    | branch test yes no =>
      simp only [blocks, List.forall_mem_cons] at hblocks
      rw [rows, List.map_cons, List.map_append, map_line_ofBlock hblocks.1, innerLines, elseLines,
        apply_ite (List.map Row.line), List.map_cons, hblocks.2.1]
      rfl

/-! ## Statements are in order, and as deep as they are nested -/

theorem placed_ofBlock (depth : Nat) (block : List Stmt) :
    (Row.ofBlock depth block (rowsOf depth block)).filterMap Row.placed? =
      (rowsOf depth block).filterMap Row.placed? := by
  cases block <;> rfl

theorem placed_rowsOf (depth : Nat) (block : List Stmt) :
    (rowsOf depth block).filterMap Row.placed? =
      block.flatMap fun s => (s.rows depth).filterMap Row.placed? := by
  rw [rowsOf_eq_flatMap, List.filterMap_flatMap]

/-- A statement comes first, and then those of its blocks, one level deeper. -/
theorem placed_rows (s : Stmt) (depth : Nat) :
    (s.rows depth).filterMap Row.placed? = (depth, s) ::
      s.blocks.flatMap fun block => (rowsOf (depth + 1) block).filterMap Row.placed? := by
  cases s with
  | eval value | assign target value | ret value => rfl
  | define name params body =>
    have hfirst : Row.placed? ⟨depth, .stmt (.define name params body)⟩ = some (depth, _) := rfl
    rw [rows, List.filterMap_cons_some hfirst, placed_ofBlock, blocks, List.flatMap_singleton]
  | branch test yes no =>
    have hfirst : Row.placed? ⟨depth, .stmt (.branch test yes no)⟩ = some (depth, _) := rfl
    rw [rows, List.filterMap_cons_some hfirst, List.filterMap_append, placed_ofBlock, blocks,
      List.flatMap_cons, List.flatMap_singleton]
    cases no <;> rfl

theorem map_snd_placed_rows (s : Stmt) (depth : Nat) :
    ((s.rows depth).filterMap Row.placed?).map Prod.snd = s.all := by
  induction s using parts_induction generalizing depth with
  | step s ih =>
    rw [placed_rows, all_eq, List.map_cons, List.map_flatMap]
    refine congrArg (s :: ·) (List.flatMap_congr fun block hblock => ?_)
    rw [placed_rowsOf, List.map_flatMap, allOf_eq_flatMap]
    exact List.flatMap_congr fun part hpart => ih block hblock part hpart (depth + 1)

theorem nestedIn_of_mem_placed {s t : Stmt} {block : List Stmt} (ht : t ∈ block) {depth d : Nat}
    (h : (d, s) ∈ (t.rows depth).filterMap Row.placed?) :
    ∃ b, d = depth + b ∧ s.NestedIn b block := by
  induction t using parts_induction generalizing block depth with
  | step t ih =>
    rw [placed_rows, List.mem_cons, List.mem_flatMap] at h
    rcases h with hhere | ⟨inner, hinner, h⟩
    · cases hhere
      exact ⟨0, rfl, .here ht⟩
    · rw [placed_rowsOf, List.mem_flatMap] at h
      obtain ⟨part, hpart, h⟩ := h
      obtain ⟨b, hb, hnested⟩ := ih inner hinner part hpart hpart h
      exact ⟨b + 1, by omega, .inside ht hinner hnested⟩

theorem NestedIn.mem_placed {s : Stmt} {b : Nat} {block : List Stmt} (h : s.NestedIn b block)
    (depth : Nat) : (depth + b, s) ∈ (rowsOf depth block).filterMap Row.placed? := by
  induction h generalizing depth with
  | here hmem =>
    rw [placed_rowsOf, List.mem_flatMap]
    exact ⟨s, hmem, placed_rows s depth ▸ List.mem_cons_self⟩
  | @inside block inner outer b houter hinner _ ih =>
    rw [placed_rowsOf, List.mem_flatMap]
    refine ⟨outer, houter, ?_⟩
    rw [placed_rows, List.mem_cons, List.mem_flatMap, Nat.add_comm b 1, ← Nat.add_assoc]
    exact .inr ⟨inner, hinner, ih (depth + 1)⟩

/-! ## Lines are tight -/

/-- All names in a statement itself are words, those in its blocks aside. -/
structure HasWords (s : Stmt) : Prop where
  own : ∀ item ∈ s.own, ∀ name ∈ item.names, IsWord name
  exprs : ∀ e ∈ s.exprs, e.HasWords

theorem HasWords.isTight_heading {s : Stmt} (h : s.HasWords) : IsTight s.heading.text.toList := by
  have hexprs : ∀ e ∈ s.exprs, IsTight e.text.toList := fun e he => (h.exprs e he).isTight_text
  have hown := h.own
  cases s with
  | eval value => exact hexprs value List.mem_cons_self
  | assign target value =>
    have htarget := hown _ (Multiset.mem_singleton_self _) target List.mem_cons_self
    exact Text.isTight_between target " = " value.text rfl htarget.isTight (by decide)
      (hexprs value List.mem_cons_self)
  | define name params body =>
    have hname := hown (.define name) (Multiset.mem_add.2 (.inl (Multiset.mem_singleton_self _)))
      name List.mem_cons_self
    have hparams := hown params.item (Multiset.mem_add.2 (.inr (Multiset.mem_singleton_self _)))
    refine Text.isTight_between "def" (" " ++ name ++ "(" ++ params.text) "):" ?_
      (Text.isTight_of_check rfl) ?_ (Text.isTight_of_check rfl)
    · simp [heading, Heading.text, ← String.toList_inj]
    · simp [hname.isTight.line, Expr.newline_notMem_params hparams hexprs]
  | branch test yes no =>
    refine Text.isTight_between "if" (" " ++ test.text) ":" ?_ (Text.isTight_of_check rfl) ?_
      (Text.isTight_of_check rfl)
    · simp [heading, Heading.text, ← String.toList_inj]
    · simp [(hexprs test List.mem_cons_self).line]
  | ret value =>
    exact Text.isTight_between "return" " " value.text rfl (Text.isTight_of_check rfl) (by decide)
      (hexprs value List.mem_cons_self)

end Stmt

theorem NameSupply.Generated.isWord {name : String} (h : Generated name) : IsWord name := by
  obtain ⟨k, rfl | rfl⟩ := h
  · exact Text.isWord_append_natText (Text.isWord_of_check rfl) k
  · exact Text.isWord_append_natText (Text.isWord_of_check rfl) k

/-! ## Compiled sources -/

namespace Program

variable {p : Program}

theorem hasWords_of_mem_allOf
    (h : ∀ item ∈ Stmt.itemsOf p.body, ∀ name ∈ item.names, IsWord name) :
    ∀ s ∈ Stmt.allOf p.body, s.HasWords := by
  intro s hs
  have hsub : ∀ item ∈ s.own + Expr.itemsOf s.exprs, item ∈ Stmt.itemsOf p.body :=
    fun item hitem => mem_sum_map_iff.2 ⟨s, hs, hitem⟩
  constructor
  · exact fun item hitem => h item (hsub item (Multiset.mem_add.2 (.inl hitem)))
  · intro e he item hitem
    exact h item (hsub item (Multiset.mem_add.2 (.inr (mem_sum_map_iff.2 ⟨e, he, hitem⟩))))

/-- **Every name in the program of a text is a word.** -/
theorem isWord_of_ofSource {options : ParseOptions} {source : String}
    (h : Program.ofSource options source = .ok p) :
    ∀ item ∈ Stmt.itemsOf p.body, ∀ name ∈ item.names, IsWord name := by
  intro item hitem name hname
  obtain ⟨nodes, s', hparse, hnodes⟩ := exists_of_ofSource h
  rcases names_of_ofNodes hnodes hitem hname with hsource | rfl | hgenerated
  · exact Node.isWord_of_parse hparse name hsource
  · exact Text.isWord_of_check rfl
  · exact hgenerated.isWord

theorem rows_lines (p : Program) :
    p.rows.map Row.line = Line.block 0 (Stmt.allLines 0 p.body) :=
  Stmt.map_line_ofBlock (Stmt.allLines_eq_map_rowsOf fun s _ => s.lines_eq_map_rows 0)

theorem map_snd_placed (p : Program) :
    (p.rows.filterMap Row.placed?).map Prod.snd = Stmt.allOf p.body := by
  rw [rows, Stmt.placed_ofBlock, Stmt.placed_rowsOf, List.map_flatMap, Stmt.allOf_eq_flatMap]
  exact List.flatMap_congr fun s _ => Stmt.map_snd_placed_rows s 0

theorem mem_placed_iff {s : Stmt} {b : Nat} :
    (b, s) ∈ p.rows.filterMap Row.placed? ↔ s.NestedIn b p.body := by
  rw [rows, Stmt.placed_ofBlock]
  constructor
  · intro h
    rw [Stmt.placed_rowsOf, List.mem_flatMap] at h
    obtain ⟨t, ht, h⟩ := h
    obtain ⟨b', rfl, hnested⟩ := Stmt.nestedIn_of_mem_placed ht h
    rwa [Nat.zero_add]
  · intro h
    exact Nat.zero_add b ▸ h.mem_placed 0

/-- The lines of a program are tight if its names are words. -/
theorem isTight_of_mem_rows
    (h : ∀ item ∈ Stmt.itemsOf p.body, ∀ name ∈ item.names, IsWord name) :
    ∀ row ∈ p.rows, IsTight row.heading.text.toList := by
  rintro ⟨depth, content⟩ hrow
  cases content with
  | stmt s =>
    have hplaced : (depth, s) ∈ p.rows.filterMap Row.placed? :=
      List.mem_filterMap.2 ⟨_, hrow, rfl⟩
    have hs : s ∈ Stmt.allOf p.body := p.map_snd_placed ▸ List.mem_map_of_mem hplaced
    exact (hasWords_of_mem_allOf h s hs).isTight_heading
  | otherwise => exact (Text.isTight_of_check rfl : IsTight "else:".toList)
  | pass => exact (Text.isTight_of_check rfl : IsTight "pass".toList)

/-- **The lines of a program are its statements, each as deep as it is nested.** Split at the line
feeds, the text of a compiled source has a line for each row of the program, and nothing behind the
last one. A line has four spaces for each block, and then a character that is not blank. The rows
with a statement have all the statements in order, those nested in `b` blocks at depth `b`. -/
theorem text_layout {options : ParseOptions} {source : String}
    (h : Program.ofSource options source = .ok p) :
    p.text.toList.splitOn '\n' = p.rows.map Row.chars ++ [[]] ∧
      (∀ row ∈ p.rows, ∃ c rest, Text.isBlank c = false ∧
        row.chars = List.replicate (4 * row.depth) ' ' ++ c :: rest) ∧
      (p.rows.filterMap Row.placed?).map Prod.snd = Stmt.allOf p.body ∧
      ∀ s b, (b, s) ∈ p.rows.filterMap Row.placed? ↔ s.NestedIn b p.body := by
  have htight := isTight_of_mem_rows (isWord_of_ofSource h)
  refine ⟨?_, fun row hrow => ?_, p.map_snd_placed, fun s b => mem_placed_iff⟩
  · rw [text, ← rows_lines]
    exact Row.splitOn_renderAll fun row hrow => (htight row hrow).line
  · obtain ⟨c, hc, hblank⟩ := (htight row hrow).head
    obtain ⟨rest, hrest⟩ := List.head?_eq_some_iff.1 hc
    exact ⟨c, rest, hblank, congrArg _ hrest⟩

/-- A source that tries to break out of its blocks: line feeds and indentation in strings, and
names that are the lines of a second branch and of an empty block. -/
def deceptiveSource : String :=
  "<fn* d=\"\n\">[else:] <if>else: <do>\"a\n    b\" pass</do> [\" \"]</if></fn*>"

theorem text_layout_deceptive :
    ∃ p, Program.ofSource ⟨true⟩ deceptiveSource = .ok p ∧
      p.rows.map Row.depth = [0, 1, 2, 3, 3, 2, 3, 2, 1, 0] ∧
      p.text.toList.splitOn '\n' = p.rows.map Row.chars ++ [[]] := by
  have hdepths : (Program.ofSource ⟨true⟩ deceptiveSource).toOption.map
      (fun p => p.rows.map Row.depth) = some [0, 1, 2, 3, 3, 2, 3, 2, 1, 0] := by
    decide +kernel
  obtain ⟨p, h, hdepths⟩ := exists_ofSource_of_map hdepths
  exact ⟨p, h, hdepths, (text_layout h).1⟩

end Program

end TagLang
