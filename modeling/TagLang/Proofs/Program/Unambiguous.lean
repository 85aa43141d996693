import TagLang.Proofs.Program.Apart

/-!
# Programs are told apart by their texts

The text of a plain program is that of no other plain program (`Program.text_eq_text_iff`).

A line starts with a run, and this run with the character behind it tells what the line is about
(`Heading.exists_startsWith`); the rest of it is told apart by the expressions in it
(`Heading.apart`). No line starts with a space, so its depth is seen from its indentation, and the
text of a program determines its lines (`Line.renderAll_inj`).

The lines of a statement reach as far as lines are deeper than its first one, or are a second branch
at its depth. So statements are told apart in front of lines that are neither (`Stmt.Follows`), by
induction on the blocks in them (`Stmt.apart`). Blocks without statements are seen from their
`pass`, which is the line of no statement (`Stmt.heading_text_ne`).
-/

namespace TagLang

/-! ## Lines -/

/-- What a line of a program says. -/
inductive Heading where
  | eval (value : Expr)
  | assign (target : String) (value : Expr)
  | define (name : String) (params : Params Expr)
  | branch (test : Expr)
  | ret (value : Expr)
  /-- The line of a block without statements. -/
  | pass
  | otherwise

namespace Heading

def text : Heading → String
  | .eval value => value.text
  | .assign target value => target ++ " = " ++ value.text
  | .define name params => "def " ++ name ++ "(" ++ params.text ++ "):"
  | .branch test => "if " ++ test.text ++ ":"
  | .ret value => "return " ++ value.text
  | .pass => "pass"
  | .otherwise => "else:"

/-- The characters of a line. -/
def chars : Heading → List Char
  | .eval value => value.text.toList
  | .assign target value => target.toList ++ ' ' :: '=' :: ' ' :: value.text.toList
  | .define name params =>
    ['d', 'e', 'f'] ++ ' ' :: (name.toList ++
      '(' :: (Entry.listText (Entry.ofParams params) ++ [')', ':']))
  | .branch test => ['i', 'f'] ++ ' ' :: (test.text.toList ++ [':'])
  | .ret value => ['r', 'e', 't', 'u', 'r', 'n'] ++ ' ' :: value.text.toList
  | .pass => ['p', 'a', 's', 's']
  | .otherwise => ['e', 'l', 's', 'e'] ++ [':']

theorem toList_text (heading : Heading) : heading.text.toList = heading.chars := by
  cases heading with
  | define name params =>
    rw [text, chars, Params.text, ← Entry.toList_commaSeparated, Entry.map_text_ofParams]
    simp
  | _ => simp [text, chars]

def IsPlain : Heading → Prop
  | .eval value => value.isPlain = true
  | .assign target value => isPlainName target = true ∧ value.isPlain = true
  | .define name params =>
    isPlainName name = true ∧ ∀ entry ∈ Entry.ofParams params, entry.isPlain = true
  | .branch test => test.isPlain = true
  | .ret value => value.isPlain = true
  | .pass => True
  | .otherwise => True

/-- What a line is about. -/
inductive Topic where
  | eval
  | assign
  | define
  | branch
  | ret
  | pass
  | otherwise

def topic : Heading → Topic
  | .eval _ => .eval
  | .assign _ _ => .assign
  | .define _ _ => .define
  | .branch _ => .branch
  | .ret _ => .ret
  | .pass => .pass
  | .otherwise => .otherwise

/-- What a line is about, from the run that it starts with and what follows it. -/
def Topic.of (run : List Char) (next : Option Char) : Topic :=
  if run = "def".toList then .define
  else if run = "if".toList then .branch
  else if run = "return".toList then .ret
  else if run = "pass".toList then .pass
  else if run = "else".toList then .otherwise
  else if next = some ' ' then .assign
  else .eval

theorem Topic.of_eq {run : List Char} (h : ∀ word ∈ openingWords, run ≠ word.toList)
    (next : Option Char) : Topic.of run next = if next = some ' ' then .assign else .eval := by
  rw [Topic.of, if_neg (h "def" (by decide)), if_neg (h "if" (by decide)),
    if_neg (h "return" (by decide)), if_neg (h "pass" (by decide)), if_neg (h "else" (by decide))]

/-- A line starts with a run, and with something else behind it. -/
structure StartsWith (text run tail : List Char) : Prop where
  split : text = run ++ tail
  chars : ∀ c ∈ run, isRunChar c = true
  endsRun : EndsRun tail

theorem startsWith_word {word : List Char} (h : word.all isRunChar = true) {c : Char}
    (hc : isRunChar c = false) (tail : List Char) :
    StartsWith (word ++ c :: tail) word (c :: tail) where
  split := rfl
  chars := List.all_eq_true.1 h
  endsRun := endsRun_cons hc tail

/-- **The first run and the character behind it tell what a line is about.** -/
theorem exists_startsWith {heading : Heading} (h : heading.IsPlain) (rest : List Char) :
    ∃ run tail, StartsWith (heading.chars ++ '\n' :: rest) run tail ∧
      Topic.of run tail.head? = heading.topic := by
  cases heading with
  | eval value =>
    have hline : Ends ('\n' :: rest) := ends_cons (by decide) rest
    obtain ⟨run, tail, hleads⟩ := Expr.exists_leads h
    refine ⟨run, tail ++ '\n' :: rest, ⟨?_, hleads.chars, hleads.endsRun hline.endsRun⟩, ?_⟩
    · rw [chars, hleads.split, List.append_assoc]
    · rw [Topic.of_eq hleads.not_word, if_neg]
      · rfl
      · intro hnext
        rcases hleads.mem_or_mem ('\n' :: rest) ' ' hnext with hmem | hmem
        · exact absurd hmem (by decide)
        · exact absurd (Option.some.inj hmem) (by decide)
  | assign target value =>
    have hfront := isFront_of_isPlainName h.1
    rw [chars, List.append_assoc]
    refine ⟨_, _, startsWith_word (List.all_eq_true.2 hfront.chars) rfl _, ?_⟩
    rw [Topic.of_eq hfront.not_word]
    rfl
  | define name params =>
    rw [chars, List.append_assoc]
    exact ⟨_, _, startsWith_word rfl rfl _, rfl⟩
  | branch test =>
    rw [chars, List.append_assoc]
    exact ⟨_, _, startsWith_word rfl rfl _, rfl⟩
  | ret value =>
    rw [chars, List.append_assoc]
    exact ⟨_, _, startsWith_word rfl rfl _, rfl⟩
  | pass => exact ⟨_, _, startsWith_word rfl rfl _, rfl⟩
  | otherwise =>
    rw [chars, List.append_assoc]
    exact ⟨_, _, startsWith_word rfl rfl _, rfl⟩

theorem topic_eq {heading heading' : Heading} (h : heading.IsPlain) (h' : heading'.IsPlain)
    {rest rest' : List Char}
    (heq : heading.chars ++ '\n' :: rest = heading'.chars ++ '\n' :: rest') :
    heading.topic = heading'.topic := by
  obtain ⟨run, tail, hstarts, htopic⟩ := exists_startsWith h rest
  obtain ⟨run', tail', hstarts', htopic'⟩ := exists_startsWith h' rest'
  rw [hstarts.split, hstarts'.split] at heq
  obtain ⟨rfl, rfl⟩ := run_append_inj hstarts.chars hstarts'.chars hstarts.endsRun
    hstarts'.endsRun heq
  exact htopic.symm.trans htopic'

/-- **A line is told apart from other lines by its text.** -/
theorem apart {heading heading' : Heading} (h : heading.IsPlain) (h' : heading'.IsPlain)
    {rest rest' : List Char}
    (heq : heading.chars ++ '\n' :: rest = heading'.chars ++ '\n' :: rest') :
    heading = heading' ∧ rest = rest' := by
  have htopic := topic_eq h h' heq
  cases heading with
  | eval value =>
    cases heading' with
    | eval value' =>
      obtain ⟨rfl, rfl⟩ := (Expr.apart h).before h' (by decide) heq
      exact ⟨rfl, rfl⟩
    | _ => cases htopic
  | assign target value =>
    cases heading' with
    | assign target' value' =>
      simp only [chars, List.append_assoc, List.cons_append] at heq
      obtain ⟨htarget, hvalue⟩ := run_append_inj (isRunChar_of_isPlainName h.1)
        (isRunChar_of_isPlainName h'.1) (endsRun_cons rfl _) (endsRun_cons rfl _) heq
      obtain rfl := String.toList_injective htarget
      simp only [List.cons.injEq, true_and] at hvalue
      obtain ⟨rfl, rfl⟩ := (Expr.apart h.2).before h'.2 (by decide) hvalue
      exact ⟨rfl, rfl⟩
    | _ => cases htopic
  | define name params =>
    cases heading' with
    | define name' params' =>
      simp only [chars, List.append_assoc, List.cons_append, List.nil_append, List.cons.injEq,
        true_and] at heq
      obtain ⟨hname, hparams⟩ := run_append_inj (isRunChar_of_isPlainName h.1)
        (isRunChar_of_isPlainName h'.1) (endsRun_cons rfl _) (endsRun_cons rfl _) heq
      obtain rfl := String.toList_injective hname
      obtain ⟨hentries, hrest⟩ := Entry.listText_apart
        (fun entry hentry => Entry.apart_of_isPlain (h.2 entry hentry)) h.2 h'.2 (by decide)
        (List.cons.inj hparams).2
      obtain rfl := Entry.ofParams_injective hentries
      simp only [List.cons.injEq, true_and] at hrest
      exact ⟨rfl, hrest⟩
    | _ => cases htopic
  | branch test =>
    cases heading' with
    | branch test' =>
      simp only [chars, List.append_assoc, List.cons_append, List.nil_append, List.cons.injEq,
        true_and] at heq
      obtain ⟨rfl, hrest⟩ := (Expr.apart h).before h' (by decide) heq
      exact ⟨rfl, (List.cons.inj hrest).2⟩
    | _ => cases htopic
  | ret value =>
    cases heading' with
    | ret value' =>
      simp only [chars, List.cons_append, List.nil_append, List.cons.injEq, true_and] at heq
      obtain ⟨rfl, rfl⟩ := (Expr.apart h).before h' (by decide) heq
      exact ⟨rfl, rfl⟩
    | _ => cases htopic
  | pass =>
    cases heading' with
    | pass => exact ⟨rfl, (List.cons.inj (List.append_cancel_left heq)).2⟩
    | _ => cases htopic
  | otherwise =>
    cases heading' with
    | otherwise => exact ⟨rfl, (List.cons.inj (List.append_cancel_left heq)).2⟩
    | _ => cases htopic

theorem text_injective {heading heading' : Heading} (h : heading.IsPlain) (h' : heading'.IsPlain)
    (heq : heading.text = heading'.text) : heading = heading' := by
  have hchars : heading.chars ++ ['\n'] = heading'.chars ++ ['\n'] := by
    rw [← toList_text, ← toList_text, heq]
  exact (apart h h' hchars).1

/-- No line starts with a space. -/
theorem head_ne {heading : Heading} (h : heading.IsPlain) (rest : List Char) :
    ∀ c ∈ (heading.chars ++ rest).head?, c ≠ ' ' := by
  have hrun : ∀ {c : Char}, isRunChar c = true → c ≠ ' ' := fun hc => ne_of_isRunChar hc rfl
  cases heading with
  | eval value =>
    obtain ⟨run, tail, hleads⟩ := Expr.exists_leads h
    obtain ⟨c, more, htext, hc⟩ := hleads.exists_first
    rw [chars, htext]
    rintro _ ⟨⟩
    rcases hc with hc | hc
    · exact hrun hc
    · rintro rfl
      exact absurd hc (by decide)
  | assign target value =>
    obtain ⟨c, more, htext⟩ := List.exists_cons_of_ne_nil (toList_ne_nil_of_isPlainName h.1)
    have hc := isRunChar_of_isPlainName h.1 c (htext ▸ List.mem_cons_self)
    rw [chars, htext]
    rintro _ ⟨⟩
    exact hrun hc
  | define name params | branch test | ret value | pass | otherwise =>
    rintro _ ⟨⟩
    decide

end Heading

namespace Line

/-- A line of a plain program. -/
def IsPlain (line : Line) : Prop := ∃ heading : Heading, heading.IsPlain ∧ line.text = heading.text

theorem toList_renderAll_cons (line : Line) (lines : List Line) :
    (renderAll (line :: lines)).toList = List.replicate (4 * line.depth) ' ' ++
      (line.text.toList ++ '\n' :: (renderAll lines).toList) := by
  simp [renderAll, render]

/-- Spaces in front of something else are counted. -/
theorem replicate_append_inj {n n' : Nat} {text text' : List Char}
    (htext : ∀ c ∈ text.head?, c ≠ ' ') (htext' : ∀ c ∈ text'.head?, c ≠ ' ')
    (h : List.replicate n ' ' ++ text = List.replicate n' ' ' ++ text') :
    n = n' ∧ text = text' := by
  have hspaces : ∀ n : Nat, ∀ c ∈ List.replicate n ' ', (c == ' ') = true := by
    intro n c hc
    exact beq_iff_eq.2 (List.eq_of_mem_replicate hc)
  obtain ⟨hsame, hmore⟩ := append_inj_of_stop (hspaces n) (hspaces n')
    (fun c hc => beq_false_of_ne (htext c hc)) (fun c hc => beq_false_of_ne (htext' c hc)) h
  have hlength := congrArg List.length hsame
  rw [List.length_replicate, List.length_replicate] at hlength
  exact ⟨hlength, hmore⟩

/-- **Lines are told apart by the text of them all.** -/
theorem renderAll_inj {lines lines' : List Line} (h : ∀ line ∈ lines, line.IsPlain)
    (h' : ∀ line ∈ lines', line.IsPlain) (heq : renderAll lines = renderAll lines') :
    lines = lines' := by
  have hne : ∀ (line : Line) (lines : List Line), (renderAll []).toList ≠
      (renderAll (line :: lines)).toList := by
    intro line lines
    rw [toList_renderAll_cons]
    exact (List.append_ne_nil_of_right_ne_nil _
      (List.append_ne_nil_of_right_ne_nil _ (List.cons_ne_nil _ _))).symm
  induction lines generalizing lines' with
  | nil =>
    cases lines' with
    | nil => rfl
    | cons line' lines' => exact absurd (congrArg String.toList heq) (hne line' lines')
  | cons line lines ih =>
    cases lines' with
    | nil => exact absurd (congrArg String.toList heq).symm (hne line lines)
    | cons line' lines' =>
      rw [List.forall_mem_cons] at h h'
      obtain ⟨⟨heading, hplain, htext⟩, h⟩ := h
      obtain ⟨⟨heading', hplain', htext'⟩, h'⟩ := h'
      have hchars := congrArg String.toList heq
      rw [toList_renderAll_cons, toList_renderAll_cons, htext, htext', Heading.toList_text,
        Heading.toList_text] at hchars
      obtain ⟨hdepth, hline⟩ := replicate_append_inj (Heading.head_ne hplain _)
        (Heading.head_ne hplain' _) hchars
      obtain ⟨rfl, hmore⟩ := Heading.apart hplain hplain' hline
      obtain rfl := ih h h' (String.toList_injective hmore)
      obtain ⟨depth, text⟩ := line
      obtain ⟨depth', text'⟩ := line'
      obtain rfl : depth = depth' := Nat.eq_of_mul_eq_mul_left (by decide) hdepth
      rw [show text = text' from htext.trans htext'.symm]

end Line

/-! ## Statements -/

namespace Stmt

/-- What the first line of a statement says. -/
def heading : Stmt → Heading
  | .eval value => .eval value
  | .assign target value => .assign target value
  | .define name params _ => .define name params
  | .branch test _ _ => .branch test
  | .ret value => .ret value

/-- The lines of a second branch, if there is one. -/
def elseLines (depth : Nat) (no : List Stmt) : List Line :=
  if no.isEmpty then [] else ⟨depth, "else:"⟩ :: allLines (depth + 1) no

/-- The lines of a statement behind the first one. -/
def innerLines (depth : Nat) : Stmt → List Line
  | .define _ _ body => Line.block (depth + 1) (allLines (depth + 1) body)
  | .branch _ yes no => Line.block (depth + 1) (allLines (depth + 1) yes) ++ elseLines depth no
  | _ => []

theorem lines_eq (s : Stmt) (depth : Nat) :
    s.lines depth = ⟨depth, s.heading.text⟩ :: s.innerLines depth := by
  cases s with
  | eval value => rfl
  | assign target value => rfl
  | define name params body => rfl
  | branch test yes no => rfl
  | ret value => rfl

theorem isPlain_heading {s : Stmt} (h : s.isPlain = true) : s.heading.IsPlain := by
  rw [isPlain_eq, Bool.and_eq_true] at h
  obtain ⟨hexprs, hnames⟩ := Bool.and_eq_true_iff.1 h.1
  rw [List.all_eq_true] at hexprs
  cases s with
  | eval value => exact hexprs value List.mem_cons_self
  | assign target value => exact ⟨hnames, hexprs value List.mem_cons_self⟩
  | define name params body =>
    obtain ⟨hname, hparams⟩ := Bool.and_eq_true_iff.1 hnames
    exact ⟨hname, Entry.isPlain_ofParams (List.all_eq_true.1 hparams) hexprs⟩
  | branch test yes no => exact hexprs test List.mem_cons_self
  | ret value => exact hexprs value List.mem_cons_self

theorem isPlain_of_block {s part : Stmt} {block : List Stmt} (h : s.isPlain = true)
    (hblock : block ∈ s.blocks) (hpart : part ∈ block) : part.isPlain = true := by
  rw [isPlain_eq, Bool.and_eq_true, List.all_eq_true] at h
  exact List.all_eq_true.1 (h.2 block hblock) part hpart

/-- A statement does not start like an empty block or a second branch. -/
theorem heading_text_ne {s : Stmt} (h : s.isPlain = true) :
    s.heading.text ≠ Heading.pass.text ∧ s.heading.text ≠ Heading.otherwise.text := by
  constructor
  · intro heq
    have hpass : s.heading = .pass := Heading.text_injective (isPlain_heading h) trivial heq
    cases s <;> cases hpass
  · intro heq
    have helse : s.heading = .otherwise := Heading.text_injective (isPlain_heading h) trivial heq
    cases s <;> cases helse

/-! ## What follows a block -/

/-- Lines that leave a block of the given depth. -/
def Below (depth : Nat) (rest : List Line) : Prop := ∀ line ∈ rest.head?, line.depth < depth

/-- Lines that may follow a statement: they are not deeper, and are no second branch. -/
def Follows (depth : Nat) (rest : List Line) : Prop :=
  ∀ line ∈ rest.head?, line.depth ≤ depth ∧ (line.depth = depth → line.text ≠ "else:")

theorem Follows.below {depth : Nat} {rest : List Line} (h : Follows depth rest) :
    Below (depth + 1) rest :=
  fun line hline => Nat.lt_succ_of_le (h line hline).1

theorem follows_allLines {depth : Nat} {block : List Stmt} {rest : List Line}
    (hplain : ∀ s ∈ block, s.isPlain = true) (hrest : Below depth rest) :
    Follows depth (allLines depth block ++ rest) := by
  cases block with
  | nil =>
    intro line hline
    have hlt := hrest line hline
    exact ⟨hlt.le, fun heq => absurd heq hlt.ne⟩
  | cons s block =>
    rw [allLines, lines_eq]
    rintro line ⟨⟩
    exact ⟨le_rfl, fun _ => (heading_text_ne (hplain s List.mem_cons_self)).2⟩

theorem below_elseLines {depth : Nat} {rest : List Line} (no : List Stmt)
    (hrest : Follows depth rest) : Below (depth + 1) (elseLines depth no ++ rest) := by
  cases no with
  | nil => exact hrest.below
  | cons s no =>
    rintro line ⟨⟩
    exact Nat.lt_succ_self depth

/-- A statement is told apart from all plain statements by its lines. -/
def Apart (s : Stmt) : Prop :=
  ∀ depth s' rest rest', s'.isPlain = true → Follows depth rest → Follows depth rest' →
    s.lines depth ++ rest = s'.lines depth ++ rest' → s = s' ∧ rest = rest'

section

variable {depth : Nat} {block block' : List Stmt} {rest rest' : List Line}

/-- **Statements one after the other are told apart** if each of them is. -/
theorem allLines_apart (hapart : ∀ s ∈ block, s.Apart) (hplain : ∀ s ∈ block, s.isPlain = true)
    (hplain' : ∀ s ∈ block', s.isPlain = true) (hrest : Below depth rest)
    (hrest' : Below depth rest')
    (h : allLines depth block ++ rest = allLines depth block' ++ rest') :
    block = block' ∧ rest = rest' := by
  have hend : ∀ {s : Stmt} {rest more : List Line}, Below depth rest →
      rest ≠ s.lines depth ++ more := by
    rintro s rest more hrest rfl
    rw [lines_eq] at hrest
    exact absurd (hrest _ rfl) (lt_irrefl depth)
  induction block generalizing block' with
  | nil =>
    cases block' with
    | nil => exact ⟨rfl, h⟩
    | cons s' block' =>
      rw [allLines, allLines, List.append_assoc] at h
      exact absurd h (hend hrest)
  | cons s block ih =>
    cases block' with
    | nil =>
      rw [allLines, allLines, List.append_assoc] at h
      exact absurd h.symm (hend hrest')
    | cons s' block' =>
      rw [List.forall_mem_cons] at hapart hplain hplain'
      rw [allLines, allLines, List.append_assoc, List.append_assoc] at h
      obtain ⟨rfl, hmore⟩ := hapart.1 depth s' _ _ hplain'.1 (follows_allLines hplain.2 hrest)
        (follows_allLines hplain'.2 hrest') h
      obtain ⟨rfl, rfl⟩ := ih hapart.2 hplain.2 hplain'.2 hmore
      exact ⟨rfl, rfl⟩

/-- **Blocks are told apart**, also those without statements. -/
theorem block_apart (hapart : ∀ s ∈ block, s.Apart) (hplain : ∀ s ∈ block, s.isPlain = true)
    (hplain' : ∀ s ∈ block', s.isPlain = true) (hrest : Below depth rest)
    (hrest' : Below depth rest')
    (h : Line.block depth (allLines depth block) ++ rest =
      Line.block depth (allLines depth block') ++ rest') : block = block' ∧ rest = rest' := by
  have hcons : ∀ (s : Stmt) (block : List Stmt), Line.block depth (allLines depth (s :: block)) =
      allLines depth (s :: block) := by
    intro s block
    rw [Line.block, if_neg]
    rw [allLines, lines_eq]
    exact Bool.false_ne_true
  have hpass : ∀ {s : Stmt} {block : List Stmt} {rest more : List Line}, s.isPlain = true →
      Line.block depth (allLines depth []) ++ rest ≠ allLines depth (s :: block) ++ more := by
    intro s block rest more hs heq
    rw [allLines, allLines, lines_eq] at heq
    exact (heading_text_ne hs).1 (congrArg Line.text (List.cons.inj heq).1).symm
  cases block with
  | nil =>
    cases block' with
    | nil => exact ⟨rfl, (List.cons.inj h).2⟩
    | cons s' block' =>
      rw [hcons] at h
      exact absurd h (hpass (hplain' s' List.mem_cons_self))
  | cons s block =>
    cases block' with
    | nil =>
      rw [hcons] at h
      exact absurd h.symm (hpass (hplain s List.mem_cons_self))
    | cons s' block' =>
      rw [hcons, hcons] at h
      exact allLines_apart hapart hplain hplain' hrest hrest' h

/-- A second branch is told apart from what follows the statement. -/
theorem elseLines_apart (hapart : ∀ s ∈ block, s.Apart) (hplain : ∀ s ∈ block, s.isPlain = true)
    (hplain' : ∀ s ∈ block', s.isPlain = true) (hrest : Follows depth rest)
    (hrest' : Follows depth rest')
    (h : elseLines depth block ++ rest = elseLines depth block' ++ rest') :
    block = block' ∧ rest = rest' := by
  have hnot : ∀ {rest more : List Line}, Follows depth rest →
      rest ≠ ⟨depth, "else:"⟩ :: more := by
    rintro rest more hrest rfl
    exact (hrest _ rfl).2 rfl rfl
  cases block with
  | nil =>
    cases block' with
    | nil => exact ⟨rfl, h⟩
    | cons s' block' => exact absurd h (hnot hrest)
  | cons s block =>
    cases block' with
    | nil => exact absurd h.symm (hnot hrest')
    | cons s' block' =>
      exact allLines_apart hapart hplain hplain' hrest.below hrest'.below (List.cons.inj h).2

end

/-- **The lines of a plain statement are those of no other one**, and they have one end only. -/
theorem apart {s : Stmt} (h : s.isPlain = true) : s.Apart := by
  induction s using parts_induction with
  | step s ih =>
    intro depth s' rest rest' h' hrest hrest' heq
    rw [lines_eq, lines_eq, List.cons_append, List.cons_append] at heq
    obtain ⟨hline, hinner⟩ := List.cons.inj heq
    have hheading := Heading.text_injective (isPlain_heading h) (isPlain_heading h')
      (congrArg Line.text hline)
    have hplain : ∀ block ∈ s.blocks, ∀ part ∈ block, part.isPlain = true :=
      fun block hblock part => isPlain_of_block h hblock
    have hplain' : ∀ block ∈ s'.blocks, ∀ part ∈ block, part.isPlain = true :=
      fun block hblock part => isPlain_of_block h' hblock
    have hapart : ∀ block ∈ s.blocks, ∀ part ∈ block, part.Apart :=
      fun block hblock part hpart => ih block hblock part hpart (hplain block hblock part hpart)
    cases s with
    | eval value =>
      cases s' with
      | eval value' =>
        obtain rfl := Heading.eval.inj hheading
        exact ⟨rfl, hinner⟩
      | _ => cases hheading
    | assign target value =>
      cases s' with
      | assign target' value' =>
        obtain ⟨rfl, rfl⟩ := Heading.assign.inj hheading
        exact ⟨rfl, hinner⟩
      | _ => cases hheading
    | define name params body =>
      cases s' with
      | define name' params' body' =>
        obtain ⟨rfl, rfl⟩ := Heading.define.inj hheading
        obtain ⟨rfl, rfl⟩ := block_apart (hapart body List.mem_cons_self)
          (hplain body List.mem_cons_self) (hplain' body' List.mem_cons_self) hrest.below
          hrest'.below hinner
        exact ⟨rfl, rfl⟩
      | _ => cases hheading
    | branch test yes no =>
      cases s' with
      | branch test' yes' no' =>
        obtain rfl := Heading.branch.inj hheading
        simp only [blocks, List.forall_mem_cons] at hapart hplain hplain'
        rw [innerLines, innerLines, List.append_assoc, List.append_assoc] at hinner
        obtain ⟨rfl, helse⟩ := block_apart hapart.1 hplain.1 hplain'.1 (below_elseLines no hrest)
          (below_elseLines no' hrest') hinner
        obtain ⟨rfl, rfl⟩ := elseLines_apart hapart.2.1 hplain.2.1 hplain'.2.1 hrest hrest' helse
        exact ⟨rfl, rfl⟩
      | _ => cases hheading
    | ret value =>
      cases s' with
      | ret value' =>
        obtain rfl := Heading.ret.inj hheading
        exact ⟨rfl, hinner⟩
      | _ => cases hheading

/-! ## Programs -/

theorem isPlain_lines_block {depth : Nat} {lines : List Line} (h : ∀ line ∈ lines, line.IsPlain) :
    ∀ line ∈ Line.block depth lines, line.IsPlain := by
  unfold Line.block
  split
  · exact List.forall_mem_singleton.2 ⟨.pass, trivial, rfl⟩
  · exact h

theorem isPlain_allLines {depth : Nat} {block : List Stmt}
    (h : ∀ s ∈ block, ∀ line ∈ s.lines depth, line.IsPlain) :
    ∀ line ∈ allLines depth block, line.IsPlain := by
  induction block with
  | nil => exact List.forall_mem_nil _
  | cons s block ih =>
    rw [List.forall_mem_cons] at h
    rw [allLines]
    exact List.forall_mem_append.2 ⟨h.1, ih h.2⟩

/-- Every line of a plain statement is plain. -/
theorem isPlain_lines {s : Stmt} (h : s.isPlain = true) (depth : Nat) :
    ∀ line ∈ s.lines depth, line.IsPlain := by
  induction s using parts_induction generalizing depth with
  | step s ih =>
    have hblocks : ∀ block ∈ s.blocks, ∀ line ∈ allLines (depth + 1) block, line.IsPlain :=
      fun block hblock => isPlain_allLines fun part hpart =>
        ih block hblock part hpart (isPlain_of_block h hblock hpart) (depth + 1)
    rw [lines_eq]
    refine List.forall_mem_cons.2 ⟨⟨_, isPlain_heading h, rfl⟩, ?_⟩
    cases s with
    | define name params body => exact isPlain_lines_block (hblocks body List.mem_cons_self)
    | branch test yes no =>
      simp only [blocks, List.forall_mem_cons] at hblocks
      refine List.forall_mem_append.2 ⟨isPlain_lines_block hblocks.1, ?_⟩
      unfold elseLines
      split
      · exact List.forall_mem_nil _
      · exact List.forall_mem_cons.2 ⟨⟨.otherwise, trivial, rfl⟩, hblocks.2.1⟩
    | eval value | assign target value | ret value => exact List.forall_mem_nil _

end Stmt

namespace Program

theorem isPlain_lines {p : Program} (h : p.isPlain = true) :
    ∀ line ∈ Line.block 0 (Stmt.allLines 0 p.body), line.IsPlain := by
  apply Stmt.isPlain_lines_block
  apply Stmt.isPlain_allLines
  intro s hs
  exact Stmt.isPlain_lines (List.all_eq_true.1 h s hs) 0

/-- **The text of a plain program is that of no other plain program.** -/
theorem text_eq_text_iff {p q : Program} (hp : p.isPlain = true) (hq : q.isPlain = true) :
    p.text = q.text ↔ p = q := by
  constructor
  · intro htext
    have hlines := Line.renderAll_inj (isPlain_lines hp) (isPlain_lines hq) htext
    have hend : Stmt.Below 0 [] := by rintro line ⟨⟩
    obtain ⟨hbody, -⟩ := Stmt.block_apart
      (fun s hs => Stmt.apart (List.all_eq_true.1 hp s hs)) (List.all_eq_true.1 hp)
      (List.all_eq_true.1 hq) hend hend (congrArg (· ++ []) hlines)
    obtain ⟨body⟩ := p
    obtain ⟨body'⟩ := q
    rw [Program.mk.injEq]
    exact hbody
  · rintro rfl
    rfl

/-- Two branches, one in the other, each with a second branch or without. -/
def nestedBranch (inner outer : List Stmt) : Program :=
  ⟨[.branch (.name "a")
    [.branch (.call (.str "b") [] []) [.eval (.str "\n    else:\n        return 0.0")] inner]
    outer]⟩

/-- Which of the two branches a second one belongs to is seen from the text. -/
theorem text_eq_text_iff_nestedBranch :
    (nestedBranch [.ret (.float ⟨0x8000000000000000⟩)] []).isPlain = true ∧
      (nestedBranch [] [.ret (.float ⟨0x8000000000000000⟩)]).isPlain = true ∧
      (nestedBranch [.ret (.float ⟨0x8000000000000000⟩)] []).text ≠
        (nestedBranch [] [.ret (.float ⟨0x8000000000000000⟩)]).text := by
  have hinner : (nestedBranch [.ret (.float ⟨0x8000000000000000⟩)] []).isPlain = true := by decide
  have houter : (nestedBranch [] [.ret (.float ⟨0x8000000000000000⟩)]).isPlain = true := by decide
  refine ⟨hinner, houter, fun htext => ?_⟩
  have hsame := (text_eq_text_iff hinner houter).1 htext
  simp [nestedBranch] at hsame

end Program

end TagLang
