import TagLang.Proofs.Program.Spelling

/-!
# Expressions are told apart by their texts

In front of what may follow an expression in a program, the text of a plain expression is that of no
other plain expression, and it has one end only (`Expr.apart`). The first character tells runs,
strings, lists and round brackets apart (`Shape.exists_opening`). Behind a round bracket is `lambda`
or an expression, and behind that expression the end of the bracket, an operator or `if`; in each
case the texts agree as far as the parts do, and the parts are told apart already.
-/

namespace TagLang

/-! ## What follows an expression -/

/-- What may follow an expression in a program. -/
def Ends (rest : List Char) : Prop := ∀ c ∈ rest.head?, c ∈ [',', ')', ']', ' ', ':', '\n']

theorem ends_cons {c : Char} (h : c ∈ [',', ')', ']', ' ', ':', '\n']) (rest : List Char) :
    Ends (c :: rest) := by
  intro d hd
  rwa [← Option.some.inj hd]

theorem Ends.endsRun {rest : List Char} (h : Ends rest) : EndsRun rest :=
  fun c hc => isRunChar_of_mem_marks rfl (h c hc)

/-- An expression is told apart from all plain expressions by its text. -/
def Expr.Apart (e : Expr) : Prop :=
  ∀ e' rest rest', e'.isPlain = true → Ends rest → Ends rest' →
    e.text.toList ++ rest = e'.text.toList ++ rest' → e = e' ∧ rest = rest'

theorem Expr.Apart.before {e e' : Expr} (h : e.Apart) (he' : e'.isPlain = true) {c : Char}
    (hc : c ∈ [',', ')', ']', ' ', ':', '\n']) {rest rest' : List Char}
    (heq : e.text.toList ++ c :: rest = e'.text.toList ++ c :: rest') : e = e' ∧ rest = rest' := by
  obtain ⟨rfl, hrest⟩ := h e' _ _ he' (ends_cons hc rest) (ends_cons hc rest') heq
  exact ⟨rfl, (List.cons.inj hrest).2⟩

/-- An entry is told apart from all plain entries by its text. -/
def Entry.Apart (entry : Entry) : Prop :=
  ∀ entry' rest rest', entry'.isPlain = true → Ends rest → Ends rest' →
    entry.text.toList ++ rest = entry'.text.toList ++ rest' → entry = entry' ∧ rest = rest'

/-! ## Plain shapes -/

/-- The words that a statement or a function starts with. -/
def openingWords : List String := ["lambda", "if", "else", "def", "return", "pass"]

/-- A run that an expression can start with. -/
structure IsFront (run : List Char) : Prop where
  ne_nil : run ≠ []
  chars : ∀ c ∈ run, isRunChar c = true
  not_word : ∀ word ∈ openingWords, run ≠ word.toList

/-- Fixed runs are checked by evaluation. -/
theorem isFront_of_check {run : List Char} (hne : run ≠ []) (hchars : run.all isRunChar = true)
    (hwords : (openingWords.all fun word => run != word.toList) = true) : IsFront run :=
  ⟨hne, List.all_eq_true.1 hchars,
    fun word hword => bne_iff_ne.1 (List.all_eq_true.1 hwords word hword)⟩

theorem isFront_of_isPlainName {name : String} (h : isPlainName name = true) :
    IsFront name.toList where
  ne_nil := toList_ne_nil_of_isPlainName h
  chars := isRunChar_of_isPlainName h
  not_word := by
    intro word hword heq
    have hreserved : (openingWords.all fun word => reservedNames.contains word) = true := by decide
    rw [String.toList_injective heq] at h
    exact (isPlainName_iff.1 h).2.2
      (List.contains_iff_mem.1 (List.all_eq_true.1 hreserved word hword))

theorem isFront_of_isNumberRun {run : List Char} (h : IsNumberRun run) : IsFront run where
  ne_nil := h.ne_nil
  chars := h.chars
  not_word := by
    intro word hword heq
    have hstart : (openingWords.all fun word => word.toList.head?.any isNameStart) = true := by
      decide
    have hhead := h.head
    rw [heq, List.all_eq_true.1 hstart word hword] at hhead
    cases hhead

def Tail.IsPlain : Tail → Prop
  | .called entries => ∀ entry ∈ entries, entry.isPlain = true
  | .operated _ right => right.isPlain = true
  | .chosen test no => test.isPlain = true ∧ no.isPlain = true

def Shape.IsPlain : Shape → Prop
  | .front run inside => IsFront run ∧ ∀ entries ∈ inside, ∀ entry ∈ entries, entry.isPlain = true
  | .quoted _ => True
  | .listed entries => ∀ entry ∈ entries, entry.isPlain = true
  | .group first tail => first.isPlain = true ∧ tail.IsPlain
  | .function entries body => (∀ entry ∈ entries, entry.isPlain = true) ∧ body.isPlain = true

namespace Entry

theorem isPlain_ofItems {items : List Expr} (h : ∀ e ∈ items, e.isPlain = true) :
    ∀ entry ∈ ofItems items, entry.isPlain = true := by
  intro entry hentry
  obtain ⟨e, he, rfl⟩ := List.mem_map.1 hentry
  exact h e he

theorem isPlain_keywords {keywords : List (String × Expr)}
    (hkeys : ∀ key ∈ keywords.map Prod.fst, isPlainName key = true)
    (hvalues : ∀ e ∈ keywords.map Prod.snd, e.isPlain = true) :
    ∀ entry ∈ keywords.map (fun keyword => Entry.keyword keyword.1 keyword.2),
      entry.isPlain = true := by
  intro entry hentry
  obtain ⟨keyword, hkeyword, rfl⟩ := List.mem_map.1 hentry
  rw [isPlain, hkeys _ (List.mem_map_of_mem hkeyword), hvalues _ (List.mem_map_of_mem hkeyword)]
  rfl

theorem isPlain_ofArguments {args : List Expr} {keywords : List (String × Expr)}
    (hargs : ∀ e ∈ args, e.isPlain = true)
    (hkeys : ∀ key ∈ keywords.map Prod.fst, isPlainName key = true)
    (hvalues : ∀ e ∈ keywords.map Prod.snd, e.isPlain = true) :
    ∀ entry ∈ ofArguments args keywords, entry.isPlain = true :=
  List.forall_mem_append.2 ⟨isPlain_ofItems hargs, isPlain_keywords hkeys hvalues⟩

theorem isPlain_ofParams {params : Params Expr}
    (hnames : ∀ name ∈ params.names, isPlainName name = true)
    (hvalues : ∀ e ∈ params.keywords.map Prod.snd, e.isPlain = true) :
    ∀ entry ∈ ofParams params, entry.isPlain = true := by
  rw [Params.names, List.forall_mem_append, List.forall_mem_append] at hnames
  obtain ⟨⟨hpositional, hrest⟩, hkeys⟩ := hnames
  rw [ofParams, List.forall_mem_append, List.forall_mem_append]
  refine ⟨⟨?_, ?_⟩, isPlain_keywords hkeys hvalues⟩
  · intro entry hentry
    obtain ⟨name, hname, rfl⟩ := List.mem_map.1 hentry
    rw [isPlain, Expr.isPlain_name]
    exact hpositional name hname
  · intro entry hentry
    obtain ⟨name, hname, rfl⟩ := List.mem_map.1 hentry
    exact hrest name hname

end Entry

theorem Expr.isPlain_shape {e : Expr} (h : e.isPlain = true) : e.shape.IsPlain := by
  rw [isPlain_eq, Bool.and_eq_true, List.all_eq_true] at h
  obtain ⟨hpart, hparts⟩ := h
  cases e with
  | name ident => exact ⟨isFront_of_isPlainName hpart, by rintro _ ⟨⟩⟩
  | str value => trivial
  | int value => exact ⟨isFront_of_isNumberRun (isNumberRun_intText _), by rintro _ ⟨⟩⟩
  | float x =>
    rw [shape]
    by_cases hfinite : x.isFinite = true
    · rw [if_pos hfinite]
      exact ⟨isFront_of_isNumberRun (isNumberRun_text _ hfinite), by rintro _ ⟨⟩⟩
    · rw [if_neg hfinite]
      refine ⟨?_, ?_⟩
      · cases x.negative with
        | true => exact isFront_of_check (by decide) (by decide) (by decide)
        | false => exact isFront_of_check (by decide) (by decide) (by decide)
      · rintro entries ⟨⟩
        exact List.forall_mem_singleton.2 rfl
  | complex re im =>
    obtain ⟨hre, him⟩ := Bool.and_eq_true_iff.1 hpart
    refine ⟨isFront_of_check (by decide) (by decide) (by decide), ?_⟩
    rintro entries ⟨⟩
    rw [← isPlain_float] at hre him
    exact List.forall_mem_cons.2 ⟨hre, List.forall_mem_singleton.2 him⟩
  | nothing => exact ⟨isFront_of_check (by decide) (by decide) (by decide), by rintro _ ⟨⟩⟩
  | list items => exact Entry.isPlain_ofItems hparts
  | call func args keywords =>
    rw [parts, List.forall_mem_cons, List.forall_mem_append] at hparts
    obtain ⟨hfunc, hargs, hvalues⟩ := hparts
    have hentries := Entry.isPlain_ofArguments hargs (List.all_eq_true.1 hpart) hvalues
    cases hname : func.name? with
    | none =>
      rw [shape_call_of_name? hname]
      exact ⟨hfunc, hentries⟩
    | some ident =>
      obtain rfl := eq_name_of_name? hname
      rw [isPlain_name] at hfunc
      refine ⟨isFront_of_isPlainName hfunc, ?_⟩
      rintro entries ⟨⟩
      exact hentries
  | binOp op left right =>
    rw [parts, List.forall_mem_cons, List.forall_mem_singleton] at hparts
    exact hparts
  | ifExp test yes no =>
    rw [parts, List.forall_mem_cons, List.forall_mem_cons, List.forall_mem_singleton] at hparts
    exact ⟨hparts.2.1, hparts.1, hparts.2.2⟩
  | lambda params body =>
    rw [parts, List.forall_mem_append, List.forall_mem_singleton] at hparts
    exact ⟨Entry.isPlain_ofParams (List.all_eq_true.1 hpart) hparts.1, hparts.2⟩

/-! ## First characters -/

/-- What the text of an expression opens with. -/
inductive Opening where
  | run
  | quote
  | square
  | round

def Opening.ofChar (c : Char) : Opening :=
  if c = '"' then .quote else if c = '[' then .square else if c = '(' then .round else .run

def Shape.opening : Shape → Opening
  | .front _ _ => .run
  | .quoted _ => .quote
  | .listed _ => .square
  | .group _ _ => .round
  | .function _ _ => .round

theorem ne_of_isRunChar {c d : Char} (hc : isRunChar c = true) (hd : isRunChar d = false) :
    c ≠ d := by
  rintro rfl
  rw [hc] at hd
  cases hd

/-- **The first character tells the kinds of shapes apart.** -/
theorem Shape.exists_opening {s : Shape} (h : s.IsPlain) :
    ∃ c text, s.text = c :: text ∧ Opening.ofChar c = s.opening := by
  cases s with
  | front run inside =>
    obtain ⟨c, more, rfl⟩ := List.exists_cons_of_ne_nil h.1.ne_nil
    have hc := h.1.chars c List.mem_cons_self
    refine ⟨c, more ++ insideText inside, rfl, ?_⟩
    rw [Opening.ofChar, if_neg (ne_of_isRunChar hc rfl), if_neg (ne_of_isRunChar hc rfl),
      if_neg (ne_of_isRunChar hc rfl)]
    rfl
  | quoted value => exact ⟨'"', _, Text.Quoted.toList_quote value, rfl⟩
  | listed entries => exact ⟨'[', _, rfl, rfl⟩
  | group first tail => exact ⟨'(', _, rfl, rfl⟩
  | function entries body => exact ⟨'(', _, rfl, rfl⟩

/-- How a text starts: with a run that is no word of a statement, perhaps an empty one, and then, if
anything, with a bracket or a quote. -/
structure Leads (text run tail : List Char) : Prop where
  split : text = run ++ tail
  ne_nil : text ≠ []
  chars : ∀ c ∈ run, isRunChar c = true
  tail_head : ∀ c ∈ tail.head?, c ∈ ['(', '[', '"']
  not_word : ∀ word ∈ openingWords, run ≠ word.toList

/-- A bracket or a quote comes behind an empty run. -/
theorem leads_of_mark {c : Char} (hc : c ∈ ['(', '[', '"']) (text : List Char) :
    Leads (c :: text) [] (c :: text) where
  split := rfl
  ne_nil := List.cons_ne_nil _ _
  chars := List.forall_mem_nil _
  tail_head := by
    intro d hd
    rwa [← Option.some.inj hd]
  not_word := by
    have hwords : (openingWords.all fun word => [] != word.toList) = true := by decide
    exact fun word hword => bne_iff_ne.1 (List.all_eq_true.1 hwords word hword)

theorem Shape.exists_leads {s : Shape} (h : s.IsPlain) : ∃ run tail, Leads s.text run tail := by
  cases s with
  | front run inside =>
    refine ⟨run, insideText inside, rfl, ?_, h.1.chars, ?_, h.1.not_word⟩
    · exact List.append_ne_nil_of_left_ne_nil h.1.ne_nil _
    · cases inside with
      | none => rintro c ⟨⟩
      | some entries =>
        rintro c ⟨⟩
        decide
  | quoted value =>
    rw [Shape.text, Text.Quoted.toList_quote]
    exact ⟨_, _, leads_of_mark (by decide) _⟩
  | listed entries => exact ⟨_, _, leads_of_mark (by decide) _⟩
  | group first tail => exact ⟨_, _, leads_of_mark (by decide) _⟩
  | function entries body => exact ⟨_, _, leads_of_mark (by decide) _⟩

theorem Expr.exists_leads {e : Expr} (h : e.isPlain = true) :
    ∃ run tail, Leads e.text.toList run tail := by
  rw [toList_text h]
  exact Shape.exists_leads (isPlain_shape h)

namespace Leads

variable {text run tail rest : List Char}

/-- The first character is one of a run, a bracket or a quote. -/
theorem exists_first (h : Leads text run tail) :
    ∃ c more, text = c :: more ∧ (isRunChar c = true ∨ c ∈ ['(', '[', '"']) := by
  obtain ⟨c, more, rfl⟩ := List.exists_cons_of_ne_nil h.ne_nil
  refine ⟨c, more, rfl, ?_⟩
  cases run with
  | nil => exact .inr (h.tail_head c (by rw [← List.nil_append tail, ← h.split]; rfl))
  | cons d run =>
    obtain ⟨rfl, -⟩ := List.cons.inj h.split
    exact .inl (h.chars c List.mem_cons_self)

/-- What comes behind the run is a bracket, a quote or what follows the text. -/
theorem mem_or_mem (h : Leads text run tail) (rest : List Char) :
    ∀ c ∈ (tail ++ rest).head?, c ∈ ['(', '[', '"'] ∨ c ∈ rest.head? := by
  intro c hc
  cases tail with
  | nil => exact .inr hc
  | cons d tail => exact .inl (h.tail_head c hc)

theorem endsRun (h : Leads text run tail) (hrest : EndsRun rest) : EndsRun (tail ++ rest) := by
  intro c hc
  rcases h.mem_or_mem rest c hc with hmark | hfollows
  · exact isRunChar_of_mem_marks rfl hmark
  · exact hrest c hfollows

/-- The run is found in any text that goes on behind another run. -/
theorem eq_of_append_eq (h : Leads text run tail) (hrest : EndsRun rest) {other more : List Char}
    (hother : ∀ c ∈ other, isRunChar c = true) (hmore : EndsRun more)
    (heq : text ++ rest = other ++ more) : run = other ∧ tail ++ rest = more := by
  rw [h.split, List.append_assoc] at heq
  exact run_append_inj h.chars hother (h.endsRun hrest) hmore heq

/-- An expression is not followed by the sign of a keyword, and does not start like the last
parameter. -/
theorem append_ne (h : Leads text run tail) (hrest : Ends rest) {other more : List Char} {c : Char}
    (hother : ∀ d ∈ other, isRunChar d = true) (hc : c ∈ ['=', '*']) :
    text ++ rest ≠ other ++ c :: more := by
  intro heq
  have hmark : EndsRun (c :: more) := endsRun_cons (isRunChar_of_mem_marks rfl hc) more
  have hbehind := (h.eq_of_append_eq hrest.endsRun hother hmark heq).2
  have hmem := h.mem_or_mem rest c (by rw [hbehind]; rfl)
  simp only [List.mem_cons, List.not_mem_nil, or_false] at hc
  rcases hc with rfl | rfl
  · rcases hmem with hmem | hmem
    · exact absurd hmem (by decide)
    · exact absurd (hrest _ hmem) (by decide)
  · rcases hmem with hmem | hmem
    · exact absurd hmem (by decide)
    · exact absurd (hrest _ hmem) (by decide)

end Leads

/-! ## Entries -/

namespace Entry

variable {entry : Entry} {rest rest' : List Char}

theorem toList_keyword (key : String) (e : Expr) :
    (Entry.keyword key e).text.toList = key.toList ++ '=' :: e.text.toList := by
  simp [text]

theorem toList_rest (name : String) : (Entry.rest name).text.toList = '*' :: name.toList := by
  simp [text]

theorem value_ne_keyword {e e' : Expr} {key : String} (he : e.isPlain = true)
    (hkey : isPlainName key = true) (hrest : Ends rest) :
    (Entry.value e).text.toList ++ rest ≠ (Entry.keyword key e').text.toList ++ rest' := by
  obtain ⟨run, tail, hleads⟩ := Expr.exists_leads he
  rw [toList_keyword, List.append_assoc, List.cons_append]
  exact hleads.append_ne hrest (isRunChar_of_isPlainName hkey) (by decide)

theorem value_ne_rest {e : Expr} {name : String} (he : e.isPlain = true) (hrest : Ends rest) :
    (Entry.value e).text.toList ++ rest ≠ (Entry.rest name).text.toList ++ rest' := by
  obtain ⟨run, tail, hleads⟩ := Expr.exists_leads he
  rw [toList_rest, List.cons_append]
  exact hleads.append_ne hrest (List.forall_mem_nil _) (by decide)

theorem keyword_ne_rest {e : Expr} {key name : String} (hkey : isPlainName key = true) :
    (Entry.keyword key e).text.toList ++ rest ≠ (Entry.rest name).text.toList ++ rest' := by
  intro heq
  obtain ⟨c, more, hcons⟩ := List.exists_cons_of_ne_nil (toList_ne_nil_of_isPlainName hkey)
  have hc := isRunChar_of_isPlainName hkey c (hcons ▸ List.mem_cons_self)
  rw [toList_keyword, toList_rest, hcons] at heq
  exact ne_of_isRunChar hc rfl (List.cons.inj heq).1

/-- **Entries are told apart** if the expressions in them are. -/
theorem apart (hplain : entry.isPlain = true) (h : ∀ e ∈ entry.expr?, e.Apart) : entry.Apart := by
  intro entry' rest rest' hplain' hrest hrest' heq
  cases entry with
  | value e =>
    cases entry' with
    | value e' =>
      obtain ⟨rfl, rfl⟩ := h e rfl e' rest rest' hplain' hrest hrest' heq
      exact ⟨rfl, rfl⟩
    | keyword key e' =>
      exact absurd heq (value_ne_keyword hplain (Bool.and_eq_true_iff.1 hplain').1 hrest)
    | rest name => exact absurd heq (value_ne_rest hplain hrest)
  | keyword key e =>
    obtain ⟨hkey, -⟩ := Bool.and_eq_true_iff.1 hplain
    cases entry' with
    | value e' => exact absurd heq.symm (value_ne_keyword hplain' hkey hrest')
    | keyword key' e' =>
      obtain ⟨hkey', he'⟩ := Bool.and_eq_true_iff.1 hplain'
      rw [toList_keyword, toList_keyword, List.append_assoc, List.append_assoc, List.cons_append,
        List.cons_append] at heq
      obtain ⟨hkeys, hvalues⟩ := run_append_inj (isRunChar_of_isPlainName hkey)
        (isRunChar_of_isPlainName hkey') (endsRun_cons rfl _) (endsRun_cons rfl _) heq
      obtain rfl := String.toList_injective hkeys
      obtain ⟨rfl, rfl⟩ := h e rfl e' rest rest' he' hrest hrest' (List.cons.inj hvalues).2
      exact ⟨rfl, rfl⟩
    | rest name => exact absurd heq (keyword_ne_rest hkey)
  | rest name =>
    cases entry' with
    | value e' => exact absurd heq.symm (value_ne_rest hplain' hrest')
    | keyword key e' =>
      exact absurd heq.symm (keyword_ne_rest (Bool.and_eq_true_iff.1 hplain').1)
    | rest name' =>
      rw [toList_rest, toList_rest] at heq
      obtain ⟨hnames, rfl⟩ := run_append_inj (isRunChar_of_isPlainName hplain)
        (isRunChar_of_isPlainName hplain') hrest.endsRun hrest'.endsRun (List.cons.inj heq).2
      rw [String.toList_injective hnames]
      exact ⟨rfl, rfl⟩

/-- No entry starts like the end of a comma list. -/
theorem text_ne (hplain : entry.isPlain = true) {close : Char} (hclose : close ∈ [')', ']', ':'])
    (more : List Char) : entry.text.toList ++ rest ≠ close :: more := by
  have hclosing : isRunChar close = false ∧ close ∉ ['(', '[', '"', '*'] := by
    simp only [List.mem_cons, List.not_mem_nil, or_false] at hclose
    rcases hclose with rfl | rfl | rfl
    · decide
    · decide
    · decide
  intro heq
  cases entry with
  | value e =>
    obtain ⟨run, tail, hleads⟩ := Expr.exists_leads hplain
    obtain ⟨c, text, htext, hc⟩ := hleads.exists_first
    rw [Entry.text, htext] at heq
    obtain ⟨rfl, -⟩ := List.cons.inj heq
    rcases hc with hrun | hmark
    · rw [hclosing.1] at hrun
      cases hrun
    · exact hclosing.2 (List.mem_append_left ['*'] hmark)
  | keyword key e =>
    obtain ⟨hkey, -⟩ := Bool.and_eq_true_iff.1 hplain
    obtain ⟨c, name, hcons⟩ := List.exists_cons_of_ne_nil (toList_ne_nil_of_isPlainName hkey)
    have hc := isRunChar_of_isPlainName hkey c (hcons ▸ List.mem_cons_self)
    rw [toList_keyword, hcons] at heq
    exact ne_of_isRunChar hc hclosing.1 (List.cons.inj heq).1
  | rest name =>
    rw [toList_rest] at heq
    exact hclosing.2 ((List.cons.inj heq).1 ▸ by decide)

theorem moreText_cons (entry : Entry) (entries : List Entry) :
    moreText (entry :: entries) = ',' :: ' ' :: (entry.text.toList ++ moreText entries) :=
  List.flatMap_cons

/-- An entry is followed by a comma or the end of the list. -/
theorem ends_moreText {close : Char} (hclose : close ∈ [')', ']', ':']) (entries : List Entry)
    (rest : List Char) : Ends (moreText entries ++ close :: rest) := by
  cases entries with
  | nil =>
    refine ends_cons ?_ rest
    simp only [List.mem_cons, List.not_mem_nil, or_false] at hclose ⊢
    rcases hclose with rfl | rfl | rfl
    · exact .inr (.inl rfl)
    · exact .inr (.inr (.inl rfl))
    · exact .inr (.inr (.inr (.inr (.inl rfl))))
  | cons entry entries => exact ends_cons (by decide) _

/-- Entries behind others end where the list ends. -/
theorem moreText_apart {entries entries' : List Entry} (hapart : ∀ entry ∈ entries, entry.Apart)
    (hplain : ∀ entry ∈ entries', entry.isPlain = true) {close : Char}
    (hclose : close ∈ [')', ']', ':'])
    (h : moreText entries ++ close :: rest = moreText entries' ++ close :: rest') :
    entries = entries' ∧ rest = rest' := by
  have hcomma : close ≠ ',' := by
    rintro rfl
    exact absurd hclose (by decide)
  induction entries generalizing entries' with
  | nil =>
    cases entries' with
    | nil => exact ⟨rfl, (List.cons.inj h).2⟩
    | cons entry' entries' => exact absurd (List.cons.inj h).1 hcomma
  | cons entry entries ih =>
    cases entries' with
    | nil => exact absurd (List.cons.inj h).1.symm hcomma
    | cons entry' entries' =>
      rw [List.forall_mem_cons] at hapart hplain
      rw [moreText_cons, moreText_cons] at h
      simp only [List.cons_append, List.append_assoc, List.cons.injEq, true_and] at h
      obtain ⟨rfl, hmore⟩ := hapart.1 entry' _ _ hplain.1 (ends_moreText hclose entries rest)
        (ends_moreText hclose entries' rest') h
      obtain ⟨rfl, rfl⟩ := ih hapart.2 hplain.2 hmore
      exact ⟨rfl, rfl⟩

/-- **Comma lists are told apart** if their entries are. -/
theorem listText_apart {entries entries' : List Entry} (hapart : ∀ entry ∈ entries, entry.Apart)
    (hplain : ∀ entry ∈ entries, entry.isPlain = true)
    (hplain' : ∀ entry ∈ entries', entry.isPlain = true) {close : Char}
    (hclose : close ∈ [')', ']', ':'])
    (h : listText entries ++ close :: rest = listText entries' ++ close :: rest') :
    entries = entries' ∧ rest = rest' := by
  cases entries with
  | nil =>
    cases entries' with
    | nil => exact ⟨rfl, (List.cons.inj h).2⟩
    | cons entry' entries' =>
      rw [listText, listText, List.append_assoc] at h
      exact absurd h.symm (text_ne (hplain' entry' List.mem_cons_self) hclose rest)
  | cons entry entries =>
    cases entries' with
    | nil =>
      rw [listText, listText, List.append_assoc] at h
      exact absurd h (text_ne (hplain entry List.mem_cons_self) hclose rest')
    | cons entry' entries' =>
      rw [List.forall_mem_cons] at hapart hplain'
      rw [listText, listText, List.append_assoc, List.append_assoc] at h
      obtain ⟨rfl, hmore⟩ := hapart.1 entry' _ _ hplain'.1 (ends_moreText hclose entries rest)
        (ends_moreText hclose entries' rest') h
      obtain ⟨rfl, rfl⟩ := moreText_apart hapart.2 hplain'.2 hclose hmore
      exact ⟨rfl, rfl⟩

end Entry

/-! ## Shapes -/

/-- The expressions in a shape. -/
def Tail.parts : Tail → List Expr
  | .called entries => entries.filterMap Entry.expr?
  | .operated _ right => [right]
  | .chosen test no => [test, no]

def Shape.parts : Shape → List Expr
  | .front _ inside => (inside.getD []).filterMap Entry.expr?
  | .quoted _ => []
  | .listed entries => entries.filterMap Entry.expr?
  | .group first tail => first :: tail.parts
  | .function entries body => entries.filterMap Entry.expr? ++ [body]

theorem Entry.apart_of_exprs {entries : List Entry}
    (hplain : ∀ entry ∈ entries, entry.isPlain = true)
    (h : ∀ e ∈ entries.filterMap Entry.expr?, e.Apart) : ∀ entry ∈ entries, entry.Apart := by
  intro entry hentry
  refine apart (hplain entry hentry) fun e he => h e ?_
  exact List.mem_filterMap.2 ⟨entry, hentry, he⟩

theorem BinOp.symbol_injective {op op' : BinOp} (h : op.symbol = op'.symbol) : op = op' := by
  revert h
  cases op <;> cases op' <;> decide

theorem BinOp.symbol_spec (op : BinOp) :
    ' ' ∉ op.symbol.toList ∧ op.symbol.toList ≠ ['i', 'f'] := by
  cases op <;> decide

/-- A word in front of a space ends there. -/
theorem word_append_inj {word word' text text' : List Char} (hword : ' ' ∉ word)
    (hword' : ' ' ∉ word') (h : word ++ ' ' :: text = word' ++ ' ' :: text') :
    word = word' ∧ text = text' := by
  have hchars : ∀ {word : List Char}, ' ' ∉ word → ∀ c ∈ word, (c != ' ') = true := by
    intro word hword c hc
    apply bne_iff_ne.2
    rintro rfl
    exact hword hc
  have hspace : ∀ text : List Char, ∀ c ∈ (' ' :: text).head?, (c != ' ') = false := by
    rintro text c ⟨⟩
    rfl
  obtain ⟨hsame, hmore⟩ := append_inj_of_stop (hchars hword) (hchars hword') (hspace text)
    (hspace text') h
  exact ⟨hsame, (List.cons.inj hmore).2⟩

/-- **What follows the first expression of a bracket is told apart.** -/
theorem Tail.apart {tail tail' : Tail} {rest rest' : List Char} (hplain : tail.IsPlain)
    (hplain' : tail'.IsPlain) (hparts : ∀ e ∈ tail.parts, e.Apart)
    (h : tail.text ++ rest = tail'.text ++ rest') : tail = tail' ∧ rest = rest' := by
  cases tail with
  | called entries =>
    cases tail' with
    | called entries' =>
      simp only [text, List.cons_append, List.append_assoc, List.nil_append, List.cons.injEq,
        true_and] at h
      obtain ⟨rfl, rfl⟩ := Entry.listText_apart (Entry.apart_of_exprs hplain hparts) hplain hplain'
        (by decide) h
      exact ⟨rfl, rfl⟩
    | operated op right => exact absurd (List.cons.inj h).1 (by decide)
    | chosen test no => exact absurd (List.cons.inj h).1 (by decide)
  | operated op right =>
    obtain ⟨hblank, hif⟩ := op.symbol_spec
    cases tail' with
    | called entries' => exact absurd (List.cons.inj h).1 (by decide)
    | operated op' right' =>
      simp only [text, List.cons_append, List.append_assoc, List.nil_append, List.cons.injEq,
        true_and] at h
      obtain ⟨hop, hright⟩ := word_append_inj hblank op'.symbol_spec.1 h
      obtain rfl := BinOp.symbol_injective (String.toList_injective hop)
      obtain ⟨rfl, rfl⟩ := (hparts right List.mem_cons_self).before hplain' (by decide) hright
      exact ⟨rfl, rfl⟩
    | chosen test no =>
      simp only [text, List.cons_append, List.append_assoc, List.cons.injEq, true_and] at h
      exact absurd (word_append_inj hblank (by decide) h).1 hif
  | chosen test no =>
    cases tail' with
    | called entries' => exact absurd (List.cons.inj h).1 (by decide)
    | operated op' right' =>
      obtain ⟨hblank, hif⟩ := op'.symbol_spec
      simp only [text, List.cons_append, List.append_assoc, List.cons.injEq, true_and] at h
      exact absurd (word_append_inj hblank (by decide) h.symm).1 hif
    | chosen test' no' =>
      simp only [Tail.parts, List.forall_mem_cons] at hparts
      simp only [text, List.cons_append, List.append_assoc, List.nil_append, List.cons.injEq,
        true_and] at h
      obtain ⟨rfl, hword⟩ := hparts.1.before hplain'.1 (by decide) h
      simp only [List.cons.injEq, true_and] at hword
      obtain ⟨rfl, rfl⟩ := hparts.2.1.before hplain'.2 (by decide) hword
      exact ⟨rfl, rfl⟩

theorem Tail.ends_text (tail : Tail) (rest : List Char) : Ends (tail.text ++ rest) := by
  cases tail with
  | called entries => exact ends_cons (by decide) _
  | operated op right => exact ends_cons (by decide) _
  | chosen test no => exact ends_cons (by decide) _

namespace Shape

variable {rest rest' : List Char}

theorem insideText_apart {inside inside' : Option (List Entry)}
    (hapart : ∀ entries ∈ inside, ∀ entry ∈ entries, entry.Apart)
    (hplain : ∀ entries ∈ inside, ∀ entry ∈ entries, entry.isPlain = true)
    (hplain' : ∀ entries ∈ inside', ∀ entry ∈ entries, entry.isPlain = true)
    (hrest : Ends rest) (hrest' : Ends rest')
    (h : insideText inside ++ rest = insideText inside' ++ rest') :
    inside = inside' ∧ rest = rest' := by
  have hnot : ∀ {rest more : List Char}, Ends rest → rest ≠ '(' :: more := by
    rintro rest more hrest rfl
    exact absurd (hrest '(' rfl) (by decide)
  cases inside with
  | none =>
    cases inside' with
    | none => exact ⟨rfl, h⟩
    | some entries' => exact absurd h (hnot hrest)
  | some entries =>
    cases inside' with
    | none => exact absurd h.symm (hnot hrest')
    | some entries' =>
      simp only [insideText, List.cons_append, List.append_assoc, List.nil_append, List.cons.injEq,
        true_and] at h
      obtain ⟨rfl, rfl⟩ := Entry.listText_apart (hapart entries rfl) (hplain entries rfl)
        (hplain' entries' rfl) (by decide) h
      exact ⟨rfl, rfl⟩

theorem endsRun_insideText (inside : Option (List Entry)) (hrest : Ends rest) :
    EndsRun (insideText inside ++ rest) := by
  cases inside with
  | none => exact hrest.endsRun
  | some entries => exact endsRun_cons rfl _

theorem paramsText_apart {entries entries' : List Entry}
    (hapart : ∀ entry ∈ entries, entry.Apart) (hplain : ∀ entry ∈ entries, entry.isPlain = true)
    (hplain' : ∀ entry ∈ entries', entry.isPlain = true)
    (h : paramsText entries ++ ':' :: rest = paramsText entries' ++ ':' :: rest') :
    entries = entries' ∧ rest = rest' := by
  cases entries with
  | nil =>
    cases entries' with
    | nil => exact ⟨rfl, (List.cons.inj h).2⟩
    | cons entry' entries' => exact absurd (List.cons.inj h).1 (by decide)
  | cons entry entries =>
    cases entries' with
    | nil => exact absurd (List.cons.inj h).1 (by decide)
    | cons entry' entries' =>
      exact Entry.listText_apart hapart hplain hplain' (by decide) (List.cons.inj h).2

theorem ends_paramsText (entries : List Entry) (rest : List Char) :
    Ends (paramsText entries ++ ':' :: rest) := by
  cases entries with
  | nil => exact ends_cons (by decide) _
  | cons entry entries => exact ends_cons (by decide) _

/-- No expression in round brackets starts with the word of functions. -/
theorem group_ne_function {first body : Expr} (hfirst : first.isPlain = true) (tail : Tail)
    (entries : List Entry) :
    (group first tail).text ++ rest ≠ (function entries body).text ++ rest' := by
  intro h
  obtain ⟨run, more, hleads⟩ := Expr.exists_leads hfirst
  rw [text, text, List.cons_append, List.cons_append, List.append_assoc, List.append_assoc,
    List.append_assoc, List.cons_append] at h
  have hword := hleads.eq_of_append_eq (tail.ends_text rest).endsRun
    (List.all_eq_true.1 (rfl : "lambda".toList.all isRunChar = true))
    (ends_paramsText entries _).endsRun (List.cons.inj h).2
  exact hleads.not_word "lambda" List.mem_cons_self hword.1

/-- **Shapes are told apart** if the expressions in them are. -/
theorem apart {s s' : Shape} (hs : s.IsPlain) (hs' : s'.IsPlain) (hparts : ∀ e ∈ s.parts, e.Apart)
    (hrest : Ends rest) (hrest' : Ends rest') (h : s.text ++ rest = s'.text ++ rest') :
    s = s' ∧ rest = rest' := by
  have hopening : s.opening = s'.opening := by
    obtain ⟨c, text, htext, hc⟩ := exists_opening hs
    obtain ⟨c', text', htext', hc'⟩ := exists_opening hs'
    rw [htext, htext'] at h
    rw [← hc, ← hc', (List.cons.inj h).1]
  cases s with
  | front run inside =>
    cases s' with
    | front run' inside' =>
      rw [text, text, List.append_assoc, List.append_assoc] at h
      obtain ⟨rfl, hinside⟩ := run_append_inj hs.1.chars hs'.1.chars
        (endsRun_insideText inside hrest) (endsRun_insideText inside' hrest') h
      have hapart : ∀ entries ∈ inside, ∀ entry ∈ entries, entry.Apart := by
        rintro entries ⟨⟩
        exact Entry.apart_of_exprs (hs.2 entries rfl) hparts
      obtain ⟨rfl, rfl⟩ := insideText_apart hapart hs.2 hs'.2 hrest hrest' hinside
      exact ⟨rfl, rfl⟩
    | _ => cases hopening
  | quoted value =>
    cases s' with
    | quoted value' =>
      obtain ⟨rfl, rfl⟩ := Text.Quoted.quote_append_inj h
      exact ⟨rfl, rfl⟩
    | _ => cases hopening
  | listed entries =>
    cases s' with
    | listed entries' =>
      simp only [text, List.cons_append, List.append_assoc, List.nil_append, List.cons.injEq,
        true_and] at h
      obtain ⟨rfl, rfl⟩ := Entry.listText_apart (Entry.apart_of_exprs hs hparts) hs hs'
        (by decide) h
      exact ⟨rfl, rfl⟩
    | _ => cases hopening
  | group first tail =>
    obtain ⟨hfirst, htail⟩ := List.forall_mem_cons.1 hparts
    cases s' with
    | group first' tail' =>
      simp only [text, List.cons_append, List.append_assoc, List.cons.injEq, true_and] at h
      obtain ⟨rfl, hmore⟩ := hfirst first' _ _ hs'.1 (tail.ends_text rest) (tail'.ends_text rest') h
      obtain ⟨rfl, rfl⟩ := Tail.apart hs.2 hs'.2 htail hmore
      exact ⟨rfl, rfl⟩
    | function entries body => exact absurd h (group_ne_function hs.1 tail entries)
    | _ => cases hopening
  | function entries body =>
    rw [Shape.parts, List.forall_mem_append, List.forall_mem_singleton] at hparts
    cases s' with
    | group first tail => exact absurd h.symm (group_ne_function hs'.1 tail entries)
    | function entries' body' =>
      simp only [text, List.cons_append, List.append_assoc, List.nil_append, List.cons.injEq,
        true_and] at h
      obtain ⟨rfl, hbody⟩ := paramsText_apart (Entry.apart_of_exprs hs.1 hparts.1) hs.1 hs'.1
        (List.append_cancel_left h)
      obtain ⟨rfl, rfl⟩ := hparts.2.before hs'.2 (by decide) (List.cons.inj hbody).2
      exact ⟨rfl, rfl⟩
    | _ => cases hopening

end Shape

/-! ## Expressions -/

namespace Entry

theorem exprs_ofItems (items : List Expr) : (ofItems items).filterMap expr? = items := by
  rw [ofItems, List.filterMap_map]
  exact List.filterMap_some

theorem exprs_ofArguments (args : List Expr) (keywords : List (String × Expr)) :
    (ofArguments args keywords).filterMap expr? = args ++ keywords.map Prod.snd := by
  simp [ofArguments, List.filterMap_append, List.filterMap_map, Function.comp_def, expr?]

theorem exprs_ofParams (params : Params Expr) :
    (ofParams params).filterMap expr? =
      params.positional.map .name ++ params.keywords.map Prod.snd := by
  simp [ofParams, List.filterMap_append, List.filterMap_map, Function.comp_def, expr?]

end Entry

namespace Expr

theorem apart_of_parts {e : Expr} (h : e.isPlain = true) (hparts : ∀ d ∈ e.shape.parts, d.Apart) :
    e.Apart := by
  intro e' rest rest' he' hrest hrest' heq
  rw [toList_text h, toList_text he'] at heq
  obtain ⟨hshape, rfl⟩ := Shape.apart (isPlain_shape h) (isPlain_shape he') hparts hrest hrest' heq
  refine ⟨?_, rfl⟩
  rw [← expr_shape h, hshape, expr_shape he']

theorem apart_str (value : String) : (Expr.str value).Apart :=
  apart_of_parts rfl (List.forall_mem_nil _)

theorem apart_name {ident : String} (h : isPlainName ident = true) : (Expr.name ident).Apart := by
  rw [← isPlain_name] at h
  exact apart_of_parts h (List.forall_mem_nil _)

/-- The only part that the text of a number can have is the word for infinity. -/
theorem apart_parts_float (x : Binary64) : ∀ d ∈ (Expr.float x).shape.parts, d.Apart := by
  rw [shape]
  split
  · exact List.forall_mem_nil _
  · exact List.forall_mem_singleton.2 (apart_str "inf")

/-- **The text of a plain expression is that of no other one**, and has one end only. -/
theorem apart {e : Expr} (h : e.isPlain = true) : e.Apart := by
  induction e using parts_induction with
  | step e ih =>
    refine apart_of_parts h ?_
    rw [isPlain_eq, Bool.and_eq_true, List.all_eq_true] at h
    obtain ⟨hpart, hplain⟩ := h
    have hparts : ∀ d ∈ e.parts, d.Apart := fun d hd => ih d hd (hplain d hd)
    cases e with
    | name | str | int | nothing => exact List.forall_mem_nil _
    | float x => exact apart_parts_float x
    | complex re im =>
      obtain ⟨hre, him⟩ := Bool.and_eq_true_iff.1 hpart
      rw [← isPlain_float] at hre him
      refine List.forall_mem_cons.2 ⟨?_, List.forall_mem_singleton.2 ?_⟩
      · exact apart_of_parts hre (apart_parts_float re)
      · exact apart_of_parts him (apart_parts_float im)
    | list items =>
      rw [shape, Shape.parts, Entry.exprs_ofItems]
      exact hparts
    | call func args keywords =>
      rw [parts, List.forall_mem_cons] at hparts
      cases hname : func.name? with
      | none =>
        rw [shape_call_of_name? hname, Shape.parts, Tail.parts, Entry.exprs_ofArguments]
        exact List.forall_mem_cons.2 hparts
      | some ident =>
        obtain rfl := eq_name_of_name? hname
        rw [shape, Shape.parts, Option.getD_some, Entry.exprs_ofArguments]
        exact hparts.2
    | binOp op left right => exact hparts
    | ifExp test yes no =>
      rw [parts, List.forall_mem_cons, List.forall_mem_cons] at hparts
      exact List.forall_mem_cons.2 ⟨hparts.2.1, List.forall_mem_cons.2 ⟨hparts.1, hparts.2.2⟩⟩
    | lambda params body =>
      rw [parts, List.forall_mem_append] at hparts
      rw [shape, Shape.parts, Entry.exprs_ofParams]
      refine List.forall_mem_append.2 ⟨List.forall_mem_append.2 ⟨?_, hparts.1⟩, hparts.2⟩
      intro d hd
      obtain ⟨name, hname, rfl⟩ := List.mem_map.1 hd
      refine apart_name (List.all_eq_true.1 hpart name ?_)
      exact List.mem_append_left _ (List.mem_append_left _ hname)

end Expr

theorem Entry.apart_of_isPlain {entry : Entry} (h : entry.isPlain = true) : entry.Apart := by
  refine apart h fun e he => ?_
  cases entry with
  | value e' =>
    obtain rfl := Option.some.inj he
    exact Expr.apart h
  | keyword key e' =>
    obtain rfl := Option.some.inj he
    exact Expr.apart (Bool.and_eq_true_iff.1 h).2
  | rest name => cases he

end TagLang
