import TagLang.Proofs.Token.Language

/-!
# Cutting up a text takes longest matches

`Piece.Stands` says what stands at the front of a text without saying how it is found: a run of
blanks; or what the longest word stands for that the text starts with and that is in one of the
languages (`LongestMatch`, `Lexeme.Yields`); or, if there is no such word, an unknown character.
`Munches` takes piece after piece up to the end or the first failure.

`Piece.ofText` returns a piece that stands at the front (`stands_ofText`), and there is only one
(`Piece.Stands.unique`), so `tokenize` returns exactly what `Munches` describes (`tokenize_eq_iff`).

Most words are bounded by their first character. The two cases with an argument are strings: one
that ends is not outrun by one that does not, since no character and no escape starts with a quote,
and one that does not end breaks off at the end of the text or at a backslash that ends a line.
-/

namespace TagLang

/-! ## The longest match -/

/-- A word is the longest with which a text starts and that is in one of the languages. -/
structure LongestMatch (text : List Char) (lexeme : Lexeme) (word rest : List Char) : Prop where
  split : text = word ++ rest
  mem : word ∈ lexeme.language
  longest : ∀ (other : Lexeme) (w r : List Char), text = w ++ r → w ∈ other.language →
    w.length ≤ word.length

/-- A text starts with no word of the languages. -/
def NoMatch (text : List Char) : Prop :=
  ∀ (lexeme : Lexeme) (w r : List Char), text = w ++ r → w ∉ lexeme.language

/-- **There is only one longest match**, and it is in only one of the languages. -/
theorem LongestMatch.unique {text word word' rest rest' : List Char} {lexeme lexeme' : Lexeme}
    (h : LongestMatch text lexeme word rest) (h' : LongestMatch text lexeme' word' rest') :
    lexeme = lexeme' ∧ word = word' ∧ rest = rest' := by
  have hlength : word.length = word'.length :=
    Nat.le_antisymm (h'.longest _ _ _ h.split h.mem) (h.longest _ _ _ h'.split h'.mem)
  obtain ⟨rfl, rfl⟩ := List.append_inj (h.split.symm.trans h'.split) hlength
  exact ⟨Lexeme.eq_of_mem_language h.mem h'.mem, rfl, rfl⟩

/-! ## What a longest match stands for -/

/-- The escapes of strings: the letter behind the backslash, and the character that is meant. -/
def escapes : List (Char × Char) :=
  [('n', '\n'), ('t', '\t'), ('r', '\r'), ('0', '\x00'), ('\\', '\\'), ('"', '"'),
    ('\x27', '\x27')]

/-- The character that is meant, unless it is an escape without a meaning. -/
def StringUnit.value? : StringUnit → Option Char
  | .plain c => some c
  | .escape c => escapes.lookup c

/-- The end mark of a comment. -/
def commentEnd : List Char := ['-', '-', '>']

/-- The first end mark in a text stands behind this part of it. -/
def EndsFirst (body text rest : List Char) : Prop :=
  text = body ++ (commentEnd ++ rest) ∧ ¬ commentEnd <:+: body ++ ['-', '-']

namespace Lexeme

/-- The tokens of the languages without strings. -/
def kind? : Lexeme → Option Token.Kind
  | .closeOpen => some .closeOpen
  | .selfClose => some .selfClose
  | .tagOpen => some .tagOpen
  | .tagClose => some .tagClose
  | .listOpen => some .listOpen
  | .listClose => some .listClose
  | .equals => some .equals
  | .identifier => some .identifier
  | _ => none

/-- What a word of a language stands for, with what follows it. -/
inductive Yields : Lexeme → List Char → List Char → Piece → Prop
  | token {lexeme : Lexeme} {kind : Token.Kind} {word rest : List Char} :
      lexeme.kind? = some kind → Yields lexeme word rest (.token kind word rest)
  | quoted {units : List StringUnit} {word value rest : List Char} :
      word = '"' :: (StringUnit.textOf units ++ ['"']) → (∀ u ∈ units, u.Legal) →
      units.map StringUnit.value? = value.map some →
      Yields .quoted word rest (.token (.string (String.ofList value)) word rest)
  /-- The first escape without a meaning is reported. -/
  | badEscape {before after : List StringUnit} {c : Char} {word rest : List Char} :
      word = '"' :: (StringUnit.textOf (before ++ .escape c :: after) ++ ['"']) →
      (∀ u ∈ before ++ .escape c :: after, u.Legal) → (∀ u ∈ before, u.value? ≠ none) →
      (StringUnit.escape c).value? = none →
      Yields .quoted word rest (.failure (.invalidEscape c))
  | raw {word body rest : List Char} : word = 'r' :: '"' :: (body ++ ['"']) →
      Yields .raw word rest (.token (.string (String.ofList body)) word rest)
  | openQuoted {word rest : List Char} :
      Yields .openQuoted word rest (.failure .unterminatedString)
  | openRaw {word rest : List Char} : Yields .openRaw word rest (.failure .unterminatedString)
  | comment {word body text rest : List Char} : EndsFirst body text rest →
      Yields .commentOpen word text (.gap (word ++ (body ++ commentEnd)) rest)
  | openComment {word text : List Char} : ¬ commentEnd <:+: text →
      Yields .commentOpen word text (.failure .unterminatedComment)

end Lexeme

/-- What stands at the front of a text: a run of blanks, what the longest match stands for, or a
character that no word starts with. -/
inductive Piece.Stands (text : List Char) : Piece → Prop
  | blanks {run rest : List Char} : text = run ++ rest → run ≠ [] →
      (∀ c ∈ run, Text.isBlank c = true) → (∀ c ∈ rest.head?, Text.isBlank c = false) →
      Stands text (.gap run rest)
  | lexeme {lexeme : Lexeme} {word rest : List Char} {piece : Piece} :
      LongestMatch text lexeme word rest → lexeme.Yields word rest piece → Stands text piece
  | unknown : text ≠ [] → (∀ c ∈ text.head?, Text.isBlank c = false) → NoMatch text →
      Stands text (.failure .unrecognizedCharacter)

/-! ## Escapes -/

theorem escaped?_eq_lookup (c : Char) : Text.Quoted.escaped? c = escapes.lookup c := by
  unfold Text.Quoted.escaped?
  split
  case h_8 hn ht hr h0 hslash hquote hapostrophe =>
    refine (List.lookup_eq_none_iff.2 fun pair hpair => ?_).symm
    simp only [escapes, List.mem_cons, List.not_mem_nil, or_false] at hpair
    rcases hpair with rfl | rfl | rfl | rfl | rfl | rfl | rfl
    all_goals simpa using ‹c = _ → False›
  all_goals rfl

namespace StringUnit

variable {units : List StringUnit}

theorem decodeFrom_plain {c : Char} (hc : c ≠ '\\') (done rest : List Char) :
    Text.Quoted.decodeFrom done (c :: rest) = Text.Quoted.decodeFrom (c :: done) rest := by
  rw [Text.Quoted.decodeFrom]
  exact fun _ _ h _ => hc h

/-- Characters and escapes with a meaning are replaced by what they mean. -/
theorem decodeFrom_textOf {value : List Char} (hunits : ∀ u ∈ units, u.Legal)
    (hvalue : units.map value? = value.map some) (done rest : List Char) :
    Text.Quoted.decodeFrom done (textOf units ++ rest) =
      Text.Quoted.decodeFrom (value.reverse ++ done) rest := by
  induction units generalizing value done with
  | nil =>
    obtain rfl := List.map_eq_nil_iff.1 hvalue.symm
    rfl
  | cons u units ih =>
    obtain ⟨d, value, rfl, hd, hrest⟩ := List.map_eq_cons_iff.1 hvalue.symm
    rw [List.forall_mem_cons] at hunits
    rw [textOf_cons, List.append_assoc, List.reverse_cons, List.append_assoc]
    cases u with
    | plain c =>
      obtain rfl : d = c := Option.some.inj hd
      rw [text, List.singleton_append, decodeFrom_plain hunits.1.2, ih hunits.2 hrest.symm]
      rfl
    | escape c =>
      have hescaped : Text.Quoted.escaped? c = some d := (escaped?_eq_lookup c).trans hd.symm
      rw [text, List.cons_append, List.singleton_append, Text.Quoted.decodeFrom, hescaped]
      exact ih hunits.2 hrest.symm _

theorem decode_textOf {value : List Char} (hunits : ∀ u ∈ units, u.Legal)
    (hvalue : units.map value? = value.map some) :
    Text.Quoted.decode (textOf units) = .ok value := by
  have h := decodeFrom_textOf hunits hvalue [] []
  rw [List.append_nil, List.append_nil] at h
  rw [Text.Quoted.decode, h, Text.Quoted.decodeFrom, List.reverse_reverse]

/-- Units that all mean a character mean a text. -/
theorem exists_value (h : ∀ u ∈ units, u.value? ≠ none) :
    ∃ value : List Char, units.map value? = value.map some := by
  induction units with
  | nil => exact ⟨[], rfl⟩
  | cons u units ih =>
    rw [List.forall_mem_cons] at h
    obtain ⟨d, hd⟩ := Option.ne_none_iff_exists'.1 h.1
    obtain ⟨value, hvalue⟩ := ih h.2
    exact ⟨d :: value, by rw [List.map_cons, List.map_cons, hd, hvalue]⟩

theorem decode_badEscape {before after : List StringUnit} {c : Char}
    (hunits : ∀ u ∈ before ++ .escape c :: after, u.Legal) (hbefore : ∀ u ∈ before, u.value? ≠ none)
    (hc : (escape c).value? = none) :
    Text.Quoted.decode (textOf (before ++ .escape c :: after)) = .error c := by
  obtain ⟨value, hvalue⟩ := exists_value hbefore
  have hlegal : ∀ u ∈ before, u.Legal := fun u hu => hunits u (List.mem_append_left _ hu)
  have hescaped : Text.Quoted.escaped? c = none := (escaped?_eq_lookup c).trans hc
  rw [Text.Quoted.decode, textOf_append, decodeFrom_textOf hlegal hvalue, textOf_cons, text]
  rw [List.cons_append, List.singleton_append, Text.Quoted.decodeFrom, hescaped]

/-- Either all escapes have a meaning, or there is a first one without. -/
theorem value_or_badEscape (units : List StringUnit) :
    (∃ value : List Char, units.map value? = value.map some) ∨
      ∃ before c after, units = before ++ .escape c :: after ∧ (∀ u ∈ before, u.value? ≠ none) ∧
        (escape c).value? = none := by
  induction units with
  | nil => exact .inl ⟨[], rfl⟩
  | cons u units ih =>
    cases hu : u.value? with
    | none =>
      cases u with
      | plain c => cases hu
      | escape c => exact .inr ⟨[], c, units, rfl, List.forall_mem_nil _, hu⟩
    | some d =>
      rcases ih with ⟨value, hvalue⟩ | ⟨before, c, after, rfl, hbefore, hc⟩
      · exact .inl ⟨d :: value, by rw [List.map_cons, List.map_cons, hu, hvalue]⟩
      · have hd : u.value? ≠ none := by
          rw [hu]
          exact Option.some_ne_none d
        exact .inr ⟨u :: before, c, after, rfl, List.forall_mem_cons.2 ⟨hd, hbefore⟩, hc⟩

end StringUnit

/-! ## Where comments and strings end -/

/-- There is only one first end mark. -/
theorem EndsFirst.unique {body body' text rest rest' : List Char} (h : EndsFirst body text rest)
    (h' : EndsFirst body' text rest') : body = body' ∧ rest = rest' := by
  -- if one part is longer, it holds the end mark behind the other up to its last character
  have key : ∀ {b m r r' : List Char}, commentEnd ++ r = m ++ (commentEnd ++ r') →
      ¬ commentEnd <:+: b ++ m ++ ['-', '-'] → m = [] := by
    intro b m r r' heq hfirst
    by_contra hm
    have hmark : commentEnd <+: m ++ ['-', '-'] := by
      refine List.prefix_of_prefix_length_le ⟨r, heq⟩ ⟨'>' :: r', by simp [commentEnd]⟩ ?_
      have := List.length_pos_iff.2 hm
      simp only [commentEnd, List.length_append, List.length_cons, List.length_nil]
      omega
    rw [List.append_assoc] at hfirst
    exact hfirst (hmark.isInfix.trans (List.suffix_append _ _).isInfix)
  obtain ⟨rfl, hfirst⟩ := h
  obtain ⟨heq, hfirst'⟩ := h'
  have hbody : body = body' := by
    rcases List.append_eq_append_iff.1 heq with ⟨m, rfl, hm⟩ | ⟨m, rfl, hm⟩
    · rw [key hm hfirst', List.append_nil]
    · rw [key hm hfirst, List.append_nil]
  subst hbody
  exact ⟨rfl, List.append_cancel_left (List.append_cancel_left heq)⟩

theorem EndsFirst.isInfix {body text rest : List Char} (h : EndsFirst body text rest) :
    commentEnd <:+: text :=
  ⟨body, rest, by rw [h.1, List.append_assoc]⟩

/-- **A comment is read up to the first end mark**, if there is one. -/
theorem splitComment_cases (done text : List Char) :
    (∃ body rest, EndsFirst body text rest ∧
      Piece.splitComment done text = some (done.reverse ++ (body ++ commentEnd), rest)) ∨
      ¬ commentEnd <:+: text ∧ Piece.splitComment done text = none := by
  fun_induction Piece.splitComment done text with
  | case1 done rest =>
    refine .inl ⟨[], rest, ⟨rfl, by decide⟩, ?_⟩
    simp [commentEnd]
  | case2 done c text hstart ih =>
    -- no end mark starts here
    have hc : ¬ commentEnd <+: c :: text := by
      rintro ⟨rest, heq⟩
      obtain ⟨rfl, rfl⟩ := List.cons.inj heq
      exact hstart rest rfl rfl
    rcases ih with ⟨body, rest, ⟨rfl, hfirst⟩, hsplit⟩ | ⟨hnone, hsplit⟩
    · refine .inl ⟨c :: body, rest, ⟨rfl, ?_⟩, ?_⟩
      · rw [List.cons_append, List.infix_cons_iff]
        rintro (hmark | hlater)
        · refine hc (hmark.trans ⟨'>' :: rest, ?_⟩)
          simp [commentEnd]
        · exact hfirst hlater
      · rw [hsplit]
        simp
    · refine .inr ⟨?_, hsplit⟩
      rw [List.infix_cons_iff]
      exact not_or.2 ⟨hc, hnone⟩
  | case3 done => exact .inr ⟨by decide, rfl⟩

/-- **A string with escapes is read up to its closing quote**, or else it cannot end. -/
theorem splitQuoted_cases (done text : List Char) :
    (∃ units rest, (∀ u ∈ units, StringUnit.Legal u) ∧
      text = StringUnit.textOf units ++ '"' :: rest ∧
      Piece.splitQuoted done text = some (done.reverse ++ StringUnit.textOf units, rest)) ∨
      ∃ units tail rest, (∀ u ∈ units, StringUnit.Legal u) ∧
        text = StringUnit.textOf units ++ (tail ++ rest) ∧
        (tail = [] ∧ rest = [] ∨ tail = ['\\'] ∧ ∀ c ∈ rest.head?, c = '\n') ∧
        Piece.splitQuoted done text = none := by
  fun_induction Piece.splitQuoted done text with
  | case1 done rest =>
    refine .inl ⟨[], rest, List.forall_mem_nil _, rfl, ?_⟩
    rw [StringUnit.textOf_nil, List.append_nil]
  | case2 done =>
    refine .inr ⟨[], ['\\'], [], List.forall_mem_nil _, rfl, .inr ⟨rfl, ?_⟩, rfl⟩
    exact fun c hc => absurd hc (Option.not_mem_none c)
  | case3 done rest =>
    refine .inr ⟨[], ['\\'], '\n' :: rest, List.forall_mem_nil _, rfl, .inr ⟨rfl, ?_⟩, rfl⟩
    exact fun c hc => (Option.some.inj hc).symm
  | case4 done c text hc ih =>
    have hu : (StringUnit.escape c).Legal := hc
    rcases ih with ⟨units, rest, hunits, rfl, hsplit⟩ | ⟨units, tail, rest, hunits, rfl, hrest⟩
    · refine .inl ⟨.escape c :: units, rest, List.forall_mem_cons.2 ⟨hu, hunits⟩, rfl, ?_⟩
      rw [hsplit]
      simp [StringUnit.textOf_cons, StringUnit.text]
    · exact .inr ⟨.escape c :: units, tail, rest, List.forall_mem_cons.2 ⟨hu, hunits⟩, rfl, hrest⟩
  | case5 done c text hquote hlast hslash ih =>
    have hu : (StringUnit.plain c).Legal := by
      refine ⟨hquote, ?_⟩
      rintro rfl
      cases text with
      | nil => exact hlast rfl rfl
      | cons d text => exact hslash d text rfl rfl
    rcases ih with ⟨units, rest, hunits, rfl, hsplit⟩ | ⟨units, tail, rest, hunits, rfl, hrest⟩
    · refine .inl ⟨.plain c :: units, rest, List.forall_mem_cons.2 ⟨hu, hunits⟩, rfl, ?_⟩
      rw [hsplit]
      simp [StringUnit.textOf_cons, StringUnit.text]
    · exact .inr ⟨.plain c :: units, tail, rest, List.forall_mem_cons.2 ⟨hu, hunits⟩, rfl, hrest⟩
  | case6 done => exact .inr ⟨[], [], [], List.forall_mem_nil _, rfl, .inl ⟨rfl, rfl⟩, rfl⟩

/-! ## Words by their first character -/

namespace Lexeme

variable {lexeme : Lexeme} {w : List Char} {c : Char}

/-- No word is empty, and none starts with a blank. -/
theorem Word.exists_cons (h : lexeme.Word w) : ∃ c v, w = c :: v ∧ Text.isBlank c = false := by
  cases h with
  | @identifier c v hchars =>
    have hc := (isIdentifierChar_iff.1 (hchars c List.mem_cons_self)).2
    exact ⟨c, v, rfl, Bool.eq_false_iff.2 hc⟩
  | _ => exact ⟨_, _, rfl, by decide⟩

theorem Word.of_angle (h : lexeme.Word ('<' :: w)) : w = [] ∨ w = ['/'] ∨ w = ['!', '-', '-'] := by
  generalize heq : '<' :: w = v at h
  cases h with
  | identifier hchars =>
    obtain ⟨rfl, -⟩ := List.cons.inj heq
    exact absurd (hchars '<' List.mem_cons_self) (by decide)
  | _ => simp_all

theorem Word.of_slash (h : lexeme.Word ('/' :: w)) : w = ['>'] := by
  generalize heq : '/' :: w = v at h
  cases h with
  | identifier hchars =>
    obtain ⟨rfl, -⟩ := List.cons.inj heq
    exact absurd (hchars '/' List.mem_cons_self) (by decide)
  | _ => simp_all

theorem Word.of_delimiter (hc : c ∈ ['>', '[', ']', '=', '\x7b', '\x7d'])
    (h : lexeme.Word (c :: w)) : w = [] ∧ c ∉ ['\x7b', '\x7d'] := by
  generalize heq : c :: w = v at h
  cases h with
  | identifier hchars =>
    obtain ⟨rfl, -⟩ := List.cons.inj heq
    have := (isIdentifierChar_iff.1 (hchars c List.mem_cons_self)).1
    simp_all
  | _ => simp_all

theorem Word.of_quote (h : lexeme.Word ('"' :: w)) :
    ∃ units tail, (∀ u ∈ units, StringUnit.Legal u) ∧ w = StringUnit.textOf units ++ tail ∧
      (tail = ['"'] ∨ tail = [] ∨ tail = ['\\']) := by
  generalize heq : '"' :: w = v at h
  cases h with
  | quoted hunits => exact ⟨_, _, hunits, (List.cons.inj heq).2, .inl rfl⟩
  | openQuoted hunits htail => exact ⟨_, _, hunits, (List.cons.inj heq).2, .inr htail⟩
  | identifier hchars =>
    obtain ⟨rfl, -⟩ := List.cons.inj heq
    exact absurd (hchars '"' List.mem_cons_self) (by decide)
  | _ => simp_all

/-- A word that starts with a character of identifiers is one, unless it is a string without
escapes. -/
theorem Word.of_identifierChar (hc : Piece.isIdentifierChar c = true) (h : lexeme.Word (c :: w)) :
    (∀ d ∈ w, Piece.isIdentifierChar d = true) ∨ c = 'r' ∧ ∃ body tail,
      (∀ d ∈ body, d ≠ '"') ∧ w = '"' :: (body ++ tail) ∧ (tail = ['"'] ∨ tail = []) := by
  generalize heq : c :: w = v at h
  cases h with
  | identifier hchars =>
    obtain ⟨rfl, rfl⟩ := List.cons.inj heq
    exact .inl (List.forall_mem_cons.1 hchars).2
  | raw hbody =>
    obtain ⟨rfl, rfl⟩ := List.cons.inj heq
    exact .inr ⟨rfl, _, _, hbody, rfl, .inl rfl⟩
  | @openRaw body hbody =>
    obtain ⟨rfl, rfl⟩ := List.cons.inj heq
    exact .inr ⟨rfl, body, [], hbody, by rw [List.append_nil], .inr rfl⟩
  | _ =>
    obtain ⟨rfl, -⟩ := List.cons.inj heq
    exact absurd hc (by decide)

end Lexeme

/-! ## The piece at the front of a text is the longest match -/

/-- A word is the longest match if no word with the same first character goes on farther. -/
theorem longestMatch_cons {lexeme : Lexeme} {c : Char} {word rest : List Char}
    (hword : lexeme.Word (c :: word))
    (hlongest : ∀ (other : Lexeme) (w r : List Char), word ++ rest = w ++ r → other.Word (c :: w) →
      w.length ≤ word.length) :
    LongestMatch (c :: (word ++ rest)) lexeme (c :: word) rest := by
  refine ⟨rfl, Lexeme.mem_language_iff.2 hword, fun other w r hsplit hw => ?_⟩
  rw [Lexeme.mem_language_iff] at hw
  obtain ⟨d, w, rfl, -⟩ := hw.exists_cons
  obtain ⟨rfl, hrest⟩ := List.cons.inj hsplit
  exact Nat.succ_le_succ (hlongest other w r hrest hw)

theorem stands_comment (text : List Char) :
    Piece.Stands ('<' :: '!' :: '-' :: '-' :: text) (Piece.comment text) := by
  have hmatch : LongestMatch ('<' :: (['!', '-', '-'] ++ text)) .commentOpen
      ('<' :: ['!', '-', '-']) text := by
    refine longestMatch_cons .commentOpen fun other w r _ hw => ?_
    rcases hw.of_angle with rfl | rfl | rfl <;> decide
  refine .lexeme hmatch ?_
  rw [Piece.comment]
  rcases splitComment_cases [] text with ⟨body, rest, hbody, hsplit⟩ | ⟨hnone, hsplit⟩
  · rw [hsplit]
    exact .comment hbody
  · rw [hsplit]
    exact .openComment hnone

/-- No string goes on for more than one character where no character and no escape of a string
follows. -/
theorem Lexeme.Word.length_le_of_stops {other : Lexeme} {units : List StringUnit}
    (hunits : ∀ u ∈ units, u.Legal) {x w r : List Char}
    (hstops : ∀ u : StringUnit, u.Legal → ∀ more, u.text ++ more ≠ x)
    (hsplit : StringUnit.textOf units ++ x = w ++ r) (hw : other.Word ('"' :: w)) :
    w.length ≤ (StringUnit.textOf units).length + 1 := by
  obtain ⟨more, tail, hmore, rfl, htail⟩ := hw.of_quote
  have hlength : tail.length ≤ 1 := by rcases htail with rfl | rfl | rfl <;> decide
  rw [List.append_assoc] at hsplit
  rw [List.length_append]
  rcases StringUnit.textOf_append_eq hunits hmore hsplit with
    ⟨extra, rfl, hextra⟩ | ⟨extra, rfl, hextra⟩
  · cases extra with
    | nil =>
      rw [List.append_nil]
      exact Nat.add_le_add_left hlength _
    | cons u extra =>
      have hu : u.Legal := hmore u (List.mem_append_right _ List.mem_cons_self)
      rw [StringUnit.textOf_cons, List.append_assoc] at hextra
      exact absurd hextra.symm (hstops u hu _)
  · rw [StringUnit.textOf_append, List.length_append]
    omega

theorem longestMatch_quoted {units : List StringUnit} (hunits : ∀ u ∈ units, u.Legal)
    (rest : List Char) :
    LongestMatch ('"' :: (StringUnit.textOf units ++ ['"'] ++ rest)) .quoted
      ('"' :: (StringUnit.textOf units ++ ['"'])) rest := by
  refine longestMatch_cons (.quoted hunits) fun other w r hsplit hw => ?_
  rw [List.append_assoc] at hsplit
  rw [List.length_append]
  exact hw.length_le_of_stops hunits (fun u hu more => hu.text_ne) hsplit

/-- A string breaks off at the end of the text, at a backslash that is the last character, or at a
backslash that ends a line. -/
theorem longestMatch_openQuoted {units : List StringUnit} (hunits : ∀ u ∈ units, u.Legal)
    {tail rest : List Char}
    (hrest : tail = [] ∧ rest = [] ∨ tail = ['\\'] ∧ ∀ c ∈ rest.head?, c = '\n') :
    LongestMatch ('"' :: (StringUnit.textOf units ++ tail ++ rest)) .openQuoted
      ('"' :: (StringUnit.textOf units ++ tail)) rest := by
  have htail : tail = [] ∨ tail = ['\\'] := hrest.imp And.left And.left
  refine longestMatch_cons (.openQuoted hunits htail) fun other w r hsplit hw => ?_
  rcases hrest with ⟨rfl, rfl⟩ | ⟨rfl, hrest⟩
  · rw [List.append_nil] at hsplit
    rw [hsplit, List.length_append]
    exact Nat.le_add_right _ _
  · rw [List.append_assoc] at hsplit
    rw [List.length_append]
    refine hw.length_le_of_stops hunits (fun u hu more heq => ?_) hsplit
    cases u with
    | plain c => exact hu.2 (List.cons.inj heq).1
    | escape c =>
      have hhead : c :: more = rest := (List.cons.inj heq).2
      exact hu (hrest c (by rw [← hhead]; rfl))

theorem stands_quoted (text : List Char) : Piece.Stands ('"' :: text) (Piece.quoted text) := by
  rw [Piece.quoted]
  rcases splitQuoted_cases [] text with
    ⟨units, rest, hunits, rfl, hsplit⟩ | ⟨units, tail, rest, hunits, rfl, hrest, hsplit⟩
  · rw [hsplit]
    have hmatch := longestMatch_quoted hunits rest
    rw [List.append_assoc] at hmatch
    refine .lexeme hmatch ?_
    rcases StringUnit.value_or_badEscape units with
      ⟨value, hvalue⟩ | ⟨before, c, after, rfl, hbefore, hc⟩
    · dsimp only [List.reverse_nil, List.nil_append]
      rw [StringUnit.decode_textOf hunits hvalue]
      exact .quoted rfl hunits hvalue
    · dsimp only [List.reverse_nil, List.nil_append]
      rw [StringUnit.decode_badEscape hunits hbefore hc]
      exact .badEscape rfl hunits hbefore hc
  · rw [hsplit]
    have hmatch := longestMatch_openQuoted hunits hrest
    rw [List.append_assoc] at hmatch
    exact .lexeme hmatch .openQuoted

/-- A text without quotes that a text starts with ends before the first quote. -/
theorem length_le_of_noQuote {body rest w r : List Char} (hw : ∀ c ∈ w, c ≠ '"')
    (h : body ++ '"' :: rest = w ++ r) : w.length ≤ body.length := by
  rcases List.append_eq_append_iff.1 h with ⟨m, rfl, hm⟩ | ⟨m, rfl, -⟩
  · cases m with
    | nil => rw [List.append_nil]
    | cons d m =>
      obtain ⟨rfl, -⟩ := List.cons.inj hm
      exact absurd rfl (hw '"' (List.mem_append_right _ List.mem_cons_self))
  · rw [List.length_append]
    exact Nat.le_add_right _ _

/-- A word that starts with `r` does not go on behind the first quote after the opening one. -/
theorem Lexeme.Word.length_le_of_raw {other : Lexeme} {body rest w r : List Char}
    (hsplit : '"' :: (body ++ '"' :: rest) = w ++ r) (hw : other.Word ('r' :: w)) :
    w.length ≤ body.length + 2 := by
  rcases hw.of_identifierChar (by decide) with hchars | ⟨-, body', tail, hbody', rfl, htail⟩
  · cases w with
    | nil => exact Nat.zero_le _
    | cons d w =>
      obtain ⟨rfl, -⟩ := List.cons.inj hsplit
      exact absurd (hchars '"' List.mem_cons_self) (by decide)
  · have htail : tail.length ≤ 1 := by rcases htail with rfl | rfl <;> decide
    have hsplit : body ++ '"' :: rest = body' ++ (tail ++ r) := by
      rw [← List.append_assoc]
      exact (List.cons.inj hsplit).2
    have hlength := length_le_of_noQuote hbody' hsplit
    rw [List.length_cons, List.length_append]
    omega

theorem head?_dropWhile_eq_false {p : Char → Bool} {text : List Char} :
    ∀ c ∈ (text.dropWhile p).head?, p c = false := by
  intro c hc
  have h := List.head?_dropWhile_not p text
  rwa [Option.mem_def.1 hc] at h

theorem stands_raw (text : List Char) : Piece.Stands ('r' :: '"' :: text) (Piece.raw text) := by
  rw [Piece.raw]
  have hbody : ∀ c ∈ text.takeWhile (fun c => decide (c ≠ '"')), c ≠ '"' := fun c hc =>
    of_decide_eq_true (List.all_eq_true.1 List.all_takeWhile c hc)
  have htext := List.takeWhile_append_dropWhile (p := fun c => decide (c ≠ '"')) (l := text)
  have hhead : ∀ c ∈ (text.dropWhile fun c => decide (c ≠ '"')).head?, decide (c ≠ '"') = false :=
    head?_dropWhile_eq_false
  generalize text.takeWhile (fun c => decide (c ≠ '"')) = body at hbody htext ⊢
  generalize text.dropWhile (fun c => decide (c ≠ '"')) = after at htext hhead ⊢
  cases after with
  | nil =>
    obtain rfl : body = text := (List.append_nil body).symm.trans htext
    have hmatch : LongestMatch ('r' :: ('"' :: body ++ [])) .openRaw ('r' :: '"' :: body) [] := by
      refine longestMatch_cons (.openRaw hbody) fun other w r hsplit _ => ?_
      rw [List.append_nil] at hsplit
      rw [hsplit, List.length_append]
      exact Nat.le_add_right _ _
    rw [List.append_nil] at hmatch
    exact .lexeme hmatch .openRaw
  | cons d rest =>
    obtain rfl : d = '"' := not_not.1 (of_decide_eq_false (hhead d rfl))
    have hmatch : LongestMatch ('r' :: ('"' :: (body ++ ['"']) ++ rest)) .raw
        ('r' :: '"' :: (body ++ ['"'])) rest := by
      refine longestMatch_cons (.raw hbody) fun other w r hsplit hw => ?_
      rw [List.cons_append, List.append_assoc] at hsplit
      rw [List.length_cons, List.length_append]
      exact hw.length_le_of_raw hsplit
    rw [List.cons_append, List.append_assoc, List.singleton_append, htext] at hmatch
    exact .lexeme hmatch (.raw rfl)

/-- An identifier ends where its characters end, unless it is the start of a string without
escapes. -/
theorem longestMatch_identifier {c : Char} {rest : List Char}
    (hc : Piece.isIdentifierChar c = true) (hraw : ∀ r, c = 'r' → rest ≠ '"' :: r) :
    LongestMatch (c :: rest) .identifier (c :: rest.takeWhile Piece.isIdentifierChar)
      (rest.dropWhile Piece.isIdentifierChar) := by
  have hrun : ∀ d ∈ c :: rest.takeWhile Piece.isIdentifierChar, Piece.isIdentifierChar d = true :=
    List.forall_mem_cons.2 ⟨hc, List.all_eq_true.1 List.all_takeWhile⟩
  have hmatch : LongestMatch (c :: (rest.takeWhile Piece.isIdentifierChar ++
      rest.dropWhile Piece.isIdentifierChar)) .identifier
      (c :: rest.takeWhile Piece.isIdentifierChar) (rest.dropWhile Piece.isIdentifierChar) := by
    refine longestMatch_cons (.identifier hrun) fun other w r hsplit hw => ?_
    rw [List.takeWhile_append_dropWhile] at hsplit
    subst hsplit
    rcases hw.of_identifierChar hc with hchars | ⟨rfl, body, tail, -, rfl, -⟩
    · rw [List.takeWhile_append_of_pos hchars, List.length_append]
      exact Nat.le_add_right _ _
    · exact absurd rfl (hraw _ rfl)
  rwa [List.takeWhile_append_dropWhile] at hmatch

theorem noMatch_of_reserved {c : Char} {rest : List Char} (hc : c ∈ Piece.reserved)
    (hdelimiter : c ∉ ['<', '>', '[', ']', '=', '"']) (hslash : ∀ r, c = '/' → rest ≠ '>' :: r) :
    NoMatch (c :: rest) := by
  intro lexeme w r hsplit hw
  rw [Lexeme.mem_language_iff] at hw
  obtain ⟨d, w, rfl, -⟩ := hw.exists_cons
  obtain ⟨rfl, rfl⟩ := List.cons.inj hsplit
  by_cases hc' : c = '/'
  · subst hc'
    obtain rfl := hw.of_slash
    exact hslash r rfl rfl
  · have hbrace : c ∈ ['\x7b', '\x7d'] := by
      simp only [Piece.reserved, List.mem_cons, List.not_mem_nil, or_false] at hc hdelimiter ⊢
      grind
    refine (hw.of_delimiter ?_).2 hbrace
    exact List.mem_append_right ['>', '[', ']', '='] hbrace

theorem stands_run {c : Char} {rest : List Char} (hdelimiter : c ∉ ['<', '>', '[', ']', '=', '"'])
    (hslash : ∀ r, c = '/' → rest ≠ '>' :: r) (hraw : ∀ r, c = 'r' → rest ≠ '"' :: r) :
    Piece.Stands (c :: rest) (Piece.run c rest) := by
  rw [Piece.run]
  split_ifs with hblank hidentifier
  · refine .blanks ?_ (List.cons_ne_nil _ _) ?_ head?_dropWhile_eq_false
    · rw [List.cons_append, List.takeWhile_append_dropWhile]
    · exact List.forall_mem_cons.2 ⟨hblank, List.all_eq_true.1 List.all_takeWhile⟩
  · exact .lexeme (longestMatch_identifier hidentifier hraw) (.token rfl)
  · have hreserved : c ∈ Piece.reserved := by
      rw [isIdentifierChar_iff, not_and_not_right] at hidentifier
      by_contra hc
      exact hblank (hidentifier hc)
    refine .unknown (List.cons_ne_nil _ _) ?_ (noMatch_of_reserved hreserved hdelimiter hslash)
    rintro d ⟨⟩
    exact Bool.eq_false_iff.2 hblank

/-- A delimiter of one character is the longest match. -/
theorem stands_delimiter {c : Char} {lexeme : Lexeme} {kind : Token.Kind}
    (hc : c ∈ ['>', '[', ']', '=', '\x7b', '\x7d']) (hword : lexeme.Word [c])
    (hkind : lexeme.kind? = some kind) (rest : List Char) :
    Piece.Stands (c :: rest) (.token kind [c] rest) := by
  refine .lexeme (longestMatch_cons hword fun other w r _ hw => ?_) (.token hkind)
  rw [(hw.of_delimiter hc).1]

/-- **The piece at the front of a text is what the longest match stands for.** -/
theorem stands_ofText (c : Char) (rest : List Char) :
    Piece.Stands (c :: rest) (Piece.ofText c rest) := by
  unfold Piece.ofText
  split
  · exact stands_comment _
  · next rest =>
    have hmatch : LongestMatch ('<' :: (['/'] ++ rest)) .closeOpen ('<' :: ['/']) rest := by
      refine longestMatch_cons .closeOpen fun other w r hsplit hw => ?_
      rcases hw.of_angle with rfl | rfl | rfl
      · decide
      · decide
      · exact absurd (List.cons.inj hsplit).1 (by decide)
    exact .lexeme hmatch (.token rfl)
  · next hcomment hclose =>
    have hmatch : LongestMatch ('<' :: ([] ++ rest)) .tagOpen ('<' :: []) rest := by
      refine longestMatch_cons .tagOpen fun other w r hsplit hw => ?_
      rcases hw.of_angle with rfl | rfl | rfl
      · decide
      · exact (hclose r hsplit).elim
      · exact (hcomment r hsplit).elim
    exact .lexeme hmatch (.token rfl)
  · next rest =>
    have hmatch : LongestMatch ('/' :: (['>'] ++ rest)) .selfClose ('/' :: ['>']) rest := by
      refine longestMatch_cons .selfClose fun other w r _ hw => ?_
      rw [hw.of_slash]
    exact .lexeme hmatch (.token rfl)
  · exact stands_delimiter (by decide) .tagClose rfl _
  · exact stands_delimiter (by decide) .listOpen rfl _
  · exact stands_delimiter (by decide) .listClose rfl _
  · exact stands_delimiter (by decide) .equals rfl _
  · exact stands_quoted _
  · exact stands_raw _
  · next hangle hclose hopen hshut hequals hquote _ _ hslash hraw =>
    refine stands_run ?_ hslash hraw
    simp only [List.mem_cons, List.not_mem_nil, or_false, not_or]
    exact ⟨hangle, hclose, hopen, hshut, hequals, hquote⟩

/-! ## There is one piece at the front of a text -/

theorem decode_unique {units more : List StringUnit} {x y : Except Char (List Char)}
    (heq : '"' :: (StringUnit.textOf units ++ ['"']) = '"' :: (StringUnit.textOf more ++ ['"']))
    (hx : Text.Quoted.decode (StringUnit.textOf units) = x)
    (hy : Text.Quoted.decode (StringUnit.textOf more) = y) : x = y := by
  rw [← hx, ← hy, List.append_cancel_right (List.cons.inj heq).2]

theorem Lexeme.Yields.unique {lexeme : Lexeme} {word rest : List Char} {piece piece' : Piece}
    (h : lexeme.Yields word rest piece) (h' : lexeme.Yields word rest piece') : piece = piece' := by
  cases h with
  | token hkind =>
    cases h' with
    | token hkind' => rw [Option.some.inj (hkind.symm.trans hkind')]
    | _ => cases hkind
  | quoted hword hunits hvalue =>
    have hx := StringUnit.decode_textOf hunits hvalue
    cases h' with
    | token hkind => cases hkind
    | quoted hword' hunits' hvalue' =>
      have hy := StringUnit.decode_textOf hunits' hvalue'
      rw [Except.ok.inj (decode_unique (hword.symm.trans hword') hx hy)]
    | badEscape hword' hunits' hbefore hc =>
      have hy := StringUnit.decode_badEscape hunits' hbefore hc
      cases decode_unique (hword.symm.trans hword') hx hy
  | badEscape hword hunits hbefore hc =>
    have hx := StringUnit.decode_badEscape hunits hbefore hc
    cases h' with
    | token hkind => cases hkind
    | quoted hword' hunits' hvalue' =>
      have hy := StringUnit.decode_textOf hunits' hvalue'
      cases decode_unique (hword.symm.trans hword') hx hy
    | badEscape hword' hunits' hbefore' hc' =>
      have hy := StringUnit.decode_badEscape hunits' hbefore' hc'
      rw [Except.error.inj (decode_unique (hword.symm.trans hword') hx hy)]
  | raw hword =>
    cases h' with
    | token hkind => cases hkind
    | raw hword' =>
      have heq := (List.cons.inj (List.cons.inj (hword.symm.trans hword')).2).2
      rw [List.append_cancel_right heq]
  | openQuoted =>
    cases h' with
    | token hkind => cases hkind
    | openQuoted => rfl
  | openRaw =>
    cases h' with
    | token hkind => cases hkind
    | openRaw => rfl
  | comment hends =>
    cases h' with
    | token hkind => cases hkind
    | comment hends' =>
      obtain ⟨rfl, rfl⟩ := hends.unique hends'
      rfl
    | openComment hnone => exact absurd hends.isInfix hnone
  | openComment hnone =>
    cases h' with
    | token hkind => cases hkind
    | comment hends => exact absurd hends.isInfix hnone
    | openComment => rfl

theorem LongestMatch.head_not_blank {text word rest : List Char} {lexeme : Lexeme}
    (h : LongestMatch text lexeme word rest) : ∀ c ∈ text.head?, Text.isBlank c = false := by
  obtain ⟨d, v, rfl, hd⟩ := (Lexeme.mem_language_iff.1 h.mem).exists_cons
  rw [h.split]
  rintro c ⟨⟩
  exact hd

/-- A run of blanks ends where the blanks end. -/
theorem blanks_eq {run rest : List Char} (hrun : ∀ c ∈ run, Text.isBlank c = true)
    (hrest : ∀ c ∈ rest.head?, Text.isBlank c = false) :
    (run ++ rest).takeWhile Text.isBlank = run ∧ (run ++ rest).dropWhile Text.isBlank = rest := by
  rw [List.takeWhile_append_of_pos hrun, List.dropWhile_append_of_pos hrun]
  cases rest with
  | nil => exact ⟨List.append_nil run, rfl⟩
  | cons c rest =>
    have hc : ¬ Text.isBlank c = true := Bool.eq_false_iff.1 (hrest c rfl)
    rw [List.takeWhile_cons_of_neg hc, List.dropWhile_cons_of_neg hc, List.append_nil]
    exact ⟨rfl, rfl⟩

namespace Piece.Stands

variable {text : List Char} {piece piece' : Piece}

theorem ne_nil (h : Stands text piece) : text ≠ [] := by
  cases h with
  | blanks hsplit hrun _ _ =>
    rw [hsplit]
    exact List.append_ne_nil_of_left_ne_nil hrun _
  | lexeme hmatch _ =>
    obtain ⟨c, v, rfl, -⟩ := (Lexeme.mem_language_iff.1 hmatch.mem).exists_cons
    rw [hmatch.split]
    exact List.cons_ne_nil _ _
  | unknown htext _ _ => exact htext

variable {c : Char} {rest : List Char}

/-- A text that starts with a blank starts with a gap. -/
theorem eq_of_blank (hc : Text.isBlank c = true) (h : Stands (c :: rest) piece) :
    piece = .gap ((c :: rest).takeWhile Text.isBlank) ((c :: rest).dropWhile Text.isBlank) := by
  cases h with
  | blanks hsplit _ hrun hrest =>
    obtain ⟨htake, hdrop⟩ := blanks_eq hrun hrest
    rw [hsplit, htake, hdrop]
  | lexeme hmatch _ => exact absurd (hmatch.head_not_blank c rfl) (Bool.not_eq_false _ ▸ hc)
  | unknown _ hhead _ => exact absurd (hhead c rfl) (Bool.not_eq_false _ ▸ hc)

/-- A text that does not start with a blank starts with a longest match, if with anything. -/
theorem lexeme_or_unknown (hc : ¬ Text.isBlank c = true) (h : Stands (c :: rest) piece) :
    (∃ lexeme word after, LongestMatch (c :: rest) lexeme word after ∧
      lexeme.Yields word after piece) ∨
      NoMatch (c :: rest) ∧ piece = .failure .unrecognizedCharacter := by
  cases h with
  | @blanks run _ hsplit hne hrun _ =>
    obtain ⟨d, run, rfl⟩ := List.exists_cons_of_ne_nil hne
    obtain ⟨rfl, -⟩ := List.cons.inj hsplit
    exact absurd (hrun c List.mem_cons_self) hc
  | lexeme hmatch hyields => exact .inl ⟨_, _, _, hmatch, hyields⟩
  | unknown _ _ hno => exact .inr ⟨hno, rfl⟩

/-- **There is only one piece at the front of a text.** -/
theorem unique (h : Stands text piece) (h' : Stands text piece') : piece = piece' := by
  obtain ⟨c, rest, rfl⟩ := List.exists_cons_of_ne_nil h.ne_nil
  by_cases hc : Text.isBlank c = true
  · rw [h.eq_of_blank hc, h'.eq_of_blank hc]
  · rcases h.lexeme_or_unknown hc with ⟨_, _, _, hmatch, hyields⟩ | ⟨hno, rfl⟩
    · rcases h'.lexeme_or_unknown hc with ⟨_, _, _, hmatch', hyields'⟩ | ⟨hno, -⟩
      · obtain ⟨rfl, rfl, rfl⟩ := hmatch.unique hmatch'
        exact hyields.unique hyields'
      · exact absurd hmatch.mem (hno _ _ _ hmatch.split)
    · rcases h'.lexeme_or_unknown hc with ⟨_, _, _, hmatch, -⟩ | ⟨-, rfl⟩
      · exact absurd hmatch.mem (hno _ _ _ hmatch.split)
      · rfl

end Piece.Stands

/-! ## Cutting a text up -/

/-- The tokens of the text at a location, up to the first failure: piece after piece is taken from
the front. -/
inductive Munches : Location → List Char → List Token → Option LexError → Prop
  | done {here : Location} : Munches here [] [] none
  | gap {here : Location} {text run rest : List Char} {tokens : List Token}
      {failure : Option LexError} : Piece.Stands text (.gap run rest) →
      Munches (here.after run) rest tokens failure → Munches here text tokens failure
  | token {here : Location} {kind : Token.Kind} {text word rest : List Char} {tokens : List Token}
      {failure : Option LexError} : Piece.Stands text (.token kind word rest) →
      Munches (here.after word) rest tokens failure →
      Munches here text
        (⟨kind, String.ofList word, here.offset, (here.after word).offset, here.position⟩ :: tokens)
        failure
  | failure {here : Location} {text : List Char} {cause : LexCause} :
      Piece.Stands text (.failure cause) → Munches here text [] (some ⟨cause, here⟩)

theorem munches_tokenizeFrom (done : List Token) (here : Location) (text : List Char) :
    ∃ tokens failure, tokenizeFrom done here text = ⟨done.reverse ++ tokens, failure⟩ ∧
      Munches here text tokens failure := by
  fun_induction tokenizeFrom done here text with
  | case1 done here => exact ⟨[], none, by rw [List.append_nil], .done⟩
  | case2 done here c text run rest hpiece ih =>
    obtain ⟨tokens, failure, heq, hmunches⟩ := ih
    exact ⟨tokens, failure, heq, .gap (hpiece ▸ stands_ofText c text) hmunches⟩
  | case3 done here c text kind word rest hpiece next token ih =>
    obtain ⟨tokens, failure, heq, hmunches⟩ := ih
    refine ⟨token :: tokens, failure, ?_, .token (hpiece ▸ stands_ofText c text) hmunches⟩
    rw [heq, List.reverse_cons, List.append_assoc, List.singleton_append]
  | case4 done here c text cause hpiece =>
    refine ⟨[], some ⟨cause, here⟩, ?_, .failure (hpiece ▸ stands_ofText c text)⟩
    rw [List.append_nil]

theorem Munches.unique {here : Location} {text : List Char} {tokens tokens' : List Token}
    {failure failure' : Option LexError} (h : Munches here text tokens failure)
    (h' : Munches here text tokens' failure') : tokens = tokens' ∧ failure = failure' := by
  induction h generalizing tokens' with
  | done =>
    cases h' with
    | done => exact ⟨rfl, rfl⟩
    | gap hstands _ => exact absurd rfl hstands.ne_nil
    | token hstands _ => exact absurd rfl hstands.ne_nil
    | failure hstands => exact absurd rfl hstands.ne_nil
  | gap hstands _ ih =>
    cases h' with
    | done => exact absurd rfl hstands.ne_nil
    | gap hstands' hmunches =>
      cases hstands.unique hstands'
      exact ih hmunches
    | token hstands' _ => cases hstands.unique hstands'
    | failure hstands' => cases hstands.unique hstands'
  | token hstands _ ih =>
    cases h' with
    | done => exact absurd rfl hstands.ne_nil
    | gap hstands' _ => cases hstands.unique hstands'
    | token hstands' hmunches =>
      cases hstands.unique hstands'
      obtain ⟨rfl, rfl⟩ := ih hmunches
      exact ⟨rfl, rfl⟩
    | failure hstands' => cases hstands.unique hstands'
  | failure hstands =>
    cases h' with
    | done => exact absurd rfl hstands.ne_nil
    | gap hstands' _ => cases hstands.unique hstands'
    | token hstands' _ => cases hstands.unique hstands'
    | failure hstands' =>
      cases hstands.unique hstands'
      exact ⟨rfl, rfl⟩

/-- The tokens of a text are found by taking piece after piece. -/
theorem munches_tokenize (source : String) :
    Munches .start source.toList (tokenize source).tokens (tokenize source).failure := by
  obtain ⟨tokens, failure, heq, hmunches⟩ := munches_tokenizeFrom [] .start source.toList
  rw [tokenize, heq]
  exact hmunches

/-- **A text is cut up by longest matches.** The tokens and the failure of a text are those that
are found by skipping blanks and comments and then taking the longest match, over and over; and no
word is in two of the languages, so that no string both ends and does not. -/
theorem tokenize_eq_iff (source : String) (tokens : List Token) (failure : Option LexError) :
    (tokenize source = ⟨tokens, failure⟩ ↔ Munches .start source.toList tokens failure) ∧
      ∀ w : List Char, {lexeme : Lexeme | w ∈ lexeme.language}.Subsingleton := by
  refine ⟨⟨?_, fun h => ?_⟩, fun w lexeme hw other hw' => ?_⟩
  · intro h
    have hmunches := munches_tokenize source
    rwa [h] at hmunches
  · obtain ⟨htokens, hfailure⟩ := (munches_tokenize source).unique h
    rw [← htokens, ← hfailure]
  · exact Lexeme.eq_of_mem_language hw hw'

end TagLang
