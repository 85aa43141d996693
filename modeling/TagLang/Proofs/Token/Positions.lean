import TagLang.Proofs.Token.Lines

/-!
# Where tokens start

A position is found in a text by counting: `characterAt?` cuts the text into lines at its line feeds
and takes a character of one of them. `Location.after` counts while it passes the characters one by
one, and both agree on every character (`characterAt?_after`).

The tokens of a text start where their positions say (`startsAt_of_mem_lex`), and their positions
increase from line to line and, in a line, from column to column (`Munches.pairwise_before`); so no
two tokens have the same position (`nodup_positions_of_lex`).
-/

namespace TagLang

/-! ## Counting -/

/-- The character of a text at a position. Lines and columns are counted from one. -/
def characterAt? (source : String) : Position → Option Char
  | ⟨line + 1, column + 1⟩ => ((source.toList.splitOn '\n')[line]?).bind fun chars => chars[column]?
  | _ => none

/-- A position is the one behind a text. The characters behind its last line feed are in the line of
the position. -/
structure Position.IsBehind (p : Position) (before : List Char) : Prop where
  line_eq : p.line = 1 + before.count '\n'
  column_eq : p.column = 1 + (before.reverse.takeWhile (· ≠ '\n')).length

/-- **Passing a text character by character counts its lines and columns.** -/
theorem Location.isBehind_after (before : List Char) :
    (Location.start.after before).position.IsBehind before := by
  refine ⟨Location.line_after _ before, ?_⟩
  induction before using List.reverseRecOn with
  | nil => rfl
  | append_singleton before c ih =>
    have hstep : (Location.start.after (before ++ [c])).position =
        (Location.start.after before).position.advance c := by
      rw [Location.after_append]
      rfl
    rw [hstep, List.reverse_append, List.reverse_singleton, List.singleton_append]
    unfold Position.advance
    by_cases hc : c = '\n'
    · rw [if_pos hc, List.takeWhile_cons_of_neg (by simpa using hc)]
      rfl
    · rw [if_neg hc, List.takeWhile_cons_of_pos (by simpa using hc), List.length_cons, ih]
      rfl

theorem splitOn_cons_self (text : List Char) :
    ('\n' :: text).splitOn '\n' = [] :: text.splitOn '\n' := by
  rw [List.splitOn, List.splitOnP_cons_eq_if_modifyHead, if_pos (by decide)]
  rfl

theorem splitOn_cons_of_ne {c : Char} (hc : c ≠ '\n') (text : List Char) :
    (c :: text).splitOn '\n' = (text.splitOn '\n').modifyHead (c :: ·) := by
  rw [List.splitOn, List.splitOnP_cons_eq_if_modifyHead, if_neg (by simpa using hc)]
  rfl

/-- The lines of a text hold each character where passing the text before it leads, from any
position on. Only in the first line the column that one starts from counts. -/
theorem exists_line_of_foldl {c : Char} (hc : c ≠ '\n') (before after : List Char)
    (p : Position) :
    ∃ i j chars, ((before ++ c :: after).splitOn '\n')[i]? = some chars ∧ chars[j]? = some c ∧
      before.foldl Position.advance p =
        ⟨p.line + i, if i = 0 then p.column + j else 1 + j⟩ := by
  induction before generalizing p with
  | nil =>
    have hlines := splitOn_cons_of_ne hc after
    cases hrest : after.splitOn '\n' with
    | nil => exact absurd hrest (List.splitOnP_ne_nil _ _)
    | cons line lines =>
      rw [hrest] at hlines
      exact ⟨0, 0, c :: line, by rw [List.nil_append, hlines]; rfl, rfl, rfl⟩
  | cons d before ih =>
    rw [List.foldl_cons, List.cons_append]
    obtain ⟨i, j, line, hline, hchar, hposition⟩ := ih (p.advance d)
    rw [hposition]
    by_cases hd : d = '\n'
    · have hadvance : p.advance d = ⟨p.line + 1, 1⟩ := if_pos hd
      refine ⟨i + 1, j, line, ?_, hchar, ?_⟩
      · rw [hd, splitOn_cons_self, List.getElem?_cons_succ, hline]
      · rw [hadvance, if_neg (Nat.succ_ne_zero i), ite_self, Nat.add_assoc, Nat.add_comm 1 i]
    · have hadvance : p.advance d = ⟨p.line, p.column + 1⟩ := if_neg hd
      rw [splitOn_cons_of_ne hd, hadvance]
      cases i with
      | zero =>
        refine ⟨0, j + 1, d :: line, ?_, hchar, ?_⟩
        · rw [List.getElem?_modifyHead, hline]
          rfl
        · simp only [if_true]
          rw [Nat.add_assoc, Nat.add_comm 1 j]
      | succ i =>
        refine ⟨i + 1, j, line, ?_, hchar, rfl⟩
        rw [List.getElem?_modifyHead, hline]
        rfl

theorem Location.position_after (here : Location) (text : List Char) :
    (here.after text).position = text.foldl Position.advance here.position := by
  induction text generalizing here with
  | nil => rfl
  | cons c text ih => exact ih (here.advance c)

/-- **A character is found again at its position.** -/
theorem characterAt?_after {source : String} {c : Char} {before after : List Char}
    (h : source.toList = before ++ c :: after) (hc : c ≠ '\n') :
    characterAt? source (Location.start.after before).position = some c := by
  obtain ⟨i, j, line, hline, hchar, hposition⟩ :=
    exists_line_of_foldl hc before after Location.start.position
  rw [Location.position_after, hposition]
  have hcolumn : (if i = 0 then Location.start.position.column + j else 1 + j) = j + 1 := by
    rw [Nat.add_comm j]
    split <;> rfl
  have hrow : Location.start.position.line + i = i + 1 := Nat.add_comm _ _
  rw [hcolumn, hrow, characterAt?, h, hline]
  exact hchar

/-! ## The order of positions -/

namespace Position

/-- One position comes before another in a text. -/
def Before (p q : Position) : Prop := p.line < q.line ∨ p.line = q.line ∧ p.column < q.column

theorem Before.trans {p q r : Position} (hpq : p.Before q) (hqr : q.Before r) : p.Before r := by
  unfold Before at *
  omega

theorem Before.ne {p q : Position} (h : p.Before q) : p ≠ q := by
  rintro rfl
  unfold Before at h
  omega

theorem before_advance (p : Position) (c : Char) : p.Before (p.advance c) := by
  unfold Before advance
  split
  · exact .inl (Nat.lt_succ_self _)
  · exact .inr ⟨rfl, Nat.lt_succ_self _⟩

end Position

/-- **Positions increase** while a text is passed. -/
theorem Location.before_after (here : Location) {text : List Char} (h : text ≠ []) :
    here.position.Before (here.after text).position := by
  induction text generalizing here with
  | nil => exact absurd rfl h
  | cons c text ih =>
    have hstep : here.position.Before (here.advance c).position := here.position.before_advance c
    cases text with
    | nil => exact hstep
    | cons d text => exact hstep.trans (ih (here.advance c) (List.cons_ne_nil _ _))

/-! ## Tokens -/

/-- A token starts at a position of a text: its text stands there, behind as many bytes as its span
says. -/
def Token.StartsAt (source : String) (t : Token) (p : Position) : Prop :=
  ∃ before after, source.toList = before ++ (t.text.toList ++ after) ∧
    t.start = (String.ofList before).utf8ByteSize ∧ p.IsBehind before

/-- Tokens of one kind are words of one language. -/
theorem Lexeme.eq_of_kind? {lexeme other : Lexeme} {kind : Token.Kind}
    (h : lexeme.kind? = some kind) (h' : other.kind? = some kind) : lexeme = other := by
  cases lexeme <;> cases h <;> cases other <;> first | rfl | cases h'

namespace Munches

variable {source : String} {here : Location} {text : List Char} {tokens : List Token}
  {failure : Option LexError}

/-- Tokens and the failure are found behind what was passed before. -/
theorem exists_after (h : Munches here text tokens failure) (passed : List Char)
    (hsource : source.toList = passed ++ text) (hhere : here = Location.start.after passed) :
    (∀ t ∈ tokens, ∃ before after, source.toList = before ++ (t.text.toList ++ after) ∧
      t.start = (Location.start.after before).offset ∧
      t.position = (Location.start.after before).position) ∧
    ∀ e ∈ failure, ∃ before after, source.toList = before ++ after ∧
      e.location = Location.start.after before := by
  induction h generalizing passed with
  | done => exact ⟨List.forall_mem_nil _, by rintro _ ⟨⟩⟩
  | failure =>
    refine ⟨List.forall_mem_nil _, fun e he => ?_⟩
    obtain rfl := Option.mem_some_iff.1 he
    exact ⟨passed, _, hsource, hhere⟩
  | @gap _ _ run _ _ _ hstands _ ih =>
    obtain ⟨rfl, -⟩ := hstands.gap_inv
    refine ih (passed ++ run) ?_ ?_
    · rw [hsource, List.append_assoc]
    · rw [hhere, Location.after_append]
  | @token _ _ _ word rest _ _ hstands _ ih =>
    obtain ⟨rfl, -⟩ := hstands.token_inv
    obtain ⟨htokens, hfailure⟩ := ih (passed ++ word) (by rw [hsource, List.append_assoc])
      (by rw [hhere, Location.after_append])
    refine ⟨List.forall_mem_cons.2 ⟨⟨passed, rest, ?_, ?_, ?_⟩, htokens⟩, hfailure⟩
    · rw [hsource, String.toList_ofList]
    · rw [hhere]
    · rw [hhere]

/-- **Tokens come one after the other**, none of them before the place where the text starts. -/
theorem pairwise_before (h : Munches here text tokens failure) :
    (∀ t ∈ tokens, here.position = t.position ∨ here.position.Before t.position) ∧
      tokens.Pairwise fun t u => t.position.Before u.position := by
  induction h with
  | done | failure => exact ⟨List.forall_mem_nil _, .nil⟩
  | @gap here _ run _ _ _ hstands _ ih =>
    obtain ⟨hfrom, hpairwise⟩ := ih
    refine ⟨fun t ht => ?_, hpairwise⟩
    by_cases hrun : run = []
    · rw [hrun] at hfrom
      exact hfrom t ht
    · have hbefore := here.before_after hrun
      rcases hfrom t ht with heq | hlater
      · exact .inr (heq ▸ hbefore)
      · exact .inr (hbefore.trans hlater)
  | @token here _ _ word _ tokens _ hstands _ ih =>
    obtain ⟨-, hword⟩ := hstands.token_inv
    obtain ⟨hfrom, hpairwise⟩ := ih
    have hlater : ∀ t ∈ tokens, here.position.Before t.position := by
      intro t ht
      have hbefore := here.before_after hword
      rcases hfrom t ht with heq | hlater
      · exact heq ▸ hbefore
      · exact hbefore.trans hlater
    refine ⟨List.forall_mem_cons.2 ⟨.inl rfl, fun t ht => .inr (hlater t ht)⟩, ?_⟩
    exact .cons hlater hpairwise

/-- A token of the kind of a language is a word of it. -/
theorem mem_language (h : Munches here text tokens failure) (lexeme : Lexeme) {kind : Token.Kind}
    (hkind : lexeme.kind? = some kind) :
    ∀ t ∈ tokens, t.kind = kind → t.text.toList ∈ lexeme.language := by
  induction h with
  | done | failure => exact List.forall_mem_nil _
  | gap _ _ ih => exact ih
  | @token _ kind _ word _ _ _ hstands _ ih =>
    refine List.forall_mem_cons.2 ⟨?_, ih⟩
    rintro rfl
    generalize hpiece : Piece.token kind word _ = piece at hstands
    cases hstands with
    | blanks | unknown => cases hpiece
    | lexeme hmatch hyields =>
      cases hyields with
      | token hkind' =>
        cases hpiece
        rw [Lexeme.eq_of_kind? hkind hkind', String.toList_ofList]
        exact hmatch.mem
      | quoted | raw =>
        cases hpiece
        cases lexeme <;> cases hkind
      | _ => cases hpiece

theorem text_of_tagOpen (h : Munches here text tokens failure) :
    ∀ t ∈ tokens, t.kind = .tagOpen → t.text = "<" := by
  intro t ht hkind
  have hword := h.mem_language .tagOpen rfl t ht hkind
  exact String.toList_injective (Set.mem_singleton_iff.1 hword)

end Munches

section

variable {source : String} {tokens : List Token}

theorem munches_of_lex (h : lex source = .ok tokens) :
    Munches .start source.toList tokens none := by
  have hmunches := munches_tokenize source
  rw [tokenize_of_lex h] at hmunches
  exact hmunches

/-- **A token starts where its position says.** -/
theorem startsAt_of_mem_lex (h : lex source = .ok tokens) :
    ∀ t ∈ tokens, t.StartsAt source t.position := by
  intro t ht
  obtain ⟨before, after, hsource, hstart, hposition⟩ :=
    ((munches_of_lex h).exists_after [] rfl rfl).1 t ht
  refine ⟨before, after, hsource, ?_, hposition ▸ Location.isBehind_after before⟩
  rw [hstart, Location.offset_after]
  exact Nat.zero_add _

/-- The start of a tag is found at its position. -/
theorem characterAt?_of_tagOpen (h : lex source = .ok tokens) {t : Token} (ht : t ∈ tokens)
    (hkind : t.kind = .tagOpen) : characterAt? source t.position = some '<' := by
  obtain ⟨before, after, hsource, -, hposition⟩ :=
    ((munches_of_lex h).exists_after [] rfl rfl).1 t ht
  rw [(munches_of_lex h).text_of_tagOpen t ht hkind] at hsource
  rw [hposition]
  exact characterAt?_after hsource (by decide)

theorem nodup_positions_of_lex (h : lex source = .ok tokens) :
    (tokens.map Token.position).Nodup := by
  rw [List.Nodup, List.pairwise_map]
  exact (munches_of_lex h).pairwise_before.2.imp fun hbefore => hbefore.ne

end

end TagLang
