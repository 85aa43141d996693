import TagLang.Proofs.Text.Runs
import TagLang.Proofs.Token.Tiling

/-!
# Texts one below the other

A text without a failure is cut up in the same way when a line feed and another text follow it, and
the other text is cut up as if it stood alone, only farther down (`tokenize_below`). So the tokens
of the whole are those of the upper text and, moved, those of the lower one, and a failure in the
lower text is the failure of the whole.

At the seam no token goes on: a line feed is in no identifier, and strings and comments of a text
without a failure are closed (`Piece.ofText_append`). Only a run of blanks does, from one text over
the line feed into the other, and it leaves nothing behind (`tokenizeFrom_blanks`).
-/

namespace TagLang

/-! ## Moving down -/

/-- How far something is moved in a text: lines down and bytes on. Columns stay. -/
structure Move where
  lines : Nat
  bytes : Nat
  deriving DecidableEq, Repr

/-- The way from the start of a text to the line below it. -/
def Move.below (upper : String) : Move :=
  ⟨1 + upper.toList.count '\n', upper.utf8ByteSize + 1⟩

def Position.moved (m : Move) (p : Position) : Position := ⟨p.line + m.lines, p.column⟩

def Location.moved (m : Move) (l : Location) : Location :=
  ⟨l.offset + m.bytes, l.position.moved m⟩

def Token.moved (m : Move) (t : Token) : Token :=
  { t with start := t.start + m.bytes, stop := t.stop + m.bytes, position := t.position.moved m }

def LexError.moved (m : Move) (e : LexError) : LexError :=
  { e with location := e.location.moved m }

def TokenStream.moved (m : Move) (stream : TokenStream) : TokenStream :=
  ⟨stream.tokens.map (Token.moved m), stream.failure.map (LexError.moved m)⟩

namespace Location

variable (m : Move) (here : Location)

theorem advance_moved (c : Char) : (here.moved m).advance c = (here.advance c).moved m := by
  unfold advance moved Position.advance Position.moved
  split
  · rw [Location.mk.injEq, Position.mk.injEq]
    refine ⟨?_, ?_, rfl⟩ <;> dsimp only <;> omega
  · rw [Location.mk.injEq, Position.mk.injEq]
    refine ⟨?_, rfl, rfl⟩
    dsimp only
    omega

theorem after_moved (text : List Char) : (here.moved m).after text = (here.after text).moved m := by
  induction text generalizing here with
  | nil => rfl
  | cons c text ih =>
    show ((here.moved m).advance c).after text = ((here.advance c).after text).moved m
    rw [advance_moved, ih]

theorem line_after (text : List Char) :
    (here.after text).position.line = here.position.line + text.count '\n' := by
  induction text generalizing here with
  | nil => rfl
  | cons c text ih =>
    show ((here.advance c).after text).position.line = _
    rw [ih]
    unfold advance Position.advance
    by_cases hc : c = '\n'
    · rw [if_pos hc, hc, List.count_cons_self]
      dsimp only
      omega
    · rw [if_neg hc, List.count_cons_of_ne hc]

/-- Behind a text and a line feed there is the start of the line below. -/
theorem after_line (upper : String) :
    start.after (upper.toList ++ ['\n']) = start.moved (.below upper) := by
  have hoffset := offset_after start upper.toList
  have hline := line_after start upper.toList
  rw [String.ofList_toList] at hoffset
  have hlast : start.after (upper.toList ++ ['\n']) = (start.after upper.toList).advance '\n' := by
    unfold after
    rw [List.foldl_append]
    rfl
  rw [hlast]
  unfold advance Position.advance moved Position.moved Move.below
  rw [if_pos rfl, hoffset, hline, Location.mk.injEq, Position.mk.injEq]
  refine ⟨?_, ?_, rfl⟩
  · rw [Nat.add_assoc]
    rfl
  · dsimp only
    omega

end Location

/-! ## One piece after the other -/

section

variable {done : List Token} {here : Location} {c : Char} {text word rest : List Char}

theorem tokenizeFrom_gap (h : Piece.ofText c text = .gap word rest) :
    tokenizeFrom done here (c :: text) = tokenizeFrom done (here.after word) rest := by
  rw [tokenizeFrom]
  split <;> simp_all

theorem tokenizeFrom_token {kind : Token.Kind} (h : Piece.ofText c text = .token kind word rest) :
    tokenizeFrom done here (c :: text) = tokenizeFrom
      (⟨kind, String.ofList word, here.offset, (here.after word).offset, here.position⟩ :: done)
      (here.after word) rest := by
  rw [tokenizeFrom]
  split <;> simp_all

theorem tokenizeFrom_failure {cause : LexCause} (h : Piece.ofText c text = .failure cause) :
    tokenizeFrom done here (c :: text) = ⟨done.reverse, some ⟨cause, here⟩⟩ := by
  rw [tokenizeFrom]
  split <;> simp_all

end

/-- **A text that stands farther down** is cut up in the same way. -/
theorem tokenizeFrom_moved (m : Move) (done : List Token) (here : Location) (text : List Char) :
    tokenizeFrom (done.map (Token.moved m)) (here.moved m) text =
      (tokenizeFrom done here text).moved m := by
  fun_induction tokenizeFrom done here text with
  | case1 done here =>
    rw [tokenizeFrom, TokenStream.moved, List.map_reverse]
    rfl
  | case2 done here c text run rest hpiece ih =>
    rw [tokenizeFrom_gap hpiece, Location.after_moved, ih]
  | case3 done here c text kind word rest hpiece next token ih =>
    rw [tokenizeFrom_token hpiece, Location.after_moved, ← ih]
    rfl
  | case4 done here c text cause hpiece =>
    rw [tokenizeFrom_failure hpiece, TokenStream.moved, List.map_reverse]
    rfl

/-! ## Blanks leave nothing behind -/

theorem Piece.ofText_of_blank {c : Char} (hc : Text.isBlank c = true) (text : List Char) :
    Piece.ofText c text =
      .gap (c :: text.takeWhile Text.isBlank) (text.dropWhile Text.isBlank) := by
  have h := (stands_ofText c text).eq_of_blank hc
  rwa [List.takeWhile_cons_of_pos hc, List.dropWhile_cons_of_pos hc] at h

theorem tokenizeFrom_dropWhile (done : List Token) (here : Location) (text : List Char) :
    tokenizeFrom done (here.after (text.takeWhile Text.isBlank)) (text.dropWhile Text.isBlank) =
      tokenizeFrom done here text := by
  cases text with
  | nil => rfl
  | cons c text =>
    by_cases hc : Text.isBlank c = true
    · rw [List.takeWhile_cons_of_pos hc, List.dropWhile_cons_of_pos hc]
      exact (tokenizeFrom_gap (Piece.ofText_of_blank hc text)).symm
    · rw [List.takeWhile_cons_of_neg hc, List.dropWhile_cons_of_neg hc]
      rfl

/-- Blanks only move the location. -/
theorem tokenizeFrom_blanks {run : List Char} (hrun : ∀ c ∈ run, Text.isBlank c = true)
    (done : List Token) (here : Location) (text : List Char) :
    tokenizeFrom done here (run ++ text) = tokenizeFrom done (here.after run) text := by
  induction run generalizing here with
  | nil => rfl
  | cons c run ih =>
    rw [List.forall_mem_cons] at hrun
    have hcut : tokenizeFrom done here (c :: (run ++ text)) =
        tokenizeFrom done (here.advance c) (run ++ text) := by
      rw [tokenizeFrom_gap (Piece.ofText_of_blank hrun.1 _)]
      exact tokenizeFrom_dropWhile done (here.advance c) (run ++ text)
    rw [List.cons_append, hcut, ih hrun.2]
    rfl

/-! ## No piece goes on behind a line feed -/

theorem splitComment_append {text body rest : List Char}
    (h : Piece.splitComment [] text = some (body, rest)) (more : List Char) :
    Piece.splitComment [] (text ++ more) = some (body, rest ++ more) := by
  rcases splitComment_cases [] text with ⟨before, after, hends, hsplit⟩ | ⟨-, hsplit⟩
  · obtain ⟨rfl, rfl⟩ := Prod.mk.inj (Option.some.inj (hsplit.symm.trans h))
    have hmore : EndsFirst before (text ++ more) (after ++ more) := by
      refine ⟨?_, hends.2⟩
      rw [hends.1, List.append_assoc, List.append_assoc]
    rcases splitComment_cases [] (text ++ more) with ⟨before', after', hends', hsplit'⟩ | ⟨hnone, -⟩
    · obtain ⟨rfl, rfl⟩ := hends'.unique hmore
      exact hsplit'
    · exact absurd hmore.isInfix hnone
  · rw [hsplit] at h
    cases h

theorem splitQuoted_append {done text body rest : List Char}
    (h : Piece.splitQuoted done text = some (body, rest)) (more : List Char) :
    Piece.splitQuoted done (text ++ more) = some (body, rest ++ more) := by
  fun_induction Piece.splitQuoted done text with
  | case1 done text =>
    cases h
    rfl
  | case2 done => cases h
  | case3 done text => cases h
  | case4 done c text hc ih =>
    rw [List.cons_append, List.cons_append, Lexeme.splitQuoted_escape hc]
    exact ih h
  | case5 done c text hquote hlast hslash ih =>
    have hc : c ≠ '\\' := by
      rintro rfl
      cases text with
      | nil => exact hlast rfl rfl
      | cons d text => exact hslash d text rfl rfl
    rw [List.cons_append, Lexeme.splitQuoted_plain hquote hc]
    exact ih h
  | case6 done => cases h

namespace Piece

/-- The piece with more text behind what follows it. -/
def append (more : List Char) : Piece → Piece
  | .gap text rest => .gap text (rest ++ more)
  | .token kind text rest => .token kind text (rest ++ more)
  | .failure cause => .failure cause

/-- A piece that is no failure. -/
def Whole (piece : Piece) : Prop := ∀ cause, piece ≠ .failure cause

theorem comment_append {text : List Char} (h : (comment text).Whole) (more : List Char) :
    comment (text ++ more) = (comment text).append more := by
  unfold comment at h ⊢
  cases hsplit : splitComment [] text with
  | none =>
    rw [hsplit] at h
    exact absurd rfl (h _)
  | some parts => rw [splitComment_append hsplit]; rfl

theorem quoted_append {text : List Char} (h : (quoted text).Whole) (more : List Char) :
    quoted (text ++ more) = (quoted text).append more := by
  unfold quoted at h ⊢
  cases hsplit : splitQuoted [] text with
  | none =>
    rw [hsplit] at h
    exact absurd rfl (h _)
  | some parts =>
    rw [splitQuoted_append hsplit]
    dsimp only
    cases Text.Quoted.decode parts.1 with
    | ok value => rfl
    | error c => rfl

theorem raw_append {text : List Char} (h : (raw text).Whole) (more : List Char) :
    raw (text ++ more) = (raw text).append more := by
  unfold raw at h ⊢
  cases hdrop : text.dropWhile (fun c => decide (c ≠ '"')) with
  | nil =>
    rw [hdrop] at h
    exact absurd rfl (h _)
  | cons d rest =>
    obtain ⟨htake, hrest⟩ := dropWhile_append_of_cons hdrop more
    rw [htake, hrest]
    rfl

theorem run_append {c : Char} (hc : Text.isBlank c = false) (text more : List Char) :
    run c (text ++ '\n' :: more) = (run c text).append ('\n' :: more) := by
  obtain ⟨htake, hdrop⟩ := takeWhile_append_cons (p := isIdentifierChar) (c := '\n') (by decide)
    text more
  unfold run
  rw [hc, htake, hdrop]
  by_cases hidentifier : isIdentifierChar c = true
  · rw [if_neg Bool.false_ne_true, if_neg Bool.false_ne_true, if_pos hidentifier,
      if_pos hidentifier]
    rfl
  · rw [if_neg Bool.false_ne_true, if_neg Bool.false_ne_true, if_neg hidentifier,
      if_neg hidentifier]
    rfl

/-- A text starts in the same way if a line feed follows it. -/
theorem eq_append_of_append_line {text more rest : List Char} (word : List Char)
    (hword : '\n' ∉ word) (h : text ++ '\n' :: more = word ++ rest) :
    ∃ rest', text = word ++ rest' := by
  rcases List.append_eq_append_iff.1 h with ⟨m, rfl, hm⟩ | ⟨m, rfl, -⟩
  · cases m with
    | nil => exact ⟨[], by rw [List.append_nil, List.append_nil]⟩
    | cons d m =>
      obtain ⟨rfl, -⟩ := List.cons.inj hm
      exact absurd (List.mem_append_right _ List.mem_cons_self) hword
  · exact ⟨m, rfl⟩

/-- **A line feed ends every piece but blanks.** -/
theorem ofText_append {c : Char} {text : List Char} (hc : Text.isBlank c = false)
    (h : (ofText c text).Whole) (more : List Char) :
    ofText c (text ++ '\n' :: more) = (ofText c text).append ('\n' :: more) := by
  fun_cases ofText c text with
  | case1 rest => exact comment_append h _
  | case2 | case4 => rfl
  | case3 _ hcomment hclose =>
    rw [ofText]
    · rfl
    · intro rest hrest
      obtain ⟨rest', rfl⟩ := eq_append_of_append_line ['!', '-', '-'] (by decide) hrest
      exact hcomment rest' rfl
    · intro rest hrest
      obtain ⟨rest', rfl⟩ := eq_append_of_append_line ['/'] (by decide) hrest
      exact hclose rest' rfl
  | case5 | case6 | case7 | case8 => rfl
  | case9 => exact quoted_append h _
  | case10 rest => exact raw_append h _
  | case11 _ _ hcomment hclose hangle hself hgreater hopen hshut hequals hquote hraw =>
    rw [ofText]
    · exact run_append hc text more
    · exact hangle
    · exact hgreater
    · exact hopen
    · exact hshut
    · exact hequals
    · exact hquote
    · exact fun _ hc _ => hangle hc
    · exact fun _ hc _ => hangle hc
    · intro rest hslash hrest
      obtain ⟨rest', rfl⟩ := eq_append_of_append_line ['>'] (by decide) hrest
      exact hself rest' hslash rfl
    · intro rest hr hrest
      obtain ⟨rest', rfl⟩ := eq_append_of_append_line ['"'] (by decide) hrest
      exact hraw rest' hr rfl

end Piece

/-! ## One text below the other -/

theorem Location.after_append (here : Location) (word text : List Char) :
    here.after (word ++ text) = (here.after word).after text :=
  List.foldl_append

/-- The tokens of a text without a failure are found first, and then those of the text below. -/
theorem tokenizeFrom_append {done tokens : List Token} {here : Location} {text : List Char}
    (h : tokenizeFrom done here text = ⟨tokens, none⟩) (lower : List Char) :
    tokenizeFrom done here (text ++ '\n' :: lower) =
      tokenizeFrom tokens.reverse (here.after (text ++ ['\n'])) lower := by
  fun_induction tokenizeFrom done here text with
  | case1 done here =>
    obtain ⟨rfl, -⟩ := TokenStream.mk.inj h
    rw [List.reverse_reverse]
    have hline : ∀ c ∈ ['\n'], Text.isBlank c = true := List.forall_mem_singleton.2 rfl
    exact tokenizeFrom_blanks hline done here lower
  | case2 done here c text run rest hpiece ih =>
    have hstands := stands_ofText c text
    rw [hpiece] at hstands
    obtain ⟨hsplit, -⟩ := hstands.gap_inv
    have hafter : here.after (c :: text ++ ['\n']) = (here.after run).after (rest ++ ['\n']) := by
      rw [hsplit, List.append_assoc, Location.after_append]
    rw [hafter, ← ih h, hsplit, List.append_assoc]
    by_cases hc : Text.isBlank c = true
    · -- the run of blanks may go on behind the line feed
      rw [Piece.ofText_of_blank hc, Piece.gap.injEq] at hpiece
      rw [← hpiece.1]
      have hrun : ∀ d ∈ c :: text.takeWhile Text.isBlank, Text.isBlank d = true :=
        List.forall_mem_cons.2 ⟨hc, List.all_eq_true.1 List.all_takeWhile⟩
      exact tokenizeFrom_blanks hrun done here _
    · have happend := Piece.ofText_append (Bool.eq_false_iff.2 hc)
        (by rw [hpiece]; exact fun _ hfailure => Piece.noConfusion hfailure) lower
      rw [hpiece] at happend
      rw [← List.append_assoc, ← hsplit]
      exact tokenizeFrom_gap happend
  | case3 done here c text kind word rest hpiece next token ih =>
    have hstands := stands_ofText c text
    rw [hpiece] at hstands
    obtain ⟨hsplit, -⟩ := hstands.token_inv
    have hc : Text.isBlank c = false := by
      refine Bool.eq_false_iff.2 fun hblank => ?_
      rw [Piece.ofText_of_blank hblank] at hpiece
      exact Piece.noConfusion hpiece
    have happend := Piece.ofText_append hc
      (by rw [hpiece]; exact fun _ hfailure => Piece.noConfusion hfailure) lower
    rw [hpiece] at happend
    have hafter : here.after (c :: text ++ ['\n']) = next.after (rest ++ ['\n']) := by
      rw [hsplit, List.append_assoc, Location.after_append]
    rw [hafter, ← ih h]
    exact tokenizeFrom_token happend
  | case4 done here c text cause hpiece => cases h

/-- What is found behind tokens does not depend on them. -/
theorem tokenizeFrom_eq_append (done : List Token) (here : Location) (text : List Char) :
    tokenizeFrom done here text =
      ⟨done.reverse ++ (tokenizeFrom [] here text).tokens,
        (tokenizeFrom [] here text).failure⟩ := by
  obtain ⟨tokens, failure, heq, hmunches⟩ := munches_tokenizeFrom done here text
  obtain ⟨tokens', failure', heq', hmunches'⟩ := munches_tokenizeFrom [] here text
  obtain ⟨rfl, rfl⟩ := hmunches.unique hmunches'
  rw [heq, heq']
  rfl

theorem tokenize_of_lex {source : String} {tokens : List Token} (h : lex source = .ok tokens) :
    tokenize source = ⟨tokens, none⟩ := by
  unfold lex at h
  generalize tokenize source = stream at h ⊢
  obtain ⟨found, failure⟩ := stream
  cases failure with
  | none =>
    cases h
    rfl
  | some e => cases h

/-- **Texts one below the other** are cut up one after the other: below a text without a failure,
the tokens and the failure of a text are those that it has alone, moved down. -/
theorem tokenize_below {upper : String} {tokens : List Token}
    (h : lex upper = .ok tokens) (lower : String) :
    tokenize (upper ++ "\n" ++ lower) =
      ⟨tokens ++ (tokenize lower).tokens.map (Token.moved (.below upper)),
        (tokenize lower).failure.map (LexError.moved (.below upper))⟩ := by
  have hupper : tokenizeFrom [] .start upper.toList = ⟨tokens, none⟩ := tokenize_of_lex h
  have htext : (upper ++ "\n" ++ lower).toList = upper.toList ++ '\n' :: lower.toList := by
    simp
  rw [tokenize, htext, tokenizeFrom_append hupper, Location.after_line, tokenizeFrom_eq_append,
    List.reverse_reverse]
  have hmoved := tokenizeFrom_moved (.below upper) [] .start lower.toList
  rw [List.map_nil] at hmoved
  rw [hmoved]
  rfl

section

variable {upper lower : String} {tokens : List Token}

theorem lex_below_ok {more : List Token} (h : lex upper = .ok tokens)
    (hlower : lex lower = .ok more) :
    lex (upper ++ "\n" ++ lower) = .ok (tokens ++ more.map (Token.moved (.below upper))) := by
  rw [lex, tokenize_below h, tokenize_of_lex hlower]
  rfl

theorem lex_below_error {e : LexError} (h : lex upper = .ok tokens)
    (hlower : lex lower = .error e) :
    lex (upper ++ "\n" ++ lower) = .error (e.moved (.below upper)) := by
  have hfailure : (tokenize lower).failure = some e := by
    unfold lex at hlower
    dsimp only at hlower
    split at hlower
    · cases hlower
    · next hfailure =>
      rw [hfailure, Except.error.inj hlower]
  rw [lex, tokenize_below h, hfailure]
  rfl

end

end TagLang
