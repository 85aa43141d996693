import TagLang.Proofs.Token.LongestMatch

/-!
# Tokens tile the text

Nothing of a text is lost when it is cut up. `Tiles` says of tokens and a range of bytes of the text
that the spans of the tokens are not empty and follow each other, that each token has the text at
its span, and that what stands before, between and behind them is made of blanks and comments.

The tokens of a text tile all of it, and the tokens before a failure tile what stands before the
failure (`lex_tiles`). Spans count bytes and texts are cut character by character; what joins the
two is that a location is always the number of bytes of the text already passed (`Remains`).
-/

namespace TagLang

/-! ## Tilings -/

/-- Blanks and complete comments. -/
inductive IsGap : List Char → Prop
  | nil : IsGap []
  | blank {c : Char} {rest : List Char} : Text.isBlank c = true → IsGap rest → IsGap (c :: rest)
  | comment {body text rest : List Char} : EndsFirst body text rest → IsGap rest →
      IsGap ('<' :: '!' :: '-' :: '-' :: text)

/-- The bytes of a text from one offset up to another. -/
def bytesBetween (source : String) (start stop : Nat) : ByteArray :=
  source.toByteArray.extract start stop

/-- The spans before, between and behind tokens in a range of bytes. -/
def gapSpans (start : Nat) : List Token → Nat → List (Nat × Nat)
  | [], stop => [(start, stop)]
  | t :: tokens, stop => (start, t.start) :: gapSpans t.stop tokens stop

/-- The texts of tokens, with what stands before, between and behind them in a range of bytes. -/
def assemble (source : String) (start : Nat) : List Token → Nat → ByteArray
  | [], stop => bytesBetween source start stop
  | t :: tokens, stop =>
    bytesBetween source start t.start ++ t.text.toByteArray ++ assemble source t.stop tokens stop

/-- Tokens tile a range of bytes of a text. -/
structure Tiles (source : String) (start : Nat) (tokens : List Token) (stop : Nat) : Prop where
  start_le_stop : start ≤ stop
  inside : ∀ t ∈ tokens, start ≤ t.start ∧ t.stop ≤ stop
  nonempty : ∀ t ∈ tokens, t.start < t.stop
  ordered : tokens.Pairwise fun a b => a.stop ≤ b.start
  text_eq : ∀ t ∈ tokens, bytesBetween source t.start t.stop = t.text.toByteArray
  gaps : ∀ span ∈ gapSpans start tokens stop, ∃ gap, IsGap gap ∧
    bytesBetween source span.1 span.2 = (String.ofList gap).toByteArray
  assembled : assemble source start tokens stop = bytesBetween source start stop

/-! ## Gaps -/

theorem IsGap.append {x y : List Char} (hx : IsGap x) (hy : IsGap y) : IsGap (x ++ y) := by
  induction hx with
  | nil => exact hy
  | blank hc _ ih => exact .blank hc ih
  | @comment body _ rest hends _ ih =>
    obtain ⟨rfl, hfirst⟩ := hends
    have hsplit : body ++ (commentEnd ++ rest) ++ y = body ++ (commentEnd ++ (rest ++ y)) := by
      rw [List.append_assoc, List.append_assoc]
    exact .comment ⟨hsplit, hfirst⟩ ih

theorem isGap_of_blanks {run : List Char} (h : ∀ c ∈ run, Text.isBlank c = true) : IsGap run := by
  induction run with
  | nil => exact .nil
  | cons c run ih =>
    rw [List.forall_mem_cons] at h
    exact .blank h.1 (ih h.2)

theorem Piece.Stands.gap_inv {text run rest : List Char} (h : Stands text (.gap run rest)) :
    text = run ++ rest ∧ IsGap run := by
  generalize heq : Piece.gap run rest = piece at h
  cases h with
  | blanks hsplit _ hrun _ =>
    cases heq
    exact ⟨hsplit, isGap_of_blanks hrun⟩
  | lexeme hmatch hyields =>
    cases hyields with
    | @comment _ body _ _ hends =>
      cases heq
      obtain ⟨hsplit, hword, -⟩ := hmatch
      obtain ⟨rfl, hfirst⟩ := hends
      rw [Set.mem_singleton_iff.1 hword] at hsplit ⊢
      have hends : EndsFirst body (body ++ commentEnd) [] :=
        ⟨by rw [List.append_nil], hfirst⟩
      refine ⟨?_, .comment hends .nil⟩
      rw [hsplit, List.append_assoc, List.append_assoc]
    | _ => cases heq
  | unknown => cases heq

theorem Piece.Stands.token_inv {kind : Token.Kind} {text word rest : List Char}
    (h : Stands text (.token kind word rest)) : text = word ++ rest ∧ word ≠ [] := by
  generalize heq : Piece.token kind word rest = piece at h
  cases h with
  | blanks => cases heq
  | lexeme hmatch hyields =>
    obtain ⟨c, v, hword, -⟩ := (Lexeme.mem_language_iff.1 hmatch.mem).exists_cons
    cases hyields with
    | token | quoted | raw =>
      cases heq
      exact ⟨hmatch.split, by rw [hword]; exact List.cons_ne_nil _ _⟩
    | _ => cases heq
  | unknown => cases heq

/-! ## Tilings grow at the front -/

theorem bytesBetween_self (source : String) (start : Nat) :
    bytesBetween source start start = ByteArray.empty :=
  ByteArray.extract_same

theorem bytesBetween_append (source : String) {a b c : Nat} (hab : a ≤ b) (hbc : b ≤ c) :
    bytesBetween source a b ++ bytesBetween source b c = bytesBetween source a c := by
  rw [bytesBetween, bytesBetween, ByteArray.extract_append_extract, Nat.min_eq_left hab,
    Nat.max_eq_right hbc]
  rfl

namespace Tiles

variable {source : String} {start stop : Nat} {tokens : List Token}

theorem nil (source : String) (start : Nat) : Tiles source start [] start := by
  refine ⟨Nat.le_refl _, List.forall_mem_nil _, List.forall_mem_nil _, .nil, List.forall_mem_nil _,
    ?_, rfl⟩
  intro span hspan
  obtain rfl := List.mem_singleton.1 hspan
  exact ⟨[], .nil, bytesBetween_self source start⟩

/-- The first gap of a tiling grows by a gap before it. -/
theorem cons_gap {gap : List Char} {before : Nat} (hle : before ≤ start) (hgap : IsGap gap)
    (hbytes : bytesBetween source before start = (String.ofList gap).toByteArray)
    (h : Tiles source start tokens stop) : Tiles source before tokens stop := by
  -- the bytes of the first gap, which ends at `next`
  have hfirst : ∀ {next : Nat}, start ≤ next → (∃ gap, IsGap gap ∧
      bytesBetween source start next = (String.ofList gap).toByteArray) →
      ∃ gap, IsGap gap ∧ bytesBetween source before next = (String.ofList gap).toByteArray := by
    rintro next hnext ⟨more, hmore, hmoreBytes⟩
    refine ⟨gap ++ more, hgap.append hmore, ?_⟩
    rw [← bytesBetween_append source hle hnext, hbytes, hmoreBytes, String.ofList_append,
      String.toByteArray_append]
  refine ⟨hle.trans h.start_le_stop, ?_, h.nonempty, h.ordered, h.text_eq, ?_, ?_⟩
  · exact fun t ht => ⟨hle.trans (h.inside t ht).1, (h.inside t ht).2⟩
  · have hgaps := h.gaps
    cases tokens with
    | nil =>
      rw [gapSpans, List.forall_mem_singleton] at hgaps ⊢
      exact hfirst h.start_le_stop hgaps
    | cons t tokens =>
      rw [gapSpans, List.forall_mem_cons] at hgaps ⊢
      exact ⟨hfirst (h.inside t List.mem_cons_self).1 hgaps.1, hgaps.2⟩
  · have hassembled := h.assembled
    rw [← bytesBetween_append source hle h.start_le_stop, ← hassembled]
    cases tokens with
    | nil => exact (bytesBetween_append source hle h.start_le_stop).symm
    | cons t tokens =>
      rw [assemble, assemble, ← bytesBetween_append source hle (h.inside t List.mem_cons_self).1]
      rw [ByteArray.append_assoc, ByteArray.append_assoc, ByteArray.append_assoc]

/-- A token goes in front of a tiling that starts where it stops. -/
theorem cons_token {t : Token} (hlt : t.start < t.stop)
    (htext : bytesBetween source t.start t.stop = t.text.toByteArray)
    (h : Tiles source t.stop tokens stop) : Tiles source t.start (t :: tokens) stop := by
  refine ⟨hlt.le.trans h.start_le_stop, ?_, ?_, ?_, ?_, ?_, ?_⟩
  · refine List.forall_mem_cons.2 ⟨⟨Nat.le_refl _, h.start_le_stop⟩, fun u hu => ?_⟩
    exact ⟨hlt.le.trans (h.inside u hu).1, (h.inside u hu).2⟩
  · exact List.forall_mem_cons.2 ⟨hlt, h.nonempty⟩
  · exact .cons (fun u hu => (h.inside u hu).1) h.ordered
  · exact List.forall_mem_cons.2 ⟨htext, h.text_eq⟩
  · rw [gapSpans, List.forall_mem_cons]
    exact ⟨⟨[], .nil, bytesBetween_self source t.start⟩, h.gaps⟩
  · rw [assemble, bytesBetween_self, ByteArray.empty_append, h.assembled, ← htext]
    exact bytesBetween_append source hlt.le h.start_le_stop

end Tiles

/-! ## Locations count the bytes passed -/

theorem Location.offset_after (here : Location) (text : List Char) :
    (here.after text).offset = here.offset + (String.ofList text).utf8ByteSize := by
  induction text generalizing here with
  | nil => rfl
  | cons c text ih =>
    rw [Location.after, List.foldl_cons]
    refine (ih (here.advance c)).trans ?_
    rw [String.ofList_cons, String.utf8ByteSize_append, String.utf8ByteSize_singleton,
      Location.advance, Nat.add_assoc]

theorem Location.offset_lt_after (here : Location) {text : List Char} (h : text ≠ []) :
    here.offset < (here.after text).offset := by
  rw [offset_after]
  refine Nat.lt_add_of_pos_right (Nat.pos_of_ne_zero fun hzero => h ?_)
  exact String.ofList_injective (String.utf8ByteSize_eq_zero_iff.1 hzero)

/-- This text remains of the source at a location. -/
def Remains (source : String) (here : Location) (text : List Char) : Prop :=
  ∃ before : String, source = before ++ String.ofList text ∧ here.offset = before.utf8ByteSize

namespace Remains

variable {source : String} {here : Location} {word rest : List Char}

theorem start (source : String) : Remains source .start source.toList :=
  ⟨"", by rw [String.ofList_toList, String.empty_append], rfl⟩

theorem after (h : Remains source here (word ++ rest)) : Remains source (here.after word) rest := by
  obtain ⟨before, rfl, hoffset⟩ := h
  refine ⟨before ++ String.ofList word, ?_, ?_⟩
  · rw [String.ofList_append, String.append_assoc]
  · rw [Location.offset_after, hoffset, String.utf8ByteSize_append]

/-- The bytes passed are those of the text passed. -/
theorem bytes_eq (h : Remains source here (word ++ rest)) :
    bytesBetween source here.offset (here.after word).offset =
      (String.ofList word).toByteArray := by
  obtain ⟨before, rfl, hoffset⟩ := h
  rw [Location.offset_after, hoffset, bytesBetween, String.ofList_append]
  rw [String.toByteArray_append, String.toByteArray_append]
  rw [← String.size_toByteArray, ← String.size_toByteArray]
  generalize before.toByteArray = x, (String.ofList word).toByteArray = y,
    (String.ofList rest).toByteArray = z
  have hextract :
      (x ++ (y ++ z)).extract (x.size + 0) (x.size + y.size) = (y ++ z).extract 0 y.size :=
    ByteArray.extract_append_size_add
  rw [Nat.add_zero] at hextract
  rw [hextract, ByteArray.extract_append_eq_left rfl]

/-- Nothing remains at the end of the source. -/
theorem offset_eq_size (h : Remains source here []) : here.offset = source.utf8ByteSize := by
  obtain ⟨before, rfl, hoffset⟩ := h
  rw [hoffset, String.ofList_nil, String.append_empty]

theorem offset_lt {c : Char} (h : Remains source here (c :: rest)) :
    here.offset < source.utf8ByteSize := by
  obtain ⟨before, rfl, hoffset⟩ := h
  rw [hoffset, String.ofList_cons, String.utf8ByteSize_append, String.utf8ByteSize_append,
    String.utf8ByteSize_singleton]
  have := c.utf8Size_pos
  omega

/-- A location is between two characters. -/
theorem isValid {text : List Char} (h : Remains source here text) :
    String.Pos.Raw.IsValid source ⟨here.offset⟩ := by
  obtain ⟨before, hsource, hoffset⟩ := h
  rw [String.Pos.Raw.isValid_iff_exists_append, hoffset]
  exact ⟨before, String.ofList text, hsource, rfl⟩

end Remains

/-! ## The tokens of a text tile it -/

/-- Where cutting up stops. -/
def stopOffset (source : String) : Option LexError → Nat
  | none => source.utf8ByteSize
  | some e => e.location.offset

namespace Munches

variable {source : String} {here : Location} {text : List Char} {tokens : List Token}

/-- **The tokens tile the text from here to where cutting up stops.** -/
theorem tiles {failure : Option LexError} (h : Munches here text tokens failure)
    (hremains : Remains source here text) :
    Tiles source here.offset tokens (stopOffset source failure) := by
  induction h with
  | done =>
    rw [stopOffset, ← hremains.offset_eq_size]
    exact .nil source _
  | @gap here _ run _ _ _ hstands _ ih =>
    obtain ⟨rfl, hgap⟩ := hstands.gap_inv
    have hle : here.offset ≤ (here.after run).offset := by
      rw [Location.offset_after]
      exact Nat.le_add_right _ _
    exact .cons_gap hle hgap hremains.bytes_eq (ih hremains.after)
  | @token here _ _ word _ _ _ hstands _ ih =>
    obtain ⟨rfl, hne⟩ := hstands.token_inv
    have hlt : here.offset < (here.after word).offset := here.offset_lt_after hne
    have hbytes := hremains.bytes_eq
    have hrest := ih hremains.after
    exact Tiles.cons_token (t := ⟨_, _, _, _, _⟩) hlt hbytes hrest
  | failure => exact .nil source _

/-- A failure is in front of a character. -/
theorem exists_remains {e : LexError} (h : Munches here text tokens (some e))
    (hremains : Remains source here text) :
    ∃ c rest, Remains source e.location (c :: rest) := by
  generalize hfailure : some e = failure at h
  induction h with
  | done => cases hfailure
  | gap hstands _ ih =>
    obtain ⟨rfl, -⟩ := hstands.gap_inv
    exact ih hremains.after hfailure
  | token hstands _ ih =>
    obtain ⟨rfl, -⟩ := hstands.token_inv
    exact ih hremains.after hfailure
  | failure hstands =>
    cases hfailure
    obtain ⟨c, rest, rfl⟩ := List.exists_cons_of_ne_nil hstands.ne_nil
    exact ⟨c, rest, hremains⟩

end Munches

theorem tiles_tokenize (source : String) :
    Tiles source 0 (tokenize source).tokens (stopOffset source (tokenize source).failure) :=
  (munches_tokenize source).tiles (.start source)

/-- **Cutting up a text loses nothing.** The tokens of a text without a failure tile all of it, so
that they and the gaps make up the text again; otherwise the tokens before the failure tile what
stands before it, and the failure is in front of a character of the text. -/
theorem lex_tiles (source : String) :
    (∀ tokens, lex source = .ok tokens →
      Tiles source 0 tokens source.utf8ByteSize ∧
        assemble source 0 tokens source.utf8ByteSize = source.toByteArray) ∧
    ∀ e, (tokenize source).failure = some e →
      Tiles source 0 (tokenize source).tokens e.location.offset ∧
        String.Pos.Raw.IsValid source ⟨e.location.offset⟩ ∧
        e.location.offset < source.utf8ByteSize ∧ lex source = .error e := by
  have htiles := tiles_tokenize source
  constructor
  · intro tokens hlex
    rw [lex] at hlex
    cases hfailure : (tokenize source).failure with
    | some e =>
      rw [hfailure] at hlex
      cases hlex
    | none =>
      rw [hfailure] at hlex htiles
      cases hlex
      refine ⟨htiles, htiles.assembled.trans ?_⟩
      rw [bytesBetween, stopOffset, ← String.size_toByteArray]
      exact ByteArray.extract_zero_size
  · intro e hfailure
    have hmunches := munches_tokenize source
    rw [hfailure] at htiles hmunches
    obtain ⟨c, rest, hremains⟩ := hmunches.exists_remains (.start source)
    refine ⟨htiles, hremains.isValid, hremains.offset_lt, ?_⟩
    rw [lex, hfailure]

/-- Two tokens, the first of two bytes, around an empty comment; and a comment that starts like one
that ends at once, before a character that no token has. -/
theorem lex_tiles_multibyte :
    (lex "é<!---->=" = .ok [⟨.identifier, "é", 0, 2, ⟨1, 1⟩⟩, ⟨.equals, "=", 9, 10, ⟨1, 9⟩⟩] ∧
      Tiles "é<!---->=" 0 [⟨.identifier, "é", 0, 2, ⟨1, 1⟩⟩, ⟨.equals, "=", 9, 10, ⟨1, 9⟩⟩]
        "é<!---->=".utf8ByteSize) ∧
    (tokenize "é<!-->-->\x7b").failure = some ⟨.unrecognizedCharacter, ⟨10, ⟨1, 10⟩⟩⟩ ∧
      Tiles "é<!-->-->\x7b" 0 (tokenize "é<!-->-->\x7b").tokens 10 := by
  have hlex : lex "é<!---->=" =
      .ok [⟨.identifier, "é", 0, 2, ⟨1, 1⟩⟩, ⟨.equals, "=", 9, 10, ⟨1, 9⟩⟩] := by decide +kernel
  have hfailure : (tokenize "é<!-->-->\x7b").failure =
      some ⟨.unrecognizedCharacter, ⟨10, ⟨1, 10⟩⟩⟩ := by decide +kernel
  exact ⟨⟨hlex, ((lex_tiles _).1 _ hlex).1⟩, hfailure, ((lex_tiles _).2 _ hfailure).1⟩

end TagLang
