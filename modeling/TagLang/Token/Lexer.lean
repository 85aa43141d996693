import TagLang.Text.Blank
import TagLang.Text.Quoted
import TagLang.Token.Basic

/-!
# Cutting a text into tokens

`Piece.ofText` says what a text starts with: a gap between tokens, a token, or something that no
token starts with. The longest possible token wins. `tokenize` takes piece after piece up to the
end or the first failure; `lex` is the same for a text that has to be cut up whole.
-/

namespace TagLang

/-- What stands at the front of a text, and what follows it. -/
inductive Piece where
  /-- Blanks or a comment. -/
  | gap (text rest : List Char)
  | token (kind : Token.Kind) (text rest : List Char)
  | failure (cause : LexCause)
  deriving Inhabited

namespace Piece

/-- The characters that end an identifier: those with a meaning in tags, lists and strings, and
braces, which have none. -/
def reserved : List Char :=
  ['<', '>', '[', ']', '\x7b', '\x7d', '=', '/', '"']

/-- The characters of identifiers. -/
def isIdentifierChar (c : Char) : Bool :=
  !(Text.isBlank c || reserved.contains c)

/-- Splits behind the end mark of a comment, after what was already passed, newest first. -/
def splitComment (done : List Char) : List Char → Option (List Char × List Char)
  | '-' :: '-' :: '>' :: rest => some (('>' :: '-' :: '-' :: done).reverse, rest)
  | c :: rest => splitComment (c :: done) rest
  | [] => none

/-- Splits at the quote that ends a string with escapes, after what was already passed, newest
first. A backslash takes the next character with it, but not a line feed. -/
def splitQuoted (done : List Char) : List Char → Option (List Char × List Char)
  | '"' :: rest => some (done.reverse, rest)
  | ['\\'] => none
  | '\\' :: c :: rest => if c = '\n' then none else splitQuoted (c :: '\\' :: done) rest
  | c :: rest => splitQuoted (c :: done) rest
  | [] => none

/-- A comment, behind its `<!--`. -/
def comment (text : List Char) : Piece :=
  match splitComment [] text with
  | some (body, rest) => .gap ('<' :: '!' :: '-' :: '-' :: body) rest
  | none => .failure .unterminatedComment

/-- A string with escapes, behind its opening quote. -/
def quoted (text : List Char) : Piece :=
  match splitQuoted [] text with
  | none => .failure .unterminatedString
  | some (body, rest) =>
    match Text.Quoted.decode body with
    | .ok value => .token (.string (String.ofList value)) ('"' :: (body ++ ['"'])) rest
    | .error c => .failure (.invalidEscape c)

/-- A string without escapes, behind its `r` and opening quote. -/
def raw (text : List Char) : Piece :=
  let body := text.takeWhile (· ≠ '"')
  match text.dropWhile (· ≠ '"') with
  | _ :: rest => .token (.string (String.ofList body)) ('r' :: '"' :: (body ++ ['"'])) rest
  | [] => .failure .unterminatedString

/-- A gap or token that is a run of characters of one class. -/
def run (c : Char) (rest : List Char) : Piece :=
  if Text.isBlank c then .gap (c :: rest.takeWhile Text.isBlank) (rest.dropWhile Text.isBlank)
  else if isIdentifierChar c then
    .token .identifier (c :: rest.takeWhile isIdentifierChar) (rest.dropWhile isIdentifierChar)
  else .failure .unrecognizedCharacter

/-- The piece at the front of the text `c :: rest`. -/
def ofText (c : Char) (rest : List Char) : Piece :=
  match c, rest with
  | '<', '!' :: '-' :: '-' :: rest => comment rest
  | '<', '/' :: rest => .token .closeOpen ['<', '/'] rest
  | '<', rest => .token .tagOpen ['<'] rest
  | '/', '>' :: rest => .token .selfClose ['/', '>'] rest
  | '>', rest => .token .tagClose ['>'] rest
  | '[', rest => .token .listOpen ['['] rest
  | ']', rest => .token .listClose [']'] rest
  | '=', rest => .token .equals ['='] rest
  | '"', rest => quoted rest
  | 'r', '"' :: rest => raw rest
  | c, rest => run c rest

/-- What follows a piece, if there is one. -/
def rest? : Piece → Option (List Char)
  | .gap _ rest => some rest
  | .token _ _ rest => some rest
  | .failure _ => none

/-! ## What follows a piece is shorter -/

theorem length_of_splitComment {done text body rest : List Char}
    (h : splitComment done text = some (body, rest)) : rest.length ≤ text.length := by
  fun_induction splitComment done text with
  | case1 => cases h; simp only [List.length_cons]; omega
  | case2 _ _ _ _ ih => have := ih h; simp only [List.length_cons]; omega
  | case3 => cases h

theorem length_of_splitQuoted {done text body rest : List Char}
    (h : splitQuoted done text = some (body, rest)) : rest.length ≤ text.length := by
  fun_induction splitQuoted done text with
  | case1 => cases h; simp only [List.length_cons]; omega
  | case2 => cases h
  | case3 => cases h
  | case4 _ _ _ _ ih => have := ih h; simp only [List.length_cons]; omega
  | case5 _ _ _ _ _ _ ih => have := ih h; simp only [List.length_cons]; omega
  | case6 => cases h

theorem rest?_comment {text rest : List Char} (h : (comment text).rest? = some rest) :
    rest.length ≤ text.length := by
  unfold comment at h
  split at h
  · next hs => cases h; exact length_of_splitComment hs
  · cases h

theorem rest?_quoted {text rest : List Char} (h : (quoted text).rest? = some rest) :
    rest.length ≤ text.length := by
  unfold quoted at h
  split at h
  · cases h
  · next hs =>
    split at h
    · cases h; exact length_of_splitQuoted hs
    · cases h

theorem rest?_raw {text rest : List Char} (h : (raw text).rest? = some rest) :
    rest.length ≤ text.length := by
  unfold raw at h
  have hle := (List.dropWhile_suffix (l := text) (fun c => decide (c ≠ '"'))).length_le
  dsimp only at h
  split at h
  · next hs => cases h; rw [hs, List.length_cons] at hle; omega
  · cases h

theorem rest?_run {c : Char} {text rest : List Char} (h : (run c text).rest? = some rest) :
    rest.length ≤ text.length := by
  unfold run at h
  split at h
  · cases h; exact (List.dropWhile_suffix _).length_le
  · split at h
    · cases h; exact (List.dropWhile_suffix _).length_le
    · cases h

theorem rest?_ofText {c : Char} {text rest : List Char}
    (h : (ofText c text).rest? = some rest) : rest.length ≤ text.length := by
  unfold ofText at h
  split at h
  case h_1 => have := rest?_comment h; simp only [List.length_cons]; omega
  case h_9 => exact rest?_quoted h
  case h_10 => have := rest?_raw h; simp only [List.length_cons]; omega
  case h_11 => exact rest?_run h
  all_goals cases h; simp

end Piece

/-- The tokens of a text up to its first error, if it has one. -/
structure TokenStream where
  tokens : List Token
  failure : Option LexError
  deriving DecidableEq, Repr, Inhabited

/-- Cuts up the text at a location, behind the tokens already found, newest first. -/
def tokenizeFrom (done : List Token) (here : Location) : List Char → TokenStream
  | [] => ⟨done.reverse, none⟩
  | c :: rest =>
    match _h : Piece.ofText c rest with
    | .gap text rest => tokenizeFrom done (here.after text) rest
    | .token kind text rest =>
      let next := here.after text
      let token : Token := ⟨kind, String.ofList text, here.offset, next.offset, here.position⟩
      tokenizeFrom (token :: done) next rest
    | .failure cause => ⟨done.reverse, some ⟨cause, here⟩⟩
termination_by text => text.length
decreasing_by
  all_goals
    have := Piece.rest?_ofText (congrArg Piece.rest? _h)
    simp only [List.length_cons]
    omega

/-- The tokens of a text, up to its first lexical error. -/
def tokenize (source : String) : TokenStream :=
  tokenizeFrom [] .start source.toList

/-- The tokens of a text that has no lexical error. -/
def lex (source : String) : Except LexError (List Token) :=
  let stream := tokenize source
  match stream.failure with
  | none => .ok stream.tokens
  | some e => .error e

end TagLang
