import TagLang.Node.Error
import TagLang.Node.Literal
import TagLang.Token.Lexer

/-!
# Reading nodes from tokens

The reader takes the tokens one by one. Its state is the elements and lists that are still open,
from the innermost outwards, together with what has to come next; so a token is either the next
step or an error, and at the end of the tokens something is open or nothing is. `Node.ofTokens` is
the run from the start to the end, and `Node.parse` puts the lexer in front of it.
-/

namespace TagLang

structure ParseOptions where
  /-- Whether a closing tag must have the name of its element. -/
  strictTags : Bool := false
  deriving DecidableEq, Repr, Inhabited

/-- An element as far as its opening tag is known. -/
structure OpenTag where
  name : String
  position : Position
  attributes : Fields Node
  deriving Inhabited

/-- The element of an opening tag with these children. -/
def OpenTag.node (tag : OpenTag) (children : List Node) : Node :=
  .element ⟨tag.name, tag.attributes, children, tag.position⟩

/-- A place that waits for a node. Nodes already there are kept newest first. -/
inductive Frame where
  /-- The value of the attribute `key`. -/
  | attribute (tag : OpenTag) (key : String)
  /-- The next child of an element. -/
  | children (tag : OpenTag) (done : List Node)
  /-- The next item of a list. -/
  | items (done : List Node)
  deriving Inhabited

/-- What has to come next. -/
inductive Awaiting where
  /-- A node, or the end of what it would belong to. -/
  | term
  /-- The name of an element whose tag starts at `position`. -/
  | tagName (position : Position)
  /-- An attribute or the end of an opening tag. -/
  | attributes (tag : OpenTag)
  /-- The sign between the attribute `key` and its value. -/
  | attributeValue (tag : OpenTag) (key : String)
  /-- The name in a closing tag, which starts at `closing`. -/
  | closingName (tag : OpenTag) (children : List Node) (closing : Position)
  /-- The end of a closing tag. -/
  | closingEnd (tag : OpenTag) (children : List Node) (closing : Position) (name : String)
  deriving Inhabited

/-- The state of the reader. -/
structure Reading where
  /-- The complete nodes outside all elements and lists, newest first. -/
  nodes : List Node
  /-- The places that wait for a node, innermost first. -/
  frames : List Frame
  awaiting : Awaiting
  deriving Inhabited

namespace Reading

/-- Nothing has been read. -/
def start : Reading := ⟨[], [], .term⟩

/-- Puts a complete node into the place that waits for it. -/
def deliver (nodes : List Node) (frames : List Frame) (node : Node) : Reading :=
  match frames with
  | [] => ⟨node :: nodes, [], .term⟩
  | .attribute tag key :: frames =>
    ⟨nodes, frames, .attributes { tag with attributes := Fields.insert tag.attributes key node }⟩
  | .children tag done :: frames => ⟨nodes, .children tag (node :: done) :: frames, .term⟩
  | .items done :: frames => ⟨nodes, .items (node :: done) :: frames, .term⟩

/-- Takes a token where a node may start. -/
def term (nodes : List Node) (frames : List Frame) (t : Token) : Except ParseError Reading :=
  match t.kind, frames with
  | .closeOpen, .children tag done :: frames =>
    .ok ⟨nodes, frames, .closingName tag done t.position⟩
  | .listClose, .items done :: frames => .ok (deliver nodes frames (.list done.reverse))
  | .tagOpen, frames =>
    if frames.length < maxDepth then .ok ⟨nodes, frames, .tagName t.position⟩
    else .error (.nestingTooDeep t.position)
  | .listOpen, frames =>
    if frames.length < maxDepth then .ok ⟨nodes, .items [] :: frames, .term⟩
    else .error (.nestingTooDeep t.position)
  | .string value, frames => .ok (deliver nodes frames (.string value))
  | .identifier, frames =>
    match Node.ofIdentifier? t.text with
    | some node => .ok (deliver nodes frames node)
    | none => .error (.integerOutOfRange t.text t.position)
  | _, _ => .error (.unexpectedToken t .term)

/-- Takes the next token. -/
def step (options : ParseOptions) (r : Reading) (t : Token) : Except ParseError Reading :=
  match r.awaiting with
  | .term => term r.nodes r.frames t
  | .tagName position =>
    match t.kind with
    | .identifier => .ok ⟨r.nodes, r.frames, .attributes ⟨t.text, position, []⟩⟩
    | _ => .error (.unexpectedToken t .tagName)
  | .attributes tag =>
    match t.kind with
    | .identifier => .ok ⟨r.nodes, r.frames, .attributeValue tag t.text⟩
    | .tagClose => .ok ⟨r.nodes, .children tag [] :: r.frames, .term⟩
    | .selfClose => .ok (deliver r.nodes r.frames (tag.node []))
    | _ => .error (.unexpectedToken t .tagEnd)
  | .attributeValue tag key =>
    match t.kind with
    | .equals => .ok ⟨r.nodes, .attribute tag key :: r.frames, .term⟩
    | _ => .error (.unexpectedToken t .attributeValue)
  | .closingName tag children closing =>
    match t.kind with
    | .identifier => .ok ⟨r.nodes, r.frames, .closingEnd tag children closing t.text⟩
    | _ => .error (.unexpectedToken t .closingName)
  | .closingEnd tag children closing name =>
    match t.kind with
    | .tagClose =>
      if options.strictTags && name != tag.name then
        .error (.mismatchedTag tag.name name closing)
      else .ok (deliver r.nodes r.frames (tag.node children.reverse))
    | _ => .error (.unexpectedToken t .closingEnd)

/-- What is missing at the end of the tokens. -/
def missing? (r : Reading) : Option Expected :=
  match r.awaiting with
  | .term =>
    match r.frames with
    | [] => none
    | .attribute .. :: _ => some .term
    | .children .. :: _ => some .closingTag
    | .items _ :: _ => some .listEnd
  | .tagName _ => some .tagName
  | .attributes _ => some .tagEnd
  | .attributeValue .. => some .attributeValue
  | .closingName .. => some .closingName
  | .closingEnd .. => some .closingEnd

/-- Ends the reading. -/
def finish (r : Reading) : Except ParseError (List Node) :=
  match r.missing? with
  | none => .ok r.nodes.reverse
  | some expected => .error (.unexpectedEnd expected)

end Reading

namespace Node

/-- The nodes that a list of tokens writes. -/
def ofTokens (options : ParseOptions) (tokens : List Token) : Except ParseError (List Node) := do
  let r ← tokens.foldlM (Reading.step options) Reading.start
  r.finish

/-- The nodes that a text writes. A lexical error anywhere wins over a syntax error before it. -/
def parse (options : ParseOptions) (source : String) : Except ParseError (List Node) :=
  match lex source with
  | .ok tokens => ofTokens options tokens
  | .error e => .error (.lex e)

end Node

end TagLang
