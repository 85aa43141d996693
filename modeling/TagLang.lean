import TagLang.Json.Reader
import TagLang.Main
import TagLang.Program.Validity
import TagLang.Proofs.Compile.Induction
import TagLang.Proofs.Meaning.Node
import TagLang.Proofs.Compile.Names
import TagLang.Proofs.Meaning.Stage
import TagLang.Proofs.Meaning.Preservation
import TagLang.Proofs.Meaning.CallOrder
import TagLang.Proofs.Reading.Grammar
import TagLang.Proofs.Reading.Prefix
import TagLang.Proofs.Program.Contents
import TagLang.Proofs.Compile.Contents
import TagLang.Proofs.Compile.Checks
import TagLang.Proofs.Compile.Session
import TagLang.Proofs.Compile.Scoping
import TagLang.Proofs.Program.Validity
import TagLang.Proofs.Reading.Names
import TagLang.Proofs.Compile.Sequence
import TagLang.Proofs.Compile.Validity
import TagLang.Proofs.Compile.Depth
import TagLang.Proofs.Compile.Hygiene
import TagLang.Proofs.Compile.FirstError
import TagLang.Proofs.Token.Language
import TagLang.Proofs.Token.LongestMatch
import TagLang.Proofs.Token.Tiling
import TagLang.Proofs.Compile.Renumbering
import TagLang.Proofs.Reading.Lines
import TagLang.Proofs.Binary64.Rounding
import TagLang.Proofs.Binary64.Text
import TagLang.Proofs.Json.Scalars
import TagLang.Proofs.Json.RoundTrip
import TagLang.Proofs.Program.RoundTrip
import TagLang.Proofs.Reading.Numbers
import TagLang.Proofs.Compile.RoundTrip
import TagLang.Proofs.Compile.Diagnostics
import TagLang.Proofs.Compile.Shape
import TagLang.Proofs.Command.AllOrNothing
import TagLang.Proofs.Command.Routes
import TagLang.Proofs.Command.Input
import TagLang.Proofs.Program.Plain
import TagLang.Proofs.Token.Quoted
import TagLang.Proofs.Program.Spelling
import TagLang.Proofs.Program.Apart
import TagLang.Proofs.Program.Unambiguous
import TagLang.Proofs.Program.Tokens
import TagLang.Proofs.Program.OneLine
import TagLang.Proofs.Program.Layout
import TagLang.Proofs.Reading.Integers
import TagLang.Proofs.Reading.Decimals
import TagLang.Proofs.Reading.Classification
import TagLang.Proofs.Reading.ClosingTags
import TagLang.Proofs.Reading.Attributes
import TagLang.Proofs.Compile.Keywords
import TagLang.Proofs.Token.LineIndex
