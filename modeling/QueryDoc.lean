import QueryDoc.Coercion
import QueryDoc.Command.Folder
import QueryDoc.Main
import QueryDoc.Request.Error
import QueryDoc.Token.Stream
import QueryDoc.Visit
import QueryDoc.Visit.Reduce
import QueryDoc.Proofs.Syntax.Induction
import QueryDoc.Proofs.Syntax.Map
import QueryDoc.Proofs.Syntax.Nesting
import QueryDoc.Proofs.Syntax.Strings
import QueryDoc.Proofs.Syntax.WellFormed
import QueryDoc.Proofs.StringLiteral.Block
import QueryDoc.Proofs.StringLiteral.Escapes
import QueryDoc.Proofs.Lexical.Rule
import QueryDoc.Proofs.Lexical.Advance
import QueryDoc.Proofs.Lexical.Partition
import QueryDoc.Proofs.Lexical.Seam
import QueryDoc.Proofs.Lexical.Spacing
import QueryDoc.Proofs.Lexical.Cut
import QueryDoc.Proofs.Lexical.Origin
import QueryDoc.Proofs.Lexical.Tracking
import QueryDoc.Proofs.Lexical.Literal
import QueryDoc.Proofs.Parse.Lockstep
import QueryDoc.Proofs.Parse.Refinement
import QueryDoc.Proofs.Grammar.Form
import QueryDoc.Proofs.Grammar.Shape
import QueryDoc.Proofs.Grammar.Run
import QueryDoc.Proofs.Grammar.Soundness
import QueryDoc.Proofs.Grammar.Completeness
import QueryDoc.Proofs.Grammar.Carried
import QueryDoc.Proofs.Grammar.Acceptance
import QueryDoc.Proofs.Grammar.Spelling
import QueryDoc.Proofs.Grammar.Words
import QueryDoc.Proofs.Grammar.Lookahead
import QueryDoc.Proofs.Grammar.Rounds
import QueryDoc.Proofs.Grammar.Viable
import QueryDoc.Proofs.Print.Emission
import QueryDoc.Proofs.Print.RoundTrip
import QueryDoc.Proofs.Print.Map
import QueryDoc.Proofs.Print.BlockString
import QueryDoc.Proofs.Grammar.Parsed
import QueryDoc.Proofs.Grammar.Constant
import QueryDoc.Proofs.Print.Stability
import QueryDoc.Proofs.Tree.Shape
import QueryDoc.Proofs.Tree.Walk
import QueryDoc.Proofs.Tree.Map
import QueryDoc.Proofs.Tree.Node
import QueryDoc.Proofs.Json.Order
import QueryDoc.Proofs.Tree.Encoding
import QueryDoc.Proofs.Visit.Naive
import QueryDoc.Proofs.Visit.Heap
import QueryDoc.Proofs.Visit.Passing
import QueryDoc.Proofs.Visit.Simulation
import QueryDoc.Proofs.Visit.Depth
import QueryDoc.Proofs.Visit.Sharing
import QueryDoc.Proofs.Visit.CopyOnWrite
import QueryDoc.Proofs.Visit.Tour
import QueryDoc.Proofs.Visit.Placement
import QueryDoc.Proofs.Visit.Folding
import QueryDoc.Proofs.Visit.Agreement
import QueryDoc.Proofs.Visit.Reduction
import QueryDoc.Proofs.Visit.Discipline
import QueryDoc.Proofs.Location.Entry
import QueryDoc.Proofs.Grammar.Blame
import QueryDoc.Proofs.Location.View
import QueryDoc.Proofs.Location.Seen
import QueryDoc.Proofs.Location.Irrelevance
import QueryDoc.Proofs.Location.Cover
import QueryDoc.Proofs.Location.Covering
import QueryDoc.Proofs.Location.Stretch
import QueryDoc.Proofs.Location.Interval
import QueryDoc.Proofs.Location.Text
import QueryDoc.Proofs.Location.Line
import QueryDoc.Proofs.Request.Places
import QueryDoc.Proofs.Request.Diagnostic
import QueryDoc.Proofs.Coercion.Fitting
import QueryDoc.Proofs.Grammar.Concatenation
import QueryDoc.Proofs.Print.Depth
import QueryDoc.Proofs.Print.LineFeed
import QueryDoc.Proofs.Token.Stream
import QueryDoc.Proofs.Location.Ending
import QueryDoc.Proofs.Command.Path
import QueryDoc.Proofs.Command.Schedule
