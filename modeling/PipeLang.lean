import PipeLang.Json.Reader
import PipeLang.Main
import PipeLang.Proofs.Invariant
import PipeLang.Proofs.Preservation
import PipeLang.Proofs.Demand
import PipeLang.Proofs.Request
import PipeLang.Proofs.Nesting
import PipeLang.Proofs.History
import PipeLang.Proofs.Balance
import PipeLang.Proofs.Record
import PipeLang.Proofs.Memo
import PipeLang.Proofs.Held
import PipeLang.Proofs.Unwritten
import PipeLang.Proofs.Root
import PipeLang.Proofs.FirstOrder
import PipeLang.Proofs.Strategies
import PipeLang.Proofs.Unrolling
import PipeLang.Proofs.Frames
import PipeLang.Proofs.Compound
import PipeLang.Proofs.Parsing
import PipeLang.Proofs.Precedence
import PipeLang.Proofs.Literals
import PipeLang.Proofs.Lexing
import PipeLang.Proofs.Lexemes
import PipeLang.Proofs.Printing
import PipeLang.Proofs.Rereading
import PipeLang.Proofs.Enclosed
import PipeLang.Proofs.RoundTrip
import PipeLang.Proofs.Shift
import PipeLang.Proofs.Extension
import PipeLang.Proofs.Boundary
import PipeLang.Proofs.Joining
import PipeLang.Proofs.Growth
import PipeLang.Proofs.ChainLength
import PipeLang.Proofs.StoredCode
import PipeLang.Proofs.Placeholder
import PipeLang.Proofs.Parameters
import PipeLang.Proofs.LikeValues
import PipeLang.Proofs.Simulation
import PipeLang.Proofs.Lockstep
import PipeLang.Proofs.AlikeCode
import PipeLang.Proofs.Surface
import PipeLang.Proofs.Targets
import PipeLang.Proofs.SideBySide
import PipeLang.Proofs.Fresh
import PipeLang.Proofs.Delivery
import PipeLang.Proofs.Application
import PipeLang.Proofs.Stages
import PipeLang.Proofs.Placement
import PipeLang.Proofs.Shelter
import PipeLang.Proofs.Unread
import PipeLang.Proofs.Irrelevance
import PipeLang.Proofs.JsonForm
import PipeLang.Proofs.CutOff
import PipeLang.Proofs.Tiling
import PipeLang.Proofs.Constructs
import PipeLang.Proofs.Spans
import PipeLang.Proofs.Following
import PipeLang.Proofs.Ascent
import PipeLang.Proofs.Grouping
import PipeLang.Proofs.Order
import PipeLang.Proofs.Newlines
import PipeLang.Proofs.ReadBack
import PipeLang.Proofs.Tee
import PipeLang.Proofs.Postfixes
import PipeLang.Proofs.Rejection
import PipeLang.Proofs.OuterAssignment
import PipeLang.Proofs.StringLiterals
import PipeLang.Proofs.Integers
import PipeLang.Proofs.Cycles
import PipeLang.Proofs.Operands
import PipeLang.Proofs.Fitting
import PipeLang.Proofs.FittedPrint
import PipeLang.Proofs.Attachment
import PipeLang.Proofs.Stripping
import PipeLang.Proofs.Negation
import PipeLang.Proofs.Injection
import PipeLang.Proofs.ScopeInjection
import PipeLang.Proofs.Composition
import PipeLang.Proofs.Displayed
import PipeLang.Proofs.WholeFloats
import PipeLang.Proofs.Sameness
import PipeLang.Proofs.Arithmetic
import PipeLang.Proofs.Cursor
import PipeLang.Proofs.Trail
import PipeLang.Proofs.Tracking
import PipeLang.Proofs.Onward
import PipeLang.Proofs.PipeCalls
