import Cilly.Main
import Cilly.Measure.Coverage
import Cilly.Measure.Round
import Cilly.Measure.SelfCheck
import Cilly.Measure.Shares
import Cilly.Proofs.Effects
import Cilly.Proofs.Floats
import Cilly.Proofs.Interpreter
import Cilly.Proofs.LoopExits
import Cilly.Proofs.Parsing.Exact
import Cilly.Studio.Window
import Cilly.Token.Cursor
import Cilly.Workload.Rehearsal
import Cilly.Proofs.Activations
import Cilly.Proofs.Completion
import Cilly.Proofs.Constants
import Cilly.Proofs.ControlFlow
import Cilly.Proofs.History
import Cilly.Proofs.Mirroring
import Cilly.Proofs.ScopeDiscipline
import Cilly.Proofs.Variables
import Cilly.Proofs.Artefacts
import Cilly.Proofs.FunctionTable
import Cilly.Proofs.Segments
import Cilly.Proofs.Literals
import Cilly.Proofs.Spelling
import Cilly.Proofs.Printing
import Cilly.Proofs.Expressions
import Cilly.Proofs.Statements
import Cilly.Proofs.Correctness
import Cilly.Proofs.CallFrames
import Cilly.Proofs.Mentions
import Cilly.Proofs.Acceptance
import Cilly.Proofs.LexicalAddresses
import Cilly.Proofs.JumpTargets
import Cilly.Proofs.Lexemes
import Cilly.Proofs.Listings
import Cilly.Proofs.Trials
import Cilly.Proofs.PendingOperands
import Cilly.Proofs.EvaluationOrder
import Cilly.Proofs.Abreast
import Cilly.Proofs.Renaming
import Cilly.Proofs.Transpiled
import Cilly.Proofs.Detours
import Cilly.Proofs.Alongside
import Cilly.Proofs.NegatedTests
import Cilly.Proofs.Concatenation
import Cilly.Proofs.Parsing.Loops
import Cilly.Proofs.CanvasQueue
import Cilly.Proofs.Scripts
import Cilly.Proofs.Fingerprints
import Cilly.Proofs.Tallies
import Cilly.Proofs.Brackets
import Cilly.Proofs.Rereading
