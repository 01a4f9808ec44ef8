import WhileExec.Arithmetic.Linear
import WhileExec.Arithmetic.System
import WhileExec.Command
import WhileExec.CommandLine
import WhileExec.Definedness
import WhileExec.Env
import WhileExec.Fault
import WhileExec.Grammar.Cursor
import WhileExec.Grammar.Dump
import WhileExec.Grammar.Peg
import WhileExec.Grammar.Reading
import WhileExec.Grammar.Rules
import WhileExec.Grammar.Tree
import WhileExec.Handler
import WhileExec.Interpreter
import WhileExec.Main
import WhileExec.Print
import WhileExec.Program
import WhileExec.Proofs.Agreement
import WhileExec.Proofs.Arithmetic.Forms
import WhileExec.Proofs.Arithmetic.Systems
import WhileExec.Proofs.Counting
import WhileExec.Proofs.Definedness
import WhileExec.Proofs.Endings
import WhileExec.Proofs.Executions
import WhileExec.Proofs.Footprints
import WhileExec.Proofs.Frames
import WhileExec.Proofs.Grammar.Carrying
import WhileExec.Proofs.Grammar.Concatenation
import WhileExec.Proofs.Grammar.Evaluation
import WhileExec.Proofs.Grammar.Expressions
import WhileExec.Proofs.Grammar.Following
import WhileExec.Proofs.Grammar.Fronts
import WhileExec.Proofs.Grammar.Induction
import WhileExec.Proofs.Grammar.Junctions
import WhileExec.Proofs.Grammar.Layout
import WhileExec.Proofs.Grammar.Lexis
import WhileExec.Proofs.Grammar.Locality
import WhileExec.Proofs.Grammar.Operators
import WhileExec.Proofs.Grammar.Precedence
import WhileExec.Proofs.Grammar.Remainders
import WhileExec.Proofs.Grammar.Roundtrip
import WhileExec.Proofs.Grammar.Shapes
import WhileExec.Proofs.Grammar.Statements
import WhileExec.Proofs.Grammar.Table
import WhileExec.Proofs.Grammar.Writing
import WhileExec.Proofs.Safety
import WhileExec.Proofs.Sharing.InPlace
import WhileExec.Proofs.Sharing.Maximality
import WhileExec.Proofs.Sharing.Outlines
import WhileExec.Proofs.Sharing.Preservation
import WhileExec.Proofs.Sharing.Tables
import WhileExec.Proofs.Stripping
import WhileExec.Proofs.Symbolic.Bindings
import WhileExec.Proofs.Symbolic.Changes
import WhileExec.Proofs.Symbolic.Courses
import WhileExec.Proofs.Symbolic.Deciding
import WhileExec.Proofs.Symbolic.Drawing
import WhileExec.Proofs.Symbolic.EagerCourses
import WhileExec.Proofs.Symbolic.EagerCoverage
import WhileExec.Proofs.Symbolic.EagerDefinedness
import WhileExec.Proofs.Symbolic.EagerFrames
import WhileExec.Proofs.Symbolic.EagerPartition
import WhileExec.Proofs.Symbolic.EagerResults
import WhileExec.Proofs.Symbolic.EagerSoundness
import WhileExec.Proofs.Symbolic.EagerSteps
import WhileExec.Proofs.Symbolic.EngineAgreement
import WhileExec.Proofs.Symbolic.Evaluators
import WhileExec.Proofs.Symbolic.Forking
import WhileExec.Proofs.Symbolic.Freshness
import WhileExec.Proofs.Symbolic.Histories
import WhileExec.Proofs.Symbolic.InvariantChecks
import WhileExec.Proofs.Symbolic.LazyBounds
import WhileExec.Proofs.Symbolic.LazyCounting
import WhileExec.Proofs.Symbolic.LazyCourses
import WhileExec.Proofs.Symbolic.LazyCoverage
import WhileExec.Proofs.Symbolic.LazyDefinedness
import WhileExec.Proofs.Symbolic.LazyDetection
import WhileExec.Proofs.Symbolic.LazyDrawing
import WhileExec.Proofs.Symbolic.LazyGrouping
import WhileExec.Proofs.Symbolic.LazyPartition
import WhileExec.Proofs.Symbolic.LazyReports
import WhileExec.Proofs.Symbolic.LazySoundness
import WhileExec.Proofs.Symbolic.LazySteps
import WhileExec.Proofs.Symbolic.Linearization
import WhileExec.Proofs.Symbolic.LoopInvariants
import WhileExec.Proofs.Symbolic.PoolScope
import WhileExec.Proofs.Symbolic.Reachability
import WhileExec.Proofs.Symbolic.Renamings
import WhileExec.Proofs.Symbolic.Representation
import WhileExec.Proofs.Symbolic.Scope
import WhileExec.Proofs.Symbolic.ScriptScope
import WhileExec.Proofs.Symbolic.Scripts
import WhileExec.Proofs.Symbolic.Valuation
import WhileExec.Proofs.Typing
import WhileExec.Proofs.Ways
import WhileExec.Sharing
import WhileExec.States
import WhileExec.Statistics
import WhileExec.Symbolic.Decision
import WhileExec.Symbolic.Eager
import WhileExec.Symbolic.Lazy
import WhileExec.Symbolic.Meaning
import WhileExec.Symbolic.Pool
import WhileExec.Symbolic.Search
import WhileExec.Symbolic.Session
import WhileExec.Symbolic.Term
import WhileExec.Text.Alphanumeric
import WhileExec.Text.Blank
import WhileExec.Text.CharRanges
import WhileExec.Text.Digit
import WhileExec.Text.Escaped
import WhileExec.Text.Integer
import WhileExec.Text.Lines
import WhileExec.Text.Printable
import WhileExec.Text.Quoted
import WhileExec.Value
