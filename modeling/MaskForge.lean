import MaskForge.Runtime.Contract
import MaskForge.Lib.Components
import MaskForge.Structured.Cycles
import MaskForge.Structured.Meaning
import MaskForge.Structured.CycleShape
import MaskForge.Structured.CycleRun
import MaskForge.Lib.Kleene
import MaskForge.Structured.CycleMeaning
import MaskForge.Structured.CycleCorrect
import MaskForge.Structured.Keys
import MaskForge.Lib.Bisect
import MaskForge.Structured.KeyLife
import MaskForge.Structured.Scalar
import MaskForge.Structured.StringEnum
import MaskForge.Structured.Cursor
import MaskForge.Structured.CursorLaws
import MaskForge.Structured.Applicators
import MaskForge.Lib.LruLog
import MaskForge.Lib.Runs
import MaskForge.Lib.SingleFlight
import MaskForge.Runtime.LruCaches
import MaskForge.Runtime.BuildGate
import MaskForge.Ir.Schema
import MaskForge.Runtime.ExecutableCache
import MaskForge.Lib.Codec
import MaskForge.Ir.Validate
import MaskForge.Ir.WellFormed
import MaskForge.Ir.Codecs
import MaskForge.Ir.Hash
import MaskForge.Ir.Routing
import MaskForge.Ir.Layout
import MaskForge.Ir.Wire
import MaskForge.Ir.Builder
import MaskForge.Ir.RoundTrip
import MaskForge.Runtime.ExecutableLog
import MaskForge.Runtime.LazyRows
import MaskForge.Structured.Spelling
import MaskForge.Structured.StringDecoder
import MaskForge.Structured.StringGrammar
import MaskForge.Automaton.Graph
import MaskForge.Lib.Liveness
import MaskForge.Automaton.Residual
import MaskForge.Automaton.Materialize
import MaskForge.Automaton.Language
import MaskForge.Automaton.Nfa
import MaskForge.Automaton.Chain
import MaskForge.Automaton.Compose
import MaskForge.Automaton.Product
import MaskForge.Automaton.Shuffle
import MaskForge.Automaton.Import
import MaskForge.Automaton.Cardinality
import MaskForge.Automaton.ScalarInterval
import MaskForge.Structured.PendingScalar
import MaskForge.Lib.Decimal
import MaskForge.Lib.RegexText
import MaskForge.Automaton.IntegerRegex
import MaskForge.Automaton.MultipleOf
import MaskForge.Structured.NumberForm
import MaskForge.Lib.Preorder
import MaskForge.Index.Agreement
import MaskForge.Lib.DigitFraction
import MaskForge.Structured.NumberExact
import MaskForge.Structured.NumberCuts
import MaskForge.Lib.Linked
import MaskForge.Structured.ScopeArena
import MaskForge.Structured.ScopeChains
import MaskForge.Structured.ScopeRuns
import MaskForge.Index.Slice
import MaskForge.Index.SliceExact
import MaskForge.Structured.LexicalFilter
import MaskForge.Structured.StringEnumRoute
import MaskForge.Structured.StringEnumExact
import MaskForge.Structured.StringFrame
import MaskForge.Structured.StringIntersection
import MaskForge.Frontend.StringRegex
import MaskForge.Lib.ByteRegex
import MaskForge.Frontend.Ast
import MaskForge.Frontend.JsonText
import MaskForge.Frontend.JsonParser
import MaskForge.Frontend.JsonRead
import MaskForge.Frontend.JsonSound
import MaskForge.Frontend.JsonComplete
import MaskForge.Frontend.JsonPrinter
import MaskForge.Frontend.NumericToken
import MaskForge.Lib.Derivative
import MaskForge.Structured.AnyJson
import MaskForge.Structured.AnyLanguage
import MaskForge.Structured.AnyExact
import MaskForge.Structured.AnyLive
import MaskForge.Lib.CycleMarks
import MaskForge.Frontend.Lowering
import MaskForge.Frontend.Positions
import MaskForge.Frontend.References
import MaskForge.Frontend.DirectLowering
import MaskForge.Lib.StackHeight
import MaskForge.Index.StackFuel
import MaskForge.Lib.SortedTable
import MaskForge.Vocab.Ingest
import MaskForge.Vocab.IngestTable
import MaskForge.Vocab.IngestPacked
import MaskForge.Vocab.IngestRoutes
import MaskForge.Lib.PathMerge
import MaskForge.Automaton.StringSet
import MaskForge.Lib.Outcome
import MaskForge.Lib.RegexNotation
import MaskForge.Automaton.Limits
import MaskForge.Automaton.IntegerNotation
import MaskForge.Ir.LowerNode
import MaskForge.Ir.CompileNode
import MaskForge.Lib.Phrase
import MaskForge.Automaton.EngineLanguage
import MaskForge.Ir.NodeLanguage
import MaskForge.Ir.LeafNotation
import MaskForge.Ir.PartExact
import MaskForge.Ir.CompileExact
import MaskForge.Lib.Journal
import MaskForge.Lib.KeySort
import MaskForge.Structured.CanonicalArena
import MaskForge.Structured.CanonicalBuilder
import MaskForge.Structured.CanonicalSet
import MaskForge.Structured.CanonicalSteps
import MaskForge.Structured.CanonicalUndo
import MaskForge.Structured.CanonicalValue
import MaskForge.Structured.CanonicalDraft
import MaskForge.Structured.CanonicalReading
import MaskForge.Structured.CanonicalDenotes
import MaskForge.Structured.CanonicalIdentity
import MaskForge.Structured.CanonicalCost
import MaskForge.Structured.CanonicalTracks
import MaskForge.Structured.CanonicalUnique
import MaskForge.Structured.SessionMemory
