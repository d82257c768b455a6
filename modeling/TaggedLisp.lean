import TaggedLisp.CommandLine.Argument
import TaggedLisp.CommandLine.Invocation
import TaggedLisp.CommandLine.Launch
import TaggedLisp.Console.Command
import TaggedLisp.Console.Render
import TaggedLisp.Console.Report
import TaggedLisp.Console.Session
import TaggedLisp.Datum
import TaggedLisp.Display
import TaggedLisp.Dump.Token
import TaggedLisp.Dump.Value
import TaggedLisp.Environment
import TaggedLisp.Error
import TaggedLisp.Evaluation
import TaggedLisp.Heap.Basic
import TaggedLisp.Heap.Equality
import TaggedLisp.Heap.List
import TaggedLisp.Heap.Quotation
import TaggedLisp.Json.Node
import TaggedLisp.Json.Text
import TaggedLisp.Lambda
import TaggedLisp.Machine
import TaggedLisp.Main
import TaggedLisp.Reader
import TaggedLisp.Script
import TaggedLisp.Settings
import TaggedLisp.Settings.Json
import TaggedLisp.StockRoutine
import TaggedLisp.SymbolTable
import TaggedLisp.Text.Blank
import TaggedLisp.Text.Decimal
import TaggedLisp.Text.Layout
import TaggedLisp.Text.Quoted
import TaggedLisp.Text.Shapeless
import TaggedLisp.Token
import TaggedLisp.Value
import TaggedLisp.Word
import TaggedLisp.Proofs.Heap.Growth
import TaggedLisp.Proofs.Heap.Unfolding
import TaggedLisp.Proofs.Heap.Allocation
import TaggedLisp.Proofs.Reader.Derivation
import TaggedLisp.Proofs.Heap.WellFormed
import TaggedLisp.Proofs.Heap.Shape
import TaggedLisp.Proofs.Environment
import TaggedLisp.Proofs.Evaluation.Containment
import TaggedLisp.Proofs.Machine
import TaggedLisp.Proofs.Walks
import TaggedLisp.Proofs.Equality
import TaggedLisp.Proofs.Workspace
import TaggedLisp.Proofs.Evaluation.OnTrees
import TaggedLisp.Proofs.Evaluation.Refinement
import TaggedLisp.Proofs.Reader.Agreement
import TaggedLisp.Proofs.Reader.Printed
import TaggedLisp.Proofs.Reader.Room
import TaggedLisp.Proofs.Reader.RoundTrip
import TaggedLisp.Proofs.Evaluation.Derivation
import TaggedLisp.Proofs.Evaluation.Sources
import TaggedLisp.Proofs.Persistence
import TaggedLisp.Proofs.WriteOnce
import TaggedLisp.Proofs.Evaluation.Language
import TaggedLisp.Proofs.Reader.Effects
import TaggedLisp.Proofs.Reader.Pieces
import TaggedLisp.Proofs.Pieces
import TaggedLisp.Proofs.Reader.Sourced
import TaggedLisp.Proofs.SourceData
import TaggedLisp.Proofs.Evaluation.Layout
import TaggedLisp.Proofs.SymbolTable
import TaggedLisp.Proofs.Heap.Spine
import TaggedLisp.Proofs.Keywords
import TaggedLisp.Proofs.Evaluation.Lockstep
import TaggedLisp.Proofs.Evaluation.Descent
import TaggedLisp.Proofs.ResultLists
import TaggedLisp.Proofs.Screening
import TaggedLisp.Proofs.Ceilings
import TaggedLisp.Proofs.Evaluation.Roomier
import TaggedLisp.Proofs.Console.Reports
import TaggedLisp.Proofs.Console.Sessions
import TaggedLisp.Proofs.Evaluation.OneLine
import TaggedLisp.Proofs.Console.SourceFile
import TaggedLisp.Proofs.FailedDefinitions
import TaggedLisp.Proofs.Scan.LongestMatch
import TaggedLisp.Proofs.Scan.Partition
import TaggedLisp.Proofs.Scan.Delimiters
import TaggedLisp.Proofs.Reader.Pulls
import TaggedLisp.Proofs.Reader.Planting
import TaggedLisp.Proofs.Reader.QuoteMarks
import TaggedLisp.Proofs.Evaluation.Rationed
import TaggedLisp.Proofs.CellUse
import TaggedLisp.Proofs.Evaluation.Indistinguishable
import TaggedLisp.Proofs.ListStore
import TaggedLisp.Proofs.QuoteLayers
import TaggedLisp.Proofs.Word
import TaggedLisp.Proofs.SourceResults
import TaggedLisp.Proofs.FailureKinds
import TaggedLisp.Proofs.Evaluation.Words
import TaggedLisp.Proofs.WordRuns
import TaggedLisp.Proofs.Rendering
import TaggedLisp.Proofs.Json.Grammar
import TaggedLisp.Proofs.Json.Strict
import TaggedLisp.Proofs.Json.Written
import TaggedLisp.Proofs.Json.Data
import TaggedLisp.Proofs.SettingsReading
import TaggedLisp.Proofs.Dump.Numerals
import TaggedLisp.Proofs.Dump.Lines
import TaggedLisp.Proofs.Dump.Listing
import TaggedLisp.Proofs.Dump.Preorder
