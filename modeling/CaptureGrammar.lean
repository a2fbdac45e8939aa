import CaptureGrammar.Annotated.Basic
import CaptureGrammar.Annotated.Drawing
import CaptureGrammar.Annotated.Json
import CaptureGrammar.CommandLine.Options
import CaptureGrammar.CommandLine.Program
import CaptureGrammar.CommandLine.Report
import CaptureGrammar.Compilation
import CaptureGrammar.Event
import CaptureGrammar.Grammar.Basic
import CaptureGrammar.Grammar.Language
import CaptureGrammar.Grammar.Nonterminal
import CaptureGrammar.Grammar.OfPattern
import CaptureGrammar.Json
import CaptureGrammar.Pattern.Basic
import CaptureGrammar.Pattern.Error
import CaptureGrammar.Pattern.Language
import CaptureGrammar.Pattern.Marker
import CaptureGrammar.Pattern.Memory
import CaptureGrammar.Pattern.Nodes
import CaptureGrammar.Pattern.Outline
import CaptureGrammar.Pattern.Parsed
import CaptureGrammar.Pattern.Reader.Atom
import CaptureGrammar.Pattern.Reader.Basic
import CaptureGrammar.Pattern.Reader.Expression
import CaptureGrammar.Pattern.Spelling
import CaptureGrammar.Pattern.Summary
import CaptureGrammar.Text.Printable
import CaptureGrammar.Text.Quoted
import CaptureGrammar.Validation
import CaptureGrammar.Main
import CaptureGrammar.Proofs.Building
import CaptureGrammar.Proofs.Closings
import CaptureGrammar.Proofs.CompletionOrder
import CaptureGrammar.Proofs.CompletionRecords
import CaptureGrammar.Proofs.Dependence
import CaptureGrammar.Proofs.Derivation
import CaptureGrammar.Proofs.Productions
import CaptureGrammar.Proofs.GrammarLanguage
import CaptureGrammar.Proofs.MemoryLanguage
import CaptureGrammar.Proofs.AnnotatedLengths
import CaptureGrammar.Proofs.StaticLength
import CaptureGrammar.Proofs.Scanner
import CaptureGrammar.Proofs.Verdict
import CaptureGrammar.Proofs.Fitting
import CaptureGrammar.Proofs.Passage
import CaptureGrammar.Proofs.AtomReading
import CaptureGrammar.Proofs.ExpressionReading
import CaptureGrammar.Proofs.RoundTrip
import CaptureGrammar.Proofs.ReferenceCycles
import CaptureGrammar.Proofs.ReferenceOrder
import CaptureGrammar.Proofs.Openings
import CaptureGrammar.Proofs.RuleOrder
import CaptureGrammar.Proofs.Tabulation
import CaptureGrammar.Proofs.Mentions
import CaptureGrammar.Proofs.WellFormed
import CaptureGrammar.Proofs.BracketBalance
import CaptureGrammar.Proofs.AngleBrackets
import CaptureGrammar.Proofs.MarkerRewriting
import CaptureGrammar.Proofs.MarkerBrackets
import CaptureGrammar.Proofs.Policies
import CaptureGrammar.Proofs.FirstMarker
import CaptureGrammar.Proofs.FinalErrors
import CaptureGrammar.Proofs.NodeCounts
import CaptureGrammar.Proofs.NodeRules
import CaptureGrammar.Proofs.DanglingReferences
import CaptureGrammar.Proofs.OpenedGroups
import CaptureGrammar.Proofs.EventLog
import CaptureGrammar.Proofs.NestingLimit
import CaptureGrammar.Proofs.LinearSize
import CaptureGrammar.Proofs.UniqueReading
import CaptureGrammar.Proofs.JsonText
import CaptureGrammar.Proofs.AnnotatedJson
import CaptureGrammar.Proofs.QuotedText
import CaptureGrammar.Proofs.SummaryText
import CaptureGrammar.Proofs.OutlineText
import CaptureGrammar.Proofs.ListingText
import CaptureGrammar.Proofs.AnnotatedTree
import CaptureGrammar.Proofs.DrawingText
import CaptureGrammar.Proofs.DrawnTree
import CaptureGrammar.Proofs.ReferenceScan
import CaptureGrammar.Proofs.FailureMessage
import CaptureGrammar.Proofs.PatternSource
import CaptureGrammar.Proofs.RuleIndex
import CaptureGrammar.Proofs.Growth
import CaptureGrammar.Proofs.OpenBrackets
import CaptureGrammar.Proofs.LocalReading
import CaptureGrammar.Proofs.Growth
