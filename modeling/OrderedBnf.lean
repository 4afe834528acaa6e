import OrderedBnf.Main
import OrderedBnf.StatementTrace
import OrderedBnf.Proofs.Assembling
import OrderedBnf.Proofs.BracketNesting
import OrderedBnf.Proofs.Coverage
import OrderedBnf.Proofs.Compiling
import OrderedBnf.Proofs.CycleGuard
import OrderedBnf.Proofs.Fitting
import OrderedBnf.Proofs.OffsetWalk
import OrderedBnf.Proofs.Termination
import OrderedBnf.Proofs.Memory
import OrderedBnf.Proofs.Punctuation
import OrderedBnf.Proofs.Reachability
import OrderedBnf.Proofs.Restriction
import OrderedBnf.Proofs.Compiled
import OrderedBnf.Proofs.Completeness
import OrderedBnf.Proofs.Lookups
import OrderedBnf.Proofs.LoadedRules
import OrderedBnf.Proofs.PrintedDocuments
import OrderedBnf.Proofs.RuleNames
import OrderedBnf.Proofs.WordBoundaries
import OrderedBnf.Proofs.CommandLine
import OrderedBnf.Proofs.InstrumentedTexts
import OrderedBnf.Proofs.Locality
import OrderedBnf.Proofs.UnclosedComments
import OrderedBnf.Proofs.Leading
import OrderedBnf.Proofs.TraceRuns
import OrderedBnf.Proofs.Composition
import OrderedBnf.Proofs.LocalRendering
import OrderedBnf.Proofs.Excerpts
import OrderedBnf.Proofs.QuotedTokens
import OrderedBnf.Proofs.LeftRecursion
import OrderedBnf.Proofs.FailurePositions
import OrderedBnf.Proofs.FarthestMark
import OrderedBnf.Proofs.CompileFaults
import OrderedBnf.Proofs.Escapes
import OrderedBnf.Proofs.QuotationScanners
import OrderedBnf.Proofs.LoadOutcomes
import OrderedBnf.Proofs.BlockLines
import OrderedBnf.Proofs.LineTable
import OrderedBnf.Proofs.Normalizing
import OrderedBnf.Proofs.Pictures
import OrderedBnf.Proofs.Fillers
import OrderedBnf.Proofs.Numerals
import OrderedBnf.Proofs.QuotedLines
import OrderedBnf.Proofs.Walks
import OrderedBnf.Proofs.TidyDocuments
import OrderedBnf.Proofs.FoldedDocuments
