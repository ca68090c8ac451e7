import Terse.Main
import Terse.Proofs.Segment
import Terse.Proofs.Span
import Terse.Proofs.Cut
import Terse.Proofs.Segmentation
import Terse.Proofs.Provenance
import Terse.Proofs.Idempotence
import Terse.Proofs.Openers
import Terse.Proofs.Bundling
import Terse.Proofs.Layout
import Terse.Proofs.Pieces
import Terse.Proofs.Resolution
import Terse.Proofs.Writing
import Terse.Proofs.Clearing
import Terse.Proofs.StoreContents
import Terse.Proofs.Utf8
import Terse.Proofs.EntryText
import Terse.Proofs.StoreListing
import Terse.Proofs.StoreRefinement
import Terse.Proofs.JobRuns
import Terse.Proofs.CacheTransparency
import Terse.Proofs.TextOutput
import Terse.Proofs.Words
import Terse.Proofs.Junctions
import Terse.Proofs.ProperTree
import Terse.Proofs.StoreViews
import Terse.Proofs.ClearedStore
import Terse.Proofs.FailedPut
import Terse.Proofs.KeptGaps
import Terse.Proofs.LineBreaks
import Terse.Proofs.OutputLength
import Terse.Proofs.Sites
import Terse.Proofs.Processes
import Terse.Proofs.Interleaving
import Terse.Proofs.RunEndings
import Terse.Proofs.SuppressedResults
import Terse.Proofs.MinifyCommand
import Terse.Proofs.ExitStatus
import Terse.Proofs.StoreSurroundings
import Terse.Proofs.CacheCommands
import Terse.Proofs.Scan
import Terse.Proofs.GuardedScan
import Terse.Proofs.KeywordTracking
import Terse.Proofs.RegexDecisions
import Terse.Proofs.RegexLiterals
import Terse.Proofs.LastWord
import Terse.Proofs.CopiedLiteral
