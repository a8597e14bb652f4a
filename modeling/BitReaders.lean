import BitReaders.Text.Blank
import BitReaders.Text.Upper
import BitReaders.Text.Quoted
import BitReaders.Text.Numeral
import BitReaders.Text.LineEnds
import BitReaders.Text.Utf8
import BitReaders.Json.Display
import BitReaders.Json.Reader
import BitReaders.DecisionTree.Listing
import BitReaders.Reader.Request
import BitReaders.Reader.Session
import BitReaders.Files.Access
import BitReaders.Options.Parse
import BitReaders.Proofs.Bisection
import BitReaders.Proofs.WordSize
import BitReaders.Proofs.ListingMeaning
import BitReaders.Proofs.ClassNames
import BitReaders.Main
import BitReaders.Proofs.Enumeration
import BitReaders.Proofs.Requests
import BitReaders.Proofs.Json.DistinctNames
import BitReaders.Proofs.Overrides
import BitReaders.Proofs.Reachable
import BitReaders.Proofs.Collisions
import BitReaders.Proofs.Variants
import BitReaders.Proofs.Ranks
import BitReaders.Proofs.Sessions
import BitReaders.Proofs.Options.Words
import BitReaders.Proofs.Commands
import BitReaders.Proofs.Text.Utf8
import BitReaders.Proofs.Json.Positions
import BitReaders.Proofs.Runs.Stages
import BitReaders.Proofs.Runs.Documents
import BitReaders.Proofs.Files.Writes
import BitReaders.Proofs.Options.Comparison
import BitReaders.Proofs.Runs.Options
import BitReaders.Proofs.Runs.Channels
import BitReaders.Proofs.Agreement
import BitReaders.Proofs.Runs.Families
import BitReaders.Proofs.Composition
import BitReaders.Proofs.InOrder
import BitReaders.Proofs.LinearScan
import BitReaders.Proofs.Entries
import BitReaders.Proofs.Depth
import BitReaders.Proofs.SchemeSpellings
import BitReaders.Proofs.Text.Lines
import BitReaders.Proofs.ListingLines
import BitReaders.Proofs.Indentation
import BitReaders.Proofs.ListingTrees
import BitReaders.Proofs.Summary
import BitReaders.Proofs.Files.Sequences
import BitReaders.Proofs.Files.Documents
import BitReaders.Proofs.Numerals
import BitReaders.Proofs.Printing
import BitReaders.Proofs.Runs.Bits
import BitReaders.Proofs.Repetitions
import BitReaders.Proofs.Runs.Directories
