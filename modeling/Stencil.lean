import Stencil.Document.Evaluation
import Stencil.Files.Tree
import Stencil.Main
import Stencil.Session
import Stencil.Proofs.Grammar
import Stencil.Proofs.Reading
import Stencil.Proofs.Resolution
import Stencil.Proofs.Effects
import Stencil.Proofs.Realization
import Stencil.Proofs.Correctness
import Stencil.Proofs.Stepping
import Stencil.Proofs.Agenda
import Stencil.Proofs.Shape
import Stencil.Proofs.Soundness
import Stencil.Proofs.Calls
import Stencil.Proofs.Failures
import Stencil.Proofs.Spelling
import Stencil.Proofs.Tiling
import Stencil.Proofs.Location
import Stencil.Proofs.Spanning
import Stencil.Proofs.Placement
import Stencil.Proofs.Provenance
import Stencil.Proofs.Growth
import Stencil.Proofs.Lockstep
import Stencil.Proofs.Observing
import Stencil.Proofs.Sabotage
import Stencil.Proofs.FailFast
import Stencil.Proofs.Transcript
import Stencil.Proofs.Protocol
import Stencil.Proofs.Inputs
import Stencil.Proofs.Likeness
import Stencil.Proofs.ReadingAlike
import Stencil.Proofs.LoweringAlike
import Stencil.Proofs.RunsAlike
import Stencil.Proofs.Scanning
import Stencil.Proofs.Showing
import Stencil.Proofs.LineEnds
import Stencil.Proofs.Displacement
import Stencil.Proofs.Continuing
import Stencil.Proofs.Concatenation
import Stencil.Proofs.Offender
import Stencil.Proofs.Segments
import Stencil.Proofs.LexicalGrammar
import Stencil.Proofs.Caching
import Stencil.Proofs.Isolation
import Stencil.Proofs.Refusal
import Stencil.Proofs.Layout
import Stencil.Proofs.Groups
import Stencil.Proofs.Episodes
import Stencil.Proofs.HookCalls
import Stencil.Proofs.Numbering
import Stencil.Proofs.Tracebacks
import Stencil.Proofs.Quotation
import Stencil.Proofs.Outline
import Stencil.Proofs.Listings
import Stencil.Proofs.Accounts
import Stencil.Proofs.OneItem
import Stencil.Proofs.Preserving
import Stencil.Proofs.Registering
import Stencil.Proofs.Figures
import Stencil.Proofs.Ledger
import Stencil.Proofs.Counting
import Stencil.Proofs.Priorities
import Stencil.Proofs.Visibility
import Stencil.Proofs.Snapshots
import Stencil.Proofs.Costs
import Stencil.Proofs.Renaming
import Stencil.Proofs.Rearranging
import Stencil.Proofs.Places
import Stencil.Proofs.Gathering
import Stencil.Proofs.Loading
import Stencil.Proofs.Yields
import Stencil.Proofs.Excerpts
import Stencil.Proofs.Markers
import Stencil.Proofs.Splitting
import Stencil.Proofs.NameOrder
import Stencil.Proofs.Verbatim
import Stencil.Proofs.Answering
import Stencil.Machine.Ranges
import Stencil.Proofs.Brackets
import Stencil.Proofs.Matchings
import Stencil.Proofs.Ranges
