import TinyLisp.Form.Equality
import TinyLisp.Main
import TinyLisp.Workspace
import TinyLisp.Proofs.Entries
import TinyLisp.Proofs.Parts
import TinyLisp.Proofs.Children
import TinyLisp.Proofs.Pass
import TinyLisp.Proofs.Relocation
import TinyLisp.Proofs.Atoms
import TinyLisp.Proofs.Grammar
import TinyLisp.Proofs.Prefixes
import TinyLisp.Proofs.Pieces
import TinyLisp.Proofs.Lexing
import TinyLisp.Proofs.Incomplete
import TinyLisp.Proofs.Pattern
import TinyLisp.Proofs.Lexemes
import TinyLisp.Proofs.Normal
import TinyLisp.Proofs.RoundTrip
import TinyLisp.Proofs.Streams
import TinyLisp.Proofs.Evaluation
import TinyLisp.Proofs.Prelude
import TinyLisp.Proofs.Lines
import TinyLisp.Proofs.Balance
import TinyLisp.Proofs.Keys
import TinyLisp.Proofs.IndexedMap
import TinyLisp.Proofs.Coherence
import TinyLisp.Proofs.Values
import TinyLisp.Proofs.Echo
import TinyLisp.Proofs.Routines
import TinyLisp.Proofs.Run
import TinyLisp.Proofs.Depth
import TinyLisp.Proofs.Tracing
import TinyLisp.Proofs.Effects
import TinyLisp.Proofs.Results
import TinyLisp.Proofs.Layout
import TinyLisp.Proofs.Throughout
import TinyLisp.Proofs.Reports
import TinyLisp.Proofs.Causes
import TinyLisp.Proofs.Ordinary
import TinyLisp.Proofs.OneLine
import TinyLisp.Proofs.Programs
import TinyLisp.Proofs.Heads
import TinyLisp.Proofs.Literals
import TinyLisp.Proofs.Histories
import TinyLisp.Proofs.Truthful
import TinyLisp.Proofs.NestingLimit
import TinyLisp.Proofs.StringEnds
import TinyLisp.Proofs.Sameness
import TinyLisp.Proofs.MapSameness
import TinyLisp.Proofs.Mapping
import TinyLisp.Proofs.MapLiterals
import TinyLisp.Proofs.Interning
import TinyLisp.Proofs.Mentions
import TinyLisp.Proofs.SelfEvaluation
import TinyLisp.Proofs.Numerals
