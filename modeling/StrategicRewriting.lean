import StrategicRewriting.Main
import StrategicRewriting.Term.Sharing
import StrategicRewriting.Proofs.Double.ReadBack
import StrategicRewriting.Proofs.Token.Lexing
import StrategicRewriting.Proofs.Term.Erasure
import StrategicRewriting.Proofs.Written.Grammar
import StrategicRewriting.Proofs.Written.Meaning
import StrategicRewriting.Proofs.Term.Readable
import StrategicRewriting.Proofs.Written.RoundTrip
import StrategicRewriting.Proofs.Term.WellFormed
import StrategicRewriting.Proofs.Factory.WellFormed
import StrategicRewriting.Proofs.Strategy.Depth
import StrategicRewriting.Proofs.Strategy.Effect
import StrategicRewriting.Proofs.Strategy.Rebuild
import StrategicRewriting.Proofs.Strategy.Innermost
import StrategicRewriting.Proofs.Strategy.Simplify
import StrategicRewriting.Proofs.Strategy.Scoping
import StrategicRewriting.Proofs.Strategy.Annotations
import StrategicRewriting.Proofs.Context.WellFormed
import StrategicRewriting.Proofs.Strategy.WellFormed
import StrategicRewriting.Proofs.Pattern.Match
import StrategicRewriting.Proofs.Pattern.Build
import StrategicRewriting.Proofs.Pattern.Inverse
import StrategicRewriting.Proofs.Factory.Numbering
import StrategicRewriting.Proofs.Factory.Recency
import StrategicRewriting.Proofs.Written.Derivation
import StrategicRewriting.Proofs.Written.Sequence
import StrategicRewriting.Proofs.Format.Idempotence
import StrategicRewriting.Proofs.Strategy.Script
import StrategicRewriting.Proofs.Strategy.Fatality
import StrategicRewriting.Proofs.Strategy.Composition
import StrategicRewriting.Proofs.Strategy.Passivity
import StrategicRewriting.Proofs.Strategy.Rewriting
import StrategicRewriting.Proofs.Strategy.Atomicity
import StrategicRewriting.Proofs.Term.Equality
import StrategicRewriting.Proofs.Term.Shown
import StrategicRewriting.Proofs.Factory.Printing
import StrategicRewriting.Proofs.Strategy.Traversal
import StrategicRewriting.Proofs.Format.Stripping
import StrategicRewriting.Proofs.Context.Tables
import StrategicRewriting.Proofs.Strategy.Fixpoint
import StrategicRewriting.Proofs.Pattern.Binding
import StrategicRewriting.Proofs.Context.Variables
import StrategicRewriting.Proofs.Strategy.Locality
import StrategicRewriting.Proofs.Strategy.Matching
import StrategicRewriting.Proofs.Strategy.Joining
import StrategicRewriting.Proofs.Strategy.Positions
import StrategicRewriting.Proofs.Strategy.Once
import StrategicRewriting.Proofs.Strategy.Elements
import StrategicRewriting.Proofs.Strategy.Congruences
import StrategicRewriting.Proofs.Strategy.Nesting
import StrategicRewriting.Proofs.Strategy.Outermost
import StrategicRewriting.Proofs.Strategy.Termination
import StrategicRewriting.Proofs.Strategy.Repetition
import StrategicRewriting.Proofs.Strategy.Storing
import StrategicRewriting.Proofs.Written.Reader
import StrategicRewriting.Proofs.Format.Tokens
import StrategicRewriting.Proofs.Context.Innermost
import StrategicRewriting.Proofs.Term.Annotations
import StrategicRewriting.Proofs.Pattern.Shortcuts
import StrategicRewriting.Proofs.Pattern.Growth
import StrategicRewriting.Proofs.Pattern.Occurrences
