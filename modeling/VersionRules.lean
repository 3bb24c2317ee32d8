import VersionRules.Candidate.Document
import VersionRules.Candidate.Listing
import VersionRules.Command.Run
import VersionRules.Main
import VersionRules.Proofs.Except
import VersionRules.Proofs.Tree.Links
import VersionRules.Proofs.Tree.Numbered
import VersionRules.Proofs.Tree.Spine
import VersionRules.Proofs.Tree.Regrouping
import VersionRules.Proofs.Tree.Growth
import VersionRules.Proofs.Grammar.Phrase
import VersionRules.Proofs.Grammar.Prefix
import VersionRules.Proofs.Grammar.Acceptance
import VersionRules.Proofs.Grammar.Derivation
import VersionRules.Proofs.Rule.Infix
import VersionRules.Proofs.Rule.Ranks
import VersionRules.Proofs.Rule.TotalPreorder
import VersionRules.Proofs.Rule.Reordering
import VersionRules.Proofs.Rule.Tagging
import VersionRules.Proofs.Text.Characters
import VersionRules.Proofs.Json.Values
import VersionRules.Proofs.Json.Strings
import VersionRules.Proofs.Json.Lexemes
import VersionRules.Proofs.Json.RoundTrip
import VersionRules.Proofs.Qualifier.Words
import VersionRules.Proofs.Candidate.RoundTrip
import VersionRules.Proofs.Command.Resorting
import VersionRules.Proofs.Token.Reading
import VersionRules.Proofs.Token.Types
import VersionRules.Proofs.Rule.Quoted
import VersionRules.Proofs.Command.Checking
import VersionRules.Proofs.Rule.Meaning
import VersionRules.Proofs.Tree.Unfolding
import VersionRules.Proofs.Rule.Evaluation
import VersionRules.Proofs.Rule.Offences
import VersionRules.Proofs.Rule.Relevance
import VersionRules.Proofs.Candidate.Meaning
import VersionRules.Proofs.Token.Locality
import VersionRules.Proofs.Token.Places
import VersionRules.Proofs.Rule.Located
import VersionRules.Proofs.Rule.Sorting
import VersionRules.Proofs.Token.Forbidden
import VersionRules.Proofs.Rule.Completion
import VersionRules.Proofs.Rule.Query
import VersionRules.Proofs.Rule.Spelling
import VersionRules.Proofs.Rule.Default
import VersionRules.Proofs.Version.Numeric
import VersionRules.Proofs.Version.Tail
import VersionRules.Proofs.Version.Decomposition
import VersionRules.Proofs.Version.Rebuild
import VersionRules.Proofs.Version.Oversized
import VersionRules.Proofs.Version.Components
import VersionRules.Proofs.Token.Concatenation
import VersionRules.Proofs.Token.Tiling
import VersionRules.Proofs.Token.Translation
import VersionRules.Proofs.Token.Names
import VersionRules.Proofs.Token.Writing
import VersionRules.Proofs.Token.Widening
import VersionRules.Proofs.Token.Iteration
import VersionRules.Proofs.Candidate.Conversion
import VersionRules.Proofs.Rule.Printing
import VersionRules.Proofs.Grammar.Formula
import VersionRules.Proofs.Tree.Placement
import VersionRules.Proofs.Grammar.Invariant
