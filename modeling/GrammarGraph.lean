import GrammarGraph.CommandLine.Commands
import GrammarGraph.Definition.Building
import GrammarGraph.Definition.Reading
import GrammarGraph.Lexicon
import GrammarGraph.Main
import GrammarGraph.Parser
import GrammarGraph.Sample
import GrammarGraph.Tree.Format
import GrammarGraph.Proofs.Conservation
import GrammarGraph.Proofs.Backtrack
import GrammarGraph.Proofs.Hooks
import GrammarGraph.Proofs.Soundness
import GrammarGraph.Proofs.Frames
import GrammarGraph.Proofs.Termination
import GrammarGraph.Proofs.Enumeration
import GrammarGraph.Proofs.Exhaustive
import GrammarGraph.Proofs.Modes
import GrammarGraph.Proofs.Barrier
import GrammarGraph.Proofs.Nesting
import GrammarGraph.Proofs.Acceptance
import GrammarGraph.Proofs.Environment
import GrammarGraph.Proofs.Derivations
import GrammarGraph.Proofs.Languages
import GrammarGraph.Proofs.Sentences
import GrammarGraph.Proofs.Definitions
import GrammarGraph.Proofs.Completeness
import GrammarGraph.Proofs.Gaps
import GrammarGraph.Proofs.Blame
import GrammarGraph.Proofs.Failing
import GrammarGraph.Proofs.Forecasts
import GrammarGraph.Proofs.Templates
import GrammarGraph.Proofs.WordByWord
import GrammarGraph.Proofs.Machine
import GrammarGraph.Proofs.Markers
import GrammarGraph.Proofs.Escaping
import GrammarGraph.Proofs.Lookahead
import GrammarGraph.Proofs.Spans
import GrammarGraph.Proofs.Precedence
import GrammarGraph.Proofs.Loosening
import GrammarGraph.Proofs.Tight
import GrammarGraph.Proofs.Safety
import GrammarGraph.Proofs.Matching
import GrammarGraph.Proofs.Cuts
import GrammarGraph.Proofs.Placing
import GrammarGraph.Proofs.Quotes
import GrammarGraph.Proofs.RoundTrip
import GrammarGraph.Proofs.Markup
import GrammarGraph.Proofs.Scopes
import GrammarGraph.Proofs.Separation
import GrammarGraph.Proofs.Comments
import GrammarGraph.Proofs.WellFormedness
import GrammarGraph.Proofs.Keywords
import GrammarGraph.Proofs.Literals
import GrammarGraph.Proofs.Gluing
import GrammarGraph.Proofs.Origins
import GrammarGraph.Proofs.Preferences
import GrammarGraph.Proofs.Declaring
import GrammarGraph.Proofs.Classifying
import GrammarGraph.Proofs.Renaming
import GrammarGraph.Proofs.Rivals
import GrammarGraph.Proofs.Routes
import GrammarGraph.Proofs.Instances
import GrammarGraph.Proofs.Meanings
import GrammarGraph.Proofs.Readings
import GrammarGraph.Proofs.Readable
import GrammarGraph.Proofs.Naming
import GrammarGraph.Proofs.Recognizing
import GrammarGraph.Proofs.Revisiting
import GrammarGraph.Proofs.Narrowing
import GrammarGraph.Proofs.Describing
