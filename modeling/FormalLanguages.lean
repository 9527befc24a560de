import FormalLanguages.Alphabet
import FormalLanguages.Automaton.Algebra
import FormalLanguages.Automaton.Determinize
import FormalLanguages.Automaton.Dfa
import FormalLanguages.Automaton.Elimination
import FormalLanguages.Automaton.Nfa
import FormalLanguages.Automaton.Shortest
import FormalLanguages.Automaton.Thompson
import FormalLanguages.Chart.Basic
import FormalLanguages.Chart.Enumeration
import FormalLanguages.Chart.Membership
import FormalLanguages.Comparison.ContextFree
import FormalLanguages.Comparison.Regular
import FormalLanguages.Error
import FormalLanguages.Grammar.Analysis
import FormalLanguages.Grammar.Basic
import FormalLanguages.Grammar.Chomsky
import FormalLanguages.Grammar.Inline
import FormalLanguages.Grammar.Names
import FormalLanguages.Grammar.Rename
import FormalLanguages.Grammar.Text
import FormalLanguages.Grammar.Trim
import FormalLanguages.LineFormat.Automata
import FormalLanguages.LineFormat.Lists
import FormalLanguages.LineFormat.Pushdowns
import FormalLanguages.Proofs.Grammar.Yields
import FormalLanguages.Proofs.Search
import FormalLanguages.Pushdown.Basic
import FormalLanguages.Pushdown.Canonical
import FormalLanguages.Pushdown.Triples
import FormalLanguages.Regex.Basic
import FormalLanguages.Regex.Parser
import FormalLanguages.Regex.Token
import FormalLanguages.Regex.Written
import FormalLanguages.Requests
import FormalLanguages.Search
import FormalLanguages.State
import FormalLanguages.Table
import FormalLanguages.Text.Blank
import FormalLanguages.Text.Numeral
import FormalLanguages.Text.Printable
import FormalLanguages.Text.Quoted
import FormalLanguages.Proofs.Grammar.Names
import FormalLanguages.Proofs.Grammar.WellFormed
import FormalLanguages.Proofs.Grammar.Analysis
import FormalLanguages.Proofs.Grammar.Trim
import FormalLanguages.Proofs.Grammar.Inline
import FormalLanguages.Proofs.Grammar.Epsilon
import FormalLanguages.Proofs.Grammar.Units
import FormalLanguages.Proofs.Grammar.Isolate
import FormalLanguages.Proofs.Grammar.Binarize
import FormalLanguages.Proofs.Grammar.Chomsky
import FormalLanguages.Proofs.Chart.Columns
import FormalLanguages.Proofs.Chart.Membership
import FormalLanguages.Proofs.Chart.Enumeration
import FormalLanguages.Proofs.Grammar.Rename
import FormalLanguages.Proofs.Pushdown.Runs
import FormalLanguages.Proofs.Fresh
import FormalLanguages.Proofs.Pushdown.Canonical
import FormalLanguages.Proofs.Pushdown.Triples
import FormalLanguages.Proofs.Pushdown.Grammar
import FormalLanguages.Proofs.Automaton.Paths
import FormalLanguages.Proofs.Automaton.Runs
import FormalLanguages.Proofs.Automaton.Determinize
import FormalLanguages.Proofs.Automaton.Constructions
import FormalLanguages.Proofs.Automaton.Algebra
import FormalLanguages.Proofs.Automaton.Thompson
import FormalLanguages.Proofs.Automaton.Shortest
import FormalLanguages.Proofs.Comparison.Regular
import FormalLanguages.Proofs.Regex.Parser
import FormalLanguages.Proofs.Regex.Written
import FormalLanguages.Proofs.Automaton.Edges
import FormalLanguages.Proofs.Automaton.Elimination
import FormalLanguages.Proofs.Automaton.Operations
import FormalLanguages.Proofs.Comparison.Automata
import FormalLanguages.Proofs.Comparison.Listing
import FormalLanguages.Proofs.Comparison.Texts
import FormalLanguages.Proofs.Comparison.ContextFree
import FormalLanguages.Proofs.Comparison.Words
import FormalLanguages.Proofs.Grammar.Simplify
import FormalLanguages.Proofs.Text
import FormalLanguages.Proofs.Grammar.Reading
import FormalLanguages.Proofs.Grammar.Printing
import FormalLanguages.Proofs.Grammar.Transformations
import FormalLanguages.Proofs.Grammar.ChomskyText
import FormalLanguages.Proofs.Automaton.Useful
import FormalLanguages.Proofs.Automaton.GluedLabels
import FormalLanguages.Proofs.Automaton.Extraction
import FormalLanguages.Proofs.Regex.RoundTrip
import FormalLanguages.Proofs.Automaton.SubsetConstruction
import FormalLanguages.Proofs.Automaton.Closure
import FormalLanguages.Proofs.Grammar.RoundTrip
import FormalLanguages.Proofs.Grammar.RenamedText
import FormalLanguages.Proofs.Pushdown.Reading
import FormalLanguages.Proofs.Pushdown.GrammarText
import FormalLanguages.Proofs.Grammar.Delegation
import FormalLanguages.Proofs.Automaton.Queue
import FormalLanguages.Proofs.Grammar.Substitution
import FormalLanguages.Proofs.Grammar.NullVariables
import FormalLanguages.Proofs.Grammar.Trimmed
import FormalLanguages.Proofs.Grammar.Sentential
import FormalLanguages.Proofs.Pushdown.Room
import FormalLanguages.Proofs.Pushdown.CanonicalForm
import FormalLanguages.Proofs.Grammar.Isomorphism
import FormalLanguages.Proofs.Regex.Reader
import FormalLanguages.Proofs.Regex.Scan
import FormalLanguages.Proofs.Automaton.RoundTrip
import FormalLanguages.Proofs.Pushdown.Naming
import FormalLanguages.Proofs.Pushdown.Renaming
import FormalLanguages.Proofs.Chart.Scans
import FormalLanguages.Proofs.Chart.ItemSets
import FormalLanguages.Proofs.Grammar.SharedTails
