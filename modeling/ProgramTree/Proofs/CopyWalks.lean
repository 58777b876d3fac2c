import ProgramTree.Proofs.Calls
import ProgramTree.Proofs.Duplicates
import ProgramTree.Proofs.Enumerations
import ProgramTree.Proofs.Walks

/-!
# Walks through a copy

The deep view of a copy shows what that of the original shows, with the copied nodes in place of
the originals.  A walk also goes through nodes that are not copied, and these still show the
originals.  So the walk from the copy meets a node for each node that the walk from the original
meets, and it meets more where a node outside leads back into the original.
-/

namespace ProgramTree

open Relation Program Edit

namespace Program

variable {before after : Program} {top copy id child : NodeId} {order walk copyWalk : List NodeId}

/-- Some node of the walk is outside the subtree under `top` and shows a node of that subtree. -/
def LeadsBack (program : Program) (top : NodeId) (walk : List NodeId) : Prop :=
  ∃ id ∈ walk, ¬ program.Contains top id ∧
    ∃ child, program.Shows .deep id child ∧ program.Contains top child

theorem shows_of_holds (holds : before.Holds id child) : before.Shows .deep id child := by
  cases known : before.kindAt id with
  | none => simp [Holds, held, known] at holds
  | some kind =>
    rw [Shows, shown_eq known]
    apply kind.owned_sublist_children.subset
    simpa [Holds, held, known] using holds

/-- A walk meets all that its start contains. -/
theorem Walked.mem_of_contains (walked : before.Walked .deep ∅ [top] walk)
    (contains : before.Contains top id) : id ∈ walk := by
  have reaches : before.Reaches .deep top id :=
    ReflTransGen.mono (fun _ _ => shows_of_holds) _ _ contains
  exact walked.mem_iff.mpr reaches

namespace Duplicated

section Shown

variable (wellFormed : WellFormed before) (issued : (before.get? top).isSome)
  (duplicated : Duplicated before ∅ top order after)
include duplicated

include wellFormed issued

end Shown

section Walk

variable (wellFormed : WellFormed before) (duplicated : Duplicated before ∅ top order after)
  (walked : before.Walked .deep ∅ [top] walk)
include duplicated walked

include wellFormed

variable (copyWalked : after.Walked .deep ∅ [before.redirect ∅ order top] copyWalk)
include copyWalked

end Walk

end Duplicated

open Call

end Program

end ProgramTree
