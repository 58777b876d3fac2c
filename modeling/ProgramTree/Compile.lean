import ProgramTree.Goal
import ProgramTree.Outlining
import ProgramTree.Program.Consistency
import ProgramTree.Program.Rendering

/-!
# Compiling a program

Works through the goals of a compilation: check the tree, outline its loops, check
it again.  The answer are the reported outlining decisions.  A tree that is not
consistent is given up, with a description of its first defect.
-/

namespace ProgramTree.Edit

/-- Stops unless the tree is consistent. -/
def expectConsistent : Edit Unit := do
  match ← look (·.verify) with
  | none => return
  | some defect => throw (.inconsistent (← look (·.explain defect)))

/-- Works through a queue of goals, which outlining may extend.  `reports` holds what
was reported before. -/
def work (queue : GoalQueue) (reports : List String) : Edit (List String) :=
  match _handedOut : queue.next? with
  | none => return reports
  | some (.verify stage, rest) => do
    expectConsistent
    work (rest.finish (.verify stage)) reports
  | some (.outline, rest) => do
    let report ← outline
    work ((rest.add (.verify .outlining)).finish .outline) (reports ++ report.messages)
termination_by queue.weight
decreasing_by
  · have handed := GoalQueue.weight_next _handedOut
    simp only [GoalQueue.weight_finish, Goal.weight] at *
    omega
  · have handed := GoalQueue.weight_next _handedOut
    have added := rest.weight_add_le (.verify .outlining)
    simp only [GoalQueue.weight_finish, Goal.weight] at *
    omega

/-- Runs every pass over the program.  The answer are the lines the passes reported. -/
def compile : Edit (List String) :=
  work ((({} : GoalQueue).add (.verify .input)).add .outline) []

end ProgramTree.Edit
