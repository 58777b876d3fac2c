/-!
# Compilation goals

The queue of what is left to do.  A goal that waits in the queue or was finished
before is not queued again.
-/

namespace ProgramTree

/-- The pass that touched the tree last when it is checked. -/
inductive Stage where
  | input
  | outlining
deriving DecidableEq

/-- A unit of work for the compiler. -/
inductive Goal where
  /-- Check the consistency of the tree after a stage. -/
  | verify (stage : Stage)
  /-- Outline the loops that can be offloaded. -/
  | outline
deriving DecidableEq

/-- A goal weighs one more than the goals it may add when it is worked on. -/
def Goal.weight : Goal → Nat
  | verify _ => 1
  | outline => 2

/-- The weight of some goals together. -/
def Goal.totalWeight : List Goal → Nat
  | [] => 0
  | goal :: rest => goal.weight + totalWeight rest

theorem Goal.totalWeight_concat (goals : List Goal) (goal : Goal) :
    totalWeight (goals ++ [goal]) = totalWeight goals + goal.weight := by
  induction goals with
  | nil => simp [totalWeight]
  | cons first rest ih => simp [totalWeight, ih, Nat.add_assoc]

/-- The goals that wait, first to be handed out first, and those that are done. -/
structure GoalQueue where
  waiting : List Goal := []
  finished : List Goal := []
deriving DecidableEq

namespace GoalQueue

/-- Queues a goal, unless it waits already or is done. -/
def add (queue : GoalQueue) (goal : Goal) : GoalQueue :=
  if goal ∈ queue.finished || goal ∈ queue.waiting then queue
  else { queue with waiting := queue.waiting ++ [goal] }

/-- Hands out the goal that waits longest. -/
def next? (queue : GoalQueue) : Option (Goal × GoalQueue) :=
  match queue.waiting with
  | [] => none
  | goal :: waiting => some (goal, { queue with waiting })

/-- Marks a goal as done. -/
def finish (queue : GoalQueue) (goal : Goal) : GoalQueue :=
  if goal ∈ queue.finished then queue
  else { queue with finished := goal :: queue.finished }

/-- The weight of all goals that wait. -/
def weight (queue : GoalQueue) : Nat :=
  Goal.totalWeight queue.waiting

theorem weight_finish (queue : GoalQueue) (goal : Goal) :
    (queue.finish goal).weight = queue.weight := by
  unfold finish
  split <;> rfl

theorem weight_add_le (queue : GoalQueue) (goal : Goal) :
    (queue.add goal).weight ≤ queue.weight + goal.weight := by
  unfold add
  split
  · exact Nat.le_add_right _ _
  · simp [weight, Goal.totalWeight_concat]

theorem weight_next {queue rest : GoalQueue} {goal : Goal}
    (handedOut : queue.next? = some (goal, rest)) :
    queue.weight = goal.weight + rest.weight := by
  cases waits : queue.waiting with
  | nil => simp [next?, waits] at handedOut
  | cons first waiting =>
    simp only [next?, waits, Option.some.injEq, Prod.mk.injEq] at handedOut
    obtain ⟨rfl, rfl⟩ := handedOut
    simp [weight, waits, Goal.totalWeight]

end GoalQueue

end ProgramTree
