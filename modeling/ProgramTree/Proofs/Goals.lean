import Mathlib.Data.List.Nodup
import ProgramTree.Goal

/-!
# Handing out goals

A client of the queue adds goals at any time.  It asks for the next one with none in hand, and says
when it is done with one.  The queue does not know which goal is in hand, so a client that adds this
goal once more is handed it out a second time.  A client that leaves the goal in hand alone gets no
goal twice, and gets them in the order in which they were added first.
-/

namespace ProgramTree

variable {goal other : Goal}

/-! ## What a call does to the queue -/

namespace GoalQueue

variable {queue rest : GoalQueue}

theorem add_of_known (known : goal ∈ queue.finished ∨ goal ∈ queue.waiting) :
    queue.add goal = queue := by
  simp [add, known]

theorem add_of_new (unfinished : goal ∉ queue.finished) (fresh : goal ∉ queue.waiting) :
    queue.add goal = { queue with waiting := queue.waiting ++ [goal] } := by
  simp [add, unfinished, fresh]

theorem next?_eq_none : queue.next? = none ↔ queue.waiting = [] := by
  unfold next?
  split <;> simp_all

theorem next?_eq_some :
    queue.next? = some (goal, rest) ↔
      queue.waiting = goal :: rest.waiting ∧ queue.finished = rest.finished := by
  obtain ⟨waiting, finished⟩ := queue
  obtain ⟨later, finishedLater⟩ := rest
  cases waiting <;> simp [next?, and_assoc]

@[simp]
theorem waiting_finish : (queue.finish goal).waiting = queue.waiting := by
  unfold finish
  split <;> rfl

@[simp]
theorem mem_finished_finish :
    other ∈ (queue.finish goal).finished ↔ other = goal ∨ other ∈ queue.finished := by
  unfold finish
  split
  · exact ⟨.inr, fun known => known.elim (fun same => by rwa [same]) id⟩
  · exact List.mem_cons

end GoalQueue

/-! ## A client of the queue -/

/-- What a client may ask of the queue. -/
inductive GoalCall where
  | add (goal : Goal)
  | next
  | finish (goal : Goal)
deriving DecidableEq

/-- The queue and what has happened at it: the goals that were added, in the order in which they came
in first, the ones that were handed out, and the one that the client has in hand. -/
structure GoalLog where
  queue : GoalQueue := {}
  added : List Goal := []
  handedOut : List Goal := []
  inHand? : Option Goal := none
deriving DecidableEq

namespace GoalLog

variable {log before after : GoalLog} {call : GoalCall} {calls : List GoalCall}

/-- One call.  The next goal is not asked for before the one in hand is finished. -/
def call? (log : GoalLog) : GoalCall → Option GoalLog
  | .add goal =>
    some { log with
      queue := log.queue.add goal
      added := if goal ∈ log.added then log.added else log.added ++ [goal] }
  | .next =>
    match log.inHand?, log.queue.next? with
    | some _, _ => none
    | none, none => some log
    | none, some (goal, queue) =>
      some { log with queue, handedOut := log.handedOut ++ [goal], inHand? := some goal }
  | .finish goal =>
    some { log with
      queue := log.queue.finish goal
      inHand? := log.inHand?.filter (· ≠ goal) }

/-- One call after the other. -/
def run? (log : GoalLog) : List GoalCall → Option GoalLog
  | [] => some log
  | call :: calls => (log.call? call).bind (·.run? calls)

/-- No goal is added while it is in hand. -/
def Careful (log : GoalLog) : List GoalCall → Prop
  | [] => True
  | call :: calls =>
    (∀ goal ∈ log.inHand?, call ≠ .add goal) ∧ ∀ next ∈ log.call? call, next.Careful calls

instance decidableCareful (log : GoalLog) : (calls : List GoalCall) → Decidable (log.Careful calls)
  | [] => inferInstanceAs (Decidable True)
  | _ :: calls =>
    have : ∀ next : GoalLog, Decidable (next.Careful calls) := (decidableCareful · calls)
    inferInstanceAs (Decidable (_ ∧ _))

/-! ## In the order of the first addition -/

/-- The goals handed out and the goals that wait are, one after the other, goals that were added,
and no goal that was added got lost. -/
structure InOrder (log : GoalLog) : Prop where
  once : log.added.Nodup
  order : (log.handedOut ++ log.queue.waiting).Sublist log.added
  kept : ∀ goal ∈ log.added,
    goal ∈ log.queue.finished ∨ goal ∈ log.queue.waiting ∨ log.inHand? = some goal

theorem InOrder.mem_added (inOrder : log.InOrder) (waits : goal ∈ log.queue.waiting) :
    goal ∈ log.added :=
  inOrder.order.subset (List.mem_append_right _ waits)

theorem InOrder.add (inOrder : log.InOrder) (apart : log.inHand? ≠ some goal)
    (called : log.call? (.add goal) = some after) : after.InOrder := by
  cases called
  by_cases old : goal ∈ log.added
  · have known : goal ∈ log.queue.finished ∨ goal ∈ log.queue.waiting :=
      (or_assoc.mpr (inOrder.kept goal old)).resolve_right apart
    rw [GoalQueue.add_of_known known, if_pos old]
    exact ⟨inOrder.once, inOrder.order, inOrder.kept⟩
  rw [if_neg old]
  have once : (log.added ++ [goal]).Nodup :=
    List.nodup_append.mpr ⟨inOrder.once, List.nodup_singleton goal, by
      rintro _ member _ isGoal rfl
      exact old (List.mem_singleton.mp isGoal ▸ member)⟩
  by_cases finished : goal ∈ log.queue.finished
  · rw [GoalQueue.add_of_known (.inl finished)]
    refine ⟨once, inOrder.order.trans (List.sublist_append_left _ _), fun other member => ?_⟩
    rcases List.mem_append.mp member with earlier | isGoal
    · exact inOrder.kept other earlier
    · exact .inl (List.mem_singleton.mp isGoal ▸ finished)
  · rw [GoalQueue.add_of_new finished fun waits => old (inOrder.mem_added waits)]
    refine ⟨once, ?_, fun other member => ?_⟩
    · rw [← List.append_assoc]
      exact inOrder.order.append (List.Sublist.refl [goal])
    · rcases List.mem_append.mp member with earlier | isGoal
      · exact (inOrder.kept other earlier).imp id (.imp (List.mem_append_left _) id)
      · exact .inr (.inl (List.mem_append_right _ isGoal))

theorem InOrder.next (inOrder : log.InOrder) (called : log.call? .next = some after) :
    after.InOrder := by
  cases inHand : log.inHand? with
  | some goal => simp [call?, inHand] at called
  | none =>
    cases handed : log.queue.next? with
    | none =>
      obtain rfl : log = after := by simpa [call?, inHand, handed] using called
      exact inOrder
    | some pair =>
      obtain ⟨goal, rest⟩ := pair
      obtain ⟨waited, same⟩ := GoalQueue.next?_eq_some.mp handed
      simp only [call?, inHand, handed, Option.some.injEq] at called
      subst called
      refine ⟨inOrder.once, ?_, fun other member => ?_⟩
      · simpa [waited] using inOrder.order
      · rcases inOrder.kept other member with finished | waits | held
        · exact .inl (same ▸ finished)
        · rcases List.mem_cons.mp (waited ▸ waits) with rfl | waitsOn
          · exact .inr (.inr rfl)
          · exact .inr (.inl waitsOn)
        · cases inHand.symm.trans held

theorem InOrder.finish (inOrder : log.InOrder) (called : log.call? (.finish goal) = some after) :
    after.InOrder := by
  cases called
  refine ⟨inOrder.once, by simpa using inOrder.order, fun other member => ?_⟩
  by_cases done : other = goal
  · exact .inl (GoalQueue.mem_finished_finish.mpr (.inl done))
  · rcases inOrder.kept other member with finished | waits | held
    · exact .inl (GoalQueue.mem_finished_finish.mpr (.inr finished))
    · exact .inr (.inl (by simpa using waits))
    · exact .inr (.inr (by simp [held, done]))

theorem InOrder.run (inOrder : before.InOrder) (careful : before.Careful calls)
    (ran : before.run? calls = some after) : after.InOrder := by
  induction calls generalizing before with
  | nil =>
    cases ran
    exact inOrder
  | cons call calls ih =>
    obtain ⟨between, called, ran⟩ := Option.bind_eq_some_iff.mp ran
    obtain ⟨apart, careful⟩ := careful
    refine ih ?_ (careful between called) ran
    cases call with
    | add goal => exact inOrder.add (fun held => apart goal held rfl) called
    | next => exact inOrder.next called
    | finish goal => exact inOrder.finish called

end GoalLog

end ProgramTree
