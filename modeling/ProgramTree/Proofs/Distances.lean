import ProgramTree.Proofs.CopyWalks
import ProgramTree.Proofs.Enumerations
import ProgramTree.Proofs.Inspection
import ProgramTree.Proofs.Linking

/-!
# How far a walk has come

A walk by levels meets nodes in the order in which they come out of a queue, and lists nearer nodes
before farther ones, on any graph: before each level, what was seen is what can be reached in fewer
steps, and the level has all that can be reached in this number of steps and was not seen.  In a
well-formed program a walk through the shallow view stays in the subtree it starts in, and a walk
through the deep view meets all of that subtree.
-/

namespace ProgramTree

open Relation Program

namespace Program

variable {program : Program} {view : View} {seen : IdSet} {level walk : List NodeId}
  {top id child : NodeId} {steps : Nat}

/-- What the nodes hold and what they refer to is part of the program. -/
def Whole (program : Program) : Prop :=
  ∀ node ∈ program.nodes, ∀ other ∈ node.kind.owned ++ node.kind.links,
    (program.get? other).isSome

instance : Decidable program.Whole :=
  inferInstanceAs (Decidable (∀ node ∈ program.nodes, _))

/-- Following what nodes show, one gets from `top` to the node in this number of steps. -/
inductive ReachesIn (program : Program) (view : View) (top : NodeId) : Nat → NodeId → Prop where
  | start : ReachesIn program view top 0 top
  | step {steps : Nat} {id child : NodeId} (reached : ReachesIn program view top steps id)
      (shows : program.Shows view id child) : ReachesIn program view top (steps + 1) child

/-- The shortest way from `top` to the node takes this number of steps. -/
structure Distance (program : Program) (view : View) (top id : NodeId) (steps : Nat) : Prop where
  reached : program.ReachesIn view top steps id
  shortest : ∀ {fewer}, program.ReachesIn view top fewer id → steps ≤ fewer

/-- Nodes are taken from the front of a queue.  One that was taken before is passed over, and what
any other one shows is put at the end. -/
inductive Queued (program : Program) (view : View) : IdSet → List NodeId → List NodeId → Prop where
  | done {seen : IdSet} : Queued program view seen [] []
  | passOver {seen : IdSet} {id : NodeId} {rest walk : List NodeId} (again : id ∈ seen)
      (further : Queued program view seen rest walk) : Queued program view seen (id :: rest) walk
  | visit {seen : IdSet} {id : NodeId} {rest walk : List NodeId} (fresh : id ∉ seen)
      (issued : (program.get? id).isSome)
      (further : Queued program view (seen.insert id) (rest ++ program.shown view id) walk) :
      Queued program view seen (id :: rest) (id :: walk)

/-- All that can be reached from `top`, and each node of it once: `top` first, nearer nodes before
farther ones, and equally far ones as they come out of the queue. -/
structure BreadthFirst (program : Program) (view : View) (top : NodeId) (walk : List NodeId) :
    Prop where
  queued : program.Queued view ∅ [top] walk
  mem_iff : ∀ id, id ∈ walk ↔ program.Reaches view top id
  nodup : walk.Nodup
  head : walk.head? = some top
  by_distance : ∃ distances, List.Forall₂ (program.Distance view top) walk distances ∧
    distances.Pairwise (· ≤ ·)

theorem Whole.issued (whole : program.Whole) (shows : program.Shows view id child) :
    (program.get? child).isSome := by
  cases found : program.get? id with
  | none => simp [Shows, shown, kindAt, found] at shows
  | some node =>
    rw [Shows, shown_eq (kindAt_eq found)] at shows
    have issued : (program.get? id).isSome := by simp [found]
    obtain ⟨place, rfl, _⟩ := val_of_issued issued
    exact whole node (Array.mem_of_getElem? found) child (node.kind.children_subset view shows)

/-! ## Levels in a queue -/

/-- When the queue has come to the end of a level, what the new nodes of the level show follows. -/
theorem Queued.append_level {below : List NodeId}
    (issued : ∀ id ∈ (unseen seen level).1, (program.get? id).isSome)
    (further : program.Queued view (unseen seen level).2
      (below ++ (unseen seen level).1.flatMap (program.shown view)) walk) :
    program.Queued view seen (level ++ below) ((unseen seen level).1 ++ walk) := by
  induction level generalizing seen below with
  | nil => simpa [unseen] using further
  | cons first rest ih =>
    by_cases again : first ∈ seen
    · rw [unseen_cons_of_mem again] at issued further ⊢
      exact .passOver again (ih issued further)
    · rw [unseen_cons_of_notMem again] at issued further ⊢
      rw [List.flatMap_cons, ← List.append_assoc] at further
      have queued := ih (fun id member => issued id (List.mem_cons_of_mem _ member)) further
      rw [← List.append_assoc] at queued
      exact .visit again (issued first (List.mem_cons_self ..)) queued

/-- The levels of a walk come out of a queue one after the other. -/
theorem Walked.queued (walked : program.Walked view seen level walk) :
    program.Queued view seen level walk := by
  induction walked with
  | @done seen level nothing =>
    have queued : program.Queued view seen (level ++ []) ((unseen seen level).1 ++ []) :=
      .append_level (by simp [nothing]) (by simpa [nothing] using .done)
    simpa [nothing] using queued
  | @next seen level walk _ issued _ ih =>
    have queued : program.Queued view seen (level ++ []) ((unseen seen level).1 ++ walk) :=
      .append_level issued ih
    rwa [List.append_nil] at queued

/-! ## One level after the other -/

/-- Before a level that takes `steps` steps to reach, what takes fewer steps was seen, and what was
not seen of all that takes this number of steps is in the level. -/
structure LevelAt (program : Program) (view : View) (top : NodeId) (steps : Nat) (seen : IdSet)
    (level : List NodeId) : Prop where
  seen_iff : ∀ id, id ∈ seen ↔ ∃ fewer < steps, program.ReachesIn view top fewer id
  reached : ∀ id ∈ level, program.ReachesIn view top steps id
  complete : ∀ id, program.ReachesIn view top steps id → id ∈ level ∨ id ∈ seen

namespace LevelAt

theorem start : LevelAt program view top 0 ∅ [top] where
  seen_iff id := by simp
  reached id member := List.mem_singleton.mp member ▸ .start
  complete id reached := by
    cases reached with
    | start => simp

variable (atLevel : LevelAt program view top steps seen level)
include atLevel

theorem distance (fresh : id ∈ (unseen seen level).1) : program.Distance view top id steps := by
  obtain ⟨member, notSeen⟩ := mem_unseen_fst.mp fresh
  refine ⟨atLevel.reached id member, fun {fewer} reached => ?_⟩
  by_contra sooner
  exact notSeen ((atLevel.seen_iff id).mpr ⟨fewer, by omega, reached⟩)

/-- What takes no more steps than the level has been seen after it. -/
theorem mem_next {fewer : Nat} (reached : program.ReachesIn view top fewer id)
    (within : fewer ≤ steps) : id ∈ (unseen seen level).2 := by
  rw [mem_unseen_snd]
  rcases Nat.lt_or_eq_of_le within with sooner | rfl
  · exact .inl ((atLevel.seen_iff id).mpr ⟨fewer, sooner, reached⟩)
  · exact (atLevel.complete id reached).symm

theorem next : LevelAt program view top (steps + 1) (unseen seen level).2
    ((unseen seen level).1.flatMap (program.shown view)) where
  seen_iff id := by
    constructor
    · intro member
      rcases mem_unseen_snd.mp member with isSeen | isLevel
      · obtain ⟨fewer, sooner, reached⟩ := (atLevel.seen_iff id).mp isSeen
        exact ⟨fewer, Nat.lt_succ_of_lt sooner, reached⟩
      · exact ⟨steps, Nat.lt_succ_self steps, atLevel.reached id isLevel⟩
    · rintro ⟨fewer, sooner, reached⟩
      exact atLevel.mem_next reached (Nat.le_of_lt_succ sooner)
  reached child below := by
    obtain ⟨id, fresh, shows⟩ := List.mem_flatMap.mp below
    exact .step (atLevel.distance fresh).reached shows
  complete child reached := by
    cases reached with
    | @step _ id _ reached shows =>
      by_cases isSeen : id ∈ seen
      · -- What a node seen earlier shows is no farther away than this level.
        obtain ⟨fewer, sooner, reachedSooner⟩ := (atLevel.seen_iff id).mp isSeen
        exact .inr (atLevel.mem_next (reachedSooner.step shows) sooner)
      · have member := (atLevel.complete id reached).resolve_right isSeen
        exact .inl (List.mem_flatMap.mpr ⟨id, mem_unseen_fst.mpr ⟨member, isSeen⟩, shows⟩)

end LevelAt

/-- From a level on, the walk lists nodes by distance. -/
theorem Walked.by_distance (walked : program.Walked view seen level walk)
    (atLevel : LevelAt program view top steps seen level) :
    ∃ distances, List.Forall₂ (program.Distance view top) walk distances ∧
      distances.Pairwise (· ≤ ·) ∧ ∀ distance ∈ distances, steps ≤ distance := by
  induction walked generalizing steps with
  | done => exact ⟨[], .nil, .nil, by simp⟩
  | @next seen level walk _ _ _ ih =>
    obtain ⟨later, measured, sorted, farther⟩ := ih atLevel.next
    have now : List.Forall₂ (program.Distance view top) (unseen seen level).1
        ((unseen seen level).1.map fun _ => steps) := by
      rw [List.forall₂_map_right_iff, List.forall₂_same]
      exact fun id fresh => atLevel.distance fresh
    have same : ∀ distance ∈ (unseen seen level).1.map fun _ => steps, distance = steps := by simp
    refine ⟨_ ++ later, List.rel_append now measured, List.pairwise_append.mpr ⟨?_, sorted, ?_⟩, ?_⟩
    · exact List.pairwise_of_forall_mem_list fun first isFirst second isSecond => by
        rw [same first isFirst, same second isSecond]
    · intro first isFirst second isLater
      have beyond := farther second isLater
      rw [same first isFirst]
      omega
    · intro distance member
      rcases List.mem_append.mp member with isNow | isLater
      · exact (same distance isNow).ge
      · have beyond := farther distance isLater
        omega

theorem Walked.head (walked : program.Walked view ∅ [top] walk) : walk.head? = some top := by
  have fresh : (unseen ∅ [top]).1 = [top] := by
    rw [unseen_cons_of_notMem Std.ExtTreeSet.not_mem_empty, unseen]
  cases walked with
  | done nothing => simp [fresh] at nothing
  | next => simp [fresh]

theorem Walked.breadthFirst (walked : program.Walked view ∅ [top] walk) :
    program.BreadthFirst view top walk := by
  obtain ⟨distances, measured, sorted, _⟩ := walked.by_distance .start
  exact ⟨walked.queued, fun _ => walked.mem_iff, walked.nodup, walked.head, distances, measured,
    sorted⟩

/-! ## Walks and containment -/

theorem holds_of_shows (shows : program.Shows .shallow id child) : program.Holds id child := by
  cases known : program.kindAt id with
  | none => simp [Shows, shown, known] at shows
  | some kind =>
    rw [Shows, shown_eq known] at shows
    rw [Holds, held_eq_of_kindAt known]
    exact kind.children_shallow_sublist.subset shows

/-- What the shallow view leads to is in the subtree. -/
theorem contains_of_reaches (reaches : program.Reaches .shallow top id) : program.Contains top id :=
  ReflTransGen.mono (fun _ _ => holds_of_shows) _ _ reaches

/-- **Walks list what they should.**  Where all that nodes hold and refer to is there, and however
these run in circles, a walk ends and lists what can be reached through the view, nearer nodes
first.  In a well-formed program, the nodes that a subtree contains are listed once each, the
walk through the shallow view lists some of them, and a walk through the deep view lists them
all. -/
theorem walks_by_distance (program : Program) (top : NodeId) (issued : (program.get? top).isSome) :
    (program.Whole → ∀ view, ∃ walk,
      program.descendants view top = .ok walk ∧ program.BreadthFirst view top walk) ∧
    (WellFormed program → ∃ shallow nodes,
      program.descendants .shallow top = .ok shallow ∧ program.subtree top = .ok nodes ∧
      shallow ⊆ nodes ∧ nodes.Nodup ∧ (∀ id, id ∈ nodes ↔ program.Contains top id) ∧
      ∀ deep, program.descendants .deep top = .ok deep → nodes ⊆ deep) := by
  constructor
  · intro whole view
    have issuedAll : ∀ id, program.Reaches view top id → (program.get? id).isSome := by
      intro id reaches
      cases reaches with
      | refl => exact issued
      | tail _ shows => exact whole.issued shows
    obtain ⟨walk, walks⟩ := exists_descendants issuedAll
    exact ⟨walk, walks, (descendants_eq_ok.mp walks).breadthFirst⟩
  · intro wellFormed
    have forest := wellFormed.orderly.forest
    obtain ⟨nodes, walks, nodup⟩ := forest.exists_subtree trivial issued
    obtain ⟨shallow, walksShallow⟩ := exists_descendants fun id reaches =>
      forest.issued_of_contains trivial issued (contains_of_reaches reaches)
    refine ⟨shallow, nodes, walksShallow, walks, ?_, nodup, fun id => mem_subtree walks, ?_⟩
    · intro id member
      exact (mem_subtree walks).mpr
        (contains_of_reaches ((descendants_eq_ok.mp walksShallow).mem_iff.mp member))
    · intro deep walksDeep id member
      exact (descendants_eq_ok.mp walksDeep).mem_of_contains ((mem_subtree walks).mp member)

/-- A function that calls itself. -/
def selfCalling : Program := Edit.making do
  let callee ← Edit.newUse PrimitiveType.int.symbolId
  let call ← Edit.newCall callee []
  let body ← Edit.newBlock [call]
  let fn ← Edit.newFn "f" [] body none
  Edit.setUsedSymbol callee fn
  let definition ← Edit.define fn
  let module ← Edit.newModule "m" .user [definition]
  Edit.addModule module

/-- A list that holds itself. -/
def selfHolding : Program :=
  (Program.empty {}).push (.list .exprs #[⟨13⟩])

/-- One walk comes back to the function that it starts from, and one to the list that holds
itself. -/
theorem walks_by_distance_circles :
    (selfCalling.Whole ∧ WellFormed selfCalling ∧
      selfCalling.Contains ⟨20⟩ ⟨13⟩ ∧ selfCalling.Shows .deep ⟨13⟩ ⟨20⟩ ∧
      (∃ deep, selfCalling.descendants .deep ⟨20⟩ = .ok deep ∧
        selfCalling.BreadthFirst .deep ⟨20⟩ deep) ∧
      ∃ shallow nodes, selfCalling.descendants .shallow ⟨20⟩ = .ok shallow ∧
        selfCalling.subtree ⟨20⟩ = .ok nodes ∧ shallow ⊆ nodes ∧ nodes.Nodup ∧
        ∀ deep, selfCalling.descendants .deep ⟨20⟩ = .ok deep → nodes ⊆ deep) ∧
    selfHolding.Whole ∧ selfHolding.Holds ⟨13⟩ ⟨13⟩ ∧
      ∃ walk, selfHolding.descendants .shallow ⟨13⟩ = .ok walk ∧
        selfHolding.BreadthFirst .shallow ⟨13⟩ walk := by
  have standsUp : selfCalling.StandsUp ⟨25⟩ := by decide +kernel
  have wellFormed := standsUp.inspected.wellFormed
  have whole : selfCalling.Whole := by decide +kernel
  have wholeList : selfHolding.Whole := by decide +kernel
  obtain ⟨walks, listed⟩ := walks_by_distance selfCalling ⟨20⟩ (by decide +kernel)
  obtain ⟨shallow, nodes, walksShallow, walksAll, among, nodup, mem_nodes, met⟩ := listed wellFormed
  obtain ⟨walksList, _⟩ := walks_by_distance selfHolding ⟨13⟩ (by decide +kernel)
  have below : selfCalling.Contains ⟨20⟩ ⟨13⟩ :=
    contains_of_mem_nodesBelow (by decide +kernel)
  have back : ⟨20⟩ ∈ selfCalling.shown .deep ⟨13⟩ := by decide +kernel
  have itself : ⟨13⟩ ∈ selfHolding.held ⟨13⟩ := by decide +kernel
  exact ⟨⟨whole, wellFormed, below, back, walks whole .deep, shallow, nodes, walksShallow, walksAll,
    among, nodup, met⟩, wholeList, itself, walksList wholeList .shallow⟩

end Program

end ProgramTree
