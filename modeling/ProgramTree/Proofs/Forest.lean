import ProgramTree.Proofs.Containment

/-!
# Forests

A region of a program is a forest when slots and parents tell the same story in it:
what a node of the region holds belongs to the region and names it as its parent, once,
and nothing is below itself.  A node then has one chain of holders, so two nodes that
contain a common node contain one another.

While a list is being emptied some of its elements still name it as their parent.
They are the loose nodes of the region: nothing holds them.
-/

namespace ProgramTree.Program

open Relation

/-- In the region, slots and parents agree, up to the parents of the loose nodes. -/
structure Forest (region : NodeId → Prop) (loose : List NodeId) (program : Program) : Prop where
  unissued : ∀ {id}, program.get? id = none → region id
  held : ∀ {holder child}, region holder → program.Holds holder child →
    region child ∧ program.parentOf child = some holder
  holder : ∀ {holder child}, region child → child ∉ loose →
    program.parentOf child = some holder → region holder ∧ program.Holds holder child
  loose_issued : ∀ {id}, id ∈ loose → (program.get? id).isSome
  loose_free : ∀ {holder child}, child ∈ loose → region holder → ¬ program.Holds holder child
  nodup : ∀ {holder}, region holder → (program.held holder).Nodup
  grounded : ∀ {id}, region id → program.Grounded id

namespace Forest

variable {region : NodeId → Prop} {loose : List NodeId} {program : Program}
  {top first second id holder child : NodeId}

theorem contains (forest : Forest region loose program)
    (inside : region top) (contained : program.Contains top id) : region id := by
  induction contained with
  | refl => exact inside
  | tail _ holds ih => exact (forest.held ih holds).1

theorem only_holder (forest : Forest region loose program)
    (insideFirst : region first) (insideSecond : region second)
    (left : program.Holds first child) (right : program.Holds second child) : first = second :=
  Option.some.inj ((forest.held insideFirst left).2.symm.trans (forest.held insideSecond right).2)

theorem parent_of_contains (forest : Forest region loose program)
    (inside : region top) (contained : program.Contains top id) (strict : id ≠ top) :
    ∃ holder, program.parentOf id = some holder ∧ program.Contains top holder := by
  obtain ⟨holder, above, holds⟩ := exists_holder_of_contains contained strict
  exact ⟨holder, (forest.held (forest.contains inside above) holds).2, above⟩

/-- Of two nodes that contain a third, one contains the other. -/
theorem comparable (forest : Forest region loose program)
    (insideFirst : region first) (insideSecond : region second)
    (left : program.Contains first id) (right : program.Contains second id) :
    program.Contains first second ∨ program.Contains second first := by
  induction left with
  | refl => exact .inr right
  | @tail holder child above holds ih =>
    rcases right.cases_tail with rfl | ⟨other, aboveOther, holdsOther⟩
    · exact .inl (above.tail holds)
    · have same := forest.only_holder (forest.contains insideFirst above)
        (forest.contains insideSecond aboveOther) holds holdsOther
      subst same
      exact ih aboveOther

theorem not_contains_holder (forest : Forest region loose program)
    (inside : region holder) (holds : program.Holds holder child) :
    ¬ program.Contains child holder :=
  fun below => (forest.grounded inside).not_below_itself (.head' holds below)

/-- A node does not hold its holder's holder, and so on: siblings share nothing. -/
theorem siblings_disjoint (forest : Forest region loose program)
    (inside : region holder) (holdsFirst : program.Holds holder first)
    (holdsSecond : program.Holds holder second) (different : first ≠ second)
    (left : program.Contains first id) : ¬ program.Contains second id := by
  intro right
  have insideFirst := (forest.held inside holdsFirst).1
  have insideSecond := (forest.held inside holdsSecond).1
  have apart : ∀ {upper lower}, program.Holds holder upper → program.Holds holder lower →
      upper ≠ lower → ¬ program.Contains upper lower := by
    intro upper lower holdsUpper holdsLower distinct below
    obtain ⟨parent, named, above⟩ :=
      forest.parent_of_contains (forest.held inside holdsUpper).1 below (Ne.symm distinct)
    have parentHolder : parent = holder := by
      rw [(forest.held inside holdsLower).2, Option.some.injEq] at named
      exact named.symm
    subst parentHolder
    exact forest.not_contains_holder inside holdsUpper above
  rcases forest.comparable insideFirst insideSecond left right with below | below
  · exact apart holdsFirst holdsSecond different below
  · exact apart holdsSecond holdsFirst (Ne.symm different) below

/-- Nothing else contains a node without parent. -/
theorem eq_of_contains_free (forest : Forest region loose program)
    (inside : region top) (contained : program.Contains top id)
    (free : program.parentOf id = none) : id = top := by
  by_contra strict
  obtain ⟨holder, named, _⟩ := forest.parent_of_contains inside contained strict
  simp [free] at named

/-- The next identity is in the region, and nothing holds it yet. -/
theorem inside_fresh (forest : Forest region loose program) : region program.nextId :=
  forest.unissued (get?_nextId program)

theorem not_holds_fresh (forest : Forest region loose program) (inside : region holder) :
    ¬ program.Holds holder program.nextId := by
  intro holds
  have named := (forest.held inside holds).2
  simp [parentOf, get?_nextId] at named

end Forest

end ProgramTree.Program
