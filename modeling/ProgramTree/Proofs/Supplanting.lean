import ProgramTree.Proofs.Undoing

/-!
# One subtree in the place of another

A replacement writes to the holder, to the subtree that goes out and to the one that comes in.
What these nodes are afterwards is said node by node, and every other node is what it was.
-/

namespace ProgramTree

open Program Edit

/-- `new` hangs where `old` hung, which hangs nowhere now. -/
structure Program.Supplanted (before : Program) (holder old new : NodeId) (after : Program) :
    Prop where
  /-- The slot that held the old node holds the new one, and the other slots hold what they
  held. -/
  place : after.get? holder = (before.get? holder).map fun node =>
    { node with kind := node.kind.mapOwned fun child => if child = old then new else child }
  out : ∀ id, before.Contains old id → after.get? id = (before.get? id).map fun node =>
    { node with parent? := if id = old then none else node.parent?, context := {} }
  into : ∀ id, before.Contains new id → ∃ context, after.get? id = (before.get? id).map fun node =>
    { node with parent? := if id = new then some holder else node.parent?, context }
  others : ∀ id, id ≠ holder → ¬ before.Contains old id → ¬ before.Contains new id →
    after.get? id = before.get? id
  rest : after = { before with nodes := after.nodes, index := after.index }

variable {before after : Program} {id holder old new answer : NodeId}

namespace Program

/-- A node that hangs nowhere does not contain what is part of the tree. -/
theorem Unattached.not_contains_of_reachable (wellFormed : WellFormed before)
    (unattached : before.Unattached new) (reachable : before.Reachable id) :
    ¬ before.Contains new id := by
  intro contained
  have forest := wellFormed.orderly.forest
  obtain ⟨root, isRoot, above⟩ := reachable
  have notReachable : ¬ before.Reachable new := by
    rw [← wellFormed.orderly.isPlaced_iff trivial]
    exact unattached.notPlaced
  rcases forest.comparable trivial trivial above contained with below | below
  · exact notReachable ⟨root, isRoot, below⟩
  · obtain rfl := forest.eq_of_contains_free trivial below (wellFormed.roots_free root isRoot)
    exact notReachable (.of_root isRoot)

/-- A subtree shares nothing with a node that hangs nowhere, unless it lies below it. -/
theorem Unattached.apart (wellFormed : WellFormed before) (unattached : before.Unattached new)
    (outside : ¬ before.Contains new old) (contained : before.Contains old id) :
    ¬ before.Contains new id := by
  intro inNew
  have forest := wellFormed.orderly.forest
  rcases forest.comparable trivial trivial contained inNew with below | below
  · obtain rfl := forest.eq_of_contains_free trivial below unattached.free
    exact outside .refl
  · exact outside below

end Program

section Replacement

variable (wellFormed : WellFormed before) (named : before.parentOf old = some holder)
  (run : Yields (replace old new) before answer after)
include wellFormed named run

/-- What a replacement writes, up to the contexts. -/
theorem get?_of_replace (id : NodeId) : after.get? id = (before.get? id).map fun node =>
    { node with
      kind := node.kind.mapOwned (Equiv.swap old new)
      parent? := if id = new then some holder else if id = old then none else node.parent?
      context := after.contextOf id } := by
  have kinds : after.kindAt id = _ := kindAt_of_replace wellFormed run
  obtain ⟨-, -, -, -, parent, node, kind, between, detached, isParent, -, -, written, detaching,
    attaching⟩ := exists_written_replace run
  obtain rfl : parent = holder := Option.some.inj (isParent.symm.trans named)
  have same := (displaced detaching).same.trans (attachedBelow (yields_attach.mp attaching)).same
  have nodes := same.get?_eq id
  rw [written.nodes, Option.map_map] at nodes
  rw [kindAt, nodes, kindAt] at kinds
  rw [nodes]
  cases found : before.get? id with
  | none => rfl
  | some source =>
    rw [found] at kinds
    simp only [Option.map_some, Function.comp_apply, Option.some.injEq] at kinds ⊢
    rw [kinds]
    simp [Node.relink]

variable (outside : ¬ before.Contains new holder)
include outside

theorem not_contains_of_replace : ¬ before.Contains new old := by
  intro below
  obtain ⟨-, -, free, -⟩ := exists_written_replace run
  have different : old ≠ new := by
    rintro rfl
    simp [free] at named
  obtain ⟨other, isOther, above⟩ :=
    wellFormed.orderly.forest.parent_of_contains trivial below different
  obtain rfl : other = holder := Option.some.inj (isOther.symm.trans named)
  exact outside above

/-- What goes out loses its context, and what neither goes out nor comes in keeps it. -/
theorem contextOf_of_replace (notNew : ¬ before.Contains new id) :
    (before.Contains old id → after.contextOf id = {}) ∧
      (¬ before.Contains old id → after.contextOf id = before.contextOf id) := by
  have forest := wellFormed.orderly.forest
  have outsideOld :=
    forest.not_contains_holder trivial ((wellFormed.parent_iff holder old).mpr named)
  obtain ⟨rfl, replaced⟩ := Edit.replaced run
  obtain ⟨parent, relinked, detached, isParent, isRelinked, detaching, attaching⟩ := replaced.steps
  obtain rfl : parent = holder := Option.some.inj (isParent.symm.trans named)
  have displaced := displaced detaching
  have attached := attachedBelow (yields_attach.mp attaching)
  have belowOld : relinked.Contains old id ↔ before.Contains old id :=
    contains_iff_of_holds isRelinked.holds_of_ne outsideOld
  have belowNew : detached.Contains answer id ↔ before.Contains answer id := by
    rw [displaced.same.contains]
    exact contains_iff_of_holds isRelinked.holds_of_ne outside
  have sameContext : after.contextOf id = detached.contextOf id := by
    rw [contextOf, attached.others (mt belowNew.mp notNew), contextOf]
  refine ⟨fun below => sameContext.trans (displaced.context (belowOld.mpr below)), fun notOld => ?_⟩
  rw [sameContext, contextOf, displaced.others (mt belowOld.mp notOld), ← contextOf,
    isRelinked.contexts]

/-- A replacement exchanges the two subtrees and leaves everything else as it was. -/
theorem supplanted_of_replace : before.Supplanted holder old new after := by
  have forest := wellFormed.orderly.forest
  have holds := (wellFormed.parent_iff holder old).mpr named
  have outsideOld := forest.not_contains_holder trivial holds
  have notBelow := not_contains_of_replace wellFormed named run outside
  obtain ⟨-, issued, free, notPlaced, -⟩ := exists_written_replace run
  have unattached : before.Unattached new := ⟨issued, free, notPlaced⟩
  have nodes := get?_of_replace wellFormed named run
  have notHeld : ∀ {id kind}, before.kindAt id = some kind → new ∉ kind.owned := by
    intro id kind known owned
    have holdsNew : before.Holds id new := by rwa [Holds, held_eq_of_kindAt known]
    rw [wellFormed.parent_iff, free] at holdsNew
    cases holdsNew
  have fixed : ∀ {id node}, before.get? id = some node → id ≠ holder →
      node.kind.mapOwned (Equiv.swap old new) = node.kind := by
    intro id node found different
    refine Kind.mapOwned_eq_self fun child owned => Equiv.swap_apply_of_ne_of_ne ?_ ?_
    · rintro rfl
      have holdsOld : before.Holds id child := by rwa [Holds, held_eq found]
      exact different (forest.only_holder trivial trivial holdsOld holds)
    · rintro rfl
      exact notHeld (kindAt_eq found) owned
  have contexts : ∀ id, ¬ before.Contains new id → _ := fun id =>
    contextOf_of_replace wellFormed named run outside
  refine ⟨?_, fun id below => ?_, fun id below => ⟨after.contextOf id, ?_⟩,
    fun id different notOld notNew => ?_, (Rehung.of_replace run).rest⟩
  · have different : holder ≠ new ∧ holder ≠ old :=
      ⟨fun same => outside (same ▸ .refl), fun same => outsideOld (same ▸ .refl)⟩
    rw [nodes, (contexts holder outside).2 outsideOld]
    refine Option.map_congr fun node found => ?_
    have exchanged : node.kind.mapOwned (Equiv.swap old new) =
        node.kind.mapOwned fun child => if child = old then new else child := by
      refine Kind.mapOwned_congr fun child owned => ?_
      have notNew : child ≠ new := fun same => notHeld (kindAt_eq found) (same ▸ owned)
      rw [Equiv.swap_apply_def, if_neg notNew]
    simp [exchanged, different, contextOf_eq found]
  · have apart := unattached.apart wellFormed notBelow below
    have different : id ≠ holder ∧ id ≠ new :=
      ⟨fun same => outsideOld (same ▸ below), fun same => apart (same ▸ .refl)⟩
    rw [nodes, (contexts id apart).1 below]
    refine Option.map_congr fun node found => ?_
    simp [fixed found different.1, different.2]
  · have different : id ≠ holder ∧ id ≠ old :=
      ⟨fun same => outside (same ▸ below), fun same => notBelow (same ▸ below)⟩
    rw [nodes]
    refine Option.map_congr fun node found => ?_
    simp [fixed found different.1, different.2]
  · have notEnds : id ≠ new ∧ id ≠ old :=
      ⟨fun same => notNew (same ▸ .refl), fun same => notOld (same ▸ .refl)⟩
    rw [nodes, (contexts id notNew).2 notOld]
    refine (Option.map_congr fun node found => ?_).trans Option.map_id'
    simp [fixed found different, notEnds, contextOf_eq found]

end Replacement

end ProgramTree
