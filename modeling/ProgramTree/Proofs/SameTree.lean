import ProgramTree.Proofs.Forest

/-!
# Programs with the same tree

Placing and displacing nodes changes contexts and the index only.  Two programs that
differ in nothing else have the same slots, parents and roots, so what one of them
contains, the other one contains as well.
-/

namespace ProgramTree.Program

open Relation

/-- `after` differs from `before` in contexts and in the index only. -/
structure SameTree (before after : Program) : Prop where
  bare : ∀ id, (after.get? id).map Node.bare = (before.get? id).map Node.bare
  rest : after = { before with nodes := after.nodes, index := after.index }
  size : after.nodes.size = before.nodes.size

namespace SameTree

variable {before between after : Program} {id : NodeId}

theorem refl (program : Program) : SameTree program program :=
  ⟨fun _ => rfl, rfl, rfl⟩

theorem trans (first : SameTree before between) (second : SameTree between after) :
    SameTree before after := by
  refine ⟨fun id => (second.bare id).trans (first.bare id), ?_, second.size.trans first.size⟩
  rw [second.rest, first.rest]

theorem kindAt (same : SameTree before after) : after.kindAt id = before.kindAt id := by
  have bare := congrArg (Option.map Node.kind) (same.bare id)
  simpa [Program.kindAt, Option.map_map, Function.comp_def, Node.bare] using bare

theorem parentOf (same : SameTree before after) : after.parentOf id = before.parentOf id := by
  have bare := congrArg (Option.bind · Node.parent?) (same.bare id)
  simpa [Program.parentOf, Option.bind_map, Function.comp_def, Node.bare] using bare

theorem isSome (same : SameTree before after) :
    (after.get? id).isSome = (before.get? id).isSome := by
  simpa using congrArg Option.isSome (same.bare id)

theorem get?_eq_none (same : SameTree before after) :
    after.get? id = none ↔ before.get? id = none := by
  rw [← Option.not_isSome_iff_eq_none, ← Option.not_isSome_iff_eq_none, same.isSome]

theorem roots (same : SameTree before after) : after.roots = before.roots := by
  rw [same.rest]

theorem held (same : SameTree before after) : after.held = before.held := by
  funext id
  simp [Program.held, same.kindAt]

theorem holds (same : SameTree before after) : after.Holds = before.Holds := by
  funext holder child
  simp [Holds, same.held]

theorem contains (same : SameTree before after) : after.Contains = before.Contains := by
  rw [Contains, same.holds]

theorem reachable (same : SameTree before after) : after.Reachable = before.Reachable := by
  funext id
  rw [Reachable, same.roots, same.contains, Reachable]

theorem grounded (same : SameTree before after) : after.Grounded = before.Grounded := by
  rw [Grounded, same.holds]

theorem innerContext (same : SameTree before after)
    (context : after.contextOf id = before.contextOf id) :
    after.innerContext id = before.innerContext id := by
  simp [Program.innerContext, same.kindAt, context]

theorem forest {region : NodeId → Prop} {loose : List NodeId} (same : SameTree before after)
    (forest : Forest region loose before) : Forest region loose after where
  unissued unissued := forest.unissued (same.get?_eq_none.mp unissued)
  held inside holds := by
    rw [same.holds] at holds
    rw [same.parentOf]
    exact forest.held inside holds
  holder inside notLoose parent := by
    rw [same.parentOf] at parent
    rw [same.holds]
    exact forest.holder inside notLoose parent
  loose_issued isLoose := by
    rw [same.isSome]
    exact forest.loose_issued isLoose
  loose_free isLoose inside := by
    rw [same.holds]
    exact forest.loose_free isLoose inside
  nodup inside := by
    rw [same.held]
    exact forest.nodup inside
  grounded inside := by
    rw [same.grounded]
    exact forest.grounded inside

theorem modifyNode {change : Node → Node} (id : NodeId)
    (keeps : ∀ node, (change node).bare = node.bare) :
    SameTree before (before.modifyNode id change) where
  bare other := by
    rw [get?_modifyNode]
    split <;> simp [Option.map_map, Function.comp_def, keeps]
  rest := by obtain ⟨_ | place⟩ := id <;> rfl
  size := size_modifyNode

theorem reindex (index : LiveIndex) : SameTree before { before with index } :=
  ⟨fun _ => rfl, rfl, rfl⟩

end SameTree

end ProgramTree.Program
