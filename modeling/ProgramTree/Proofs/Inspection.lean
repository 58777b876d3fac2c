import ProgramTree.Proofs.Sound
import ProgramTree.Proofs.WellFormed

/-!
# Inspection

Whether a program with one root is well-formed can be read off its nodes when every node was
made after what it holds, as builders make them: one looks at each node by itself, with the
nodes below the root at hand.
-/

namespace ProgramTree.Program

open Relation

variable {program : Program} {nodes : List NodeId} {root id holder child : NodeId}

/-- A node that fits in: `nodes` are the ones below the root. -/
structure Fitting (program : Program) (nodes : List NodeId) (id : NodeId) : Prop where
  held_once : (program.held id).Nodup
  held : ∀ child ∈ program.held id, child.val < id.val ∧ program.parentOf child = some id ∧
    (id ∈ nodes → program.contextOf child = program.innerContext id)
  holder : ∀ holder ∈ program.parentOf id, id ∈ program.held holder
  no_context : id ∉ nodes → program.contextOf id = {}
  indexed : id ∈ nodes → ∀ category ∈ (program.kindAt id).bind Kind.category?,
    id ∈ program.index.entries category

theorem fitting_iff : program.Fitting nodes id ↔
    (program.held id).Nodup ∧
      (∀ child ∈ program.held id, child.val < id.val ∧ program.parentOf child = some id ∧
        (id ∈ nodes → program.contextOf child = program.innerContext id)) ∧
      (∀ holder ∈ program.parentOf id, id ∈ program.held holder) ∧
      (id ∉ nodes → program.contextOf id = {}) ∧
      (id ∈ nodes → ∀ category ∈ (program.kindAt id).bind Kind.category?,
        id ∈ program.index.entries category) :=
  ⟨fun ⟨once, held, holder, noContext, indexed⟩ => ⟨once, held, holder, noContext, indexed⟩,
    fun ⟨once, held, holder, noContext, indexed⟩ => ⟨once, held, holder, noContext, indexed⟩⟩

instance : Decidable (program.Fitting nodes id) :=
  decidable_of_iff _ fitting_iff.symm

/-- Every node fits in, and so do the root and the index. -/
structure Inspected (program : Program) (root : NodeId) (nodes : List NodeId) : Prop where
  roots : program.roots = #[root]
  walked : program.subtree root = .ok nodes
  module : (program.kindAt root).any Kind.isModule
  free : program.parentOf root = none
  root_context : program.contextOf root = {}
  fitting : ∀ place < program.nodes.size, program.Fitting nodes ⟨place + 1⟩
  indexed : ∀ category ∈ [Category.call, .fn, .loop, .block],
    ∀ id ∈ (program.index.entries category).toList,
      id ∈ nodes ∧ (program.kindAt id).bind Kind.category? = some category

namespace Inspected

variable (inspected : program.Inspected root nodes)
include inspected

theorem fits (id : NodeId) : program.Fitting nodes id := by
  by_cases issued : (program.get? id).isSome
  · obtain ⟨place, rfl, inBounds⟩ := val_of_issued issued
    exact inspected.fitting place inBounds
  · have unissued : program.get? id = none := by simpa using issued
    have noKind := get?_eq_none_iff_kindAt.mp unissued
    constructor
    · simp [held_of_unissued unissued]
    · simp [held_of_unissued unissued]
    · simp [parentOf_of_unissued unissued]
    · exact fun _ => contextOf_of_unissued unissued
    · simp [noKind]

theorem reachable_iff : program.Reachable id ↔ id ∈ nodes := by
  rw [mem_subtree inspected.walked]
  simp [Reachable, inspected.roots]

theorem grounded (id : NodeId) : program.Grounded id := by
  have below : ∀ bound (id : NodeId), id.val < bound → program.Grounded id := by
    intro bound
    induction bound with
    | zero => nofun
    | succ bound ih =>
      intro id inBound
      exact ⟨_, fun child holds => ih child
        (Nat.lt_of_lt_of_le ((inspected.fits id).held child holds).1 (Nat.le_of_lt_succ inBound))⟩
  exact below (id.val + 1) id (Nat.lt_succ_self id.val)

theorem wellFormed : WellFormed program := by
  have isRoot : ∀ {id}, id ∈ program.roots → id = root := fun member => by
    simpa [inspected.roots] using member
  have indexed : ∀ {id category}, id ∈ program.index.entries category →
      id ∈ nodes ∧ (program.kindAt id).bind Kind.category? = some category :=
    fun {id category} member => inspected.indexed category (by cases category <;> simp) id
      (Std.ExtTreeSet.mem_toList.mpr member)
  refine wellFormed_iff_orderly.mpr ⟨⟨?_, ?_, ?_, ?_, ?_, ?_, ?_⟩, ⟨?_, ?_, ?_, ?_⟩,
    ⟨?_, ?_, ?_, ?_, ?_, ?_⟩⟩
  · exact fun _ => trivial
  · exact fun _ holds => ⟨trivial, ((inspected.fits _).held _ holds).2.1⟩
  · exact fun _ _ named => ⟨trivial, (inspected.fits _).holder _ named⟩
  · exact nofun
  · exact nofun
  · exact fun _ => (inspected.fits _).held_once
  · exact fun _ => inspected.grounded _
  · exact fun _ => trivial
  · exact fun member => isRoot member ▸ inspected.module
  · exact fun member => isRoot member ▸ inspected.free
  · simp [inspected.roots]
  · exact fun _ member _ => isRoot member ▸ inspected.root_context
  · exact fun reachable holds _ =>
      ((inspected.fits _).held _ holds).2.2 (inspected.reachable_iff.mp reachable)
  · exact fun _ unreachable _ =>
      (inspected.fits _).no_context (mt inspected.reachable_iff.mpr unreachable)
  · exact fun member _ => inspected.reachable_iff.mpr (indexed member).1
  · exact fun _ member => (indexed member).2
  · exact fun _ reachable _ categorized =>
      (inspected.fits _).indexed (inspected.reachable_iff.mp reachable) _ categorized

theorem seated (sits : ∀ id ∈ nodes, id ∉ program.roots → program.sitsInDefinition id) :
    Seated program := fun id _ reachable notRoot known =>
  exists_of_sitsInDefinition known (sits id (inspected.reachable_iff.mp reachable) notRoot)

end Inspected

/-! ## Computing an inspection -/

/-- The nodes of a subtree, or none if the walk through it stops. -/
def nodesBelow (program : Program) (root : NodeId) : List NodeId :=
  (program.subtree root).toOption.getD []

theorem contains_of_mem_nodesBelow (member : id ∈ program.nodesBelow root) :
    program.Contains root id := by
  rw [nodesBelow] at member
  cases walked : program.subtree root with
  | error fault => simp [walked, Except.toOption] at member
  | ok nodes => exact (mem_subtree walked).mp (by simpa [walked, Except.toOption] using member)

theorem mem_nodesBelow_of_contains (walks : (program.subtree root).toOption.isSome)
    (contained : program.Contains root id) : id ∈ program.nodesBelow root := by
  obtain ⟨nodes, found⟩ := Option.isSome_iff_exists.mp walks
  rw [nodesBelow, found]
  exact (mem_subtree (Fault.toOption_eq_some.mp found)).mpr contained

/-- What an inspection looks at. -/
def StandsUp (program : Program) (root : NodeId) : Prop :=
  program.roots = #[root] ∧ (program.subtree root).toOption.isSome ∧
    (program.kindAt root).any Kind.isModule ∧ program.parentOf root = none ∧
    program.contextOf root = {} ∧
    (∀ place < program.nodes.size, program.Fitting (program.nodesBelow root) ⟨place + 1⟩) ∧
    ∀ category ∈ [Category.call, .fn, .loop, .block],
      ∀ id ∈ (program.index.entries category).toList, id ∈ program.nodesBelow root ∧
        (program.kindAt id).bind Kind.category? = some category

instance : Decidable (program.StandsUp root) :=
  inferInstanceAs (Decidable (_ ∧ _))

theorem StandsUp.inspected (standsUp : program.StandsUp root) :
    program.Inspected root (program.nodesBelow root) := by
  obtain ⟨roots, walks, module, free, bare, fitting, indexed⟩ := standsUp
  obtain ⟨nodes, walked⟩ := Option.isSome_iff_exists.mp walks
  have below : program.nodesBelow root = nodes := by rw [nodesBelow, walked, Option.getD_some]
  exact ⟨roots, below ▸ Fault.toOption_eq_some.mp walked, module, free, bare, fitting, indexed⟩

end ProgramTree.Program

namespace ProgramTree

/-- The program that an edit makes of the fresh one. -/
def Edit.making {α : Type} (edit : Edit α) : Program :=
  match edit (.empty {}) with
  | .ok (_, program) => program
  | .error _ => .empty {}

end ProgramTree
