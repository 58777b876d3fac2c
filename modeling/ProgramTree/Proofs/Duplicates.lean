import Mathlib.Data.Set.Function
import ProgramTree.Proofs.Copying
import ProgramTree.Proofs.Rendering
import ProgramTree.Proofs.WellFormed

/-!
# Duplicates

What a copy of a subtree is: its nodes answer one to one to those of the original, in
everything but the identities in them.  Copying in a well-formed program makes one.
-/

namespace ProgramTree

open Program

/-- `copied` stands for `source`, whose identities are renamed by `image` and `link`. -/
structure IsTwin (settings : Settings) (image link : NodeId → NodeId) (source copied : Node) :
    Prop where
  kind : copied.kind = source.kind.renamed image link
  location : copied.location = source.location
  pragmas : copied.pragmas = source.pragmas
  noted : settings.inAnalysis = false → (source.kind.isStmt ∨ source.kind.isExpr) →
    copied.analysis? = source.analysis?
  unnoted : settings.inAnalysis = true ∨ ¬ (source.kind.isStmt ∨ source.kind.isExpr) →
    copied.analysis? = none
  context : copied.context = {}

/-- The subtree under `copy` is a duplicate of the one under `top`: `image` leads from
the nodes of the one to those of the other, and `link` from what the one refers to to
what the other refers to. -/
structure IsDuplicate (before : Program) (seeds : Remap) (top copy : NodeId)
    (order : List NodeId) (image link : NodeId → NodeId) (after : Program) : Prop where
  post_order : before.Visits [top] order
  subtree : ∀ id, id ∈ order ↔ before.Contains top id
  distinct : order.Nodup
  /-- The nodes of the duplicate take the next identities in that order. -/
  next_ids : order.map image =
    (List.range order.length).map fun place => ⟨before.nodes.size + 1 + place⟩
  bijective : Set.BijOn image { id | before.Contains top id }
    { id | before.get? id = none ∧ (after.get? id).isSome }
  top_image : copy = image top
  twin : ∀ id source, before.Contains top id → before.get? id = some source →
    ∃ copied, after.get? (image id) = some copied ∧
      IsTwin before.settings image link source copied
  parent : ∀ id, before.Contains top id → id ≠ top →
    after.parentOf (image id) = (before.parentOf id).map image
  link_inside : ∀ target, before.Contains top target → link target = image target
  link_seeded : ∀ target given, ¬ before.Contains top target → seeds[target]? = some given →
    link target = given
  link_outside : ∀ target, ¬ before.Contains top target → seeds[target]? = none →
    link target = target
  parentless : after.parentOf copy = none
  detached : ¬ after.IsPlaced copy
  old : ∀ id node, before.get? id = some node → after.get? id = some node
  rest : after = { before with nodes := after.nodes }

namespace Program

variable {before after : Program} {seeds : Remap} {order : List NodeId} {top id : NodeId}

theorem isSome_get?_iff {program : Program} :
    (program.get? id).isSome ↔ id.val ≠ 0 ∧ id.val ≤ program.nodes.size := by
  obtain ⟨_ | place⟩ := id
  · simp [get?]
  · simp only [get?, isSome_getElem?, Array.size, ne_eq, Nat.succ_ne_zero, not_false_eq_true,
      true_and]
    exact Nat.lt_iff_add_one_le

/-- The twins are the next identities, in order. -/
theorem map_twin (distinct : order.Nodup) :
    order.map (before.twin order) =
      (List.range order.length).map fun place => ⟨before.nodes.size + 1 + place⟩ := by
  apply List.ext_getElem
  · simp
  · intro place inOrder _
    rw [List.length_map] at inOrder
    simp [twin, distinct.idxOf_getElem place inOrder]

/-- The created nodes are the twins. -/
theorem Twinned.created_iff {link : NodeId → NodeId} (twinned : Twinned before top order link after) :
    (before.get? id = none ∧ (after.get? id).isSome) ↔ id ∈ order.map (before.twin order) := by
  rw [map_twin twinned.distinct, ← Option.not_isSome_iff_eq_none, isSome_get?_iff,
    isSome_get?_iff, twinned.size, List.mem_map]
  obtain ⟨place⟩ := id
  simp only [ne_eq, NodeId.mk.injEq, List.mem_range]
  constructor
  · intro created
    exact ⟨place - (before.nodes.size + 1), by omega, by omega⟩
  · intro isNext
    obtain ⟨offset, inRange, same⟩ := isNext
    omega

namespace Duplicated

variable (duplicated : Duplicated before seeds top order after)
include duplicated

theorem mem_order : id ∈ order ↔ before.Contains top id :=
  duplicated.visits.mem_singleton

theorem created_iff :
    (before.get? id = none ∧ (after.get? id).isSome) ↔ id ∈ order.map (before.twin order) :=
  duplicated.twinned.created_iff

theorem isDuplicate (wellFormed : WellFormed before) (issued : (before.get? top).isSome) :
    IsDuplicate before seeds top (before.twin order top) order (before.twin order)
      (before.redirect seeds order) after := by
  have orderly := wellFormed.orderly
  have inOrder : top ∈ order := duplicated.mem_order.mpr .refl
  have issuedAll : ∀ id ∈ order, (before.get? id).isSome := fun id member =>
    orderly.forest.issued_of_contains trivial issued (duplicated.mem_order.mp member)
  obtain ⟨topNode, foundTop⟩ := Option.isSome_iff_exists.mp issued
  have foundCopy := duplicated.copy inOrder foundTop
  have isCreated := duplicated.created_iff.mpr (List.mem_map_of_mem inOrder)
  have roots : after.roots = before.roots := by
    rw [duplicated.rest]
  refine ⟨duplicated.visits, fun id => duplicated.mem_order, duplicated.distinct,
    map_twin duplicated.distinct, ⟨?_, ?_, ?_⟩, rfl, ?_, ?_, ?_, ?_, ?_, ?_, ?_,
    fun _ _ => duplicated.old, duplicated.rest⟩
  · intro id contained
    exact duplicated.created_iff.mpr (List.mem_map_of_mem (duplicated.mem_order.mpr contained))
  · intro first contained second _ same
    exact twin_injective (duplicated.mem_order.mpr contained) same
  · intro id created
    obtain ⟨original, member, same⟩ := List.mem_map.mp (duplicated.created_iff.mp created)
    exact ⟨original, duplicated.mem_order.mp member, same⟩
  · intro id source contained found
    refine ⟨_, duplicated.copy (duplicated.mem_order.mpr contained) found,
      copyOf_kind, rfl, rfl, ?_, ?_, copyOf_context⟩
    · intro free kind
      simp [copyOf, free, kind]
    · intro bound
      rcases bound with busy | other
      · simp [copyOf, busy]
      · simp [copyOf, other]
  · intro id contained strict
    have member := duplicated.mem_order.mpr contained
    obtain ⟨source, found⟩ := Option.isSome_iff_exists.mp (issuedAll id member)
    rw [parentOf_eq (duplicated.copy member found), copyOf, if_neg strict]
  · intro target contained
    rw [redirect, if_pos (duplicated.mem_order.mpr contained)]
  · intro target given outside seeded
    rw [← duplicated.mem_order] at outside
    rw [redirect, if_neg outside, Remap.apply, Std.ExtTreeMap.getD_eq_getD_getElem?, seeded,
      Option.getD_some]
  · intro target outside unseeded
    rw [← duplicated.mem_order] at outside
    rw [redirect, if_neg outside, Remap.apply, Std.ExtTreeMap.getD_eq_getD_getElem?, unseeded,
      Option.getD_none]
  · rw [parentOf_eq foundCopy, copyOf, if_pos rfl]
  · rw [IsPlaced, roots, contextOf_eq foundCopy, copyOf_context]
    intro placed
    rcases placed with isRoot | enclosed
    · have module := orderly.rooted.module isRoot
      simp [get?_eq_none_iff_kindAt.mp isCreated.1] at module
    · simp at enclosed

omit duplicated in
/-- Without seeds, the copy mirrors the original. -/
theorem mirrored (wellFormed : WellFormed before) (issued : (before.get? top).isSome)
    (duplicated : Duplicated before ∅ top order after) :
    Mirrored after order (before.twin order) (before.redirect ∅ order) where
  closed := by
    intro holder child member holds
    have contained := duplicated.mem_order.mp member
    obtain ⟨source, found⟩ := Option.isSome_iff_exists.mp
      (wellFormed.orderly.forest.issued_of_contains trivial issued contained)
    rw [Holds, held_eq (duplicated.old found), ← held_eq found] at holds
    exact duplicated.mem_order.mpr (contained.tail holds)
  copy := by
    intro id member
    have contained := duplicated.mem_order.mp member
    obtain ⟨source, found⟩ := Option.isSome_iff_exists.mp
      (wellFormed.orderly.forest.issued_of_contains trivial issued contained)
    refine ⟨source.kind, kindAt_eq (duplicated.old found), ?_⟩
    rw [kindAt_eq (duplicated.copy member found), copyOf_kind]
  inside member := by rw [redirect, if_pos member]
  outside outside := by
    rw [redirect, if_neg outside]
    simp [Remap.apply]

end Duplicated

end Program

/-! ## Copying makes a duplicate -/

/-- Copying a subtree of a well-formed program ends well and makes a duplicate of it,
which is shown as the original is, unless the caller redirects links. -/
theorem exists_duplicate {before : Program} {seeds : Remap} {top : NodeId}
    (wellFormed : WellFormed before) (issued : (before.get? top).isSome)
    (unseeded : ∀ id, before.Contains top id → id ∉ seeds) (updated : List NodeId) :
    ∃ answer after order image link,
      Edit.Yields (Edit.duplicateWith top seeds updated false) before answer after ∧
        IsDuplicate before seeds top answer.duplicate order image link after ∧
        (seeds = ∅ →
          (after.render answer.duplicate).toOption = (after.render top).toOption ∧
            ∀ text, before.render top = .ok text → after.render answer.duplicate = .ok text) := by
  obtain ⟨answer, after, order, run, isTwin, duplicated⟩ :=
    exists_duplicateWith wellFormed.orderly.forest trivial issued unseeded updated
  have isDuplicate := duplicated.isDuplicate wellFormed issued
  rw [← isTwin] at isDuplicate
  refine ⟨answer, after, order, _, _, run, isDuplicate, fun noSeeds => ?_⟩
  subst noSeeds
  have mirrored := Duplicated.mirrored wellFormed issued duplicated
  have alike : (after.render answer.duplicate).toOption = (after.render top).toOption := by
    rw [isTwin]
    exact mirrored.renderWithin_own (duplicated.mem_order.mpr .refl) _ _ _
  refine ⟨alike, fun text shown => ?_⟩
  have enough : before.nodes.size + 1 ≤ after.nodes.size + 1 := by
    rw [duplicated.size]
    omega
  have shownAfter : after.render top = .ok text :=
    renderWithin_extended duplicated.old enough shown
  rw [← Fault.toOption_eq_some] at shownAfter ⊢
  rw [alike, shownAfter]

/-- The symbol of a primitive type is copied together with the type. -/
theorem exists_duplicate_of_primitive :
    ∃ answer after order image link,
      Edit.Yields (Edit.duplicateWith PrimitiveType.int.symbolId ∅ [] false) (Program.empty {})
        answer after ∧
      IsDuplicate (Program.empty {}) ∅ PrimitiveType.int.symbolId answer.duplicate order image
        link after ∧
      ((∅ : Remap) = ∅ →
        (after.render answer.duplicate).toOption =
          (after.render PrimitiveType.int.symbolId).toOption ∧
          ∀ text, (Program.empty {}).render PrimitiveType.int.symbolId = .ok text →
            after.render answer.duplicate = .ok text) :=
  exists_duplicate (wellFormed_empty {}) rfl (fun _ _ => Std.ExtTreeMap.not_mem_empty) []

end ProgramTree
