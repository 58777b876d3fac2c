import Mathlib.Data.List.Perm.Subperm
import ProgramTree.Proofs.Forest

/-!
# Traversal of a subtree

The nodes below some tops in post-order: every node after all that it contains, and
siblings from left to right.  In a forest the traversal meets each node once, so it is
no longer than the program is large.  Walking by levels meets the same nodes.
-/

namespace ProgramTree.Program

open Relation

/-- Taking each of the tops after all that it contains gives this order. -/
inductive Visits (program : Program) : List NodeId → List NodeId → Prop where
  | nil : Visits program [] []
  | cons {first : NodeId} {rest below later : List NodeId}
      (descent : Visits program (program.held first) below)
      (further : Visits program rest later) :
      Visits program (first :: rest) (below ++ first :: later)

variable {region : NodeId → Prop} {loose tops others order : List NodeId}
  {program before after : Program} {top id : NodeId}

namespace Visits

theorem append {rest : List NodeId} (front : program.Visits tops order)
    (back : program.Visits others rest) : program.Visits (tops ++ others) (order ++ rest) := by
  induction front with
  | nil => exact back
  | @cons first tops below later descent _ _ ih =>
    have joined := Visits.cons descent ih
    simpa using joined

theorem mem (visits : program.Visits tops order) :
    id ∈ order ↔ ∃ top ∈ tops, program.Contains top id := by
  induction visits with
  | nil => simp
  | @cons first rest below later _ _ ihBelow ihLater =>
    rw [List.mem_append, List.mem_cons, ihBelow, ihLater]
    constructor
    · intro member
      rcases member with ⟨child, holds, contained⟩ | isFirst | ⟨top, member, contained⟩
      · exact ⟨first, by simp, .head holds contained⟩
      · exact ⟨first, by simp, isFirst ▸ .refl⟩
      · exact ⟨top, by simp [member], contained⟩
    · intro known
      obtain ⟨top, member, contained⟩ := known
      rcases List.mem_cons.mp member with isFirst | member
      · subst isFirst
        rcases contained.cases_head with isTop | ⟨child, holds, below⟩
        · exact .inr (.inl isTop.symm)
        · exact .inl ⟨child, holds, below⟩
      · exact .inr (.inr ⟨top, member, contained⟩)

theorem mem_singleton (visits : program.Visits [top] order) :
    id ∈ order ↔ program.Contains top id := by
  rw [visits.mem]
  simp

/-! ## Every node once -/

theorem held_apart (forest : Forest region loose program) (inside : region top) :
    (program.held top).Pairwise fun first second =>
      ∀ id, program.Contains first id → ¬ program.Contains second id := by
  have nodup := forest.nodup inside
  refine List.Pairwise.imp_of_mem ?_ nodup
  intro first second holdsFirst holdsSecond different id
  exact forest.siblings_disjoint inside holdsFirst holdsSecond different

theorem nodup (visits : program.Visits tops order) (forest : Forest region loose program)
    (inside : ∀ top ∈ tops, region top)
    (apart : tops.Pairwise fun first second =>
      ∀ id, program.Contains first id → ¬ program.Contains second id) :
    order.Nodup := by
  induction visits with
  | nil => exact .nil
  | @cons first rest below later descent further ihBelow ihLater =>
    have insideFirst := inside first (by simp)
    obtain ⟨apartFirst, apartRest⟩ := List.pairwise_cons.mp apart
    have belowNodup : below.Nodup := by
      apply ihBelow
      · exact fun child holds => (forest.held insideFirst holds).1
      · exact held_apart forest insideFirst
    have laterNodup : later.Nodup := by
      apply ihLater
      · exact fun top member => inside top (by simp [member])
      · exact apartRest
    have firstNotBelow : first ∉ below := by
      intro member
      obtain ⟨child, holds, contained⟩ := descent.mem.mp member
      exact forest.not_contains_holder insideFirst holds contained
    have outsideLater : ∀ {id}, program.Contains first id → id ∉ later := by
      intro id contained member
      obtain ⟨top, topMember, other⟩ := further.mem.mp member
      exact apartFirst top topMember id contained other
    apply List.nodup_append.mpr
    refine ⟨belowNodup, List.nodup_cons.mpr ⟨outsideLater .refl, laterNodup⟩, ?_⟩
    intro lower lowerMember upper upperMember same
    subst same
    obtain ⟨child, holds, contained⟩ := descent.mem.mp lowerMember
    rcases List.mem_cons.mp upperMember with isFirst | inLater
    · exact firstNotBelow (isFirst ▸ lowerMember)
    · exact outsideLater (.head holds contained) inLater

theorem nodup_singleton (visits : program.Visits [top] order)
    (forest : Forest region loose program) (inside : region top) : order.Nodup := by
  apply visits.nodup forest
  · simpa using inside
  · exact List.pairwise_singleton _ _

end Visits

theorem exists_visits (grounded : ∀ top ∈ tops, program.Grounded top) :
    ∃ order, program.Visits tops order := by
  have single : ∀ {top}, program.Grounded top → ∃ order, program.Visits [top] order := by
    intro top groundedTop
    induction groundedTop with
    | intro top _ ih =>
      have each : ∀ children : List NodeId, children ⊆ program.held top →
          ∃ order, program.Visits children order := by
        intro children
        induction children with
        | nil => exact fun _ => ⟨[], .nil⟩
        | cons child rest ihRest =>
          intro heldAll
          obtain ⟨front, visitsChild⟩ := ih child (heldAll (by simp))
          obtain ⟨back, visitsRest⟩ := ihRest fun other member => heldAll (by simp [member])
          exact ⟨front ++ back, visitsChild.append visitsRest⟩
      obtain ⟨below, descent⟩ := each _ (List.Subset.refl _)
      exact ⟨below ++ [top], .cons descent .nil⟩
  induction tops with
  | nil => exact ⟨[], .nil⟩
  | cons first rest ih =>
    obtain ⟨front, visitsFirst⟩ := single (grounded first (by simp))
    obtain ⟨back, visitsRest⟩ := ih fun top member => grounded top (by simp [member])
    exact ⟨front ++ back, visitsFirst.append visitsRest⟩

/-! ## How long a traversal is -/

theorem Forest.issued_of_contains (forest : Forest region loose program) (inside : region top)
    (issued : (program.get? top).isSome) (contained : program.Contains top id) :
    (program.get? id).isSome := by
  by_cases isTop : id = top
  · exact isTop ▸ issued
  · obtain ⟨holder, named, _⟩ := forest.parent_of_contains inside contained isTop
    obtain ⟨node, found, _⟩ := get?_of_parentOf named
    simp [found]

theorem val_of_issued (issued : (program.get? id).isSome) :
    ∃ place, id = ⟨place + 1⟩ ∧ place < program.nodes.size := by
  obtain ⟨_ | place⟩ := id
  · simp [get?] at issued
  · obtain ⟨node, found⟩ := Option.isSome_iff_exists.mp issued
    exact ⟨place, rfl, (Array.getElem?_eq_some_iff.mp found).1⟩

/-- A list of distinct nodes is no longer than the program is large. -/
theorem length_le_size (distinct : order.Nodup) (issued : ∀ id ∈ order, (program.get? id).isSome) :
    order.length ≤ program.nodes.size := by
  have among : order ⊆ (List.range program.nodes.size).map fun place => ⟨place + 1⟩ := by
    intro id member
    obtain ⟨place, same, inBounds⟩ := val_of_issued (issued id member)
    exact List.mem_map.mpr ⟨place, List.mem_range.mpr inBounds, same.symm⟩
  have bounded := (List.subperm_of_subset distinct among).length_le
  simpa using bounded

/-! ## Walking by levels -/

namespace Visits

theorem deeper (visits : program.Visits tops order) :
    ∃ below, program.Visits (tops.map program.held).flatten below ∧
      List.Perm order (tops ++ below) := by
  induction visits with
  | nil => exact ⟨[], .nil, .nil⟩
  | @cons first rest below later descent _ _ ih =>
    obtain ⟨deeperRest, visitsRest, sameRest⟩ := ih
    refine ⟨below ++ deeperRest, descent.append visitsRest, ?_⟩
    calc
      List.Perm (below ++ first :: later) (first :: (below ++ later)) := List.perm_middle
      List.Perm _ (first :: (below ++ (rest ++ deeperRest))) :=
        .cons _ (.append_left _ sameRest)
      List.Perm _ (first :: (rest ++ (below ++ deeperRest))) := by
        apply List.Perm.cons
        rw [← List.append_assoc, ← List.append_assoc]
        exact .append_right _ List.perm_append_comm

theorem mapM_owned_eq_ok (issued : ∀ top ∈ tops, (program.get? top).isSome) :
    tops.mapM program.owned = .ok (tops.map program.held) := by
  apply Fault.mapM_eq_ok.mpr
  rw [List.forall₂_map_right_iff, List.forall₂_same]
  exact fun top member => owned_eq_ok.mpr ⟨issued top member, rfl⟩

theorem levels (visits : program.Visits tops order)
    (issued : ∀ id ∈ order, (program.get? id).isSome) {fuel : Nat}
    (enough : order.length ≤ fuel) :
    ∃ nodes, program.levels fuel tops = .ok nodes ∧ List.Perm nodes order := by
  induction fuel generalizing tops order with
  | zero =>
    cases visits with
    | nil => exact ⟨[], by rw [Program.levels, Fault.pure_eq_ok], .nil⟩
    | cons _ _ => simp at enough
  | succ fuel ih =>
    cases tops with
    | nil =>
      cases visits with
      | nil => exact ⟨[], by rw [Program.levels, Fault.pure_eq_ok], .nil⟩
    | cons first rest =>
      obtain ⟨below, visitsBelow, same⟩ := visits.deeper
      have issuedTops : ∀ top ∈ first :: rest, (program.get? top).isSome := by
        intro top member
        exact issued top (same.mem_iff.mpr (List.mem_append_left _ member))
      have shorter : below.length ≤ fuel := by
        have length := same.length_eq
        rw [List.length_append, List.length_cons] at length
        omega
      obtain ⟨deeperNodes, walked, samePerm⟩ := ih visitsBelow
        (fun id member => issued id (same.mem_iff.mpr (List.mem_append_right _ member))) shorter
      refine ⟨first :: rest ++ deeperNodes, ?_, ?_⟩
      · simp only [Program.levels, Fault.bind_eq_ok, Fault.pure_eq_ok]
        exact ⟨_, mapM_owned_eq_ok issuedTops, deeperNodes, walked, rfl⟩
      · exact (List.Perm.append_left _ samePerm).trans same.symm

theorem subtree {top : NodeId} (visits : program.Visits [top] order) (distinct : order.Nodup)
    (issued : ∀ id ∈ order, (program.get? id).isSome) :
    ∃ nodes, program.subtree top = .ok nodes ∧ List.Perm nodes order :=
  visits.levels issued (Nat.le_succ_of_le (length_le_size distinct issued))

/-! ## Traversals of renamed subtrees -/

theorem rename {rename : NodeId → NodeId} (visits : before.Visits tops order)
    (held : ∀ id ∈ order, after.held (rename id) = (before.held id).map rename) :
    after.Visits (tops.map rename) (order.map rename) := by
  induction visits with
  | nil => exact .nil
  | @cons first rest below later _ _ ihBelow ihLater =>
    have descent := ihBelow fun id member => held id (by simp [member])
    have further := ihLater fun id member => held id (by simp [member])
    rw [← held first (by simp)] at descent
    have renamed := Visits.cons descent further
    simpa using renamed

end Visits

end ProgramTree.Program
