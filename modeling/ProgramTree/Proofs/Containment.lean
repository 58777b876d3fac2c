import Mathlib.Logic.Relation
import Mathlib.Tactic.Common
import ProgramTree.Proofs.Views

/-!
# Containment

A node holds what stands in its slots, and contains whatever can be reached that way.
Walking down from a node meets exactly what it contains.
-/

namespace ProgramTree.Program

open Relation

/-- `holder` holds `child` in one of its slots. -/
def Holds (program : Program) (holder child : NodeId) : Prop :=
  child ∈ program.held holder

/-- `top` is `id`, or it holds a node that contains `id`. -/
abbrev Contains (program : Program) : NodeId → NodeId → Prop :=
  ReflTransGen program.Holds

/-- Some root contains the node. -/
def Reachable (program : Program) (id : NodeId) : Prop :=
  ∃ root ∈ program.roots, program.Contains root id

/-- No chain of holders goes on for ever below the node. -/
abbrev Grounded (program : Program) : NodeId → Prop :=
  Acc fun child holder => program.Holds holder child

variable {program before after : Program} {top id holder child : NodeId}

theorem Holds.issued (holds : program.Holds holder child) : (program.get? holder).isSome := by
  by_contra unissued
  rw [Option.not_isSome_iff_eq_none] at unissued
  simp [Holds, held_of_unissued unissued] at holds

theorem Reachable.of_root (root : id ∈ program.roots) : program.Reachable id :=
  ⟨id, root, .refl⟩

theorem Reachable.contains
    (reachable : program.Reachable top) (contained : program.Contains top id) :
    program.Reachable id := by
  obtain ⟨root, member, above⟩ := reachable
  exact ⟨root, member, above.trans contained⟩

theorem Reachable.holds
    (reachable : program.Reachable holder) (holds : program.Holds holder child) :
    program.Reachable child :=
  reachable.contains (.single holds)

theorem contains_mono (kept : ∀ holder child, before.Holds holder child → after.Holds holder child)
    (contained : before.Contains top id) : after.Contains top id :=
  ReflTransGen.mono kept _ _ contained

/-- Below a node that does not contain `changed`, containment is what it was if no other holder
changed. -/
theorem contains_iff_of_holds {changed : NodeId}
    (same : ∀ {holder child}, holder ≠ changed →
      (after.Holds holder child ↔ before.Holds holder child))
    (outside : ¬ before.Contains top changed) :
    after.Contains top id ↔ before.Contains top id := by
  constructor
  · intro contained
    induction contained with
    | refl => exact .refl
    | tail _ holds ih =>
      apply ih.tail
      apply (same ?_).mp holds
      rintro rfl
      exact outside ih
  · intro contained
    induction contained with
    | refl => exact .refl
    | tail above holds ih =>
      apply ih.tail
      apply (same ?_).mpr holds
      rintro rfl
      exact outside above

/-- A node that is not the top of what contains it is held there. -/
theorem exists_holder_of_contains
    (contained : program.Contains top id) (strict : id ≠ top) :
    ∃ holder, program.Contains top holder ∧ program.Holds holder id := by
  rcases contained.cases_tail with same | ⟨holder, above, holds⟩
  · exact absurd same strict
  · exact ⟨holder, above, holds⟩

/-- A reachable node is a root, or a reachable node holds it. -/
theorem Reachable.root_or_held (reachable : program.Reachable id) :
    id ∈ program.roots ∨ ∃ holder, program.Reachable holder ∧ program.Holds holder id := by
  obtain ⟨root, member, contained⟩ := reachable
  rcases contained.cases_tail with rfl | ⟨holder, above, holds⟩
  · exact .inl member
  · exact .inr ⟨holder, ⟨root, member, above⟩, holds⟩

theorem Grounded.not_below_itself (grounded : program.Grounded id) :
    ¬ TransGen program.Holds id id := by
  induction grounded with
  | intro id _ ih =>
    intro cycle
    obtain ⟨child, holds, below⟩ := TransGen.head'_iff.mp cycle
    exact ih child holds (.tail' below holds)

/-! ## Walking down -/

theorem mapM_owned {level : List NodeId} {below : List (List NodeId)}
    (found : level.mapM program.owned = .ok below) :
    below = level.map program.held := by
  rw [Fault.mapM_eq_ok] at found
  induction found with
  | nil => rfl
  | cons first _ ih => rw [List.map_cons, ih, (owned_eq_ok.mp first).2]

theorem mem_levels {fuel : Nat} {level nodes : List NodeId}
    (walked : program.levels fuel level = .ok nodes) :
    id ∈ nodes ↔ ∃ top ∈ level, program.Contains top id := by
  induction fuel generalizing level nodes with
  | zero =>
    cases level with
    | nil =>
      rw [levels, Fault.pure_eq_ok] at walked
      subst walked
      simp
    | cons first rest => simp [levels] at walked
  | succ fuel ih =>
    cases level with
    | nil =>
      rw [levels, Fault.pure_eq_ok] at walked
      subst walked
      simp
    | cons first rest =>
      simp only [levels, Fault.bind_eq_ok, Fault.pure_eq_ok] at walked
      obtain ⟨below, heldBelow, deeper, walkedBelow, rfl⟩ := walked
      rw [List.mem_append, ih walkedBelow, mapM_owned heldBelow]
      constructor
      · rintro (member | ⟨child, member, contained⟩)
        · exact ⟨id, member, .refl⟩
        · simp only [List.mem_flatten, List.mem_map] at member
          obtain ⟨_, ⟨top, topMember, rfl⟩, holds⟩ := member
          exact ⟨top, topMember, .head holds contained⟩
      · rintro ⟨top, topMember, contained⟩
        rcases contained.cases_head with rfl | ⟨child, holds, contained⟩
        · exact .inl topMember
        · refine .inr ⟨child, ?_, contained⟩
          simp only [List.mem_flatten, List.mem_map]
          exact ⟨_, ⟨top, topMember, rfl⟩, holds⟩

theorem mem_subtree {nodes : List NodeId} (walked : program.subtree top = .ok nodes) :
    id ∈ nodes ↔ program.Contains top id := by
  simp [mem_levels walked]

end ProgramTree.Program
