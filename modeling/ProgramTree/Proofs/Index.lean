import Mathlib.Tactic.Common
import ProgramTree.Program

/-!
# Categories of the index

The index keeps four sets of nodes.  A category names one of them, and the kind of a
node says in which of them, if in any, the node is entered.
-/

namespace ProgramTree

/-- What an indexed node is. -/
inductive Category where
  | call
  | fn
  | loop
  | block
deriving DecidableEq

/-- The indexed nodes of a category. -/
def LiveIndex.entries (index : LiveIndex) : Category → IdSet
  | .call => index.calls
  | .fn => index.fns
  | .loop => index.loops
  | .block => index.blocks

/-- The category under which a node of this kind is indexed. -/
def Kind.category? : Kind → Option Category
  | .expr (.call ..) => some .call
  | .stmt (.forLoop ..) => some .loop
  | .stmt (.block ..) => some .block
  | .symbol data => if data.isFn then some .fn else none
  | _ => none

namespace LiveIndex

variable {index : LiveIndex} {id entered : NodeId} {category : Category}

/-- Identities are given out in ascending order, and so an index lists the oldest nodes first. -/
theorem ascending_entries (index : LiveIndex) (category : Category) :
    (index.entries category).toList.Pairwise fun first second => first.val < second.val :=
  (index.entries category).ordered_toList.imp fun earlier => Nat.compare_eq_lt.mp earlier

theorem mem_register {kind : Kind} :
    id ∈ (index.register entered kind).entries category ↔
      id ∈ index.entries category ∨ (entered = id ∧ kind.category? = some category) := by
  cases kind with
  | list holds elements => simp [register, Kind.category?]
  | stmt stmt => cases stmt <;> cases category <;>
      simp [register, Kind.category?, entries, or_comm]
  | expr expr => cases expr <;> cases category <;>
      simp [register, Kind.category?, entries, or_comm]
  | symbol symbol =>
    by_cases function : symbol.isFn
    · cases category <;>
        simp [register, Kind.category?, entries, or_comm, function]
    · simp [register, Kind.category?, function]
  | type type => simp [register, Kind.category?]

theorem mem_deregister :
    id ∈ (index.deregister entered).entries category ↔
      id ∈ index.entries category ∧ entered ≠ id := by
  cases category <;> simp [deregister, entries, and_comm]

theorem mem_toList : id ∈ index.toList ↔ ∃ category, id ∈ index.entries category := by
  simp only [toList, List.mem_append, Std.ExtTreeSet.mem_toList]
  constructor
  · rintro (((call | fn) | loop) | block)
    · exact ⟨.call, call⟩
    · exact ⟨.fn, fn⟩
    · exact ⟨.loop, loop⟩
    · exact ⟨.block, block⟩
  · rintro ⟨category, member⟩
    cases category <;> simp_all [entries]

end LiveIndex

end ProgramTree
