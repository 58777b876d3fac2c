import Std.Data.ExtTreeMap
import Std.Data.ExtTreeSet

/-!
# Node identities

A node is addressed by a number from 1 on.  Identities are issued in increasing
order and never used twice, so their order is the order of creation.  Finite sets
and maps over them are kept in that order and are equal when they have the same
members.
-/

namespace ProgramTree

/-- The identity of a node. -/
structure NodeId where
  val : Nat
deriving DecidableEq, Hashable

namespace NodeId

instance : Ord NodeId := ⟨compareOn NodeId.val⟩

instance : Std.TransOrd NodeId :=
  inferInstanceAs (Std.TransCmp (compareOn NodeId.val))

instance : Std.LawfulEqOrd NodeId where
  eq_of_compare {left right} same := by
    cases left
    cases right
    congr 1
    exact Std.LawfulEqOrd.eq_of_compare same

/-- A node is written as its number behind a hash sign. -/
def text (id : NodeId) : String :=
  "#" ++ toString id.val

end NodeId

/-- A finite set of nodes, listed in order of creation. -/
abbrev IdSet := Std.ExtTreeSet NodeId

/-- A finite map from nodes to nodes. -/
abbrev Remap := Std.ExtTreeMap NodeId NodeId

/-- What `remap` puts in the place of `id`: its entry, or `id` itself. -/
def Remap.apply (remap : Remap) (id : NodeId) : NodeId :=
  remap.getD id id

end ProgramTree
