import Std.Data.ExtTreeSet

/-!
# Symbol flags

The marks a symbol can carry.  A set of flags lists them in the order in which
they are declared here.
-/

namespace ProgramTree

/-- A mark on a symbol. -/
inductive Flag where
  /-- The loops of this function, and those of its callees, may be offloaded. -/
  | fitForGpu
  /-- This function will run on the GPU. -/
  | offloadToGpu
  | noObject
  | noWideClass
  /-- This variable is captured by reference into an offloaded function. -/
  | concurrentlyAccessed
  | noCodegen
  /-- This type symbol names a reference type. -/
  | ref
  | temp
  /-- This symbol is folded at compile time and never captured. -/
  | param
deriving DecidableEq

namespace Flag

/-- All flags, in their order. -/
def all : List Flag :=
  [fitForGpu, offloadToGpu, noObject, noWideClass, concurrentlyAccessed, noCodegen, ref, temp,
    param]

/-- The place of a flag in the order. -/
def rank : Flag → Nat
  | fitForGpu => 0
  | offloadToGpu => 1
  | noObject => 2
  | noWideClass => 3
  | concurrentlyAccessed => 4
  | noCodegen => 5
  | ref => 6
  | temp => 7
  | param => 8

theorem rank_injective : ∀ left right : Flag, left.rank = right.rank → left = right := by
  intro left right
  cases left <;> cases right <;> decide

instance : Ord Flag := ⟨compareOn Flag.rank⟩

instance : Std.TransOrd Flag :=
  inferInstanceAs (Std.TransCmp (compareOn Flag.rank))

instance : Std.LawfulEqOrd Flag where
  eq_of_compare {left right} same :=
    rank_injective left right (Std.LawfulEqOrd.eq_of_compare same)

/-- The name under which a flag is shown. -/
def name : Flag → String
  | fitForGpu => "FitForGpu"
  | offloadToGpu => "OffloadToGpu"
  | noObject => "NoObject"
  | noWideClass => "NoWideClass"
  | concurrentlyAccessed => "ConcurrentlyAccessed"
  | noCodegen => "NoCodegen"
  | ref => "Ref"
  | temp => "Temp"
  | param => "Param"

end Flag

/-- The flags of one symbol. -/
abbrev FlagSet := Std.ExtTreeSet Flag

/-- The names of the flags, in order, between braces. -/
def FlagSet.text (flags : FlagSet) : String :=
  "\x7b" ++ ", ".intercalate (flags.toList.map Flag.name) ++ "\x7d"

end ProgramTree
