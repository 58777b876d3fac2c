import ProgramTree.Program.Relations
import ProgramTree.Program.Walk

/-!
# Captured variables

An offloaded function may not reach into the frames of the functions it was nested
in.  The variables it captures are the locals of those functions that it uses.
-/

namespace ProgramTree

/-- A captured variable.  Compile-time constants are excluded from the bundle. -/
structure Capture where
  var : NodeId
  excluded : Bool
deriving DecidableEq

/-- The variables that are bundled, in the order in which they were captured. -/
def bundledVars (captures : List Capture) : List NodeId :=
  (captures.filter (!·.excluded)).map Capture.var

namespace Program

variable (program : Program)

/-- The symbol whose body holds the definition of `sym`. -/
def definingSymbol (sym : NodeId) : Except Fault (Option NodeId) := do
  match (← program.symbol sym).defPoint? with
  | none => return none
  | some definition => return (← program.node definition).context.symbol?

/-- Whether `owner?` is one of the nested functions that are met going outward from
`fn?`, of which there are `fuel` at most. -/
def nestedIn (owner? : Option NodeId) : Nat → Option NodeId → Except Fault Bool
  | _, none => return false
  | 0, some _ => return false
  | fuel + 1, some fn => do
    if !(← program.isFn fn) then return false
    else if owner? = some fn then return true
    else nestedIn owner? fuel (← program.definingSymbol fn)

/-- Whether `sym` is a local of one of the functions that `fn` is nested in. -/
def isOuterVar (sym fn : NodeId) : Except Fault Bool := do
  let owner? ← program.definingSymbol sym
  program.nestedIn owner? (program.nodes.size + 1) (← program.definingSymbol fn)

/-- The outer variable that a node is a use of. -/
def usedOuterVar (fn id : NodeId) : Except Fault (Option NodeId) := do
  match ← program.usedSymbol id with
  | none => return none
  | some var =>
    if (← program.kindOf var).symbol?.any Symbol.isLocal then
      return if ← program.isOuterVar var fn then some var else none
    else return none

/-- Adds the capture that a use of an outer variable makes, unless there is one of
that variable already. -/
def addCapture (fn : NodeId) (captures : List Capture) (id : NodeId) :
    Except Fault (List Capture) := do
  match ← program.usedOuterVar fn id with
  | none => return captures
  | some var =>
    if captures.any (·.var = var) then return captures
    else return captures ++ [⟨var, ← program.hasFlag var .param⟩]

/-- Every outer variable that `fn` uses, in the order of first use. -/
def captures (fn : NodeId) : Except Fault (List Capture) := do
  (← program.subtree fn).foldlM (program.addCapture fn) []

end Program

end ProgramTree
