import ProgramTree.Program.Relations

/-!
# The call graph

Who calls a function, and whether a loop may be offloaded: it may when its function,
or some function up the chain of first callers, is marked fit for the GPU.
-/

namespace ProgramTree.Program

variable (program : Program)

/-- Whether a call is part of the tree and invokes `fn`.  An operation invokes no
function. -/
def isCallSite (fn call : NodeId) : Except Fault Bool := do
  match ← program.kindOf call with
  | .expr (.call (.primitive _) _) => return false
  | _ =>
    if ← program.inTree call then
      return (← program.resolvedCallee call) = some fn
    else return false

/-- The calls of `fn` that are part of the tree, in order of creation. -/
def callSites (fn : NodeId) : Except Fault (List NodeId) :=
  program.index.calls.toList.filterM (program.isCallSite fn)

/-- The function that is the nearest symbol around a node. -/
def enclosingFn (id : NodeId) : Except Fault (Option NodeId) := do
  match (← program.node id).context.symbol? with
  | none => return none
  | some symbol => return if ← program.isFn symbol then some symbol else none

/-- The function that holds the first call of `fn`. -/
def firstCaller (fn : NodeId) : Except Fault (Option NodeId) := do
  match ← program.callSites fn with
  | [] => return none
  | call :: _ => program.enclosingFn call

/-- Whether a function of the chain of first callers is fit for the GPU.  The chain
ends where it comes back to a function in `seen`, after `fuel` functions at most. -/
def chainFits : Nat → IdSet → Option NodeId → Except Fault Bool
  | _, _, none => return false
  | 0, _, some _ => return false
  | fuel + 1, seen, some fn => do
    if ← program.hasFlag fn .fitForGpu then return true
    else if seen.contains fn then return false
    else chainFits fuel (seen.insert fn) (← program.firstCaller fn)

/-- Whether a loop may be offloaded. -/
def fitForOffload (loop : NodeId) : Except Fault Bool := do
  program.chainFits (program.nodes.size + 1) ∅ (← program.enclosingFn loop)

end ProgramTree.Program
