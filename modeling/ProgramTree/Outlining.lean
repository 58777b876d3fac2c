import ProgramTree.Outlining.Bundle
import ProgramTree.Outlining.GpuLoop

/-!
# Loop outlining

The pass has two phases.  First every order-independent loop that is fit for offload
is replaced by a block that picks between its GPU variant and a copy of itself at run
time; an outliner may decline a loop, which then stays as it is.  Then every live
function flagged for offload gets its captured variables passed in a bundle and is
moved to the end of its module.
-/

namespace ProgramTree

/-- What became of a loop. -/
inductive Outcome where
  | outlined
  | declined
deriving DecidableEq

/-- The decision on one loop, with the line that reports it if it is to be
reported. -/
structure Decision where
  loop : NodeId
  outcome : Outcome
  report? : Option String
deriving DecidableEq

/-- An offloaded function that was moved to module scope, and its bundle class. -/
structure Relocation where
  fn : NodeId
  bundle : NodeId
deriving DecidableEq

/-- What the pass did. -/
structure OutlineReport where
  decisions : List Decision
  relocated : List Relocation
deriving DecidableEq

namespace OutlineReport

/-- The reported decisions, one line each. -/
def messages (report : OutlineReport) : List String :=
  report.decisions.filterMap Decision.report?

/-- The loops with this outcome, in the order in which they were decided. -/
def loops (report : OutlineReport) (outcome : Outcome) : List NodeId :=
  (report.decisions.filter (·.outcome = outcome)).map Decision.loop

def outlined (report : OutlineReport) : List NodeId :=
  report.loops .outlined

def declined (report : OutlineReport) : List NodeId :=
  report.loops .declined

end OutlineReport

namespace Program

/-- Whether the iterations of a loop may run in any order. -/
def isOrderIndependent (program : Program) (id : NodeId) : Except Fault Bool := do
  match ← program.kindOf id with
  | .stmt (.forLoop _ _ _ independent) => return independent
  | _ => return false

/-- Whether the pass has to decide on a loop. -/
def isCandidate (program : Program) (loop : NodeId) : Except Fault Bool := do
  if !(← program.inTree loop) then return false
  else if !(← program.isOrderIndependent loop) then return false
  else program.fitForOffload loop

/-- Who wrote a module. -/
def moduleTag (program : Program) (id : NodeId) : Except Fault ModuleTag := do
  match (← program.symbol id).kind with
  | .module _ _ tag => return tag
  | _ => program.fail id .expectedModule

/-- The line that reports a decision.  Loops of library modules are reported in
developer mode only. -/
def decisionReport? (program : Program) (loop : NodeId) (outcome : Outcome) :
    Except Fault (Option String) := do
  if program.settings.reportOutlining then
    let module ← program.expectModule loop
    let tag ← program.moduleTag module
    if tag ≠ .user && !program.settings.developer then return none
    else
      let name := (← program.symbol module).name
      let line := (← program.node loop).location.line
      let place := name ++ ":" ++ toString line
      match outcome with
      | .outlined => return some ("Replacing loop with CPU and GPU loops at " ++ place)
      | .declined => return some ("Failed to generate GPU loop from loop at " ++ place)
  else return none

/-- Whether a function is to be relocated. -/
def isOffloaded (program : Program) (fn : NodeId) : Except Fault Bool := do
  if ← program.hasFlag fn .offloadToGpu then program.isAlive fn else return false

end Program

namespace Edit

/-- Replaces a loop by a block that runs `variant` on the GPU and a copy of the loop
elsewhere. -/
def dispatch (loop variant : NodeId) : Edit Unit :=
  withLocationOf loop do
    let cpuLoop ← duplicate loop
    let onGpu ← newTemp "_is_gpu" (some PrimitiveType.bool.id)
    let definition ← define onGpu
    let query ← newPrimitiveCall .isGpuSublocale []
    let set ← newPrimitiveCall .move [onGpu, query]
    let choice ← newCond onGpu variant (some cpuLoop)
    let block ← newBlock [definition, set, choice]
    let _ ← replace loop block

/-- Decides on a loop, and replaces it if the outliner builds a variant of it. -/
def outlineLoop {σ : Type} (outliner : LoopOutliner σ) (loop : NodeId) :
    StateT σ Edit Decision := do
  match ← outliner loop with
  | none =>
    let report? ← look (·.decisionReport? loop .declined)
    return { loop, outcome := .declined, report? }
  | some variant =>
    let report? ← look (·.decisionReport? loop .outlined)
    dispatch loop variant
    return { loop, outcome := .outlined, report? }

/-- Decides on those of the loops that the pass is still to decide on when their turn
comes. -/
def outlineLoops {σ : Type} (outliner : LoopOutliner σ) :
    List NodeId → StateT σ Edit (List Decision)
  | [] => return []
  | loop :: rest => do
    if ← look (·.isCandidate loop) then
      let decision ← outlineLoop outliner loop
      return decision :: (← outlineLoops outliner rest)
    else outlineLoops outliner rest

/-- Moves the definition of a function to the end of its module. -/
def flatten (fn : NodeId) : Edit Unit := do
  let module ← look (·.expectModule fn)
  match (← look (·.symbol fn)).defPoint? with
  | none => fail fn .offloadedUndefined
  | some definition =>
    let stmt := (← look (·.enclosingStmt definition)).getD definition
    let _ ← remove stmt
    let body ← look (·.moduleBodyList module)
    let _ ← insertAtTail body stmt

/-- Gives an offloaded function its captures in a bundle and moves it to module
scope. -/
def relocate (fn : NodeId) : Edit Relocation := do
  let bundle ← passCaptures fn
  flatten fn
  return { fn, bundle }

/-- Outlines the loops that are live when the pass starts, and then relocates the
offloaded functions that are live when all loops are decided. -/
def outlineWith {σ : Type} (outliner : LoopOutliner σ) : StateT σ Edit OutlineReport :=
  fun state => withTraversal "createGpuForLoops" do
    let loops := (← get).index.loops.toList
    let (decisions, state) ← outlineLoops outliner loops state
    let fns := (← get).index.fns.toList
    let offloaded ← fns.filterM fun fn => look (·.isOffloaded fn)
    let relocated ← offloaded.mapM relocate
    return ({ decisions, relocated }, state)

/-- Runs the pass with the default outliner. -/
def outline : Edit OutlineReport :=
  return (← outlineWith GpuLoopBuilder.outline {}).1

end Edit

end ProgramTree
