import ProgramTree.Edit.Declaring
import ProgramTree.Outlining.CallGraph
import ProgramTree.Outlining.Capture

/-!
# Argument bundles

The captured variables of an offloaded function are gathered into a class with one
field per variable.  The bundle is filled right before the statement of the call,
passed as the last two arguments, and unpacked into locals at the head of the
function.
-/

namespace ProgramTree

/-- References and instances of classes are visible to every thread at once. -/
def Program.isSharedType (program : Program) (type : NodeId) : Except Fault Bool := do
  match ← program.typeSymbolOf type with
  | some naming =>
    if ← program.hasFlag naming .ref then return true
    else program.isClass type
  | none => program.isClass type

namespace Edit

/-- The symbol that names a bundle class. -/
def bundleSymbol (bundle : NodeId) : Edit NodeId := do
  match ← look (·.typeSymbolOf bundle) with
  | some naming => return naming
  | none => fail bundle .bundleWithoutSymbol

/-- The field of a bundle class at a place, counting from zero. -/
def bundleField (bundle : NodeId) (place : Nat) : Edit NodeId := do
  match ← look (·.field bundle place) with
  | some member => return member
  | none => fail bundle .bundleWithoutField

/-- Adds the field for a variable to a bundle class. -/
def addBundleField (bundle var : NodeId) (place : Nat) : Edit Unit := do
  let type? ← look (·.typeOf var)
  match type? with
  | some type =>
    if ← look (·.isSharedType type) then
      addFlag var .concurrentlyAccessed
  | none => pure ()
  let name := (← look (·.symbol var)).name
  let _ ← addField bundle ("_" ++ toString place ++ "_" ++ name) type?

/-- Declares the bundle class of `fn` at the head of `module`. -/
def newBundleClass (vars : List NodeId) (module fn : NodeId) : Edit NodeId := do
  let name := (← look (·.symbol fn)).name
  let bundle ← newAggregateType ("_class_locals" ++ name) .classTag
  let naming ← bundleSymbol bundle
  addFlag naming .noObject
  addFlag naming .noWideClass
  vars.zipIdx.forM fun (var, place) => addBundleField bundle var place
  let definition ← define naming
  let body ← look (·.moduleBodyList module)
  let _ ← insertAtHead body definition
  return bundle

/-- A local that takes the value of a bundle field, with the statements that define
and set it. -/
structure Unpacked where
  var : NodeId
  localVar : NodeId
  stmts : List NodeId

/-- Builds the local that a bundled variable is unpacked into. -/
def unpackVar (wrap bundle : NodeId) (var : NodeId) (place : Nat) : Edit Unpacked := do
  let member ← bundleField bundle place
  withLocationOf var do
    let name := (← look (·.symbol var)).name
    let type? ← look (·.typeOf var)
    let localVar ← newTemp name type?
    let value ← newPrimitiveCall .getMemberValue [wrap, member]
    let definition ← define localVar
    let set ← newPrimitiveCall .move [localVar, value]
    return { var, localVar, stmts := [definition, set] }

/-- Inserts statements at the head of a list, in order. -/
def insertAllAtHead (list : NodeId) : List NodeId → Edit Unit
  | [] => return
  | first :: rest => do
    let first ← insertAtHead list first
    let _ ← rest.foldlM insertAfter first

/-- Unpacks every bundled variable at the head of `fn`.  The answer maps each to its
local. -/
def unpackBundle (fn : NodeId) (vars : List NodeId) (wrap bundle : NodeId) : Edit Remap := do
  let unpacked ← vars.zipIdx.mapM fun (var, place) => unpackVar wrap bundle var place
  let body ← look (·.fnBodyList fn)
  insertAllAtHead body (unpacked.flatMap Unpacked.stmts)
  return unpacked.foldl (fun table entry => table.insert entry.var entry.localVar) ∅

/-- Points a use of a variable of the table at its local. -/
def replaceUse (table : Remap) (id : NodeId) : Edit Unit := do
  match ← look (·.usedSymbol id) with
  | none => return
  | some var =>
    match table[var]? with
    | some localVar => setUsedSymbol id localVar
    | none => return

/-- Points every use of a variable of the table in the subtree under `root` at its
local. -/
def replaceUses (table : Remap) (root : NodeId) : Edit Unit := do
  let nodes ← look (·.subtree root)
  nodes.forM (replaceUse table)

/-- Defines `sym` right before `anchor`. -/
def defineBefore (anchor sym : NodeId) : Edit Unit := do
  let definition ← define sym
  let _ ← insertBefore anchor definition

/-- Fills the bundle right before the statement that holds `call`, and passes it as
the two last arguments: first the untyped pointer, then the bundle itself. -/
def passBundle (call fn : NodeId) (vars : List NodeId) (bundle : NodeId) : Edit Unit := do
  let anchor ← match ← look (·.enclosingStmt call) with
    | some anchor => pure anchor
    | none => fail call .callOutsideStmt
  let naming ← bundleSymbol bundle
  let name := (← look (·.symbol fn)).name
  withLocationOf call do
    let instanceVar ← newTemp ("_args_for_" ++ name) (some bundle)
    defineBefore anchor instanceVar
    let description ← newLiteral (.string "bundled args")
    let alloc ← newPrimitiveCall .alloc [naming, description]
    let _ ← insertBefore anchor (← newPrimitiveCall .move [instanceVar, alloc])
    vars.zipIdx.forM fun (var, place) => do
      let member ← bundleField bundle place
      let _ ← insertBefore anchor (← newPrimitiveCall .setMember [instanceVar, member, var])
    let erased ← newTemp ("_args_vfor" ++ name) (some PrimitiveType.cVoidPtr.id)
    defineBefore anchor erased
    let cast ← newPrimitiveCall .castToVoidStar [instanceVar]
    let _ ← insertBefore anchor (← newPrimitiveCall .move [erased, cast])
    let args ← look (·.callArgs call)
    let _ ← insertAtTail args (← newUse erased)
    let _ ← insertAtTail args (← newUse instanceVar)

/-- The single call site of an offloaded function. -/
def singleCallSite (fn : NodeId) : Edit NodeId := do
  match ← look (·.callSites fn) with
  | [call] => return call
  | calls => fail fn (.callSiteCount (← look (·.symbol fn)).name calls.length)

/-- Makes `fn`, which must have one call site, read its captured variables from a
bundle.  The answer is the bundle class. -/
def passCaptures (fn : NodeId) : Edit NodeId := do
  let call ← singleCallSite fn
  withLocationOf fn do
    let vars := bundledVars (← look (·.captures fn))
    let module ← look (·.expectModule fn)
    let bundle ← newBundleClass vars module fn
    let untyped ← newArg "bundle" .byIn (some PrimitiveType.cVoidPtr.id)
    addFlag untyped .noCodegen
    insertFormalAtTail fn untyped
    let wrap ← newArg "dummy_c" .byIn (some bundle)
    insertFormalAtTail fn wrap
    let table ← unpackBundle fn vars wrap bundle
    replaceUses table (← look (·.fnBody fn))
    passBundle call fn vars bundle
    return bundle

end Edit

end ProgramTree
