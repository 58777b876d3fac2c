import ProgramTree.Edit.Duplication
import ProgramTree.Proofs.Mutations
import ProgramTree.Proofs.Renaming
import ProgramTree.Proofs.SteadyBuilding

/-!
# Sessions

What is built up from the empty program through the interface.  The interface never writes
a node or a field of one at will, so some facts hold of every program that is built.
-/

namespace ProgramTree

open Program Edit

/-- An edit that is put together from calls of the interface.  What is not listed here, such
as a temporary or a field of a class, is made by several of these calls. -/
inductive Client : {α : Type} → Edit α → Prop where
  | pure {α : Type} (answer : α) : Client (pure answer)
  | bind {α β : Type} {edit : Edit α} {next : α → Edit β} (first : Client edit)
      (second : ∀ answer, Client (next answer)) : Client (edit >>= next)
  | get : Client get
  | look {α : Type} (query : Program → Except Fault α) : Client (Edit.look query)
  /-- The settings and what new nodes are attributed to can be changed at will. -/
  | frame (change : Program → Program) (nodes : ∀ program, (change program).nodes = program.nodes)
      (roots : ∀ program, (change program).roots = program.roots)
      (index : ∀ program, (change program).index = program.index) : Client (modify change)
  | newSymbol (name : String) (type? : Option NodeId) (kind : SymbolKind) :
      Client (Edit.newSymbol name type? kind)
  | newFn (name : String) (formals : List NodeId) (body : NodeId) (retType? : Option NodeId) :
      Client (Edit.newFn name formals body retType?)
  | newModule (name : String) (tag : ModuleTag) (stmts : List NodeId) :
      Client (Edit.newModule name tag stmts)
  | newNamedType (name : String) (kind : TypeKind) : Client (Edit.newNamedType name kind)
  | newUse (var : NodeId) : Client (Edit.newUse var)
  | newDefinition (sym : NodeId) (init? declaredType? : Option NodeId) :
      Client (Edit.newDefinition sym init? declaredType?)
  | newCall (callee : NodeId) (args : List NodeId) : Client (Edit.newCall callee args)
  | newPrimitiveCall (operation : Primitive) (args : List NodeId) :
      Client (Edit.newPrimitiveCall operation args)
  | newCast (toType? : Option NodeId) (expr : NodeId) : Client (Edit.newCast toType? expr)
  | newNamed (name : String) (actual : NodeId) : Client (Edit.newNamed name actual)
  | newImport (module? : Option NodeId) : Client (Edit.newImport module?)
  | newLiteral (value : Literal) : Client (Edit.newLiteral value)
  | newList (holds : ListCategory) (elements : List NodeId) : Client (Edit.newList holds elements)
  | newBlock (stmts : List NodeId) : Client (Edit.newBlock stmts)
  | newExprStmt (expr : NodeId) : Client (Edit.newExprStmt expr)
  | newReturn (value? : Option NodeId) : Client (Edit.newReturn value?)
  | newForLoop (indices iterators : List NodeId) (body : NodeId) (orderIndependent : Bool) :
      Client (Edit.newForLoop indices iterators body orderIndependent)
  | newCond (condition thenStmt : NodeId) (elseStmt? : Option NodeId) :
      Client (Edit.newCond condition thenStmt elseStmt?)
  | newWhen (cases : List NodeId) (body : NodeId) : Client (Edit.newWhen cases body)
  | newSelect (subject : NodeId) (whens : List NodeId) : Client (Edit.newSelect subject whens)
  | newLabelStmt (name : String) (stmt : NodeId) : Client (Edit.newLabelStmt name stmt)
  | newGoto (label? : Option NodeId) : Client (Edit.newGoto label?)
  | addFlag (id : NodeId) (flag : Flag) : Client (Edit.addFlag id flag)
  | addPragma (id : NodeId) (pragma : String) : Client (Edit.addPragma id pragma)
  | setUsedSymbol (id var : NodeId) : Client (Edit.setUsedSymbol id var)
  | duplicateWith (id : NodeId) (table : Remap) (updated : List NodeId) (inner : Bool) :
      Client (Edit.duplicateWith id table updated inner)
  | remove (id : NodeId) : Client (Edit.remove id)
  | replace (old new : NodeId) : Client (Edit.replace old new)
  | insertBeside (side : Side) (anchor new : NodeId) : Client (Edit.insertBeside side anchor new)
  | insertAtEnd (listEnd : ListEnd) (list new : NodeId) :
      Client (Edit.insertAtEnd listEnd list new)
  | addModule (module : NodeId) : Client (Edit.addModule module)

/-- A client makes the program out of the empty one. -/
def Built (program : Program) : Prop :=
  ∃ (settings : Settings) (α : Type) (edit : Edit α) (answer : α),
    Client edit ∧ Yields edit (Program.empty settings) answer program

namespace Program

/-! ## Roots are modules -/

/-- Every root is a module. -/
def ModuleRoots (program : Program) : Prop :=
  ∀ root ∈ program.roots, (program.kindAt root).any Kind.isModule

theorem moduleRoots_push {program : Program} {kind : Kind} (modules : ModuleRoots program) :
    ModuleRoots (program.push kind) := by
  intro root isRoot
  have isModule := modules root isRoot
  rw [kindAt, get?_push, if_neg, ← kindAt]
  · exact isModule
  · rintro rfl
    simp [kindAt, get?_nextId] at isModule

theorem moduleRoots_modifyNode {program : Program} {id : NodeId} {change : Node → Node}
    (same : ∀ node, program.get? id = some node → (change node).kind.isModule = node.kind.isModule)
    (modules : ModuleRoots program) : ModuleRoots (program.modifyNode id change) := by
  intro root isRoot
  rw [roots_modifyNode] at isRoot
  have isModule := modules root isRoot
  by_cases isChanged : id = root
  · subst isChanged
    obtain ⟨kind, known, holds⟩ := (Option.any_eq_true _ _).mp isModule
    obtain ⟨node, found, rfl⟩ := get?_of_kindAt known
    rw [kindAt, get?_modifyNode, if_pos rfl, found]
    simpa [same node found] using holds
  · rwa [kindAt, get?_modifyNode_of_ne isChanged, ← kindAt]

theorem steady_moduleRoots : Steady ModuleRoots where
  push _ := moduleRoots_push
  modifyNode same := moduleRoots_modifyNode fun node found => (same node found).isModule
  frame := by
    intro before after modules nodes roots root isRoot
    have isModule := modules root (roots root isRoot)
    rwa [kindAt, get?, ← nodes, ← get?, ← kindAt] at isModule

namespace ModuleRoots

variable {id sym : NodeId} {id? : Option NodeId}

theorem newNode {kind : Kind} : Maintains ModuleRoots (Edit.newNode kind) fun _ => True := by
  intro before answer after modules run
  obtain ⟨_, rfl⟩ := yields_newNode.mp run
  exact ⟨moduleRoots_push modules, trivial⟩

theorem change {f : Node → Node} (same : ∀ node : Node, (f node).kind.isModule = node.kind.isModule) :
    Maintains ModuleRoots (Edit.change id f) fun _ => True := by
  intro before answer after modules run
  obtain ⟨_, rfl⟩ := yields_change.mp run
  exact ⟨moduleRoots_modifyNode (fun node _ => same node) modules, trivial⟩

theorem newDefinition {declaredType? : Option NodeId} :
    Maintains ModuleRoots (Edit.newDefinition sym id? declaredType?) fun _ => True := by
  have steady := steady_moduleRoots
  have defining : ∀ definition, Maintains ModuleRoots
      (changeSymbol sym fun symbol => { symbol with defPoint? := some definition })
      fun _ => True := by
    intro definition before answer after modules run
    simp only [changeSymbol, setKind, yields_bind, yields_look, yields_change, symbol_eq_ok] at run
    obtain ⟨symbol, origin, ⟨known, rfl⟩, _, rfl⟩ := run
    refine ⟨moduleRoots_modifyNode (fun node found => ?_) modules, trivial⟩
    rw [kindAt_eq found, Option.some.injEq] at known
    rw [known]
    rfl
  have defined : Maintains ModuleRoots (do
      let init? ← Edit.asOperand? id?
      let declaredType? ← Edit.asOperand? declaredType?
      let definition ←
        withLocationOf sym (Edit.newNode (.expr (.definition sym init? declaredType?)))
      adopt definition (sym :: init?.toList ++ declaredType?.toList)
      changeSymbol sym fun symbol => { symbol with defPoint? := some definition }
      return definition) fun _ => True := by
    refine steady.asOperand?.bind fun init? _ => steady.asOperand?.bind fun declaredType? _ => ?_
    refine (steady.withLocationOf (steady.newNode rfl)).bind fun definition _ => ?_
    refine steady.adopt.bind fun _ _ => (defining definition).bind fun _ _ => ?_
    exact .pure trivial
  refine Maintains.look_any.bind fun isSymbol _ => ?_
  exact .ite (fun _ => Maintains.fail_bind) fun _ => defined

theorem define : Maintains ModuleRoots (Edit.define sym) fun _ => True :=
  newDefinition

theorem newFn {name : String} {formals : List NodeId} {body : NodeId} :
    Maintains ModuleRoots (Edit.newFn name formals body id?) fun _ => True := by
  have steady := steady_moduleRoots
  refine (Maintains.mapM fun _ _ => define).bind fun definitions _ => ?_
  refine steady.newList.bind fun formals _ => steady.asBlock.bind fun body _ => ?_
  refine steady.newSymbol.bind fun fn _ => steady.adopt.bind fun _ _ => ?_
  exact .pure trivial

theorem newLabelStmt {name : String} :
    Maintains ModuleRoots (Edit.newLabelStmt name id) fun _ => True := by
  have steady := steady_moduleRoots
  refine steady.newSymbol.bind fun label _ => define.bind fun definition _ => ?_
  exact steady.asStmt.bind fun _ _ => steady.newHolder rfl

theorem duplicateNode {table : Remap} :
    Maintains ModuleRoots (Edit.duplicateNode id table) fun _ => True := by
  have steady := steady_moduleRoots
  refine Maintains.look_any.bind fun source _ => newNode.bind fun duplicate _ => ?_
  refine Maintains.look_any.bind fun children _ => ?_
  refine Maintains.bind (Maintains.forM fun child _ => steady.setParent) fun _ _ => ?_
  have carried : Maintains ModuleRoots (carryOver source duplicate) fun _ => True :=
    Maintains.get.bind fun _ _ => steady.change fun _ => .refl _
  exact carried.bind fun _ _ => .pure trivial

theorem duplicateWithin {depth : Nat} {table : Remap} :
    Maintains ModuleRoots (Edit.duplicateWithin depth table id) fun _ => True := by
  induction depth generalizing table id with
  | zero => exact .throw
  | succ depth ih =>
    refine .ite (fun _ => .pure trivial) fun _ => ?_
    refine Maintains.look_any.bind fun children _ => ?_
    refine Maintains.bind (Maintains.foldlM trivial fun table child _ _ => ih) fun table _ => ?_
    exact duplicateNode

theorem duplicateWith {table : Remap} {updated : List NodeId} {inner : Bool} :
    Maintains ModuleRoots (Edit.duplicateWith id table updated inner) fun _ => True := by
  rw [Edit.duplicateWith]
  cases table[id]? with
  | some duplicate => exact .pure trivial
  | none =>
    refine Maintains.get.bind fun _ _ => duplicateWithin.bind fun table _ => ?_
    refine .ite (fun _ => .pure trivial) fun _ => ?_
    have redirected : Maintains ModuleRoots (redirectLinks table (table.apply id)) fun _ => True := by
      refine Maintains.look_any.bind fun nodes _ => Maintains.forM fun node _ => ?_
      exact change fun node => Kind.isModule_mapLinks node.kind
    exact redirected.bind fun _ _ => .pure trivial

theorem addModule : Maintains ModuleRoots (Edit.addModule id) fun _ => True := by
  intro before answer after modules run
  simp only [Edit.addModule, yields_bind, yields_look, kindOf_eq_ok, yields_ite, yields_fail,
    yields_checkInsertable, yields_modify] at run
  obtain ⟨kind, _, ⟨known, rfl⟩, ⟨_, _, _, never, _⟩ | ⟨isModule, run⟩⟩ := run
  · exact never.elim
  · obtain ⟨_, start, ⟨rfl, _, _, _⟩, _, _, rfl, attaching⟩ := run
    refine steady_moduleRoots.attach _ _ _ ?_ attaching
    intro root isRoot
    change (start.kindAt root).any Kind.isModule
    rcases Array.mem_push.mp isRoot with earlier | rfl
    · exact modules root earlier
    · simpa [known] using isModule

end ModuleRoots

/-- A client adds modules as roots, and nothing else. -/
theorem moduleRoots_of_client {α : Type} {edit : Edit α} (client : Client edit) :
    Maintains ModuleRoots edit fun _ => True := by
  have steady := steady_moduleRoots
  induction client with
  | pure answer => exact .pure trivial
  | bind _ _ ihFirst ihSecond => exact ihFirst.bind fun answer _ => ihSecond answer
  | get => exact .get
  | look query => exact .look_any
  | frame change nodes roots index =>
    intro before answer after modules run
    rw [yields_modify.mp run]
    exact ⟨steady.frame modules (nodes before) fun root isRoot => roots before ▸ isRoot, trivial⟩
  | newSymbol name type? kind => exact steady.newSymbol
  | newFn name formals body retType? => exact ModuleRoots.newFn
  | newModule name tag stmts => exact steady.newModule
  | newNamedType name kind => exact steady.newNamedType
  | newUse var => exact steady.newNode rfl
  | newDefinition sym init? declaredType? => exact ModuleRoots.newDefinition
  | newCall callee args => exact steady.newCall
  | newPrimitiveCall operation args => exact steady.newPrimitiveCall
  | newCast toType? expr => exact steady.newCast
  | newNamed name actual => exact steady.newNamed
  | newImport module? => exact steady.newNode rfl
  | newLiteral value => exact steady.newNode rfl
  | newList holds elements => exact steady.newList
  | newBlock stmts => exact steady.newBlock
  | newExprStmt expr => exact steady.newExprStmt
  | newReturn value? => exact steady.newReturn
  | newForLoop indices iterators body orderIndependent => exact steady.newForLoop
  | newCond condition thenStmt elseStmt? => exact steady.newCond
  | newWhen cases body => exact steady.newWhen
  | newSelect subject whens => exact steady.newSelect
  | newLabelStmt name stmt => exact ModuleRoots.newLabelStmt
  | newGoto label? => exact steady.newNode rfl
  | addFlag id flag => exact steady.addFlag
  | addPragma id pragma => exact steady.addPragma
  | setUsedSymbol id var => exact steady.setUsedSymbol
  | duplicateWith id table updated inner => exact ModuleRoots.duplicateWith
  | remove id => exact steady.remove
  | replace old new => exact steady.replace
  | insertBeside side anchor new => exact steady.insertBeside
  | insertAtEnd listEnd list new => exact steady.insertAtEnd
  | addModule module => exact ModuleRoots.addModule

theorem Built.moduleRoots {program : Program} (built : Built program) : ModuleRoots program := by
  obtain ⟨settings, _, edit, answer, client, run⟩ := built
  exact (moduleRoots_of_client client _ answer _ (by simp [ModuleRoots, empty]) run).1

end Program

end ProgramTree
