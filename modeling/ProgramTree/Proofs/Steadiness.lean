import ProgramTree.Edit.Placement
import ProgramTree.Proofs.Slots
import ProgramTree.Proofs.Views

/-!
# What moving nodes around leaves alone

Removal, replacement and insertion change where nodes hang, but not what they are.  A
property that does not look at slots, parents, contexts and the index is therefore kept
by each of them.
-/

namespace ProgramTree

open Program

/-- The definition point of a symbol. -/
def Kind.definition? (kind : Kind) : Option NodeId :=
  kind.symbol?.bind Symbol.defPoint?

/-- The symbol that names a type. -/
def Kind.naming? (kind : Kind) : Option NodeId :=
  kind.type?.bind TypeNode.symbol?

/-- The kinds agree up to what a node holds and refers to, definition points and the
names of types excepted. -/
structure Kind.SameForm (before after : Kind) : Prop where
  isSymbol : after.isSymbol = before.isSymbol
  isExpr : after.isExpr = before.isExpr
  isModule : after.isModule = before.isModule
  definition : after.definition? = before.definition?
  naming : ∀ {naming}, before.naming? = some naming → after.naming? = some naming

namespace Kind

theorem SameForm.refl (kind : Kind) : kind.SameForm kind :=
  ⟨rfl, rfl, rfl, rfl, id⟩

theorem SameForm.trans {first second third : Kind} (left : first.SameForm second)
    (right : second.SameForm third) : first.SameForm third :=
  ⟨right.isSymbol.trans left.isSymbol, right.isExpr.trans left.isExpr,
    right.isModule.trans left.isModule, right.definition.trans left.definition,
    fun named => right.naming (left.naming named)⟩

theorem sameForm_withSlots (kind : Kind) (slots : List Slot) :
    kind.SameForm (kind.withSlots slots) := by
  cases kind with
  | symbol symbol => exact ⟨rfl, rfl, SymbolKind.isModule_withSlots symbol, rfl, nofun⟩
  | _ => exact ⟨rfl, rfl, rfl, rfl, id⟩

theorem sameForm_rebind {kind rebound : Kind} {old : NodeId} {new? : Option NodeId}
    (done : kind.rebind old new? = .done rebound) : kind.SameForm rebound := by
  rw [rebind] at done
  cases result : Slot.rebind old new? kind.slots with
  | done slots =>
    rw [result] at done
    cases done
    exact kind.sameForm_withSlots slots
  | missing => simp [result, Rebinding.map] at done
  | required => simp [result, Rebinding.map] at done

theorem sameForm_mapElements (kind : Kind) (f : Array NodeId → Array NodeId) :
    kind.SameForm (kind.mapElements f) := by
  cases kind <;> exact ⟨rfl, rfl, rfl, rfl, id⟩

end Kind

/-- The property does not look at where nodes hang. -/
structure Steady (kept : Program → Prop) : Prop where
  push : ∀ {program kind}, kind.definition? = none → kept program → kept (program.push kind)
  modifyNode : ∀ {program : Program} {id : NodeId} {change : Node → Node},
    (∀ node, program.get? id = some node → node.kind.SameForm (change node).kind) →
    kept program → kept (program.modifyNode id change)
  frame : ∀ {before after : Program}, kept before → after.nodes = before.nodes →
    (∀ root ∈ after.roots, root ∈ before.roots) → kept after

/-- A node that is there stays, and keeps its form. -/
theorem steady_form (id : NodeId) (form : Kind) :
    Steady fun program => ∃ kind, program.kindAt id = some kind ∧ form.SameForm kind where
  push := by
    intro program kind _ ⟨known, isKind, same⟩
    refine ⟨known, ?_, same⟩
    rw [kindAt, get?_push, if_neg, ← kindAt, isKind]
    rintro rfl
    simp [kindAt, get?_nextId] at isKind
  modifyNode := by
    intro program changed change sameForm ⟨known, isKind, same⟩
    obtain ⟨node, found, rfl⟩ := get?_of_kindAt isKind
    by_cases isChanged : changed = id
    · subst isChanged
      refine ⟨(change node).kind, ?_, same.trans (sameForm node found)⟩
      rw [kindAt, get?_modifyNode, if_pos rfl, found, Option.map_some, Option.map_some]
    · refine ⟨node.kind, ?_, same⟩
      rw [kindAt, get?_modifyNode_of_ne isChanged, ← kindAt, isKind]
  frame := by
    intro before after ⟨known, isKind, same⟩ nodes _
    refine ⟨known, ?_, same⟩
    rw [← isKind, kindAt, kindAt, get?, get?, nodes]

namespace Steady

open Edit

variable {kept : Program → Prop} (steady : Steady kept) {id parent old new list : NodeId}
  {α : Type}
include steady

theorem change {f : Node → Node} (same : ∀ node : Node, node.kind.SameForm (f node).kind) :
    Maintains kept (Edit.change id f) fun _ => True := by
  intro before answer after start run
  obtain ⟨_, rfl⟩ := yields_change.mp run
  exact ⟨steady.modifyNode (fun node _ => same node) start, trivial⟩

theorem modify_index {f : Program → LiveIndex} :
    Maintains kept (modify fun program : Program => { program with index := f program })
      fun _ => True := by
  intro before answer after start run
  rw [yields_modify.mp run]
  exact ⟨steady.frame start rfl fun _ root => root, trivial⟩

theorem newNode {kind : Kind} (undefined : kind.definition? = none) :
    Maintains kept (Edit.newNode kind) fun _ => True := by
  intro before answer after start run
  obtain ⟨_, rfl⟩ := yields_newNode.mp run
  exact ⟨steady.push undefined start, trivial⟩

theorem setParent {parent? : Option NodeId} : Maintains kept (Edit.setParent id parent?) fun _ => True :=
  steady.change fun _ => .refl _

/-! ## Attribution -/

theorem withLocation {location : Location} {edit : Edit α} {expected : α → Prop}
    (inner : Maintains kept edit expected) :
    Maintains kept (Edit.withLocation location edit) expected := by
  intro before answer after start run
  simp only [Edit.withLocation, yields_bind, yields_get, yields_modify, yields_pure] at run
  obtain ⟨_, origin, ⟨rfl, rfl⟩, _, _, rfl, given, middle, run, _, _, rfl, rfl, rfl⟩ := run
  have entered : kept { origin with givenLocation? := some location } :=
    steady.frame start rfl fun _ root => root
  obtain ⟨keptMiddle, holds⟩ := inner _ _ _ entered run
  exact ⟨steady.frame keptMiddle rfl fun _ root => root, holds⟩

theorem withLocationOf {edit : Edit α} {expected : α → Prop}
    (inner : Maintains kept edit expected) :
    Maintains kept (Edit.withLocationOf id edit) expected :=
  Maintains.look_any.bind fun _ _ => steady.withLocation inner

/-! ## Attachment -/

theorem setContext {context : Context} :
    Maintains kept (Edit.change id fun node => { node with context }) fun _ => True :=
  steady.change fun _ => .refl _

theorem place {context : Context} : Maintains kept (Edit.place id context) fun _ => True := by
  refine steady.setContext.bind fun _ _ => ?_
  refine Maintains.look_any.bind fun kind _ => Maintains.look_any.bind fun placed _ => ?_
  have answer : Maintains kept (do return (kind.owned, ← look (·.childContext id)))
      fun _ => True :=
    Maintains.look_any.bind fun _ _ => .pure trivial
  cases placed with
  | false => exact answer
  | true => exact steady.modify_index.bind fun _ _ => answer

theorem attach {context : Context} : Maintains kept (Edit.attach id context) fun _ => True := by
  have within : ∀ depth id context,
      Maintains kept (Edit.attachWithin depth id context) fun _ => True := by
    intro depth
    induction depth with
    | zero => exact fun _ _ => .throw
    | succ depth ih =>
      intro id context
      refine steady.place.bind fun (children, inner) _ => ?_
      exact Maintains.forM fun child _ => ih child inner
  exact Maintains.get.bind fun _ _ => within _ _ _

theorem detach : Maintains kept (Edit.detach id) fun _ => True := by
  refine Maintains.look_any.bind fun nodes _ => Maintains.forM fun node _ => ?_
  exact steady.setContext.bind fun _ _ => steady.modify_index

/-! ## Removal and replacement -/

theorem changeElements {f : Array NodeId → Array NodeId} :
    Maintains kept (Edit.changeElements list f) fun _ => True :=
  Maintains.look_any.bind fun _ _ =>
    steady.change fun node => node.kind.sameForm_mapElements f

theorem rebindSlot {new? : Option NodeId} :
    Maintains kept (Edit.rebindSlot parent old new?) fun _ => True := by
  intro before answer after start run
  simp only [Edit.rebindSlot, yields_bind, yields_look, kindOf_eq_ok, yields_ite, yields_fail] at run
  obtain ⟨kind, origin, ⟨known, rfl⟩, ⟨_, _, _, never, _⟩ | ⟨_, run⟩⟩ := run
  · exact never.elim
  cases rebound : kind.rebind old new? with
  | missing =>
    simp only [rebound, yields_bind, yields_fail] at run
    obtain ⟨_, _, never, _⟩ := run
    exact never.elim
  | required =>
    simp only [rebound, yields_bind, yields_fail] at run
    obtain ⟨_, _, never, _⟩ := run
    exact never.elim
  | done changed =>
    simp only [rebound, yields_bind, setKind, yields_change] at run
    obtain ⟨_, _, ⟨_, rfl⟩, _, _, released, run⟩ := run
    have sameForm : ∀ node, origin.get? parent = some node → node.kind.SameForm changed := by
      intro node found
      rw [kindAt_eq found, Option.some.injEq] at known
      exact known ▸ Kind.sameForm_rebind rebound
    have keptReleased := (steady.setParent _ _ _ (steady.modifyNode sameForm start) released).1
    cases new? with
    | none =>
      obtain ⟨_, rfl⟩ := yields_pure.mp run
      exact ⟨keptReleased, trivial⟩
    | some new => exact steady.setParent _ _ _ keptReleased run

theorem remove : Maintains kept (Edit.remove id) fun _ => True := by
  have detached : Maintains kept (do Edit.detach id; return id) fun _ => True :=
    steady.detach.bind fun _ _ => .pure trivial
  refine Maintains.look_any.bind fun node _ => ?_
  cases node.parent? with
  | none =>
    have unrooted : Maintains kept
        (modify fun program : Program =>
          { program with roots := program.roots.filter (· ≠ id) }) fun _ => True := by
      intro before answer after start run
      rw [yields_modify.mp run]
      refine ⟨steady.frame start rfl fun root isRoot => ?_, trivial⟩
      exact (Array.mem_filter.mp isRoot).1
    exact unrooted.bind fun _ _ => detached
  | some parent =>
    refine Maintains.look_any.bind fun isList _ => ?_
    cases isList with
    | true =>
      refine Maintains.look_any.bind fun position _ => ?_
      refine steady.changeElements.bind fun _ _ => ?_
      exact steady.setParent.bind fun _ _ => detached
    | false => exact steady.rebindSlot.bind fun _ _ => detached

omit steady in
theorem checkInsertable : Maintains kept (Edit.checkInsertable new) fun _ => True := by
  refine Maintains.look_any.bind fun node _ => Maintains.look_any.bind fun placed _ => ?_
  refine .ite (fun _ => Maintains.fail_bind) fun _ => ?_
  cases node.parent? with
  | none => exact .pure trivial
  | some parent => exact Maintains.look_any.bind fun _ _ => .ite (fun _ => .fail) fun _ => .fail

theorem replace : Maintains kept (Edit.replace old new) fun _ => True := by
  refine checkInsertable.bind fun _ _ => Maintains.look_any.bind fun node _ => ?_
  have finished : Maintains kept (do Edit.detach old; Edit.attach new node.context; return new)
      fun _ => True :=
    steady.detach.bind fun _ _ => steady.attach.bind fun _ _ => .pure trivial
  cases node.parent? with
  | none => exact .fail
  | some parent =>
    refine Maintains.look_any.bind fun isList _ => ?_
    cases isList with
    | true =>
      refine Maintains.look_any.bind fun position _ => ?_
      refine steady.changeElements.bind fun _ _ => ?_
      refine steady.setParent.bind fun _ _ => ?_
      exact steady.setParent.bind fun _ _ => finished
    | false => exact steady.rebindSlot.bind fun _ _ => finished

/-! ## Insertion -/

theorem adopt {children : List NodeId} : Maintains kept (Edit.adopt parent children) fun _ => True := by
  refine Maintains.forM fun child _ => ?_
  refine Maintains.look_any.bind fun node _ => Maintains.look_any.bind fun placed _ => ?_
  exact .ite (fun _ => Maintains.fail_bind) fun _ => steady.setParent

theorem newExprStmt : Maintains kept (Edit.newExprStmt id) fun _ => True := by
  refine (steady.withLocationOf (steady.newNode rfl)).bind fun stmt _ => ?_
  exact steady.adopt.bind fun _ _ => .pure trivial

theorem asStmt : Maintains kept (Edit.asStmt id) fun _ => True :=
  Maintains.look_any.bind fun _ _ => .ite (fun _ => steady.newExprStmt) fun _ => .pure trivial

theorem asElement {holds : ListCategory} : Maintains kept (Edit.asElement holds id) fun _ => True := by
  cases holds with
  | stmts => exact steady.asStmt
  | exprs | defs => exact .pure trivial

theorem insertElement {position : Nat} :
    Maintains kept (Edit.insertElement list position new) fun _ => True := by
  refine Maintains.look_any.bind ?_
  rintro ⟨holds, elements⟩ _
  refine steady.asElement.bind fun linked _ => ?_
  have inserted : Maintains kept (do
      Edit.changeElements list (·.insertIdxIfInBounds position linked)
      Edit.setParent linked (some list)
      Edit.attach linked (← look (·.childContext list))
      return linked) fun _ => True := by
    refine steady.changeElements.bind fun _ _ => steady.setParent.bind fun _ _ => ?_
    refine Maintains.look_any.bind fun _ _ => steady.attach.bind fun _ _ => ?_
    exact .pure trivial
  exact .ite (fun _ => Maintains.throw_bind) fun _ => inserted

theorem splice {position : Nat} : Maintains kept (Edit.splice list position new) fun _ => True := by
  have within : ∀ depth position new,
      Maintains kept (Edit.spliceWithin depth list position new) fun _ => True := by
    intro depth
    induction depth with
    | zero => exact fun _ _ => .throw
    | succ depth ih =>
      intro position new
      refine checkInsertable.bind fun _ _ => Maintains.look_any.bind fun isList _ => ?_
      cases isList with
      | true =>
        refine Maintains.look_any.bind fun elements _ => steady.changeElements.bind fun _ _ => ?_
        refine Maintains.bind (Maintains.forM fun item _ => ?_) fun _ _ => .pure trivial
        refine steady.setParent.bind fun _ _ => ?_
        exact (ih _ _).bind fun _ _ => .pure trivial
      | false => exact steady.insertElement
  exact Maintains.get.bind fun _ _ => within _ _ _

theorem insertBeside {side : Side} {anchor : NodeId} :
    Maintains kept (Edit.insertBeside side anchor new) fun _ => True := by
  refine Maintains.look_any.bind fun (list, position) _ => ?_
  cases side with
  | before => exact steady.splice
  | after => exact steady.splice

theorem insertAtEnd {listEnd : ListEnd} :
    Maintains kept (Edit.insertAtEnd listEnd list new) fun _ => True := by
  refine Maintains.look_any.bind fun kind _ => ?_
  cases kind with
  | list holds elements =>
    cases listEnd with
    | head => exact steady.splice
    | tail => exact steady.splice
  | _ => exact .fail

end Steady

end ProgramTree
