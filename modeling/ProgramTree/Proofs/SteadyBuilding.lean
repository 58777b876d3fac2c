import ProgramTree.Edit.Declaring
import ProgramTree.Proofs.Growth
import ProgramTree.Proofs.Steadiness

/-!
# What builders leave alone

Builders add nodes and hang existing ones below them.  Those that define symbols also
write definition points, so for them a steady property has to allow that as well.
-/

namespace ProgramTree

open Program Edit

namespace Steady

variable {kept : Program → Prop} (steady : Steady kept) {id : NodeId} {id? : Option NodeId}
  {ids : List NodeId}
include steady

theorem newHolder {kind : Kind} (undefined : kind.definition? = none) :
    Maintains kept (Edit.newHolder kind ids) fun _ => True :=
  (steady.newNode undefined).bind fun _ _ => steady.adopt.bind fun _ _ => .pure trivial

/-! ## Operands and lists -/

theorem asOperand : Maintains kept (Edit.asOperand id) fun _ => True :=
  Maintains.look_any.bind fun _ _ => .ite (fun _ => steady.newNode rfl) fun _ => .pure trivial

theorem asOperand? : Maintains kept (Edit.asOperand? id?) fun _ => True := by
  cases id? with
  | none => exact .pure trivial
  | some id => exact steady.asOperand.bind fun _ _ => .pure trivial

theorem asStmt? : Maintains kept (Edit.asStmt? id?) fun _ => True := by
  cases id? with
  | none => exact .pure trivial
  | some id => exact steady.asStmt.bind fun _ _ => .pure trivial

theorem newList {holds : ListCategory} : Maintains kept (Edit.newList holds ids) fun _ => True :=
  (Maintains.mapM fun _ _ => steady.asElement).bind fun _ _ => steady.newHolder rfl

theorem newOperands : Maintains kept (Edit.newOperands ids) fun _ => True :=
  (Maintains.mapM fun _ _ => steady.asOperand).bind fun _ _ => steady.newList

theorem newBlock : Maintains kept (Edit.newBlock ids) fun _ => True :=
  steady.newList.bind fun _ _ => steady.newHolder rfl

theorem asBlock : Maintains kept (Edit.asBlock id) fun _ => True := by
  refine Maintains.look_any.bind fun kind _ => ?_
  split
  · exact .pure trivial
  · exact steady.newBlock

/-! ## Expressions -/

theorem newCall : Maintains kept (Edit.newCall id ids) fun _ => True :=
  steady.asOperand.bind fun _ _ => steady.newOperands.bind fun _ _ => steady.newHolder rfl

theorem newPrimitiveCall {operation : Primitive} :
    Maintains kept (Edit.newPrimitiveCall operation ids) fun _ => True :=
  steady.newOperands.bind fun _ _ => steady.newHolder rfl

theorem newCast : Maintains kept (Edit.newCast id? id) fun _ => True :=
  steady.asOperand.bind fun _ _ => steady.newHolder rfl

theorem newNamed {name : String} : Maintains kept (Edit.newNamed name id) fun _ => True :=
  steady.asOperand.bind fun _ _ => steady.newHolder rfl

/-! ## Statements -/

theorem newReturn : Maintains kept (Edit.newReturn id?) fun _ => True :=
  steady.asOperand?.bind fun _ _ => steady.newHolder rfl

theorem newForLoop {indices iterators : List NodeId} {orderIndependent : Bool} :
    Maintains kept (Edit.newForLoop indices iterators id orderIndependent) fun _ => True := by
  refine (Maintains.mapM fun _ _ => steady.asOperand).bind fun _ _ => ?_
  refine (Maintains.mapM fun _ _ => steady.asOperand).bind fun _ _ => ?_
  refine steady.newList.bind fun _ _ => steady.newList.bind fun _ _ => ?_
  exact steady.asBlock.bind fun _ _ => steady.newHolder rfl

theorem newCond {condition : NodeId} :
    Maintains kept (Edit.newCond condition id id?) fun _ => True := by
  refine steady.asOperand.bind fun _ _ => steady.asStmt.bind fun _ _ => ?_
  exact steady.asStmt?.bind fun _ _ => steady.newHolder rfl

theorem newWhen : Maintains kept (Edit.newWhen ids id) fun _ => True :=
  steady.newList.bind fun _ _ => steady.asBlock.bind fun _ _ => steady.newHolder rfl

theorem newSelect : Maintains kept (Edit.newSelect id ids) fun _ => True :=
  steady.asOperand.bind fun _ _ => steady.newList.bind fun _ _ => steady.newHolder rfl

/-! ## Symbols and types -/

theorem newSymbol {name : String} {kind : SymbolKind} :
    Maintains kept (Edit.newSymbol name id? kind) fun _ => True :=
  steady.newNode rfl

theorem changeSymbol {f : Symbol → Symbol}
    (same : ∀ symbol, (Kind.symbol symbol).SameForm (.symbol (f symbol))) :
    Maintains kept (Edit.changeSymbol id f) fun _ => True := by
  intro before answer after start run
  simp only [Edit.changeSymbol, setKind, yields_bind, yields_look, yields_change,
    symbol_eq_ok] at run
  obtain ⟨symbol, origin, ⟨known, rfl⟩, _, rfl⟩ := run
  refine ⟨steady.modifyNode ?_ start, trivial⟩
  intro node found
  rw [kindAt_eq found, Option.some.injEq] at known
  rw [known]
  exact same symbol

theorem addFlag {flag : Flag} : Maintains kept (Edit.addFlag id flag) fun _ => True :=
  steady.changeSymbol fun _ => ⟨rfl, rfl, rfl, rfl, by rintro _ ⟨⟩⟩

theorem newTemp {name : String} : Maintains kept (Edit.newTemp name id?) fun _ => True :=
  steady.newSymbol.bind fun _ _ => steady.addFlag.bind fun _ _ => .pure trivial

theorem setUsedSymbol {var : NodeId} : Maintains kept (Edit.setUsedSymbol id var) fun _ => True := by
  intro before answer after start run
  rw [Edit.setUsedSymbol, yields_bind] at run
  obtain ⟨kind, origin, found, run⟩ := run
  obtain ⟨known, rfl⟩ := yields_look.mp found
  rw [kindOf_eq_ok] at known
  split at run
  · rw [setKind, yields_change] at run
    obtain ⟨_, rfl⟩ := run
    refine ⟨steady.modifyNode ?_ start, trivial⟩
    intro node found
    rw [kindAt_eq found, Option.some.injEq] at known
    rw [known]
    exact ⟨rfl, rfl, rfl, rfl, by rintro _ ⟨⟩⟩
  · exact (yields_fail run).elim

theorem addPragma {pragma : String} : Maintains kept (Edit.addPragma id pragma) fun _ => True :=
  Maintains.look_any.bind fun _ _ => steady.change fun _ => .refl _

theorem newNamedType {name : String} {kind : TypeKind} :
    Maintains kept (Edit.newNamedType name kind) fun _ => True := by
  intro before answer after start run
  simp only [Edit.newNamedType, yields_bind, yields_pure] at run
  obtain ⟨type, grown, growing, naming, named, symbol, _, held, adopting, _, _, writing, rfl, rfl⟩ :=
    run
  obtain ⟨keptGrown, _⟩ := steady.newHolder rfl _ _ _ start growing
  obtain ⟨keptNamed, _⟩ := steady.newSymbol _ _ _ keptGrown symbol
  obtain ⟨keptHeld, _⟩ := steady.adopt _ _ _ keptNamed adopting
  obtain ⟨_, rfl⟩ := yields_change.mp writing
  -- until its symbol is entered, the node is the type that was made
  have isType : held.kindAt answer = some (.type { kind }) := by
    obtain ⟨fresh, pushed, pushing, adoption⟩ := yields_bind.mp growing
    obtain ⟨_, adopted, taking, same⟩ := yields_bind.mp adoption
    obtain ⟨rfl, rfl⟩ := yields_newNode.mp pushing
    obtain ⟨rfl, rfl⟩ := yields_pure.mp same
    obtain ⟨rfl, rfl⟩ := yields_newNode.mp symbol
    have isGrown : grown.kindAt before.nextId = some (.type { kind }) := by
      rw [(Edit.adopted taking).kindAt, pushed_push.kindAt]
    rw [(Edit.adopted adopting).kindAt, kindAt, get?_push, if_neg, ← kindAt, isGrown]
    rintro same
    simp [same, kindAt, get?_nextId] at isGrown
  refine ⟨steady.modifyNode (fun node found => ?_) keptHeld, trivial⟩
  rw [kindAt_eq found, Option.some.injEq] at isType
  rw [isType]
  exact ⟨rfl, rfl, rfl, rfl, by rintro _ ⟨⟩⟩

theorem newAggregateType {name : String} {tag : AggregateTag} :
    Maintains kept (Edit.newAggregateType name tag) fun _ => True :=
  steady.newList.bind fun _ _ => steady.newNamedType

theorem newModule {name : String} {tag : ModuleTag} :
    Maintains kept (Edit.newModule name tag ids) fun _ => True := by
  refine steady.newBlock.bind fun _ _ => steady.newSymbol.bind fun _ _ => ?_
  exact steady.adopt.bind fun _ _ => .pure trivial

end Steady

end ProgramTree
