import ProgramTree.Edit.Declaring
import ProgramTree.Outlining.GpuLoop
import ProgramTree.Proofs.Containment
import ProgramTree.Proofs.Growth
import ProgramTree.Proofs.Renaming

/-!
# Grafts

A copy takes over the nodes that its table was given for nodes of the subtree: they hang
in the copy afterwards.  Building never lets go of what hangs, and builds on nothing that
hangs, so such a node can neither be defined nor become a statement any more.
-/

namespace ProgramTree

open Program Edit

namespace Program

variable {before after program : Program} {id : NodeId}

/-- The node has a parent. -/
def Hangs (id : NodeId) (program : Program) : Prop :=
  (program.parentOf id).isSome

namespace Hangs

variable {kind : Kind} {ids : List NodeId} {sym parent graft : NodeId} {table : Remap} {depth : Nat}

/-! ## What hangs keeps hanging -/

theorem newNode : Maintains (Hangs id) (Edit.newNode kind) fun _ => True := by
  intro before answer after hangs run
  obtain ⟨_, rfl⟩ := yields_newNode.mp run
  refine ⟨?_, trivial⟩
  rwa [Hangs, parentOf, get?_push, if_neg, ← parentOf]
  rintro rfl
  simp [Hangs, parentOf, get?_nextId] at hangs

theorem change {f : Node → Node} (keeps : ∀ node, node.parent?.isSome → (f node).parent?.isSome) :
    Maintains (Hangs id) (Edit.change parent f) fun _ => True := by
  intro before answer after hangs run
  obtain ⟨_, rfl⟩ := yields_change.mp run
  obtain ⟨holder, named⟩ := Option.isSome_iff_exists.mp hangs
  obtain ⟨node, found, isHolder⟩ := get?_of_parentOf named
  refine ⟨?_, trivial⟩
  rw [Hangs, parentOf, get?_modifyNode]
  by_cases isId : parent = id
  · simpa [isId, found] using keeps node (by simp [isHolder])
  · simp [isId, found, isHolder]

theorem setKind : Maintains (Hangs id) (Edit.setKind parent kind) fun _ => True :=
  change fun _ hangs => hangs

theorem setParent {child : NodeId} :
    Maintains (Hangs id) (Edit.setParent child (some parent)) fun _ => True :=
  change fun _ _ => rfl

theorem adopt : Maintains (Hangs id) (Edit.adopt parent ids) fun _ => True := by
  refine Maintains.forM fun child _ => ?_
  refine Maintains.look_any.bind fun node _ => Maintains.look_any.bind fun placed _ => ?_
  exact .ite (fun _ => Maintains.fail_bind) fun _ => setParent

theorem withLocationOf {α : Type} {edit : Edit α} (inner : Maintains (Hangs id) edit fun _ => True) :
    Maintains (Hangs id) (Edit.withLocationOf parent edit) fun _ => True := by
  intro before answer after hangs run
  obtain ⟨node, middle, _, running, rfl⟩ := yields_withLocationOf.mp run
  have hangsEntered : Hangs id { before with givenLocation? := some node.location } := hangs
  exact ⟨(inner _ answer middle hangsEntered running).1, trivial⟩

theorem newHolder : Maintains (Hangs id) (Edit.newHolder kind ids) fun _ => True :=
  newNode.bind fun _ _ => adopt.bind fun _ _ => .pure trivial

theorem asOperand : Maintains (Hangs id) (Edit.asOperand sym) fun _ => True :=
  Maintains.look_any.bind fun _ _ => .ite (fun _ => newNode) fun _ => .pure trivial

theorem asOperand? {sym? : Option NodeId} :
    Maintains (Hangs id) (Edit.asOperand? sym?) fun _ => True := by
  cases sym? with
  | none => exact .pure trivial
  | some sym => exact asOperand.bind fun _ _ => .pure trivial

theorem newExprStmt : Maintains (Hangs id) (Edit.newExprStmt sym) fun _ => True :=
  (withLocationOf newNode).bind fun _ _ => adopt.bind fun _ _ => .pure trivial

theorem asStmt : Maintains (Hangs id) (Edit.asStmt sym) fun _ => True :=
  Maintains.look_any.bind fun _ _ => .ite (fun _ => newExprStmt) fun _ => .pure trivial

theorem asElement {holds : ListCategory} :
    Maintains (Hangs id) (Edit.asElement holds sym) fun _ => True := by
  cases holds with
  | stmts => exact asStmt
  | exprs | defs => exact .pure trivial

theorem newList {holds : ListCategory} :
    Maintains (Hangs id) (Edit.newList holds ids) fun _ => True :=
  (Maintains.mapM fun _ _ => asElement).bind fun _ _ => newHolder

theorem newPrimitiveCall {operation : Primitive} :
    Maintains (Hangs id) (Edit.newPrimitiveCall operation ids) fun _ => True := by
  have operands : Maintains (Hangs id) (newOperands ids) fun _ => True :=
    (Maintains.mapM fun _ _ => asOperand).bind fun _ _ => newList
  exact operands.bind fun _ _ => newHolder

theorem define : Maintains (Hangs id) (Edit.define sym) fun _ => True := by
  have pointed : ∀ definition, Maintains (Hangs id)
      (changeSymbol sym fun symbol => { symbol with defPoint? := some definition })
      fun _ => True :=
    fun _ => Maintains.look_any.bind fun _ _ => setKind
  refine Maintains.look_any.bind fun isSymbol _ => ?_
  refine .ite (fun _ => Maintains.fail_bind) fun _ => ?_
  refine asOperand?.bind fun init? _ => asOperand?.bind fun declaredType? _ => ?_
  refine (withLocationOf newNode).bind fun definition _ => adopt.bind fun _ _ => ?_
  exact (pointed definition).bind fun _ _ => .pure trivial

theorem carryOver {source : Node} :
    Maintains (Hangs id) (Edit.carryOver source sym) fun _ => True :=
  Maintains.get.bind fun _ _ => change fun _ hangs => hangs

theorem duplicateNode : Maintains (Hangs id) (Edit.duplicateNode sym table) fun _ => True := by
  refine Maintains.look_any.bind fun source _ => newNode.bind fun duplicate _ => ?_
  refine Maintains.look_any.bind fun children _ => ?_
  refine Maintains.bind (Maintains.forM fun child _ => setParent) fun _ _ => ?_
  exact carryOver.bind fun _ _ => .pure trivial

theorem duplicateWithin :
    Maintains (Hangs id) (Edit.duplicateWithin depth table sym) fun _ => True := by
  induction depth generalizing table sym with
  | zero => exact .throw
  | succ depth ih =>
    refine .ite (fun _ => .pure trivial) fun _ => ?_
    refine Maintains.look_any.bind fun children _ => ?_
    refine Maintains.bind (Maintains.foldlM trivial fun table child _ _ => ih) fun table _ => ?_
    exact duplicateNode

theorem redirectLinks : Maintains (Hangs id) (Edit.redirectLinks table sym) fun _ => True :=
  Maintains.look_any.bind fun _ _ => Maintains.forM fun _ _ => change fun _ hangs => hangs

theorem duplicate : Maintains (Hangs id) (Edit.duplicate sym) fun _ => True := by
  have copied : Maintains (Hangs id) (duplicateWith sym ∅ [] false) fun _ => True := by
    rw [duplicateWith]
    split
    · exact .pure trivial
    · refine Maintains.get.bind fun _ _ => duplicateWithin.bind fun table _ => ?_
      refine .ite (fun _ => .pure trivial) fun _ => ?_
      exact redirectLinks.bind fun _ _ => .pure trivial
  exact copied.bind fun _ _ => .pure trivial

theorem of_setParents {holder : NodeId} (member : id ∈ ids)
    (run : Yields (ids.forM (Edit.setParent · (some holder))) before () after) : Hangs id after := by
  induction ids generalizing before with
  | nil => cases member
  | cons first rest ih =>
    obtain ⟨between, runFirst, runRest⟩ := yields_forM_cons.mp run
    rcases List.mem_cons.mp member with rfl | later
    · obtain ⟨issued, rfl⟩ := yields_change.mp runFirst
      obtain ⟨node, found⟩ := Option.isSome_iff_exists.mp issued
      have hangs : Hangs id (before.modifyNode id fun node => { node with parent? := some holder }) := by
        simp [Hangs, parentOf, get?_modifyNode, found]
      exact (Maintains.forM (fun _ _ => setParent) _ _ _ hangs runRest).1
    · exact ih later runRest

theorem newStart {low? : Option NodeId} : Maintains (Hangs id) (Edit.newStart low? sym) fun _ => True := by
  cases low? with
  | none => exact newNode
  | some low => exact duplicate.bind fun _ _ => newPrimitiveCall

/-! ## What hangs is not built on -/

theorem not_yields_adopt (hangs : Hangs id before) (member : id ∈ ids) :
    ¬ Yields (Edit.adopt parent ids) before () after := by
  intro run
  have free := (Edit.adopted run).free member
  simp [Hangs, free] at hangs

theorem not_yields_define {answer : NodeId} (hangs : Hangs id before) :
    ¬ Yields (Edit.define id) before answer after := by
  intro run
  simp only [Edit.define, newDefinition, Edit.asOperand?, yields_bind, yields_look, yields_ite,
    yields_fail, yields_pure] at run
  obtain ⟨_, _, ⟨_, rfl⟩, ⟨_, _, _, never, _⟩ | ⟨_, run⟩⟩ := run
  · exact never.elim
  · obtain ⟨_, _, ⟨rfl, rfl⟩, _, _, ⟨rfl, rfl⟩, _, created, creation, _, _, adoption, _⟩ := run
    have hangsThen := (withLocationOf newNode _ _ _ hangs creation).1
    exact hangsThen.not_yields_adopt (by simp) adoption

theorem of_define {answer : NodeId} (run : Yields (Edit.define id) before answer after) :
    Hangs id after := by
  simp only [Edit.define, newDefinition, Edit.asOperand?, yields_bind, yields_look, yields_ite,
    yields_fail, yields_pure] at run
  obtain ⟨_, _, ⟨_, rfl⟩, ⟨_, _, _, never, _⟩ | ⟨_, run⟩⟩ := run
  · exact never.elim
  · obtain ⟨_, _, ⟨rfl, rfl⟩, _, _, ⟨rfl, rfl⟩, _, created, _, _, adopted, adoption, _, _, pointed,
      rfl, rfl⟩ := run
    have taken := Edit.adopted adoption
    have isFirst : id ∈ id :: (none : Option NodeId).toList ++ (none : Option NodeId).toList := by simp
    obtain ⟨node, found⟩ := Option.isSome_iff_exists.mp (taken.issued isFirst)
    have hangs : Hangs id adopted := by simp [Hangs, parentOf, taken.nodes, found]
    exact (Maintains.look_any.bind (fun _ _ => setKind) _ _ _ hangs pointed).1

theorem mem_asStmts {answers : List NodeId} (hangs : Hangs id before) (member : id ∈ ids)
    (run : Yields (ids.mapM Edit.asStmt) before answers after) : id ∈ answers := by
  induction ids generalizing before answers with
  | nil => cases member
  | cons first rest ih =>
    simp only [List.mapM_cons, yields_bind, yields_pure] at run
    obtain ⟨answer, between, runFirst, others, _, runRest, rfl, rfl⟩ := run
    have hangsBetween := (asStmt _ _ _ hangs runFirst).1
    rcases List.mem_cons.mp member with rfl | later
    · simp only [Edit.asStmt, Edit.newExprStmt, yields_bind, yields_look, yields_ite] at runFirst
      obtain ⟨_, _, ⟨_, rfl⟩, ⟨_, _, _, creation, _, _, adoption, _⟩ | ⟨_, same⟩⟩ := runFirst
      · have hangsThen := (withLocationOf newNode _ _ _ hangs creation).1
        exact (hangsThen.not_yields_adopt (by simp) adoption).elim
      · rw [(yields_pure.mp same).1]
        exact List.mem_cons_self
    · exact List.mem_cons_of_mem _ (ih hangsBetween later runRest)

theorem not_yields_newBlock {answer : NodeId} (hangs : Hangs id before) (member : id ∈ ids) :
    ¬ Yields (Edit.newBlock ids) before answer after := by
  intro run
  simp only [Edit.newBlock, Edit.newList, Edit.newHolder, yields_bind] at run
  obtain ⟨_, _, ⟨stmts, listed, runStmts, _, pushed, creation, _, _, adoption, _⟩, _⟩ := run
  have memberStmts := hangs.mem_asStmts member runStmts
  have hangsListed := (Maintains.mapM (fun _ _ => asStmt) _ _ _ hangs runStmts).1
  exact ((newNode _ _ _ hangsListed creation).1).not_yields_adopt memberStmts adoption

end Hangs

/-! ## Grafts hang in the copy -/

/-- The nodes of `origin` are of the kind that they were. -/
def SameKinds (origin program : Program) : Prop :=
  ∀ id kind, origin.kindAt id = some kind → program.kindAt id = some kind

namespace SameKinds

variable {origin : Program} {kind : Kind} {table : Remap}

theorem newNode : Maintains (SameKinds origin) (Edit.newNode kind) fun _ => True := by
  intro before answer after same run
  obtain ⟨_, rfl⟩ := yields_newNode.mp run
  refine ⟨fun id form known => ?_, trivial⟩
  have knownBefore := same id form known
  rwa [kindAt, get?_push, if_neg, ← kindAt]
  rintro rfl
  simp [kindAt, get?_nextId] at knownBefore

theorem change {f : Node → Node} (keeps : ∀ node, (f node).kind = node.kind) :
    Maintains (SameKinds origin) (Edit.change id f) fun _ => True := by
  intro before answer after same run
  obtain ⟨_, rfl⟩ := yields_change.mp run
  refine ⟨fun other form known => ?_, trivial⟩
  obtain ⟨node, found, rfl⟩ := get?_of_kindAt (same other form known)
  rw [kindAt, get?_modifyNode]
  by_cases isId : id = other <;> simp [isId, found, keeps]

theorem setParent {parent? : Option NodeId} :
    Maintains (SameKinds origin) (Edit.setParent id parent?) fun _ => True :=
  change fun _ => rfl

theorem carryOver {source : Node} :
    Maintains (SameKinds origin) (Edit.carryOver source id) fun _ => True :=
  Maintains.get.bind fun _ _ => change fun _ => rfl

end SameKinds

/-- What stands in the table for `point` hangs, or no node above `point` was copied yet. -/
structure Grafting (origin : Program) (point graft : NodeId) (table : Remap) (program : Program) :
    Prop where
  seeded : table[point]? = some graft
  kinds : SameKinds origin program
  met : Hangs graft program ∨ ∀ id ∈ table, origin.Contains id point → id = point

namespace Grafting

variable {origin : Program} {point graft : NodeId} {ids : List NodeId} {table answer : Remap}
  {depth : Nat} (grafting : Grafting origin point graft table before)
include grafting

/-- The holder of `point` is copied after `point`, and its copy takes over the graft. -/
theorem duplicateNode (different : id ≠ point)
    (childrenDone : ∀ child, origin.Holds id child → child ∈ table)
    (run : Yields (Edit.duplicateNode id table) before answer after) :
    Grafting origin point graft answer after ∧ ∃ duplicate, answer = table.insert id duplicate := by
  have hangsAfter := fun hangs : Hangs graft before => (Hangs.duplicateNode _ _ _ hangs run).1
  simp only [Edit.duplicateNode, yields_bind, yields_look, yields_pure, node_eq_ok, owned_eq_ok] at run
  obtain ⟨source, _, ⟨found, rfl⟩, duplicate, pushed, creation, children, _,
    ⟨⟨_, isHeld⟩, rfl⟩, _, linked, linking, _, _, carrying, rfl, rfl⟩ := run
  have kindsPushed := (SameKinds.newNode _ _ _ grafting.kinds creation).1
  have kindsLinked := (Maintains.forM (fun _ _ => SameKinds.setParent) _ _ _ kindsPushed linking).1
  have kindsAfter := (SameKinds.carryOver _ _ _ kindsLinked carrying).1
  refine ⟨⟨?_, kindsAfter, ?_⟩, duplicate, rfl⟩
  · have notEqual : compare id point ≠ .eq := fun equal =>
      different (Std.LawfulEqCmp.eq_of_compare equal)
    rw [Std.ExtTreeMap.getElem?_insert, if_neg notEqual, grafting.seeded]
  · rcases grafting.met with hangs | waiting
    · exact .inl (hangsAfter hangs)
    by_cases above : origin.Contains id point
    · left
      rcases above.cases_head with same | ⟨child, holds, below⟩
      · exact absurd same different
      obtain rfl : child = point := waiting child (childrenDone child holds) below
      obtain ⟨node, foundOrigin⟩ := Option.isSome_iff_exists.mp holds.issued
      have sameKind := grafting.kinds id node.kind (kindAt_eq foundOrigin)
      rw [kindAt_eq found, Option.some.injEq] at sameKind
      rw [Holds, held_eq foundOrigin, ← sameKind] at holds
      have isGraft : table.apply child = graft := by
        simp [Remap.apply, Std.ExtTreeMap.getD_eq_getD_getElem?, grafting.seeded]
      have taken : graft ∈ children := by
        obtain ⟨rfl, rfl⟩ := yields_newNode.mp creation
        rw [← isHeld, held_eq_of_kindAt pushed_push.kindAt, Kind.owned_mapOwned, ← isGraft]
        exact List.mem_map_of_mem holds
      have hangs := Hangs.of_setParents taken linking
      exact (Hangs.carryOver _ _ _ hangs carrying).1
    · right
      intro other member contained
      rcases Std.ExtTreeMap.mem_insert.mp member with equal | earlier
      · rw [← Std.LawfulEqCmp.eq_of_compare equal] at contained
        exact absurd contained above
      · exact waiting other earlier contained

theorem foldlM {step : Remap → NodeId → Edit Remap}
    (each : ∀ {table id before answer after}, Grafting origin point graft table before →
      Yields (step table id) before answer after →
      Grafting origin point graft answer after ∧ id ∈ answer ∧ ∀ other ∈ table, other ∈ answer)
    (run : Yields (ids.foldlM step table) before answer after) :
    Grafting origin point graft answer after ∧ (∀ id ∈ ids, id ∈ answer) ∧
      ∀ other ∈ table, other ∈ answer := by
  induction ids generalizing before table with
  | nil =>
    obtain ⟨rfl, rfl⟩ := yields_pure.mp run
    exact ⟨grafting, nofun, fun _ member => member⟩
  | cons first rest ih =>
    rw [List.foldlM_cons, yields_bind] at run
    obtain ⟨middle, between, runFirst, runRest⟩ := run
    obtain ⟨graftingBetween, firstIn, keptFirst⟩ := each grafting runFirst
    obtain ⟨graftingAfter, restIn, keptRest⟩ := ih graftingBetween runRest
    refine ⟨graftingAfter, fun id member => ?_, fun other member => keptRest other (keptFirst other member)⟩
    rcases List.mem_cons.mp member with rfl | later
    · exact keptRest id firstIn
    · exact restIn id later

theorem duplicateWithin (run : Yields (Edit.duplicateWithin depth table id) before answer after) :
    Grafting origin point graft answer after ∧ id ∈ answer ∧ ∀ other ∈ table, other ∈ answer := by
  induction depth generalizing before table answer after id with
  | zero => exact (yields_throw run).elim
  | succ depth ih =>
    simp only [Edit.duplicateWithin, yields_ite, yields_pure] at run
    rcases run with ⟨present, rfl, rfl⟩ | ⟨absent, run⟩
    · exact ⟨grafting, present, fun _ member => member⟩
    simp only [yields_bind, yields_look, owned_eq_ok] at run
    obtain ⟨children, _, ⟨⟨_, isHeld⟩, rfl⟩, copied, between, copying, run⟩ := run
    obtain ⟨graftingBetween, childrenIn, kept⟩ := grafting.foldlM ih copying
    have different : id ≠ point := by
      rintro rfl
      exact absent (Std.ExtTreeMap.mem_iff_isSome_getElem?.mpr (by simp [grafting.seeded]))
    have childrenDone : ∀ child, origin.Holds id child → child ∈ copied := by
      intro child holds
      obtain ⟨node, foundOrigin⟩ := Option.isSome_iff_exists.mp holds.issued
      have sameKind := grafting.kinds id node.kind (kindAt_eq foundOrigin)
      rw [Holds, held_eq foundOrigin, ← held_eq_of_kindAt sameKind, isHeld] at holds
      exact childrenIn child holds
    obtain ⟨graftingAfter, duplicate, rfl⟩ := graftingBetween.duplicateNode different childrenDone run
    exact ⟨graftingAfter, Std.ExtTreeMap.mem_insert_self,
      fun other member => Std.ExtTreeMap.mem_insert.mpr (.inr (kept other member))⟩

end Grafting

/-- A node that is given for a node below the top hangs in the copy. -/
theorem hangs_of_duplicateWith {point graft top : NodeId} {updated : List NodeId}
    {answer : Duplication} (contained : before.Contains top point) (strict : top ≠ point)
    (run : Yields (Edit.duplicateWith top ((∅ : Remap).insert point graft) updated false) before
      answer after) : Hangs graft after := by
  have absent : ((∅ : Remap).insert point graft)[top]? = none := by
    have notEqual : compare point top ≠ .eq := fun equal =>
      strict (Std.LawfulEqCmp.eq_of_compare equal).symm
    rw [Std.ExtTreeMap.getElem?_insert, if_neg notEqual]
    rfl
  simp only [Edit.duplicateWith, absent, Bool.false_eq_true, if_false, yields_bind, yields_get,
    yields_pure] at run
  obtain ⟨_, start, ⟨rfl, rfl⟩, table, copied, copying, _, _, redirecting, rfl, rfl⟩ := run
  have grafting : Grafting start point graft ((∅ : Remap).insert point graft) start := by
    refine ⟨by simp, fun _ _ known => known, .inr fun id member _ => ?_⟩
    rcases Std.ExtTreeMap.mem_insert.mp member with equal | never
    · exact (Std.LawfulEqCmp.eq_of_compare equal).symm
    · simp at never
  obtain ⟨⟨_, _, met⟩, topIn, _⟩ := grafting.duplicateWithin copying
  have hangs : Hangs graft copied := met.resolve_right fun waiting =>
    strict (waiting top topIn contained)
  exact (Hangs.redirectLinks _ _ _ hangs redirecting).1

end Program

end ProgramTree
