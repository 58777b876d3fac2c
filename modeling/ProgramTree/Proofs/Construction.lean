import ProgramTree.Proofs.Revisions
import ProgramTree.Proofs.Workshop

/-!
# Construction

Whatever a builder does, it does in a few kinds of steps: a fresh node takes over
free-standing ones, a fresh definition takes over a symbol and becomes its definition point,
or a node says something else about itself and keeps what it holds.  What each of these
steps keeps is kept by every builder.
-/

namespace ProgramTree

/-- The symbol that a definition holds. -/
def Kind.defined? : Kind → Option NodeId
  | .expr (.definition sym _ _) => some sym
  | _ => none

namespace Program

open Edit

/-- One step of a builder. -/
inductive Construction (before : Program) : Program → Prop where
  /-- Nothing changed that the tree is made of. -/
  | quiet {after : Program} (kinds : ∀ id, after.kindAt id = before.kindAt id)
      (parents : ∀ id, after.parentOf id = before.parentOf id)
      (contexts : ∀ id, after.contextOf id = before.contextOf id)
      (roots : after.roots = before.roots) (index : after.index = before.index) :
      Construction before after
  /-- A fresh node, which defines nothing, took over free-standing ones.  If it is a list of
  statements, then they are no bare expressions. -/
  | grown {kind : Kind} {between after : Program} (undefined : kind.definition? = none)
      (plain : kind.defined? = none)
      (wrapped : kind.holds? = some .stmts →
        ∀ child ∈ kind.owned, ¬ (before.kindAt child).any Kind.isExpr)
      (issued : ∀ child ∈ kind.owned, (before.get? child).isSome)
      (pushed : Pushed before kind between)
      (adopted : Adopted between before.nextId kind.owned after) : Construction before after
  /-- A fresh definition took over a symbol, and is its definition point from now on. -/
  | defined {sym : NodeId} {init? declaredType? : Option NodeId} {symbol : Symbol}
      {between held : Program} (isSymbol : before.kindAt sym = some (.symbol symbol))
      (issued : ∀ child ∈ (Expr.definition sym init? declaredType?).owned,
        (before.get? child).isSome)
      (pushed : Pushed before (.expr (.definition sym init? declaredType?)) between)
      (adopted : Adopted between before.nextId (Expr.definition sym init? declaredType?).owned
        held) :
      Construction before (held.modifyNode sym fun node =>
        { node with kind := .symbol { symbol with defPoint? := some before.nextId } })
  /-- A node says something else about itself, but neither about what it holds nor about
  definitions. -/
  | reworded {id : NodeId} {kind changed : Kind} (known : before.kindAt id = some kind)
      (alike : Alike kind changed) (definition : changed.definition? = kind.definition?)
      (defines : changed.defined? = kind.defined?) (holds : changed.holds? = kind.holds?) :
      Construction before (before.modifyNode id fun node => { node with kind := changed })

/-- Some steps of builders lead from `origin` to the program. -/
abbrev Constructed (origin : Program) : Program → Prop :=
  Relation.ReflTransGen Construction origin

/-- The zone of all nodes. -/
def Anywhere (_ : NodeId) : Prop :=
  True

/-- A node that a list of this category can take up as it is. -/
def Element (holds : ListCategory) (program : Program) (id : NodeId) : Prop :=
  Known Anywhere program id ∧ (holds = .stmts → ¬ (program.kindAt id).any Kind.isExpr)

/-- Steps of builders made the node, or found it. -/
abbrev BuiltUp (origin before : Program) (answer : NodeId) (after : Program) : Prop :=
  Made Anywhere (Constructed origin) before answer after

variable {origin before between after held : Program} {id sym answer : NodeId}
  {id? : Option NodeId} {ids : List NodeId} {kind changed : Kind} {done : Unit}

theorem known_of_issued (issued : (before.get? id).isSome) : Known Anywhere before id :=
  ⟨trivial, issued⟩

theorem Since.notExpr (since : Since before after) (issued : (before.get? id).isSome)
    (notExpr : ¬ (before.kindAt id).any Kind.isExpr) : ¬ (after.kindAt id).any Kind.isExpr := by
  obtain ⟨node, found⟩ := Option.isSome_iff_exists.mp issued
  obtain ⟨later, knownLater, outlives⟩ := since id node.kind (kindAt_eq found)
  rw [kindAt_eq found] at notExpr
  rw [knownLater, Option.any_some, outlives.isExpr]
  exact notExpr

/-! ## What a step leaves -/

/-- A node that took over what is there does not take over itself. -/
theorem fresh_notMem (issued : ∀ child ∈ ids, (before.get? child).isSome) :
    before.nextId ∉ ids := by
  intro member
  have isIssued := issued _ member
  simp [get?_nextId] at isIssued

theorem since_of_kinds (kinds : ∀ {id}, id ≠ before.nextId → after.kindAt id = before.kindAt id) :
    Since before after := by
  intro id kind known
  refine ⟨kind, ?_, .refl kind⟩
  rw [kinds ?_, known]
  rintro rfl
  simp [Program.kindAt, get?_nextId] at known

theorem kindAt_of_adopted (pushed : Pushed before kind between)
    (adopted : Adopted between before.nextId kind.owned after) (old : id ≠ before.nextId) :
    after.kindAt id = before.kindAt id := by
  rw [adopted.kindAt, pushed.kinds old]

theorem Construction.since (step : Construction before after) : Since before after := by
  cases step with
  | quiet kinds => exact since_of_kinds fun _ => kinds _
  | grown _ _ _ _ pushed adopted => exact since_of_kinds (kindAt_of_adopted pushed adopted)
  | @defined sym _ _ symbol _ held isSymbol _ pushed adopted =>
    have old : sym ≠ before.nextId := by
      rintro rfl
      simp [Program.kindAt, get?_nextId] at isSymbol
    have sinceHeld : Since before held := since_of_kinds (kindAt_of_adopted pushed adopted)
    have isSymbolHeld : held.kindAt sym = some (.symbol symbol) := by
      rw [kindAt_of_adopted pushed adopted old, isSymbol]
    exact sinceHeld.trans (since_setKind isSymbolHeld (.symbol rfl))
  | reworded known alike => exact since_setKind known alike

namespace Constructed

theorem since (constructed : Constructed before after) : Since before after := by
  induction constructed with
  | refl => exact .refl before
  | tail _ step ih => exact ih.trans step.since

variable (start : Constructed origin before)
include start

theorem progress (step : Construction before after) :
    Progress (Constructed origin) before after :=
  ⟨start.tail step, step.since⟩

/-- The next node, which took over what is there. -/
theorem grow (pushed : Pushed before kind between)
    (adopted : Adopted between before.nextId kind.owned after)
    (undefined : kind.definition? = none) (plain : kind.defined? = none)
    (wrapped : kind.holds? = some .stmts →
      ∀ child ∈ kind.owned, ¬ (before.kindAt child).any Kind.isExpr)
    (known : ∀ child ∈ kind.owned, Known Anywhere before child) :
    BuiltUp origin before before.nextId after ∧ after.kindAt before.nextId = some kind := by
  have isKind : after.kindAt before.nextId = some kind := by
    rw [adopted.kindAt, pushed.kindAt]
  obtain ⟨node, found, _⟩ := get?_of_kindAt isKind
  have step := Construction.grown undefined plain wrapped
    (fun child owned => (known child owned).issued)
    pushed adopted
  exact ⟨⟨start.progress step, known_of_issued (by simp [found])⟩, isKind⟩

theorem newHolder (run : Yields (Edit.newHolder kind ids) before answer after)
    (undefined : kind.definition? = none) (plain : kind.defined? = none)
    (owned : kind.owned = ids) (wrapped : kind.holds? = some .stmts →
      ∀ child ∈ ids, ¬ (before.kindAt child).any Kind.isExpr)
    (known : ∀ child ∈ ids, Known Anywhere before child) :
    BuiltUp origin before answer after ∧ after.kindAt answer = some kind := by
  subst owned
  simp only [Edit.newHolder, yields_bind, yields_newNode, yields_pure] at run
  obtain ⟨_, _, ⟨rfl, rfl⟩, _, _, adoption, rfl, rfl⟩ := run
  exact start.grow pushed_push (Edit.adopted adoption) undefined plain wrapped known

theorem newNode (run : Yields (Edit.newNode kind) before answer after)
    (undefined : kind.definition? = none) (plain : kind.defined? = none)
    (leaf : kind.owned = []) : BuiltUp origin before answer after := by
  obtain ⟨rfl, rfl⟩ := yields_newNode.mp run
  have adopted : Adopted (before.push kind) before.nextId kind.owned (before.push kind) := by
    rw [leaf]
    exact ⟨by simp, nofun, nofun, nofun, .nil, rfl⟩
  exact (start.grow pushed_push adopted undefined plain (by simp [leaf]) (by simp [leaf])).1

theorem reword (run : Yields (Edit.setKind id changed) before done after)
    (known : before.kindAt id = some kind) (alike : Alike kind changed)
    (definition : changed.definition? = kind.definition?)
    (defines : changed.defined? = kind.defined?) (holds : changed.holds? = kind.holds?) :
    Progress (Constructed origin) before after := by
  obtain ⟨_, rfl⟩ := yields_change.mp run
  exact start.progress (.reworded known alike definition defines holds)

/-! ## Operands and lists -/

theorem asOperand (known : Known Anywhere before id)
    (run : Yields (Edit.asOperand id) before answer after) :
    BuiltUp origin before answer after := by
  simp only [Edit.asOperand, yields_bind, yields_look, yields_ite] at run
  obtain ⟨_, _, ⟨_, rfl⟩, ⟨_, run⟩ | ⟨_, run⟩⟩ := run
  · exact start.newNode run rfl rfl rfl
  · obtain ⟨rfl, rfl⟩ := yields_pure.mp run
    exact ⟨.refl start, known⟩

theorem asOperand? {operand? : Option NodeId} (known : ∀ id ∈ id?, Known Anywhere before id)
    (run : Yields (Edit.asOperand? id?) before operand? after) :
    Progress (Constructed origin) before after ∧ ∀ id ∈ operand?, Known Anywhere after id := by
  cases id? with
  | none =>
    obtain ⟨rfl, rfl⟩ := yields_pure.mp run
    exact ⟨.refl start, nofun⟩
  | some id =>
    simp only [Edit.asOperand?, yields_bind, yields_pure] at run
    obtain ⟨operand, _, run, rfl, rfl⟩ := run
    have made := start.asOperand (known id rfl) run
    exact ⟨made.progress, by simpa using made.known⟩

theorem newExprStmt (known : Known Anywhere before id)
    (run : Yields (Edit.newExprStmt id) before answer after) :
    BuiltUp origin before answer after ∧ after.kindAt answer = some (.stmt (.expr id)) := by
  simp only [Edit.newExprStmt, yields_bind, yields_pure] at run
  obtain ⟨_, _, created, _, _, adoption, rfl, rfl⟩ := run
  obtain ⟨rfl, pushed⟩ := pushed_withLocationOf created
  refine start.grow pushed (Edit.adopted adoption) rfl rfl (by rintro ⟨⟩) ?_
  simpa [Kind.owned, Stmt.owned] using known

theorem asStmt (known : Known Anywhere before id)
    (run : Yields (Edit.asStmt id) before answer after) :
    BuiltUp origin before answer after ∧ ¬ (after.kindAt answer).any Kind.isExpr := by
  simp only [Edit.asStmt, yields_bind, yields_look, yields_ite, kindOf_eq_ok] at run
  obtain ⟨kind, _, ⟨isKind, rfl⟩, ⟨_, run⟩ | ⟨notExpr, run⟩⟩ := run
  · obtain ⟨made, isStmt⟩ := start.newExprStmt known run
    exact ⟨made, by simp [isStmt, Kind.isExpr]⟩
  · obtain ⟨rfl, rfl⟩ := yields_pure.mp run
    exact ⟨⟨.refl start, known⟩, by simpa [isKind] using notExpr⟩

theorem asStmt? {stmt? : Option NodeId} (known : ∀ id ∈ id?, Known Anywhere before id)
    (run : Yields (Edit.asStmt? id?) before stmt? after) :
    Progress (Constructed origin) before after ∧ ∀ id ∈ stmt?, Known Anywhere after id := by
  cases id? with
  | none =>
    obtain ⟨rfl, rfl⟩ := yields_pure.mp run
    exact ⟨.refl start, nofun⟩
  | some id =>
    simp only [Edit.asStmt?, yields_bind, yields_pure] at run
    obtain ⟨stmt, _, run, rfl, rfl⟩ := run
    have made := (start.asStmt (known id rfl) run).1
    exact ⟨made.progress, by simpa using made.known⟩

theorem asElement {holds : ListCategory} (known : Known Anywhere before id)
    (run : Yields (Edit.asElement holds id) before answer after) :
    Progress (Constructed origin) before after ∧ Element holds after answer := by
  cases holds with
  | stmts =>
    obtain ⟨made, notExpr⟩ := start.asStmt known run
    exact ⟨made.progress, made.known, fun _ => notExpr⟩
  | exprs | defs =>
    obtain ⟨rfl, rfl⟩ := yields_pure.mp run
    exact ⟨.refl start, known, nofun⟩

theorem newList {holds : ListCategory} (known : ∀ id ∈ ids, Known Anywhere before id)
    (run : Yields (Edit.newList holds ids) before answer after) :
    BuiltUp origin before answer after := by
  obtain ⟨elements, middle, runElements, runList⟩ := yields_bind.mp run
  have elementwise : Progress (Constructed origin) before middle ∧
      ∀ id ∈ elements, Element holds middle id := by
    refine mapM_progress runElements start ?_ ?_
    · intro _ _ id _ member progress run
      exact progress.kept.asElement ((known id member).since progress.since) run
    · intro _ _ _ ⟨known, notExpr⟩ since
      exact ⟨known.since since, fun isStmts => since.notExpr known.issued (notExpr isStmts)⟩
  obtain ⟨progress, good⟩ := elementwise
  have made := progress.kept.newHolder runList rfl rfl (by simp [Kind.owned])
    (fun isStmts id member => (good id member).2 (by simpa [Kind.holds?] using isStmts))
    (fun id member => (good id member).1)
  exact made.1.following progress

theorem asOperands {operands : List NodeId} (known : ∀ id ∈ ids, Known Anywhere before id)
    (run : Yields (ids.mapM Edit.asOperand) before operands after) :
    Progress (Constructed origin) before after ∧
      ∀ operand ∈ operands, Known Anywhere after operand :=
  mapM_progress run start (fun _ _ id _ member progress run =>
    (progress.kept.asOperand ((known id member).since progress.since) run).both)
    fun _ _ _ known since => known.since since

theorem newOperands (known : ∀ id ∈ ids, Known Anywhere before id)
    (run : Yields (Edit.newOperands ids) before answer after) :
    BuiltUp origin before answer after := by
  obtain ⟨uses, middle, runUses, runList⟩ := yields_bind.mp run
  obtain ⟨progress, knownUses⟩ := start.asOperands known runUses
  exact (progress.kept.newList knownUses runList).following progress

theorem newBlock (known : ∀ id ∈ ids, Known Anywhere before id)
    (run : Yields (Edit.newBlock ids) before answer after) :
    BuiltUp origin before answer after := by
  obtain ⟨body, middle, runBody, runBlock⟩ := yields_bind.mp run
  have madeBody := start.newList known runBody
  have knownBodies : ∀ child ∈ [body], Known Anywhere middle child := by simpa using madeBody.known
  have made := madeBody.progress.kept.newHolder runBlock rfl rfl rfl (by rintro ⟨⟩) knownBodies
  exact made.1.following madeBody.progress

theorem asBlock (known : Known Anywhere before id)
    (run : Yields (Edit.asBlock id) before answer after) : BuiltUp origin before answer after := by
  rw [Edit.asBlock, yields_bind] at run
  obtain ⟨kind, middle, found, run⟩ := run
  obtain ⟨_, rfl⟩ := yields_look.mp found
  split at run
  · obtain ⟨rfl, rfl⟩ := yields_pure.mp run
    exact ⟨.refl start, known⟩
  · exact start.newBlock (by simpa using known) run

/-! ## Expressions -/

/-- A definition of a symbol becomes its definition point. -/
theorem newDefinition {init? declaredType? : Option NodeId} (known : Known Anywhere before sym)
    (knownInit : ∀ id ∈ init?, Known Anywhere before id)
    (knownType : ∀ id ∈ declaredType?, Known Anywhere before id)
    (run : Yields (Edit.newDefinition sym init? declaredType?) before answer after) :
    BuiltUp origin before answer after := by
  simp only [Edit.newDefinition, changeSymbol, setKind, yields_bind, yields_look, yields_ite,
    yields_fail, yields_pure, yields_change, symbol_eq_ok] at run
  obtain ⟨_, _, ⟨_, rfl⟩, ⟨_, _, _, never, _⟩ | ⟨_, run⟩⟩ := run
  · exact never.elim
  obtain ⟨init?, prepared, runInit, declaredType?, ready, runType, definition, pushed, created, _,
    _, adoption, _, _, ⟨symbol, held, ⟨isSymbol, rfl⟩, _, rfl⟩, rfl, rfl⟩ := run
  obtain ⟨progressInit, knownInit⟩ := start.asOperand? knownInit runInit
  obtain ⟨progressType, knownType⟩ := progressInit.kept.asOperand?
    (fun id member => (knownType id member).since progressInit.since) runType
  have untilReady := progressInit.trans progressType
  obtain ⟨rfl, isPushed⟩ := pushed_withLocationOf created
  have knownChildren : ∀ child ∈ (Expr.definition sym init? declaredType?).owned,
      (ready.get? child).isSome := by
    intro child owned
    simp only [Expr.owned, List.cons_append, List.mem_cons, List.mem_append,
      Option.mem_toList] at owned
    rcases owned with rfl | isInit | isType
    · exact (known.since untilReady.since).issued
    · exact ((knownInit child isInit).since progressType.since).issued
    · exact (knownType child isType).issued
  have adopted : Adopted pushed ready.nextId (Expr.definition sym init? declaredType?).owned held :=
    Edit.adopted adoption
  have old : sym ≠ ready.nextId := by
    rintro rfl
    exact fresh_notMem knownChildren (by simp [Expr.owned])
  have isSymbolReady : ready.kindAt sym = some (.symbol symbol) := by
    rw [← isPushed.kinds old, ← adopted.kindAt, isSymbol]
  have step := Construction.defined isSymbolReady knownChildren isPushed adopted
  have untilDefined := untilReady.trans (untilReady.kept.progress step)
  refine ⟨untilDefined, known_of_issued ?_⟩
  have isDefinition :
      held.kindAt ready.nextId = some (.expr (.definition sym init? declaredType?)) := by
    rw [adopted.kindAt, isPushed.kindAt]
  obtain ⟨node, found, _⟩ := get?_of_kindAt isDefinition
  simp [get?_modifyNode_map, found]

theorem define (known : Known Anywhere before sym)
    (run : Yields (Edit.define sym) before answer after) : BuiltUp origin before answer after :=
  start.newDefinition known (by simp) (by simp) run

theorem newPrimitiveCall {operation : Primitive} (known : ∀ id ∈ ids, Known Anywhere before id)
    (run : Yields (Edit.newPrimitiveCall operation ids) before answer after) :
    BuiltUp origin before answer after := by
  obtain ⟨args, middle, runArgs, runCall⟩ := yields_bind.mp run
  have madeArgs := start.newOperands known runArgs
  have knownChildren : ∀ child ∈ [args], Known Anywhere middle child := by
    simpa using madeArgs.known
  have made := madeArgs.progress.kept.newHolder runCall rfl rfl rfl (by rintro ⟨⟩) knownChildren
  exact made.1.following madeArgs.progress

theorem newCall {callee : NodeId} (knownCallee : Known Anywhere before callee)
    (known : ∀ id ∈ ids, Known Anywhere before id)
    (run : Yields (Edit.newCall callee ids) before answer after) :
    BuiltUp origin before answer after := by
  simp only [Edit.newCall, yields_bind] at run
  obtain ⟨callee, called, runCallee, args, middle, runArgs, runCall⟩ := run
  have madeCallee := start.asOperand knownCallee runCallee
  have madeArgs := madeCallee.progress.kept.newOperands
    (fun id member => (known id member).since madeCallee.progress.since) runArgs
  have knownChildren : ∀ child ∈ [callee, args], Known Anywhere middle child := by
    simpa using ⟨madeCallee.known.since madeArgs.progress.since, madeArgs.known⟩
  have made := madeArgs.progress.kept.newHolder runCall rfl rfl rfl (by rintro ⟨⟩) knownChildren
  exact made.1.following (madeCallee.progress.trans madeArgs.progress)

/-- A node that is made of one operand. -/
theorem holdOperand {make : NodeId → Kind} (undefined : ∀ id, (make id).definition? = none)
    (plain : ∀ id, (make id).defined? = none) (owned : ∀ id, (make id).owned = [id])
    (noList : ∀ id, (make id).holds? = none) (known : Known Anywhere before id)
    (run : Yields (do
      let operand ← Edit.asOperand id
      Edit.newHolder (make operand) [operand]) before answer after) :
    BuiltUp origin before answer after := by
  obtain ⟨operand, middle, runOperand, runHolder⟩ := yields_bind.mp run
  have madeOperand := start.asOperand known runOperand
  have knownChildren : ∀ child ∈ [operand], Known Anywhere middle child := by
    simpa using madeOperand.known
  have made := madeOperand.progress.kept.newHolder runHolder (undefined operand) (plain operand)
    (owned operand) (by simp [noList]) knownChildren
  exact made.1.following madeOperand.progress

theorem newCast (known : Known Anywhere before id)
    (run : Yields (Edit.newCast id? id) before answer after) : BuiltUp origin before answer after :=
  start.holdOperand (fun _ => rfl) (fun _ => rfl) (fun _ => rfl) (fun _ => rfl) known run

theorem newNamed {name : String} (known : Known Anywhere before id)
    (run : Yields (Edit.newNamed name id) before answer after) :
    BuiltUp origin before answer after :=
  start.holdOperand (fun _ => rfl) (fun _ => rfl) (fun _ => rfl) (fun _ => rfl) known run

/-! ## Statements -/

theorem newReturn (known : ∀ id ∈ id?, Known Anywhere before id)
    (run : Yields (Edit.newReturn id?) before answer after) :
    BuiltUp origin before answer after := by
  obtain ⟨value?, middle, runValue, runReturn⟩ := yields_bind.mp run
  obtain ⟨progress, knownValue⟩ := start.asOperand? known runValue
  have made := progress.kept.newHolder runReturn rfl rfl rfl (by rintro ⟨⟩)
    fun id member => knownValue id (Option.mem_toList.mp member)
  exact made.1.following progress

theorem newForLoop {iterators : List NodeId} {body : NodeId} {orderIndependent : Bool}
    (known : ∀ id ∈ ids, Known Anywhere before id)
    (knownIterators : ∀ id ∈ iterators, Known Anywhere before id)
    (knownBody : Known Anywhere before body)
    (run : Yields (Edit.newForLoop ids iterators body orderIndependent) before answer after) :
    BuiltUp origin before answer after := by
  simp only [Edit.newForLoop, yields_bind] at run
  obtain ⟨indexUses, used, runUses, bounds, bounded, runBounds, indices, listed, runIndices,
    iterators, closed, runIterators, block, framed, runBlock, runLoop⟩ := run
  obtain ⟨progressUses, knownUses⟩ := start.asOperands known runUses
  obtain ⟨progressBounds, knownBounds⟩ := progressUses.kept.asOperands
    (fun id member => (knownIterators id member).since progressUses.since) runBounds
  have untilBounds := progressUses.trans progressBounds
  have madeIndices := untilBounds.kept.newList
    (fun id member => (knownUses id member).since progressBounds.since) runIndices
  have untilIndices := untilBounds.trans madeIndices.progress
  have madeIterators := untilIndices.kept.newList
    (fun id member => (knownBounds id member).since madeIndices.progress.since) runIterators
  have untilIterators := untilIndices.trans madeIterators.progress
  have madeBlock := untilIterators.kept.asBlock (knownBody.since untilIterators.since) runBlock
  have knownChildren : ∀ child ∈ [indices, iterators, block], Known Anywhere framed child := by
    have keptIndices := madeIndices.known.since
      (madeIterators.progress.trans madeBlock.progress).since
    simpa using ⟨keptIndices, madeIterators.known.since madeBlock.progress.since, madeBlock.known⟩
  have made := madeBlock.progress.kept.newHolder runLoop rfl rfl rfl (by rintro ⟨⟩) knownChildren
  exact made.1.following (untilIterators.trans madeBlock.progress)

theorem newCond {condition thenStmt : NodeId} (knownCondition : Known Anywhere before condition)
    (knownThen : Known Anywhere before thenStmt) (knownElse : ∀ id ∈ id?, Known Anywhere before id)
    (run : Yields (Edit.newCond condition thenStmt id?) before answer after) :
    BuiltUp origin before answer after := by
  simp only [Edit.newCond, yields_bind] at run
  obtain ⟨use, tested, runUse, inner, opened, runThen, other?, closed, runElse, runCond⟩ := run
  have madeUse := start.asOperand knownCondition runUse
  have madeThen := (madeUse.progress.kept.asStmt (knownThen.since madeUse.progress.since) runThen).1
  have untilThen := madeUse.progress.trans madeThen.progress
  obtain ⟨progressElse, knownOther⟩ := untilThen.kept.asStmt?
    (fun id member => (knownElse id member).since untilThen.since) runElse
  have knownChildren : ∀ child ∈ [use, inner] ++ other?.toList, Known Anywhere closed child := by
    intro child member
    simp only [List.cons_append, List.nil_append, List.mem_cons, Option.mem_toList] at member
    rcases member with rfl | rfl | isOther
    · exact madeUse.known.since (madeThen.progress.trans progressElse).since
    · exact madeThen.known.since progressElse.since
    · exact knownOther child isOther
  have made := progressElse.kept.newHolder runCond rfl rfl rfl (by rintro ⟨⟩) knownChildren
  exact made.1.following (untilThen.trans progressElse)

theorem newWhen {body : NodeId} (known : ∀ id ∈ ids, Known Anywhere before id)
    (knownBody : Known Anywhere before body)
    (run : Yields (Edit.newWhen ids body) before answer after) :
    BuiltUp origin before answer after := by
  simp only [Edit.newWhen, yields_bind] at run
  obtain ⟨cases, listed, runCases, block, framed, runBlock, runWhen⟩ := run
  have madeCases := start.newList known runCases
  have madeBlock := madeCases.progress.kept.asBlock (knownBody.since madeCases.progress.since)
    runBlock
  have knownChildren : ∀ child ∈ [cases, block], Known Anywhere framed child := by
    simpa using ⟨madeCases.known.since madeBlock.progress.since, madeBlock.known⟩
  have made := madeBlock.progress.kept.newHolder runWhen rfl rfl rfl (by rintro ⟨⟩) knownChildren
  exact made.1.following (madeCases.progress.trans madeBlock.progress)

theorem newSelect {subject : NodeId} (knownSubject : Known Anywhere before subject)
    (known : ∀ id ∈ ids, Known Anywhere before id)
    (run : Yields (Edit.newSelect subject ids) before answer after) :
    BuiltUp origin before answer after := by
  simp only [Edit.newSelect, yields_bind] at run
  obtain ⟨use, tested, runUse, whens, listed, runWhens, runSelect⟩ := run
  have madeUse := start.asOperand knownSubject runUse
  have madeWhens := madeUse.progress.kept.newList
    (fun id member => (known id member).since madeUse.progress.since) runWhens
  have knownChildren : ∀ child ∈ [use, whens], Known Anywhere listed child := by
    simpa using ⟨madeUse.known.since madeWhens.progress.since, madeWhens.known⟩
  have made := madeWhens.progress.kept.newHolder runSelect rfl rfl rfl (by rintro ⟨⟩) knownChildren
  exact made.1.following (madeUse.progress.trans madeWhens.progress)

theorem newLabelStmt {name : String} (known : Known Anywhere before id)
    (run : Yields (Edit.newLabelStmt name id) before answer after) :
    BuiltUp origin before answer after := by
  simp only [Edit.newLabelStmt, newLabel, Edit.newSymbol, yields_bind] at run
  obtain ⟨label, labelled, runLabel, definition, defined, runDefinition, stmt, wrapped, runStmt,
    runHolder⟩ := run
  have madeLabel := start.newNode runLabel rfl rfl rfl
  have madeDefinition := madeLabel.progress.kept.define madeLabel.known runDefinition
  have untilDefined := madeLabel.progress.trans madeDefinition.progress
  have madeStmt := (untilDefined.kept.asStmt (known.since untilDefined.since) runStmt).1
  have knownChildren : ∀ child ∈ [definition, stmt], Known Anywhere wrapped child := by
    simpa using ⟨madeDefinition.known.since madeStmt.progress.since, madeStmt.known⟩
  have made := madeStmt.progress.kept.newHolder runHolder rfl rfl rfl (by rintro ⟨⟩) knownChildren
  exact made.1.following (untilDefined.trans madeStmt.progress)

/-! ## Symbols and types -/

/-- A fresh symbol that takes over free-standing nodes. -/
theorem holdBySymbol {name : String} {type? : Option NodeId} {kind : SymbolKind}
    (run : Yields (do
      let symbol ← Edit.newSymbol name type? kind
      adopt symbol ids
      return symbol) before answer after)
    (owned : kind.owned = ids) (known : ∀ id ∈ ids, Known Anywhere before id) :
    BuiltUp origin before answer after := by
  have holding : Yields (Edit.newHolder (.symbol { name, type?, kind }) ids) before answer after :=
    run
  exact (start.newHolder holding rfl rfl owned (by rintro ⟨⟩) known).1

theorem newFn {name : String} {body : NodeId} (known : ∀ id ∈ ids, Known Anywhere before id)
    (knownBody : Known Anywhere before body)
    (run : Yields (Edit.newFn name ids body id?) before answer after) :
    BuiltUp origin before answer after := by
  rw [Edit.newFn, yields_bind] at run
  obtain ⟨definitions, defined, runDefinitions, run⟩ := run
  obtain ⟨formals, listed, runFormals, run⟩ := yields_bind.mp run
  obtain ⟨block, framed, runBlock, runFn⟩ := yields_bind.mp run
  obtain ⟨progress, knownDefinitions⟩ :=
    mapM_progress runDefinitions start (fun _ _ id _ member progress run =>
      (progress.kept.define ((known id member).since progress.since) run).both)
      fun _ _ _ known since => known.since since
  have madeFormals := progress.kept.newList knownDefinitions runFormals
  have untilFormals := progress.trans madeFormals.progress
  have madeBlock := untilFormals.kept.asBlock (knownBody.since untilFormals.since) runBlock
  have knownChildren : ∀ child ∈ [formals, block], Known Anywhere framed child := by
    simpa using ⟨madeFormals.known.since madeBlock.progress.since, madeBlock.known⟩
  have made := madeBlock.progress.kept.holdBySymbol runFn rfl knownChildren
  exact made.following (untilFormals.trans madeBlock.progress)

theorem newModule {name : String} {tag : ModuleTag} (known : ∀ id ∈ ids, Known Anywhere before id)
    (run : Yields (Edit.newModule name tag ids) before answer after) :
    BuiltUp origin before answer after := by
  obtain ⟨block, framed, runBlock, runModule⟩ := yields_bind.mp run
  have madeBlock := start.newBlock known runBlock
  have knownChildren : ∀ child ∈ [block], Known Anywhere framed child := by
    simpa using madeBlock.known
  have made := madeBlock.progress.kept.holdBySymbol runModule rfl knownChildren
  exact made.following madeBlock.progress

/-- A type that holds what it takes over gets a name. -/
theorem newNamedType {name : String} {kind : TypeKind} (owned : kind.owned = adoptedByType kind)
    (known : ∀ child ∈ kind.owned, Known Anywhere before child)
    (run : Yields (Edit.newNamedType name kind) before answer after) :
    BuiltUp origin before answer after := by
  simp only [Edit.newNamedType, Edit.newSymbol, yields_bind, yields_newNode, yields_pure] at run
  obtain ⟨type, grown, growing, naming, _, ⟨rfl, rfl⟩, _, held, adopting, _, _, writing, rfl,
    rfl⟩ := run
  obtain ⟨madeType, isType⟩ :=
    start.newHolder growing rfl rfl owned (by rintro ⟨⟩) fun id member => known id (owned ▸ member)
  have knownChildren : ∀ child ∈ (SymbolKind.type answer).owned, Known Anywhere grown child := by
    simpa [SymbolKind.owned] using madeType.known
  have pushed : Pushed grown (.symbol { name, kind := .type answer }) _ := pushed_push
  have madeNaming := (madeType.progress.kept.grow pushed (Edit.adopted adopting) rfl rfl
    (by rintro ⟨⟩) knownChildren).1
  have untilNaming := madeType.progress.trans madeNaming.progress
  have old : answer ≠ grown.nextId := by
    rintro rfl
    simp [Program.kindAt, get?_nextId] at isType
  have isTypeHeld : held.kindAt answer = some (.type { kind }) := by
    rw [(Edit.adopted adopting).kindAt, pushed.kinds old, isType]
  have written := untilNaming.kept.reword writing isTypeHeld .named rfl rfl rfl
  exact ⟨untilNaming.trans written, madeType.known.since (madeNaming.progress.trans written).since⟩

/-! ## Flags, uses and pragmas -/

theorem addFlag {flag : Flag} (run : Yields (Edit.addFlag id flag) before done after) :
    Progress (Constructed origin) before after := by
  simp only [Edit.addFlag, changeSymbol, yields_bind, yields_look, symbol_eq_ok] at run
  obtain ⟨symbol, _, ⟨known, rfl⟩, run⟩ := run
  exact start.reword run known (.symbol rfl) rfl rfl rfl

theorem setUsedSymbol {var : NodeId} (run : Yields (Edit.setUsedSymbol id var) before done after) :
    Progress (Constructed origin) before after := by
  rw [Edit.setUsedSymbol, yields_bind] at run
  obtain ⟨kind, _, found, run⟩ := run
  obtain ⟨known, rfl⟩ := yields_look.mp found
  rw [kindOf_eq_ok] at known
  split at run
  · exact start.reword run known .use rfl rfl rfl
  · exact (yields_fail run).elim

theorem addPragma {pragma : String} (run : Yields (Edit.addPragma id pragma) before done after) :
    Progress (Constructed origin) before after := by
  simp only [Edit.addPragma, yields_bind, yields_look, yields_change] at run
  obtain ⟨target, origin, ⟨_, rfl⟩, _, rfl⟩ := run
  refine start.progress (.quiet ?_ ?_ ?_ roots_modifyNode index_modifyNode)
  · intro id
    rw [Program.kindAt, get?_modifyNode_map, Program.kindAt]
    cases origin.get? id <;> simp [apply_ite]
  · intro id
    rw [parentOf, get?_modifyNode_map, parentOf]
    cases origin.get? id with
    | none => rfl
    | some node => by_cases isTarget : target = id <;> simp [isTarget]
  · intro id
    rw [contextOf, get?_modifyNode_map, contextOf]
    cases origin.get? id <;> simp [apply_ite]

end Constructed

end Program

end ProgramTree
