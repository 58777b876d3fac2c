import ProgramTree.Edit.Declaring
import ProgramTree.Proofs.Growth
import ProgramTree.Proofs.Steadiness

/-!
# Workshops

Builders make new nodes and take over nodes that were made for them.  A workshop is a
property that such steps keep while they stay in a zone: what is taken over or changed
lies in the zone, and so does what is made.
-/

namespace ProgramTree.Program

open Edit

/-- What has the one kind may have the other later: it stays a symbol, an expression or a
module, and a type keeps its name. -/
structure Outlives (before after : Kind) : Prop where
  isSymbol : after.isSymbol = before.isSymbol
  isExpr : after.isExpr = before.isExpr
  isModule : after.isModule = before.isModule
  naming : ∀ {naming}, before.naming? = some naming → after.naming? = some naming

/-- What was a node stays a node, and stays what it was. -/
def Since (before after : Program) : Prop :=
  ∀ id kind, before.kindAt id = some kind →
    ∃ later, after.kindAt id = some later ∧ Outlives kind later

/-- A node of the zone. -/
structure Known (zone : NodeId → Prop) (program : Program) (id : NodeId) : Prop where
  inside : zone id
  issued : (program.get? id).isSome

/-- What can stand for an operand: a node of the zone, or a symbol, which is used. -/
def Operand (zone : NodeId → Prop) (program : Program) (id : NodeId) : Prop :=
  Known zone program id ∨ (program.kindAt id).any Kind.isSymbol

/-- The kinds hold the same and count as the same. -/
structure Alike (before after : Kind) : Prop extends Outlives before after where
  owned : after.owned = before.owned
  isScope : after.isScope = before.isScope
  category : after.category? = before.category?

/-- The definition point stays, or becomes an expression of the zone that holds the node. -/
def Redefined (zone : NodeId → Prop) (program : Program) (id : NodeId) (before after : Kind) :
    Prop :=
  after.definition? = before.definition? ∨
    ∃ definition, after.definition? = some definition ∧ zone definition ∧
      (program.kindAt definition).any Kind.isExpr ∧ program.Holds definition id

/-- What is made and changed in the zone does not break the property. -/
structure Workshop (zone : NodeId → Prop) (kept : Program → Prop) : Prop where
  fresh : ∀ {program}, kept program → zone program.nextId
  grow : ∀ {before between after kind}, kept before → kind.definition? = none →
    Pushed before kind between → Adopted between before.nextId kind.owned after →
    (∀ child ∈ kind.owned, Known zone before child) → kept after
  setKind : ∀ {program id kind changed}, kept program → zone id →
    program.kindAt id = some kind → Alike kind changed → Redefined zone program id kind changed →
    kept (program.modifyNode id fun node => { node with kind := changed })
  frame : ∀ {before after : Program}, kept before → after.nodes = before.nodes →
    after.roots = before.roots → after.index = before.index → kept after

/-- The property is kept, and what was there is still there. -/
structure Progress (kept : Program → Prop) (before after : Program) : Prop where
  kept : kept after
  since : Since before after

/-- A node of the zone was made, or found. -/
structure Made (zone : NodeId → Prop) (kept : Program → Prop) (before : Program)
    (answer : NodeId) (after : Program) : Prop where
  progress : Progress kept before after
  known : Known zone after answer

variable {zone : NodeId → Prop} {kept : Program → Prop} {before between after : Program}
  {id sym type answer : NodeId} {id? : Option NodeId} {ids answers : List NodeId}
  {kind changed : Kind} {done : Unit}

/-! ## What is still there -/

namespace Outlives

theorem refl (kind : Kind) : Outlives kind kind :=
  ⟨rfl, rfl, rfl, id⟩

theorem trans {middle : Kind} (first : Outlives kind middle) (second : Outlives middle changed) :
    Outlives kind changed :=
  ⟨second.isSymbol.trans first.isSymbol, second.isExpr.trans first.isExpr,
    second.isModule.trans first.isModule, fun named => second.naming (first.naming named)⟩

theorem of_form (sameForm : kind.SameForm changed) : Outlives kind changed :=
  ⟨sameForm.isSymbol, sameForm.isExpr, sameForm.isModule, sameForm.naming⟩

end Outlives

namespace Alike

/-- Of a symbol only the kind counts. -/
theorem symbol {old new : Symbol} (sameKind : new.kind = old.kind) :
    Alike (.symbol old) (.symbol new) := by
  obtain ⟨oldName, oldType?, oldPoint?, oldFlags, kind⟩ := old
  obtain ⟨newName, newType?, newPoint?, newFlags, _⟩ := new
  subst sameKind
  exact ⟨⟨rfl, rfl, rfl, by simp [Kind.naming?, Kind.type?]⟩, rfl, rfl, rfl⟩

/-- Which symbol is used does not count. -/
theorem use {old new : NodeId} : Alike (.expr (.use old)) (.expr (.use new)) :=
  ⟨⟨rfl, rfl, rfl, by simp [Kind.naming?, Kind.type?]⟩, rfl, rfl, rfl⟩

/-- Whether a type has a name yet does not count. -/
theorem named {naming : NodeId} {kind : TypeKind} :
    Alike (.type { kind }) (.type { symbol? := some naming, kind }) :=
  ⟨⟨rfl, rfl, rfl, by simp [Kind.naming?, Kind.type?]⟩, rfl, rfl, rfl⟩

end Alike

namespace Since

theorem refl (program : Program) : Since program program :=
  fun _ kind known => ⟨kind, known, .refl kind⟩

theorem trans (first : Since before between) (second : Since between after) :
    Since before after := by
  intro id kind known
  obtain ⟨middle, knownMiddle, outlives⟩ := first id kind known
  obtain ⟨later, knownLater, outlivesMiddle⟩ := second id middle knownMiddle
  exact ⟨later, knownLater, outlives.trans outlivesMiddle⟩

theorem of_form (same : ∀ id kind, before.kindAt id = some kind →
    ∃ later, after.kindAt id = some later ∧ kind.SameForm later) : Since before after := by
  intro id kind known
  obtain ⟨later, knownLater, sameForm⟩ := same id kind known
  exact ⟨later, knownLater, .of_form sameForm⟩

variable (since : Since before after)
include since

theorem issued (issued : (before.get? id).isSome) : (after.get? id).isSome := by
  obtain ⟨node, found⟩ := Option.isSome_iff_exists.mp issued
  obtain ⟨later, known, _⟩ := since id node.kind (kindAt_eq found)
  exact get?_isSome_of_kindAt known

theorem isSymbol (symbol : (before.kindAt id).any Kind.isSymbol) :
    (after.kindAt id).any Kind.isSymbol := by
  obtain ⟨kind, known, isSymbol⟩ := (Option.any_eq_true _ _).mp symbol
  obtain ⟨later, knownLater, outlives⟩ := since id kind known
  rw [knownLater, Option.any_some, outlives.isSymbol, isSymbol]

theorem isExpr (expr : (before.kindAt id).any Kind.isExpr) :
    (after.kindAt id).any Kind.isExpr := by
  obtain ⟨kind, known, isExpr⟩ := (Option.any_eq_true _ _).mp expr
  obtain ⟨later, knownLater, outlives⟩ := since id kind known
  rw [knownLater, Option.any_some, outlives.isExpr, isExpr]

theorem notModule (notModule : (before.kindAt id).any (!·.isModule)) :
    (after.kindAt id).any (!·.isModule) := by
  obtain ⟨kind, known, notModule⟩ := (Option.any_eq_true _ _).mp notModule
  obtain ⟨later, knownLater, outlives⟩ := since id kind known
  rw [knownLater, Option.any_some, outlives.isModule, notModule]

end Since

theorem Known.since (known : Known zone before id) (since : Since before after) :
    Known zone after id :=
  ⟨known.inside, since.issued known.issued⟩

theorem Operand.since (operand : Operand zone before id) (since : Since before after) :
    Operand zone after id :=
  operand.imp (·.since since) since.isSymbol

theorem steady_since (origin : Program) : Steady (Since origin) where
  push undefined := fun since => since.trans <| .of_form fun id kind known =>
    (steady_form id kind).push undefined ⟨kind, known, .refl kind⟩
  modifyNode same := fun since => since.trans <| .of_form fun id kind known =>
    (steady_form id kind).modifyNode same ⟨kind, known, .refl kind⟩
  frame := fun since nodes roots => since.trans <| .of_form fun id kind known =>
    (steady_form id kind).frame ⟨kind, known, .refl kind⟩ nodes roots

theorem kindAt_setKind {other : NodeId} (known : before.kindAt id = some kind) :
    (before.modifyNode id fun node => { node with kind := changed }).kindAt other =
      if other = id then some changed else before.kindAt other := by
  obtain ⟨node, found, rfl⟩ := get?_of_kindAt known
  by_cases isId : other = id
  · rw [if_pos isId, isId, kindAt, get?_modifyNode, if_pos rfl, found, Option.map_some,
      Option.map_some]
  · rw [if_neg isId, kindAt, get?_modifyNode_of_ne (Ne.symm isId), kindAt]

theorem parentOf_setKind {other : NodeId} :
    (before.modifyNode id fun node => { node with kind }).parentOf other =
      before.parentOf other := by
  rw [parentOf, get?_modifyNode, parentOf]
  split
  · cases before.get? other <;> rfl
  · rfl

theorem since_setKind (known : before.kindAt id = some kind) (alike : Alike kind changed) :
    Since before (before.modifyNode id fun node => { node with kind := changed }) := by
  intro other otherKind knownOther
  rw [kindAt_setKind known]
  by_cases isId : other = id
  · rw [isId, known, Option.some.injEq] at knownOther
    rw [if_pos isId, ← knownOther]
    exact ⟨changed, rfl, alike.toOutlives⟩
  · rw [if_neg isId]
    exact ⟨otherKind, knownOther, .refl otherKind⟩

/-! ## Progress -/

namespace Progress

theorem refl (start : kept before) : Progress kept before before :=
  ⟨start, .refl before⟩

theorem trans (first : Progress kept before between) (second : Progress kept between after) :
    Progress kept before after :=
  ⟨second.kept, first.since.trans second.since⟩

end Progress

theorem Made.both (made : Made zone kept before answer after) :
    Progress kept before after ∧ Known zone after answer :=
  ⟨made.progress, made.known⟩

theorem Made.following (made : Made zone kept between answer after)
    (progress : Progress kept before between) : Made zone kept before answer after :=
  ⟨progress.trans made.progress, made.known⟩

section Runs

variable {α β : Type} {items : List β} {results : List α}

theorem mapM_progress {edit : β → Edit α} {good : Program → α → Prop}
    (run : Yields (items.mapM edit) before results after) (start : kept before)
    (each : ∀ middle later item result, item ∈ items → Progress kept before middle →
      Yields (edit item) middle result later → Progress kept middle later ∧ good later result)
    (stable : ∀ middle later result, good middle result → Since middle later → good later result) :
    Progress kept before after ∧ ∀ result ∈ results, good after result := by
  induction items generalizing before results with
  | nil =>
    obtain ⟨rfl, rfl⟩ := yields_pure.mp run
    exact ⟨.refl start, by simp⟩
  | cons first rest ih =>
    simp only [List.mapM_cons, yields_bind, yields_pure] at run
    obtain ⟨result, middle, runFirst, later, _, runRest, rfl, rfl⟩ := run
    obtain ⟨progressFirst, goodFirst⟩ := each _ _ _ _ (by simp) (.refl start) runFirst
    obtain ⟨progressRest, goodRest⟩ := ih runRest progressFirst.kept
      fun middle later item result member progress =>
        each middle later item result (by simp [member]) (progressFirst.trans progress)
    refine ⟨progressFirst.trans progressRest, fun result member => ?_⟩
    rcases List.mem_cons.mp member with rfl | isLater
    · exact stable _ _ _ goodFirst progressRest.since
    · exact goodRest result isLater

theorem forM_progress {edit : β → Edit Unit} (run : Yields (items.forM edit) before () after)
    (start : kept before)
    (each : ∀ middle later item, item ∈ items → Progress kept before middle →
      Yields (edit item) middle () later → Progress kept middle later) :
    Progress kept before after := by
  induction items generalizing before with
  | nil =>
    obtain rfl := yields_forM_nil.mp run
    exact .refl start
  | cons first rest ih =>
    obtain ⟨middle, runFirst, runRest⟩ := yields_forM_cons.mp run
    have progressFirst := each _ _ _ (by simp) (.refl start) runFirst
    exact progressFirst.trans <| ih runRest progressFirst.kept fun middle later item member progress =>
      each middle later item (by simp [member]) (progressFirst.trans progress)

end Runs

namespace Workshop

variable (workshop : Workshop zone kept) (start : kept before)
include workshop start

/-! ## Steps -/

theorem made_of_adopted (undefined : kind.definition? = none) (pushed : Pushed before kind between)
    (adopted : Adopted between before.nextId kind.owned after)
    (known : ∀ child ∈ kind.owned, Known zone before child) :
    Made zone kept before before.nextId after ∧ after.kindAt before.nextId = some kind := by
  have old : before.nextId ∉ kind.owned := by
    intro owned
    have issued := (known _ owned).issued
    simp [get?_nextId] at issued
  have grown := pushed.grown adopted old
  have since : Since before after := by
    intro id kind isKind
    refine ⟨kind, ?_, .refl kind⟩
    rw [grown.kinds ?_, isKind]
    rintro rfl
    simp [Program.kindAt, get?_nextId] at isKind
  obtain ⟨node, found, _⟩ := get?_of_kindAt grown.known
  exact ⟨⟨⟨workshop.grow start undefined pushed adopted known, since⟩,
    ⟨workshop.fresh start, by simp [found]⟩⟩, grown.known⟩

theorem progress_setKind (run : Yields (Edit.setKind id changed) before done after)
    (inside : zone id) (known : before.kindAt id = some kind) (alike : Alike kind changed)
    (redefined : Redefined zone before id kind changed) :
    Progress kept before after ∧ after.kindAt id = some changed := by
  obtain ⟨_, rfl⟩ := yields_change.mp run
  refine ⟨⟨workshop.setKind start inside known alike redefined, since_setKind known alike⟩, ?_⟩
  rw [kindAt_setKind known, if_pos rfl]

theorem progress_of_nodes (nodes : after.nodes = before.nodes) (roots : after.roots = before.roots)
    (index : after.index = before.index) : Progress kept before after := by
  refine ⟨workshop.frame start nodes roots index, ?_⟩
  exact (steady_since before).frame (.refl before) nodes fun _ root => roots ▸ root

/-- An edit whose nodes are attributed to another node's place runs between two programs
that differ in nothing else. -/
theorem exists_withLocationOf {α : Type} {edit : Edit α} {given : α}
    (run : Yields (Edit.withLocationOf id edit) before given after) :
    ∃ entered left, Progress kept before entered ∧ Yields edit entered given left ∧
      (kept left → Progress kept left after) ∧ after.kindAt = left.kindAt := by
  obtain ⟨node, left, _, inner, rfl⟩ := yields_withLocationOf.mp run
  exact ⟨{ before with givenLocation? := some node.location }, left,
    workshop.progress_of_nodes start rfl rfl rfl, inner,
    fun keptLeft => workshop.progress_of_nodes keptLeft rfl rfl rfl, rfl⟩

theorem newHolder (run : Yields (Edit.newHolder kind ids) before answer after)
    (undefined : kind.definition? = none) (owned : kind.owned = ids)
    (known : ∀ child ∈ ids, Known zone before child) :
    Made zone kept before answer after ∧ after.kindAt answer = some kind := by
  subst owned
  simp only [Edit.newHolder, yields_bind, yields_newNode, yields_pure] at run
  obtain ⟨_, _, ⟨rfl, rfl⟩, _, _, adoption, rfl, rfl⟩ := run
  exact workshop.made_of_adopted start undefined pushed_push (Edit.adopted adoption) known

theorem newNode (run : Yields (Edit.newNode kind) before answer after)
    (undefined : kind.definition? = none) (leaf : kind.owned = []) :
    Made zone kept before answer after ∧ after.kindAt answer = some kind := by
  obtain ⟨rfl, rfl⟩ := yields_newNode.mp run
  have adopted : Adopted (before.push kind) before.nextId kind.owned (before.push kind) := by
    rw [leaf]
    exact ⟨by simp, nofun, nofun, nofun, .nil, rfl⟩
  exact workshop.made_of_adopted start undefined pushed_push adopted (by simp [leaf])

/-! ## Operands and lists -/

theorem asOperand (operand : Operand zone before id)
    (run : Yields (Edit.asOperand id) before answer after) :
    Made zone kept before answer after := by
  simp only [Edit.asOperand, yields_bind, yields_look, isSymbol_eq_ok, yields_ite] at run
  obtain ⟨isSymbol, _, ⟨known, rfl⟩, ⟨_, run⟩ | ⟨notSymbol, run⟩⟩ := run
  · exact (workshop.newNode start run rfl rfl).1
  · obtain ⟨rfl, rfl⟩ := yields_pure.mp run
    refine ⟨.refl start, operand.resolve_right fun symbol => notSymbol ?_⟩
    obtain ⟨kind, isKind, rfl⟩ := Option.map_eq_some_iff.mp known
    simpa [isKind] using symbol

theorem newExprStmt (known : Known zone before id)
    (run : Yields (Edit.newExprStmt id) before answer after) :
    Made zone kept before answer after := by
  simp only [Edit.newExprStmt, yields_bind, yields_pure] at run
  obtain ⟨_, _, created, _, _, adoption, rfl, rfl⟩ := run
  obtain ⟨rfl, pushed⟩ := pushed_withLocationOf created
  refine (workshop.made_of_adopted start rfl pushed (Edit.adopted adoption) ?_).1
  simpa [Kind.owned, Stmt.owned] using known

theorem asStmt (known : Known zone before id)
    (run : Yields (Edit.asStmt id) before answer after) : Made zone kept before answer after := by
  simp only [Edit.asStmt, yields_bind, yields_look, yields_ite] at run
  obtain ⟨kind, _, ⟨_, rfl⟩, ⟨_, run⟩ | ⟨_, run⟩⟩ := run
  · exact workshop.newExprStmt start known run
  · obtain ⟨rfl, rfl⟩ := yields_pure.mp run
    exact ⟨.refl start, known⟩

theorem asElement {holds : ListCategory} (known : Known zone before id)
    (run : Yields (Edit.asElement holds id) before answer after) :
    Made zone kept before answer after := by
  cases holds with
  | stmts => exact workshop.asStmt start known run
  | exprs | defs =>
    obtain ⟨rfl, rfl⟩ := yields_pure.mp run
    exact ⟨.refl start, known⟩

theorem newList {holds : ListCategory} (known : ∀ id ∈ ids, Known zone before id)
    (run : Yields (Edit.newList holds ids) before answer after) :
    Made zone kept before answer after := by
  obtain ⟨elements, middle, runElements, runList⟩ := yields_bind.mp run
  obtain ⟨progress, knownElements⟩ :=
    mapM_progress runElements start (fun _ _ id _ member progress run =>
      (workshop.asElement progress.kept ((known id member).since progress.since) run).both)
      fun _ _ _ known since => known.since since
  have made := workshop.newHolder progress.kept runList rfl (by simp [Kind.owned]) knownElements
  exact made.1.following progress

theorem newOperands (operands : ∀ id ∈ ids, Operand zone before id)
    (run : Yields (Edit.newOperands ids) before answer after) :
    Made zone kept before answer after := by
  obtain ⟨uses, middle, runUses, runList⟩ := yields_bind.mp run
  obtain ⟨progress, knownUses⟩ :=
    mapM_progress runUses start (fun _ _ id _ member progress run =>
      (workshop.asOperand progress.kept ((operands id member).since progress.since) run).both)
      fun _ _ _ known since => known.since since
  exact (workshop.newList progress.kept knownUses runList).following progress

theorem newBlock (known : ∀ id ∈ ids, Known zone before id)
    (run : Yields (Edit.newBlock ids) before answer after) :
    Made zone kept before answer after := by
  obtain ⟨body, middle, runBody, runBlock⟩ := yields_bind.mp run
  have madeBody := workshop.newList start known runBody
  have knownBodies : ∀ child ∈ [body], Known zone middle child := by simpa using madeBody.known
  have made := workshop.newHolder madeBody.progress.kept runBlock rfl rfl knownBodies
  exact made.1.following madeBody.progress

theorem asBlock (known : Known zone before id)
    (run : Yields (Edit.asBlock id) before answer after) : Made zone kept before answer after := by
  rw [Edit.asBlock, yields_bind] at run
  obtain ⟨kind, middle, found, run⟩ := run
  obtain ⟨_, rfl⟩ := yields_look.mp found
  split at run
  · obtain ⟨rfl, rfl⟩ := yields_pure.mp run
    exact ⟨.refl start, known⟩
  · exact workshop.newBlock start (by simpa using known) run

/-! ## Calls and conditionals -/

theorem newPrimitiveCall {operation : Primitive} (operands : ∀ id ∈ ids, Operand zone before id)
    (run : Yields (Edit.newPrimitiveCall operation ids) before answer after) :
    Made zone kept before answer after := by
  obtain ⟨args, middle, runArgs, runCall⟩ := yields_bind.mp run
  have madeArgs := workshop.newOperands start operands runArgs
  have knownChildren : ∀ child ∈ [args], Known zone middle child := by simpa using madeArgs.known
  have made := workshop.newHolder madeArgs.progress.kept runCall rfl rfl knownChildren
  exact made.1.following madeArgs.progress

theorem newCall {callee : NodeId} (operand : Operand zone before callee)
    (operands : ∀ id ∈ ids, Operand zone before id)
    (run : Yields (Edit.newCall callee ids) before answer after) :
    Made zone kept before answer after := by
  simp only [Edit.newCall, yields_bind] at run
  obtain ⟨callee, called, runCallee, args, middle, runArgs, runCall⟩ := run
  have madeCallee := workshop.asOperand start operand runCallee
  have madeArgs := workshop.newOperands madeCallee.progress.kept
    (fun id member => (operands id member).since madeCallee.progress.since) runArgs
  have knownChildren : ∀ child ∈ [callee, args], Known zone middle child := by
    simpa using ⟨madeCallee.known.since madeArgs.progress.since, madeArgs.known⟩
  have made := workshop.newHolder madeArgs.progress.kept runCall rfl rfl knownChildren
  exact made.1.following (madeCallee.progress.trans madeArgs.progress)

theorem newCond {condition thenStmt elseStmt : NodeId} (operand : Operand zone before condition)
    (knownThen : Known zone before thenStmt) (knownElse : Known zone before elseStmt)
    (run : Yields (Edit.newCond condition thenStmt (some elseStmt)) before answer after) :
    Made zone kept before answer after := by
  simp only [Edit.newCond, asStmt?, yields_bind, yields_pure] at run
  obtain ⟨use, tested, runUse, inner, opened, runThen, _, closed, ⟨other, _, runElse, rfl, rfl⟩,
    runCond⟩ := run
  have madeUse := workshop.asOperand start operand runUse
  have madeThen := workshop.asStmt madeUse.progress.kept
    (knownThen.since madeUse.progress.since) runThen
  have untilThen := madeUse.progress.trans madeThen.progress
  have madeElse := workshop.asStmt untilThen.kept (knownElse.since untilThen.since) runElse
  have knownChildren : ∀ child ∈ [use, inner, other], Known zone closed child := by
    have keptUse := madeUse.known.since (madeThen.progress.trans madeElse.progress).since
    simpa using ⟨keptUse, madeThen.known.since madeElse.progress.since, madeElse.known⟩
  have made := workshop.newHolder madeElse.progress.kept runCond rfl rfl knownChildren
  exact made.1.following (untilThen.trans madeElse.progress)

/-! ## Symbols -/

theorem newSymbol {name : String} {kind : SymbolKind} (leaf : kind.owned = [])
    (run : Yields (Edit.newSymbol name id? kind) before answer after) :
    Made zone kept before answer after :=
  (workshop.newNode start run rfl leaf).1

theorem addFlag {flag : Flag} (inside : zone id)
    (run : Yields (Edit.addFlag id flag) before done after) : Progress kept before after := by
  simp only [Edit.addFlag, changeSymbol, yields_bind, yields_look, symbol_eq_ok] at run
  obtain ⟨symbol, _, ⟨known, rfl⟩, run⟩ := run
  exact (workshop.progress_setKind start run inside known (.symbol rfl) (.inl rfl)).1

theorem newTemp {name : String} (run : Yields (Edit.newTemp name id?) before answer after) :
    Made zone kept before answer after := by
  simp only [Edit.newTemp, yields_bind, yields_pure] at run
  obtain ⟨_, _, runVar, _, _, runFlag, rfl, rfl⟩ := run
  have madeVar := workshop.newSymbol start rfl runVar
  have flagged := workshop.addFlag madeVar.progress.kept madeVar.known.inside runFlag
  exact ⟨madeVar.progress.trans flagged, madeVar.known.since flagged.since⟩

theorem setUsedSymbol {var : NodeId} (inside : zone id)
    (run : Yields (Edit.setUsedSymbol id var) before done after) : Progress kept before after := by
  rw [Edit.setUsedSymbol, yields_bind] at run
  obtain ⟨kind, _, found, run⟩ := run
  obtain ⟨known, rfl⟩ := yields_look.mp found
  rw [kindOf_eq_ok] at known
  split at run
  · exact (workshop.progress_setKind start run inside known .use (.inl rfl)).1
  · exact (yields_fail run).elim

/-- A definition of a symbol of the zone becomes its definition point. -/
theorem define (known : Known zone before sym)
    (run : Yields (Edit.define sym) before answer after) : Made zone kept before answer after := by
  simp only [Edit.define, newDefinition, asOperand?, changeSymbol, yields_bind, yields_look,
    yields_ite, yields_fail, yields_pure, symbol_eq_ok] at run
  obtain ⟨_, _, ⟨_, rfl⟩, ⟨_, _, _, never, _⟩ | ⟨_, run⟩⟩ := run
  · exact never.elim
  · obtain ⟨_, _, ⟨rfl, rfl⟩, _, origin, ⟨rfl, rfl⟩, _, _, created, _, _, adoption, _, defined,
      ⟨symbol, _, ⟨isSymbol, rfl⟩, writing⟩, rfl, rfl⟩ := run
    obtain ⟨rfl, pushed⟩ := pushed_withLocationOf created
    have knownChildren : ∀ child ∈ [sym], Known zone origin child := by simpa using known
    obtain ⟨made, isDefinition⟩ :=
      workshop.made_of_adopted start rfl pushed (Edit.adopted adoption) knownChildren
    have defining := workshop.progress_setKind made.progress.kept writing known.inside isSymbol
      (.symbol rfl) (.inr ⟨origin.nextId, rfl, made.known.inside, ?_, ?_⟩)
    · exact ⟨made.progress.trans defining.1, made.known.since defining.1.since⟩
    · simp [isDefinition, Kind.isExpr]
    · simp [Holds, held_eq_of_kindAt isDefinition, Kind.owned, Expr.owned]

theorem newFn {name : String} {body : NodeId} (known : ∀ id ∈ ids, Known zone before id)
    (knownBody : Known zone before body)
    (run : Yields (Edit.newFn name ids body id?) before answer after) :
    Made zone kept before answer after := by
  simp only [Edit.newFn, Edit.newSymbol, yields_bind, yields_newNode, yields_pure] at run
  obtain ⟨definitions, defined, runDefinitions, formals, listed, runFormals, block, framed,
    runBlock, _, _, ⟨rfl, rfl⟩, _, _, adoption, rfl, rfl⟩ := run
  obtain ⟨progress, knownDefinitions⟩ :=
    mapM_progress runDefinitions start (fun _ _ id _ member progress run =>
      (workshop.define progress.kept ((known id member).since progress.since) run).both)
      fun _ _ _ known since => known.since since
  have madeFormals := workshop.newList progress.kept knownDefinitions runFormals
  have untilFormals := progress.trans madeFormals.progress
  have madeBlock := workshop.asBlock untilFormals.kept (knownBody.since untilFormals.since) runBlock
  have knownChildren : ∀ child ∈ [formals, block], Known zone framed child := by
    simpa using ⟨madeFormals.known.since madeBlock.progress.since, madeBlock.known⟩
  have pushed : Pushed framed (.symbol { name, kind := .fn formals block id? none }) _ := pushed_push
  have made := workshop.made_of_adopted madeBlock.progress.kept rfl pushed (Edit.adopted adoption)
    knownChildren
  exact made.1.following (untilFormals.trans madeBlock.progress)

/-! ## Types -/

/-- A type that holds what it takes over gets a name. -/
theorem newNamedType {name : String} {kind : TypeKind}
    (owned : kind.owned = adoptedByType kind) (known : ∀ child ∈ kind.owned, Known zone before child)
    (run : Yields (Edit.newNamedType name kind) before answer after) :
    Made zone kept before answer after ∧ ∃ naming, Known zone after naming ∧
      after.kindAt answer = some (.type { symbol? := some naming, kind }) := by
  simp only [Edit.newNamedType, Edit.newSymbol, yields_bind, yields_newNode, yields_pure] at run
  obtain ⟨type, grown, growing, naming, _, ⟨rfl, rfl⟩, _, held, adopting, _, _, writing, rfl, rfl⟩ :=
    run
  obtain ⟨madeType, isType⟩ := workshop.newHolder start growing rfl owned (owned ▸ known)
  have knownChildren : ∀ child ∈ [answer], Known zone grown child := by
    simpa using madeType.known
  have pushed : Pushed grown (.symbol { name, kind := .type answer }) _ := pushed_push
  have madeNaming := (workshop.made_of_adopted madeType.progress.kept rfl pushed
    (Edit.adopted adopting) knownChildren).1
  have untilNaming := madeType.progress.trans madeNaming.progress
  have isTypeHeld : held.kindAt answer = some (.type { kind }) := by
    rw [(Edit.adopted adopting).kindAt, Program.kindAt, get?_push, if_neg, ← Program.kindAt, isType]
    rintro same
    simp [same, Program.kindAt, get?_nextId] at isType
  obtain ⟨written, isNamed⟩ := workshop.progress_setKind untilNaming.kept writing
    madeType.known.inside isTypeHeld .named (.inl rfl)
  refine ⟨⟨untilNaming.trans written, ?_⟩, grown.nextId, ?_, isNamed⟩
  · exact madeType.known.since (madeNaming.progress.trans written).since
  · exact madeNaming.known.since written.since

theorem newAggregateType {name : String} {tag : AggregateTag}
    (run : Yields (Edit.newAggregateType name tag) before answer after) :
    Made zone kept before answer after ∧ ∃ naming fields, Known zone after naming ∧
      after.kindAt answer = some (.type { symbol? := some naming, kind := .aggregate tag fields }) := by
  obtain ⟨fields, listed, listing, naming⟩ := yields_bind.mp run
  have madeFields := workshop.newList start (by simp) listing
  have knownFields : ∀ child ∈ (TypeKind.aggregate tag fields).owned, Known zone listed child := by
    simpa [TypeKind.owned] using madeFields.known
  obtain ⟨made, symbol, known, isType⟩ :=
    workshop.newNamedType madeFields.progress.kept rfl knownFields naming
  exact ⟨made.following madeFields.progress, symbol, fields, known, isType⟩

end Workshop

end ProgramTree.Program
