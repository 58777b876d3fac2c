import Mathlib.Data.List.Forall2
import ProgramTree.Proofs.Revisions

/-!
# Fragments

The small pieces of code that a pass adds: uses, calls of operations, definitions of fresh
symbols.  What a builder makes is described by the kinds of the new nodes alone, so a later
revision leaves it as it is.
-/

namespace ProgramTree.Program

open Edit

/-- A node of this kind that `origin` does not have. -/
structure Added (origin program : Program) (id : NodeId) (kind : Kind) : Prop where
  new : origin.New id
  known : program.kindAt id = some kind

/-- A new use of the symbol. -/
abbrev IsUse (origin program : Program) (id sym : NodeId) : Prop :=
  Added origin program id (.expr (.use sym))

/-- A new call of the operation with these arguments. -/
def Calls (origin program : Program) (operation : Primitive) (call : NodeId) (args : List NodeId) :
    Prop :=
  ∃ list, Added origin program call (.expr (.call (.primitive operation) list)) ∧
    Added origin program list (.list .exprs args.toArray)

/-- A new call of the operation on new uses of these symbols. -/
def Operates (origin program : Program) (operation : Primitive) (call : NodeId)
    (symbols : List NodeId) : Prop :=
  ∃ args, Calls origin program operation call args ∧
    List.Forall₂ (fun sym arg => IsUse origin program arg sym) symbols args

/-- A new assignment of the value to the variable. -/
def Sets (origin program : Program) (set var value : NodeId) : Prop :=
  ∃ use, Calls origin program .move set [use, value] ∧ IsUse origin program use var

/-- A new symbol, together with its definition. -/
structure Declares (origin program : Program) (definition id : NodeId) (symbol : Symbol) :
    Prop where
  defines : Added origin program definition (.expr (.definition id none none))
  defined : Added origin program id (.symbol { symbol with defPoint? := some definition })

/-- The element is the expression, or a new statement that runs it. -/
def StandsFor (origin program : Program) (element expr : NodeId) : Prop :=
  element = expr ∨ Added origin program element (.stmt (.expr expr))

/-- The argument for an operand is a use of it if it is a symbol, or else the operand itself. -/
inductive IsArgument (origin program : Program) : NodeId → NodeId → Prop where
  | use {sym id : NodeId} (symbol : (program.kindAt sym).any Kind.isSymbol)
      (use : IsUse origin program id sym) : IsArgument origin program sym id
  | expr {id : NodeId} (new : origin.New id) (isExpr : (program.kindAt id).any Kind.isExpr) :
      IsArgument origin program id id

variable {origin before between after : Program} {touched : NodeId → Prop}
  {id sym element expr answer list : NodeId} {kind : Kind} {symbol : Symbol} {operation : Primitive}
  {ids args : List NodeId} {done : Unit}

theorem Added.issued (added : Added origin before id kind) : ¬ before.New id :=
  issued_of_kindAt added.known

theorem IsArgument.new (argument : IsArgument origin before sym id) :
    origin.New id ∧ ¬ before.New id := by
  cases argument with
  | use _ use => exact ⟨use.new, use.issued⟩
  | expr new isExpr => exact ⟨new, issued_of_any isExpr⟩

theorem not_isSymbol_of_isExpr (isExpr : (before.kindAt id).any Kind.isExpr) :
    ¬ (before.kindAt id).any Kind.isSymbol := by
  obtain ⟨kind, known, isExpr⟩ := (Option.any_eq_true _ _).mp isExpr
  cases kind with
  | expr => simp [known, Kind.isSymbol, Kind.symbol?]
  | _ => cases isExpr

/-- The argument for a symbol is a use of it. -/
theorem IsArgument.isUse (argument : IsArgument origin before sym id)
    (symbol : (before.kindAt sym).any Kind.isSymbol) : IsUse origin before id sym := by
  cases argument with
  | use _ use => exact use
  | expr _ isExpr => exact absurd symbol (not_isSymbol_of_isExpr isExpr)

/-- An expression is its own argument. -/
theorem IsArgument.same (argument : IsArgument origin before sym id)
    (isExpr : (before.kindAt sym).any Kind.isExpr) : id = sym := by
  cases argument with
  | use symbol _ => exact absurd symbol (not_isSymbol_of_isExpr isExpr)
  | expr => rfl

theorem new_of_arguments (areArguments : List.Forall₂ (IsArgument origin before) ids args) :
    ∀ arg ∈ args, origin.New arg ∧ ¬ before.New arg := by
  induction areArguments with
  | nil => nofun
  | cons isArgument _ ih => simpa using ⟨isArgument.new, ih⟩

/-- A new expression, which can be put somewhere. -/
structure NewExpr (origin program : Program) (id : NodeId) : Prop where
  new : origin.New id
  isExpr : (program.kindAt id).any Kind.isExpr

theorem NewExpr.issued (newExpr : NewExpr origin before id) : ¬ before.New id :=
  issued_of_any newExpr.isExpr

theorem Calls.newExpr (calls : Calls origin before operation id args) :
    NewExpr origin before id := by
  obtain ⟨_, call, _⟩ := calls
  exact ⟨call.new, by simp [call.known, Kind.isExpr]⟩

theorem Operates.newExpr (operates : Operates origin before operation id ids) :
    NewExpr origin before id := by
  obtain ⟨_, calls, _⟩ := operates
  exact calls.newExpr

theorem Sets.newExpr {value : NodeId} (sets : Sets origin before id sym value) :
    NewExpr origin before id := by
  obtain ⟨_, calls, _⟩ := sets
  exact calls.newExpr

theorem IsUse.newExpr (use : IsUse origin before id sym) : NewExpr origin before id :=
  ⟨use.new, by simp [use.known, Kind.isExpr]⟩

theorem Declares.newExpr (declares : Declares origin before id sym symbol) :
    NewExpr origin before id :=
  ⟨declares.defines.new, by simp [declares.defines.known, Kind.isExpr]⟩

theorem Declares.isSymbol (declares : Declares origin before id sym symbol) :
    (before.kindAt sym).any Kind.isSymbol := by
  simp [declares.defined.known, Kind.isSymbol, Kind.symbol?]

theorem StandsFor.new (stands : StandsFor origin before element expr) (new : origin.New expr) :
    origin.New element := by
  rcases stands with rfl | added
  · exact new
  · exact added.new

/-! ## Fragments stay what they are -/

section Keeping

variable (revision : Revision origin touched before after)
include revision

theorem Added.keep (added : Added origin before id kind) (untouched : ¬ touched id) :
    Added origin after id kind :=
  ⟨added.new, revision.kinds added.known untouched⟩

/-- What fails a test stays what it is, if the new nodes that are touched pass it. -/
theorem Added.keep_of_test {test : Kind → Bool} (added : Added origin before id kind)
    (spared : ∀ id, touched id → ¬ origin.New id ∨ (before.kindAt id).any test)
    (fails : test kind = false) :
    Added origin after id kind := by
  refine added.keep revision fun again => ?_
  rcases spared id again with old | passes
  · exact old added.new
  · rw [added.known, Option.any_some, fails] at passes
    cases passes

theorem Added.keep_of_old (added : Added origin before id kind)
    (old : ∀ id, touched id → ¬ origin.New id) : Added origin after id kind :=
  added.keep revision fun again => old id again added.new

theorem Calls.keep (calls : Calls origin before operation id args)
    (spared : ∀ id, touched id → ¬ origin.New id ∨ (before.kindAt id).any Kind.isSymbol) :
    Calls origin after operation id args := by
  obtain ⟨list, call, isList⟩ := calls
  exact ⟨list, call.keep_of_test revision spared rfl, isList.keep_of_test revision spared rfl⟩

theorem Operates.keep (operates : Operates origin before operation id ids)
    (spared : ∀ id, touched id → ¬ origin.New id ∨ (before.kindAt id).any Kind.isSymbol) :
    Operates origin after operation id ids := by
  obtain ⟨args, calls, uses⟩ := operates
  exact ⟨args, calls.keep revision spared,
    uses.imp fun _ _ use => use.keep_of_test revision spared rfl⟩

theorem Sets.keep {value : NodeId} (sets : Sets origin before id sym value)
    (spared : ∀ id, touched id → ¬ origin.New id ∨ (before.kindAt id).any Kind.isSymbol) :
    Sets origin after id sym value := by
  obtain ⟨use, calls, isUse⟩ := sets
  exact ⟨use, calls.keep revision spared, isUse.keep_of_test revision spared rfl⟩

theorem Declares.keep (declares : Declares origin before id sym symbol)
    (spared : ∀ id, touched id → ¬ origin.New id ∨ (before.kindAt id).any Kind.isList) :
    Declares origin after id sym symbol :=
  ⟨declares.defines.keep_of_test revision spared rfl,
    declares.defined.keep_of_test revision spared rfl⟩

theorem StandsFor.keep (stands : StandsFor origin before element expr)
    (old : ∀ id, touched id → ¬ origin.New id) : StandsFor origin after element expr :=
  stands.imp_right (·.keep_of_old revision old)

/-- No new node is touched but uses of symbols that are not new. -/
def Spares (origin program : Program) (touched : NodeId → Prop) : Prop :=
  ∀ id, touched id → origin.New id →
    ∃ sym, program.kindAt id = some (.expr (.use sym)) ∧ ¬ origin.New sym

omit revision in
theorem spares_of_old (old : ∀ id, touched id → ¬ origin.New id) : Spares origin program touched :=
  fun id again new => absurd new (old id again)

section Spared

variable (spares : Spares origin before touched)
include spares

theorem Added.keep_of_spares (added : Added origin before id kind)
    (fresh : ∀ sym, kind = .expr (.use sym) → origin.New sym) : Added origin after id kind := by
  refine added.keep revision fun again => ?_
  obtain ⟨sym, isUse, old⟩ := spares id again added.new
  exact old (fresh sym (Option.some.inj (added.known.symm.trans isUse)))

theorem Calls.keep_of_spares (calls : Calls origin before operation id args) :
    Calls origin after operation id args := by
  obtain ⟨list, call, isList⟩ := calls
  exact ⟨list, call.keep_of_spares revision spares nofun,
    isList.keep_of_spares revision spares nofun⟩

theorem IsUse.keep_of_spares (use : IsUse origin before id sym) (new : origin.New sym) :
    IsUse origin after id sym :=
  Added.keep_of_spares revision spares use fun other same => by
    rw [Kind.expr.injEq, Expr.use.injEq] at same
    exact same ▸ new

theorem Operates.keep_of_spares (operates : Operates origin before operation id ids)
    (new : ∀ sym ∈ ids, origin.New sym) : Operates origin after operation id ids := by
  obtain ⟨args, calls, uses⟩ := operates
  refine ⟨args, calls.keep_of_spares revision spares, ?_⟩
  clear calls
  induction uses with
  | nil => exact .nil
  | cons first _ ih =>
    obtain ⟨newFirst, newRest⟩ := List.forall_mem_cons.mp new
    exact .cons (IsUse.keep_of_spares revision spares first newFirst) (ih newRest)

theorem Sets.keep_of_spares {value : NodeId} (sets : Sets origin before id sym value)
    (new : origin.New sym) : Sets origin after id sym value := by
  obtain ⟨use, calls, isUse⟩ := sets
  exact ⟨use, calls.keep_of_spares revision spares, IsUse.keep_of_spares revision spares isUse new⟩

theorem Declares.keep_of_spares (declares : Declares origin before id sym symbol) :
    Declares origin after id sym symbol :=
  ⟨declares.defines.keep_of_spares revision spares nofun,
    declares.defined.keep_of_spares revision spares nofun⟩

theorem StandsFor.keep_of_spares (stands : StandsFor origin before element expr) :
    StandsFor origin after element expr :=
  stands.imp_right (·.keep_of_spares revision spares nofun)

end Spared

end Keeping

theorem Revision.passes {test : Kind → Bool} (revision : Revision origin touched before after)
    (passes : (before.kindAt id).any test) (untouched : ¬ touched id) :
    (after.kindAt id).any test := by
  obtain ⟨kind, known, passes⟩ := (Option.any_eq_true _ _).mp passes
  rw [revision.kinds known untouched]
  exact passes

theorem IsArgument.keep (argument : IsArgument origin before sym id)
    (addition : Addition origin before after) : IsArgument origin after sym id := by
  cases argument with
  | use symbol use => exact .use (addition.passes symbol not_false) (use.keep addition not_false)
  | expr new isExpr => exact .expr new (addition.passes isExpr not_false)

/-! ## Builders -/

/-- A new node of this kind was made.  The nodes made on the way are new as well. -/
structure Produced (origin before : Program) (answer : NodeId) (kind : Kind) (after : Program) :
    Prop where
  addition : Addition origin before after
  unissued : before.New answer
  known : after.kindAt answer = some kind

theorem Produced.added (produced : Produced origin before answer kind after) :
    Added origin after answer kind :=
  ⟨produced.addition.past produced.unissued, produced.known⟩

theorem Produced.following (produced : Produced origin between answer kind after)
    (addition : Addition origin before between) : Produced origin before answer kind after where
  addition := addition.adding produced.addition
  unissued := not_imp_not.mp addition.issued produced.unissued
  known := produced.known

section Builders

variable (past : ∀ {id}, before.New id → origin.New id)
include past

theorem produced_of_grown (grown : Grown before kind after)
    (new : ∀ child ∈ kind.owned, origin.New child ∧ ¬ before.New child) :
    Produced origin before before.nextId kind after :=
  ⟨.of_grown past grown new, get?_nextId before, grown.known⟩

theorem produced_newHolder (run : Yields (newHolder kind ids) before answer after)
    (owned : kind.owned = ids) (new : ∀ child ∈ ids, origin.New child ∧ ¬ before.New child) :
    Produced origin before answer kind after := by
  subst owned
  simp only [newHolder, yields_bind, yields_newNode, yields_pure] at run
  obtain ⟨_, _, ⟨rfl, rfl⟩, _, _, adoption, rfl, rfl⟩ := run
  refine produced_of_grown past (pushed_push.grown (Edit.adopted adoption) ?_) new
  exact fun owned => (new _ owned).2 (get?_nextId before)

theorem produced_newNode (run : Yields (newNode kind) before answer after)
    (leaf : kind.owned = []) :
    Produced origin before answer kind after := by
  obtain ⟨rfl, rfl⟩ := yields_newNode.mp run
  have adopted : Adopted (before.push kind) before.nextId kind.owned (before.push kind) := by
    rw [leaf]
    exact ⟨by simp, nofun, nofun, nofun, .nil, rfl⟩
  exact produced_of_grown past (pushed_push.grown adopted (by simp [leaf])) (by simp [leaf])

theorem argument_of_asOperand
    (operand : (before.kindAt id).any Kind.isSymbol ∨ NewExpr origin before id)
    (run : Yields (asOperand id) before answer after) :
    Addition origin before after ∧ IsArgument origin after id answer := by
  simp only [asOperand, yields_bind, yields_look, isSymbol_eq_ok, yields_ite] at run
  obtain ⟨isSymbol, _, ⟨known, rfl⟩, ⟨symbol, run⟩ | ⟨notSymbol, run⟩⟩ := run
  · have made := produced_newNode past run rfl
    refine ⟨made.addition, .use (made.addition.passes ?_ not_false) made.added⟩
    obtain ⟨kind, isKind, rfl⟩ := Option.map_eq_some_iff.mp known
    simpa [isKind] using symbol
  · obtain ⟨rfl, rfl⟩ := yields_pure.mp run
    refine ⟨.refl past, .expr ?_ ?_⟩ <;>
    obtain ⟨kind, isKind, rfl⟩ := Option.map_eq_some_iff.mp known
    · exact (operand.resolve_left (by simpa [isKind] using notSymbol)).new
    · exact (operand.resolve_left (by simpa [isKind] using notSymbol)).isExpr

theorem arguments_of_mapM
    (operands : ∀ id ∈ ids, (before.kindAt id).any Kind.isSymbol ∨ NewExpr origin before id)
    (run : Yields (ids.mapM asOperand) before args after) :
    Addition origin before after ∧ List.Forall₂ (IsArgument origin after) ids args := by
  induction ids generalizing before args with
  | nil =>
    obtain ⟨rfl, rfl⟩ := yields_pure.mp run
    exact ⟨.refl past, .nil⟩
  | cons first rest ih =>
    simp only [List.mapM_cons, yields_bind, yields_pure] at run
    obtain ⟨argument, middle, runFirst, others, _, runRest, rfl, rfl⟩ := run
    obtain ⟨addition, isArgument⟩ := argument_of_asOperand past (operands first (by simp)) runFirst
    obtain ⟨further, areArguments⟩ := ih addition.past_after (fun id member =>
      (operands id (by simp [member])).imp (addition.passes · not_false)
        fun expr => ⟨expr.new, addition.passes expr.isExpr not_false⟩) runRest
    exact ⟨addition.adding further,
      .cons (isArgument.keep further) areArguments⟩

/-- A call of an operation has one argument for each operand. -/
theorem calls_newPrimitiveCall
    (operands : ∀ id ∈ ids, (before.kindAt id).any Kind.isSymbol ∨ NewExpr origin before id)
    (run : Yields (newPrimitiveCall operation ids) before answer after) :
    Addition origin before after ∧ before.New answer ∧ ∃ args,
      Calls origin after operation answer args ∧
      List.Forall₂ (IsArgument origin after) ids args := by
  have unwrapped : ∀ {args elements : List NodeId} {middle later : Program},
      Yields (args.mapM (asElement .exprs)) middle elements later →
        elements = args ∧ later = middle := by
    intro args elements middle later run
    rw [show asElement .exprs = pure from rfl, List.mapM_pure, yields_pure] at run
    simpa using run
  simp only [newPrimitiveCall, newOperands, newList, yields_bind] at run
  obtain ⟨list, listed, ⟨args, middle, runOperands, elements, later, sameArgs, runList⟩, runCall⟩ :=
    run
  obtain ⟨rfl, rfl⟩ := unwrapped sameArgs
  obtain ⟨addition, areArguments⟩ := arguments_of_mapM past operands runOperands
  have madeList := produced_newHolder addition.past_after runList (by simp [Kind.owned])
    (new_of_arguments areArguments)
  have madeCall := produced_newHolder madeList.addition.past_after runCall
    (by simp [Kind.owned, Expr.owned]) (by simpa using ⟨madeList.added.new, madeList.added.issued⟩)
  have untilCall := madeList.addition.adding madeCall.addition
  have made := madeCall.following (addition.adding madeList.addition)
  refine ⟨made.addition, made.unissued, elements, ?_,
    areArguments.imp fun _ _ => (·.keep untilCall)⟩
  exact ⟨list, made.added, madeList.added.keep madeCall.addition not_false⟩

theorem operates_newPrimitiveCall (symbols : ∀ id ∈ ids, (before.kindAt id).any Kind.isSymbol)
    (run : Yields (newPrimitiveCall operation ids) before answer after) :
    Addition origin before after ∧ before.New answer ∧
      Operates origin after operation answer ids := by
  obtain ⟨addition, unissued, args, calls, areArguments⟩ :=
    calls_newPrimitiveCall past (fun id member => .inl (symbols id member)) run
  refine ⟨addition, unissued, args, calls, ?_⟩
  have symbolsNow : ∀ id ∈ ids, (after.kindAt id).any Kind.isSymbol := fun id member =>
    addition.passes (symbols id member) not_false
  clear symbols run calls
  induction areArguments with
  | nil => exact .nil
  | cons first _ ih =>
    exact .cons (first.isUse (symbolsNow _ (by simp)))
      (ih fun id member => symbolsNow id (by simp [member]))

theorem sets_newPrimitiveCall {var value : NodeId} (symbol : (before.kindAt var).any Kind.isSymbol)
    (expr : NewExpr origin before value)
    (run : Yields (newPrimitiveCall .move [var, value]) before answer after) :
    Addition origin before after ∧ before.New answer ∧ Sets origin after answer var value := by
  obtain ⟨addition, unissued, args, calls, areArguments⟩ :=
    calls_newPrimitiveCall past (by simpa using ⟨.inl symbol, .inr expr⟩) run
  obtain ⟨use, _, first, rest, rfl⟩ := List.forall₂_cons_left_iff.mp areArguments
  obtain ⟨element, _, second, none, rfl⟩ := List.forall₂_cons_left_iff.mp rest
  obtain rfl := List.forall₂_nil_left_iff.mp none
  obtain rfl := second.same (addition.passes expr.isExpr not_false)
  exact ⟨addition, unissued, use, calls, first.isUse (addition.passes symbol not_false)⟩

theorem produced_newTemp {name : String} {type? : Option NodeId}
    (run : Yields (newTemp name type?) before answer after) :
    Produced origin before answer
      (.symbol { name, type?, flags := (∅ : FlagSet).insert .temp, kind := .var }) after := by
  simp only [newTemp, newVar, newSymbol, addFlag, changeSymbol, yields_bind, yields_look,
    yields_pure, symbol_eq_ok] at run
  obtain ⟨temp, middle, runNode, _, _, ⟨symbol, _, ⟨known, rfl⟩, runFlag⟩, rfl, rfl⟩ := run
  have made := produced_newNode past runNode rfl
  rw [made.known, Option.some.injEq, Kind.symbol.injEq] at known
  subst known
  obtain ⟨flagged, isFlagged⟩ :=
    Revision.of_setKind made.addition.past_after runFlag made.known (.symbol rfl rfl) fun _ => .inl
  exact ⟨made.addition.absorbing flagged fun _ same => same ▸ made.unissued,
    made.unissued, isFlagged⟩

/-- A new symbol gets a definition, which becomes its definition point. -/
theorem declares_define (new : origin.New sym) (known : before.kindAt sym = some (.symbol symbol))
    (run : Yields (define sym) before answer after) :
    Revision origin (· = sym) before after ∧ before.New answer ∧
      Declares origin after answer sym symbol := by
  simp only [define, newDefinition, asOperand?, changeSymbol, yields_bind, yields_look, yields_ite,
    yields_fail, yields_pure, symbol_eq_ok] at run
  obtain ⟨_, _, ⟨_, rfl⟩, ⟨_, _, _, never, _⟩ | ⟨_, run⟩⟩ := run
  · exact never.elim
  · obtain ⟨_, _, ⟨rfl, rfl⟩, _, start, ⟨rfl, rfl⟩, _, _, created, _, held, adoption, _, _,
      ⟨symbolNow, _, ⟨knownNow, rfl⟩, writing⟩, rfl, rfl⟩ := run
    obtain ⟨rfl, pushed⟩ := pushed_withLocationOf created
    have different : start.nextId ≠ sym := by
      rintro rfl
      exact issued_of_kindAt known (get?_nextId _)
    have made := produced_of_grown past
      (pushed.grown (Edit.adopted adoption) (by simpa [Kind.owned, Expr.owned] using different))
      (by simpa [Kind.owned, Expr.owned] using ⟨new, issued_of_kindAt known⟩)
    have stillKnown := made.addition.kinds known not_false
    rw [stillKnown, Option.some.injEq, Kind.symbol.injEq] at knownNow
    subst knownNow
    obtain ⟨written, isWritten⟩ :=
      Revision.of_setKind made.addition.past_after writing stillKnown (.symbol rfl rfl)
        fun _ => .inl
    exact ⟨written.following made.addition, made.unissued,
      made.added.keep written different, new, isWritten⟩

theorem revision_addFlag {flag : Flag} (run : Yields (addFlag sym flag) before done after) :
    ∃ symbol, before.kindAt sym = some (.symbol symbol) ∧ Revision origin (· = sym) before after ∧
      after.kindAt sym = some (.symbol { symbol with flags := symbol.flags.insert flag }) := by
  simp only [addFlag, changeSymbol, yields_bind, yields_look, symbol_eq_ok] at run
  obtain ⟨symbol, _, ⟨known, rfl⟩, writing⟩ := run
  exact ⟨symbol, known, Revision.of_setKind past writing known (.symbol rfl rfl) fun _ => .inl⟩

theorem revision_setUsedSymbol {var : NodeId}
    (run : Yields (setUsedSymbol id var) before done after) :
    Revision origin (· = id) before after ∧ after.kindAt id = some (.expr (.use var)) := by
  simp only [setUsedSymbol, yields_bind, yields_look, kindOf_eq_ok] at run
  obtain ⟨kind, _, ⟨known, rfl⟩, run⟩ := run
  split at run
  · exact Revision.of_setKind past run known (.use _ _) fun _ => .inl
  · exact (yields_fail run).elim

/-- An aggregate type comes with its empty field list and the symbol that names it. -/
theorem added_newAggregateType {name : String} {tag : AggregateTag}
    (run : Yields (newAggregateType name tag) before answer after) :
    Addition origin before after ∧ ∃ naming fields, before.New naming ∧ before.New fields ∧
      Added origin after answer (.type { symbol? := some naming, kind := .aggregate tag fields }) ∧
      Added origin after naming (.symbol { name, kind := .type answer }) ∧
      Added origin after fields (.list .defs #[]) := by
  simp only [newAggregateType, newList, newNamedType, newSymbol, List.mapM_nil, yields_bind,
    yields_pure] at run
  obtain ⟨fields, listed, ⟨_, _, ⟨rfl, rfl⟩, listing⟩, type, typed, typing, naming, named, symbol,
    _, held, adopting, _, _, writing, rfl, rfl⟩ := run
  have madeFields := produced_newHolder past listing rfl (by simp)
  have madeType := produced_newHolder madeFields.addition.past_after typing rfl
    (by simpa [adoptedByType] using ⟨madeFields.added.new, madeFields.added.issued⟩)
  have untilType := madeFields.addition.adding madeType.addition
  have holding :
      Yields (newHolder (.symbol { name, kind := .type answer }) [answer]) typed naming held :=
    yields_bind.mpr ⟨naming, named, symbol, yields_bind.mpr ⟨(), held, adopting, rfl⟩⟩
  have madeNaming := produced_newHolder untilType.past_after holding rfl
    (by simpa using ⟨madeType.added.new, madeType.added.issued⟩)
  have untilNaming := untilType.adding madeNaming.addition
  obtain ⟨written, isNamed⟩ := Revision.of_setKind untilNaming.past_after writing
    (madeNaming.addition.kinds madeType.known not_false) (.type _ _ _) fun _ => .inl
  have untilWritten := (untilType.adding madeNaming.addition).absorbing written fun id same =>
    same ▸ not_imp_not.mp madeFields.addition.issued madeType.unissued
  refine ⟨untilWritten, naming, fields, not_imp_not.mp untilType.issued madeNaming.unissued,
    madeFields.unissued, ⟨madeType.added.new, isNamed⟩,
    madeNaming.added.keep written ?_,
    ((madeFields.added.keep madeType.addition not_false).keep madeNaming.addition not_false).keep
      written ?_⟩
  · rintro rfl
    exact madeType.added.issued madeNaming.unissued
  · rintro rfl
    exact madeFields.added.issued madeType.unissued

end Builders

/-- What new nodes are attributed to does not matter. -/
theorem exists_attributed {α : Type} {edit : Edit α} {given : α}
    (run : Yields (withLocationOf id edit) before given after) :
    ∃ entered left, entered.nodes = before.nodes ∧ Yields edit entered given left ∧
      after.nodes = left.nodes := by
  obtain ⟨node, left, _, inner, rfl⟩ := yields_withLocationOf.mp run
  exact ⟨{ before with givenLocation? := some node.location }, left, rfl, inner, rfl⟩

/-! ## Insertion -/

section Insertion

variable {holds : ListCategory} {elements : Array NodeId} {position : Nat} {anchor linked : NodeId}
  {left right : List NodeId}

/-- What the insertion of a new expression into a list leaves behind. -/
structure Linked (origin before : Program) (list expr linked : NodeId) (after : Program) :
    Prop where
  revision : Revision origin (· = list) before after
  stands : StandsFor origin after linked expr
  new : origin.New linked
  unissued : linked = expr ∨ before.New linked
  parent : after.parentOf linked = some list
  /-- Only statement lists wrap what is inserted. -/
  bare : ∀ {holds elements}, before.kindAt list = some (.list holds elements) → holds ≠ .stmts →
    linked = expr

theorem standsFor_asElement (past : ∀ {id}, before.New id → origin.New id)
    (new : origin.New expr) (issued : ¬ before.New expr)
    (run : Yields (asElement holds expr) before element after) :
    Addition origin before after ∧ StandsFor origin after element expr ∧ origin.New element ∧
      ¬ after.New element ∧ (element = expr ∨ before.New element) := by
  cases Edit.wrapped run (Option.isSome_iff_ne_none.mpr issued) with
  | bare => exact ⟨.refl past, .inl rfl, new, issued, .inl rfl⟩
  | wrapped grown =>
    have made := produced_of_grown past grown
      (by simpa [Kind.owned, Stmt.owned] using ⟨new, issued⟩)
    exact ⟨made.addition, .inr made.added, made.added.new, made.added.issued, .inr made.unissued⟩

theorem bare_of_asElement (run : Yields (asElement holds expr) before element after)
    (bare : holds ≠ .stmts) : element = expr := by
  cases holds with
  | stmts => exact absurd rfl bare
  | _ => exact (yields_pure.mp run).1

/-- A new expression is put between the elements before and behind its place. -/
theorem linked_insertElement (past : ∀ {id}, before.New id → origin.New id)
    (new : origin.New expr) (issued : ¬ before.New expr)
    (run : Yields (insertElement list position expr) before linked after) :
    Linked origin before list expr linked after ∧ ∃ holds left right,
      before.kindAt list = some (.list holds (left ++ right).toArray) ∧ left.length = position ∧
        after.kindAt list = some (.list holds (left ++ linked :: right).toArray) := by
  simp only [insertElement, yields_bind, yields_look, yields_ite, yields_throw, yields_pure,
    list_eq_ok] at run
  obtain ⟨⟨holds, elements⟩, start, ⟨known, rfl⟩, element, wrapped, wrapping, run⟩ := run
  rcases run with ⟨_, _, _, never, _⟩ | ⟨inBounds, _, written, writing, _, parented, naming,
    context, _, ⟨_, rfl⟩, _, _, attached, rfl, rfl⟩
  · exact never.elim
  · obtain ⟨left, right, rfl, rfl⟩ : ∃ left right, elements = (left ++ right).toArray ∧
        left.length = position :=
      ⟨elements.toList.take position, elements.toList.drop position, by simp,
        List.length_take_of_le (Nat.le_of_not_lt inBounds)⟩
    obtain ⟨addition, stands, newLinked, issuedLinked, unissued⟩ :=
      standsFor_asElement past new issued wrapping
    have members : ∀ id, id ∈ (left ++ linked :: right).toArray ↔
        id ∈ (left ++ right).toArray ∨ id = linked := by
      intro id
      simp only [List.mem_toArray, List.mem_append, List.mem_cons]
      tauto
    obtain ⟨revision, isWritten⟩ := Revision.of_changeElements addition.past_after writing
      (addition.kinds known not_false)
      (fun id member => by
        rw [Kind.insertIdxIfInBounds_append, members]
        exact .inl member)
      (fun id member => by
        rw [Kind.insertIdxIfInBounds_append, members] at member
        refine member.imp_right ?_
        rintro rfl
        exact ⟨newLinked, issuedLinked⟩)
    obtain ⟨named, isNamed⟩ := Revision.of_setParent revision.past_after naming newLinked
    have same := (attachedBelow attached).same
    have attaching := Revision.of_sameTree named.past_after same
    have rest := named.adding attaching
    rw [Kind.insertIdxIfInBounds_append] at isWritten
    refine ⟨⟨(revision.adding rest).following addition, ?_, newLinked, unissued,
      same.parentOf.trans isNamed, ?_⟩, holds, left, right, known, rfl,
      rest.kinds isWritten not_false⟩
    · refine (stands.imp_right fun added => added.keep revision ?_).imp_right
        (·.keep rest not_false)
      rintro rfl
      simpa [addition.kinds known not_false] using added.known
    · intro holds' elements' known' bare
      rw [known, Option.some.injEq, Kind.list.injEq] at known'
      exact bare_of_asElement wrapping (known'.1 ▸ bare)

section Places

variable (past : ∀ {id}, before.New id → origin.New id) (newExpr : NewExpr origin before expr)
include past newExpr

theorem linked_splice (run : Yields (splice list position expr) before linked after) :
    Linked origin before list expr linked after ∧ ∃ holds left right,
      before.kindAt list = some (.list holds (left ++ right).toArray) ∧ left.length = position ∧
        after.kindAt list = some (.list holds (left ++ linked :: right).toArray) := by
  obtain ⟨kind, known, isExpr⟩ := (Option.any_eq_true _ _).mp newExpr.isExpr
  simp only [splice, levelBound, spliceWithin, yields_bind, yields_get, yields_look, yields_ite,
    yields_checkInsertable, isList_eq_ok] at run
  obtain ⟨_, _, ⟨rfl, rfl⟩, _, _, ⟨rfl, _, _, _⟩, isList, _, ⟨checked, rfl⟩,
    ⟨isTrue, _⟩ | ⟨_, run⟩⟩ := run
  · rw [known, Option.map_some, Option.some.injEq, isTrue] at checked
    cases kind with
    | expr => cases checked
    | _ => cases isExpr
  · exact linked_insertElement past newExpr.new (issued_of_kindAt known) run

theorem linked_insertAtHead (run : Yields (insertAtHead list expr) before linked after) :
    Linked origin before list expr linked after ∧ ∃ holds elements,
      before.kindAt list = some (.list holds elements.toArray) ∧
        after.kindAt list = some (.list holds (linked :: elements).toArray) := by
  simp only [insertAtHead, insertAtEnd, yields_bind, yields_look, kindOf_eq_ok] at run
  obtain ⟨kind, _, ⟨_, rfl⟩, run⟩ := run
  split at run
  · obtain ⟨made, holds, left, right, known, empty, isLater⟩ := linked_splice past newExpr run
    obtain rfl := List.length_eq_zero_iff.mp empty
    exact ⟨made, holds, right, known, isLater⟩
  · exact (yields_fail run).elim

theorem linked_insertAtTail (run : Yields (insertAtTail list expr) before linked after) :
    Linked origin before list expr linked after ∧ ∃ holds elements,
      before.kindAt list = some (.list holds elements.toArray) ∧
        after.kindAt list = some (.list holds (elements ++ [linked]).toArray) := by
  simp only [insertAtTail, insertAtEnd, yields_bind, yields_look, kindOf_eq_ok] at run
  obtain ⟨kind, _, ⟨isList, rfl⟩, run⟩ := run
  split at run
  · obtain ⟨made, holds, left, right, known, all, isLater⟩ := linked_splice past newExpr run
    rw [known, Option.some.injEq, Kind.list.injEq] at isList
    obtain ⟨-, rfl⟩ := isList
    obtain rfl : right = [] := by simpa using all
    exact ⟨made, holds, left, by simpa using known, isLater⟩
  · exact (yields_fail run).elim

/-- Where a new expression goes beside an element that stands there once. -/
theorem linked_insertBeside {side : Side}
    (run : Yields (insertBeside side anchor expr) before linked after)
    (known : before.kindAt list = some (.list holds (left ++ anchor :: right).toArray))
    (absent : anchor ∉ left)
    (parent : before.parentOf anchor = some list) :
    Linked origin before list expr linked after ∧ after.kindAt list = some (.list holds
      (match side with
      | .before => left ++ linked :: anchor :: right
      | .after => left ++ anchor :: linked :: right).toArray) := by
  simp only [insertBeside, yields_bind, yields_look] at run
  obtain ⟨⟨list', position⟩, _, ⟨found, rfl⟩, run⟩ := run
  obtain rfl : list' = list := by
    simpa [parent] using (parentOf_anchor found).symm
  obtain ⟨holds', elements, isList, place⟩ := positionIn_eq_ok.mp (positionIn_anchor found)
  rw [known, Option.some.injEq, Kind.list.injEq] at isList
  obtain ⟨rfl, rfl⟩ := isList
  obtain rfl : left.length = position := by simpa [idxOf?_of_absent absent] using place
  cases side with
  | before =>
    obtain ⟨made, holds', front, back, isList, length, isLater⟩ := linked_splice past newExpr run
    rw [known, Option.some.injEq, Kind.list.injEq] at isList
    obtain ⟨rfl, same⟩ := isList
    obtain ⟨rfl, rfl⟩ := List.append_inj (congrArg Array.toList same).symm length
    exact ⟨made, isLater⟩
  | after =>
    obtain ⟨made, holds', front, back, isList, length, isLater⟩ := linked_splice past newExpr run
    rw [known, Option.some.injEq, Kind.list.injEq, List.append_cons] at isList
    obtain ⟨rfl, same⟩ := isList
    obtain ⟨rfl, rfl⟩ := List.append_inj (congrArg Array.toList same).symm (by simp [length])
    exact ⟨made, by simpa using isLater⟩

end Places

theorem held_of_list (known : before.kindAt list = some (.list holds elements)) :
    before.held list = elements.toList := by
  rw [held_eq_of_kindAt known, Kind.owned]

theorem NewExpr.keep (newExpr : NewExpr origin before expr)
    (revision : Revision origin touched before after)
    (spared : ∀ id, touched id → (before.kindAt id).any Kind.isList) :
    NewExpr origin after expr := by
  refine ⟨newExpr.new, revision.passes newExpr.isExpr fun again => ?_⟩
  obtain ⟨kind, known, isExpr⟩ := (Option.any_eq_true _ _).mp newExpr.isExpr
  have isList := spared expr again
  cases kind with
  | expr => simp [known, Kind.isList] at isList
  | _ => cases isExpr

/-- New expressions go right behind an element, one behind the other. -/
theorem linked_foldlM {rest : List NodeId} {last : NodeId}
    (past : ∀ {id}, before.New id → origin.New id) (oldList : ¬ origin.New list)
    (exprs : ∀ expr ∈ rest, NewExpr origin before expr) (nodup : rest.Nodup)
    (known : before.kindAt list = some (.list holds (left ++ anchor :: right).toArray))
    (absent : anchor ∉ left) (parent : before.parentOf anchor = some list)
    (issued : ∀ id ∈ left ++ [anchor], ¬ before.New id ∧ id ∉ rest)
    (run : Yields (rest.foldlM insertAfter anchor) before last after) :
    Revision origin (· = list) before after ∧ ∃ added,
      after.kindAt list = some (.list holds (left ++ anchor :: added ++ right).toArray) ∧
      List.Forall₂ (StandsFor origin after) added rest := by
  induction rest generalizing before left anchor with
  | nil =>
    obtain ⟨rfl, rfl⟩ := yields_pure.mp run
    exact ⟨(Revision.refl past).mono fun _ never => never.elim, [], by simpa using known, .nil⟩
  | cons first rest ih =>
    rw [List.foldlM_cons, yields_bind] at run
    obtain ⟨linked, middle, runFirst, runRest⟩ := run
    obtain ⟨inserted, isListNow⟩ :=
      linked_insertBeside past (exprs first (by simp)) runFirst known absent parent
    obtain ⟨notInRest, nodupRest⟩ := List.nodup_cons.mp nodup
    have issuedLater : ∀ id ∈ left ++ [anchor], ¬ middle.New id := fun id member =>
      inserted.revision.issued (issued id member).1
    -- what was linked is the expression itself or was made to hold it
    have linkedApart : ∀ id, id ≠ first → ¬ before.New id → linked ≠ id := by
      rintro id other old rfl
      exact inserted.unissued.elim other old
    have absentNow : linked ∉ left ++ [anchor] := fun member =>
      linkedApart linked (fun same => (issued linked member).2 (by simp [same]))
        (issued linked member).1 rfl
    have issuedNow : ∀ id ∈ (left ++ [anchor]) ++ [linked], ¬ middle.New id ∧ id ∉ rest := by
      intro id member
      rcases List.mem_append.mp member with member | member
      · exact ⟨issuedLater id member, fun again => (issued id member).2 (by simp [again])⟩
      · obtain rfl := List.mem_singleton.mp member
        refine ⟨fun new => ?_, fun again => ?_⟩
        · simpa [parentOf_of_unissued new] using inserted.parent
        · have expr := exprs id (by simp [again])
          exact linkedApart id (by rintro rfl; exact notInRest again) expr.issued rfl
    obtain ⟨further, added, isLater, stand⟩ := ih inserted.revision.past_after
      (fun expr member => (exprs expr (by simp [member])).keep inserted.revision
        (by rintro _ rfl; simp [known, Kind.isList]))
      nodupRest (by simpa using isListNow) absentNow inserted.parent issuedNow runRest
    refine ⟨inserted.revision.followedBy further (fun _ => id) fun _ again _ => again,
      linked :: added, by simpa using isLater, .cons ?_ stand⟩
    exact inserted.stands.keep further (by rintro _ rfl; exact oldList)

end Insertion

/-- Statements go to the head of a list in their order.  If there are none, nothing is touched. -/
theorem linked_insertAllAtHead {stmts : List NodeId}
    (past : ∀ {id}, before.New id → origin.New id) (oldList : ¬ origin.New list)
    (exprs : ∀ stmt ∈ stmts, NewExpr origin before stmt) (nodup : stmts.Nodup)
    (run : Yields (insertAllAtHead list stmts) before done after) :
    Revision origin (fun id => id = list ∧ (before.kindAt id).any Kind.isList) before after ∧
      ∃ added, after.held list = added ++ before.held list ∧
        List.Forall₂ (StandsFor origin after) added stmts := by
  cases stmts with
  | nil =>
    obtain ⟨_, rfl⟩ := yields_pure.mp run
    exact ⟨(Revision.refl past).mono fun _ never => never.elim, [], rfl, .nil⟩
  | cons first rest =>
    simp only [insertAllAtHead, yields_bind, yields_pure] at run
    obtain ⟨linked, middle, runFirst, last, _, runRest, _, rfl⟩ := run
    obtain ⟨inserted, holds, elements, known, isListNow⟩ :=
      linked_insertAtHead past (exprs first (by simp)) runFirst
    rw [← List.nil_append (linked :: elements)] at isListNow
    obtain ⟨notInRest, nodupRest⟩ := List.nodup_cons.mp nodup
    have later : ∀ expr ∈ rest, NewExpr origin middle expr := fun expr member =>
      (exprs expr (by simp [member])).keep inserted.revision
        (by rintro _ rfl; simp [known, Kind.isList])
    have apart : linked ∉ rest := fun again => by
      rcases inserted.unissued with rfl | new
      · exact notInRest again
      · exact (exprs linked (by simp [again])).issued new
    have issued : ¬ middle.New linked := fun new => by
      simpa [parentOf_of_unissued new] using inserted.parent
    obtain ⟨further, added, isLater, stand⟩ :=
      linked_foldlM inserted.revision.past_after oldList later nodupRest isListNow (by simp)
        inserted.parent (by simpa using ⟨issued, apart⟩) runRest
    refine ⟨(inserted.revision.followedBy further (fun _ => id) fun _ again _ => again).mono ?_,
      linked :: added, ?_, .cons ?_ stand⟩
    · rintro _ rfl
      exact ⟨rfl, by simp [known, Kind.isList]⟩
    · simp [held_of_list known, held_of_list isLater]
    · exact inserted.stands.keep further (by rintro _ rfl; exact oldList)

end ProgramTree.Program
