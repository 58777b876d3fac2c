import ProgramTree.Proofs.Construction
import ProgramTree.Proofs.Sound

/-!
# Calls

The interface, call by call.  A property of a fresh program that every call keeps holds of
every program that calls lead to; the first such property is well-formedness.
-/

namespace ProgramTree

open Program Edit

/-- A call that makes nodes. -/
inductive Builder where
  | symbol (name : String) (type? : Option NodeId) (kind : SymbolKind)
  | fn (name : String) (formals : List NodeId) (body : NodeId) (retType? : Option NodeId)
  | module (name : String) (tag : ModuleTag) (stmts : List NodeId)
  | namedType (name : String) (kind : TypeKind)
  | use (var : NodeId)
  | definition (sym : NodeId) (init? declaredType? : Option NodeId)
  | call (callee : NodeId) (args : List NodeId)
  | primitiveCall (operation : Primitive) (args : List NodeId)
  | cast (toType? : Option NodeId) (expr : NodeId)
  | named (name : String) (actual : NodeId)
  | importModule (module? : Option NodeId)
  | literal (value : Literal)
  | list (holds : ListCategory) (elements : List NodeId)
  | block (stmts : List NodeId)
  | exprStmt (expr : NodeId)
  | ret (value? : Option NodeId)
  | forLoop (indices iterators : List NodeId) (body : NodeId) (orderIndependent : Bool)
  | cond (condition thenStmt : NodeId) (elseStmt? : Option NodeId)
  | whenCase (cases : List NodeId) (body : NodeId)
  | select (subject : NodeId) (whens : List NodeId)
  | labelStmt (name : String) (stmt : NodeId)
  | goto (label? : Option NodeId)

namespace Builder

def run : Builder → Edit NodeId
  | symbol name type? kind => Edit.newSymbol name type? kind
  | fn name formals body retType? => Edit.newFn name formals body retType?
  | module name tag stmts => Edit.newModule name tag stmts
  | namedType name kind => Edit.newNamedType name kind
  | use var => Edit.newUse var
  | definition sym init? declaredType? => Edit.newDefinition sym init? declaredType?
  | call callee args => Edit.newCall callee args
  | primitiveCall operation args => Edit.newPrimitiveCall operation args
  | cast toType? expr => Edit.newCast toType? expr
  | named name actual => Edit.newNamed name actual
  | importModule module? => Edit.newImport module?
  | literal value => Edit.newLiteral value
  | list holds elements => Edit.newList holds elements
  | block stmts => Edit.newBlock stmts
  | exprStmt expr => Edit.newExprStmt expr
  | ret value? => Edit.newReturn value?
  | forLoop indices iterators body orderIndependent =>
    Edit.newForLoop indices iterators body orderIndependent
  | cond condition thenStmt elseStmt? => Edit.newCond condition thenStmt elseStmt?
  | whenCase cases body => Edit.newWhen cases body
  | select subject whens => Edit.newSelect subject whens
  | labelStmt name stmt => Edit.newLabelStmt name stmt
  | goto label? => Edit.newGoto label?

/-- The nodes that are to become children. -/
def given : Builder → List NodeId
  | symbol _ _ kind => kind.owned
  | fn _ formals body _ => body :: formals
  | module _ _ stmts => stmts
  | namedType _ kind => kind.owned
  | definition sym init? declaredType? => sym :: init?.toList ++ declaredType?.toList
  | call callee args => callee :: args
  | primitiveCall _ args => args
  | cast _ expr => [expr]
  | named _ actual => [actual]
  | list _ elements => elements
  | block stmts => stmts
  | exprStmt expr => [expr]
  | ret value? => value?.toList
  | forLoop indices iterators body _ => body :: indices ++ iterators
  | cond condition thenStmt elseStmt? => [condition, thenStmt] ++ elseStmt?.toList
  | whenCase cases body => body :: cases
  | select subject whens => subject :: whens
  | labelStmt _ stmt => [stmt]
  | use _ | importModule _ | literal _ | goto _ => []

/-- The builder takes over every child it is given.  A bare symbol takes over none, and a named
type only fields and constants. -/
def TakesOver : Builder → Prop
  | symbol _ _ kind => kind.owned = []
  | namedType _ kind => kind.owned = adoptedByType kind
  | _ => True

end Builder

/-- A call of the interface. -/
inductive Call where
  | build (builder : Builder)
  | addFlag (id : NodeId) (flag : Flag)
  | addPragma (id : NodeId) (pragma : String)
  | setUsedSymbol (id var : NodeId)
  /-- Changes the settings and what new nodes are attributed to. -/
  | attribution (settings : Settings) (lexer? given? : Option Location) (traversal? : Option String)
  | duplicate (id : NodeId) (table : Remap) (updated : List NodeId) (inner : Bool)
  | mutate (mutation : Mutation)

namespace Call

/-- Makes the call and drops its answer. -/
def run : Call → Edit Unit
  | build builder => do let _ ← builder.run
  | addFlag id flag => Edit.addFlag id flag
  | addPragma id pragma => Edit.addPragma id pragma
  | setUsedSymbol id var => Edit.setUsedSymbol id var
  | attribution settings lexer? given? traversal? =>
    modify fun program => { program with
      settings
      lexerLocation? := lexer?
      givenLocation? := given?
      traversal? }
  | duplicate id table updated inner => do let _ ← Edit.duplicateWith id table updated inner
  | mutate mutation => mutation.run

def given : Call → List NodeId
  | build builder => builder.given
  | _ => []

/-- Builders take over what they are given, and copies are made of what is copied: no seed
stands for a node of the subtree, unless for its root, which is then not copied at all. -/
def TakesOver (before : Program) : Call → Prop
  | build builder => builder.TakesOver
  | duplicate id table _ _ => id ∈ table ∨ ∀ node, before.Contains id node → node ∉ table
  | _ => True

end Call

/-- Calls on nodes that are there, each of them permitted when it is made, lead from a fresh
program to this one. -/
inductive Reached (permitted : Program → Call → Prop) : Program → Prop where
  | fresh (settings : Settings) : Reached permitted (empty settings)
  | call {before after : Program} {call : Call} (reached : Reached permitted before)
      (issued : ∀ id ∈ call.given, (before.get? id).isSome) (allowed : permitted before call)
      (run : Yields call.run before () after) : Reached permitted after

variable {before between after program : Program} {permitted : Program → Call → Prop}

/-! ## Calls are made of steps -/

/-- Whatever a builder makes, it makes in steps. -/
theorem Builder.builtUp {builder : Builder} {answer : NodeId} (takesOver : builder.TakesOver)
    (issued : ∀ id ∈ builder.given, (before.get? id).isSome)
    (run : Yields builder.run before answer after) : BuiltUp before before answer after := by
  have start : Constructed before before := .refl
  have known : ∀ id ∈ builder.given, Known Anywhere before id :=
    fun id member => known_of_issued (issued id member)
  cases builder with
  | symbol name type? kind => exact start.newNode run rfl rfl takesOver
  | use var => exact start.newNode run rfl rfl rfl
  | importModule module? => exact start.newNode run rfl rfl rfl
  | literal value => exact start.newNode run rfl rfl rfl
  | goto label? => exact start.newNode run rfl rfl rfl
  | fn name formals body retType? =>
    obtain ⟨knownBody, knownFormals⟩ := List.forall_mem_cons.mp known
    exact start.newFn knownFormals knownBody run
  | module name tag stmts => exact start.newModule known run
  | namedType name kind => exact start.newNamedType takesOver known run
  | definition sym init? declaredType? =>
    refine start.newDefinition (known sym (by simp [given])) ?_ ?_ run
    · exact fun id isInit => known id (by simp [given, Option.mem_def.mp isInit])
    · exact fun id isType => known id (by simp [given, Option.mem_def.mp isType])
  | call callee args =>
    obtain ⟨knownCallee, knownArgs⟩ := List.forall_mem_cons.mp known
    exact start.newCall knownCallee knownArgs run
  | primitiveCall operation args => exact start.newPrimitiveCall known run
  | cast toType? expr => exact start.newCast (known expr (by simp [given])) run
  | named name actual => exact start.newNamed (known actual (by simp [given])) run
  | list holds elements => exact start.newList known run
  | block stmts => exact start.newBlock known run
  | exprStmt expr => exact (start.newExprStmt (known expr (by simp [given])) run).1
  | ret value? =>
    exact start.newReturn (fun id isValue => known id (Option.mem_toList.mpr isValue)) run
  | forLoop indices iterators body orderIndependent =>
    refine start.newForLoop ?_ ?_ (known body (by simp [given])) run
    · exact fun id member => known id (by simp [given, member])
    · exact fun id member => known id (by simp [given, member])
  | cond condition thenStmt elseStmt? =>
    refine start.newCond (known condition (by simp [given])) (known thenStmt (by simp [given]))
      ?_ run
    exact fun id isElse => known id (by simp [given, Option.mem_def.mp isElse])
  | whenCase cases body =>
    obtain ⟨knownBody, knownCases⟩ := List.forall_mem_cons.mp known
    exact start.newWhen knownCases knownBody run
  | select subject whens =>
    obtain ⟨knownSubject, knownWhens⟩ := List.forall_mem_cons.mp known
    exact start.newSelect knownSubject knownWhens run
  | labelStmt name stmt => exact start.newLabelStmt (known stmt (by simp [given])) run

/-- What a call does: it builds, it copies, or it moves nodes around. -/
inductive Call.Effect (before : Program) : Call → Program → Prop where
  | built {call : Call} {after : Program} (constructed : Constructed before after) :
      Effect before call after
  | copied {id : NodeId} {table : Remap} {updated : List NodeId} {inner : Bool}
      {copied : Duplication} {after : Program}
      (unseeded : ∀ node, before.Contains id node → node ∉ table)
      (run : Yields (duplicateWith id table updated inner) before copied after) :
      Effect before (.duplicate id table updated inner) after
  | mutated {mutation : Mutation} {after : Program} (run : Yields mutation.run before () after) :
      Effect before (.mutate mutation) after

theorem Call.effect {call : Call} (takesOver : call.TakesOver before)
    (issued : ∀ id ∈ call.given, (before.get? id).isSome) (run : Yields call.run before () after) :
    call.Effect before after := by
  have start : Constructed before before := .refl
  cases call with
  | build builder =>
    obtain ⟨answer, _, run, same⟩ := yields_bind.mp run
    obtain ⟨_, rfl⟩ := yields_pure.mp same
    exact .built (builder.builtUp takesOver issued run).progress.kept
  | addFlag id flag => exact .built (start.addFlag run).kept
  | addPragma id pragma => exact .built (start.addPragma run).kept
  | setUsedSymbol id var => exact .built (start.setUsedSymbol run).kept
  | attribution settings lexer? given? traversal? =>
    obtain rfl := yields_modify.mp run
    exact .built (start.tail (.quiet (fun _ => rfl) (fun _ => rfl) (fun _ => rfl) rfl rfl))
  | duplicate id table updated inner =>
    obtain ⟨copied, _, run, same⟩ := yields_bind.mp run
    obtain ⟨_, rfl⟩ := yields_pure.mp same
    rcases takesOver with seeded | unseeded
    · rw [Edit.duplicateWith, Std.ExtTreeMap.getElem?_eq_some_getElem seeded] at run
      obtain ⟨_, rfl⟩ := yields_pure.mp run
      exact .built start
    · exact .copied unseeded run
  | mutate mutation => exact .mutated run

/-! ## Calls keep programs well-formed -/

namespace Program

theorem Construction.orderly {exact bare : Prop} (step : Construction before after)
    (orderly : Orderly exact bare Anywhere [] before) : Orderly exact bare Anywhere [] after := by
  cases step with
  | quiet kinds parents contexts roots index =>
    refine orderly.of_frame ⟨contexts, ?_, ?_, ?_, ?_, index⟩ ?_ parents ?_ roots
    all_goals
      intro id
      simp [held, get?_eq_none_iff_kindAt, kinds]
  | grown _ _ _ issued pushed adopted =>
    exact orderly_grow orderly pushed adopted fun child owned =>
      known_of_issued (issued child owned)
  | @defined sym init? declaredType? symbol between held isSymbol issued pushed adopted =>
    have held := orderly_grow orderly pushed adopted fun child owned =>
      known_of_issued (issued child owned)
    have old : sym ≠ before.nextId := by
      rintro rfl
      exact fresh_notMem issued (by simp [Expr.owned])
    exact orderly_setKind held ((kindAt_of_adopted pushed adopted old).trans isSymbol)
      (.symbol rfl)
  | reworded known alike => exact orderly_setKind orderly known alike

theorem Constructed.orderly {exact bare : Prop} (constructed : Constructed before after)
    (orderly : Orderly exact bare Anywhere [] before) : Orderly exact bare Anywhere [] after := by
  induction constructed with
  | refl => exact orderly
  | tail _ step ih => exact step.orderly ih

end Program

theorem Call.keeps_wellFormed {call : Call} (takesOver : call.TakesOver before)
    (issued : ∀ id ∈ call.given, (before.get? id).isSome) (wellFormed : WellFormed before)
    (run : Yields call.run before () after) : WellFormed after := by
  rw [wellFormed_iff_orderly] at wellFormed ⊢
  cases call.effect takesOver issued run with
  | built constructed => exact constructed.orderly wellFormed
  | copied unseeded run =>
    obtain ⟨issued, order, twinned⟩ :=
      twinned_of_duplicateWith wellFormed.forest trivial unseeded run
    exact twinned.orderly trivial issued wellFormed
  | @mutated mutation _ run => exact mutation.keeps_orderly wellFormed run

/-- What calls lead to is well-formed, as long as they take over what they are given. -/
theorem wellFormed_of_reached (reached : Reached Call.TakesOver program) : WellFormed program := by
  induction reached with
  | fresh settings => exact wellFormed_empty settings
  | call _ issued allowed run ih => exact Call.keeps_wellFormed allowed issued ih run

/-! ## What runs of calls uphold -/

/-- A property of fresh programs that well-formed programs keep through permitted calls: through
the steps that builders are made of, through mutations, and through copies. -/
structure Upheld (permitted : Program → Call → Prop) (kept : Program → Prop) : Prop where
  takesOver : ∀ {program call}, permitted program call → call.TakesOver program
  fresh : ∀ settings, kept (empty settings)
  construction : ∀ {before after}, WellFormed before → kept before → Construction before after →
    kept after
  mutation : ∀ {before after mutation}, kept before → permitted before (.mutate mutation) →
    Yields mutation.run before () after → kept after
  copy : ∀ {before after id table updated inner order}, WellFormed before → kept before →
    permitted before (.duplicate id table updated inner) →
    (∀ node, before.Contains id node → node ∉ table) → (before.get? id).isSome →
    Twinned before id order
      (if inner then fun link => link else before.redirect table order) after →
    kept after

namespace Upheld

variable {kept : Program → Prop} (upheld : Upheld permitted kept)
include upheld

theorem constructed (constructed : Constructed before after) (wellFormed : WellFormed before)
    (start : kept before) : kept after := by
  have both : WellFormed after ∧ kept after := by
    induction constructed with
    | refl => exact ⟨wellFormed, start⟩
    | tail _ step ih =>
      exact ⟨(step.orderly ih.1.orderly).wellFormed, upheld.construction ih.1 ih.2 step⟩
  exact both.2

theorem call {call : Call} (isPermitted : permitted before call)
    (issued : ∀ id ∈ call.given, (before.get? id).isSome) (wellFormed : WellFormed before)
    (start : kept before) (run : Yields call.run before () after) : kept after := by
  cases Call.effect (upheld.takesOver isPermitted) issued run with
  | built constructed => exact upheld.constructed constructed wellFormed start
  | mutated run => exact upheld.mutation start isPermitted run
  | copied unseeded run =>
    obtain ⟨issued, order, twinned⟩ :=
      twinned_of_duplicateWith wellFormed.orderly.forest trivial unseeded run
    exact upheld.copy wellFormed start isPermitted unseeded issued twinned

theorem of_reached (reached : Reached permitted program) : WellFormed program ∧ kept program := by
  induction reached with
  | fresh settings => exact ⟨wellFormed_empty settings, upheld.fresh settings⟩
  | call _ issued isPermitted run ih =>
    exact ⟨Call.keeps_wellFormed (upheld.takesOver isPermitted) issued ih.1 run,
      upheld.call isPermitted issued ih.1 ih.2 run⟩

end Upheld

/-! ## Runs of given calls -/

/-- The program after the calls, if each of them is made on nodes that are there and ends well. -/
def afterCalls : List Call → Program → Option Program
  | [], program => some program
  | call :: rest, program =>
    if call.given.all program.contains then
      match call.run program with
      | .ok ((), next) => afterCalls rest next
      | .error _ => none
    else none

theorem afterCalls_cons {call : Call} {rest : List Call} :
    afterCalls (call :: rest) before = some after ↔
      ∃ next, (∀ id ∈ call.given, (before.get? id).isSome) ∧ Yields call.run before () next ∧
        afterCalls rest next = some after := by
  have given : call.given.all before.contains = true ↔
      ∀ id ∈ call.given, (before.get? id).isSome := by
    simp [Program.contains]
  rw [afterCalls]
  cases result : call.run before with
  | error fault => simp [Yields, result]
  | ok pair =>
    obtain ⟨⟨⟩, next⟩ := pair
    simp [Yields, result, given]

theorem reached_of_afterCalls {calls : List Call}
    (always : ∀ program, ∀ call ∈ calls, permitted program call)
    (reached : Reached permitted before) (ends : afterCalls calls before = some after) :
    Reached permitted after := by
  induction calls generalizing before with
  | nil =>
    obtain rfl : before = after := by simpa [afterCalls] using ends
    exact reached
  | cons call rest ih =>
    obtain ⟨next, issued, run, ends⟩ := afterCalls_cons.mp ends
    exact ih (fun program later member => always program later (by simp [member]))
      (.call reached issued (always before call (by simp)) run) ends

/-- The calls lead from a fresh program to one of which this is true. -/
def LeadTo (calls : List Call) (claim : Program → Prop) : Prop :=
  ∃ program, afterCalls calls (empty {}) = some program ∧ Reached (fun _ _ => True) program ∧
    claim program

theorem leadTo {calls : List Call} {claim : Program → Prop} [DecidablePred claim]
    (ends : (afterCalls calls (empty {})).any (fun program => claim program) = true) :
    LeadTo calls claim := by
  obtain ⟨program, ends, holds⟩ := (Option.any_eq_true _ _).mp ends
  exact ⟨program, ends, reached_of_afterCalls (fun _ _ _ => trivial) (.fresh {}) ends,
    by simpa using holds⟩

end ProgramTree
