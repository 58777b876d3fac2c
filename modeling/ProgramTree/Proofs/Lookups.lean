import ProgramTree.Outlining.Bundle
import ProgramTree.Proofs.Sound

/-!
# What queries find

Queries that follow slots stay below the node they start from, the enclosing statement
lies above it, and the owning module is reached through definition points and enclosing
symbols.  Each of them stays in the region of a sound program.
-/

namespace ProgramTree.Program

open Edit

variable {exact bare : Prop} {region : NodeId → Prop} {before after program : Program}
  {id found list module sym : NodeId} {kind : Kind}

/-! ## Tests on kinds -/

theorem absurd_of_tests {first second : Kind → Bool}
    (never : ∀ kind, first kind = true → second kind = false)
    (left : (program.kindAt id).any first) (right : (program.kindAt id).any second) : False := by
  obtain ⟨kind, known, passes⟩ := (Option.any_eq_true _ _).mp left
  simp [known, never kind passes] at right

theorem isStmt_of_isFn (kind : Kind) (isFn : kind.isFn = true) : kind.isStmt = false := by
  cases kind <;> first | rfl | cases isFn

theorem isModule_of_isFn (kind : Kind) (isFn : kind.isFn = true) : kind.isModule = false := by
  cases kind with
  | symbol symbol =>
    obtain ⟨_, _, _, _, kind⟩ := symbol
    cases kind <;> first | rfl | cases isFn
  | _ => rfl

theorem isList_of_isSymbol (kind : Kind) (isSymbol : kind.isSymbol = true) :
    kind.isList = false := by
  cases kind <;> first | rfl | cases isSymbol

theorem isSymbol_of_isFn (isFn : (program.kindAt id).any Kind.isFn) :
    (program.kindAt id).any Kind.isSymbol := by
  obtain ⟨kind, known, isFn⟩ := (Option.any_eq_true _ _).mp isFn
  cases kind <;> simp_all [Kind.isFn, Kind.isSymbol, Kind.symbol?]

theorem exists_symbol (isSymbol : (program.kindAt id).any Kind.isSymbol) :
    ∃ symbol, program.kindAt id = some (.symbol symbol) := by
  obtain ⟨kind, known, isSymbol⟩ := (Option.any_eq_true _ _).mp isSymbol
  cases kind with
  | symbol symbol => exact ⟨symbol, known⟩
  | _ => cases isSymbol

/-! ## Down the slots -/

theorem holds_of_owned (known : program.kindAt id = some kind) (owned : found ∈ kind.owned) :
    program.Holds id found := by
  rw [Holds, held_eq_of_kindAt known]
  exact owned

theorem contains_of_owned (known : program.kindAt id = some kind) (owned : found ∈ kind.owned) :
    program.Contains id found :=
  .single (holds_of_owned known owned)

theorem contains_of_fnBody (looked : program.fnBody id = .ok found) :
    program.Contains id found := by
  simp only [fnBody, Fault.bind_eq_ok, symbol_eq_ok] at looked
  obtain ⟨symbol, known, looked⟩ := looked
  split at looked
  · rename_i formals body retType? whereExpr? isFn
    obtain rfl := Fault.pure_eq_ok.mp looked
    exact contains_of_owned known (by simp [Kind.owned, isFn, SymbolKind.owned])
  · simp [fail] at looked

theorem contains_of_fnFormalsList (looked : program.fnFormalsList id = .ok found) :
    program.Contains id found := by
  simp only [fnFormalsList, Fault.bind_eq_ok, symbol_eq_ok] at looked
  obtain ⟨symbol, known, looked⟩ := looked
  split at looked
  · rename_i formals body retType? whereExpr? isFn
    obtain rfl := Fault.pure_eq_ok.mp looked
    exact contains_of_owned known (by simp [Kind.owned, isFn, SymbolKind.owned])
  · simp [fail] at looked

theorem notModule_of_fnFormalsList (looked : program.fnFormalsList id = .ok found) :
    (program.kindAt id).any (!·.isModule) := by
  simp only [fnFormalsList, Fault.bind_eq_ok, symbol_eq_ok] at looked
  obtain ⟨symbol, known, looked⟩ := looked
  split at looked
  · rename_i isFn
    simp [known, Kind.isModule, Kind.symbol?, Symbol.isModule, isFn]
  · simp [fail] at looked

theorem contains_of_blockBody (looked : program.blockBody id = .ok found) :
    program.Contains id found := by
  simp only [blockBody, Fault.bind_eq_ok, kindOf_eq_ok] at looked
  obtain ⟨kind, known, looked⟩ := looked
  split at looked
  · obtain rfl := Fault.pure_eq_ok.mp looked
    exact contains_of_owned known (by simp [Kind.owned, Stmt.owned])
  · simp [fail] at looked

theorem contains_of_fnBodyList (looked : program.fnBodyList id = .ok found) :
    program.Contains id found := by
  rw [fnBodyList, Fault.bind_eq_ok] at looked
  obtain ⟨body, isBody, inBody⟩ := looked
  exact (contains_of_fnBody isBody).trans (contains_of_blockBody inBody)

theorem contains_of_moduleBodyList (looked : program.moduleBodyList id = .ok found) :
    program.Contains id found := by
  simp only [moduleBodyList, Fault.bind_eq_ok, symbol_eq_ok] at looked
  obtain ⟨symbol, known, looked⟩ := looked
  split at looked
  · rename_i block initFn? tag isModule
    refine (contains_of_owned known ?_).trans (contains_of_blockBody looked)
    simp [Kind.owned, isModule, SymbolKind.owned]
  · simp [fail] at looked

theorem contains_of_callArgs (looked : program.callArgs id = .ok found) :
    program.Contains id found := by
  simp only [callArgs, Fault.bind_eq_ok, kindOf_eq_ok] at looked
  obtain ⟨kind, known, looked⟩ := looked
  split at looked
  · rename_i callee args
    obtain rfl := Fault.pure_eq_ok.mp looked
    exact contains_of_owned known (by cases callee <;> simp [Kind.owned, Expr.owned])
  · simp [fail] at looked

theorem contains_of_fieldList (looked : program.fieldList id = .ok found) :
    program.Contains id found := by
  simp only [fieldList, Fault.bind_eq_ok, kindOf_eq_ok] at looked
  obtain ⟨kind, known, looked⟩ := looked
  split at looked
  · obtain rfl := Fault.pure_eq_ok.mp looked
    exact contains_of_owned known (by simp [Kind.owned, TypeKind.owned])
  · simp [fail] at looked

theorem contains_of_definedSymbolWithin {fuel : Nat}
    (looked : program.definedSymbolWithin fuel id = .ok (some sym)) : program.Contains id sym := by
  induction fuel generalizing id with
  | zero => cases looked
  | succ fuel ih =>
    simp only [definedSymbolWithin, Fault.bind_eq_ok, kindOf_eq_ok] at looked
    obtain ⟨kind, known, looked⟩ := looked
    split at looked
    · obtain rfl : _ = sym := by simpa [Fault.pure_eq_ok] using looked
      exact contains_of_owned known (by simp [Kind.owned, Expr.owned])
    · rename_i expr
      have above : program.Contains id expr :=
        contains_of_owned known (by simp [Kind.owned, Stmt.owned])
      exact above.trans (ih looked)
    · simp [Fault.pure_eq_ok] at looked

theorem contains_of_field {place : Nat} (looked : program.field id place = .ok (some sym)) :
    program.Contains id sym := by
  simp only [field, Fault.bind_eq_ok, elements_eq_ok] at looked
  obtain ⟨fields, isFields, definitions, ⟨holds, isList⟩, looked⟩ := looked
  split at looked
  · rename_i definition inList
    have element : definition ∈ (Kind.list holds definitions).owned := by
      simpa [Kind.owned] using Array.mem_of_getElem? inList
    exact ((contains_of_fieldList isFields).trans (contains_of_owned isList element)).trans
      (contains_of_definedSymbolWithin looked)
  · simp [Fault.pure_eq_ok] at looked

/-! ## Captures are symbols -/

theorem isSymbol_of_usedOuterVar {fn var : NodeId}
    (looked : program.usedOuterVar fn id = .ok (some var)) :
    (program.kindAt var).any Kind.isSymbol := by
  simp only [usedOuterVar, Fault.bind_eq_ok] at looked
  obtain ⟨used?, _, looked⟩ := looked
  split at looked
  · simp [Fault.pure_eq_ok] at looked
  · simp only [Fault.bind_eq_ok, kindOf_eq_ok] at looked
    obtain ⟨kind, known, looked⟩ := looked
    rcases Fault.ite_eq_ok.mp looked with ⟨isLocal, looked⟩ | ⟨_, looked⟩
    · obtain ⟨outer, _, looked⟩ := Fault.bind_eq_ok.mp looked
      obtain ⟨_, rfl⟩ : outer = true ∧ _ = var := by simpa [Fault.pure_eq_ok] using looked
      obtain ⟨symbol, isSymbol, _⟩ := (Option.any_eq_true _ _).mp isLocal
      simp [known, Kind.isSymbol, isSymbol]
    · simp [Fault.pure_eq_ok] at looked

/-- What holds of no captures and is kept by one more capture of a variable that was not
captured before holds of all captures. -/
theorem of_captures {fn : NodeId} {captures : List Capture} (good : List Capture → Prop)
    (none : good [])
    (more : ∀ {earlier id var excluded}, program.Contains fn id → good earlier →
      program.usedOuterVar fn id = .ok (some var) → var ∉ earlier.map Capture.var →
      good (earlier ++ [⟨var, excluded⟩]))
    (looked : program.captures fn = .ok captures) : good captures := by
  have step : ∀ (ids : List NodeId) (start : List Capture), (∀ id ∈ ids, program.Contains fn id) →
      good start → ids.foldlM (program.addCapture fn) start = .ok captures → good captures := by
    intro ids
    induction ids with
    | nil =>
      intro start _ isGood looked
      obtain rfl := Fault.pure_eq_ok.mp looked
      exact isGood
    | cons id rest ih =>
      intro start contained isGood looked
      rw [List.foldlM_cons, Fault.bind_eq_ok] at looked
      obtain ⟨next, added, looked⟩ := looked
      obtain ⟨containedId, containedRest⟩ := List.forall_mem_cons.mp contained
      refine ih next containedRest ?_ looked
      simp only [addCapture, Fault.bind_eq_ok] at added
      obtain ⟨used?, used, added⟩ := added
      split at added
      · obtain rfl := Fault.pure_eq_ok.mp added
        exact isGood
      · rename_i var
        rcases Fault.ite_eq_ok.mp added with ⟨_, added⟩ | ⟨absent, added⟩
        · obtain rfl := Fault.pure_eq_ok.mp added
          exact isGood
        · simp only [Fault.bind_eq_ok, Fault.pure_eq_ok] at added
          obtain ⟨excluded, _, rfl⟩ := added
          exact more containedId isGood used (by simpa using absent)
  rw [Program.captures, Fault.bind_eq_ok] at looked
  obtain ⟨ids, walked, looked⟩ := looked
  exact step ids [] (fun id member => (mem_subtree walked).mp member) none looked

/-- A captured variable is used in the function. -/
theorem exists_used_of_captures {fn : NodeId} {captures : List Capture}
    (looked : program.captures fn = .ok captures) :
    ∀ capture ∈ captures, ∃ id, program.Contains fn id ∧
      program.usedOuterVar fn id = .ok (some capture.var) := by
  refine of_captures (fun captures => ∀ capture ∈ captures, ∃ id, program.Contains fn id ∧
      program.usedOuterVar fn id = .ok (some capture.var))
    ?_ (fun {earlier id var excluded} contained uses used _ => ?_) looked
  · nofun
  · intro capture member
    rcases List.mem_append.mp member with member | last
    · exact uses capture member
    · obtain rfl : capture = ⟨var, excluded⟩ := by simpa using last
      exact ⟨id, contained, used⟩

theorem isSymbol_of_captures {fn : NodeId} {captures : List Capture}
    (looked : program.captures fn = .ok captures) :
    ∀ capture ∈ captures, (program.kindAt capture.var).any Kind.isSymbol := by
  intro capture member
  obtain ⟨id, _, used⟩ := exists_used_of_captures looked capture member
  exact isSymbol_of_usedOuterVar used

/-- Every variable is captured once. -/
theorem nodup_of_captures {fn : NodeId} {captures : List Capture}
    (looked : program.captures fn = .ok captures) : (captures.map Capture.var).Nodup := by
  refine of_captures (fun captures => (captures.map Capture.var).Nodup) ?_
    (fun {earlier id var excluded} _ distinct _ absent => ?_) looked
  · exact .nil
  · rw [List.map_append, List.map_singleton, List.nodup_append']
    exact ⟨distinct, List.nodup_singleton var, List.disjoint_singleton.mpr absent⟩

theorem isSymbol_of_bundledVars {fn : NodeId} {captures : List Capture}
    (looked : program.captures fn = .ok captures) :
    ∀ var ∈ bundledVars captures, (program.kindAt var).any Kind.isSymbol := by
  intro var isVar
  obtain ⟨capture, member, rfl⟩ := List.mem_map.mp isVar
  exact isSymbol_of_captures looked capture (List.mem_filter.mp member).1

theorem nodup_bundledVars {fn : NodeId} {captures : List Capture}
    (looked : program.captures fn = .ok captures) : (bundledVars captures).Nodup :=
  (nodup_of_captures looked).sublist (List.filter_sublist.map Capture.var)

/-! ## Up to the statement and the module -/

/-- Where an ascent goes from a node of this kind, unless it ends there. -/
def wayUp (program : Program) (turn : NodeId → SymbolKind → Ascent) (id : NodeId) :
    Kind → Option NodeId ⊕ Option NodeId
  | .symbol symbol =>
    match turn id symbol.kind with
    | .stop owner? => .inl owner?
    | .goOn => .inr symbol.defPoint?
  | .type type => .inr type.symbol?
  | _ => .inr (program.contextOf id).symbol?

theorem ascend_succ_eq {turn : NodeId → SymbolKind → Ascent} {fuel : Nat}
    (known : program.kindAt id = some kind) :
    program.ascend turn (fuel + 1) id =
      match program.wayUp turn id kind with
      | .inl owner? => .ok owner?
      | .inr none => .ok none
      | .inr (some above) => program.ascend turn fuel above := by
  obtain ⟨node, found, rfl⟩ := get?_of_kindAt known
  rw [ascend, node_eq_ok.mpr found, wayUp.eq_def, contextOf_eq found]
  rfl

theorem ascend_of_unissued {turn : NodeId → SymbolKind → Ascent} {fuel : Nat}
    (unissued : program.get? id = none) :
    program.ascend turn (fuel + 1) id = .error (.unknownNode id) := by
  simp [ascend, node, unissued, bind, Except.bind]

/-- Where the ascent to a module goes on from a node. -/
def GoesOn (program : Program) (id above : NodeId) : Prop :=
  ∃ node, program.get? id = some node ∧
    match node.kind with
    | .symbol symbol => symbol.isModule = false ∧ symbol.defPoint? = some above
    | .type type => type.symbol? = some above
    | _ => node.context.symbol? = some above

/-- The ascent to a module ends at that module. -/
theorem isModule_of_wayUp (way : program.wayUp owningModule.turn id kind = .inl (some module)) :
    id = module ∧ kind.isModule := by
  cases kind with
  | symbol symbol =>
    cases form : symbol.kind <;>
      simp_all [wayUp, owningModule.turn, Kind.isModule, Kind.symbol?, Symbol.isModule]
  | _ => cases way

theorem goesOn_of_wayUp {node : Node} {above : NodeId} (foundNode : program.get? id = some node)
    (way : program.wayUp owningModule.turn id node.kind = .inr (some above)) :
    program.GoesOn id above := by
  refine ⟨node, foundNode, ?_⟩
  cases kind : node.kind with
  | symbol symbol =>
    rw [kind] at way
    cases form : symbol.kind <;> simp_all [wayUp, owningModule.turn, Symbol.isModule]
  | type type => simpa [kind, wayUp] using way
  | _ => simpa [kind, wayUp, contextOf_eq foundNode] using way

/-- An ascent that ends at a module has got there or goes on. -/
theorem ascend_succ {fuel : Nat}
    (looked : program.ascend owningModule.turn (fuel + 1) id = .ok (some module)) :
    id = module ∧ (program.kindAt id).any Kind.isModule ∨
      ∃ above, program.GoesOn id above ∧
        program.ascend owningModule.turn fuel above = .ok (some module) := by
  obtain ⟨node, foundNode, _⟩ := Fault.bind_eq_ok.mp looked
  rw [node_eq_ok] at foundNode
  rw [ascend_succ_eq (kindAt_eq foundNode)] at looked
  cases way : program.wayUp owningModule.turn id node.kind with
  | inl owner? =>
    rw [way] at looked
    obtain rfl : owner? = some module := Except.ok.inj looked
    exact .inl ((isModule_of_wayUp way).imp_right fun isModule => by
      simpa [kindAt_eq foundNode] using isModule)
  | inr above? =>
    rw [way] at looked
    cases above? with
    | none => cases looked
    | some above => exact .inr ⟨above, goesOn_of_wayUp foundNode way, looked⟩

/-- The owning module is a module. -/
theorem isModule_of_ascend {fuel : Nat}
    (looked : program.ascend owningModule.turn fuel id = .ok (some module)) :
    (program.kindAt module).any Kind.isModule := by
  induction fuel generalizing id with
  | zero => simp [ascend, Fault.pure_eq_ok] at looked
  | succ fuel ih =>
    obtain ⟨rfl, isModule⟩ | ⟨above, _, further⟩ := ascend_succ looked
    · exact isModule
    · exact ih further

theorem expectModule_eq_ok :
    program.expectModule id = .ok module ↔ program.owningModule id = .ok (some module) := by
  simp only [expectModule, Fault.bind_eq_ok]
  constructor
  · rintro ⟨owner?, owning, looked⟩
    cases owner? with
    | none => simp [fail] at looked
    | some owner => rwa [← Fault.pure_eq_ok.mp looked]
  · exact fun owning => ⟨some module, owning, rfl⟩

theorem isModule_of_expectModule (looked : program.expectModule id = .ok module) :
    (program.kindAt module).any Kind.isModule :=
  isModule_of_ascend (expectModule_eq_ok.mp looked)

namespace Sound

variable (sound : Sound exact bare region program)
include sound

theorem known_of_contains (known : Known region program id)
    (contained : program.Contains id found) :
    Known region program found :=
  ⟨sound.orderly.forest.contains known.inside contained,
    sound.orderly.forest.issued_of_contains known.inside known.issued contained⟩

theorem known_of_reachable (reachable : program.Reachable id) : Known region program id :=
  ⟨sound.orderly.rooted.reachable_inside sound.orderly.forest reachable,
    sound.orderly.issued_of_reachable reachable⟩

theorem inside_of_enclosingStmtWithin {fuel : Nat} (inside : region id)
    (looked : program.enclosingStmtWithin fuel id = .ok (some found)) : region found := by
  induction fuel generalizing id with
  | zero => cases looked
  | succ fuel ih =>
    simp only [enclosingStmtWithin, Fault.bind_eq_ok, node_eq_ok] at looked
    obtain ⟨node, foundNode, looked⟩ := looked
    split at looked
    · simp [Fault.pure_eq_ok] at looked
    · rename_i parent named
      obtain ⟨isStmtList, _, looked⟩ := Fault.bind_eq_ok.mp looked
      rcases Fault.ite_eq_ok.mp looked with ⟨_, looked⟩ | ⟨_, looked⟩
      · obtain rfl : id = found := by simpa [Fault.pure_eq_ok] using looked
        exact inside
      · have isParent : program.parentOf id = some parent := by rw [parentOf_eq foundNode, named]
        exact ih (sound.orderly.forest.holder inside (by simp) isParent).1 looked

/-- The symbol around a node of the region that is no root. -/
theorem enclosing_symbol (inside : region id) (notRoot : id ∉ program.roots)
    (around : (program.contextOf id).symbol? = some sym) :
    region sym ∧ (program.kindAt sym).any Kind.isSymbol := by
  by_cases reachable : program.Reachable id
  · obtain ⟨root, isRoot, contained⟩ := reachable
    induction contained with
    | refl => exact absurd isRoot notRoot
    | @tail holder child above holds ih =>
      have reachableHolder : program.Reachable holder := ⟨root, isRoot, above⟩
      have insideHolder :=
        sound.orderly.rooted.reachable_inside sound.orderly.forest reachableHolder
      rw [sound.orderly.context_of_held reachableHolder holds, innerContext] at around
      by_cases isSymbol : (program.kindAt holder).any Kind.isSymbol
      · obtain rfl : holder = sym := by simpa [isSymbol] using around
        exact ⟨insideHolder, isSymbol⟩
      · refine ih insideHolder (fun isRoot => isSymbol ?_) (by simpa [isSymbol] using around)
        exact sound.orderly.rooted.isSymbol isRoot
  · rw [sound.orderly.settled.no_context inside reachable not_false] at around
    cases around

/-- An ascent from a symbol or an expression of the region that ends at a module. -/
theorem inside_of_owningModule {fuel : Nat} (inside : region id)
    (start : (program.kindAt id).any Kind.isSymbol ∨ (program.kindAt id).any Kind.isExpr)
    (looked : program.ascend owningModule.turn fuel id = .ok (some module)) : region module := by
  induction fuel generalizing id with
  | zero => simp [ascend, Fault.pure_eq_ok] at looked
  | succ fuel ih =>
    obtain ⟨rfl, _⟩ | ⟨above, ⟨node, foundNode, goes⟩, further⟩ := ascend_succ looked
    · exact inside
    have isKind := kindAt_eq foundNode
    -- wherever it goes on, it goes on in the region
    have around : node.kind.isSymbol = false → node.context.symbol? = some above →
        region above ∧
          ((program.kindAt above).any Kind.isSymbol ∨ (program.kindAt above).any Kind.isExpr) := by
      intro notSymbol enclosing
      have notRoot : id ∉ program.roots := by
        intro isRoot
        have isSymbol := sound.orderly.rooted.isSymbol isRoot
        simp [isKind, notSymbol] at isSymbol
      rw [← contextOf_eq foundNode] at enclosing
      exact (sound.enclosing_symbol inside notRoot enclosing).imp_right .inl
    obtain ⟨insideAbove, startAbove⟩ : region above ∧
        ((program.kindAt above).any Kind.isSymbol ∨ (program.kindAt above).any Kind.isExpr) := by
      cases kind : node.kind with
      | symbol symbol =>
        rw [kind] at goes isKind
        have located := sound.located id above inside ⟨_, isKind, goes⟩
        exact (located.resolve_left not_false).imp_right .inr
      | type type => simp [isKind, kind, Kind.isSymbol, Kind.symbol?, Kind.isExpr] at start
      | _ =>
        rw [kind] at goes around
        exact around rfl goes
    exact ih insideAbove startAbove further

theorem inside_of_enclosingStmt (inside : region id)
    (looked : program.enclosingStmt id = .ok (some found)) : region found :=
  sound.inside_of_enclosingStmtWithin inside looked

theorem inside_of_expectModule (inside : region id)
    (start : (program.kindAt id).any Kind.isSymbol)
    (looked : program.expectModule id = .ok module) : region module :=
  sound.inside_of_owningModule inside (.inl start) (expectModule_eq_ok.mp looked)

theorem known_of_callSites {calls : List NodeId} {call : NodeId}
    (looked : program.callSites id = .ok calls) (member : call ∈ calls) :
    Known region program call := by
  rw [callSites, Fault.filterM_eq_ok] at looked
  obtain ⟨_, rfl⟩ := looked
  have indexed : call ∈ program.index.entries .call := by
    rw [List.mem_filter, Std.ExtTreeSet.mem_toList] at member
    exact member.1
  exact sound.known_of_reachable (sound.orderly.settled.indexed_reachable indexed not_false)

end Sound

end ProgramTree.Program
