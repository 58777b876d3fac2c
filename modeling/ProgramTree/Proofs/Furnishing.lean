import ProgramTree.Proofs.Unpacking

/-!
# The inside of a bundle

A function whose captures are passed in a bundle is rewritten in four steps: the class of the
bundle is declared, the function gets its formals, the fields are read into locals, and the
uses become uses of the locals.  No later step undoes what an earlier one did.
-/

namespace ProgramTree.Program

open Edit Relation

variable {before between after : Program} {everything touched : NodeId → Prop}
  {fn call module bundle naming untyped wrap list anchor : NodeId} {carried : List Carried}

/-! ## The lists that change -/

section Lists

variable {moduleList formals body : NodeId} (forest : Forest (fun _ => True) [] before)
  (isModuleList : before.moduleBodyList module = .ok moduleList)
  (isFormals : before.fnFormalsList fn = .ok formals) (isBody : before.fnBodyList fn = .ok body)

include isFormals in
theorem holds_formals : before.Holds fn formals ∧ (before.kindAt fn).any Kind.isFn := by
  obtain ⟨_, _, _, symbol, known, isFn⟩ := fnFormalsList_eq_ok.mp isFormals
  exact ⟨holds_of_owned known (by simp [Kind.owned, isFn, SymbolKind.owned]),
    by simp [known, Kind.isFn, Kind.symbol?, Symbol.isFn, isFn]⟩

include isBody in
theorem holds_body : ∃ block, before.Holds fn block ∧ (before.kindAt fn).any Kind.isFn ∧
    before.Holds block body ∧ (before.kindAt block).any Kind.isStmt := by
  obtain ⟨block, isFnBody, isBlock⟩ := Fault.bind_eq_ok.mp isBody
  obtain ⟨_, _, _, symbol, known, isFn⟩ := fnBody_eq_ok.mp isFnBody
  rw [blockBody_eq_ok] at isBlock
  exact ⟨block, holds_of_owned known (by simp [Kind.owned, isFn, SymbolKind.owned]),
    by simp [known, Kind.isFn, Kind.symbol?, Symbol.isFn, isFn],
    holds_of_owned isBlock (by simp [Kind.owned, Stmt.owned]), by simp [isBlock, Kind.isStmt]⟩

include isModuleList in
theorem holds_moduleList : ∃ block,
    before.Holds module block ∧ (before.kindAt module).any Kind.isModule ∧
    before.Holds block moduleList ∧ (before.kindAt block).any Kind.isStmt := by
  obtain ⟨block, _, _, ⟨symbol, known, isModule⟩, isBlock⟩ := moduleBodyList_eq_ok.mp isModuleList
  rw [blockBody_eq_ok] at isBlock
  exact ⟨block, holds_of_owned known (by simp [Kind.owned, isModule, SymbolKind.owned]),
    by simp [known, Kind.isModule, Kind.symbol?, Symbol.isModule, isModule],
    holds_of_owned isBlock (by simp [Kind.owned, Stmt.owned]), by simp [isBlock, Kind.isStmt]⟩

theorem holds_args {args : NodeId} (isArgs : before.callArgs call = .ok args) :
    before.Holds call args ∧ (before.kindAt call).any Kind.isExpr := by
  obtain ⟨callee, known⟩ := callArgs_eq_ok.mp isArgs
  exact ⟨holds_of_owned known (by cases callee <;> simp [Kind.owned, Expr.owned]),
    by simp [known, Kind.isExpr]⟩

include forest isModuleList isFormals in
theorem formals_ne_moduleList : formals ≠ moduleList := by
  obtain ⟨moduleBlock, _, _, inModuleBlock, isModuleBlock⟩ := holds_moduleList isModuleList
  obtain ⟨inFn, isFn⟩ := holds_formals isFormals
  rintro rfl
  obtain rfl := forest.only_holder trivial trivial inFn inModuleBlock
  exact absurd_of_tests isStmt_of_isFn isFn isModuleBlock

include forest isModuleList isBody in
theorem body_ne_moduleList : body ≠ moduleList := by
  obtain ⟨moduleBlock, inModule, isModule, inModuleBlock, _⟩ := holds_moduleList isModuleList
  obtain ⟨block, fnHolds, isFn, inBlock, _⟩ := holds_body isBody
  rintro rfl
  obtain rfl := forest.only_holder trivial trivial inBlock inModuleBlock
  obtain rfl := forest.only_holder trivial trivial fnHolds inModule
  exact absurd_of_tests isModule_of_isFn isFn isModule

include forest isFormals isBody in
theorem body_ne_formals : body ≠ formals := by
  obtain ⟨inFn, isFn⟩ := holds_formals isFormals
  obtain ⟨block, _, _, inBlock, isBlock⟩ := holds_body isBody
  rintro rfl
  obtain rfl := forest.only_holder trivial trivial inFn inBlock
  exact absurd_of_tests isStmt_of_isFn isFn isBlock

include forest isModuleList isFormals isBody in
/-- The arguments of a call are none of them. -/
theorem args_apart {args : NodeId} (isArgs : before.callArgs call = .ok args) :
    args ≠ moduleList ∧ args ≠ formals ∧ args ≠ body := by
  obtain ⟨moduleBlock, _, _, inModuleBlock, isModuleBlock⟩ := holds_moduleList isModuleList
  obtain ⟨inFn, isFn⟩ := holds_formals isFormals
  obtain ⟨block, _, _, inBlock, isBlock⟩ := holds_body isBody
  obtain ⟨inCall, isExpr⟩ := holds_args isArgs
  have exprNotStmt : ∀ kind : Kind, kind.isExpr = true → kind.isStmt = false := by
    intro kind isExpr
    cases kind <;> first | rfl | cases isExpr
  have exprNotFn : ∀ kind : Kind, kind.isExpr = true → kind.isFn = false := by
    intro kind isExpr
    cases kind <;> first | rfl | cases isExpr
  refine ⟨?_, ?_, ?_⟩
  · rintro rfl
    obtain rfl := forest.only_holder trivial trivial inCall inModuleBlock
    exact absurd_of_tests exprNotStmt isExpr isModuleBlock
  · rintro rfl
    obtain rfl := forest.only_holder trivial trivial inCall inFn
    exact absurd_of_tests exprNotFn isExpr isFn
  · rintro rfl
    obtain rfl := forest.only_holder trivial trivial inCall inBlock
    exact absurd_of_tests exprNotStmt isExpr isBlock

include isFormals isBody in
/-- A list above a call that is outside the function is no list of the function. -/
theorem anchor_apart (holds : before.Holds list anchor) (contained : before.Contains anchor call)
    (outside : ¬ before.Contains fn call) : list ≠ formals ∧ list ≠ body := by
  have below : before.Contains list call := .head holds contained
  refine ⟨?_, ?_⟩
  · rintro rfl
    exact outside (.head (holds_formals isFormals).1 below)
  · rintro rfl
    obtain ⟨block, fnHolds, _, inBlock, _⟩ := holds_body isBody
    exact outside (.head fnHolds (.head inBlock below))

include forest in
theorem args_apart_anchor {args : NodeId} (isArgs : before.callArgs call = .ok args)
    (holds : before.Holds list anchor) (contained : before.Contains anchor call) : args ≠ list := by
  rintro rfl
  exact forest.not_contains_holder trivial (holds_args isArgs).1 (.head holds contained)

end Lists

/-! ## The parts -/

/-- The variables with their fields. -/
def Carried.members (carried : List Carried) : List (NodeId × NodeId) :=
  carried.map fun entry => (entry.var, entry.member)

variable {members : List (NodeId × NodeId)}

/-- The class is at the head of the module of the function, with one field for each variable. -/
def DeclaresBundle (before after : Program) (fn bundle naming : NodeId)
    (members : List (NodeId × NodeId)) : Prop :=
  IsClass before after bundle naming members ∧
  ∃ module list element definition name rest,
    before.expectModule fn = .ok module ∧ before.moduleBodyList module = .ok list ∧
    after.moduleBodyList module = .ok list ∧ after.held list = element :: rest ∧
    StandsFor before after element definition ∧
    Declares before after definition naming { name, flags := bundleFlags, kind := .type bundle }

/-- The function gets two more formals, at the end. -/
def ReceivesBundle (before after : Program) (fn bundle untyped wrap : NodeId) : Prop :=
  ∃ list first second, before.fnFormalsList fn = .ok list ∧ after.fnFormalsList fn = .ok list ∧
    after.held list = before.held list ++ [first, second] ∧
    Receives before after bundle untyped wrap first second

/-- The body of the function starts with the definition and the setting of each local. -/
def UnpacksBundle (before after : Program) (fn wrap : NodeId) (carried : List Carried) : Prop :=
  ∃ (list : NodeId) (pairs : List (NodeId × NodeId)) (added : List NodeId),
    before.fnBodyList fn = .ok list ∧ after.fnBodyList fn = .ok list ∧
    after.held list = added ++ before.held list ∧
    List.Forall₂ (StandsFor before after) added (pairs.flatMap fun pair => [pair.1, pair.2]) ∧
    List.Forall₂ (fun pair entry => Unpacks before after wrap entry pair.1 pair.2) pairs carried

/-- In what was the body of the function, the uses of each variable become uses of its local.
All other uses stay what they are. -/
def ReroutesUses (before after : Program) (fn : NodeId) (carried : List Carried) : Prop :=
  ∃ body, before.fnBody fn = .ok body ∧ ∀ id var, before.kindAt id = some (.expr (.use var)) →
    (∀ entry ∈ carried, entry.var = var → before.Contains body id →
      after.kindAt id = some (.expr (.use entry.localVar))) ∧
    (var ∉ carried.map Carried.var ∨ ¬ before.Contains body id →
      after.kindAt id = some (.expr (.use var)))

/-- In `after`, the list has a new element before those that it had in `before`. -/
def Heads (before after : Program) (list element : NodeId) : Prop :=
  ∃ holds elements, before.kindAt list = some (.list holds elements.toArray) ∧ before.New element ∧
    after.kindAt list = some (.list holds (element :: elements).toArray)

namespace Heads

variable {element : NodeId}

theorem isList (headed : Heads before after list element) :
    (before.kindAt list).any Kind.isList := by
  obtain ⟨holds, elements, known, _⟩ := headed
  simp [known, Kind.isList]

theorem isList_after (headed : Heads before after list element) :
    (after.kindAt list).any Kind.isList := by
  obtain ⟨holds, elements, _, _, known⟩ := headed
  simp [known, Kind.isList]

theorem keep (headed : Heads before between list element)
    (last : Revision before touched between after) (untouched : ¬ touched list) :
    Heads before after list element := by
  obtain ⟨holds, elements, known, new, knownNow⟩ := headed
  exact ⟨holds, elements, known, new, last.kinds knownNow untouched⟩

theorem heads_of_keep (headed : Heads before between list element)
    (last : Revision before touched between after) (untouched : ¬ touched list) :
    ∀ first rest, between.held list = first :: rest → ∃ rest, after.held list = first :: rest := by
  intro first rest isHead
  obtain ⟨holds, elements, _, _, knownNow⟩ := headed
  refine ⟨rest, ?_⟩
  rw [held_of_list (last.kinds knownNow untouched), ← held_of_list knownNow, isHead]

end Heads

/-! ## What stays -/

section Keeping

variable {moduleList formals body : NodeId} (sofar : Revision before everything before after)
  (last : Revision before touched between after) (spares : Spares before between touched)
  (backed : before.Backed) (issuedFn : ¬ before.New fn)
include sofar last spares

include backed in
theorem DeclaresBundle.keep (declares : DeclaresBundle before between fn bundle naming members)
    (isModule : before.expectModule fn = .ok module)
    (isModuleList : before.moduleBodyList module = .ok moduleList)
    (heads : ∀ element rest, between.held moduleList = element :: rest →
      ∃ rest, after.held moduleList = element :: rest) :
    DeclaresBundle before after fn bundle naming members := by
  obtain ⟨isClass, _, _, element, definition, name, rest, isModule', isModuleList', _, isHead,
    stands, declares⟩ := declares
  obtain rfl := Except.ok.inj (isModule.symm.trans isModule')
  obtain rfl := Except.ok.inj (isModuleList.symm.trans isModuleList')
  obtain ⟨rest, isHead⟩ := heads element rest isHead
  exact ⟨isClass.keep_of_spares last spares, module, moduleList, element, definition, name, rest,
    isModule, isModuleList,
    (sofar.moduleBodyList_iff backed (issued_of_expectModule isModule)).mpr isModuleList,
    isHead, stands.keep_of_spares last spares, declares.keep_of_spares last spares⟩

include issuedFn in
theorem ReceivesBundle.keep (receives : ReceivesBundle before between fn bundle untyped wrap)
    (isFormals : before.fnFormalsList fn = .ok formals)
    (same : after.held formals = between.held formals) :
    ReceivesBundle before after fn bundle untyped wrap := by
  obtain ⟨_, first, second, isFormals', _, isAppended, receives⟩ := receives
  obtain rfl := Except.ok.inj (isFormals.symm.trans isFormals')
  exact ⟨formals, first, second, isFormals, (sofar.fnFormalsList_iff issuedFn).mpr isFormals,
    same.trans isAppended, receives.keep_of_spares last spares⟩

include backed issuedFn in
theorem UnpacksBundle.keep (unpacks : UnpacksBundle before between fn wrap carried)
    (newWrap : before.New wrap) (newMembers : ∀ entry ∈ carried, before.New entry.member)
    (isBody : before.fnBodyList fn = .ok body) (same : after.held body = between.held body) :
    UnpacksBundle before after fn wrap carried := by
  obtain ⟨_, pairs, added, isBody', _, isHeaded, stand, unpack⟩ := unpacks
  obtain rfl := Except.ok.inj (isBody.symm.trans isBody')
  exact ⟨body, pairs, added, isBody, (sofar.fnBodyList_iff backed issuedFn).mpr isBody,
    same.trans isHeaded, stand.imp fun _ _ stands => stands.keep_of_spares last spares,
    unpack_keep_of_spares unpack last spares newWrap newMembers⟩

end Keeping

theorem ReroutesUses.keep (reroutes : ReroutesUses before between fn carried)
    (last : Revision before touched between after)
    (lists : ∀ id, touched id → (between.kindAt id).any Kind.isList) :
    ReroutesUses before after fn carried := by
  have kept : ∀ {id sym}, between.kindAt id = some (.expr (.use sym)) →
      after.kindAt id = some (.expr (.use sym)) := fun known => last.kinds known fun again => by
    simpa [known, Kind.isList] using lists _ again
  obtain ⟨body, isBody, uses⟩ := reroutes
  exact ⟨body, isBody, fun id var known =>
    ⟨fun entry member isVar contained => kept ((uses id var known).1 entry member isVar contained),
      fun other => kept ((uses id var known).2 other)⟩⟩

theorem DeclaresBundle.isSymbol_naming
    (declares : DeclaresBundle before after fn bundle naming members) :
    (after.kindAt naming).any Kind.isSymbol := by
  obtain ⟨_, _, _, _, _, _, _, _, _, _, _, _, declaresNaming⟩ := declares
  exact declaresNaming.isSymbol

theorem DeclaresBundle.newMembers
    (declares : DeclaresBundle before after fn bundle naming members) :
    ∀ member ∈ members, before.New member.2 :=
  declares.1.new_of_mem

theorem ReceivesBundle.added_wrap (receives : ReceivesBundle before after fn bundle untyped wrap) :
    ∃ symbol, Added before after wrap (.symbol symbol) := by
  obtain ⟨_, _, _, _, _, _, _, _, _, declares⟩ := receives
  exact ⟨_, declares.defined⟩

/-! ## One step after the other -/

section Steps

variable {start classed received unpacked : Program} {vars : List NodeId} {block : NodeId}
  {table : Remap} (backed : before.Backed)

include backed in
/-- The class is declared at the head of the module. -/
theorem declaresBundle_newBundleClass (entering : start.nodes = before.nodes)
    (symbols : ∀ var ∈ vars, (before.kindAt var).any Kind.isSymbol)
    (isModule : before.expectModule fn = .ok module)
    (run : Yields (newBundleClass vars module fn) start bundle classed) :
    ∃ moduleList naming members element, before.moduleBodyList module = .ok moduleList ∧
      members.map Prod.fst = vars ∧ (members.map Prod.snd).Nodup ∧
      DeclaresBundle before classed fn bundle naming members ∧
      Revision before (fun id => id ∈ vars ∨ id = moduleList) before classed ∧
      Heads before classed moduleList element := by
  have entered : Addition before before start := .of_nodes (fun new => new) entering
  have issuedModule := issued_of_expectModule isModule
  have issuedVars : ∀ var ∈ vars, ¬ before.New var :=
    fun var isVar => issued_of_any (symbols var isVar)
  have old : ∀ {list}, start.moduleBodyList module = .ok list → ¬ before.New list := by
    intro list isList
    have isListBefore := (entered.moduleBodyList_iff backed issuedModule).mp isList
    exact backed.contains (contains_of_moduleBodyList isListBefore) issuedModule
  obtain ⟨moduleList, holds, elements, element, definition, naming, name, members, isModuleList,
    isList, classing, isListNow, stands, declares, isClass, areVars, distinct⟩ :=
    headed_newBundleClass entered.past_after (entered.backed_after backed) issuedVars
      (fun var isVar => (entered.isSymbol_iff (issuedVars var isVar)).mpr (symbols var isVar))
      (fun var isVar type? => (entered.typeOf_iff (issuedVars var isVar)).mp) issuedModule
      (fun _ => old) run
  have isModuleListBefore := (entered.moduleBodyList_iff backed issuedModule).mp isModuleList
  have revision := classing.following entered
  refine ⟨moduleList, naming, members, element, isModuleListBefore, areVars, distinct,
    ⟨isClass, module, moduleList, element, definition, name, elements, isModule, isModuleListBefore,
      (revision.moduleBodyList_iff backed issuedModule).mpr isModuleListBefore,
      held_of_list isListNow, stands, declares⟩,
    revision, holds, elements, ?_, stands.new declares.defines.new, isListNow⟩
  exact (entered.kindAt_eq (old isModuleList) not_false).symm.trans isList

include backed in
/-- The two formals are appended. -/
theorem receivesBundle_insertFormals {made flagged appended wrapped : Program}
    (issuedFn : ¬ before.New fn) (sofar : Revision before everything before classed)
    (same : ∀ list, before.fnFormalsList fn = .ok list → classed.held list = before.held list)
    (runPointer :
      Yields (newArg "bundle" .byIn (some PrimitiveType.cVoidPtr.id)) classed untyped made)
    (runFlag : Yields (addFlag untyped .noCodegen) made () flagged)
    (runFirst : Yields (insertFormalAtTail fn untyped) flagged () appended)
    (runWrap : Yields (newArg "dummy_c" .byIn (some bundle)) appended wrap wrapped)
    (runSecond : Yields (insertFormalAtTail fn wrap) wrapped () received) :
    ∃ formals, before.fnFormalsList fn = .ok formals ∧ (before.kindAt formals).any Kind.isList ∧
      Revision before (· = formals) classed received ∧
      ReceivesBundle before received fn bundle untyped wrap := by
  have old : ∀ list, classed.fnFormalsList fn = .ok list → ¬ before.New list := by
    intro list isFormals
    have contained := contains_of_fnFormalsList ((sofar.fnFormalsList_iff issuedFn).mp isFormals)
    exact backed.contains contained issuedFn
  obtain ⟨formals, first, second, isFormals, isList, revision, isAppended, receives⟩ :=
    appended_formals sofar.past_after (sofar.issued issuedFn) (sofar.backed_after backed) old
      runPointer runFlag runFirst runWrap runSecond
  have isFormalsBefore := (sofar.fnFormalsList_iff issuedFn).mp isFormals
  have untilReceived : Revision before (fun _ => True) before received :=
    sofar.followedBy revision (fun _ _ => trivial) fun _ _ _ => trivial
  refine ⟨formals, isFormalsBefore, (sofar.isList_iff (old formals isFormals)).mp isList, revision,
    formals, first, second, isFormalsBefore,
    (untilReceived.fnFormalsList_iff issuedFn).mpr isFormalsBefore, ?_, receives⟩
  rw [isAppended, same formals isFormalsBefore]

include backed in
/-- The fields are read into locals. -/
theorem unpacksBundle_unpackBundle (issuedFn : ¬ before.New fn)
    (oldVars : ∀ member ∈ members, ¬ before.New member.1)
    (sofar : Revision before everything before received)
    (same : ∀ list, before.fnBodyList fn = .ok list → received.held list = before.held list)
    (distinct : (members.map Prod.fst).Nodup)
    (isClass : IsClass before received bundle naming members)
    (isWrap : (received.kindAt wrap).any Kind.isSymbol)
    (run : Yields (unpackBundle fn (members.map Prod.fst) wrap bundle) received table unpacked) :
    ∃ body carried, before.fnBodyList fn = .ok body ∧ Carried.members carried = members ∧
      Revision before (fun id => id = body ∧ (before.kindAt id).any Kind.isList) received unpacked ∧
      UnpacksBundle before unpacked fn wrap carried ∧ Renames table carried ∧
      (∀ entry ∈ carried, before.New entry.localVar) ∧ (carried.map Carried.localVar).Nodup := by
  have old : ∀ list, received.fnBodyList fn = .ok list → ¬ before.New list := by
    intro list isBody
    have contained := contains_of_fnBodyList ((sofar.fnBodyList_iff backed issuedFn).mp isBody)
    exact backed.contains contained issuedFn
  obtain ⟨body, carried, pairs, added, isBody, areMembers, revision, isHeaded, stand, unpack,
    renames, newLocals, distinctLocals⟩ :=
    headed_unpackBundle sofar.past_after (sofar.issued issuedFn) (sofar.backed_after backed) oldVars
      old (fun member isMember type? => (sofar.typeOf_iff (oldVars member isMember)).mp) distinct
      isClass isWrap run
  have isBodyBefore := (sofar.fnBodyList_iff backed issuedFn).mp isBody
  have untilUnpacked : Revision before (fun _ => True) before unpacked :=
    sofar.followedBy revision (fun _ _ => trivial) fun _ _ _ => trivial
  refine ⟨body, carried, isBodyBefore, areMembers, revision.mono ?_,
    ⟨body, pairs, added, isBodyBefore, (untilUnpacked.fnBodyList_iff backed issuedFn).mpr
      isBodyBefore, ?_, stand, unpack⟩, renames, newLocals, distinctLocals⟩
  · rintro _ ⟨rfl, isList⟩
    exact ⟨rfl, (sofar.isList_iff (old _ isBody)).mp isList⟩
  · rw [isHeaded, same body isBodyBefore]

/-- What is rerouted are uses of variables that were there. -/
theorem spares_of_renames (renames : Renames table carried)
    (oldVars : ∀ entry ∈ carried, ¬ before.New entry.var) :
    Spares before unpacked (unpacked.Rerouted table) := by
  rintro id ⟨var, localVar, known, sent⟩ _
  obtain ⟨entry, member, rfl, _⟩ := (renames var localVar).mp sent
  exact ⟨_, known, oldVars entry member⟩

/-- No local is renamed itself. -/
theorem settled_of_renames (renames : Renames table carried)
    (oldVars : ∀ entry ∈ carried, ¬ before.New entry.var)
    (newLocals : ∀ entry ∈ carried, before.New entry.localVar) :
    ∀ var localVar : NodeId, table[var]? = some localVar → table[localVar]? = none := by
  intro var localVar sent
  obtain ⟨entry, member, _, rfl⟩ := (renames var localVar).mp sent
  refine Option.eq_none_iff_forall_ne_some.mpr fun other again => ?_
  obtain ⟨another, isAnother, isVar, _⟩ := (renames _ other).mp again
  exact oldVars another isAnother (isVar ▸ newLocals entry member)

/-- The uses in the body become uses of the locals. -/
theorem reroutesUses_replaceUses {rerouted : Program} (issuedFn : ¬ before.New fn)
    (sofar : Revision before everything before unpacked)
    (uses : ∀ id var, before.kindAt id = some (.expr (.use var)) →
      unpacked.kindAt id = some (.expr (.use var)))
    (oldVars : ∀ entry ∈ carried, ¬ before.New entry.var)
    (newLocals : ∀ entry ∈ carried, before.New entry.localVar) (renames : Renames table carried)
    (isBlock : unpacked.fnBody fn = .ok block)
    (run : Yields (replaceUses table block) unpacked () rerouted) :
    Revision before (unpacked.Rerouted table) unpacked rerouted ∧
      ReroutesUses before rerouted fn carried := by
  obtain ⟨revision, isRerouted⟩ :=
    rerouted_replaceUses sofar.past_after (settled_of_renames renames oldVars newLocals) run
  refine ⟨revision.mono fun _ => And.right, block, (sofar.fnBody_iff issuedFn).mp isBlock, ?_⟩
  intro id var known
  refine ⟨?_, fun other => revision.kinds (uses id var known) ?_⟩
  · rintro entry member rfl contained
    exact isRerouted id entry.var entry.localVar (sofar.contains_before contained) (uses id _ known)
      ((renames entry.var entry.localVar).mpr ⟨entry, member, rfl, rfl⟩)
  · rintro ⟨contained, sym, localVar, isUse, sent⟩
    obtain ⟨entry, member, isVar, _⟩ := (renames sym localVar).mp sent
    rw [uses id var known, Option.some.injEq, Kind.expr.injEq, Expr.use.injEq] at isUse
    rcases other with absent | outside
    · exact absent (List.mem_map.mpr ⟨entry, member, isVar.trans isUse.symm⟩)
    · exact outside (sofar.contains_origin contained (issued_of_kindAt known))

end Steps

/-! ## The whole inside -/

/-- What the rewriting of the function itself may touch: the variables, three lists and uses. -/
def Inside (before : Program) (vars : List NodeId) (moduleList formals body id : NodeId) : Prop :=
  id ∈ vars ∨ id = moduleList ∨ id = formals ∨ id = body ∨
    ∃ sym, before.kindAt id = some (.expr (.use sym))

/-- Nothing else that is a list is touched. -/
theorem Inside.eq_of_isList {vars : List NodeId} {moduleList formals body id : NodeId}
    (symbols : ∀ var ∈ vars, (before.kindAt var).any Kind.isSymbol)
    (inside : before.Inside vars moduleList formals body id)
    (isList : (before.kindAt id).any Kind.isList) :
    id = moduleList ∨ id = formals ∨ id = body := by
  rcases inside with isVar | rfl | rfl | rfl | ⟨sym, isUse⟩
  · exact (absurd_of_tests isList_of_isSymbol (symbols id isVar) isList).elim
  · exact .inl rfl
  · exact .inr (.inl rfl)
  · exact .inr (.inr rfl)
  · simp [isUse, Kind.isList] at isList

/-- The function has been made to read its variables from the bundle. -/
structure Furnished (before after : Program) (fn module bundle : NodeId) (vars : List NodeId)
    (naming untyped wrap : NodeId) (carried : List Carried) (moduleList formals body : NodeId) :
    Prop where
  areVars : carried.map Carried.var = vars
  members_distinct : (carried.map Carried.member).Nodup
  locals_distinct : (carried.map Carried.localVar).Nodup
  locals_new : ∀ entry ∈ carried, before.New entry.localVar
  declares : DeclaresBundle before after fn bundle naming (Carried.members carried)
  receives : ReceivesBundle before after fn bundle untyped wrap
  unpacks : UnpacksBundle before after fn wrap carried
  isModuleList : before.moduleBodyList module = .ok moduleList
  isFormals : before.fnFormalsList fn = .ok formals
  isBody : before.fnBodyList fn = .ok body
  headed : ∃ element, Heads before after moduleList element
  revision : Revision before (before.Inside vars moduleList formals body) before after

section Whole

variable {start classed made flagged appended wrapped received unpacked rerouted : Program}
  {vars : List NodeId} {moduleList formals body block : NodeId} {table : Remap}

/-- The class is declared and the formals are appended. -/
theorem declared_and_received (forest : Forest (fun _ => True) [] before) (backed : before.Backed)
    (symbols : ∀ var ∈ vars, (before.kindAt var).any Kind.isSymbol) (issuedFn : ¬ before.New fn)
    (isModule : before.expectModule fn = .ok module) (entering : start.nodes = before.nodes)
    (runClass : Yields (newBundleClass vars module fn) start bundle classed)
    (runPointer :
      Yields (newArg "bundle" .byIn (some PrimitiveType.cVoidPtr.id)) classed untyped made)
    (runFlag : Yields (addFlag untyped .noCodegen) made () flagged)
    (runFirst : Yields (insertFormalAtTail fn untyped) flagged () appended)
    (runWrap : Yields (newArg "dummy_c" .byIn (some bundle)) appended wrap wrapped)
    (runSecond : Yields (insertFormalAtTail fn wrap) wrapped () received) :
    ∃ moduleList formals naming members element,
      before.moduleBodyList module = .ok moduleList ∧ before.fnFormalsList fn = .ok formals ∧
      (before.kindAt formals).any Kind.isList ∧
      members.map Prod.fst = vars ∧ (members.map Prod.snd).Nodup ∧
      DeclaresBundle before received fn bundle naming members ∧
      ReceivesBundle before received fn bundle untyped wrap ∧
      Heads before received moduleList element ∧
      Revision before (fun id => id ∈ vars ∨ id = moduleList ∨ id = formals) before received := by
  obtain ⟨moduleList, naming, members, element, isModuleList, areVars, distinctMembers, declares,
    classing, headed⟩ := declaresBundle_newBundleClass backed entering symbols isModule runClass
  have apart : ∀ {formals}, before.fnFormalsList fn = .ok formals →
      classed.held formals = before.held formals := by
    intro formals isFormals
    have issued := backed.contains (contains_of_fnFormalsList isFormals) issuedFn
    refine classing.held_of_noList issued fun touched isList => ?_
    rcases touched with isVar | same
    · exact absurd_of_tests isList_of_isSymbol (symbols formals isVar) isList
    · exact formals_ne_moduleList forest isModuleList isFormals same
  obtain ⟨formals, isFormals, formalsList, receiving, receives⟩ :=
    receivesBundle_insertFormals backed issuedFn classing (fun _ => apart) runPointer runFlag
      runFirst runWrap runSecond
  have different := Ne.symm (formals_ne_moduleList forest isModuleList isFormals)
  have whole :
      Revision before (fun id => id ∈ vars ∨ id = moduleList ∨ id = formals) before received :=
    classing.followedBy receiving (fun _ => .imp_right .inl) fun _ again _ => .inr (.inr again)
  have spares : Spares before classed (· = formals) :=
    spares_of_old fun _ same => same ▸ issued_of_any formalsList
  exact ⟨moduleList, formals, naming, members, element, isModuleList, isFormals, formalsList,
    areVars, distinctMembers,
    declares.keep whole receiving spares backed isModule isModuleList
      (headed.heads_of_keep receiving different),
    receives, headed.keep receiving different, whole⟩

/-- Everything is made before the uses change. -/
theorem exists_furnished (forest : Forest (fun _ => True) [] before) (backed : before.Backed)
    (symbols : ∀ var ∈ vars, (before.kindAt var).any Kind.isSymbol) (distinct : vars.Nodup)
    (issuedFn : ¬ before.New fn) (isModule : before.expectModule fn = .ok module)
    (entering : start.nodes = before.nodes)
    (runClass : Yields (newBundleClass vars module fn) start bundle classed)
    (runPointer :
      Yields (newArg "bundle" .byIn (some PrimitiveType.cVoidPtr.id)) classed untyped made)
    (runFlag : Yields (addFlag untyped .noCodegen) made () flagged)
    (runFirst : Yields (insertFormalAtTail fn untyped) flagged () appended)
    (runWrap : Yields (newArg "dummy_c" .byIn (some bundle)) appended wrap wrapped)
    (runSecond : Yields (insertFormalAtTail fn wrap) wrapped () received)
    (runUnpack : Yields (unpackBundle fn vars wrap bundle) received table unpacked) :
    ∃ naming carried moduleList formals body, Renames table carried ∧
      Furnished before unpacked fn module bundle vars naming untyped wrap carried moduleList formals
        body ∧
      ∀ id var, before.kindAt id = some (.expr (.use var)) →
        unpacked.kindAt id = some (.expr (.use var)) := by
  obtain ⟨moduleList, formals, naming, members, element, isModuleList, isFormals, formalsList, rfl,
    distinctMembers, declares, receives, headed, receiving⟩ :=
    declared_and_received forest backed symbols issuedFn isModule entering runClass runPointer
      runFlag runFirst runWrap runSecond
  have issuedVars : ∀ member ∈ members, ¬ before.New member.1 := fun member isMember =>
    issued_of_any (symbols member.1 (List.mem_map_of_mem isMember))
  have apart : ∀ {body}, before.fnBodyList fn = .ok body →
      received.held body = before.held body := by
    intro body isBody
    have issued := backed.contains (contains_of_fnBodyList isBody) issuedFn
    refine receiving.held_of_noList issued fun touched isList => ?_
    rcases touched with isVar | same | same
    · exact absurd_of_tests isList_of_isSymbol (symbols body isVar) isList
    · exact body_ne_moduleList forest isModuleList isBody same
    · exact body_ne_formals forest isFormals isBody same
  obtain ⟨symbol, isWrap⟩ := receives.added_wrap
  obtain ⟨body, carried, isBody, rfl, unpacking, unpacks, renames, newLocals, distinctLocals⟩ :=
    unpacksBundle_unpackBundle backed issuedFn issuedVars receiving (fun _ => apart) distinct
      declares.1 (by simp [isWrap.known, Kind.isSymbol, Kind.symbol?]) runUnpack
  have bodyFormals := body_ne_formals forest isFormals isBody
  have bodyModule := body_ne_moduleList forest isModuleList isBody
  have oldBody := backed.contains (contains_of_fnBodyList isBody) issuedFn
  have spares : Spares before received fun id => id = body ∧ (before.kindAt id).any Kind.isList :=
    spares_of_old fun _ again => again.1 ▸ oldBody
  have whole : Revision before (fun id => id ∈ (Carried.members carried).map Prod.fst ∨
      id = moduleList ∨ id = formals ∨ id = body ∧ (before.kindAt id).any Kind.isList)
      before unpacked :=
    receiving.followedBy unpacking (fun _ => .imp_right (.imp_right .inl)) fun _ again _ =>
      .inr (.inr (.inr again))
  refine ⟨naming, carried, moduleList, formals, body, renames,
    ⟨by simp [Carried.members], ?_, distinctLocals, newLocals,
      declares.keep whole unpacking spares backed isModule isModuleList
        (headed.heads_of_keep unpacking fun again => bodyModule again.1.symm),
      receives.keep whole unpacking spares issuedFn isFormals
        (unpacking.held_eq (receiving.issued (issued_of_any formalsList))
          fun again => bodyFormals again.1.symm),
      unpacks, isModuleList, isFormals, isBody,
      ⟨element, headed.keep unpacking fun again => bodyModule again.1.symm⟩, whole.mono ?_⟩, ?_⟩
  · rwa [Carried.members, List.map_map] at distinctMembers
  · rintro id (isVar | same | same | ⟨same, _⟩)
    · exact .inl isVar
    · exact .inr (.inl same)
    · exact .inr (.inr (.inl same))
    · exact .inr (.inr (.inr (.inl same)))
  · intro id var known
    refine whole.kinds known ?_
    rintro (isVar | rfl | rfl | ⟨_, isList⟩)
    · have symbol := symbols id isVar
      simp [known, Kind.isSymbol, Kind.symbol?] at symbol
    · simpa [known, Kind.isList] using headed.isList
    · simp [known, Kind.isList] at formalsList
    · simp [known, Kind.isList] at isList

/-- What is no list of the function or the module holds what it held. -/
theorem Furnished.held_eq {id : NodeId}
    (symbols : ∀ var ∈ vars, (before.kindAt var).any Kind.isSymbol)
    (furnished : Furnished before after fn module bundle vars naming untyped wrap carried moduleList
      formals body) (issued : ¬ before.New id)
    (apart : id ≠ moduleList ∧ id ≠ formals ∧ id ≠ body) : after.held id = before.held id := by
  refine furnished.revision.held_of_noList issued fun inside isList => ?_
  obtain same | same | same := inside.eq_of_isList symbols isList
  · exact apart.1 same
  · exact apart.2.1 same
  · exact apart.2.2 same

/-- The uses are rerouted, and everything that was made is kept. -/
theorem Furnished.reroute (backed : before.Backed) (issuedFn : ¬ before.New fn)
    (isModule : before.expectModule fn = .ok module)
    (symbols : ∀ var ∈ vars, (before.kindAt var).any Kind.isSymbol)
    (furnished : Furnished before unpacked fn module bundle vars naming untyped wrap carried
      moduleList formals body)
    (renames : Renames table carried)
    (uses : ∀ id var, before.kindAt id = some (.expr (.use var)) →
      unpacked.kindAt id = some (.expr (.use var)))
    (isBlock : unpacked.fnBody fn = .ok block)
    (run : Yields (replaceUses table block) unpacked () rerouted) :
    Furnished before rerouted fn module bundle vars naming untyped wrap carried moduleList formals
        body ∧
      ReroutesUses before rerouted fn carried := by
  obtain ⟨areVars, distinctMembers, distinctLocals, newLocals, declares, receives, unpacks,
    isModuleList, isFormals, isBody, ⟨element, headed⟩, revision⟩ := furnished
  have oldVars : ∀ entry ∈ carried, ¬ before.New entry.var := fun entry member =>
    issued_of_any (symbols entry.var (areVars ▸ List.mem_map_of_mem member))
  obtain ⟨rerouting, reroutes⟩ :=
    reroutesUses_replaceUses issuedFn revision uses oldVars newLocals renames isBlock run
  have spares : Spares before unpacked (unpacked.Rerouted table) :=
    spares_of_renames renames oldVars
  have whole : Revision before (before.Inside vars moduleList formals body) before rerouted :=
    revision.followedBy rerouting (fun _ => id) fun id ⟨var, _, isUse, _⟩ issued =>
      .inr (.inr (.inr (.inr (revision.isUse_of_after issued isUse))))
  have noList : ∀ {id}, unpacked.Rerouted table id → ¬ (unpacked.kindAt id).any Kind.isList := by
    rintro id ⟨var, _, isUse, _⟩
    simp [isUse, Kind.isList]
  have same : ∀ {id}, ¬ before.New id → rerouted.held id = unpacked.held id := fun issued =>
    rerouting.held_of_noList (revision.issued issued) noList
  have headedNow : ¬ unpacked.Rerouted table moduleList :=
    fun again => noList again headed.isList_after
  obtain ⟨symbol, isWrap⟩ := receives.added_wrap
  refine ⟨⟨areVars, distinctMembers, distinctLocals, newLocals,
    declares.keep whole rerouting spares backed isModule isModuleList
      (headed.heads_of_keep rerouting headedNow),
    receives.keep whole rerouting spares issuedFn isFormals
      (same (backed.contains (contains_of_fnFormalsList isFormals) issuedFn)),
    unpacks.keep whole rerouting spares backed issuedFn isWrap.new ?_ isBody
      (same (backed.contains (contains_of_fnBodyList isBody) issuedFn)),
    isModuleList, isFormals, isBody, ⟨element, headed.keep rerouting headedNow⟩, whole⟩, reroutes⟩
  intro entry member
  exact declares.newMembers (entry.var, entry.member) (List.mem_map.mpr ⟨entry, member, rfl⟩)

end Whole

end ProgramTree.Program
