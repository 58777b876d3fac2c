import ProgramTree.Proofs.BundleClasses

/-!
# Unpacking a bundle

The inside of a function whose captures are passed in a bundle: two formals are appended, the
fields are read into locals at the head of the body, and the uses of the captured variables
in the body become uses of the locals.
-/

namespace ProgramTree.Program

open Edit

variable {origin before between after : Program} {touched : NodeId → Prop}
  {bundle naming wrap fn var list answer : NodeId} {vars : List NodeId} {done : Unit}

/-- A captured variable with its field in the bundle and its local in the function. -/
structure Carried where
  var : NodeId
  member : NodeId
  localVar : NodeId

/-- The flags of a temporary. -/
def tempFlags : FlagSet :=
  (∅ : FlagSet).insert .temp

/-- A new local of the type of the variable is defined, and set to the value of the field. -/
def Unpacks (origin program : Program) (wrap : NodeId) (carried : Carried)
    (definition set : NodeId) :
    Prop :=
  Mirrors origin program tempFlags definition carried.var carried.localVar ∧ ∃ value,
    Sets origin program set carried.localVar value ∧
    Operates origin program .getMemberValue value [wrap, carried.member]

theorem Unpacks.keep {carried : Carried} {definition set : NodeId}
    (unpacks : Unpacks origin before wrap carried definition set)
    (revision : Revision origin touched before after) (old : ∀ id, touched id → ¬ origin.New id) :
    Unpacks origin after wrap carried definition set := by
  obtain ⟨mirrors, value, sets, operates⟩ := unpacks
  exact ⟨mirrors.keep revision fun id again => .inl (old id again), value,
    sets.keep revision fun id again => .inl (old id again),
    operates.keep revision fun id again => .inl (old id again)⟩

theorem Unpacks.keep_of_spares {carried : Carried} {definition set : NodeId}
    (unpacks : Unpacks origin before wrap carried definition set)
    (revision : Revision origin touched before after) (spares : Spares origin before touched)
    (newWrap : origin.New wrap) (newMember : origin.New carried.member) :
    Unpacks origin after wrap carried definition set := by
  obtain ⟨⟨name, type?, isType, declares⟩, value, sets, operates⟩ := unpacks
  refine ⟨⟨name, type?, isType, declares.keep_of_spares revision spares⟩, value,
    sets.keep_of_spares revision spares declares.defined.new,
    operates.keep_of_spares revision spares ?_⟩
  exact List.forall_mem_cons.mpr ⟨newWrap, List.forall_mem_singleton.mpr newMember⟩

theorem Unpacks.newExpr {carried : Carried} {definition set : NodeId}
    (unpacks : Unpacks origin before wrap carried definition set) :
    NewExpr origin before definition ∧ NewExpr origin before set := by
  obtain ⟨⟨_, _, _, declares⟩, _, sets, _⟩ := unpacks
  exact ⟨declares.newExpr, sets.newExpr⟩

/-! ## The formals -/

theorem appended_formal {formal : NodeId} {symbol : Symbol}
    (past : ∀ {id}, before.New id → origin.New id) (issuedFn : ¬ before.New fn)
    (backed : before.Backed) (isFormal : Added origin before formal (.symbol symbol))
    (run : Yields (insertFormalAtTail fn formal) before done after) :
    ∃ list element definition, before.fnFormalsList fn = .ok list ∧
      (before.kindAt list).any Kind.isList ∧
      Revision origin (fun id => id = formal ∨ id = list) before after ∧
      after.held list = before.held list ++ [element] ∧
      StandsFor origin after element definition ∧
      Declares origin after definition formal symbol := by
  simp only [insertFormalAtTail, yields_bind, yields_look, yields_pure] at run
  obtain ⟨definition, _, runDefine, list, defined, ⟨looked, rfl⟩, element, _, runInsert, _, rfl⟩ :=
    run
  obtain ⟨defining, _, declares⟩ := declares_define past isFormal.new isFormal.known runDefine
  have isFormals := (defining.fnFormalsList_iff issuedFn).mp looked
  have issuedList := backed.contains (contains_of_fnFormalsList isFormals) issuedFn
  obtain ⟨inserted, holds, elements, isListDefined, isListAfter⟩ :=
    linked_insertAtTail defining.past_after declares.newExpr runInsert
  have notFormal : list ≠ formal := by
    rintro rfl
    simpa [isListDefined] using declares.defined.known
  have isListBefore : (before.kindAt list).any Kind.isList := by
    rw [← defining.kindAt_eq issuedList notFormal, isListDefined]
    rfl
  refine ⟨list, element, definition, isFormals, isListBefore,
    defining.followedBy inserted.revision (fun _ => .inl) fun _ again _ => .inr again, ?_,
    inserted.stands, declares.keep inserted.revision ?_⟩
  · rw [← defining.held_eq issuedList notFormal, held_of_list isListDefined,
      held_of_list isListAfter]
  · rintro _ rfl
    exact .inr (by simp [isListDefined, Kind.isList])

/-- The formals for a bundle, the untyped pointer and then the bundle itself. -/
structure Receives (origin program : Program) (bundle untyped wrap first second : NodeId) :
    Prop where
  pointer : ∃ definition, StandsFor origin program first definition ∧
    Declares origin program definition untyped
      { name := "bundle", type? := some PrimitiveType.cVoidPtr.id,
        flags := (∅ : FlagSet).insert .noCodegen, kind := .arg .byIn none }
  bundle : ∃ definition, StandsFor origin program second definition ∧
    Declares origin program definition wrap
      { name := "dummy_c", type? := some bundle, kind := .arg .byIn none }

theorem Receives.keep_of_spares {untyped first second : NodeId}
    (receives : Receives origin before bundle untyped wrap first second)
    (revision : Revision origin touched before after) (spares : Spares origin before touched) :
    Receives origin after bundle untyped wrap first second := by
  obtain ⟨⟨pointer, standsPointer, declaresPointer⟩, definition, stands, declares⟩ := receives
  exact ⟨⟨pointer, standsPointer.keep_of_spares revision spares,
      declaresPointer.keep_of_spares revision spares⟩,
    definition, stands.keep_of_spares revision spares, declares.keep_of_spares revision spares⟩

theorem appended_formals {made flagged appended wrapped : Program} {pointer : NodeId}
    (past : ∀ {id}, before.New id → origin.New id) (issuedFn : ¬ before.New fn)
    (backed : before.Backed)
    (oldList : ∀ list, before.fnFormalsList fn = .ok list → ¬ origin.New list)
    (runPointer :
      Yields (newArg "bundle" .byIn (some PrimitiveType.cVoidPtr.id)) before pointer made)
    (runFlag : Yields (addFlag pointer .noCodegen) made () flagged)
    (runFirst : Yields (insertFormalAtTail fn pointer) flagged () appended)
    (runWrap : Yields (newArg "dummy_c" .byIn (some bundle)) appended wrap wrapped)
    (runSecond : Yields (insertFormalAtTail fn wrap) wrapped () after) :
    ∃ list first second, before.fnFormalsList fn = .ok list ∧ (before.kindAt list).any Kind.isList ∧
      Revision origin (· = list) before after ∧
      after.held list = before.held list ++ [first, second] ∧
      Receives origin after bundle pointer wrap first second := by
  have madePointer := produced_newNode past runPointer rfl
  obtain ⟨_, knownPointer, flagging, isFlagged⟩ :=
    revision_addFlag madePointer.addition.past_after runFlag
  obtain rfl := Kind.symbol.inj (Option.some.inj (madePointer.known.symm.trans knownPointer))
  have untilFlagged := madePointer.addition.absorbing flagging fun _ same =>
    same ▸ madePointer.unissued
  obtain ⟨list, first, definition, isList, isListFlagged, appending, isAppended, standsFirst,
    declaresFirst⟩ := appended_formal untilFlagged.past_after (untilFlagged.issued issuedFn)
      (untilFlagged.backed_after backed) ⟨madePointer.added.new, isFlagged⟩ runFirst
  have isFormals := (untilFlagged.fnFormalsList_iff issuedFn).mp isList
  have oldFormals := oldList list isFormals
  have issuedList : ¬ before.New list := fun new => oldFormals (past new)
  have untilAppended : Revision origin (· = list) before appended := by
    refine untilFlagged.followedBy appending (fun _ never => never.elim) ?_
    rintro id (rfl | isList) issued
    · exact absurd madePointer.unissued issued
    · exact isList
  have madeWrap := produced_newNode untilAppended.past_after runWrap rfl
  have untilWrapped := untilAppended.adding madeWrap.addition
  obtain ⟨_, second, definitionToo, isListToo, _, further, isAppendedToo, standsSecond,
    declaresSecond⟩ :=
    appended_formal untilWrapped.past_after (untilWrapped.issued issuedFn)
      (untilWrapped.backed_after backed) madeWrap.added runSecond
  have isFormalsToo := (untilWrapped.fnFormalsList_iff issuedFn).mp isListToo
  obtain rfl := Except.ok.inj (isFormals.symm.trans isFormalsToo)
  have rest : Revision origin (· = list) appended after := by
    refine madeWrap.addition.followedBy further (fun _ never => never.elim) ?_
    rintro id (rfl | isList) issued
    · exact absurd madeWrap.unissued issued
    · exact isList
  have old : ∀ id, id = list → ¬ origin.New id := by
    rintro _ rfl
    exact oldFormals
  refine ⟨list, first, second, isFormals,
    (untilFlagged.isList_iff issuedList).mp isListFlagged,
    untilAppended.followedBy rest (fun _ => id) fun _ again _ => again,
    ?_, ⟨definition, standsFirst.keep rest old, ?_⟩, definitionToo, standsSecond, declaresSecond⟩
  · rw [isAppendedToo, madeWrap.addition.held_eq (untilAppended.issued issuedList) not_false,
      isAppended, untilFlagged.held_eq issuedList not_false, List.append_assoc,
      List.singleton_append]
  · exact declaresFirst.keep rest fun id again => .inl (old id again)

/-! ## The locals -/

theorem unpacks_unpackVar {members : List (NodeId × NodeId)} {place : Nat} {unpacked : Unpacked}
    (past : ∀ {id}, before.New id → origin.New id) (old : ¬ origin.New var)
    (types : ∀ type?, before.typeOf var = .ok type? → origin.typeOf var = .ok type?)
    (isClass : IsClass origin before bundle naming members)
    (isWrap : (before.kindAt wrap).any Kind.isSymbol)
    (run : Yields (unpackVar wrap bundle var place) before unpacked after) :
    Addition origin before after ∧ unpacked.var = var ∧ ∃ other member definition set,
      members[place]? = some (other, member) ∧ unpacked.stmts = [definition, set] ∧
      before.New unpacked.localVar ∧ before.New definition ∧ before.New set ∧ definition ≠ set ∧
      Unpacks origin after wrap ⟨var, member, unpacked.localVar⟩ definition set := by
  rw [unpackVar, yields_bind] at run
  obtain ⟨member, _, runMember, run⟩ := run
  obtain ⟨rfl, symbolMember, other, isMember⟩ := bundleField_eq isClass runMember
  obtain ⟨entered, left, entering, run, leaving⟩ := exists_attributed run
  simp only [yields_bind, yields_look, yields_pure] at run
  obtain ⟨_, _, ⟨_, rfl⟩, type?, start, ⟨isType, rfl⟩, localVar, made, runVar, value, valued,
    runValue, definition, defined, runDefine, set, _, runSet, rfl, rfl⟩ := run
  have attributing : Addition origin _ start := .of_nodes past entering
  have originType := types type? ((attributing.typeOf_iff fun new => old (past new)).mp isType)
  have madeVar := produced_newTemp attributing.past_after runVar
  have untilVar := attributing.adding madeVar.addition
  obtain ⟨valuing, _, operates⟩ := operates_newPrimitiveCall untilVar.past_after
    (by simpa using ⟨untilVar.passes isWrap not_false, untilVar.passes symbolMember not_false⟩)
    runValue
  have untilValue := untilVar.adding valuing
  obtain ⟨defining, newDefinition, declares⟩ := declares_define untilValue.past_after
    madeVar.added.new (valuing.kinds madeVar.known not_false) runDefine
  have untilDefined := untilValue.absorbing defining fun _ same =>
    same ▸ not_imp_not.mp attributing.issued madeVar.unissued
  -- the local is no part of the call that reads the field
  have symbols : ∀ id, id = localVar → ¬ origin.New id ∨ (valued.kindAt id).any Kind.isSymbol := by
    rintro _ rfl
    exact .inr (by simp [valuing.kinds madeVar.known not_false, Kind.isSymbol, Kind.symbol?])
  have operatesLater := operates.keep defining symbols
  obtain ⟨setting, newSet, sets⟩ :=
    sets_newPrimitiveCall untilDefined.past_after declares.isSymbol operatesLater.newExpr runSet
  have mirrors : Mirrors origin defined tempFlags definition var localVar :=
    ⟨_, type?, originType, declares⟩
  have leftNow : Addition origin left after := .of_nodes setting.past_after leaving
  have rest := setting.adding leftNow
  refine ⟨untilDefined.adding rest, rfl, other, member, definition, set, isMember, rfl,
    not_imp_not.mp attributing.issued madeVar.unissued,
    not_imp_not.mp untilValue.issued newDefinition, not_imp_not.mp untilDefined.issued newSet, ?_,
    mirrors.keep rest fun _ never => never.elim, value,
    sets.keep leftNow fun _ never => never.elim, operatesLater.keep rest fun _ never => never.elim⟩
  rintro rfl
  exact declares.defines.issued newSet

theorem newExpr_of_unpacks {pairs : List (NodeId × NodeId)} {carried : List Carried}
    (unpack : List.Forall₂ (fun pair entry => Unpacks origin before wrap entry pair.1 pair.2) pairs
      carried) :
    ∀ stmt ∈ pairs.flatMap fun pair => [pair.1, pair.2], NewExpr origin before stmt := by
  induction unpack with
  | nil => nofun
  | cons first _ ih =>
    rw [List.flatMap_cons, List.forall_mem_append]
    exact ⟨by simpa using first.newExpr, ih⟩

theorem unpack_keep_of_spares {pairs : List (NodeId × NodeId)} {carried : List Carried}
    (unpack : List.Forall₂ (fun pair entry => Unpacks origin before wrap entry pair.1 pair.2) pairs
      carried)
    (revision : Revision origin touched before after) (spares : Spares origin before touched)
    (newWrap : origin.New wrap) (newMembers : ∀ entry ∈ carried, origin.New entry.member) :
    List.Forall₂ (fun pair entry => Unpacks origin after wrap entry pair.1 pair.2) pairs
      carried := by
  induction unpack with
  | nil => exact .nil
  | cons first _ ih =>
    obtain ⟨newFirst, newRest⟩ := List.forall_mem_cons.mp newMembers
    exact .cons (first.keep_of_spares revision spares newWrap newFirst) (ih newRest)

/-- Every bundled variable gets a local for the field of its own. -/
theorem unpacks_mapM {front back : List (NodeId × NodeId)} {unpacked : List Unpacked}
    (past : ∀ {id}, before.New id → origin.New id) (old : ∀ member ∈ back, ¬ origin.New member.1)
    (types : ∀ member ∈ back, ∀ type?, before.typeOf member.1 = .ok type? →
      origin.typeOf member.1 = .ok type?)
    (isClass : IsClass origin before bundle naming (front ++ back))
    (isWrap : (before.kindAt wrap).any Kind.isSymbol)
    (run : Yields (((back.map Prod.fst).zipIdx front.length).mapM fun (var, place) =>
      unpackVar wrap bundle var place) before unpacked after) :
    Addition origin before after ∧ ∃ (carried : List Carried) (pairs : List (NodeId × NodeId)),
      carried.map (fun entry => (entry.var, entry.member)) = back ∧
      unpacked.map (fun entry => (entry.var, entry.localVar)) =
        carried.map (fun entry => (entry.var, entry.localVar)) ∧
      unpacked.flatMap Unpacked.stmts = pairs.flatMap (fun pair => [pair.1, pair.2]) ∧
      List.Forall₂ (fun pair entry => Unpacks origin after wrap entry pair.1 pair.2) pairs carried ∧
      (∀ entry ∈ carried, before.New entry.localVar) ∧ (carried.map Carried.localVar).Nodup ∧
      (∀ stmt ∈ unpacked.flatMap Unpacked.stmts, before.New stmt) ∧
      (unpacked.flatMap Unpacked.stmts).Nodup := by
  induction back generalizing before front unpacked with
  | nil =>
    obtain ⟨rfl, rfl⟩ := yields_pure.mp run
    exact ⟨.refl past, [], [], rfl, rfl, rfl, .nil, nofun, .nil, nofun, .nil⟩
  | cons member rest ih =>
    simp only [List.map_cons, List.zipIdx_cons, List.mapM_cons, yields_bind, yields_pure] at run
    obtain ⟨first, middle, runFirst, others, _, runRest, rfl, rfl⟩ := run
    obtain ⟨addition, isVar, other, field, definition, set, isMember, isStmts, newLocal,
      newDefinition, newSet, distinct, unpacks⟩ := unpacks_unpackVar past (old member (by simp))
        (types member (by simp)) isClass isWrap runFirst
    obtain rfl : member = (other, field) := by simpa using isMember
    have keep : ∀ id, False → ¬ origin.New id := fun _ never => never.elim
    have isClassNow :
        IsClass origin middle bundle naming ((front ++ [(other, field)]) ++ rest) := by
      simpa using isClass.keep addition keep
    have runFurther : Yields (((rest.map Prod.fst).zipIdx (front ++ [(other, field)]).length).mapM
        fun (var, place) => unpackVar wrap bundle var place) middle others after := by
      simpa using runRest
    obtain ⟨further, carried, pairs, areMembers, areLocals, areStmts, unpack, newLocals,
      distinctLocals, newStmts, distinctStmts⟩ :=
      ih addition.past_after (fun member isMember => old member (by simp [isMember]))
        (fun member isMember type? isType => types member (by simp [isMember]) type?
          ((addition.typeOf_iff fun new => old member (by simp [isMember]) (past new)).mp isType))
        isClassNow (addition.passes isWrap not_false) runFurther
    have earlier : ∀ {id}, middle.New id → before.New id := not_imp_not.mp addition.issued
    obtain ⟨_, _, _, declares⟩ := unpacks.1
    refine ⟨addition.adding further, ⟨other, field, first.localVar⟩ :: carried,
      (definition, set) :: pairs, by rw [List.map_cons, areMembers],
      by rw [List.map_cons, areLocals, isVar, List.map_cons],
      by rw [List.flatMap_cons, areStmts, isStmts, List.flatMap_cons],
      .cons (unpacks.keep further keep) unpack, ?_, ?_, ?_, ?_⟩
    · simpa using ⟨newLocal, fun entry member => earlier (newLocals entry member)⟩
    · rw [List.map_cons, List.nodup_cons]
      refine ⟨fun again => ?_, distinctLocals⟩
      obtain ⟨entry, isEntry, same⟩ := List.mem_map.mp again
      have isFirst : entry.localVar = first.localVar := same
      exact declares.defined.issued (isFirst ▸ newLocals entry isEntry)
    · rw [List.flatMap_cons, isStmts, List.forall_mem_append]
      exact ⟨by simpa using ⟨newDefinition, newSet⟩,
        fun stmt member => earlier (newStmts stmt member)⟩
    · rw [List.flatMap_cons, isStmts, List.nodup_append']
      have issued : ∀ stmt ∈ [definition, set], ¬ middle.New stmt := by
        simpa using ⟨unpacks.newExpr.1.issued, unpacks.newExpr.2.issued⟩
      exact ⟨by simpa using distinct, distinctStmts, fun stmt member again =>
        issued stmt member (newStmts stmt again)⟩

/-! ## The head of the body -/

/-- The table sends the variables to their locals, and has nothing else. -/
def Renames (table : Remap) (carried : List Carried) : Prop :=
  ∀ var localVar,
    table[var]? = some localVar ↔ ∃ entry ∈ carried, entry.var = var ∧ entry.localVar = localVar

theorem getElem?_foldl_insert {pairs : List (NodeId × NodeId)} {table : Remap} {localVar : NodeId}
    (distinct : (pairs.map Prod.fst).Nodup) :
    (pairs.foldl (fun table pair => table.insert pair.1 pair.2) table)[var]? = some localVar ↔
      (var, localVar) ∈ pairs ∨ var ∉ pairs.map Prod.fst ∧ table[var]? = some localVar := by
  induction pairs generalizing table with
  | nil => simp
  | cons first rest ih =>
    rw [List.map_cons, List.nodup_cons] at distinct
    rw [List.foldl_cons, ih distinct.2, Std.ExtTreeMap.getElem?_insert]
    obtain ⟨key, value⟩ := first
    by_cases same : key = var
    · subst same
      have elsewhere : (key, localVar) ∉ rest := fun member =>
        distinct.1 (List.mem_map.mpr ⟨_, member, rfl⟩)
      simp [elsewhere, distinct.1, eq_comm]
    · have other : ¬ compare key var = .eq :=
        fun equal => same (Std.LawfulEqOrd.eq_of_compare equal)
      simp [other, Ne.symm same]

theorem renames_of_unpacked {unpacked : List Unpacked} {carried : List Carried}
    (same : unpacked.map (fun entry => (entry.var, entry.localVar)) =
      carried.map (fun entry => (entry.var, entry.localVar)))
    (distinct : (carried.map Carried.var).Nodup) :
    Renames (unpacked.foldl (fun table entry => table.insert entry.var entry.localVar) ∅)
      carried := by
  intro var localVar
  have folded : unpacked.foldl (fun table entry => table.insert entry.var entry.localVar)
      (∅ : Remap) = (carried.map fun entry => (entry.var, entry.localVar)).foldl
        (fun table pair => table.insert pair.1 pair.2) ∅ := by
    rw [← same, List.foldl_map]
  rw [folded, getElem?_foldl_insert (by simpa [Function.comp_def] using distinct)]
  simp

/-- The fields are read into locals at the head of the body. -/
theorem headed_unpackBundle {members : List (NodeId × NodeId)} {table : Remap}
    (past : ∀ {id}, before.New id → origin.New id) (issuedFn : ¬ before.New fn)
    (backed : before.Backed) (old : ∀ member ∈ members, ¬ origin.New member.1)
    (oldList : ∀ list, before.fnBodyList fn = .ok list → ¬ origin.New list)
    (types : ∀ member ∈ members, ∀ type?, before.typeOf member.1 = .ok type? →
      origin.typeOf member.1 = .ok type?)
    (distinct : (members.map Prod.fst).Nodup)
    (isClass : IsClass origin before bundle naming members)
    (isWrap : (before.kindAt wrap).any Kind.isSymbol)
    (run : Yields (unpackBundle fn (members.map Prod.fst) wrap bundle) before table after) :
    ∃ (list : NodeId) (carried : List Carried) (pairs : List (NodeId × NodeId))
      (added : List NodeId), before.fnBodyList fn = .ok list ∧
      carried.map (fun entry => (entry.var, entry.member)) = members ∧
      Revision origin (fun id => id = list ∧ (before.kindAt id).any Kind.isList) before after ∧
      after.held list = added ++ before.held list ∧
      List.Forall₂ (StandsFor origin after) added (pairs.flatMap fun pair => [pair.1, pair.2]) ∧
      List.Forall₂ (fun pair entry => Unpacks origin after wrap entry pair.1 pair.2) pairs carried ∧
      Renames table carried ∧ (∀ entry ∈ carried, origin.New entry.localVar) ∧
      (carried.map Carried.localVar).Nodup := by
  simp only [unpackBundle, yields_bind, yields_look, yields_pure] at run
  obtain ⟨unpacked, _, runVars, list, middle, ⟨looked, rfl⟩, _, _, runInsert, rfl, rfl⟩ := run
  obtain ⟨addition, carried, pairs, areMembers, areLocals, areStmts, unpack, newLocals,
    distinctLocals, newStmts, distinctStmts⟩ :=
    unpacks_mapM past old types ((List.nil_append members).symm ▸ isClass) isWrap runVars
  have isBody := (addition.fnBodyList_iff backed issuedFn).mp looked
  have oldBody := oldList list isBody
  have exprs : ∀ stmt ∈ unpacked.flatMap Unpacked.stmts, NewExpr origin middle stmt :=
    areStmts ▸ newExpr_of_unpacks unpack
  obtain ⟨inserted, added, isHeaded, stand⟩ :=
    linked_insertAllAtHead addition.past_after oldBody exprs distinctStmts runInsert
  have issuedBody := backed.contains (contains_of_fnBodyList isBody) issuedFn
  refine ⟨list, carried, pairs, added, isBody, areMembers, (inserted.following addition).mono ?_,
    ?_, areStmts ▸ stand, unpack.imp fun _ _ unpacks => unpacks.keep inserted ?_,
    renames_of_unpacked areLocals ?_, fun entry member => past (newLocals entry member),
    distinctLocals⟩
  · rintro _ ⟨rfl, isList⟩
    exact ⟨rfl, addition.kindAt_eq issuedBody not_false ▸ isList⟩
  · rw [isHeaded, addition.held_eq issuedBody not_false]
  · rw [← areMembers, List.map_map] at distinct
    exact distinct
  · rintro _ ⟨rfl, _⟩
    exact oldBody

/-! ## The uses in the body -/

/-- A use of a variable of the table. -/
def Rerouted (program : Program) (table : Remap) (id : NodeId) : Prop :=
  ∃ var localVar, program.kindAt id = some (.expr (.use var)) ∧ table[var]? = some localVar

section Uses

variable {id root : NodeId} {table : Remap} {nodes : List NodeId}
  (past : ∀ {id}, before.New id → origin.New id)
include past

theorem rerouted_replaceUse (run : Yields (replaceUse table id) before done after) :
    Revision origin (fun other => other = id ∧ before.Rerouted table id) before after ∧
      ∀ var localVar, before.kindAt id = some (.expr (.use var)) → table[var]? = some localVar →
        after.kindAt id = some (.expr (.use localVar)) := by
  have untouched :
      Revision origin (fun other => other = id ∧ before.Rerouted table id) before before :=
    (Revision.refl past).mono fun _ never => never.elim
  simp only [replaceUse, yields_bind, yields_look, usedSymbol, Fault.bind_eq_ok, kindOf_eq_ok]
    at run
  obtain ⟨used?, _, ⟨⟨kind, known, looked⟩, rfl⟩, run⟩ := run
  split at looked
  · next used =>
    obtain rfl := Fault.pure_eq_ok.mp looked
    cases isLocal : table[used]? with
    | none =>
      simp only [isLocal, yields_pure] at run
      obtain ⟨_, rfl⟩ := run
      refine ⟨untouched, fun var localVar isUse sent => ?_⟩
      obtain rfl : used = var := by simpa [known] using isUse
      simp [isLocal] at sent
    | some given =>
      simp only [isLocal] at run
      obtain ⟨revision, isNow⟩ := revision_setUsedSymbol past run
      refine ⟨revision.mono fun other same => ⟨same, used, given, known, isLocal⟩,
        fun var localVar isUse sent => ?_⟩
      obtain rfl : used = var := by simpa [known] using isUse
      obtain rfl : given = localVar := by simpa [isLocal] using sent
      exact isNow
  · next other =>
    obtain rfl := Fault.pure_eq_ok.mp looked
    obtain ⟨_, rfl⟩ := yields_pure.mp run
    refine ⟨untouched, fun var localVar isUse _ => ?_⟩
    rw [known, Option.some.injEq] at isUse
    exact (other _ isUse).elim

/-- The uses of the variables of the table become uses of their locals, which the table sends
nowhere. -/
theorem rerouted_forM
    (settled : ∀ var localVar : NodeId, table[var]? = some localVar → table[localVar]? = none)
    (run : Yields (nodes.forM (replaceUse table)) before () after) :
    Revision origin (fun id => id ∈ nodes ∧ before.Rerouted table id) before after ∧
      ∀ id ∈ nodes, ∀ var localVar, before.kindAt id = some (.expr (.use var)) →
        table[var]? = some localVar → after.kindAt id = some (.expr (.use localVar)) := by
  induction nodes generalizing before with
  | nil =>
    obtain rfl := yields_forM_nil.mp run
    exact ⟨(Revision.refl past).mono fun _ never => never.elim, nofun⟩
  | cons first rest ih =>
    obtain ⟨middle, runFirst, runRest⟩ := yields_forM_cons.mp run
    obtain ⟨step, isNow⟩ := rerouted_replaceUse past runFirst
    obtain ⟨further, rerouted⟩ := ih step.past_after runRest
    -- what was rerouted is a use of a local now, which is sent nowhere
    have once : ∀ id, ¬ before.New id → middle.Rerouted table id →
        before.kindAt id = middle.kindAt id := by
      rintro id issued ⟨var, localVar, isUse, sent⟩
      refine (step.kindAt_eq issued ?_).symm
      rintro ⟨rfl, old, given, wasUse, wasSent⟩
      rw [isNow old given wasUse wasSent, Option.some.injEq, Kind.expr.injEq, Expr.use.injEq]
        at isUse
      simp [← isUse, settled old given wasSent] at sent
    refine ⟨step.followedBy further ?_ ?_, ?_⟩
    · rintro id ⟨rfl, uses⟩
      exact ⟨by simp, uses⟩
    · rintro id ⟨member, uses⟩ issued
      refine ⟨by simp [member], ?_⟩
      obtain ⟨var, localVar, isUse, sent⟩ := uses
      exact ⟨var, localVar, once id issued ⟨var, localVar, isUse, sent⟩ ▸ isUse, sent⟩
    · intro id member var localVar wasUse sent
      by_cases isFirst : id = first
      · subst isFirst
        refine further.kinds (isNow var localVar wasUse sent)
          fun ⟨_, other, given, isUse, wasSent⟩ => ?_
        rw [isNow var localVar wasUse sent, Option.some.injEq, Kind.expr.injEq, Expr.use.injEq]
          at isUse
        simp [← isUse, settled var localVar sent] at wasSent
      · exact rerouted id (by simpa [isFirst] using member) var localVar
          (step.kinds wasUse fun again => isFirst again.1) sent

/-- Below the root, every use of a variable of the table becomes a use of its local. -/
theorem rerouted_replaceUses
    (settled : ∀ var localVar : NodeId, table[var]? = some localVar → table[localVar]? = none)
    (run : Yields (replaceUses table root) before done after) :
    Revision origin (fun id => before.Contains root id ∧ before.Rerouted table id) before after ∧
      ∀ id var localVar, before.Contains root id → before.kindAt id = some (.expr (.use var)) →
        table[var]? = some localVar → after.kindAt id = some (.expr (.use localVar)) := by
  simp only [replaceUses, yields_bind, yields_look] at run
  obtain ⟨nodes, start, ⟨walked, rfl⟩, run⟩ := run
  obtain ⟨revision, rerouted⟩ := rerouted_forM past settled run
  refine ⟨revision.mono ?_, fun id var localVar contained =>
    rerouted id ((mem_subtree walked).mpr contained) var localVar⟩
  rintro id ⟨member, uses⟩
  exact ⟨(mem_subtree walked).mp member, uses⟩

end Uses

end ProgramTree.Program
