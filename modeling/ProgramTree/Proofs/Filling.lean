import ProgramTree.Proofs.Anchors
import ProgramTree.Proofs.BundleClasses

/-!
# Filling a bundle

The outside of a function whose captures are passed in a bundle: right before the statement
of the call the bundle is defined, allocated and filled, and a pointer to it is made.  The
pointer and the bundle become the last two arguments.
-/

namespace ProgramTree.Program

open Edit

variable {origin before between after : Program} {touched : NodeId → Prop}
  {bundle naming fn call answer : NodeId} {left : List NodeId} {done : Unit}

/-! ## Before the anchor -/

/-- The statement that code is put before, and what follows it in its list. -/
structure Spot where
  list : NodeId
  holds : ListCategory
  anchor : NodeId
  right : List NodeId

variable {spot : Spot}

/-- These elements stand before the anchor, which stands nowhere else. -/
structure Standing (program : Program) (spot : Spot) (left : List NodeId) : Prop where
  known : program.kindAt spot.list =
    some (.list spot.holds (left ++ spot.anchor :: spot.right).toArray)
  absent : spot.anchor ∉ left
  parent : program.parentOf spot.anchor = some spot.list

theorem Standing.keep (standing : Standing before spot left)
    (revision : Revision origin touched before after) (old : ¬ origin.New spot.anchor)
    (untouched : ¬ touched spot.list) : Standing after spot left where
  known := revision.kinds standing.known untouched
  absent := standing.absent
  parent := (revision.parents old).trans standing.parent

/-- The list of the anchor is no symbol. -/
theorem Standing.ne_of_isSymbol {id : NodeId} (standing : Standing before spot left)
    (isSymbol : (before.kindAt id).any Kind.isSymbol) : id ≠ spot.list := by
  rintro rfl
  simp [standing.known, Kind.isSymbol, Kind.symbol?] at isSymbol

/-- These elements were put before the anchor, and they stand for these expressions. -/
structure PutBefore (origin before : Program) (spot : Spot) (left added exprs : List NodeId)
    (after : Program) : Prop where
  revision : Revision origin (· = spot.list) before after
  standing : Standing after spot (left ++ added)
  stand : List.Forall₂ (StandsFor origin after) added exprs

theorem PutBefore.trans {added more exprs others : List NodeId}
    (first : PutBefore origin before spot left added exprs between)
    (second : PutBefore origin between spot (left ++ added) more others after)
    (old : ¬ origin.New spot.list) :
    PutBefore origin before spot left (added ++ more) (exprs ++ others) after where
  revision := first.revision.followedBy second.revision (fun _ => id) fun _ again _ => again
  standing := by simpa using second.standing
  stand := by
    refine List.rel_append (first.stand.imp fun _ _ stands => ?_) second.stand
    exact stands.keep second.revision (by rintro _ rfl; exact old)

section Putting

variable (past : ∀ {id}, before.New id → origin.New id) (oldList : ¬ origin.New spot.list)
  (oldAnchor : ¬ origin.New spot.anchor)
include past oldAnchor

theorem put_insertBefore {expr linked : NodeId} (standing : Standing before spot left)
    (newExpr : NewExpr origin before expr)
    (run : Yields (insertBefore spot.anchor expr) before linked after) :
    PutBefore origin before spot left [linked] [expr] after := by
  obtain ⟨inserted, isList⟩ :=
    linked_insertBeside past newExpr run standing.known standing.absent standing.parent
  refine ⟨inserted.revision, ⟨by simpa using isList, ?_, ?_⟩, .cons inserted.stands .nil⟩
  · rw [List.mem_append, List.mem_singleton]
    rintro (member | rfl)
    · exact standing.absent member
    · exact oldAnchor inserted.new
  · exact (inserted.revision.parents oldAnchor).trans standing.parent

/-- A fresh temporary is defined before the anchor. -/
theorem put_newTemp {name : String} {type? : Option NodeId} {temp : NodeId}
    (standing : Standing before spot left)
    (runTemp : Yields (newTemp name type?) before temp between)
    (runDefine : Yields (defineBefore spot.anchor temp) between done after) :
    before.New temp ∧ ∃ linked definition,
      PutBefore origin before spot left [linked] [definition] after ∧
      Declares origin after definition temp
        { name, type?, flags := (∅ : FlagSet).insert .temp, kind := .var } := by
  simp only [defineBefore, yields_bind, yields_pure] at runDefine
  obtain ⟨definition, defined, runDefine, linked, _, runInsert, _, rfl⟩ := runDefine
  have made := produced_newTemp past runTemp
  obtain ⟨defining, _, declares⟩ :=
    declares_define made.addition.past_after made.added.new made.known runDefine
  have addition := made.addition.absorbing defining fun _ same => same ▸ made.unissued
  have put := put_insertBefore addition.past_after oldAnchor
    (standing.keep addition oldAnchor not_false) declares.newExpr runInsert
  refine ⟨made.unissued, linked, definition,
    ⟨put.revision.following addition, put.standing, put.stand⟩, declares.keep put.revision ?_⟩
  rintro _ rfl
  exact .inr (by simp [addition.kinds standing.known not_false, Kind.isList])

include oldList

/-- A variable is set before the anchor. -/
theorem put_set {var value set linked : NodeId} (standing : Standing before spot left)
    (symbol : (before.kindAt var).any Kind.isSymbol) (newExpr : NewExpr origin before value)
    (runSet : Yields (newPrimitiveCall .move [var, value]) before set between)
    (runInsert : Yields (insertBefore spot.anchor set) between linked after) :
    PutBefore origin before spot left [linked] [set] after ∧ Sets origin after set var value := by
  obtain ⟨setting, _, sets⟩ := sets_newPrimitiveCall past symbol newExpr runSet
  have put := put_insertBefore setting.past_after oldAnchor
    (standing.keep setting oldAnchor not_false) sets.newExpr runInsert
  refine ⟨⟨put.revision.following setting, put.standing, put.stand⟩, sets.keep put.revision ?_⟩
  rintro _ rfl
  exact .inl oldList

/-- Every variable is stored in the field of its own. -/
theorem put_stores {front back : List (NodeId × NodeId)} {instanceVar : NodeId}
    (standing : Standing before spot left)
    (isClass : IsClass origin before bundle naming (front ++ back))
    (symbols : ∀ member ∈ back, (before.kindAt member.1).any Kind.isSymbol)
    (isInstance : (before.kindAt instanceVar).any Kind.isSymbol)
    (run : Yields (((back.map Prod.fst).zipIdx front.length).forM fun (var, place) => do
      let member ← bundleField bundle place
      let _ ← insertBefore spot.anchor (← newPrimitiveCall .setMember [instanceVar, member, var]))
      before () after) :
    ∃ added stores, PutBefore origin before spot left added stores after ∧
      List.Forall₂ (fun store (member : NodeId × NodeId) =>
        Operates origin after .setMember store [instanceVar, member.2, member.1]) stores back := by
  induction back generalizing before front left with
  | nil =>
    obtain rfl := yields_forM_nil.mp run
    exact ⟨[], [], ⟨(Revision.refl past).mono fun _ never => never.elim, by simpa using standing,
      .nil⟩, .nil⟩
  | cons member rest ih =>
    rw [List.map_cons, List.zipIdx_cons] at run
    obtain ⟨middle, runFirst, runRest⟩ := yields_forM_cons.mp run
    simp only [yields_bind, yields_pure] at runFirst
    obtain ⟨field, start, runField, store, stored, runStore, linked, _, runInsert, _, rfl⟩ :=
      runFirst
    obtain ⟨rfl, symbolField, other, isMember⟩ := bundleField_eq isClass runField
    obtain rfl : member = (other, field) := by simpa using isMember
    obtain ⟨symbolVar, symbolsRest⟩ := List.forall_mem_cons.mp symbols
    obtain ⟨storing, _, operates⟩ := operates_newPrimitiveCall past
      (List.forall_mem_cons.mpr ⟨isInstance, List.forall_mem_cons.mpr ⟨symbolField,
        List.forall_mem_cons.mpr ⟨symbolVar, List.forall_mem_nil _⟩⟩⟩) runStore
    have put := put_insertBefore storing.past_after oldAnchor
      (standing.keep storing oldAnchor not_false) operates.newExpr runInsert
    have first : PutBefore origin start spot left [linked] [store] middle :=
      ⟨put.revision.following storing, put.standing, put.stand⟩
    have old : ∀ id, id = spot.list → ¬ origin.New id := fun _ same => same ▸ oldList
    have passes : ∀ {id}, (start.kindAt id).any Kind.isSymbol →
        (middle.kindAt id).any Kind.isSymbol :=
      fun symbol => first.revision.passes symbol (standing.ne_of_isSymbol symbol)
    have isClassNow :
        IsClass origin middle bundle naming ((front ++ [(other, field)]) ++ rest) := by
      simpa using isClass.keep first.revision old
    rw [show front.length + 1 = (front ++ [(other, field)]).length by simp] at runRest
    obtain ⟨added, stores, further, operate⟩ :=
      ih first.revision.past_after first.standing isClassNow
        (fun member isMember => passes (symbolsRest member isMember)) (passes isInstance) runRest
    exact ⟨_, _, first.trans further oldList, .cons
      ((operates.keep put.revision fun id again => .inl (old id again)).keep further.revision
        fun id again => .inl (old id again)) operate⟩

end Putting

/-! ## The bundle -/

/-- These expressions define a bundle, allocate it, store every variable in its field, define
the untyped pointer to it, and set that. -/
structure Fills (origin program : Program) (bundle naming instanceVar erased : NodeId)
    (members : List (NodeId × NodeId)) (definition allocation : NodeId) (stores : List NodeId)
    (erasing casting : NodeId) : Prop where
  defines : ∃ name, Declares origin program definition instanceVar
    { name, type? := some bundle, flags := (∅ : FlagSet).insert .temp, kind := .var }
  allocates : ∃ value use text, Sets origin program allocation instanceVar value ∧
    Calls origin program .alloc value [use, text] ∧ IsUse origin program use naming ∧
    Added origin program text (.expr (.literal (.string "bundled args")))
  stores : List.Forall₂ (fun store (member : NodeId × NodeId) =>
    Operates origin program .setMember store [instanceVar, member.2, member.1]) stores members
  erases : ∃ name, Declares origin program erasing erased
    { name, type? := some PrimitiveType.cVoidPtr.id, flags := (∅ : FlagSet).insert .temp,
      kind := .var }
  casts : ∃ value, Sets origin program casting erased value ∧
    Operates origin program .castToVoidStar value [instanceVar]

/-- The arguments that the call gets, the untyped pointer and then the bundle. -/
structure HandsOver (origin program : Program) (erased instanceVar first second : NodeId) :
    Prop where
  pointer : ∃ use, StandsFor origin program first use ∧ IsUse origin program use erased
  bundle : ∃ use, StandsFor origin program second use ∧ IsUse origin program use instanceVar

section Keeping

variable (revision : Revision origin touched before after)
  (old : ∀ id, touched id → ¬ origin.New id) {instanceVar erased : NodeId}
include revision old

theorem Fills.keep {definition allocation erasing casting : NodeId} {stores : List NodeId}
    {members : List (NodeId × NodeId)}
    (fills : Fills origin before bundle naming instanceVar erased members definition allocation
      stores erasing casting) :
    Fills origin after bundle naming instanceVar erased members definition allocation stores erasing
      casting := by
  obtain ⟨⟨name, defines⟩, ⟨value, use, text, sets, calls, isUse, isText⟩, operate, ⟨other, erases⟩,
    cast, setsErased, casts⟩ := fills
  have spared {test : Kind → Bool} :
      ∀ id, touched id → ¬ origin.New id ∨ (before.kindAt id).any test :=
    fun id again => .inl (old id again)
  exact ⟨⟨name, defines.keep revision spared⟩,
    ⟨value, use, text, sets.keep revision spared, calls.keep revision spared,
      isUse.keep_of_old revision old, isText.keep_of_old revision old⟩,
    operate.imp fun _ _ operates => operates.keep revision spared,
    ⟨other, erases.keep revision spared⟩,
    cast, setsErased.keep revision spared, casts.keep revision spared⟩

theorem HandsOver.keep {first second : NodeId}
    (handsOver : HandsOver origin before erased instanceVar first second) :
    HandsOver origin after erased instanceVar first second := by
  obtain ⟨⟨pointer, standsPointer, isPointer⟩, use, stands, isUse⟩ := handsOver
  exact ⟨⟨pointer, standsPointer.keep revision old, isPointer.keep_of_old revision old⟩, use,
    stands.keep revision old, isUse.keep_of_old revision old⟩

end Keeping

section Parts

variable (past : ∀ {id}, before.New id → origin.New id) (oldList : ¬ origin.New spot.list)
  (oldAnchor : ¬ origin.New spot.anchor)
include past oldList oldAnchor

theorem put_instance {made defined written allocated set : Program} {name : String}
    {instanceVar text value allocation linked : NodeId} (standing : Standing before spot left)
    (isNaming : (before.kindAt naming).any Kind.isSymbol)
    (runTemp : Yields (newTemp name (some bundle)) before instanceVar made)
    (runDefine : Yields (defineBefore spot.anchor instanceVar) made done defined)
    (runText : Yields (newLiteral (.string "bundled args")) defined text written)
    (runAlloc : Yields (newPrimitiveCall .alloc [naming, text]) written value allocated)
    (runSet : Yields (newPrimitiveCall .move [instanceVar, value]) allocated allocation set)
    (runInsert : Yields (insertBefore spot.anchor allocation) set linked after) :
    ∃ added definition, PutBefore origin before spot left added [definition, allocation] after ∧
      (∃ name, Declares origin after definition instanceVar
        { name, type? := some bundle, flags := (∅ : FlagSet).insert .temp, kind := .var }) ∧
      ∃ use, Sets origin after allocation instanceVar value ∧
        Calls origin after .alloc value [use, text] ∧ IsUse origin after use naming ∧
        Added origin after text (.expr (.literal (.string "bundled args"))) := by
  have old : ∀ id, id = spot.list → ¬ origin.New id := fun _ same => same ▸ oldList
  obtain ⟨newTemp, linkedDefinition, definition, defining, declares⟩ :=
    put_newTemp past oldAnchor standing runTemp runDefine
  have madeText := produced_newNode defining.revision.past_after runText rfl
  have namingDefined := defining.revision.passes isNaming (standing.ne_of_isSymbol isNaming)
  have namingWritten := madeText.addition.passes namingDefined not_false
  have exprText : NewExpr origin written text :=
    ⟨madeText.added.new, by simp [madeText.known, Kind.isExpr]⟩
  obtain ⟨allocating, _, args, calls, areArguments⟩ :=
    calls_newPrimitiveCall madeText.addition.past_after
      (List.forall_mem_cons.mpr ⟨.inl namingWritten, List.forall_mem_cons.mpr ⟨.inr exprText,
        List.forall_mem_nil _⟩⟩) runAlloc
  obtain ⟨use, _, isFirst, rest, rfl⟩ := List.forall₂_cons_left_iff.mp areArguments
  obtain ⟨_, _, isSecond, none, rfl⟩ := List.forall₂_cons_left_iff.mp rest
  obtain rfl := List.forall₂_nil_left_iff.mp none
  obtain rfl := isSecond.same (allocating.passes exprText.isExpr not_false)
  have isUse := isFirst.isUse (allocating.passes namingWritten not_false)
  have addition := madeText.addition.adding allocating
  have isInstance := addition.passes declares.isSymbol not_false
  obtain ⟨setting, sets⟩ := put_set addition.past_after oldList oldAnchor
    (defining.standing.keep addition oldAnchor not_false) isInstance calls.newExpr runSet runInsert
  have second :
      PutBefore origin defined spot (left ++ [linkedDefinition]) [linked] [allocation] after :=
    ⟨setting.revision.following addition, setting.standing, setting.stand⟩
  refine ⟨_, definition, defining.trans second oldList,
    ⟨name, declares.keep second.revision fun id again => .inl (old id again)⟩, use, sets,
    calls.keep setting.revision fun id again => .inl (old id again),
    isUse.keep_of_old setting.revision old,
    (madeText.added.keep allocating not_false).keep_of_old setting.revision old⟩

theorem put_erased {made defined cast set : Program} {name : String}
    {instanceVar erased value casting linked : NodeId} (standing : Standing before spot left)
    (isInstance : (before.kindAt instanceVar).any Kind.isSymbol)
    (runTemp : Yields (newTemp name (some PrimitiveType.cVoidPtr.id)) before erased made)
    (runDefine : Yields (defineBefore spot.anchor erased) made done defined)
    (runCast : Yields (newPrimitiveCall .castToVoidStar [instanceVar]) defined value cast)
    (runSet : Yields (newPrimitiveCall .move [erased, value]) cast casting set)
    (runInsert : Yields (insertBefore spot.anchor casting) set linked after) :
    ∃ added erasing, PutBefore origin before spot left added [erasing, casting] after ∧
      (∃ name, Declares origin after erasing erased
        { name, type? := some PrimitiveType.cVoidPtr.id, flags := (∅ : FlagSet).insert .temp,
          kind := .var }) ∧
      Sets origin after casting erased value ∧
      Operates origin after .castToVoidStar value [instanceVar] := by
  have old : ∀ id, id = spot.list → ¬ origin.New id := fun _ same => same ▸ oldList
  obtain ⟨_, linkedDefinition, erasing, defining, declares⟩ :=
    put_newTemp past oldAnchor standing runTemp runDefine
  have instanceDefined := defining.revision.passes isInstance (standing.ne_of_isSymbol isInstance)
  obtain ⟨addition, _, operates⟩ := operates_newPrimitiveCall defining.revision.past_after
    (List.forall_mem_cons.mpr ⟨instanceDefined, List.forall_mem_nil _⟩) runCast
  obtain ⟨setting, sets⟩ := put_set addition.past_after oldList oldAnchor
    (defining.standing.keep addition oldAnchor not_false)
    (addition.passes declares.isSymbol not_false) operates.newExpr runSet runInsert
  have second :
      PutBefore origin defined spot (left ++ [linkedDefinition]) [linked] [casting] after :=
    ⟨setting.revision.following addition, setting.standing, setting.stand⟩
  exact ⟨_, erasing, defining.trans second oldList,
    ⟨name, declares.keep second.revision fun id again => .inl (old id again)⟩, sets,
    operates.keep setting.revision fun id again => .inl (old id again)⟩

/-- Everything is put before the anchor. -/
theorem put_filling
    {made defined written valued set allocated stored pointed erasedDefined cast moved : Program}
    {members : List (NodeId × NodeId)} {name other : String}
    {instanceVar text value allocation setLinked erased castValue casting moveLinked : NodeId}
    (standing : Standing before spot left) (isClass : IsClass origin before bundle naming members)
    (symbols : ∀ member ∈ members, (before.kindAt member.1).any Kind.isSymbol)
    (isNaming : (before.kindAt naming).any Kind.isSymbol)
    (runVar : Yields (newTemp name (some bundle)) before instanceVar made)
    (runDefine : Yields (defineBefore spot.anchor instanceVar) made () defined)
    (runText : Yields (newLiteral (.string "bundled args")) defined text written)
    (runAlloc : Yields (newPrimitiveCall .alloc [naming, text]) written value valued)
    (runSet : Yields (newPrimitiveCall .move [instanceVar, value]) valued allocation set)
    (runSetInsert : Yields (insertBefore spot.anchor allocation) set setLinked allocated)
    (runStores : Yields ((members.map Prod.fst).zipIdx.forM fun (var, place) => do
      let member ← bundleField bundle place
      let _ ← insertBefore spot.anchor (← newPrimitiveCall .setMember [instanceVar, member, var]))
      allocated () stored)
    (runErased : Yields (newTemp other (some PrimitiveType.cVoidPtr.id)) stored erased pointed)
    (runErasedDefine : Yields (defineBefore spot.anchor erased) pointed () erasedDefined)
    (runCast : Yields (newPrimitiveCall .castToVoidStar [instanceVar]) erasedDefined castValue cast)
    (runMove : Yields (newPrimitiveCall .move [erased, castValue]) cast casting moved)
    (runMoveInsert : Yields (insertBefore spot.anchor casting) moved moveLinked after) :
    ∃ added definition stores erasing, PutBefore origin before spot left added
        ([definition, allocation] ++ stores ++ [erasing, casting]) after ∧
      Fills origin after bundle naming instanceVar erased members definition allocation stores
        erasing casting := by
  have old : ∀ id, id = spot.list → ¬ origin.New id := fun _ same => same ▸ oldList
  have spared {program : Program} {test : Kind → Bool} :
      ∀ id, id = spot.list → ¬ origin.New id ∨ (program.kindAt id).any test :=
    fun id again => .inl (old id again)
  obtain ⟨_, definition, putInstance, ⟨_, defines⟩, use, sets, calls, isUse, isText⟩ :=
    put_instance past oldList oldAnchor standing isNaming runVar runDefine runText runAlloc runSet
      runSetInsert
  have isClassNow : IsClass origin allocated bundle naming ([] ++ members) :=
    isClass.keep putInstance.revision old
  obtain ⟨_, stores, putStores, operate⟩ :=
    put_stores putInstance.revision.past_after oldList oldAnchor putInstance.standing isClassNow
      (fun member isMember => putInstance.revision.passes (symbols member isMember)
        (standing.ne_of_isSymbol (symbols member isMember))) defines.isSymbol runStores
  have instanceStored := putStores.revision.passes defines.isSymbol
    (putInstance.standing.ne_of_isSymbol defines.isSymbol)
  obtain ⟨_, erasing, putErased, erases, setsErased, casts⟩ :=
    put_erased putStores.revision.past_after oldList oldAnchor putStores.standing instanceStored
      runErased runErasedDefine runCast runMove runMoveInsert
  have afterAllocated := putStores.revision.followedBy putErased.revision (fun _ => id)
    fun _ again _ => again
  exact ⟨_, definition, stores, erasing,
    (putInstance.trans putStores oldList).trans (by simpa using putErased) oldList,
    ⟨_, defines.keep afterAllocated spared⟩,
    ⟨value, use, text, sets.keep afterAllocated spared, calls.keep afterAllocated spared,
      isUse.keep_of_old afterAllocated old, isText.keep_of_old afterAllocated old⟩,
    operate.imp fun _ _ operates => operates.keep putErased.revision spared,
    erases, castValue, setsErased, casts⟩

end Parts

/-- The use of a symbol becomes the last argument. -/
theorem appended_use {sym use args linked : NodeId}
    (past : ∀ {id}, before.New id → origin.New id) (oldArgs : ¬ origin.New args)
    (runUse : Yields (newUse sym) before use between)
    (runInsert : Yields (insertAtTail args use) between linked after) :
    (before.kindAt args).any Kind.isList ∧ Revision origin (· = args) before after ∧
      after.held args = before.held args ++ [linked] ∧
      StandsFor origin after linked use ∧ IsUse origin after use sym := by
  have made := produced_newNode past runUse rfl
  obtain ⟨inserted, holds, elements, known, isLater⟩ :=
    linked_insertAtTail made.addition.past_after (IsUse.newExpr made.added) runInsert
  have issued : ¬ before.New args := fun new => oldArgs (past new)
  refine ⟨?_, inserted.revision.following made.addition, ?_, inserted.stands,
    made.added.keep_of_old inserted.revision ?_⟩
  · rw [← made.addition.kindAt_eq issued not_false, known]
    rfl
  · rw [held_of_list isLater, ← made.addition.held_eq issued not_false, held_of_list known]
  · rintro _ rfl
    exact oldArgs

/-- The pointer and the bundle become the last arguments. -/
theorem handsOver_appended {used linked usedToo : Program}
    {erased instanceVar erasedUse bundleUse args first second : NodeId}
    (past : ∀ {id}, before.New id → origin.New id) (oldArgs : ¬ origin.New args)
    (runErasedUse : Yields (newUse erased) before erasedUse used)
    (runErasedPass : Yields (insertAtTail args erasedUse) used first linked)
    (runBundleUse : Yields (newUse instanceVar) linked bundleUse usedToo)
    (runBundlePass : Yields (insertAtTail args bundleUse) usedToo second after) :
    (before.kindAt args).any Kind.isList ∧ Revision origin (· = args) before after ∧
      after.held args = before.held args ++ [first, second] ∧
      HandsOver origin after erased instanceVar first second := by
  have old : ∀ id, id = args → ¬ origin.New id := fun _ same => same ▸ oldArgs
  obtain ⟨isList, pointing, isAppended, standsPointer, usesErased⟩ :=
    appended_use past oldArgs runErasedUse runErasedPass
  obtain ⟨_, bundling, isAppendedToo, standsBundle, usesInstance⟩ :=
    appended_use pointing.past_after oldArgs runBundleUse runBundlePass
  refine ⟨isList, pointing.followedBy bundling (fun _ => id) fun _ again _ => again, ?_,
    ⟨erasedUse, standsPointer.keep bundling old, usesErased.keep_of_old bundling old⟩,
    bundleUse, standsBundle, usesInstance⟩
  rw [isAppendedToo, isAppended, List.append_assoc, List.singleton_append]

theorem exists_anchor {vars : List NodeId}
    (run : Yields (passBundle call fn vars bundle) before done after) :
    ∃ anchor, before.enclosingStmt call = .ok (some anchor) := by
  rw [passBundle, yields_bind] at run
  obtain ⟨anchor?, _, looked, run⟩ := run
  obtain ⟨isAnchor, rfl⟩ := yields_look.mp looked
  cases anchor? with
  | some anchor => exact ⟨anchor, isAnchor⟩
  | none =>
    obtain ⟨_, _, never, _⟩ := yields_bind.mp run
    exact (yields_fail never).elim

/-- The code is put before the anchor, and then the call gets its arguments. -/
theorem put_passBundle {members : List (NodeId × NodeId)}
    (past : ∀ {id}, before.New id → origin.New id) (issuedCall : ¬ before.New call)
    (oldArgs : ∀ args, before.callArgs call = .ok args → ¬ origin.New args)
    (oldList : ¬ origin.New spot.list) (oldAnchor : ¬ origin.New spot.anchor)
    (anchored : before.enclosingStmt call = .ok (some spot.anchor))
    (standing : Standing before spot left) (isClass : IsClass origin before bundle naming members)
    (symbols : ∀ member ∈ members, (before.kindAt member.1).any Kind.isSymbol)
    (isNaming : (before.kindAt naming).any Kind.isSymbol)
    (run : Yields (passBundle call fn (members.map Prod.fst) bundle) before done after) :
    ∃ args filled added definition allocation stores erasing casting instanceVar erased first
        second,
      before.callArgs call = .ok args ∧
      PutBefore origin before spot left added
        ([definition, allocation] ++ stores ++ [erasing, casting]) filled ∧
      Fills origin filled bundle naming instanceVar erased members definition allocation stores
        erasing casting ∧
      (filled.kindAt args).any Kind.isList ∧ Revision origin (· = args) filled after ∧
      after.held args = filled.held args ++ [first, second] ∧
      HandsOver origin after erased instanceVar first second := by
  rw [passBundle, yields_bind] at run
  obtain ⟨_, _, looked, run⟩ := run
  obtain ⟨isAnchor, rfl⟩ := yields_look.mp looked
  obtain rfl := Except.ok.inj (anchored.symm.trans isAnchor)
  simp only [yields_bind, yields_look, yields_pure] at run
  obtain ⟨_, _, ⟨rfl, rfl⟩, _, _, runNaming, _, start, ⟨_, rfl⟩, run⟩ := run
  have ⟨fields, definitions, isBundle, _, _⟩ := isClass
  obtain ⟨rfl, isSame⟩ := bundleSymbol_eq isBundle.known runNaming
  obtain rfl := Option.some.inj isSame
  obtain ⟨entered, final, entering, run, leaving⟩ := exists_attributed run
  simp only [yields_bind, yields_look, yields_pure] at run
  obtain ⟨instanceVar, _, runVar, _, _, runDefine, text, _, runText, value, _, runAlloc, allocation,
    _, runSet, _, _, runSetInsert, _, _, runStores, erased, _, runErased, _, _, runErasedDefine,
    cast, _, runCast, casting, _, runMove, _, _, runMoveInsert, args, filled, ⟨isArgsNow, rfl⟩,
    erasedUse, _, runErasedUse, first, _, runErasedPass, bundleUse, _, runBundleUse, second, _,
    runBundlePass, _, rfl⟩ := run
  have entry : Addition origin start entered := .of_nodes past entering
  obtain ⟨added, definition, stores, erasing, put, fills⟩ :=
    put_filling entry.past_after oldList oldAnchor (standing.keep entry oldAnchor not_false)
      (isClass.keep entry fun _ never => never.elim)
      (fun member isMember => entry.passes (symbols member isMember) not_false)
      (entry.passes isNaming not_false) runVar runDefine runText runAlloc runSet runSetInsert
      runStores runErased runErasedDefine runCast runMove runMoveInsert
  have untilFilled := put.revision.following entry
  have isArgs := (untilFilled.callArgs_iff issuedCall).mp isArgsNow
  obtain ⟨isArgsList, appending, isAppended, handsOver⟩ :=
    handsOver_appended untilFilled.past_after (oldArgs args isArgs) runErasedUse runErasedPass
      runBundleUse runBundlePass
  have leave : Addition origin final after := .of_nodes appending.past_after leaving
  have issuedArgs : ¬ final.New args := fun new => oldArgs args isArgs (appending.past_after new)
  exact ⟨args, filled, added, definition, allocation, stores, erasing, casting, instanceVar, erased,
    first, second, isArgs, ⟨untilFilled, put.standing, put.stand⟩, fills, isArgsList,
    appending.adding leave, (leave.held_eq issuedArgs not_false).trans isAppended,
    handsOver.keep leave fun _ never => never.elim⟩

theorem filled_passBundle {members : List (NodeId × NodeId)}
    (past : ∀ {id}, before.New id → origin.New id) (issuedCall : ¬ before.New call)
    (argsApart : ∀ args, before.callArgs call = .ok args → ¬ origin.New args ∧ args ≠ spot.list)
    (oldList : ¬ origin.New spot.list) (oldAnchor : ¬ origin.New spot.anchor)
    (anchored : before.enclosingStmt call = .ok (some spot.anchor))
    (standing : Standing before spot left) (isClass : IsClass origin before bundle naming members)
    (symbols : ∀ member ∈ members, (before.kindAt member.1).any Kind.isSymbol)
    (isNaming : (before.kindAt naming).any Kind.isSymbol)
    (run : Yields (passBundle call fn (members.map Prod.fst) bundle) before done after) :
    ∃ args added definition allocation stores erasing casting instanceVar erased first second,
      before.callArgs call = .ok args ∧ (before.kindAt args).any Kind.isList ∧
      Revision origin (fun id => id = spot.list ∨ id = args) before after ∧
      after.kindAt spot.list =
        some (.list spot.holds (left ++ added ++ spot.anchor :: spot.right).toArray) ∧
      List.Forall₂ (StandsFor origin after) added
        ([definition, allocation] ++ stores ++ [erasing, casting]) ∧
      Fills origin after bundle naming instanceVar erased members definition allocation stores
        erasing casting ∧
      after.held args = before.held args ++ [first, second] ∧
      HandsOver origin after erased instanceVar first second := by
  obtain ⟨args, filled, added, definition, allocation, stores, erasing, casting, instanceVar,
    erased, first, second, isArgs, put, fills, isArgsList, appending, isAppended, handsOver⟩ :=
    put_passBundle past issuedCall (fun args isArgs => (argsApart args isArgs).1) oldList oldAnchor
      anchored standing isClass symbols isNaming run
  obtain ⟨oldArgs, apart⟩ := argsApart args isArgs
  have issuedArgs : ¬ before.New args := fun new => oldArgs (past new)
  have old : ∀ id, id = args → ¬ origin.New id := fun _ same => same ▸ oldArgs
  refine ⟨args, added, definition, allocation, stores, erasing, casting, instanceVar, erased, first,
    second, isArgs, (put.revision.isList_iff issuedArgs).mp isArgsList,
    put.revision.followedBy appending (fun _ => .inl) fun _ again _ => .inr again,
    appending.kinds put.standing.known (Ne.symm apart),
    put.stand.imp fun _ _ stands => stands.keep appending old, fills.keep appending old, ?_,
    handsOver⟩
  rw [isAppended, put.revision.held_eq issuedArgs apart]

end ProgramTree.Program
