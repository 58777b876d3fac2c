import ProgramTree.Outlining
import ProgramTree.Proofs.Lookups

/-!
# Relocation keeps programs sound

The captured variables of a function are passed in a bundle and the function is moved to
the end of its module.  Every step works on nodes of the region.
-/

namespace ProgramTree.Program

open Edit

variable {exact bare : Prop} {region : NodeId → Prop} {before after : Program}
  {fn bundle wrap var list new linked stmt root : NodeId} {vars : List NodeId} {done : Unit}

/-- A type of the region, named by a symbol of the region. -/
structure IsBundle (region : NodeId → Prop) (program : Program) (bundle : NodeId) : Prop where
  known : Known region program bundle
  naming : ∃ naming, Known region program naming ∧
    (program.kindAt bundle).bind Kind.naming? = some naming

theorem IsBundle.since (isBundle : IsBundle region before bundle) (since : Since before after) :
    IsBundle region after bundle := by
  obtain ⟨naming, known, named⟩ := isBundle.naming
  refine ⟨isBundle.known.since since, naming, known.since since, ?_⟩
  obtain ⟨kind, isKind, named⟩ := Option.bind_eq_some_iff.mp named
  obtain ⟨later, isLater, outlives⟩ := since bundle kind isKind
  rw [isLater, Option.bind_some, outlives.naming named]

/-- The node that is linked into a list is the one that was given, or is new. -/
theorem linked_of_splice {position : Nat} (run : Yields (splice list position new) before linked after) :
    linked = new ∨ before.get? linked = none := by
  simp only [splice, levelBound, spliceWithin, yields_bind, yields_get, yields_look, yields_ite,
    yields_checkInsertable, yields_pure] at run
  obtain ⟨_, _, ⟨rfl, rfl⟩, _, _, ⟨rfl, issued, _, _⟩, isList, _, ⟨_, rfl⟩, run⟩ := run
  rcases run with ⟨_, _, _, _, _, _, _, _, _, _, same, _⟩ | ⟨_, run⟩
  · exact .inl same
  · simp only [insertElement, yields_bind, yields_look, yields_ite, yields_throw, yields_pure] at run
    obtain ⟨_, _, ⟨_, rfl⟩, element, _, wrapping, run⟩ := run
    have isElement : linked = element := by
      rcases run with ⟨_, _, _, never, _⟩ | ⟨_, _, _, _, _, _, _, _, _, _, _, _, _, same, _⟩
      · exact never.elim
      · exact same
    cases wrapped wrapping issued with
    | bare => exact .inl isElement
    | wrapped => exact .inr (isElement ▸ get?_nextId _)

namespace Sound

variable (sound : Sound exact bare region before)
include sound

theorem inside_of_splice {position : Nat} (insideNew : region new)
    (run : Yields (splice list position new) before linked after) : region linked := by
  rcases linked_of_splice run with rfl | unissued
  · exact insideNew
  · exact sound.orderly.forest.unissued unissued

theorem inside_of_insertBeside {side : Side} {anchor : NodeId} (insideNew : region new)
    (run : Yields (Edit.insertBeside side anchor new) before linked after) : region linked := by
  rw [Edit.insertBeside, yields_bind] at run
  obtain ⟨_, _, looked, run⟩ := run
  obtain ⟨_, rfl⟩ := yields_look.mp looked
  cases side <;> exact sound.inside_of_splice insideNew run

theorem inside_of_insertAtEnd {listEnd : ListEnd} (insideNew : region new)
    (run : Yields (Edit.insertAtEnd listEnd list new) before linked after) : region linked := by
  rw [Edit.insertAtEnd, yields_bind] at run
  obtain ⟨kind, _, looked, run⟩ := run
  obtain ⟨_, rfl⟩ := yields_look.mp looked
  split at run
  · cases listEnd <;> exact sound.inside_of_splice insideNew run
  · exact (yields_fail run).elim

/-- Flags do not matter, whose ever they are. -/
theorem addFlag {flag : Flag} (run : Yields (Edit.addFlag var flag) before done after) :
    Progress (Sound exact bare region) before after := by
  simp only [Edit.addFlag, changeSymbol, setKind, yields_bind, yields_look, symbol_eq_ok,
    yields_change] at run
  obtain ⟨symbol, origin, ⟨known, rfl⟩, _, rfl⟩ := run
  have alike : Alike (.symbol symbol)
      (.symbol { symbol with flags := symbol.flags.insert flag }) :=
    .symbol rfl
  exact ⟨⟨orderly_setKind sound.orderly known alike,
    located_setKind sound.located known alike (.inl rfl)⟩, since_setKind known alike⟩

/-! ## The bundle class -/

theorem bundleSymbol (isBundle : IsBundle region before bundle)
    (run : Yields (Edit.bundleSymbol bundle) before new after) :
    after = before ∧ Known region before new := by
  rw [Edit.bundleSymbol, yields_bind] at run
  obtain ⟨found?, _, looked, run⟩ := run
  obtain ⟨looked, rfl⟩ := yields_look.mp looked
  obtain ⟨naming, known, named⟩ := isBundle.naming
  cases found? with
  | none => exact (yields_fail run).elim
  | some found =>
    obtain ⟨rfl, rfl⟩ := yields_pure.mp run
    simp only [typeSymbolOf, Fault.bind_eq_ok, Fault.pure_eq_ok, kindOf_eq_ok] at looked
    obtain ⟨kind, isKind, found⟩ := looked
    rw [isKind, Option.bind_some, Kind.naming?, found, Option.some.injEq] at named
    exact ⟨rfl, named ▸ known⟩

theorem bundleField {place : Nat} (known : Known region before bundle)
    (run : Yields (Edit.bundleField bundle place) before new after) :
    after = before ∧ Known region before new := by
  rw [Edit.bundleField, yields_bind] at run
  obtain ⟨found?, _, looked, run⟩ := run
  obtain ⟨looked, rfl⟩ := yields_look.mp looked
  cases found? with
  | none => exact (yields_fail run).elim
  | some found =>
    obtain ⟨rfl, rfl⟩ := yields_pure.mp run
    exact ⟨rfl, sound.known_of_contains known (contains_of_field looked)⟩

theorem addField {name : String} {type? : Option NodeId} (known : Known region before bundle)
    (run : Yields (Edit.addField bundle name type?) before new after) :
    Progress (Sound exact bare region) before after := by
  have workshop := Sound.workshop exact bare region
  simp only [Edit.addField, yields_bind, yields_look, yields_pure] at run
  obtain ⟨fields, _, ⟨isFields, rfl⟩, field, _, runVar, definition, _, runDefine, _, _, runInsert,
    rfl, rfl⟩ := run
  have knownFields := sound.known_of_contains known (contains_of_fieldList isFields)
  have madeVar := workshop.newSymbol sound rfl runVar
  have madeDefinition := workshop.define madeVar.progress.kept madeVar.known runDefine
  have inserted := madeDefinition.progress.kept.insertAtEnd knownFields.inside
    madeDefinition.known.inside runInsert
  exact (madeVar.progress.trans madeDefinition.progress).trans inserted

theorem addBundleField {place : Nat} (known : Known region before bundle)
    (run : Yields (Edit.addBundleField bundle var place) before done after) :
    Progress (Sound exact bare region) before after := by
  have adding : ∀ {middle name type?}, Progress (Sound exact bare region) before middle →
      ∀ field, Yields (Edit.addField bundle name type?) middle field after →
      Progress (Sound exact bare region) before after := fun progress _ run =>
    progress.trans (progress.kept.addField (known.since progress.since) run)
  rw [Edit.addBundleField, yields_bind] at run
  obtain ⟨type?, origin, looked, run⟩ := run
  obtain ⟨_, rfl⟩ := yields_look.mp looked
  cases type? with
  | none =>
    simp only [yields_bind, yields_look, yields_pure] at run
    obtain ⟨_, _, ⟨_, rfl⟩, _, _, runField, _, rfl⟩ := run
    exact adding (.refl sound) _ runField
  | some type =>
    simp only [yields_bind, yields_look, yields_ite, yields_pure] at run
    obtain ⟨_, _, ⟨_, rfl⟩, ⟨_, _, _, runFlag, run⟩ | ⟨_, run⟩⟩ := run
    · obtain ⟨_, _, ⟨_, rfl⟩, _, _, runField, _, rfl⟩ := run
      exact adding (sound.addFlag runFlag) _ runField
    · obtain ⟨_, _, ⟨_, rfl⟩, _, _, runField, _, rfl⟩ := run
      exact adding (.refl sound) _ runField

theorem newBundleClass {module : NodeId} (insideModule : region module)
    (run : Yields (Edit.newBundleClass vars module fn) before bundle after) :
    Progress (Sound exact bare region) before after ∧ IsBundle region after bundle := by
  have workshop := Sound.workshop exact bare region
  simp only [Edit.newBundleClass, yields_bind, yields_look, yields_pure] at run
  obtain ⟨_, origin, ⟨_, rfl⟩, bundle, _, runClass, naming, named, runNaming, _, _, runObject, _,
    flagged, runWide, _, filled, runFields, definition, _, runDefine, body, _, ⟨isBody, rfl⟩, _, _,
    runInsert, rfl, rfl⟩ := run
  obtain ⟨madeClass, symbol, _, knownSymbol, isClass⟩ := workshop.newAggregateType sound runClass
  have isBundle : IsBundle region _ bundle :=
    ⟨madeClass.known, symbol, knownSymbol, by simp [isClass, Kind.naming?, Kind.type?]⟩
  obtain ⟨rfl, knownNaming⟩ := madeClass.progress.kept.bundleSymbol isBundle runNaming
  have object := madeClass.progress.kept.addFlag runObject
  have wide := object.kept.addFlag runWide
  have flagging := object.trans wide
  have filling : Progress (Sound exact bare region) flagged filled := by
    refine forM_progress runFields flagging.kept fun middle later item _ progress run => ?_
    have knownBundle := madeClass.known.since (flagging.trans progress).since
    exact progress.kept.addBundleField knownBundle run
  have untilFilled := flagging.trans filling
  have madeDefinition :=
    workshop.define untilFilled.kept (knownNaming.since untilFilled.since) runDefine
  have untilDefined := untilFilled.trans madeDefinition.progress
  have insideBody := untilDefined.kept.orderly.forest.contains insideModule
    (contains_of_moduleBodyList isBody)
  have inserted := untilDefined.kept.insertAtEnd insideBody madeDefinition.known.inside runInsert
  have afterClass := untilDefined.trans inserted
  exact ⟨madeClass.progress.trans afterClass, isBundle.since afterClass.since⟩

/-! ## The inside of the function -/

theorem insertFormalAtTail {formal : NodeId} (knownFn : Known region before fn)
    (known : Known region before formal)
    (run : Yields (Edit.insertFormalAtTail fn formal) before done after) :
    Progress (Sound exact bare region) before after ∧ (after.kindAt fn).any (!·.isModule) := by
  have workshop := Sound.workshop exact bare region
  simp only [Edit.insertFormalAtTail, yields_bind, yields_look, yields_pure] at run
  obtain ⟨definition, _, runDefine, formals, _, ⟨isFormals, rfl⟩, _, _, runInsert, _, rfl⟩ := run
  have madeDefinition := workshop.define sound known runDefine
  have knownFormals := madeDefinition.progress.kept.known_of_contains
    (knownFn.since madeDefinition.progress.since) (contains_of_fnFormalsList isFormals)
  have inserted := madeDefinition.progress.kept.insertAtEnd knownFormals.inside
    madeDefinition.known.inside runInsert
  exact ⟨madeDefinition.progress.trans inserted,
    inserted.since.notModule (notModule_of_fnFormalsList isFormals)⟩

theorem unpackVar {place : Nat} {unpacked : Unpacked} (knownWrap : Known region before wrap)
    (knownBundle : Known region before bundle)
    (run : Yields (Edit.unpackVar wrap bundle var place) before unpacked after) :
    Progress (Sound exact bare region) before after ∧ ∀ stmt ∈ unpacked.stmts, Known region after stmt := by
  have workshop := Sound.workshop exact bare region
  rw [Edit.unpackVar, yields_bind] at run
  obtain ⟨member, _, runMember, run⟩ := run
  obtain ⟨rfl, knownMember⟩ := sound.bundleField knownBundle runMember
  obtain ⟨entered, left, entering, run, leaving, _⟩ := workshop.exists_withLocationOf sound run
  simp only [yields_bind, yields_look, yields_pure] at run
  obtain ⟨_, _, ⟨_, rfl⟩, _, _, ⟨_, rfl⟩, localVar, _, runVar, value, _, runValue, definition, _,
    runDefine, set, _, runSet, rfl, rfl⟩ := run
  have madeVar := workshop.newTemp entering.kept runVar
  have untilVar := entering.trans madeVar.progress
  have madeValue := workshop.newPrimitiveCall untilVar.kept
    (by simpa using ⟨.inl (knownWrap.since untilVar.since), .inl (knownMember.since untilVar.since)⟩)
    runValue
  have untilValue := untilVar.trans madeValue.progress
  have madeDefinition := workshop.define untilValue.kept
    (madeVar.known.since madeValue.progress.since) runDefine
  have knownLocal := madeVar.known.since (madeValue.progress.trans madeDefinition.progress).since
  have madeSet := workshop.newPrimitiveCall madeDefinition.progress.kept
    (by simpa using ⟨.inl knownLocal, .inl (madeValue.known.since madeDefinition.progress.since)⟩)
    runSet
  have leavingNow := leaving madeSet.progress.kept
  have untilSet := (untilValue.trans madeDefinition.progress).trans madeSet.progress
  refine ⟨untilSet.trans leavingNow, ?_⟩
  have keptDefinition := madeDefinition.known.since (madeSet.progress.trans leavingNow).since
  simpa using ⟨keptDefinition, madeSet.known.since leavingNow.since⟩

theorem insertAllAtHead {stmts : List NodeId} (insideList : region list)
    (inside : ∀ stmt ∈ stmts, region stmt)
    (run : Yields (Edit.insertAllAtHead list stmts) before done after) :
    Progress (Sound exact bare region) before after := by
  -- each statement goes right behind the one before it
  have behind : ∀ (rest : List NodeId) (anchor last : NodeId) (middle : Program),
      Sound exact bare region middle → region anchor → (∀ stmt ∈ rest, region stmt) →
      Yields (rest.foldlM Edit.insertAfter anchor) middle last after →
      Progress (Sound exact bare region) middle after := by
    intro rest
    induction rest with
    | nil =>
      intro anchor last middle sound _ _ run
      obtain ⟨rfl, rfl⟩ := yields_pure.mp run
      exact .refl sound
    | cons stmt rest ih =>
      intro anchor last middle sound insideAnchor inside run
      rw [List.foldlM_cons, yields_bind] at run
      obtain ⟨linked, next, runInsert, run⟩ := run
      have insideStmt := inside stmt (by simp)
      have inserted := sound.insertBeside insideAnchor insideStmt runInsert
      refine inserted.trans (ih linked last next inserted.kept ?_ ?_ run)
      · exact sound.inside_of_insertBeside insideStmt runInsert
      · exact fun other member => inside other (by simp [member])
  cases stmts with
  | nil =>
    obtain ⟨_, rfl⟩ := yields_pure.mp run
    exact .refl sound
  | cons first rest =>
    simp only [Edit.insertAllAtHead, yields_bind, yields_pure] at run
    obtain ⟨linked, next, runInsert, last, _, run, _, rfl⟩ := run
    have insideFirst := inside first (by simp)
    have inserted := sound.insertAtEnd insideList insideFirst runInsert
    refine inserted.trans (behind rest linked last next inserted.kept ?_ ?_ run)
    · exact sound.inside_of_insertAtEnd insideFirst runInsert
    · exact fun other member => inside other (by simp [member])

theorem unpackBundle {table : Remap} (knownFn : Known region before fn)
    (knownWrap : Known region before wrap) (knownBundle : Known region before bundle)
    (run : Yields (Edit.unpackBundle fn vars wrap bundle) before table after) :
    Progress (Sound exact bare region) before after := by
  simp only [Edit.unpackBundle, yields_bind, yields_look, yields_pure] at run
  obtain ⟨unpacked, _, runVars, body, _, ⟨isBody, rfl⟩, _, _, runInsert, _, rfl⟩ := run
  obtain ⟨unpacking, knownStmts⟩ := mapM_progress runVars sound
    (fun middle later item result _ progress run =>
      progress.kept.unpackVar (knownWrap.since progress.since) (knownBundle.since progress.since) run)
    fun _ _ _ known since stmt member => (known stmt member).since since
  have knownBody := unpacking.kept.known_of_contains (knownFn.since unpacking.since)
    (contains_of_fnBodyList isBody)
  refine unpacking.trans (unpacking.kept.insertAllAtHead knownBody.inside ?_ runInsert)
  intro stmt member
  obtain ⟨entry, isEntry, isStmt⟩ := List.mem_flatMap.mp member
  exact (knownStmts entry isEntry stmt isStmt).inside

theorem replaceUse {table : Remap} {id : NodeId} (inside : region id)
    (run : Yields (Edit.replaceUse table id) before done after) :
    Progress (Sound exact bare region) before after := by
  have unchanged : Yields (pure () : Edit Unit) before done after →
      Progress (Sound exact bare region) before after := by
    intro run
    obtain ⟨_, rfl⟩ := yields_pure.mp run
    exact .refl sound
  rw [Edit.replaceUse, yields_bind] at run
  obtain ⟨used?, _, looked, run⟩ := run
  obtain ⟨_, rfl⟩ := yields_look.mp looked
  cases used? with
  | none => exact unchanged run
  | some var =>
    cases entry : table[var]? with
    | none =>
      simp only [entry] at run
      exact unchanged run
    | some localVar =>
      simp only [entry] at run
      exact (Sound.workshop exact bare region).setUsedSymbol sound inside run

theorem replaceUses {table : Remap} (inside : region root)
    (run : Yields (Edit.replaceUses table root) before done after) :
    Progress (Sound exact bare region) before after := by
  simp only [Edit.replaceUses, yields_bind, yields_look] at run
  obtain ⟨nodes, _, ⟨walked, rfl⟩, run⟩ := run
  refine forM_progress run sound fun middle later id member progress run => ?_
  have contained := (mem_subtree walked).mp member
  exact progress.kept.replaceUse (sound.orderly.forest.contains inside contained) run

/-! ## The call -/

theorem defineBefore {anchor sym : NodeId} (insideAnchor : region anchor)
    (known : Known region before sym)
    (run : Yields (Edit.defineBefore anchor sym) before done after) :
    Progress (Sound exact bare region) before after := by
  simp only [Edit.defineBefore, yields_bind, yields_pure] at run
  obtain ⟨definition, _, runDefine, _, _, runInsert, _, rfl⟩ := run
  have madeDefinition := (Sound.workshop exact bare region).define sound known runDefine
  exact madeDefinition.progress.trans (madeDefinition.progress.kept.insertBeside insideAnchor
    madeDefinition.known.inside runInsert)

/-- An operation on nodes of the region and symbols, run before a statement. -/
theorem callBefore {anchor call : NodeId} {operation : Primitive} {operands : List NodeId}
    {middle : Program} (insideAnchor : region anchor)
    (fit : ∀ id ∈ operands, Operand region before id)
    (runCall : Yields (newPrimitiveCall operation operands) before call middle)
    (runInsert : Yields (insertBefore anchor call) middle linked after) :
    Progress (Sound exact bare region) before after := by
  have made := (Sound.workshop exact bare region).newPrimitiveCall sound fit runCall
  exact made.progress.trans
    (made.progress.kept.insertBeside insideAnchor made.known.inside runInsert)

theorem passUse {args var use : NodeId} {middle : Program} (insideArgs : region args)
    (runUse : Yields (newUse var) before use middle)
    (runInsert : Yields (insertAtTail args use) middle linked after) :
    Progress (Sound exact bare region) before after := by
  have made := ((Sound.workshop exact bare region).newNode sound runUse rfl rfl).1
  exact made.progress.trans
    (made.progress.kept.insertAtEnd insideArgs made.known.inside runInsert)

/-- The variables are stored in the fields of the bundle, one after the other. -/
theorem storeVars {anchor bundleVar : NodeId} (insideAnchor : region anchor)
    (knownVar : Known region before bundleVar) (knownBundle : Known region before bundle)
    (symbols : ∀ var ∈ vars, (before.kindAt var).any Kind.isSymbol)
    (run : Yields (vars.zipIdx.forM fun (var, place) => do
      let member ← Edit.bundleField bundle place
      let _ ← insertBefore anchor (← newPrimitiveCall .setMember [bundleVar, member, var]))
      before () after) :
    Progress (Sound exact bare region) before after := by
  refine forM_progress run sound fun middle later item isItem progress run => ?_
  simp only [yields_bind, yields_pure] at run
  obtain ⟨member, _, runMember, call, _, runCall, _, _, runInsert, _, rfl⟩ := run
  obtain ⟨rfl, knownMember⟩ :=
    progress.kept.bundleField (knownBundle.since progress.since) runMember
  refine progress.kept.callBefore insideAnchor ?_ runCall runInsert
  have isVar : item.1 ∈ vars := (List.mem_zipIdx' isItem).2 ▸ List.getElem_mem _
  have isSymbol := progress.since.isSymbol (symbols item.1 isVar)
  simpa using ⟨.inl (knownVar.since progress.since), .inl knownMember, .inr isSymbol⟩

theorem passBundle {call : NodeId} (knownCall : Known region before call)
    (isBundle : IsBundle region before bundle)
    (symbols : ∀ var ∈ vars, (before.kindAt var).any Kind.isSymbol)
    (run : Yields (Edit.passBundle call fn vars bundle) before done after) :
    Progress (Sound exact bare region) before after := by
  have workshop := Sound.workshop exact bare region
  rw [Edit.passBundle, yields_bind] at run
  obtain ⟨anchor?, _, looked, run⟩ := run
  obtain ⟨isAnchor, rfl⟩ := yields_look.mp looked
  cases anchor? with
  | none =>
    obtain ⟨_, _, never, _⟩ := yields_bind.mp run
    exact (yields_fail never).elim
  | some anchor =>
    have insideAnchor := sound.inside_of_enclosingStmt knownCall.inside isAnchor
    simp only [yields_bind, yields_look, yields_pure] at run
    obtain ⟨_, _, ⟨rfl, rfl⟩, naming, _, runNaming, _, origin, ⟨_, rfl⟩, run⟩ := run
    obtain ⟨rfl, knownNaming⟩ := sound.bundleSymbol isBundle runNaming
    obtain ⟨entered, left, entering, run, leaving, _⟩ := workshop.exists_withLocationOf sound run
    simp only [yields_bind, yields_look, yields_pure] at run
    obtain ⟨instanceVar, _, runVar, _, defined, runDefine, description, _, runDescription, alloc, _,
      runAlloc, set, _, runSet, _, allocated, runSetInsert, _, stored, runStores, erased, _,
      runErased, _, _, runErasedDefine, cast, _, runCast, move, _, runMove, _, _, runMoveInsert,
      args, _, ⟨isArgs, rfl⟩, erasedUse, _, runErasedUse, _, _, runErasedPass, bundleUse, _,
      runBundleUse, _, _, runBundlePass, _, rfl⟩ := run
    have madeVar := workshop.newTemp entering.kept runVar
    have untilVar := entering.trans madeVar.progress
    -- from here on, what has happened since the variable was made
    have first := untilVar.kept.defineBefore insideAnchor madeVar.known runDefine
    have madeDescription := (workshop.newNode first.kept runDescription rfl rfl).1
    have second := first.trans madeDescription.progress
    have madeAlloc := workshop.newPrimitiveCall second.kept
      (by simpa using ⟨.inl (knownNaming.since (untilVar.trans second).since),
        .inl madeDescription.known⟩) runAlloc
    have third := second.trans madeAlloc.progress
    have fourth := third.trans <| third.kept.callBefore insideAnchor
      (by simpa using ⟨.inl (madeVar.known.since third.since), .inl madeAlloc.known⟩)
      runSet runSetInsert
    have untilFourth := untilVar.trans fourth
    have fifth := fourth.trans <| fourth.kept.storeVars insideAnchor
      (madeVar.known.since fourth.since) (isBundle.known.since untilFourth.since)
      (fun var isVar => untilFourth.since.isSymbol (symbols var isVar)) runStores
    have madeErased := workshop.newTemp fifth.kept runErased
    have sixth := fifth.trans madeErased.progress
    have definedErased := sixth.kept.defineBefore insideAnchor madeErased.known runErasedDefine
    have seventh := sixth.trans definedErased
    have madeCast := workshop.newPrimitiveCall seventh.kept
      (by simpa using .inl (madeVar.known.since seventh.since)) runCast
    have eighth := seventh.trans madeCast.progress
    have ninth := eighth.trans <| eighth.kept.callBefore insideAnchor
      (by simpa using ⟨.inl (madeErased.known.since (definedErased.trans madeCast.progress).since),
        .inl madeCast.known⟩) runMove runMoveInsert
    have insideArgs := ninth.kept.orderly.forest.contains knownCall.inside
      (contains_of_callArgs isArgs)
    have tenth := ninth.trans (ninth.kept.passUse insideArgs runErasedUse runErasedPass)
    have last := tenth.trans (tenth.kept.passUse insideArgs runBundleUse runBundlePass)
    exact (untilVar.trans last).trans (leaving last.kept)

theorem singleCallSite {call : NodeId}
    (run : Yields (Edit.singleCallSite fn) before call after) :
    after = before ∧ Known region before call := by
  rw [Edit.singleCallSite, yields_bind] at run
  obtain ⟨calls, _, looked, run⟩ := run
  obtain ⟨isCalls, rfl⟩ := yields_look.mp looked
  split at run
  · obtain ⟨rfl, rfl⟩ := yields_pure.mp run
    exact ⟨rfl, sound.known_of_callSites isCalls (by simp)⟩
  · obtain ⟨_, _, _, never⟩ := yields_bind.mp run
    exact (yields_fail never).elim

/-! ## The whole relocation -/

theorem passCaptures (knownFn : Known region before fn)
    (isSymbol : (before.kindAt fn).any Kind.isSymbol)
    (run : Yields (Edit.passCaptures fn) before bundle after) :
    Progress (Sound exact bare region) before after ∧ (after.kindAt fn).any (!·.isModule) := by
  have workshop := Sound.workshop exact bare region
  rw [Edit.passCaptures, yields_bind] at run
  obtain ⟨call, _, runSite, run⟩ := run
  obtain ⟨rfl, knownCall⟩ := sound.singleCallSite runSite
  obtain ⟨entered, left, entering, run, leaving, sameKind⟩ := workshop.exists_withLocationOf sound run
  simp only [yields_bind, yields_look, yields_pure] at run
  obtain ⟨captures, _, ⟨isCaptures, rfl⟩, module, origin, ⟨isModule, rfl⟩, bundle, _, runClass,
    untyped, _, runUntyped, _, _, runFlag, _, _, runFormal, wrap, _, runWrap, _, _, runWrapFormal,
    table, _, runUnpack, body, _, ⟨isBody, rfl⟩, _, _, runReplace, _, _, runPass, rfl, rfl⟩ := run
  have insideModule := entering.kept.inside_of_expectModule knownFn.inside
    (entering.since.isSymbol isSymbol) isModule
  obtain ⟨classed, isBundle⟩ := entering.kept.newBundleClass insideModule runClass
  have untilClass := entering.trans classed
  have symbols : ∀ var ∈ bundledVars captures, (origin.kindAt var).any Kind.isSymbol := by
    intro var isBundled
    obtain ⟨capture, isCapture, rfl⟩ := List.mem_map.mp isBundled
    exact isSymbol_of_captures isCaptures capture (List.mem_of_mem_filter isCapture)
  -- from here on, what has happened since the class was made
  have madeUntyped := workshop.newSymbol classed.kept rfl runUntyped
  have flagged := madeUntyped.progress.kept.addFlag runFlag
  have first := madeUntyped.progress.trans flagged
  obtain ⟨formal, _⟩ := first.kept.insertFormalAtTail
    (knownFn.since (untilClass.trans first).since) (madeUntyped.known.since flagged.since) runFormal
  have second := first.trans formal
  have madeWrap := workshop.newSymbol second.kept rfl runWrap
  have third := second.trans madeWrap.progress
  obtain ⟨wrapFormal, notModule⟩ := third.kept.insertFormalAtTail
    (knownFn.since (untilClass.trans third).since) madeWrap.known runWrapFormal
  have fourth := third.trans wrapFormal
  have untilFourth := untilClass.trans fourth
  have unpacked := fourth.kept.unpackBundle (knownFn.since untilFourth.since)
    (madeWrap.known.since wrapFormal.since) (isBundle.known.since fourth.since) runUnpack
  have fifth := fourth.trans unpacked
  have insideBody := fifth.kept.orderly.forest.contains knownFn.inside (contains_of_fnBody isBody)
  have replaced := fifth.kept.replaceUses insideBody runReplace
  have sixth := fifth.trans replaced
  have passed := sixth.kept.passBundle (knownCall.since (untilClass.trans sixth).since)
    (isBundle.since sixth.since)
    (fun var isVar => (classed.trans sixth).since.isSymbol (symbols var isVar)) runPass
  have leavingNow := leaving passed.kept
  refine ⟨(untilClass.trans (sixth.trans passed)).trans leavingNow, ?_⟩
  exact ((unpacked.trans replaced).trans (passed.trans leavingNow)).since.notModule notModule

theorem flatten (inside : region fn) (isSymbol : (before.kindAt fn).any Kind.isSymbol)
    (notModule : (before.kindAt fn).any (!·.isModule))
    (run : Yields (Edit.flatten fn) before done after) :
    Progress (Sound exact bare region) before after := by
  simp only [Edit.flatten, yields_bind, yields_look, symbol_eq_ok] at run
  obtain ⟨module, _, ⟨isModule, rfl⟩, symbol, _, ⟨isFn, rfl⟩, run⟩ := run
  have insideModule := sound.inside_of_expectModule inside isSymbol isModule
  cases defined : symbol.defPoint? with
  | none =>
    simp only [defined] at run
    exact (yields_fail run).elim
  | some definition =>
    simp only [defined, yields_bind, yields_look, yields_pure] at run
    obtain ⟨enclosing?, _, ⟨encloses, rfl⟩, _, _, runRemove, body, _, ⟨isBody, rfl⟩, _, _,
      runInsert, _, rfl⟩ := run
    have insideDefinition : region definition := by
      rw [isFn, Option.any_some, Bool.not_eq_true'] at notModule
      have located := sound.located fn definition inside ⟨_, isFn, notModule, defined⟩
      exact (located.resolve_left not_false).1
    have insideStmt : region (enclosing?.getD definition) := by
      cases enclosing? with
      | none => exact insideDefinition
      | some stmt => exact sound.inside_of_enclosingStmt insideDefinition encloses
    have removed := sound.remove insideStmt runRemove
    have insideBody := removed.kept.orderly.forest.contains insideModule
      (contains_of_moduleBodyList isBody)
    exact removed.trans (removed.kept.insertAtEnd insideBody insideStmt runInsert)

theorem relocate {relocation : Relocation} (knownFn : Known region before fn)
    (isSymbol : (before.kindAt fn).any Kind.isSymbol)
    (run : Yields (Edit.relocate fn) before relocation after) :
    Progress (Sound exact bare region) before after := by
  simp only [Edit.relocate, yields_bind, yields_pure] at run
  obtain ⟨bundle, _, runPass, _, _, runFlatten, _, rfl⟩ := run
  obtain ⟨passed, notModule⟩ := sound.passCaptures knownFn isSymbol runPass
  exact passed.trans
    (passed.kept.flatten knownFn.inside (passed.since.isSymbol isSymbol) notModule runFlatten)

end Sound

end ProgramTree.Program
