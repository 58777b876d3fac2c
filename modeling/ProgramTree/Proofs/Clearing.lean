import ProgramTree.Proofs.BundleClasses
import ProgramTree.Proofs.Stocktaking

/-!
# Relocation clears the bench

Every function that is relocated gets a bundle class, formals, locals and a filled bundle.  All
of these are built on the bench and put in their places, and then the function is moved: the
bench is clear again, and what is used are symbols that the tree holds or held before.
-/

namespace ProgramTree.Program

open Edit

variable {exact : Prop} {region : NodeId → Prop} {bench left taken ids vars : List NodeId}
  {before between after program : Program} {id sym list parent answer linked fn bundle wrap var
    anchor definition : NodeId} {id? : Option NodeId} {done : Unit}

/-! ## Builders -/

/-- A symbol was made and lies on the bench. -/
structure Sketched (exact : Prop) (region : NodeId → Prop) (bench : List NodeId)
    (before : Program) (answer : NodeId) (after : Program) : Prop where
  worked : Worked exact region (answer :: bench) before after
  known : Known region after answer
  symbol : (after.kindAt answer).any Kind.isSymbol

/-- An expression was made and lies on the bench. -/
structure Laid (exact : Prop) (region : NodeId → Prop) (bench : List NodeId)
    (before : Program) (answer : NodeId) (after : Program) : Prop where
  worked : Worked exact region (answer :: bench) before after
  known : Known region after answer
  expr : (after.kindAt answer).any Kind.isExpr

namespace Neat

variable (neat : Neat exact region bench before)
include neat

theorem of_nodes (nodes : after.nodes = before.nodes) (roots : after.roots = before.roots)
    (index : after.index = before.index) : Worked exact region bench before after :=
  .of_made neat ((Sound.workshop exact False region).progress_of_nodes neat.sound nodes roots index)
    (.of_nodes nodes roots)

/-- An edit whose nodes are attributed to another node's place. -/
theorem exists_withLocationOf {α : Type} {edit : Edit α} {given : α}
    (run : Yields (withLocationOf id edit) before given after) :
    ∃ entered inner, Worked exact region bench before entered ∧ Yields edit entered given inner ∧
      ∀ {left}, Neat exact region left inner → Worked exact region left inner after := by
  obtain ⟨node, inner, _, running, rfl⟩ := yields_withLocationOf.mp run
  exact ⟨{ before with givenLocation? := some node.location }, inner, neat.of_nodes rfl rfl rfl,
    running, fun neatInner => neatInner.of_nodes rfl rfl rfl⟩

theorem addFlag {flag : Flag} (run : Yields (Edit.addFlag id flag) before done after) :
    Worked exact region bench before after :=
  .of_made neat (neat.sound.addFlag run) (.of_addFlag run)

theorem newSymbol {name : String} {kind : SymbolKind} (leaf : kind.owned = [])
    (run : Yields (Edit.newSymbol name id? kind) before answer after) :
    Sketched exact region bench before answer after := by
  have made := (Sound.workshop exact False region).newSymbol neat.sound leaf run
  have named : Named region before answer after := .of_newSymbol leaf run
  exact ⟨.of_made neat made.progress named.crafted, made.known, named.symbol⟩

theorem newTemp {name : String} (run : Yields (Edit.newTemp name id?) before answer after) :
    Sketched exact region bench before answer after := by
  have made := (Sound.workshop exact False region).newTemp neat.sound run
  have named : Named region before answer after := .of_newTemp run
  exact ⟨.of_made neat made.progress named.crafted, made.known, named.symbol⟩

/-- The definition of a symbol on the bench takes its place there. -/
theorem define (known : Known region before sym) (stays : ∀ id ∈ bench, id = sym ∨ id ∈ left)
    (run : Yields (Edit.define sym) before answer after) :
    Laid exact region left before answer after := by
  have made := (Sound.workshop exact False region).define neat.sound known run
  obtain ⟨rfl, symbol, defining⟩ := exists_defining run
  have crafted : Crafted region [sym] [before.nextId] before after := defining.crafted
  refine ⟨.of_crafted neat made.progress crafted ?_ (by simp) ?_, made.known,
    by simp [defining.kind_definition, Kind.isExpr]⟩
  · intro id onBench
    exact (stays id onBench).imp (by simp +contextual) (List.mem_cons_of_mem _)
  · simp [definitionOf, defining.kind_sym, Kind.definition?, Kind.symbol?]

theorem newLiteral {value : Literal} (run : Yields (Edit.newLiteral value) before answer after) :
    Laid exact region bench before answer after := by
  obtain ⟨made, isLiteral⟩ := (Sound.workshop exact False region).newNode neat.sound run rfl rfl
  have assembled : Assembled region [] before answer after := .of_newLiteral run
  exact ⟨.of_made neat made.progress assembled.crafted, made.known,
    by simp [isLiteral, Kind.isExpr]⟩

theorem newUse (known : Known region before sym) (symbol : (before.kindAt sym).any Kind.isSymbol)
    (run : Yields (Edit.newUse sym) before answer after) :
    Laid exact region bench before answer after := by
  obtain ⟨made, isUse⟩ := (Sound.workshop exact False region).newNode neat.sound run rfl rfl
  have assembled : Assembled region [] before answer after :=
    .of_newUse ⟨known.inside, symbol⟩ run
  exact ⟨.of_made neat made.progress assembled.crafted, made.known, by simp [isUse, Kind.isExpr]⟩

/-- An operation takes operands that are no symbols from the bench, and uses the others. -/
theorem newPrimitiveCall {operation : Primitive} (taken : List NodeId)
    (known : ∀ id ∈ ids, Known region before id)
    (took : ∀ id ∈ taken, id ∈ ids ∧ (before.kindAt id).any Kind.isExpr)
    (stays : ∀ id ∈ bench, id ∈ taken ∨ id ∈ left)
    (run : Yields (Edit.newPrimitiveCall operation ids) before answer after) :
    Laid exact region left before answer after := by
  have solid : ∀ id ∈ taken, Solid before id := fun id isTaken => by
    obtain ⟨kind, isKind, isExpr⟩ := (Option.any_eq_true _ _).mp (took id isTaken).2
    refine .of_kind isKind ?_
    cases kind with
    | symbol => cases isExpr
    | _ => rfl
  have made := (Sound.workshop exact False region).newPrimitiveCall neat.sound
    (fun id member => .inl (known id member)) run
  have assembled : Assembled region taken before answer after :=
    .of_newPrimitiveCall (fun id member => .inr (known id member).inside)
      (fun id isTaken => ⟨(took id isTaken).1, solid id isTaken⟩) run
  refine ⟨.of_crafted neat made.progress assembled.crafted ?_ (by simp) ?_, made.known, ?_⟩
  · exact fun id onBench => (stays id onBench).imp_right (List.mem_cons_of_mem _)
  · exact fun id isTaken symbol =>
      absurd symbol (assembled.crafted.solid (solid id isTaken)).not_isSymbol
  · obtain ⟨args, middle, _, runCall⟩ := yields_bind.mp run
    simp [kindAt_newHolder runCall, Kind.isExpr]

end Neat

/-! ## Places -/

theorem hung_of_owned {kind : Kind} (inside : region id) (known : program.kindAt id = some kind)
    (noList : kind.isList = false) (owned : list ∈ kind.owned) : Hung region program list :=
  ⟨id, inside, holds_of_owned known owned, by simp [known, noList]⟩

theorem hung_of_fieldList (inside : region id) (looked : program.fieldList id = .ok list) :
    Hung region program list := by
  simp only [fieldList, Fault.bind_eq_ok, kindOf_eq_ok] at looked
  obtain ⟨kind, known, looked⟩ := looked
  split at looked
  · obtain rfl := Fault.pure_eq_ok.mp looked
    exact hung_of_owned inside known rfl (by simp [Kind.owned, TypeKind.owned])
  · simp [fail] at looked

theorem hung_of_callArgs (inside : region id) (looked : program.callArgs id = .ok list) :
    Hung region program list := by
  obtain ⟨callee, known⟩ := callArgs_eq_ok.mp looked
  exact hung_of_owned inside known rfl (by cases callee <;> simp [Kind.owned, Expr.owned])

theorem hung_of_fnFormalsList (inside : region id) (looked : program.fnFormalsList id = .ok list) :
    Hung region program list := by
  obtain ⟨body, retType?, whereExpr?, symbol, known, form⟩ := fnFormalsList_eq_ok.mp looked
  exact hung_of_owned inside known rfl (by simp [Kind.owned, form, SymbolKind.owned])

namespace Sound

variable (sound : Sound exact False region program)
include sound

theorem hung_of_fnBodyList (inside : region id) (looked : program.fnBodyList id = .ok list) :
    Hung region program list := by
  rw [fnBodyList, Fault.bind_eq_ok] at looked
  obtain ⟨body, isBody, inBody⟩ := looked
  exact hung_of_owned (sound.orderly.forest.contains inside (contains_of_fnBody isBody))
    (blockBody_eq_ok.mp inBody) rfl (by simp [Kind.owned, Stmt.owned])

theorem hung_of_moduleBodyList (inside : region id)
    (looked : program.moduleBodyList id = .ok list) : Hung region program list := by
  obtain ⟨block, initFn?, tag, ⟨symbol, known, form⟩, isBlock⟩ := moduleBodyList_eq_ok.mp looked
  have holds : program.Holds id block :=
    holds_of_owned known (by simp [Kind.owned, form, SymbolKind.owned])
  exact hung_of_owned (sound.orderly.forest.held inside holds).1 (blockBody_eq_ok.mp isBlock) rfl
    (by simp [Kind.owned, Stmt.owned])

theorem exists_parent_of_hung (hung : Hung region program list) :
    region list ∧ ∃ parent, program.parentOf list = some parent := by
  obtain ⟨parent, inside, holds, _⟩ := hung
  exact (sound.orderly.forest.held inside holds).imp_right fun named => ⟨parent, named⟩

end Sound

/-- The definition of a symbol on the bench is put into a list that hangs somewhere. -/
theorem Neat.defineInto {listEnd : ListEnd} (neat : Neat exact region (sym :: bench) before)
    (known : Known region before sym)
    (runDefine : Yields (Edit.define sym) before definition between)
    (insideList : region list) (named : between.parentOf list = some parent)
    (runInsert : Yields (Edit.insertAtEnd listEnd list definition) between linked after) :
    Worked exact region bench before after := by
  have laid : Laid exact region bench before definition between :=
    neat.define known (by simp) runDefine
  exact laid.worked.trans
    (laid.worked.neat.insertAtEnd laid.expr laid.known.inside named insideList runInsert)

/-! ## The bundle class -/

theorem Neat.addField {name : String} (neat : Neat exact region bench before)
    (known : Known region before bundle)
    (run : Yields (Edit.addField bundle name id?) before answer after) :
    Worked exact region bench before after := by
  simp only [Edit.addField, yields_bind, yields_look, yields_pure] at run
  obtain ⟨fields, _, ⟨isFields, rfl⟩, field, made, runVar, definition, defined, runDefine, _, _,
    runInsert, rfl, rfl⟩ := run
  obtain ⟨insideFields, parent, named⟩ :=
    neat.sound.exists_parent_of_hung (hung_of_fieldList known.inside isFields)
  have sketched := neat.newSymbol rfl runVar
  have laid : Laid exact region bench made definition defined :=
    sketched.worked.neat.define sketched.known (by simp) runDefine
  have untilLaid := sketched.worked.trans laid.worked
  exact untilLaid.trans (laid.worked.neat.insertAtEnd laid.expr laid.known.inside
    (untilLaid.parents named) insideFields runInsert)

theorem Neat.addBundleField {place : Nat} (neat : Neat exact region bench before)
    (known : Known region before bundle)
    (run : Yields (Edit.addBundleField bundle var place) before done after) :
    Worked exact region bench before after := by
  have adding : ∀ {middle name id?}, Worked exact region bench before middle →
      ∀ field, Yields (Edit.addField bundle name id?) middle field after →
      Worked exact region bench before after := fun worked _ run =>
    worked.trans (worked.neat.addField (known.since worked.since) run)
  rw [Edit.addBundleField, yields_bind] at run
  obtain ⟨type?, origin, looked, run⟩ := run
  obtain ⟨_, rfl⟩ := yields_look.mp looked
  cases type? with
  | none =>
    simp only [yields_bind, yields_look, yields_pure] at run
    obtain ⟨_, _, ⟨_, rfl⟩, _, _, runField, _, rfl⟩ := run
    exact adding (.refl neat) _ runField
  | some type =>
    simp only [yields_bind, yields_look, yields_ite, yields_pure] at run
    obtain ⟨_, _, ⟨_, rfl⟩, ⟨_, _, _, runFlag, run⟩ | ⟨_, run⟩⟩ := run
    · obtain ⟨_, _, ⟨_, rfl⟩, _, _, runField, _, rfl⟩ := run
      exact adding (neat.addFlag runFlag) _ runField
    · obtain ⟨_, _, ⟨_, rfl⟩, _, _, runField, _, rfl⟩ := run
      exact adding (.refl neat) _ runField

/-- What keeps programs neat item by item keeps them neat. -/
theorem Worked.of_forM {β : Type} {items : List β} {edit : β → Edit Unit}
    (neat : Neat exact region bench before) (run : Yields (items.forM edit) before () after)
    (each : ∀ middle later item, item ∈ items → Worked exact region bench before middle →
      Yields (edit item) middle () later → Worked exact region bench middle later) :
    Worked exact region bench before after := by
  induction items generalizing before with
  | nil =>
    obtain rfl := yields_forM_nil.mp run
    exact .refl neat
  | cons first rest ih =>
    obtain ⟨middle, runFirst, runRest⟩ := yields_forM_cons.mp run
    have worked := each _ _ _ (by simp) (.refl neat) runFirst
    exact worked.trans <| ih worked.neat runRest fun middle later item member further =>
      each middle later item (by simp [member]) (worked.trans further)

theorem Neat.newBundleClass {module : NodeId} (neat : Neat exact region [] before)
    (insideModule : region module)
    (run : Yields (Edit.newBundleClass vars module fn) before bundle after) :
    Worked exact region [] before after ∧ IsBundle region after bundle := by
  refine ⟨?_, (neat.sound.newBundleClass insideModule run).2⟩
  simp only [Edit.newBundleClass, yields_bind, yields_look, yields_pure] at run
  obtain ⟨_, origin, ⟨_, rfl⟩, bundle, _, runClass, naming, classed, runNaming, _, _, runObject,
    _, flagged, runWide, _, filled, runFields, definition, _, runDefine, body, defined,
    ⟨isBody, rfl⟩, _, _, runInsert, rfl, rfl⟩ := run
  obtain ⟨madeClass, symbol, _, knownSymbol, isClass⟩ :=
    (Sound.workshop exact False region).newAggregateType neat.sound runClass
  obtain ⟨sym, fields, crafted, _, isNamed⟩ := Crafted.of_newAggregateType region runClass
  obtain ⟨rfl, isSymbol⟩ := bundleSymbol_eq isClass runNaming
  obtain rfl : symbol = sym := by simp_all
  obtain rfl : symbol = naming := Option.some.inj isSymbol
  have first : Worked exact region [symbol] origin classed :=
    .of_made neat madeClass.progress crafted
  have object := first.neat.addFlag runObject
  have flagging := object.trans (object.neat.addFlag runWide)
  have filling : Worked exact region [symbol] flagged filled :=
    .of_forM flagging.neat runFields fun middle later item _ worked run =>
      worked.neat.addBundleField (madeClass.known.since (flagging.trans worked).since) run
  have untilFilled := flagging.trans filling
  have knownNaming := knownSymbol.since untilFilled.since
  have laid : Laid exact region [] filled definition defined :=
    untilFilled.neat.define knownNaming (by simp) runDefine
  obtain ⟨insideBody, parent, named⟩ := laid.worked.neat.sound.exists_parent_of_hung
    (laid.worked.neat.sound.hung_of_moduleBodyList insideModule isBody)
  exact (first.trans untilFilled).trans
    (untilFilled.neat.defineInto knownNaming runDefine insideBody named runInsert)

/-! ## The inside of the function -/

theorem Neat.insertFormalAtTail (neat : Neat exact region (sym :: bench) before)
    (knownFn : Known region before fn) (known : Known region before sym)
    (run : Yields (Edit.insertFormalAtTail fn sym) before done after) :
    Worked exact region bench before after := by
  simp only [Edit.insertFormalAtTail, yields_bind, yields_look, yields_pure] at run
  obtain ⟨definition, _, runDefine, formals, defined, ⟨isFormals, rfl⟩, _, _, runInsert, _,
    rfl⟩ := run
  have laid : Laid exact region bench before definition defined :=
    neat.define known (by simp) runDefine
  obtain ⟨insideFormals, parent, named⟩ := laid.worked.neat.sound.exists_parent_of_hung
    (hung_of_fnFormalsList knownFn.inside isFormals)
  exact neat.defineInto known runDefine insideFormals named runInsert

theorem Worked.mono (worked : Worked exact region bench before after) (more : bench ⊆ left) :
    Worked exact region left before after :=
  { worked with neat := worked.neat.mono more }

/-- The statements of an unpacked variable can be inserted, and its local can be used. -/
structure Ready (region : NodeId → Prop) (program : Program) (unpacked : Unpacked) : Prop where
  stmts : ∀ stmt ∈ unpacked.stmts,
    Known region program stmt ∧ (program.kindAt stmt).any Kind.isExpr
  known : Known region program unpacked.localVar
  symbol : (program.kindAt unpacked.localVar).any Kind.isSymbol

theorem Ready.since {unpacked : Unpacked} (ready : Ready region before unpacked)
    (since : Since before after) : Ready region after unpacked where
  stmts stmt member := (ready.stmts stmt member).imp (·.since since) since.isExpr
  known := ready.known.since since
  symbol := since.isSymbol ready.symbol

theorem Neat.unpackVar {place : Nat} {unpacked : Unpacked} (neat : Neat exact region bench before)
    (knownWrap : Known region before wrap) (knownBundle : Known region before bundle)
    (run : Yields (Edit.unpackVar wrap bundle var place) before unpacked after) :
    Worked exact region (unpacked.stmts ++ bench) before after ∧ Ready region after unpacked := by
  rw [Edit.unpackVar, yields_bind] at run
  obtain ⟨member, origin, runMember, run⟩ := run
  obtain ⟨rfl, knownMember⟩ := neat.sound.bundleField knownBundle runMember
  obtain ⟨entered, left, entering, run, leaving⟩ := neat.exists_withLocationOf run
  simp only [yields_bind, yields_look, yields_pure] at run
  obtain ⟨_, _, ⟨_, rfl⟩, _, _, ⟨_, rfl⟩, localVar, _, runVar, value, valued, runValue, definition,
    defined, runDefine, set, _, runSet, rfl, rfl⟩ := run
  have sketched := entering.neat.newTemp runVar
  have untilVar := entering.trans sketched.worked
  have laidValue : Laid exact region (localVar :: bench) _ value valued :=
    sketched.worked.neat.newPrimitiveCall []
      (by simpa using ⟨knownWrap.since untilVar.since, knownMember.since untilVar.since⟩)
      (by simp) (by simp) runValue
  have laidDefinition : Laid exact region (value :: bench) valued definition defined :=
    laidValue.worked.neat.define (sketched.known.since laidValue.worked.since)
      (by simp +contextual) runDefine
  have untilDefinition := laidValue.worked.trans laidDefinition.worked
  have knownLocal := sketched.known.since untilDefinition.since
  have laidSet : Laid exact region (definition :: bench) defined set left :=
    laidDefinition.worked.neat.newPrimitiveCall [value]
      (by simpa using ⟨knownLocal, laidValue.known.since laidDefinition.worked.since⟩)
      (by simpa using laidDefinition.worked.since.isExpr laidValue.expr) (by simp +contextual)
      runSet
  have untilSet := untilDefinition.trans laidSet.worked
  have last := leaving laidSet.worked.neat
  have afterDefinition := laidSet.worked.trans last
  refine ⟨((untilVar.trans untilSet).trans last).mono (by simp), ⟨?_, ?_, ?_⟩⟩
  · simpa using ⟨⟨laidDefinition.known.since afterDefinition.since,
      afterDefinition.since.isExpr laidDefinition.expr⟩,
      laidSet.known.since last.since, last.since.isExpr laidSet.expr⟩
  · exact sketched.known.since (untilSet.trans last).since
  · exact (untilSet.trans last).since.isSymbol sketched.symbol

/-- Every unpacked variable adds its statements to the bench. -/
theorem Neat.unpackVars {items : List (NodeId × Nat)} {unpacked : List Unpacked}
    (neat : Neat exact region bench before) (knownWrap : Known region before wrap)
    (knownBundle : Known region before bundle)
    (run : Yields (items.mapM fun (var, place) => Edit.unpackVar wrap bundle var place)
      before unpacked after) :
    Worked exact region (unpacked.flatMap Unpacked.stmts ++ bench) before after ∧
      ∀ entry ∈ unpacked, Ready region after entry := by
  induction items generalizing before bench unpacked with
  | nil =>
    obtain ⟨rfl, rfl⟩ := yields_pure.mp run
    exact ⟨.refl neat, nofun⟩
  | cons first rest ih =>
    simp only [List.mapM_cons, yields_bind, yields_pure] at run
    obtain ⟨entry, middle, runFirst, later, _, runRest, rfl, rfl⟩ := run
    obtain ⟨worked, ready⟩ := neat.unpackVar knownWrap knownBundle runFirst
    obtain ⟨workedRest, readyRest⟩ := ih worked.neat (knownWrap.since worked.since)
      (knownBundle.since worked.since) runRest
    refine ⟨(worked.trans workedRest).mono ?_, List.forall_mem_cons.mpr
      ⟨ready.since workedRest.since, readyRest⟩⟩
    intro id member
    simp only [List.flatMap_cons, List.mem_append] at member ⊢
    tauto

/-- Statements from the bench go into a list, each right behind the one before it. -/
theorem Neat.insertAllAtHead {stmts : List NodeId} (neat : Neat exact region stmts before)
    (ready : ∀ stmt ∈ stmts, Known region before stmt ∧ (before.kindAt stmt).any Kind.isExpr)
    (insideList : region list) (named : before.parentOf list = some parent)
    (run : Yields (Edit.insertAllAtHead list stmts) before done after) :
    Worked exact region [] before after := by
  have behind : ∀ (rest : List NodeId) (anchor last : NodeId) (middle : Program),
      Neat exact region rest middle → region anchor →
      (∀ stmt ∈ rest, Known region middle stmt ∧ (middle.kindAt stmt).any Kind.isExpr) →
      Yields (rest.foldlM Edit.insertAfter anchor) middle last after →
      Worked exact region [] middle after := by
    intro rest
    induction rest with
    | nil =>
      intro anchor last middle neat _ _ run
      obtain ⟨rfl, rfl⟩ := yields_pure.mp run
      exact .refl neat
    | cons stmt rest ih =>
      intro anchor last middle neat insideAnchor ready run
      rw [List.foldlM_cons, yields_bind] at run
      obtain ⟨linked, next, runInsert, run⟩ := run
      obtain ⟨⟨known, isExpr⟩, readyRest⟩ := List.forall_mem_cons.mp ready
      have inserted := neat.insertBeside isExpr known.inside insideAnchor
        (fun other member => (readyRest other member).2) runInsert
      refine inserted.trans (ih linked last next inserted.neat ?_ ?_ run)
      · exact neat.sound.inside_of_insertBeside known.inside runInsert
      · exact fun other member =>
          (readyRest other member).imp (·.since inserted.since) inserted.since.isExpr
  cases stmts with
  | nil =>
    obtain ⟨_, rfl⟩ := yields_pure.mp run
    exact .refl neat
  | cons first rest =>
    simp only [Edit.insertAllAtHead, yields_bind, yields_pure] at run
    obtain ⟨linked, next, runInsert, last, _, run, _, rfl⟩ := run
    obtain ⟨⟨known, isExpr⟩, readyRest⟩ := List.forall_mem_cons.mp ready
    have inserted := neat.insertAtEnd isExpr known.inside named insideList runInsert
    refine inserted.trans (behind rest linked last next inserted.neat ?_ ?_ run)
    · exact neat.sound.inside_of_insertAtEnd known.inside runInsert
    · exact fun other member =>
        (readyRest other member).imp (·.since inserted.since) inserted.since.isExpr

/-- The table sends variables to symbols of the region. -/
def Sends (region : NodeId → Prop) (program : Program) (table : Remap) : Prop :=
  ∀ var localVar : NodeId, table[var]? = some localVar →
    Known region program localVar ∧ (program.kindAt localVar).any Kind.isSymbol

theorem sends_foldl {unpacked : List Unpacked} {table : Remap} (sends : Sends region program table)
    (ready : ∀ entry ∈ unpacked, Ready region program entry) :
    Sends region program
      (unpacked.foldl (fun table entry => table.insert entry.var entry.localVar) table) := by
  induction unpacked generalizing table with
  | nil => exact sends
  | cons first rest ih =>
    obtain ⟨readyFirst, readyRest⟩ := List.forall_mem_cons.mp ready
    refine ih (fun var localVar entry => ?_) readyRest
    rw [Std.ExtTreeMap.getElem?_insert] at entry
    split at entry
    · obtain rfl := Option.some.inj entry
      exact ⟨readyFirst.known, readyFirst.symbol⟩
    · exact sends var localVar entry

theorem Neat.unpackBundle {table : Remap} (neat : Neat exact region [] before)
    (knownFn : Known region before fn) (knownWrap : Known region before wrap)
    (knownBundle : Known region before bundle)
    (run : Yields (Edit.unpackBundle fn vars wrap bundle) before table after) :
    Worked exact region [] before after ∧ Sends region after table := by
  simp only [Edit.unpackBundle, yields_bind, yields_look, yields_pure] at run
  obtain ⟨unpacked, _, runVars, body, unpacking, ⟨isBody, rfl⟩, _, _, runInsert, rfl, rfl⟩ := run
  obtain ⟨worked, ready⟩ := neat.unpackVars knownWrap knownBundle runVars
  obtain ⟨insideBody, parent, named⟩ := worked.neat.sound.exists_parent_of_hung
    (worked.neat.sound.hung_of_fnBodyList knownFn.inside isBody)
  have inserted := (worked.neat.mono (by simp)).insertAllAtHead (fun stmt member => ?_) insideBody
    named runInsert
  · exact ⟨worked.trans inserted, sends_foldl (by simp [Sends]) fun entry isEntry =>
      (ready entry isEntry).since inserted.since⟩
  · obtain ⟨entry, isEntry, isStmt⟩ := List.mem_flatMap.mp member
    exact (ready entry isEntry).stmts stmt isStmt

/-- A use of another symbol of the region. -/
theorem Neat.setUsedSymbol (neat : Neat exact region bench before) (inside : region id)
    (known : Known region before sym) (symbol : (before.kindAt sym).any Kind.isSymbol)
    (run : Yields (Edit.setUsedSymbol id sym) before done after) :
    Worked exact region bench before after := by
  have progress := (Sound.workshop exact False region).setUsedSymbol neat.sound inside run
  simp only [Edit.setUsedSymbol, yields_bind, yields_look, kindOf_eq_ok] at run
  obtain ⟨kind, origin, ⟨isUse, rfl⟩, run⟩ := run
  split at run
  · rename_i old
    obtain ⟨_, changed⟩ := yields_change.mp run
    have kinds : ∀ other, after.kindAt other =
        if other = id then some (.expr (.use sym)) else origin.kindAt other :=
      fun other => changed ▸ kindAt_setKind isUse
    have parents : ∀ other, after.parentOf other = origin.parentOf other :=
      fun other => changed ▸ parentOf_setKind
    have knownBefore : ∀ {other}, Known region after other → Known region origin other := by
      intro other known
      refine ⟨known.inside, ?_⟩
      have issued := known.issued
      rw [changed] at issued
      simpa [get?_modifyNode_map] using issued
    refine ⟨⟨progress.kept, ⟨fun other knownOther free => ?_,
      fun {other used} knownOther uses => ?_, fun {other} knownOther isSymbol => ?_⟩⟩,
      progress.since, fun named => (parents _).trans named⟩
    · rw [parents] at free
      rcases neat.stocked.accounted other (knownBefore knownOther) free with
        isRoot | onBench | ⟨holds, isList⟩
      · exact .inl (by rwa [changed, roots_modifyNode])
      · exact .inr (.inl onBench)
      · have different : other ≠ id := by
          rintro rfl
          simp [isUse] at isList
        exact .inr (.inr ⟨holds, by rw [kinds, if_neg different, isList]⟩)
    · rw [Uses, kinds] at uses
      split at uses
      · obtain rfl : sym = used := by simpa using uses
        exact ⟨known.since progress.since, progress.since.isSymbol symbol⟩
      · exact (neat.stocked.uses (knownBefore knownOther) uses).imp (·.since progress.since)
          progress.since.isSymbol
    · rw [kinds] at isSymbol
      split at isSymbol
      · simp [Kind.isSymbol, Kind.symbol?] at isSymbol
      · next different =>
        rw [definitionOf, kinds, if_neg different, ← definitionOf]
        exact neat.stocked.defined (knownBefore knownOther) isSymbol
  · exact (yields_fail run).elim

theorem Neat.replaceUse {table : Remap} (neat : Neat exact region bench before)
    (inside : region id) (sends : Sends region before table)
    (run : Yields (Edit.replaceUse table id) before done after) :
    Worked exact region bench before after := by
  have unchanged : Yields (pure () : Edit Unit) before done after →
      Worked exact region bench before after := by
    intro run
    obtain ⟨_, rfl⟩ := yields_pure.mp run
    exact .refl neat
  rw [Edit.replaceUse, yields_bind] at run
  obtain ⟨used?, _, looked, run⟩ := run
  obtain ⟨_, rfl⟩ := yields_look.mp looked
  cases used? with
  | none => exact unchanged run
  | some var =>
    cases entry : table[var]? with
    | none =>
      simp only [entry] at run
      exact unchanged run
    | some localVar =>
      simp only [entry] at run
      obtain ⟨known, symbol⟩ := sends var localVar entry
      exact neat.setUsedSymbol inside known symbol run

theorem Neat.replaceUses {table : Remap} {root : NodeId} (neat : Neat exact region bench before)
    (inside : region root) (sends : Sends region before table)
    (run : Yields (Edit.replaceUses table root) before done after) :
    Worked exact region bench before after := by
  simp only [Edit.replaceUses, yields_bind, yields_look] at run
  obtain ⟨nodes, _, ⟨walked, rfl⟩, run⟩ := run
  refine .of_forM neat run fun middle later id member worked run => ?_
  have contained := (mem_subtree walked).mp member
  refine worked.neat.replaceUse (neat.sound.orderly.forest.contains inside contained) ?_ run
  exact fun var localVar entry =>
    (sends var localVar entry).imp (·.since worked.since) worked.since.isSymbol

/-! ## The call -/

theorem Neat.defineBefore (neat : Neat exact region (sym :: bench) before)
    (exprs : ∀ id ∈ bench, (before.kindAt id).any Kind.isExpr) (insideAnchor : region anchor)
    (known : Known region before sym)
    (run : Yields (Edit.defineBefore anchor sym) before done after) :
    Worked exact region bench before after := by
  simp only [Edit.defineBefore, yields_bind, yields_pure] at run
  obtain ⟨definition, defined, runDefine, _, _, runInsert, _, rfl⟩ := run
  have laid : Laid exact region bench before definition defined :=
    neat.define known (by simp) runDefine
  exact laid.worked.trans (laid.worked.neat.insertBeside laid.expr laid.known.inside insideAnchor
    (fun id onBench => laid.worked.since.isExpr (exprs id onBench)) runInsert)

/-- An operation that takes what lies on the bench is put before a statement. -/
theorem Neat.callBefore {call : NodeId} {operation : Primitive} {operands : List NodeId}
    (neat : Neat exact region bench before) (insideAnchor : region anchor)
    (known : ∀ id ∈ operands, Known region before id)
    (takes : ∀ id ∈ bench, id ∈ operands ∧ (before.kindAt id).any Kind.isExpr)
    (runCall : Yields (Edit.newPrimitiveCall operation operands) before call between)
    (runInsert : Yields (Edit.insertBefore anchor call) between linked after) :
    Worked exact region [] before after := by
  have laid : Laid exact region [] before call between :=
    neat.newPrimitiveCall bench known takes (by simp +contextual) runCall
  exact laid.worked.trans
    (laid.worked.neat.insertBeside laid.expr laid.known.inside insideAnchor (by simp) runInsert)

theorem Neat.passUse {args use : NodeId} (neat : Neat exact region bench before)
    (known : Known region before var) (symbol : (before.kindAt var).any Kind.isSymbol)
    (insideArgs : region args) (named : before.parentOf args = some parent)
    (runUse : Yields (Edit.newUse var) before use between)
    (runInsert : Yields (Edit.insertAtTail args use) between linked after) :
    Worked exact region bench before after := by
  have laid := neat.newUse known symbol runUse
  exact laid.worked.trans (laid.worked.neat.insertAtEnd laid.expr laid.known.inside
    (laid.worked.parents named) insideArgs runInsert)

theorem Neat.storeVars {bundleVar : NodeId} (neat : Neat exact region [] before)
    (insideAnchor : region anchor) (knownVar : Known region before bundleVar)
    (knownBundle : Known region before bundle) (known : ∀ var ∈ vars, Known region before var)
    (run : Yields (vars.zipIdx.forM fun (var, place) => do
      let member ← Edit.bundleField bundle place
      let _ ← Edit.insertBefore anchor
        (← Edit.newPrimitiveCall .setMember [bundleVar, member, var])) before () after) :
    Worked exact region [] before after := by
  refine .of_forM neat run fun middle later item isItem worked run => ?_
  simp only [yields_bind, yields_pure] at run
  obtain ⟨member, _, runMember, call, _, runCall, _, _, runInsert, _, rfl⟩ := run
  obtain ⟨rfl, knownMember⟩ :=
    worked.neat.sound.bundleField (knownBundle.since worked.since) runMember
  refine worked.neat.callBefore insideAnchor ?_ (by simp) runCall runInsert
  have isVar : item.1 ∈ vars := (List.mem_zipIdx' isItem).2 ▸ List.getElem_mem _
  simpa using ⟨knownVar.since worked.since, knownMember, (known item.1 isVar).since worked.since⟩

theorem Neat.passBundle {call : NodeId} (neat : Neat exact region [] before)
    (knownCall : Known region before call) (isBundle : IsBundle region before bundle)
    (known : ∀ var ∈ vars, Known region before var)
    (run : Yields (Edit.passBundle call fn vars bundle) before done after) :
    Worked exact region [] before after := by
  rw [Edit.passBundle, yields_bind] at run
  obtain ⟨anchor?, _, looked, run⟩ := run
  obtain ⟨isAnchor, rfl⟩ := yields_look.mp looked
  cases anchor? with
  | none =>
    obtain ⟨_, _, never, _⟩ := yields_bind.mp run
    exact (yields_fail never).elim
  | some anchor =>
    have insideAnchor := neat.sound.inside_of_enclosingStmt knownCall.inside isAnchor
    simp only [yields_bind, yields_look, yields_pure] at run
    obtain ⟨_, _, ⟨rfl, rfl⟩, naming, _, runNaming, _, origin, ⟨_, rfl⟩, run⟩ := run
    obtain ⟨rfl, knownNaming⟩ := neat.sound.bundleSymbol isBundle runNaming
    obtain ⟨entered, left, entering, run, leaving⟩ := neat.exists_withLocationOf run
    simp only [yields_bind, yields_look, yields_pure] at run
    obtain ⟨instanceVar, _, runVar, _, defined, runDefine, description, _, runDescription, alloc, _,
      runAlloc, set, _, runSet, _, allocated, runSetInsert, _, stored, runStores, erased, _,
      runErased, _, _, runErasedDefine, cast, _, runCast, move, _, runMove, _, moved, runMoveInsert,
      args, _, ⟨isArgs, rfl⟩, erasedUse, _, runErasedUse, _, _, runErasedPass, bundleUse, _,
      runBundleUse, _, _, runBundlePass, _, rfl⟩ := run
    have instanced := entering.neat.newTemp runVar
    have untilVar := entering.trans instanced.worked
    -- from here on, what has happened since the variable was made
    have first :=
      instanced.worked.neat.defineBefore (by simp) insideAnchor instanced.known runDefine
    have laidDescription := first.neat.newLiteral runDescription
    have second := first.trans laidDescription.worked
    have laidAlloc : Laid exact region [] _ alloc _ :=
      second.neat.newPrimitiveCall [description]
        (by simpa using ⟨knownNaming.since (untilVar.trans second).since, laidDescription.known⟩)
        (by simpa using laidDescription.expr) (by simp) runAlloc
    have third := second.trans laidAlloc.worked
    have fourth := third.trans <| third.neat.callBefore insideAnchor
      (by simpa using ⟨instanced.known.since third.since, laidAlloc.known⟩)
      (by simpa using laidAlloc.expr) runSet runSetInsert
    have untilFourth := untilVar.trans fourth
    have fifth := fourth.trans <| fourth.neat.storeVars insideAnchor
      (instanced.known.since fourth.since) (isBundle.known.since untilFourth.since)
      (fun var isVar => (known var isVar).since untilFourth.since) runStores
    have sketchedErased := fifth.neat.newTemp runErased
    have sixth := fifth.trans sketchedErased.worked
    have definedErased :=
      sixth.neat.defineBefore (by simp) insideAnchor sketchedErased.known runErasedDefine
    have seventh := sixth.trans definedErased
    have laidCast : Laid exact region [] _ cast _ :=
      seventh.neat.newPrimitiveCall [] (by simpa using instanced.known.since seventh.since)
        (by simp) (by simp) runCast
    have eighth := seventh.trans laidCast.worked
    have sinceErased := definedErased.trans laidCast.worked
    have moving := eighth.neat.callBefore insideAnchor
      (by simpa using ⟨sketchedErased.known.since sinceErased.since, laidCast.known⟩)
      (by simpa using laidCast.expr) runMove runMoveInsert
    have ninth := eighth.trans moving
    obtain ⟨insideArgs, parent, named⟩ := ninth.neat.sound.exists_parent_of_hung
      (hung_of_callArgs knownCall.inside isArgs)
    have sinceMoved := sinceErased.trans moving
    have passing := ninth.neat.passUse (sketchedErased.known.since sinceMoved.since)
      (sinceMoved.since.isSymbol sketchedErased.symbol) insideArgs named runErasedUse runErasedPass
    have tenth := ninth.trans passing
    have last := tenth.trans <| tenth.neat.passUse (instanced.known.since tenth.since)
      (tenth.since.isSymbol instanced.symbol) insideArgs (passing.parents named) runBundleUse
      runBundlePass
    exact (untilVar.trans last).trans (leaving last.neat)

/-! ## The whole relocation -/

theorem uses_of_usedOuterVar (looked : program.usedOuterVar fn id = .ok (some var)) :
    program.Uses id var := by
  simp only [usedOuterVar, Fault.bind_eq_ok] at looked
  obtain ⟨used?, used, looked⟩ := looked
  split at looked
  · simp [Fault.pure_eq_ok] at looked
  · simp only [Fault.bind_eq_ok] at looked
    obtain ⟨_, _, looked⟩ := looked
    rcases Fault.ite_eq_ok.mp looked with ⟨_, looked⟩ | ⟨_, looked⟩
    · obtain ⟨outer, _, looked⟩ := Fault.bind_eq_ok.mp looked
      obtain ⟨_, rfl⟩ : outer = true ∧ _ = var := by simpa [Fault.pure_eq_ok] using looked
      exact usedSymbol_eq_some.mp used
    · simp [Fault.pure_eq_ok] at looked

/-- A captured variable is a symbol of the region. -/
theorem Neat.known_of_captures {captures : List Capture} (neat : Neat exact region bench program)
    (knownFn : Known region program fn) (looked : program.captures fn = .ok captures) :
    ∀ var ∈ bundledVars captures, Known region program var := by
  intro var isBundled
  obtain ⟨capture, isCapture, rfl⟩ := List.mem_map.mp isBundled
  obtain ⟨id, contained, used⟩ :=
    exists_used_of_captures looked capture (List.mem_of_mem_filter isCapture)
  exact (neat.stocked.uses (neat.sound.known_of_contains knownFn contained)
    (uses_of_usedOuterVar used)).1

theorem Neat.passCaptures (neat : Neat exact region [] before) (knownFn : Known region before fn)
    (isSymbol : (before.kindAt fn).any Kind.isSymbol)
    (run : Yields (Edit.passCaptures fn) before bundle after) :
    Worked exact region [] before after := by
  rw [Edit.passCaptures, yields_bind] at run
  obtain ⟨call, _, runSite, run⟩ := run
  obtain ⟨rfl, knownCall⟩ := neat.sound.singleCallSite runSite
  obtain ⟨entered, left, entering, run, leaving⟩ := neat.exists_withLocationOf run
  simp only [yields_bind, yields_look, yields_pure] at run
  obtain ⟨captures, _, ⟨isCaptures, rfl⟩, module, origin, ⟨isModule, rfl⟩, bundle, _, runClass,
    untyped, _, runUntyped, _, _, runFlag, _, _, runFormal, wrap, _, runWrap, _, _, runWrapFormal,
    table, _, runUnpack, body, _, ⟨isBody, rfl⟩, _, _, runReplace, _, _, runPass, rfl, rfl⟩ := run
  have insideModule := entering.neat.sound.inside_of_expectModule knownFn.inside
    (entering.since.isSymbol isSymbol) isModule
  have knownVars :=
    entering.neat.known_of_captures (knownFn.since entering.since) isCaptures
  obtain ⟨classed, isBundle⟩ := entering.neat.newBundleClass insideModule runClass
  have untilClass := entering.trans classed
  -- from here on, what has happened since the class was made
  have untypedMade := classed.neat.newSymbol rfl runUntyped
  have flagged := untypedMade.worked.neat.addFlag runFlag
  have first := untypedMade.worked.trans flagged
  have second := first.trans <| first.neat.insertFormalAtTail
    (knownFn.since (untilClass.trans first).since) (untypedMade.known.since flagged.since) runFormal
  have wrapMade := second.neat.newSymbol rfl runWrap
  have third := second.trans wrapMade.worked
  have formal := third.neat.insertFormalAtTail
    (knownFn.since (untilClass.trans third).since) wrapMade.known runWrapFormal
  have fourth := third.trans formal
  have untilFourth := untilClass.trans fourth
  obtain ⟨unpacked, sends⟩ := fourth.neat.unpackBundle (knownFn.since untilFourth.since)
    (wrapMade.known.since formal.since) (isBundle.known.since fourth.since) runUnpack
  have fifth := fourth.trans unpacked
  have insideBody :=
    fifth.neat.sound.orderly.forest.contains knownFn.inside (contains_of_fnBody isBody)
  have sixth := fifth.trans (fifth.neat.replaceUses insideBody sends runReplace)
  have passed := sixth.neat.passBundle (knownCall.since (untilClass.trans sixth).since)
    (isBundle.since sixth.since)
    (fun var isVar => (knownVars var isVar).since (classed.trans sixth).since) runPass
  exact (untilClass.trans (sixth.trans passed)).trans (leaving passed.neat)

theorem Neat.flatten (neat : Neat exact region [] before) (inside : region fn)
    (isSymbol : (before.kindAt fn).any Kind.isSymbol)
    (notModule : (before.kindAt fn).any (!·.isModule))
    (run : Yields (Edit.flatten fn) before done after) : Neat exact region [] after := by
  have sound := neat.sound
  simp only [Edit.flatten, yields_bind, yields_look, symbol_eq_ok] at run
  obtain ⟨module, _, ⟨isModule, rfl⟩, symbol, _, ⟨isFn, rfl⟩, run⟩ := run
  have insideModule := sound.inside_of_expectModule inside isSymbol isModule
  cases defined : symbol.defPoint? with
  | none =>
    simp only [defined] at run
    exact (yields_fail run).elim
  | some definition =>
    simp only [defined, yields_bind, yields_look, yields_pure] at run
    obtain ⟨enclosing?, _, ⟨encloses, rfl⟩, _, _, runRemove, body, _, ⟨isBody, rfl⟩, _, _,
      runInsert, _, rfl⟩ := run
    have insideDefinition : region definition := by
      rw [isFn, Option.any_some, Bool.not_eq_true'] at notModule
      have located := sound.located fn definition inside ⟨_, isFn, notModule, defined⟩
      exact (located.resolve_left not_false).1
    have insideStmt : region (enclosing?.getD definition) := by
      cases enclosing? with
      | none => exact insideDefinition
      | some stmt => exact sound.inside_of_enclosingStmt insideDefinition encloses
    have removed := sound.remove insideStmt runRemove
    exact neat.move insideStmt runRemove (removed.kept.hung_of_moduleBodyList insideModule isBody)
      runInsert

theorem Neat.relocate {relocation : Relocation} (neat : Neat exact region [] before)
    (knownFn : Known region before fn) (isSymbol : (before.kindAt fn).any Kind.isSymbol)
    (run : Yields (Edit.relocate fn) before relocation after) : Neat exact region [] after := by
  simp only [Edit.relocate, yields_bind, yields_pure] at run
  obtain ⟨bundle, _, runPass, _, _, runFlatten, _, rfl⟩ := run
  have passed := neat.passCaptures knownFn isSymbol runPass
  obtain ⟨_, notModule⟩ := neat.sound.passCaptures knownFn isSymbol runPass
  exact passed.neat.flatten knownFn.inside (passed.since.isSymbol isSymbol) notModule runFlatten

end ProgramTree.Program
