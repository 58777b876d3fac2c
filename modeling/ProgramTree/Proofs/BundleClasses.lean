import ProgramTree.Proofs.Fragments

/-!
# Bundle classes

The class that the captured variables of a function are passed in: it is defined at the head
of the module and has one field for each variable, of the type of the variable and in their
order.  What is read off the class later is that field.
-/

namespace ProgramTree.Program

open Edit

variable {origin before between after : Program} {touched : NodeId → Prop}
  {bundle naming fields fn module var list answer : NodeId} {vars definitions : List NodeId}
  {done : Unit}

/-- A new variable of the type that `var` has in `origin`, with these flags. -/
def Mirrors (origin program : Program) (flags : FlagSet) (definition var id : NodeId) : Prop :=
  ∃ name type?, origin.typeOf var = .ok type? ∧
    Declares origin program definition id { name, type?, flags, kind := .var }

/-- A new class with one field for each variable, of the type of the variable.  The members
pair the variables with their fields. -/
def IsClass (origin program : Program) (bundle naming : NodeId) (members : List (NodeId × NodeId)) :
    Prop :=
  ∃ fields definitions,
    Added origin program bundle
      (.type { symbol? := some naming, kind := .aggregate .classTag fields }) ∧
    Added origin program fields (.list .defs definitions.toArray) ∧
    List.Forall₂ (fun definition member => Mirrors origin program ∅ definition member.1 member.2)
      definitions members

theorem Mirrors.keep {flags : FlagSet} {definition id : NodeId}
    (mirrors : Mirrors origin before flags definition var id)
    (revision : Revision origin touched before after)
    (spared : ∀ id, touched id → ¬ origin.New id ∨ (before.kindAt id).any Kind.isList) :
    Mirrors origin after flags definition var id := by
  obtain ⟨name, type?, isType, declares⟩ := mirrors
  exact ⟨name, type?, isType, declares.keep revision spared⟩

section IsClass

variable {members : List (NodeId × NodeId)} (isClass : IsClass origin before bundle naming members)
include isClass

theorem IsClass.keep_of_spares (revision : Revision origin touched before after)
    (spares : Spares origin before touched) : IsClass origin after bundle naming members := by
  obtain ⟨fields, definitions, isBundle, isList, mirror⟩ := isClass
  refine ⟨fields, definitions, isBundle.keep_of_spares revision spares nofun,
    isList.keep_of_spares revision spares nofun, mirror.imp fun _ _ mirrors => ?_⟩
  obtain ⟨name, type?, isType, declares⟩ := mirrors
  exact ⟨name, type?, isType, declares.keep_of_spares revision spares⟩

theorem IsClass.keep (revision : Revision origin touched before after)
    (old : ∀ id, touched id → ¬ origin.New id) : IsClass origin after bundle naming members :=
  isClass.keep_of_spares revision (spares_of_old old)

/-- The symbol that names the class is no part of it. -/
theorem IsClass.keep_of_naming {symbol : Symbol}
    (revision : Revision origin (· = naming) before after)
    (isNaming : before.kindAt naming = some (.symbol symbol))
    (isType : symbol.kind = .type bundle) :
    IsClass origin after bundle naming members := by
  have keep : ∀ {id kind}, Added origin before id kind →
      kind.symbol?.map Symbol.kind ≠ some (.type bundle) → Added origin after id kind := by
    intro id kind added other
    refine added.keep revision ?_
    rintro rfl
    have same := Option.some.inj (added.known.symm.trans isNaming)
    exact other (by simp [same, Kind.symbol?, isType])
  obtain ⟨fields, definitions, isBundle, isList, mirror⟩ := isClass
  refine ⟨fields, definitions, keep isBundle (by simp [Kind.symbol?]),
    keep isList (by simp [Kind.symbol?]), mirror.imp fun _ _ mirrors => ?_⟩
  obtain ⟨name, type?, isType, declares⟩ := mirrors
  exact ⟨name, type?, isType, keep declares.defines (by simp [Kind.symbol?]),
    keep declares.defined (by simp [Kind.symbol?])⟩

theorem IsClass.new_of_mem : ∀ member ∈ members, origin.New member.2 := by
  obtain ⟨_, _, -, -, mirror⟩ := isClass
  induction mirror with
  | nil => nofun
  | cons first _ ih =>
    obtain ⟨_, _, _, declares⟩ := first
    exact List.forall_mem_cons.mpr ⟨declares.defined.new, ih⟩

end IsClass

section Class

variable (past : ∀ {id}, before.New id → origin.New id)
include past

/-- A field is appended to the field list of a class. -/
theorem appended_addField {name : String} {type? symbol? : Option NodeId} {tag : AggregateTag}
    (isBundle : before.kindAt bundle = some (.type { symbol?, kind := .aggregate tag fields }))
    (isList : before.kindAt fields = some (.list .defs definitions.toArray))
    (run : Yields (addField bundle name type?) before answer after) :
    Revision origin (· = fields) before after ∧ before.New answer ∧ ∃ definition,
      after.kindAt fields = some (.list .defs (definitions ++ [definition]).toArray) ∧
      Declares origin after definition answer { name, type?, kind := .var } := by
  simp only [addField, newVar, newSymbol, yields_bind, yields_look, yields_pure] at run
  obtain ⟨fields', start, ⟨looked, rfl⟩, field, made, runVar, definition, defined, runDefine,
    linked, _, runInsert, rfl, rfl⟩ := run
  obtain rfl : fields' = fields := by
    simp only [fieldList, Fault.bind_eq_ok, kindOf_eq_ok, isBundle, Option.some.injEq] at looked
    obtain ⟨_, rfl, looked⟩ := looked
    exact (Fault.pure_eq_ok.mp looked).symm
  have madeField := produced_newNode past runVar rfl
  obtain ⟨defining, _, declares⟩ :=
    declares_define madeField.addition.past_after madeField.added.new madeField.known runDefine
  have addition := madeField.addition.absorbing defining fun _ same => same ▸ madeField.unissued
  have isListNow := addition.kinds isList not_false
  obtain ⟨inserted, holds, elements, isListBefore, isListAfter⟩ :=
    linked_insertAtTail addition.past_after declares.newExpr runInsert
  rw [isListNow, Option.some.injEq, Kind.list.injEq] at isListBefore
  obtain ⟨rfl, same⟩ := isListBefore
  obtain rfl := congrArg Array.toList same
  rw [inserted.bare isListNow (by simp)] at isListAfter
  refine ⟨inserted.revision.following addition, madeField.unissued, definition, isListAfter,
    declares.keep inserted.revision ?_⟩
  rintro _ rfl
  exact .inr (by simp [isListNow, Kind.isList])

/-- The field for a variable has its type.  The variable may get a flag. -/
theorem appended_addBundleField {place : Nat} {symbol? : Option NodeId} {tag : AggregateTag}
    (types : ∀ type?, before.typeOf var = .ok type? → origin.typeOf var = .ok type?)
    (isBundle : before.kindAt bundle = some (.type { symbol?, kind := .aggregate tag fields }))
    (isList : before.kindAt fields = some (.list .defs definitions.toArray))
    (run : Yields (addBundleField bundle var place) before done after) :
    Revision origin (fun id => id = var ∨ id = fields) before after ∧ ∃ definition member,
      before.New member ∧
      after.kindAt fields = some (.list .defs (definitions ++ [definition]).toArray) ∧
      Mirrors origin after ∅ definition var member := by
  have append : ∀ {flagged name type?}, Revision origin (· = var) before flagged →
      before.typeOf var = .ok type? →
      (∃ answer, Yields (addField bundle name type?) flagged answer after) →
      Revision origin (fun id => id = var ∨ id = fields) before after ∧ ∃ definition member,
        before.New member ∧
        after.kindAt fields = some (.list .defs (definitions ++ [definition]).toArray) ∧
        Mirrors origin after ∅ definition var member := by
    intro flagged name type? flagging isType ⟨member, adding⟩
    obtain ⟨symbol, isSymbol, _⟩ := typeOf_eq_ok.mp isType
    have other : ∀ {id kind}, before.kindAt id = some kind → kind.isSymbol = false →
        flagged.kindAt id = some kind := by
      intro id kind known notSymbol
      refine flagging.kinds known ?_
      rintro rfl
      rw [isSymbol, Option.some.injEq] at known
      simp [← known, Kind.isSymbol, Kind.symbol?] at notSymbol
    obtain ⟨revision, unissued, definition, isLater, declares⟩ :=
      appended_addField flagging.past_after (other isBundle rfl) (other isList rfl) adding
    refine ⟨flagging.followedBy revision (fun _ => .inl) fun _ again _ => .inr again,
      definition, member, not_imp_not.mp flagging.issued unissued, isLater, name, type?,
      types type? isType, declares⟩
  have unflagged : Revision origin (· = var) before before :=
    (Revision.refl past).mono fun _ never => never.elim
  rw [addBundleField, yields_bind] at run
  obtain ⟨type?, start, looked, run⟩ := run
  obtain ⟨isType, rfl⟩ := yields_look.mp looked
  cases type? with
  | none =>
    simp only [yields_bind, yields_look, yields_pure] at run
    obtain ⟨_, _, ⟨_, rfl⟩, _, _, runField, _, rfl⟩ := run
    exact append unflagged isType ⟨_, runField⟩
  | some type =>
    simp only [yields_bind, yields_look, yields_ite, yields_pure] at run
    obtain ⟨_, _, ⟨_, rfl⟩, ⟨_, _, _, runFlag, run⟩ | ⟨_, run⟩⟩ := run
    · obtain ⟨_, _, ⟨_, rfl⟩, _, _, runField, _, rfl⟩ := run
      obtain ⟨_, _, flagging, _⟩ := revision_addFlag past runFlag
      exact append flagging isType ⟨_, runField⟩
    · obtain ⟨_, _, ⟨_, rfl⟩, _, _, runField, _, rfl⟩ := run
      exact append unflagged isType ⟨_, runField⟩

/-- The class gets one field for each variable, in order. -/
theorem appended_fields {start : Nat} {symbol? : Option NodeId} {tag : AggregateTag}
    (old : ∀ var ∈ vars, ¬ origin.New var)
    (types : ∀ var ∈ vars, ∀ type?, before.typeOf var = .ok type? → origin.typeOf var = .ok type?)
    (isBundle : Added origin before bundle (.type { symbol?, kind := .aggregate tag fields }))
    (isList : before.kindAt fields = some (.list .defs definitions.toArray))
    (run : Yields ((vars.zipIdx start).forM fun (var, place) => addBundleField bundle var place)
      before () after) :
    Revision origin (fun id => id ∈ vars ∨ id = fields) before after ∧ ∃ added members,
      members.map Prod.fst = vars ∧
      after.kindAt fields = some (.list .defs (definitions ++ added).toArray) ∧
      List.Forall₂ (fun definition member => Mirrors origin after ∅ definition member.1 member.2)
        added members ∧
      (∀ member ∈ members, before.New member.2) ∧ (members.map Prod.snd).Nodup := by
  induction vars generalizing before definitions start with
  | nil =>
    obtain rfl := yields_forM_nil.mp run
    exact ⟨(Revision.refl past).mono fun _ never => never.elim, [], [], rfl, by simpa using isList,
      .nil, nofun, .nil⟩
  | cons var rest ih =>
    rw [List.zipIdx_cons] at run
    obtain ⟨middle, runFirst, runRest⟩ := yields_forM_cons.mp run
    obtain ⟨first, definition, member, unissued, isListNow, mirrors⟩ :=
      appended_addBundleField past (types var (by simp)) isBundle.known isList runFirst
    have oldVar := old var (by simp)
    have bundleLater : Added origin middle bundle _ := isBundle.keep first <| by
      rintro (rfl | rfl)
      · exact oldVar isBundle.new
      · simp [isBundle.known] at isList
    obtain ⟨others, added, members, areVars, isListLater, mirror, unissuedRest, distinct⟩ :=
      ih first.past_after (fun var isVar => old var (by simp [isVar]))
        (fun var isVar type? isType => types var (by simp [isVar]) type?
          ((first.typeOf_iff fun new => old var (by simp [isVar]) (past new)).mp isType))
        bundleLater isListNow runRest
    have kept := mirrors.keep others fun id again => again.imp
      (fun isVar => old id (by simp [isVar])) (by rintro rfl; simp [isListNow, Kind.isList])
    refine ⟨first.followedBy others ?_ ?_, definition :: added, (var, member) :: members,
      by simp [areVars], by simpa using isListLater, .cons kept mirror, ?_, ?_⟩
    · rintro id (rfl | rfl) <;> simp
    · rintro id (isVar | rfl) _
      · simp [isVar]
      · simp
    · simpa using ⟨unissued, fun _ var isMember =>
        not_imp_not.mp first.issued (unissuedRest _ isMember)⟩
    · rw [List.map_cons, List.nodup_cons]
      refine ⟨fun again => ?_, distinct⟩
      obtain ⟨other, isMember, same⟩ := List.mem_map.mp again
      obtain ⟨_, _, _, declares⟩ := mirrors
      have isFirst : other.2 = member := same
      exact declares.defined.issued (isFirst ▸ unissuedRest other isMember)

end Class

theorem bundleSymbol_eq {naming? : Option NodeId} {kind : TypeKind}
    (known : before.kindAt bundle = some (.type { symbol? := naming?, kind }))
    (run : Yields (bundleSymbol bundle) before answer after) :
    after = before ∧ naming? = some answer := by
  simp only [bundleSymbol, yields_bind, yields_look] at run
  obtain ⟨found?, _, ⟨looked, rfl⟩, run⟩ := run
  simp only [typeSymbolOf, Fault.bind_eq_ok, Fault.pure_eq_ok, kindOf_eq_ok, known,
    Option.some.injEq] at looked
  obtain ⟨_, rfl, looked⟩ := looked
  cases found? with
  | none => exact (yields_fail run).elim
  | some found =>
    obtain ⟨rfl, rfl⟩ := yields_pure.mp run
    exact ⟨rfl, looked⟩

/-- The flags of the symbol that names a bundle class. -/
def bundleFlags : FlagSet :=
  ((∅ : FlagSet).insert .noObject).insert .noWideClass

/-- An empty class was made, and its name flagged. -/
theorem added_flaggedClass {name : String} {typed looked object : Program}
    (past : ∀ {id}, before.New id → origin.New id)
    (runClass : Yields (newAggregateType name .classTag) before bundle typed)
    (runNaming : Yields (bundleSymbol bundle) typed naming looked)
    (runObject : Yields (addFlag naming .noObject) looked () object)
    (runWide : Yields (addFlag naming .noWideClass) object () after) :
    Addition origin before after ∧ before.New naming ∧ ∃ fields, before.New fields ∧
      Added origin after bundle
        (.type { symbol? := some naming, kind := .aggregate .classTag fields }) ∧
      Added origin after naming (.symbol { name, flags := bundleFlags, kind := .type bundle }) ∧
      Added origin after fields (.list .defs #[]) := by
  obtain ⟨classing, naming', fields, newNaming, newFields, isBundle, isNaming, isFields⟩ :=
    added_newAggregateType past runClass
  obtain ⟨rfl, isSame⟩ := bundleSymbol_eq isBundle.known runNaming
  obtain rfl := Option.some.inj isSame
  obtain ⟨_, known, objecting, isObject⟩ := revision_addFlag classing.past_after runObject
  obtain ⟨_, knownObject, widening, isWide⟩ := revision_addFlag objecting.past_after runWide
  rw [isNaming.known, Option.some.injEq, Kind.symbol.injEq] at known
  rw [isObject, Option.some.injEq, Kind.symbol.injEq] at knownObject
  subst known knownObject
  -- the flags go to a symbol, and the class and its field list are none
  have flagging : Revision origin (· = naming') looked after :=
    objecting.followedBy widening (fun _ => id) fun _ again _ => again
  have symbols : ∀ id, id = naming' → ¬ origin.New id ∨ (looked.kindAt id).any Kind.isSymbol := by
    rintro _ rfl
    exact .inr (by simp [isNaming.known, Kind.isSymbol, Kind.symbol?])
  exact ⟨classing.absorbing flagging fun _ same => same ▸ newNaming, newNaming, fields, newFields,
    isBundle.keep_of_test flagging symbols rfl, ⟨isNaming.new, isWide⟩,
    isFields.keep_of_test flagging symbols rfl⟩

/-- A class with all its fields was made, and its name defined. -/
theorem declares_bundleClass {name : String} {typed looked object flagged filled : Program}
    {definition : NodeId} (past : ∀ {id}, before.New id → origin.New id)
    (old : ∀ var ∈ vars, ¬ origin.New var)
    (types : ∀ var ∈ vars, ∀ type?, before.typeOf var = .ok type? → origin.typeOf var = .ok type?)
    (runClass : Yields (newAggregateType name .classTag) before bundle typed)
    (runNaming : Yields (bundleSymbol bundle) typed naming looked)
    (runObject : Yields (addFlag naming .noObject) looked () object)
    (runWide : Yields (addFlag naming .noWideClass) object () flagged)
    (runFields : Yields (vars.zipIdx.forM fun (var, place) => addBundleField bundle var place)
      flagged () filled)
    (runDefine : Yields (define naming) filled definition after) :
    Revision origin (· ∈ vars) before after ∧
      Declares origin after definition naming { name, flags := bundleFlags, kind := .type bundle } ∧
      ∃ members, IsClass origin after bundle naming members ∧ members.map Prod.fst = vars ∧
        (members.map Prod.snd).Nodup := by
  obtain ⟨untilFlagged, newNaming, fields, newFields, isBundle, isNaming, isFields⟩ :=
    added_flaggedClass past runClass runNaming runObject runWide
  obtain ⟨filling, definitions, members, areVars, isListFilled, mirror, _, distinct⟩ :=
    appended_fields untilFlagged.past_after old
      (fun var isVar type? isType => types var isVar type?
        ((untilFlagged.typeOf_iff fun new => old var isVar (past new)).mp isType))
      isBundle isFields.known runFields
  have spared : ∀ {id kind}, Added origin flagged id kind → kind.isList = false →
      Added origin filled id kind := by
    intro id kind added noList
    refine added.keep filling (not_or_intro (old _ · added.new) ?_)
    rintro rfl
    have same := Option.some.inj (added.known.symm.trans isFields.known)
    simp [same, Kind.isList] at noList
  have namingFilled := spared isNaming rfl
  obtain ⟨defining, _, declares⟩ :=
    declares_define filling.past_after isNaming.new namingFilled.known runDefine
  have isClass : IsClass origin filled bundle naming members :=
    ⟨fields, definitions, spared isBundle rfl, ⟨isFields.new, isListFilled⟩, mirror⟩
  refine ⟨(untilFlagged.followedBy filling (fun _ never => never.elim) ?_).absorbing defining ?_,
    declares, members, isClass.keep_of_naming defining namingFilled.known rfl, areVars, distinct⟩
  · exact fun id again issued => again.resolve_right fun same => issued (same ▸ newFields)
  · exact fun _ same => same ▸ newNaming

/-- The class is defined at the head of the module. -/
theorem headed_newBundleClass (past : ∀ {id}, before.New id → origin.New id)
    (backed : before.Backed) (old : ∀ var ∈ vars, ¬ origin.New var)
    (symbols : ∀ var ∈ vars, (before.kindAt var).any Kind.isSymbol)
    (types : ∀ var ∈ vars, ∀ type?, before.typeOf var = .ok type? → origin.typeOf var = .ok type?)
    (oldModule : ¬ origin.New module)
    (oldList : ∀ list, before.moduleBodyList module = .ok list → ¬ origin.New list)
    (run : Yields (newBundleClass vars module fn) before bundle after) :
    ∃ list holds elements element definition naming name members,
      before.moduleBodyList module = .ok list ∧
      before.kindAt list = some (.list holds elements.toArray) ∧
      Revision origin (fun id => id ∈ vars ∨ id = list) before after ∧
      after.kindAt list = some (.list holds (element :: elements).toArray) ∧
      StandsFor origin after element definition ∧
      Declares origin after definition naming { name, flags := bundleFlags, kind := .type bundle } ∧
      IsClass origin after bundle naming members ∧ members.map Prod.fst = vars ∧
      (members.map Prod.snd).Nodup := by
  simp only [newBundleClass, yields_bind, yields_look, yields_pure] at run
  obtain ⟨_, start, ⟨_, rfl⟩, bundle, _, runClass, naming, _, runNaming, _, _, runObject, _, _,
    runWide, _, _, runFields, definition, _, runDefine, list, defined, ⟨looked, rfl⟩, element, _,
    runInsert, rfl, rfl⟩ := run
  obtain ⟨defining, declares, members, isClass, areVars, distinct⟩ :=
    declares_bundleClass past old types runClass runNaming runObject runWide runFields runDefine
  have isBody := (defining.moduleBodyList_iff backed fun new => oldModule (past new)).mp looked
  have old : ∀ id, id = list → ¬ origin.New id := fun _ same => same ▸ oldList list isBody
  have issuedList : ¬ start.New list := fun new => oldList list isBody (past new)
  obtain ⟨inserted, holds, elements, isListDefined, isListAfter⟩ :=
    linked_insertAtHead defining.past_after declares.newExpr runInsert
  have notVar : list ∉ vars := fun isVar => by
    have isSymbol := (defining.isSymbol_iff issuedList).mpr (symbols list isVar)
    simp [isListDefined, Kind.isSymbol, Kind.symbol?] at isSymbol
  exact ⟨list, holds, elements, element, definition, naming, _, members, isBody,
    (defining.kindAt_eq issuedList notVar).symm.trans isListDefined,
    defining.followedBy inserted.revision (fun _ => .inl) fun _ again _ => .inr again,
    isListAfter, inserted.stands,
    declares.keep inserted.revision fun id again => .inl (old id again),
    isClass.keep inserted.revision old, areVars, distinct⟩

theorem getElem?_of_forall₂ {α β : Type} {related : α → β → Prop} {lefts : List α} {rights : List β}
    (all : List.Forall₂ related lefts rights) {place : Nat} {left : α}
    (found : lefts[place]? = some left) :
    ∃ right, rights[place]? = some right ∧ related left right := by
  induction all generalizing place with
  | nil => simp at found
  | cons first _ ih =>
    cases place with
    | zero =>
      obtain rfl := Option.some.inj found
      exact ⟨_, rfl, first⟩
    | succ place => exact ih found

/-- The field at a place is the one of the variable at that place. -/
theorem bundleField_eq {members : List (NodeId × NodeId)} {place : Nat}
    (isClass : IsClass origin before bundle naming members)
    (run : Yields (bundleField bundle place) before answer after) :
    after = before ∧ (before.kindAt answer).any Kind.isSymbol ∧
      ∃ var, members[place]? = some (var, answer) := by
  obtain ⟨fields, definitions, isBundle, isList, mirror⟩ := isClass
  simp only [bundleField, yields_bind, yields_look] at run
  obtain ⟨found?, _, ⟨looked, rfl⟩, run⟩ := run
  simp only [field, fieldList, Fault.bind_eq_ok, kindOf_eq_ok, isBundle.known, elements_eq_ok,
    Option.some.injEq, exists_eq_left', Fault.pure_eq_ok, isList.known, Kind.list.injEq] at looked
  rw [List.getElem?_toArray] at looked
  cases isDefinition : definitions[place]? with
  | none =>
    rw [isDefinition] at looked
    obtain rfl := Fault.pure_eq_ok.mp looked
    exact (yields_fail run).elim
  | some definition =>
    obtain ⟨⟨var, member⟩, isMember, _, _, _, declares⟩ := getElem?_of_forall₂ mirror isDefinition
    simp only [isDefinition, definedSymbol, definedSymbolWithin, Fault.bind_eq_ok, kindOf_eq_ok,
      declares.defines.known, Option.some.injEq, exists_eq_left', Fault.pure_eq_ok] at looked
    subst looked
    obtain ⟨rfl, rfl⟩ := yields_pure.mp run
    exact ⟨rfl, declares.isSymbol, var, isMember⟩

end ProgramTree.Program
