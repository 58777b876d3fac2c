import ProgramTree.Proofs.Ascents
import ProgramTree.Proofs.Inspection

/-!
# Owners

The ascent to the owner of a node follows links: from a symbol to its definition, from a type to
the symbol that names it, and otherwise to the enclosing symbol.  Where symbols sit in their
definitions and types in the symbols that name them, each of these links leads to a node above, and
past no module and no function.  So the owners are the nearest module and the nearest function
above by containment.
-/

namespace ProgramTree

open Program Edit Relation

namespace Program

variable {program : Program} {id holder found sym : NodeId} {kind : Kind} {wanted : Kind → Bool}

/-! ## The nearest node at or above -/

/-- Going up from `id`, with `id` itself the first to be looked at, `found` is the first node of a
wanted kind. -/
def NearestFrom (program : Program) (wanted : Kind → Bool) (id found : NodeId) : Prop :=
  if (program.kindAt id).any wanted then found = id else program.Nearest wanted id found

theorem NearestFrom.here (isWanted : (program.kindAt id).any wanted) :
    program.NearestFrom wanted id id := by
  rw [NearestFrom, if_pos isWanted]

theorem nearest_of_holds (holds : program.Holds holder id)
    (nearest : program.NearestFrom wanted holder found) : program.Nearest wanted id found := by
  rw [NearestFrom] at nearest
  split at nearest
  · next isWanted => exact nearest ▸ .here holds isWanted
  · next unwanted => exact .above holds unwanted nearest

theorem NearestFrom.of_holds (unwanted : ¬ (program.kindAt id).any wanted)
    (holds : program.Holds holder id) (nearest : program.NearestFrom wanted holder found) :
    program.NearestFrom wanted id found := by
  rw [NearestFrom, if_neg unwanted]
  exact nearest_of_holds holds nearest

theorem NearestFrom.any_kindAt (nearest : program.NearestFrom wanted id found) :
    (program.kindAt found).any wanted := by
  rw [NearestFrom] at nearest
  split at nearest
  · next isWanted => exact nearest ▸ isWanted
  · exact nearest.around.2

/-- What is wanted of symbols alone is found at the nearest symbol, or above it. -/
theorem NearestFrom.of_nearest_symbol (onSymbols : ∀ kind, wanted kind → kind.isSymbol)
    (unwanted : ¬ (program.kindAt id).any wanted) (around : program.Nearest Kind.isSymbol id sym)
    (nearest : program.NearestFrom wanted sym found) : program.NearestFrom wanted id found := by
  induction around with
  | here holds _ => exact .of_holds unwanted holds nearest
  | above holds noSymbol _ ih =>
    refine .of_holds unwanted holds (ih (fun isWanted => noSymbol ?_) nearest)
    obtain ⟨kind, known, isWanted⟩ := (Option.any_eq_true _ _).mp isWanted
    simp [known, onSymbols kind isWanted]

/-! ## Where the links of a tree lead -/

/-- Every type of the tree sits in the type symbol that it names. -/
def TypesSeated (program : Program) : Prop :=
  ∀ id type, program.Reachable id → program.kindAt id = some (.type type) →
    ∃ naming symbol, type.symbol? = some naming ∧ program.kindAt naming = some (.symbol symbol) ∧
      symbol.kind = .type id ∧ program.parentOf id = some naming

/-- A name that is not bound yet. -/
def Unresolved (program : Program) (id : NodeId) : Prop :=
  ∃ symbol, program.kindAt id = some (.symbol symbol) ∧ symbol.kind = .unresolved

/-- What holds something is no unresolved symbol. -/
theorem not_unresolved_of_contains (below : TransGen program.Holds holder id) :
    ¬ program.Unresolved holder := by
  rintro ⟨symbol, known, unresolved⟩
  obtain ⟨child, holds, _⟩ := TransGen.head'_iff.mp below
  simp [Holds, held_eq_of_kindAt known, Kind.owned, unresolved, SymbolKind.owned] at holds

/-- A node of the tree that is not an unresolved symbol. -/
structure Owned (program : Program) (id : NodeId) : Prop where
  reachable : program.Reachable id
  resolved : ¬ program.Unresolved id

/-- The link to `above` goes up, past no symbol but `id` itself. -/
structure LinksUp (program : Program) (id above : NodeId) : Prop where
  strict : TransGen program.Holds above id
  owned : program.Owned above
  transfer : ∀ {wanted : Kind → Bool}, (∀ kind, wanted kind → kind.isSymbol) →
    ¬ (program.kindAt id).any wanted → ∀ {found}, program.NearestFrom wanted above found →
      program.NearestFrom wanted id found

section Links

variable (wellFormed : WellFormed program)
include wellFormed

/-- A holder that is not an unresolved symbol is a link up. -/
theorem linksUp_holder (owned : program.Owned id) (named : program.parentOf id = some holder) :
    program.LinksUp id holder := by
  have holds := (wellFormed.parent_iff holder id).mpr named
  have orderly := wellFormed.orderly
  exact ⟨.single holds,
    ⟨orderly.rooted.reachable_holder orderly.forest named owned.reachable,
      not_unresolved_of_contains (.single holds)⟩,
    fun _ unwanted _ nearest => .of_holds unwanted holds nearest⟩

/-- The symbol around a node is a link up. -/
theorem exists_linksUp_around (owned : program.Owned id)
    (noSymbol : ¬ (program.kindAt id).any Kind.isSymbol) :
    ∃ sym, (program.contextOf id).symbol? = some sym ∧ program.LinksUp id sym := by
  have orderly := wellFormed.orderly
  obtain ⟨sym, around, _, reachable, above⟩ :=
    orderly.exists_around owned.reachable fun isRoot => noSymbol (orderly.rooted.isSymbol isRoot)
  have nearest := (wellFormed.enclosing_symbol id sym owned.reachable).mp around
  exact ⟨sym, around, above, ⟨reachable, not_unresolved_of_contains above⟩,
    fun onSymbols unwanted _ further => .of_nearest_symbol onSymbols unwanted nearest further⟩

end Links

/-! ## Where an ascent stops -/

/-- Unresolved symbols apart, `turn` stops at the symbols of these kinds, modules among them. -/
structure StopsAt (turn : NodeId → SymbolKind → Ascent) (stops : Kind → Bool) : Prop where
  onSymbols : ∀ kind, stops kind → kind.isSymbol
  modules : ∀ kind, kind.isModule → stops kind
  stop_iff : ∀ id symbol, symbol.kind ≠ .unresolved →
    ((∃ owner?, turn id symbol.kind = .stop owner?) ↔ stops (.symbol symbol))

theorem stopsAt_owningModule : StopsAt owningModule.turn Kind.isModule where
  onSymbols kind isModule := by
    cases kind <;> simp_all [Kind.isModule, Kind.symbol?, Kind.isSymbol]
  modules _ isModule := isModule
  stop_iff id symbol resolved := by
    obtain ⟨_, _, _, _, kind⟩ := symbol
    cases kind <;> simp_all [owningModule.turn, Kind.isModule, Kind.symbol?, Symbol.isModule]

theorem stopsAt_owningFunction :
    StopsAt owningFunction.turn fun kind => kind.isFn || kind.isModule where
  onSymbols kind isOwner := by
    cases kind <;> simp_all [Kind.isFn, Kind.isModule, Kind.symbol?, Kind.isSymbol]
  modules _ isModule := by simp [isModule]
  stop_iff id symbol resolved := by
    obtain ⟨_, _, _, _, kind⟩ := symbol
    cases kind <;>
      simp_all [owningFunction.turn, Kind.isFn, Symbol.isFn, Kind.isModule, Kind.symbol?,
        Symbol.isModule]

section Stopping

variable {turn : NodeId → SymbolKind → Ascent} {stops : Kind → Bool} (stopsAt : StopsAt turn stops)
  (wellFormed : WellFormed program) (seated : Seated program) (typesSeated : TypesSeated program)
include stopsAt wellFormed seated typesSeated

/-- From a node of another kind the ascent goes on by a link up. -/
theorem exists_wayUp (owned : program.Owned id) (known : program.kindAt id = some kind)
    (goesOn : ¬ stops kind) :
    ∃ above, program.wayUp turn id kind = .inr (some above) ∧ program.LinksUp id above := by
  cases kind with
  | symbol symbol =>
    have resolved : symbol.kind ≠ .unresolved := fun unresolved =>
      owned.resolved ⟨symbol, known, unresolved⟩
    have turned : turn id symbol.kind = .goOn := by
      cases turned : turn id symbol.kind with
      | goOn => rfl
      | stop owner? =>
        exact absurd ((stopsAt.stop_iff id symbol resolved).mp ⟨owner?, turned⟩) goesOn
    have notRoot : id ∉ program.roots := by
      intro isRoot
      have isModule := wellFormed.roots_module id isRoot
      rw [known, Option.any_some] at isModule
      exact goesOn (stopsAt.modules _ isModule)
    obtain ⟨definition, _, _, point, _, named⟩ := seated id symbol owned.reachable notRoot known
    exact ⟨definition, by simp only [wayUp, turned, point], linksUp_holder wellFormed owned named⟩
  | type type =>
    obtain ⟨naming, _, names, _, _, named⟩ := typesSeated id type owned.reachable known
    exact ⟨naming, by simp only [wayUp, names], linksUp_holder wellFormed owned named⟩
  | _ =>
    obtain ⟨sym, around, linksUp⟩ := exists_linksUp_around wellFormed owned
      (by simp [known, Kind.isSymbol, Kind.symbol?])
    exact ⟨sym, by simp only [wayUp, around], linksUp⟩

/-- The ascent answers what `turn` says at the nearest node at which it stops. -/
theorem rises_to_nearest :
    Rises program turn program.Owned fun id owner? => ∃ owner symbol,
      program.NearestFrom stops id owner ∧ program.kindAt owner = some (.symbol symbol) ∧
        turn owner symbol.kind = .stop owner? where
  step {id} owned := by
    obtain ⟨node, found⟩ :=
      Option.isSome_iff_exists.mp (wellFormed.orderly.issued_of_reachable owned.reachable)
    have known := kindAt_eq found
    refine ⟨node.kind, known, ?_⟩
    by_cases stop : stops node.kind
    · left
      cases kind : node.kind with
      | symbol symbol =>
        rw [kind] at known stop
        obtain ⟨owner?, turned⟩ := (stopsAt.stop_iff id symbol fun unresolved =>
          owned.resolved ⟨symbol, known, unresolved⟩).mpr stop
        exact ⟨owner?, by simp only [wayUp, turned], id, symbol, .here (by simp [known, stop]),
          known, turned⟩
      | _ =>
        have isSymbol := stopsAt.onSymbols _ stop
        simp [kind, Kind.isSymbol, Kind.symbol?] at isSymbol
    · right
      obtain ⟨above, way, linksUp⟩ :=
        exists_wayUp stopsAt wellFormed seated typesSeated owned known stop
      refine ⟨above, way, linksUp.strict, linksUp.owned, ?_⟩
      rintro owner? ⟨owner, symbol, nearest, isSymbol, turned⟩
      exact ⟨owner, symbol, linksUp.transfer stopsAt.onSymbols (by simp [known, stop]) nearest,
        isSymbol, turned⟩

theorem exists_ascend_to_nearest (owned : program.Owned id) :
    ∃ owner symbol owner?, program.NearestFrom stops id owner ∧
      program.kindAt owner = some (.symbol symbol) ∧ turn owner symbol.kind = .stop owner? ∧
      program.ascend turn program.ascentBound id = .ok owner? := by
  obtain ⟨owner?, looked, owner, symbol, nearest, known, turned⟩ :=
    (rises_to_nearest stopsAt wellFormed seated typesSeated).exists_ascend wellFormed.orderly.forest
      (fun _ => trivial) owned
  exact ⟨owner, symbol, owner?, nearest, known, turned, looked⟩

end Stopping

/-- In a tree in which symbols and types sit where they say, a node belongs to the nearest module,
and to the nearest function or, if a module comes first, to the init function of that module.  And
whatever the links of a program are, both ascents end. -/
theorem owners_eq_nearest :
    (∀ program id, WellFormed program → Seated program → TypesSeated program →
      program.Reachable id → ¬ program.Unresolved id →
        (∃ module, program.owningModule id = .ok (some module) ∧
          program.NearestFrom Kind.isModule id module) ∧
        ∃ owner symbol, program.kindAt owner = some (.symbol symbol) ∧
          program.NearestFrom (fun kind => kind.isFn || kind.isModule) id owner ∧
          program.owningFunction id = .ok (match symbol.kind with
            | .module _ initFn? _ => initFn?
            | _ => some owner)) ∧
    ∀ (program : Program) (id : NodeId), program.Climbs owningModule.turn [] id (program.owningModule id) ∧
      program.Climbs owningFunction.turn [] id (program.owningFunction id) := by
  refine ⟨fun program id wellFormed seated typesSeated reachable resolved => ⟨?_, ?_⟩,
    fun program id => ⟨climbs_ascend program _ id, climbs_ascend program _ id⟩⟩
  · obtain ⟨module, symbol, owner?, nearest, known, turned, looked⟩ :=
      exists_ascend_to_nearest stopsAt_owningModule wellFormed seated typesSeated
        ⟨reachable, resolved⟩
    refine ⟨module, looked.trans (congrArg _ ?_), nearest⟩
    have isModule := nearest.any_kindAt
    obtain ⟨_, _, _, _, kind⟩ := symbol
    cases kind <;>
      simp_all [owningModule.turn, Kind.isModule, Kind.symbol?, Symbol.isModule]
  · obtain ⟨owner, symbol, owner?, nearest, known, turned, looked⟩ :=
      exists_ascend_to_nearest stopsAt_owningFunction wellFormed seated typesSeated
        ⟨reachable, resolved⟩
    refine ⟨owner, symbol, known, nearest, looked.trans (congrArg _ ?_)⟩
    have isOwner := nearest.any_kindAt
    obtain ⟨_, _, _, _, kind⟩ := symbol
    cases kind <;>
      simp_all [owningFunction.turn, Kind.isFn, Symbol.isFn, Kind.isModule, Kind.symbol?,
        Symbol.isModule]

/-! ## A field of a class in a function -/

/-- Whether a node is no type, or sits in the type symbol that it names. -/
def sitsInNaming (program : Program) (id : NodeId) : Bool :=
  match program.kindAt id with
  | some (.type type) => type.symbol?.any fun naming =>
    match program.kindAt naming with
    | some (.symbol symbol) => symbol.kind = .type id && program.parentOf id = some naming
    | _ => false
  | _ => true

theorem Inspected.typesSeated {root : NodeId} {nodes : List NodeId}
    (inspected : program.Inspected root nodes) (sits : ∀ id ∈ nodes, program.sitsInNaming id) :
    TypesSeated program := by
  intro id type reachable known
  have sits := sits id (inspected.reachable_iff.mp reachable)
  simp only [sitsInNaming, known, Option.any_eq_true] at sits
  obtain ⟨naming, names, sits⟩ := sits
  split at sits
  · rename_i symbol isSymbol
    simp only [Bool.and_eq_true, decide_eq_true_iff] at sits
    exact ⟨naming, symbol, names, isSymbol, sits⟩
  · cases sits

/-- A module with a function that defines a class with one field. -/
def classInFn : Program := Edit.making do
  let field ← newVar "x" none
  let defineField ← define field
  let fields ← newList .defs [defineField]
  let pair ← newNamedType "pair" (.aggregate .classTag fields)
  let naming := (← look (·.typeSymbolOf pair)).getD pair
  let definePair ← define naming
  let body ← newBlock [definePair]
  let fn ← newFn "f" [] body none
  let defineFn ← define fn
  let module ← newModule "m" .user [defineFn]
  addModule module

/-- The field belongs to the function, past the class that it is a field of. -/
theorem owners_eq_nearest_field :
    WellFormed classInFn ∧ Seated classInFn ∧ TypesSeated classInFn ∧
      classInFn.Reachable ⟨13⟩ ∧ ¬ classInFn.Unresolved ⟨13⟩ ∧
      classInFn.owningModule ⟨13⟩ = .ok (some ⟨28⟩) ∧
      classInFn.NearestFrom Kind.isModule ⟨13⟩ ⟨28⟩ ∧
      classInFn.owningFunction ⟨13⟩ = .ok (some ⟨23⟩) ∧
      ∃ owner symbol, classInFn.kindAt owner = some (.symbol symbol) ∧
        classInFn.NearestFrom (fun kind => kind.isFn || kind.isModule) ⟨13⟩ owner ∧
        classInFn.owningFunction ⟨13⟩ = .ok (match symbol.kind with
          | .module _ initFn? _ => initFn?
          | _ => some owner) := by
  have standsUp : classInFn.StandsUp ⟨28⟩ := by decide +kernel
  have inspected := standsUp.inspected
  have seated : Seated classInFn := inspected.seated (by decide +kernel)
  have typesSeated : TypesSeated classInFn := inspected.typesSeated (by decide +kernel)
  have reachable : classInFn.Reachable ⟨13⟩ := inspected.reachable_iff.mpr (by decide +kernel)
  have resolved : ¬ classInFn.Unresolved ⟨13⟩ := by
    rintro ⟨symbol, known, unresolved⟩
    have isVar : (classInFn.kindAt ⟨13⟩).any fun kind =>
      kind.symbol?.any (·.kind ≠ .unresolved) := by decide +kernel
    simp [known, Kind.symbol?, unresolved] at isVar
  obtain ⟨⟨module, looked, nearest⟩, function⟩ :=
    owners_eq_nearest.1 classInFn ⟨13⟩ inspected.wellFormed seated typesSeated reachable resolved
  have owningModule : classInFn.owningModule ⟨13⟩ = .ok (some ⟨28⟩) :=
    Fault.toOption_eq_some.mp (by decide +kernel)
  have owningFunction : classInFn.owningFunction ⟨13⟩ = .ok (some ⟨23⟩) :=
    Fault.toOption_eq_some.mp (by decide +kernel)
  obtain rfl : module = ⟨28⟩ := by simpa [looked] using owningModule
  exact ⟨inspected.wellFormed, seated, typesSeated, reachable, resolved, owningModule, nearest,
    owningFunction, function⟩

end Program

end ProgramTree
