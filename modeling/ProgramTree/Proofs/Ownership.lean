import ProgramTree.Proofs.Ascents
import ProgramTree.Proofs.Resolution

/-!
# The module of a loop

While loops are decided on, a node of the tree stays below its parent or leaves the tree with the
loop that contains it.  So the way from a loop that is still there up to its module is what it was
at first.
-/

namespace ProgramTree.Program

open Edit Relation

variable {exact bare sharp naked : Prop} {region zone : NodeId → Prop}
  {origin now middle next program : Program} {id above holder loop variant block : NodeId}

/-! ## What stays -/

/-- Of the nodes that were there at first, those in the tree were in the tree, and they have the
parents that they had. -/
structure Weathered (origin now : Program) : Prop where
  roots : now.roots = origin.roots
  forms : ∀ {id kind}, origin.kindAt id = some kind →
    ∃ later, now.kindAt id = some later ∧ kind.SameForm later
  stayed : ∀ {id}, (origin.get? id).isSome → now.Reachable id → origin.Reachable id
  parents : ∀ {id}, (origin.get? id).isSome → now.Reachable id →
    now.parentOf id = origin.parentOf id

namespace Weathered

theorem refl (origin : Program) : Weathered origin origin :=
  ⟨rfl, fun known => ⟨_, known, .refl _⟩, fun _ reachable => reachable, fun _ _ => rfl⟩

variable (weathered : Weathered origin now)
include weathered

theorem issued (old : (origin.get? id).isSome) : (now.get? id).isSome := by
  obtain ⟨node, found⟩ := Option.isSome_iff_exists.mp old
  obtain ⟨_, known, _⟩ := weathered.forms (kindAt_eq found)
  exact get?_isSome_of_kindAt known

theorem frame (nodes : next.nodes = now.nodes) (roots : next.roots = now.roots) :
    Weathered origin next := by
  obtain ⟨nodes, _, _, _, _, _, _⟩ := next
  obtain ⟨_, _, _, _, _, _, _⟩ := now
  subst nodes roots
  exact ⟨weathered.roots, weathered.forms, weathered.stayed, weathered.parents⟩

/-- New nodes beside the tree do not matter. -/
theorem extend (orderly : Orderly exact bare region [] now) (extended : Extends now next) :
    Weathered origin next where
  roots := extended.roots.trans weathered.roots
  forms known := by
    obtain ⟨later, knownNow, sameForm⟩ := weathered.forms known
    have same := extended.same_kind (get?_isSome_of_kindAt knownNow)
    exact ⟨later, same.trans knownNow, sameForm⟩
  stayed old reachable :=
    weathered.stayed old ((orderly.reachable_of_extends extended).mp reachable)
  parents old reachable := by
    rw [extended.same_parent (weathered.issued old)]
    exact weathered.parents old ((orderly.reachable_of_extends extended).mp reachable)

/-- A new node comes in for a node of the tree, with nothing below it that was there at first and
is not in the tree anyway. -/
theorem swap (orderly : Orderly exact bare region [] now) (insideLoop : region loop)
    (insideBlock : region block) (swapped : Swapped now holder loop block next)
    (fresh : origin.get? block = none)
    (anyway : ∀ {id}, now.Contains block id → (origin.get? id).isSome → now.Reachable id) :
    Weathered origin next := by
  have reachableNow : ∀ {id}, (origin.get? id).isSome → next.Reachable id → now.Reachable id := by
    intro id old reachable
    rcases swapped.reachable_before orderly insideLoop reachable with before | below
    · exact before
    · exact anyway ((swapped.contains_new_iff orderly insideLoop).mp below) old
  refine ⟨swapped.roots.trans weathered.roots, fun known => ?_, fun old reachable => ?_,
    fun {id} old reachable => ?_⟩
  · obtain ⟨later, knownNow, sameForm⟩ := weathered.forms known
    obtain ⟨kind, changed, knownHolder, exchanged, kinds⟩ := swapped.kinds
    rw [kinds]
    split
    · next isHolder =>
      rw [isHolder, knownHolder, Option.some.injEq] at knownNow
      subst knownNow
      exact ⟨changed, rfl, sameForm.trans exchanged.sameForm⟩
    · exact ⟨later, knownNow, sameForm⟩
  · exact weathered.stayed old (reachableNow old reachable)
  · have notLoop : id ≠ loop := by
      rintro rfl
      exact swapped.not_reachable_old orderly insideLoop insideBlock .refl reachable
    have notBlock : id ≠ block := by
      rintro rfl
      simp [fresh] at old
    rw [swapped.parents notLoop notBlock]
    exact weathered.parents old (reachableNow old reachable)

/-- A block with a drafted variant takes the place of a loop. -/
theorem dispatch {done : Unit} (healthy : Healthy now) (reachable : now.Reachable loop)
    (draft : Draft now middle) (known : Known now.New middle variant)
    (run : Yields (Edit.dispatch loop variant) middle done next) : Weathered origin next := by
  obtain ⟨entered, block, built, _, placed, nodes, roots, index, runChoice, runReplace, rfl⟩ :=
    exists_of_dispatch run
  have entering := (Draft.workshop now).progress_of_nodes draft nodes roots index
  have choosing := (Draft.workshop now).newChoice (known.since entering.since)
    (entering.kept.duplicate healthy reachable) runChoice
  have orderly := choosing.progress.kept.orderly
  obtain ⟨holder, swapped⟩ := exists_swapped runReplace
  have start := Draft.start healthy
  have extended := weathered.extend start.orderly choosing.progress.kept.extended
  have placing : Weathered origin placed := by
    have unissued : ∀ {id}, now.New id → origin.get? id = none := fun new => by
      by_contra issued
      have issuedNow := weathered.issued (Option.isSome_iff_ne_none.mpr issued)
      simp [new] at issuedNow
    refine extended.swap orderly (.inl reachable) (.inr choosing.known.inside) swapped
      (unissued choosing.known.inside) fun below old => ?_
    rcases orderly.forest.contains (.inr choosing.known.inside) below with inTree | new
    · exact (start.orderly.reachable_of_extends choosing.progress.kept.extended).mpr inTree
    · simp [unissued new] at old
  exact placing.frame rfl rfl

end Weathered

/-! ## The way up -/

/-- A node of the tree that was there at first, where the way up from a loop may come by. -/
structure OnTheWay (origin now : Program) (id : NodeId) : Prop where
  old : (origin.get? id).isSome
  reachable : now.Reachable id
  noType : ¬ (now.kindAt id).any Kind.isType
  holds : (now.kindAt id).any Kind.isSymbol → ∃ child, now.Holds id child

section Ascent

variable (weathered : Weathered origin now) (orderly : Orderly exact bare region [] now)
  (orderlyOrigin : Orderly sharp naked zone [] origin)
include weathered orderly orderlyOrigin

theorem Weathered.old_of_holds (holds : now.Holds holder id) (old : (origin.get? id).isSome)
    (reachable : now.Reachable holder) : (origin.get? holder).isSome := by
  have reachableId := reachable.holds holds
  have named := (orderly.forest.held (orderly.reachable_inside reachable) holds).2
  rw [weathered.parents old reachableId] at named
  have inside := orderlyOrigin.reachable_inside (weathered.stayed old reachableId)
  exact (orderlyOrigin.forest.holder inside List.not_mem_nil named).2.issued

theorem Weathered.old_of_contains (contained : now.Contains above id)
    (old : (origin.get? id).isSome) (reachable : now.Reachable above) :
    (origin.get? above).isSome := by
  induction contained with
  | refl => exact old
  | tail contained holds ih =>
    exact ih (weathered.old_of_holds orderly orderlyOrigin holds old (reachable.contains contained))

/-- From a node other than a symbol the way goes on to the symbol around it. -/
theorem OnTheWay.around (onTheWay : OnTheWay origin now id)
    (noSymbol : ¬ (now.kindAt id).any Kind.isSymbol) :
    ∃ sym, (now.contextOf id).symbol? = some sym ∧ TransGen now.Holds sym id ∧
      OnTheWay origin now sym := by
  obtain ⟨sym, around, isSymbol, reachable, above⟩ :=
    orderly.exists_around onTheWay.reachable fun isRoot => noSymbol (orderly.rooted.isSymbol isRoot)
  refine ⟨sym, around, above, ?_, reachable, ?_, fun _ => ?_⟩
  · exact weathered.old_of_contains orderly orderlyOrigin above.to_reflTransGen onTheWay.old reachable
  · obtain ⟨kind, known, isSymbol⟩ := (Option.any_eq_true _ _).mp isSymbol
    cases kind <;> simp_all [Kind.isSymbol, Kind.symbol?, Kind.isType]
  · obtain ⟨child, holds, _⟩ := TransGen.head'_iff.mp above
    exact ⟨child, holds⟩

omit orderlyOrigin in
/-- From a symbol other than a module the way goes on to the definition it sits in. -/
theorem OnTheWay.definition {symbol : Symbol} (seated : Seated origin)
    (onTheWay : OnTheWay origin now id) (known : now.kindAt id = some (.symbol symbol))
    (notModule : symbol.isModule = false) :
    ∃ definition, symbol.defPoint? = some definition ∧ now.Holds definition id ∧
      OnTheWay origin now definition := by
  obtain ⟨node, found⟩ := Option.isSome_iff_exists.mp onTheWay.old
  obtain ⟨_, knownNow, sameForm⟩ := weathered.forms (kindAt_eq found)
  obtain rfl := Option.some.inj (known.symm.trans knownNow)
  cases kind : node.kind with
  | symbol first =>
    rw [kind] at sameForm
    have notRoot : id ∉ origin.roots := by
      intro isRoot
      rw [← weathered.roots] at isRoot
      simpa [known, Kind.isModule, Kind.symbol?, notModule] using orderly.rooted.module isRoot
    obtain ⟨definition, init?, declaredType?, point, isDefinition, named⟩ :=
      seated id first (weathered.stayed onTheWay.old onTheWay.reachable) notRoot
        (kind ▸ kindAt_eq found)
    have same : symbol.defPoint? = first.defPoint? := sameForm.definition
    rw [← weathered.parents onTheWay.old onTheWay.reachable] at named
    obtain ⟨later, knownLater, sameExpr⟩ := weathered.forms isDefinition
    have isExpr : later.isExpr := sameExpr.isExpr
    obtain ⟨_, foundDefinition, _⟩ := get?_of_kindAt isDefinition
    refine ⟨definition, same.trans point,
      (orderly.forest.holder (orderly.reachable_inside onTheWay.reachable) List.not_mem_nil named).2,
      by simp [foundDefinition],
      orderly.rooted.reachable_holder orderly.forest named onTheWay.reachable, ?_, ?_⟩
    · cases later <;> simp_all [Kind.isType, Kind.isExpr]
    · cases later <;> simp_all [Kind.isSymbol, Kind.symbol?, Kind.isExpr]
  | _ =>
    have isSymbol := sameForm.isSymbol
    simp [kind, Kind.isSymbol, Kind.symbol?] at isSymbol

/-- The way up has come to a module, or it goes on further up. -/
theorem OnTheWay.arrives_or_goes_on (seated : Seated origin) (onTheWay : OnTheWay origin now id) :
    ∃ kind, now.kindAt id = some kind ∧
      (now.wayUp owningModule.turn id kind = .inl (some id) ∨
        ∃ above, now.wayUp owningModule.turn id kind = .inr (some above) ∧
          TransGen now.Holds above id ∧ OnTheWay origin now above) := by
  obtain ⟨node, found⟩ := Option.isSome_iff_exists.mp (weathered.issued onTheWay.old)
  have known := kindAt_eq found
  refine ⟨node.kind, known, ?_⟩
  cases kind : node.kind with
  | symbol symbol =>
    rw [kind] at known
    cases isModule : symbol.isModule with
    | true =>
      left
      cases form : symbol.kind <;> simp_all [Symbol.isModule, wayUp, owningModule.turn]
    | false =>
      right
      obtain ⟨definition, point, holds, further⟩ :=
        onTheWay.definition weathered orderly seated known isModule
      refine ⟨definition, ?_, .single holds, further⟩
      obtain ⟨child, holdsChild⟩ := onTheWay.holds (by simp [known, Kind.isSymbol, Kind.symbol?])
      rw [Holds, held_eq_of_kindAt known] at holdsChild
      cases form : symbol.kind <;>
        simp_all [Symbol.isModule, wayUp, owningModule.turn, Kind.owned, SymbolKind.owned]
  | type type => exact absurd (by simp [known, kind, Kind.isType]) onTheWay.noType
  | _ =>
    rw [kind] at known
    obtain ⟨sym, around, above, further⟩ := onTheWay.around weathered orderly orderlyOrigin
      (by simp [known, Kind.isSymbol, Kind.symbol?])
    exact .inr ⟨sym, by simp [wayUp, around], above, further⟩

/-- From step to step the way goes up, and it ends at a module. -/
theorem OnTheWay.rises (seated : Seated origin) :
    Rises now owningModule.turn (OnTheWay origin now) fun _ owner? =>
      ∃ module, owner? = some module where
  step onTheWay := by
    obtain ⟨kind, known, arrives | ⟨above, goesOn, strict, further⟩⟩ :=
      onTheWay.arrives_or_goes_on weathered orderly orderlyOrigin seated
    · exact ⟨kind, known, .inl ⟨_, arrives, _, rfl⟩⟩
    · exact ⟨kind, known, .inr ⟨above, goesOn, strict, further, fun _ found => found⟩⟩

/-- A statement of the tree that was there at first belongs to a module. -/
theorem Weathered.exists_owningModule {stmt : Stmt} (seated : Seated origin)
    (old : (origin.get? id).isSome) (reachable : now.Reachable id)
    (known : now.kindAt id = some (.stmt stmt)) :
    ∃ module, now.owningModule id = .ok (some module) := by
  have onTheWay : OnTheWay origin now id :=
    ⟨old, reachable, by simp [known, Kind.isType], by simp [known, Kind.isSymbol, Kind.symbol?]⟩
  obtain ⟨_, looked, module, rfl⟩ :=
    (OnTheWay.rises weathered orderly orderlyOrigin seated).exists_ascend orderly.forest
      (fun onTheWay => orderly.reachable_inside onTheWay.reachable) onTheWay
  exact ⟨module, looked⟩

end Ascent

end ProgramTree.Program
