import ProgramTree.Proofs.Bundling
import ProgramTree.Proofs.Resolution

/-!
# Stocktaking

While a pass works, nodes hang nowhere between the moment they are made and the moment they
are put in their place.  They lie on a bench: whatever else hangs nowhere is a root, or a list
that was emptied into another one.  So once the bench is clear, all that is used is in the tree.
-/

namespace ProgramTree

open Program Edit

namespace Program

/-- A list without elements. -/
def Spent (program : Program) (id : NodeId) : Prop :=
  ∃ holds, program.kindAt id = some (.list holds #[])

theorem not_spent_of_any {test : Kind → Bool} {program : Program} {id : NodeId}
    (passes : (program.kindAt id).any test) (noList : ∀ holds, test (.list holds #[]) = false) :
    ¬ program.Spent id := by
  rintro ⟨holds, isEmpty⟩
  simp [isEmpty, noList] at passes

/-- What hangs nowhere is a root, lies on the bench, or is an empty list. -/
def Accounted (region : NodeId → Prop) (bench : List NodeId) (program : Program) : Prop :=
  ∀ id, Known region program id → program.parentOf id = none →
    id ∈ program.roots ∨ id ∈ bench ∨ program.Spent id

/-- Besides, what is used are symbols of the region, and the symbols that are not on the bench
have definition points, unless they are modules. -/
structure Stocked (region : NodeId → Prop) (bench : List NodeId) (program : Program) : Prop where
  accounted : Accounted region bench program
  uses : ∀ {id sym}, Known region program id → program.Uses id sym →
    Known region program sym ∧ (program.kindAt sym).any Kind.isSymbol
  defined : ∀ {id}, Known region program id → (program.kindAt id).any Kind.isSymbol →
    (program.kindAt id).any Kind.isModule ∨ id ∈ bench ∨ (program.definitionOf id).isSome

variable {exact bare : Prop} {region : NodeId → Prop} {bench loose taken made : List NodeId}
  {before after program : Program} {id new sym list parent answer linked : NodeId}

theorem parentOf_none_of_new (unissued : before.get? id = none) : before.parentOf id = none := by
  rw [parentOf, unissued, Option.bind_none]

/-! ## Building -/

theorem Crafted.isModule {allowed : NodeId → Prop}
    (crafted : Crafted allowed taken made before after)
    (isModule : (before.kindAt id).any Kind.isModule) : (after.kindAt id).any Kind.isModule := by
  obtain ⟨kind, known, isModule⟩ := (Option.any_eq_true _ _).mp isModule
  obtain ⟨later, knownLater, reworded⟩ := crafted.kinds known
  rw [knownLater, Option.any_some]
  cases reworded with
  | same => exact isModule
  | symbol kind =>
    simpa [Kind.isModule, Kind.symbol?, Symbol.isModule, kind] using isModule
  | type => simp [Kind.isModule, Kind.symbol?] at isModule

theorem Crafted.definitionOf_isSome {allowed : NodeId → Prop}
    (crafted : Crafted allowed taken made before after)
    (defined : (before.definitionOf id).isSome) : (after.definitionOf id).isSome := by
  obtain ⟨definition, point⟩ := Option.isSome_iff_exists.mp defined
  obtain ⟨kind, known, isPoint⟩ := Option.bind_eq_some_iff.mp point
  obtain ⟨later, knownLater, reworded⟩ := crafted.kinds known
  rw [definitionOf, knownLater, Option.bind_some]
  cases reworded with
  | same => simp [isPoint]
  | symbol kind keeps =>
    exact keeps (by simpa [Kind.definition?, Kind.symbol?] using Option.isSome_of_eq_some isPoint)
  | type => simp [Kind.definition?, Kind.symbol?] at isPoint

/-- Builders take from the bench and put on it. -/
theorem Stocked.crafted {left : List NodeId} (stocked : Stocked region bench before)
    (crafted : Crafted region taken made before after)
    (stays : ∀ id ∈ bench, id ∈ taken ∨ id ∈ left) (comes : ∀ id ∈ made, id ∈ left)
    (defined : ∀ id ∈ taken, (after.kindAt id).any Kind.isSymbol → (after.definitionOf id).isSome) :
    Stocked region left after where
  accounted id known parentless := by
    rcases crafted.tops known.issued parentless with isMade | ⟨issued, free, untaken⟩
    · exact .inr (.inl (comes id isMade))
    · rcases stocked.accounted id ⟨known.inside, issued⟩ free with
        isRoot | onBench | ⟨holds, isList⟩
      · exact .inl (crafted.roots ▸ isRoot)
      · exact .inr (.inl ((stays id onBench).resolve_left untaken))
      · exact .inr (.inr ⟨holds, crafted.kept isList rfl rfl⟩)
  uses {id sym} known uses := by
    rcases crafted.uses_before uses with usesBefore | ⟨_, inside, symbol⟩
    · obtain ⟨knownSym, symbol⟩ :=
        stocked.uses ⟨known.inside, get?_isSome_of_kindAt usesBefore⟩ usesBefore
      exact ⟨⟨knownSym.inside, crafted.issued knownSym.issued⟩, crafted.isSymbol symbol⟩
    · exact ⟨⟨inside, get?_isSome_of_any symbol⟩, symbol⟩
  defined {id} known symbol := by
    by_cases issued : (before.get? id).isSome
    · have symbolBefore := (crafted.isSymbol_iff issued).mp symbol
      rcases stocked.defined ⟨known.inside, issued⟩ symbolBefore with isModule | onBench | isDefined
      · exact .inl (crafted.isModule isModule)
      · rcases stays id onBench with isTaken | isLeft
        · exact .inr (.inr (defined id isTaken symbol))
        · exact .inr (.inl isLeft)
      · exact .inr (.inr (crafted.definitionOf_isSome isDefined))
    · have unissued : before.get? id = none := by simpa using issued
      by_cases held : after.parentOf id = none
      · rcases crafted.tops known.issued held with isMade | ⟨issuedBefore, _⟩
        · exact .inr (.inl (comes id isMade))
        · exact absurd issuedBefore issued
      · have sits := (crafted.sits symbol held).resolve_left
          (fun heldBefore => heldBefore (parentOf_none_of_new unissued))
        obtain ⟨definition, point, _⟩ := sits_iff.mp sits
        exact .inr (.inr (by simp [point]))

/-! ## Insertion -/

/-- Insertions do not change what does not depend on the elements of lists, and is not there
for a statement that an expression becomes. -/
theorem listwise_view {β : Type} (view : Option Kind → β) (origin : Program)
    (lists : ∀ {holds old new}, view (some (.list holds new)) = view (some (.list holds old)))
    (stmts : ∀ {expr}, view (some (.stmt (.expr expr))) = view none) :
    Listwise fun program => ∀ id, view (program.kindAt id) = view (origin.kindAt id) where
  of_kinds same kinds id := by rw [kinds, same]
  wrapped {before after expr} same grown id := by
    by_cases fresh : id = before.nextId
    · rw [← same, fresh, grown.known, get?_eq_none_iff_kindAt.mp (get?_nextId before), stmts]
    · rw [grown.kinds fresh, same]
  elements {before after list holds old new} same known _ kinds id := by
    rw [kinds, ← same]
    split
    · rename_i isList
      rw [isList, known, lists]
    · rfl

theorem listwise_isList (origin : Program) :
    Listwise fun program => ∀ id, (program.kindAt id).any Kind.isList =
      (origin.kindAt id).any Kind.isList :=
  listwise_view (·.any Kind.isList) origin rfl rfl

/-- Neither symbols nor uses have changed. -/
structure Faithful (origin program : Program) : Prop where
  isSymbol : ∀ id, (program.kindAt id).any Kind.isSymbol = (origin.kindAt id).any Kind.isSymbol
  isModule : ∀ id, (program.kindAt id).any Kind.isModule = (origin.kindAt id).any Kind.isModule
  definitionOf : ∀ id, program.definitionOf id = origin.definitionOf id
  uses : ∀ {sym} id, program.Uses id sym = origin.Uses id sym

theorem faithful_of_listwise {α : Type} {edit : Edit α} {given : α}
    (each : ∀ {kept : Program → Prop}, Listwise kept → Maintains kept edit fun _ => True)
    (run : Yields edit before given after) : Faithful before after where
  isSymbol := (each (listwise_view (·.any Kind.isSymbol) before rfl rfl) _ _ _ (fun _ => rfl) run).1
  isModule := (each (listwise_view (·.any Kind.isModule) before rfl rfl) _ _ _ (fun _ => rfl) run).1
  definitionOf :=
    (each (listwise_view (·.bind Kind.definition?) before rfl rfl) _ _ _ (fun _ => rfl) run).1
  uses {sym} := (each (listwise_view (· = some (.expr (.use sym))) before (by simp) (by simp)) _ _ _
    (fun _ => rfl) run).1

/-- What a removal takes a node from means the same afterwards. -/
theorem faithful_remove (run : Yields (remove id) before answer after) : Faithful before after := by
  rcases kindAt_remove run with ⟨_, kinds⟩ | ⟨parent, kind, changed, _, known, exchanged, kinds⟩
  · refine ⟨fun id => ?_, fun id => ?_, fun id => ?_, fun id => ?_⟩ <;>
      simp only [definitionOf, Uses, kinds]
  · have sameForm := exchanged.sameForm
    refine ⟨fun id => ?_, fun id => ?_, fun id => ?_, fun id => ?_⟩ <;>
      simp only [definitionOf, Uses, kinds] <;> split <;> rename_i isParent
    · rw [isParent, known, Option.any_some, Option.any_some, sameForm.isSymbol]
    · rfl
    · rw [isParent, known, Option.any_some, Option.any_some, sameForm.isModule]
    · rfl
    · rw [isParent, known, Option.bind_some, Option.bind_some, sameForm.definition]
    · rfl
    · rw [isParent, known, Option.some.injEq, Option.some.injEq, exchanged.eq_use]
    · rfl

namespace Accounted

theorem wrap (accounted : Accounted region (new :: bench) before)
    (free : before.parentOf new = none) (wrapped : Edit.Wrapped before new linked after) :
    Accounted region (linked :: bench) after ∧ after.parentOf linked = none ∧
      ∀ {id parent}, before.parentOf id = some parent → after.parentOf id = some parent := by
  cases wrapped with
  | bare => exact ⟨accounted, free, fun named => named⟩
  | wrapped grown =>
    have isChild : new ∈ (Kind.stmt (.expr new)).owned := by simp [Kind.owned, Stmt.owned]
    have others : ∀ {id}, id ≠ before.nextId → id ≠ new →
        after.parentOf id = before.parentOf id := fun old notNew =>
      grown.parents old (by simpa [Kind.owned, Stmt.owned] using notNew)
    refine ⟨fun id known parentless => ?_, grown.parent, fun {id parent} named => ?_⟩
    · by_cases fresh : id = before.nextId
      · exact .inr (.inl (by simp [fresh]))
      · have notNew : id ≠ new := by
          rintro rfl
          simp [grown.parent_child isChild] at parentless
        rw [others fresh notNew] at parentless
        have issued : (before.get? id).isSome := by
          obtain ⟨node, found⟩ := Option.isSome_iff_exists.mp known.issued
          have isKind := kindAt_eq found
          rw [grown.kinds fresh] at isKind
          exact get?_isSome_of_kindAt isKind
        rcases accounted id ⟨known.inside, issued⟩ parentless with
          isRoot | onBench | ⟨holds, isList⟩
        · exact .inl (by rwa [grown.rest])
        · exact .inr (.inl (by simp_all))
        · exact .inr (.inr ⟨holds, (grown.kinds fresh).trans isList⟩)
    · rw [others, named]
      · rintro rfl
        simp [parentOf_none_of_new (get?_nextId before)] at named
      · rintro rfl
        simp [free] at named

/-- What lay on the bench hangs in the list. -/
theorem insert (accounted : Accounted region (new :: bench) before)
    (free : before.parentOf new = none) (named : before.parentOf list = some parent)
    (inserted : Edit.Inserted before list new after) :
    Accounted region bench after ∧
      ∀ {id parent}, before.parentOf id = some parent → after.parentOf id = some parent := by
  obtain ⟨linked, wrapped, relinked, context, isWrapped, isRelinked, _, attaching⟩ := inserted.steps
  have same := (attachedBelow (yields_attach.mp attaching)).same
  obtain ⟨accountedWrapped, freeLinked, parents⟩ := accounted.wrap free isWrapped
  have others : ∀ {id}, id ≠ linked → after.parentOf id = wrapped.parentOf id := fun notLinked =>
    same.parentOf.trans (isRelinked.parents (by simp) (by simpa using notLinked))
  refine ⟨fun id known parentless => ?_, fun {id parent} isParent => ?_⟩
  · have notLinked : id ≠ linked := by
      rintro rfl
      rw [same.parentOf, isRelinked.parent_into (by simp)] at parentless
      cases parentless
    rw [others notLinked] at parentless
    have issued : (wrapped.get? id).isSome := by
      rw [← Option.ne_none_iff_isSome, ne_eq, ← isRelinked.get?_eq_none, ← same.get?_eq_none]
      exact Option.ne_none_iff_isSome.mpr known.issued
    rcases accountedWrapped id ⟨known.inside, issued⟩ parentless with
      isRoot | onBench | ⟨holds, isList⟩
    · exact .inl (by rwa [same.roots, isRelinked.roots])
    · exact .inr (.inl (by simp_all))
    · have notHolder : id ≠ list := by
        rintro rfl
        simp [parents named] at parentless
      exact .inr (.inr ⟨holds, by rw [same.kindAt, isRelinked.kinds notHolder, isList]⟩)
  · rw [others, parents isParent]
    rintro rfl
    simp [parents isParent] at freeLinked

/-- An element that is taken out of an emptied list lies on the bench. -/
theorem release (accounted : Accounted region bench before) :
    Accounted region (id :: bench)
      (before.modifyNode id fun node => { node with parent? := none }) := by
  intro other known parentless
  by_cases same : other = id
  · exact .inr (.inl (by simp [same]))
  · have others : (before.modifyNode id fun node => { node with parent? := none }).get? other =
        before.get? other := get?_modifyNode_of_ne (Ne.symm same)
    rw [parentOf, others, ← parentOf] at parentless
    rcases accounted other ⟨known.inside, others ▸ known.issued⟩ parentless with
      isRoot | onBench | spent
    · exact .inl (by rwa [roots_modifyNode])
    · exact .inr (.inl (List.mem_cons_of_mem _ onBench))
    · exact .inr (.inr (by rwa [Spent, kindAt, others, ← kindAt]))

/-- A list on the bench may be emptied. -/
theorem clear {done : Unit} (accounted : Accounted region (new :: bench) before)
    (run : Yields (changeElements new fun _ => #[]) before done after) :
    Accounted region bench after ∧ ∀ {id}, after.parentOf id = before.parentOf id := by
  obtain ⟨holds, elements, _, kinds⟩ := kindAt_changeElements run
  obtain ⟨_, rfl⟩ := yields_changeElements.mp run
  have parents : ∀ {id}, (before.modifyNode new fun node =>
      { node with kind := node.kind.mapElements fun _ => #[] }).parentOf id =
        before.parentOf id := by
    intro id
    rw [parentOf, get?_modifyNode_map, parentOf]
    cases before.get? id
    · rfl
    · simp only [Option.map_some, Option.bind_some]
      split <;> rfl
  refine ⟨fun id known parentless => ?_, parents⟩
  by_cases isNew : id = new
  · exact .inr (.inr ⟨holds, by rw [kinds, if_pos isNew]⟩)
  · rw [parents] at parentless
    have issued : (before.get? id).isSome := by
      have issuedAfter := known.issued
      rwa [get?_modifyNode_of_ne (Ne.symm isNew)] at issuedAfter
    rcases accounted id ⟨known.inside, issued⟩ parentless with isRoot | onBench | ⟨kept, isList⟩
    · exact .inl (by rwa [roots_modifyNode])
    · exact .inr (.inl (by simp_all))
    · exact .inr (.inr ⟨kept, by rw [kinds, if_neg isNew, isList]⟩)

end Accounted

/-- The state of a program while something is inserted into a list that hangs in a node that is
no list. -/
structure Receiving (exact bare : Prop) (region : NodeId → Prop) (list parent : NodeId)
    (loose bench : List NodeId) (program : Program) : Prop where
  orderly : Orderly exact bare region loose program
  accounted : Accounted region bench program
  named : program.parentOf list = some parent
  noList : ¬ (program.kindAt parent).any Kind.isList

namespace Receiving

theorem release (receiving : Receiving exact bare region list parent (id :: loose) bench before)
    (other : list ≠ id) :
    Receiving exact bare region list parent loose (id :: bench)
      (before.modifyNode id fun node => { node with parent? := none }) where
  orderly := receiving.orderly.release
  accounted := receiving.accounted.release
  named := by
    rw [parentOf, get?_modifyNode_of_ne (Ne.symm other), ← parentOf]
    exact receiving.named
  noList := by
    have issued := receiving.orderly.forest.loose_issued (List.mem_cons_self ..)
    have released : Yields (setParent id none) before () _ := yields_setParent.mpr ⟨issued, rfl⟩
    rw [kindAt_setParent released]
    exact receiving.noList

variable (receiving : Receiving exact bare region list parent loose (new :: bench) before)
  (inside : region new)
include receiving inside

/-- The elements of a list that is emptied are no target of the insertion. -/
theorem clear {holds : ListCategory} {elements : Array NodeId} {done : Unit}
    (known : before.kindAt new = some (.list holds elements)) (notPlaced : ¬ before.IsPlaced new)
    (run : Yields (changeElements new fun _ => #[]) before done after) :
    Receiving exact bare region list parent (elements.toList ++ loose) bench after ∧
      ∀ element ∈ elements.toList, region element ∧ list ≠ element ∧ element ∉ loose := by
  have forest := receiving.orderly.forest
  have relinked := relinked_clear known
  have sameLists := (listwise_isList before).change (fun _ => rfl) known (by simp) run
  obtain ⟨accounted, parents⟩ := receiving.accounted.clear run
  obtain ⟨_, rfl⟩ := yields_changeElements.mp run
  have orderly := relinked.orderly_of_unreachable receiving.orderly inside .nil
    (List.Subset.refl _) (by simp)
    (fun reachable => notPlaced ((receiving.orderly.isPlaced_iff inside).mpr reachable))
  refine ⟨⟨orderly, accounted, parents.trans receiving.named, ?_⟩, fun element member => ?_⟩
  · rw [sameLists]
    exact receiving.noList
  have holds := relinked.out_held member
  obtain ⟨insideElement, isParent⟩ := forest.held inside holds
  refine ⟨insideElement, ?_, fun isLoose => forest.loose_free isLoose inside holds⟩
  rintro rfl
  obtain rfl : new = parent := Option.some.inj (isParent.symm.trans receiving.named)
  have noListNew := receiving.noList
  simp [known, Kind.isList] at noListNew

theorem insert (insideList : region list) (issued : (before.get? new).isSome)
    (free : before.parentOf new = none) (notLoose : new ∉ loose) (notPlaced : ¬ before.IsPlaced new)
    {position : Nat} (run : Yields (insertElement list position new) before answer after) :
    Receiving exact bare region list parent loose bench after := by
  have inserted := Edit.inserted issued run
  obtain ⟨accounted, parents⟩ := receiving.accounted.insert free receiving.named inserted
  exact ⟨receiving.orderly.insert insideList (.singleton inside free notLoose notPlaced) issued
    inserted, accounted, parents receiving.named, by
      rw [(listwise_isList before).insertElement (fun _ => rfl) issued run]
      exact receiving.noList⟩

/-- A list that is inserted is emptied, and each of its elements lies on the bench until it is
inserted. -/
theorem splice {depth position : Nat} (insideList : region list) (notLoose : new ∉ loose)
    (run : Yields (spliceWithin depth list position new) before answer after) :
    Receiving exact bare region list parent loose bench after := by
  induction depth generalizing position new loose before answer after with
  | zero => exact (yields_throw run).elim
  | succ depth ih =>
    simp only [spliceWithin, yields_bind, yields_checkInsertable, yields_look, yields_ite,
      yields_pure, elements_eq_ok] at run
    obtain ⟨_, _, ⟨rfl, issued, free, notPlaced⟩, isList, _, ⟨_, rfl⟩, run⟩ := run
    rcases run with
      ⟨_, elements, _, ⟨⟨holds, known⟩, rfl⟩, _, cleared, clearing, _, _, loop, rfl, rfl⟩ | ⟨_, run⟩
    · obtain ⟨emptied, isElement⟩ := receiving.clear inside known notPlaced clearing
      have members : elements.toList.zipIdx.map Prod.fst = elements.toList := by simp
      have elementOf : ∀ {item}, item ∈ elements.toList.zipIdx → item.1 ∈ elements.toList :=
        fun member => members ▸ List.mem_map_of_mem member
      have distinct := receiving.orderly.forest.nodup inside
      rw [held_eq_of_kindAt known] at distinct
      refine Arranged.release_each
        (fun loose => Receiving exact bare region list parent loose bench)
        (fun element offset => spliceWithin depth list (position + offset) element)
        (fun member apart kept run => ?_) (members.symm ▸ emptied) (members.symm ▸ distinct)
        (fun item member => (isElement item.1 (elementOf member)).2.2) loop
      obtain ⟨insideElement, other, _⟩ := isElement _ (elementOf member)
      exact ih (kept.release other) insideElement apart run
    · exact receiving.insert inside insideList issued free notLoose notPlaced run

end Receiving

theorem Faithful.trans {between : Program} (first : Faithful before between)
    (second : Faithful between after) : Faithful before after where
  isSymbol id := (second.isSymbol id).trans (first.isSymbol id)
  isModule id := (second.isModule id).trans (first.isModule id)
  definitionOf id := (second.definitionOf id).trans (first.definitionOf id)
  uses id := (second.uses id).trans (first.uses id)

/-- Edits that leave symbols and uses as they are leave them in order. -/
theorem Stocked.faithful {left : List NodeId} (stocked : Stocked region bench before)
    (faithful : Faithful before after) (since : Since before after)
    (accounted : Accounted region left after)
    (stays : ∀ id ∈ bench, (before.kindAt id).any Kind.isSymbol → id ∈ left) :
    Stocked region left after where
  accounted := accounted
  uses {id sym} known uses := by
    rw [faithful.uses] at uses
    obtain ⟨knownSym, symbol⟩ := stocked.uses ⟨known.inside, get?_isSome_of_kindAt uses⟩ uses
    exact ⟨knownSym.since since, since.isSymbol symbol⟩
  defined {id} known symbol := by
    rw [faithful.isSymbol] at symbol
    rw [faithful.isModule, faithful.definitionOf]
    exact (stocked.defined ⟨known.inside, get?_isSome_of_any symbol⟩ symbol).imp_right
      (.imp_left fun onBench => stays id onBench symbol)

/-! ## Neat programs -/

/-- A sound program, with what lies on the bench. -/
structure Neat (exact : Prop) (region : NodeId → Prop) (bench : List NodeId) (program : Program) :
    Prop where
  sound : Sound exact False region program
  stocked : Stocked region bench program

/-- Work went on and left a neat program.  What was there is still there, and what hung
somewhere hangs there. -/
structure Worked (exact : Prop) (region : NodeId → Prop) (bench : List NodeId)
    (before after : Program) : Prop where
  neat : Neat exact region bench after
  since : Since before after
  parents : ∀ {id parent}, before.parentOf id = some parent → after.parentOf id = some parent

variable {between : Program} {left : List NodeId}

theorem Stocked.mono (stocked : Stocked region bench program) (more : bench ⊆ left) :
    Stocked region left program where
  accounted id known free := (stocked.accounted id known free).imp_right (.imp_left (more ·))
  uses := stocked.uses
  defined known symbol := (stocked.defined known symbol).imp_right (.imp_left (more ·))

theorem Neat.mono (neat : Neat exact region bench program) (more : bench ⊆ left) :
    Neat exact region left program :=
  ⟨neat.sound, neat.stocked.mono more⟩

namespace Worked

theorem refl (neat : Neat exact region bench before) : Worked exact region bench before before :=
  ⟨neat, .refl before, fun named => named⟩

theorem trans (first : Worked exact region bench before between)
    (second : Worked exact region left between after) : Worked exact region left before after :=
  ⟨second.neat, first.since.trans second.since, fun named => second.parents (first.parents named)⟩

theorem of_crafted (neat : Neat exact region bench before)
    (progress : Progress (Sound exact False region) before after)
    (crafted : Crafted region taken made before after)
    (stays : ∀ id ∈ bench, id ∈ taken ∨ id ∈ left) (comes : ∀ id ∈ made, id ∈ left)
    (defined : ∀ id ∈ taken, (after.kindAt id).any Kind.isSymbol → (after.definitionOf id).isSome) :
    Worked exact region left before after :=
  ⟨⟨progress.kept, neat.stocked.crafted crafted stays comes defined⟩, progress.since,
    crafted.parents⟩

/-- What is made of nothing that was there goes on the bench. -/
theorem of_made (neat : Neat exact region bench before)
    (progress : Progress (Sound exact False region) before after)
    (crafted : Crafted region [] made before after) :
    Worked exact region (made ++ bench) before after :=
  .of_crafted neat progress crafted (by simp +contextual) (by simp +contextual) (by simp)

end Worked

/-- One node is inserted, or a list is emptied. -/
theorem inserted_of_splice {position : Nat} (noList : ¬ (before.kindAt new).any Kind.isList)
    (run : Yields (Edit.splice list position new) before linked after) :
    before.parentOf new = none ∧ Edit.Inserted before list new after := by
  simp only [Edit.splice, levelBound, spliceWithin, yields_bind, yields_get, yields_look,
    yields_ite, yields_checkInsertable, yields_pure, isList_eq_ok] at run
  obtain ⟨_, _, ⟨rfl, rfl⟩, _, _, ⟨rfl, issued, free, _⟩, isList, _, ⟨known, rfl⟩, run⟩ := run
  obtain ⟨kind, isKind, rfl⟩ := Option.map_eq_some_iff.mp known
  rcases run with ⟨isList, _⟩ | ⟨_, run⟩
  · exact absurd (by simpa [isKind] using isList) noList
  · exact ⟨free, Edit.inserted issued run⟩

theorem splice_of_insertAtEnd {listEnd : ListEnd}
    (run : Yields (Edit.insertAtEnd listEnd list new) before linked after) :
    ∃ position, Yields (Edit.splice list position new) before linked after := by
  simp only [Edit.insertAtEnd, yields_bind, yields_look] at run
  obtain ⟨kind, _, ⟨_, rfl⟩, run⟩ := run
  split at run
  · cases listEnd with
    | head => exact ⟨_, run⟩
    | tail => exact ⟨_, run⟩
  · exact (yields_fail run).elim

theorem splice_of_insertBeside {side : Side} {anchor : NodeId}
    (run : Yields (Edit.insertBeside side anchor new) before linked after) :
    ∃ list position, before.parentOf anchor = some list ∧ (before.kindAt list).any Kind.isList ∧
      Yields (Edit.splice list position new) before linked after := by
  simp only [Edit.insertBeside, yields_bind, yields_look] at run
  obtain ⟨⟨list, position⟩, origin, ⟨placed, rfl⟩, run⟩ := run
  obtain ⟨holds, elements, known, _⟩ := positionIn_eq_ok.mp (positionIn_anchor placed)
  have isList : (origin.kindAt list).any Kind.isList := by
    rw [known]
    rfl
  cases side with
  | before => exact ⟨list, position, parentOf_anchor placed, isList, run⟩
  | after => exact ⟨list, position + 1, parentOf_anchor placed, isList, run⟩

/-- A list that holds something hangs somewhere if there are only expressions on the bench. -/
theorem Neat.exists_parent {anchor : NodeId} (neat : Neat exact region bench program)
    (exprs : ∀ id ∈ bench, (program.kindAt id).any Kind.isExpr) (inside : region anchor)
    (named : program.parentOf anchor = some list) (isList : (program.kindAt list).any Kind.isList) :
    region list ∧ ∃ parent, program.parentOf list = some parent := by
  obtain ⟨insideList, holds⟩ := neat.sound.orderly.forest.holder inside List.not_mem_nil named
  refine ⟨insideList, Option.ne_none_iff_exists'.mp fun free => ?_⟩
  obtain ⟨kind, known, isListKind⟩ := (Option.any_eq_true _ _).mp isList
  rcases neat.stocked.accounted list ⟨insideList, holds.issued⟩ free with
    isRoot | onBench | ⟨holds', isEmpty⟩
  · have isSymbol := neat.sound.orderly.rooted.isSymbol isRoot
    cases kind <;> simp_all [Kind.isList, Kind.isSymbol, Kind.symbol?]
  · have isExpr := exprs list onBench
    cases kind <;> simp_all [Kind.isList, Kind.isExpr]
  · simp [Holds, held_eq_of_kindAt isEmpty, Kind.owned] at holds

section Insertion

variable (neat : Neat exact region (new :: bench) before)
  (isExpr : (before.kindAt new).any Kind.isExpr) (insideNew : region new)
include neat isExpr insideNew

theorem Neat.splice {position : Nat} (named : before.parentOf list = some parent)
    (insideList : region list)
    (run : Yields (Edit.splice list position new) before linked after) :
    Worked exact region bench before after := by
  obtain ⟨kind, known, isExprKind⟩ := (Option.any_eq_true _ _).mp isExpr
  have noList : ¬ (before.kindAt new).any Kind.isList := by
    cases kind <;> simp_all [Kind.isList, Kind.isExpr]
  have noSymbol : ¬ (before.kindAt new).any Kind.isSymbol := by
    cases kind <;> simp_all [Kind.isSymbol, Kind.symbol?, Kind.isExpr]
  obtain ⟨free, inserted⟩ := inserted_of_splice noList run
  obtain ⟨accounted, parents⟩ := neat.stocked.accounted.insert free named inserted
  have progress := neat.sound.progress (neat.sound.orderly.splice_all insideList insideNew run)
    (fun steady => steady.splice) run
  refine ⟨⟨progress.kept, neat.stocked.faithful (faithful_of_listwise (·.splice) run) progress.since
    accounted ?_⟩, progress.since, parents⟩
  rintro id onBench symbol
  rcases List.mem_cons.mp onBench with rfl | onBench
  · exact absurd symbol noSymbol
  · exact onBench

/-- A list that hangs somewhere takes an expression from the bench. -/
theorem Neat.insertAtEnd {listEnd : ListEnd} (named : before.parentOf list = some parent)
    (insideList : region list)
    (run : Yields (Edit.insertAtEnd listEnd list new) before linked after) :
    Worked exact region bench before after := by
  obtain ⟨position, spliced⟩ := splice_of_insertAtEnd run
  exact neat.splice isExpr insideNew named insideList spliced

/-- So does a list that holds something. -/
theorem Neat.insertBeside {side : Side} {anchor : NodeId} (insideAnchor : region anchor)
    (exprs : ∀ id ∈ bench, (before.kindAt id).any Kind.isExpr)
    (run : Yields (Edit.insertBeside side anchor new) before linked after) :
    Worked exact region bench before after := by
  obtain ⟨list, position, named, isList, spliced⟩ := splice_of_insertBeside run
  obtain ⟨insideList, parent, namedList⟩ :=
    neat.exists_parent (List.forall_mem_cons.mpr ⟨isExpr, exprs⟩) insideAnchor named isList
  exact neat.splice isExpr insideNew namedList insideList spliced

end Insertion

/-! ## Moves -/

/-- What was taken from its place lies on the bench. -/
theorem Accounted.remove (accounted : Accounted region bench before)
    (run : Yields (Edit.remove id) before answer after) : Accounted region (id :: bench) after := by
  obtain ⟨rfl, between, taken, detaching⟩ := Edit.taken run
  have same := (displaced detaching).same
  intro other known parentless
  rw [same.parentOf] at parentless
  rw [same.roots, Spent, same.kindAt]
  by_cases isTaken : other = answer
  · exact .inr (.inl (by simp [isTaken]))
  · have issued : (between.get? other).isSome := same.isSome ▸ known.issued
    cases taken with
    | held named relinked =>
      rw [relinked.parents (by simpa using isTaken) (by simp)] at parentless
      have issuedBefore : (before.get? other).isSome := by
        rwa [← Option.ne_none_iff_isSome, ne_eq, ← relinked.get?_eq_none, ← ne_eq,
          Option.ne_none_iff_isSome]
      rcases accounted other ⟨known.inside, issuedBefore⟩ parentless with
        isRoot | onBench | ⟨holds, isList⟩
      · exact .inl (by rwa [relinked.roots])
      · exact .inr (.inl (List.mem_cons_of_mem _ onBench))
      · refine .inr (.inr ⟨holds, ?_⟩)
        rw [relinked.kinds, isList]
        rintro rfl
        have holder := relinked.out_held (List.mem_singleton.mpr rfl)
        simp [Holds, held_eq_of_kindAt isList, Kind.owned] at holder
    | free named =>
      rcases accounted other ⟨known.inside, issued⟩ parentless with isRoot | onBench | spent
      · exact .inl (by simpa [isTaken] using isRoot)
      · exact .inr (.inl (List.mem_cons_of_mem _ onBench))
      · exact .inr (.inr spent)

/-- The list hangs in a node that is no list. -/
def Hung (region : NodeId → Prop) (program : Program) (list : NodeId) : Prop :=
  ∃ parent, region parent ∧ program.Holds parent list ∧ ¬ (program.kindAt parent).any Kind.isList

/-- What is moved to the end of a list that hangs somewhere leaves nothing behind, even if it
is a list itself. -/
theorem Neat.move (neat : Neat exact region bench before) {middle : Program} {removed : NodeId}
    (inside : region id) (removing : Yields (Edit.remove id) before removed middle)
    (hung : Hung region middle list)
    (inserting : Yields (Edit.insertAtTail list id) middle linked after) :
    Neat exact region bench after := by
  have taken := neat.sound.remove inside removing
  obtain ⟨parent, insideParent, holds, noList⟩ := hung
  obtain ⟨insideList, named⟩ := taken.kept.orderly.forest.held insideParent holds
  have inserted := taken.kept.insertAtEnd insideList inside inserting
  have progress := taken.trans inserted
  have receiving : Receiving exact False region list parent [] (id :: bench) middle :=
    ⟨taken.kept.orderly, neat.stocked.accounted.remove removing, named, noList⟩
  obtain ⟨position, spliced⟩ := splice_of_insertAtEnd inserting
  simp only [Edit.splice, yields_bind, yields_get] at spliced
  obtain ⟨_, _, ⟨rfl, rfl⟩, spliced⟩ := spliced
  have received := receiving.splice inside insideList (by simp) spliced
  have faithful := (faithful_remove removing).trans
    (faithful_of_listwise (·.insertAtEnd) inserting)
  exact ⟨progress.kept, neat.stocked.faithful faithful progress.since received.accounted
    fun _ onBench _ => onBench⟩

end Program

end ProgramTree
