import ProgramTree.Proofs.Islands
import ProgramTree.Proofs.SteadyBuilding
import ProgramTree.Proofs.Workshop

/-!
# Sound programs

The invariant of a pass: a region is orderly, and the definition points in it lie in it.
Every step of a pass keeps it, and no step takes a node away or changes what it is.
-/

namespace ProgramTree

theorem Kind.definition?_renamed {own link : NodeId → NodeId} (kind : Kind) :
    (kind.renamed own link).definition? = kind.definition?.map link := by
  cases kind <;> rfl

namespace Program

open Edit

/-- The node is a symbol, other than a module, with this definition point. -/
def Names (program : Program) (id definition : NodeId) : Prop :=
  ∃ kind, program.kindAt id = some kind ∧ kind.isModule = false ∧
    kind.definition? = some definition

/-- The definition points that symbols of the zone name are expressions of the zone or
among those given. -/
def Located (zone given : NodeId → Prop) (program : Program) : Prop :=
  ∀ id definition, zone id → program.Names id definition →
    given definition ∨ zone definition ∧ (program.kindAt definition).any Kind.isExpr

/-- Every symbol of the tree that is no root sits in the definition that it names. -/
def Seated (program : Program) : Prop :=
  ∀ id symbol, program.Reachable id → id ∉ program.roots →
    program.kindAt id = some (.symbol symbol) →
    ∃ definition init? declaredType?, symbol.defPoint? = some definition ∧
      program.kindAt definition = some (.expr (.definition id init? declaredType?)) ∧
      program.parentOf id = some definition

/-- Whether a node is no symbol, or sits in the definition that it names. -/
def sitsInDefinition (program : Program) (id : NodeId) : Bool :=
  match program.kindAt id with
  | some (.symbol symbol) => symbol.defPoint?.any fun definition =>
    match program.kindAt definition with
    | some (.expr (.definition sym _ _)) => sym = id && program.parentOf id = some definition
    | _ => false
  | _ => true

theorem exists_of_sitsInDefinition {program : Program} {id : NodeId} {symbol : Symbol}
    (known : program.kindAt id = some (.symbol symbol)) (sits : program.sitsInDefinition id) :
    ∃ definition init? declaredType?, symbol.defPoint? = some definition ∧
      program.kindAt definition = some (.expr (.definition id init? declaredType?)) ∧
      program.parentOf id = some definition := by
  simp only [sitsInDefinition, known, Option.any_eq_true] at sits
  obtain ⟨definition, isPoint, sits⟩ := sits
  split at sits
  · rename_i sym init? declaredType? isDefinition
    simp only [Bool.and_eq_true, decide_eq_true_iff] at sits
    obtain ⟨rfl, named⟩ := sits
    exact ⟨definition, init?, declaredType?, isPoint, isDefinition, named⟩
  · cases sits

/-- The region is orderly and holds the definition points of its symbols. -/
structure Sound (exact bare : Prop) (region : NodeId → Prop) (program : Program) : Prop where
  orderly : Orderly exact bare region [] program
  located : Located region (fun _ => False) program

variable {exact bare : Prop} {region zone given : NodeId → Prop} {before between after program : Program}
  {id : NodeId} {kind changed : Kind} {α : Type} {answer : α}

/-! ## Definition points -/

theorem Located.of_since (located : Located zone given before) (since : Since before after)
    (origin : ∀ id definition, after.Names id definition → before.Names id definition ∨
      zone definition ∧ (before.kindAt definition).any Kind.isExpr) :
    Located zone given after := by
  intro id definition inside names
  rcases origin id definition names with namesBefore | ⟨insideDefinition, isExpr⟩
  · exact (located id definition inside namesBefore).imp_right
      fun ⟨insideDefinition, isExpr⟩ => ⟨insideDefinition, since.isExpr isExpr⟩
  · exact .inr ⟨insideDefinition, since.isExpr isExpr⟩

theorem located_of_kinds (located : Located zone given before) (undefined : kind.definition? = none)
    (isFresh : after.kindAt before.nextId = some kind)
    (kinds : ∀ {id}, id ≠ before.nextId → after.kindAt id = before.kindAt id) :
    Located zone given after := by
  have since : Since before after := by
    intro id kind known
    refine ⟨kind, ?_, .refl kind⟩
    rw [kinds ?_, known]
    rintro rfl
    simp [kindAt, get?_nextId] at known
  refine located.of_since since fun id definition nowNames => ?_
  obtain ⟨later, known, notModule, names⟩ := nowNames
  by_cases fresh : id = before.nextId
  · rw [fresh, isFresh, Option.some.injEq] at known
    simp [← known, undefined] at names
  · rw [kinds fresh] at known
    exact .inl ⟨later, known, notModule, names⟩

theorem located_grow (located : Located zone given before) (undefined : kind.definition? = none)
    (pushed : Pushed before kind between)
    (adopted : Adopted between before.nextId kind.owned after) : Located zone given after := by
  refine located_of_kinds located undefined ?_ fun old => ?_
  · rw [adopted.kindAt, pushed.kindAt]
  · rw [adopted.kindAt, pushed.kinds old]

theorem located_setKind (located : Located zone given before)
    (known : before.kindAt id = some kind) (alike : Alike kind changed)
    (redefined : Redefined zone before id kind changed) :
    Located zone given (before.modifyNode id fun node => { node with kind := changed }) := by
  refine located.of_since (since_setKind known alike) ?_
  intro other definition ⟨later, knownOther, notModule, names⟩
  rw [kindAt_setKind known] at knownOther
  by_cases isId : other = id
  · rw [if_pos isId, Option.some.injEq] at knownOther
    subst isId knownOther
    rcases redefined with same | ⟨written, isWritten, inside, isExpr, _⟩
    · exact .inl ⟨kind, known, alike.isModule ▸ notModule, same ▸ names⟩
    · rw [isWritten, Option.some.injEq] at names
      exact .inr (names ▸ ⟨inside, isExpr⟩)
  · rw [if_neg isId] at knownOther
    exact .inl ⟨later, knownOther, notModule, names⟩

theorem located_frame (located : Located zone given before) (nodes : after.nodes = before.nodes) :
    Located zone given after := by
  have sameKind : after.kindAt = before.kindAt := by
    funext id
    rw [kindAt, kindAt, get?, get?, nodes]
  intro id definition
  rw [Names, sameKind]
  exact located id definition

theorem steady_located (zone given : NodeId → Prop) : Steady (Located zone given) where
  push undefined := fun located =>
    located_of_kinds located undefined pushed_push.kindAt pushed_push.kinds
  modifyNode := by
    intro program changed change same located
    refine located.of_since ((steady_since program).modifyNode same (.refl program)) ?_
    intro id definition ⟨later, isKind, notModule, names⟩
    left
    by_cases isChanged : changed = id
    · subst isChanged
      rw [kindAt, get?_modifyNode, if_pos rfl] at isKind
      cases found : program.get? changed with
      | none => simp [found] at isKind
      | some node =>
        obtain rfl : (change node).kind = later := by simpa [found] using isKind
        have sameForm := same node found
        exact ⟨node.kind, kindAt_eq found, sameForm.isModule ▸ notModule,
          sameForm.definition ▸ names⟩
    · rw [kindAt, get?_modifyNode_of_ne isChanged, ← kindAt] at isKind
      exact ⟨later, isKind, notModule, names⟩
  frame := fun located nodes _ => located_frame located nodes

theorem Extends.since (extended : Extends before after) : Since before after := by
  intro id kind known
  obtain ⟨node, found, rfl⟩ := get?_of_kindAt known
  exact ⟨node.kind, kindAt_eq (extended.old found), .refl node.kind⟩

theorem Extends.names_iff {definition : NodeId} (extended : Extends before after)
    (issued : (before.get? id).isSome) :
    after.Names id definition ↔ before.Names id definition := by
  rw [Names, Names, extended.same_kind issued]

section Copies

variable {seeds : Remap} {top definition : NodeId} {order : List NodeId}

/-- A copy of a symbol names what the definition point of the original is redirected to. -/
theorem Duplicated.exists_named (duplicated : Duplicated before seeds top order after)
    (forest : Forest region [] before) (inside : region top) (issued : (before.get? top).isSome)
    (created : before.get? id = none) (names : after.Names id definition) :
    ∃ original target, original ∈ order ∧ id = before.twin order original ∧
      before.Names original target ∧ definition = before.redirect seeds order target := by
  obtain ⟨kind, known, notModule, names⟩ := names
  obtain ⟨copied, foundAfter, isKind⟩ := get?_of_kindAt known
  have isTwin := duplicated.created_iff.mp ⟨created, by simp [foundAfter]⟩
  obtain ⟨original, member, rfl⟩ := List.mem_map.mp isTwin
  obtain ⟨source, foundSource⟩ := duplicated.exists_source forest inside issued member
  rw [kindAt_eq (duplicated.copy member foundSource), copyOf_kind, Option.some.injEq] at known
  subst known
  rw [Kind.isModule_renamed] at notModule
  rw [Kind.definition?_renamed, Option.map_eq_some_iff] at names
  obtain ⟨target, namesTarget, rfl⟩ := names
  exact ⟨original, target, member, rfl, ⟨source.kind, kindAt_eq foundSource, notModule, namesTarget⟩,
    rfl⟩

/-- An expression that is not copied is not redirected if the caller redirects none. -/
theorem redirect_expr (unseeded : ∀ id ∈ seeds, ¬ (before.kindAt id).any Kind.isExpr)
    (isExpr : (before.kindAt id).any Kind.isExpr) (outside : id ∉ order) :
    before.redirect seeds order id = id := by
  have notSeed : seeds[id]? = none :=
    Std.ExtTreeMap.getElem?_eq_none fun seeded => unseeded id seeded isExpr
  rw [redirect, if_neg outside, Remap.apply, Std.ExtTreeMap.getD_eq_getD_getElem?, notSeed,
    Option.getD_none]

/-- Copying keeps definition points located if those of the original symbols are
expressions, and no expression is redirected by the caller. -/
theorem Duplicated.located (duplicated : Duplicated before seeds top order after)
    (forest : Forest region [] before)
    (inside : region top) (issued : (before.get? top).isSome)
    (open_ : ∀ id, before.get? id = none → zone id)
    (unseeded : ∀ id ∈ seeds, ¬ (before.kindAt id).any Kind.isExpr)
    (sources : ∀ id definition, id ∈ order → before.Names id definition →
      (before.kindAt definition).any Kind.isExpr ∧
        (definition ∈ order ∨ given definition ∨ zone definition))
    (located : Located zone given before) : Located zone given after := by
  have since := duplicated.extends_before.since
  intro id definition insideId names
  cases found : before.get? id with
  | some node =>
    have issuedId : (before.get? id).isSome := by simp [found]
    have namesBefore := (duplicated.extends_before.names_iff issuedId).mp names
    exact (located id definition insideId namesBefore).imp_right
      fun ⟨insideDefinition, isExpr⟩ => ⟨insideDefinition, since.isExpr isExpr⟩
  | none =>
    obtain ⟨original, target, member, rfl, namesTarget, rfl⟩ :=
      duplicated.exists_named forest inside issued found names
    obtain ⟨isExpr, place⟩ := sources original target member namesTarget
    by_cases inOrder : target ∈ order
    · rw [redirect, if_pos inOrder]
      obtain ⟨defining, foundTarget⟩ := duplicated.exists_source forest inside issued inOrder
      refine .inr ⟨open_ _ unissued_twin, ?_⟩
      rw [kindAt_eq foundTarget] at isExpr
      rw [kindAt_eq (duplicated.copy inOrder foundTarget), copyOf_kind, Option.any_some,
        Kind.isExpr_renamed]
      exact isExpr
    · rw [redirect_expr unseeded isExpr inOrder]
      exact (place.resolve_left inOrder).imp_right fun insideTarget =>
        ⟨insideTarget, since.isExpr isExpr⟩

end Copies

/-! ## Orderly regions -/

theorem orderly_grow {bare : Prop} (orderly : Orderly exact bare region [] before)
    (pushed : Pushed before kind between)
    (adopted : Adopted between before.nextId kind.owned after)
    (known : ∀ child ∈ kind.owned, Known region before child) :
    Orderly exact bare region [] after := by
  have different : ∀ child ∈ kind.owned, child ≠ before.nextId := by
    rintro child owned rfl
    have issued := (known before.nextId owned).issued
    simp [get?_nextId] at issued
  have old : before.nextId ∉ kind.owned := fun owned => different before.nextId owned rfl
  have kept : ∀ child ∈ kind.owned, between.get? child = before.get? child :=
    fun child owned => pushed.others (different child owned)
  have spare : Spare region [] before kind.owned := by
    refine ⟨fun owned => (known _ owned).inside, ?_, by simp, ?_, adopted.distinct⟩
    · intro child owned
      have free := adopted.free owned
      rw [parentOf, kept child owned] at free
      exact free
    · intro child owned
      have notPlaced := adopted.notPlaced owned
      rw [IsPlaced, contextOf, kept child owned, pushed.rest] at notPlaced
      exact notPlaced
  exact (pushed.grown adopted old).orderly_after orderly spare old

theorem orderly_setKind {bare : Prop} {loose : List NodeId}
    (orderly : Orderly exact bare region loose before) (known : before.kindAt id = some kind)
    (alike : Alike kind changed) :
    Orderly exact bare region loose
      (before.modifyNode id fun node => { node with kind := changed }) := by
  -- whatever two alike kinds have in common does not change
  have unchanged : ∀ {β : Type} (view : Option Kind → β), view (some changed) = view (some kind) →
      ∀ other, view ((before.modifyNode id fun node => { node with kind := changed }).kindAt other) =
        view (before.kindAt other) := by
    intro β view same other
    rw [kindAt_setKind known]
    by_cases isId : other = id
    · rw [if_pos isId, isId, known, same]
    · rw [if_neg isId]
  refine orderly.of_frame ⟨?_, ?_, ?_, ?_, ?_, index_modifyNode⟩ ?_ ?_ ?_ roots_modifyNode
  · intro other
    rw [contextOf, get?_modifyNode_map, contextOf]
    cases before.get? other <;> simp [apply_ite]
  · exact unchanged (·.any Kind.isSymbol) (by simp [alike.isSymbol])
  · exact unchanged (·.any Kind.isScope) (by simp [alike.isScope])
  · exact unchanged (·.any Kind.isModule) (by simp [alike.isModule])
  · exact unchanged (·.bind Kind.category?) (by simp [alike.category])
  · exact unchanged (fun kind? => (kind?.map Kind.owned).getD []) (by simp [alike.owned])
  · exact fun _ => parentOf_setKind
  · intro other
    rw [get?_modifyNode_map]
    simp

/-- What new nodes are attributed to does not matter. -/
theorem orderly_of_nodes {bare : Prop} {loose : List NodeId}
    (orderly : Orderly exact bare region loose before) (nodes : after.nodes = before.nodes)
    (roots : after.roots = before.roots) (index : after.index = before.index) :
    Orderly exact bare region loose after := by
  have sameNodes : after.get? = before.get? := by
    funext id
    rw [get?, get?, nodes]
  refine orderly.of_frame ⟨?_, ?_, ?_, ?_, ?_, index⟩ ?_ ?_ ?_ roots
  all_goals
    intro id
    simp [contextOf, kindAt, held, parentOf, sameNodes]

/-! ## Sound programs -/

theorem Sound.workshop (exact bare : Prop) (region : NodeId → Prop) :
    Workshop region (Sound exact bare region) where
  fresh sound := sound.orderly.forest.inside_fresh
  grow sound undefined pushed adopted known :=
    ⟨orderly_grow sound.orderly pushed adopted known,
      located_grow sound.located undefined pushed adopted⟩
  setKind sound _ known alike redefined :=
    ⟨orderly_setKind sound.orderly known alike, located_setKind sound.located known alike redefined⟩
  frame sound nodes roots index :=
    ⟨orderly_of_nodes sound.orderly nodes roots index, located_frame sound.located nodes⟩

namespace Sound

variable (sound : Sound exact bare region before) {old new list parent linked anchor : NodeId}
include sound

/-- A steady edit that keeps the region orderly is a step of a pass. -/
theorem progress {edit : Edit α} (orderly : Orderly exact bare region [] after)
    (steady : ∀ {kept : Program → Prop}, Steady kept → Maintains kept edit fun _ => True)
    (run : Yields edit before answer after) : Progress (Sound exact bare region) before after := by
  have located := (steady (steady_located region _) _ _ _ sound.located run).1
  exact ⟨⟨orderly, located⟩, (steady (steady_since before) _ _ _ (.refl before) run).1⟩

theorem remove (inside : region id) (run : Yields (Edit.remove id) before new after) :
    Progress (Sound exact bare region) before after :=
  sound.progress (sound.orderly.remove inside run) (fun steady => steady.remove) run

theorem replace (insideOld : region old) (insideNew : region new)
    (run : Yields (Edit.replace old new) before parent after) :
    Progress (Sound exact bare region) before after :=
  sound.progress (sound.orderly.replace insideOld insideNew run) (fun steady => steady.replace) run

theorem insertBeside {side : Side} (insideAnchor : region anchor) (insideNew : region new)
    (run : Yields (Edit.insertBeside side anchor new) before linked after) :
    Progress (Sound exact bare region) before after :=
  sound.progress (sound.orderly.insertBeside insideAnchor insideNew run)
    (fun steady => steady.insertBeside) run

theorem insertAtEnd {listEnd : ListEnd} (insideList : region list) (insideNew : region new)
    (run : Yields (Edit.insertAtEnd listEnd list new) before linked after) :
    Progress (Sound exact bare region) before after :=
  sound.progress (sound.orderly.insertAtEnd insideList insideNew run)
    (fun steady => steady.insertAtEnd) run

/-! ## Copies -/

theorem duplicate (inside : region id) (run : Yields (Edit.duplicate id) before new after) :
    Made region (Sound exact bare region) before new after := by
  simp only [Edit.duplicate, yields_bind, yields_pure] at run
  obtain ⟨copied, _, run, rfl, rfl⟩ := run
  have forest := sound.orderly.forest
  obtain ⟨issued, order, isTwin, duplicated⟩ := duplicated_of_yields forest inside (by simp) run
  have orderly := duplicated.orderly inside issued sound.orderly
  have located : Located region (fun _ => False) after := by
    refine duplicated.located forest inside issued (fun _ unissued => forest.unissued unissued)
      (by simp) ?_ sound.located
    intro id definition member names
    have insideId := forest.contains inside (duplicated.mem_order.mp member)
    obtain never | ⟨insideDefinition, isExpr⟩ := sound.located id definition insideId names
    · exact never.elim
    · exact ⟨isExpr, .inr (.inr insideDefinition)⟩
  obtain ⟨source, found⟩ := Option.isSome_iff_exists.mp issued
  refine ⟨⟨⟨orderly, located⟩, duplicated.extends_before.since⟩, ?_, ?_⟩
  · rw [isTwin]
    exact forest.unissued unissued_twin
  · rw [isTwin, duplicated.copy (duplicated.mem_order.mpr .refl) found]
    rfl

end Sound

end Program

end ProgramTree
