import ProgramTree.Proofs.Crafting
import ProgramTree.Proofs.GpuVariants

/-!
# The free symbols of a loop

What takes the place of a loop uses symbols of its own, and symbols that the loop uses and does
not contain.  A part of a loop that is copied by itself takes no symbol of another part along
if what uses a symbol of a part is in that part.
-/

namespace ProgramTree

open Program Edit

/-- The lists that a loop starts with. -/
def Kind.heads : Kind → List NodeId
  | .stmt (.forLoop indices iterators _ _) => [indices, iterators]
  | _ => []

theorem Kind.heads_eq {kind : Kind} :
    kind.heads = if kind.category? = some .loop then kind.owned.take 2 else [] := by
  cases kind with
  | stmt stmt => cases stmt <;> rfl
  | expr expr => cases expr <;> rfl
  | symbol symbol =>
    simp only [heads, category?]
    split <;> simp_all
  | _ => rfl

theorem Kind.exists_forLoop_of_category {kind : Kind} (category : kind.category? = some .loop) :
    ∃ indices iterators body independent,
      kind = .stmt (.forLoop indices iterators body independent) := by
  rw [category?.eq_def] at category
  split at category <;> simp_all

theorem Kind.isSymbol_renamed {own link : NodeId → NodeId} (kind : Kind) :
    (kind.renamed own link).isSymbol = kind.isSymbol := by
  cases kind <;> rfl

namespace Program

/-- The tree passes the check, its symbols sit in their definitions, and what is used in it is
a symbol of it. -/
structure Resolved (program : Program) : Prop where
  healthy : Healthy program
  seated : Seated program
  uses : ∀ {id sym}, program.Reachable id → program.Uses id sym →
    program.Reachable sym ∧ (program.kindAt sym).any Kind.isSymbol

/-- What uses a symbol of the part is in the part. -/
def Enclosed (program : Program) (part : NodeId) : Prop :=
  ∀ id sym, program.Reachable id → program.Uses id sym → program.Contains part sym →
    program.Contains part id

/-- The loop starts with this list. -/
def Starts (program : Program) (loop list : NodeId) : Prop :=
  ∃ kind, program.kindAt loop = some kind ∧ list ∈ kind.heads ∧
    (program.kindAt list).any Kind.isList

/-- A node that the loop holds, or an element of a list that it starts with. -/
def PartOf (program : Program) (loop part : NodeId) : Prop :=
  program.Holds loop part ∨ ∃ list, program.Starts loop list ∧ program.Holds list part

def Tight (program : Program) (loop : NodeId) : Prop :=
  ∀ part, program.PartOf loop part → program.Enclosed part

/-- The loop uses the symbol and does not contain it. -/
structure FreeIn (program : Program) (loop sym : NodeId) : Prop where
  reachable : program.Reachable sym
  outside : ¬ program.Contains loop sym
  used : ∃ id, program.Contains loop id ∧ program.Uses id sym

/-- A symbol that was not there yet, or is free in the loop. -/
def Suitable (program : Program) (loop sym : NodeId) : Prop :=
  program.New sym ∨ program.FreeIn loop sym

variable {origin before after program : Program} {loop top part id sym answer : NodeId}
  {kind : Kind}

/-! ## Parts of the tree -/

theorem Starts.holds (starts : origin.Starts loop top) : origin.Holds loop top := by
  obtain ⟨kind, known, head, _⟩ := starts
  rw [Kind.heads_eq] at head
  rw [Holds, held_eq_of_kindAt known]
  split at head
  · exact List.mem_of_mem_take head
  · cases head

theorem PartOf.reachable (isPart : origin.PartOf loop part) (reachable : origin.Reachable loop) :
    origin.Reachable part := by
  rcases isPart with holds | ⟨list, starts, holds⟩
  · exact reachable.holds holds
  · exact (reachable.holds starts.holds).holds holds

theorem Healthy.forest (healthy : Healthy origin) :
    Forest (fun id => origin.Reachable id ∨ origin.New id) [] origin :=
  (Draft.start healthy).orderly.forest

theorem Healthy.issued (healthy : Healthy origin) (reachable : origin.Reachable id) :
    (origin.get? id).isSome :=
  Arranged.issued_of_reachable (Draft.start healthy).orderly reachable

/-- A new part of the program does not show in what was there. -/
theorem Draft.contains_iff (draft : Draft origin before) (healthy : Healthy origin)
    (reachable : origin.Reachable top) : before.Contains top id ↔ origin.Contains top id :=
  draft.extended.contains_iff fun _ contained => healthy.issued (reachable.contains contained)

namespace Resolved

variable (resolved : Resolved origin)
include resolved

/-- A symbol that something holds is held by its definition point. -/
theorem sits {holder : NodeId} (reachable : origin.Reachable holder)
    (holds : origin.Holds holder id) (symbol : (origin.kindAt id).any Kind.isSymbol) :
    origin.Sits id := by
  obtain ⟨kind, known, isSymbol⟩ := (Option.any_eq_true _ _).mp symbol
  have named := (resolved.healthy.forest.held (.inl reachable) holds).2
  have notRoot : id ∉ origin.roots := fun isRoot => by
    simp [(Draft.start resolved.healthy).orderly.rooted.free isRoot] at named
  cases kind with
  | symbol symbol =>
    obtain ⟨definition, init?, declaredType?, point, isDefinition, held⟩ :=
      resolved.seated id symbol (reachable.holds holds) notRoot known
    exact ⟨symbol, definition, init?, declaredType?, known, point, isDefinition, held⟩
  | _ => cases isSymbol

/-- Only definitions hold symbols. -/
theorem solid_of_held {holder : NodeId} (reachable : origin.Reachable holder)
    (known : origin.kindAt holder = some kind) (noExpr : kind.isExpr = false)
    (holds : origin.Holds holder id) : Solid origin id := by
  have issued := resolved.healthy.issued (reachable.holds holds)
  obtain ⟨node, found⟩ := Option.isSome_iff_exists.mp issued
  refine .of_kind (kindAt_eq found) (Bool.eq_false_iff.mpr fun isSymbol => ?_)
  obtain ⟨_, definition, _, _, _, _, isDefinition, named⟩ :=
    resolved.sits reachable holds (by simpa [kindAt_eq found] using isSymbol)
  rw [(resolved.healthy.forest.held (.inl reachable) holds).2, Option.some.injEq] at named
  rw [← named, known, Option.some.injEq] at isDefinition
  subst isDefinition
  cases noExpr

/-- What two parts of one holder share is not there. -/
theorem part_eq {holder first second : NodeId} (reachable : origin.Reachable holder)
    (holdsFirst : origin.Holds holder first) (holdsSecond : origin.Holds holder second)
    (left : origin.Contains first id) (right : origin.Contains second id) : first = second := by
  by_contra different
  exact resolved.healthy.forest.siblings_disjoint (.inl reachable) holdsFirst holdsSecond different
    left right

/-- A symbol of a tight loop that is used in a part of it is in that part. -/
theorem contains_of_tight {stmt : Stmt} (reachable : origin.Reachable loop)
    (tight : Tight origin loop) (known : origin.kindAt loop = some (.stmt stmt))
    (isPart : origin.PartOf loop part) (inPart : origin.Contains part id)
    (uses : origin.Uses id sym) (inLoop : origin.Contains loop sym) :
    origin.Contains part sym := by
  have reachableId := (isPart.reachable reachable).contains inPart
  have symbol := (resolved.uses reachableId uses).2
  obtain rfl | ⟨child, holds, below⟩ := inLoop.cases_head
  · simp [known, Kind.isSymbol, Kind.symbol?] at symbol
  have inChild := tight child (.inl holds) id sym reachableId uses below
  rcases isPart with holdsPart | ⟨list, starts, holdsPart⟩
  · rwa [resolved.part_eq reachable holdsPart holds inPart inChild]
  · have inList : origin.Contains list id := .head holdsPart inPart
    obtain rfl := resolved.part_eq reachable starts.holds holds inList inChild
    obtain rfl | ⟨element, holdsElement, belowElement⟩ := below.cases_head
    · exact absurd symbol (resolved.solid_of_held reachable known rfl holds).not_isSymbol
    · have inElement := tight element (.inr ⟨list, starts, holdsElement⟩) id sym reachableId
        uses belowElement
      rwa [resolved.part_eq (reachable.holds holds) holdsPart holdsElement inPart inElement]

end Resolved

/-! ## Copies -/

section Copies

variable {seeds : Remap} {updated order : List NodeId} {copied : Edit.Duplication}

/-- What lies below the top, which was there from the start, was copied, and nothing else is
new. -/
structure Twins (origin before : Program) (seeds : Remap) (top : NodeId) (order : List NodeId)
    (after : Program) : Prop where
  extended : Extends before after
  mem_order : ∀ {original}, original ∈ order ↔ origin.Contains top original
  kind : ∀ {original kind}, original ∈ order → origin.kindAt original = some kind →
    after.kindAt (before.twin order original) =
      some (kind.renamed (before.twin order) (before.redirect seeds order))
  parent : ∀ {original}, original ∈ order → original ≠ top →
    after.parentOf (before.twin order original) =
      (origin.parentOf original).map (before.twin order)
  isTwin : ∀ {id}, before.get? id = none → (after.get? id).isSome →
    ∃ original ∈ order, before.twin order original = id

theorem Duplicated.twins (extended : Extends origin before)
    (issued : ∀ id, origin.Contains top id → (origin.get? id).isSome)
    (duplicated : Duplicated before seeds top order after) :
    Twins origin before seeds top order after := by
  have inTop : ∀ {original}, original ∈ order ↔ origin.Contains top original := fun {original} =>
    duplicated.mem_order.trans (extended.contains_iff issued)
  have sourceOf : ∀ {original}, original ∈ order → ∃ source, origin.get? original = some source ∧
      before.get? original = some source := by
    intro original member
    obtain ⟨source, found⟩ := Option.isSome_iff_exists.mp (issued _ (inTop.mp member))
    exact ⟨source, found, extended.old found⟩
  refine ⟨duplicated.extends_before, inTop, fun {original kind} member known => ?_,
    fun {original} member strict => ?_, fun unissued issuedAfter =>
      List.mem_map.mp (duplicated.created_iff.mp ⟨unissued, issuedAfter⟩)⟩
  · obtain ⟨source, foundOrigin, found⟩ := sourceOf member
    obtain rfl : source.kind = kind := Option.some.inj ((kindAt_eq foundOrigin).symm.trans known)
    rw [kindAt_eq (duplicated.copy member found), copyOf_kind]
  · obtain ⟨source, foundOrigin, found⟩ := sourceOf member
    rw [parentOf_eq (duplicated.copy member found), parentOf_eq foundOrigin, ← parentOf_eq found]
    simp [copyOf, strict]

theorem Draft.twins (draft : Draft origin before) (healthy : Healthy origin)
    (reachable : origin.Reachable top) (duplicated : Duplicated before seeds top order after) :
    Twins origin before seeds top order after :=
  duplicated.twins draft.extended fun _ contained => healthy.issued (reachable.contains contained)

namespace Twins

variable (twins : Twins origin before seeds top order after) (resolved : Resolved origin)
  (reachable : origin.Reachable top)
include twins resolved reachable

/-- Below the top, the holder of a node was copied. -/
theorem exists_holder {original : NodeId} (member : original ∈ order) (strict : original ≠ top) :
    ∃ holder ∈ order, origin.Holds holder original ∧ origin.parentOf original = some holder ∧
      after.parentOf (before.twin order original) = some (before.twin order holder) := by
  obtain ⟨holder, above, holds⟩ := exists_holder_of_contains (twins.mem_order.mp member) strict
  have named := (resolved.healthy.forest.held (.inl (reachable.contains above)) holds).2
  exact ⟨holder, twins.mem_order.mpr above, holds, named, by
    rw [twins.parent member strict, named, Option.map_some]⟩

theorem exists_kind {original : NodeId} (member : original ∈ order) :
    ∃ kind, origin.kindAt original = some kind ∧ after.kindAt (before.twin order original) =
      some (kind.renamed (before.twin order) (before.redirect seeds order)) := by
  obtain ⟨node, found⟩ := Option.isSome_iff_exists.mp
    (resolved.healthy.issued (reachable.contains (twins.mem_order.mp member)))
  exact ⟨node.kind, kindAt_eq found, twins.kind member (kindAt_eq found)⟩

/-- A copy of a use is a use. -/
theorem exists_uses {original : NodeId} (member : original ∈ order)
    (uses : after.Uses (before.twin order original) sym) :
    ∃ target, origin.Uses original target ∧ before.redirect seeds order target = sym := by
  obtain ⟨kind, known, knownTwin⟩ := twins.exists_kind resolved reachable member
  rw [Uses, knownTwin, Option.some.injEq] at uses
  cases kind with
  | expr expr =>
    cases expr with
    | use target =>
      simp only [Kind.renamed, Expr.renamed, Kind.expr.injEq, Expr.use.injEq] at uses
      exact ⟨target, known, uses⟩
    | _ => simp [Kind.renamed, Expr.renamed] at uses
  | _ => simp [Kind.renamed] at uses

theorem usable (draft : Draft origin before) (inLoop : origin.Contains loop top)
    (closed : ∀ id sym, origin.Contains top id → origin.Uses id sym → origin.Contains loop sym →
      origin.Contains top sym)
    (seeded : ∀ id given : NodeId, seeds[id]? = some given → Usable origin.New before given)
    (unissued : before.get? id = none) (uses : after.Uses id sym) :
    Usable (Suitable origin loop) after sym := by
  have symbolAfter : ∀ {id}, (before.kindAt id).any Kind.isSymbol →
      (after.kindAt id).any Kind.isSymbol := fun symbol => by
    rwa [twins.extended.same_kind (get?_isSome_of_any symbol)]
  obtain ⟨original, member, rfl⟩ := twins.isTwin unissued (get?_isSome_of_kindAt uses)
  obtain ⟨target, usesTarget, rfl⟩ := twins.exists_uses resolved reachable member uses
  have inTop := twins.mem_order.mp member
  obtain ⟨reachableTarget, symbol⟩ := resolved.uses (reachable.contains inTop) usesTarget
  by_cases inOrder : target ∈ order
  · obtain ⟨kind, known, isSymbol⟩ := (Option.any_eq_true _ _).mp symbol
    rw [redirect, if_pos inOrder]
    refine ⟨.inl (draft.new_of_unissued unissued_twin), ?_⟩
    rw [twins.kind inOrder known, Option.any_some, Kind.isSymbol_renamed, isSymbol]
  · rw [redirect, if_neg inOrder, Remap.apply, Std.ExtTreeMap.getD_eq_getD_getElem?]
    cases entry : seeds[target]? with
    | some given =>
      obtain ⟨new, isGiven⟩ := seeded target given entry
      exact ⟨.inl new, symbolAfter isGiven⟩
    | none =>
      refine ⟨.inr ⟨reachableTarget, fun below => inOrder ?_, original, ?_, usesTarget⟩, ?_⟩
      · exact twins.mem_order.mpr (closed original target inTop usesTarget below)
      · exact inLoop.trans inTop
      · apply symbolAfter
        rwa [Option.getD_none, draft.extended.same_kind (resolved.healthy.issued reachableTarget)]

/-- A copied symbol sits in the copy of its definition. -/
theorem sits (solid : Solid origin top) (unissued : before.get? id = none)
    (symbol : (after.kindAt id).any Kind.isSymbol) : after.Sits id := by
  obtain ⟨original, member, rfl⟩ := twins.isTwin unissued (get?_isSome_of_any symbol)
  obtain ⟨kind, known, knownTwin⟩ := twins.exists_kind resolved reachable member
  have isSymbol : (origin.kindAt original).any Kind.isSymbol := by
    simpa [known, knownTwin, Kind.isSymbol_renamed] using symbol
  have strict : original ≠ top := by
    rintro rfl
    exact solid.not_isSymbol isSymbol
  obtain ⟨holder, holderIn, holds, named, namedTwin⟩ :=
    twins.exists_holder resolved reachable member strict
  obtain ⟨data, definition, init?, declaredType?, isData, point, isDefinition, sits⟩ :=
    resolved.sits (reachable.contains (twins.mem_order.mp holderIn)) holds isSymbol
  obtain rfl : holder = definition := Option.some.inj (named.symm.trans sits)
  refine ⟨_, before.twin order holder, _, _, twins.kind member isData, ?_,
    twins.kind holderIn isDefinition, namedTwin⟩
  simp [point, redirect, holderIn]

end Twins

/-- A copy of a part uses symbols of its own, those that it was given, and what is free in the
loop. -/
theorem Draft.assembled_duplicateWith (draft : Draft origin before) (resolved : Resolved origin)
    (reachable : origin.Reachable top) (solid : Solid origin top)
    (inLoop : origin.Contains loop top)
    (closed : ∀ id sym, origin.Contains top id → origin.Uses id sym → origin.Contains loop sym →
      origin.Contains top sym)
    (unseeded : ∀ id, before.Contains top id → id ∉ seeds)
    (seeded : ∀ id given : NodeId, seeds[id]? = some given → Usable origin.New before given)
    (run : Yields (Edit.duplicateWith top seeds updated false) before copied after) :
    Assembled (Suitable origin loop) [] before copied.duplicate after := by
  obtain ⟨issued, order, isTwin, duplicated⟩ :=
    duplicated_of_yields draft.orderly.forest (.inl reachable) unseeded run
  have twins := draft.twins resolved.healthy reachable duplicated
  have extended := twins.extended
  have issued_or : ∀ id, (before.get? id).isSome ∨ before.get? id = none := fun id => by
    cases before.get? id <;> simp
  refine ⟨⟨fun {id kind} known => ?_, fun new uses =>
    twins.usable resolved reachable draft inLoop closed seeded new uses, extended.roots,
    fun {id parent} named => ?_, fun {id} issuedId parentless => ?_,
    fun {id old new} known _ knownLater => ?_, fun {id} symbol held => ?_⟩, ?_⟩
  · obtain ⟨node, found, rfl⟩ := get?_of_kindAt known
    exact ⟨node.kind, kindAt_eq (extended.old found), .same _⟩
  · obtain ⟨node, found, _⟩ := get?_of_parentOf named
    rwa [extended.same_parent (by simp [found])]
  · rcases issued_or id with issuedBefore | unissued
    · rw [extended.same_parent issuedBefore] at parentless
      exact .inr ⟨issuedBefore, parentless, by simp⟩
    · obtain ⟨original, member, rfl⟩ := twins.isTwin unissued issuedId
      left
      by_cases strict : original = top
      · rw [isTwin, strict, List.mem_singleton]
      · obtain ⟨holder, _, _, _, named⟩ := twins.exists_holder resolved reachable member strict
        simp [named] at parentless
  · obtain ⟨node, found, _⟩ := get?_of_kindAt known
    rw [extended.same_kind (by simp [found]), known] at knownLater
    obtain ⟨⟩ := knownLater
    rfl
  · rcases issued_or id with issuedBefore | unissued
    · rw [extended.same_parent issuedBefore] at held
      exact .inl held
    · exact .inr (twins.sits resolved reachable solid unissued symbol)
  · obtain ⟨kind, known, topSolid⟩ := (Option.any_eq_true _ _).mp solid
    rw [isTwin]
    exact .of_kind (twins.kind (twins.mem_order.mpr .refl) known)
      (by simpa [Kind.isSymbol_renamed] using topSolid)

end Copies

/-! ## The GPU variant -/

theorem usedSymbol_eq_some : before.usedSymbol id = .ok (some sym) ↔ before.Uses id sym := by
  refine ⟨fun looked => ?_, fun uses => Fault.bind_eq_ok.mpr ⟨_, kindOf_eq_ok.mpr uses, rfl⟩⟩
  simp only [usedSymbol, Fault.bind_eq_ok, kindOf_eq_ok] at looked
  obtain ⟨kind, known, looked⟩ := looked
  split at looked
  · obtain ⟨⟩ := Fault.pure_eq_ok.mp looked
    exact known
  · simp [Fault.pure_eq_ok] at looked

theorem exists_usedSymbol (issued : (before.get? id).isSome) :
    ∃ sym?, before.usedSymbol id = .ok sym? ∧ ∀ sym, sym? = some sym ↔ before.Uses id sym := by
  obtain ⟨node, found⟩ := Option.isSome_iff_exists.mp issued
  have known := kindAt_eq found
  by_cases isUse : ∃ sym, node.kind = .expr (.use sym)
  · obtain ⟨sym, isUse⟩ := isUse
    rw [isUse] at known
    refine ⟨some sym, usedSymbol_eq_some.mpr known, fun other => ?_⟩
    simp [Uses, known]
  · refine ⟨none, Fault.bind_eq_ok.mpr ⟨_, kindOf_eq_ok.mpr known, ?_⟩, fun sym =>
      iff_of_false (Option.some_ne_none sym).symm fun uses => isUse ⟨sym, ?_⟩⟩
    swap
    · exact Option.some.inj (known.symm.trans uses)
    split
    · exact absurd ⟨_, ‹_›⟩ isUse
    · rfl

theorem eq_of_seeded {key value given : NodeId}
    (entry : ((∅ : Remap).insert key value)[id]? = some given) : id = key ∧ given = value := by
  rw [Std.ExtTreeMap.getElem?_insert] at entry
  split at entry
  · rename_i equal
    exact ⟨(Std.LawfulEqCmp.eq_of_compare equal).symm, (Option.some.inj entry).symm⟩
  · simp at entry

theorem eq_of_mem_seeds {key value : NodeId} (seeded : id ∈ (∅ : Remap).insert key value) :
    id = key := by
  obtain ⟨given, entry⟩ :=
    Option.isSome_iff_exists.mp (Std.ExtTreeMap.mem_iff_isSome_getElem?.mp seeded)
  exact (eq_of_seeded entry).1

variable {parts : LoopParts} {name : String} {answers : List NodeId}

/-- A loop that has a GPU variant holds its parts, and its index is used in its list of indices. -/
theorem exists_of_loopParts? (looked : before.loopParts? loop = .ok (some parts)) :
    ∃ indices independent use, before.kindAt loop =
        some (.stmt (.forLoop indices parts.iterators parts.body independent)) ∧
      before.Holds indices use ∧ before.Uses use parts.index := by
  rw [loopParts?, Fault.bind_eq_ok] at looked
  obtain ⟨kind, known, looked⟩ := looked
  rw [kindOf_eq_ok] at known
  split at looked
  · rename_i indices iterators body independent
    simp only [Fault.bind_eq_ok, elements_eq_ok] at looked
    obtain ⟨elements, ⟨holds, isList⟩, looked⟩ := looked
    split at looked
    · rename_i use isSingle
      rw [Fault.bind_eq_ok] at looked
      obtain ⟨index?, isUse, looked⟩ := looked
      split at looked
      · rename_i index
        rw [Fault.bind_eq_ok] at looked
        obtain ⟨jumping, _, looked⟩ := looked
        rw [Fault.pure_eq_ok] at looked
        split at looked
        · cases looked
        · cases looked
          refine ⟨indices, independent, use, known, ?_, usedSymbol_eq_some.mp isUse⟩
          rw [Holds, held_eq_of_kindAt isList]
          simp [Kind.owned, isSingle]
      · cases looked
    · cases looked
  · cases looked

/-! A variable is defined, and set to what an operation without operands gives. -/

section Setting

variable {operation : Primitive} {var definition value set : NodeId} {defined valued : Program}
  {zone : NodeId → Prop} {kept : Program → Prop} {allowed : NodeId → Prop}
  (runDefine : Yields (Edit.define var) before definition defined)
  (runValue : Yields (Edit.newPrimitiveCall operation []) defined value valued)
  (runSet : Yields (Edit.newPrimitiveCall .move [var, value]) valued set after)
include runDefine runValue runSet

theorem Workshop.setVar (workshop : Workshop zone kept) (start : kept before)
    (known : Known zone before var) :
    Progress kept before after ∧ Known zone after definition ∧ Known zone after set := by
  have madeDefinition := workshop.define start known runDefine
  have madeValue := workshop.newPrimitiveCall madeDefinition.progress.kept (by simp) runValue
  have untilValue := madeDefinition.progress.trans madeValue.progress
  have madeSet := workshop.newPrimitiveCall untilValue.kept
    (by simpa [Operand] using ⟨.inl (known.since untilValue.since), .inl madeValue.known⟩) runSet
  exact ⟨untilValue.trans madeSet.progress,
    madeDefinition.known.since (madeValue.progress.trans madeSet.progress).since, madeSet.known⟩

theorem Crafted.of_setVar (fits : allowed var) :
    Crafted allowed [var] [definition, set] before after ∧
      Solid after definition ∧ Solid after set := by
  have defining : Assembled allowed [var] before definition defined := .of_define runDefine
  have valuing : Assembled allowed [] defined value valued :=
    .of_newPrimitiveCall (by simp) (by simp) runValue
  have setting : Assembled allowed [value] valued set after :=
    .of_newPrimitiveCall (by simpa using ⟨.inr fits, .inl valuing.solid⟩)
      (by simpa using valuing.solid) runSet
  have untilValue : Crafted allowed [var] [definition, value] before valued :=
    defining.crafted.followedBy valuing.crafted (by simp) (by simp) (by simp)
  exact ⟨untilValue.followedBy setting.crafted (by simp) (by simp) (by simp),
    setting.crafted.solid (valuing.crafted.solid defining.solid), setting.solid⟩

end Setting

theorem holds_of_loopParts? (looked : origin.loopParts? loop = .ok (some parts)) :
    origin.Holds loop parts.iterators ∧ origin.Holds loop parts.body := by
  obtain ⟨indices, independent, use, known, _⟩ := exists_of_loopParts? looked
  simp [Holds, held_eq_of_kindAt known, Kind.owned, Stmt.owned]

/-- The index of a tight loop is not defined in its body. -/
theorem Resolved.index_outside (resolved : Resolved origin) (reachable : origin.Reachable loop)
    (tight : Tight origin loop) (looked : origin.loopParts? loop = .ok (some parts)) :
    ¬ origin.Contains parts.body parts.index := by
  obtain ⟨indices, independent, use, known, holdsUse, usesIndex⟩ := exists_of_loopParts? looked
  have held : origin.held loop = [indices, parts.iterators, parts.body] := held_eq_of_kindAt known
  have holdsIndices : origin.Holds loop indices := by simp [Holds, held]
  have holdsBody := (holds_of_loopParts? looked).2
  intro inBody
  have useInBody := tight parts.body (.inl holdsBody) use _
    ((reachable.holds holdsIndices).holds holdsUse) usesIndex inBody
  have same := resolved.part_eq reachable holdsIndices holdsBody (.single holdsUse) useInBody
  have distinct := resolved.healthy.forest.nodup (.inl reachable)
  simp [held, same] at distinct

section Variants

variable (draft : Draft origin before) (resolved : Resolved origin)
  (reachable : origin.Reachable loop) (tight : Tight origin loop)
  (looked : origin.loopParts? loop = .ok (some parts))
include draft resolved reachable tight looked

theorem Draft.assembled_newStart {threadIndex : NodeId} {low? : Option NodeId}
    (isLow : ∀ low ∈ low?, origin.Holds parts.iterators low)
    (isList : (origin.kindAt parts.iterators).any Kind.isList)
    (new : origin.New threadIndex) (symbol : (before.kindAt threadIndex).any Kind.isSymbol)
    (run : Yields (Edit.newStart low? threadIndex) before answer after) :
    Assembled (Suitable origin loop) [] before answer after := by
  obtain ⟨indices, independent, use, known, _⟩ := exists_of_loopParts? looked
  cases low? with
  | none => exact .of_newUse ⟨.inl new, symbol⟩ run
  | some low =>
    obtain ⟨copy, middle, runCopy, runSum⟩ := yields_bind.mp run
    simp only [Edit.duplicate, yields_bind, yields_pure] at runCopy
    obtain ⟨copied, _, runCopy, rfl, rfl⟩ := runCopy
    have holdsLow := isLow low rfl
    have starts : origin.Starts loop parts.iterators := ⟨_, known, by simp [Kind.heads], isList⟩
    have reachableList := reachable.holds starts.holds
    obtain ⟨kind, knownList, isListKind⟩ := (Option.any_eq_true _ _).mp isList
    have noExpr : kind.isExpr = false := by cases kind <;> simp_all [Kind.isList, Kind.isExpr]
    have solidLow := resolved.solid_of_held reachableList knownList noExpr holdsLow
    have assembledCopy := draft.assembled_duplicateWith resolved (reachableList.holds holdsLow)
      solidLow (.head starts.holds (.single holdsLow))
      (fun _ _ inLow uses => resolved.contains_of_tight reachable tight known
        (.inr ⟨_, starts, holdsLow⟩) inLow uses) (by simp) (by simp) runCopy
    have assembledSum : Assembled (Suitable origin loop) [copied.duplicate] middle answer after :=
      .of_newPrimitiveCall (by simpa using ⟨.inl assembledCopy.solid, .inr (.inl new)⟩)
        (by simpa using assembledCopy.solid) runSum
    exact assembledSum.following assembledCopy.crafted (fun _ member => member) (by simp)

/-- The copy of the body uses another index for that of the loop. -/
theorem Draft.assembled_newBody {localIndex : NodeId} {copied : Edit.Duplication}
    (symbolIndex : (before.kindAt parts.index).any Kind.isSymbol)
    (known : Known origin.New before localIndex)
    (symbol : (before.kindAt localIndex).any Kind.isSymbol)
    (run : Yields
      (Edit.duplicateWith parts.body ((∅ : Remap).insert parts.index localIndex) [] false)
      before copied after) :
    Made origin.New (Draft origin) before copied.duplicate after ∧
      Assembled (Suitable origin loop) [] before copied.duplicate after := by
  obtain ⟨indices, independent, use, knownLoop, _⟩ := exists_of_loopParts? looked
  have holdsBody := (holds_of_loopParts? looked).2
  have reachableBody := reachable.holds holdsBody
  have unseeded : ∀ id, before.Contains parts.body id →
      id ∉ (∅ : Remap).insert parts.index localIndex := by
    intro id below seeded
    rw [eq_of_mem_seeds seeded, draft.contains_iff resolved.healthy reachableBody] at below
    exact resolved.index_outside reachable tight looked below
  have seeded : ∀ id given : NodeId, ((∅ : Remap).insert parts.index localIndex)[id]? = some given →
      Usable origin.New before given := by
    intro id given entry
    exact (eq_of_seeded entry).2 ▸ ⟨known.inside, symbol⟩
  have notExpr : ∀ id ∈ (∅ : Remap).insert parts.index localIndex,
      ¬ (before.kindAt id).any Kind.isExpr := by
    intro id member
    rw [eq_of_mem_seeds member]
    exact not_isExpr_of_isSymbol symbolIndex
  have made := draft.duplicateWith resolved.healthy reachableBody unseeded notExpr run
  refine ⟨made.1, draft.assembled_duplicateWith resolved reachableBody
    (resolved.solid_of_held reachable knownLoop rfl holdsBody) (.single holdsBody)
    (fun _ _ inBody uses => ?_) unseeded seeded run⟩
  exact resolved.contains_of_tight reachable tight knownLoop (.inl holdsBody) inBody uses

theorem Draft.crafted_newIteration (run : Yields (Edit.newIteration parts) before answers after) :
    Crafted (Suitable origin loop) [] answers before after ∧ ∀ id ∈ answers, Solid after id := by
  have workshop := Draft.workshop origin
  simp only [Edit.newIteration, yields_bind, yields_look, yields_pure, symbol_eq_ok,
    elements_eq_ok] at run
  obtain ⟨index, _, ⟨isSymbol, rfl⟩, lows, start, ⟨⟨_, isList⟩, rfl⟩, threadIndex, timed, runThread,
    localIndex, indexed, runLocal, copy, copied, runCopy, run⟩ := run
  obtain ⟨defineThread, placed, runDefineThread, globalId, asked, runGlobalId, setThread, moved,
    runSetThread, startId, summed, runStart, defineLocal, last, runDefineLocal, setLocal, _,
    runSetLocal, rfl, rfl⟩ := run
  have madeThread := workshop.newTemp draft runThread
  have madeLocal := workshop.newSymbol madeThread.progress.kept rfl runLocal
  have untilLocal := madeThread.progress.trans madeLocal.progress
  have thread : Named (Suitable origin loop) start threadIndex timed := .of_newTemp runThread
  have inner : Named (Suitable origin loop) timed localIndex indexed := .of_newSymbol rfl runLocal
  have symbolIndex : (indexed.kindAt parts.index).any Kind.isSymbol :=
    untilLocal.since.isSymbol (by simp [isSymbol, Kind.isSymbol, Kind.symbol?])
  obtain ⟨madeCopy, copying⟩ := untilLocal.kept.assembled_newBody resolved reachable tight
    looked symbolIndex madeLocal.known inner.symbol runCopy
  have sinceThread := madeLocal.progress.trans madeCopy.progress
  obtain ⟨settingThread, _⟩ := workshop.setVar runDefineThread runGlobalId runSetThread
    madeCopy.progress.kept (madeThread.known.since sinceThread.since)
  have holdsList := (holds_of_loopParts? looked).1
  have issuedList := resolved.healthy.issued (reachable.holds holdsList)
  have isLow : ∀ low ∈ lows[0]?, origin.Holds parts.iterators low := by
    intro low isLow
    rw [← draft.extended.same_holds issuedList, Holds, held_eq_of_kindAt isList]
    exact Array.mem_toList_iff.mpr (Array.mem_of_getElem? isLow)
  have isListOrigin : (origin.kindAt parts.iterators).any Kind.isList := by
    rw [← draft.extended.same_kind issuedList, isList]
    rfl
  have starting := settingThread.kept.assembled_newStart resolved reachable tight looked isLow
    isListOrigin madeThread.known.inside
    ((sinceThread.trans settingThread).since.isSymbol thread.symbol) runStart
  -- what hangs nowhere, step by step
  have fitsThread : Suitable origin loop threadIndex := .inl madeThread.known.inside
  obtain ⟨threadSet, solidDefineThread, solidSetThread⟩ :=
    Crafted.of_setVar runDefineThread runGlobalId runSetThread fitsThread
  have defining : Assembled (Suitable origin loop) [localIndex] summed defineLocal last :=
    .of_define runDefineLocal
  have setting : Assembled (Suitable origin loop) [startId] last setLocal after :=
    .of_newPrimitiveCall
      (by simpa using
        ⟨.inr (.inl madeLocal.known.inside), .inl (defining.crafted.solid starting.solid)⟩)
      (by simpa using defining.crafted.solid starting.solid) runSetLocal
  have untilBody := (thread.crafted.andThen inner.crafted [threadIndex, localIndex] (by simp)
    (by simp)).andThen copying.crafted [threadIndex, localIndex, copy.duplicate] (by simp) (by simp)
  have untilStart := (untilBody.andThen threadSet
    [localIndex, copy.duplicate, defineThread, setThread] (by simp) (by simp)).andThen
      starting.crafted [localIndex, copy.duplicate, defineThread, setThread, startId] (by simp)
        (by simp)
  have untilEnd := (untilStart.andThen defining.crafted
    [copy.duplicate, defineThread, setThread, startId, defineLocal] (by simp) (by simp)).andThen
      setting.crafted [defineThread, setThread, defineLocal, setLocal, copy.duplicate] (by simp)
        (by simp)
  refine ⟨untilEnd, ?_⟩
  have afterThread := fun {id} (solid : Solid moved id) =>
    setting.crafted.solid (defining.crafted.solid (starting.crafted.solid solid))
  simp only [List.mem_cons, List.not_mem_nil, or_false, forall_eq_or_imp, forall_eq]
  exact ⟨afterThread solidDefineThread, afterThread solidSetThread,
    setting.crafted.solid defining.solid, setting.solid,
    afterThread (threadSet.solid copying.solid)⟩

theorem Draft.assembled_newGpuVariant
    (run : Yields (Edit.newGpuVariant name parts) before answer after) :
    Assembled (Suitable origin loop) [] before answer after := by
  simp only [Edit.newGpuVariant, yields_bind] at run
  obtain ⟨iteration, iterated, runIteration, body, framed, runBody, fn, declared, runFn, _, flagged,
    runFlag, definition, defined, runDefinition, call, called, runCall, runBlock⟩ := run
  obtain ⟨craftedIteration, solidIteration⟩ :=
    draft.crafted_newIteration resolved reachable tight looked runIteration
  have framing : Assembled (Suitable origin loop) iteration iterated body framed :=
    .of_newBlock solidIteration runBody
  obtain ⟨craftedFn, unissued⟩ : Crafted (Suitable origin loop) [body] [fn] framed declared ∧ _ :=
    Crafted.of_newFn framing.solid runFn
  have flagging : Crafted (Suitable origin loop) [] [] declared flagged := .of_addFlag runFlag
  have defining : Assembled (Suitable origin loop) [fn] flagged definition defined :=
    .of_define runDefinition
  have untilBody := craftedIteration.andThen framing.crafted [body] (fun _ member => .inl member)
    (by simp)
  have fitsFn : Suitable origin loop fn := .inl (draft.new_of_unissued (untilBody.new unissued))
  have calling : Assembled (Suitable origin loop) [] defined call called :=
    .of_newCall fitsFn runCall
  have wrapping : Assembled (Suitable origin loop) [definition, call] called answer after :=
    .of_newBlock (by simpa using ⟨calling.crafted.solid defining.solid, calling.solid⟩) runBlock
  have untilFn := (untilBody.andThen craftedFn [fn] (by simp) (by simp)).andThen flagging [fn]
    (by simp) (by simp)
  have untilCall := (untilFn.andThen defining.crafted [definition] (by simp) (by simp)).andThen
    calling.crafted [definition, call] (by simp) (by simp)
  exact ⟨untilCall.andThen wrapping.crafted [answer] (by simp) (by simp), wrapping.solid⟩

end Variants

/-! ## The block that takes the place of the loop -/

theorem exists_kindAt_of_newBlock {stmts : List NodeId}
    (run : Yields (Edit.newBlock stmts) before answer after) :
    ∃ body, after.kindAt answer = some (.stmt (.block body)) := by
  obtain ⟨body, _, _, runBlock⟩ := yields_bind.mp run
  exact ⟨body, kindAt_newHolder runBlock⟩

/-- A block was made that holds the variant and a copy of the loop, and then it was put in the
place of the loop. -/
theorem Draft.exists_crafted_dispatch {variant : NodeId} {stmt : Stmt} {done : Unit}
    (draft : Draft origin before) (resolved : Resolved origin) (reachable : origin.Reachable loop)
    (known : origin.kindAt loop = some (.stmt stmt))
    (knownVariant : Known origin.New before variant)
    (solid : Solid before variant) (run : Yields (Edit.dispatch loop variant) before done after) :
    ∃ built block body linked placed, Draft origin built ∧ Known origin.New built block ∧
      Crafted (Suitable origin loop) [variant] [block] before built ∧ Solid built block ∧
      built.kindAt block = some (.stmt (.block body)) ∧
      Yields (replace loop block) built linked placed ∧
      after = { placed with givenLocation? := before.givenLocation? } := by
  obtain ⟨entered, block, built, linked, placed, nodes, roots, index, runMake, runReplace, rfl⟩ :=
    exists_of_dispatch run
  have entering : Crafted (Suitable origin loop) [] [] before entered := .of_nodes nodes roots
  have draftEntered : Draft origin entered := draft.frame nodes roots index
  have madeBlock := (Draft.workshop origin).newChoice
    (⟨knownVariant.inside, entering.issued knownVariant.issued⟩ : Known origin.New entered variant)
    (draftEntered.duplicate resolved.healthy reachable) runMake
  simp only [Edit.newChoice, Edit.duplicate, yields_bind, yields_pure] at runMake
  obtain ⟨_, copied, ⟨copy, _, runCopy, rfl, rfl⟩, onGpu, named, runVar, definition, defined,
    runDefine, query, queried, runQuery, set, moved, runSet, choice, chosen, runChoice, runBlock⟩ :=
    runMake
  have copying : Assembled (Suitable origin loop) [] entered copy.duplicate copied :=
    draftEntered.assembled_duplicateWith resolved reachable (.of_kind known rfl) .refl
      (fun _ _ _ _ inLoop => inLoop) (by simp) (by simp) runCopy
  obtain ⟨madeCopy, -, -⟩ :=
    draftEntered.duplicateWith resolved.healthy reachable (by simp) (by simp) runCopy
  have fitsVar : Suitable origin loop onGpu :=
    .inl ((Draft.workshop origin).newTemp madeCopy.progress.kept runVar).known.inside
  -- what hangs nowhere, step by step
  have onGpuMade : Named (Suitable origin loop) copied onGpu named := .of_newTemp runVar
  obtain ⟨varSet, solidDefinition, solidSet⟩ := Crafted.of_setVar runDefine runQuery runSet fitsVar
  have untilSet := ((entering.andThen copying.crafted [copy.duplicate] (by simp) (by simp)).andThen
    onGpuMade.crafted [copy.duplicate, onGpu] (by simp) (by simp)).andThen varSet
      [copy.duplicate, definition, set] (by simp) (by simp)
  have solidCopy := varSet.solid (onGpuMade.crafted.solid copying.solid)
  have choosing : Assembled (Suitable origin loop) [variant, copy.duplicate] moved choice chosen :=
    .of_newCond fitsVar (untilSet.solid solid) solidCopy runChoice
  have wrapping : Assembled (Suitable origin loop) [definition, set, choice] chosen block built :=
    .of_newBlock (by simpa using ⟨choosing.crafted.solid solidDefinition,
      choosing.crafted.solid solidSet, choosing.solid⟩) runBlock
  have untilChoice :
      Crafted (Suitable origin loop) [variant] [definition, set, choice] before chosen :=
    untilSet.followedBy choosing.crafted (by simp) (by simp) (by simp)
  obtain ⟨body, isBlock⟩ := exists_kindAt_of_newBlock runBlock
  exact ⟨built, block, body, linked, _, madeBlock.progress.kept, madeBlock.known,
    untilChoice.followedBy wrapping.crafted (by simp) (by simp) (by simp), wrapping.solid, isBlock,
    runReplace, rfl⟩

end Program

end ProgramTree
