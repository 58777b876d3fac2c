import ProgramTree.Proofs.DefinitionPoints
import ProgramTree.Proofs.FreeSymbols
import ProgramTree.Proofs.Linking
import ProgramTree.Proofs.Outlining

/-!
# Outlining loops keeps programs resolved

A block takes the place of a loop.  All that is new hangs below the block, all that was there
and is not part of the loop stays, and what the block uses of it was used in the loop.  So the
tree is resolved as before, and other loops are as tight as they were.
-/

namespace ProgramTree

open Program Edit Relation

namespace Kind

variable {old sym : NodeId} {new? : Option NodeId} {kind changed : Kind}

theorem withSlots_eq_use {slots : List Slot} :
    kind.withSlots slots = .expr (.use sym) ↔ kind = .expr (.use sym) := by
  cases kind with
  | expr expr =>
    cases expr with
    | call callee args => cases callee <;> simp only [withSlots, Expr.withSlots] <;> split <;> simp
    | _ => simp only [withSlots, Expr.withSlots] <;> split <;> simp_all
  | _ => simp [withSlots]

theorem exists_withSlots_of_rebind (done : kind.rebind old new? = .done changed) :
    ∃ slots, kind.withSlots slots = changed := by
  rw [rebind] at done
  cases result : Slot.rebind old new? kind.slots with
  | done slots => exact ⟨slots, by simpa [result, Rebinding.map] using done⟩
  | _ => simp [result, Rebinding.map] at done

namespace Exchanged

theorem sameForm (exchanged : Exchanged old new? kind changed) : kind.SameForm changed := by
  cases exchanged with
  | erased | set => exact ⟨rfl, rfl, rfl, rfl, nofun⟩
  | rebound _ done => exact sameForm_rebind done

theorem isList (exchanged : Exchanged old new? kind changed) : changed.isList = kind.isList := by
  cases exchanged with
  | erased | set => rfl
  | rebound _ done =>
    obtain ⟨slots, rfl⟩ := exists_withSlots_of_rebind done
    exact isList_withSlots

theorem eq_use (exchanged : Exchanged old new? kind changed) :
    changed = .expr (.use sym) ↔ kind = .expr (.use sym) := by
  cases exchanged with
  | erased | set => simp
  | rebound _ done =>
    obtain ⟨slots, rfl⟩ := exists_withSlots_of_rebind done
    exact withSlots_eq_use

end Exchanged

/-- A loop that gets another child starts with the same lists, or with that child. -/
theorem Splices.mem_heads {new list : NodeId} (splices : kind.Splices [old] [new] changed)
    (head : list ∈ changed.heads) : list ∈ kind.heads ∨ list = new := by
  obtain ⟨⟨slots, rfl⟩, left, right, owned, ownedAfter⟩ := splices
  rw [heads_eq, category?_withSlots, ownedAfter] at head
  rw [heads_eq, owned]
  split at head
  · rename_i isLoop
    rw [if_pos isLoop]
    match left with
    | [] => simp_all; tauto
    | [first] => simp_all; tauto
    | first :: second :: rest => exact .inl head
  · cases head

end Kind

namespace Program

variable {exact bare : Prop} {region : NodeId → Prop} {origin before after program : Program}
  {loop block holder old new top id child sym : NodeId}

/-- Every node of a forest hangs below one without parent. -/
theorem Forest.exists_top (forest : Forest region [] program) (inside : region id) :
    ∃ top, region top ∧ program.Contains top id ∧ program.parentOf top = none := by
  let Node := { id // (program.get? id).isSome }
  let Above : Node → Node → Prop := fun upper lower =>
    region upper.1 ∧ TransGen program.Holds upper.1 lower.1
  have finite : Finite Node := program.finite_issued
  have transitive : IsTrans Node Above :=
    ⟨fun _ _ _ first second => ⟨first.1, first.2.trans second.2⟩⟩
  have irreflexive : Std.Irrefl Above :=
    ⟨fun _ cycle => (forest.grounded cycle.1).not_below_itself cycle.2⟩
  have wellFounded : WellFounded Above := Finite.wellFounded_of_trans_of_irrefl Above
  have climb : ∀ node : Node, region node.1 →
      ∃ top, region top ∧ program.Contains top node.1 ∧ program.parentOf top = none := by
    intro node
    induction node using wellFounded.induction with
    | _ node ih =>
      intro inside
      cases named : program.parentOf node.1 with
      | none => exact ⟨node.1, inside, .refl, named⟩
      | some parent =>
        obtain ⟨insideParent, holds⟩ := forest.holder inside List.not_mem_nil named
        obtain ⟨top, insideTop, above, parentless⟩ :=
          ih ⟨parent, holds.issued⟩ ⟨insideParent, .single holds⟩ insideParent
        exact ⟨top, insideTop, above.tail holds, parentless⟩
  cases found : program.get? id with
  | none => exact ⟨id, inside, .refl, parentOf_of_unissued found⟩
  | some node => exact climb ⟨id, by simp [found]⟩ inside

/-- The symbol sits in its definition, as the two say. -/
theorem sits_iff : program.Sits id ↔ ∃ definition, program.definitionOf id = some definition ∧
    program.definedBy definition = some id ∧ program.parentOf id = some definition := by
  constructor
  · rintro ⟨symbol, definition, init?, declaredType?, isSymbol, point, isDefinition, named⟩
    refine ⟨definition, ?_, ?_, named⟩
    · simp [definitionOf, isSymbol, Kind.definition?, Kind.symbol?, point]
    · simp [definedBy, isDefinition, Kind.defined?]
  · rintro ⟨definition, point, defines, named⟩
    obtain ⟨kind, isSymbol, isPoint⟩ := Option.bind_eq_some_iff.mp point
    obtain ⟨defining, isDefinition, isDefined⟩ := Option.bind_eq_some_iff.mp defines
    cases kind with
    | symbol symbol =>
      unfold Kind.defined? at isDefined
      split at isDefined
      · next sym init? declaredType? =>
        obtain rfl : sym = id := by simpa using isDefined
        exact ⟨symbol, definition, init?, declaredType?, isSymbol,
          by simpa [Kind.definition?, Kind.symbol?] using isPoint, isDefinition, named⟩
      · simp at isDefined
    | _ => simp [Kind.definition?, Kind.symbol?] at isPoint

/-! ## One node in the place of another -/

/-- The new node hangs where the old one hung, in a tree that is otherwise the same. -/
structure Swapped (before : Program) (holder old new : NodeId) (after : Program) : Prop where
  spare : before.parentOf new = none ∧ ¬ before.IsPlaced new
  named : before.parentOf old = some holder
  kinds : ∃ kind changed, before.kindAt holder = some kind ∧
    Kind.Exchanged old (some new) kind changed ∧
    ∀ other, after.kindAt other = if other = holder then some changed else before.kindAt other
  relinked : ∃ relinked, Relinked before holder [old] [new] [] relinked ∧
    SameTree relinked after ∧ relinked.Grounded new

theorem exists_swapped {answer : NodeId} (run : Yields (Edit.replace old new) before answer after) :
    ∃ holder, Swapped before holder old new after := by
  obtain ⟨holder, kind, changed, named, known, exchanged, kinds⟩ := kindAt_replace run
  obtain ⟨rfl, replaced⟩ := Edit.replaced run
  obtain ⟨parent, relinked, detached, namedToo, isRelinked, detaching, attaching⟩ := replaced.steps
  obtain rfl : parent = holder := Option.some.inj (namedToo.symm.trans named)
  have attached := attachedBelow (yields_attach.mp attaching)
  have displaced := displaced detaching
  refine ⟨parent, ⟨replaced.free, replaced.notPlaced⟩, named,
    ⟨kind, changed, known, exchanged, kinds⟩, relinked, isRelinked, displaced.same.trans attached.same, ?_⟩
  rw [← displaced.same.grounded]
  exact attached.grounded

section Swapping

variable (swapped : Swapped before holder old new after)
  (orderly : Orderly exact bare region [] before) (insideOld : region old) (insideNew : region new)
include swapped

theorem Swapped.roots : after.roots = before.roots := by
  obtain ⟨relinked, isRelinked, same, _⟩ := swapped.relinked
  rw [same.roots, isRelinked.roots]

theorem Swapped.holds_new : after.Holds holder new := by
  obtain ⟨relinked, isRelinked, same, _⟩ := swapped.relinked
  rw [same.holds]
  exact isRelinked.into_held (by simp)

theorem Swapped.parents (notOld : id ≠ old) (notNew : id ≠ new) :
    after.parentOf id = before.parentOf id := by
  obtain ⟨relinked, isRelinked, same, _⟩ := swapped.relinked
  rw [same.parentOf, isRelinked.parents (by simpa using notOld) (by simpa using notNew)]

theorem Swapped.isSymbol :
    (after.kindAt id).any Kind.isSymbol = (before.kindAt id).any Kind.isSymbol := by
  obtain ⟨relinked, isRelinked, same, _⟩ := swapped.relinked
  rw [same.kindAt, isRelinked.frame.isSymbol]

theorem Swapped.isList :
    (after.kindAt id).any Kind.isList = (before.kindAt id).any Kind.isList := by
  obtain ⟨kind, changed, known, exchanged, kinds⟩ := swapped.kinds
  rw [kinds]
  split
  · simp_all [exchanged.isList]
  · rfl

theorem Swapped.starts {list : NodeId} (starts : after.Starts top list) :
    before.Starts top list ∨ list = new := by
  obtain ⟨kind, known, head, isList⟩ := starts
  rw [swapped.isList] at isList
  obtain ⟨relinked, isRelinked, same, _⟩ := swapped.relinked
  rw [same.kindAt] at known
  by_cases isHolder : top = holder
  · obtain ⟨old, changed, knownOld, knownChanged, splices⟩ := isRelinked.spliced
    rw [isHolder, knownChanged, Option.some.injEq] at known
    refine (splices.mem_heads (known ▸ head)).imp_left fun head => ⟨old, ?_, head, isList⟩
    rw [isHolder, knownOld]
  · rw [isRelinked.kinds isHolder] at known
    exact .inl ⟨kind, known, head, isList⟩

theorem Swapped.category :
    (after.kindAt id).bind Kind.category? = (before.kindAt id).bind Kind.category? := by
  obtain ⟨relinked, isRelinked, same, _⟩ := swapped.relinked
  rw [same.kindAt, isRelinked.frame.category]

theorem Swapped.uses_iff : after.Uses id sym ↔ before.Uses id sym := by
  obtain ⟨kind, changed, known, exchanged, kinds⟩ := swapped.kinds
  rw [Uses, Uses, kinds]
  split
  · simp_all [exchanged.eq_use]
  · rfl

theorem Swapped.sits (notOld : id ≠ old) (notNew : id ≠ new) (sits : before.Sits id) :
    after.Sits id := by
  obtain ⟨kind, changed, known, exchanged, kinds⟩ := swapped.kinds
  obtain ⟨definition, point, defines, named⟩ := sits_iff.mp sits
  refine sits_iff.mpr ⟨definition, ?_, ?_, (swapped.parents notOld notNew).trans named⟩
  · rw [definitionOf, kinds]
    split
    · simp_all [definitionOf, exchanged.definition?]
    · exact point
  · rw [definedBy, kinds]
    split
    · simp_all only [definedBy, Option.bind_some]
      exact (exchanged.defined? (by simpa [defines] using notOld)).trans defines
    · exact defines

include orderly insideOld

theorem Swapped.inside : region holder :=
  (orderly.forest.holder insideOld List.not_mem_nil swapped.named).1

theorem Swapped.holds_old : before.Holds holder old :=
  (orderly.forest.holder insideOld List.not_mem_nil swapped.named).2

theorem Swapped.holds_after (inside : region top) (holds : after.Holds top child) :
    before.Holds top child ∨ top = holder ∧ child = new := by
  obtain ⟨relinked, isRelinked, same, _⟩ := swapped.relinked
  rw [same.holds] at holds
  have insideHolder := swapped.inside orderly insideOld
  simpa using (isRelinked.holds_after orderly.forest insideHolder inside holds).imp_left (·.1)

theorem Swapped.holds_before (holds : before.Holds top child) :
    after.Holds top child ∨ top = holder ∧ child = old := by
  obtain ⟨relinked, isRelinked, same, _⟩ := swapped.relinked
  have insideHolder := swapped.inside orderly insideOld
  rw [same.holds]
  simpa using isRelinked.holds_before orderly.forest insideHolder holds

/-- What is contained afterwards was contained before, or came in with the new node. -/
theorem Swapped.contains_after (inside : region top) (contained : after.Contains top id) :
    before.Contains top id ∨ before.Contains top holder ∧ after.Contains new id := by
  induction contained with
  | refl => exact .inl .refl
  | tail _ holds ih =>
    rcases ih with above | ⟨aboveHolder, below⟩
    · rcases swapped.holds_after orderly insideOld (orderly.forest.contains inside above) holds with
        held | ⟨rfl, rfl⟩
      · exact .inl (above.tail held)
      · exact .inr ⟨above, .refl⟩
    · exact .inr ⟨aboveHolder, below.tail holds⟩

/-- What was contained before is contained afterwards, or it went out. -/
theorem Swapped.contains_before (contained : before.Contains top id) :
    after.Contains top id ∨ before.Contains old id := by
  induction contained with
  | refl => exact .inl .refl
  | tail _ holds ih =>
    rcases ih with above | below
    · rcases swapped.holds_before orderly insideOld holds with held | ⟨_, rfl⟩
      · exact .inl (above.tail held)
      · exact .inr .refl
    · exact .inr (below.tail holds)

theorem Swapped.contains_old_iff : after.Contains old id ↔ before.Contains old id := by
  obtain ⟨relinked, isRelinked, same, _⟩ := swapped.relinked
  rw [same.contains]
  exact contains_iff_of_holds (fun different => isRelinked.holds_of_ne different)
    (orderly.forest.not_contains_holder (swapped.inside orderly insideOld)
      (swapped.holds_old orderly insideOld))

/-- The place of the old node can be reached if the old node could. -/
theorem Swapped.reachable_new (reachable : before.Reachable old) : after.Reachable new := by
  obtain ⟨relinked, isRelinked, same, _⟩ := swapped.relinked
  have reachableHolder :=
    orderly.rooted.reachable_holder orderly.forest swapped.named reachable
  rw [same.reachable]
  exact (isRelinked.holder_reachable orderly.forest (swapped.inside orderly insideOld)
    reachableHolder).holds (isRelinked.into_held (by simp))

theorem Swapped.reachable_after (reachable : before.Reachable id)
    (outside : ¬ before.Contains old id) : after.Reachable id := by
  obtain ⟨root, isRoot, contained⟩ := reachable
  exact ⟨root, swapped.roots ▸ isRoot,
    (swapped.contains_before orderly insideOld contained).resolve_right outside⟩

theorem Swapped.reachable_before (reachable : after.Reachable id) :
    before.Reachable id ∨ after.Contains new id := by
  obtain ⟨root, isRoot, contained⟩ := reachable
  rw [swapped.roots] at isRoot
  exact (swapped.contains_after orderly insideOld (orderly.rooted.inside isRoot) contained).imp
    (fun above => ⟨root, isRoot, above⟩) (·.2)

theorem Swapped.contains_new_iff : after.Contains new id ↔ before.Contains new id := by
  have notBelow : ¬ before.Contains new holder := by
    -- the way down to the holder is still there, and goes on to the new node
    intro above
    have outside := orderly.forest.not_contains_holder (swapped.inside orderly insideOld)
      (swapped.holds_old orderly insideOld)
    have aboveAfter := (swapped.contains_before orderly insideOld above).resolve_right outside
    obtain ⟨relinked, _, same, grounded⟩ := swapped.relinked
    rw [← same.grounded] at grounded
    exact grounded.not_below_itself (.tail' aboveAfter swapped.holds_new)
  obtain ⟨relinked, isRelinked, same, _⟩ := swapped.relinked
  rw [same.contains]
  exact contains_iff_of_holds (fun different => isRelinked.holds_of_ne different) notBelow

include insideNew

theorem Swapped.not_reachable_old (below : before.Contains old id) : ¬ after.Reachable id := by
  obtain ⟨relinked, isRelinked, same, grounded⟩ := swapped.relinked
  rw [← swapped.contains_old_iff orderly insideOld, same.contains] at below
  rw [same.reachable]
  have spare : Spare region [] before [new] :=
    .singleton insideNew swapped.spare.1 List.not_mem_nil swapped.spare.2
  exact isRelinked.not_reachable_below_out orderly (swapped.inside orderly insideOld) spare
    (by simpa using grounded) (by simp) below

end Swapping

/-! ## A block in the place of a loop -/

/-- Beside the tree a block was made: all that is new hangs below it, and what it uses of the
tree is free in the loop. -/
structure Blueprint (origin : Program) (loop block : NodeId) (built : Program) : Prop where
  draft : Draft origin built
  crafted : Crafted (Suitable origin loop) [] [block] origin built
  known : Known origin.New built block
  solid : Solid built block
  noList : ¬ (built.kindAt block).any Kind.isList

variable {built placed : Program}

namespace Blueprint

section Built

variable (blueprint : Blueprint origin loop block built) (resolved : Resolved origin)
include blueprint resolved

theorem contains_block_iff :
    built.Contains block id ↔ origin.New id ∧ (built.get? id).isSome := by
  have forest := blueprint.draft.orderly.forest
  have inside : origin.Reachable block ∨ origin.New block := .inr blueprint.known.inside
  have notOld : ∀ {top}, origin.Reachable top → built.Contains top id → ¬ origin.New id := by
    intro top reachable contained new
    rw [blueprint.draft.contains_iff resolved.healthy reachable] at contained
    have issued := resolved.healthy.issued (reachable.contains contained)
    simp [new] at issued
  constructor
  · intro contained
    have unreachable : ¬ built.Reachable block := by
      rw [Arranged.reachable_of_extends (Draft.start resolved.healthy).orderly
        blueprint.draft.extended]
      intro reachable
      have issued := resolved.healthy.issued reachable
      simp [blueprint.known.inside] at issued
    have unreachableId :=
      blueprint.draft.orderly.rooted.not_reachable_below forest inside unreachable contained
    refine ⟨(forest.contains inside contained).resolve_left fun reachable => unreachableId ?_, ?_⟩
    · rwa [Arranged.reachable_of_extends (Draft.start resolved.healthy).orderly
        blueprint.draft.extended]
    · exact forest.issued_of_contains inside blueprint.known.issued contained
  · rintro ⟨new, issued⟩
    obtain ⟨top, insideTop, contained, parentless⟩ := forest.exists_top (.inr new)
    have newTop : origin.New top := insideTop.resolve_left fun reachable =>
      notOld reachable contained new
    have issuedTop : (built.get? top).isSome := by
      rcases contained.cases_head with rfl | ⟨_, holds, _⟩
      · exact issued
      · exact holds.issued
    rcases blueprint.crafted.tops issuedTop parentless with isBlock | ⟨issuedOrigin, _⟩
    · rwa [← List.mem_singleton.mp isBlock]
    · simp [newTop] at issuedOrigin

end Built

section Uses

variable (blueprint : Blueprint origin loop block built)
  (swapped : Swapped built holder loop block placed)
include blueprint swapped

theorem uses_iff (issued : (origin.get? id).isSome) :
    placed.Uses id sym ↔ origin.Uses id sym := by
  rw [swapped.uses_iff, Uses,
    blueprint.draft.extended.same_kind issued, Uses]

theorem usable_of_new (new : origin.New id) (uses : placed.Uses id sym) :
    Usable (Suitable origin loop) built sym :=
  blueprint.crafted.uses new
    (swapped.uses_iff.mp uses)

end Uses

variable (blueprint : Blueprint origin loop block built) (resolved : Resolved origin)
  (reachable : origin.Reachable loop) (swapped : Swapped built holder loop block placed)
include blueprint resolved reachable swapped

theorem contains_block_placed :
    placed.Contains block id ↔ origin.New id ∧ (built.get? id).isSome := by
  rw [swapped.contains_new_iff blueprint.draft.orderly (.inl reachable),
    blueprint.contains_block_iff resolved]

/-- What is new is part of the tree. -/
theorem reachable_new (new : origin.New id) (issued : (built.get? id).isSome) :
    placed.Reachable id := by
  have reachableLoop : built.Reachable loop := by
    rwa [Arranged.reachable_of_extends (Draft.start resolved.healthy).orderly
      blueprint.draft.extended]
  refine (swapped.reachable_new blueprint.draft.orderly (.inl reachable) reachableLoop).contains ?_
  exact (blueprint.contains_block_placed resolved reachable swapped).mpr ⟨new, issued⟩

/-- What was there is still part of the tree unless it belongs to the loop. -/
theorem reachable_old_iff (issued : (origin.get? id).isSome) :
    placed.Reachable id ↔ origin.Reachable id ∧ ¬ origin.Contains loop id := by
  have orderly := blueprint.draft.orderly
  have reachableIff : ∀ id, built.Reachable id ↔ origin.Reachable id := fun id =>
    Arranged.reachable_of_extends (Draft.start resolved.healthy).orderly blueprint.draft.extended
  rw [← reachableIff, ← blueprint.draft.contains_iff resolved.healthy reachable]
  constructor
  · intro reachableId
    refine ⟨?_, fun below => ?_⟩
    · rcases swapped.reachable_before orderly (.inl reachable) reachableId with before | below
      · exact before
      · rw [blueprint.contains_block_placed resolved reachable swapped] at below
        simp [below.1] at issued
    · exact swapped.not_reachable_old orderly (.inl reachable) (.inr blueprint.known.inside) below
        reachableId
  · exact fun ⟨reachableId, outside⟩ =>
      swapped.reachable_after orderly (.inl reachable) reachableId outside

/-- What an old node contains afterwards is old, or it is new and the loop was contained. -/
theorem contains_old_iff {part : NodeId} (issuedPart : (origin.get? part).isSome)
    (reachablePart : placed.Reachable part) :
    placed.Contains part id ↔
      origin.Contains part id ∧ ¬ origin.Contains loop id ∨
        origin.Contains part loop ∧ origin.New id ∧ (built.get? id).isSome := by
  have orderly := blueprint.draft.orderly
  obtain ⟨reachableOrigin, outside⟩ :=
    (blueprint.reachable_old_iff resolved reachable swapped issuedPart).mp reachablePart
  have below : ∀ id, built.Contains part id ↔ origin.Contains part id := fun _ =>
    blueprint.draft.contains_iff resolved.healthy reachableOrigin
  have holds := swapped.holds_old orderly (.inl reachable)
  constructor
  · intro contained
    rcases swapped.contains_after orderly (.inl reachable) (.inl reachableOrigin) contained with
      old | ⟨above, new⟩
    · have contains := (below id).mp old
      have issued := resolved.healthy.issued (reachableOrigin.contains contains)
      exact .inl ⟨contains, ((blueprint.reachable_old_iff resolved reachable swapped issued).mp
        (reachablePart.contains contained)).2⟩
    · rw [blueprint.contains_block_placed resolved reachable swapped] at new
      exact .inr ⟨(below loop).mp (above.tail holds), new⟩
  · rintro (⟨contains, spared⟩ | ⟨above, new⟩)
    · rw [← blueprint.draft.contains_iff resolved.healthy reachable] at spared
      have containsBuilt := (below id).mpr contains
      exact (swapped.contains_before orderly (.inl reachable) containsBuilt).resolve_right spared
    · have strict : loop ≠ part := by
        rintro rfl
        exact outside .refl
      obtain ⟨parent, named, aboveParent⟩ :=
        orderly.forest.parent_of_contains (.inl reachableOrigin) ((below loop).mpr above) strict
      obtain rfl : holder = parent := Option.some.inj (swapped.named.symm.trans named)
      have insideHolder := swapped.inside orderly (.inl reachable)
      have notBelow := orderly.forest.not_contains_holder insideHolder holds
      have aboveHolder :=
        (swapped.contains_before orderly (.inl reachable) aboveParent).resolve_right notBelow
      exact (aboveHolder.tail swapped.holds_new).trans
        ((blueprint.contains_block_placed resolved reachable swapped).mpr new)

/-- A part of another loop is the block, or it was a part before. -/
theorem partOf_placed {other part : NodeId} (issued : (origin.get? other).isSome)
    (reachableOther : placed.Reachable other) (isPart : placed.PartOf other part) :
    part = block ∨ origin.PartOf other part := by
  have orderly := blueprint.draft.orderly
  have extended := blueprint.draft.extended
  have holdsOld : ∀ {upper lower}, (origin.get? upper).isSome → placed.Reachable upper →
      placed.Holds upper lower → origin.Holds upper lower ∨ lower = block := by
    intro upper lower issuedUpper reachableUpper holds
    have reachableOrigin :=
      ((blueprint.reachable_old_iff resolved reachable swapped issuedUpper).mp reachableUpper).1
    exact (swapped.holds_after orderly (.inl reachable) (.inl reachableOrigin) holds).imp
      (extended.same_holds issuedUpper).mp (·.2)
  rcases isPart with holds | ⟨list, starts, holds⟩
  · exact (holdsOld issued reachableOther holds).symm.imp_right .inl
  · rcases swapped.starts starts with startsBuilt | rfl
    · have reachableBefore :=
        ((blueprint.reachable_old_iff resolved reachable swapped issued).mp reachableOther).1
      have issuedList := resolved.healthy.issued
        (reachableBefore.holds ((extended.same_holds issued).mp startsBuilt.holds))
      have startsOld : origin.Starts other list := by
        rwa [Starts, extended.same_kind issued, extended.same_kind issuedList] at startsBuilt
      exact (holdsOld issuedList (reachableOther.holds starts.holds) holds).symm.imp_right
        fun heldPart => .inr ⟨list, startsOld, heldPart⟩
    · obtain ⟨_, _, _, isList⟩ := starts
      rw [swapped.isList] at isList
      exact absurd isList blueprint.noList

/-- Another loop is as tight as it was. -/
theorem tight_placed {other : NodeId} (issued : (origin.get? other).isSome)
    (reachableOther : placed.Reachable other) (tight : Tight origin other) :
    Tight placed other := by
  intro part isPart id sym reachableId uses contained
  have newUser : origin.New sym → origin.New id ∧ (built.get? id).isSome := by
    intro new
    have issuedUser : (built.get? id).isSome := by
      have usesBuilt := swapped.uses_iff.mp uses
      exact get?_isSome_of_kindAt usesBuilt
    refine ⟨?_, issuedUser⟩
    by_contra old
    have issuedOld := Option.isSome_iff_ne_none.mpr old
    have reachableOld :=
      ((blueprint.reachable_old_iff resolved reachable swapped issuedOld).mp reachableId).1
    have usesOld := (blueprint.uses_iff swapped issuedOld).mp uses
    have issuedSym := resolved.healthy.issued (resolved.uses reachableOld usesOld).1
    simp [new] at issuedSym
  rcases blueprint.partOf_placed resolved reachable swapped issued reachableOther isPart with
    rfl | wasPart
  · rw [blueprint.contains_block_placed resolved reachable swapped] at contained ⊢
    exact newUser contained.1
  · have reachableBefore :=
      ((blueprint.reachable_old_iff resolved reachable swapped issued).mp reachableOther).1
    have reachableOrigin := wasPart.reachable reachableBefore
    have issuedPart := resolved.healthy.issued reachableOrigin
    have reachablePart := isPart.reachable reachableOther
    have iffPart : ∀ {id}, placed.Contains part id ↔ _ :=
      blueprint.contains_old_iff resolved reachable swapped issuedPart reachablePart
    have outside :=
      ((blueprint.reachable_old_iff resolved reachable swapped issuedPart).mp reachablePart).2
    rw [iffPart] at contained ⊢
    rcases contained with ⟨inPart, _⟩ | ⟨above, new, _⟩
    · have issuedSym := resolved.healthy.issued (reachableOrigin.contains inPart)
      by_cases old : (origin.get? id).isSome
      · obtain ⟨reachableOld, spared⟩ :=
          (blueprint.reachable_old_iff resolved reachable swapped old).mp reachableId
        have usesOld := (blueprint.uses_iff swapped old).mp uses
        exact .inl ⟨tight part wasPart id sym reachableOld usesOld inPart, spared⟩
      · -- the new user stands for a use in the loop, so the loop is in the part
        have new : origin.New id := by simpa using old
        have usesBuilt := swapped.uses_iff.mp uses
        obtain ⟨_, found, _⟩ := get?_of_kindAt usesBuilt
        obtain newSym | free := (blueprint.usable_of_new swapped new uses).1
        · simp [newSym] at issuedSym
        · obtain ⟨user, inLoop, usesUser⟩ := free.used
          have userInPart :=
            tight part wasPart user sym (reachable.contains inLoop) usesUser inPart
          have above := (resolved.healthy.forest.comparable (.inl reachableOrigin) (.inl reachable)
            userInPart inLoop).resolve_right outside
          exact .inr ⟨above, new, by simp [found]⟩
    · exact .inr ⟨above, newUser new⟩

variable (tight : Tight origin loop) {stmt : Stmt} (known : origin.kindAt loop = some (.stmt stmt))

include known in
/-- The new symbols sit in their definitions, and the old ones still do. -/
theorem sits {symbol : Symbol} (reachableId : placed.Reachable id) (notRoot : id ∉ placed.roots)
    (isSymbol : placed.kindAt id = some (.symbol symbol)) : placed.Sits id := by
  have symbolBuilt : (built.kindAt id).any Kind.isSymbol := by
    rw [← swapped.isSymbol, isSymbol]
    rfl
  have notBlock : id ≠ block := by
    rintro rfl
    exact blueprint.solid.not_isSymbol symbolBuilt
  have notLoop : id ≠ loop := by
    rintro rfl
    have issued := resolved.healthy.issued reachable
    rw [blueprint.draft.extended.same_kind issued, known] at symbolBuilt
    simp [Kind.isSymbol, Kind.symbol?] at symbolBuilt
  refine swapped.sits notLoop notBlock ?_
  cases found : origin.get? id with
  | some node =>
    have issued : (origin.get? id).isSome := by simp [found]
    have reachableOrigin :=
      ((blueprint.reachable_old_iff resolved reachable swapped issued).mp reachableId).1
    rw [swapped.roots, blueprint.draft.extended.roots] at notRoot
    obtain ⟨holder, reachableHolder, holds⟩ := reachableOrigin.root_or_held.resolve_left notRoot
    rw [blueprint.draft.extended.same_kind issued] at symbolBuilt
    exact blueprint.crafted.keepsSitting (resolved.sits reachableHolder holds symbolBuilt)
  | none =>
    have held : built.parentOf id ≠ none := by
      intro parentless
      rcases blueprint.crafted.tops (get?_isSome_of_any symbolBuilt) parentless with
        isBlock | ⟨issued, _⟩
      · exact notBlock (List.mem_singleton.mp isBlock)
      · simp [found] at issued
    exact (blueprint.crafted.sits symbolBuilt held).resolve_left (by simp [parentOf, found])

include tight known

/-- The tree is resolved again. -/
theorem resolved_placed (healthy : Healthy placed) : Resolved placed where
  healthy := healthy
  seated id symbol reachableId notRoot isSymbol := by
    obtain ⟨data, definition, init?, declaredType?, isData, point, isDefinition, named⟩ :=
      blueprint.sits resolved reachable swapped known reachableId notRoot isSymbol
    obtain rfl : data = symbol := by simpa [isSymbol] using isData.symm
    exact ⟨definition, init?, declaredType?, point, isDefinition, named⟩
  uses {id sym} reachableId uses := by
    have reachableOld : ∀ {sym}, origin.Reachable sym → ¬ origin.Contains loop sym →
        placed.Reachable sym := fun {sym} reachableSym outside =>
      (blueprint.reachable_old_iff resolved reachable swapped
        (resolved.healthy.issued reachableSym)).mpr ⟨reachableSym, outside⟩
    rw [swapped.isSymbol]
    cases found : origin.get? id with
    | some node =>
      have issued : (origin.get? id).isSome := by simp [found]
      obtain ⟨reachableOrigin, outside⟩ :=
        (blueprint.reachable_old_iff resolved reachable swapped issued).mp reachableId
      have usesOrigin := (blueprint.uses_iff swapped issued).mp uses
      obtain ⟨reachableSym, symbol⟩ := resolved.uses reachableOrigin usesOrigin
      refine ⟨reachableOld reachableSym fun below => outside ?_, blueprint.crafted.isSymbol symbol⟩
      rcases below.cases_head with rfl | ⟨part, holds, inPart⟩
      · simp [known, Kind.isSymbol, Kind.symbol?] at symbol
      · exact .head holds (tight part (.inl holds) id sym reachableOrigin usesOrigin inPart)
    | none =>
      obtain ⟨new | free, symbol⟩ := blueprint.usable_of_new swapped found uses
      · exact ⟨blueprint.reachable_new resolved reachable swapped new (get?_isSome_of_any symbol),
          symbol⟩
      · exact ⟨reachableOld free.reachable free.outside, symbol⟩

end Blueprint

/-! ## One loop after the other -/

section Loops

variable {stmt : Stmt} {state : GpuLoopBuilder} {decision : Decision × GpuLoopBuilder}
  {loops : List NodeId}

theorem exists_forLoop_of_isCandidate {candidate : Bool}
    (looked : before.isCandidate loop = .ok candidate) (isCandidate : candidate = true) :
    ∃ indices iterators body independent,
      before.kindAt loop = some (.stmt (.forLoop indices iterators body independent)) := by
  subst isCandidate
  obtain ⟨placed, _, looked⟩ := Fault.bind_eq_ok.mp looked
  rcases Fault.ite_eq_ok.mp looked with ⟨_, never⟩ | ⟨_, looked⟩
  · simp [Fault.pure_eq_ok] at never
  · obtain ⟨independent, looking, looked⟩ := Fault.bind_eq_ok.mp looked
    obtain ⟨kind, known, looking⟩ := Fault.bind_eq_ok.mp looking
    rw [kindOf_eq_ok] at known
    split at looking
    · exact ⟨_, _, _, _, known⟩
    · obtain rfl := Fault.pure_eq_ok.mp looking
      simp [Fault.pure_eq_ok] at looked

/-- The variant hangs nowhere, and what it uses of the tree is free in the loop. -/
theorem Resolved.draft_of_outline {answer : Option NodeId × GpuLoopBuilder}
    (resolved : Resolved before) (reachable : before.Reachable loop) (tight : Tight before loop)
    (run : Yields (GpuLoopBuilder.outline loop state) before answer after) :
    answer.1 = none ∧ after = before ∨ ∃ variant, answer.1 = some variant ∧
      Draft before after ∧ Known before.New after variant ∧
      Assembled (Suitable before loop) [] before variant after := by
  have start := Draft.start resolved.healthy
  rw [GpuLoopBuilder.outline, yields_bind] at run
  obtain ⟨parts?, between, looked, run⟩ := run
  obtain ⟨found, rfl⟩ := yields_look.mp looked
  cases parts? with
  | none =>
    obtain ⟨rfl, rfl⟩ := yields_pure.mp run
    exact .inl ⟨rfl, rfl⟩
  | some parts =>
    simp only [yields_bind, yields_pure] at run
    obtain ⟨variant, _, building, rfl, rfl⟩ := run
    obtain ⟨inIterators, inBody⟩ := contains_of_loopParts? found
    obtain ⟨node, built, _, running, rfl⟩ := yields_withLocationOf.mp building
    generalize isEntered : { between with givenLocation? := some node.location } = entered
      at running
    have entering : Crafted (Suitable between loop) [] [] between entered :=
      .of_nodes (by rw [← isEntered]) (by rw [← isEntered])
    have draft : Draft between entered :=
      start.frame (by rw [← isEntered]) (by rw [← isEntered]) (by rw [← isEntered])
    have assembled :=
      draft.assembled_newGpuVariant resolved reachable tight found running
    obtain ⟨made, _⟩ := draft.newGpuVariant resolved.healthy (reachable.contains inBody)
      (reachable.contains inIterators) running
    have leaving : Crafted (Suitable between loop) [] [] built
        { built with givenLocation? := between.givenLocation? } := .of_nodes rfl rfl
    refine .inr ⟨variant, rfl, made.progress.kept.frame rfl rfl rfl,
      ⟨made.known.inside, leaving.issued made.known.issued⟩,
      ⟨(entering.andThen assembled.crafted [variant] (by simp) (by simp)).andThen leaving [variant]
        (by simp) (by simp), leaving.solid assembled.solid⟩⟩

/-- Deciding on a tight loop leaves the tree resolved and the other loops as tight as they
were. -/
theorem Resolved.outlineLoop (resolved : Resolved before) (reachable : before.Reachable loop)
    (tight : Tight before loop) (known : before.kindAt loop = some (.stmt stmt))
    (run : Yields (Edit.outlineLoop GpuLoopBuilder.outline loop state) before decision after)
    (sound : Sound exact False region after) :
    Resolved after ∧ ∀ other, (before.get? other).isSome → after.Reachable other →
      before.Reachable other ∧
        (after.kindAt other).bind Kind.category? = (before.kindAt other).bind Kind.category? ∧
        (Tight before other → Tight after other) := by
  obtain ⟨answer, middle, runOutliner, runDecision⟩ := yields_run_bind.mp run
  rcases resolved.draft_of_outline reachable tight runOutliner with
    ⟨answered, rfl⟩ | ⟨variant, answered, draft, knownVariant, made⟩
  · rw [answered] at runDecision
    simp only [yields_run_bind, yields_run_lift, yields_run_pure, yields_look] at runDecision
    obtain ⟨_, _, ⟨⟨_, rfl⟩, _⟩, _, rfl⟩ := runDecision
    exact ⟨resolved, fun _ _ reachable => ⟨reachable, rfl, id⟩⟩
  · rw [answered] at runDecision
    simp only [yields_run_bind, yields_run_lift, yields_run_pure, yields_look] at runDecision
    obtain ⟨_, _, ⟨⟨_, rfl⟩, _⟩, _, _, ⟨runDispatch, _⟩, _, rfl⟩ := runDecision
    obtain ⟨built, block, body, linked, placed, draftBuilt, knownBlock, crafted, solid, isBlock,
      runReplace, rfl⟩ :=
      draft.exists_crafted_dispatch resolved reachable known knownVariant made.solid runDispatch
    obtain ⟨holder, swapped⟩ := exists_swapped runReplace
    have blueprint : Blueprint before loop block built := by
      refine ⟨draftBuilt, made.crafted.andThen crafted [block] (by simp) (by simp), knownBlock,
        solid, ?_⟩
      simp [isBlock, Kind.isList]
    have soundPlaced : Sound exact False region placed :=
      (Sound.workshop exact False region).frame sound rfl rfl rfl
    have resolvedPlaced :=
      blueprint.resolved_placed resolved reachable swapped tight known soundPlaced.healthy
    refine ⟨⟨sound.healthy, resolvedPlaced.seated, resolvedPlaced.uses⟩, ?_⟩
    intro other issued reachableOther
    have reachablePlaced : placed.Reachable other := reachableOther
    have category :
        (placed.kindAt other).bind Kind.category? = (before.kindAt other).bind Kind.category? := by
      rw [swapped.category, draftBuilt.extended.same_kind issued]
    exact ⟨((blueprint.reachable_old_iff resolved reachable swapped issued).mp reachablePlaced).1,
      category, blueprint.tight_placed resolved reachable swapped issued reachablePlaced⟩

/-- Deciding on all loops, one after the other, leaves the tree resolved. -/
theorem Sound.resolved_outlineLoops {decisions : List Decision × GpuLoopBuilder}
    (sound : Sound exact False region before) (resolved : Resolved before)
    (known : ∀ loop ∈ loops, Known region before loop)
    (tight : ∀ loop ∈ loops, before.Reachable loop →
      (before.kindAt loop).bind Kind.category? = some .loop → Tight before loop)
    (run : Yields (Edit.outlineLoops GpuLoopBuilder.outline loops state) before decisions after) :
    Resolved after := by
  induction loops generalizing region before state decisions with
  | nil =>
    obtain ⟨_, rfl⟩ := yields_run_pure.mp run
    exact resolved
  | cons loop rest ih =>
    obtain ⟨knownLoop, knownRest⟩ := List.forall_mem_cons.mp known
    obtain ⟨tightLoop, tightRest⟩ := List.forall_mem_cons.mp tight
    simp only [Edit.outlineLoops, yields_run_bind, yields_run_lift, yields_look] at run
    obtain ⟨⟨candidate, _⟩, middle, ⟨⟨looked, rfl⟩, rfl⟩, run⟩ := run
    cases candidate with
    | false => exact ih sound resolved knownRest tightRest run
    | true =>
      have reachable := sound.reachable_of_isCandidate knownLoop looked rfl
      obtain ⟨indices, iterators, body, independent, isLoop⟩ :=
        exists_forLoop_of_isCandidate looked rfl
      have tight := tightLoop reachable (by rw [isLoop, Option.bind_some, Kind.category?])
      simp only [if_true, yields_run_bind, yields_run_pure] at run
      obtain ⟨decision, between, runLoop, _, _, runRest, rfl, rfl⟩ := run
      obtain ⟨next, first⟩ :=
        sound.exists_onward_outlineLoop GpuLoopBuilder.respectful reachable runLoop
      obtain ⟨resolvedNext, others⟩ :=
        resolved.outlineLoop reachable tight isLoop runLoop first.sound
      refine ih first.sound resolvedNext
        (fun other member => first.known other (knownRest other member))
        (fun other member reachableOther category => ?_) runRest
      obtain ⟨reachableBefore, sameCategory, keepsTight⟩ :=
        others other (knownRest other member).issued reachableOther
      exact keepsTight (tightRest other member reachableBefore (sameCategory ▸ category))

end Loops

end Program

end ProgramTree
