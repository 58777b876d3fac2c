import ProgramTree.Proofs.Duplicates

/-!
# Islands

A part of a program that nothing else holds.  It can be added to an orderly region when
the nodes of the region, the roots and the index are what they were.
-/

namespace ProgramTree.Program

/-- The nodes hold one another and nothing else, nothing else holds them, and they have no
context. -/
structure Island (island : NodeId → Prop) (program : Program) : Prop where
  held : ∀ {holder child}, island holder → program.Holds holder child →
    island child ∧ program.parentOf child = some holder
  holder : ∀ {holder child}, island child → program.parentOf child = some holder →
    island holder ∧ program.Holds holder child
  nodup : ∀ {id}, island id → (program.held id).Nodup
  grounded : ∀ {id}, island id → program.Grounded id
  context : ∀ {id}, island id → program.contextOf id = {}

/-- The program has new nodes, and is otherwise what it was. -/
structure Extends (before after : Program) : Prop where
  old : ∀ {id node}, before.get? id = some node → after.get? id = some node
  roots : after.roots = before.roots
  index : after.index = before.index

variable {exact bare : Prop} {region island : NodeId → Prop} {before after : Program}
  {id holder child top : NodeId}

namespace Extends

variable (extended : Extends before after)
include extended

theorem same_node (issued : (before.get? id).isSome) : after.get? id = before.get? id := by
  obtain ⟨node, found⟩ := Option.isSome_iff_exists.mp issued
  rw [found, extended.old found]

theorem same_kind (issued : (before.get? id).isSome) : after.kindAt id = before.kindAt id := by
  rw [kindAt, extended.same_node issued, kindAt]

theorem same_holds (issued : (before.get? holder).isSome) :
    after.Holds holder child ↔ before.Holds holder child := by
  rw [Holds, held, extended.same_kind issued, Holds, held]

theorem same_parent (issued : (before.get? id).isSome) :
    after.parentOf id = before.parentOf id := by
  rw [parentOf, extended.same_node issued, parentOf]

theorem same_context (issued : (before.get? id).isSome) :
    after.contextOf id = before.contextOf id := by
  rw [contextOf, extended.same_node issued, contextOf]

theorem contains_iff (issued : ∀ id, before.Contains top id → (before.get? id).isSome) :
    after.Contains top id ↔ before.Contains top id := by
  constructor
  · intro contained
    induction contained with
    | refl => exact .refl
    | tail _ holds ih => exact ih.tail ((extended.same_holds (issued _ ih)).mp holds)
  · exact contains_mono fun _ _ holds => (extended.same_holds holds.issued).mpr holds

omit extended in
theorem trans {between : Program} (first : Extends before between)
    (second : Extends between after) : Extends before after where
  old found := second.old (first.old found)
  roots := second.roots.trans first.roots
  index := second.index.trans first.index

end Extends

namespace Arranged

variable (orderly : Orderly exact bare region [] before)
include orderly

theorem issued_of_held (inside : region holder) (holds : before.Holds holder child) :
    (before.get? child).isSome := by
  obtain ⟨_, found, _⟩ := get?_of_parentOf (orderly.forest.held inside holds).2
  simp [found]

theorem issued_of_reachable (reachable : before.Reachable id) : (before.get? id).isSome := by
  rcases reachable.root_or_held with isRoot | ⟨holder, reachableHolder, holds⟩
  · obtain ⟨kind, known, _⟩ := (Option.any_eq_true _ _).mp (orderly.rooted.module isRoot)
    exact get?_isSome_of_kindAt known
  · exact orderly.issued_of_held
      (orderly.rooted.reachable_inside orderly.forest reachableHolder) holds

theorem reachable_of_extends (extended : Extends before after) :
    after.Reachable id ↔ before.Reachable id := by
  constructor
  · rintro ⟨root, isRoot, contained⟩
    rw [extended.roots] at isRoot
    induction contained with
    | refl => exact .of_root isRoot
    | tail _ holds ih =>
      exact ih.holds ((extended.same_holds (orderly.issued_of_reachable ih)).mp holds)
  · rintro ⟨root, isRoot, contained⟩
    refine ⟨root, extended.roots ▸ isRoot, ?_⟩
    exact contains_mono (fun _ _ holds => (extended.same_holds (Holds.issued holds)).mpr holds)
      contained

/-- The region grows by an island, and by nothing that is not there. -/
theorem annex (extended : Extends before after) (isIsland : Island island after) :
    Orderly exact bare
      (fun id => (region id ∧ (before.get? id).isSome) ∨ island id ∨ after.get? id = none) []
      after := by
  have forest := orderly.forest
  have rooted := orderly.rooted
  have settled := orderly.settled
  have reachable : ∀ {id}, after.Reachable id ↔ before.Reachable id :=
    orderly.reachable_of_extends extended
  have issued : ∀ {id}, before.Reachable id → (before.get? id).isSome :=
    orderly.issued_of_reachable
  have inner : ∀ {id}, (before.get? id).isSome → after.innerContext id = before.innerContext id := by
    intro id issued
    rw [innerContext, innerContext, extended.same_kind issued, extended.same_context issued]
  refine ⟨⟨fun unissued => .inr (.inr unissued), ?_, ?_, by simp, by simp, ?_, ?_⟩,
    ⟨?_, ?_, ?_, ?_⟩, ⟨?_, ?_, ?_, ?_, ?_, ?_⟩⟩
  · rintro holder child (⟨inside, issued⟩ | onIsland | unissued) holds
    · rw [extended.same_holds issued] at holds
      have issuedChild := orderly.issued_of_held inside holds
      obtain ⟨insideChild, named⟩ := forest.held inside holds
      exact ⟨.inl ⟨insideChild, issuedChild⟩, (extended.same_parent issuedChild).trans named⟩
    · obtain ⟨onIslandChild, named⟩ := isIsland.held onIsland holds
      exact ⟨.inr (.inl onIslandChild), named⟩
    · simp [Holds, held_of_unissued unissued] at holds
  · rintro holder child (⟨inside, issued⟩ | onIsland | unissued) _ named
    · rw [extended.same_parent issued] at named
      obtain ⟨insideHolder, holds⟩ := forest.holder inside (by simp) named
      exact ⟨.inl ⟨insideHolder, holds.issued⟩, (extended.same_holds holds.issued).mpr holds⟩
    · obtain ⟨onIslandHolder, holds⟩ := isIsland.holder onIsland named
      exact ⟨.inr (.inl onIslandHolder), holds⟩
    · simp [parentOf_of_unissued unissued] at named
  · rintro id (⟨inside, issued⟩ | onIsland | unissued)
    · rw [held, extended.same_kind issued, ← held]
      exact forest.nodup inside
    · exact isIsland.nodup onIsland
    · simp [held_of_unissued unissued]
  · rintro id (⟨inside, issued⟩ | onIsland | unissued)
    · induction forest.grounded inside with
      | _ id _ ih =>
        refine ⟨_, fun child holds => ?_⟩
        have holdsBefore := (extended.same_holds issued).mp holds
        exact ih child holdsBefore (forest.held inside holdsBefore).1
          (orderly.issued_of_held inside holdsBefore)
    · exact isIsland.grounded onIsland
    · refine ⟨_, fun child holds => ?_⟩
      simp [Holds, held_of_unissued unissued] at holds
  · intro root isRoot
    rw [extended.roots] at isRoot
    exact .inl ⟨rooted.inside isRoot, issued (.of_root isRoot)⟩
  · intro root isRoot
    rw [extended.roots] at isRoot
    rw [extended.same_kind (issued (.of_root isRoot))]
    exact rooted.module isRoot
  · intro root isRoot
    rw [extended.roots] at isRoot
    rw [extended.same_parent (issued (.of_root isRoot))]
    exact rooted.free isRoot
  · rw [extended.roots]
    exact rooted.nodup
  · intro root wanted isRoot kept
    rw [extended.roots] at isRoot
    rw [extended.same_context (issued (.of_root isRoot))]
    exact settled.root_context wanted isRoot kept
  · intro holder child reachableHolder holds kept
    rw [reachable] at reachableHolder
    rw [extended.same_holds (issued reachableHolder)] at holds
    rw [extended.same_context (issued (reachableHolder.holds holds)), inner (issued reachableHolder)]
    exact settled.context reachableHolder holds kept
  · rintro id (⟨inside, issued⟩ | onIsland | unissued) unreachable kept
    · rw [reachable] at unreachable
      rw [extended.same_context issued]
      exact settled.no_context inside unreachable kept
    · exact isIsland.context onIsland
    · exact contextOf_of_unissued unissued
  · intro id category member kept
    rw [extended.index] at member
    exact reachable.mpr (settled.indexed_reachable member kept)
  · intro id category wanted member
    rw [extended.index] at member
    have reachableId := settled.indexed_reachable member not_false
    rw [extended.same_kind (issued reachableId)]
    exact settled.indexed_kind wanted member
  · intro id category wanted reachableId kept categorized
    rw [reachable] at reachableId
    rw [extended.same_kind (issued reachableId)] at categorized
    rw [extended.index]
    exact settled.reachable_indexed wanted reachableId kept categorized

end Arranged

/-! ## Copies are islands -/

/-- What is copied is there. -/
theorem issued_of_duplicateWith {seeds : Remap} {updated : List NodeId} {inner : Bool}
    {answer : Edit.Duplication} (unseeded : top ∉ seeds)
    (run : Edit.Yields (Edit.duplicateWith top seeds updated inner) before answer after) :
    (before.get? top).isSome := by
  have absent : seeds[top]? = none := Std.ExtTreeMap.getElem?_eq_none unseeded
  have missing : seeds.contains top = false := by
    rw [Std.ExtTreeMap.contains_eq_isSome_getElem?, absent]
    rfl
  simp only [Edit.duplicateWith, absent, levelBound, Edit.duplicateWithin, missing,
    Bool.false_eq_true, if_false, Edit.yields_bind, Edit.yields_get, Edit.yields_look,
    owned_eq_ok] at run
  obtain ⟨_, _, ⟨rfl, rfl⟩, _, _, ⟨_, _, ⟨⟨issued, _⟩, rfl⟩, _⟩, _⟩ := run
  exact issued

/-- Whenever a copy ends well, its source was there, and is duplicated. -/
theorem duplicated_of_yields {seeds : Remap} {updated : List NodeId} {answer : Edit.Duplication}
    (forest : Forest region [] before) (inside : region top)
    (unseeded : ∀ id, before.Contains top id → id ∉ seeds)
    (run : Edit.Yields (Edit.duplicateWith top seeds updated false) before answer after) :
    (before.get? top).isSome ∧
      ∃ order, answer.duplicate = before.twin order top ∧
        Duplicated before seeds top order after := by
  have issued := issued_of_duplicateWith (unseeded top .refl) run
  obtain ⟨copied, final, order, runs, isTwin, duplicated⟩ :=
    exists_duplicateWith forest inside issued unseeded updated
  obtain ⟨rfl, rfl⟩ : answer = copied ∧ after = final := by
    simpa [Edit.Yields] using run.symm.trans runs
  exact ⟨issued, order, isTwin, duplicated⟩

/-- Whenever a copy ends well, its source was there and has twins.  An inner copy leaves the
links as they are. -/
theorem twinned_of_duplicateWith {seeds : Remap} {updated : List NodeId} {inner : Bool}
    {answer : Edit.Duplication} (forest : Forest region [] before) (inside : region top)
    (unseeded : ∀ id, before.Contains top id → id ∉ seeds)
    (run : Edit.Yields (Edit.duplicateWith top seeds updated inner) before answer after) :
    (before.get? top).isSome ∧ ∃ order, Twinned before top order
      (if inner then fun link => link else before.redirect seeds order) after := by
  cases inner with
  | false =>
    obtain ⟨issued, order, _, duplicated⟩ := duplicated_of_yields forest inside unseeded run
    exact ⟨issued, order, duplicated.twinned⟩
  | true =>
    have issued := issued_of_duplicateWith (unseeded top .refl) run
    obtain ⟨table, middle, order, runs, visits, distinct, copied⟩ :=
      exists_duplicateWithin forest inside issued unseeded
    have absent : seeds[top]? = none := Std.ExtTreeMap.getElem?_eq_none (unseeded top .refl)
    simp only [Edit.duplicateWith, absent, Edit.yields_bind, Edit.yields_get, if_true,
      Edit.yields_pure] at run
    obtain ⟨_, _, ⟨rfl, rfl⟩, _, final, run, _, rfl⟩ := run
    obtain ⟨_, rfl⟩ : _ = table ∧ after = middle := by
      simpa [Edit.Yields] using run.symm.trans runs
    exact ⟨issued, order, copied.twinned forest inside visits distinct⟩

namespace Twinned

variable {order : List NodeId} {link : NodeId → NodeId}
  (twinned : Twinned before top order link after)
include twinned

theorem mem_order : id ∈ order ↔ before.Contains top id :=
  twinned.visits.mem_singleton

theorem extends_before : Extends before after := by
  refine ⟨twinned.old, ?_, ?_⟩
  all_goals rw [twinned.rest]

variable (forest : Forest region [] before) (inside : region top)
  (issued : (before.get? top).isSome)
include forest inside issued

theorem exists_source (member : id ∈ order) : ∃ source, before.get? id = some source :=
  Option.isSome_iff_exists.mp
    (forest.issued_of_contains inside issued (twinned.mem_order.mp member))

theorem kindAt_twin (member : id ∈ order) :
    after.kindAt (before.twin order id) =
      (before.kindAt id).map (Kind.renamed (before.twin order) link) := by
  obtain ⟨source, found⟩ := twinned.exists_source forest inside issued member
  rw [kindAt_eq (twinned.twin member found), copyOf_kind, kindAt_eq found, Option.map_some]

theorem held_twin (member : id ∈ order) :
    after.held (before.twin order id) = (before.held id).map (before.twin order) := by
  obtain ⟨source, found⟩ := twinned.exists_source forest inside issued member
  rw [held_eq (twinned.twin member found), copyOf_kind, Kind.owned_renamed, held_eq found]

theorem parentOf_twin (member : id ∈ order) :
    after.parentOf (before.twin order id) =
      if id = top then none else (before.parentOf id).map (before.twin order) := by
  obtain ⟨source, found⟩ := twinned.exists_source forest inside issued member
  rw [parentOf_eq (twinned.twin member found)]
  rfl

omit issued in
theorem holder_in_order (member : holder ∈ order) (holds : before.Holds holder child) :
    child ∈ order ∧ child ≠ top ∧ before.parentOf child = some holder := by
  have contained := twinned.mem_order.mp member
  have insideHolder := forest.contains inside contained
  refine ⟨twinned.mem_order.mpr (contained.tail holds), ?_, (forest.held insideHolder holds).2⟩
  rintro rfl
  exact forest.not_contains_holder insideHolder holds contained

theorem contains_twin (contained : before.Contains top id) :
    after.Contains (before.twin order top) (before.twin order id) := by
  induction contained with
  | refl => exact .refl
  | tail above holds ih =>
    refine ih.tail ?_
    rw [Holds, twinned.held_twin forest inside issued (twinned.mem_order.mpr above)]
    exact List.mem_map_of_mem holds

/-- The nodes that a copy is made of hold one another as the original nodes do. -/
theorem isIsland :
    Island (fun id => before.get? id = none ∧ (after.get? id).isSome) after := by
  refine ⟨?_, ?_, ?_, ?_, ?_⟩
  · intro holder child created holds
    obtain ⟨source, member, rfl⟩ := List.mem_map.mp (twinned.created_iff.mp created)
    rw [Holds, twinned.held_twin forest inside issued member] at holds
    obtain ⟨original, holdsOriginal, rfl⟩ := List.mem_map.mp holds
    obtain ⟨memberChild, strict, named⟩ :=
      twinned.holder_in_order forest inside member holdsOriginal
    refine ⟨twinned.created_iff.mpr (List.mem_map_of_mem memberChild), ?_⟩
    rw [twinned.parentOf_twin forest inside issued memberChild, if_neg strict, named,
      Option.map_some]
  · intro holder child created named
    obtain ⟨original, member, rfl⟩ := List.mem_map.mp (twinned.created_iff.mp created)
    rw [twinned.parentOf_twin forest inside issued member] at named
    have strict : original ≠ top := by
      rintro rfl
      simp at named
    rw [if_neg strict] at named
    obtain ⟨above, namedAbove, containedAbove⟩ :=
      forest.parent_of_contains inside (twinned.mem_order.mp member) strict
    rw [namedAbove, Option.map_some, Option.some.injEq] at named
    subst named
    have memberAbove := twinned.mem_order.mpr containedAbove
    have insideOriginal := forest.contains inside (twinned.mem_order.mp member)
    refine ⟨twinned.created_iff.mpr (List.mem_map_of_mem memberAbove), ?_⟩
    rw [Holds, twinned.held_twin forest inside issued memberAbove]
    exact List.mem_map_of_mem (forest.holder insideOriginal (by simp) namedAbove).2
  · intro id created
    obtain ⟨original, member, rfl⟩ := List.mem_map.mp (twinned.created_iff.mp created)
    rw [twinned.held_twin forest inside issued member]
    apply List.Nodup.map_on
    · intro first holds second _ same
      exact twin_injective (twinned.holder_in_order forest inside member holds).1 same
    · exact forest.nodup (forest.contains inside (twinned.mem_order.mp member))
  · intro id created
    obtain ⟨original, member, rfl⟩ := List.mem_map.mp (twinned.created_iff.mp created)
    induction forest.grounded (forest.contains inside (twinned.mem_order.mp member)) with
    | _ original _ ih =>
      refine ⟨_, fun child holds => ?_⟩
      rw [Holds, twinned.held_twin forest inside issued member] at holds
      obtain ⟨below, holdsBelow, rfl⟩ := List.mem_map.mp holds
      have memberBelow := (twinned.holder_in_order forest inside member holdsBelow).1
      exact ih below holdsBelow memberBelow
        (twinned.created_iff.mpr (List.mem_map_of_mem memberBelow))
  · intro id created
    obtain ⟨original, member, rfl⟩ := List.mem_map.mp (twinned.created_iff.mp created)
    obtain ⟨source, found⟩ := twinned.exists_source forest inside issued member
    rw [contextOf_eq (twinned.twin member found), copyOf_context]

omit forest in
/-- Copying keeps a region orderly. -/
theorem orderly (orderly : Orderly exact bare region [] before) :
    Orderly exact bare region [] after := by
  have annexed := orderly.annex twinned.extends_before
    (twinned.isIsland orderly.forest inside issued)
  have same : (fun id => (region id ∧ (before.get? id).isSome) ∨
      (before.get? id = none ∧ (after.get? id).isSome) ∨ after.get? id = none) = region := by
    funext id
    refine propext ⟨?_, fun insideId => ?_⟩
    · rintro (⟨insideId, _⟩ | ⟨unissued, _⟩ | unissued)
      · exact insideId
      · exact orderly.forest.unissued unissued
      · refine orderly.forest.unissued (Option.eq_none_iff_forall_ne_some.mpr fun node found => ?_)
        simp [twinned.old found] at unissued
    · cases found : before.get? id with
      | some node => exact .inl ⟨insideId, rfl⟩
      | none =>
        cases foundAfter : after.get? id with
        | some node => exact .inr (.inl ⟨rfl, rfl⟩)
        | none => exact .inr (.inr rfl)
  exact same ▸ annexed

end Twinned

namespace Duplicated

variable {seeds : Remap} {order : List NodeId} (duplicated : Duplicated before seeds top order after)
include duplicated

theorem extends_before : Extends before after :=
  duplicated.twinned.extends_before

variable (forest : Forest region [] before) (inside : region top)
  (issued : (before.get? top).isSome)
include forest inside issued

theorem exists_source (member : id ∈ order) : ∃ source, before.get? id = some source :=
  duplicated.twinned.exists_source forest inside issued member

theorem contains_twin (contained : before.Contains top id) :
    after.Contains (before.twin order top) (before.twin order id) :=
  duplicated.twinned.contains_twin forest inside issued contained

omit forest in
/-- Copying keeps a region orderly. -/
theorem orderly (orderly : Orderly exact bare region [] before) :
    Orderly exact bare region [] after :=
  duplicated.twinned.orderly inside issued orderly

end Duplicated

end ProgramTree.Program
