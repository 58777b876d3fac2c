import ProgramTree.Proofs.Insertion

/-!
# What a carrier list brings

A list that is put into another one is emptied into it.  If it holds no lists, its elements come in
their order: each element takes one place, so the next one goes right behind it.
-/

namespace ProgramTree

open Program Edit

variable {before between after : Program} {id new list linked : NodeId} {holds : ListCategory}
  {elements items : List NodeId} {position depth : Nat}

/-- What became of a node on its way into a list: it is the element itself, or a new statement
runs it. -/
structure Program.Became (before : Program) (holds : ListCategory) (after : Program)
    (id linked : NodeId) : Prop where
  bare : ¬ before.NeedsWrapper holds id → linked = id
  wrapped : before.NeedsWrapper holds id →
    before.get? linked = none ∧ after.kindAt linked = some (.stmt (.expr id))

/-- A single node was issued, and it is no list. -/
theorem old_of_single {items : Array NodeId} (known : before.kindAt list = some (.list holds items))
    (single : (before.kindAt id).map Kind.isList = some false) :
    (before.get? id).isSome ∧ id ≠ list := by
  obtain ⟨kind, isKind, _⟩ := Option.map_eq_some_iff.mp single
  refine ⟨get?_isSome_of_kindAt isKind, ?_⟩
  rintro rfl
  simp [known, Kind.isList] at single

/-- Nodes other than the list are of the kind that they were of. -/
def KeepsKinds (list : NodeId) (before after : Program) : Prop :=
  ∀ id kind, id ≠ list → before.kindAt id = some kind → after.kindAt id = some kind

namespace Edit

variable {wrapped relinked : Program}

theorem Filing.keepsKinds
    (filing : Filing before wrapped relinked after list holds elements position new linked)
    (unattached : before.Unattached new) : KeepsKinds list before after := by
  intro id kind notList known
  have knownWrapped := (filing.isWrapped unattached).kindAt known
  obtain ⟨node, found, isKind⟩ := get?_of_kindAt knownWrapped
  rw [kindAt, filing.get?_eq, found]
  simp [notList, isKind]

theorem Filing.became
    (filing : Filing before wrapped relinked after list holds elements position new linked)
    (unattached : before.Unattached new) (notList : linked ≠ list) :
    before.Became holds after new linked := by
  rcases asElement_cases unattached.issued filing.element with
    ⟨plain, same, _⟩ | ⟨wraps, isNext, ⟨wrapper, found, isWrapper⟩, _⟩
  · exact ⟨fun _ => same, fun wraps => absurd wraps plain⟩
  · refine ⟨fun plain => absurd wraps plain, fun _ => ⟨by rw [isNext, get?_nextId], ?_⟩⟩
    rw [kindAt, filing.get?_eq, found]
    simp [notList, isWrapper.kind]

theorem insertElement_of_spliceWithin (single : (before.kindAt new).map Kind.isList = some false)
    (run : Yields (spliceWithin (depth + 1) list position new) before linked after) :
    before.Unattached new ∧ Yields (insertElement list position new) before linked after := by
  obtain ⟨_, _, checked, _⟩ := yields_bind.mp run
  obtain ⟨_, issued, free, notPlaced⟩ := yields_checkInsertable.mp checked
  have unattached : before.Unattached new := ⟨issued, free, notPlaced⟩
  rw [Yields, spliceWithin_of_single depth position list unattached single] at run
  exact ⟨unattached, run⟩

end Edit

/-! ## One element after the other -/

namespace KeepsKinds

theorem kindAt_eq (keeps : KeepsKinds list before after) (notList : id ≠ list)
    (issued : (before.get? id).isSome) : after.kindAt id = before.kindAt id := by
  obtain ⟨node, found⟩ := Option.isSome_iff_exists.mp issued
  rw [Program.kindAt_eq found, keeps id node.kind notList (Program.kindAt_eq found)]

theorem unissued (keeps : KeepsKinds list before after) (notList : id ≠ list)
    (unissued : after.get? id = none) : before.get? id = none := by
  by_contra issued
  have same := keeps.kindAt_eq notList (Option.isSome_iff_ne_none.mpr issued)
  rw [get?_eq_none_iff_kindAt, same, ← get?_eq_none_iff_kindAt] at unissued
  exact issued unissued

/-- What became of a node does not depend on what was changed elsewhere before. -/
theorem became (keeps : KeepsKinds list before between) (knownList : (between.get? list).isSome)
    (notList : id ≠ list) (issued : (before.get? id).isSome)
    (became : between.Became holds after id linked) : before.Became holds after id linked := by
  have same : between.NeedsWrapper holds id ↔ before.NeedsWrapper holds id := by
    rw [NeedsWrapper, NeedsWrapper, keeps.kindAt_eq notList issued]
  refine ⟨fun plain => became.bare (same.not.mpr plain), fun wraps => ?_⟩
  refine (became.wrapped (same.mpr wraps)).imp_left fun unissued => keeps.unissued ?_ unissued
  rintro rfl
  simp [unissued] at knownList

end KeepsKinds

/-- Nodes have been put into the list, and other nodes are of the kind that they were of. -/
structure PutIn (before : Program) (list : NodeId) (holds : ListCategory) (elements : List NodeId)
    (position : Nat) (items linked : List NodeId) (after : Program) : Prop where
  elements : after.kindAt list =
    some (.list holds (elements.take position ++ linked ++ elements.drop position).toArray)
  became : List.Forall₂ (before.Became holds after) items linked
  keeps : KeepsKinds list before after

namespace PutIn

variable {front back linkedFront linkedBack : List NodeId}

theorem nothing (known : after.kindAt list = some (.list holds elements.toArray))
    (keeps : KeepsKinds list before after) :
    PutIn before list holds elements position [] [] after :=
  ⟨by simpa using known, .nil, keeps⟩

/-- What follows is put behind what was put in before. -/
theorem trans (putFront : PutIn before list holds elements position front linkedFront between)
    (putBack : PutIn between list holds
      (elements.take position ++ linkedFront ++ elements.drop position)
      (position + linkedFront.length) back linkedBack after)
    (inBounds : position ≤ elements.length)
    (single : ∀ id ∈ back, (before.get? id).isSome ∧ id ≠ list) :
    PutIn before list holds elements position (front ++ back) (linkedFront ++ linkedBack) after := by
  have earlier : ∀ {id linked}, before.Became holds between id linked →
      before.Became holds after id linked := fun became =>
    ⟨became.bare, fun wraps => (became.wrapped wraps).imp_right fun runs =>
      putBack.keeps _ _ (by rintro rfl; simp [putFront.elements] at runs) runs⟩
  have issuedList := get?_isSome_of_kindAt putFront.elements
  have start : (elements.take position ++ linkedFront).length = position + linkedFront.length := by
    rw [List.length_append, List.length_take_of_le inBounds]
  refine ⟨?_, ?_, fun id kind notList known =>
    putBack.keeps id kind notList (putFront.keeps id kind notList known)⟩
  · rw [putBack.elements, ← start, List.take_left, List.drop_left]
    simp only [List.append_assoc]
  · refine List.rel_append (putFront.became.imp fun _ _ => earlier) ?_
    have behind := (List.forall₂_and_left _ _).mpr ⟨single, putBack.became⟩
    exact behind.imp fun _ _ ⟨⟨issued, notList⟩, became⟩ =>
      putFront.keeps.became issuedList notList issued became

end PutIn

theorem Edit.putIn_insertElement (known : before.kindAt list = some (.list holds elements.toArray))
    (single : (before.kindAt new).map Kind.isList = some false)
    (unattached : before.Unattached new) (inBounds : position ≤ elements.length)
    (run : Yields (insertElement list position new) before linked after) :
    PutIn before list holds elements position [new] [linked] after := by
  obtain ⟨wrapped, relinked, filing⟩ := exists_filing unattached.issued known inBounds run
  have notList : linked ≠ list := by
    rintro rfl
    rcases asElement_cases unattached.issued filing.element with ⟨_, same, _⟩ | ⟨_, isNext, _⟩
    · simp [← same, known, Kind.isList] at single
    · obtain ⟨_, found, _⟩ := get?_of_kindAt known
      simp [isNext, get?_nextId] at found
  refine ⟨?_, .cons (filing.became unattached notList) .nil, filing.keepsKinds unattached⟩
  rw [filing.kindAt_list unattached, List.append_assoc, List.singleton_append]

theorem Edit.exists_putIn_each {offset : Nat} {done : Unit}
    (known : before.kindAt list = some (.list holds elements.toArray))
    (single : ∀ id ∈ items, (before.kindAt id).map Kind.isList = some false)
    (inBounds : position + offset ≤ elements.length)
    (run : Yields ((items.zipIdx offset).forM fun (element, offset) => do
      setParent element none
      let _ ← spliceWithin (depth + 1) list (position + offset) element) before done after) :
    ∃ linked, PutIn before list holds elements (position + offset) items linked after := by
  induction items generalizing offset before elements with
  | nil =>
    rw [List.zipIdx_nil, yields_forM_nil] at run
    subst run
    exact ⟨[], .nothing known fun _ _ _ known => known⟩
  | cons first rest ih =>
    rw [List.zipIdx_cons, yields_forM_cons] at run
    obtain ⟨between, runFirst, runRest⟩ := run
    simp only [yields_bind, yields_pure] at runFirst
    obtain ⟨_, released, releasing, linked, _, splicing, _, rfl⟩ := runFirst
    have kinds := kindAt_setParent releasing
    have releases : PutIn before list holds elements (position + offset) [] [] released :=
      .nothing ((kinds list).trans known) fun id _ _ known => (kinds id).trans known
    obtain ⟨singleFirst, singleRest⟩ := List.forall_mem_cons.mp single
    have oldFirst := old_of_single known singleFirst
    have oldRest := fun id member => old_of_single known (singleRest id member)
    obtain ⟨unattached, inserting⟩ :=
      insertElement_of_spliceWithin (by rwa [kinds]) splicing
    have insertsFirst := putIn_insertElement ((kinds list).trans known) (by rwa [kinds]) unattached
      inBounds inserting
    have putFirst : PutIn before list holds elements (position + offset) [first] [linked] between :=
      releases.trans (by simpa using insertsFirst) inBounds (by simpa using oldFirst)
    have singleBetween : ∀ id ∈ rest, (between.kindAt id).map Kind.isList = some false :=
      fun id member => by
        rw [putFirst.keeps.kindAt_eq (oldRest id member).2 (oldRest id member).1]
        exact singleRest id member
    obtain ⟨linkedRest, putRest⟩ := ih putFirst.elements singleBetween
      (show position + (offset + 1) ≤ _ by simp; omega) runRest
    exact ⟨linked :: linkedRest, putFirst.trans putRest inBounds oldRest⟩

/-! ## The whole list -/

theorem Edit.exists_cleared {elements : Array NodeId} {answer : NodeId}
    (known : before.kindAt new = some (.list holds elements))
    (run : Yields (spliceWithin (depth + 1) list position new) before answer after) :
    ∃ cleared, cleared.kindAt new = some (.list holds #[]) ∧ KeepsKinds new before cleared ∧
      Yields (elements.toList.zipIdx.forM fun (element, offset) => do
        setParent element none
        let _ ← spliceWithin depth list (position + offset) element) cleared () after := by
  simp only [spliceWithin, yields_bind, yields_checkInsertable, yields_look, yields_ite,
    yields_changeElements, yields_pure, elements_eq_ok, isList_eq_ok] at run
  obtain ⟨_, _, ⟨rfl, _⟩, isList, _, ⟨listed, rfl⟩, run⟩ := run
  rcases run with ⟨_, _, _, ⟨⟨_, knownAgain⟩, rfl⟩, _, _, ⟨_, rfl⟩, _, _, moving, rfl, rfl⟩ |
    ⟨single, _⟩
  · obtain ⟨rfl, rfl⟩ := Kind.list.inj (Option.some.inj (known.symm.trans knownAgain))
    obtain ⟨node, found, isList⟩ := get?_of_kindAt known
    refine ⟨_, ?_, fun id kind notNew knownId => ?_, moving⟩
    · simp [kindAt, get?_modifyNode_map, found, isList, Kind.mapElements]
    · rw [kindAt, get?_modifyNode_of_ne (Ne.symm notNew)]
      exact knownId
  · rw [known] at listed
    exact absurd (Option.some.inj listed).symm single

/-- **Insertion of a list.** If the list is free-standing and holds no lists, the call empties it:
its elements come in their order where the call aims, bare expressions as statements if the other
list needs that. -/
theorem Insertion.Aims.exists_emptied {call : Insertion} {carried : ListCategory}
    (wellFormed : WellFormed before) (aims : call.Aims before list holds elements position)
    (unattached : before.Unattached new)
    (carrier : before.kindAt new = some (.list carried items.toArray))
    (flat : ∀ id ∈ items, (before.kindAt id).map Kind.isList = some false)
    (outside : ¬ before.Contains new list) :
    ∃ linked after, Yields (call.run new) before new after ∧
      after.kindAt new = some (.list carried #[]) ∧
      after.kindAt list =
        some (.list holds (elements.take position ++ linked ++ elements.drop position).toArray) ∧
      List.Forall₂ (before.Became holds after) items linked := by
  have different : new ≠ list := fun same => outside (same ▸ .refl)
  obtain ⟨after, run⟩ := exists_splice_list wellFormed.orderly unattached carrier (by simpa using flat)
    aims.known aims.inBounds outside
  obtain ⟨depth, isDepth⟩ := exists_size_eq_succ unattached.issued
  have splicing : Yields (spliceWithin (before.nodes.size + 1) list position new) before new after :=
    run
  rw [isDepth] at splicing
  obtain ⟨cleared, empty, keeps, moving⟩ := exists_cleared carrier splicing
  have old := fun id member => old_of_single carrier (flat id member)
  have flatCleared : ∀ id ∈ items, (cleared.kindAt id).map Kind.isList = some false :=
    fun id member => by
      rw [keeps.kindAt_eq (old id member).2 (old id member).1]
      exact flat id member
  obtain ⟨linked, putIn⟩ := exists_putIn_each (keeps list _ different.symm aims.known) flatCleared
    (show position + 0 ≤ elements.length from aims.inBounds) moving
  have became := (List.forall₂_and_left _ _).mpr ⟨old, putIn.became⟩
  refine ⟨linked, after, (aims.run_eq wellFormed new).trans run, putIn.keeps _ _ different empty,
    putIn.elements, became.imp fun _ _ ⟨⟨issued, notNew⟩, became⟩ => ?_⟩
  exact keeps.became (get?_isSome_of_kindAt empty) notNew issued became

end ProgramTree
