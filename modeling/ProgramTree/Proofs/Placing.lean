import ProgramTree.Proofs.Contents
import ProgramTree.Proofs.Linking

/-!
# Where a node can be put

What puts a node somewhere asks whether something holds the node, and whether it is part of the
tree.  It does not ask what the node contains.  If that is not the place it is put in, all goes
well.  If it is, the node is linked into its own subtree, and attaching it never ends.
-/

namespace ProgramTree

open Program Edit Relation

variable {α : Type} {before between after program : Program} {top id old new list parent : NodeId}

/-- The node is there, nothing holds it, and it is not part of the tree. -/
structure Program.Unattached (program : Program) (id : NodeId) : Prop where
  issued : (program.get? id).isSome
  free : program.parentOf id = none
  notPlaced : ¬ program.IsPlaced id

namespace Program.Unattached

theorem checked (unattached : before.Unattached id) :
    Yields (checkInsertable id) before () before :=
  yields_checkInsertable.mpr ⟨rfl, unattached.issued, unattached.free, unattached.notPlaced⟩

theorem spare {loose : List NodeId} (unattached : before.Unattached id) (notLoose : id ∉ loose) :
    Spare (fun _ => True) loose before [id] :=
  .singleton trivial unattached.free notLoose unattached.notPlaced

end Program.Unattached

/-- Every other node is refused, with a defect at that node. -/
theorem Edit.checkInsertable_refuses (wellFormed : WellFormed before)
    (issued : (before.get? id).isSome) (attached : ¬ before.Unattached id) :
    ∃ cause, checkInsertable id before = .error (.defect (before.defect id cause)) := by
  obtain ⟨node, found⟩ := Option.isSome_iff_exists.mp issued
  have looked : Yields (look (·.node id)) before node before :=
    yields_look.mpr ⟨node_eq_ok.mpr found, rfl⟩
  have asked : ∀ placed : Bool, (placed = true ↔ before.IsPlaced id) →
      Yields (look (·.inTree id)) before placed before := fun placed agrees =>
    yields_look.mpr ⟨inTree_eq_ok.mpr ⟨issued, agrees⟩, rfl⟩
  unfold checkInsertable
  rw [looked.run_bind]
  by_cases placed : before.IsPlaced id
  · rw [(asked true (by simp [placed])).run_bind]
    exact ⟨.insertedInTree, rfl⟩
  · rw [(asked false (by simp [placed])).run_bind, if_neg Bool.false_ne_true]
    cases named : node.parent? with
    | none => exact absurd ⟨issued, by rw [parentOf_eq found, named], placed⟩ attached
    | some parent =>
      rw [← parentOf_eq found] at named
      obtain ⟨holder, foundHolder⟩ :=
        Option.isSome_iff_exists.mp ((wellFormed.parent_iff parent id).mpr named).issued
      have listed : Yields (look (·.isList parent)) before holder.kind.isList before :=
        yields_look.mpr ⟨isList_eq_ok.mpr (by simp [kindAt_eq foundHolder]), rfl⟩
      simp only
      rw [listed.run_bind]
      cases holder.kind.isList with
      | true => exact ⟨.insertedInList, rfl⟩
      | false => exact ⟨.insertedHeld, rfl⟩

/-! ## Replacement -/

theorem Program.exists_list (isList : (program.kindAt id).any Kind.isList) :
    ∃ holds elements, program.kindAt id = some (.list holds elements) := by
  obtain ⟨kind, known, isList⟩ := (Option.any_eq_true _ _).mp isList
  cases kind with
  | list holds elements => exact ⟨holds, elements, known⟩
  | _ => simp [Kind.isList] at isList

theorem Slot.exists_rebind (new : NodeId) {slots : List Slot}
    (member : old ∈ slots.filterMap Slot.child?) :
    ∃ rebound, Slot.rebind old (some new) slots = .done rebound := by
  induction slots with
  | nil => simp at member
  | cons first rest ih =>
    by_cases here : first.child? = some old
    · cases first with
      | required child => exact ⟨.required new :: rest, by simp_all [rebind, child?]⟩
      | optional child? => exact ⟨.optional (some new) :: rest, by simp_all [rebind, Slot.child?]⟩
    · have later : old ∈ rest.filterMap Slot.child? := by
        simp only [List.mem_filterMap, List.mem_cons, exists_eq_or_imp] at member
        exact List.mem_filterMap.mpr (member.resolve_left here)
      obtain ⟨rebound, found⟩ := ih later
      refine ⟨first :: rebound, ?_⟩
      cases first <;> simp_all [rebind, Slot.child?, Rebinding.map]

theorem Kind.exists_rebind (new : NodeId) {kind : Kind} (member : old ∈ kind.owned) :
    ∃ changed, kind.rebind old (some new) = .done changed := by
  rw [owned_eq_slots] at member
  obtain ⟨slots, found⟩ := Slot.exists_rebind new member
  exact ⟨kind.withSlots slots, by rw [rebind, found, Rebinding.map]⟩

namespace Edit

theorem exists_rebindSlot {kind : Kind} (known : before.kindAt parent = some kind)
    (noList : kind.isList = false) (member : old ∈ kind.owned)
    (issuedOld : (before.get? old).isSome) (issued : (before.get? new).isSome) :
    ∃ after, Yields (rebindSlot parent old (some new)) before () after := by
  obtain ⟨changed, rebound⟩ := Kind.exists_rebind new member
  obtain ⟨node, found, _⟩ := get?_of_kindAt known
  let written := before.modifyNode parent fun node => { node with kind := changed }
  let released := written.modifyNode old fun node => { node with parent? := none }
  refine ⟨released.modifyNode new fun node => { node with parent? := some parent }, ?_⟩
  simp only [rebindSlot, yields_bind, yields_look, kindOf_eq_ok, yields_ite]
  refine ⟨kind, before, ⟨known, rfl⟩, .inr ⟨by simp [noList], ?_⟩⟩
  simp only [rebound, yields_bind, setKind, yields_change, yields_setParent]
  refine ⟨(), written, ⟨by simp [found], rfl⟩, (), released, ⟨?_, rfl⟩, ?_, rfl⟩
  · simpa [written, get?_modifyNode_map] using issuedOld
  · simpa [released, written, get?_modifyNode_map] using issued

theorem exists_idxOf? {elements : Array NodeId} (member : id ∈ elements) :
    ∃ position, elements.idxOf? id = some position := by
  rw [← Option.isSome_iff_exists, Array.isSome_idxOf?]
  exact member

/-- The writes that set an element of a list relink it. -/
theorem exists_relinked_set {holds : ListCategory} {elements : Array NodeId} {position : Nat}
    (known : before.kindAt list = some (.list holds elements))
    (index : elements.idxOf? old = some position) (issuedOld : (before.get? old).isSome)
    (issued : (before.get? new).isSome) (rest : Edit α) :
    ∃ relinked, Relinked before list [old] [new] [] relinked ∧
      (do
        changeElements list (·.setIfInBounds position new)
        setParent old none
        setParent new (some list)
        rest : Edit α) before = rest relinked := by
  let changed := before.modifyNode list fun node =>
    { node with kind := node.kind.mapElements (·.setIfInBounds position new) }
  let released := changed.modifyNode old fun node => { node with parent? := none }
  have changing : Yields (changeElements list (·.setIfInBounds position new)) before () changed :=
    yields_changeElements.mpr ⟨⟨holds, elements, known⟩, rfl⟩
  have releasing : Yields (setParent old none) changed () released :=
    yields_setParent.mpr ⟨by simpa [changed, get?_modifyNode_map] using issuedOld, rfl⟩
  have claiming : Yields (setParent new (some list)) released () _ :=
    yields_setParent.mpr ⟨by simpa [released, changed, get?_modifyNode_map] using issued, rfl⟩
  refine ⟨_, relinked_set known index issued, ?_⟩
  rw [changing.run_bind, releasing.run_bind, claiming.run_bind]

/-- A replacement relinks the holder, and then detaches the one node and attaches the other. -/
theorem exists_relinked_replace (forest : Forest (fun _ => True) [] before)
    (unattached : before.Unattached new) (named : before.parentOf old = some parent) :
    ∃ relinked, Relinked before parent [old] [new] [] relinked ∧
      replace old new before =
        (do detach old; attach new (before.contextOf old); return new : Edit NodeId) relinked := by
  obtain ⟨node, found, isParent⟩ := get?_of_parentOf named
  have issuedOld : (before.get? old).isSome := by simp [found]
  have holdsOld := (forest.holder trivial List.not_mem_nil named).2
  obtain ⟨holder, foundHolder⟩ := Option.isSome_iff_exists.mp holdsOld.issued
  have known := kindAt_eq foundHolder
  have looked : Yields (look (·.node old)) before node before :=
    yields_look.mpr ⟨node_eq_ok.mpr found, rfl⟩
  have listed : Yields (look (·.isList parent)) before holder.kind.isList before :=
    yields_look.mpr ⟨isList_eq_ok.mpr (by simp [known]), rfl⟩
  unfold replace
  rw [unattached.checked.run_bind, looked.run_bind]
  simp only [isParent]
  rw [listed.run_bind, contextOf_eq found]
  by_cases isList : holder.kind.isList = true
  · have parentList : (before.kindAt parent).any Kind.isList := by simpa [known] using isList
    obtain ⟨holds, elements, knownList⟩ := exists_list parentList
    rw [Holds, held_eq_of_kindAt knownList] at holdsOld
    obtain ⟨position, index⟩ := exists_idxOf? (Array.mem_toList_iff.mp holdsOld)
    have positioned : Yields (look (·.positionIn parent old)) before position before :=
      yields_look.mpr ⟨positionIn_eq_ok.mpr ⟨holds, elements, knownList, index⟩, rfl⟩
    rw [if_pos isList, positioned.run_bind]
    exact exists_relinked_set knownList index issuedOld unattached.issued _
  · rw [Holds, held_eq foundHolder] at holdsOld
    obtain ⟨relinked, rebinding⟩ :=
      exists_rebindSlot known (by simpa using isList) holdsOld issuedOld unattached.issued
    obtain ⟨_, _, foundHolder, splices, issued, written⟩ := exists_written_rebindSlot rebinding
    refine ⟨relinked, written.relinked foundHolder splices issued, ?_⟩
    rw [if_neg isList, rebinding.run_bind]

end Edit

section Replacing

variable (wellFormed : WellFormed before) (unattached : before.Unattached new)
  (named : before.parentOf old = some parent)
include wellFormed unattached named

/-- A node takes the place of another one if it does not contain that place. -/
theorem exists_replace (outside : ¬ before.Contains new parent) :
    ∃ after, Yields (replace old new) before new after := by
  have forest := wellFormed.orderly.forest
  obtain ⟨relinked, isRelinked, same⟩ := exists_relinked_replace forest unattached named
  obtain ⟨detached, detaching⟩ := isRelinked.exists_detach forest (List.mem_singleton_self old)
  obtain ⟨after, attaching⟩ := isRelinked.exists_attach forest (before.contextOf old)
    (unattached.spare List.not_mem_nil) unattached.issued outside (displaced detaching).same
  refine ⟨after, same.trans ?_⟩
  rw [detaching.run_bind, attaching.run_bind]
  rfl

/-- A node that contains the place it is put in is linked into its own subtree. -/
theorem replace_endless (inside : before.Contains new parent) :
    ∃ id, replace old new before = .error (.endless id) := by
  have forest := wellFormed.orderly.forest
  obtain ⟨relinked, isRelinked, same⟩ := exists_relinked_replace forest unattached named
  obtain ⟨detached, detaching⟩ := isRelinked.exists_detach forest (List.mem_singleton_self old)
  obtain ⟨id, stops⟩ := isRelinked.attach_endless forest (before.contextOf old) unattached.issued
    inside (displaced detaching).same
  refine ⟨id, same.trans ?_⟩
  rw [detaching.run_bind, run_bind_of_error stops]

end Replacing

/-! ## What becomes a list element -/

namespace Edit

theorem exists_adopt (parent : NodeId) (unattached : before.Unattached id) :
    ∃ after, Yields (adopt parent [id]) before () after := by
  obtain ⟨node, found⟩ := Option.isSome_iff_exists.mp unattached.issued
  have free := unattached.free
  rw [parentOf_eq found] at free
  refine ⟨before.modifyNode id fun node => { node with parent? := some parent },
    yields_forM_cons.mpr ⟨_, ?_, yields_forM_nil.mpr rfl⟩⟩
  simp only [yields_bind, yields_look, yields_ite, setParent, yields_change]
  have asked : before.inTree id = .ok false :=
    inTree_eq_ok.mpr ⟨unattached.issued, by simpa using unattached.notPlaced⟩
  refine ⟨node, before, ⟨node_eq_ok.mpr found, rfl⟩, false, before, ⟨asked, rfl⟩,
    .inr ⟨?_, unattached.issued, rfl⟩⟩
  simp [free]

theorem exists_newExprStmt (unattached : before.Unattached id) :
    ∃ stmt after, Yields (newExprStmt id) before stmt after := by
  obtain ⟨node, found⟩ := Option.isSome_iff_exists.mp unattached.issued
  obtain ⟨stmt, pushed, creating⟩ : ∃ stmt pushed,
      Yields (withLocationOf id (newNode (.stmt (.expr id)))) before stmt pushed :=
    ⟨_, _, yields_withLocationOf.mpr ⟨node, _, found, yields_newNode.mpr ⟨rfl, rfl⟩, rfl⟩⟩
  obtain ⟨_, isPushed⟩ := pushed_withLocationOf creating
  have old : id ≠ before.nextId := by
    rintro rfl
    simp [get?_nextId] at found
  have same := isPushed.others old
  have stillUnattached : pushed.Unattached id := by
    refine ⟨same ▸ unattached.issued, ?_, ?_⟩
    · rw [parentOf, same, ← parentOf, unattached.free]
    · rw [IsPlaced, contextOf, same, isPushed.rest]
      exact unattached.notPlaced
  obtain ⟨after, adopting⟩ := exists_adopt stmt stillUnattached
  refine ⟨stmt, after, ?_⟩
  unfold newExprStmt
  exact creating.run_bind.trans (adopting.run_bind.trans rfl)

theorem exists_asElement (holds : ListCategory) (unattached : before.Unattached new) :
    ∃ linked after, Yields (asElement holds new) before linked after := by
  cases holds with
  | exprs | defs => exact ⟨new, before, yields_pure.mpr ⟨rfl, rfl⟩⟩
  | stmts =>
    obtain ⟨node, found⟩ := Option.isSome_iff_exists.mp unattached.issued
    have looked : Yields (look (·.kindOf new)) before node.kind before :=
      yields_look.mpr ⟨kindOf_eq_ok.mpr (kindAt_eq found), rfl⟩
    simp only [asElement, asStmt, yields_bind, yields_ite]
    by_cases isExpr : node.kind.isExpr = true
    · obtain ⟨stmt, after, wrapping⟩ := exists_newExprStmt unattached
      exact ⟨stmt, after, _, before, looked, .inl ⟨isExpr, wrapping⟩⟩
    · exact ⟨new, before, _, before, looked, .inr ⟨isExpr, yields_pure.mpr ⟨rfl, rfl⟩⟩⟩

/-- An insertion may wrap the node; it relinks the list, and then attaches what was linked in. -/
theorem exists_relinked_insertElement {holds : ListCategory} {elements : Array NodeId}
    {position : Nat} (known : before.kindAt list = some (.list holds elements))
    (inBounds : position ≤ elements.size) (unattached : before.Unattached new) :
    ∃ linked wrapped relinked context, Wrapped before new linked wrapped ∧
      (wrapped.get? linked).isSome ∧ Relinked wrapped list [] [linked] [] relinked ∧
      insertElement list position new before =
        (do attach linked context; return linked : Edit NodeId) relinked := by
  obtain ⟨linked, wrapped, wrapping⟩ := exists_asElement holds unattached
  have isWrapped := Edit.wrapped wrapping unattached.issued
  have knownWrapped := isWrapped.kindAt known
  obtain ⟨listNode, foundList, _⟩ := get?_of_kindAt knownWrapped
  have issuedLinked : (wrapped.get? linked).isSome := by
    cases isWrapped with
    | bare => exact unattached.issued
    | wrapped grown =>
      exact get?_isSome_of_kindAt grown.known
  let changed := wrapped.modifyNode list fun node =>
    { node with kind := node.kind.mapElements (·.insertIdxIfInBounds position linked) }
  let claimed := changed.modifyNode linked fun node => { node with parent? := some list }
  have isRelinked : Relinked wrapped list [] [linked] [] claimed :=
    relinked_insert knownWrapped inBounds issuedLinked
  have issuedList : (claimed.get? list).isSome := by
    rw [isRelinked.isSome]
    simp [foundList]
  obtain ⟨context, handed⟩ := exists_childContext issuedList
  have looked : Yields (look (·.list list)) before (holds, elements) before :=
    yields_look.mpr ⟨list_eq_ok.mpr known, rfl⟩
  have changing : Yields (changeElements list (·.insertIdxIfInBounds position linked)) wrapped ()
      changed := yields_changeElements.mpr ⟨⟨holds, elements, knownWrapped⟩, rfl⟩
  have claiming : Yields (setParent linked (some list)) changed () claimed :=
    yields_setParent.mpr ⟨by simpa [changed, get?_modifyNode_map] using issuedLinked, rfl⟩
  have asked : Yields (look (·.childContext list)) claimed context claimed :=
    yields_look.mpr ⟨handed, rfl⟩
  refine ⟨linked, wrapped, claimed, context, isWrapped, issuedLinked, isRelinked, ?_⟩
  unfold insertElement
  rw [looked.run_bind]
  simp only
  rw [wrapping.run_bind, if_neg (Nat.not_lt.mpr inBounds), changing.run_bind, claiming.run_bind,
    asked.run_bind]

end Edit

/-- Containment is a matter of kinds. -/
theorem Program.contains_of_kinds (kinds : ∀ id, after.kindAt id = before.kindAt id) :
    after.Contains = before.Contains := by
  have holds : after.Holds = before.Holds := by
    funext holder child
    rw [Holds, held, kinds, Holds, held]
  rw [Contains, holds]

section Wrapping

variable {exact bare : Prop} {loose : List NodeId} {linked : NodeId}
  (orderly : Orderly exact bare (fun _ => True) loose before)
  (spare : Spare (fun _ => True) loose before [new])
  (wrapped : Wrapped before new linked after)
include orderly spare wrapped

/-- What was there contains what it contained before the node was wrapped. -/
theorem contains_of_wrapped (issued : (before.get? top).isSome) :
    after.Contains top id ↔ before.Contains top id := by
  cases wrapped with
  | bare => rfl
  | wrapped grown =>
    have old : ∀ {id}, (before.get? id).isSome → id ≠ before.nextId := by
      rintro id issued rfl
      simp [get?_nextId] at issued
    constructor
    · intro contained
      have known : before.Contains top id ∧ id ≠ before.nextId := by
        induction contained with
        | refl => exact ⟨.refl, old issued⟩
        | tail _ holds ih =>
          obtain ⟨held, oldChild, _⟩ := grown.holds_after orderly spare trivial ih.2 holds
          exact ⟨ih.1.tail held, oldChild⟩
      exact known.1
    · refine contains_mono fun holder child holds => ?_
      rw [Holds, grown.held_of_ne (old holds.issued)]
      exact holds

/-- The node that is linked in contains the list if the given one does. -/
theorem linked_contains (issued : (before.get? new).isSome)
    (issuedList : (before.get? list).isSome) :
    after.Contains linked list ↔ before.Contains new list := by
  rw [← contains_of_wrapped orderly spare wrapped issued]
  cases wrapped with
  | bare => rfl
  | wrapped grown =>
    constructor
    · intro contained
      rcases contained.cases_head with rfl | ⟨child, holds, below⟩
      · simp [get?_nextId] at issuedList
      · rw [Holds, grown.held_fresh] at holds
        obtain rfl : child = new := by simpa [Kind.owned, Stmt.owned] using holds
        exact below
    · refine .head ?_
      rw [Holds, grown.held_fresh]
      simp [Kind.owned, Stmt.owned]

end Wrapping

/-! ## Single nodes in lists -/

/-- The list has got longer and is contained in no other node than before; what else was there
is of the kind it was. -/
structure Lengthened (before : Program) (list : NodeId) (after : Program) : Prop where
  roots : after.roots = before.roots
  issued : ∀ {id}, (before.get? id).isSome → (after.get? id).isSome
  longer : ∀ {holds elements}, before.kindAt list = some (.list holds elements) →
    ∃ more, after.kindAt list = some (.list holds more) ∧ elements.size < more.size
  kinds : ∀ {id}, (before.get? id).isSome → id ≠ list → after.kindAt id = before.kindAt id
  outside : ∀ {id}, (before.get? id).isSome → after.Contains id list → before.Contains id list

theorem Lengthened.of_sameTree (lengthened : Lengthened before list between)
    (same : SameTree between after) : Lengthened before list after where
  roots := same.roots.trans lengthened.roots
  issued issued := by
    rw [same.isSome]
    exact lengthened.issued issued
  longer known := by
    rw [same.kindAt]
    exact lengthened.longer known
  kinds issued different := same.kindAt.trans (lengthened.kinds issued different)
  outside issued contained := by
    rw [same.contains] at contained
    exact lengthened.outside issued contained

section Inserting

variable {exact bare : Prop} {loose : List NodeId} {holds : ListCategory}
  {elements : Array NodeId} {position : Nat} {linked : NodeId}
  (orderly : Orderly exact bare (fun _ => True) loose before)
include orderly

theorem lengthened (spare : Spare (fun _ => True) loose before [new])
    (issued : (before.get? new).isSome) (wrapped : Wrapped before new linked between)
    (relinked : Relinked between list [] [linked] [] after) : Lengthened before list after where
  roots := by
    rw [relinked.roots]
    cases wrapped with
    | bare => rfl
    | wrapped grown => exact grown.roots
  issued {id} issuedId := by
    obtain ⟨node, found⟩ := Option.isSome_iff_exists.mp issuedId
    obtain ⟨later, foundLater, _⟩ := get?_of_kindAt (wrapped.kindAt (kindAt_eq found))
    rw [relinked.isSome]
    simp [foundLater]
  longer {holds elements} known := by
    obtain ⟨old, kind, knownOld, knownAfter, splices⟩ := relinked.spliced
    obtain rfl : Kind.list holds elements = old :=
      Option.some.inj ((wrapped.kindAt known).symm.trans knownOld)
    obtain ⟨slots, rfl⟩ := splices.form
    obtain ⟨left, right, ownedBefore, ownedAfter⟩ := splices.owned
    refine ⟨_, knownAfter, ?_⟩
    have sizeBefore := congrArg List.length ownedBefore
    have sizeAfter := congrArg List.length ownedAfter
    simp only [Kind.owned, Kind.withSlots, List.length_append, List.length_singleton,
      List.length_nil, Array.length_toList, List.size_toArray] at sizeBefore sizeAfter ⊢
    omega
  kinds {id} issuedId different := by
    obtain ⟨node, found⟩ := Option.isSome_iff_exists.mp issuedId
    rw [relinked.kinds different, wrapped.kindAt (kindAt_eq found), kindAt_eq found]
  outside {id} issuedId contained := by
    have orderlyBetween := (orderly.wrap spare issued wrapped).1
    have below := relinked.contains_holder orderlyBetween.forest trivial trivial contained
    exact (contains_of_wrapped orderly spare wrapped issuedId).mp below

variable (known : before.kindAt list = some (.list holds elements))
  (inBounds : position ≤ elements.size) (unattached : before.Unattached new)
  (notLoose : new ∉ loose)
include known inBounds unattached notLoose

/-- A node that does not contain the list can be put into it. -/
theorem exists_insertElement (outside : ¬ before.Contains new list) :
    ∃ linked after, Yields (insertElement list position new) before linked after ∧
      Lengthened before list after := by
  obtain ⟨linked, wrapped, relinked, context, isWrapped, issuedLinked, isRelinked, same⟩ :=
    exists_relinked_insertElement known inBounds unattached
  obtain ⟨listNode, foundList, _⟩ := get?_of_kindAt known
  have spare := unattached.spare notLoose
  obtain ⟨orderlyWrapped, spareLinked⟩ := orderly.wrap spare unattached.issued isWrapped
  have outsideWrapped : ¬ wrapped.Contains linked list := by
    rw [linked_contains orderly spare isWrapped unattached.issued (by simp [foundList])]
    exact outside
  obtain ⟨after, attaching⟩ := isRelinked.exists_attach orderlyWrapped.forest context spareLinked
    issuedLinked outsideWrapped (.refl relinked)
  refine ⟨linked, after, same.trans ?_, ?_⟩
  · rw [attaching.run_bind]
    rfl
  · exact (lengthened orderly spare unattached.issued isWrapped isRelinked).of_sameTree
      (attachedBelow (yields_attach.mp attaching)).same

/-- A node that contains the list is linked into its own subtree. -/
theorem insertElement_endless (inside : before.Contains new list) :
    ∃ id, insertElement list position new before = .error (.endless id) := by
  obtain ⟨linked, wrapped, relinked, context, isWrapped, issuedLinked, isRelinked, same⟩ :=
    exists_relinked_insertElement known inBounds unattached
  obtain ⟨listNode, foundList, _⟩ := get?_of_kindAt known
  have spare := unattached.spare notLoose
  have insideWrapped : wrapped.Contains linked list := by
    rw [linked_contains orderly spare isWrapped unattached.issued (by simp [foundList])]
    exact inside
  obtain ⟨id, stops⟩ := isRelinked.attach_endless
    (orderly.wrap spare unattached.issued isWrapped).1.forest context issuedLinked insideWrapped
    (.refl relinked)
  refine ⟨id, same.trans ?_⟩
  rw [run_bind_of_error stops]

end Inserting

end ProgramTree
