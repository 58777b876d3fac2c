import ProgramTree.Proofs.Placing

/-!
# Which calls end

The calls that put a node somewhere are replacements, or they splice the node into a list.  They
end well for a free-standing node outside of which the place lies, they refuse a node that is not
free-standing, and they never end for a node that contains the place.  A list that holds no lists
is emptied into the place element by element.
-/

namespace ProgramTree

open Program Edit

variable {before after : Program} {id new list place : NodeId} {mutation : Mutation}

/-! ## Lists that are emptied into lists -/

namespace Edit

theorem spliceWithin_of_single (depth position : Nat) (list : NodeId)
    (unattached : before.Unattached new)
    (single : (before.kindAt new).map Kind.isList = some false) :
    spliceWithin (depth + 1) list position new before =
      insertElement list position new before := by
  have listed : Yields (look (·.isList new)) before false before :=
    yields_look.mpr ⟨isList_eq_ok.mpr single, rfl⟩
  rw [spliceWithin, unattached.checked.run_bind, listed.run_bind, if_neg Bool.false_ne_true]

theorem spliceWithin_of_list (depth position : Nat) (list : NodeId) {holds : ListCategory}
    {elements : Array NodeId} (unattached : before.Unattached new)
    (known : before.kindAt new = some (.list holds elements)) :
    ∃ cleared, Relinked before new elements.toList [] elements.toList cleared ∧
      spliceWithin (depth + 1) list position new before = (do
        elements.toList.zipIdx.forM fun (element, offset) => do
          setParent element none
          let _ ← spliceWithin depth list (position + offset) element
        return new : Edit NodeId) cleared := by
  have listed : Yields (look (·.isList new)) before true before :=
    yields_look.mpr ⟨isList_eq_ok.mpr (by rw [known]; rfl), rfl⟩
  have looked : Yields (look (·.elements new)) before elements before :=
    yields_look.mpr ⟨elements_eq_ok.mpr ⟨holds, known⟩, rfl⟩
  have clearing : Yields (changeElements new fun _ => #[]) before () _ :=
    yields_changeElements.mpr ⟨⟨holds, elements, known⟩, rfl⟩
  refine ⟨_, relinked_clear known, ?_⟩
  rw [spliceWithin, unattached.checked.run_bind, listed.run_bind, if_pos rfl, looked.run_bind,
    clearing.run_bind]

end Edit

/-- Single nodes that were elements of a list wait to be put into another one. -/
structure Waiting (program : Program) (list : NodeId) (items : List NodeId) : Prop where
  issued : ∀ id ∈ items, (program.get? id).isSome
  single : ∀ id ∈ items, (program.kindAt id).map Kind.isList = some false
  outside : ∀ id ∈ items, ¬ program.Contains id list
  notRoot : ∀ id ∈ items, id ∉ program.roots
  distinct : items.Nodup

namespace Waiting

theorem of_kinds {items : List NodeId} (waiting : Waiting before list items)
    (kinds : ∀ id, after.kindAt id = before.kindAt id) (roots : after.roots = before.roots) :
    Waiting after list items where
  issued id member := by
    have issued := waiting.issued id member
    rw [← Option.ne_none_iff_isSome, ne_eq, get?_eq_none_iff_kindAt] at issued ⊢
    rwa [kinds]
  single id member := by
    rw [kinds]
    exact waiting.single id member
  outside id member := by
    rw [contains_of_kinds kinds]
    exact waiting.outside id member
  notRoot id member := by
    rw [roots]
    exact waiting.notRoot id member
  distinct := waiting.distinct

/-- The others go on waiting when the first one has been put into the list. -/
theorem of_lengthened {first : NodeId} {rest : List NodeId} {holds : ListCategory}
    {elements : Array NodeId} (waiting : Waiting before list (first :: rest))
    (known : before.kindAt list = some (.list holds elements))
    (lengthened : Lengthened before list after) : Waiting after list rest where
  issued id member := lengthened.issued (waiting.issued id (by simp [member]))
  single id member := by
    have single := waiting.single id (by simp [member])
    rw [lengthened.kinds (waiting.issued id (by simp [member])), single]
    rintro rfl
    simp [known, Kind.isList] at single
  outside id member contained := waiting.outside id (by simp [member])
    (lengthened.outside (waiting.issued id (by simp [member])) contained)
  notRoot id member := by
    rw [lengthened.roots]
    exact waiting.notRoot id (by simp [member])
  distinct := (List.nodup_cons.mp waiting.distinct).2

end Waiting

section Carrying

variable {exact bare : Prop} {holds : ListCategory} {elements : Array NodeId} {position : Nat}

/-- The elements go into the list one by one, each behind the one before. -/
theorem exists_splice_each {loose items : List NodeId} {offset : Nat} (depth : Nat)
    (orderly : Orderly exact bare (fun _ => True) (items ++ loose) before)
    (waiting : Waiting before list items) (notLoose : ∀ id ∈ items, id ∉ loose)
    (known : before.kindAt list = some (.list holds elements))
    (inBounds : position + offset ≤ elements.size) :
    ∃ after, Yields ((items.zipIdx offset).forM fun (element, offset) => do
      setParent element none
      let _ ← spliceWithin (depth + 1) list (position + offset) element) before () after := by
  induction items generalizing offset before elements with
  | nil => exact ⟨before, yields_forM_nil.mpr rfl⟩
  | cons first rest ih =>
    have issuedFirst := waiting.issued first (by simp)
    let released := before.modifyNode first fun node => { node with parent? := none }
    have releasing : Yields (setParent first none) before () released :=
      yields_setParent.mpr ⟨issuedFirst, rfl⟩
    have kinds := kindAt_setParent releasing
    have waitingReleased := waiting.of_kinds kinds roots_modifyNode
    have orderlyReleased : Orderly exact bare (fun _ => True) (rest ++ loose) released :=
      orderly.release
    have unattached : released.Unattached first := by
      refine ⟨waitingReleased.issued first (by simp), ?_, fun placed => ?_⟩
      · obtain ⟨node, found⟩ := Option.isSome_iff_exists.mp issuedFirst
        simp [released, parentOf, get?_modifyNode, found]
      · rw [orderlyReleased.isPlaced_iff trivial] at placed
        rcases placed.root_or_held with root | ⟨holder, _, holds⟩
        · exact waitingReleased.notRoot first (by simp) root
        · rw [Holds, held, kinds, ← held] at holds
          exact orderly.forest.loose_free (by simp) trivial holds
    have notLooseFirst : first ∉ rest ++ loose := by
      rw [List.mem_append, not_or]
      exact ⟨(List.nodup_cons.mp waiting.distinct).1, notLoose first (by simp)⟩
    have knownReleased := (kinds list).trans known
    obtain ⟨linked, between, inserting, lengthened⟩ := exists_insertElement orderlyReleased
      knownReleased inBounds unattached notLooseFirst (waitingReleased.outside first (by simp))
    have splicing : Yields (spliceWithin (depth + 1) list (position + offset) first) released
        linked between :=
      (spliceWithin_of_single _ _ _ unattached (waitingReleased.single first (by simp))).trans
        inserting
    obtain ⟨more, knownBetween, longer⟩ := lengthened.longer knownReleased
    obtain ⟨after, restRun⟩ := ih (orderlyReleased.splice trivial trivial notLooseFirst splicing)
      (waitingReleased.of_lengthened knownReleased lengthened)
      (fun id member => notLoose id (by simp [member])) knownBetween
      (show position + (offset + 1) ≤ more.size by omega)
    refine ⟨after, yields_forM_cons.mpr ⟨between, ?_, restRun⟩⟩
    simp only [yields_bind, yields_pure]
    exact ⟨(), released, releasing, linked, between, splicing, trivial, rfl⟩

theorem exists_size_eq_succ (issued : (before.get? id).isSome) :
    ∃ depth, before.nodes.size = depth + 1 := by
  obtain ⟨place, _, inBounds⟩ := val_of_issued issued
  exact ⟨before.nodes.size - 1, by omega⟩

/-- A list that holds no lists, and does not contain the list it is put into, is emptied into it. -/
theorem exists_splice_list {carried : ListCategory} {items : Array NodeId}
    (orderly : Orderly exact bare (fun _ => True) [] before) (unattached : before.Unattached new)
    (carrier : before.kindAt new = some (.list carried items))
    (flat : ∀ id ∈ items, (before.kindAt id).map Kind.isList = some false)
    (known : before.kindAt list = some (.list holds elements)) (inBounds : position ≤ elements.size)
    (outside : ¬ before.Contains new list) :
    ∃ after, Yields (splice list position new) before new after := by
  have forest := orderly.forest
  obtain ⟨depth, isDepth⟩ := exists_size_eq_succ unattached.issued
  obtain ⟨cleared, relinked, same⟩ :=
    spliceWithin_of_list (depth + 1) position list unattached carrier
  have held : ∀ id ∈ items.toList, before.Holds new id := fun id member => relinked.out_held member
  have notNew : ∀ id ∈ items.toList, id ≠ new := by
    rintro id member rfl
    exact forest.not_contains_holder trivial (held id member) .refl
  have contains : ∀ {id}, cleared.Contains id list → before.Contains id list :=
    contains_mono fun upper lower holds =>
      ((relinked.holds_after forest trivial trivial holds).resolve_right fun came => by
        simp at came).1
  have orderlyCleared : Orderly exact bare (fun _ => True) (items.toList ++ []) cleared :=
    relinked.orderly_of_unreachable orderly trivial .nil (List.Subset.refl _) nofun
      fun reachable => unattached.notPlaced ((orderly.isPlaced_iff trivial).mpr reachable)
  have waiting : Waiting cleared list items.toList := by
    refine ⟨fun id member => ?_, fun id member => ?_, fun id member contained => ?_,
      fun id member root => ?_, ?_⟩
    · obtain ⟨node, found, _⟩ := get?_of_parentOf (forest.held trivial (held id member)).2
      rw [relinked.isSome]
      simp [found]
    · rw [relinked.kinds (notNew id member)]
      exact flat id (Array.mem_toList_iff.mp member)
    · exact outside (.head (held id member) (contains contained))
    · rw [relinked.roots] at root
      have named := (forest.held trivial (held id member)).2
      simp [orderly.rooted.free root] at named
    · have nodup : (before.held new).Nodup := forest.nodup trivial
      rwa [held_eq_of_kindAt carrier] at nodup
  have knownCleared : cleared.kindAt list = some (.list holds elements) := by
    rw [relinked.kinds, known]
    rintro rfl
    exact outside .refl
  obtain ⟨after, run⟩ := exists_splice_each depth orderlyCleared waiting (by simp) knownCleared
    (show position + 0 ≤ elements.size from inBounds)
  refine ⟨after, ?_⟩
  change spliceWithin (before.nodes.size + 1) list position new before = _
  rw [isDepth, same, run.run_bind]
  rfl

end Carrying

/-! ## Calls that put a node somewhere -/

/-- The call puts `new` among the children of `place`. -/
inductive Mutation.Puts (before : Program) (new place : NodeId) : Mutation → Prop where
  | replace {old : NodeId} (named : before.parentOf old = some place) :
      Puts before new place (.replace old new)
  | insertBefore {anchor : NodeId} (single : (before.kindAt anchor).map Kind.isList = some false)
      (named : before.parentOf anchor = some place)
      (isList : (before.kindAt place).any Kind.isList) :
      Puts before new place (.insertBefore anchor new)
  | insertAfter {anchor : NodeId} (single : (before.kindAt anchor).map Kind.isList = some false)
      (named : before.parentOf anchor = some place)
      (isList : (before.kindAt place).any Kind.isList) :
      Puts before new place (.insertAfter anchor new)
  | insertAtHead (isList : (before.kindAt place).any Kind.isList) :
      Puts before new place (.insertAtHead place new)
  | insertAtTail (isList : (before.kindAt place).any Kind.isList) :
      Puts before new place (.insertAtTail place new)

/-- If the node is a list, it holds no lists. -/
def Program.Flat (program : Program) (id : NodeId) : Prop :=
  (program.kindAt id).any Kind.isList → ∀ child, program.Holds id child →
    (program.kindAt child).map Kind.isList = some false

section Anchors

variable {holds : ListCategory} {elements : Array NodeId}
  (known : before.kindAt place = some (.list holds elements))
include known

theorem exists_anchorPosition {anchor : NodeId} (side : Side) (wellFormed : WellFormed before)
    (single : (before.kindAt anchor).map Kind.isList = some false)
    (named : before.parentOf anchor = some place) :
    ∃ position, before.anchorPosition side anchor = .ok (place, position) ∧
      position < elements.size := by
  have holdsAnchor := (wellFormed.parent_iff place anchor).mpr named
  rw [Holds, held_eq_of_kindAt known] at holdsAnchor
  obtain ⟨position, index⟩ := exists_idxOf? (Array.mem_toList_iff.mp holdsAnchor)
  have inBounds := (List.getElem?_eq_some_iff.mp (getElem?_of_idxOf? index)).1
  refine ⟨position, ?_, by simpa using inBounds⟩
  have positioned : before.positionIn place anchor = .ok position :=
    positionIn_eq_ok.mpr ⟨holds, elements, known, index⟩
  simp only [anchorPosition, Fault.bind_eq_ok, isList_eq_ok, Fault.ite_eq_ok]
  refine ⟨false, single, .inr ⟨Bool.false_ne_true, some place, listParent_of_list known named, ?_⟩⟩
  simp only [positioned]
  rfl

theorem exists_insertBeside_eq {anchor : NodeId} (side : Side) (wellFormed : WellFormed before)
    (single : (before.kindAt anchor).map Kind.isList = some false)
    (named : before.parentOf anchor = some place) :
    ∃ position ≤ elements.size,
      insertBeside side anchor new before = splice place position new before := by
  obtain ⟨position, placed, inBounds⟩ := exists_anchorPosition known side wellFormed single named
  have anchored : Yields (look (·.anchorPosition side anchor)) before (place, position) before :=
    yields_look.mpr ⟨placed, rfl⟩
  unfold insertBeside
  rw [anchored.run_bind]
  cases side with
  | before => exact ⟨position, inBounds.le, rfl⟩
  | after => exact ⟨position + 1, inBounds, rfl⟩

theorem exists_insertAtEnd_eq (listEnd : ListEnd) :
    ∃ position ≤ elements.size,
      insertAtEnd listEnd place new before = splice place position new before := by
  have looked : Yields (look (·.kindOf place)) before (.list holds elements) before :=
    yields_look.mpr ⟨kindOf_eq_ok.mpr known, rfl⟩
  unfold insertAtEnd
  rw [looked.run_bind]
  cases listEnd with
  | head => exact ⟨0, Nat.zero_le _, rfl⟩
  | tail => exact ⟨elements.size, le_rfl, rfl⟩

end Anchors

/-- Such a call is a replacement, or it splices the node into a list. -/
theorem replace_or_splice (wellFormed : WellFormed before) (puts : mutation.Puts before new place) :
    (∃ old, mutation = .replace old new ∧ before.parentOf old = some place) ∨
      ∃ holds elements, before.kindAt place = some (.list holds elements) ∧
        ∃ position ≤ elements.size,
          mutation.run before = (do let _ ← splice place position new : Edit Unit) before := by
  cases puts with
  | replace named => exact .inl ⟨_, rfl, named⟩
  | insertBefore single named isList =>
    obtain ⟨holds, elements, known⟩ := exists_list isList
    obtain ⟨position, inBounds, same⟩ :=
      exists_insertBeside_eq known .before wellFormed single named
    exact .inr ⟨holds, elements, known, position, inBounds, run_bind_congr same⟩
  | insertAfter single named isList =>
    obtain ⟨holds, elements, known⟩ := exists_list isList
    obtain ⟨position, inBounds, same⟩ :=
      exists_insertBeside_eq known .after wellFormed single named
    exact .inr ⟨holds, elements, known, position, inBounds, run_bind_congr same⟩
  | insertAtHead isList =>
    obtain ⟨holds, elements, known⟩ := exists_list isList
    obtain ⟨position, inBounds, same⟩ := exists_insertAtEnd_eq known .head
    exact .inr ⟨holds, elements, known, position, inBounds, run_bind_congr same⟩
  | insertAtTail isList =>
    obtain ⟨holds, elements, known⟩ := exists_list isList
    obtain ⟨position, inBounds, same⟩ := exists_insertAtEnd_eq known .tail
    exact .inr ⟨holds, elements, known, position, inBounds, run_bind_congr same⟩

section Putting

variable (wellFormed : WellFormed before) (puts : mutation.Puts before new place)
include wellFormed puts

/-- The call ends well if the node does not contain the place it is put in. -/
theorem Mutation.ends_of_puts (unattached : before.Unattached new) (flat : before.Flat new)
    (outside : ¬ before.Contains new place) : ∃ after, Yields mutation.run before () after := by
  rcases replace_or_splice wellFormed puts with
    ⟨old, rfl, named⟩ | ⟨holds, elements, known, position, inBounds, same⟩
  · obtain ⟨after, run⟩ := exists_replace wellFormed unattached named outside
    exact ⟨after, run.run_bind.trans rfl⟩
  · have orderly := wellFormed.orderly
    obtain ⟨linked, after, run⟩ : ∃ linked after,
        Yields (splice place position new) before linked after := by
      obtain ⟨node, found⟩ := Option.isSome_iff_exists.mp unattached.issued
      have isKind := kindAt_eq found
      by_cases isList : node.kind.isList = true
      · have newList : (before.kindAt new).any Kind.isList := by simpa [isKind] using isList
        obtain ⟨carried, items, carrier⟩ := exists_list newList
        have single : ∀ id ∈ items, (before.kindAt id).map Kind.isList = some false := by
          intro id member
          apply flat newList
          rw [Holds, held_eq_of_kindAt carrier]
          exact Array.mem_toList_iff.mpr member
        exact ⟨new, exists_splice_list orderly unattached carrier single known inBounds outside⟩
      · obtain ⟨linked, after, run, _⟩ :=
          exists_insertElement orderly known inBounds unattached List.not_mem_nil outside
        exact ⟨linked, after, (spliceWithin_of_single _ _ _ unattached (by
          simpa [isKind] using isList)).trans run⟩
    exact ⟨after, same.trans (run.run_bind.trans rfl)⟩

/-- The call never ends if the node contains the place it is put in. -/
theorem Mutation.endless_of_puts (unattached : before.Unattached new)
    (single : (before.kindAt new).map Kind.isList = some false)
    (inside : before.Contains new place) :
    ∃ id, mutation.run before = .error (.endless id) := by
  rcases replace_or_splice wellFormed puts with
    ⟨old, rfl, named⟩ | ⟨holds, elements, known, position, inBounds, same⟩
  · obtain ⟨id, stops⟩ := replace_endless wellFormed unattached named inside
    exact ⟨id, run_bind_of_error stops⟩
  · obtain ⟨id, stops⟩ := insertElement_endless wellFormed.orderly known inBounds unattached
      List.not_mem_nil inside
    have splicing : splice place position new before = .error (.endless id) :=
      (spliceWithin_of_single _ _ _ unattached single).trans stops
    exact ⟨id, same.trans (run_bind_of_error splicing)⟩

/-- The call is refused if something holds the node, or if it is part of the tree. -/
theorem Mutation.refused_of_puts (issued : (before.get? new).isSome)
    (attached : ¬ before.Unattached new) :
    ∃ cause, mutation.run before = .error (.defect (before.defect new cause)) := by
  obtain ⟨cause, refused⟩ := checkInsertable_refuses wellFormed issued attached
  refine ⟨cause, ?_⟩
  rcases replace_or_splice wellFormed puts with ⟨old, rfl, _⟩ | ⟨_, _, _, position, _, same⟩
  · have replacing : Edit.replace old new before = .error (.defect (before.defect new cause)) :=
      run_bind_of_error refused
    exact run_bind_of_error replacing
  · have splicing : spliceWithin (before.nodes.size + 1) place position new before =
        .error (.defect (before.defect new cause)) := run_bind_of_error refused
    exact same.trans (run_bind_of_error splicing)

/-- A single node can be put wherever it is not itself around, if nothing holds it yet. -/
theorem Mutation.ends_iff_of_puts (issued : (before.get? new).isSome)
    (single : (before.kindAt new).map Kind.isList = some false) :
    (∃ after, Yields mutation.run before () after) ↔
      before.Unattached new ∧ ¬ before.Contains new place := by
  have never : ∀ {fault}, mutation.run before = .error fault →
      ¬ ∃ after, Yields mutation.run before () after := by
    rintro fault stops ⟨after, run⟩
    rw [Yields, stops] at run
    simp at run
  constructor
  · intro ends
    have unattached : before.Unattached new := by
      by_contra attached
      obtain ⟨cause, refused⟩ := refused_of_puts wellFormed puts issued attached
      exact never refused ends
    refine ⟨unattached, fun inside => ?_⟩
    obtain ⟨id, endless⟩ := endless_of_puts wellFormed puts unattached single inside
    exact never endless ends
  · rintro ⟨unattached, outside⟩
    refine ends_of_puts wellFormed puts unattached (fun isList => ?_) outside
    cases known : before.kindAt new <;> simp_all

end Putting

end ProgramTree
