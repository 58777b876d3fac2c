import Mathlib.Logic.Equiv.Basic
import ProgramTree.Proofs.Insertion
import ProgramTree.Proofs.Inspection
import ProgramTree.Proofs.Relocation
import ProgramTree.Proofs.Resolution

/-!
# Undoing removals and replacements

In a well-formed program the slots and the roots determine everything that they are mirrored in:
parents, contexts and the index.  So an edit is undone as soon as all slots are what they were.
That is so when an element goes back to where it was taken from, and when a node and its
replacement are exchanged again.
-/

namespace ProgramTree

open Program Edit Relation

variable {before between after program : Program} {id holder old new list top found : NodeId}

/-! ## What slots and roots determine -/

/-- What says neither what a node holds nor where it hangs. -/
def Node.marks (node : Node) : Location × Array String × Option AnalysisNote × Option String :=
  (node.location, node.pragmas, node.analysis?, node.traversal?)

/-- The nodes may hold something else and hang elsewhere, and nothing else changed. -/
structure Program.Rehung (before after : Program) : Prop where
  marks : ∀ id, (after.get? id).map Node.marks = (before.get? id).map Node.marks
  rest : after = { before with nodes := after.nodes, index := after.index }

namespace Program.Rehung

theorem trans (first : Rehung before between) (second : Rehung between after) :
    Rehung before after where
  marks id := (second.marks id).trans (first.marks id)
  rest := by
    rw [second.rest, first.rest]

theorem roots (rehung : Rehung before after) : after.roots = before.roots := by
  rw [rehung.rest]

theorem of_written {kind : Kind} {gone came : List NodeId}
    (written : Written before holder kind gone came after) : Rehung before after where
  marks id := by
    rw [written.nodes, Option.map_map]
    rfl
  rest := by
    rw [written.rest]

theorem of_sameTree (same : SameTree before after) : Rehung before after where
  marks id := by
    have bare := congrArg (Option.map Node.marks) (same.bare id)
    rw [Option.map_map, Option.map_map] at bare
    exact bare
  rest := same.rest

theorem of_attach {context : Context} {done : Unit}
    (run : Yields (attach id context) before done after) : Rehung before after :=
  of_sameTree (attachedBelow (yields_attach.mp run)).same

theorem of_detach {done : Unit} (run : Yields (detach id) before done after) :
    Rehung before after :=
  of_sameTree (displaced run).same

theorem of_remove {answer : NodeId} (named : before.parentOf id = some holder)
    (run : Yields (remove id) before answer after) : Rehung before after := by
  obtain ⟨_, _, _, _, _, _, written, detaching⟩ := exists_written_remove named run
  exact (of_written written).trans (of_detach detaching)

theorem of_replace {answer : NodeId} (run : Yields (replace old new) before answer after) :
    Rehung before after := by
  obtain ⟨_, _, _, _, _, _, _, _, _, _, _, _, written, detaching, attaching⟩ :=
    exists_written_replace run
  exact ((of_written written).trans (of_detach detaching)).trans (of_attach attaching)

end Program.Rehung

namespace Program

theorem Nearest.of_kinds {wanted : Kind → Bool} (kinds : ∀ id, after.kindAt id = before.kindAt id)
    (nearest : before.Nearest wanted id found) : after.Nearest wanted id found := by
  have holds : ∀ {holder child}, before.Holds holder child → after.Holds holder child := by
    intro holder child holds
    rwa [Holds, held, kinds, ← held]
  induction nearest with
  | here isHeld isWanted => exact .here (holds isHeld) (by rwa [kinds])
  | above isHeld unwanted _ ih => exact .above (holds isHeld) (by rwa [kinds]) ih

namespace WellFormed

variable (wellFormedBefore : WellFormed before) (wellFormed : WellFormed after)
  (kinds : ∀ id, after.kindAt id = before.kindAt id)

include wellFormedBefore wellFormed kinds in
theorem parentOf_eq_of_kinds : after.parentOf id = before.parentOf id := by
  apply Option.ext
  intro holder
  rw [← wellFormed.parent_iff, ← wellFormedBefore.parent_iff, Holds, held, kinds, ← held, Holds]

variable (roots : after.roots = before.roots)
include wellFormedBefore wellFormed kinds roots

omit wellFormedBefore wellFormed in
theorem reachable_iff_of_kinds : after.Reachable id ↔ before.Reachable id := by
  rw [Reachable, roots, contains_of_kinds kinds, Reachable]

theorem contextOf_eq_of_kinds : after.contextOf id = before.contextOf id := by
  have sameReach : after.Reachable id ↔ before.Reachable id := reachable_iff_of_kinds kinds roots
  by_cases reachable : before.Reachable id
  · have sameNearest : ∀ {wanted found},
        after.Nearest wanted id found ↔ before.Nearest wanted id found :=
      ⟨.of_kinds fun id => (kinds id).symm, .of_kinds kinds⟩
    have symbols : (after.contextOf id).symbol? = (before.contextOf id).symbol? := by
      refine Option.ext fun found => ?_
      rw [wellFormed.enclosing_symbol _ _ (sameReach.mpr reachable), sameNearest,
        wellFormedBefore.enclosing_symbol _ _ reachable]
    have scopes : (after.contextOf id).scope? = (before.contextOf id).scope? := by
      refine Option.ext fun found => ?_
      rw [wellFormed.enclosing_scope _ _ (sameReach.mpr reachable), sameNearest,
        wellFormedBefore.enclosing_scope _ _ reachable]
    cases contextAfter : after.contextOf id
    cases contextBefore : before.contextOf id
    simp_all
  · rw [wellFormed.no_context id (mt sameReach.mp reachable),
      wellFormedBefore.no_context id reachable]

theorem index_eq_of_kinds : after.index = before.index := by
  have entries : ∀ category, after.index.entries category = before.index.entries category := by
    intro category
    refine Std.ExtTreeSet.ext_mem fun id => ?_
    rw [wellFormed.indexed_iff, wellFormedBefore.indexed_iff, reachable_iff_of_kinds kinds roots,
      kinds]
  cases indexAfter : after.index
  cases indexBefore : before.index
  rw [indexAfter, indexBefore] at entries
  simp only [LiveIndex.mk.injEq]
  exact ⟨entries .call, entries .fn, entries .loop, entries .block⟩

omit roots in
/-- Two well-formed programs with the same slots and the same roots are the same, up to what is
marked on the nodes. -/
theorem eq_of_kinds (rehung : Rehung before after) : after = before := by
  have nodeEq : ∀ id, after.get? id = before.get? id := by
    intro id
    have marks := rehung.marks id
    have kind := kinds id
    have parent : after.parentOf id = before.parentOf id :=
      parentOf_eq_of_kinds wellFormedBefore wellFormed kinds
    have context : after.contextOf id = before.contextOf id :=
      contextOf_eq_of_kinds wellFormedBefore wellFormed kinds rehung.roots
    cases foundAfter : after.get? id with
    | none => simpa [foundAfter, eq_comm] using marks
    | some later =>
      cases found : before.get? id with
      | none => simp [foundAfter, found] at marks
      | some node =>
        rw [kindAt_eq foundAfter, kindAt_eq found] at kind
        rw [parentOf_eq foundAfter, parentOf_eq found] at parent
        rw [contextOf_eq foundAfter, contextOf_eq found] at context
        obtain ⟨_, _, _, _, _, _, _⟩ := later
        obtain ⟨_, _, _, _, _, _, _⟩ := node
        simp_all [Node.marks]
  have nodes : after.nodes = before.nodes := Array.ext_getElem? fun place => nodeEq ⟨place + 1⟩
  rw [rehung.rest, nodes,
    index_eq_of_kinds wellFormedBefore wellFormed kinds rehung.roots]

end WellFormed

end Program

/-! ## A removed element that goes back -/

/-- The call aims at the place between what stood to the left of an element and what stood to its
right. -/
inductive Insertion.LeadsBack (program : Program) (list : NodeId) (left right : List NodeId) :
    Insertion → Prop where
  | afterPrevious {anchor : NodeId} (previous : left.getLast? = some anchor)
      (single : (program.kindAt anchor).map Kind.isList = some false) :
      LeadsBack program list left right (.beside .after anchor)
  | beforeNext {anchor : NodeId} (next : right.head? = some anchor)
      (single : (program.kindAt anchor).map Kind.isList = some false) :
      LeadsBack program list left right (.beside .before anchor)
  | atHead (first : left = []) : LeadsBack program list left right (.atEnd .head list)
  | atTail (last : right = []) : LeadsBack program list left right (.atEnd .tail list)

section Removal

variable {left right : List NodeId} {call : Insertion} {holds : ListCategory}

/-- With the element taken out, the call aims at the place where the element was. -/
theorem Insertion.LeadsBack.aims (leadsBack : call.LeadsBack before list left right)
    (kept : ∀ {id}, (before.kindAt id).map Kind.isList = some false →
      after.kindAt id = before.kindAt id)
    (known : after.kindAt list = some (.list holds (left ++ right).toArray)) :
    call.Aims after list holds (left ++ right) left.length := by
  cases leadsBack with
  | @afterPrevious anchor previous single =>
    obtain ⟨others, rfl⟩ := List.getLast?_eq_some_iff.mp previous
    rw [List.length_append, List.length_singleton]
    exact .after known (by rw [kept single, single]) (by simp)
  | @beforeNext anchor next single =>
    obtain ⟨others, rfl⟩ := List.head?_eq_some_iff.mp next
    exact .before known (by rw [kept single, single]) (by simp)
  | atHead first =>
    subst first
    exact .head known
  | atTail last =>
    subst last
    have tail := Insertion.Aims.tail known
    rwa [List.append_nil] at tail ⊢

theorem Insertion.keeps_wellFormed {answer : NodeId} (wellFormed : WellFormed before)
    (run : Yields (call.run new) before answer after) : WellFormed after := by
  cases call with
  | beside side anchor =>
    have inserting : Yields (insertBeside side anchor new) before answer after := by
      cases side <;> exact run
    exact (wellFormed.orderly.insertBeside trivial trivial inserting).wellFormed
  | atEnd listEnd list =>
    have inserting : Yields (insertAtEnd listEnd list new) before answer after := by
      cases listEnd <;> exact run
    exact (wellFormed.orderly.insertAtEnd trivial trivial inserting).wellFormed

section Filing

variable {elements : List NodeId} {position : Nat}
  (filed : before.Filed list holds elements position new new after)
include filed

theorem Program.Filed.kindAt_eq (isList : (before.get? list).isSome) :
    after.kindAt id =
      if id = list then
        some (.list holds (elements.take position ++ new :: elements.drop position).toArray)
      else before.kindAt id := by
  split
  · obtain ⟨node, found⟩ := Option.isSome_iff_exists.mp isList
    subst id
    rw [kindAt, filed.elements, found]
    rfl
  · rename_i different
    by_cases below : after.Contains new id
    · have inside : before.Contains new id :=
        ((filed.contains id).mp below).elim (fun same => same ▸ .refl) fun inside => inside
      rw [kindAt, filed.moved id inside, Option.map_map, kindAt]
      rfl
    · rw [kindAt, filed.others id different below, kindAt]

theorem Program.Filed.rehung : Rehung before after where
  marks id := by
    by_cases isList : id = list
    · rw [isList, filed.elements, Option.map_map]
      rfl
    by_cases below : after.Contains new id
    · have inside : before.Contains new id :=
        ((filed.contains id).mp below).elim (fun same => same ▸ .refl) fun inside => inside
      rw [filed.moved id inside, Option.map_map]
      rfl
    · rw [filed.others id isList below]
  rest := filed.rest

end Filing

/-- An element that was taken out of a list goes back to its place. -/
theorem exists_putBack (wellFormed : WellFormed program)
    (known : program.kindAt list = some (.list holds (left ++ id :: right).toArray))
    (single : (program.kindAt id).map Kind.isList = some false)
    (bare : ¬ program.NeedsWrapper holds id) (leadsBack : call.LeadsBack program list left right) :
    ∃ between, Yields (remove id) program id between ∧ Yields (call.run id) between id program := by
  have forest := wellFormed.orderly.forest
  have holdsId : program.Holds list id := by
    rw [Holds, held_eq_of_kindAt known]
    simp [Kind.owned]
  have named := (wellFormed.parent_iff list id).mp holdsId
  have nodup : (left ++ id :: right).Nodup := by
    have distinct : (program.held list).Nodup := forest.nodup trivial
    rwa [held_eq_of_kindAt known] at distinct
  obtain ⟨between, removing, relisted, unattached⟩ := exists_takenOut wellFormed known named
  have wellFormedBetween := (wellFormed.orderly.remove trivial removing).wellFormed
  have erased : (left ++ id :: right).toArray.erase id = (left ++ right).toArray := by
    have notLeft : id ∉ left := fun member =>
      (List.nodup_append.mp nodup).2.2 id member id (List.mem_cons_self ..) rfl
    rw [List.erase_toArray, List.erase_append_right _ notLeft, List.erase_cons_head]
  rw [erased] at relisted
  have isListed : (program.kindAt list).map Kind.isList = some true := by
    rw [known]
    rfl
  have kept : ∀ {id}, (program.kindAt id).map Kind.isList = some false →
      between.kindAt id = program.kindAt id := fun noList =>
    relisted.others isListed (by rw [noList]; simp)
  have knownBetween : between.kindAt list = some (.list holds (left ++ right).toArray) := by
    rw [relisted.kinds, if_pos rfl]
  have outside : ¬ between.Contains id list := by
    rw [contains_iff_of_holds relisted.holds_of_ne (forest.not_contains_holder trivial holdsId)]
    exact forest.not_contains_holder trivial holdsId
  have aims := leadsBack.aims kept knownBetween
  obtain ⟨linked, after, inserting, filed⟩ := aims.exists_filed wellFormedBetween
    (by rw [kept single, single]) unattached outside
  obtain rfl := filed.bare (by rwa [NeedsWrapper, kept single])
  have kinds : ∀ other, after.kindAt other = program.kindAt other := by
    intro other
    rw [filed.kindAt_eq (get?_isSome_of_kindAt knownBetween), relisted.kinds, List.take_left,
      List.drop_left]
    split
    · rename_i isList
      rw [isList, known]
    · rfl
  have rehung := (Rehung.of_remove named removing).trans filed.rehung
  obtain rfl := wellFormed.eq_of_kinds (Insertion.keeps_wellFormed wellFormedBetween inserting)
    kinds rehung
  exact ⟨between, removing, inserting⟩

end Removal

/-! ## A node that was replaced by another one -/

section Replacement

variable {kind changed : Kind}

theorem Slot.map_eq_self {rename : NodeId → NodeId} {slots : List Slot}
    (fixed : ∀ child ∈ slots.filterMap Slot.child?, rename child = child) :
    slots.map (Slot.map rename) = slots := by
  have each : ∀ slot ∈ slots, slot.map rename = slot := by
    intro slot member
    have fixedHere : ∀ child, slot.child? = some child → rename child = child :=
      fun child here => fixed child (List.mem_filterMap.mpr ⟨slot, member, here⟩)
    cases slot with
    | required child => rw [Slot.map, fixedHere child rfl]
    | optional child? =>
      cases child? with
      | none => rfl
      | some child => rw [Slot.map, Option.map_some, fixedHere child rfl]
  exact (List.map_congr_left each).trans (List.map_id slots)

/-- One slot is filled with the new node, and the others are as they were. -/
theorem Kind.Exchanged.exists_slots (exchanged : Exchanged old (some new) kind changed)
    (splices : kind.Splices [old] [new] changed) :
    ∃ left slot filled right, kind.slots = left ++ slot :: right ∧
      changed = kind.withSlots (left ++ filled :: right) ∧ slot.child? = some old ∧
      filled.child? = some new ∧ filled.isOptional = slot.isOptional := by
  cases exchanged with
  | @set holds elements position new =>
    obtain ⟨left, right, owned, ownedAfter⟩ := splices.owned
    rw [List.append_assoc, List.singleton_append, Kind.owned] at owned ownedAfter
    refine ⟨left.map .required, .required old, .required new, right.map .required, ?_, ?_, rfl, rfl,
      rfl⟩
    · rw [Kind.slots, owned, List.map_append, List.map_cons]
    · rw [Kind.list_withSlots, ownedAfter, List.map_append, List.map_cons]
  | rebound noList done =>
    rw [Kind.rebind] at done
    cases found : Slot.rebind old (some new) kind.slots with
    | done slots =>
      rw [found] at done
      obtain rfl : kind.withSlots slots = changed := by simpa [Rebinding.map] using done
      obtain ⟨left, slot, filled, right, slotsBefore, rfl, facts⟩ := Slot.rebind_done found
      exact ⟨left, slot, filled, right, slotsBefore, rfl, facts⟩
    | missing => simp [found, Rebinding.map] at done
    | required => simp [found, Rebinding.map] at done

/-- To put another node into a place is to rename, if that node is not held already. -/
theorem Kind.Exchanged.eq_swap (exchanged : Exchanged old (some new) kind changed)
    (splices : kind.Splices [old] [new] changed) (nodup : kind.owned.Nodup)
    (fresh : new ∉ kind.owned) : changed = kind.mapOwned (Equiv.swap old new) := by
  obtain ⟨left, slot, filled, right, slots, rfl, wasOld, isNew, sameForm⟩ :=
    exchanged.exists_slots splices
  rw [Kind.owned_eq_slots, slots, List.filterMap_append, List.filterMap_cons_some wasOld]
    at nodup fresh
  have keeps : ∀ {slots : List Slot}, old ∉ slots.filterMap Slot.child? →
      new ∉ slots.filterMap Slot.child? → slots.map (Slot.map (Equiv.swap old new)) = slots := by
    intro slots noOld noNew
    refine Slot.map_eq_self fun child member => Equiv.swap_apply_of_ne_of_ne ?_ ?_
    · exact fun isOld => noOld (isOld ▸ member)
    · exact fun isNew => noNew (isNew ▸ member)
  have exchangedSlot : slot.map (Equiv.swap old new) = filled := by
    cases slot <;> cases filled <;>
      simp_all [Slot.map, Slot.child?, Slot.isOptional, Equiv.swap_apply_left]
  obtain ⟨_, tail, apart⟩ := List.nodup_append.mp nodup
  rw [Kind.mapOwned, slots, List.map_append, List.map_cons, exchangedSlot, keeps, keeps]
  · exact (List.nodup_cons.mp tail).1
  · exact fun member => fresh (by simp [member])
  · exact fun member => apart old member old (List.mem_cons_self ..) rfl
  · exact fun member => fresh (by simp [member])

/-- A replacement lets two nodes change places, all over the program. -/
theorem kindAt_of_replace (wellFormed : WellFormed before) {answer : NodeId}
    (run : Yields (replace old new) before answer after) :
    after.kindAt id = (before.kindAt id).map (Kind.mapOwned (Equiv.swap old new)) := by
  obtain ⟨holder, swapped⟩ := exists_swapped run
  obtain ⟨kind, changed, known, exchanged, kinds⟩ := swapped.kinds
  have noHolder : ∀ holder, ¬ before.Holds holder new := by
    intro holder holdsNew
    rw [wellFormed.parent_iff, swapped.spare.1] at holdsNew
    cases holdsNew
  have notOwned : ∀ {id kind}, before.kindAt id = some kind → new ∉ kind.owned := by
    intro id kind known member
    apply noHolder id
    rwa [Holds, held_eq_of_kindAt known]
  rw [kinds]
  split
  · rename_i isHolder
    obtain ⟨relinked, isRelinked, same, _⟩ := swapped.relinked
    obtain ⟨kindThere, changedThere, knownThere, knownRelinked, splices⟩ := isRelinked.spliced
    obtain rfl : kindThere = kind := Option.some.inj (knownThere.symm.trans known)
    obtain rfl : changedThere = changed := by
      have knownAfter := kinds holder
      rw [same.kindAt, knownRelinked, if_pos rfl] at knownAfter
      exact Option.some.inj knownAfter
    have nodup : (before.held holder).Nodup := wellFormed.orderly.forest.nodup trivial
    rw [held_eq_of_kindAt known] at nodup
    rw [isHolder, known, Option.map_some, exchanged.eq_swap splices nodup (notOwned known)]
  · rename_i notHolder
    cases knownHere : before.kindAt id with
    | none => rfl
    | some kindHere =>
      have fixed : ∀ child ∈ kindHere.owned, Equiv.swap old new child = child := by
        intro child member
        apply Equiv.swap_apply_of_ne_of_ne
        · rintro rfl
          apply notHolder
          have holdsHere : before.Holds id child := by rwa [Holds, held_eq_of_kindAt knownHere]
          rw [wellFormed.parent_iff, swapped.named] at holdsHere
          exact (Option.some.inj holdsHere).symm
        · rintro rfl
          exact notOwned knownHere member
      rw [Option.map_some, Kind.mapOwned_eq_self fixed]

/-- A node that was replaced by another one takes its place again. -/
theorem exists_replacedBack (wellFormed : WellFormed program)
    (holdsOld : program.Holds holder old) (unattached : program.Unattached new)
    (outside : ¬ program.Contains new old) :
    ∃ between, Yields (replace old new) program new between ∧
      Yields (replace new old) between old program := by
  have orderly := wellFormed.orderly
  have named := (wellFormed.parent_iff holder old).mp holdsOld
  obtain ⟨between, replacing⟩ := exists_replace wellFormed unattached named
    fun above => outside (above.tail holdsOld)
  have orderlyBetween := orderly.replace trivial trivial replacing
  obtain ⟨holderToo, swapped⟩ := exists_swapped replacing
  obtain rfl : holderToo = holder := Option.some.inj (swapped.named.symm.trans named)
  have spareOld : between.Unattached old := by
    obtain ⟨relinked, isRelinked, same, _⟩ := swapped.relinked
    refine ⟨?_, ?_, ?_⟩
    · rw [same.isSome, isRelinked.isSome]
      obtain ⟨node, found, _⟩ := get?_of_parentOf named
      simp [found]
    · rw [same.parentOf]
      refine isRelinked.parent_out (List.mem_singleton_self old) ?_ (by simp)
      rw [List.mem_singleton]
      rintro rfl
      exact outside .refl
    · rw [orderlyBetween.isPlaced_iff trivial]
      exact swapped.not_reachable_old orderly trivial trivial .refl
  have outsideBack : ¬ between.Contains old holderToo := by
    rw [swapped.contains_old_iff orderly trivial]
    exact orderly.forest.not_contains_holder trivial holdsOld
  have namedNew := (orderlyBetween.wellFormed.parent_iff holderToo new).mp swapped.holds_new
  obtain ⟨after, replacingBack⟩ :=
    exists_replace orderlyBetween.wellFormed spareOld namedNew outsideBack
  have twice : Kind.mapOwned (Equiv.swap old new) ∘ Kind.mapOwned (Equiv.swap old new) = id := by
    funext kind
    rw [Function.comp_apply, Kind.mapOwned_mapOwned, ← Equiv.coe_trans, Equiv.swap_swap,
      Equiv.coe_refl, Kind.mapOwned_id, id_eq]
  have kinds : ∀ id, after.kindAt id = program.kindAt id := by
    intro id
    rw [kindAt_of_replace orderlyBetween.wellFormed replacingBack,
      kindAt_of_replace wellFormed replacing, Option.map_map, Equiv.swap_comm new old, twice,
      Option.map_id, id_eq]
  have orderlyAfter := orderlyBetween.replace trivial trivial replacingBack
  obtain rfl := wellFormed.eq_of_kinds orderlyAfter.wellFormed kinds
    ((Rehung.of_replace replacing).trans (.of_replace replacingBack))
  exact ⟨between, replacing, replacingBack⟩

end Replacement

/-! ## Both together -/

/-- **Removals and replacements are undone.**  An element that is removed from a list gives back
the program when it is inserted where it was, next to a neighbour that is no list or at its end of
the list, if it is no list itself and needs no wrapper.  A node that is replaced by a free-standing
one that it is not part of gives back the program when it replaces that one. -/
theorem Program.WellFormed.edits_undone (wellFormed : WellFormed program) :
    (∀ (list id : NodeId) (holds : ListCategory) (left right : List NodeId) (call : Insertion),
      program.kindAt list = some (.list holds (left ++ id :: right).toArray) →
      (program.kindAt id).map Kind.isList = some false → ¬ program.NeedsWrapper holds id →
      call.LeadsBack program list left right →
      ∃ between, Yields (remove id) program id between ∧
        Yields (call.run id) between id program) ∧
    ∀ holder old new, program.Holds holder old → program.Unattached new →
      ¬ program.Contains new old →
      ∃ between, Yields (replace old new) program new between ∧
        Yields (replace new old) between old program :=
  ⟨fun _ _ _ _ _ _ known single bare leadsBack =>
      exists_putBack wellFormed known single bare leadsBack,
    fun _ _ _ holdsOld unattached outside =>
      exists_replacedBack wellFormed holdsOld unattached outside⟩

/-- A call with lists among its arguments, and a number that nothing holds. -/
def Program.listArguments : Program := Edit.making do
  let _aside ← newInt 0
  let one ← newInt 1
  let two ← newInt 2
  let three ← newInt 3
  let first ← newList .exprs []
  let second ← newList .exprs []
  let sum ← newPrimitiveCall .add [first, one, second, two, three]
  let module ← newModule "m" .user [sum]
  addModule module

theorem Program.standsUp_listArguments : listArguments.StandsUp ⟨24⟩ := by
  decide +kernel

/-- An argument goes back in front of the next one, and takes its place again from the number that
replaced it. -/
theorem Program.WellFormed.edits_undone_listArguments :
    WellFormed listArguments ∧
      (∃ between, Yields (remove ⟨15⟩) listArguments ⟨15⟩ between ∧
        Yields (insertBefore ⟨16⟩ ⟨15⟩) between ⟨15⟩ listArguments) ∧
      ∃ between, Yields (replace ⟨15⟩ ⟨13⟩) listArguments ⟨13⟩ between ∧
        Yields (replace ⟨13⟩ ⟨15⟩) between ⟨15⟩ listArguments := by
  have wellFormed := standsUp_listArguments.inspected.wellFormed
  obtain ⟨removed, replaced⟩ := edits_undone wellFormed
  refine ⟨wellFormed, removed ⟨19⟩ ⟨15⟩ .exprs [⟨17⟩, ⟨14⟩, ⟨18⟩] [⟨16⟩] (.beside .before ⟨16⟩)
    (by decide +kernel) (by decide +kernel) (fun wrapped => nomatch wrapped.1)
    (.beforeNext rfl (by decide +kernel)), replaced ⟨19⟩ ⟨15⟩ ⟨13⟩ ?_ ?_ ?_⟩
  · exact (wellFormed.parent_iff _ _).mpr (by decide +kernel)
  · refine ⟨by decide +kernel, by decide +kernel, ?_⟩
    rw [wellFormed.orderly.isPlaced_iff trivial, standsUp_listArguments.inspected.reachable_iff]
    decide +kernel
  · intro contained
    have holdsNothing : listArguments.held ⟨13⟩ = [] := by decide +kernel
    rcases contained.cases_head with same | ⟨child, holds, _⟩
    · cases same
    · simp [Holds, holdsNothing] at holds

/-- An argument between two lists does not go back next to either of them. -/
theorem Program.no_way_back_between_lists :
    WellFormed listArguments ∧
      listArguments.kindAt ⟨19⟩ = some (.list .exprs #[⟨17⟩, ⟨14⟩, ⟨18⟩, ⟨15⟩, ⟨16⟩]) ∧
      (listArguments.kindAt ⟨14⟩).map Kind.isList = some false ∧
      ∃ between, Yields (remove ⟨14⟩) listArguments ⟨14⟩ between ∧
        (∀ answer after, ¬ Yields (insertAfter ⟨17⟩ ⟨14⟩) between answer after) ∧
        ∀ answer after, ¬ Yields (insertBefore ⟨18⟩ ⟨14⟩) between answer after := by
  have wellFormed := standsUp_listArguments.inspected.wellFormed
  have known : listArguments.kindAt ⟨19⟩ = some (.list .exprs #[⟨17⟩, ⟨14⟩, ⟨18⟩, ⟨15⟩, ⟨16⟩]) := by
    decide +kernel
  have named : listArguments.parentOf ⟨14⟩ = some ⟨19⟩ := by decide +kernel
  have single : (listArguments.kindAt ⟨14⟩).map Kind.isList = some false := by decide +kernel
  obtain ⟨between, removing, _⟩ := exists_takenOut wellFormed known named
  have stops : ∀ {insertion : Edit NodeId},
      ((remove ⟨14⟩ >>= fun _ => insertion) listArguments).isOk = false →
      ∀ answer after, ¬ Yields insertion between answer after := by
    intro insertion fails answer after inserting
    have run : Yields (remove ⟨14⟩ >>= fun _ => insertion) listArguments answer after :=
      yields_bind.mpr ⟨_, _, removing, inserting⟩
    rw [show _ = _ from run] at fails
    cases fails
  exact ⟨wellFormed, known, single, between, removing, stops (by decide +kernel),
    stops (by decide +kernel)⟩

end ProgramTree
