import ProgramTree.Proofs.Moves

/-!
# Edits of the tree keep programs orderly

Removal, replacement, insertion and the addition of a root, each on nodes of the
region.  A list that is inserted is emptied element by element, by induction over the
elements and over how deep such lists are nested; the elements that wait for their turn
are loose.
-/

namespace ProgramTree

open Program

namespace Program

variable {exact bare : Prop} {region : NodeId → Prop} {loose : List NodeId}
  {before between after : Program} {id holder old new list module answer : NodeId}

namespace Arranged

/-! ## Removal -/

theorem uproot (orderly : Orderly exact bare region loose before) (id : NodeId) :
    Arranged exact bare region loose (before.Contains id)
      { before with roots := before.roots.filter (· ≠ id) } := by
  have forest := orderly.forest
  have rooted := orderly.rooted
  have kept : ∀ {root}, root ∈ before.roots.filter (· ≠ id) ↔ root ∈ before.roots ∧ root ≠ id := by
    simp
  refine ⟨⟨forest.unissued, forest.held, forest.holder, forest.loose_issued, forest.loose_free,
    forest.nodup, forest.grounded⟩, ⟨?_, ?_, ?_, ?_⟩, ?_⟩
  · exact fun root => rooted.inside (kept.mp root).1
  · exact fun root => rooted.module (kept.mp root).1
  · exact fun root => rooted.free (kept.mp root).1
  · rw [Array.toList_filter]
    exact rooted.nodup.filter _
  · refine orderly.settled.of_agreement ⟨fun _ => rfl, fun _ => rfl, fun _ => rfl, fun _ => rfl,
      fun _ => rfl, rfl⟩ ?_ ?_ ?_ ?_
    · exact fun root _ => (kept.mp root).1
    · exact fun holds contained => contained.tail holds
    · exact fun _ holds _ => holds
    · intro other outside
      constructor
      · rintro ⟨root, member, contained⟩
        exact ⟨root, (kept.mp member).1, contained⟩
      · rintro ⟨root, member, contained⟩
        refine ⟨root, kept.mpr ⟨member, ?_⟩, contained⟩
        rintro rfl
        exact outside contained

theorem remove (orderly : Orderly exact bare region [] before) (inside : region id)
    (run : Edit.Yields (Edit.remove id) before answer after) :
    Orderly exact bare region [] after := by
  obtain ⟨rfl, between, taken, detached⟩ := Edit.taken run
  have displaced := Edit.displaced detached
  cases taken with
  | held named relinked =>
    have insideParent := (orderly.forest.holder inside (by simp) named).1
    exact relinked.orderly_removed orderly insideParent (by simpa using displaced)
  | free named =>
    have arranged := orderly.uproot answer
    refine (arranged.displace displaced ?_).weaken fun ⟨contained, kept⟩ => kept contained
    refine arranged.rooted.not_reachable_below arranged.forest inside ?_
    exact arranged.rooted.not_reachable_of_free arranged.forest named (by simp)

/-! ## Replacement -/

theorem replace (orderly : Orderly exact bare region [] before) (insideOld : region old)
    (insideNew : region new) (run : Edit.Yields (Edit.replace old new) before answer after) :
    Orderly exact bare region [] after := by
  obtain ⟨rfl, replaced⟩ := Edit.replaced run
  obtain ⟨parent, relinked, detached, named, isRelinked, detaching, attaching⟩ := replaced.steps
  obtain ⟨insideParent, holds⟩ := orderly.forest.holder insideOld (by simp) named
  have spare : Spare region [] before [answer] :=
    .singleton insideNew replaced.free (by simp) replaced.notPlaced
  refine isRelinked.orderly_placed orderly insideParent spare
    (by simpa using Edit.displaced detaching) ?_ attaching
  by_cases reachable : before.Reachable parent
  · exact .inl ⟨reachable, orderly.context_of_held reachable holds⟩
  · refine .inr ⟨reachable, orderly.settled.no_context insideOld (fun reachableOld => ?_) not_false⟩
    exact reachable (orderly.rooted.reachable_holder orderly.forest named reachableOld)

/-! ## Insertion -/

/-- Wrapping a node leaves a program with a spare node to insert. -/
theorem wrap (orderly : Orderly exact bare region loose before)
    (spare : Spare region loose before [new]) (issued : (before.get? new).isSome)
    (wrapped : Edit.Wrapped before new answer after) :
    Orderly exact bare region loose after ∧ Spare region loose after [answer] := by
  cases wrapped with
  | bare => exact ⟨orderly, spare⟩
  | wrapped grown =>
    have old : before.nextId ∉ (Kind.stmt (.expr new)).owned := by
      intro member
      obtain rfl : before.nextId = new := by simpa [Kind.owned, Stmt.owned] using member
      simp [get?_nextId] at issued
    refine ⟨grown.orderly_after orderly spare old,
      Spare.singleton orderly.forest.inside_fresh grown.parent ?_ ?_⟩
    · intro isLoose
      have issuedFresh := orderly.forest.loose_issued isLoose
      simp [get?_nextId] at issuedFresh
    · rintro (root | enclosed)
      · rw [grown.roots] at root
        exact orderly.rooted.not_reachable_fresh orderly.forest (.of_root root)
      · simp [grown.context] at enclosed

theorem insert (orderly : Orderly exact bare region loose before) (insideList : region list)
    (spare : Spare region loose before [new]) (issued : (before.get? new).isSome)
    (inserted : Edit.Inserted before list new after) :
    Orderly exact bare region loose after := by
  obtain ⟨linked, middle, relinked, context, wrapped, isRelinked, handed, attaching⟩ :=
    inserted.steps
  obtain ⟨orderlyMiddle, spareLinked⟩ := orderly.wrap spare issued wrapped
  have nothingGone : Edit.Displaced relinked (fun id => ∃ top ∈ [], relinked.Contains top id)
      relinked := ⟨.refl _, fun _ => rfl, by simp, by simp⟩
  refine isRelinked.orderly_placed orderlyMiddle insideList spareLinked nothingGone ?_ attaching
  obtain ⟨_, cases⟩ := childContext_eq_ok.mp handed
  rw [IsPlaced, isRelinked.roots, isRelinked.contexts, ← IsPlaced,
    orderlyMiddle.isPlaced_iff insideList, isRelinked.frame.innerContext] at cases
  exact cases

/-- Slots, parents, roots and the frame are all that the invariant is about. -/
theorem of_frame (orderly : Orderly exact bare region loose before)
    (framed : SameFrame before after) (held : ∀ id, after.held id = before.held id)
    (parents : ∀ id, after.parentOf id = before.parentOf id)
    (unissued : ∀ id, after.get? id = none ↔ before.get? id = none)
    (roots : after.roots = before.roots) : Orderly exact bare region loose after := by
  have forest := orderly.forest
  have rooted := orderly.rooted
  have holds : after.Holds = before.Holds := by
    funext holder child
    rw [Holds, held, Holds]
  have contains : after.Contains = before.Contains := by rw [Contains, holds]
  have grounded : after.Grounded = before.Grounded := by rw [Grounded, holds]
  have reachable : after.Reachable = before.Reachable := by
    funext id
    rw [Reachable, roots, contains, Reachable]
  refine ⟨⟨?_, ?_, ?_, ?_, ?_, ?_, ?_⟩, ⟨?_, ?_, ?_, ?_⟩, ?_⟩
  · exact fun missing => forest.unissued ((unissued _).mp missing)
  · intro holder child inside holdsChild
    rw [holds] at holdsChild
    rw [parents]
    exact forest.held inside holdsChild
  · intro holder child inside notLoose named
    rw [parents] at named
    rw [holds]
    exact forest.holder inside notLoose named
  · intro id isLoose
    rw [← Option.ne_none_iff_isSome, ne_eq, unissued]
    exact Option.ne_none_iff_isSome.mpr (forest.loose_issued isLoose)
  · intro holder child isLoose
    rw [holds]
    exact forest.loose_free isLoose
  · intro holder inside
    rw [held]
    exact forest.nodup inside
  · intro id inside
    rw [grounded]
    exact forest.grounded inside
  · exact fun root => rooted.inside (roots ▸ root)
  · intro id root
    rw [framed.isModule]
    exact rooted.module (roots ▸ root)
  · intro id root
    rw [parents]
    exact rooted.free (roots ▸ root)
  · rw [roots]
    exact rooted.nodup
  · refine orderly.settled.of_agreement framed ?_ ?_ ?_ ?_
    · exact fun root _ => roots ▸ root
    · exact fun _ never => never
    · intro holder child _ holdsChild _
      rw [holds] at holdsChild
      exact holdsChild
    · intro id _
      rw [reachable]

/-- A loose node that loses its stale parent is loose no more. -/
theorem release (orderly : Orderly exact bare region (id :: loose) before) :
    Orderly exact bare region loose
      (before.modifyNode id fun node => { node with parent? := none }) := by
  have forest := orderly.forest
  have rooted := orderly.rooted
  generalize written : before.modifyNode id (fun node => { node with parent? := none }) = after
  have kindAt : ∀ other, after.kindAt other = before.kindAt other := by
    intro other
    rw [← written, Program.kindAt, get?_modifyNode_map, Program.kindAt]
    cases before.get? other <;> simp [apply_ite]
  have contextOf : ∀ other, after.contextOf other = before.contextOf other := by
    intro other
    rw [← written, Program.contextOf, get?_modifyNode_map, Program.contextOf]
    cases before.get? other <;> simp [apply_ite]
  have parentOf_id : after.parentOf id = none := by
    rw [← written, parentOf, get?_modifyNode_map]
    cases before.get? id <;> simp
  have parentOf_of_ne : ∀ {other}, other ≠ id → after.parentOf other = before.parentOf other := by
    intro other different
    rw [← written, parentOf, get?_modifyNode_of_ne (Ne.symm different), parentOf]
  have roots : after.roots = before.roots := by rw [← written, roots_modifyNode]
  have index : after.index = before.index := by rw [← written, index_modifyNode]
  have held : after.held = before.held := funext fun other => by simp [Program.held, kindAt]
  have holds : after.Holds = before.Holds := by
    funext holder child
    rw [Holds, held, Holds]
  have contains : after.Contains = before.Contains := by rw [Contains, holds]
  have grounded : after.Grounded = before.Grounded := by rw [Grounded, holds]
  have unissued : ∀ {other}, after.get? other = none ↔ before.get? other = none := by
    intro other
    rw [get?_eq_none_iff_kindAt, kindAt, ← get?_eq_none_iff_kindAt]
  have notHeld : ∀ {holder}, region holder → ¬ before.Holds holder id :=
    forest.loose_free (by simp)
  refine ⟨⟨?_, ?_, ?_, ?_, ?_, ?_, ?_⟩, ⟨?_, ?_, ?_, ?_⟩, ?_⟩
  · exact fun missing => forest.unissued (unissued.mp missing)
  · intro holder child inside holdsChild
    rw [holds] at holdsChild
    rw [parentOf_of_ne fun same => notHeld inside (same ▸ holdsChild)]
    exact forest.held inside holdsChild
  · intro holder child inside notLoose named
    have different : child ≠ id := by
      rintro rfl
      simp [parentOf_id] at named
    rw [parentOf_of_ne different] at named
    rw [holds]
    exact forest.holder inside (by simp [different, notLoose]) named
  · intro other isLoose
    rw [← Option.ne_none_iff_isSome, ne_eq, unissued]
    exact Option.ne_none_iff_isSome.mpr (forest.loose_issued (by simp [isLoose]))
  · intro holder child isLoose
    rw [holds]
    exact forest.loose_free (by simp [isLoose])
  · intro holder inside
    rw [held]
    exact forest.nodup inside
  · intro other inside
    rw [grounded]
    exact forest.grounded inside
  · exact fun root => rooted.inside (roots ▸ root)
  · intro other root
    rw [kindAt]
    exact rooted.module (roots ▸ root)
  · intro other root
    by_cases same : other = id
    · rw [same, parentOf_id]
    · rw [parentOf_of_ne same]
      exact rooted.free (roots ▸ root)
  · rw [roots]
    exact rooted.nodup
  · refine orderly.settled.of_agreement
      ⟨contextOf, by simp [kindAt], by simp [kindAt], by simp [kindAt], by simp [kindAt], index⟩
      ?_ ?_ ?_ ?_
    · exact fun root _ => roots ▸ root
    · exact fun _ never => never
    · intro holder child _ holdsChild _
      rw [holds] at holdsChild
      exact holdsChild
    · intro other _
      rw [Reachable, roots, contains, Reachable]

/-- What is kept when one element of an emptied list is released and inserted elsewhere is
kept by all of them, one after the other. -/
theorem release_each (kept : List NodeId → Program → Prop) (insertOne : NodeId → Nat → Edit NodeId)
    {items : List (NodeId × Nat)}
    (each : ∀ {loose before answer after item}, item ∈ items → item.1 ∉ loose →
      kept (item.1 :: loose) before →
      Edit.Yields (insertOne item.1 item.2)
        (before.modifyNode item.1 fun node => { node with parent? := none }) answer after →
      kept loose after)
    (start : kept (items.map Prod.fst ++ loose) before) (distinct : (items.map Prod.fst).Nodup)
    (notLoose : ∀ item ∈ items, item.1 ∉ loose)
    (run : Edit.Yields (items.forM fun (element, offset) => do
      Edit.setParent element none
      let _ ← insertOne element offset) before () after) :
    kept loose after := by
  induction items generalizing before with
  | nil =>
    rw [Edit.yields_forM_nil] at run
    exact run ▸ start
  | cons first rest ih =>
    obtain ⟨between, firstRun, restRun⟩ := Edit.yields_forM_cons.mp run
    simp only [Edit.yields_bind, Edit.yields_setParent, Edit.yields_pure] at firstRun
    obtain ⟨_, _, ⟨_, rfl⟩, _, _, insertion, _, rfl⟩ := firstRun
    obtain ⟨notInRest, distinctRest⟩ := List.nodup_cons.mp distinct
    have apart : first.1 ∉ rest.map Prod.fst ++ loose := by
      rw [List.mem_append, not_or]
      exact ⟨notInRest, notLoose first (by simp)⟩
    exact ih (fun member => each (List.mem_cons_of_mem _ member))
      (each (by simp) apart start insertion) distinctRest
      (fun item member => notLoose item (by simp [member])) restRun

/-- An inserted list is emptied, and what it held is inserted in its place. -/
theorem splice {depth position : Nat} (orderly : Orderly exact bare region loose before)
    (insideList : region list) (inside : region new) (notLoose : new ∉ loose)
    (run : Edit.Yields (Edit.spliceWithin depth list position new) before answer after) :
    Orderly exact bare region loose after := by
  induction depth generalizing position new loose before answer after with
  | zero => exact (Edit.yields_throw run).elim
  | succ depth ih =>
    simp only [Edit.spliceWithin, Edit.yields_bind, Edit.yields_checkInsertable, Edit.yields_look,
      Edit.yields_ite, Edit.yields_changeElements, Edit.yields_pure, elements_eq_ok] at run
    obtain ⟨_, _, ⟨rfl, issued, free, notPlaced⟩, isList, _, ⟨_, rfl⟩, run⟩ := run
    rcases run with
      ⟨_, elements, start, ⟨⟨holds, known⟩, rfl⟩, _, _, ⟨_, rfl⟩, _, _, loop, rfl, rfl⟩ |
      ⟨_, run⟩
    · have relinked := Edit.relinked_clear known
      have cleared := relinked.orderly_of_unreachable orderly inside .nil (List.Subset.refl _)
        (by simp) (fun reachable => notPlaced ((orderly.isPlaced_iff inside).mpr reachable))
      have members : elements.toList.zipIdx.map Prod.fst = elements.toList := by simp
      have wasHeld : ∀ item ∈ elements.toList.zipIdx, start.Holds answer item.1 := by
        intro item member
        refine relinked.out_held ?_
        rw [← members]
        exact List.mem_map_of_mem member
      refine release_each (Orderly exact bare region)
        (fun element offset => Edit.spliceWithin depth list (position + offset) element)
        (fun member apart kept run => ih kept.release
          (orderly.forest.held inside (wasHeld _ member)).1 apart run) (members.symm ▸ cleared)
        ?_ ?_ loop
      · have nodup := orderly.forest.nodup inside
        rw [held_eq_of_kindAt known] at nodup
        rw [members]
        exact nodup
      · exact fun item member isLoose =>
          orderly.forest.loose_free isLoose inside (wasHeld item member)
    · exact orderly.insert insideList (.singleton inside free notLoose notPlaced) issued
        (Edit.inserted issued run)

theorem splice_all {position : Nat} (orderly : Orderly exact bare region [] before)
    (insideList : region list) (inside : region new)
    (run : Edit.Yields (Edit.splice list position new) before answer after) :
    Orderly exact bare region [] after := by
  simp only [Edit.splice, Edit.yields_bind, Edit.yields_get] at run
  obtain ⟨_, _, ⟨rfl, rfl⟩, run⟩ := run
  exact orderly.splice insideList inside (by simp) run

theorem insertBeside {side : Side} {anchor : NodeId}
    (orderly : Orderly exact bare region [] before) (insideAnchor : region anchor)
    (insideNew : region new)
    (run : Edit.Yields (Edit.insertBeside side anchor new) before answer after) :
    Orderly exact bare region [] after := by
  simp only [Edit.insertBeside, Edit.yields_bind, Edit.yields_look] at run
  obtain ⟨⟨list, position⟩, _, ⟨placed, rfl⟩, run⟩ := run
  have named := Edit.parentOf_anchor placed
  have insideList := (orderly.forest.holder insideAnchor (by simp) named).1
  cases side with
  | before => exact orderly.splice_all insideList insideNew run
  | after => exact orderly.splice_all insideList insideNew run

theorem insertAtEnd {listEnd : ListEnd} (orderly : Orderly exact bare region [] before)
    (insideList : region list) (insideNew : region new)
    (run : Edit.Yields (Edit.insertAtEnd listEnd list new) before answer after) :
    Orderly exact bare region [] after := by
  simp only [Edit.insertAtEnd, Edit.yields_bind, Edit.yields_look] at run
  obtain ⟨kind, _, ⟨_, rfl⟩, run⟩ := run
  split at run
  · cases listEnd with
    | head => exact orderly.splice_all insideList insideNew run
    | tail => exact orderly.splice_all insideList insideNew run
  · exact (Edit.yields_fail run).elim

/-! ## Roots -/

theorem enroot (orderly : Orderly exact bare region loose before) (inside : region module)
    (isModule : (before.kindAt module).any Kind.isModule) (free : before.parentOf module = none)
    (notRoot : module ∉ before.roots) :
    Arranged exact bare region loose (before.Contains module)
      { before with roots := before.roots.push module } := by
  have forest := orderly.forest
  have rooted := orderly.rooted
  have members : ∀ {root}, root ∈ before.roots.push module ↔ root ∈ before.roots ∨ root = module :=
    Array.mem_push
  refine ⟨⟨forest.unissued, forest.held, forest.holder, forest.loose_issued, forest.loose_free,
    forest.nodup, forest.grounded⟩, ⟨?_, ?_, ?_, ?_⟩, ?_⟩
  · intro root member
    rcases members.mp member with member | rfl
    · exact rooted.inside member
    · exact inside
  · intro root member
    rcases members.mp member with member | rfl
    · exact rooted.module member
    · exact isModule
  · intro root member
    rcases members.mp member with member | rfl
    · exact rooted.free member
    · exact free
  · rw [Array.toList_push, List.nodup_append]
    refine ⟨rooted.nodup, by simp, ?_⟩
    rintro root member _ isModule rfl
    obtain rfl : root = module := by simpa using isModule
    exact notRoot (by simpa using member)
  · refine orderly.settled.of_agreement ⟨fun _ => rfl, fun _ => rfl, fun _ => rfl, fun _ => rfl,
      fun _ => rfl, rfl⟩ ?_ ?_ ?_ ?_
    · intro root member outside
      rcases members.mp member with member | rfl
      · exact member
      · exact absurd .refl outside
    · exact fun holds contained => contained.tail holds
    · exact fun _ holds _ => holds
    · intro other outside
      constructor
      · rintro ⟨root, member, contained⟩
        rcases members.mp member with member | rfl
        · exact ⟨root, member, contained⟩
        · exact absurd contained outside
      · rintro ⟨root, member, contained⟩
        exact ⟨root, members.mpr (.inl member), contained⟩

theorem addModule {done : Unit} (orderly : Orderly exact bare region [] before)
    (inside : region module)
    (run : Edit.Yields (Edit.addModule module) before done after) :
    Orderly exact bare region [] after := by
  simp only [Edit.addModule, Edit.yields_bind, Edit.yields_look, Edit.yields_ite, Edit.yields_fail,
    Edit.yields_checkInsertable, Edit.yields_modify, kindOf_eq_ok] at run
  obtain ⟨kind, _, ⟨known, rfl⟩, ⟨_, _, _, never, _⟩ | ⟨isModule, run⟩⟩ := run
  · exact never.elim
  · obtain ⟨_, start, ⟨rfl, issued, free, notPlaced⟩, _, _, rfl, attaching⟩ := run
    have moduleKind : (start.kindAt module).any Kind.isModule := by
      simpa [known] using isModule
    have arranged := orderly.enroot inside moduleKind free fun root => notPlaced (.inl root)
    refine (arranged.attach_fitting inside (.inl ⟨?_, rfl⟩) attaching).weaken
      fun ⟨contained, kept⟩ => kept contained
    exact Array.mem_push_self

end Arranged

end Program

end ProgramTree
