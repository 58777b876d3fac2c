import ProgramTree.Edit.Building
import ProgramTree.Proofs.Relinking

/-!
# Growth

A fresh node takes over children that nothing holds.  It is not part of the tree, and
what it takes over was not, so contexts and index entries stay as they are.
-/

namespace ProgramTree

open Program

variable {before between after : Program} {id : NodeId} {kind : Kind}

/-! ## Fresh nodes -/

/-- The node was not there yet. -/
abbrev Program.New (origin : Program) (id : NodeId) : Prop :=
  origin.get? id = none

/-- The next node is of this kind and free-standing; nothing else changed. -/
structure Pushed (before : Program) (kind : Kind) (after : Program) : Prop where
  node : ∃ node, after.get? before.nextId = some node ∧
    node.kind = kind ∧ node.parent? = none ∧ node.context = {}
  others : ∀ {id}, id ≠ before.nextId → after.get? id = before.get? id
  rest : after = { before with nodes := after.nodes }

theorem Edit.yields_withLocationOf {α : Type} {edit : Edit α} {answer : α} :
    Yields (withLocationOf id edit) before answer after ↔
      ∃ node middle, before.get? id = some node ∧
        Yields edit { before with givenLocation? := some node.location } answer middle ∧
        after = { middle with givenLocation? := before.givenLocation? } := by
  simp only [withLocationOf, withLocation, yields_bind, yields_look, yields_get, yields_modify,
    yields_pure, node_eq_ok]
  constructor
  · rintro ⟨node, _, ⟨found, rfl⟩, _, _, ⟨rfl, rfl⟩, _, _, rfl, middle, final, run, _, _, rfl,
      rfl, rfl⟩
    exact ⟨node, final, found, run, rfl⟩
  · rintro ⟨node, middle, found, run, rfl⟩
    exact ⟨node, _, ⟨found, rfl⟩, _, _, ⟨rfl, rfl⟩, (), _, rfl, answer, middle, run, (), _, rfl,
      rfl, rfl⟩

theorem pushed_push : Pushed before kind (before.push kind) where
  node := by
    refine ⟨before.stamp kind, by simp [get?_push], ?_⟩
    unfold stamp
    split <;> exact ⟨rfl, rfl, rfl⟩
  others different := by simp [get?_push, different]
  rest := rfl

theorem Pushed.kindAt (pushed : Pushed before kind after) :
    after.kindAt before.nextId = some kind := by
  obtain ⟨node, found, isKind, _⟩ := pushed.node
  rw [kindAt_eq found, isKind]

theorem Pushed.kinds (pushed : Pushed before kind after) (old : id ≠ before.nextId) :
    after.kindAt id = before.kindAt id := by
  rw [Program.kindAt, pushed.others old, Program.kindAt]

theorem Pushed.parents (pushed : Pushed before kind after) (old : id ≠ before.nextId) :
    after.parentOf id = before.parentOf id := by
  rw [Program.parentOf, pushed.others old, Program.parentOf]

theorem Edit.pushed_withLocationOf {source answer : NodeId}
    (run : Yields (withLocationOf source (newNode kind)) before answer after) :
    answer = before.nextId ∧ Pushed before kind after := by
  obtain ⟨node, middle, _, created, rfl⟩ := yields_withLocationOf.mp run
  obtain ⟨rfl, rfl⟩ := yields_newNode.mp created
  have pushed : Pushed { before with givenLocation? := some node.location } kind _ := pushed_push
  exact ⟨rfl, pushed.node, pushed.others, rfl⟩

/-! ## Adoption -/

/-- The children, which were free-standing, have this parent; nothing else changed. -/
structure Adopted (before : Program) (parent : NodeId) (children : List NodeId)
    (after : Program) : Prop where
  nodes : ∀ id, after.get? id = (before.get? id).map fun node =>
    if id ∈ children then { node with parent? := some parent } else node
  issued : ∀ {id}, id ∈ children → (before.get? id).isSome
  free : ∀ {id}, id ∈ children → before.parentOf id = none
  notPlaced : ∀ {id}, id ∈ children → ¬ before.IsPlaced id
  distinct : children.Nodup
  rest : after = { before with nodes := after.nodes }

theorem Edit.yields_adopt_cons {parent first : NodeId} {rest : List NodeId}
    (run : Yields (adopt parent (first :: rest)) before () after) :
    (before.get? first).isSome ∧ before.parentOf first = none ∧ ¬ before.IsPlaced first ∧
      Yields (adopt parent rest)
        (before.modifyNode first fun node => { node with parent? := some parent }) () after := by
  obtain ⟨between, firstRun, restRun⟩ := yields_forM_cons.mp run
  simp only [yields_bind, yields_look, yields_ite, yields_fail, setParent, yields_change,
    node_eq_ok, inTree_eq_ok] at firstRun
  obtain ⟨node, _, ⟨found, rfl⟩, placed, _, ⟨⟨issued, agrees⟩, rfl⟩, firstRun⟩ := firstRun
  rcases firstRun with ⟨_, _, _, never, _⟩ | ⟨passed, _, rfl⟩
  · exact never.elim
  · simp only [Bool.or_eq_true, not_or, Bool.not_eq_true, Option.isSome_eq_false_iff,
      Option.isNone_iff_eq_none] at passed
    refine ⟨issued, ?_, ?_, restRun⟩
    · rw [parentOf_eq found, passed.1]
    · rw [← agrees, passed.2]
      exact Bool.false_ne_true

theorem Edit.adopted {parent : NodeId} {children : List NodeId}
    (run : Yields (adopt parent children) before () after) :
    Adopted before parent children after := by
  induction children generalizing before with
  | nil =>
    rw [adopt, yields_forM_nil] at run
    subst run
    exact ⟨by simp, nofun, nofun, nofun, .nil, rfl⟩
  | cons first rest ih =>
    obtain ⟨issued, free, notPlaced, restRun⟩ := yields_adopt_cons run
    have others := ih restRun
    have notInRest : first ∉ rest := by
      intro member
      have freeLater := others.free member
      obtain ⟨node, found⟩ := Option.isSome_iff_exists.mp issued
      simp [parentOf, get?_modifyNode, found] at freeLater
    have kept : ∀ {id}, id ∈ rest →
        (before.modifyNode first fun node => { node with parent? := some parent }).get? id =
          before.get? id := by
      intro id member
      refine get?_modifyNode_of_ne ?_
      rintro rfl
      exact notInRest member
    refine ⟨?_, ?_, ?_, ?_, List.nodup_cons.mpr ⟨notInRest, others.distinct⟩, ?_⟩
    · intro id
      rw [others.nodes, get?_modifyNode]
      by_cases isFirst : first = id
      · subst isFirst
        simp [notInRest, Function.comp_def]
      · simp [isFirst, Ne.symm isFirst]
    · intro id member
      rcases List.mem_cons.mp member with rfl | member
      · exact issued
      · rw [← kept member]
        exact others.issued member
    · intro id member
      rcases List.mem_cons.mp member with rfl | member
      · exact free
      · rw [parentOf, ← kept member]
        exact others.free member
    · intro id member
      rcases List.mem_cons.mp member with rfl | member
      · exact notPlaced
      · have notPlacedLater := others.notPlaced member
        rw [IsPlaced, roots_modifyNode, contextOf, kept member] at notPlacedLater
        exact notPlacedLater
    · rw [others.rest]
      obtain ⟨_ | place⟩ := first <;> rfl

theorem Adopted.kindAt {parent : NodeId} {children : List NodeId}
    (adopted : Adopted before parent children after) (id : NodeId) :
    after.kindAt id = before.kindAt id := by
  rw [Program.kindAt, adopted.nodes, Option.map_map, Program.kindAt]
  congr 1
  funext node
  simp only [Function.comp_def]
  split <;> rfl

theorem Adopted.parentOf_of_some {parent holder : NodeId} {children : List NodeId}
    (adopted : Adopted before parent children after) (named : before.parentOf id = some holder) :
    after.parentOf id = some holder := by
  have notTaken : id ∉ children := by
    intro member
    simp [adopted.free member] at named
  obtain ⟨node, found, isParent⟩ := get?_of_parentOf named
  rw [parentOf, adopted.nodes, found, Option.map_some, Option.bind_some, if_neg notTaken, isParent]

theorem Adopted.parentOf_of_notMem {parent : NodeId} {children : List NodeId}
    (adopted : Adopted before parent children after) (notTaken : id ∉ children) :
    after.parentOf id = before.parentOf id := by
  simp [Program.parentOf, adopted.nodes, notTaken]

/-! ## Growing by one holder -/

/-- The next node is of this kind and holds what it took over. -/
structure Grown (before : Program) (kind : Kind) (after : Program) : Prop where
  known : after.kindAt before.nextId = some kind
  parent : after.parentOf before.nextId = none
  context : after.contextOf before.nextId = {}
  kinds : ∀ {id}, id ≠ before.nextId → after.kindAt id = before.kindAt id
  parent_child : ∀ {id}, id ∈ kind.owned → after.parentOf id = some before.nextId
  parents : ∀ {id}, id ≠ before.nextId → id ∉ kind.owned →
    after.parentOf id = before.parentOf id
  contexts : ∀ {id}, id ≠ before.nextId → after.contextOf id = before.contextOf id
  rest : after = { before with nodes := after.nodes }

/-- A fresh node that takes over its children has grown there, and the children were
free-standing. -/
theorem Pushed.grown (pushed : Pushed before kind between)
    (adopted : Adopted between before.nextId kind.owned after)
    (old : before.nextId ∉ kind.owned) :
    Grown before kind after := by
  obtain ⟨node, found, _, free, bare⟩ := pushed.node
  have foundAfter : after.get? before.nextId = some node := by
    rw [adopted.nodes, found]
    simp [old]
  have kept : ∀ {id}, id ≠ before.nextId → after.get? id = (before.get? id).map fun node =>
      if id ∈ kind.owned then { node with parent? := some before.nextId } else node := by
    intro id different
    rw [adopted.nodes, pushed.others different]
  refine ⟨?_, ?_, ?_, ?_, ?_, ?_, ?_, ?_⟩
  · rw [adopted.kindAt, pushed.kindAt]
  · rw [parentOf_eq foundAfter, free]
  · rw [contextOf_eq foundAfter, bare]
  · intro id different
    rw [adopted.kindAt, pushed.kinds different]
  · intro id member
    obtain ⟨child, foundChild⟩ := Option.isSome_iff_exists.mp (adopted.issued member)
    simp [parentOf, adopted.nodes, foundChild, member]
  · intro id different notChild
    rw [parentOf, kept different, parentOf]
    simp [notChild]
  · intro id different
    rw [contextOf, kept different, Option.map_map, contextOf]
    congr 2
    funext node
    simp only [Function.comp_def]
    split <;> rfl
  · rw [adopted.rest, pushed.rest]

namespace Grown

variable {exact bare : Prop} {region : NodeId → Prop} {loose : List NodeId}
  {holder child : NodeId}

theorem roots (grown : Grown before kind after) : after.roots = before.roots := by
  rw [grown.rest]

theorem held_fresh (grown : Grown before kind after) : after.held before.nextId = kind.owned :=
  held_eq_of_kindAt grown.known

theorem held_of_ne (grown : Grown before kind after) (old : id ≠ before.nextId) :
    after.held id = before.held id := by
  simp [Program.held, grown.kinds old]

section Invariant

variable (grown : Grown before kind after) (orderly : Orderly exact bare region loose before)
  (spare : Spare region loose before kind.owned)
include grown orderly spare

theorem holds_after (inside : region holder) (old : holder ≠ before.nextId)
    (holds : after.Holds holder child) :
    before.Holds holder child ∧ child ≠ before.nextId ∧ child ∉ kind.owned := by
  rw [Holds, grown.held_of_ne old] at holds
  refine ⟨holds, ?_, fun member => ?_⟩
  · rintro rfl
    exact orderly.forest.not_holds_fresh inside holds
  · have named := (orderly.forest.held inside holds).2
    simp [spare.free member] at named

theorem forest_after (old : before.nextId ∉ kind.owned) : Forest region loose after := by
  have forest := orderly.forest
  have groundedOld : ∀ {id}, region id → id ≠ before.nextId → after.Grounded id := by
    intro id inside old
    have groundedBefore := forest.grounded inside
    induction groundedBefore with
    | intro id _ ih =>
      refine ⟨_, fun child holds => ?_⟩
      obtain ⟨heldBefore, oldChild, _⟩ := grown.holds_after orderly spare inside old holds
      exact ih child heldBefore (forest.held inside heldBefore).1 oldChild
  refine ⟨?_, ?_, ?_, ?_, ?_, ?_, ?_⟩
  · intro id unissued
    by_cases fresh : id = before.nextId
    · exact fresh ▸ orderly.forest.inside_fresh
    · rw [get?_eq_none_iff_kindAt, grown.kinds fresh, ← get?_eq_none_iff_kindAt] at unissued
      exact forest.unissued unissued
  · intro holder child inside holds
    by_cases fresh : holder = before.nextId
    · subst fresh
      rw [Holds, grown.held_fresh] at holds
      exact ⟨spare.inside holds, grown.parent_child holds⟩
    · obtain ⟨heldBefore, oldChild, notChild⟩ := grown.holds_after orderly spare inside fresh holds
      rw [grown.parents oldChild notChild]
      exact forest.held inside heldBefore
  · intro holder child inside notLoose named
    by_cases isChild : child ∈ kind.owned
    · rw [grown.parent_child isChild, Option.some.injEq] at named
      subst named
      refine ⟨orderly.forest.inside_fresh, ?_⟩
      rw [Holds, grown.held_fresh]
      exact isChild
    · by_cases fresh : child = before.nextId
      · subst fresh
        simp [grown.parent] at named
      · rw [grown.parents fresh isChild] at named
        obtain ⟨insideHolder, heldBefore⟩ := forest.holder inside notLoose named
        refine ⟨insideHolder, ?_⟩
        rw [Holds, grown.held_of_ne]
        · exact heldBefore
        · rintro rfl
          simp [Holds, held_of_unissued (get?_nextId before)] at heldBefore
  · intro id isLoose
    have issued := forest.loose_issued isLoose
    rw [← Option.ne_none_iff_isSome, ne_eq, get?_eq_none_iff_kindAt] at issued ⊢
    by_cases fresh : id = before.nextId
    · simp [fresh, grown.known]
    · rw [grown.kinds fresh]
      exact issued
  · intro holder child isLoose inside holds
    by_cases fresh : holder = before.nextId
    · subst fresh
      rw [Holds, grown.held_fresh] at holds
      exact spare.notLoose holds isLoose
    · exact forest.loose_free isLoose inside
        (grown.holds_after orderly spare inside fresh holds).1
  · intro holder inside
    by_cases fresh : holder = before.nextId
    · subst fresh
      rw [grown.held_fresh]
      exact spare.distinct
    · rw [grown.held_of_ne fresh]
      exact forest.nodup inside
  · intro id inside
    by_cases fresh : id = before.nextId
    · subst fresh
      refine ⟨_, fun child holds => ?_⟩
      rw [Holds, grown.held_fresh] at holds
      refine groundedOld (spare.inside holds) ?_
      rintro rfl
      exact old holds
    · exact groundedOld inside fresh

theorem reachable_iff : after.Reachable id ↔ before.Reachable id := by
  have notFresh := orderly.rooted.not_reachable_fresh orderly.forest
  constructor
  · rintro ⟨root, member, contained⟩
    rw [grown.roots] at member
    induction contained with
    | refl => exact .of_root member
    | @tail holder child _ holds ih =>
      have old : holder ≠ before.nextId := fun fresh => notFresh (fresh ▸ ih)
      exact ih.holds (grown.holds_after orderly spare (orderly.reachable_inside ih) old holds).1
  · rintro ⟨root, member, contained⟩
    induction contained with
    | refl => exact .of_root (by rw [grown.roots]; exact member)
    | @tail holder child above holds ih =>
      refine ih.holds ?_
      rw [Holds, grown.held_of_ne]
      · exact holds
      · rintro rfl
        exact notFresh ⟨root, member, above⟩

/-- A fresh node that takes over spare children keeps the invariant. -/
theorem orderly_after (old : before.nextId ∉ kind.owned) :
    Orderly exact bare region loose after := by
  have notFresh := orderly.rooted.not_reachable_fresh orderly.forest
  have ofReachable : ∀ {id}, before.Reachable id → id ≠ before.nextId :=
    fun reachable fresh => notFresh (fresh ▸ reachable)
  have ofIndexed : ∀ {id category}, id ∈ after.index.entries category → before.Reachable id := by
    intro id category member
    rw [grown.rest] at member
    exact orderly.settled.indexed_reachable member not_false
  have reachableIff : ∀ {id}, after.Reachable id ↔ before.Reachable id :=
    grown.reachable_iff orderly spare
  refine ⟨grown.forest_after orderly spare old, ⟨?_, ?_, ?_, ?_⟩, ⟨?_, ?_, ?_, ?_, ?_, ?_⟩⟩
  · exact fun root => orderly.rooted.inside (grown.roots ▸ root)
  · intro id root
    rw [grown.roots] at root
    rw [grown.kinds (ofReachable (.of_root root))]
    exact orderly.rooted.module root
  · intro id root
    rw [grown.roots] at root
    rw [grown.parents (ofReachable (.of_root root))]
    · exact orderly.rooted.free root
    · exact fun member => spare.notPlaced member (.inl root)
  · rw [grown.roots]
    exact orderly.rooted.nodup
  · intro id wanted root _
    rw [grown.roots] at root
    rw [grown.contexts (ofReachable (.of_root root))]
    exact orderly.settled.root_context wanted root not_false
  · intro holder child reachable holds _
    rw [reachableIff] at reachable
    have heldBefore :=
      (grown.holds_after orderly spare (orderly.reachable_inside reachable)
        (ofReachable reachable) holds).1
    rw [grown.contexts (ofReachable (reachable.holds heldBefore)),
      orderly.context_of_held reachable heldBefore, innerContext, innerContext,
      grown.kinds (ofReachable reachable), grown.contexts (ofReachable reachable)]
  · intro id inside unreachable _
    rw [reachableIff] at unreachable
    by_cases fresh : id = before.nextId
    · rw [fresh, grown.context]
    · rw [grown.contexts fresh]
      exact orderly.settled.no_context inside unreachable not_false
  · intro id category member _
    exact reachableIff.mpr (ofIndexed member)
  · intro id category wanted member
    rw [grown.kinds (ofReachable (ofIndexed member))]
    rw [grown.rest] at member
    exact orderly.settled.indexed_kind wanted member
  · intro id category wanted reachable _ categorized
    rw [reachableIff] at reachable
    rw [grown.kinds (ofReachable reachable)] at categorized
    rw [grown.rest]
    exact orderly.settled.reachable_indexed wanted reachable not_false categorized

end Invariant

end Grown

end ProgramTree
