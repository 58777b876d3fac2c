import ProgramTree.Proofs.Calls
import ProgramTree.Proofs.Endings

/-!
# Where an inserted node ends up

The four calls that put a single node into a list, told apart by where they aim.  Each of them
comes down to one element more in one list.  The node, and the statement a bare expression is
wrapped in, get the context of their new place and enter the index if that is in the tree;
every node outside of what is inserted stays what it was.
-/

namespace ProgramTree

open Program Edit Relation

variable {before after program : Program} {top id new list linked : NodeId} {holds : ListCategory}
  {elements : List NodeId} {position : Nat}

/-- A call that puts a node into a list: beside an element, or at an end. -/
inductive Insertion where
  | beside (side : Side) (anchor : NodeId)
  | atEnd (listEnd : ListEnd) (list : NodeId)

namespace Insertion

/-- Makes the call. -/
def run (new : NodeId) : Insertion → Edit NodeId
  | beside .before anchor => insertBefore anchor new
  | beside .after anchor => insertAfter anchor new
  | atEnd .head list => insertAtHead list new
  | atEnd .tail list => insertAtTail list new

/-- The anchor is a list or no element of a list, or the target is no list. -/
def Misplaced (program : Program) : Insertion → Prop
  | beside _ anchor => (program.kindAt anchor).any Kind.isList ∨
      ∀ list, (program.kindAt list).any Kind.isList → ¬ program.Holds list anchor
  | atEnd _ list => ¬ (program.kindAt list).any Kind.isList

/-- The list, its elements, and how many of them come before the new one. -/
inductive Aims (program : Program) (list : NodeId) (holds : ListCategory)
    (elements : List NodeId) : Insertion → Nat → Prop where
  | before {anchor : NodeId} {place : Nat}
      (known : program.kindAt list = some (.list holds elements.toArray))
      (single : (program.kindAt anchor).map Kind.isList = some false)
      (here : elements[place]? = some anchor) :
      Aims program list holds elements (.beside .before anchor) place
  | after {anchor : NodeId} {place : Nat}
      (known : program.kindAt list = some (.list holds elements.toArray))
      (single : (program.kindAt anchor).map Kind.isList = some false)
      (here : elements[place]? = some anchor) :
      Aims program list holds elements (.beside .after anchor) (place + 1)
  | head (known : program.kindAt list = some (.list holds elements.toArray)) :
      Aims program list holds elements (.atEnd .head list) 0
  | tail (known : program.kindAt list = some (.list holds elements.toArray)) :
      Aims program list holds elements (.atEnd .tail list) elements.length

end Insertion

/-- A bare expression among statements needs a statement around it. -/
def Program.NeedsWrapper (program : Program) (holds : ListCategory) (id : NodeId) : Prop :=
  holds = .stmts ∧ (program.kindAt id).any Kind.isExpr

/-- A new statement that runs `expr`, at the position of the parser or else where `expr` is. -/
structure Program.WrapperOf (before : Program) (expr : NodeId) (wrapper : Node) : Prop where
  kind : wrapper.kind = .stmt (.expr expr)
  pragmas : wrapper.pragmas = #[]
  location : wrapper.location = before.lexerLocation?.getD (before.locationOf expr)

/-- `new`, or the statement `linked` around it, has become the element at `position` of `list`. -/
structure Program.Filed (before : Program) (list : NodeId) (holds : ListCategory)
    (elements : List NodeId) (position : Nat) (new linked : NodeId) (after : Program) :
    Prop where
  /-- Nothing but the elements of the list changed at the list itself. -/
  elements : after.get? list = (before.get? list).map fun node =>
    { node with
      kind := .list holds (elements.take position ++ linked :: elements.drop position).toArray }
  parent : after.parentOf linked = some list
  bare : ¬ before.NeedsWrapper holds new → linked = new
  wrapped : before.NeedsWrapper holds new →
    linked = before.nextId ∧ after.parentOf new = some linked ∧
      ∃ wrapper, after.get? linked = some wrapper ∧ before.WrapperOf new wrapper
  contains : ∀ id, after.Contains linked id ↔ id = linked ∨ before.Contains new id
  /-- What was moved has other contexts, and the node itself another parent. -/
  moved : ∀ id, before.Contains new id → after.get? id = (before.get? id).map fun node =>
    { node with
      context := after.contextOf id
      parent? := if id = new then after.parentOf new else node.parent? }
  /-- In the tree, the context is made of the nearest symbol and the nearest scope above. -/
  lit : before.Reachable list → ∀ id found, after.Contains linked id →
    ((after.contextOf id).symbol? = some found ↔ after.Nearest Kind.isSymbol id found) ∧
      ((after.contextOf id).scope? = some found ↔ after.Nearest Kind.isScope id found)
  dark : ¬ before.Reachable list → ∀ id, after.Contains linked id → after.contextOf id = {}
  index : ∀ id category, id ∈ after.index.entries category ↔
    id ∈ before.index.entries category ∨
      (before.Reachable list ∧ after.Contains linked id ∧
        (after.kindAt id).bind Kind.category? = some category)
  others : ∀ id, id ≠ list → ¬ after.Contains linked id → after.get? id = before.get? id
  /-- The roots, above all. -/
  rest : after = { before with nodes := after.nodes, index := after.index }

/-! ## Where a call aims -/

namespace Insertion

variable {call : Insertion}

theorem Aims.known (aims : call.Aims before list holds elements position) :
    before.kindAt list = some (.list holds elements.toArray) := by
  cases aims <;> assumption

theorem Aims.inBounds (aims : call.Aims before list holds elements position) :
    position ≤ elements.toArray.size := by
  cases aims with
  | before _ _ here => exact (List.getElem?_eq_some_iff.mp here).1.le
  | after _ _ here => exact (List.getElem?_eq_some_iff.mp here).1
  | head => exact Nat.zero_le _
  | tail => exact le_rfl

/-- An element is found in its list, where it stands. -/
theorem anchorPosition_eq {anchor : NodeId} {place : Nat} (side : Side)
    (wellFormed : WellFormed before)
    (known : before.kindAt list = some (.list holds elements.toArray))
    (single : (before.kindAt anchor).map Kind.isList = some false)
    (here : elements[place]? = some anchor) :
    before.anchorPosition side anchor = .ok (list, place) := by
  have held : before.held list = elements := held_eq_of_kindAt known
  have named : before.parentOf anchor = some list := by
    rw [← wellFormed.parent_iff, Holds, held]
    exact List.mem_of_getElem? here
  obtain ⟨found, anchored, _⟩ := exists_anchorPosition known side wellFormed single named
  obtain ⟨_, _, knownAgain, index⟩ := positionIn_eq_ok.mp (positionIn_anchor anchored)
  obtain ⟨_, rfl⟩ := Kind.list.inj (Option.some.inj (known.symm.trans knownAgain))
  have distinct : elements.Nodup := held ▸ wellFormed.orderly.forest.nodup trivial
  have found' : elements[found]? = some anchor := getElem?_of_idxOf? index
  obtain rfl : found = place := (List.getElem?_inj
    (List.getElem?_eq_some_iff.mp found').1 distinct).mp (found'.trans here.symm)
  exact anchored

/-- A call that aims at a place splices the node in there. -/
theorem Aims.run_eq (wellFormed : WellFormed before)
    (aims : call.Aims before list holds elements position) (new : NodeId) :
    call.run new before = splice list position new before := by
  have anchored : ∀ {side anchor place}, before.anchorPosition side anchor = .ok (list, place) →
      Yields (look (·.anchorPosition side anchor)) before (list, place) before :=
    fun found => yields_look.mpr ⟨found, rfl⟩
  have looked := fun known : before.kindAt list = some (.list holds elements.toArray) =>
    show Yields (look (·.kindOf list)) before (.list holds elements.toArray) before from
      yields_look.mpr ⟨kindOf_eq_ok.mpr known, rfl⟩
  cases aims with
  | before known single here =>
    exact (anchored (anchorPosition_eq .before wellFormed known single here)).run_bind
  | after known single here =>
    exact (anchored (anchorPosition_eq .after wellFormed known single here)).run_bind
  | head known => exact (looked known).run_bind
  | tail known => exact (looked known).run_bind

/-- A call aims at a place, or it is misplaced. -/
theorem exists_aims (wellFormed : WellFormed before) (wellPlaced : ¬ call.Misplaced before) :
    ∃ list holds elements position, call.Aims before list holds elements position := by
  cases call with
  | beside side anchor =>
    simp only [Misplaced, not_or, not_forall, not_not] at wellPlaced
    obtain ⟨notList, list, isList, held⟩ := wellPlaced
    obtain ⟨holds, ⟨elements⟩, known⟩ := exists_list isList
    obtain ⟨node, found, _⟩ := get?_of_parentOf ((wellFormed.parent_iff list anchor).mp held)
    have single : (before.kindAt anchor).map Kind.isList = some false := by
      simpa [kindAt_eq found] using notList
    rw [Holds, held_eq_of_kindAt known] at held
    obtain ⟨place, here⟩ := List.getElem?_of_mem held
    cases side with
    | before => exact ⟨list, holds, elements, place, .before known single here⟩
    | after => exact ⟨list, holds, elements, place + 1, .after known single here⟩
  | atEnd listEnd list =>
    obtain ⟨holds, ⟨elements⟩, known⟩ := exists_list (not_not.mp wellPlaced)
    cases listEnd with
    | head => exact ⟨list, holds, elements, 0, .head known⟩
    | tail => exact ⟨list, holds, elements, _, .tail known⟩

/-- A misplaced call does not end well. -/
theorem not_misplaced (wellFormed : WellFormed before)
    (run : Yields (call.run new) before linked after) : ¬ call.Misplaced before := by
  have besides : ∀ {side anchor}, Yields (insertBeside side anchor new) before linked after →
      ¬ Misplaced before (.beside side anchor) := by
    intro side anchor run
    simp only [insertBeside, yields_bind, yields_look] at run
    obtain ⟨⟨list, place⟩, _, ⟨anchored, rfl⟩, _⟩ := run
    obtain ⟨holds, elements, known, _⟩ := positionIn_eq_ok.mp (positionIn_anchor anchored)
    have held := (wellFormed.parent_iff list anchor).mpr (parentOf_anchor anchored)
    rintro (isList | notElement)
    · simp only [anchorPosition, Fault.bind_eq_ok, isList_eq_ok, Fault.ite_eq_ok] at anchored
      obtain ⟨isList', single, ⟨_, _, never, _⟩ | ⟨notList, _⟩⟩ := anchored
      · simp [Program.fail] at never
      · obtain ⟨kind, knownAnchor, isList⟩ := (Option.any_eq_true _ _).mp isList
        simp_all
    · exact notElement list (by rw [known]; rfl) held
  have ends : ∀ {listEnd list}, Yields (insertAtEnd listEnd list new) before linked after →
      ¬ Misplaced before (.atEnd listEnd list) := by
    intro listEnd list ending
    simp only [insertAtEnd, yields_bind, yields_look, kindOf_eq_ok] at ending
    obtain ⟨kind, _, ⟨known, rfl⟩, ending⟩ := ending
    split at ending
    · exact not_not.mpr (by rw [known]; rfl)
    · exact (yields_fail ending).elim
  cases call with
  | beside side anchor => cases side <;> exact besides run
  | atEnd listEnd list => cases listEnd <;> exact ends run

end Insertion

/-! ## What the insertion of one node writes -/

theorem Program.SameTree.get?_eq (same : SameTree before after) (id : NodeId) :
    after.get? id = (before.get? id).map fun node =>
      { node with context := after.contextOf id } := by
  have bare := same.bare id
  cases foundAfter : after.get? id with
  | none => simpa [foundAfter] using bare
  | some later =>
    obtain ⟨node, found, isBare⟩ := Option.map_eq_some_iff.mp (bare.symm.trans (by rw [foundAfter]; rfl))
    rw [found, contextOf_eq foundAfter, Option.map_some, Option.some.injEq]
    cases node
    cases later
    simp_all [Node.bare]

namespace Edit

/-- A node made at the location of another one is stamped with it, if no parser is at work. -/
theorem get?_withLocationOf {kind : Kind}
    (run : Yields (withLocationOf id (newNode kind)) before linked after) :
    after.get? before.nextId =
      some ({ before with givenLocation? := some (before.locationOf id) }.stamp kind) := by
  obtain ⟨node, _, found, pushing, rfl⟩ := yields_withLocationOf.mp run
  obtain ⟨_, rfl⟩ := yields_newNode.mp pushing
  rw [locationOf, found]
  exact (get?_push _ kind _).trans (if_pos rfl)

theorem wrapperOf_stamp :
    before.WrapperOf new
      ({ before with givenLocation? := some (before.locationOf new) }.stamp (.stmt (.expr new))) := by
  unfold stamp
  split
  · next parser => exact ⟨rfl, rfl, by simp_all⟩
  · next parser => exact ⟨rfl, rfl, by simp_all⟩

/-- The element of a list is the node itself, or a new statement that takes it over. -/
theorem asElement_cases (issued : (before.get? new).isSome)
    (run : Yields (asElement holds new) before linked after) :
    (¬ before.NeedsWrapper holds new ∧ linked = new ∧ after = before) ∨
      (before.NeedsWrapper holds new ∧ linked = before.nextId ∧
        (∃ wrapper, after.get? linked = some wrapper ∧ before.WrapperOf new wrapper) ∧
        ∀ id, id ≠ linked → after.get? id = (before.get? id).map fun node =>
          if id = new then { node with parent? := some linked } else node) := by
  cases holds with
  | exprs | defs =>
    obtain ⟨rfl, rfl⟩ := yields_pure.mp run
    exact .inl ⟨nofun, rfl, rfl⟩
  | stmts =>
    simp only [asElement, asStmt, newExprStmt, yields_bind, yields_look, yields_ite,
      yields_pure, kindOf_eq_ok] at run
    obtain ⟨kind, start, ⟨known, rfl⟩, run⟩ := run
    have isExpr : start.NeedsWrapper .stmts new ↔ kind.isExpr = true := by
      simp [NeedsWrapper, known]
    rcases run with ⟨wraps, _, pushed, created, _, _, adoption, rfl, rfl⟩ | ⟨plain, rfl, rfl⟩
    · obtain ⟨isNext, isPushed⟩ := pushed_withLocationOf created
      have stamped := get?_withLocationOf created
      subst isNext
      have nodes := (adopted adoption).nodes
      have notNew : start.nextId ≠ new := by
        rintro rfl
        simp [get?_nextId] at issued
      have wrapper := nodes start.nextId
      rw [stamped, Option.map_some, if_neg (by simpa using notNew)] at wrapper
      exact .inr ⟨isExpr.mpr wraps, rfl, ⟨_, wrapper, wrapperOf_stamp⟩, fun id old => by
        simp [nodes, isPushed.others old]⟩
    · exact .inl ⟨isExpr.not.mpr plain, rfl, rfl⟩

end Edit

/-! ## What the insertion of one node leaves -/

/-- Below the node that is linked in, there is what the given one contains. -/
theorem Edit.Wrapped.contains_iff {exact bare : Prop} {loose : List NodeId}
    (wrapped : Wrapped before new linked after)
    (orderly : Orderly exact bare (fun _ => True) loose before)
    (spare : Spare (fun _ => True) loose before [new]) (issued : (before.get? new).isSome) :
    after.Contains linked id ↔ id = linked ∨ before.Contains new id := by
  have unchanged : after.Contains new id ↔ before.Contains new id :=
    contains_of_wrapped orderly spare wrapped issued
  cases wrapped with
  | bare =>
    refine ⟨.inr, ?_⟩
    rintro (rfl | below)
    · exact .refl
    · exact below
  | wrapped grown =>
    have holdsNew : after.Holds before.nextId new := by
      rw [Holds, grown.held_fresh]
      exact List.mem_singleton_self new
    constructor
    · intro contained
      rcases contained.cases_head with rfl | ⟨child, holds, below⟩
      · exact .inl rfl
      · rw [Holds, grown.held_fresh] at holds
        obtain rfl : child = new := List.mem_singleton.mp holds
        exact .inr (unchanged.mp below)
    · rintro (rfl | below)
      · exact .refl
      · exact .head holdsNew (unchanged.mpr below)

section Reaching

variable (forest : Forest (fun _ => True) [] after) (named : after.parentOf linked = some list)
  (roots : after.roots = before.roots) (free : ∀ root ∈ after.roots, after.parentOf root = none)
  (came : ∀ {holder child}, after.Holds holder child →
    before.Holds holder child ∨ after.Contains linked child)
include came

/-- What is not below the new element hangs where it hung. -/
theorem Program.contains_of_came (contained : after.Contains top id)
    (notBelow : ¬ after.Contains linked id) : before.Contains top id := by
  induction contained with
  | refl => exact .refl
  | tail _ holds ih =>
    exact (ih fun below => notBelow (below.tail holds)).tail ((came holds).resolve_right notBelow)

include forest named roots free

/-- A root above the new element is above the list that holds it. -/
theorem Program.reachable_list_of_below (reachable : after.Reachable id)
    (below : after.Contains linked id) : before.Reachable list := by
  obtain ⟨root, member, contained⟩ := reachable
  have strict : linked ≠ root := by
    rintro rfl
    simp [free _ member] at named
  have above : after.Contains root linked := by
    refine (forest.comparable trivial trivial contained below).resolve_right fun inside => ?_
    exact strict (forest.eq_of_contains_free trivial inside (free root member)).symm
  obtain ⟨holder, isHolder, aboveHolder⟩ := forest.parent_of_contains trivial above strict
  rw [named, Option.some.injEq] at isHolder
  subst isHolder
  have holdsLinked := (forest.holder trivial List.not_mem_nil named).2
  exact ⟨root, roots ▸ member,
    contains_of_came came aboveHolder (forest.not_contains_holder trivial holdsLinked)⟩

/-- Besides what was reachable, the new subtree is, if its list is. -/
theorem Program.reachable_iff_of_came
    (kept : ∀ {holder child}, before.Holds holder child → after.Holds holder child) :
    after.Reachable id ↔
      before.Reachable id ∨ (before.Reachable list ∧ after.Contains linked id) := by
  constructor
  · intro reachable
    by_cases below : after.Contains linked id
    · exact .inr ⟨reachable_list_of_below forest named roots free came reachable below, below⟩
    · obtain ⟨root, member, contained⟩ := reachable
      exact .inl ⟨root, roots ▸ member, contains_of_came came contained below⟩
  · rintro (⟨root, member, contained⟩ | ⟨⟨root, member, contained⟩, below⟩)
    · exact ⟨root, roots ▸ member, contains_mono (fun _ _ => kept) contained⟩
    · have holdsLinked := (forest.holder trivial List.not_mem_nil named).2
      exact ⟨root, roots ▸ member,
        ((contains_mono (fun _ _ => kept) contained).tail holdsLinked).trans below⟩

end Reaching

/-- An insertion stage by stage: `linked` is made of `new`, becomes an element of the list, and
gets its context. -/
structure Edit.Filing (before wrapped relinked after : Program) (list : NodeId)
    (holds : ListCategory) (elements : List NodeId) (position : Nat) (new linked : NodeId) :
    Prop where
  known : before.kindAt list = some (.list holds elements.toArray)
  element : Yields (asElement holds new) before linked wrapped
  written : Written wrapped list
    (.list holds (elements.take position ++ linked :: elements.drop position).toArray) [] [linked]
    relinked
  relinks : Relinked wrapped list [] [linked] [] relinked
  attached : AttachedBelow relinked linked after

namespace Edit.Filing

variable {wrapped relinked : Program}
  (filing : Filing before wrapped relinked after list holds elements position new linked)
  (wellFormed : WellFormed before) (unattached : before.Unattached new)
  (outside : ¬ before.Contains new list)

section Nodes

include filing

/-- A node after the insertion, in terms of the same node once the wrapper is there. -/
theorem get?_eq (id : NodeId) :
    after.get? id = (wrapped.get? id).map fun node =>
      { node with
        kind := if id = list then
          .list holds (elements.take position ++ linked :: elements.drop position).toArray
          else node.kind
        parent? := if id = linked then some list else node.parent?
        context := after.contextOf id } := by
  rw [filing.attached.same.get?_eq, filing.written.nodes, Option.map_map]
  congr 1
  funext node
  simp [Node.relink]

theorem issued_list : (before.get? list).isSome :=
  get?_isSome_of_kindAt filing.known

theorem parentOf_linked : after.parentOf linked = some list := by
  rw [filing.attached.same.parentOf]
  exact filing.relinks.parent_into (List.mem_singleton_self linked)

include unattached

theorem isWrapped : Wrapped before new linked wrapped :=
  Edit.wrapped filing.element unattached.issued

/-- What is neither the node nor its wrapper is not touched before the list is. -/
theorem get?_old (old : id ≠ linked) (notNew : id ≠ new) : wrapped.get? id = before.get? id := by
  rcases asElement_cases unattached.issued filing.element with
    ⟨_, _, rfl⟩ | ⟨_, _, _, others⟩
  · rfl
  · simp [others id old, notNew]

theorem parentOf_wrapped (wraps : before.NeedsWrapper holds new) :
    after.parentOf new = some linked := by
  rcases asElement_cases unattached.issued filing.element with
    ⟨plain, _⟩ | ⟨_, isNext, _, others⟩
  · exact absurd wraps plain
  · obtain ⟨node, found⟩ := Option.isSome_iff_exists.mp unattached.issued
    have old : new ≠ linked := by
      rintro rfl
      simp [isNext, get?_nextId] at found
    simp [parentOf, filing.get?_eq, others new old, found, old]

theorem kindAt_list :
    after.kindAt list = some
      (.list holds (elements.take position ++ linked :: elements.drop position).toArray) := by
  obtain ⟨node, found, _⟩ := get?_of_kindAt ((filing.isWrapped unattached).kindAt filing.known)
  rw [kindAt, filing.get?_eq, found]
  simp

include wellFormed

theorem lengthened : Lengthened before list after :=
  (ProgramTree.lengthened wellFormed.orderly (unattached.spare List.not_mem_nil) unattached.issued
    (filing.isWrapped unattached) filing.relinks).of_sameTree filing.attached.same

theorem category_eq (issued : (before.get? id).isSome) :
    (after.kindAt id).bind Kind.category? = (before.kindAt id).bind Kind.category? := by
  by_cases isList : id = list
  · rw [isList, filing.kindAt_list unattached, filing.known]
    rfl
  · rw [(filing.lengthened wellFormed unattached).kinds issued isList]

theorem holds_after {holder child : NodeId} (holdsChild : before.Holds holder child) :
    after.Holds holder child := by
  by_cases isList : holder = list
  · rw [isList, Holds, held_eq_of_kindAt filing.known, Kind.owned,
      ← List.take_append_drop position elements] at holdsChild
    rw [isList, Holds, held_eq_of_kindAt (filing.kindAt_list unattached), Kind.owned]
    simp only [List.mem_append, List.mem_cons] at holdsChild ⊢
    tauto
  · rw [Holds, held, (filing.lengthened wellFormed unattached).kinds holdsChild.issued isList]
    exact holdsChild

include outside

theorem contains_iff :
    after.Contains linked id ↔ id = linked ∨ before.Contains new id := by
  have orderly := wellFormed.orderly
  have spare : Spare (fun _ => True) [] before [new] := unattached.spare List.not_mem_nil
  have isWrapped := filing.isWrapped unattached
  rw [filing.attached.same.contains, contains_iff_of_holds filing.relinks.holds_of_ne,
    isWrapped.contains_iff orderly spare unattached.issued]
  rwa [linked_contains orderly spare isWrapped unattached.issued filing.issued_list]

theorem get?_outside (notBelow : ¬ after.Contains linked id) :
    after.get? id = (before.get? id).map fun node =>
      { node with
        kind := if id = list then
          .list holds (elements.take position ++ linked :: elements.drop position).toArray
          else node.kind } := by
  have notLinked : id ≠ linked := by
    rintro rfl
    exact notBelow .refl
  have notNew : id ≠ new := by
    rintro rfl
    exact notBelow ((filing.contains_iff wellFormed unattached outside).mpr (.inr .refl))
  rw [filing.attached.same.contains] at notBelow
  rw [filing.attached.others notBelow, filing.written.nodes,
    filing.get?_old unattached notLinked notNew]
  congr 1
  funext node
  simp [Node.relink, notLinked]

theorem holds_before {holder child : NodeId} (holdsChild : after.Holds holder child) :
    before.Holds holder child ∨ after.Contains linked child := by
  by_cases below : after.Contains linked holder
  · exact .inr (below.tail holdsChild)
  by_cases isList : holder = list
  · rw [isList, Holds, held_eq_of_kindAt (filing.kindAt_list unattached), Kind.owned] at holdsChild
    rw [isList, Holds, held_eq_of_kindAt filing.known, Kind.owned,
      ← List.take_append_drop position elements]
    simp only [List.mem_append, List.mem_cons] at holdsChild ⊢
    rcases holdsChild with left | rfl | right
    · exact .inl (.inl left)
    · exact .inr .refl
    · exact .inl (.inr right)
  · have same := filing.get?_outside wellFormed unattached outside below
    rw [Holds, held, kindAt, same] at holdsChild
    exact .inl (by simpa [isList, Holds, held, kindAt, Function.comp_def] using holdsChild)

theorem get?_moved (below : before.Contains new id) :
    after.get? id = (before.get? id).map fun node =>
      { node with
        context := after.contextOf id
        parent? := if id = new then after.parentOf new else node.parent? } := by
  have notList : id ≠ list := by
    rintro rfl
    exact outside below
  have issued : (before.get? id).isSome := by
    by_cases isNew : id = new
    · exact isNew ▸ unattached.issued
    · obtain ⟨holder, named, _⟩ :=
        wellFormed.orderly.forest.parent_of_contains trivial below isNew
      obtain ⟨node, found, _⟩ := get?_of_parentOf named
      simp [found]
  have named := filing.parentOf_linked
  rw [filing.get?_eq id]
  rcases asElement_cases unattached.issued filing.element with
    ⟨_, rfl, rfl⟩ | ⟨wraps, rfl, _, others⟩
  · congr 1
    funext node
    simp [notList, named]
  · have parentOf_new := filing.parentOf_wrapped unattached wraps
    have old : id ≠ before.nextId := by
      rintro rfl
      simp [get?_nextId] at issued
    rw [others id old, Option.map_map]
    congr 1
    funext node
    by_cases isNew : id = new
    · subst isNew
      simp [notList, old, parentOf_new]
    · simp [isNew, notList, old]

end Nodes

/-- What was filed stands where the call aimed, and nothing else changed. -/
theorem filed (filing : Filing before wrapped relinked after list holds elements position new linked)
    (wellFormed : WellFormed before) (unattached : before.Unattached new)
    (outside : ¬ before.Contains new list) (wellFormedAfter : WellFormed after) :
    before.Filed list holds elements position new linked after := by
  have orderlyAfter := wellFormedAfter.orderly
  have named := filing.parentOf_linked
  have holdsLinked := (wellFormedAfter.parent_iff list linked).mpr named
  have notBelow := orderlyAfter.forest.not_contains_holder trivial holdsLinked
  have roots := (filing.lengthened wellFormed unattached).roots
  have came : ∀ {holder child}, after.Holds holder child →
      before.Holds holder child ∨ after.Contains linked child :=
    filing.holds_before wellFormed unattached outside
  have reachable : ∀ id, after.Reachable id ↔
      before.Reachable id ∨ (before.Reachable list ∧ after.Contains linked id) := fun _ =>
    reachable_iff_of_came orderlyAfter.forest named roots wellFormedAfter.roots_free came
      (filing.holds_after wellFormed unattached)
  have contains : ∀ id, after.Contains linked id ↔ id = linked ∨ before.Contains new id :=
    fun _ => filing.contains_iff wellFormed unattached outside
  refine ⟨?_, named, ?_, ?_, contains, ?_, ?_, ?_, ?_, ?_, ?_⟩
  · rw [filing.get?_outside wellFormed unattached outside notBelow]
    simp
  · intro plain
    rcases asElement_cases unattached.issued filing.element with ⟨_, same, _⟩ | ⟨wraps, _⟩
    · exact same
    · exact absurd wraps plain
  · intro wraps
    rcases asElement_cases unattached.issued filing.element with
      ⟨plain, _⟩ | ⟨_, isNext, ⟨wrapper, found, isWrapper⟩, _⟩
    · exact absurd wraps plain
    · have different : linked ≠ list := by
        rintro rfl
        exact notBelow .refl
      refine ⟨isNext, filing.parentOf_wrapped unattached wraps,
        { wrapper with parent? := some list, context := after.contextOf linked }, ?_,
        isWrapper.kind, isWrapper.pragmas, isWrapper.location⟩
      simp [filing.get?_eq, found, different]
  · exact fun id => filing.get?_moved wellFormed unattached outside
  · intro lit id found below
    have here := (reachable id).mpr (.inr ⟨lit, below⟩)
    exact ⟨wellFormedAfter.enclosing_symbol id found here,
      wellFormedAfter.enclosing_scope id found here⟩
  · intro dark id below
    exact wellFormedAfter.no_context id fun here => dark (reachable_list_of_below
      orderlyAfter.forest named roots wellFormedAfter.roots_free came here below)
  · intro id category
    rw [wellFormedAfter.indexed_iff, wellFormed.indexed_iff, reachable, or_and_right, and_assoc]
    refine or_congr_left (and_congr_right fun here => ?_)
    rw [filing.category_eq wellFormed unattached (wellFormed.orderly.issued_of_reachable here)]
  · intro id notList notBelow
    rw [filing.get?_outside wellFormed unattached outside notBelow]
    simp [notList]
  · rw [filing.attached.same.rest, filing.written.rest]
    cases filing.isWrapped unattached with
    | bare => rfl
    | wrapped grown => rw [grown.rest]

end Edit.Filing

theorem Edit.exists_filing (issued : (before.get? new).isSome)
    (known : before.kindAt list = some (.list holds elements.toArray))
    (inBounds : position ≤ elements.length)
    (run : Yields (insertElement list position new) before linked after) :
    ∃ wrapped relinked,
      Filing before wrapped relinked after list holds elements position new linked := by
  obtain ⟨_, _, wrapped, relinked, context, knownAgain, _, wrapping, issuedLinked, isRelinked,
    _, attached⟩ := exists_written_insertElement run
  obtain ⟨rfl, rfl⟩ := Kind.list.inj (Option.some.inj (known.symm.trans knownAgain))
  have knownWrapped := (Edit.wrapped wrapping issued).kindAt known
  have written : Written wrapped list _ [] [linked] _ := written_insert position knownWrapped
  rw [Kind.insertIdxIfInBounds_eq _ inBounds, ← isRelinked] at written
  have relinks := relinked_insert knownWrapped inBounds issuedLinked
  rw [← isRelinked] at relinks
  exact ⟨wrapped, relinked, known, wrapping, written, relinks,
    attachedBelow (yields_attach.mp attached)⟩

theorem Edit.filed_insertElement (wellFormed : WellFormed before)
    (unattached : before.Unattached new)
    (known : before.kindAt list = some (.list holds elements.toArray))
    (inBounds : position ≤ elements.length) (outside : ¬ before.Contains new list)
    (run : Yields (insertElement list position new) before linked after) :
    before.Filed list holds elements position new linked after := by
  obtain ⟨wrapped, relinked, filing⟩ := exists_filing unattached.issued known inBounds run
  have orderlyAfter := wellFormed.orderly.insert trivial (unattached.spare List.not_mem_nil)
    unattached.issued (inserted unattached.issued run)
  exact filing.filed wellFormed unattached outside (wellFormed_iff_orderly.mpr orderlyAfter)

/-! ## Calls -/

section Calls

variable (wellFormed : WellFormed before)
  (single : (before.kindAt new).map Kind.isList = some false)
include wellFormed single

/-- A free-standing node is filed where the call aims. -/
theorem Insertion.Aims.exists_filed {call : Insertion} (aims : call.Aims before list holds elements position)
    (unattached : before.Unattached new) (outside : ¬ before.Contains new list) :
    ∃ linked after, Yields (call.run new) before linked after ∧
      before.Filed list holds elements position new linked after := by
  obtain ⟨linked, after, inserting, _⟩ := exists_insertElement wellFormed.orderly aims.known
    aims.inBounds unattached List.not_mem_nil outside
  have filed := filed_insertElement wellFormed unattached aims.known aims.inBounds outside inserting
  refine ⟨linked, after, ?_, filed⟩
  exact (aims.run_eq wellFormed new).trans
    ((spliceWithin_of_single _ _ _ unattached single).trans inserting)

/-- A node that is held or in the tree is refused, wherever the call aims. -/
theorem Insertion.Aims.unattached {call : Insertion} (aims : call.Aims before list holds elements position)
    (run : Yields (call.run new) before linked after) : before.Unattached new := by
  by_contra attached
  obtain ⟨kind, known, _⟩ := Option.map_eq_some_iff.mp single
  obtain ⟨cause, refused⟩ :=
    checkInsertable_refuses wellFormed (get?_isSome_of_kindAt known) attached
  have splicing : spliceWithin (before.nodes.size + 1) list position new before =
      .error (.defect (before.defect new cause)) := run_bind_of_error refused
  have stops := (aims.run_eq wellFormed new).trans splicing
  rw [Yields, stops] at run
  simp at run

/-- **Insertion of a single node.** The call fails when it is misplaced or the node is not
free-standing, and only then; otherwise the node is filed where the call aims. -/
theorem fails_iff_and_filed (call : Insertion)
    (outside : ∀ list holds elements position, call.Aims before list holds elements position →
      ¬ before.Contains new list) :
    ((∃ fault, call.run new before = .error fault) ↔
      call.Misplaced before ∨ before.Reachable new ∨ (before.parentOf new).isSome) ∧
    ∀ list holds elements position, call.Aims before list holds elements position →
      ¬ before.Reachable new → before.parentOf new = none →
        ∃ linked after, Yields (call.run new) before linked after ∧
          before.Filed list holds elements position new linked after := by
  have attached_iff : before.Unattached new ↔
      ¬ before.Reachable new ∧ before.parentOf new = none := by
    obtain ⟨kind, known, _⟩ := Option.map_eq_some_iff.mp single
    obtain ⟨node, found, _⟩ := get?_of_kindAt known
    rw [← wellFormed.orderly.isPlaced_iff trivial]
    exact ⟨fun unattached => ⟨unattached.notPlaced, unattached.free⟩,
      fun ⟨notPlaced, free⟩ => ⟨by simp [found], free, notPlaced⟩⟩
  have files : ∀ {list holds elements position}, call.Aims before list holds elements position →
      ¬ before.Reachable new → before.parentOf new = none →
        ∃ linked after, Yields (call.run new) before linked after ∧
          before.Filed list holds elements position new linked after :=
    fun aims notReachable free => aims.exists_filed wellFormed single
      (attached_iff.mpr ⟨notReachable, free⟩) (outside _ _ _ _ aims)
  refine ⟨?_, fun _ _ _ _ => files⟩
  rw [fails_iff]
  constructor
  · intro fails
    by_contra passes
    simp only [not_or, Option.not_isSome_iff_eq_none] at passes
    obtain ⟨wellPlaced, notReachable, free⟩ := passes
    obtain ⟨list, holds, elements, position, aims⟩ :=
      Insertion.exists_aims wellFormed wellPlaced
    obtain ⟨linked, after, run, _⟩ := files aims notReachable free
    exact fails linked after run
  · intro refused linked after run
    have wellPlaced := Insertion.not_misplaced wellFormed run
    obtain ⟨list, holds, elements, position, aims⟩ :=
      Insertion.exists_aims wellFormed wellPlaced
    obtain ⟨notReachable, free⟩ := attached_iff.mp (aims.unattached wellFormed single run)
    rcases refused with misplaced | reachable | held
    · exact wellPlaced misplaced
    · exact notReachable reachable
    · simp [free] at held

end Calls

/-! ## A literal among statements -/

/-- A literal, a list of statements, and a parser that goes on elsewhere. -/
def literalWhileParsing : List Call :=
  [.build (.literal (.int 1)), .build (.list .stmts []),
    .attribution {} (some ⟨"input", 7⟩) none none]

theorem exists_literalWhileParsing :
    ∃ before, afterCalls literalWhileParsing (empty {}) = some before ∧ WellFormed before ∧
      before.kindAt ⟨13⟩ = some (.expr (.literal (.int 1))) ∧
      before.kindAt ⟨14⟩ = some (.list .stmts [].toArray) ∧
      ¬ before.Contains ⟨13⟩ ⟨14⟩ ∧ ¬ before.Reachable ⟨13⟩ ∧ before.parentOf ⟨13⟩ = none ∧
      before.lexerLocation? = some ⟨"input", 7⟩ ∧ before.locationOf ⟨13⟩ = .unknown := by
  have ends : ((afterCalls literalWhileParsing (empty {})).any fun before =>
      before.kindAt ⟨13⟩ = some (.expr (.literal (.int 1))) ∧
      before.kindAt ⟨14⟩ = some (.list .stmts [].toArray) ∧ before.held ⟨13⟩ = [] ∧
      before.roots = #[] ∧ before.parentOf ⟨13⟩ = none ∧
      before.lexerLocation? = some ⟨"input", 7⟩ ∧ before.locationOf ⟨13⟩ = .unknown) = true := by
    decide +kernel
  obtain ⟨before, made, found⟩ := (Option.any_eq_true _ _).mp ends
  obtain ⟨literal, list, leaf, noRoots, free, parser, place⟩ := of_decide_eq_true found
  have wellFormed : WellFormed before := by
    refine wellFormed_of_reached (reached_of_afterCalls ?_ (.fresh {}) made)
    simp [literalWhileParsing, Call.TakesOver, Builder.TakesOver]
  refine ⟨before, made, wellFormed, literal, list, fun inside => ?_, ?_, free, parser, place⟩
  · rcases inside.cases_head with same | ⟨child, holds, _⟩
    · simp at same
    · simp [Holds, leaf] at holds
  · rintro ⟨root, member, _⟩
    simp [noRoots] at member

theorem fails_iff_and_filed_literal :
    ∃ before, afterCalls literalWhileParsing (empty {}) = some before ∧ WellFormed before ∧
      ∃ linked after, Yields (insertAtTail ⟨14⟩ ⟨13⟩) before linked after ∧
        before.Filed ⟨14⟩ .stmts [] 0 ⟨13⟩ linked after := by
  obtain ⟨before, made, wellFormed, literal, list, outside, notReachable, free, _⟩ :=
    exists_literalWhileParsing
  have single : (before.kindAt ⟨13⟩).map Kind.isList = some false := by rw [literal]; rfl
  obtain ⟨_, files⟩ := fails_iff_and_filed wellFormed single (.atEnd .tail ⟨14⟩)
    (by
      rintro _ _ _ _ ⟨⟩
      exact outside)
  exact ⟨before, made, wellFormed, files ⟨14⟩ .stmts [] 0 (.tail list) notReachable free⟩

/-- The statement is not where the literal is: it is where the parser is. -/
theorem not_forall_wrapper_at_operand :
    ¬ ∀ (before after : Program) (call : Insertion) (new list linked : NodeId)
        (elements : List NodeId) (position : Nat),
        WellFormed before → (before.kindAt new).any Kind.isExpr →
        ¬ before.Reachable new → before.parentOf new = none → ¬ before.Contains new list →
        call.Aims before list .stmts elements position →
        Yields (call.run new) before linked after →
        after.locationOf linked = before.locationOf new := by
  intro atOperand
  obtain ⟨before, _, wellFormed, literal, list, outside, notReachable, free, parser, place⟩ :=
    exists_literalWhileParsing
  have single : (before.kindAt ⟨13⟩).map Kind.isList = some false := by rw [literal]; rfl
  have isExpr : (before.kindAt ⟨13⟩).any Kind.isExpr := by rw [literal]; rfl
  have aims : Insertion.Aims before ⟨14⟩ .stmts [] (.atEnd .tail ⟨14⟩) 0 := .tail list
  have unattached : before.Unattached ⟨13⟩ := by
    obtain ⟨node, found, _⟩ := get?_of_kindAt literal
    refine ⟨by simp [found], free, fun placed => notReachable ?_⟩
    exact (wellFormed.orderly.isPlaced_iff trivial).mp placed
  obtain ⟨linked, after, run, filed⟩ :=
    aims.exists_filed wellFormed single unattached outside
  obtain ⟨_, _, wrapper, found, isWrapper⟩ := filed.wrapped ⟨rfl, isExpr⟩
  have here := atOperand before after _ ⟨13⟩ ⟨14⟩ linked [] 0 wellFormed isExpr notReachable free
    outside aims run
  rw [place, locationOf, found] at here
  simp [isWrapper.location, parser, Location.unknown] at here

end ProgramTree
