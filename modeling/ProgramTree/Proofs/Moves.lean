import ProgramTree.Edit.Placement
import ProgramTree.Proofs.Growth

/-!
# What moves a node

Removal, replacement and insertion, taken apart: each relinks one holder and then
detaches what went out and attaches what came in.
-/

namespace ProgramTree

open Program

variable {before between after : Program} {id holder parent old new list answer : NodeId}

/-! ## Writes that relink -/

theorem Program.get?_modifyNode_map {change : Node → Node} :
    (before.modifyNode holder change).get? id =
      (before.get? id).map fun node => if holder = id then change node else node := by
  rw [get?_modifyNode]
  by_cases same : holder = id <;> simp [same]

/-- A node after `holder` got a new kind, `gone` lost their parent and `came` got one. -/
def Node.relink (holder : NodeId) (kind : Kind) (gone came : List NodeId) (id : NodeId)
    (node : Node) : Node :=
  { node with
    kind := if id = holder then kind else node.kind
    parent? := if id ∈ came then some holder else if id ∈ gone then none else node.parent? }

/-- The writes to `holder` and to the parents so far. -/
structure Written (before : Program) (holder : NodeId) (kind : Kind) (gone came : List NodeId)
    (after : Program) : Prop where
  nodes : ∀ id, after.get? id = (before.get? id).map (Node.relink holder kind gone came id)
  rest : after = { before with nodes := after.nodes }

namespace Written

variable {kind : Kind} {gone came stale : List NodeId} {node : Node}

theorem start (kind : Kind) (change : Node → Node) (found : before.get? holder = some node)
    (changed : change node = { node with kind }) :
    Written before holder kind [] [] (before.modifyNode holder change) where
  nodes id := by
    rw [get?_modifyNode_map]
    by_cases isHolder : holder = id
    · subst isHolder
      simp [found, changed, Node.relink]
    · cases before.get? id <;> simp [isHolder, Ne.symm isHolder, Node.relink]
  rest := modifyNode_rest

theorem release (written : Written before holder kind gone came after) (id : NodeId)
    (notCame : id ∉ came) :
    Written before holder kind (id :: gone) came
      (after.modifyNode id fun node => { node with parent? := none }) where
  nodes other := by
    rw [get?_modifyNode_map, written.nodes, Option.map_map]
    by_cases same : id = other
    · subst same
      cases before.get? id <;> simp [Node.relink, notCame]
    · cases before.get? other <;> simp [Node.relink, same, Ne.symm same]
  rest := by rw [modifyNode_rest, written.rest]

theorem claim (written : Written before holder kind gone came after) (id : NodeId) :
    Written before holder kind gone (id :: came)
      (after.modifyNode id fun node => { node with parent? := some holder }) where
  nodes other := by
    rw [get?_modifyNode_map, written.nodes, Option.map_map]
    by_cases same : id = other
    · subst same
      cases before.get? id <;> simp [Node.relink]
    · cases before.get? other <;> simp [Node.relink, same, Ne.symm same]
  rest := by rw [modifyNode_rest, written.rest]

theorem relinked (written : Written before holder kind gone came after)
    (found : before.get? holder = some node)
    (splices : node.kind.Splices (gone ++ stale) came kind)
    (issued : ∀ id ∈ came, (before.get? id).isSome) :
    Relinked before holder (gone ++ stale) came stale after where
  spliced := by
    refine ⟨node.kind, kind, kindAt_eq found, ?_, splices⟩
    simp [kindAt, written.nodes, found, Node.relink]
  kinds {id} different := by
    rw [kindAt, written.nodes, Option.map_map, kindAt]
    simp [Function.comp_def, Node.relink, different]
  parent_into {id} member := by
    obtain ⟨child, foundChild⟩ := Option.isSome_iff_exists.mp (issued id member)
    simp [parentOf, written.nodes, foundChild, Node.relink, member]
  parent_out {id} member notCame notStale := by
    have isGone : id ∈ gone := by simpa [notStale] using member
    cases foundChild : before.get? id with
    | none => simp [parentOf, written.nodes, foundChild]
    | some child => simp [parentOf, written.nodes, foundChild, Node.relink, notCame, isGone]
  parents {id} kept notCame := by
    rw [List.mem_append, not_or] at kept
    cases foundChild : before.get? id with
    | none => simp [parentOf, written.nodes, foundChild]
    | some child => simp [parentOf, written.nodes, foundChild, Node.relink, notCame, kept.1]
  contexts id := by
    rw [contextOf, written.nodes, Option.map_map, contextOf]
    simp [Function.comp_def, Node.relink]
  rest := written.rest

end Written

namespace Edit

/-! ## Queries in front of the writes -/

theorem positionIn_eq_ok {position : Nat} :
    before.positionIn list id = .ok position ↔
      ∃ holds elements, before.kindAt list = some (.list holds elements) ∧
        elements.idxOf? id = some position := by
  simp only [positionIn, Fault.bind_eq_ok, elements_eq_ok]
  constructor
  · rintro ⟨elements, ⟨holds, known⟩, found⟩
    refine ⟨holds, elements, known, ?_⟩
    cases place : elements.idxOf? id with
    | none => simp [place, Program.fail] at found
    | some position' => simpa [place, Fault.pure_eq_ok] using found
  · rintro ⟨holds, elements, known, found⟩
    exact ⟨elements, ⟨holds, known⟩, by simp [found, Fault.pure_eq_ok]⟩

theorem getElem?_of_idxOf? {elements : Array NodeId} {position : Nat}
    (found : elements.idxOf? id = some position) : elements.toList[position]? = some id := by
  obtain ⟨items⟩ := elements
  rw [List.idxOf?_toArray] at found
  obtain ⟨inBounds, here, _⟩ := List.idxOf?_eq_some_iff.mp found
  exact List.getElem?_eq_some_iff.mpr ⟨inBounds, here⟩

theorem idxOf?_of_absent {left right : List NodeId} (absent : id ∉ left) :
    (left ++ id :: right).toArray.idxOf? id = some left.length := by
  rw [List.idxOf?_toArray, List.idxOf?_eq_some_iff]
  refine ⟨by simp, by simp, fun place before => ?_⟩
  rw [List.getElem_append_left before]
  exact fun same => absent (same ▸ List.getElem_mem before)

theorem yields_setParent {parent? : Option NodeId} {done : Unit} :
    Yields (setParent id parent?) before done after ↔
      (before.get? id).isSome ∧
        after = before.modifyNode id fun node => { node with parent? } :=
  yields_change

theorem yields_changeElements {f : Array NodeId → Array NodeId} {done : Unit} :
    Yields (changeElements list f) before done after ↔
      (∃ holds elements, before.kindAt list = some (.list holds elements)) ∧
        after = before.modifyNode list fun node =>
          { node with kind := node.kind.mapElements f } := by
  simp only [changeElements, yields_bind, yields_look, yields_change, list_eq_ok]
  constructor
  · rintro ⟨⟨holds, elements⟩, _, ⟨known, rfl⟩, _, rfl⟩
    exact ⟨⟨holds, elements, known⟩, rfl⟩
  · rintro ⟨⟨holds, elements, known⟩, rfl⟩
    obtain ⟨node, found, _⟩ := get?_of_kindAt known
    exact ⟨(holds, elements), before, ⟨known, rfl⟩, by simp [found], rfl⟩

theorem yields_checkInsertable {done : Unit} :
    Yields (checkInsertable id) before done after ↔
      after = before ∧ (before.get? id).isSome ∧ before.parentOf id = none ∧
        ¬ before.IsPlaced id := by
  simp only [checkInsertable, yields_bind, yields_look, node_eq_ok, yields_ite, yields_fail,
    inTree_eq_ok]
  constructor
  · rintro ⟨node, _, ⟨found, rfl⟩, placed, _, ⟨⟨issued, agrees⟩, rfl⟩, run⟩
    rcases run with ⟨_, _, _, never, _⟩ | ⟨passed, run⟩
    · exact never.elim
    · cases named : node.parent? with
      | none =>
        simp only [named, yields_pure] at run
        refine ⟨run.2, issued, by rw [parentOf_eq found, named], ?_⟩
        rw [← agrees]
        exact passed
      | some parent =>
        simp only [named, yields_bind, yields_look, yields_ite, yields_fail] at run
        obtain ⟨_, _, _, ⟨_, never⟩ | ⟨_, never⟩⟩ := run
        all_goals exact never.elim
  · rintro ⟨rfl, issued, free, notPlaced⟩
    obtain ⟨node, found⟩ := Option.isSome_iff_exists.mp issued
    refine ⟨node, _, ⟨found, rfl⟩, false, _, ⟨⟨issued, by simpa using notPlaced⟩, rfl⟩, .inr ?_⟩
    rw [parentOf_eq found] at free
    simp [free, yields_pure]

/-- A parent that is no list does not count. -/
theorem listParent_eq_ok {list? : Option NodeId} :
    before.listParent id = .ok list? ↔
      (before.get? id).isSome ∧ (before.parentOf id = none ∧ list? = none ∨
        ∃ parent, before.parentOf id = some parent ∧ ∃ isList,
          (before.kindAt parent).map Kind.isList = some isList ∧
            list? = if isList then some parent else none) := by
  simp only [listParent, Fault.bind_eq_ok, node_eq_ok]
  constructor
  · rintro ⟨node, found, looked⟩
    rw [parentOf_eq found]
    refine ⟨by simp [found], ?_⟩
    cases named : node.parent? with
    | none =>
      simp only [named, Fault.pure_eq_ok] at looked
      exact .inl ⟨rfl, looked.symm⟩
    | some parent =>
      simp only [named, Fault.bind_eq_ok, Fault.pure_eq_ok, isList_eq_ok] at looked
      obtain ⟨isList, known, looked⟩ := looked
      exact .inr ⟨parent, rfl, isList, known, looked.symm⟩
  · rintro ⟨issued, looked⟩
    obtain ⟨node, found⟩ := Option.isSome_iff_exists.mp issued
    rw [parentOf_eq found] at looked
    refine ⟨node, found, ?_⟩
    rcases looked with ⟨free, rfl⟩ | ⟨parent, named, isList, known, rfl⟩
    · simp only [free, Fault.pure_eq_ok]
    · simp only [named, Fault.bind_eq_ok, Fault.pure_eq_ok, isList_eq_ok]
      exact ⟨isList, known, rfl⟩

theorem parentOf_of_listParent (found : before.listParent id = .ok (some list)) :
    before.parentOf id = some list := by
  obtain ⟨_, ⟨_, never⟩ | ⟨parent, named, isList, _, looked⟩⟩ := listParent_eq_ok.mp found
  · cases never
  · cases isList with
    | true => exact looked ▸ named
    | false => cases looked

theorem listParent_of_list {holds : ListCategory} {elements : Array NodeId}
    (known : before.kindAt list = some (.list holds elements))
    (named : before.parentOf id = some list) : before.listParent id = .ok (some list) := by
  obtain ⟨node, found, _⟩ := get?_of_parentOf named
  exact listParent_eq_ok.mpr
    ⟨by simp [found], .inr ⟨list, named, true, by rw [known]; rfl, rfl⟩⟩

/-- The list an anchor is found in is its parent. -/
theorem parentOf_anchor {side : Side} {anchor : NodeId} {position : Nat}
    (found : before.anchorPosition side anchor = .ok (list, position)) :
    before.parentOf anchor = some list := by
  simp only [anchorPosition, Fault.bind_eq_ok, Fault.ite_eq_ok] at found
  obtain ⟨_, _, ⟨_, _, never, _⟩ | ⟨_, holder?, isHolder, found⟩⟩ := found
  · simp [Program.fail] at never
  · cases holder? with
    | none => simp [Program.fail] at found
    | some holder =>
      simp only [Fault.bind_eq_ok, Fault.pure_eq_ok, Prod.mk.injEq] at found
      obtain ⟨_, _, rfl, _⟩ := found
      exact parentOf_of_listParent isHolder

theorem positionIn_anchor {side : Side} {anchor : NodeId} {position : Nat}
    (found : before.anchorPosition side anchor = .ok (list, position)) :
    before.positionIn list anchor = .ok position := by
  simp only [anchorPosition, Fault.bind_eq_ok, Fault.ite_eq_ok] at found
  obtain ⟨_, _, ⟨_, _, never, _⟩ | ⟨_, holder?, _, found⟩⟩ := found
  · simp [Program.fail] at never
  · cases holder? with
    | none => simp [Program.fail] at found
    | some holder =>
      simp only [Fault.bind_eq_ok, Fault.pure_eq_ok, Prod.mk.injEq] at found
      obtain ⟨_, isPosition, rfl, rfl⟩ := found
      exact isPosition

/-! ## Removal -/

/-- Rebinding a slot writes the holder and the parents of the two nodes. -/
theorem exists_written_rebindSlot {new? : Option NodeId}
    (run : Yields (rebindSlot parent old new?) before () after) :
    ∃ node kind, before.get? parent = some node ∧ node.kind.Splices [old] new?.toList kind ∧
      (∀ id ∈ new?.toList, (before.get? id).isSome) ∧
      Written before parent kind [old] new?.toList after := by
  simp only [rebindSlot, yields_bind, yields_look, yields_ite, yields_fail, kindOf_eq_ok] at run
  obtain ⟨kind, _, ⟨known, rfl⟩, run⟩ := run
  rcases run with ⟨_, _, _, never, _⟩ | ⟨_, run⟩
  · exact never.elim
  · obtain ⟨node, found, rfl⟩ := get?_of_kindAt known
    cases rebound : node.kind.rebind old new? with
    | missing =>
      simp only [rebound, yields_bind, yields_fail] at run
      obtain ⟨_, _, never, _⟩ := run
      exact never.elim
    | required =>
      simp only [rebound, yields_bind, yields_fail] at run
      obtain ⟨_, _, never, _⟩ := run
      exact never.elim
    | done kind =>
      have splices := Kind.rebind_splices rebound
      simp only [rebound, yields_bind, setKind, yields_change, yields_setParent] at run
      obtain ⟨_, _, ⟨_, rfl⟩, _, _, ⟨_, rfl⟩, run⟩ := run
      have written := (Written.start kind (fun node => { node with kind }) found rfl).release old
        (by simp)
      cases new? with
      | none =>
        obtain ⟨_, rfl⟩ := yields_pure.mp run
        exact ⟨node, kind, found, splices, by simp, written⟩
      | some new =>
        obtain ⟨issued, rfl⟩ := yields_setParent.mp run
        refine ⟨node, kind, found, splices, ?_, written.claim new⟩
        simpa [get?_modifyNode_map] using issued

/-- Taking an element out of a list, with the parent that it loses, writes these two nodes. -/
theorem written_erase {holds : ListCategory} {elements : Array NodeId} (position : Nat)
    (known : before.kindAt list = some (.list holds elements)) :
    Written before list (.list holds (elements.eraseIdxIfInBounds position)) [id] []
      ((before.modifyNode list fun node =>
        { node with kind := node.kind.mapElements (·.eraseIdxIfInBounds position) }).modifyNode id
          fun node => { node with parent? := none }) := by
  obtain ⟨node, found, isList⟩ := get?_of_kindAt known
  exact (Written.start (.list holds (elements.eraseIdxIfInBounds position))
    (fun node => { node with kind := node.kind.mapElements (·.eraseIdxIfInBounds position) })
    found (by rw [isList]; rfl)).release id (by simp)

/-- Taking an element out of a list, with the parent that it loses, relinks the list. -/
theorem relinked_erase {holds : ListCategory} {elements : Array NodeId} {position : Nat}
    (known : before.kindAt list = some (.list holds elements))
    (place : elements.idxOf? id = some position) :
    Relinked before list [id] [] [] ((before.modifyNode list fun node =>
      { node with kind := node.kind.mapElements (·.eraseIdxIfInBounds position) }).modifyNode id
        fun node => { node with parent? := none }) := by
  obtain ⟨node, found, isList⟩ := get?_of_kindAt known
  refine (written_erase position known).relinked found ?_ (by simp)
  rw [isList]
  exact Kind.erase_splices (getElem?_of_idxOf? place)

/-- A node was taken from its place, but has its context and index entry still. -/
inductive Taken (before : Program) (id : NodeId) : Program → Prop where
  | held {parent : NodeId} {after : Program}
      (named : before.parentOf id = some parent)
      (relinked : Relinked before parent [id] [] [] after) : Taken before id after
  | free (named : before.parentOf id = none) :
      Taken before id { before with roots := before.roots.filter (· ≠ id) }

/-- What a removal from a holder writes before it detaches the node. -/
theorem exists_written_remove (named : before.parentOf id = some parent)
    (run : Yields (remove id) before answer after) :
    answer = id ∧ ∃ node kind between, before.get? parent = some node ∧
      node.kind.Splices [id] [] kind ∧ Written before parent kind [id] [] between ∧
      Yields (detach id) between () after := by
  simp only [remove, yields_bind, yields_look, node_eq_ok] at run
  obtain ⟨node, _, ⟨found, rfl⟩, run⟩ := run
  rw [← parentOf_eq found] at run
  simp only [named, yields_bind, yields_look, yields_ite, yields_pure, isList_eq_ok,
    positionIn_eq_ok, yields_changeElements, yields_setParent] at run
  obtain ⟨_, _, ⟨_, rfl⟩, run⟩ := run
  rcases run with
    ⟨_, position, _, ⟨⟨holds, elements, known, place⟩, rfl⟩, _, _, ⟨_, rfl⟩, _, _, ⟨_, rfl⟩,
      _, _, detached, rfl, rfl⟩ |
    ⟨_, _, _, rebinding, _, _, detached, rfl, rfl⟩
  · obtain ⟨list, foundList, isList⟩ := get?_of_kindAt known
    refine ⟨rfl, list, _, _, foundList, ?_, written_erase position known, detached⟩
    rw [isList]
    exact Kind.erase_splices (getElem?_of_idxOf? place)
  · obtain ⟨holder, kind, foundHolder, splices, _, written⟩ := exists_written_rebindSlot rebinding
    exact ⟨rfl, holder, kind, _, foundHolder, splices, written, detached⟩

theorem taken (run : Yields (remove id) before answer after) :
    answer = id ∧ ∃ between, Taken before id between ∧ Yields (detach id) between () after := by
  cases named : before.parentOf id with
  | none =>
    simp only [remove, yields_bind, yields_look, node_eq_ok] at run
    obtain ⟨node, _, ⟨found, rfl⟩, run⟩ := run
    rw [← parentOf_eq found, named] at run
    simp only [yields_bind, yields_modify, yields_pure] at run
    obtain ⟨_, _, rfl, _, final, detached, rfl, rfl⟩ := run
    exact ⟨rfl, _, .free named, detached⟩
  | some parent =>
    obtain ⟨rfl, node, kind, between, found, splices, written, detached⟩ :=
      exists_written_remove named run
    exact ⟨rfl, between, .held named (written.relinked found splices (by simp)), detached⟩

/-! ## Replacement -/

/-- Setting an element of a list, with the parents that follow, writes these three nodes. -/
theorem written_set {holds : ListCategory} {elements : Array NodeId} (position : Nat)
    (known : before.kindAt list = some (.list holds elements)) :
    Written before list (.list holds (elements.setIfInBounds position new)) [old] [new]
      (((before.modifyNode list fun node =>
        { node with kind := node.kind.mapElements (·.setIfInBounds position new) }).modifyNode old
          fun node => { node with parent? := none }).modifyNode new
            fun node => { node with parent? := some list }) := by
  obtain ⟨node, found, isList⟩ := get?_of_kindAt known
  exact ((Written.start (.list holds (elements.setIfInBounds position new))
    (fun node => { node with kind := node.kind.mapElements (·.setIfInBounds position new) })
    found (by rw [isList]; rfl)).release old (by simp)).claim new

/-- Setting an element of a list, with the parents that follow, relinks the list. -/
theorem relinked_set {holds : ListCategory} {elements : Array NodeId} {position : Nat}
    (known : before.kindAt list = some (.list holds elements))
    (place : elements.idxOf? old = some position) (issued : (before.get? new).isSome) :
    Relinked before list [old] [new] [] (((before.modifyNode list fun node =>
      { node with kind := node.kind.mapElements (·.setIfInBounds position new) }).modifyNode old
        fun node => { node with parent? := none }).modifyNode new
          fun node => { node with parent? := some list }) := by
  obtain ⟨node, found, isList⟩ := get?_of_kindAt known
  refine (written_set position known).relinked found ?_ (by simpa using issued)
  rw [isList]
  exact Kind.set_splices (getElem?_of_idxOf? place)

/-- What a replacement does, step by step. -/
structure Replaced (before : Program) (old new : NodeId) (after : Program) : Prop where
  issued : (before.get? new).isSome
  free : before.parentOf new = none
  notPlaced : ¬ before.IsPlaced new
  steps : ∃ parent relinked detached, before.parentOf old = some parent ∧
    Relinked before parent [old] [new] [] relinked ∧
    Yields (detach old) relinked () detached ∧
    Yields (attach new (before.contextOf old)) detached () after

/-- What a replacement writes before it detaches one node and attaches the other. -/
theorem exists_written_replace (run : Yields (replace old new) before answer after) :
    answer = new ∧ (before.get? new).isSome ∧ before.parentOf new = none ∧
      ¬ before.IsPlaced new ∧ ∃ parent node kind between detached,
        before.parentOf old = some parent ∧ before.get? parent = some node ∧
        node.kind.Splices [old] [new] kind ∧ Written before parent kind [old] [new] between ∧
        Yields (detach old) between () detached ∧
        Yields (attach new (before.contextOf old)) detached () after := by
  simp only [replace, yields_bind, yields_look, yields_checkInsertable, node_eq_ok] at run
  obtain ⟨_, _, ⟨rfl, issued, free, notPlaced⟩, node, _, ⟨found, rfl⟩, run⟩ := run
  cases named : node.parent? with
  | none =>
    simp only [named] at run
    exact (yields_fail run).elim
  | some parent =>
    rw [← parentOf_eq found] at named
    rw [← parentOf_eq found, ← contextOf_eq found] at run
    simp only [named, yields_bind, yields_look, yields_ite, yields_pure, isList_eq_ok,
      positionIn_eq_ok, yields_changeElements, yields_setParent] at run
    obtain ⟨_, _, ⟨_, rfl⟩, run⟩ := run
    rcases run with
      ⟨_, position, _, ⟨⟨holds, elements, known, place⟩, rfl⟩, _, _, ⟨_, rfl⟩, _, _, ⟨_, rfl⟩,
        _, _, ⟨_, rfl⟩, _, _, detached, _, _, attached, rfl, rfl⟩ |
      ⟨_, _, _, rebinding, _, _, detached, _, _, attached, rfl, rfl⟩
    · obtain ⟨list, foundList, isList⟩ := get?_of_kindAt known
      refine ⟨rfl, issued, free, notPlaced, parent, list, _, _, _, named, foundList, ?_,
        written_set position known, detached, attached⟩
      rw [isList]
      exact Kind.set_splices (getElem?_of_idxOf? place)
    · obtain ⟨holder, kind, foundHolder, splices, _, written⟩ :=
        exists_written_rebindSlot rebinding
      exact ⟨rfl, issued, free, notPlaced, parent, holder, kind, _, _, named, foundHolder, splices,
        written, detached, attached⟩

theorem replaced (run : Yields (replace old new) before answer after) :
    answer = new ∧ Replaced before old new after := by
  obtain ⟨rfl, issued, free, notPlaced, parent, node, kind, between, detached, named, found,
    splices, written, detaching, attaching⟩ := exists_written_replace run
  refine ⟨rfl, issued, free, notPlaced, parent, between, detached, named, ?_, detaching, attaching⟩
  exact written.relinked found splices (by simpa using issued)

/-! ## Insertion -/

/-- Putting a node into a list, with the parent that follows, writes these two nodes. -/
theorem written_insert {holds : ListCategory} {elements : Array NodeId} (position : Nat)
    (known : before.kindAt list = some (.list holds elements)) :
    Written before list (.list holds (elements.insertIdxIfInBounds position new)) [] [new]
      ((before.modifyNode list fun node =>
        { node with kind := node.kind.mapElements (·.insertIdxIfInBounds position new) }).modifyNode
          new fun node => { node with parent? := some list }) := by
  obtain ⟨node, found, isList⟩ := get?_of_kindAt known
  exact (Written.start (.list holds (elements.insertIdxIfInBounds position new))
    (fun node => { node with kind := node.kind.mapElements (·.insertIdxIfInBounds position new) })
    found (by rw [isList]; rfl)).claim new

/-- Putting a node into a list, with the parent that follows, relinks the list. -/
theorem relinked_insert {holds : ListCategory} {elements : Array NodeId} {position : Nat}
    (known : before.kindAt list = some (.list holds elements))
    (inBounds : position ≤ elements.size) (issued : (before.get? new).isSome) :
    Relinked before list [] [new] [] ((before.modifyNode list fun node =>
      { node with kind := node.kind.mapElements (·.insertIdxIfInBounds position new) }).modifyNode
        new fun node => { node with parent? := some list }) := by
  obtain ⟨node, found, isList⟩ := get?_of_kindAt known
  refine (written_insert position known).relinked found ?_ (by simpa using issued)
  rw [isList]
  exact Kind.insert_splices inBounds

/-- Emptying a list relinks it; its elements go on naming it as their parent. -/
theorem relinked_clear {holds : ListCategory} {elements : Array NodeId}
    (known : before.kindAt list = some (.list holds elements)) :
    Relinked before list elements.toList [] elements.toList (before.modifyNode list fun node =>
      { node with kind := node.kind.mapElements fun _ => #[] }) := by
  obtain ⟨node, found, isList⟩ := get?_of_kindAt known
  have written := Written.start (.list holds #[])
    (fun node => { node with kind := node.kind.mapElements fun _ => #[] }) found
    (by rw [isList]; rfl)
  have splices : node.kind.Splices ([] ++ elements.toList) [] (.list holds #[]) := by
    rw [isList]
    exact Kind.clear_splices
  exact written.relinked found splices (by simp)

/-- The node that is linked in: the given one, or the statement it was wrapped in. -/
inductive Wrapped (before : Program) (new : NodeId) : NodeId → Program → Prop where
  | bare : Wrapped before new new before
  | wrapped {after : Program} (grown : Grown before (.stmt (.expr new)) after) :
      Wrapped before new before.nextId after

theorem wrapped {holds : ListCategory} (run : Yields (asElement holds new) before answer after)
    (issued : (before.get? new).isSome) : Wrapped before new answer after := by
  have plain : Yields (pure new) before answer after → Wrapped before new answer after := by
    intro run
    obtain ⟨rfl, rfl⟩ := yields_pure.mp run
    exact .bare
  cases holds with
  | exprs => exact plain run
  | defs => exact plain run
  | stmts =>
    simp only [asElement, asStmt, newExprStmt, yields_bind, yields_look, yields_ite,
      yields_pure] at run
    obtain ⟨_, _, ⟨_, rfl⟩, ⟨_, _, _, created, _, _, adoption, rfl, rfl⟩ | ⟨_, rfl, rfl⟩⟩ := run
    · obtain ⟨rfl, pushed⟩ := pushed_withLocationOf created
      refine .wrapped (pushed.grown (adopted adoption) ?_)
      intro member
      obtain rfl : Program.nextId _ = new := by simpa [Kind.owned, Stmt.owned] using member
      simp [get?_nextId] at issued
    · exact .bare

theorem Wrapped.kindAt {kind : Kind} (wrapped : Wrapped before new answer after)
    (known : before.kindAt id = some kind) : after.kindAt id = some kind := by
  cases wrapped with
  | bare => exact known
  | wrapped grown =>
    rw [grown.kinds, known]
    rintro rfl
    simp [Program.kindAt, get?_nextId] at known

/-- What the insertion of one node does, step by step. -/
structure Inserted (before : Program) (list new : NodeId) (after : Program) : Prop where
  steps : ∃ linked wrapped relinked context, Wrapped before new linked wrapped ∧
    Relinked wrapped list [] [linked] [] relinked ∧
    relinked.childContext list = .ok context ∧
    Yields (attach linked context) relinked () after

/-- An insertion may wrap the node; then it writes the list and the parent, and attaches. -/
theorem exists_written_insertElement {position : Nat}
    (run : Yields (insertElement list position new) before answer after) :
    ∃ holds elements wrapped relinked context,
      before.kindAt list = some (.list holds elements) ∧ position ≤ elements.size ∧
        Yields (asElement holds new) before answer wrapped ∧ (wrapped.get? answer).isSome ∧
        relinked = ((wrapped.modifyNode list fun node => { node with
          kind := node.kind.mapElements (·.insertIdxIfInBounds position answer) }).modifyNode
            answer fun node => { node with parent? := some list }) ∧
        relinked.childContext list = .ok context ∧
        Yields (attach answer context) relinked () after := by
  simp only [insertElement, yields_bind, yields_look, yields_ite, yields_throw,
    yields_changeElements, yields_setParent, yields_pure, list_eq_ok] at run
  obtain ⟨⟨holds, elements⟩, _, ⟨known, rfl⟩, linked, wrapped, wrapping, run⟩ := run
  rcases run with ⟨_, _, _, never, _⟩ | ⟨inBounds, _, _, ⟨_, rfl⟩, _, _, ⟨linkedIssued, rfl⟩,
    context, _, ⟨handed, rfl⟩, _, _, attached, rfl, rfl⟩
  · exact never.elim
  · exact ⟨holds, elements, wrapped, _, context, known, Nat.le_of_not_lt inBounds, wrapping,
      by simpa [get?_modifyNode_map] using linkedIssued, rfl, handed, attached⟩

theorem inserted {position : Nat} (issued : (before.get? new).isSome)
    (run : Yields (insertElement list position new) before answer after) :
    Inserted before list new after := by
  obtain ⟨holds, elements, wrapped, _, context, known, inBounds, wrapping, issuedLinked, rfl,
    handed, attached⟩ := exists_written_insertElement run
  have isWrapped := Edit.wrapped wrapping issued
  exact ⟨answer, wrapped, _, context, isWrapped,
    relinked_insert (isWrapped.kindAt known) inBounds issuedLinked, handed, attached⟩

end Edit

end ProgramTree
