import Mathlib.Data.List.Nodup
import ProgramTree.Edit.Duplication
import ProgramTree.Proofs.Renaming
import ProgramTree.Proofs.Traversal

/-!
# Copying a subtree

A copy creates one node for each node of the subtree, in post-order, so the twin of a
node is known from its place in that order.  The invariant of the recursion says what
the program and the table look like when a front part of the order is copied.
-/

namespace ProgramTree

open Program

/-! ## Changing several nodes in one way -/

theorem Edit.exists_changeAll {before : Program} {ids : List NodeId} (f : Node → Node)
    (distinct : ids.Nodup) (issued : ∀ id ∈ ids, (before.get? id).isSome) :
    ∃ after, Yields (ids.forM fun id => change id f) before () after ∧
      (∀ id, after.get? id = if id ∈ ids then (before.get? id).map f else before.get? id) ∧
      after = { before with nodes := after.nodes } ∧
      after.nodes.size = before.nodes.size := by
  induction ids generalizing before with
  | nil => exact ⟨before, by rw [yields_forM_nil], by simp, rfl, rfl⟩
  | cons first rest ih =>
    obtain ⟨notInRest, distinctRest⟩ := List.nodup_cons.mp distinct
    have kept : ∀ {id}, id ≠ first → (before.modifyNode first f).get? id = before.get? id :=
      fun different => get?_modifyNode_of_ne (Ne.symm different)
    have issuedRest : ∀ id ∈ rest, ((before.modifyNode first f).get? id).isSome := by
      intro id member
      rw [kept fun same => notInRest (same ▸ member)]
      exact issued id (by simp [member])
    obtain ⟨after, run, nodes, frame, size⟩ := ih distinctRest issuedRest
    refine ⟨after, ?_, ?_, ?_, ?_⟩
    · apply yields_forM_cons.mpr
      exact ⟨_, yields_change.mpr ⟨issued first (by simp), rfl⟩, run⟩
    · intro id
      rw [nodes]
      by_cases isFirst : id = first
      · subst isFirst
        simp [notInRest, get?_modifyNode]
      · rw [kept isFirst]
        simp [isFirst]
    · rw [frame]
      obtain ⟨_ | place⟩ := first <;> rfl
    · rw [size, size_modifyNode]

namespace Program

/-! ## Copying one node -/

/-- The copy of a node, as it is made in `before`. -/
def copyOf (before : Program) (node : Node) (kind : Kind) (parent? : Option NodeId) : Node :=
  { before.stamp kind with
    location := node.location
    pragmas := node.pragmas
    parent?
    analysis? :=
      if !before.settings.inAnalysis && (node.kind.isStmt || node.kind.isExpr) then
        node.analysis?
      else none }

theorem copyOf_kind {before : Program} {node : Node} {kind : Kind} {parent? : Option NodeId} :
    (before.copyOf node kind parent?).kind = kind := by
  unfold copyOf stamp
  split <;> rfl

theorem copyOf_context {before : Program} {node : Node} {kind : Kind} {parent? : Option NodeId} :
    (before.copyOf node kind parent?).context = {} := by
  unfold copyOf stamp
  split <;> rfl

theorem copyOf_rest {before now : Program} {node : Node} {kind : Kind} {parent? : Option NodeId}
    (rest : now = { before with nodes := now.nodes }) :
    now.copyOf node kind parent? = before.copyOf node kind parent? := by
  rw [rest]
  rfl

/-- A node whose children are copied is copied next, and its copy takes them over. -/
theorem exists_duplicateNode {now : Program} {id : NodeId} {node : Node} {table : Remap}
    (found : now.get? id = some node)
    (distinct : (node.kind.mapOwned table.apply).owned.Nodup)
    (issued : ∀ child ∈ (node.kind.mapOwned table.apply).owned, (now.get? child).isSome) :
    ∃ after, Edit.Yields (Edit.duplicateNode id table) now (table.insert id now.nextId) after ∧
      after.get? now.nextId = some (now.copyOf node (node.kind.mapOwned table.apply) none) ∧
      (∀ other, other ≠ now.nextId → after.get? other =
        if other ∈ (node.kind.mapOwned table.apply).owned then
          (now.get? other).map fun child => { child with parent? := some now.nextId }
        else now.get? other) ∧
      after = { now with nodes := after.nodes } ∧
      after.nodes.size = now.nodes.size + 1 := by
  generalize isKind : node.kind.mapOwned table.apply = kind at distinct issued ⊢
  have old : ∀ {other}, (now.get? other).isSome → other ≠ now.nextId := by
    intro other known same
    simp [same, get?_nextId] at known
  have grownFresh : (now.push kind).get? now.nextId = some (now.stamp kind) := by
    rw [get?_push, if_pos rfl]
  have grownOld : ∀ {other}, other ≠ now.nextId → (now.push kind).get? other = now.get? other := by
    intro other different
    rw [get?_push, if_neg different]
  have heldFresh : (now.push kind).held now.nextId = kind.owned := by
    rw [held_eq grownFresh]
    unfold stamp
    split <;> rfl
  have issuedGrown : ∀ child ∈ kind.owned, ((now.push kind).get? child).isSome := by
    intro child member
    rw [grownOld (old (issued child member))]
    exact issued child member
  obtain ⟨adopted, adoption, adoptedNodes, adoptedRest, adoptedSize⟩ :=
    Edit.exists_changeAll (fun child => { child with parent? := some now.nextId })
      distinct issuedGrown
  have notOwnChild : now.nextId ∉ kind.owned := fun member => old (issued _ member) rfl
  have adoptedFresh : adopted.get? now.nextId = some (now.stamp kind) := by
    rw [adoptedNodes, if_neg notOwnChild, grownFresh]
  have settings : adopted.settings = now.settings := by
    rw [adoptedRest]
    rfl
  let carried : Node → Node := fun copy =>
    { copy with
      location := node.location
      pragmas := node.pragmas
      analysis? :=
        if !adopted.settings.inAnalysis && (node.kind.isStmt || node.kind.isExpr) then
          node.analysis?
        else none }
  refine ⟨adopted.modifyNode now.nextId carried, ?_, ?_, ?_, ?_, ?_⟩
  · simp only [Edit.duplicateNode, Edit.carryOver, Edit.yields_bind, Edit.yields_look,
      Edit.yields_get, Edit.yields_change, Edit.yields_newNode, Edit.yields_pure, node_eq_ok,
      owned_eq_ok]
    exact ⟨node, now, ⟨found, rfl⟩, now.nextId, now.push kind, ⟨rfl, by rw [isKind]⟩, kind.owned, _,
      ⟨⟨by simp [grownFresh], heldFresh⟩, rfl⟩, (), adopted, adoption, (), _,
      ⟨adopted, adopted, ⟨rfl, rfl⟩, by simp [adoptedFresh], rfl⟩, rfl, rfl⟩
  · rw [get?_modifyNode, if_pos rfl, adoptedFresh]
    simp only [carried, settings, copyOf, Option.map_some]
    unfold stamp
    split <;> rfl
  · intro other different
    rw [get?_modifyNode_of_ne (Ne.symm different), adoptedNodes, grownOld different]
  · rw [modifyNode_rest, adoptedRest]
    rfl
  · rw [size_modifyNode, adoptedSize]
    simp [push]

/-! ## Twins -/

/-- The node that is created for `id` when the nodes of `order` are copied in turn. -/
def twin (before : Program) (order : List NodeId) (id : NodeId) : NodeId :=
  ⟨before.nodes.size + 1 + order.idxOf id⟩

/-- Where a link of the copied subtree leads. -/
def redirect (before : Program) (seeds : Remap) (order : List NodeId) (link : NodeId) : NodeId :=
  if link ∈ order then before.twin order link else seeds.apply link

variable {before now after : Program} {seeds table : Remap} {order done below tops : List NodeId}
  {id top : NodeId} {node : Node}

theorem twin_injective {other : NodeId} (member : id ∈ order)
    (same : before.twin order id = before.twin order other) : id = other := by
  simp only [twin, NodeId.mk.injEq, Nat.add_left_cancel_iff] at same
  exact (List.idxOf_inj member).mp same

theorem twin_of_append {rest : List NodeId} (isOrder : order = done ++ id :: rest)
    (distinct : order.Nodup) : before.twin order id = ⟨before.nodes.size + 1 + done.length⟩ := by
  have notDone : id ∉ done := by
    intro member
    rw [isOrder] at distinct
    exact (List.nodup_append.mp distinct).2.2 id member id (by simp) rfl
  rw [twin, isOrder, List.idxOf_append_of_notMem notDone]
  simp

theorem unissued_twin : before.get? (before.twin order id) = none := by
  have place : before.twin order id = ⟨before.nodes.size + order.idxOf id + 1⟩ := by
    rw [twin, NodeId.mk.injEq]
    omega
  rw [place]
  simp [get?]

/-! ## When a front part is copied -/

/-- The nodes `done` are copied: their twins exist and stand in the table. -/
structure Copied (before : Program) (seeds : Remap) (order done : List NodeId) (table : Remap)
    (now : Program) : Prop where
  size : now.nodes.size = before.nodes.size + done.length
  rest : now = { before with nodes := now.nodes }
  old : ∀ {id}, (before.get? id).isSome → now.get? id = before.get? id
  table : ∀ id, table[id]? = if id ∈ done then some (before.twin order id) else seeds[id]?
  closed : ∀ {holder child}, holder ∈ done → before.Holds holder child → child ∈ done
  copy : ∀ {id node}, id ∈ done → before.get? id = some node →
    now.get? (before.twin order id) = some (before.copyOf node
      (node.kind.mapOwned (before.twin order))
      ((before.parentOf id).bind fun holder =>
        if holder ∈ done then some (before.twin order holder) else none))

namespace Copied

theorem start : Copied before seeds order [] seeds before where
  size := by simp
  rest := rfl
  old _ := rfl
  table id := by simp
  closed := nofun
  copy := nofun

theorem apply_table (copied : Copied before seeds order done table now) (link : NodeId) :
    table.apply link = if link ∈ done then before.twin order link else seeds.apply link := by
  rw [Remap.apply, Std.ExtTreeMap.getD_eq_getD_getElem?, copied.table]
  by_cases member : link ∈ done
  · simp [member]
  · simp [member, Remap.apply, Std.ExtTreeMap.getD_eq_getD_getElem?]

section Step

variable {region : NodeId → Prop} {rest : List NodeId}
  (copied : Copied before seeds order done table now)
  (isOrder : order = done ++ id :: rest) (distinct : order.Nodup)
  (childrenDone : ∀ child, before.Holds id child → child ∈ done)
include copied isOrder distinct childrenDone

theorem holder_not_done {holder : NodeId} (holds : before.Holds holder id) :
    holder ∉ done ++ [id] := by
  have notDone : id ∉ done := by
    intro member
    rw [isOrder] at distinct
    exact (List.nodup_append.mp distinct).2.2 id member id (by simp) rfl
  intro member
  rcases List.mem_append.mp member with holderDone | isId
  · exact notDone (copied.closed holderDone holds)
  · obtain rfl : holder = id := by simpa using isId
    exact notDone (childrenDone holder holds)

theorem step (forest : Forest region [] before) (inside : ∀ other ∈ order, region other)
    (found : before.get? id = some node) :
    ∃ after, Edit.Yields (Edit.duplicateNode id table) now (table.insert id (before.twin order id))
        after ∧
      Copied before seeds order (done ++ [id]) (table.insert id (before.twin order id)) after := by
  have notDone : id ∉ done := by
    intro isDone
    rw [isOrder] at distinct
    exact (List.nodup_append.mp distinct).2.2 id isDone id (by simp) rfl
  have inOrder : ∀ {other}, other ∈ done → other ∈ order := by
    intro other isDone
    simp [isOrder, isDone]
  have insideId := inside id (by simp [isOrder])
  have isNext : now.nextId = before.twin order id := by
    rw [twin_of_append isOrder distinct, nextId, copied.size, NodeId.mk.injEq]
    omega
  have foundNow : now.get? id = some node := by
    rw [copied.old (by simp [found]), found]
  have sameKind : node.kind.mapOwned table.apply = node.kind.mapOwned (before.twin order) := by
    apply Kind.mapOwned_congr
    intro child owned
    rw [copied.apply_table, if_pos]
    apply childrenDone
    rw [Holds, held_eq found]
    exact owned
  have ownedTwins : (node.kind.mapOwned table.apply).owned =
      (before.held id).map (before.twin order) := by
    rw [sameKind, Kind.owned_mapOwned, held_eq found]
  have childrenNodup : ((before.held id).map (before.twin order)).Nodup := by
    apply List.Nodup.map_on
    · intro first holdsFirst second _ same
      exact twin_injective (inOrder (childrenDone first holdsFirst)) same
    · exact forest.nodup insideId
  have childrenIssued : ∀ child ∈ (before.held id).map (before.twin order),
      (now.get? child).isSome := by
    intro child isTwin
    obtain ⟨original, holds, rfl⟩ := List.mem_map.mp isTwin
    obtain ⟨source, foundSource, _⟩ := get?_of_parentOf (forest.held insideId holds).2
    rw [copied.copy (childrenDone original holds) foundSource]
    rfl
  obtain ⟨after, run, fresh, others, frame, size⟩ := exists_duplicateNode foundNow
    (by rw [ownedTwins]; exact childrenNodup) (by rw [ownedTwins]; exact childrenIssued)
  rw [isNext] at run fresh others
  rw [sameKind] at fresh
  rw [ownedTwins] at others
  refine ⟨after, run, ?_, ?_, ?_, ?_, ?_, ?_⟩
  · rw [size, copied.size]
    simp
    omega
  · rw [frame, copied.rest]
  · intro other issued
    have notTwin : ∀ {original}, other ≠ before.twin order original := by
      intro original same
      simp [same, unissued_twin] at issued
    rw [others other notTwin, if_neg, copied.old issued]
    intro isTwin
    obtain ⟨original, _, same⟩ := List.mem_map.mp isTwin
    exact notTwin same.symm
  · intro other
    rw [Std.ExtTreeMap.getElem?_insert, copied.table]
    by_cases same : id = other
    · subst same
      simp
    · have different : compare id other ≠ .eq := fun equal =>
        same (Std.LawfulEqCmp.eq_of_compare equal)
      simp [different, Ne.symm same]
  · intro holder child member holds
    rcases List.mem_append.mp member with isDone | isId
    · exact List.mem_append_left _ (copied.closed isDone holds)
    · obtain rfl : holder = id := by simpa using isId
      exact List.mem_append_left _ (childrenDone child holds)
  · intro other source member foundSource
    rcases List.mem_append.mp member with isDone | isId
    · have notFresh : before.twin order other ≠ before.twin order id := fun same =>
        notDone (twin_injective (inOrder isDone) same ▸ isDone)
      rw [others _ notFresh, copied.copy isDone foundSource]
      by_cases holds : before.Holds id other
      · rw [if_pos (List.mem_map_of_mem holds), (forest.held insideId holds).2]
        simp [copyOf]
      · have notChild : before.twin order other ∉ (before.held id).map (before.twin order) := by
          intro isTwin
          obtain ⟨child, holdsChild, same⟩ := List.mem_map.mp isTwin
          rw [← twin_injective (inOrder isDone) same.symm] at holdsChild
          exact holds holdsChild
        rw [if_neg notChild]
        cases named : before.parentOf other with
        | none => rfl
        | some holder =>
          have notId : holder ≠ id := by
            rintro rfl
            exact holds (forest.holder (inside other (inOrder isDone)) (by simp) named).2
          simp [notId]
    · obtain rfl : other = id := by simpa using isId
      rw [found, Option.some.injEq] at foundSource
      subst foundSource
      rw [fresh, copyOf_rest copied.rest]
      cases named : before.parentOf other with
      | none => rfl
      | some holder =>
        have holds := (forest.holder insideId (by simp) named).2
        rw [Option.bind_some, if_neg (copied.holder_not_done isOrder distinct childrenDone holds)]

end Step

/-- Copying goes through some tops in post-order, if the depth allows for the traversal. -/
theorem visits {region : NodeId → Prop} {rest : List NodeId} {depth : Nat}
    (forest : Forest region [] before) (inside : ∀ id ∈ order, region id)
    (issued : ∀ id ∈ order, (before.get? id).isSome) (distinct : order.Nodup)
    (visits : before.Visits tops below)
    (copied : Copied before seeds order done table now)
    (isOrder : order = done ++ below ++ rest) (enough : below.length ≤ depth)
    (unseeded : ∀ id ∈ below, id ∉ seeds) :
    ∃ finalTable after,
      Edit.Yields (tops.foldlM (Edit.duplicateWithin depth) table) now finalTable after ∧
        Copied before seeds order (done ++ below) finalTable after := by
  induction visits generalizing table now done rest depth with
  | nil =>
    refine ⟨table, now, ?_, by simpa using copied⟩
    exact Edit.yields_pure.mpr ⟨rfl, rfl⟩
  | @cons first tops below later descent _ ihBelow ihLater =>
    obtain ⟨depth, rfl⟩ : ∃ smaller, depth = smaller + 1 := by
      rw [List.length_append, List.length_cons] at enough
      exact ⟨depth - 1, by omega⟩
    rw [List.length_append, List.length_cons] at enough
    have isOrderFirst : order = done ++ below ++ first :: (later ++ rest) := by
      simpa using isOrder
    have enoughBelow : below.length ≤ depth := by omega
    have enoughLater : later.length ≤ depth + 1 := by omega
    have member : first ∈ order := by
      rw [isOrderFirst]
      exact List.mem_append_right _ List.mem_cons_self
    have issuedNow := issued first member
    obtain ⟨node, found⟩ := Option.isSome_iff_exists.mp issuedNow
    -- the first top is not in the table yet
    have notDone : first ∉ done := by
      intro isDone
      rw [isOrderFirst, List.append_assoc] at distinct
      have apart := (List.nodup_append.mp distinct).2.2
      exact apart first isDone first (List.mem_append_right _ List.mem_cons_self) rfl
    have absent : table.contains first = false := by
      rw [Std.ExtTreeMap.contains_eq_isSome_getElem?, copied.table, if_neg notDone,
        Std.ExtTreeMap.getElem?_eq_none (unseeded first (by simp)), Option.isSome_none]
    -- below it, then the top itself, then the tops after it
    obtain ⟨tableBelow, afterBelow, runBelow, copiedBelow⟩ :=
      ihBelow copied isOrderFirst enoughBelow (fun id inBelow => unseeded id (by simp [inBelow]))
    have childrenDone : ∀ child, before.Holds first child → child ∈ done ++ below := by
      intro child holds
      exact List.mem_append_right _ (descent.mem.mpr ⟨child, holds, .refl⟩)
    obtain ⟨afterFirst, runFirst, copiedFirst⟩ :=
      copiedBelow.step isOrderFirst distinct childrenDone forest inside found
    have isOrderLater : order = done ++ below ++ [first] ++ later ++ rest := by
      simpa using isOrder
    obtain ⟨finalTable, after, runLater, copiedLater⟩ :=
      ihLater copiedFirst isOrderLater enoughLater
        (fun id inLater => unseeded id (by simp [inLater]))
    refine ⟨finalTable, after, ?_, by simpa using copiedLater⟩
    have foundNow : now.get? first = some node := by
      rw [copied.old issuedNow, found]
    have heldNow : now.held first = before.held first := by
      rw [held_eq foundNow, held_eq found]
    rw [List.foldlM_cons, Edit.yields_bind]
    refine ⟨_, afterFirst, ?_, runLater⟩
    simp only [Edit.duplicateWithin, absent, Bool.false_eq_true, if_false, Edit.yields_bind,
      Edit.yields_look, owned_eq_ok]
    exact ⟨before.held first, now, ⟨⟨by simp [foundNow], heldNow⟩, rfl⟩, tableBelow, afterBelow,
      runBelow, runFirst⟩

end Copied

/-! ## The whole copy -/

/-- The nodes of `order`, which are those below `top`, have twins, and all else is as it was. -/
structure Duplicated (before : Program) (seeds : Remap) (top : NodeId) (order : List NodeId)
    (after : Program) : Prop where
  visits : before.Visits [top] order
  distinct : order.Nodup
  size : after.nodes.size = before.nodes.size + order.length
  rest : after = { before with nodes := after.nodes }
  old : ∀ {id node}, before.get? id = some node → after.get? id = some node
  copy : ∀ {id node}, id ∈ order → before.get? id = some node →
    after.get? (before.twin order id) = some (before.copyOf node
      (node.kind.renamed (before.twin order) (before.redirect seeds order))
      (if id = top then none else (before.parentOf id).map (before.twin order)))

/-- The nodes of `order`, which are those below `top`, have twins whose links lead where `link`
says, and all else is as it was. -/
structure Twinned (before : Program) (top : NodeId) (order : List NodeId) (link : NodeId → NodeId)
    (after : Program) : Prop where
  visits : before.Visits [top] order
  distinct : order.Nodup
  size : after.nodes.size = before.nodes.size + order.length
  rest : after = { before with nodes := after.nodes }
  old : ∀ {id node}, before.get? id = some node → after.get? id = some node
  twin : ∀ {id node}, id ∈ order → before.get? id = some node →
    after.get? (before.twin order id) = some (before.copyOf node
      (node.kind.renamed (before.twin order) link)
      (if id = top then none else (before.parentOf id).map (before.twin order)))

theorem Duplicated.twinned (duplicated : Duplicated before seeds top order after) :
    Twinned before top order (before.redirect seeds order) after where
  visits := duplicated.visits
  distinct := duplicated.distinct
  size := duplicated.size
  rest := duplicated.rest
  old := duplicated.old
  twin := duplicated.copy

section Runs

variable {region : NodeId → Prop} (forest : Forest region [] before) (inside : region top)
include forest inside

/-- A copied node has its holder copied, unless it is the top. -/
theorem parentOf_copied (visits : before.Visits [top] order) (member : id ∈ order) :
    ((before.parentOf id).bind fun holder =>
      if holder ∈ order then some (before.twin order holder) else none) =
      if id = top then none else (before.parentOf id).map (before.twin order) := by
  by_cases isTop : id = top
  · rw [if_pos isTop, isTop]
    cases named : before.parentOf top with
    | none => rfl
    | some holder =>
      obtain ⟨insideHolder, holds⟩ := forest.holder inside (by simp) named
      have outside : holder ∉ order := fun isBelow =>
        forest.not_contains_holder insideHolder holds (visits.mem_singleton.mp isBelow)
      rw [Option.bind_some, if_neg outside]
  · rw [if_neg isTop]
    obtain ⟨holder, named, within⟩ :=
      forest.parent_of_contains inside (visits.mem_singleton.mp member) isTop
    rw [named, Option.bind_some, if_pos (visits.mem_singleton.mpr within), Option.map_some]

/-- The recursion copies every node below the top. -/
theorem exists_duplicateWithin (issued : (before.get? top).isSome)
    (unseeded : ∀ id, before.Contains top id → id ∉ seeds) :
    ∃ table middle order, Edit.Yields (Edit.duplicateWithin before.levelBound seeds top) before table
        middle ∧
      before.Visits [top] order ∧ order.Nodup ∧ Copied before seeds order order table middle := by
  have groundedTops : ∀ other ∈ [top], before.Grounded other := by
    intro other member
    obtain rfl : other = top := by simpa using member
    exact forest.grounded inside
  obtain ⟨order, visits⟩ := exists_visits groundedTops
  have distinct := visits.nodup_singleton forest inside
  have insideAll : ∀ id ∈ order, region id := fun id member =>
    forest.contains inside (visits.mem_singleton.mp member)
  have issuedAll : ∀ id ∈ order, (before.get? id).isSome := fun id member =>
    forest.issued_of_contains inside issued (visits.mem_singleton.mp member)
  have bounded : order.length ≤ before.levelBound :=
    Nat.le_succ_of_le (length_le_size distinct issuedAll)
  have start : Copied before seeds order [] seeds before := .start
  obtain ⟨table, middle, run, copied⟩ := start.visits forest insideAll issuedAll distinct visits
    (List.append_nil _).symm bounded
    (fun id member => unseeded id (visits.mem_singleton.mp member))
  rw [List.nil_append] at copied
  refine ⟨table, middle, order, ?_, visits, distinct, copied⟩
  simpa [Edit.yields_bind, Edit.yields_pure] using run

omit inside in
/-- When all is copied but for the links, the nodes have their twins. -/
theorem Copied.twinned {table : Remap} {middle : Program} (inside : region top)
    (visits : before.Visits [top] order) (distinct : order.Nodup)
    (copied : Copied before seeds order order table middle) :
    Twinned before top order (fun link => link) middle where
  visits := visits
  distinct := distinct
  size := copied.size
  rest := copied.rest
  old found := (copied.old (by simp [found])).trans found
  twin member found := by
    rw [copied.copy member found, parentOf_copied forest inside visits member,
      Kind.mapOwned_eq_renamed]

theorem exists_duplicateWith (issued : (before.get? top).isSome)
    (unseeded : ∀ id, before.Contains top id → id ∉ seeds) (updated : List NodeId) :
    ∃ copied after order, Edit.Yields (Edit.duplicateWith top seeds updated false) before copied
        after ∧
      copied.duplicate = before.twin order top ∧ Duplicated before seeds top order after := by
  obtain ⟨table, middle, order, run, visits, distinct, copied⟩ :=
    exists_duplicateWithin forest inside issued unseeded
  have issuedAll : ∀ id ∈ order, (before.get? id).isSome := fun id member =>
    forest.issued_of_contains inside issued (visits.mem_singleton.mp member)
  have inOrder : top ∈ order := visits.mem_singleton.mpr .refl
  -- the copies contain one another as the originals do
  have heldTwin : ∀ id ∈ order,
      middle.held (before.twin order id) = (before.held id).map (before.twin order) := by
    intro id member
    obtain ⟨node, found⟩ := Option.isSome_iff_exists.mp (issuedAll id member)
    rw [held_eq (copied.copy member found), copyOf_kind, Kind.owned_mapOwned, held_eq found]
  have issuedTwins : ∀ id ∈ order.map (before.twin order), (middle.get? id).isSome := by
    intro id isTwin
    obtain ⟨original, member, rfl⟩ := List.mem_map.mp isTwin
    obtain ⟨node, found⟩ := Option.isSome_iff_exists.mp (issuedAll original member)
    rw [copied.copy member found]
    rfl
  have distinctTwins : (order.map (before.twin order)).Nodup := by
    apply List.Nodup.map_on
    · exact fun first member second _ same => twin_injective member same
    · exact distinct
  have boundedTwins : (order.map (before.twin order)).length ≤ middle.levelBound :=
    Nat.le_succ_of_le (length_le_size distinctTwins issuedTwins)
  obtain ⟨nodes, walked, sameNodes⟩ := (visits.rename heldTwin).levels issuedTwins boundedTwins
  -- every link is redirected once
  have issuedNodes : ∀ id ∈ nodes, (middle.get? id).isSome := fun id member =>
    issuedTwins id (sameNodes.mem_iff.mp member)
  obtain ⟨after, redirection, afterNodes, afterRest, afterSize⟩ :=
    Edit.exists_changeAll (fun node => { node with kind := node.kind.mapLinks table.apply })
      (sameNodes.nodup_iff.mpr distinctTwins) issuedNodes
  have unseededTop : seeds[top]? = none :=
    Std.ExtTreeMap.getElem?_eq_none (unseeded top .refl)
  have applyTop : table.apply top = before.twin order top := by
    rw [copied.apply_table, if_pos inOrder]
  refine ⟨⟨before.twin order top, table, updated.map table.apply⟩, after, order, ?_, rfl,
    visits, distinct, ?_, ?_, ?_, ?_⟩
  · simp only [Edit.duplicateWith, unseededTop, Edit.yields_bind, Edit.yields_get]
    refine ⟨before, before, ⟨rfl, rfl⟩, table, middle, run, ?_⟩
    simp only [applyTop, Bool.false_eq_true, if_false, Edit.yields_bind, Edit.redirectLinks,
      Edit.yields_look, Edit.yields_pure]
    exact ⟨(), after, ⟨nodes, middle, ⟨walked, rfl⟩, redirection⟩, trivial, rfl⟩
  · rw [afterSize, copied.size]
  · rw [afterRest, copied.rest]
  · intro id node found
    have notTwin : id ∉ nodes := by
      intro member
      obtain ⟨original, _, rfl⟩ := List.mem_map.mp (sameNodes.mem_iff.mp member)
      simp [unissued_twin] at found
    rw [afterNodes, if_neg notTwin, copied.old (by simp [found]), found]
  · intro id node member found
    have isTwin : before.twin order id ∈ nodes :=
      sameNodes.mem_iff.mpr (List.mem_map_of_mem member)
    have redirected : table.apply = before.redirect seeds order := by
      funext link
      rw [copied.apply_table, redirect]
    rw [afterNodes, if_pos isTwin, copied.copy member found, Option.map_some,
      parentOf_copied forest inside visits member, ← redirected, ← Kind.mapLinks_mapOwned]
    simp only [copyOf, stamp]
    split <;> rfl

end Runs

end Program

end ProgramTree
