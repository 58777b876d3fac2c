import ProgramTree.Proofs.Moves
import ProgramTree.Proofs.Traversal

/-!
# Whether attaching ends

Detaching and attaching visit every node of a subtree.  In a forest that ends, because no
subtree has more nodes than the program.  A node that was linked to a holder leaves a forest
behind unless it contains the holder: then it is below itself, and attaching it never ends.
-/

namespace ProgramTree

open Program Edit Relation

variable {before between after program : Program} {top id old new holder child : NodeId}
  {tops order : List NodeId}

/-! ## Detaching and attaching -/

namespace Edit

theorem exists_place (context : Context) (issued : (before.get? id).isSome) :
    ∃ answer after, Yields (place id context) before answer after := by
  obtain ⟨node, found⟩ := Option.isSome_iff_exists.mp issued
  let marked := before.modifyNode id fun node => { node with context }
  have foundMarked : marked.get? id = some { node with context } := by
    simp [marked, get?_modifyNode, found]
  have issuedMarked : (marked.get? id).isSome := by simp [foundMarked]
  have known : marked.kindOf id = .ok node.kind := by
    rw [kindOf_eq_ok, kindAt_eq foundMarked]
  obtain ⟨placed, isPlaced, _⟩ := exists_inTree issuedMarked
  let indexed :=
    if placed then { marked with index := marked.index.register id node.kind } else marked
  have issuedIndexed : (indexed.get? id).isSome := by
    cases placed <;> exact issuedMarked
  obtain ⟨inner, handed⟩ := exists_childContext issuedIndexed
  refine ⟨(node.kind.owned, inner), indexed, ?_⟩
  simp only [place, yields_bind, yields_change, yields_look, yields_modify, yields_pure,
    yields_ite]
  refine ⟨(), marked, ⟨issued, rfl⟩, node.kind, marked, ⟨known, rfl⟩, placed, marked,
    ⟨isPlaced, rfl⟩, ?_⟩
  cases placed with
  | true => exact .inl ⟨rfl, (), indexed, rfl, inner, indexed, ⟨handed, rfl⟩, rfl, rfl⟩
  | false => exact .inr ⟨Bool.false_ne_true, inner, indexed, ⟨handed, rfl⟩, rfl, rfl⟩

theorem exists_displace (issued : (before.get? id).isSome) :
    ∃ after, Yields (displace id) before () after := by
  simp only [displace, yields_bind, yields_change, yields_modify]
  exact ⟨_, (), _, ⟨issued, rfl⟩, rfl⟩

theorem exists_forM_displace {nodes : List NodeId}
    (issued : ∀ id ∈ nodes, (before.get? id).isSome) :
    ∃ after, Yields (nodes.forM displace) before () after := by
  induction nodes generalizing before with
  | nil => exact ⟨before, yields_forM_nil.mpr rfl⟩
  | cons first rest ih =>
    obtain ⟨between, firstRun⟩ := exists_displace (issued first (by simp))
    have issuedRest : ∀ id ∈ rest, (between.get? id).isSome := by
      intro id member
      rw [(displaced_one firstRun).same.isSome]
      exact issued id (by simp [member])
    obtain ⟨after, restRun⟩ := ih issuedRest
    exact ⟨after, yields_forM_cons.mpr ⟨between, firstRun, restRun⟩⟩

/-- Detaching ends if every node below the top is there and can be visited once. -/
theorem exists_detach (visits : before.Visits [top] order) (distinct : order.Nodup)
    (issued : ∀ id ∈ order, (before.get? id).isSome) :
    ∃ after, Yields (detach top) before () after := by
  obtain ⟨nodes, walked, same⟩ := visits.subtree distinct issued
  obtain ⟨after, run⟩ := exists_forM_displace fun id member => issued id (same.mem_iff.mp member)
  exact ⟨after, yields_bind.mpr ⟨nodes, before, yields_look.mpr ⟨walked, rfl⟩, run⟩⟩

/-- Attaching ends if it may go down as many levels as there are nodes to visit. -/
theorem exists_forM_attachWithin (context : Context) {depth : Nat}
    (visits : program.Visits tops order) (issued : ∀ id ∈ order, (program.get? id).isSome)
    (enough : order.length ≤ depth) (same : SameTree program before) :
    ∃ after, Yields (tops.forM (attachWithin depth · context)) before () after := by
  induction visits generalizing depth context before with
  | nil => exact ⟨before, yields_forM_nil.mpr rfl⟩
  | @cons first rest below later _ _ ihBelow ihLater =>
    have issuedFirst : (before.get? first).isSome := by
      rw [same.isSome]
      exact issued first (by simp)
    rw [List.length_append, List.length_cons] at enough
    obtain ⟨fewer, rfl⟩ : ∃ fewer, depth = fewer + 1 := ⟨depth - 1, by omega⟩
    obtain ⟨⟨children, inner⟩, between, placing⟩ := exists_place context issuedFirst
    have placed := placedOne placing
    obtain rfl : children = program.held first := by
      rw [← same.held]
      exact placed.children
    obtain ⟨middle, childrenRun⟩ := ihBelow inner (fun id member => issued id (by simp [member]))
      (show below.length ≤ fewer by omega) (same.trans placed.same)
    have firstRun : Yields (attachWithin (fewer + 1) first context) before () middle :=
      yields_attachWithin_succ.mpr ⟨_, between, placing, childrenRun⟩
    obtain ⟨after, restRun⟩ := ihLater context (fun id member => issued id (by simp [member]))
      (show later.length ≤ fewer + 1 by omega) (same.trans (attachedBelow firstRun).same)
    exact ⟨after, yields_forM_cons.mpr ⟨middle, firstRun, restRun⟩⟩

/-- Where every node that is held is there, attaching ends well or never. -/
theorem attachWithin_or_endless (depth : Nat) (context : Context)
    (closed : ∀ holder child, before.Holds holder child → (before.get? child).isSome)
    (issued : (before.get? top).isSome) :
    (∃ after, Yields (attachWithin depth top context) before () after) ∨
      ∃ id, attachWithin depth top context before = .error (.endless id) := by
  induction depth generalizing top context before with
  | zero => exact .inr ⟨top, rfl⟩
  | succ depth ih =>
    obtain ⟨⟨children, inner⟩, between, placing⟩ := exists_place context issued
    have placed := placedOne placing
    obtain rfl : children = before.held top := placed.children
    have childrenRun : ∀ children ⊆ before.held top, ∀ start, SameTree before start →
        (∃ after, Yields (children.forM (attachWithin depth · inner)) start () after) ∨
          ∃ id, children.forM (attachWithin depth · inner) start = .error (.endless id) := by
      intro children
      induction children with
      | nil => exact fun _ start _ => .inl ⟨start, yields_forM_nil.mpr rfl⟩
      | cons child rest ihRest =>
        intro heldAll start same
        have issuedChild : (start.get? child).isSome := by
          rw [same.isSome]
          exact closed top child (heldAll (by simp))
        have closedStart : ∀ holder child, start.Holds holder child →
            (start.get? child).isSome := by
          intro holder child holds
          rw [same.holds] at holds
          rw [same.isSome]
          exact closed holder child holds
        rcases ih inner closedStart issuedChild with ⟨middle, run⟩ | ⟨id, stops⟩
        · rcases ihRest (fun other member => heldAll (by simp [member])) middle
            (same.trans (attachedBelow run).same) with ⟨after, restRun⟩ | ⟨id, stops⟩
          · exact .inl ⟨after, yields_forM_cons.mpr ⟨middle, run, restRun⟩⟩
          · exact .inr ⟨id, run.run_bind.trans stops⟩
        · exact .inr ⟨id, run_bind_of_error stops⟩
    rcases childrenRun _ (List.Subset.refl _) between placed.same with
      ⟨after, run⟩ | ⟨id, stops⟩
    · exact .inl ⟨after, yields_attachWithin_succ.mpr ⟨_, between, placing, run⟩⟩
    · exact .inr ⟨id, placing.run_bind.trans stops⟩

end Edit

section Forests

variable {region : NodeId → Prop} {loose : List NodeId}

/-- Below a node of a forest every node is there and can be visited once. -/
theorem Program.Forest.exists_visits (forest : Forest region loose program) (inside : region top)
    (issued : (program.get? top).isSome) :
    ∃ order, program.Visits [top] order ∧ order.Nodup ∧
      ∀ id ∈ order, (program.get? id).isSome := by
  have grounded : ∀ id ∈ [top], program.Grounded id := by
    simpa using forest.grounded inside
  obtain ⟨order, visits⟩ := Program.exists_visits grounded
  exact ⟨order, visits, visits.nodup_singleton forest inside, fun id member =>
    forest.issued_of_contains inside issued (visits.mem_singleton.mp member)⟩

/-- Attaching ends in a forest. -/
theorem Edit.exists_attach (context : Context) (forest : Forest region loose before)
    (inside : region top) (issued : (before.get? top).isSome) :
    ∃ after, Yields (attach top context) before () after := by
  obtain ⟨order, visits, distinct, issuedAll⟩ := forest.exists_visits inside issued
  obtain ⟨after, run⟩ := exists_forM_attachWithin context visits issuedAll
    (Nat.le_succ_of_le (length_le_size distinct issuedAll)) (.refl before)
  obtain ⟨between, topRun, nothingMore⟩ := yields_forM_cons.mp run
  obtain rfl := yields_forM_nil.mp nothingMore
  exact ⟨after, yields_attach.mpr topRun⟩

/-- Walking a subtree of a forest ends, and meets every node of it once. -/
theorem Program.Forest.exists_subtree (forest : Forest region loose program) (inside : region top)
    (issued : (program.get? top).isSome) :
    ∃ nodes, program.subtree top = .ok nodes ∧ nodes.Nodup := by
  obtain ⟨order, visits, distinct, issuedAll⟩ := forest.exists_visits inside issued
  obtain ⟨nodes, walked, same⟩ := visits.subtree distinct issuedAll
  exact ⟨nodes, walked, same.nodup_iff.mpr distinct⟩

end Forests

/-! ## What was relinked -/

namespace Program.Relinked

section General

variable {loose out into stale : List NodeId}
  (relinked : Relinked before holder out into stale after)
include relinked

theorem isSome : (after.get? id).isSome = (before.get? id).isSome := by
  rw [Bool.eq_iff_iff, ← Option.ne_none_iff_isSome, ← Option.ne_none_iff_isSome, ne_eq, ne_eq,
    relinked.get?_eq_none]

/-- What went out can be detached. -/
theorem exists_detach (forest : Forest (fun _ => True) loose before) (gone : old ∈ out) :
    ∃ final, Edit.Yields (Edit.detach old) after () final := by
  have holds := relinked.out_held gone
  obtain ⟨node, found, _⟩ := get?_of_parentOf (forest.held trivial holds).2
  have issuedOld : (before.get? old).isSome := by simp [found]
  obtain ⟨order, visits, distinct, issued⟩ := forest.exists_visits trivial issuedOld
  have same : ∀ id ∈ order, after.held id = (before.held id).map fun id => id := by
    intro id member
    have contained := visits.mem_singleton.mp member
    rw [List.map_id', Program.held, relinked.kinds, ← Program.held]
    rintro rfl
    exact forest.not_contains_holder trivial holds contained
  have visitsAfter := visits.rename same
  rw [List.map_id', List.map_id'] at visitsAfter
  refine Edit.exists_detach visitsAfter distinct fun id member => ?_
  rw [relinked.isSome]
  exact issued id member

end General

variable {loose out : List NodeId} (relinked : Relinked before holder out [new] [] after)
  (forest : Forest (fun _ => True) loose before)
include relinked forest

/-- The way down to the holder is still there. -/
theorem contains_holder_after (contained : before.Contains id holder) :
    after.Contains id holder := by
  induction contained using ReflTransGen.head_induction_on with
  | refl => exact .refl
  | head holds _ ih =>
    rcases relinked.holds_before forest trivial holds with held | ⟨isHolder, _⟩
    · exact .head held ih
    · exact isHolder ▸ .refl

/-- The node that came in is below itself exactly if it contained the holder. -/
theorem grounded_iff : after.Grounded new ↔ ¬ before.Contains new holder := by
  constructor
  · intro grounded contained
    exact grounded.not_below_itself
      (.tail' (relinked.contains_holder_after forest contained) (relinked.into_held (by simp)))
  · intro outside
    -- Below the node that came in nothing was relinked, since the holder is not there.
    have below : ∀ id, before.Contains new id → after.Grounded id := by
      intro id contained
      have grounded : before.Grounded id := forest.grounded trivial
      induction grounded with
      | intro id _ ih =>
        refine ⟨_, fun child holds => ?_⟩
        rcases relinked.holds_after forest trivial trivial holds with ⟨held, _⟩ | ⟨isHolder, _⟩
        · exact ih child held (contained.tail held)
        · exact absurd (isHolder ▸ contained) outside
    exact below new .refl

theorem held_issued (issued : (before.get? new).isSome) (holds : after.Holds id child) :
    (after.get? child).isSome := by
  rw [relinked.isSome]
  rcases relinked.holds_after forest trivial trivial holds with ⟨held, _⟩ | ⟨_, came⟩
  · obtain ⟨node, found, _⟩ := get?_of_parentOf (forest.held trivial held).2
    simp [found]
  · obtain rfl : child = new := by simpa using came
    exact issued

/-- What came in can be attached, if it did not contain the holder. -/
theorem exists_attach (context : Context) (spare : Spare (fun _ => True) loose before [new])
    (issued : (before.get? new).isSome) (outside : ¬ before.Contains new holder)
    (same : SameTree after between) :
    ∃ final, Edit.Yields (Edit.attach new context) between () final := by
  have forestAfter : Forest (fun _ => True) loose after := by
    refine relinked.forest_after forest trivial spare nofun fun came => ?_
    obtain rfl : _ = new := by simpa using came
    exact (relinked.grounded_iff forest).mpr outside
  refine Edit.exists_attach context (same.forest forestAfter) trivial ?_
  rw [same.isSome, relinked.isSome]
  exact issued

/-- Attaching what came in has no end, if it contained the holder. -/
theorem attach_endless (context : Context) (issued : (before.get? new).isSome)
    (inside : before.Contains new holder) (same : SameTree after between) :
    ∃ id, Edit.attach new context between = .error (.endless id) := by
  have issuedBetween : (between.get? new).isSome := by
    rw [same.isSome, relinked.isSome]
    exact issued
  have closed : ∀ id child, between.Holds id child → (between.get? child).isSome := by
    intro id child holds
    rw [same.holds] at holds
    rw [same.isSome]
    exact relinked.held_issued forest issued holds
  rcases Edit.attachWithin_or_endless between.levelBound context closed issuedBetween with
    ⟨final, run⟩ | ⟨id, stops⟩
  · have grounded := (Edit.attachedBelow run).grounded
    rw [same.grounded] at grounded
    exact absurd inside ((relinked.grounded_iff forest).mp grounded)
  · exact ⟨id, stops⟩

end Program.Relinked

end ProgramTree
