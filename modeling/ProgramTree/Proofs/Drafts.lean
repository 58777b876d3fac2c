import ProgramTree.Proofs.Outliners

/-!
# Drafts

What is built beside the tree of a healthy program.  A draft adds nodes and leaves all that
was there as it is.  A new symbol and its definition point hang together, so they are still
together when the draft is part of the tree.
-/

namespace ProgramTree.Program

open Edit Relation

variable {origin before between after program : Program} {id top copied : NodeId} {kind changed : Kind}

/-- A symbol of the tree names this definition point. -/
def NamedInTree (program : Program) (definition : NodeId) : Prop :=
  ∃ id, program.Reachable id ∧ program.Names id definition

/-- A new node contains both. -/
def Joined (origin program : Program) (id other : NodeId) : Prop :=
  ∃ top, origin.New top ∧ program.Contains top id ∧ program.Contains top other

theorem Joined.mono {other : NodeId}
    (kept : ∀ holder child, before.Holds holder child → after.Holds holder child)
    (joined : origin.Joined before id other) : origin.Joined after id other := by
  obtain ⟨top, new, containsId, containsOther⟩ := joined
  exact ⟨top, new, contains_mono kept containsId, contains_mono kept containsOther⟩

/-- The program has grown out of `origin` by new nodes that hang nowhere in the tree. -/
structure Draft (origin program : Program) : Prop where
  extended : Extends origin program
  orderly : Orderly False False (fun id => origin.Reachable id ∨ origin.New id) [] program
  located : Located origin.New origin.NamedInTree program
  tied : ∀ id definition, origin.New id → origin.New definition → program.Names id definition →
    origin.Joined program id definition

namespace Draft

theorem start (healthy : Healthy origin) : Draft origin origin where
  extended := ⟨id, rfl, rfl⟩
  orderly := (consistent_of_verify healthy.verified).orderly healthy.modules False.elim
  located := by
    intro id definition new ⟨kind, known, _⟩
    rw [get?_eq_none_iff_kindAt.mp new] at known
    cases known
  tied := by
    intro id definition new _ ⟨kind, known, _⟩
    rw [get?_eq_none_iff_kindAt.mp new] at known
    cases known

section Growing

variable (draft : Draft origin before)
include draft

theorem new_of_unissued (unissued : before.get? id = none) : origin.New id := by
  by_contra issued
  obtain ⟨node, found⟩ := Option.ne_none_iff_exists'.mp issued
  rw [draft.extended.old found] at unissued
  cases unissued

/-- A draft grows by a node that takes over nodes of the draft. -/
theorem grow (undefined : kind.definition? = none) (pushed : Pushed before kind between)
    (adopted : Adopted between before.nextId kind.owned after)
    (known : ∀ child ∈ kind.owned, Known origin.New before child) : Draft origin after := by
  have old : ∀ {id}, (before.get? id).isSome → id ≠ before.nextId := by
    rintro id issued rfl
    simp [get?_nextId] at issued
  have kinds : ∀ {id}, id ≠ before.nextId → after.kindAt id = before.kindAt id := fun different =>
    (adopted.kindAt _).trans (pushed.kinds different)
  have holds : ∀ holder child, before.Holds holder child → after.Holds holder child := by
    intro holder child holds
    rwa [Holds, Program.held, kinds (old holds.issued), ← Program.held]
  refine ⟨⟨fun {id node} found => ?_, ?_, ?_⟩, ?_, located_grow draft.located undefined pushed adopted,
    fun id definition new newDefinition names => ?_⟩
  · have foundBefore := draft.extended.old found
    have notTaken : id ∉ kind.owned := fun owned => by
      rw [(known id owned).inside] at found
      cases found
    rw [adopted.nodes, pushed.others (old (by simp [foundBefore])), foundBefore]
    simp [notTaken]
  · rw [adopted.rest, pushed.rest]
    exact draft.extended.roots
  · rw [adopted.rest, pushed.rest]
    exact draft.extended.index
  · exact orderly_grow draft.orderly pushed adopted fun child owned =>
      ⟨.inr (known child owned).inside, (known child owned).issued⟩
  · obtain ⟨later, knownLater, notModule, names⟩ := names
    have different : id ≠ before.nextId := by
      rintro rfl
      rw [adopted.kindAt, pushed.kindAt, Option.some.injEq] at knownLater
      rw [← knownLater, undefined] at names
      cases names
    rw [kinds different] at knownLater
    exact (draft.tied id definition new newDefinition ⟨later, knownLater, notModule, names⟩).mono holds

/-- A new node may get another kind that holds the same. -/
theorem setKind (new : origin.New id) (known : before.kindAt id = some kind)
    (alike : Alike kind changed) (redefined : Redefined origin.New before id kind changed) :
    Draft origin (before.modifyNode id fun node => { node with kind := changed }) := by
  have holds : ∀ holder child, before.Holds holder child →
      (before.modifyNode id fun node => { node with kind := changed }).Holds holder child := by
    intro holder child holds
    rw [Holds, Program.held, kindAt_setKind known]
    by_cases isId : holder = id
    · subst isId
      rw [Holds, held_eq_of_kindAt known] at holds
      simpa [alike.owned] using holds
    · rwa [if_neg isId, ← Program.held]
  refine ⟨⟨fun {other node} found => ?_, roots_modifyNode.trans draft.extended.roots,
    index_modifyNode.trans draft.extended.index⟩,
    orderly_setKind draft.orderly known alike, located_setKind draft.located known alike redefined,
    fun other definition newOther newDefinition names => ?_⟩
  · have different : id ≠ other := by
      rintro rfl
      rw [new] at found
      cases found
    rw [get?_modifyNode_of_ne different]
    exact draft.extended.old found
  · obtain ⟨later, knownLater, notModule, names⟩ := names
    rw [kindAt_setKind known] at knownLater
    have tiedBefore := fun names : before.Names other definition =>
      (draft.tied other definition newOther newDefinition names).mono holds
    by_cases isId : other = id
    · subst isId
      rw [if_pos rfl, Option.some.injEq] at knownLater
      subst knownLater
      rcases redefined with same | ⟨written, isWritten, _, _, holding⟩
      · exact tiedBefore ⟨kind, known, alike.isModule ▸ notModule, same ▸ names⟩
      · rw [isWritten, Option.some.injEq] at names
        subst names
        exact ⟨written, newDefinition, .single (holds written other holding), .refl⟩
    · rw [if_neg isId] at knownLater
      exact tiedBefore ⟨later, knownLater, notModule, names⟩

/-- What new nodes are attributed to does not matter. -/
theorem frame (nodes : after.nodes = before.nodes) (roots : after.roots = before.roots)
    (index : after.index = before.index) : Draft origin after := by
  have same : after.get? = before.get? := by
    funext id
    rw [get?, get?, nodes]
  have holds : after.Holds = before.Holds := by
    funext holder child
    rw [Holds, Holds, Program.held, Program.held, Program.kindAt, Program.kindAt, same]
  refine ⟨⟨fun found => ?_, roots.trans draft.extended.roots, index.trans draft.extended.index⟩,
    orderly_of_nodes draft.orderly nodes roots index, located_frame draft.located nodes, ?_⟩
  · rw [same]
    exact draft.extended.old found
  · intro id definition new newDefinition names
    rw [Joined, Contains, holds]
    rw [Names, Program.kindAt, same] at names
    exact draft.tied id definition new newDefinition names

end Growing

theorem workshop (origin : Program) : Workshop origin.New (Draft origin) where
  fresh draft := draft.new_of_unissued (get?_nextId _)
  grow := grow
  setKind := setKind
  frame := frame

/-! ## Copies -/

section Copies

variable {seeds : Remap} {updated : List NodeId} {answer : Edit.Duplication}

/-- A part of the tree is copied into the draft, and the copy hangs nowhere. -/
theorem duplicateWith (draft : Draft origin before) (healthy : Healthy origin)
    (reachable : origin.Reachable top) (unseeded : ∀ id, before.Contains top id → id ∉ seeds)
    (seedless : ∀ id ∈ seeds, ¬ (before.kindAt id).any Kind.isExpr)
    (run : Yields (Edit.duplicateWith top seeds updated false) before answer after) :
    Made origin.New (Draft origin) before answer.duplicate after ∧
      after.parentOf answer.duplicate = none ∧ Extends before after := by
  have forest := draft.orderly.forest
  have orderlyOrigin := (start healthy).orderly
  obtain ⟨issued, order, isTwin, duplicated⟩ :=
    duplicated_of_yields forest (.inl reachable) unseeded run
  have extended := duplicated.extends_before
  have sources : ∀ original target, original ∈ order → before.Names original target →
      origin.NamedInTree target ∧ (origin.kindAt target).any Kind.isExpr := by
    intro original target member names
    have inTree : origin.Reachable original :=
      (Arranged.reachable_of_extends orderlyOrigin draft.extended).mp <|
        ((Arranged.reachable_of_extends orderlyOrigin draft.extended).mpr reachable).contains
          (duplicated.mem_order.mp member)
    have namesOrigin : origin.Names original target :=
      (draft.extended.names_iff (Arranged.issued_of_reachable orderlyOrigin inTree)).mp names
    exact ⟨⟨original, inTree, namesOrigin⟩, healthy.defined original target inTree namesOrigin⟩
  have located : Located origin.New origin.NamedInTree after := by
    refine duplicated.located forest (.inl reachable) issued
      (fun _ unissued => draft.new_of_unissued unissued) seedless ?_ draft.located
    intro original target member names
    obtain ⟨named, isExpr⟩ := sources original target member names
    exact ⟨draft.extended.since.isExpr isExpr, .inr (.inl named)⟩
  have tied : ∀ id definition, origin.New id → origin.New definition → after.Names id definition →
      origin.Joined after id definition := by
    intro id definition new newDefinition names
    cases found : before.get? id with
    | some node =>
      have issuedId : (before.get? id).isSome := by simp [found]
      have joined := draft.tied id definition new newDefinition ((extended.names_iff issuedId).mp names)
      exact joined.mono fun holder child holds => (extended.same_holds holds.issued).mpr holds
    | none =>
      obtain ⟨original, target, member, rfl, namesTarget, rfl⟩ :=
        duplicated.exists_named forest (.inl reachable) issued found names
      obtain ⟨_, isExpr⟩ := sources original target member namesTarget
      by_cases inOrder : target ∈ order
      · rw [redirect, if_pos inOrder]
        have containsTwin := fun {id} (member : id ∈ order) =>
          duplicated.contains_twin forest (.inl reachable) issued (duplicated.mem_order.mp member)
        exact ⟨before.twin order top, draft.new_of_unissued unissued_twin, containsTwin member,
          containsTwin inOrder⟩
      · rw [redirect_expr seedless (draft.extended.since.isExpr isExpr) inOrder] at newDefinition
        rw [get?_eq_none_iff_kindAt.mp newDefinition] at isExpr
        cases isExpr
  obtain ⟨source, found⟩ := Option.isSome_iff_exists.mp issued
  have isCopy := duplicated.copy (duplicated.mem_order.mpr .refl) found
  refine ⟨⟨⟨⟨?_, duplicated.orderly (.inl reachable) issued draft.orderly, located, tied⟩,
    extended.since⟩, ?_, ?_⟩, ?_, extended⟩
  · exact draft.extended.trans extended
  · rw [isTwin]
    exact draft.new_of_unissued unissued_twin
  · rw [isTwin, isCopy]
    rfl
  · rw [isTwin, parentOf_eq isCopy]
    simp [copyOf]

end Copies

/-- A new node without parent is free-standing. -/
theorem freeStanding (draft : Draft origin program) (healthy : Healthy origin)
    (known : Known origin.New program top) (parentless : program.parentOf top = none) :
    FreeStanding program top := by
  have orderlyOrigin := (start healthy).orderly
  have forest := draft.orderly.forest
  have inside : origin.Reachable top ∨ origin.New top := .inr known.inside
  have reachable_iff : ∀ id, program.Reachable id ↔ origin.Reachable id := fun id =>
    Arranged.reachable_of_extends orderlyOrigin draft.extended
  have unreachable : ¬ program.Reachable top := fun reachable => by
    have issued := Arranged.issued_of_reachable orderlyOrigin ((reachable_iff top).mp reachable)
    rw [known.inside] at issued
    cases issued
  have insideBelow : ∀ id, program.Contains top id → origin.Reachable id ∨ origin.New id :=
    fun id contained => forest.contains inside contained
  have unreachableBelow : ∀ id, program.Contains top id → ¬ program.Reachable id :=
    fun id contained =>
      draft.orderly.rooted.not_reachable_below forest inside unreachable contained
  have newBelow : ∀ id, program.Contains top id → origin.New id := fun id contained =>
    (insideBelow id contained).resolve_left fun reachable =>
      unreachableBelow id contained ((reachable_iff id).mpr reachable)
  refine ⟨known.issued, parentless, fun id contained => ?_, fun holder child contained holds => ?_,
    fun id contained => ?_, fun id contained => ?_, fun id definition contained names => ?_⟩
  · exact draft.orderly.settled.no_context (insideBelow id contained) (unreachableBelow id contained)
      not_false
  · exact (forest.held (insideBelow holder contained) holds).2
  · exact forest.nodup (insideBelow id contained)
  · exact (forest.grounded (insideBelow id contained)).not_below_itself
  · rcases draft.located id definition (newBelow id contained) names with named | ⟨new, isExpr⟩
    · obtain ⟨other, reachable, namesToo⟩ := named
      have isExpr := healthy.defined other definition reachable namesToo
      have issued := Arranged.issued_of_reachable orderlyOrigin reachable
      exact ⟨draft.extended.since.isExpr isExpr, .inr (.inr ⟨other, (reachable_iff other).mpr reachable,
        (draft.extended.names_iff issued).mpr namesToo⟩)⟩
    · obtain ⟨above, newAbove, containsId, containsDefinition⟩ :=
        draft.tied id definition (newBelow id contained) new names
      refine ⟨isExpr, .inl ?_⟩
      rcases forest.comparable (.inr newAbove) inside containsId contained with higher | lower
      · rwa [forest.eq_of_contains_free (.inr newAbove) higher parentless]
      · exact lower.trans containsDefinition

end Draft

end ProgramTree.Program
