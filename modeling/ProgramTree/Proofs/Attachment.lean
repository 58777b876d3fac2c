import ProgramTree.Edit.Attachment
import ProgramTree.Proofs.Index
import ProgramTree.Proofs.SameTree

/-!
# Attaching and detaching a subtree

What `attach` and `detach` leave behind.  Both change contexts and index entries of
the subtree and nothing else.  Attaching below a node of the tree gives every node of
the subtree the context its holder hands out and enters it into the index; attaching
outside the tree, and detaching, take contexts away.  An attachment that ends has met
no node below itself.
-/

namespace ProgramTree.Edit

open Program Relation

variable {before after : Program} {top id : NodeId} {context : Context}

/-! ## Single nodes -/

/-- What placing one node changes. -/
structure PlacedOne (before : Program) (id : NodeId) (context : Context)
    (answer : List NodeId × Context) (after : Program) : Prop where
  same : SameTree before after
  issued : (before.get? id).isSome
  others : ∀ {other}, other ≠ id → after.get? other = before.get? other
  context : after.contextOf id = context
  children : answer.1 = before.held id
  inner : (after.IsPlaced id ∧ answer.2 = after.innerContext id) ∨
    (¬ after.IsPlaced id ∧ answer.2 = {})
  entries : ∀ {other category}, other ∈ after.index.entries category ↔
    other ∈ before.index.entries category ∨
      (id = other ∧ after.IsPlaced id ∧ (before.kindAt id).bind Kind.category? = some category)

theorem placedOne {answer : List NodeId × Context}
    (run : Yields (place id context) before answer after) :
    PlacedOne before id context answer after := by
  simp only [place, yields_bind, yields_change, yields_look, yields_modify, yields_pure,
    yields_ite, kindOf_eq_ok, inTree_eq_ok, childContext_eq_ok] at run
  obtain ⟨_, marked, ⟨issued, rfl⟩, kind, _, ⟨known, rfl⟩, placed, _, ⟨⟨_, agrees⟩, rfl⟩, run⟩ := run
  obtain ⟨node, found⟩ := Option.isSome_iff_exists.mp issued
  have same : SameTree before (before.modifyNode id fun node => { node with context }) :=
    .modifyNode id fun _ => rfl
  have foundMarked : (before.modifyNode id fun node => { node with context }).get? id =
      some { node with context } := by
    simp [get?_modifyNode, found]
  have others : ∀ {other}, other ≠ id →
      (before.modifyNode id fun node => { node with context }).get? other = before.get? other :=
    fun different => get?_modifyNode_of_ne (Ne.symm different)
  rw [same.kindAt] at known
  rcases run with ⟨isTrue, _, _, rfl, inner, _, ⟨⟨_, contextCases⟩, rfl⟩, rfl, rfl⟩ |
      ⟨isFalse, inner, _, ⟨⟨_, contextCases⟩, rfl⟩, rfl, rfl⟩
  · refine ⟨same.trans (.reindex _), issued, others, ?_, ?_, contextCases, ?_⟩
    · exact contextOf_eq foundMarked
    · exact (held_eq_of_kindAt known).symm
    · intro other category
      have placedHere := agrees.mp isTrue
      simp only [index_modifyNode, LiveIndex.mem_register, known, Option.bind_some]
      constructor
      · rintro (member | ⟨rfl, categorized⟩)
        · exact .inl member
        · exact .inr ⟨rfl, placedHere, categorized⟩
      · rintro (member | ⟨rfl, _, categorized⟩)
        · exact .inl member
        · exact .inr ⟨rfl, categorized⟩
  · refine ⟨same, issued, others, ?_, ?_, contextCases, ?_⟩
    · exact contextOf_eq foundMarked
    · exact (held_eq_of_kindAt known).symm
    · intro other category
      have unplaced := fun placedHere => isFalse (agrees.mpr placedHere)
      rw [index_modifyNode]
      constructor
      · exact .inl
      · rintro (member | ⟨_, placedHere, _⟩)
        · exact member
        · exact absurd placedHere unplaced

/-! ## What an attachment leaves alone -/

/-- An attachment below `top` leaves the tree and everything outside the subtree as it
was, and it met no node below itself. -/
structure AttachedBelow (before : Program) (top : NodeId) (after : Program) : Prop where
  same : SameTree before after
  others : ∀ {id}, ¬ before.Contains top id → after.get? id = before.get? id
  grounded : before.Grounded top

/-- The same for the subtrees of several nodes. -/
structure AllAttached (before : Program) (tops : List NodeId) (after : Program) : Prop where
  same : SameTree before after
  others : ∀ {id}, (∀ top ∈ tops, ¬ before.Contains top id) → after.get? id = before.get? id
  grounded : ∀ top ∈ tops, before.Grounded top

theorem allAttached {edit : NodeId → Edit Unit} {tops : List NodeId}
    (each : ∀ {top before after}, Yields (edit top) before () after →
      AttachedBelow before top after)
    (run : Yields (tops.forM edit) before () after) : AllAttached before tops after := by
  induction tops generalizing before with
  | nil =>
    rw [yields_forM_nil] at run
    subst run
    exact ⟨.refl _, fun _ => rfl, nofun⟩
  | cons first rest ih =>
    obtain ⟨between, firstRun, restRun⟩ := yields_forM_cons.mp run
    have firstAttached := each firstRun
    have restAttached := ih restRun
    refine ⟨firstAttached.same.trans restAttached.same, ?_, ?_⟩
    · intro id outside
      have outsideRest : ∀ top ∈ rest, ¬ between.Contains top id := by
        rw [firstAttached.same.contains]
        exact fun top member => outside top (by simp [member])
      rw [restAttached.others outsideRest, firstAttached.others (outside first (by simp))]
    · intro top member
      rcases List.mem_cons.mp member with rfl | member
      · exact firstAttached.grounded
      · rw [← firstAttached.same.grounded]
        exact restAttached.grounded top member

theorem yields_attachWithin_succ {depth : Nat} :
    Yields (attachWithin (depth + 1) top context) before () after ↔
      ∃ answer between, Yields (place top context) before answer between ∧
        Yields (answer.1.forM (attachWithin depth · answer.2)) between () after := by
  simp only [attachWithin, yields_bind]

theorem attachedBelow {depth : Nat}
    (run : Yields (attachWithin depth top context) before () after) :
    AttachedBelow before top after := by
  induction depth generalizing top context before after with
  | zero => exact (yields_throw run).elim
  | succ depth ih =>
    obtain ⟨answer, between, placeRun, childrenRun⟩ := yields_attachWithin_succ.mp run
    have placed := placedOne placeRun
    have children := allAttached ih childrenRun
    refine ⟨placed.same.trans children.same, ?_, ?_⟩
    · intro id outside
      rw [children.others, placed.others]
      · rintro rfl
        exact outside .refl
      · intro child holds
        rw [placed.same.contains]
        rw [placed.children] at holds
        exact fun below => outside (.head holds below)
    · refine ⟨_, fun child holds => ?_⟩
      have member : child ∈ answer.1 := by
        rw [placed.children]
        exact holds
      have grounded := children.grounded child member
      rw [placed.same.grounded] at grounded
      exact grounded

theorem yields_attach :
    Yields (attach top context) before () after ↔
      Yields (attachWithin before.levelBound top context) before () after := by
  simp only [attach, yields_bind, yields_get]
  constructor
  · rintro ⟨_, _, ⟨rfl, rfl⟩, run⟩
    exact run
  · exact fun run => ⟨_, _, ⟨rfl, rfl⟩, run⟩

/-! ## Attaching outside the tree -/

/-- Below nodes outside the tree nothing gets a context or an index entry. -/
structure DarkBelow (before : Program) (tops : List NodeId) (after : Program) : Prop where
  context : ∀ {top id}, top ∈ tops → before.Contains top id → after.contextOf id = {}
  unchanged : ∀ {id}, before.contextOf id = {} → after.contextOf id = {}
  index : ∀ {id category}, id ∈ after.index.entries category ↔ id ∈ before.index.entries category

theorem darkBelow_forM (origin : Program) {edit : NodeId → Edit Unit} {tops : List NodeId}
    (each : ∀ {top before after}, top ∈ tops → SameTree origin before →
      Yields (edit top) before () after → SameTree before after ∧ DarkBelow before [top] after)
    (same : SameTree origin before) (run : Yields (tops.forM edit) before () after) :
    DarkBelow before tops after := by
  induction tops generalizing before with
  | nil =>
    rw [yields_forM_nil] at run
    subst run
    exact ⟨nofun, fun empty => empty, Iff.rfl⟩
  | cons first rest ih =>
    obtain ⟨between, firstRun, restRun⟩ := yields_forM_cons.mp run
    obtain ⟨sameFirst, firstDark⟩ := each (by simp) same firstRun
    have restDark := ih (fun member => each (by simp [member])) (same.trans sameFirst) restRun
    refine ⟨?_, fun empty => restDark.unchanged (firstDark.unchanged empty),
      restDark.index.trans firstDark.index⟩
    intro top id member contained
    rcases List.mem_cons.mp member with rfl | member
    · exact restDark.unchanged (firstDark.context (by simp) contained)
    · refine restDark.context member ?_
      rw [sameFirst.contains]
      exact contained

theorem darkBelow {depth : Nat}
    (notRoot : ∀ id, before.Contains top id → id ∉ before.roots)
    (run : Yields (attachWithin depth top {}) before () after) :
    DarkBelow before [top] after := by
  induction depth generalizing top before after with
  | zero => exact (yields_throw run).elim
  | succ depth ih =>
    obtain ⟨⟨children, inner⟩, between, placeRun, childrenRun⟩ :=
      yields_attachWithin_succ.mp run
    have placed := placedOne placeRun
    have unplaced : ¬ between.IsPlaced top := by
      rintro (root | enclosed)
      · rw [placed.same.roots] at root
        exact notRoot top .refl root
      · simp [placed.context] at enclosed
    have innerEmpty : inner = {} := by
      rcases placed.inner with ⟨placedHere, _⟩ | ⟨_, empty⟩
      · exact absurd placedHere unplaced
      · exact empty
    subst innerEmpty
    obtain rfl : children = before.held top := placed.children
    have dark : DarkBelow between (before.held top) after := by
      refine darkBelow_forM before ?_ placed.same childrenRun
      intro child before' after' holds same childRun
      refine ⟨(attachedBelow childRun).same, ih ?_ childRun⟩
      rw [same.contains, same.roots]
      exact fun id below => notRoot id (.head holds below)
    have unchanged : ∀ {id}, before.contextOf id = {} → after.contextOf id = {} := by
      intro id empty
      refine dark.unchanged ?_
      by_cases self : id = top
      · rw [self, placed.context]
      · rw [Program.contextOf, placed.others self]
        exact empty
    refine ⟨?_, unchanged, ?_⟩
    · intro root id member contained
      obtain rfl : root = top := by simpa using member
      rcases contained.cases_head with rfl | ⟨child, holds, below⟩
      · exact dark.unchanged placed.context
      · refine dark.context holds ?_
        rw [placed.same.contains]
        exact below
    · intro id category
      rw [dark.index, placed.entries]
      simp [unplaced]

/-! ## Attaching in the tree -/

/-- Below `tops`, which get this context, every node has the context that its holder
hands out, and all of these nodes are in the index. -/
structure LitBelow (before : Program) (tops : List NodeId) (context : Context)
    (after : Program) : Prop where
  context : ∀ {top}, top ∈ tops → after.contextOf top = context
  below : ∀ {top holder child}, top ∈ tops → before.Contains top holder →
    before.Holds holder child → after.contextOf child = after.innerContext holder
  index : ∀ {id category}, id ∈ after.index.entries category ↔
    id ∈ before.index.entries category ∨
      ((∃ top ∈ tops, before.Contains top id) ∧
        (before.kindAt id).bind Kind.category? = some category)

theorem litBelow_forM (origin : Program) {edit : NodeId → Edit Unit} {tops : List NodeId}
    (disjoint : ∀ {first second id}, first ∈ tops → second ∈ tops → first ≠ second →
      origin.Contains first id → ¬ origin.Contains second id)
    (nodup : tops.Nodup)
    (attached : ∀ {top before after}, Yields (edit top) before () after →
      AttachedBelow before top after)
    (each : ∀ {top before after}, top ∈ tops → SameTree origin before →
      Yields (edit top) before () after → LitBelow before [top] context after)
    (same : SameTree origin before) (run : Yields (tops.forM edit) before () after) :
    LitBelow before tops context after := by
  induction tops generalizing before with
  | nil =>
    rw [yields_forM_nil] at run
    subst run
    exact ⟨nofun, nofun, by simp⟩
  | cons first rest ih =>
    obtain ⟨between, firstRun, restRun⟩ := yields_forM_cons.mp run
    have firstLit := each (by simp) same firstRun
    have sameFirst := (attached firstRun).same
    have sameBetween := same.trans sameFirst
    obtain ⟨notInRest, nodupRest⟩ := List.nodup_cons.mp nodup
    have restLit := ih (fun memberFirst memberSecond =>
      disjoint (by simp [memberFirst]) (by simp [memberSecond])) nodupRest
      (fun member => each (by simp [member])) sameBetween restRun
    have frame : ∀ {id}, before.Contains first id → after.contextOf id = between.contextOf id := by
      intro id contained
      rw [same.contains] at contained
      have outside : ∀ top ∈ rest, ¬ between.Contains top id := by
        intro top member
        rw [sameBetween.contains]
        refine disjoint (by simp) (by simp [member]) ?_ contained
        rintro rfl
        exact notInRest member
      rw [Program.contextOf, (allAttached attached restRun).others outside, Program.contextOf]
    refine ⟨?_, ?_, ?_⟩
    · intro top member
      rcases List.mem_cons.mp member with rfl | member
      · rw [frame .refl, firstLit.context (by simp)]
      · exact restLit.context member
    · intro top holder child member contained holds
      rcases List.mem_cons.mp member with rfl | member
      · have context := firstLit.below (by simp) contained holds
        rw [frame (contained.tail holds), context,
          (allAttached attached restRun).same.innerContext (frame contained)]
      · rw [← sameFirst.contains] at contained
        rw [← sameFirst.holds] at holds
        exact restLit.below member contained holds
    · intro id category
      rw [restLit.index, firstLit.index, sameFirst.contains, sameFirst.kindAt]
      simp only [List.mem_cons, List.not_mem_nil, or_false, exists_eq_left, exists_eq_or_imp]
      tauto

/-- The node itself is in the tree once it has its context. -/
def Lights (program : Program) (top : NodeId) (context : Context) : Prop :=
  context.symbol?.isSome ∨
    (top ∈ program.roots ∧ (program.kindAt top).any Kind.isSymbol)

theorem litBelow {depth : Nat} {region : NodeId → Prop} {loose : List NodeId}
    (forest : Forest region loose before) (inside : region top)
    (lights : Lights before top context)
    (run : Yields (attachWithin depth top context) before () after) :
    LitBelow before [top] context after := by
  induction depth generalizing top context before after with
  | zero => exact (yields_throw run).elim
  | succ depth ih =>
    obtain ⟨⟨children, inner⟩, between, placeRun, childrenRun⟩ :=
      yields_attachWithin_succ.mp run
    have placed := placedOne placeRun
    have placedHere : between.IsPlaced top := by
      rcases lights with enclosed | ⟨root, _⟩
      · exact .inr (by rw [placed.context]; exact enclosed)
      · exact .inl (by rw [placed.same.roots]; exact root)
    have innerContext : inner = between.innerContext top := by
      rcases placed.inner with ⟨_, context⟩ | ⟨unplaced, _⟩
      · exact context
      · exact absurd placedHere unplaced
    have innerLights : inner.symbol?.isSome := by
      rw [innerContext, Program.innerContext, placed.same.kindAt, placed.context]
      rcases lights with enclosed | ⟨_, symbol⟩
      · by_cases symbol : (before.kindAt top).any Kind.isSymbol <;> simp [symbol, enclosed]
      · simp [symbol]
    obtain rfl : children = before.held top := placed.children
    have lit : LitBelow between (before.held top) inner after := by
      refine litBelow_forM before ?_ (forest.nodup inside) attachedBelow ?_
        placed.same childrenRun
      · exact fun holdsFirst holdsSecond different =>
          forest.siblings_disjoint inside holdsFirst holdsSecond different
      · intro child before' after' holds same childRun
        exact ih (same.forest forest) (forest.held inside holds).1 (.inl innerLights) childRun
    have attached := allAttached attachedBelow childrenRun
    have topContext : after.contextOf top = context := by
      have outside : ∀ child ∈ before.held top, ¬ between.Contains child top := by
        rw [placed.same.contains]
        exact fun child holds => forest.not_contains_holder inside holds
      rw [Program.contextOf, attached.others outside]
      exact placed.context
    refine ⟨?_, ?_, ?_⟩
    · intro other member
      obtain rfl : other = top := by simpa using member
      exact topContext
    · intro other holder child member contained holds
      obtain rfl : other = top := by simpa using member
      rcases contained.cases_head with rfl | ⟨middle, holdsMiddle, below⟩
      · rw [lit.context holds, innerContext]
        exact (attached.same.innerContext (topContext.trans placed.context.symm)).symm
      · have containedBetween : between.Contains middle holder := by
          rw [placed.same.contains]
          exact below
        rw [← placed.same.holds] at holds
        exact lit.below holdsMiddle containedBetween holds
    · intro id category
      rw [lit.index, placed.entries, placed.same.contains, placed.same.kindAt]
      simp only [placedHere, true_and, List.mem_singleton, exists_eq_left]
      constructor
      · rintro ((member | ⟨rfl, categorized⟩) | ⟨⟨child, holds, below⟩, categorized⟩)
        · exact .inl member
        · exact .inr ⟨.refl, categorized⟩
        · exact .inr ⟨.head holds below, categorized⟩
      · rintro (member | ⟨contained, categorized⟩)
        · exact .inl (.inl member)
        · rcases contained.cases_head with rfl | ⟨child, holds, below⟩
          · exact .inl (.inr ⟨rfl, categorized⟩)
          · exact .inr ⟨⟨child, holds, below⟩, categorized⟩

/-! ## Detaching -/

/-- Detaching takes the contexts and the index entries of a set of nodes away. -/
structure Displaced (before : Program) (gone : NodeId → Prop) (after : Program) : Prop where
  same : SameTree before after
  others : ∀ {id}, ¬ gone id → after.get? id = before.get? id
  context : ∀ {id}, gone id → after.contextOf id = {}
  index : ∀ {id category}, id ∈ after.index.entries category ↔
    id ∈ before.index.entries category ∧ ¬ gone id

theorem displaced_one (run : Yields (displace id) before () after) :
    Displaced before (· = id) after := by
  simp only [displace, yields_bind, yields_change, yields_modify] at run
  obtain ⟨_, _, ⟨_, rfl⟩, rfl⟩ := run
  have same : SameTree before (before.modifyNode id fun node => { node with context := {} }) :=
    .modifyNode id fun _ => rfl
  refine ⟨same.trans (.reindex _), ?_, ?_, ?_⟩
  · exact fun different => get?_modifyNode_of_ne (Ne.symm different)
  · intro other gone
    rw [gone]
    change (Option.map Node.context ((Program.modifyNode before _ _).get? id)).getD {} = {}
    rw [get?_modifyNode, if_pos rfl, Option.map_map]
    cases before.get? id <;> rfl
  · intro other category
    simp [LiveIndex.mem_deregister, eq_comm]

theorem displaced_forM {nodes : List NodeId} (run : Yields (nodes.forM displace) before () after) :
    Displaced before (· ∈ nodes) after := by
  induction nodes generalizing before with
  | nil =>
    rw [yields_forM_nil] at run
    subst run
    exact ⟨.refl _, fun _ => rfl, nofun, by simp⟩
  | cons first rest ih =>
    obtain ⟨between, firstRun, restRun⟩ := yields_forM_cons.mp run
    have one := displaced_one firstRun
    have others := ih restRun
    refine ⟨one.same.trans others.same, ?_, ?_, ?_⟩
    · intro id kept
      rw [List.mem_cons, not_or] at kept
      rw [others.others kept.2, one.others kept.1]
    · intro id gone
      by_cases inRest : id ∈ rest
      · exact others.context inRest
      · have isFirst : id = first := by simpa [inRest] using gone
        rw [Program.contextOf, others.others inRest]
        exact one.context isFirst
    · intro id category
      rw [others.index, one.index, List.mem_cons, not_or, and_assoc]

theorem displaced (run : Yields (detach top) before () after) :
    Displaced before (before.Contains top) after := by
  simp only [detach, yields_bind, yields_look] at run
  obtain ⟨nodes, _, ⟨walked, unchanged⟩, run⟩ := run
  rw [unchanged] at run
  have members : (· ∈ nodes) = before.Contains top := by
    funext id
    exact propext (mem_subtree walked)
  rw [← members]
  exact displaced_forM run

end ProgramTree.Edit
