import ProgramTree.Proofs.Attachment

/-!
# Orderly programs

The invariant that edits of the tree keep.  In a region of the program slots and
parents agree, the roots are distinct modules that nothing holds, reachable nodes have
the context their holder hands out, unreachable ones have none, and the index knows the
reachable nodes of its categories.  Two parts are demanded on request only: that the
index is complete, and that the roots have no context.

In the middle of an edit a set of nodes is unsettled: their contexts and index entries
are still those of an earlier place.
-/

namespace ProgramTree.Program

open Relation

/-- The roots are distinct modules of the region, without parent. -/
structure Rooted (region : NodeId → Prop) (program : Program) : Prop where
  inside : ∀ {id}, id ∈ program.roots → region id
  module : ∀ {id}, id ∈ program.roots → (program.kindAt id).any Kind.isModule
  free : ∀ {id}, id ∈ program.roots → program.parentOf id = none
  nodup : program.roots.toList.Nodup

/-- Contexts and index entries fit the place of every node that is not unsettled. -/
structure Settled (exact bare : Prop) (region unsettled : NodeId → Prop)
    (program : Program) : Prop where
  root_context : ∀ {id}, bare → id ∈ program.roots → ¬ unsettled id → program.contextOf id = {}
  context : ∀ {holder child}, program.Reachable holder → program.Holds holder child →
    ¬ unsettled child → program.contextOf child = program.innerContext holder
  no_context : ∀ {id}, region id → ¬ program.Reachable id → ¬ unsettled id →
    program.contextOf id = {}
  indexed_reachable : ∀ {id category}, id ∈ program.index.entries category →
    ¬ unsettled id → program.Reachable id
  indexed_kind : ∀ {id category}, exact → id ∈ program.index.entries category →
    (program.kindAt id).bind Kind.category? = some category
  reachable_indexed : ∀ {id category}, exact → program.Reachable id → ¬ unsettled id →
    (program.kindAt id).bind Kind.category? = some category →
    id ∈ program.index.entries category

/-- The invariant in the middle of an edit. -/
structure Arranged (exact bare : Prop) (region : NodeId → Prop) (loose : List NodeId)
    (unsettled : NodeId → Prop) (program : Program) : Prop where
  forest : Forest region loose program
  rooted : Rooted region program
  settled : Settled exact bare region unsettled program

/-- The invariant between edits: nothing is unsettled. -/
abbrev Orderly (exact bare : Prop) (region : NodeId → Prop) (loose : List NodeId) :
    Program → Prop :=
  Arranged exact bare region loose fun _ => False

/-- Two programs that may differ in slots, parents and roots, but in nothing that a
context or an index entry is made of. -/
structure SameFrame (before after : Program) : Prop where
  context : ∀ id, after.contextOf id = before.contextOf id
  isSymbol : ∀ id, (after.kindAt id).any Kind.isSymbol = (before.kindAt id).any Kind.isSymbol
  isScope : ∀ id, (after.kindAt id).any Kind.isScope = (before.kindAt id).any Kind.isScope
  isModule : ∀ id, (after.kindAt id).any Kind.isModule = (before.kindAt id).any Kind.isModule
  category : ∀ id,
    (after.kindAt id).bind Kind.category? = (before.kindAt id).bind Kind.category?
  index : after.index = before.index

variable {exact bare : Prop} {region unsettled : NodeId → Prop} {loose : List NodeId}
  {program before after : Program} {top id holder child : NodeId} {context : Context}

theorem SameFrame.innerContext (framed : SameFrame before after) :
    after.innerContext id = before.innerContext id := by
  simp [Program.innerContext, framed.isSymbol, framed.isScope, framed.context]

theorem isSymbol_of_isModule (module : (program.kindAt id).any Kind.isModule) :
    (program.kindAt id).any Kind.isSymbol := by
  cases known : program.kindAt id with
  | none => simp [known] at module
  | some kind => cases kind <;> simp_all [Kind.isModule, Kind.isSymbol, Kind.symbol?]

theorem SameTree.rooted (same : SameTree before after) (rooted : Rooted region before) :
    Rooted region after where
  inside root := rooted.inside (same.roots ▸ root)
  module root := by
    rw [same.kindAt]
    exact rooted.module (same.roots ▸ root)
  free root := by
    rw [same.parentOf]
    exact rooted.free (same.roots ▸ root)
  nodup := by
    rw [same.roots]
    exact rooted.nodup

namespace Rooted

theorem not_held (rooted : Rooted region program) (forest : Forest region loose program)
    (root : id ∈ program.roots) (inside : region holder) : ¬ program.Holds holder id := by
  intro holds
  have named := (forest.held inside holds).2
  simp [rooted.free root] at named

theorem isSymbol (rooted : Rooted region program) (root : id ∈ program.roots) :
    (program.kindAt id).any Kind.isSymbol :=
  isSymbol_of_isModule (rooted.module root)

theorem reachable_inside (rooted : Rooted region program) (forest : Forest region loose program)
    (reachable : program.Reachable id) : region id := by
  obtain ⟨root, member, contained⟩ := reachable
  exact forest.contains (rooted.inside member) contained

/-- What is contained in an unreachable node is not reachable from anywhere else. -/
theorem not_reachable_below (rooted : Rooted region program)
    (forest : Forest region loose program) (inside : region top)
    (unreachable : ¬ program.Reachable top) (contained : program.Contains top id) :
    ¬ program.Reachable id := by
  rintro ⟨root, member, below⟩
  rcases forest.comparable (rooted.inside member) inside below contained with above | above
  · exact unreachable ⟨root, member, above⟩
  · have isTop := forest.eq_of_contains_free inside above (rooted.free member)
    exact unreachable (.of_root (isTop ▸ member))

theorem not_reachable_of_free (rooted : Rooted region program)
    (forest : Forest region loose program) (free : program.parentOf top = none)
    (notRoot : top ∉ program.roots) : ¬ program.Reachable top := by
  rintro ⟨root, member, above⟩
  have isRoot := forest.eq_of_contains_free (rooted.inside member) above free
  exact notRoot (isRoot ▸ member)

theorem reachable_holder (rooted : Rooted region program) (forest : Forest region loose program)
    (named : program.parentOf id = some holder) (reachable : program.Reachable id) :
    program.Reachable holder := by
  rcases reachable.root_or_held with root | ⟨other, reachableOther, holds⟩
  · simp [rooted.free root] at named
  · rw [(forest.held (rooted.reachable_inside forest reachableOther) holds).2,
      Option.some.injEq] at named
    exact named ▸ reachableOther

theorem not_reachable_fresh (rooted : Rooted region program)
    (forest : Forest region loose program) : ¬ program.Reachable program.nextId := by
  intro reachable
  rcases reachable.root_or_held with root | ⟨holder, reachableHolder, holds⟩
  · have module := rooted.module root
    simp [kindAt, get?_nextId] at module
  · exact forest.not_holds_fresh (rooted.reachable_inside forest reachableHolder) holds

end Rooted

/-- The place of `top` in the tree is one that gives it this context: `top` is a root
and gets none, or a reachable node holds it and hands the context out. -/
def Fits (program : Program) (top : NodeId) (context : Context) : Prop :=
  (top ∈ program.roots ∧ context = {}) ∨
    (context.symbol?.isSome ∧ ∃ holder, program.Reachable holder ∧
      program.Holds holder top ∧ context = program.innerContext holder)

theorem Fits.reachable (fits : Fits program top context) : program.Reachable top := by
  rcases fits with ⟨root, _⟩ | ⟨_, holder, reachable, holds, _⟩
  · exact .of_root root
  · exact reachable.holds holds

/-! ## Settled programs -/

namespace Settled

/-- A program that agrees with a settled one outside a set of nodes is settled outside
that set. -/
theorem of_agreement (settled : Settled exact bare region (fun _ => False) before)
    (framed : SameFrame before after)
    (roots : ∀ {id}, id ∈ after.roots → ¬ unsettled id → id ∈ before.roots)
    (closed : ∀ {holder child}, after.Holds holder child → unsettled holder → unsettled child)
    (holds : ∀ {holder child}, before.Reachable holder → after.Holds holder child →
      ¬ unsettled child → before.Holds holder child)
    (reachable : ∀ {id}, ¬ unsettled id → (after.Reachable id ↔ before.Reachable id)) :
    Settled exact bare region unsettled after where
  root_context wanted root kept := by
    rw [framed.context]
    exact settled.root_context wanted (roots root kept) id
  context reachableHolder holdsChild kept := by
    have reachableBefore := (reachable (mt (closed holdsChild) kept)).mp reachableHolder
    rw [framed.context, framed.innerContext]
    exact settled.context reachableBefore (holds reachableBefore holdsChild kept) id
  no_context inside unreachable kept := by
    rw [framed.context]
    exact settled.no_context inside (mt (reachable kept).mpr unreachable) id
  indexed_reachable member kept := by
    rw [framed.index] at member
    exact (reachable kept).mpr (settled.indexed_reachable member not_false)
  indexed_kind wanted member := by
    rw [framed.index] at member
    rw [framed.category]
    exact settled.indexed_kind wanted member
  reachable_indexed wanted reachableId kept categorized := by
    rw [framed.category] at categorized
    rw [framed.index]
    exact settled.reachable_indexed wanted ((reachable kept).mp reachableId) id categorized

theorem weaken {fewer : NodeId → Prop} (settled : Settled exact bare region unsettled program)
    (implies : ∀ {id}, unsettled id → fewer id) : Settled exact bare region fewer program where
  root_context wanted root kept := settled.root_context wanted root (mt implies kept)
  context reachable holds kept := settled.context reachable holds (mt implies kept)
  no_context inside unreachable kept := settled.no_context inside unreachable (mt implies kept)
  indexed_reachable member kept := settled.indexed_reachable member (mt implies kept)
  indexed_kind := settled.indexed_kind
  reachable_indexed wanted reachable kept :=
    settled.reachable_indexed wanted reachable (mt implies kept)

/-- Displacing unreachable nodes settles them. -/
theorem displace (settled : Settled exact bare region unsettled before) {gone : NodeId → Prop}
    (displaced : Edit.Displaced before gone after)
    (unreachable : ∀ {id}, gone id → ¬ before.Reachable id) :
    Settled exact bare region (fun id => unsettled id ∧ ¬ gone id) after := by
  have same := displaced.same
  have contextOf : ∀ {id}, ¬ gone id → after.contextOf id = before.contextOf id := by
    intro id kept
    rw [Program.contextOf, displaced.others kept, Program.contextOf]
  have keptOf : ∀ {id}, before.Reachable id → ¬ gone id :=
    fun reachable contained => unreachable contained reachable
  refine ⟨?_, ?_, ?_, ?_, ?_, ?_⟩
  · intro id wanted root kept
    rw [same.roots] at root
    have outside := keptOf (.of_root root)
    rw [contextOf outside]
    exact settled.root_context wanted root fun here => kept ⟨here, outside⟩
  · intro holder child reachable holds kept
    rw [same.reachable] at reachable
    rw [same.holds] at holds
    have outside := keptOf (reachable.holds holds)
    rw [contextOf outside, same.innerContext (contextOf (keptOf reachable))]
    exact settled.context reachable holds fun here => kept ⟨here, outside⟩
  · intro id inside unreachableId kept
    rw [same.reachable] at unreachableId
    by_cases isGone : gone id
    · exact displaced.context isGone
    · rw [contextOf isGone]
      exact settled.no_context inside unreachableId fun here => kept ⟨here, isGone⟩
  · intro id category member kept
    obtain ⟨indexed, outside⟩ := displaced.index.mp member
    rw [same.reachable]
    exact settled.indexed_reachable indexed fun here => kept ⟨here, outside⟩
  · intro id category wanted member
    rw [same.kindAt]
    exact settled.indexed_kind wanted (displaced.index.mp member).1
  · intro id category wanted reachable kept categorized
    rw [same.reachable] at reachable
    rw [same.kindAt] at categorized
    have outside := keptOf reachable
    exact displaced.index.mpr
      ⟨settled.reachable_indexed wanted reachable (fun here => kept ⟨here, outside⟩) categorized,
        outside⟩

/-- Attaching an unreachable subtree without context keeps what is settled. -/
theorem attach_dark (settled : Settled exact bare region unsettled before)
    (same : SameTree before after) (dark : Edit.DarkBelow before [top] after)
    (others : ∀ {id}, ¬ before.Contains top id → after.get? id = before.get? id)
    (unreachable : ∀ {id}, before.Contains top id → ¬ before.Reachable id) :
    Settled exact bare region unsettled after := by
  have contextOf : ∀ {id}, before.Reachable id → after.contextOf id = before.contextOf id := by
    intro id reachable
    rw [Program.contextOf, others fun contained => unreachable contained reachable,
      Program.contextOf]
  refine ⟨?_, ?_, ?_, ?_, ?_, ?_⟩
  · intro id wanted root kept
    rw [same.roots] at root
    rw [contextOf (.of_root root)]
    exact settled.root_context wanted root kept
  · intro holder child reachable holds kept
    rw [same.reachable] at reachable
    rw [same.holds] at holds
    rw [contextOf (reachable.holds holds), same.innerContext (contextOf reachable)]
    exact settled.context reachable holds kept
  · intro id inside unreachableId kept
    rw [same.reachable] at unreachableId
    exact dark.unchanged (settled.no_context inside unreachableId kept)
  · intro id category member kept
    rw [same.reachable]
    exact settled.indexed_reachable (dark.index.mp member) kept
  · intro id category wanted member
    rw [same.kindAt]
    exact settled.indexed_kind wanted (dark.index.mp member)
  · intro id category wanted reachable kept categorized
    rw [same.reachable] at reachable
    rw [same.kindAt] at categorized
    exact dark.index.mpr (settled.reachable_indexed wanted reachable kept categorized)

/-- Attaching a reachable subtree with the context of its place settles it. -/
theorem attach_lit (settled : Settled exact bare region unsettled before)
    (forest : Forest region loose before) (rooted : Rooted region before)
    (inside : region top) (fits : Fits before top context)
    (attached : Edit.AttachedBelow before top after)
    (lit : Edit.LitBelow before [top] context after) :
    Settled exact bare region (fun id => unsettled id ∧ ¬ before.Contains top id) after := by
  have same := attached.same
  have contextOf : ∀ {id}, ¬ before.Contains top id →
      after.contextOf id = before.contextOf id := by
    intro id kept
    rw [Program.contextOf, attached.others kept, Program.contextOf]
  have reachableTop := fits.reachable
  refine ⟨?_, ?_, ?_, ?_, ?_, ?_⟩
  · intro id wanted root kept
    rw [same.roots] at root
    by_cases contained : before.Contains top id
    · obtain rfl := forest.eq_of_contains_free inside contained (rooted.free root)
      rcases fits with ⟨_, empty⟩ | ⟨_, holder, reachable, holds, _⟩
      · rw [lit.context (by simp), empty]
      · exact absurd holds (rooted.not_held forest root (rooted.reachable_inside forest reachable))
    · rw [contextOf contained]
      exact settled.root_context wanted root fun here => kept ⟨here, contained⟩
  · intro holder child reachable holds kept
    rw [same.reachable] at reachable
    rw [same.holds] at holds
    have insideHolder := rooted.reachable_inside forest reachable
    by_cases contained : before.Contains top child
    · by_cases isTop : child = top
      · subst isTop
        rcases fits with ⟨root, _⟩ | ⟨_, above, reachableAbove, holdsTop, handed⟩
        · exact absurd holds (rooted.not_held forest root insideHolder)
        · have named := (forest.held insideHolder holds).2
          rw [(forest.held (rooted.reachable_inside forest reachableAbove) holdsTop).2,
            Option.some.injEq] at named
          subst named
          rw [lit.context (by simp), handed,
            same.innerContext (contextOf (forest.not_contains_holder insideHolder holds))]
      · obtain ⟨above, named, below⟩ := forest.parent_of_contains inside contained isTop
        rw [(forest.held insideHolder holds).2, Option.some.injEq] at named
        subst named
        exact lit.below (by simp) below holds
    · have outside : ¬ before.Contains top holder := fun below => contained (below.tail holds)
      rw [contextOf contained, same.innerContext (contextOf outside)]
      exact settled.context reachable holds fun here => kept ⟨here, contained⟩
  · intro id insideId unreachable kept
    rw [same.reachable] at unreachable
    have outside : ¬ before.Contains top id := fun contained =>
      unreachable (reachableTop.contains contained)
    rw [contextOf outside]
    exact settled.no_context insideId unreachable fun here => kept ⟨here, outside⟩
  · intro id category member kept
    rw [same.reachable]
    by_cases contained : before.Contains top id
    · exact reachableTop.contains contained
    · rcases lit.index.mp member with indexed | ⟨⟨other, isTop, below⟩, _⟩
      · exact settled.indexed_reachable indexed fun here => kept ⟨here, contained⟩
      · obtain rfl : other = top := by simpa using isTop
        exact absurd below contained
  · intro id category wanted member
    rw [same.kindAt]
    rcases lit.index.mp member with indexed | ⟨_, categorized⟩
    · exact settled.indexed_kind wanted indexed
    · exact categorized
  · intro id category wanted reachable kept categorized
    rw [same.reachable] at reachable
    rw [same.kindAt] at categorized
    by_cases contained : before.Contains top id
    · exact lit.index.mpr (.inr ⟨⟨top, by simp, contained⟩, categorized⟩)
    · exact lit.index.mpr (.inl (settled.reachable_indexed wanted reachable
        (fun here => kept ⟨here, contained⟩) categorized))

end Settled

/-! ## Attaching and detaching in an arranged program -/

namespace Arranged

theorem displace (arranged : Arranged exact bare region loose unsettled before)
    {gone : NodeId → Prop} (displaced : Edit.Displaced before gone after)
    (unreachable : ∀ {id}, gone id → ¬ before.Reachable id) :
    Arranged exact bare region loose (fun id => unsettled id ∧ ¬ gone id) after :=
  ⟨displaced.same.forest arranged.forest, displaced.same.rooted arranged.rooted,
    arranged.settled.displace displaced unreachable⟩

theorem weaken {fewer : NodeId → Prop}
    (arranged : Arranged exact bare region loose unsettled before)
    (implies : ∀ {id}, unsettled id → fewer id) :
    Arranged exact bare region loose fewer before :=
  ⟨arranged.forest, arranged.rooted, arranged.settled.weaken implies⟩

theorem attach_fitting (arranged : Arranged exact bare region loose unsettled before)
    (inside : region top) (fits : Fits before top context)
    (run : Edit.Yields (Edit.attach top context) before () after) :
    Arranged exact bare region loose (fun id => unsettled id ∧ ¬ before.Contains top id) after := by
  rw [Edit.yields_attach] at run
  have attached := Edit.attachedBelow run
  have lights : Edit.Lights before top context := by
    rcases fits with ⟨root, _⟩ | ⟨enclosed, _⟩
    · exact .inr ⟨root, arranged.rooted.isSymbol root⟩
    · exact .inl enclosed
  refine ⟨attached.same.forest arranged.forest, attached.same.rooted arranged.rooted, ?_⟩
  exact arranged.settled.attach_lit arranged.forest arranged.rooted inside fits attached
    (Edit.litBelow arranged.forest inside lights run)

theorem attach_unreachable (arranged : Arranged exact bare region loose unsettled before)
    (unreachable : ∀ {id}, before.Contains top id → ¬ before.Reachable id)
    (run : Edit.Yields (Edit.attach top {}) before () after) :
    Arranged exact bare region loose unsettled after := by
  rw [Edit.yields_attach] at run
  have attached := Edit.attachedBelow run
  have dark := Edit.darkBelow (fun id contained root => unreachable contained (.of_root root)) run
  refine ⟨attached.same.forest arranged.forest, attached.same.rooted arranged.rooted, ?_⟩
  exact arranged.settled.attach_dark attached.same dark attached.others unreachable

end Arranged

/-! ## What an orderly program knows about a place -/

namespace Orderly

theorem reachable_inside (orderly : Orderly exact bare region loose program)
    (reachable : program.Reachable id) : region id :=
  orderly.rooted.reachable_inside orderly.forest reachable

theorem context_of_held (orderly : Orderly exact bare region loose program)
    (reachable : program.Reachable holder) (holds : program.Holds holder child) :
    program.contextOf child = program.innerContext holder :=
  orderly.settled.context reachable holds not_false

/-- A reachable node hands out an enclosing symbol. -/
theorem innerContext_symbol (orderly : Orderly exact bare region loose program)
    (reachable : program.Reachable id) : (program.innerContext id).symbol?.isSome := by
  obtain ⟨root, member, contained⟩ := reachable
  induction contained with
  | refl => simp [innerContext, orderly.rooted.isSymbol member]
  | @tail holder child above holds ih =>
    have context := orderly.context_of_held ⟨root, member, above⟩ holds
    by_cases symbol : (program.kindAt child).any Kind.isSymbol
    · simp [innerContext, symbol]
    · rw [innerContext, context]
      simpa [symbol] using ih

/-- To be part of the tree by the looks of a node is to be reachable. -/
theorem isPlaced_iff (orderly : Orderly exact bare region loose program) (inside : region id) :
    program.IsPlaced id ↔ program.Reachable id := by
  constructor
  · rintro (root | enclosed)
    · exact .of_root root
    · by_contra unreachable
      rw [orderly.settled.no_context inside unreachable not_false] at enclosed
      simp at enclosed
  · intro reachable
    rcases reachable.root_or_held with root | ⟨holder, reachableHolder, holds⟩
    · exact .inl root
    · right
      rw [orderly.context_of_held reachableHolder holds]
      exact orderly.innerContext_symbol reachableHolder

end Orderly

end ProgramTree.Program
