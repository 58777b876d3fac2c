import ProgramTree.Proofs.Orderly
import ProgramTree.Proofs.Slots

/-!
# Relinking

The structural half of an edit: a stretch of the children of one node gives way to
free-standing nodes, and parents follow.  Contexts and index entries are those of the
old places until the subtrees that moved are detached and attached.
-/

namespace ProgramTree.Program

open Relation

/-- In `holder` the children `out` give way to `into`.  The stale nodes are those of
`out` whose parents are not up to date yet. -/
structure Relinked (before : Program) (holder : NodeId) (out into stale : List NodeId)
    (after : Program) : Prop where
  spliced : ∃ old new, before.kindAt holder = some old ∧ after.kindAt holder = some new ∧
    old.Splices out into new
  kinds : ∀ {id}, id ≠ holder → after.kindAt id = before.kindAt id
  parent_into : ∀ {id}, id ∈ into → after.parentOf id = some holder
  parent_out : ∀ {id}, id ∈ out → id ∉ into → id ∉ stale → after.parentOf id = none
  parents : ∀ {id}, id ∉ out → id ∉ into → after.parentOf id = before.parentOf id
  contexts : ∀ id, after.contextOf id = before.contextOf id
  rest : after = { before with nodes := after.nodes }

/-- Free-standing nodes of the region, ready to be put somewhere. -/
structure Spare (region : NodeId → Prop) (loose : List NodeId) (program : Program)
    (ids : List NodeId) : Prop where
  inside : ∀ {id}, id ∈ ids → region id
  free : ∀ {id}, id ∈ ids → program.parentOf id = none
  notLoose : ∀ {id}, id ∈ ids → id ∉ loose
  notPlaced : ∀ {id}, id ∈ ids → ¬ program.IsPlaced id
  distinct : ids.Nodup

namespace Spare

variable {region : NodeId → Prop} {loose : List NodeId} {program : Program} {id : NodeId}

theorem nil : Spare region loose program [] :=
  ⟨nofun, nofun, nofun, nofun, .nil⟩

theorem singleton (inside : region id) (free : program.parentOf id = none) (notLoose : id ∉ loose)
    (notPlaced : ¬ program.IsPlaced id) : Spare region loose program [id] := by
  refine ⟨?_, ?_, ?_, ?_, by simp⟩
  · simpa using inside
  · simpa using free
  · simpa using notLoose
  · simpa using notPlaced

end Spare

namespace Relinked

variable {exact bare : Prop} {region : NodeId → Prop} {loose out into stale : List NodeId}
  {before after : Program} {holder other child id : NodeId}

theorem roots (relinked : Relinked before holder out into stale after) :
    after.roots = before.roots := by
  rw [relinked.rest]

theorem frame (relinked : Relinked before holder out into stale after) :
    SameFrame before after := by
  obtain ⟨old, new, known, knownAfter, splices⟩ := relinked.spliced
  obtain ⟨slots, rfl⟩ := splices.form
  refine ⟨relinked.contexts, ?_, ?_, ?_, ?_, by rw [relinked.rest]⟩
  all_goals
    intro id
    by_cases isHolder : id = holder
    · simp [isHolder, known, knownAfter]
    · rw [relinked.kinds isHolder]

theorem get?_eq_none (relinked : Relinked before holder out into stale after) :
    after.get? id = none ↔ before.get? id = none := by
  rw [get?_eq_none_iff_kindAt, get?_eq_none_iff_kindAt]
  by_cases isHolder : id = holder
  · obtain ⟨old, new, known, knownAfter, _⟩ := relinked.spliced
    simp [isHolder, known, knownAfter]
  · rw [relinked.kinds isHolder]

theorem holds_of_ne (relinked : Relinked before holder out into stale after)
    (different : other ≠ holder) : after.Holds other child ↔ before.Holds other child := by
  simp [Holds, Program.held, relinked.kinds different]

theorem holds_iff (relinked : Relinked before holder out into stale after)
    (nodup : (before.held holder).Nodup) :
    after.Holds holder child ↔ (before.Holds holder child ∧ child ∉ out) ∨ child ∈ into := by
  obtain ⟨old, new, known, knownAfter, splices⟩ := relinked.spliced
  rw [held_eq_of_kindAt known] at nodup
  rw [Holds, Holds, held_eq_of_kindAt known, held_eq_of_kindAt knownAfter]
  exact splices.mem nodup

theorem out_held (relinked : Relinked before holder out into stale after) (member : id ∈ out) :
    before.Holds holder id := by
  obtain ⟨old, new, known, _, splices⟩ := relinked.spliced
  rw [Holds, held_eq_of_kindAt known]
  exact splices.out_owned member

theorem into_held (relinked : Relinked before holder out into stale after)
    (member : id ∈ into) : after.Holds holder id := by
  obtain ⟨old, new, _, knownAfter, splices⟩ := relinked.spliced
  rw [Holds, held_eq_of_kindAt knownAfter]
  exact splices.into_owned member

section Structure

variable (relinked : Relinked before holder out into stale after)
  (forest : Forest region loose before) (inside : region holder)
include relinked forest inside

theorem holds_before (holds : before.Holds other child) :
    after.Holds other child ∨ (other = holder ∧ child ∈ out) := by
  by_cases isHolder : other = holder
  · subst isHolder
    by_cases member : child ∈ out
    · exact .inr ⟨rfl, member⟩
    · exact .inl ((relinked.holds_iff (forest.nodup inside)).mpr (.inl ⟨holds, member⟩))
  · exact .inl ((relinked.holds_of_ne isHolder).mpr holds)

/-- What is held afterwards was held before, and did not go out, or it came in. -/
theorem holds_after (insideOther : region other) (holds : after.Holds other child) :
    (before.Holds other child ∧ child ∉ out) ∨ (other = holder ∧ child ∈ into) := by
  by_cases isHolder : other = holder
  · subst isHolder
    rcases (relinked.holds_iff (forest.nodup inside)).mp holds with kept | member
    · exact .inl kept
    · exact .inr ⟨rfl, member⟩
  · have heldBefore := (relinked.holds_of_ne isHolder).mp holds
    refine .inl ⟨heldBefore, fun member => isHolder ?_⟩
    have named := (forest.held inside (relinked.out_held member)).2
    rw [(forest.held insideOther heldBefore).2, Option.some.injEq] at named
    exact named

theorem forest_after (spare : Spare region loose before into) (staleOut : stale ⊆ out)
    (grounded : ∀ {id}, id ∈ into → after.Grounded id) :
    Forest region (stale ++ loose) after := by
  have notInto : ∀ {id other}, region other → before.Holds other id → id ∉ into := by
    intro id other insideOther holds member
    have named := (forest.held insideOther holds).2
    simp [spare.free member] at named
  refine ⟨?_, ?_, ?_, ?_, ?_, ?_, ?_⟩
  · exact fun unissued => forest.unissued (relinked.get?_eq_none.mp unissued)
  · intro other child insideOther holds
    rcases relinked.holds_after forest inside insideOther holds with
      ⟨heldBefore, kept⟩ | ⟨isHolder, member⟩
    · obtain ⟨insideChild, named⟩ := forest.held insideOther heldBefore
      rw [relinked.parents kept (notInto insideOther heldBefore)]
      exact ⟨insideChild, named⟩
    · rw [isHolder]
      exact ⟨spare.inside member, relinked.parent_into member⟩
  · intro other child insideChild notLoose named
    rw [List.mem_append, not_or] at notLoose
    by_cases inInto : child ∈ into
    · rw [relinked.parent_into inInto, Option.some.injEq] at named
      subst named
      exact ⟨inside, relinked.into_held inInto⟩
    · by_cases inOut : child ∈ out
      · simp [relinked.parent_out inOut inInto notLoose.1] at named
      · rw [relinked.parents inOut inInto] at named
        obtain ⟨insideOther, heldBefore⟩ := forest.holder insideChild notLoose.2 named
        refine ⟨insideOther, ?_⟩
        rcases relinked.holds_before forest inside heldBefore with held | ⟨_, gone⟩
        · exact held
        · exact absurd gone inOut
  · intro id isLoose
    rw [← Option.ne_none_iff_isSome, ne_eq, relinked.get?_eq_none]
    rcases List.mem_append.mp isLoose with isStale | isLoose
    · intro unissued
      have named := (forest.held inside (relinked.out_held (staleOut isStale))).2
      simp [parentOf_of_unissued unissued] at named
    · exact Option.ne_none_iff_isSome.mpr (forest.loose_issued isLoose)
  · intro other child isLoose insideOther holds
    rcases relinked.holds_after forest inside insideOther holds with
      ⟨heldBefore, kept⟩ | ⟨_, member⟩
    · rcases List.mem_append.mp isLoose with isStale | isLoose
      · exact kept (staleOut isStale)
      · exact forest.loose_free isLoose insideOther heldBefore
    · rcases List.mem_append.mp isLoose with isStale | isLoose
      · exact notInto inside (relinked.out_held (staleOut isStale)) member
      · exact spare.notLoose member isLoose
  · intro other insideOther
    by_cases isHolder : other = holder
    · subst isHolder
      obtain ⟨old, new, known, knownAfter, splices⟩ := relinked.spliced
      have nodup := forest.nodup inside
      rw [held_eq_of_kindAt known] at nodup
      rw [held_eq_of_kindAt knownAfter]
      refine splices.nodup nodup spare.distinct fun id member held => notInto inside ?_ member
      rw [Holds, held_eq_of_kindAt known]
      exact held
    · rw [Program.held, relinked.kinds isHolder]
      exact forest.nodup insideOther
  · intro id insideId
    have groundedBefore := forest.grounded insideId
    induction groundedBefore with
    | intro id _ ih =>
      refine ⟨_, fun child holds => ?_⟩
      rcases relinked.holds_after forest inside insideId holds with
        ⟨heldBefore, _⟩ | ⟨_, member⟩
      · exact ih child heldBefore (forest.held insideId heldBefore).1
      · exact grounded member

theorem rooted_after (rooted : Rooted region before) (spare : Spare region loose before into) :
    Rooted region after where
  inside root := rooted.inside (relinked.roots ▸ root)
  module {id} root := by
    rw [relinked.frame.isModule]
    exact rooted.module (relinked.roots ▸ root)
  free {id} root := by
    rw [relinked.roots] at root
    rw [relinked.parents]
    · exact rooted.free root
    · exact fun gone => rooted.not_held forest root inside (relinked.out_held gone)
    · exact fun member => spare.notPlaced member (.inl root)
  nodup := by
    rw [relinked.roots]
    exact rooted.nodup

/-! ### Reachability -/

theorem reachable_before (reachable : before.Reachable id) :
    after.Reachable id ∨ ∃ top ∈ out, after.Contains top id := by
  obtain ⟨root, member, contained⟩ := reachable
  induction contained with
  | refl => exact .inl (.of_root (by rw [relinked.roots]; exact member))
  | tail _ holds ih =>
    rcases relinked.holds_before forest inside holds with held | ⟨_, gone⟩
    · rcases ih with reachable | ⟨top, gone, contained⟩
      · exact .inl (reachable.holds held)
      · exact .inr ⟨top, gone, contained.tail held⟩
    · exact .inr ⟨_, gone, .refl⟩

theorem reachable_after (rooted : Rooted region before) (spare : Spare region loose before into)
    (reachable : after.Reachable id) :
    region id ∧ (before.Reachable id ∨ ∃ top ∈ into, after.Contains top id) := by
  obtain ⟨root, member, contained⟩ := reachable
  rw [relinked.roots] at member
  induction contained with
  | refl => exact ⟨rooted.inside member, .inl (.of_root member)⟩
  | tail _ holds ih =>
    obtain ⟨insideOther, known⟩ := ih
    rcases relinked.holds_after forest inside insideOther holds with
      ⟨heldBefore, _⟩ | ⟨_, came⟩
    · refine ⟨(forest.held insideOther heldBefore).1, ?_⟩
      rcases known with reachable | ⟨top, came, contained⟩
      · exact .inl (reachable.holds heldBefore)
      · exact .inr ⟨top, came, contained.tail holds⟩
    · exact ⟨spare.inside came, .inr ⟨_, came, .refl⟩⟩

/-- The way down to the holder does not lead through what is relinked. -/
theorem contains_holder (insideId : region id) (contained : after.Contains id holder) :
    before.Contains id holder := by
  induction contained using ReflTransGen.head_induction_on with
  | refl => exact .refl
  | @head upper lower holds below ih =>
    rcases relinked.holds_after forest inside insideId holds with
      ⟨heldBefore, _⟩ | ⟨isHolder, _⟩
    · exact .head heldBefore (ih (forest.held insideId heldBefore).1)
    · rw [isHolder]

/-- While the holder is not reachable, relinking it does not change what is. -/
theorem reachable_iff_of_unreachable (rooted : Rooted region before)
    (unreachable : ¬ before.Reachable holder) : after.Reachable id ↔ before.Reachable id := by
  constructor
  · rintro ⟨root, member, contained⟩
    rw [relinked.roots] at member
    induction contained with
    | refl => exact .of_root member
    | tail _ holds ih =>
      rcases relinked.holds_after forest inside (rooted.reachable_inside forest ih) holds with
        ⟨heldBefore, _⟩ | ⟨isHolder, _⟩
      · exact ih.holds heldBefore
      · exact absurd (isHolder ▸ ih) unreachable
  · rintro ⟨root, member, contained⟩
    induction contained with
    | refl => exact .of_root (by rw [relinked.roots]; exact member)
    | @tail upper lower above holds ih =>
      rcases relinked.holds_before forest inside holds with held | ⟨isHolder, _⟩
      · exact ih.holds held
      · exact absurd ⟨root, member, isHolder ▸ above⟩ unreachable

theorem holder_reachable (reachable : before.Reachable holder) : after.Reachable holder := by
  rcases relinked.reachable_before forest inside reachable with reachable | ⟨top, gone, contained⟩
  · exact reachable
  · have held := relinked.out_held gone
    have below := relinked.contains_holder forest inside (forest.held inside held).1 contained
    exact absurd below (forest.not_contains_holder inside held)

end Structure

/-! ### The invariant -/

section Invariant

variable (relinked : Relinked before holder out into stale after)
  (orderly : Orderly exact bare region loose before) (inside : region holder)
  (spare : Spare region loose before into) (staleOut : stale ⊆ out)
  (grounded : ∀ {id}, id ∈ into → after.Grounded id)
include relinked orderly inside spare staleOut grounded

/-- Only what moved is unsettled. -/
theorem arranged : Arranged exact bare region (stale ++ loose)
    (fun id => ∃ top, (top ∈ out ∨ top ∈ into) ∧ after.Contains top id) after := by
  have forest := orderly.forest
  have rooted := orderly.rooted
  refine ⟨relinked.forest_after forest inside spare staleOut grounded,
    relinked.rooted_after forest inside rooted spare, ?_⟩
  refine orderly.settled.of_agreement relinked.frame ?_ ?_ ?_ ?_
  · exact fun root _ => relinked.roots ▸ root
  · exact fun holds ⟨top, moved, contained⟩ => ⟨top, moved, contained.tail holds⟩
  · intro other child reachable holds kept
    rcases relinked.holds_after forest inside (orderly.rooted.reachable_inside forest reachable)
      holds with ⟨heldBefore, _⟩ | ⟨_, came⟩
    · exact heldBefore
    · exact absurd ⟨child, .inr came, .refl⟩ kept
  · intro id kept
    constructor
    · intro reachable
      rcases (relinked.reachable_after forest inside rooted spare reachable).2 with
        reachable | ⟨top, came, contained⟩
      · exact reachable
      · exact absurd ⟨top, .inr came, contained⟩ kept
    · intro reachable
      rcases relinked.reachable_before forest inside reachable with
        reachable | ⟨top, gone, contained⟩
      · exact reachable
      · exact absurd ⟨top, .inl gone, contained⟩ kept

/-- Outside the tree nothing becomes unsettled. -/
theorem orderly_of_unreachable (unreachable : ¬ before.Reachable holder) :
    Orderly exact bare region (stale ++ loose) after := by
  have forest := orderly.forest
  have rooted := orderly.rooted
  refine ⟨relinked.forest_after forest inside spare staleOut grounded,
    relinked.rooted_after forest inside rooted spare, ?_⟩
  refine orderly.settled.of_agreement relinked.frame ?_ ?_ ?_ ?_
  · exact fun root _ => relinked.roots ▸ root
  · exact fun _ never => never
  · intro other child reachable holds _
    rcases relinked.holds_after forest inside (rooted.reachable_inside forest reachable)
      holds with ⟨heldBefore, _⟩ | ⟨isHolder, _⟩
    · exact heldBefore
    · exact absurd (isHolder ▸ reachable) unreachable
  · exact fun _ => relinked.reachable_iff_of_unreachable forest inside rooted unreachable

end Invariant

/-! ### Settling what moved -/

section Settling

variable {between final : Program} {new : NodeId} {context : Context}
  (relinked : Relinked before holder out into [] after)
  (orderly : Orderly exact bare region loose before) (inside : region holder)
  (spare : Spare region loose before into)
  (grounded : ∀ {id}, id ∈ into → after.Grounded id)
  (displaced : Edit.Displaced after (fun id => ∃ top ∈ out, after.Contains top id) between)
include relinked orderly inside spare grounded

/-- What went out hangs nowhere. -/
theorem not_reachable_below_out {top : NodeId} (gone : top ∈ out)
    (contained : after.Contains top id) : ¬ after.Reachable id := by
  have arranged := relinked.arranged orderly inside spare (List.nil_subset _) grounded
  have heldBefore := relinked.out_held gone
  have insideTop := (orderly.forest.held inside heldBefore).1
  have kept : top ∉ into := by
    intro came
    have named := (orderly.forest.held inside heldBefore).2
    simp [spare.free came] at named
  refine arranged.rooted.not_reachable_below arranged.forest insideTop ?_ contained
  refine arranged.rooted.not_reachable_of_free arranged.forest
    (relinked.parent_out gone kept (by simp)) ?_
  rw [relinked.roots]
  exact fun root => orderly.rooted.not_held orderly.forest root inside heldBefore

include displaced

theorem arranged_displaced :
    Arranged exact bare region loose (fun id => ∃ top ∈ into, between.Contains top id)
      between := by
  have arranged := relinked.arranged orderly inside spare (List.nil_subset _) grounded
  refine (arranged.displace displaced ?_).weaken ?_
  · rintro id ⟨top, gone, contained⟩
    exact relinked.not_reachable_below_out orderly inside spare grounded gone contained
  · rintro id ⟨⟨top, gone | came, contained⟩, kept⟩
    · exact absurd ⟨top, gone, contained⟩ kept
    · rw [displaced.same.contains]
      exact ⟨top, came, contained⟩

theorem orderly_displaced (unreachable : ¬ before.Reachable holder) :
    Orderly exact bare region loose between := by
  have arranged :=
    relinked.orderly_of_unreachable orderly inside spare (List.nil_subset _) grounded unreachable
  refine (arranged.displace displaced ?_).weaken (·.1)
  rintro id ⟨top, gone, contained⟩
  exact relinked.not_reachable_below_out orderly inside spare grounded gone contained

end Settling

/-- A change that lets children go and displaces them keeps the invariant. -/
theorem orderly_removed {between : Program} (relinked : Relinked before holder out [] [] after)
    (orderly : Orderly exact bare region loose before) (inside : region holder)
    (displaced : Edit.Displaced after (fun id => ∃ top ∈ out, after.Contains top id) between) :
    Orderly exact bare region loose between :=
  (relinked.arranged_displaced orderly inside .nil nofun displaced).weaken (by simp)

/-- The context that a node gets from its place below `holder`. -/
def Handed (program : Program) (holder : NodeId) (context : Context) : Prop :=
  (program.Reachable holder ∧ context = program.innerContext holder) ∨
    (¬ program.Reachable holder ∧ context = {})

/-- So does one that puts a spare node in their place and attaches it. -/
theorem orderly_placed {between final : Program} {new : NodeId} {context : Context}
    (relinked : Relinked before holder out [new] [] after)
    (orderly : Orderly exact bare region loose before) (inside : region holder)
    (spare : Spare region loose before [new])
    (displaced : Edit.Displaced after (fun id => ∃ top ∈ out, after.Contains top id) between)
    (handed : Handed before holder context)
    (run : Edit.Yields (Edit.attach new context) between () final) :
    Orderly exact bare region loose final := by
  have same := displaced.same
  have grounded : ∀ {id}, id ∈ [new] → after.Grounded id := by
    intro id came
    obtain rfl : id = new := by simpa using came
    have groundedBetween := (Edit.attachedBelow (Edit.yields_attach.mp run)).grounded
    rw [same.grounded] at groundedBetween
    exact groundedBetween
  have arranged := relinked.arranged_displaced orderly inside spare grounded displaced
  have insideNew := spare.inside (List.mem_singleton_self new)
  have holds : between.Holds holder new := by
    rw [same.holds]
    exact relinked.into_held (by simp)
  rcases handed with ⟨reachable, rfl⟩ | ⟨unreachable, rfl⟩
  · have holderKept : ¬ ∃ top ∈ out, after.Contains top holder := by
      rintro ⟨top, gone, contained⟩
      exact relinked.not_reachable_below_out orderly inside spare grounded gone contained
        (relinked.holder_reachable orderly.forest inside reachable)
    have contextKept : between.contextOf holder = after.contextOf holder := by
      rw [Program.contextOf, displaced.others holderKept, Program.contextOf]
    have fits : Fits between new (before.innerContext holder) := by
      refine .inr ⟨orderly.innerContext_symbol reachable, holder, ?_, holds, ?_⟩
      · rw [same.reachable]
        exact relinked.holder_reachable orderly.forest inside reachable
      · rw [same.innerContext contextKept, relinked.frame.innerContext]
    refine (arranged.attach_fitting insideNew fits run).weaken ?_
    rintro id ⟨⟨top, came, contained⟩, kept⟩
    obtain rfl : top = new := by simpa using came
    exact kept contained
  · have orderlyBetween :=
      relinked.orderly_displaced orderly inside spare grounded displaced unreachable
    refine orderlyBetween.attach_unreachable (fun contained => ?_) run
    refine arranged.rooted.not_reachable_below arranged.forest insideNew ?_ contained
    intro reachableNew
    have named := (arranged.forest.held inside holds).2
    have reachableHolder := arranged.rooted.reachable_holder arranged.forest named reachableNew
    rw [same.reachable, relinked.reachable_iff_of_unreachable orderly.forest inside
      orderly.rooted unreachable] at reachableHolder
    exact unreachable reachableHolder

end Relinked

end ProgramTree.Program
