import Mathlib.Data.Finset.Card
import ProgramTree.Proofs.Traversal

/-!
# Walks through a view

A walk by levels follows what nodes show in a view, also out of the subtree it starts in, and
lists a node when it meets it for the first time.  `Walked` describes such a walk without a bound
on its depth.  It meets what can be reached, each node once, and it looks the same through any
renaming under which nodes show the same.
-/

namespace ProgramTree.Program

open Relation

variable {program image : Program} {view : View} {seen other : IdSet}
  {level walk : List NodeId} {top id child : NodeId} {fuel : Nat}

/-- What a node shows in a view.  A node that the program does not have shows nothing. -/
def shown (program : Program) (view : View) (id : NodeId) : List NodeId :=
  ((program.kindAt id).map (Kind.children view)).getD []

/-- `child` is one of the nodes that `id` shows. -/
def Shows (program : Program) (view : View) (id child : NodeId) : Prop :=
  child ∈ program.shown view id

/-- Following what nodes show, one gets from the one node to the other. -/
abbrev Reaches (program : Program) (view : View) : NodeId → NodeId → Prop :=
  ReflTransGen (program.Shows view)

theorem shown_eq {kind : Kind} (known : program.kindAt id = some kind) :
    program.shown view id = kind.children view := by
  simp [shown, known]

theorem children_eq_ok {children : List NodeId} :
    program.children view id = .ok children ↔
      (program.get? id).isSome ∧ program.shown view id = children := by
  simp only [Program.children, Fault.bind_eq_ok, Fault.pure_eq_ok, kindOf_eq_ok, shown, kindAt]
  cases program.get? id <;> simp

theorem mapM_children_eq_ok {below : List (List NodeId)} :
    level.mapM (program.children view) = .ok below ↔
      (∀ id ∈ level, (program.get? id).isSome) ∧ below = level.map (program.shown view) := by
  simp only [Fault.mapM_eq_ok, children_eq_ok]
  induction level generalizing below with
  | nil => simp [List.forall₂_nil_left_iff]
  | cons first rest ih =>
    simp only [List.forall₂_cons_left_iff, ih, List.forall_mem_cons, List.map_cons]
    constructor
    · rintro ⟨_, _, ⟨issued, rfl⟩, ⟨issuedRest, rfl⟩, rfl⟩
      exact ⟨⟨issued, issuedRest⟩, rfl⟩
    · rintro ⟨⟨issued, issuedRest⟩, rfl⟩
      exact ⟨_, _, ⟨issued, rfl⟩, ⟨issuedRest, rfl⟩, rfl⟩

/-! ## The new nodes of a level -/

theorem mem_insert_iff : child ∈ seen.insert id ↔ id = child ∨ child ∈ seen := by
  rw [Std.ExtTreeSet.mem_insert, Std.LawfulEqCmp.compare_eq_iff_eq]

theorem unseen_cons_of_mem (member : id ∈ seen) : unseen seen (id :: level) = unseen seen level := by
  rw [unseen, if_pos (Std.ExtTreeSet.contains_iff_mem.mpr member)]

theorem unseen_cons_of_notMem (fresh : id ∉ seen) :
    unseen seen (id :: level) =
      (id :: (unseen (seen.insert id) level).1, (unseen (seen.insert id) level).2) := by
  rw [unseen, if_neg (mt Std.ExtTreeSet.contains_iff_mem.mp fresh)]

theorem mem_unseen_fst : id ∈ (unseen seen level).1 ↔ id ∈ level ∧ id ∉ seen := by
  induction level generalizing seen with
  | nil => simp [unseen]
  | cons first rest ih =>
    by_cases member : first ∈ seen
    · rw [unseen_cons_of_mem member, ih, List.mem_cons]
      constructor
      · exact fun ⟨later, fresh⟩ => ⟨.inr later, fresh⟩
      · rintro ⟨rfl | later, fresh⟩
        · exact absurd member fresh
        · exact ⟨later, fresh⟩
    · rw [unseen_cons_of_notMem member, List.mem_cons, ih, mem_insert_iff, List.mem_cons]
      by_cases isFirst : id = first
      · simp [isFirst, member]
      · simp [isFirst, Ne.symm isFirst]

theorem mem_unseen_snd : id ∈ (unseen seen level).2 ↔ id ∈ seen ∨ id ∈ level := by
  induction level generalizing seen with
  | nil => simp [unseen]
  | cons first rest ih =>
    by_cases member : first ∈ seen
    · rw [unseen_cons_of_mem member, ih, List.mem_cons]
      by_cases isFirst : id = first <;> simp [isFirst, member]
    · rw [unseen_cons_of_notMem member, ih, mem_insert_iff, List.mem_cons, @eq_comm _ first, or_assoc,
        or_left_comm]

theorem nodup_unseen : (unseen seen level).1.Nodup := by
  induction level generalizing seen with
  | nil => exact .nil
  | cons first rest ih =>
    by_cases member : first ∈ seen
    · rw [unseen_cons_of_mem member]
      exact ih
    · rw [unseen_cons_of_notMem member]
      refine List.nodup_cons.mpr ⟨fun later => ?_, ih⟩
      exact (mem_unseen_fst.mp later).2 (mem_insert_iff.mpr (.inl rfl))

/-- A renaming that keeps the nodes of the level apart keeps the new ones, in order. -/
theorem unseen_map {rename : NodeId → NodeId} {inside : NodeId → Prop}
    (injective : ∀ {first second}, inside first → inside second →
      rename first = rename second → first = second)
    (insideLevel : ∀ id ∈ level, inside id)
    (agree : ∀ id, inside id → (rename id ∈ other ↔ id ∈ seen)) :
    (unseen other (level.map rename)).1 = (unseen seen level).1.map rename := by
  induction level generalizing seen other with
  | nil => rfl
  | cons first rest ih =>
    have insideFirst := insideLevel first (by simp)
    have insideRest : ∀ id ∈ rest, inside id := fun id member => insideLevel id (by simp [member])
    rw [List.map_cons]
    by_cases member : first ∈ seen
    · rw [unseen_cons_of_mem member, unseen_cons_of_mem ((agree first insideFirst).mpr member)]
      exact ih insideRest agree
    · rw [unseen_cons_of_notMem member,
        unseen_cons_of_notMem (mt (agree first insideFirst).mp member)]
      refine congrArg (rename first :: ·) (ih insideRest fun id inside => ?_)
      rw [mem_insert_iff, mem_insert_iff, agree id inside]
      refine or_congr_left ⟨injective insideFirst inside, ?_⟩
      rintro rfl
      rfl

/-! ## Walks without a bound -/

/-- Going on from a level, past what was seen, the walk lists these nodes. -/
inductive Walked (program : Program) (view : View) : IdSet → List NodeId → List NodeId → Prop where
  | done {seen : IdSet} {level : List NodeId} (nothing : (unseen seen level).1 = []) :
      Walked program view seen level []
  | next {seen : IdSet} {level walk : List NodeId} (something : (unseen seen level).1 ≠ [])
      (issued : ∀ id ∈ (unseen seen level).1, (program.get? id).isSome)
      (deeper : Walked program view (unseen seen level).2
        ((unseen seen level).1.flatMap (program.shown view)) walk) :
      Walked program view seen level ((unseen seen level).1 ++ walk)

theorem newLevels_succ_eq_ok :
    program.newLevels view (fuel + 1) seen level = .ok walk ↔
      ((unseen seen level).1 = [] ∧ walk = []) ∨
        ((unseen seen level).1 ≠ [] ∧ (∀ id ∈ (unseen seen level).1, (program.get? id).isSome) ∧
          ∃ deeper, program.newLevels view fuel (unseen seen level).2
            ((unseen seen level).1.flatMap (program.shown view)) = .ok deeper ∧
              walk = (unseen seen level).1 ++ deeper) := by
  rw [newLevels]
  obtain ⟨fresh, later⟩ := unseen seen level
  cases fresh with
  | nil =>
    rw [Fault.pure_eq_ok]
    constructor
    · rintro rfl
      exact .inl ⟨rfl, rfl⟩
    · rintro (⟨_, rfl⟩ | ⟨never, _⟩)
      · rfl
      · exact absurd rfl never
  | cons first rest =>
    simp only [Fault.bind_eq_ok, Fault.pure_eq_ok, mapM_children_eq_ok, List.flatMap]
    constructor
    · rintro ⟨below, ⟨issued, rfl⟩, deeper, walked, rfl⟩
      exact .inr ⟨nofun, issued, deeper, walked, rfl⟩
    · rintro (⟨never, _⟩ | ⟨_, issued, deeper, walked, rfl⟩)
      · exact absurd never (List.cons_ne_nil _ _)
      · exact ⟨_, ⟨issued, rfl⟩, deeper, walked, rfl⟩

/-- The nodes of the program that were not seen yet. -/
def unvisited (program : Program) (seen : IdSet) : Finset Nat :=
  (Finset.range program.nodes.size).filter fun place => ⟨place + 1⟩ ∉ seen

/-- Every level that has something new leaves less to visit. -/
theorem unvisited_lt (something : (unseen seen level).1 ≠ [])
    (issued : ∀ id ∈ (unseen seen level).1, (program.get? id).isSome) :
    (program.unvisited (unseen seen level).2).card < (program.unvisited seen).card := by
  obtain ⟨id, member⟩ := List.exists_mem_of_ne_nil _ something
  obtain ⟨place, rfl, inBounds⟩ := val_of_issued (issued id member)
  have fresh := mem_unseen_fst.mp member
  apply Finset.card_lt_card
  refine Finset.ssubset_iff_of_subset ?_ |>.mpr ⟨place, ?_, ?_⟩
  · intro place member
    simp only [unvisited, Finset.mem_filter, mem_unseen_snd, not_or] at member ⊢
    exact ⟨member.1, member.2.1⟩
  · simp [unvisited, inBounds, fresh.2]
  · simp [unvisited, mem_unseen_snd, fresh.1]

theorem unvisited_lt_levelBound : (program.unvisited seen).card < program.levelBound := by
  refine Nat.lt_succ_of_le ((Finset.card_filter_le _ _).trans ?_)
  rw [Finset.card_range]

theorem newLevels_eq_ok (room : (program.unvisited seen).card < fuel) :
    program.newLevels view fuel seen level = .ok walk ↔ program.Walked view seen level walk := by
  induction fuel generalizing seen level walk with
  | zero => exact absurd room (Nat.not_lt_zero _)
  | succ fuel ih =>
    rw [newLevels_succ_eq_ok]
    constructor
    · rintro (⟨nothing, rfl⟩ | ⟨something, issued, deeper, walked, rfl⟩)
      · exact .done nothing
      · have less := unvisited_lt something issued
        exact .next something issued ((ih (by omega)).mp walked)
    · intro walked
      cases walked with
      | done nothing => exact .inl ⟨nothing, rfl⟩
      | next something issued deeper =>
        have less := unvisited_lt something issued
        exact .inr ⟨something, issued, _, (ih (by omega)).mpr deeper, rfl⟩

theorem descendants_eq_ok :
    program.descendants view top = .ok walk ↔ program.Walked view ∅ [top] walk :=
  newLevels_eq_ok unvisited_lt_levelBound

namespace Walked

section Members

variable (walked : program.Walked view seen level walk)
include walked

theorem notMem_seen (member : id ∈ walk) : id ∉ seen := by
  induction walked with
  | done => simp at member
  | next _ _ _ ih =>
    rcases List.mem_append.mp member with fresh | later
    · exact (mem_unseen_fst.mp fresh).2
    · exact fun isSeen => ih later (mem_unseen_snd.mpr (.inl isSeen))

theorem nodup : walk.Nodup := by
  induction walked with
  | done => exact .nil
  | next _ _ deeper ih =>
    refine List.nodup_append.mpr ⟨nodup_unseen, ih, fun first fresh second later same => ?_⟩
    subst same
    exact deeper.notMem_seen later (mem_unseen_snd.mpr (.inr (mem_unseen_fst.mp fresh).1))

theorem issued (member : id ∈ walk) : (program.get? id).isSome := by
  induction walked with
  | done => simp at member
  | next _ issued _ ih =>
    rcases List.mem_append.mp member with fresh | later
    · exact issued id fresh
    · exact ih later

theorem mem_of_level (member : id ∈ level) : id ∈ walk ∨ id ∈ seen := by
  by_cases isSeen : id ∈ seen
  · exact .inr isSeen
  · have fresh := mem_unseen_fst.mpr ⟨member, isSeen⟩
    cases walked with
    | done nothing => simp [nothing] at fresh
    | next => exact .inl (List.mem_append_left _ fresh)

theorem reaches (member : id ∈ walk) : ∃ top ∈ level, program.Reaches view top id := by
  induction walked with
  | done => simp at member
  | next _ _ _ ih =>
    rcases List.mem_append.mp member with fresh | later
    · exact ⟨id, (mem_unseen_fst.mp fresh).1, .refl⟩
    · obtain ⟨child, isBelow, reaches⟩ := ih later
      obtain ⟨top, fresh, shows⟩ := List.mem_flatMap.mp isBelow
      exact ⟨top, (mem_unseen_fst.mp fresh).1, .head shows reaches⟩

theorem closed (member : id ∈ walk) (shows : program.Shows view id child) :
    child ∈ walk ∨ child ∈ seen := by
  induction walked with
  | done => simp at member
  | @next seen level walk _ _ deeper ih =>
    have later : child ∈ walk ∨ child ∈ (unseen seen level).2 := by
      rcases List.mem_append.mp member with fresh | later
      · exact deeper.mem_of_level (List.mem_flatMap.mpr ⟨id, fresh, shows⟩)
      · exact ih later
    rcases later with later | isSeen
    · exact .inl (List.mem_append_right _ later)
    · by_cases earlier : child ∈ seen
      · exact .inr earlier
      · have isLevel := (mem_unseen_snd.mp isSeen).resolve_left earlier
        exact .inl (List.mem_append_left _ (mem_unseen_fst.mpr ⟨isLevel, earlier⟩))

end Members

/-- What a walk from one node lists is what can be reached from it. -/
theorem mem_iff (walked : program.Walked view ∅ [top] walk) :
    id ∈ walk ↔ program.Reaches view top id := by
  constructor
  · intro member
    obtain ⟨start, isTop, reaches⟩ := walked.reaches member
    obtain rfl : start = top := List.mem_singleton.mp isTop
    exact reaches
  · intro reaches
    induction reaches with
    | refl =>
      exact (walked.mem_of_level (List.mem_singleton_self top)).resolve_right
        Std.ExtTreeSet.not_mem_empty
    | tail _ shows ih => exact (walked.closed ih shows).resolve_right Std.ExtTreeSet.not_mem_empty

/-- A program that shows the same through a renaming is walked in the same order. -/
theorem map (rename : NodeId → NodeId) (inside : NodeId → Prop)
    (walked : program.Walked view seen level walk)
    (closed : ∀ {id child}, inside id → program.Shows view id child → inside child)
    (injective : ∀ {first second}, inside first → inside second →
      rename first = rename second → first = second)
    (issued : ∀ id, inside id → (image.get? (rename id)).isSome)
    (shown : ∀ id, inside id → image.shown view (rename id) = (program.shown view id).map rename)
    (insideLevel : ∀ id ∈ level, inside id)
    (agree : ∀ id, inside id → (rename id ∈ other ↔ id ∈ seen)) :
    image.Walked view other (level.map rename) (walk.map rename) := by
  induction walked generalizing other with
  | done nothing =>
    refine .done ?_
    rw [unseen_map injective insideLevel agree, nothing, List.map_nil]
  | @next seen level walk something issuedFresh deeper ih =>
    have fresh := unseen_map injective insideLevel agree
    have insideFresh : ∀ id ∈ (unseen seen level).1, inside id := fun id member =>
      insideLevel id (mem_unseen_fst.mp member).1
    have below : ((unseen seen level).1.map rename).flatMap (image.shown view) =
        ((unseen seen level).1.flatMap (program.shown view)).map rename := by
      rw [List.flatMap_map, List.map_flatMap]
      exact List.flatMap_congr fun id member => shown id (insideFresh id member)
    rw [List.map_append, ← fresh]
    refine .next ?_ ?_ ?_
    · rw [fresh]
      simpa using something
    · intro id member
      rw [fresh] at member
      obtain ⟨original, isFresh, rfl⟩ := List.mem_map.mp member
      exact issued original (insideFresh original isFresh)
    · rw [fresh, below]
      refine ih ?_ ?_
      · intro id member
        obtain ⟨holder, isFresh, shows⟩ := List.mem_flatMap.mp member
        exact closed (insideFresh holder isFresh) shows
      · intro id isInside
        rw [mem_unseen_snd, mem_unseen_snd, agree id isInside]
        refine or_congr_right ⟨fun member => ?_, List.mem_map_of_mem⟩
        obtain ⟨original, isLevel, same⟩ := List.mem_map.mp member
        exact injective (insideLevel original isLevel) isInside same ▸ isLevel

end Walked

/-- Where everything that can be reached is there, there is a walk. -/
theorem exists_walked
    (issued : ∀ top ∈ level, ∀ id, program.Reaches view top id → (program.get? id).isSome) :
    ∃ walk, program.Walked view seen level walk := by
  -- Each level leaves less to visit.
  induction remaining : (program.unvisited seen).card using Nat.strongRecOn generalizing seen level with
  | _ remaining ih =>
    by_cases nothing : (unseen seen level).1 = []
    · exact ⟨[], .done nothing⟩
    · have issuedFresh : ∀ id ∈ (unseen seen level).1, (program.get? id).isSome := fun id member =>
        issued id (mem_unseen_fst.mp member).1 id .refl
      have issuedBelow : ∀ child ∈ (unseen seen level).1.flatMap (program.shown view), ∀ id,
          program.Reaches view child id → (program.get? id).isSome := by
        intro child isBelow id reaches
        obtain ⟨top, member, shows⟩ := List.mem_flatMap.mp isBelow
        exact issued top (mem_unseen_fst.mp member).1 id (.head shows reaches)
      obtain ⟨walk, deeper⟩ := ih _ (remaining ▸ unvisited_lt nothing issuedFresh) issuedBelow rfl
      exact ⟨_, .next nothing issuedFresh deeper⟩

theorem exists_descendants
    (issued : ∀ id, program.Reaches view top id → (program.get? id).isSome) :
    ∃ walk, program.descendants view top = .ok walk := by
  have issuedTop : ∀ start ∈ [top], ∀ id,
      program.Reaches view start id → (program.get? id).isSome := by simpa using issued
  obtain ⟨walk, walked⟩ := exists_walked issuedTop
  exact ⟨walk, descendants_eq_ok.mpr walked⟩

end ProgramTree.Program
