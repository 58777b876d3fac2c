import ProgramTree.Program.Consistency
import ProgramTree.Proofs.Islands

/-!
# What the consistency check decides

The check ends well exactly on programs whose reachable nodes are orderly.  It takes
every holder from the worklist once; the nodes it has seen are the ones it came past.
-/

namespace ProgramTree.Program

open Relation

variable {α β : Type} {program : Program} {id holder child root : NodeId} {context : Context}

/-! ## Checks that end well -/

/-- The check ends well, with this answer. -/
def Passes (check : Check α) (answer : α) : Prop :=
  check.run = .ok (.ok answer)

theorem passes_pure {given answer : α} : Passes (pure given) answer ↔ given = answer := by
  simp [Passes, pure, ExceptT.pure, ExceptT.mk, ExceptT.run, Except.pure]

theorem passes_query {query : Except Fault α} {answer : α} :
    Passes (liftM query) answer ↔ query = .ok answer := by
  cases query with
  | error fault => exact ⟨nofun, nofun⟩
  | ok found =>
    change (Except.ok (Except.ok found) : Except Fault (Except Defect α)) = _ ↔ _
    simp

theorem passes_bind {check : Check α} {next : α → Check β} {answer : β} :
    Passes (check >>= next) answer ↔ ∃ middle, Passes check middle ∧ Passes (next middle) answer := by
  change (check.run >>= fun result => ExceptT.bindCont next result) = _ ↔ _
  rw [Fault.bind_eq_ok]
  constructor
  · rintro ⟨middle, first, second⟩
    cases middle with
    | error defect => simp [ExceptT.bindCont, pure, Except.pure] at second
    | ok middle => exact ⟨middle, first, second⟩
  · rintro ⟨middle, first, second⟩
    exact ⟨.ok middle, first, second⟩

theorem not_passes_reject {cause : Cause} {answer : α} :
    ¬ Passes (program.reject id cause) answer := by
  intro passes
  obtain ⟨node, _, rejected⟩ := passes_bind.mp passes
  exact nomatch rejected

theorem passes_ite {condition : Prop} [Decidable condition] {left right : Check α} {answer : α} :
    Passes (if condition then left else right) answer ↔
      (condition ∧ Passes left answer) ∨ (¬ condition ∧ Passes right answer) := by
  by_cases holds : condition <;> simp [holds]

theorem verify_eq_ok_none : program.verify = .ok none ↔ Passes program.check () := by
  rw [verify, Fault.bind_eq_ok]
  constructor
  · rintro ⟨result, checked, found⟩
    cases result with
    | error defect => simp [pure, Except.pure] at found
    | ok done => exact checked
  · exact fun passes => ⟨.ok (), passes, rfl⟩

/-! ## One holder -/

/-- The holder exists, holds nothing twice, and what it holds names it and has the
context it hands out. -/
structure Vetted (program : Program) (holder : NodeId) : Prop where
  issued : (program.get? holder).isSome
  nodup : (program.held holder).Nodup
  child_issued : ∀ child, program.Holds holder child → (program.get? child).isSome
  parent : ∀ child, program.Holds holder child → program.parentOf child = some holder
  context : ∀ child, program.Holds holder child →
    program.childContext holder = .ok (program.contextOf child)

theorem passes_checkHeld {done : Unit} :
    Passes (program.checkHeld holder context child) done ↔
      (program.get? child).isSome ∧ program.parentOf child = some holder ∧
        program.contextOf child = context := by
  simp only [checkHeld, passes_bind, passes_query, node_eq_ok, passes_ite, not_passes_reject,
    passes_pure, false_and, exists_const, and_false, false_or, and_true, ne_eq, not_not]
  constructor
  · rintro ⟨node, found, parent, symbol, scope⟩
    refine ⟨by simp [found], by rw [parentOf_eq found, parent], ?_⟩
    rw [contextOf_eq found]
    cases isContext : node.context
    simp_all
  · rintro ⟨issued, parent, rfl⟩
    obtain ⟨node, found⟩ := Option.isSome_iff_exists.mp issued
    rw [parentOf_eq found] at parent
    exact ⟨node, found, parent, by rw [contextOf_eq found], by rw [contextOf_eq found]⟩

theorem passes_checkChildren {children worklist worklistAfter : List NodeId}
    {seen seenAfter : IdSet} :
    Passes (program.checkChildren holder context children seen worklist)
        (seenAfter, worklistAfter) ↔
      children.Nodup ∧
        (∀ child ∈ children, child ∉ seen ∧ (program.get? child).isSome ∧
          program.parentOf child = some holder ∧ program.contextOf child = context) ∧
        seenAfter = children.foldl (·.insert ·) seen ∧
        worklistAfter = children.reverse ++ worklist := by
  induction children generalizing seen worklist with
  | nil =>
    rw [checkChildren, passes_pure, Prod.mk.injEq]
    simp [@eq_comm _ seenAfter, @eq_comm _ worklistAfter]
  | cons first rest ih =>
    simp only [checkChildren, passes_bind, passes_ite, not_passes_reject, passes_checkHeld, ih,
      false_and, exists_const, and_false, false_or]
    constructor
    · intro ⟨unseen, right, distinct, each, isSeen, isWorklist⟩
      refine ⟨List.nodup_cons.mpr ⟨fun member => ?_, distinct⟩, ?_, isSeen,
        by simp [isWorklist]⟩
      · simpa using (each first member).1
      · intro child member
        rcases List.mem_cons.mp member with rfl | later
        · exact ⟨by simpa using unseen, right⟩
        · obtain ⟨childUnseen, childRight⟩ := each child later
          exact ⟨fun seenBefore => childUnseen (by simp [seenBefore]), childRight⟩
    · rintro ⟨distinct, each, rfl, rfl⟩
      obtain ⟨notInRest, distinctRest⟩ := List.nodup_cons.mp distinct
      obtain ⟨unseen, right⟩ := each first (by simp)
      refine ⟨by simpa using unseen, right, distinctRest, ?_, rfl, by simp⟩
      intro child later
      obtain ⟨childUnseen, childRight⟩ := each child (by simp [later])
      refine ⟨fun seenNow => ?_, childRight⟩
      rcases Std.ExtTreeSet.mem_insert.mp seenNow with same | seenBefore
      · exact notInRest (Std.LawfulEqCmp.eq_of_compare same ▸ later)
      · exact childUnseen seenBefore

theorem mem_foldl_insert {children : List NodeId} {seen : IdSet} :
    id ∈ children.foldl (·.insert ·) seen ↔ id ∈ seen ∨ id ∈ children := by
  induction children generalizing seen with
  | nil => simp
  | cons first rest ih =>
    rw [List.foldl_cons, ih, Std.ExtTreeSet.mem_insert, Std.LawfulEqCmp.compare_eq_iff_eq,
      List.mem_cons, @eq_comm _ first]
    tauto

/-! ## The worklist -/

/-- What is on the worklist is vetted, and so is everything the check comes past. -/
theorem vetted_of_checkWorklist {fuel : Nat} {worklist : List NodeId} {seen seenAfter : IdSet}
    (passes : Passes (program.checkWorklist fuel seen worklist) seenAfter) :
    (∀ id ∈ seen, id ∈ seenAfter) ∧
      (∀ id, id ∈ worklist ∨ (id ∈ seenAfter ∧ id ∉ seen) →
        program.Vetted id ∧ ∀ child, program.Holds id child → child ∈ seenAfter) ∧
      ∀ id ∈ seenAfter, id ∈ seen ∨ ∃ top ∈ worklist, program.Contains top id := by
  induction fuel generalizing seen worklist with
  | zero =>
    cases worklist with
    | nil =>
      obtain rfl := passes_pure.mp passes
      refine ⟨fun id member => member, fun id either => ?_, fun id member => .inl member⟩
      rcases either with onList | ⟨isSeen, unseen⟩
      · simp at onList
      · exact absurd isSeen unseen
    | cons holder worklist => exact nomatch passes
  | succ fuel ih =>
    cases worklist with
    | nil =>
      obtain rfl := passes_pure.mp passes
      refine ⟨fun id member => member, fun id either => ?_, fun id member => .inl member⟩
      rcases either with onList | ⟨isSeen, unseen⟩
      · simp at onList
      · exact absurd isSeen unseen
    | cons holder worklist =>
      rw [checkWorklist, passes_bind] at passes
      obtain ⟨context, handedOut, passes⟩ := passes
      obtain ⟨children, isHeld, passes⟩ := passes_bind.mp passes
      obtain ⟨⟨seenNow, worklistNow⟩, checked, passes⟩ := passes_bind.mp passes
      rw [passes_query] at handedOut isHeld
      obtain ⟨issued, rfl⟩ := owned_eq_ok.mp isHeld
      obtain ⟨distinct, each, rfl, rfl⟩ := passes_checkChildren.mp checked
      obtain ⟨grows, vetted, bounded⟩ := ih passes
      have childSeen : ∀ child, program.Holds holder child → child ∈ seenAfter :=
        fun child holds => grows child (mem_foldl_insert.mpr (.inr holds))
      have holderVetted : program.Vetted holder := by
        refine ⟨issued, distinct, ?_, ?_, ?_⟩
        · exact fun child holds => (each child holds).2.1
        · exact fun child holds => (each child holds).2.2.1
        · intro child holds
          rw [(each child holds).2.2.2]
          exact handedOut
      refine ⟨?_, ?_, ?_⟩
      · exact fun id member => grows id (mem_foldl_insert.mpr (.inl member))
      · intro id either
        by_cases isHolder : id = holder
        · subst isHolder
          exact ⟨holderVetted, childSeen⟩
        · apply vetted
          by_cases isChild : program.Holds holder id
          · exact .inl (List.mem_append_left _ (List.mem_reverse.mpr isChild))
          · rcases either with onList | ⟨isSeen, unseen⟩
            · rcases List.mem_cons.mp onList with same | later
              · exact absurd same isHolder
              · exact .inl (List.mem_append_right _ later)
            · refine .inr ⟨isSeen, fun seenNow => ?_⟩
              rcases mem_foldl_insert.mp seenNow with seenBefore | holds
              · exact unseen seenBefore
              · exact isChild holds
      · intro id member
        rcases bounded id member with seenNow | ⟨top, onList, contained⟩
        · rcases mem_foldl_insert.mp seenNow with seenBefore | holds
          · exact .inl seenBefore
          · exact .inr ⟨holder, by simp, .single holds⟩
        · rcases List.mem_append.mp onList with isChild | later
          · exact .inr ⟨holder, by simp, .head (List.mem_reverse.mp isChild) contained⟩
          · exact .inr ⟨top, by simp [later], contained⟩

/-- Every root and all it contains is vetted and seen, and nothing else is seen. -/
theorem vetted_of_checkRoots {roots : List NodeId} {seen seenAfter : IdSet}
    (passes : Passes (roots.foldlM program.checkRoot seen) seenAfter) :
    (∀ id ∈ seen, id ∈ seenAfter) ∧ roots.Nodup ∧
      (∀ root ∈ roots, root ∉ seen ∧ root ∈ seenAfter ∧ (program.get? root).isSome ∧
        program.parentOf root = none) ∧
      (∀ id ∈ seenAfter, id ∉ seen →
        program.Vetted id ∧ ∀ child, program.Holds id child → child ∈ seenAfter) ∧
      ∀ id ∈ seenAfter, id ∈ seen ∨ ∃ root ∈ roots, program.Contains root id := by
  induction roots generalizing seen with
  | nil =>
    rw [List.foldlM_nil, passes_pure] at passes
    subst passes
    simp +contextual
  | cons root rest ih =>
    rw [List.foldlM_cons, passes_bind] at passes
    obtain ⟨seenNow, checked, passes⟩ := passes
    simp only [checkRoot, passes_bind, passes_query, node_eq_ok, passes_ite, not_passes_reject,
      false_and, exists_const, and_false, false_or] at checked
    obtain ⟨node, found, free, unseen, checked⟩ := checked
    obtain ⟨growsFirst, vettedFirst, boundedFirst⟩ := vetted_of_checkWorklist checked
    obtain ⟨grows, distinct, rootsSeen, vetted, bounded⟩ := ih passes
    have rootSeen : root ∈ seenNow := growsFirst root (by simp)
    have rootUnseen : root ∉ seen := by simpa using unseen
    have seenGrows : ∀ id ∈ seen, id ∈ seenNow := by
      intro id member
      exact growsFirst id (by simp [member])
    refine ⟨fun id member => grows id (seenGrows id member), ?_, ?_, ?_, ?_⟩
    · exact List.nodup_cons.mpr ⟨fun member => (rootsSeen root member).1 rootSeen, distinct⟩
    · intro other member
      rcases List.mem_cons.mp member with rfl | later
      · refine ⟨rootUnseen, grows other rootSeen, by simp [found], ?_⟩
        rw [parentOf_eq found]
        simpa using free
      · obtain ⟨otherUnseen, right⟩ := rootsSeen other later
        exact ⟨fun seenBefore => otherUnseen (seenGrows other seenBefore), right⟩
    · intro id isSeen unseenBefore
      by_cases seenHere : id ∈ seenNow
      · have either : id ∈ [root] ∨ (id ∈ seenNow ∧ id ∉ seen.insert root) := by
          by_cases isRoot : id = root
          · exact .inl (by simp [isRoot])
          · refine .inr ⟨seenHere, ?_⟩
            simpa [unseenBefore] using Ne.symm isRoot
        obtain ⟨isVetted, childSeen⟩ := vettedFirst id either
        exact ⟨isVetted, fun child holds => grows child (childSeen child holds)⟩
      · exact vetted id isSeen seenHere
    · intro id isSeen
      rcases bounded id isSeen with seenHere | ⟨other, member, contained⟩
      · rcases boundedFirst id seenHere with inserted | ⟨top, isRoot, contained⟩
        · rcases Std.ExtTreeSet.mem_insert.mp inserted with same | seenBefore
          · obtain rfl := Std.LawfulEqCmp.eq_of_compare same
            exact .inr ⟨root, by simp, .refl⟩
          · exact .inl seenBefore
        · obtain rfl : top = root := by simpa using isRoot
          exact .inr ⟨top, by simp, contained⟩
      · exact .inr ⟨other, by simp [member], contained⟩

/-- A program that passes the check: its roots are distinct and held by nothing, all that
is reachable is vetted, and all that is indexed is reachable. -/
structure Consistent (program : Program) : Prop where
  roots_distinct : program.roots.toList.Nodup
  roots_free : ∀ root ∈ program.roots, program.parentOf root = none
  roots_issued : ∀ root ∈ program.roots, (program.get? root).isSome
  vetted : ∀ id, program.Reachable id → program.Vetted id
  indexed : ∀ id category, id ∈ program.index.entries category → program.Reachable id

theorem passes_checkIndexed {seen : IdSet} {ids : List NodeId} :
    Passes (ids.forM (program.checkIndexed seen)) () ↔ ∀ id ∈ ids, id ∈ seen := by
  induction ids with
  | nil => simp [passes_pure]
  | cons first rest ih =>
    change Passes (program.checkIndexed seen first >>= fun _ => rest.forM _) () ↔ _
    rw [passes_bind]
    simp only [checkIndexed, passes_ite, not_passes_reject, passes_pure, ih, and_false, false_or,
      exists_const, List.forall_mem_cons]
    simp

theorem consistent_of_verify (verified : program.verify = .ok none) : program.Consistent := by
  rw [verify_eq_ok_none, check, passes_bind] at verified
  obtain ⟨seen, checked, indexed⟩ := verified
  obtain ⟨_, distinct, roots, vetted, bounded⟩ := vetted_of_checkRoots checked
  rw [passes_checkIndexed] at indexed
  have seenReachable : ∀ id ∈ seen, program.Reachable id := by
    intro id member
    rcases bounded id member with never | ⟨root, isRoot, contained⟩
    · simp at never
    · exact ⟨root, by simpa using isRoot, contained⟩
  have reachableSeen : ∀ id, program.Reachable id → id ∈ seen := by
    intro id ⟨root, isRoot, contained⟩
    induction contained with
    | refl => exact (roots _ (by simpa using isRoot)).2.1
    | @tail holder child _ holds ih => exact (vetted holder ih (by simp)).2 child holds
  refine ⟨distinct, ?_, ?_, ?_, ?_⟩
  · exact fun root isRoot => (roots root (by simpa using isRoot)).2.2.2
  · exact fun root isRoot => (roots root (by simpa using isRoot)).2.2.1
  · exact fun id reachable => (vetted id (reachableSeen id reachable) (by simp)).1
  · exact fun id category member =>
      seenReachable id (indexed id (LiveIndex.mem_toList.mpr ⟨category, member⟩))

/-! ## Consistent programs are the orderly ones -/

/-- The index knows exactly the reachable nodes of its categories. -/
def Indexed (program : Program) : Prop :=
  ∀ id category, id ∈ program.index.entries category ↔
    program.Reachable id ∧ (program.kindAt id).bind Kind.category? = some category

namespace Consistent

variable (consistent : program.Consistent)
include consistent

theorem holds_parent (reachable : program.Reachable holder) (holds : program.Holds holder child) :
    program.parentOf child = some holder :=
  (consistent.vetted holder reachable).parent child holds

theorem holder_of_parent (reachable : program.Reachable child)
    (named : program.parentOf child = some holder) :
    program.Reachable holder ∧ program.Holds holder child := by
  rcases reachable.root_or_held with isRoot | ⟨other, reachableOther, holds⟩
  · simp [consistent.roots_free child isRoot] at named
  · rw [consistent.holds_parent reachableOther holds, Option.some.injEq] at named
    exact named ▸ ⟨reachableOther, holds⟩

theorem acyclic (reachable : program.Reachable id) : ¬ TransGen program.Holds id id := by
  obtain ⟨root, isRoot, contained⟩ := reachable
  induction contained with
  | refl =>
    intro cycle
    obtain ⟨last, below, holds⟩ := TransGen.tail'_iff.mp cycle
    have named := consistent.holds_parent ⟨root, isRoot, below⟩ holds
    simp [consistent.roots_free root isRoot] at named
  | @tail holder child above holds ih =>
    intro cycle
    obtain ⟨last, below, holdsLast⟩ := TransGen.tail'_iff.mp cycle
    have reachable : program.Reachable holder := ⟨root, isRoot, above⟩
    have named := consistent.holds_parent ((reachable.holds holds).contains below) holdsLast
    rw [consistent.holds_parent reachable holds, Option.some.injEq] at named
    subst named
    exact ih (.head' holds below)

section Modules

variable (modules : ∀ root ∈ program.roots, (program.kindAt root).any Kind.isModule)
include modules

/-- Going down from a root, every node is placed and hands out an enclosing symbol. -/
theorem placed (reachable : program.Reachable id) :
    program.IsPlaced id ∧ (program.innerContext id).symbol?.isSome := by
  obtain ⟨root, isRoot, contained⟩ := reachable
  induction contained with
  | refl => exact ⟨.inl isRoot, by simp [innerContext, isSymbol_of_isModule (modules root isRoot)]⟩
  | @tail holder child above holds ih =>
    obtain ⟨placed, symbol⟩ := ih
    have handed := (consistent.vetted holder ⟨root, isRoot, above⟩).context child holds
    obtain ⟨_, ⟨_, context⟩ | ⟨unplaced, _⟩⟩ := childContext_eq_ok.mp handed
    · refine ⟨.inr (by rw [context]; exact symbol), ?_⟩
      by_cases isSymbol : (program.kindAt child).any Kind.isSymbol
      · simp [innerContext, isSymbol]
      · rw [innerContext, context]
        simpa [isSymbol] using symbol
    · exact absurd placed unplaced

theorem context_of_held (reachable : program.Reachable holder)
    (holds : program.Holds holder child) :
    program.contextOf child = program.innerContext holder := by
  have handed := (consistent.vetted holder reachable).context child holds
  obtain ⟨_, ⟨_, context⟩ | ⟨unplaced, _⟩⟩ := childContext_eq_ok.mp handed
  · exact context
  · exact absurd (consistent.placed modules reachable).1 unplaced

theorem orderly {exact : Prop} (indexed : exact → program.Indexed) :
    Orderly exact False (fun id => program.Reachable id ∨ program.get? id = none) [] program := by
  have heldNothing : ∀ {holder}, program.get? holder = none →
      ∀ child, ¬ program.Holds holder child := by
    intro holder unissued child holds
    simp [Holds, held_of_unissued unissued] at holds
  refine ⟨⟨?_, ?_, ?_, by simp, by simp, ?_, ?_⟩, ⟨?_, ?_, ?_, ?_⟩, ⟨?_, ?_, ?_, ?_, ?_, ?_⟩⟩
  · exact fun unissued => .inr unissued
  · intro holder child inside holds
    rcases inside with reachable | unissued
    · exact ⟨.inl (reachable.holds holds), consistent.holds_parent reachable holds⟩
    · exact (heldNothing unissued child holds).elim
  · intro holder child inside _ named
    rcases inside with reachable | unissued
    · obtain ⟨reachableHolder, holds⟩ := consistent.holder_of_parent reachable named
      exact ⟨.inl reachableHolder, holds⟩
    · simp [parentOf_of_unissued unissued] at named
  · intro holder inside
    rcases inside with reachable | unissued
    · exact (consistent.vetted holder reachable).nodup
    · simp [held_of_unissued unissued]
  · intro id inside
    rcases inside with reachable | unissued
    · exact grounded_of_acyclic (fun _ _ => Reachable.holds) (fun _ => consistent.acyclic) reachable
    · exact ⟨_, fun child holds => (heldNothing unissued child holds).elim⟩
  · exact fun isRoot => .inl (.of_root isRoot)
  · exact fun {id} isRoot => modules id isRoot
  · exact fun {id} isRoot => consistent.roots_free id isRoot
  · exact consistent.roots_distinct
  · exact fun never => never.elim
  · exact fun reachable holds _ => consistent.context_of_held modules reachable holds
  · intro id inside unreachable _
    rcases inside with reachable | unissued
    · exact absurd reachable unreachable
    · exact contextOf_of_unissued unissued
  · exact fun {id category} member _ => consistent.indexed id category member
  · exact fun {id category} wanted member => ((indexed wanted id category).mp member).2
  · exact fun {id category} wanted reachable _ categorized =>
      (indexed wanted id category).mpr ⟨reachable, categorized⟩

end Modules

end Consistent

/-! ## Orderly programs pass -/

namespace Orderly

variable {exact bare : Prop} {region : NodeId → Prop} {worklist remaining roots : List NodeId}
  {seen : IdSet} (orderly : Orderly exact bare region [] program)
include orderly

theorem vetted (reachable : program.Reachable holder) : program.Vetted holder := by
  have inside := orderly.reachable_inside reachable
  have issued := orderly.issued_of_reachable reachable
  refine ⟨issued, orderly.forest.nodup inside, ?_, ?_, ?_⟩
  · exact fun child holds => orderly.issued_of_reachable (reachable.holds holds)
  · exact fun child holds => (orderly.forest.held inside holds).2
  · intro child holds
    apply childContext_eq_ok.mpr
    exact ⟨issued, .inl ⟨(orderly.isPlaced_iff inside).mpr reachable,
      orderly.context_of_held reachable holds⟩⟩

end Orderly

/-- What is still to come when the check is at this worklist: the nodes that remain are
those below the worklist, and of them only the worklist itself has been seen. -/
structure Frontier (program : Program) (remaining worklist : List NodeId) (seen : IdSet) :
    Prop where
  reachable : ∀ top ∈ worklist, program.Reachable top
  mem_remaining : ∀ id, id ∈ remaining ↔ ∃ top ∈ worklist, program.Contains top id
  apart : worklist.Pairwise fun first second =>
    ∀ id, program.Contains first id → ¬ program.Contains second id
  listed : ∀ top ∈ worklist, top ∈ seen
  unseen : ∀ id ∈ remaining, id ∈ seen → id ∈ worklist

namespace Frontier

variable {exact bare : Prop} {region : NodeId → Prop} {remaining worklist : List NodeId}
  {seen : IdSet}

section Step

variable (frontier : program.Frontier remaining (holder :: worklist) seen)
  (orderly : Orderly exact bare region [] program)
include frontier

theorem holder_reachable : program.Reachable holder :=
  frontier.reachable holder (by simp)

theorem holder_remains : holder ∈ remaining :=
  (frontier.mem_remaining holder).mpr ⟨holder, by simp, .refl⟩

theorem child_remains (holds : program.Holds holder child) : child ∈ remaining :=
  (frontier.mem_remaining child).mpr ⟨holder, by simp, .single holds⟩

include orderly

theorem child_unseen (holds : program.Holds holder child) : child ∉ seen := by
  have inside := orderly.reachable_inside frontier.holder_reachable
  intro isSeen
  rcases List.mem_cons.mp (frontier.unseen child (frontier.child_remains holds) isSeen) with
    same | later
  · exact orderly.forest.not_contains_holder inside holds (same ▸ .refl)
  · exact (List.pairwise_cons.mp frontier.apart).1 child later child (.single holds) .refl

theorem mem_later : id ∈ remaining.filter (· ≠ holder) ↔
    ∃ top ∈ (program.held holder).reverse ++ worklist, program.Contains top id := by
  have inside := orderly.reachable_inside frontier.holder_reachable
  rw [List.mem_filter, frontier.mem_remaining, decide_eq_true_iff]
  constructor
  · intro ⟨⟨top, onList, contained⟩, notHolder⟩
    rcases List.mem_cons.mp onList with rfl | later
    · rcases contained.cases_head with same | ⟨child, holds, below⟩
      · exact absurd same.symm notHolder
      · exact ⟨child, List.mem_append_left _ (List.mem_reverse.mpr holds), below⟩
    · exact ⟨top, List.mem_append_right _ later, contained⟩
  · intro ⟨top, onList, contained⟩
    rcases List.mem_append.mp onList with isChild | later
    · have holds := List.mem_reverse.mp isChild
      refine ⟨⟨holder, by simp, .head holds contained⟩, ?_⟩
      rintro rfl
      exact orderly.forest.not_contains_holder inside holds contained
    · refine ⟨⟨top, by simp [later], contained⟩, ?_⟩
      rintro rfl
      exact (List.pairwise_cons.mp frontier.apart).1 top later id .refl contained

/-- Taking a holder from the worklist and putting on it what it holds. -/
theorem advance : program.Frontier (remaining.filter (· ≠ holder))
    ((program.held holder).reverse ++ worklist) ((program.held holder).foldl (·.insert ·) seen) := by
  have inside := orderly.reachable_inside frontier.holder_reachable
  obtain ⟨apartHolder, apartRest⟩ := List.pairwise_cons.mp frontier.apart
  refine ⟨?_, fun _ => frontier.mem_later orderly, ?_, ?_, ?_⟩
  · intro top onList
    rcases List.mem_append.mp onList with isChild | later
    · exact frontier.holder_reachable.holds (List.mem_reverse.mp isChild)
    · exact frontier.reachable top (by simp [later])
  · refine List.pairwise_append.mpr ⟨?_, apartRest, ?_⟩
    · apply List.pairwise_reverse.mpr
      refine List.Pairwise.imp_of_mem ?_ (orderly.forest.nodup inside)
      intro first second holdsFirst holdsSecond different id left right
      exact orderly.forest.siblings_disjoint inside holdsFirst holdsSecond different right left
    · intro child isChild top later id below
      exact apartHolder top later id (.head (List.mem_reverse.mp isChild) below)
  · intro top onList
    rw [mem_foldl_insert]
    rcases List.mem_append.mp onList with isChild | later
    · exact .inr (List.mem_reverse.mp isChild)
    · exact .inl (frontier.listed top (by simp [later]))
  · intro id remains isSeen
    obtain ⟨remained, notHolder⟩ := List.mem_filter.mp remains
    rcases mem_foldl_insert.mp isSeen with seenBefore | holds
    · rcases List.mem_cons.mp (frontier.unseen id remained seenBefore) with same | later
      · simp [same] at notHolder
      · exact List.mem_append_right _ later
    · exact List.mem_append_left _ (List.mem_reverse.mpr holds)

theorem passes_children : Passes
    (program.checkChildren holder (program.innerContext holder) (program.held holder) seen worklist)
    ((program.held holder).foldl (·.insert ·) seen, (program.held holder).reverse ++ worklist) := by
  have reachable := frontier.holder_reachable
  have vetted := orderly.vetted reachable
  apply passes_checkChildren.mpr
  refine ⟨vetted.nodup, fun child holds => ?_, rfl, rfl⟩
  exact ⟨frontier.child_unseen orderly holds, vetted.child_issued child holds,
    vetted.parent child holds, orderly.context_of_held reachable holds⟩

end Step

/-- With enough fuel, all below the worklist is seen. -/
theorem exists_checkWorklist {fuel : Nat} (frontier : program.Frontier remaining worklist seen)
    (orderly : Orderly exact bare region [] program) (enough : remaining.length ≤ fuel) :
    ∃ seenAfter, Passes (program.checkWorklist fuel seen worklist) seenAfter ∧
      ∀ id, id ∈ seenAfter ↔ id ∈ seen ∨ id ∈ remaining := by
  induction fuel generalizing seen worklist remaining with
  | zero =>
    obtain rfl : remaining = [] := List.length_eq_zero_iff.mp (Nat.le_zero.mp enough)
    cases worklist with
    | nil => exact ⟨seen, passes_pure.mpr rfl, by simp⟩
    | cons holder worklist =>
      have never := frontier.holder_remains
      simp at never
  | succ fuel ih =>
    cases worklist with
    | nil =>
      have noneRemain : ∀ id, id ∉ remaining := by
        intro id member
        obtain ⟨top, never, _⟩ := (frontier.mem_remaining id).mp member
        simp at never
      exact ⟨seen, passes_pure.mpr rfl, fun id => by simp [noneRemain]⟩
    | cons holder worklist =>
      have inside := orderly.reachable_inside frontier.holder_reachable
      have placed := (orderly.isPlaced_iff inside).mpr frontier.holder_reachable
      have issued := orderly.issued_of_reachable frontier.holder_reachable
      have shorter : (remaining.filter (· ≠ holder)).length < remaining.length := by
        apply List.length_filter_lt_length_iff_exists.mpr
        exact ⟨holder, frontier.holder_remains, by simp⟩
      have enoughLater : (remaining.filter (· ≠ holder)).length ≤ fuel := by omega
      obtain ⟨seenAfter, passes, mem_after⟩ := ih (frontier.advance orderly) enoughLater
      refine ⟨seenAfter, ?_, ?_⟩
      · simp only [checkWorklist, passes_bind, passes_query]
        exact ⟨_, childContext_eq_ok.mpr ⟨issued, .inl ⟨placed, rfl⟩⟩, _,
          owned_eq_ok.mpr ⟨issued, rfl⟩, _, frontier.passes_children orderly, passes⟩
      · intro id
        rw [mem_after, mem_foldl_insert, List.mem_filter, decide_eq_true_iff]
        constructor
        · rintro ((seenBefore | holds) | ⟨remains, _⟩)
          · exact .inl seenBefore
          · exact .inr (frontier.child_remains holds)
          · exact .inr remains
        · intro either
          by_cases isHolder : id = holder
          · exact .inl (.inl (isHolder ▸ frontier.listed holder (by simp)))
          · rcases either with seenBefore | remains
            · exact .inl (.inl seenBefore)
            · exact .inr ⟨remains, isHolder⟩

end Frontier

namespace Orderly

variable {exact bare : Prop} {region : NodeId → Prop} {roots : List NodeId} {seen : IdSet}
  (orderly : Orderly exact bare region [] program)
include orderly

theorem exists_checkRoot (isRoot : root ∈ program.roots)
    (unseen : ∀ id, program.Contains root id → id ∉ seen) :
    ∃ seenAfter, Passes (program.checkRoot seen root) seenAfter ∧
      ∀ id, id ∈ seenAfter ↔ id ∈ seen ∨ program.Contains root id := by
  have inside := orderly.rooted.inside isRoot
  have reachable : program.Reachable root := .of_root isRoot
  obtain ⟨node, found⟩ := Option.isSome_iff_exists.mp (orderly.issued_of_reachable reachable)
  have groundedTops : ∀ top ∈ [root], program.Grounded top := by
    intro top member
    obtain rfl : top = root := by simpa using member
    exact orderly.forest.grounded inside
  obtain ⟨order, visits⟩ := exists_visits groundedTops
  have below : ∀ id, id ∈ order ↔ program.Contains root id := fun id => visits.mem_singleton
  have bounded : order.length ≤ program.levelBound := by
    apply Nat.le_succ_of_le
    refine length_le_size (visits.nodup_singleton orderly.forest inside) fun id member => ?_
    exact orderly.issued_of_reachable (reachable.contains ((below id).mp member))
  have frontier : program.Frontier order [root] (seen.insert root) := by
    refine ⟨?_, ?_, List.pairwise_singleton _ _, ?_, ?_⟩
    · intro top member
      obtain rfl : top = root := by simpa using member
      exact reachable
    · intro id
      simp [below]
    · simp
    · intro id member isSeen
      rcases Std.ExtTreeSet.mem_insert.mp isSeen with same | seenBefore
      · simp [Std.LawfulEqCmp.eq_of_compare same]
      · exact absurd seenBefore (unseen id ((below id).mp member))
  obtain ⟨seenAfter, passes, mem_after⟩ := frontier.exists_checkWorklist orderly bounded
  refine ⟨seenAfter, ?_, ?_⟩
  · have free := orderly.rooted.free isRoot
    rw [parentOf_eq found] at free
    have notSeen : root ∉ seen := unseen root .refl
    simp only [checkRoot, passes_bind, passes_query, node_eq_ok, passes_ite, not_passes_reject,
      false_and, exists_const, and_false, false_or]
    exact ⟨node, found, by simp [free], by simpa using notSeen, passes⟩
  · intro id
    rw [mem_after, Std.ExtTreeSet.mem_insert, Std.LawfulEqCmp.compare_eq_iff_eq, below]
    constructor
    · rintro ((rfl | seenBefore) | contained)
      · exact .inr .refl
      · exact .inl seenBefore
      · exact .inr contained
    · rintro (seenBefore | contained)
      · exact .inl (.inr seenBefore)
      · exact .inr contained

theorem exists_checkRoots (members : ∀ root ∈ roots, root ∈ program.roots) (distinct : roots.Nodup)
    (unseen : ∀ root ∈ roots, ∀ id, program.Contains root id → id ∉ seen) :
    ∃ seenAfter, Passes (roots.foldlM program.checkRoot seen) seenAfter ∧
      ∀ id, id ∈ seenAfter ↔ id ∈ seen ∨ ∃ root ∈ roots, program.Contains root id := by
  induction roots generalizing seen with
  | nil => exact ⟨seen, passes_pure.mpr rfl, by simp⟩
  | cons root rest ih =>
    obtain ⟨notInRest, distinctRest⟩ := List.nodup_cons.mp distinct
    obtain ⟨seenNow, checked, mem_now⟩ :=
      orderly.exists_checkRoot (members root (by simp)) (unseen root (by simp))
    have unseenLater : ∀ other ∈ rest, ∀ id, program.Contains other id → id ∉ seenNow := by
      intro other member id contained isSeen
      rcases (mem_now id).mp isSeen with seenBefore | below
      · exact unseen other (by simp [member]) id contained seenBefore
      · -- two roots that share a node are the same
        have isRoot := members root (by simp)
        have otherRoot := members other (by simp [member])
        rcases orderly.forest.comparable (orderly.rooted.inside isRoot)
          (orderly.rooted.inside otherRoot) below contained with above | above
        · have same := orderly.forest.eq_of_contains_free (orderly.rooted.inside isRoot) above
            (orderly.rooted.free otherRoot)
          exact notInRest (same ▸ member)
        · have same := orderly.forest.eq_of_contains_free (orderly.rooted.inside otherRoot) above
            (orderly.rooted.free isRoot)
          exact notInRest (same ▸ member)
    obtain ⟨seenAfter, passes, mem_after⟩ :=
      ih (fun other member => members other (by simp [member])) distinctRest unseenLater
    refine ⟨seenAfter, ?_, ?_⟩
    · rw [List.foldlM_cons, passes_bind]
      exact ⟨seenNow, checked, passes⟩
    · intro id
      simp [mem_after, mem_now, or_assoc]

theorem verify_eq_ok : program.verify = .ok none := by
  have nothingSeen : ∀ root ∈ program.roots.toList, ∀ id, program.Contains root id →
      id ∉ (∅ : IdSet) := by
    simp
  obtain ⟨seen, checked, mem_seen⟩ :=
    orderly.exists_checkRoots (by simp) orderly.rooted.nodup nothingSeen
  rw [verify_eq_ok_none, check, passes_bind]
  refine ⟨seen, checked, passes_checkIndexed.mpr fun id member => ?_⟩
  obtain ⟨category, indexed⟩ := LiveIndex.mem_toList.mp member
  obtain ⟨root, isRoot, contained⟩ := orderly.settled.indexed_reachable indexed not_false
  exact (mem_seen id).mpr (.inr ⟨root, by simpa using isRoot, contained⟩)

theorem indexed (wanted : exact) : program.Indexed := by
  intro id category
  constructor
  · intro member
    exact ⟨orderly.settled.indexed_reachable member not_false,
      orderly.settled.indexed_kind wanted member⟩
  · intro ⟨reachable, categorized⟩
    exact orderly.settled.reachable_indexed wanted reachable not_false categorized

end Orderly

end ProgramTree.Program
