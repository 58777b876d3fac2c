import ProgramTree.Proofs.Verification

/-!
# The verdict of the consistency check

However the nodes of a program hold one another, the check comes to a verdict as long as
every node that is named is there.  What has been seen guards the check against sharing and
against cycles alike, so nothing is put on the worklist twice.  The verdict is good exactly
for a tidy tree, in which contexts are the nearest enclosing symbols and scopes.
-/

namespace ProgramTree.Program

open Relation

variable {α β : Type} {program : Program} {id holder child root found : NodeId}
  {context : Context} {seen : IdSet}

/-- Slots, roots and index name nodes of the program only. -/
structure Closed (program : Program) : Prop where
  held : ∀ holder child, program.Holds holder child → (program.get? child).isSome
  roots : ∀ root ∈ program.roots, (program.get? root).isSome
  indexed : ∀ id category, id ∈ program.index.entries category → (program.get? id).isSome

/-- What the check is there to find out: among the nodes below the roots, each is held once,
roots not at all, and each names its holder and has the context that its holder hands out.
Nothing else is indexed. -/
structure Tidy (program : Program) : Prop where
  roots_distinct : program.roots.toList.Nodup
  roots_free : ∀ root ∈ program.roots, program.parentOf root = none
  roots_unheld : ∀ root ∈ program.roots, ∀ holder, program.Reachable holder →
    ¬ program.Holds holder root
  held_once : ∀ holder, program.Reachable holder → (program.held holder).Nodup
  one_holder : ∀ first second child, program.Reachable first → program.Reachable second →
    program.Holds first child → program.Holds second child → first = second
  parent : ∀ holder child, program.Reachable holder → program.Holds holder child →
    program.parentOf child = some holder
  context : ∀ holder child, program.Reachable holder → program.Holds holder child →
    program.childContext holder = .ok (program.contextOf child)
  indexed : ∀ id category, id ∈ program.index.entries category → program.Reachable id

/-- Going up from `id` in the tree, the first holder of a wanted kind is `found`. -/
inductive Encloses (program : Program) (wanted : Kind → Bool) : NodeId → NodeId → Prop where
  | here {found id : NodeId} (inTree : program.Reachable found) (holds : program.Holds found id)
      (isWanted : (program.kindAt found).any wanted) : Encloses program wanted found id
  | above {found holder id : NodeId} (inTree : program.Reachable holder)
      (holds : program.Holds holder id) (unwanted : ¬ (program.kindAt holder).any wanted)
      (further : Encloses program wanted found holder) : Encloses program wanted found id

/-- Whether a program is closed can be read off its nodes. -/
theorem closed_iff :
    program.Closed ↔
      (∀ node ∈ program.nodes, ∀ child ∈ node.kind.owned, (program.get? child).isSome) ∧
        (∀ root ∈ program.roots, (program.get? root).isSome) ∧
          ∀ id ∈ program.index.toList, (program.get? id).isSome := by
  constructor
  · intro closed
    refine ⟨fun node member child owned => ?_, closed.roots, fun id member => ?_⟩
    · obtain ⟨place, inBounds, rfl⟩ := Array.mem_iff_getElem.mp member
      refine closed.held ⟨place + 1⟩ child ?_
      have isNode : program.get? ⟨place + 1⟩ = some program.nodes[place] :=
        Array.getElem?_eq_getElem inBounds
      rwa [Holds, held_eq isNode]
    · obtain ⟨category, entry⟩ := LiveIndex.mem_toList.mp member
      exact closed.indexed id category entry
  · rintro ⟨held, roots, indexed⟩
    refine ⟨fun holder child holds => ?_, roots, fun id category entry => ?_⟩
    · obtain ⟨node, isNode⟩ := Option.isSome_iff_exists.mp holds.issued
      rw [Holds, held_eq isNode] at holds
      obtain ⟨place, rfl, _⟩ := val_of_issued (Option.isSome_of_eq_some isNode)
      exact held node (Array.mem_of_getElem? isNode) child holds
    · exact indexed id (LiveIndex.mem_toList.mpr ⟨category, entry⟩)

instance : Decidable program.Closed :=
  decidable_of_iff _ closed_iff.symm

/-! ## Checks that come to a verdict -/

/-- The check ends, well or with a defect. -/
def Decides (check : Check α) : Prop :=
  ∃ verdict, check.run = .ok verdict

theorem decides_of_passes {check : Check α} {answer : α} (passes : Passes check answer) :
    Decides check :=
  ⟨_, passes⟩

theorem decides_bind {check : Check α} {next : α → Check β} (first : Decides check)
    (second : ∀ middle, Passes check middle → Decides (next middle)) :
    Decides (check >>= next) := by
  obtain ⟨verdict, checked⟩ := first
  cases verdict with
  | error defect =>
    refine ⟨.error defect, ?_⟩
    change (check.run >>= fun result => ExceptT.bindCont next result) = _
    rw [checked]
    rfl
  | ok middle =>
    obtain ⟨verdict, further⟩ := second middle checked
    refine ⟨verdict, ?_⟩
    change (check.run >>= fun result => ExceptT.bindCont next result) = _
    rw [checked]
    exact further

theorem decides_query {query : Except Fault α} {answer : α} (looked : query = .ok answer) :
    Decides (liftM query) :=
  decides_of_passes (passes_query.mpr looked)

theorem decides_ite {condition : Prop} [Decidable condition] {left right : Check α}
    (whenTrue : condition → Decides left) (whenFalse : ¬ condition → Decides right) :
    Decides (if condition then left else right) := by
  split
  · exact whenTrue ‹_›
  · exact whenFalse ‹_›

theorem decides_reject {cause : Cause} (issued : (program.get? id).isSome) :
    Decides (program.reject id cause : Check α) := by
  obtain ⟨node, found⟩ := Option.isSome_iff_exists.mp issued
  refine decides_bind (decides_query (node_eq_ok.mpr found)) fun node _ => ?_
  exact ⟨.error _, rfl⟩

/-- A guard in front of a check rejects a node, or lets the check go on. -/
theorem decides_guard {condition : Prop} [Decidable condition] {cause : Cause}
    {next : PUnit → Check α} (issued : (program.get? id).isSome)
    (further : ¬ condition → Decides (next ⟨⟩)) :
    Decides (if condition then program.reject id cause >>= next else next ⟨⟩) := by
  refine decides_ite (fun _ => ?_) further
  exact decides_bind (decides_reject issued) fun _ passes => absurd passes not_passes_reject

theorem decides_checkHeld (issued : (program.get? child).isSome) :
    Decides (program.checkHeld holder context child) := by
  obtain ⟨node, found⟩ := Option.isSome_iff_exists.mp issued
  refine decides_bind (decides_query (node_eq_ok.mpr found)) fun node _ => ?_
  refine decides_guard issued fun _ => decides_guard issued fun _ => ?_
  exact decides_ite (fun _ => decides_reject issued) fun _ => ⟨_, rfl⟩

theorem decides_checkChildren {children worklist : List NodeId}
    (issued : ∀ child ∈ children, (program.get? child).isSome) :
    Decides (program.checkChildren holder context children seen worklist) := by
  induction children generalizing seen worklist with
  | nil => exact ⟨_, rfl⟩
  | cons first rest ih =>
    obtain ⟨issuedFirst, issuedRest⟩ := List.forall_mem_cons.mp issued
    rw [checkChildren]
    refine decides_guard issuedFirst fun _ => ?_
    exact decides_bind (decides_checkHeld issuedFirst) fun _ _ => ih issuedRest

/-! ## The worklist runs empty -/

theorem size_foldl_insert {children : List NodeId} (distinct : children.Nodup)
    (unseen : ∀ child ∈ children, child ∉ seen) :
    (children.foldl (·.insert ·) seen).size = seen.size + children.length := by
  induction children generalizing seen with
  | nil => rfl
  | cons first rest ih =>
    obtain ⟨notInRest, distinctRest⟩ := List.nodup_cons.mp distinct
    obtain ⟨unseenFirst, unseenRest⟩ := List.forall_mem_cons.mp unseen
    rw [List.foldl_cons, ih distinctRest, Std.ExtTreeSet.size_insert]
    · simp only [Std.ExtTreeSet.contains_iff_mem, unseenFirst, if_false, List.length_cons]
      omega
    · intro child member seenNow
      rcases Std.ExtTreeSet.mem_insert.mp seenNow with same | seenBefore
      · exact notInRest (Std.LawfulEqCmp.eq_of_compare same ▸ member)
      · exact unseenRest child member seenBefore

/-- No more nodes are seen than there are. -/
theorem size_le_size (issued : ∀ id ∈ seen, (program.get? id).isSome) :
    seen.size ≤ program.nodes.size := by
  have distinct : seen.toList.Nodup :=
    Std.ExtTreeSet.distinct_toList.imp fun different same =>
      different (Std.LawfulEqCmp.compare_eq_iff_eq.mpr same)
  rw [← Std.ExtTreeSet.length_toList]
  exact length_le_size distinct fun id member => issued id (Std.ExtTreeSet.mem_toList.mp member)

namespace Closed

variable (closed : program.Closed)
include closed

theorem issued_of_contains (issued : (program.get? root).isSome)
    (contained : program.Contains root id) : (program.get? id).isSome := by
  cases contained with
  | refl => exact issued
  | tail _ holds => exact closed.held _ _ holds

/-- Each round takes one node from the worklist, and puts only such nodes on it as were not
seen before. -/
theorem decides_checkWorklist {fuel : Nat} {worklist : List NodeId}
    (issued : ∀ id ∈ seen, (program.get? id).isSome) (listed : ∀ id ∈ worklist, id ∈ seen)
    (enough : (program.nodes.size - seen.size) + worklist.length ≤ fuel) :
    Decides (program.checkWorklist fuel seen worklist) := by
  induction fuel generalizing seen worklist with
  | zero =>
    cases worklist with
    | nil => exact ⟨_, rfl⟩
    | cons holder rest => simp at enough
  | succ fuel ih =>
    cases worklist with
    | nil => exact ⟨_, rfl⟩
    | cons holder rest =>
      obtain ⟨listedHolder, listedRest⟩ := List.forall_mem_cons.mp listed
      have issuedHolder := issued holder listedHolder
      have handed : ∃ context, program.childContext holder = .ok context := by
        by_cases placed : program.IsPlaced holder
        · exact ⟨_, childContext_eq_ok.mpr ⟨issuedHolder, .inl ⟨placed, rfl⟩⟩⟩
        · exact ⟨_, childContext_eq_ok.mpr ⟨issuedHolder, .inr ⟨placed, rfl⟩⟩⟩
      obtain ⟨context, handed⟩ := handed
      refine decides_bind (decides_query handed) fun context _ => ?_
      refine decides_bind (decides_query (owned_eq_ok.mpr ⟨issuedHolder, rfl⟩)) fun held isHeld => ?_
      obtain ⟨_, rfl⟩ := owned_eq_ok.mp (passes_query.mp isHeld)
      refine decides_bind (decides_checkChildren (closed.held holder)) fun (later, onTop) checked => ?_
      obtain ⟨distinct, each, rfl, rfl⟩ := passes_checkChildren.mp checked
      have seenLater : ∀ id ∈ (program.held holder).foldl (·.insert ·) seen,
          (program.get? id).isSome := by
        intro id member
        rcases mem_foldl_insert.mp member with seenBefore | holds
        · exact issued id seenBefore
        · exact closed.held holder id holds
      have grown := size_foldl_insert distinct fun child member => (each child member).1
      have bounded := size_le_size seenLater
      refine ih seenLater (fun id member => mem_foldl_insert.mpr ?_) ?_
      · rcases List.mem_append.mp member with holds | waiting
        · exact .inr (List.mem_reverse.mp holds)
        · exact .inl (listedRest id waiting)
      · simp only [List.length_append, List.length_reverse, List.length_cons] at enough ⊢
        omega

theorem decides_checkRoot (issued : ∀ id ∈ seen, (program.get? id).isSome)
    (issuedRoot : (program.get? root).isSome) : Decides (program.checkRoot seen root) := by
  obtain ⟨node, found⟩ := Option.isSome_iff_exists.mp issuedRoot
  refine decides_bind (decides_query (node_eq_ok.mpr found)) fun node _ => ?_
  refine decides_guard issuedRoot fun _ => decides_guard issuedRoot fun _ => ?_
  refine closed.decides_checkWorklist (fun id member => ?_) (by simp) ?_
  · rcases Std.ExtTreeSet.mem_insert.mp member with same | seenBefore
    · exact Std.LawfulEqCmp.eq_of_compare same ▸ issuedRoot
    · exact issued id seenBefore
  · simp only [levelBound, List.length_singleton]
    omega

theorem issued_of_checkRoot {seenAfter : IdSet} (issued : ∀ id ∈ seen, (program.get? id).isSome)
    (passes : Passes (program.checkRoot seen root) seenAfter) :
    ∀ id ∈ seenAfter, (program.get? id).isSome := by
  have checked : Passes ([root].foldlM program.checkRoot seen) seenAfter :=
    passes_bind.mpr ⟨seenAfter, passes, passes_pure.mpr rfl⟩
  obtain ⟨_, _, each, _, origin⟩ := vetted_of_checkRoots checked
  obtain ⟨_, _, issuedRoot, _⟩ := each root (by simp)
  intro id member
  rcases origin id member with seenBefore | ⟨top, isTop, contained⟩
  · exact issued id seenBefore
  · obtain rfl := List.mem_singleton.mp isTop
    exact closed.issued_of_contains issuedRoot contained

theorem decides_checkRoots {roots : List NodeId}
    (issued : ∀ id ∈ seen, (program.get? id).isSome)
    (issuedRoots : ∀ root ∈ roots, (program.get? root).isSome) :
    Decides (roots.foldlM program.checkRoot seen) := by
  induction roots generalizing seen with
  | nil => exact ⟨_, rfl⟩
  | cons root rest ih =>
    obtain ⟨issuedRoot, issuedRest⟩ := List.forall_mem_cons.mp issuedRoots
    refine decides_bind (closed.decides_checkRoot issued issuedRoot) fun later checked => ?_
    exact ih (closed.issued_of_checkRoot issued checked) issuedRest

omit closed in
theorem decides_checkIndexed {ids : List NodeId} (issued : ∀ id ∈ ids, (program.get? id).isSome) :
    Decides (ids.forM (program.checkIndexed seen)) := by
  induction ids with
  | nil => exact ⟨_, rfl⟩
  | cons id rest ih =>
    obtain ⟨issuedId, issuedRest⟩ := List.forall_mem_cons.mp issued
    refine decides_bind ?_ fun _ _ => ih issuedRest
    exact decides_ite (fun _ => decides_reject issuedId) fun _ => ⟨_, rfl⟩

theorem exists_verdict : ∃ verdict, program.verify = .ok verdict := by
  have decides : Decides program.check := by
    refine decides_bind (closed.decides_checkRoots (by simp) fun root member => ?_) fun seen _ => ?_
    · exact closed.roots root (Array.mem_toList_iff.mp member)
    · refine decides_checkIndexed fun id member => ?_
      obtain ⟨category, entry⟩ := LiveIndex.mem_toList.mp member
      exact closed.indexed id category entry
  obtain ⟨verdict, checked⟩ := decides
  cases verdict with
  | error defect => exact ⟨some defect, by rw [verify, checked]; rfl⟩
  | ok done => exact ⟨none, by rw [verify, checked]; rfl⟩

/-! ## What the verdict means -/

theorem consistent (tidy : program.Tidy) : program.Consistent where
  roots_distinct := tidy.roots_distinct
  roots_free := tidy.roots_free
  roots_issued := closed.roots
  vetted holder reachable :=
    { issued := by
        obtain ⟨root, member, contained⟩ := reachable
        exact closed.issued_of_contains (closed.roots root member) contained
      nodup := tidy.held_once holder reachable
      child_issued := closed.held holder
      parent := fun child => tidy.parent holder child reachable
      context := fun child => tidy.context holder child reachable }
  indexed := tidy.indexed

end Closed

theorem isScope_of_isModule (module : (program.kindAt id).any Kind.isModule) :
    (program.kindAt id).any Kind.isScope := by
  obtain ⟨kind, known, isModule⟩ := (Option.any_eq_true _ _).mp module
  refine (Option.any_eq_true _ _).mpr ⟨kind, known, ?_⟩
  cases kind with
  | symbol symbol => simpa [Kind.isModule, Kind.isScope, Kind.symbol?] using .inr isModule
  | list | stmt | expr | type => cases isModule

namespace Consistent

variable (consistent : program.Consistent)
include consistent

theorem tidy : program.Tidy where
  roots_distinct := consistent.roots_distinct
  roots_free := consistent.roots_free
  roots_unheld root member holder reachable holds := by
    have named := consistent.holds_parent reachable holds
    rw [consistent.roots_free root member] at named
    cases named
  held_once holder reachable := (consistent.vetted holder reachable).nodup
  one_holder first second child inFirst inSecond holdsFirst holdsSecond := by
    have named := consistent.holds_parent inFirst holdsFirst
    rw [consistent.holds_parent inSecond holdsSecond] at named
    exact (Option.some.inj named).symm
  parent holder child reachable holds := consistent.holds_parent reachable holds
  context holder child reachable holds := (consistent.vetted holder reachable).context child holds
  indexed := consistent.indexed

/-- In the tree only one way leads up. -/
theorem encloses_iff {wanted : Kind → Bool} (reachable : program.Reachable holder)
    (holds : program.Holds holder id) :
    program.Encloses wanted found id ↔
      if (program.kindAt holder).any wanted then holder = found
      else program.Encloses wanted found holder := by
  have only : ∀ other, program.Reachable other → program.Holds other id → other = holder :=
    fun other inTree holdsOther =>
      consistent.tidy.one_holder other holder id inTree reachable holdsOther holds
  constructor
  · intro encloses
    cases encloses with
    | here inTree holdsFound isWanted =>
      obtain rfl := only _ inTree holdsFound
      simp [isWanted]
    | above inTree holdsOther unwanted further =>
      obtain rfl := only _ inTree holdsOther
      simpa [unwanted] using further
  · intro encloses
    by_cases isWanted : (program.kindAt holder).any wanted
    · rw [if_pos isWanted] at encloses
      exact encloses ▸ .here reachable holds isWanted
    · rw [if_neg isWanted] at encloses
      exact .above reachable holds isWanted encloses

variable (modules : ∀ root ∈ program.roots, (program.kindAt root).any Kind.isModule)
include modules

/-- A part of the context that modules and other wanted nodes hand out is what encloses a
node most closely. -/
theorem context_iff_encloses {wanted : Kind → Bool} (part : Context → Option NodeId)
    (inner : ∀ holder, part (program.innerContext holder) =
      if (program.kindAt holder).any wanted then some holder else part (program.contextOf holder))
    (moduleWanted : ∀ root, (program.kindAt root).any Kind.isModule →
      (program.kindAt root).any wanted)
    (reachable : program.Reachable id) (below : id ∉ program.roots) :
    part (program.contextOf id) = some found ↔ program.Encloses wanted found id := by
  obtain ⟨root, member, contained⟩ := reachable
  induction contained with
  | refl => exact absurd member below
  | @tail holder child above holds ih =>
    have inTree : program.Reachable holder := ⟨root, member, above⟩
    rw [consistent.context_of_held modules inTree holds, inner,
      consistent.encloses_iff inTree holds]
    by_cases isWanted : (program.kindAt holder).any wanted
    · simp [isWanted]
    · simpa [isWanted] using ih fun isRoot => isWanted (moduleWanted _ (modules _ isRoot))

theorem symbol_iff_encloses (reachable : program.Reachable id) (below : id ∉ program.roots) :
    (program.contextOf id).symbol? = some found ↔ program.Encloses Kind.isSymbol found id :=
  consistent.context_iff_encloses modules Context.symbol? (fun _ => rfl)
    (fun _ => isSymbol_of_isModule) reachable below

theorem scope_iff_encloses (reachable : program.Reachable id) (below : id ∉ program.roots) :
    (program.contextOf id).scope? = some found ↔ program.Encloses Kind.isScope found id :=
  consistent.context_iff_encloses modules Context.scope? (fun _ => rfl)
    (fun _ => isScope_of_isModule) reachable below

theorem context_isSome (reachable : program.Reachable id) (below : id ∉ program.roots) :
    (program.contextOf id).symbol?.isSome ∧ (program.contextOf id).scope?.isSome := by
  obtain ⟨root, member, contained⟩ := reachable
  induction contained with
  | refl => exact absurd member below
  | @tail holder child above holds ih =>
    rw [consistent.context_of_held modules ⟨root, member, above⟩ holds]
    by_cases isRoot : holder ∈ program.roots
    · simp [innerContext, isSymbol_of_isModule (modules _ isRoot),
        isScope_of_isModule (modules _ isRoot)]
    · obtain ⟨symbol, scope⟩ := ih isRoot
      constructor <;> dsimp only [innerContext] <;> split <;> simp_all

end Consistent

theorem verify_eq_ok_none_iff (closed : program.Closed)
    (modules : ∀ root ∈ program.roots, (program.kindAt root).any Kind.isModule) :
    program.verify = .ok none ↔ program.Tidy := by
  constructor
  · exact fun verified => (consistent_of_verify verified).tidy
  · intro tidy
    have orderly : Orderly False False _ [] program :=
      (closed.consistent tidy).orderly modules False.elim
    exact orderly.verify_eq_ok

/-- The check of a closed program ends, and it ends well exactly if the tree is tidy; then all
that is reachable is part of the tree and knows its nearest enclosing symbol and scope. -/
theorem verify_iff_tidy (closed : program.Closed)
    (modules : ∀ root ∈ program.roots, (program.kindAt root).any Kind.isModule) :
    (∃ verdict, program.verify = .ok verdict) ∧
      (program.verify = .ok none ↔ program.Tidy) ∧
        (program.verify = .ok none → ∀ id, program.Reachable id →
          program.inTree id = .ok true ∧
            (id ∉ program.roots →
              (program.contextOf id).symbol?.isSome ∧ (program.contextOf id).scope?.isSome ∧
                ∀ found,
                  ((program.contextOf id).symbol? = some found ↔
                    program.Encloses Kind.isSymbol found id) ∧
                  ((program.contextOf id).scope? = some found ↔
                    program.Encloses Kind.isScope found id))) := by
  refine ⟨closed.exists_verdict, verify_eq_ok_none_iff closed modules, fun verified id inTree => ?_⟩
  have consistent := consistent_of_verify verified
  refine ⟨inTree_eq_ok.mpr ⟨(consistent.vetted id inTree).issued, ?_⟩, fun below => ?_⟩
  · exact iff_of_true rfl (consistent.placed modules inTree).1
  · obtain ⟨symbol, scope⟩ := consistent.context_isSome modules inTree below
    refine ⟨symbol, scope, fun found => ⟨?_, ?_⟩⟩
    · exact consistent.symbol_iff_encloses modules inTree below
    · exact consistent.scope_iff_encloses modules inTree below

/-- A module in whose block one jump stands twice. -/
def twiceHeld : Program where
  nodes := #[
    { kind := .symbol { name := "m", kind := .module ⟨2⟩ none .user }, location := .unknown },
    { kind := .stmt (.block ⟨3⟩), location := .unknown, parent? := some ⟨1⟩,
      context := ⟨some ⟨1⟩, some ⟨1⟩⟩ },
    { kind := .list .stmts #[⟨4⟩, ⟨4⟩], location := .unknown, parent? := some ⟨2⟩,
      context := ⟨some ⟨1⟩, some ⟨2⟩⟩ },
    { kind := .stmt (.goto none), location := .unknown, parent? := some ⟨3⟩,
      context := ⟨some ⟨1⟩, some ⟨2⟩⟩ }]
  roots := #[⟨1⟩]

/-- A statement that stands twice in one list keeps the tree from being tidy. -/
theorem verify_iff_tidy_twiceHeld :
    twiceHeld.Closed ∧ (∃ verdict, twiceHeld.verify = .ok verdict) ∧ ¬ twiceHeld.Tidy := by
  have closed : twiceHeld.Closed := by decide +kernel
  have modules : ∀ root ∈ twiceHeld.roots, (twiceHeld.kindAt root).any Kind.isModule := by decide
  have defective : twiceHeld.verify ≠ .ok none := by decide +kernel
  obtain ⟨decided, tidy, _⟩ := verify_iff_tidy closed modules
  exact ⟨closed, decided, fun isTidy => defective (tidy.mpr isTidy)⟩

end ProgramTree.Program
