import Mathlib.Data.Fintype.EquivFin
import Mathlib.Tactic.IntervalCases
import ProgramTree.Proofs.Mutations

/-!
# Well-formed programs

The invariant of the whole arena, in terms of slots, parents, contexts and index alone,
and the edits that keep it.  It is the orderliness of the region of all nodes, with a
complete index and without context at the roots.
-/

namespace ProgramTree

open Program Relation

namespace Program

/-- Going up from `id`, the first holder of a wanted kind is `found`. -/
inductive Nearest (program : Program) (wanted : Kind → Bool) : NodeId → NodeId → Prop where
  | here {id holder : NodeId} (holds : program.Holds holder id)
      (isWanted : (program.kindAt holder).any wanted) : Nearest program wanted id holder
  | above {id holder found : NodeId} (holds : program.Holds holder id)
      (unwanted : ¬ (program.kindAt holder).any wanted)
      (further : Nearest program wanted holder found) : Nearest program wanted id found

/-- Slots, parents, contexts, roots and index tell the same story about every node. -/
structure WellFormed (program : Program) : Prop where
  /-- What a node holds names it as its parent, and it holds whatever names it. -/
  parent_iff : ∀ holder child,
    program.Holds holder child ↔ program.parentOf child = some holder
  held_once : ∀ holder child, program.Holds holder child →
    (program.held holder).count child = 1 ∧ ∀ other, program.Holds other child → other = holder
  acyclic : ∀ id, ¬ TransGen program.Holds id id
  roots_distinct : program.roots.toList.Nodup
  roots_free : ∀ root ∈ program.roots, program.parentOf root = none
  roots_module : ∀ root ∈ program.roots, (program.kindAt root).any Kind.isModule
  enclosing_symbol : ∀ id found, program.Reachable id →
    ((program.contextOf id).symbol? = some found ↔ program.Nearest Kind.isSymbol id found)
  enclosing_scope : ∀ id found, program.Reachable id →
    ((program.contextOf id).scope? = some found ↔ program.Nearest Kind.isScope id found)
  root_context : ∀ root ∈ program.roots, program.contextOf root = {}
  no_context : ∀ id, ¬ program.Reachable id → program.contextOf id = {}
  indexed_iff : ∀ id category, id ∈ program.index.entries category ↔
    program.Reachable id ∧ (program.kindAt id).bind Kind.category? = some category

variable {program before after : Program} {id holder child found : NodeId}

/-! ## Acyclic containment is grounded -/

/-- A program has finitely many nodes. -/
theorem finite_issued (program : Program) : Finite { id // (program.get? id).isSome } := by
  have bounded : ∀ id, (program.get? id).isSome → id.val < program.nodes.size + 1 := by
    rintro ⟨_ | place⟩ issued
    · simp
    · obtain ⟨node, found⟩ := Option.isSome_iff_exists.mp issued
      obtain ⟨inBounds, _⟩ := Array.getElem?_eq_some_iff.mp found
      exact Nat.succ_lt_succ inBounds
  refine Finite.of_injective
    (fun issued => (⟨issued.1.val, bounded issued.1 issued.2⟩ : Fin (program.nodes.size + 1))) ?_
  rintro ⟨⟨first⟩, _⟩ ⟨⟨second⟩, _⟩ same
  simp only [Fin.mk.injEq] at same
  subst same
  rfl

/-- Going down from a node, no chain of holders goes on for ever where none is a cycle. -/
theorem grounded_of_acyclic {inside : NodeId → Prop}
    (closed : ∀ holder child, inside holder → program.Holds holder child → inside child)
    (acyclic : ∀ id, inside id → ¬ TransGen program.Holds id id) (member : inside id) :
    program.Grounded id := by
  have unheld : ∀ {id}, program.get? id = none → program.Grounded id := by
    intro id unissued
    refine ⟨_, fun child holds => ?_⟩
    simp [Holds, held_of_unissued unissued] at holds
  let Issued := { id // (program.get? id).isSome }
  let Below : Issued → Issued → Prop := fun lower upper =>
    inside upper ∧ TransGen program.Holds upper lower
  have finite : Finite Issued := program.finite_issued
  have transitive : IsTrans Issued Below :=
    ⟨fun _ _ _ first second => ⟨second.1, second.2.trans first.2⟩⟩
  have irreflexive : Std.Irrefl Below := ⟨fun issued cycle => acyclic issued.1 cycle.1 cycle.2⟩
  have wellFounded : WellFounded Below := Finite.wellFounded_of_trans_of_irrefl Below
  have grounded : ∀ issued : Issued, inside issued → program.Grounded issued := by
    intro issued
    induction issued using wellFounded.induction with
    | _ issued ih =>
      intro member
      refine ⟨_, fun child holds => ?_⟩
      by_cases missing : program.get? child = none
      · exact unheld missing
      · exact ih ⟨child, Option.ne_none_iff_isSome.mp missing⟩ ⟨member, .single holds⟩
          (closed _ _ member holds)
  by_cases missing : program.get? id = none
  · exact unheld missing
  · exact grounded ⟨id, Option.ne_none_iff_isSome.mp missing⟩ member

/-! ## Nearest holders -/

theorem Nearest.around {wanted : Kind → Bool}
    (nearest : program.Nearest wanted id found) :
    TransGen program.Holds found id ∧ (program.kindAt found).any wanted := by
  induction nearest with
  | here holds isWanted => exact ⟨.single holds, isWanted⟩
  | above holds _ _ ih => exact ⟨ih.1.tail holds, ih.2⟩

theorem nearest_iff {wanted : Kind → Bool} (holds : program.Holds holder id)
    (only : ∀ other, program.Holds other id → other = holder) :
    program.Nearest wanted id found ↔
      if (program.kindAt holder).any wanted then holder = found
      else program.Nearest wanted holder found := by
  constructor
  · intro nearest
    cases nearest with
    | here holdsFound isWanted =>
      obtain rfl := only _ holdsFound
      simp [isWanted]
    | above holdsOther unwanted further =>
      obtain rfl := only _ holdsOther
      simpa [unwanted] using further
  · intro nearest
    by_cases isWanted : (program.kindAt holder).any wanted
    · rw [if_pos isWanted] at nearest
      exact nearest ▸ .here holds isWanted
    · rw [if_neg isWanted] at nearest
      exact .above holds isWanted nearest

/-! ## Well-formed programs are the orderly ones -/

namespace WellFormed

theorem innerContext_eq (wellFormed : WellFormed program) (reachable : program.Reachable holder)
    (holds : program.Holds holder child) :
    program.contextOf child = program.innerContext holder := by
  have only := (wellFormed.held_once holder child holds).2
  have reachableChild := reachable.holds holds
  have symbols : (program.contextOf child).symbol? = (program.innerContext holder).symbol? := by
    refine Option.ext fun found => ?_
    rw [wellFormed.enclosing_symbol _ _ reachableChild, nearest_iff holds only, innerContext]
    by_cases symbol : (program.kindAt holder).any Kind.isSymbol
    · simp [symbol]
    · simp [symbol, wellFormed.enclosing_symbol _ _ reachable]
  have scopes : (program.contextOf child).scope? = (program.innerContext holder).scope? := by
    refine Option.ext fun found => ?_
    rw [wellFormed.enclosing_scope _ _ reachableChild, nearest_iff holds only, innerContext]
    by_cases scope : (program.kindAt holder).any Kind.isScope
    · simp [scope]
    · simp [scope, wellFormed.enclosing_scope _ _ reachable]
  cases context : program.contextOf child
  cases inner : program.innerContext holder
  simp_all

theorem orderly (wellFormed : WellFormed program) :
    Orderly True True (fun _ => True) [] program := by
  refine ⟨⟨?_, ?_, ?_, ?_, ?_, ?_, ?_⟩, ⟨?_, ?_, ?_, ?_⟩, ⟨?_, ?_, ?_, ?_, ?_, ?_⟩⟩
  · exact fun _ => trivial
  · exact fun _ holds => ⟨trivial, (wellFormed.parent_iff _ _).mp holds⟩
  · exact fun _ _ named => ⟨trivial, (wellFormed.parent_iff _ _).mpr named⟩
  · simp
  · simp
  · intro holder _
    exact List.nodup_iff_count_eq_one.mpr fun child holds =>
      (wellFormed.held_once holder child holds).1
  · intro id _
    exact grounded_of_acyclic (fun _ _ _ _ => trivial)
      (fun id _ => wellFormed.acyclic id) trivial
  · exact fun _ => trivial
  · exact fun root => wellFormed.roots_module _ root
  · exact fun root => wellFormed.roots_free _ root
  · exact wellFormed.roots_distinct
  · exact fun _ root _ => wellFormed.root_context _ root
  · exact fun reachable holds _ => wellFormed.innerContext_eq reachable holds
  · exact fun _ unreachable _ => wellFormed.no_context _ unreachable
  · exact fun member _ => ((wellFormed.indexed_iff _ _).mp member).1
  · exact fun _ member => ((wellFormed.indexed_iff _ _).mp member).2
  · exact fun _ reachable _ categorized =>
      (wellFormed.indexed_iff _ _).mpr ⟨reachable, categorized⟩

end WellFormed

theorem Arranged.enclosing (orderly : Orderly True True (fun _ => True) [] program)
    {wanted : Kind → Bool} (part : Context → Option NodeId) (empty : part {} = none)
    (inner : ∀ holder, part (program.innerContext holder) =
      if (program.kindAt holder).any wanted then some holder else part (program.contextOf holder))
    (reachable : program.Reachable id) :
    part (program.contextOf id) = some found ↔ program.Nearest wanted id found := by
  obtain ⟨root, member, contained⟩ := reachable
  induction contained with
  | refl =>
    rw [orderly.settled.root_context trivial member not_false, empty]
    constructor
    · intro absurd
      cases absurd
    · intro nearest
      have notHeld : ∀ holder, ¬ program.Holds holder root := fun holder =>
        orderly.rooted.not_held orderly.forest member trivial
      cases nearest with
      | here holds _ => exact absurd holds (notHeld _)
      | above holds _ _ => exact absurd holds (notHeld _)
  | @tail holder child above holds ih =>
    rw [orderly.context_of_held ⟨root, member, above⟩ holds, inner,
      nearest_iff holds fun _ holdsOther => orderly.forest.only_holder trivial trivial holdsOther holds]
    by_cases isWanted : (program.kindAt holder).any wanted
    · simp [isWanted]
    · simpa [isWanted] using ih

theorem Arranged.wellFormed (orderly : Orderly True True (fun _ => True) [] program) :
    WellFormed program where
  parent_iff holder child :=
    ⟨fun holds => (orderly.forest.held trivial holds).2,
      fun named => (orderly.forest.holder trivial (by simp) named).2⟩
  held_once holder child holds :=
    ⟨List.nodup_iff_count_eq_one.mp (orderly.forest.nodup trivial) child holds,
      fun _ holdsOther => orderly.forest.only_holder trivial trivial holdsOther holds⟩
  acyclic id := (orderly.forest.grounded trivial).not_below_itself
  roots_distinct := orderly.rooted.nodup
  roots_free root member := orderly.rooted.free member
  roots_module root member := orderly.rooted.module member
  enclosing_symbol id found reachable :=
    orderly.enclosing Context.symbol? rfl (fun _ => rfl) reachable
  enclosing_scope id found reachable :=
    orderly.enclosing Context.scope? rfl (fun _ => rfl) reachable
  root_context root member := orderly.settled.root_context trivial member not_false
  no_context id unreachable := orderly.settled.no_context trivial unreachable not_false
  indexed_iff id category :=
    ⟨fun member => ⟨orderly.settled.indexed_reachable member not_false,
      orderly.settled.indexed_kind trivial member⟩,
    fun ⟨reachable, categorized⟩ =>
      orderly.settled.reachable_indexed trivial reachable not_false categorized⟩

theorem wellFormed_iff_orderly :
    WellFormed program ↔ Orderly True True (fun _ => True) [] program :=
  ⟨WellFormed.orderly, Arranged.wellFormed⟩

end Program

/-! ## The program everything starts with -/

namespace Program

variable {settings : Settings} {id holder child : NodeId} {node : Node}

/-- At first there are the primitive types, each held by the symbol that names it. -/
theorem get?_empty (found : (empty settings).get? id = some node) :
    ∃ primitive : PrimitiveType, node.context = {} ∧
      ((id = primitive.id ∧ node.kind.owned = [] ∧ node.parent? = some primitive.symbolId) ∨
        (id = primitive.symbolId ∧ node.kind.owned = [primitive.id] ∧ node.parent? = none)) := by
  obtain ⟨_ | place⟩ := id
  · simp [get?] at found
  · have inBounds : place < 12 := (Array.getElem?_eq_some_iff.mp found).1
    interval_cases place <;> cases found
    · exact ⟨.void, rfl, .inl ⟨rfl, rfl, rfl⟩⟩
    · exact ⟨.void, rfl, .inr ⟨rfl, rfl, rfl⟩⟩
    · exact ⟨.bool, rfl, .inl ⟨rfl, rfl, rfl⟩⟩
    · exact ⟨.bool, rfl, .inr ⟨rfl, rfl, rfl⟩⟩
    · exact ⟨.int, rfl, .inl ⟨rfl, rfl, rfl⟩⟩
    · exact ⟨.int, rfl, .inr ⟨rfl, rfl, rfl⟩⟩
    · exact ⟨.real, rfl, .inl ⟨rfl, rfl, rfl⟩⟩
    · exact ⟨.real, rfl, .inr ⟨rfl, rfl, rfl⟩⟩
    · exact ⟨.string, rfl, .inl ⟨rfl, rfl, rfl⟩⟩
    · exact ⟨.string, rfl, .inr ⟨rfl, rfl, rfl⟩⟩
    · exact ⟨.cVoidPtr, rfl, .inl ⟨rfl, rfl, rfl⟩⟩
    · exact ⟨.cVoidPtr, rfl, .inr ⟨rfl, rfl, rfl⟩⟩

theorem holds_empty :
    (empty settings).Holds holder child ↔
      ∃ primitive : PrimitiveType, holder = primitive.symbolId ∧ child = primitive.id := by
  constructor
  · intro holds
    obtain ⟨node, found⟩ := Option.isSome_iff_exists.mp (Holds.issued holds)
    rw [Holds, held_eq found] at holds
    obtain ⟨primitive, _, ⟨_, owned, _⟩ | ⟨isSymbol, owned, _⟩⟩ := get?_empty found
    · simp [owned] at holds
    · exact ⟨primitive, isSymbol, by simpa [owned] using holds⟩
  · rintro ⟨primitive, rfl, rfl⟩
    cases primitive <;> exact List.mem_singleton_self _

theorem parentOf_empty :
    (empty settings).parentOf child = some holder ↔
      ∃ primitive : PrimitiveType, holder = primitive.symbolId ∧ child = primitive.id := by
  constructor
  · intro named
    obtain ⟨node, found, parent⟩ := get?_of_parentOf named
    obtain ⟨primitive, _, ⟨isType, _, isParent⟩ | ⟨_, _, free⟩⟩ := get?_empty found
    · rw [parent, Option.some.injEq] at isParent
      exact ⟨primitive, isParent, isType⟩
    · simp [parent] at free
  · rintro ⟨primitive, rfl, rfl⟩
    cases primitive <;> rfl

theorem contextOf_empty : (empty settings).contextOf id = {} := by
  cases found : (empty settings).get? id with
  | none => exact contextOf_of_unissued found
  | some node =>
    obtain ⟨_, context, _⟩ := get?_empty found
    rw [contextOf_eq found, context]

theorem wellFormed_empty (settings : Settings) : WellFormed (empty settings) := by
  have unreachable : ∀ {id}, ¬ (empty settings).Reachable id := by
    rintro id ⟨root, member, _⟩
    exact absurd member (Array.not_mem_empty root)
  have injective : ∀ {first second : PrimitiveType}, first.id = second.id → first = second := by
    intro first second
    cases first <;> cases second <;> decide
  have apart : ∀ first second : PrimitiveType, first.id ≠ second.symbolId := by
    intro first second
    cases first <;> cases second <;> decide
  refine ⟨?_, ?_, ?_, ?_, ?_, ?_, ?_, ?_, ?_, ?_, ?_⟩
  · exact fun _ _ => holds_empty.trans parentOf_empty.symm
  · intro holder child holds
    obtain ⟨primitive, rfl, rfl⟩ := holds_empty.mp holds
    refine ⟨by cases primitive <;> rfl, fun other holdsOther => ?_⟩
    obtain ⟨second, rfl, same⟩ := holds_empty.mp holdsOther
    rw [injective same]
  · intro id cycle
    obtain ⟨child, first, rest⟩ := TransGen.head'_iff.mp cycle
    obtain ⟨primitive, rfl, rfl⟩ := holds_empty.mp first
    rcases rest.cases_head with same | ⟨next, second, _⟩
    · exact apart _ _ same
    · obtain ⟨other, same, _⟩ := holds_empty.mp second
      exact apart _ _ same
  · exact .nil
  · exact fun root member => absurd member (Array.not_mem_empty root)
  · exact fun root member => absurd member (Array.not_mem_empty root)
  · exact fun id found reachable => absurd reachable unreachable
  · exact fun id found reachable => absurd reachable unreachable
  · exact fun root member => absurd member (Array.not_mem_empty root)
  · exact fun id _ => contextOf_empty
  · intro id category
    constructor
    · intro member
      cases category <;> simp [empty, LiveIndex.entries] at member
    · rintro ⟨reachable, _⟩
      exact absurd reachable unreachable

end Program

/-! ## Mutations -/

/-- A call that changes the tree. -/
inductive Mutation where
  | remove (id : NodeId)
  | replace (old new : NodeId)
  | insertBefore (anchor new : NodeId)
  | insertAfter (anchor new : NodeId)
  | insertAtHead (list new : NodeId)
  | insertAtTail (list new : NodeId)
  | addModule (module : NodeId)

/-- Makes the call and drops its answer. -/
def Mutation.run : Mutation → Edit Unit
  | remove id => do let _ ← Edit.remove id
  | replace old new => do let _ ← Edit.replace old new
  | insertBefore anchor new => do let _ ← Edit.insertBefore anchor new
  | insertAfter anchor new => do let _ ← Edit.insertAfter anchor new
  | insertAtHead list new => do let _ ← Edit.insertAtHead list new
  | insertAtTail list new => do let _ ← Edit.insertAtTail list new
  | addModule module => Edit.addModule module

theorem Mutation.keeps_orderly {before after : Program} (mutation : Mutation)
    (orderly : Orderly True True (fun _ => True) [] before)
    (run : Edit.Yields mutation.run before () after) :
    Orderly True True (fun _ => True) [] after := by
  cases mutation with
  | remove id =>
    obtain ⟨_, _, run, same⟩ := Edit.yields_bind.mp run
    obtain ⟨_, rfl⟩ := Edit.yields_pure.mp same
    exact orderly.remove trivial run
  | replace old new =>
    obtain ⟨_, _, run, same⟩ := Edit.yields_bind.mp run
    obtain ⟨_, rfl⟩ := Edit.yields_pure.mp same
    exact orderly.replace trivial trivial run
  | insertBefore anchor new | insertAfter anchor new =>
    obtain ⟨_, _, run, same⟩ := Edit.yields_bind.mp run
    obtain ⟨_, rfl⟩ := Edit.yields_pure.mp same
    exact orderly.insertBeside trivial trivial run
  | insertAtHead list new | insertAtTail list new =>
    obtain ⟨_, _, run, same⟩ := Edit.yields_bind.mp run
    obtain ⟨_, rfl⟩ := Edit.yields_pure.mp same
    exact orderly.insertAtEnd trivial trivial run
  | addModule module => exact orderly.addModule trivial run

/-- However many calls end well in a row, they leave a well-formed program well-formed. -/
theorem wellFormed_of_mutations {before after : Program} {mutations : List Mutation}
    (wellFormed : WellFormed before)
    (run : Edit.Yields (mutations.forM Mutation.run) before () after) : WellFormed after := by
  rw [wellFormed_iff_orderly] at wellFormed ⊢
  have kept : Edit.Maintains (Orderly True True (fun _ => True) []) (mutations.forM Mutation.run)
      fun _ => True :=
    Edit.Maintains.forM fun mutation _ _ _ _ orderly run =>
      ⟨mutation.keeps_orderly orderly run, trivial⟩
  exact (kept before () after wellFormed run).1

/-- The symbol of one type takes the place of another type, which is then removed. -/
theorem wellFormed_of_mutations_empty :
    ∃ after, Edit.Yields ([Mutation.replace ⟨1⟩ ⟨4⟩, .remove ⟨1⟩].forM Mutation.run)
      (Program.empty {}) () after ∧ WellFormed after := by
  have endsWell :
      ([Mutation.replace ⟨1⟩ ⟨4⟩, .remove ⟨1⟩].forM Mutation.run (Program.empty {})).isOk := by
    decide +kernel
  obtain ⟨_, after, run⟩ := Edit.yields_of_isOk endsWell
  exact ⟨after, run, wellFormed_of_mutations (Program.wellFormed_empty {}) run⟩

end ProgramTree
