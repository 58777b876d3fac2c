import ProgramTree.Program.Relations
import ProgramTree.Program.Walk
import ProgramTree.Proofs.Running

/-!
# Views of single nodes

The kind, the parent, the context and the children of a node as total functions of
its identity.  A node the program does not have holds nothing and has no parent and
no context.  Each query is described through these views.
-/

namespace ProgramTree

/-- A node without the context that its place gives it. -/
def Node.bare (node : Node) : Node :=
  { node with context := {} }

namespace Program

def kindAt (program : Program) (id : NodeId) : Option Kind :=
  (program.get? id).map Node.kind

def parentOf (program : Program) (id : NodeId) : Option NodeId :=
  (program.get? id).bind Node.parent?

def contextOf (program : Program) (id : NodeId) : Context :=
  ((program.get? id).map Node.context).getD {}

/-- The nodes that `id` holds in its slots, from left to right. -/
def held (program : Program) (id : NodeId) : List NodeId :=
  ((program.kindAt id).map Kind.owned).getD []

/-- Whether `id` counts as part of the tree: it is a root, or it has an enclosing
symbol. -/
def IsPlaced (program : Program) (id : NodeId) : Prop :=
  id ∈ program.roots ∨ (program.contextOf id).symbol?.isSome

/-- The context that a node in the tree hands out to what it holds. -/
def innerContext (program : Program) (id : NodeId) : Context where
  symbol? :=
    if (program.kindAt id).any Kind.isSymbol then some id else (program.contextOf id).symbol?
  scope? :=
    if (program.kindAt id).any Kind.isScope then some id else (program.contextOf id).scope?

variable {program : Program} {id : NodeId} {node : Node}

section Lookup

theorem kindAt_eq (found : program.get? id = some node) : program.kindAt id = some node.kind := by
  simp [kindAt, found]

theorem parentOf_eq (found : program.get? id = some node) :
    program.parentOf id = node.parent? := by
  simp [parentOf, found]

theorem contextOf_eq (found : program.get? id = some node) :
    program.contextOf id = node.context := by
  simp [contextOf, found]

theorem held_eq (found : program.get? id = some node) : program.held id = node.kind.owned := by
  simp [held, kindAt, found]

theorem get?_of_parentOf {parent : NodeId} (child : program.parentOf id = some parent) :
    ∃ node, program.get? id = some node ∧ node.parent? = some parent := by
  simpa [parentOf, Option.bind_eq_some_iff] using child

theorem get?_of_kindAt {kind : Kind} (known : program.kindAt id = some kind) :
    ∃ node, program.get? id = some node ∧ node.kind = kind := by
  simpa [kindAt] using known

theorem get?_isSome_of_kindAt {kind : Kind} (known : program.kindAt id = some kind) :
    (program.get? id).isSome := by
  obtain ⟨_, found, _⟩ := get?_of_kindAt known
  simp [found]

theorem get?_isSome_of_any {test : Kind → Bool} (holds : (program.kindAt id).any test) :
    (program.get? id).isSome := by
  obtain ⟨kind, known, _⟩ := (Option.any_eq_true _ _).mp holds
  exact get?_isSome_of_kindAt known

theorem get?_eq_none_iff_kindAt : program.get? id = none ↔ program.kindAt id = none := by
  simp [kindAt]

theorem held_of_unissued (unissued : program.get? id = none) : program.held id = [] := by
  simp [held, kindAt, unissued]

theorem parentOf_of_unissued (unissued : program.get? id = none) :
    program.parentOf id = none := by
  simp [parentOf, unissued]

theorem contextOf_of_unissued (unissued : program.get? id = none) :
    program.contextOf id = {} := by
  simp [contextOf, unissued]

theorem held_eq_of_kindAt {kind : Kind} (known : program.kindAt id = some kind) :
    program.held id = kind.owned := by
  simp [held, known]

end Lookup

/-! ## Queries through the views -/

section Queries

theorem node_eq_ok : program.node id = .ok node ↔ program.get? id = some node := by
  unfold Program.node
  cases program.get? id <;> simp

theorem kindOf_eq_ok {kind : Kind} :
    program.kindOf id = .ok kind ↔ program.kindAt id = some kind := by
  simp only [kindOf, Fault.bind_eq_ok, Fault.pure_eq_ok, node_eq_ok, kindAt,
    Option.map_eq_some_iff]

theorem isList_eq_ok {answer : Bool} :
    program.isList id = .ok answer ↔ (program.kindAt id).map Kind.isList = some answer := by
  simp only [isList, Fault.bind_eq_ok, Fault.pure_eq_ok, kindOf_eq_ok, Option.map_eq_some_iff]

theorem owned_eq_ok {children : List NodeId} :
    program.owned id = .ok children ↔
      (program.get? id).isSome ∧ program.held id = children := by
  simp only [owned, Fault.bind_eq_ok, Fault.pure_eq_ok, kindOf_eq_ok, held, kindAt]
  cases program.get? id <;> simp

theorem list_eq_ok {answer : ListCategory × Array NodeId} :
    program.list id = .ok answer ↔ program.kindAt id = some (.list answer.1 answer.2) := by
  obtain ⟨holds, elements⟩ := answer
  simp only [list, Fault.bind_eq_ok, kindOf_eq_ok]
  constructor
  · rintro ⟨kind, known, matched⟩
    split at matched
    · simp only [Fault.pure_eq_ok, Prod.mk.injEq] at matched
      obtain ⟨rfl, rfl⟩ := matched
      exact known
    · simp [fail] at matched
  · intro known
    exact ⟨_, known, rfl⟩

theorem elements_eq_ok {elements : Array NodeId} :
    program.elements id = .ok elements ↔
      ∃ holds, program.kindAt id = some (.list holds elements) := by
  simp only [Program.elements, Fault.bind_eq_ok, Fault.pure_eq_ok, list_eq_ok]
  constructor
  · rintro ⟨⟨holds, found⟩, known, rfl⟩
    exact ⟨holds, known⟩
  · rintro ⟨holds, known⟩
    exact ⟨(holds, elements), known, rfl⟩

theorem symbol_eq_ok {symbol : Symbol} :
    program.symbol id = .ok symbol ↔ program.kindAt id = some (.symbol symbol) := by
  simp only [Program.symbol, Fault.bind_eq_ok, kindOf_eq_ok]
  constructor
  · rintro ⟨kind, known, matched⟩
    cases kind with
    | symbol data =>
      obtain rfl := Fault.pure_eq_ok.mp matched
      exact known
    | _ => simp [Kind.symbol?, fail] at matched
  · intro known
    exact ⟨_, known, rfl⟩

theorem isSymbol_eq_ok {answer : Bool} :
    program.isSymbol id = .ok answer ↔ (program.kindAt id).map Kind.isSymbol = some answer := by
  simp only [isSymbol, Fault.bind_eq_ok, Fault.pure_eq_ok, kindOf_eq_ok, Option.map_eq_some_iff]

theorem inTree_eq_ok {answer : Bool} :
    program.inTree id = .ok answer ↔
      (program.get? id).isSome ∧ (answer = true ↔ program.IsPlaced id) := by
  simp only [inTree, Fault.bind_eq_ok, Fault.pure_eq_ok, node_eq_ok, IsPlaced]
  constructor
  · rintro ⟨node, found, rfl⟩
    refine ⟨by simp [found], ?_⟩
    rw [contextOf_eq found]
    simp [or_comm]
  · rintro ⟨issued, agrees⟩
    obtain ⟨node, found⟩ := Option.isSome_iff_exists.mp issued
    refine ⟨node, found, ?_⟩
    rw [contextOf_eq found] at agrees
    rw [Bool.eq_iff_iff, agrees]
    simp [or_comm]

theorem exists_inTree (issued : (program.get? id).isSome) :
    ∃ placed, program.inTree id = .ok placed ∧ (placed = true ↔ program.IsPlaced id) := by
  classical
  refine ⟨decide (program.IsPlaced id), inTree_eq_ok.mpr ⟨issued, ?_⟩, ?_⟩
  all_goals exact decide_eq_true_iff

theorem childContext_eq_ok {context : Context} :
    program.childContext id = .ok context ↔
      (program.get? id).isSome ∧
        ((program.IsPlaced id ∧ context = program.innerContext id) ∨
          (¬ program.IsPlaced id ∧ context = {})) := by
  simp only [childContext, Fault.bind_eq_ok, inTree_eq_ok]
  constructor
  · rintro ⟨placed, ⟨issued, agrees⟩, found⟩
    refine ⟨issued, ?_⟩
    rcases Fault.ite_eq_ok.mp found with ⟨isTrue, found⟩ | ⟨isFalse, found⟩
    · obtain ⟨node, known, context⟩ := Fault.bind_eq_ok.mp found
      rw [Fault.pure_eq_ok] at context
      rw [node_eq_ok] at known
      refine Or.inl ⟨agrees.mp isTrue, ?_⟩
      rw [← context, innerContext, kindAt_eq known, contextOf_eq known]
      simp
    · rw [Fault.pure_eq_ok] at found
      exact Or.inr ⟨fun placedHere => isFalse (agrees.mpr placedHere), found.symm⟩
  · rintro ⟨issued, cases⟩
    obtain ⟨node, known⟩ := Option.isSome_iff_exists.mp issued
    rcases cases with ⟨placed, rfl⟩ | ⟨unplaced, rfl⟩
    · refine ⟨true, ⟨issued, by simpa using placed⟩, ?_⟩
      rw [if_pos rfl, Fault.bind_eq_ok]
      refine ⟨node, node_eq_ok.mpr known, ?_⟩
      rw [Fault.pure_eq_ok, innerContext, kindAt_eq known, contextOf_eq known]
      simp
    · exact ⟨false, ⟨issued, by simpa using unplaced⟩, rfl⟩

theorem exists_childContext (issued : (program.get? id).isSome) :
    ∃ context, program.childContext id = .ok context := by
  by_cases placed : program.IsPlaced id
  · exact ⟨_, childContext_eq_ok.mpr ⟨issued, .inl ⟨placed, rfl⟩⟩⟩
  · exact ⟨_, childContext_eq_ok.mpr ⟨issued, .inr ⟨placed, rfl⟩⟩⟩

end Queries

/-! ## Changes through the views -/

section Changes

variable {changed : NodeId} {change : Node → Node}

theorem get?_modifyNode_of_ne (other : changed ≠ id) :
    (program.modifyNode changed change).get? id = program.get? id := by
  simp [get?_modifyNode, other]

@[simp] theorem roots_modifyNode : (program.modifyNode changed change).roots = program.roots := by
  obtain ⟨_ | place⟩ := changed <;> rfl

@[simp] theorem index_modifyNode : (program.modifyNode changed change).index = program.index := by
  obtain ⟨_ | place⟩ := changed <;> rfl

@[simp] theorem size_modifyNode :
    (program.modifyNode changed change).nodes.size = program.nodes.size := by
  obtain ⟨_ | place⟩ := changed <;> simp [modifyNode]

theorem modifyNode_rest :
    program.modifyNode changed change =
      { program with nodes := (program.modifyNode changed change).nodes } := by
  obtain ⟨_ | place⟩ := changed <;> rfl

end Changes

end Program

theorem Edit.yields_change
    {before after : Program} {id : NodeId} {change : Node → Node} {answer : Unit} :
    Edit.Yields (Edit.change id change) before answer after ↔
      (before.get? id).isSome ∧ after = before.modifyNode id change := by
  simp only [Edit.change, Edit.yields_bind, Edit.yields_look, Edit.yields_modify,
    Program.node_eq_ok, Option.isSome_iff_exists]
  constructor
  · rintro ⟨node, _, ⟨found, rfl⟩, rfl⟩
    exact ⟨⟨node, found⟩, rfl⟩
  · rintro ⟨⟨node, found⟩, rfl⟩
    exact ⟨node, before, ⟨found, rfl⟩, rfl⟩

theorem Edit.yields_newNode {before after : Program} {kind : Kind} {answer : NodeId} :
    Edit.Yields (Edit.newNode kind) before answer after ↔
      answer = before.nextId ∧ after = before.push kind := by
  rw [Edit.newNode, Edit.yields_modifyGet, Prod.mk.injEq, eq_comm, @eq_comm _ after]

end ProgramTree
