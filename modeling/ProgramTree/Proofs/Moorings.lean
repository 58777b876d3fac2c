import ProgramTree.Outlining
import ProgramTree.Proofs.Contents
import ProgramTree.Proofs.Grafts
import ProgramTree.Proofs.Seeds

/-!
# Moorings

A node names others as its children, and one as its parent.  No edit makes it name one that is
not there: what a node takes over gets a parent, and only what is there can get one.  So in
whatever calls of the interface lead to, and in all that a pass makes of it, children and parents
are there.
-/

namespace ProgramTree

open Program Edit

variable {α β : Type} {before between after program : Program}
  {id holder parent old new list answer : NodeId} {kind : Kind} {children : List NodeId}
  {done : Unit}

namespace Program

/-- What is held somewhere is there, and so is what something hangs from. -/
structure Moored (program : Program) : Prop where
  backed : program.Backed
  parents : ∀ {id parent}, program.parentOf id = some parent → ¬ program.New parent

/-- What was there still is, and what is held or hung from that was not before is there. -/
structure Moors (before after : Program) : Prop where
  issued : ∀ {id}, ¬ before.New id → ¬ after.New id
  holds : ∀ {holder child}, after.Holds holder child →
    before.Holds holder child ∨ ¬ after.New child
  parents : ∀ {id parent}, after.parentOf id = some parent →
    before.parentOf id = some parent ∨ ¬ after.New parent

theorem WellFormed.moored (wellFormed : WellFormed program) : program.Moored where
  backed {_ child} holds new := by
    simpa [parentOf_of_unissued new] using (wellFormed.parent_iff _ child).mp holds
  parents named :=
    Option.isSome_iff_ne_none.mp ((wellFormed.parent_iff _ _).mpr named).issued

namespace Moors

theorem refl (program : Program) : Moors program program :=
  ⟨fun issued => issued, .inl, .inl⟩

theorem trans (first : Moors before between) (second : Moors between after) :
    Moors before after where
  issued known := second.issued (first.issued known)
  holds held :=
    (second.holds held).elim (fun held => (first.holds held).imp_right second.issued) .inr
  parents named :=
    (second.parents named).elim (fun named => (first.parents named).imp_right second.issued) .inr

theorem moored (moors : Moors before after) (moored : before.Moored) : after.Moored where
  backed held := (moors.holds held).elim (fun held => moors.issued (moored.backed held)) id
  parents named :=
    (moors.parents named).elim (fun named => moors.issued (moored.parents named)) id

/-! ## What single changes do -/

theorem of_kinds (kinds : ∀ id, after.kindAt id = before.kindAt id)
    (parents : ∀ {id parent}, after.parentOf id = some parent →
      before.parentOf id = some parent ∨ ¬ after.New parent) : Moors before after where
  issued {id} known := by rwa [New, get?_eq_none_iff_kindAt, kinds, ← get?_eq_none_iff_kindAt]
  holds held := .inl (by rwa [Holds, Program.held, kinds, ← Program.held] at held)
  parents := parents

theorem of_nodes (nodes : after.nodes = before.nodes) : Moors before after := by
  have same : ∀ id, after.get? id = before.get? id := fun id => by rw [get?, nodes, get?]
  exact of_kinds (fun id => by rw [kindAt, same, kindAt])
    fun {id _} named => .inl (by rwa [parentOf, same, ← parentOf] at named)

theorem of_sameTree (same : SameTree before after) : Moors before after :=
  of_kinds (fun _ => same.kindAt) fun named => .inl (same.parentOf ▸ named)

/-- A node is changed: it holds nothing else than before that was not there. -/
theorem of_modifyNode {f : Node → Node} (parent : ∀ node, (f node).parent? = node.parent?)
    (owned : ∀ node, before.get? id = some node → ∀ child ∈ (f node).kind.owned,
      child ∈ node.kind.owned ∨ ¬ before.New child) :
    Moors before (before.modifyNode id f) := by
  have issued : ∀ {other}, ¬ before.New other → ¬ (before.modifyNode id f).New other := by
    intro other
    simp [New, get?_modifyNode_map]
  refine ⟨issued, fun {holder child} holds => ?_, fun {other _} named => .inl ?_⟩
  · by_cases changed : id = holder
    · subst changed
      rw [Holds, Program.held, kindAt, get?_modifyNode, if_pos rfl] at holds
      rw [Holds, Program.held, kindAt]
      cases found : before.get? id with
      | none => simp [found] at holds
      | some node =>
        simp only [found, Option.map_some, Option.getD_some] at holds
        simpa using (owned node found child holds).imp_right issued
    · left
      rwa [Holds, Program.held, kindAt, get?_modifyNode_of_ne changed] at holds
  · rw [parentOf, get?_modifyNode_map] at named
    rw [parentOf]
    cases found : before.get? other with
    | none => simp [found] at named
    | some node =>
      rw [found, Option.map_some, Option.bind_some] at named
      split at named <;> simpa [parent] using named

/-- A node gets a parent, which is there. -/
theorem of_setParent {parent? : Option NodeId} (issued : ∀ parent ∈ parent?, ¬ before.New parent)
    (run : Yields (setParent id parent?) before done after) : Moors before after := by
  refine of_kinds (kindAt_setParent run) fun {other parent} named => ?_
  obtain ⟨_, rfl⟩ := yields_setParent.mp run
  have kept : ¬ before.New parent → ¬ (before.modifyNode id fun node =>
      { node with parent? }).New parent := by
    simp [New, get?_modifyNode_map]
  rw [parentOf, get?_modifyNode] at named
  split at named
  · cases found : before.get? other with
    | none => simp [found] at named
    | some node =>
      rw [found, Option.map_some, Option.bind_some] at named
      exact .inr (kept (issued parent named))
  · exact .inl named

/-- Children get a parent, which is there. -/
theorem of_adopted (adopted : Adopted before parent children after)
    (issued : ¬ before.New parent) : Moors before after := by
  refine of_kinds adopted.kindAt fun {id named} isParent => ?_
  by_cases member : id ∈ children
  · obtain ⟨node, found⟩ := Option.isSome_iff_exists.mp (adopted.issued member)
    rw [parentOf, adopted.nodes, found, Option.map_some, if_pos member, Option.bind_some,
      Option.some.injEq] at isParent
    right
    rwa [← isParent, New, get?_eq_none_iff_kindAt, adopted.kindAt, ← get?_eq_none_iff_kindAt]
  · exact .inl (adopted.parentOf_of_notMem member ▸ isParent)

/-- A fresh node holds what is there in the end. -/
theorem of_pushed (pushed : Pushed before kind between) (later : Moors between after)
    (owned : ∀ child ∈ kind.owned, ¬ after.New child) : Moors before after := by
  have kept : ∀ {id}, ¬ before.New id → ¬ after.New id := by
    intro id known
    apply later.issued
    rwa [New, pushed.others]
    rintro rfl
    exact known (get?_nextId before)
  refine ⟨kept, fun {holder child} holds => ?_, fun {id _} named => ?_⟩
  · refine (later.holds holds).elim (fun holds => ?_) .inr
    by_cases fresh : holder = before.nextId
    · rw [fresh, Holds, held_eq_of_kindAt pushed.kindAt] at holds
      exact .inr (owned child holds)
    · left
      rwa [Holds, Program.held, pushed.kinds fresh, ← Program.held] at holds
  · refine (later.parents named).elim (fun named => ?_) .inr
    by_cases fresh : id = before.nextId
    · obtain ⟨node, found, _, free, _⟩ := pushed.node
      simp [fresh, parentOf_eq found, free] at named
    · exact .inl (pushed.parents fresh ▸ named)

/-- A fresh node holds what it took over, or what was there. -/
theorem of_taken (pushed : Pushed before kind between)
    (adopted : Adopted between before.nextId children after)
    (owned : ∀ child ∈ kind.owned, child ∈ children ∨ ¬ before.New child) :
    Moors before after := by
  have adopting : Moors between after := .of_adopted adopted (issued_of_kindAt pushed.kindAt)
  refine of_pushed pushed adopting fun child member => adopting.issued ?_
  rcases owned child member with taken | known
  · exact Option.isSome_iff_ne_none.mp (adopted.issued taken)
  · rwa [New, pushed.others]
    rintro rfl
    exact known (get?_nextId before)

/-- A holder gets other children, all of which name it as their parent. -/
theorem of_relinked {out into : List NodeId} (relinked : Relinked before holder out into [] after) :
    Moors before after := by
  obtain ⟨was, is, wasKnown, isKnown, splices⟩ := relinked.spliced
  have kept : ∀ {id}, ¬ before.New id → ¬ after.New id := by
    intro id known
    by_cases isHolder : id = holder
    · exact issued_of_kindAt (isHolder ▸ isKnown)
    · rwa [New, get?_eq_none_iff_kindAt, relinked.kinds isHolder, ← get?_eq_none_iff_kindAt]
  refine ⟨kept, fun {other child} holds => ?_, fun {id parent} named => ?_⟩
  · by_cases isHolder : other = holder
    · obtain ⟨left, right, ownedBefore, ownedAfter⟩ := splices.owned
      rw [isHolder, Holds, held_eq_of_kindAt isKnown, ownedAfter, List.mem_append,
        List.mem_append] at holds
      rw [isHolder, Holds, held_eq_of_kindAt wasKnown, ownedBefore]
      rcases holds with (inLeft | came) | inRight
      · exact .inl (by simp [inLeft])
      · obtain ⟨node, found, _⟩ := get?_of_parentOf (relinked.parent_into came)
        exact .inr (by simp [New, found])
      · exact .inl (by simp [inRight])
    · left
      rwa [Holds, Program.held, relinked.kinds isHolder, ← Program.held] at holds
  · by_cases came : id ∈ into
    · rw [relinked.parent_into came, Option.some.injEq] at named
      exact .inr (named ▸ issued_of_kindAt isKnown)
    · by_cases gone : id ∈ out
      · simp [relinked.parent_out gone came] at named
      · exact .inl (relinked.parents gone came ▸ named)

end Moors

end Program

-- a long sequence of steps has a large instance
set_option synthInstance.maxSize 2000

/-- Whatever the edit makes a node hold or hang from is there. -/
class Edit.Mooring (edit : Edit α) : Prop where
  moors : ∀ {before answer after}, Yields edit before answer after → Moors before after

namespace Edit

namespace Mooring

variable {first : Edit β} {next : β → Edit α} {items : List β}

theorem andThen [starts : Mooring first] (second : ∀ answer, Mooring (next answer)) :
    Mooring (first >>= next) where
  moors run := by
    obtain ⟨answer, _, runFirst, runNext⟩ := yields_bind.mp run
    exact (starts.moors runFirst).trans ((second answer).moors runNext)

theorem modify {change : Program → Program}
    (same : ∀ program, (change program).nodes = program.nodes) :
    Mooring (modify change : Edit Unit) where
  moors run := .of_nodes (by rw [yields_modify.mp run, same])

instance {answer : α} : Mooring (pure answer : Edit α) where
  moors run := (yields_pure.mp run).2 ▸ .refl _

instance : Mooring (get : Edit Program) where
  moors run := (yields_get.mp run).2 ▸ .refl _

instance {query : Program → Except Fault α} : Mooring (look query) where
  moors run := (yields_look.mp run).2 ▸ .refl _

instance {cause : Cause} : Mooring (fail id cause : Edit α) where
  moors run := (yields_fail run).elim

instance {fault : Fault} : Mooring (throw fault : Edit α) where
  moors run := (yields_throw run).elim

instance [Mooring first] [second : ∀ answer, Mooring (next answer)] : Mooring (first >>= next) :=
  andThen second

instance {condition : Prop} [Decidable condition] {left right : Edit α} [Mooring left]
    [Mooring right] : Mooring (if condition then left else right) := by
  split <;> infer_instance

instance {edit : β → Edit Unit} [∀ item, Mooring (edit item)] : Mooring (items.forM edit) := by
  induction items with
  | nil => exact inferInstanceAs (Mooring (pure ()))
  | cons first rest ih => exact inferInstanceAs (Mooring (edit first >>= fun _ => rest.forM edit))

instance {query : β → Program → Except Fault Bool} :
    Mooring (items.filterM fun item => look (query item)) where
  moors run := (yields_filterM_look.mp run).2 ▸ .refl _

instance {edit : β → Edit α} [∀ item, Mooring (edit item)] : Mooring (items.mapM edit) := by
  induction items with
  | nil =>
    rw [List.mapM_nil]
    infer_instance
  | cons first rest ih =>
    rw [List.mapM_cons]
    infer_instance

instance {step : α → β → Edit α} {start : α} [∀ state item, Mooring (step state item)] :
    Mooring (items.foldlM step start) := by
  induction items generalizing start with
  | nil =>
    rw [List.foldlM_nil]
    infer_instance
  | cons first rest ih =>
    rw [List.foldlM_cons]
    infer_instance

/-! An action on pairs takes them apart. -/

variable {γ : Type} {pairs : List (β × γ)}

instance {edit : β × γ → Edit Unit} [∀ left right, Mooring (edit (left, right))] :
    Mooring (pairs.forM edit) :=
  have : ∀ pair, Mooring (edit pair) := fun pair =>
    inferInstanceAs (Mooring (edit (pair.1, pair.2)))
  inferInstance

instance {edit : β × γ → Edit α} [∀ left right, Mooring (edit (left, right))] :
    Mooring (pairs.mapM edit) :=
  have : ∀ pair, Mooring (edit pair) := fun pair =>
    inferInstanceAs (Mooring (edit (pair.1, pair.2)))
  inferInstance

/-- A fresh node takes over children, and something follows. -/
theorem holding {make : Edit NodeId} {next : NodeId → Edit α}
    (makes : ∀ {before answer after}, Yields make before answer after →
      answer = before.nextId ∧ Pushed before kind after)
    (owned : ∀ child ∈ kind.owned, child ∈ children) [∀ answer, Mooring (next answer)] :
    Mooring (do let id ← make; adopt id children; next id) where
  moors run := by
    simp only [yields_bind] at run
    obtain ⟨id, _, making, _, _, adoption, following⟩ := run
    obtain ⟨rfl, pushed⟩ := makes making
    have taking := Moors.of_taken pushed (adopted adoption) fun child member =>
      .inl (owned child member)
    exact taking.trans (moors following)

end Mooring

variable {fn : NodeId} {id? : Option NodeId} {ids : List NodeId} {name : String}

/-! ## Changes of one node -/

theorem Mooring.change {f : Node → Node} (parent : ∀ node, (f node).parent? = node.parent?)
    (owned : ∀ node, ∀ child ∈ (f node).kind.owned, child ∈ node.kind.owned) :
    Mooring (change id f) where
  moors run := by
    obtain ⟨_, rfl⟩ := yields_change.mp run
    exact .of_modifyNode parent fun node _ child member => .inl (owned node child member)

theorem Mooring.changeSymbol {f : Symbol → Symbol}
    (same : ∀ symbol, (f symbol).kind = symbol.kind) : Mooring (changeSymbol id f) where
  moors run := by
    simp only [Edit.changeSymbol, setKind, yields_bind, yields_look, yields_change,
      symbol_eq_ok] at run
    obtain ⟨symbol, _, ⟨known, rfl⟩, _, rfl⟩ := run
    refine .of_modifyNode (fun _ => rfl) fun node found child member => .inl ?_
    rw [kindAt_eq found, Option.some.injEq] at known
    simpa [known, Kind.owned, same] using member

instance {flag : Flag} : Mooring (addFlag id flag) :=
  .changeSymbol fun _ => rfl

instance : Mooring (setUsedSymbol id new) where
  moors run := by
    simp only [setUsedSymbol, yields_bind, yields_look] at run
    obtain ⟨_, _, ⟨_, rfl⟩, run⟩ := run
    split at run
    · obtain ⟨_, rfl⟩ := yields_change.mp run
      exact .of_modifyNode (fun _ => rfl) (by simp [Kind.owned, Expr.owned])
    · exact (yields_fail run).elim

instance {pragma : String} : Mooring (addPragma id pragma) :=
  .andThen fun _ => .change (fun _ => rfl) fun _ _ member => member

instance : Mooring (setParent id none) where
  moors run := .of_setParent (by simp) run

/-! ## Attribution and attachment -/

instance {given? : Option Location} :
    Mooring (modify fun program => { program with givenLocation? := given? } : Edit Unit) :=
  .modify fun _ => rfl

instance {traversal? : Option String} :
    Mooring (modify fun program => { program with traversal? } : Edit Unit) :=
  .modify fun _ => rfl

instance {location : Location} {edit : Edit α} [Mooring edit] :
    Mooring (withLocation location edit) :=
  .andThen fun _ => inferInstance

theorem Mooring.withLocationOf {edit : Edit α} (inner : Mooring edit) :
    Mooring (withLocationOf id edit) :=
  .andThen fun _ => inferInstance

instance {edit : Edit α} [inner : Mooring edit] : Mooring (withLocationOf id edit) :=
  inner.withLocationOf

theorem Mooring.withTraversal {edit : Edit α} (inner : Mooring edit) :
    Mooring (withTraversal name edit) :=
  .andThen fun _ => inferInstance

instance {context : Context} : Mooring (attach id context) where
  moors run := .of_sameTree (attachedBelow (yields_attach.mp run)).same

instance : Mooring (detach id) where
  moors run := .of_sameTree (displaced run).same

/-! ## Removal and replacement -/

instance : Mooring (remove id) where
  moors run := by
    obtain ⟨_, _, taken, detaching⟩ := taken run
    cases taken with
    | held _ relinked => exact (Moors.of_relinked relinked).trans (Mooring.moors detaching)
    | free _ =>
      refine Moors.trans ?_ (Mooring.moors detaching)
      exact .of_nodes rfl

instance : Mooring (replace old new) where
  moors run := by
    obtain ⟨_, replaced⟩ := replaced run
    obtain ⟨_, _, _, _, relinked, detaching, attaching⟩ := replaced.steps
    exact ((Moors.of_relinked relinked).trans (Mooring.moors detaching)).trans
      (Mooring.moors attaching)

instance : Mooring (checkInsertable new) where
  moors run := (yields_checkInsertable.mp run).1 ▸ .refl _

/-! ## Building -/

theorem Mooring.newNode (leaf : kind.owned = []) : Mooring (newNode kind) where
  moors run := by
    obtain ⟨_, rfl⟩ := yields_newNode.mp run
    exact .of_pushed pushed_push (.refl _) (by simp [leaf])

theorem Mooring.newHolder (owned : ∀ child ∈ kind.owned, child ∈ children) :
    Mooring (newHolder kind children) :=
  .holding (fun run => ⟨(yields_newNode.mp run).1, (yields_newNode.mp run).2 ▸ pushed_push⟩) owned

instance : Mooring (newUse id) :=
  .newNode rfl

instance : Mooring (asOperand id) := by
  unfold asOperand
  infer_instance

instance : Mooring (asOperand? id?) := by
  cases id? <;> unfold asOperand? <;> infer_instance

instance : Mooring (newExprStmt id) :=
  .holding pushed_withLocationOf (by simp [Kind.owned, Stmt.owned])

instance : Mooring (asStmt id) := by
  unfold asStmt
  infer_instance

instance : Mooring (asStmt? id?) := by
  cases id? <;> unfold asStmt? <;> infer_instance

instance {holds : ListCategory} : Mooring (asElement holds id) := by
  cases holds <;> unfold asElement <;> infer_instance

instance {holds : ListCategory} : Mooring (newList holds ids) :=
  .andThen fun _ => .newHolder (by simp [Kind.owned])

instance : Mooring (newOperands ids) := by
  unfold newOperands
  infer_instance

instance : Mooring (newBlock ids) :=
  .andThen fun _ => .newHolder (by simp [Kind.owned, Stmt.owned])

instance : Mooring (asBlock id) :=
  .andThen fun kind => by split <;> infer_instance

instance {init? : Option NodeId} : Mooring (newDefinition id init? id?) := by
  have defined : ∀ init? declaredType?, Mooring (do
      let definition ← withLocationOf id (newNode (.expr (.definition id init? declaredType?)))
      adopt definition (id :: init?.toList ++ declaredType?.toList)
      changeSymbol id fun symbol => { symbol with defPoint? := some definition }
      return definition) := fun _ _ =>
    have : ∀ definition, Mooring
        (changeSymbol id fun symbol => { symbol with defPoint? := some definition }) :=
      fun _ => .changeSymbol fun _ => rfl
    .holding pushed_withLocationOf (by simp [Kind.owned, Expr.owned])
  unfold newDefinition
  infer_instance

instance : Mooring (define id) :=
  inferInstanceAs (Mooring (newDefinition id none none))

instance : Mooring (newCall fn ids) :=
  .andThen fun _ => .andThen fun _ => .newHolder (by simp [Kind.owned, Expr.owned])

instance {operation : Primitive} : Mooring (newPrimitiveCall operation ids) :=
  .andThen fun _ => .newHolder (by simp [Kind.owned, Expr.owned])

instance : Mooring (newCast id? id) :=
  .andThen fun _ => .newHolder (by simp [Kind.owned, Expr.owned])

instance : Mooring (newNamed name id) :=
  .andThen fun _ => .newHolder (by simp [Kind.owned, Expr.owned])

instance : Mooring (newImport id?) :=
  .newNode rfl

instance {value : Literal} : Mooring (newLiteral value) :=
  .newNode rfl

instance : Mooring (newReturn id?) :=
  .andThen fun _ => .newHolder (by simp [Kind.owned, Stmt.owned])

instance {iterators : List NodeId} {body : NodeId} {orderIndependent : Bool} :
    Mooring (newForLoop ids iterators body orderIndependent) :=
  .andThen fun _ => .andThen fun _ => .andThen fun _ => .andThen fun _ => .andThen fun _ =>
    .newHolder (by simp [Kind.owned, Stmt.owned])

instance {thenStmt : NodeId} : Mooring (newCond id thenStmt id?) :=
  .andThen fun _ => .andThen fun _ => .andThen fun _ =>
    .newHolder (by simp [Kind.owned, Stmt.owned])

instance : Mooring (newWhen ids id) :=
  .andThen fun _ => .andThen fun _ => .newHolder (by simp [Kind.owned, Stmt.owned])

instance : Mooring (newSelect id ids) :=
  .andThen fun _ => .andThen fun _ => .newHolder (by simp [Kind.owned, Stmt.owned])

instance : Mooring (newGoto id?) :=
  .newNode rfl

instance : Mooring (newVar name id?) :=
  .newNode rfl

instance : Mooring (newTemp name id?) := by
  unfold newTemp
  infer_instance

instance {intent : Intent} : Mooring (newArg name intent id?) :=
  .newNode rfl

instance : Mooring (newLabelStmt name id) :=
  have : Mooring (newLabel name) := .newNode rfl
  .andThen fun _ => .andThen fun _ => .andThen fun _ =>
    .newHolder (by simp [Kind.owned, Stmt.owned])

instance {body : NodeId} : Mooring (newFn name ids body id?) :=
  .andThen fun _ => .andThen fun _ => .andThen fun _ =>
    .holding (fun run => ⟨(yields_newNode.mp run).1, (yields_newNode.mp run).2 ▸ pushed_push⟩)
      (by simp [Kind.owned, SymbolKind.owned])

instance {tag : ModuleTag} : Mooring (newModule name tag ids) :=
  .andThen fun _ =>
    .holding (fun run => ⟨(yields_newNode.mp run).1, (yields_newNode.mp run).2 ▸ pushed_push⟩)
      (by simp [Kind.owned, SymbolKind.owned])

/-- A type takes over its fields or constants, and what else it holds has to be there. -/
theorem moors_newNamedType {typeKind : TypeKind}
    (issued : ∀ child ∈ typeKind.owned, child ∈ adoptedByType typeKind ∨ ¬ before.New child)
    (run : Yields (newNamedType name typeKind) before answer after) : Moors before after := by
  simp only [newNamedType, Edit.newHolder, newSymbol, yields_bind, yields_pure,
    yields_newNode] at run
  obtain ⟨type, grown, ⟨_, _, ⟨rfl, rfl⟩, _, _, taking, rfl, rfl⟩, naming, _, ⟨rfl, rfl⟩, _, held,
    adopting, _, _, writing, _, rfl⟩ := run
  obtain ⟨_, rfl⟩ := yields_change.mp writing
  have growing : Moors before grown := .of_taken pushed_push (adopted taking) issued
  have naming : Moors grown held :=
    .of_taken pushed_push (adopted adopting) (by simp [Kind.owned, SymbolKind.owned])
  refine (growing.trans naming).trans (.of_modifyNode (fun _ => rfl) fun _ _ child owned => .inr ?_)
  have isType : grown.kindAt before.nextId = some (.type { kind := typeKind }) := by
    rw [(adopted taking).kindAt, pushed_push.kindAt]
  have holds : grown.Holds before.nextId child := by
    rw [Holds, held_eq_of_kindAt isType]
    exact owned
  refine naming.issued ((growing.holds holds).resolve_left fun was => ?_)
  simp [Holds, held_of_unissued (get?_nextId before)] at was

instance {tag : AggregateTag} : Mooring (newAggregateType name tag) :=
  .andThen fun fields => ⟨moors_newNamedType (by simp [TypeKind.owned, adoptedByType])⟩

/-! ## Insertion -/

/-- A list gets elements that are there. -/
theorem moors_changeElements {f : Array NodeId → Array NodeId}
    (owned : ∀ elements, ∀ id ∈ f elements, id ∈ elements ∨ ¬ before.New id)
    (run : Yields (changeElements list f) before done after) : Moors before after := by
  obtain ⟨_, rfl⟩ := yields_changeElements.mp run
  refine .of_modifyNode (fun _ => rfl) fun node _ child member => ?_
  cases isKind : node.kind with
  | list holds elements =>
    rw [isKind, Kind.mapElements, Kind.owned, Array.mem_toList_iff] at member
    exact (owned elements child member).imp_left fun kept => by simpa [Kind.owned] using kept
  | _ =>
    rw [isKind] at member
    exact .inl member

theorem mem_of_mem_insertIdxIfInBounds {elements : Array NodeId} {position : Nat}
    (member : id ∈ elements.insertIdxIfInBounds position new) : id ∈ elements ∨ id = new := by
  rw [Array.insertIdxIfInBounds] at member
  split at member
  · exact (Array.mem_insertIdx.mp member).symm
  · exact .inl member

instance {position : Nat} : Mooring (insertElement list position new) where
  moors run := by
    simp only [insertElement, yields_bind, yields_look, yields_ite, yields_throw,
      yields_pure] at run
    obtain ⟨_, _, ⟨_, rfl⟩, linked, wrapped, wrapping, ⟨_, _, _, never, _⟩ |
      ⟨_, _, _, changing, _, _, claiming, _, _, ⟨_, rfl⟩, _, _, attaching, _, rfl⟩⟩ := run
    · exact never.elim
    obtain ⟨_, _, known, kinds⟩ := kindAt_changeElements changing
    have issued : ¬ wrapped.New linked := by
      rw [(yields_changeElements.mp changing).2] at claiming
      simpa [New, get?_modifyNode_map] using Option.isSome_iff_ne_none.mp
        (yields_setParent.mp claiming).1
    have inserting := moors_changeElements (fun elements id member =>
      (mem_of_mem_insertIdxIfInBounds member).imp_right fun same => same ▸ issued) changing
    have issuedList := inserting.issued (issued_of_kindAt known)
    have placing := Moors.of_setParent (by simpa using issuedList) claiming
    exact (((Mooring.moors wrapping).trans inserting).trans placing).trans (Mooring.moors attaching)

instance {depth position : Nat} : Mooring (spliceWithin depth list position new) := by
  induction depth generalizing position new with
  | zero => exact inferInstanceAs (Mooring (throw (.endless new) : Edit NodeId))
  | succ depth ih =>
    have : ∀ list, Mooring (changeElements list fun _ => #[]) :=
      fun _ => ⟨moors_changeElements (by simp)⟩
    unfold spliceWithin
    infer_instance

instance {position : Nat} : Mooring (splice list position new) :=
  .andThen fun _ => inferInstance

instance {side : Side} {anchor : NodeId} : Mooring (insertBeside side anchor new) :=
  .andThen fun place => by cases side <;> infer_instance

instance {anchor : NodeId} : Mooring (insertBefore anchor new) :=
  inferInstanceAs (Mooring (insertBeside _ _ _))

instance {anchor : NodeId} : Mooring (insertAfter anchor new) :=
  inferInstanceAs (Mooring (insertBeside _ _ _))

instance {listEnd : ListEnd} : Mooring (insertAtEnd listEnd list new) :=
  .andThen fun kind => by cases listEnd <;> split <;> infer_instance

instance : Mooring (insertAtHead list new) :=
  inferInstanceAs (Mooring (insertAtEnd _ _ _))

instance : Mooring (insertAtTail list new) :=
  inferInstanceAs (Mooring (insertAtEnd _ _ _))

instance {formal : NodeId} : Mooring (insertFormalAtTail fn formal) := by
  unfold insertFormalAtTail
  infer_instance

instance : Mooring (addField id name id?) := by
  unfold addField
  infer_instance

instance : Mooring (addModule id) := by
  have : Mooring
      (modify fun program => { program with roots := program.roots.push id } : Edit Unit) :=
    .modify fun _ => rfl
  unfold addModule
  infer_instance

/-! ## Duplication -/

variable {table : Remap} {bundle wrap var call : NodeId} {place : Nat} {parts : Program.LoopParts}

theorem moors_setParents (issued : ¬ before.New parent)
    (run : Yields (ids.forM (setParent · (some parent))) before done after) :
    Moors before after := by
  induction ids generalizing before with
  | nil => exact yields_forM_nil.mp run ▸ .refl before
  | cons first rest ih =>
    obtain ⟨between, runFirst, runRest⟩ := yields_forM_cons.mp run
    have claiming : Moors before between := .of_setParent (by simpa using issued) runFirst
    exact claiming.trans (ih (claiming.issued issued) runRest)

instance {source : Node} : Mooring (carryOver source id) :=
  .andThen fun _ => .change (fun _ => rfl) fun _ _ member => member

/-- A duplicate becomes the parent of all that it holds. -/
instance : Mooring (duplicateNode id table) where
  moors run := by
    simp only [duplicateNode, yields_bind, yields_look, yields_newNode, yields_pure,
      owned_eq_ok] at run
    obtain ⟨source, _, ⟨_, rfl⟩, _, _, ⟨rfl, rfl⟩, children, _, ⟨⟨_, held⟩, rfl⟩, _, adopted,
      adoption, _, _, carrying, _, rfl⟩ := run
    rw [held_eq_of_kindAt pushed_push.kindAt] at held
    subst held
    refine (Moors.of_pushed pushed_push (moors_setParents ?_ adoption) fun child member => ?_).trans
      (Mooring.moors carrying)
    · exact issued_of_kindAt pushed_push.kindAt
    · have hangs : Hangs child adopted := .of_setParents member adoption
      obtain ⟨_, named⟩ := Option.isSome_iff_exists.mp hangs
      obtain ⟨node, found, _⟩ := get?_of_parentOf named
      simp [New, found]

instance {depth : Nat} : Mooring (duplicateWithin depth table id) := by
  induction depth generalizing table id with
  | zero => exact inferInstanceAs (Mooring (throw (.endless id) : Edit Remap))
  | succ depth ih =>
    unfold duplicateWithin
    infer_instance

instance : Mooring (redirectLinks table id) :=
  have : ∀ id,
      Mooring (change id fun node => { node with kind := node.kind.mapLinks table.apply }) :=
    fun _ => .change (fun _ => rfl) fun node _ member => by rwa [Kind.owned_mapLinks] at member
  .andThen fun _ => inferInstance

instance {inner : Bool} : Mooring (duplicateWith id table ids inner) := by
  unfold duplicateWith
  split <;> infer_instance

instance : Mooring (duplicate id) := by
  unfold duplicate
  infer_instance

/-! ## Bundles -/

instance : Mooring (bundleSymbol bundle) :=
  .andThen fun naming? => by split <;> infer_instance

instance : Mooring (bundleField bundle place) :=
  .andThen fun member? => by split <;> infer_instance

instance : Mooring (addBundleField bundle var place) :=
  .andThen fun type? => by cases type? <;> dsimp only <;> infer_instance

instance {module : NodeId} : Mooring (newBundleClass ids module fn) := by
  unfold newBundleClass
  infer_instance

instance : Mooring (unpackVar wrap bundle var place) := by
  unfold unpackVar
  infer_instance

instance : Mooring (insertAllAtHead list ids) := by
  cases ids <;> unfold insertAllAtHead <;> infer_instance

instance : Mooring (unpackBundle fn ids wrap bundle) := by
  unfold unpackBundle
  infer_instance

instance : Mooring (replaceUse table id) :=
  .andThen fun var? => by
    split
    · infer_instance
    · split <;> infer_instance

instance : Mooring (replaceUses table id) := by
  unfold replaceUses
  infer_instance

instance {anchor : NodeId} : Mooring (defineBefore anchor id) := by
  unfold defineBefore
  infer_instance

instance : Mooring (passBundle call fn ids bundle) := by
  refine .andThen fun anchor? => ?_
  cases anchor? <;>
    exact .andThen fun anchor => .andThen fun naming => .andThen fun symbol => .withLocationOf <|
      .andThen fun instanceVar => .andThen fun _ => .andThen fun description =>
      .andThen fun alloc => .andThen fun move => .andThen fun _ => inferInstance

instance : Mooring (singleCallSite fn) :=
  .andThen fun calls => by split <;> infer_instance

instance : Mooring (passCaptures fn) := by
  unfold passCaptures
  infer_instance

/-! ## The pass -/

instance : Mooring (newStart id? id) := by
  cases id? <;> unfold newStart <;> infer_instance

instance : Mooring (newIteration parts) := by
  unfold newIteration
  infer_instance

instance : Mooring (newGpuVariant name parts) := by
  unfold newGpuVariant
  infer_instance

instance {loop variant : NodeId} : Mooring (dispatch loop variant) := by
  unfold dispatch
  infer_instance

instance : Mooring (flatten fn) :=
  .andThen fun module => .andThen fun symbol => by split <;> infer_instance

instance : Mooring (relocate fn) := by
  unfold relocate
  infer_instance

instance {loop : NodeId} {builder : GpuLoopBuilder} :
    Mooring (GpuLoopBuilder.outline loop builder) :=
  .andThen fun parts? => by split <;> infer_instance

section Outlining

variable {σ : Type} {outliner : LoopOutliner σ} {state : σ}
  [∀ loop state, Mooring (outliner loop state)]

theorem Mooring.run_andThen {edit : StateT σ Edit β} {next : β → StateT σ Edit α}
    (starts : Mooring (edit state)) (second : ∀ answer state, Mooring (next answer state)) :
    Mooring ((edit >>= next) state) :=
  have : Mooring (edit state) := starts
  Mooring.andThen fun answer : β × σ => second answer.1 answer.2

instance {edit : Edit α} [Mooring edit] : Mooring ((liftM edit : StateT σ Edit α) state) :=
  inferInstanceAs (Mooring (edit >>= fun answer => pure (answer, state)))

instance {answer : α} : Mooring ((pure answer : StateT σ Edit α) state) :=
  inferInstanceAs (Mooring (pure (answer, state)))

instance {loop : NodeId} : Mooring (outlineLoop outliner loop state) := by
  refine .run_andThen inferInstance fun variant? state => ?_
  cases variant? with
  | none => exact .run_andThen inferInstance fun report? state => inferInstance
  | some variant =>
    refine .run_andThen inferInstance fun report? state => ?_
    exact .run_andThen inferInstance fun _ state => inferInstance

instance {loops : List NodeId} : Mooring (outlineLoops outliner loops state) := by
  induction loops generalizing state with
  | nil => exact inferInstanceAs (Mooring (pure _))
  | cons loop rest ih =>
    refine .run_andThen inferInstance fun candidate state => ?_
    cases candidate with
    | false => exact ih
    | true =>
      refine .run_andThen inferInstance fun decision state => ?_
      exact .run_andThen ih fun decisions state => inferInstance

instance : Mooring (outlineWith outliner state) :=
  .withTraversal <| .andThen fun _ => .andThen fun (_, _) => inferInstance

end Outlining

end Edit

/-! ## What calls lead to -/

/-- A symbol or a type may be made to hold anything, so for them what is given has to be there. -/
theorem Builder.moors {builder : Builder} (issued : ∀ id ∈ builder.given, (before.get? id).isSome)
    (run : Yields builder.run before answer after) : Moors before after := by
  have known : ∀ id ∈ builder.given, ¬ before.New id :=
    fun id member => Option.isSome_iff_ne_none.mp (issued id member)
  cases builder with
  | symbol name type? kind =>
    obtain ⟨_, rfl⟩ := yields_newNode.mp run
    have pushed : Pushed before (.symbol { name, type?, kind }) _ := pushed_push
    have same : Moors (before.push (.symbol { name, type?, kind })) _ := .refl _
    refine .of_pushed pushed same fun child member => ?_
    rw [New, pushed.others]
    · exact known child member
    · rintro rfl
      exact known _ member (get?_nextId before)
  | namedType name kind =>
    exact moors_newNamedType (fun child member => .inr (known child member)) run
  | _ =>
    simp only [Builder.run] at run
    exact Mooring.moors run

theorem Call.moors {call : Call} (issued : ∀ id ∈ call.given, (before.get? id).isSome)
    (run : Yields call.run before () after) : Moors before after := by
  cases call with
  | build builder =>
    obtain ⟨answer, _, run, same⟩ := yields_bind.mp run
    obtain ⟨_, rfl⟩ := yields_pure.mp same
    exact builder.moors issued run
  | attribution settings lexer? given? traversal? =>
    exact .of_nodes (by rw [yields_modify.mp run])
  | duplicate id table updated inner =>
    obtain ⟨_, _, run, same⟩ := yields_bind.mp run
    obtain ⟨_, rfl⟩ := yields_pure.mp same
    exact Mooring.moors run
  | mutate mutation =>
    have : Mooring mutation.run := by
      cases mutation <;> simp only [Mutation.run] <;> infer_instance
    exact Mooring.moors (show Yields mutation.run before () after from run)
  | addFlag id flag =>
    exact Mooring.moors (show Yields (Edit.addFlag id flag) before () after from run)
  | addPragma id pragma =>
    exact Mooring.moors (show Yields (Edit.addPragma id pragma) before () after from run)
  | setUsedSymbol id var =>
    exact Mooring.moors (show Yields (Edit.setUsedSymbol id var) before () after from run)

/-- Calls lead from a fresh program to this one, between which single loops may have been outlined
and passes may have run. -/
inductive Arises : Program → Prop where
  | fresh (settings : Settings) : Arises (empty settings)
  | call {before after : Program} {call : Call} (arises : Arises before)
      (issued : ∀ id ∈ call.given, (before.get? id).isSome)
      (run : Yields call.run before () after) : Arises after
  | outliner {before after : Program} {σ : Type} {outliner : LoopOutliner σ} {loop : NodeId}
      {state : σ} {answer : Option NodeId × σ} (moors : ∀ loop state, Mooring (outliner loop state))
      (arises : Arises before) (run : Yields (outliner loop state) before answer after) :
      Arises after
  | pass {before after : Program} {σ : Type} {outliner : LoopOutliner σ} {state : σ}
      {answer : OutlineReport × σ} (moors : ∀ loop state, Mooring (outliner loop state))
      (arises : Arises before) (run : Yields (outlineWith outliner state) before answer after) :
      Arises after

theorem Reached.arises {permitted : Program → Call → Prop} (reached : Reached permitted program) :
    Arises program := by
  induction reached with
  | fresh settings => exact .fresh settings
  | call _ issued _ run ih => exact .call ih issued run

/-- Whatever calls and passes lead to, its children and parents are there. -/
theorem Arises.moored (arises : Arises program) : program.Moored := by
  induction arises with
  | fresh settings => exact (wellFormed_empty settings).moored
  | call _ issued run ih => exact (Call.moors issued run).moored ih
  | outliner _ _ run ih | pass _ _ run ih => exact (Mooring.moors run).moored ih

end ProgramTree
