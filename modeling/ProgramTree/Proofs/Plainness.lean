import ProgramTree.Proofs.Frames
import ProgramTree.Proofs.Leniency

/-!
# Plain edits

What is to be reported is for the reports alone.  Every edit of a pass does the same whatever is to
be reported, and where it stops, it does not stop because the tree is not consistent.
-/

namespace ProgramTree

variable {α β σ : Type}

/-- The program, and this to be reported. -/
def Program.reporting (program : Program) (reportOutlining developer : Bool) : Program :=
  { program with settings := { program.settings with reportOutlining, developer } }

theorem Program.Unframed.reporting (query : Program → α) [Program.Unframed query]
    (program : Program) (reportOutlining developer : Bool) :
    query (program.reporting reportOutlining developer) = query program :=
  framed program ⟨(program.reporting reportOutlining developer).settings, program.lexerLocation?,
    program.givenLocation?, program.traversal?⟩

-- a long sequence of steps has a large instance
set_option synthInstance.maxSize 2000

/-- The edit does not stop because the tree is not consistent. -/
class Edit.Lenient (edit : Edit α) : Prop where
  runs : ∀ program, ProgramTree.Lenient (edit program)

/-- The edit is lenient, and does the same whatever is to be reported. -/
class Edit.Plain (edit : Edit α) : Prop extends Edit.Lenient edit where
  reporting : ∀ program reportOutlining developer,
    edit (program.reporting reportOutlining developer) =
      (edit program).map (Prod.map id (·.reporting reportOutlining developer))

namespace Edit

namespace Lenient

variable {first : Edit β} {next : β → Edit α}

instance : Lenient (get : Edit Program) :=
  ⟨fun _ => ⟨nofun⟩⟩

instance {change : Program → Program} : Lenient (modify change : Edit Unit) :=
  ⟨fun _ => ⟨nofun⟩⟩

instance {query : Program → Except Fault α} [∀ program, ProgramTree.Lenient (query program)] :
    Lenient (look query) := by
  refine ⟨fun program => ⟨fun report stops => ?_⟩⟩
  rw [look] at stops
  split at stops
  · cases stops
  · rename_i fault result
    cases stops
    exact ProgramTree.Lenient.no_verdict report result

theorem andThen [Lenient first] (second : ∀ answer, Lenient (next answer)) :
    Lenient (first >>= next) := by
  refine ⟨fun program => ?_⟩
  have starts : ProgramTree.Lenient (first program) := runs program
  exact ProgramTree.Lenient.andThen fun answer => (second answer.1).runs answer.2

instance [Lenient first] [second : ∀ answer, Lenient (next answer)] : Lenient (first >>= next) :=
  andThen second

end Lenient

namespace Plain

variable {first : Edit β} {next : β → Edit α} {items : List β}

/-- An edit that stops, without a verdict on the tree. -/
theorem stop {fault : Fault} (lenient : ∀ report, fault ≠ .inconsistent report) :
    Plain (throw fault : Edit α) where
  runs _ := ⟨fun report stops => lenient report (Except.error.inj stops)⟩
  reporting _ _ _ := rfl

theorem modify {change : Program → Program}
    (same : ∀ program reportOutlining developer,
      change (program.reporting reportOutlining developer) =
        (change program).reporting reportOutlining developer) :
    Plain (modify change : Edit Unit) where
  runs _ := ⟨nofun⟩
  reporting program reportOutlining developer := by
    change Except.ok ((), _) = Except.ok ((), _)
    rw [same]

instance {answer : α} : Plain (pure answer : Edit α) where
  runs program := inferInstanceAs (ProgramTree.Lenient (pure (answer, program)))
  reporting _ _ _ := rfl

instance {query : Program → Except Fault α} [∀ program, ProgramTree.Lenient (query program)]
    [Program.Unframed query] : Plain (look query) where
  reporting program reportOutlining developer := by
    rw [look, Program.Unframed.reporting query, look]
    cases query program <;> rfl

instance {id : NodeId} {cause : Cause} : Plain (fail id cause : Edit α) :=
  inferInstanceAs (Plain (look _))

instance {id : NodeId} : Plain (throw (.endless id) : Edit α) :=
  stop nofun

instance {list : NodeId} {position : Nat} : Plain (throw (.outOfRange list position) : Edit α) :=
  stop nofun

theorem andThen [starts : Plain first] (second : ∀ answer, Plain (next answer)) :
    Plain (first >>= next) where
  toLenient := .andThen fun answer => (second answer).toLenient
  reporting program reportOutlining developer := by
    change (first _ >>= fun made => next made.1 made.2) =
      (first _ >>= fun made => next made.1 made.2).map _
    rw [starts.reporting]
    cases first program with
    | error fault => rfl
    | ok made => exact (second made.1).reporting made.2 reportOutlining developer

/-- What an edit reads of the program is the same whatever is to be reported. -/
theorem read {next : Program → Edit α} (plain : ∀ program, Plain (next program))
    (same : ∀ program reportOutlining developer,
      next (program.reporting reportOutlining developer) = next program) :
    Plain (get >>= next) where
  runs program := (plain program).runs program
  reporting program reportOutlining developer := by
    change next _ _ = (next _ _).map _
    rw [same]
    exact (plain program).reporting program reportOutlining developer

instance [Plain first] [second : ∀ answer, Plain (next answer)] : Plain (first >>= next) :=
  andThen second

instance {condition : Prop} [Decidable condition] {left right : Edit α} [Plain left]
    [Plain right] : Plain (if condition then left else right) := by
  split <;> infer_instance

instance {edit : β → Edit Unit} [∀ item, Plain (edit item)] : Plain (items.forM edit) := by
  induction items with
  | nil => exact inferInstanceAs (Plain (pure ()))
  | cons first rest ih => exact inferInstanceAs (Plain (edit first >>= fun _ => rest.forM edit))

instance {edit : β → Edit α} [∀ item, Plain (edit item)] : Plain (items.mapM edit) := by
  induction items with
  | nil =>
    rw [List.mapM_nil]
    infer_instance
  | cons first rest ih =>
    rw [List.mapM_cons]
    infer_instance

instance {step : α → β → Edit α} {start : α} [∀ state item, Plain (step state item)] :
    Plain (items.foldlM step start) := by
  induction items generalizing start with
  | nil =>
    rw [List.foldlM_nil]
    infer_instance
  | cons first rest ih =>
    rw [List.foldlM_cons]
    infer_instance

instance {test : β → Edit Bool} [∀ item, Plain (test item)] : Plain (items.filterM test) := by
  have within : ∀ earlier, Plain (List.filterAuxM test items earlier) := by
    induction items with
    | nil => exact fun earlier => inferInstanceAs (Plain (pure earlier))
    | cons first rest ih => exact fun earlier => andThen fun passed => ih _
  exact andThen fun passed => inferInstance

/-! An action on pairs takes them apart. -/

variable {γ : Type} {pairs : List (β × γ)}

instance {edit : β × γ → Edit Unit} [∀ left right, Plain (edit (left, right))] :
    Plain (pairs.forM edit) :=
  have : ∀ pair, Plain (edit pair) := fun pair => inferInstanceAs (Plain (edit (pair.1, pair.2)))
  inferInstance

instance {edit : β × γ → Edit α} [∀ left right, Plain (edit (left, right))] :
    Plain (pairs.mapM edit) :=
  have : ∀ pair, Plain (edit pair) := fun pair => inferInstanceAs (Plain (edit (pair.1, pair.2)))
  inferInstance

end Plain

variable {id fn new old list anchor parent : NodeId} {id? : Option NodeId} {ids : List NodeId}
  {kind : Kind} {name : String}

instance : Plain (newNode kind) where
  runs _ := ⟨nofun⟩
  reporting _ _ _ := rfl

instance {f : Node → Node} : Plain (modify (·.modifyNode id f) : Edit Unit) :=
  .modify fun _ _ _ => by obtain ⟨_ | _⟩ := id <;> rfl

instance {location? : Option Location} :
    Plain (modify fun program => { program with givenLocation? := location? } : Edit Unit) :=
  .modify fun _ _ _ => rfl

instance {traversal? : Option String} :
    Plain (modify fun program => { program with traversal? } : Edit Unit) :=
  .modify fun _ _ _ => rfl

instance : Plain (modify fun program =>
    { program with index := program.index.register id kind } : Edit Unit) :=
  .modify fun _ _ _ => rfl

instance : Plain (modify fun program =>
    { program with index := program.index.deregister id } : Edit Unit) :=
  .modify fun _ _ _ => rfl

instance : Plain (modify fun program =>
    { program with roots := program.roots.filter (· ≠ id) } : Edit Unit) :=
  .modify fun _ _ _ => rfl

instance {f : Node → Node} : Plain (change id f) := by
  unfold change
  infer_instance

instance : Plain (setKind id kind) :=
  inferInstanceAs (Plain (change _ _))

instance {parent? : Option NodeId} : Plain (setParent id parent?) :=
  inferInstanceAs (Plain (change _ _))

instance {location : Location} {edit : Edit α} [Plain edit] : Plain (withLocation location edit) :=
  .read (fun _ => by dsimp only; infer_instance) fun _ _ _ => rfl

theorem Plain.withLocationOf {edit : Edit α} (inner : Plain edit) :
    Plain (withLocationOf id edit) :=
  .andThen fun _ => inferInstance

instance {edit : Edit α} [inner : Plain edit] : Plain (withLocationOf id edit) :=
  inner.withLocationOf

theorem Plain.withTraversal {edit : Edit α} (inner : Plain edit) :
    Plain (withTraversal name edit) :=
  .read (fun _ => by dsimp only; infer_instance) fun _ _ _ => rfl

instance {f : Symbol → Symbol} : Plain (changeSymbol id f) := by
  unfold changeSymbol
  infer_instance

instance {flag : Flag} : Plain (addFlag id flag) :=
  inferInstanceAs (Plain (changeSymbol _ _))

instance {var : NodeId} : Plain (setUsedSymbol id var) :=
  .andThen fun kind => by split <;> infer_instance

/-! ## Attachment and placement -/

instance {context : Context} : Plain (place id context) := by
  unfold place
  infer_instance

instance {depth : Nat} {context : Context} : Plain (attachWithin depth id context) := by
  induction depth generalizing id context with
  | zero => exact inferInstanceAs (Plain (throw (.endless id) : Edit Unit))
  | succ depth ih => exact .andThen fun placed => inferInstance

instance {context : Context} : Plain (attach id context) :=
  .read (fun _ => by dsimp only; infer_instance) fun _ _ _ => rfl

instance : Plain (displace id) := by
  unfold displace
  infer_instance

instance : Plain (detach id) := by
  unfold detach
  infer_instance

instance {f : Array NodeId → Array NodeId} : Plain (changeElements list f) := by
  unfold changeElements
  infer_instance

instance : Plain (rebindSlot parent old id?) :=
  .andThen fun kind => by
    cases kind.rebind old id? <;> cases id? <;> dsimp only <;> infer_instance

instance : Plain (remove id) :=
  .andThen fun node => by cases node.parent? <;> dsimp only <;> infer_instance

instance : Plain (checkInsertable new) :=
  .andThen fun node => by cases node.parent? <;> dsimp only <;> infer_instance

instance : Plain (replace old new) :=
  .andThen fun _ => .andThen fun node => by cases node.parent? <;> dsimp only <;> infer_instance

/-! ## Building -/

instance : Plain (adopt parent ids) := by
  unfold adopt
  infer_instance

instance : Plain (newHolder kind ids) := by
  unfold newHolder
  infer_instance

instance : Plain (newUse id) :=
  inferInstanceAs (Plain (newNode _))

instance : Plain (asOperand id) := by
  unfold asOperand
  infer_instance

instance : Plain (asOperand? id?) := by
  cases id? <;> unfold asOperand? <;> infer_instance

instance : Plain (newExprStmt id) := by
  unfold newExprStmt
  infer_instance

instance : Plain (asStmt id) := by
  unfold asStmt
  infer_instance

instance : Plain (asStmt? id?) := by
  cases id? <;> unfold asStmt? <;> infer_instance

instance {holds : ListCategory} : Plain (asElement holds id) := by
  cases holds <;> unfold asElement <;> infer_instance

instance {holds : ListCategory} : Plain (newList holds ids) := by
  unfold newList
  infer_instance

instance : Plain (newOperands ids) := by
  unfold newOperands
  infer_instance

instance : Plain (newBlock ids) := by
  unfold newBlock
  infer_instance

instance : Plain (asBlock id) :=
  .andThen fun kind => by split <;> infer_instance

instance {init? : Option NodeId} : Plain (newDefinition id init? id?) := by
  unfold newDefinition
  infer_instance

instance : Plain (define id) :=
  inferInstanceAs (Plain (newDefinition id none none))

instance : Plain (newCall fn ids) := by
  unfold newCall
  infer_instance

instance {operation : Primitive} : Plain (newPrimitiveCall operation ids) := by
  unfold newPrimitiveCall
  infer_instance

instance {value : Literal} : Plain (newLiteral value) :=
  inferInstanceAs (Plain (newNode _))

instance {thenStmt : NodeId} : Plain (newCond id thenStmt id?) := by
  unfold newCond
  infer_instance

instance {symbolKind : SymbolKind} : Plain (newSymbol name id? symbolKind) :=
  inferInstanceAs (Plain (newNode _))

instance : Plain (newVar name id?) :=
  inferInstanceAs (Plain (newSymbol _ _ _))

instance : Plain (newTemp name id?) := by
  unfold newTemp
  infer_instance

instance {intent : Intent} : Plain (newArg name intent id?) :=
  inferInstanceAs (Plain (newSymbol _ _ _))

instance {body : NodeId} : Plain (newFn name ids body id?) := by
  unfold newFn
  infer_instance

instance {typeKind : TypeKind} : Plain (newNamedType name typeKind) := by
  unfold newNamedType
  infer_instance

instance {tag : AggregateTag} : Plain (newAggregateType name tag) := by
  unfold newAggregateType
  infer_instance

/-! ## Insertion -/

instance {position : Nat} : Plain (insertElement list position new) :=
  .andThen fun (holds, elements) => by dsimp only; infer_instance

instance {depth position : Nat} : Plain (spliceWithin depth list position new) := by
  induction depth generalizing position new with
  | zero => exact inferInstanceAs (Plain (throw (.endless new) : Edit NodeId))
  | succ depth ih =>
    unfold spliceWithin
    infer_instance

instance {position : Nat} : Plain (splice list position new) :=
  .read (fun _ => by dsimp only; infer_instance) fun _ _ _ => rfl

instance {side : Side} : Plain (insertBeside side anchor new) :=
  .andThen fun place => by cases side <;> infer_instance

instance : Plain (insertBefore anchor new) :=
  inferInstanceAs (Plain (insertBeside _ _ _))

instance : Plain (insertAfter anchor new) :=
  inferInstanceAs (Plain (insertBeside _ _ _))

instance {listEnd : ListEnd} : Plain (insertAtEnd listEnd list new) :=
  .andThen fun kind => by cases listEnd <;> split <;> infer_instance

instance : Plain (insertAtHead list new) :=
  inferInstanceAs (Plain (insertAtEnd _ _ _))

instance : Plain (insertAtTail list new) :=
  inferInstanceAs (Plain (insertAtEnd _ _ _))

instance {formal : NodeId} : Plain (insertFormalAtTail fn formal) := by
  unfold insertFormalAtTail
  infer_instance

instance : Plain (addField id name id?) := by
  unfold addField
  infer_instance

/-! ## Duplication -/

variable {table : Remap} {bundle wrap var call : NodeId} {place : Nat} {parts : Program.LoopParts}

instance {source : Node} : Plain (carryOver source id) :=
  .read (fun _ => by dsimp only; infer_instance) fun _ _ _ => rfl

instance : Plain (duplicateNode id table) := by
  unfold duplicateNode
  infer_instance

instance {depth : Nat} : Plain (duplicateWithin depth table id) := by
  induction depth generalizing table id with
  | zero => exact inferInstanceAs (Plain (throw (.endless id) : Edit Remap))
  | succ depth ih =>
    unfold duplicateWithin
    infer_instance

instance : Plain (redirectLinks table id) := by
  unfold redirectLinks
  infer_instance

instance {inner : Bool} : Plain (duplicateWith id table ids inner) := by
  unfold duplicateWith
  split
  · infer_instance
  · exact .read (fun _ => by dsimp only; infer_instance) fun _ _ _ => rfl

instance : Plain (duplicate id) := by
  unfold duplicate
  infer_instance

/-! ## Bundles -/

instance : Plain (bundleSymbol bundle) :=
  .andThen fun naming? => by split <;> infer_instance

instance : Plain (bundleField bundle place) :=
  .andThen fun member? => by split <;> infer_instance

instance : Plain (addBundleField bundle var place) :=
  .andThen fun type? => by cases type? <;> dsimp only <;> infer_instance

instance {module : NodeId} : Plain (newBundleClass ids module fn) := by
  unfold newBundleClass
  infer_instance

instance : Plain (unpackVar wrap bundle var place) := by
  unfold unpackVar
  infer_instance

instance : Plain (insertAllAtHead list ids) := by
  cases ids <;> unfold insertAllAtHead <;> infer_instance

instance : Plain (unpackBundle fn ids wrap bundle) := by
  unfold unpackBundle
  infer_instance

instance : Plain (replaceUse table id) :=
  .andThen fun var? => by
    split
    · infer_instance
    · split <;> infer_instance

instance : Plain (replaceUses table id) := by
  unfold replaceUses
  infer_instance

instance : Plain (defineBefore anchor id) := by
  unfold defineBefore
  infer_instance

instance : Plain (passBundle call fn ids bundle) := by
  refine .andThen fun anchor? => ?_
  cases anchor? <;>
    exact .andThen fun anchor => .andThen fun naming => .andThen fun symbol => .withLocationOf <|
      .andThen fun instanceVar => .andThen fun _ => .andThen fun description => .andThen fun alloc =>
      .andThen fun move => .andThen fun _ => inferInstance

instance : Plain (singleCallSite fn) :=
  .andThen fun calls => by split <;> infer_instance

instance : Plain (passCaptures fn) := by
  unfold passCaptures
  infer_instance

/-! ## The pass -/

instance : Plain (newStart id? id) := by
  cases id? <;> unfold newStart <;> infer_instance

instance : Plain (newIteration parts) := by
  unfold newIteration
  infer_instance

instance : Plain (newGpuVariant name parts) := by
  unfold newGpuVariant
  infer_instance

instance {loop variant : NodeId} : Plain (dispatch loop variant) := by
  unfold dispatch
  infer_instance

instance : Plain (flatten fn) :=
  .andThen fun module => .andThen fun symbol => by split <;> infer_instance

instance : Plain (relocate fn) := by
  unfold relocate
  infer_instance

instance {loop : NodeId} {builder : GpuLoopBuilder} : Plain (GpuLoopBuilder.outline loop builder) :=
  .andThen fun parts? => by split <;> infer_instance

section Outlining

variable {outliner : LoopOutliner σ} {state : σ} [∀ loop state, Lenient (outliner loop state)]

theorem Lenient.run_andThen {edit : StateT σ Edit β} {next : β → StateT σ Edit α}
    (starts : Lenient (edit state)) (second : ∀ answer state, Lenient (next answer state)) :
    Lenient ((edit >>= next) state) :=
  have : Lenient (edit state) := starts
  Lenient.andThen fun answer : β × σ => second answer.1 answer.2

instance {edit : Edit α} [Lenient edit] : Lenient ((liftM edit : StateT σ Edit α) state) :=
  inferInstanceAs (Lenient (edit >>= fun answer => pure (answer, state)))

instance {answer : α} : Lenient ((pure answer : StateT σ Edit α) state) :=
  inferInstanceAs (Lenient (pure (answer, state)))

instance {loop : NodeId} : Lenient (outlineLoop outliner loop state) := by
  refine .run_andThen inferInstance fun variant? state => ?_
  cases variant? with
  | none => exact .run_andThen inferInstance fun report? state => inferInstance
  | some variant =>
    refine .run_andThen inferInstance fun report? state => ?_
    exact .run_andThen inferInstance fun _ state => inferInstance

instance {loops : List NodeId} : Lenient (outlineLoops outliner loops state) := by
  induction loops generalizing state with
  | nil => exact inferInstanceAs (Lenient (pure _))
  | cons loop rest ih =>
    refine .run_andThen inferInstance fun candidate state => ?_
    cases candidate with
    | false => exact ih
    | true =>
      refine .run_andThen inferInstance fun decision state => ?_
      exact .run_andThen ih fun decisions state => inferInstance

instance : Lenient (outlineWith outliner state) :=
  .andThen fun _ => .andThen fun _ => .andThen fun _ => inferInstance

end Outlining

instance : Lenient outline := by
  unfold outline
  infer_instance

end Edit

end ProgramTree
