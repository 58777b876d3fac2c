import ProgramTree.Proofs.Custody
import ProgramTree.Proofs.Inspection
import ProgramTree.Proofs.Pieces

/-!
# Symbols as operands

A builder turns a symbol in the place of an operand into a use of it, and leaves the symbol alone.
Only the builder of `when` statements takes its cases as they are: a symbol that is defined stops
it, and one that is not yet defined is taken over.
-/

namespace ProgramTree

open Program Edit

/-! ## Places of operands -/

namespace Builder

/-- The nodes that are given as operands. -/
def operands : Builder → List NodeId
  | definition _ init? declaredType? => init?.toList ++ declaredType?.toList
  | call callee args => callee :: args
  | primitiveCall _ args => args
  | cast _ expr => [expr]
  | named _ actual => [actual]
  | ret value? => value?.toList
  | forLoop indices iterators _ _ => indices ++ iterators
  | cond condition _ _ => [condition]
  | whenCase cases _ => cases
  | select subject _ => [subject]
  | _ => []

/-- The other nodes that become children. -/
def others : Builder → List NodeId
  | definition sym _ _ => [sym]
  | forLoop _ _ body _ => [body]
  | cond _ thenStmt elseStmt? => thenStmt :: elseStmt?.toList
  | whenCase _ body => [body]
  | select _ whens => whens
  | _ => []

/-- The builder makes something of operands other than a `when` statement, and defines nothing but
symbols. -/
def Converts (program : Program) : Builder → Prop
  | definition sym _ _ => (program.kindAt sym).any Kind.isSymbol
  | call .. | primitiveCall .. | cast .. | named .. | ret .. | forLoop .. | cond ..
  | select .. => True
  | _ => False

end Builder

namespace Program

/-- The nodes in the operand positions of a node. -/
def operandsOf (program : Program) (id : NodeId) : List NodeId :=
  match program.kindAt id with
  | some (.expr (.definition _ init? declaredType?)) => init?.toList ++ declaredType?.toList
  | some (.expr (.call (.expr callee) args)) => callee :: program.held args
  | some (.expr (.call (.primitive _) args)) => program.held args
  | some (.expr (.cast _ _ expr)) => [expr]
  | some (.expr (.named _ actual)) => [actual]
  | some (.stmt (.ret value?)) => value?.toList
  | some (.stmt (.forLoop indices iterators _ _)) =>
    program.held indices ++ program.held iterators
  | some (.stmt (.cond condition _ _)) => [condition]
  | some (.stmt (.whenCase cases _)) => program.held cases
  | some (.stmt (.select subject _)) => [subject]
  | _ => []

/-- A symbol turns into a new use of it, and anything else stays what it is. -/
def TurnsInto (before after : Program) (given held : NodeId) : Prop :=
  if (before.kindAt given).any Kind.isSymbol then IsUse before after held given else held = given

/-- Symbols stay symbols, other nodes keep their kinds, and what is not taken over does not change
at all. -/
structure Leaves (taken : NodeId → Prop) (before after : Program) : Prop where
  kinds : ∀ {id kind}, before.kindAt id = some kind →
    after.kindAt id = some kind ∨ (kind.isSymbol ∧ (after.kindAt id).any Kind.isSymbol)
  others : ∀ {id}, (before.get? id).isSome → ¬ taken id → after.get? id = before.get? id

variable {origin before between after : Program} {taken : NodeId → Prop}
  {id given held answer : NodeId} {ids args : List NodeId} {kind : Kind}

namespace Leaves

theorem refl (program : Program) : Leaves taken program program :=
  ⟨fun known => .inl known, fun _ _ => rfl⟩

theorem of_kinds (kinds : ∀ id, (before.get? id).isSome → after.kindAt id = before.kindAt id)
    (others : ∀ {id}, (before.get? id).isSome → ¬ taken id → after.get? id = before.get? id) :
    Leaves taken before after :=
  ⟨fun known => .inl ((kinds _ (get?_isSome_of_kindAt known)).trans known), others⟩

theorem of_pushed (pushed : Pushed before kind after) : Leaves taken before after := by
  have old : ∀ {id}, (before.get? id).isSome → id ≠ before.nextId := by
    rintro id issued rfl
    simp [get?_nextId] at issued
  exact .of_kinds (fun _ issued => pushed.kinds (old issued))
    fun issued _ => pushed.others (old issued)

theorem of_adopted {parent : NodeId} {children : List NodeId}
    (adopted : Adopted before parent children after) (allTaken : ∀ child ∈ children, taken child) :
    Leaves taken before after := by
  refine .of_kinds (fun id _ => adopted.kindAt id) fun {id} _ notTaken => ?_
  have notAdopted : id ∉ children := mt (allTaken id) notTaken
  rw [adopted.nodes]
  simp [notAdopted]

section Kept

variable (leaves : Leaves taken before after)
include leaves

theorem kept (known : before.kindAt id = some kind) (notSymbol : kind.isSymbol = false) :
    after.kindAt id = some kind :=
  (leaves.kinds known).resolve_right (by simp [notSymbol])

theorem issued (issued : (before.get? id).isSome) : (after.get? id).isSome := by
  obtain ⟨node, found⟩ := Option.isSome_iff_exists.mp issued
  rcases leaves.kinds (kindAt_eq found) with known | ⟨_, symbol⟩
  · exact get?_isSome_of_kindAt known
  · exact get?_isSome_of_any symbol

/-- What is not there yet was not there before. -/
theorem past (unissued : after.New id) : before.New id := by
  by_contra issued
  have still := leaves.issued (Option.isSome_iff_ne_none.mpr issued)
  simp [unissued] at still

theorem isSymbol (known : before.kindAt id = some kind) :
    (after.kindAt id).map Kind.isSymbol = some kind.isSymbol := by
  rcases leaves.kinds known with known | ⟨symbol, symbolAfter⟩
  · rw [known, Option.map_some]
  · obtain ⟨later, knownAfter, symbolAfter⟩ := (Option.any_eq_true _ _).mp symbolAfter
    rw [knownAfter, Option.map_some, symbolAfter, symbol]

end Kept

theorem trans (first : Leaves taken before between) (second : Leaves taken between after) :
    Leaves taken before after where
  kinds {id kind} known := by
    rcases first.kinds known with known | ⟨symbol, symbolBetween⟩
    · exact second.kinds known
    · obtain ⟨later, knownBetween, symbolBetween⟩ := (Option.any_eq_true _ _).mp symbolBetween
      rcases second.kinds knownBetween with knownAfter | ⟨_, symbolAfter⟩
      · exact .inr ⟨symbol, by rw [knownAfter, Option.any_some, symbolBetween]⟩
      · exact .inr ⟨symbol, symbolAfter⟩
  others issued notTaken :=
    (second.others (first.issued issued) notTaken).trans (first.others issued notTaken)

end Leaves

/-- A new node of this kind was made. -/
structure MadeOf (taken : NodeId → Prop) (before : Program) (answer : NodeId) (kind : Kind)
    (after : Program) : Prop where
  leaves : Leaves taken before after
  unissued : before.New answer
  known : after.kindAt answer = some kind

/-! ## Single steps -/

section Steps

theorem madeOf_newNode (run : Yields (newNode kind) before answer after) :
    MadeOf taken before answer kind after := by
  obtain ⟨rfl, rfl⟩ := yields_newNode.mp run
  exact ⟨.of_pushed pushed_push, get?_nextId before, pushed_push.kindAt⟩

theorem madeOf_newHolder (run : Yields (newHolder kind ids) before answer after)
    (allTaken : ∀ id ∈ ids, taken id) : MadeOf taken before answer kind after := by
  simp only [newHolder, yields_bind, yields_pure] at run
  obtain ⟨_, pushed, creating, _, _, adopting, rfl, rfl⟩ := run
  have made : MadeOf taken before answer kind pushed := madeOf_newNode creating
  have adopted := Edit.adopted adopting
  exact ⟨made.leaves.trans (.of_adopted adopted allTaken), made.unissued,
    (adopted.kindAt _).trans made.known⟩

theorem leaves_changeSymbol {sym : NodeId} {f : Symbol → Symbol} {done : Unit}
    (isTaken : taken sym) (run : Yields (changeSymbol sym f) before done after) :
    Leaves taken before after ∧ ∀ id, id ≠ sym → after.kindAt id = before.kindAt id := by
  simp only [changeSymbol, setKind, yields_bind, yields_look, symbol_eq_ok, yields_change] at run
  obtain ⟨symbol, unchanged, ⟨isSymbol, rfl⟩, _, rfl⟩ := run
  refine ⟨⟨fun {id kind} known => ?_, fun {id} _ notTaken => ?_⟩, fun id different => ?_⟩
  · rw [kindAt_setKind isSymbol]
    split
    · rename_i same
      rw [same, isSymbol] at known
      exact .inr ⟨Option.some.inj known ▸ rfl, rfl⟩
    · exact .inl known
  · exact get?_modifyNode_of_ne (by rintro rfl; exact notTaken isTaken)
  · rw [kindAt_setKind isSymbol, if_neg different]

theorem leaves_asStmt (new : ∀ {id}, before.New id → taken id) (isTaken : taken id)
    (run : Yields (asStmt id) before answer after) : Leaves taken before after ∧ taken answer := by
  simp only [asStmt, newExprStmt, yields_bind, yields_look, yields_ite, yields_pure] at run
  obtain ⟨_, _, ⟨_, rfl⟩, ⟨_, _, pushed, created, _, _, adopting, rfl, rfl⟩ | ⟨_, rfl, rfl⟩⟩ := run
  · obtain ⟨rfl, isPushed⟩ := pushed_withLocationOf created
    refine ⟨(Leaves.of_pushed isPushed).trans (.of_adopted (Edit.adopted adopting) ?_),
      new (get?_nextId _)⟩
    simpa using isTaken
  · exact ⟨.refl _, isTaken⟩

theorem leaves_asStmt? {id? answer? : Option NodeId} (new : ∀ {id}, before.New id → taken id)
    (allTaken : ∀ id ∈ id?.toList, taken id) (run : Yields (asStmt? id?) before answer? after) :
    Leaves taken before after ∧ ∀ answer ∈ answer?.toList, taken answer := by
  cases id? with
  | none =>
    obtain ⟨rfl, rfl⟩ := yields_pure.mp run
    exact ⟨.refl _, nofun⟩
  | some id =>
    simp only [asStmt?, yields_bind, yields_pure] at run
    obtain ⟨answer, _, run, rfl, rfl⟩ := run
    obtain ⟨leaves, takenAnswer⟩ := leaves_asStmt new (allTaken id (by simp)) run
    exact ⟨leaves, by simpa using takenAnswer⟩

theorem leaves_asStmts (new : ∀ {id}, before.New id → taken id) (allTaken : ∀ id ∈ ids, taken id)
    (run : Yields (ids.mapM asStmt) before args after) :
    Leaves taken before after ∧ ∀ arg ∈ args, taken arg := by
  induction ids generalizing before args with
  | nil =>
    obtain ⟨rfl, rfl⟩ := yields_pure.mp run
    exact ⟨.refl _, nofun⟩
  | cons first rest ih =>
    obtain ⟨takenFirst, takenRest⟩ := List.forall_mem_cons.mp allTaken
    simp only [List.mapM_cons, yields_bind, yields_pure] at run
    obtain ⟨stmt, between, runFirst, others, _, runRest, rfl, rfl⟩ := run
    obtain ⟨leaves, takenStmt⟩ := leaves_asStmt new takenFirst runFirst
    have newBetween : ∀ {id}, between.New id → taken id :=
      fun unissued => new (leaves.past unissued)
    obtain ⟨further, takenOthers⟩ := ih newBetween takenRest runRest
    exact ⟨leaves.trans further, List.forall_mem_cons.mpr ⟨takenStmt, takenOthers⟩⟩

theorem leaves_newList (new : ∀ {id}, before.New id → taken id) (allTaken : ∀ id ∈ ids, taken id)
    (run : Yields (newList .stmts ids) before answer after) :
    Leaves taken before after ∧ taken answer := by
  obtain ⟨stmts, between, wrapping, listing⟩ := yields_bind.mp run
  obtain ⟨leaves, takenStmts⟩ := leaves_asStmts new allTaken wrapping
  have made := madeOf_newHolder listing takenStmts
  exact ⟨leaves.trans made.leaves, new (leaves.past made.unissued)⟩

theorem leaves_asBlock (new : ∀ {id}, before.New id → taken id) (isTaken : taken id)
    (run : Yields (asBlock id) before answer after) : Leaves taken before after ∧ taken answer := by
  simp only [asBlock, yields_bind, yields_look] at run
  obtain ⟨kind, _, ⟨_, rfl⟩, run⟩ := run
  split at run
  · obtain ⟨rfl, rfl⟩ := yields_pure.mp run
    exact ⟨.refl _, isTaken⟩
  · obtain ⟨list, between, listing, holding⟩ := yields_bind.mp run
    obtain ⟨leaves, takenList⟩ := leaves_newList new (by simpa using isTaken) listing
    have made := madeOf_newHolder holding (by simpa using takenList)
    exact ⟨leaves.trans made.leaves, new (leaves.past made.unissued)⟩

/-- A list of expressions holds what it is given. -/
theorem madeOf_newList (run : Yields (newList .exprs ids) before answer after)
    (allTaken : ∀ id ∈ ids, taken id) :
    MadeOf taken before answer (.list .exprs ids.toArray) after := by
  obtain ⟨elements, between, same, listing⟩ := yields_bind.mp run
  rw [show asElement .exprs = pure from rfl, List.mapM_pure, yields_pure] at same
  obtain ⟨rfl, rfl⟩ := same
  rw [List.map_id'] at listing
  exact madeOf_newHolder listing (by simpa using allTaken)

end Steps

/-! ## Operands, one after the other -/

theorem TurnsInto.keep (turns : TurnsInto origin before given held)
    (leaves : Leaves taken before after) : TurnsInto origin after given held := by
  rw [TurnsInto] at turns ⊢
  split
  · rename_i symbol
    rw [if_pos symbol] at turns
    exact ⟨turns.new, leaves.kept turns.known rfl⟩
  · rename_i notSymbol
    rwa [if_neg notSymbol] at turns

/-- No symbol is held as an operand. -/
theorem TurnsInto.not_symbol (turns : TurnsInto origin before given held) :
    ¬ (origin.kindAt held).any Kind.isSymbol := by
  rw [TurnsInto] at turns
  split at turns
  · rw [get?_eq_none_iff_kindAt.mp turns.new]
    exact Bool.false_ne_true
  · rename_i notSymbol
    rwa [turns]

/-- The given nodes were turned into these, and of the rest only what may be was taken over. -/
structure Turned (origin : Program) (taken : NodeId → Prop) (given held : List NodeId)
    (program : Program) : Prop where
  leaves : Leaves taken origin program
  turn : List.Forall₂ (TurnsInto origin program) given held

namespace Turned

variable {givens helds more : List NodeId}

theorem start (origin : Program) (taken : NodeId → Prop) : Turned origin taken [] [] origin :=
  ⟨.refl origin, .nil⟩

variable (turned : Turned origin taken givens helds before)
include turned

theorem step (leaves : Leaves taken before after) : Turned origin taken givens helds after :=
  ⟨turned.leaves.trans leaves, turned.turn.imp fun _ _ turns => turns.keep leaves⟩

theorem not_symbol : ∀ held ∈ helds, ¬ (origin.kindAt held).any Kind.isSymbol := by
  have turn := turned.turn
  clear turned
  induction turn with
  | nil => nofun
  | cons first _ ih => exact List.forall_mem_cons.mpr ⟨first.not_symbol, ih⟩

theorem asOperand (issued : (origin.get? given).isSome)
    (run : Yields (asOperand given) before held after) :
    Turned origin taken (givens ++ [given]) (helds ++ [held]) after := by
  obtain ⟨node, found⟩ := Option.isSome_iff_exists.mp issued
  have isKind := kindAt_eq found
  simp only [Edit.asOperand, yields_bind, yields_look, isSymbol_eq_ok, yields_ite] at run
  obtain ⟨isSymbol, _, ⟨known, rfl⟩, run⟩ := run
  obtain rfl := Option.some.inj ((turned.leaves.isSymbol isKind).symm.trans known)
  rcases run with ⟨symbol, run⟩ | ⟨notSymbol, run⟩
  · have made : MadeOf taken _ held _ after := madeOf_newNode run
    have further := turned.step made.leaves
    refine ⟨further.leaves, List.rel_append further.turn (.cons ?_ .nil)⟩
    rw [TurnsInto, if_pos (by rw [isKind, Option.any_some, symbol])]
    exact ⟨turned.leaves.past made.unissued, made.known⟩
  · obtain ⟨rfl, rfl⟩ := yields_pure.mp run
    refine ⟨turned.leaves, List.rel_append turned.turn (.cons ?_ .nil)⟩
    rw [TurnsInto, if_neg (by rwa [isKind, Option.any_some])]

theorem asOperands (issued : ∀ id ∈ ids, (origin.get? id).isSome)
    (run : Yields (ids.mapM Edit.asOperand) before more after) :
    Turned origin taken (givens ++ ids) (helds ++ more) after := by
  induction ids generalizing before givens helds more with
  | nil =>
    obtain ⟨rfl, rfl⟩ := yields_pure.mp run
    simpa using turned
  | cons first rest ih =>
    obtain ⟨issuedFirst, issuedRest⟩ := List.forall_mem_cons.mp issued
    simp only [List.mapM_cons, yields_bind, yields_pure] at run
    obtain ⟨held, between, runFirst, others, _, runRest, rfl, rfl⟩ := run
    have further := ih (turned.asOperand issuedFirst runFirst) issuedRest runRest
    rwa [List.append_assoc, List.append_assoc] at further

theorem asOperand? {given? held? : Option NodeId}
    (issued : ∀ id ∈ given?.toList, (origin.get? id).isSome)
    (run : Yields (asOperand? given?) before held? after) :
    Turned origin taken (givens ++ given?.toList) (helds ++ held?.toList) after := by
  cases given? with
  | none =>
    obtain ⟨rfl, rfl⟩ := yields_pure.mp run
    simpa using turned
  | some given =>
    simp only [Edit.asOperand?, yields_bind, yields_pure] at run
    obtain ⟨held, _, run, rfl, rfl⟩ := run
    exact turned.asOperand (issued given (by simp)) run

/-- The operands of a new holder are what the given nodes turned into. -/
theorem newHolder (allTaken : ∀ id ∈ ids, taken id)
    (run : Yields (Edit.newHolder kind ids) before answer after)
    (operands : ∀ program : Program, Leaves taken before program →
      program.kindAt answer = some kind → program.operandsOf answer = helds) :
    Turned origin taken givens (after.operandsOf answer) after := by
  have made := madeOf_newHolder run allTaken
  rw [operands after made.leaves made.known]
  exact turned.step made.leaves

end Turned

/-! ## Builder by builder -/

section Builders

variable {givens helds : List NodeId} {list : NodeId}
  (free : ∀ {id}, ¬ (before.kindAt id).any Kind.isSymbol → taken id)
include free

/-- What is made along the way may be taken over. -/
theorem Turned.free_new (turned : Turned before taken givens helds between)
    (unissued : between.New id) : taken id := by
  refine free ?_
  rw [get?_eq_none_iff_kindAt.mp (turned.leaves.past unissued)]
  exact Bool.false_ne_true

/-- A list of operands holds what they turned into. -/
theorem Turned.newList (turned : Turned before taken givens helds between)
    (members : ids ⊆ helds) (run : Yields (Edit.newList .exprs ids) between list after) :
    Leaves taken between after ∧ taken list ∧
      after.kindAt list = some (.list .exprs ids.toArray) := by
  have made := madeOf_newList run fun id member => free (turned.not_symbol id (members member))
  exact ⟨made.leaves, turned.free_new free made.unissued, made.known⟩

theorem turned_newCall {callee : NodeId} (issued : ∀ id ∈ callee :: args, (before.get? id).isSome)
    (run : Yields (newCall callee args) before answer after) :
    Turned before taken (callee :: args) (after.operandsOf answer) after := by
  obtain ⟨issuedCallee, issuedArgs⟩ := List.forall_mem_cons.mp issued
  simp only [newCall, newOperands, yields_bind] at run
  obtain ⟨use, _, calling, list, _, ⟨helds, _, passing, listing⟩, holding⟩ := run
  have turned := ((Turned.start before taken).asOperand issuedCallee calling).asOperands issuedArgs
    passing
  obtain ⟨leaves, takenList, isList⟩ := turned.newList free (by simp) listing
  have takenUse := free (turned.not_symbol use (by simp))
  refine (turned.step leaves).newHolder ?_ holding fun program leaves known => ?_
  · exact List.forall_mem_cons.mpr ⟨takenUse, by simpa using takenList⟩
  · rw [operandsOf, known]
    simp [held_eq_of_kindAt (leaves.kept isList rfl), Kind.owned]

theorem turned_newPrimitiveCall {operation : Primitive}
    (issued : ∀ id ∈ args, (before.get? id).isSome)
    (run : Yields (newPrimitiveCall operation args) before answer after) :
    Turned before taken args (after.operandsOf answer) after := by
  simp only [newPrimitiveCall, newOperands, yields_bind] at run
  obtain ⟨list, _, ⟨helds, _, passing, listing⟩, holding⟩ := run
  have turned := (Turned.start before taken).asOperands issued passing
  obtain ⟨leaves, takenList, isList⟩ := turned.newList free (by simp) listing
  refine (turned.step leaves).newHolder (by simpa using takenList) holding
    fun program leaves known => ?_
  rw [operandsOf, known]
  simp [held_eq_of_kindAt (leaves.kept isList rfl), Kind.owned]

/-- One operand is all that is held. -/
theorem turned_of_single {make : NodeId → Kind} (issued : (before.get? given).isSome)
    (operands : ∀ held (program : Program), program.kindAt answer = some (make held) →
      program.operandsOf answer = [held])
    (run : Yields (asOperand given >>= fun held => newHolder (make held) [held]) before answer
      after) :
    Turned before taken [given] (after.operandsOf answer) after := by
  obtain ⟨held, _, turning, holding⟩ := yields_bind.mp run
  have turned := (Turned.start before taken).asOperand issued turning
  have takenHeld := free (turned.not_symbol held (by simp))
  exact turned.newHolder (by simpa using takenHeld) holding fun program _ => operands held program

theorem turned_newReturn {value? : Option NodeId}
    (issued : ∀ id ∈ value?.toList, (before.get? id).isSome)
    (run : Yields (newReturn value?) before answer after) :
    Turned before taken value?.toList (after.operandsOf answer) after := by
  obtain ⟨held?, _, turning, holding⟩ := yields_bind.mp run
  have turned := (Turned.start before taken).asOperand? issued turning
  have takenHeld := fun held member => free (turned.not_symbol held member)
  refine turned.newHolder takenHeld holding fun program _ known => ?_
  rw [operandsOf, known]
  rfl

theorem turned_newForLoop {indices iterators : List NodeId} {body : NodeId} {independent : Bool}
    (issued : ∀ id ∈ indices ++ iterators, (before.get? id).isSome) (takenBody : taken body)
    (run : Yields (newForLoop indices iterators body independent) before answer after) :
    Turned before taken (indices ++ iterators) (after.operandsOf answer) after := by
  obtain ⟨issuedIndices, issuedIterators⟩ := List.forall_mem_append.mp issued
  simp only [newForLoop, yields_bind] at run
  obtain ⟨heldIndices, _, running, heldIterators, _, bounding, indexList, _, listing, boundList, _,
    listingBounds, block, _, blocking, holding⟩ := run
  have turned := ((Turned.start before taken).asOperands issuedIndices running).asOperands
    issuedIterators bounding
  obtain ⟨leaves, takenIndices, isIndices⟩ := turned.newList free (by simp) listing
  have listed := turned.step leaves
  obtain ⟨leavesBounds, takenBounds, isBounds⟩ := listed.newList free (by simp) listingBounds
  have bounded := listed.step leavesBounds
  obtain ⟨leavesBlock, takenBlock⟩ := leaves_asBlock (bounded.free_new free) takenBody blocking
  refine (bounded.step leavesBlock).newHolder ?_ holding fun program leaves known => ?_
  · simpa using ⟨takenIndices, takenBounds, takenBlock⟩
  · have sinceListed := (leavesBounds.trans leavesBlock).trans leaves
    have sinceBounded := leavesBlock.trans leaves
    rw [operandsOf, known]
    simp [held_eq_of_kindAt (sinceListed.kept isIndices rfl),
      held_eq_of_kindAt (sinceBounded.kept isBounds rfl), Kind.owned]

theorem turned_newDefinition {sym : NodeId} {init? declaredType? : Option NodeId}
    (issued : ∀ id ∈ init?.toList ++ declaredType?.toList, (before.get? id).isSome)
    (takenSym : taken sym)
    (run : Yields (newDefinition sym init? declaredType?) before answer after) :
    Turned before taken (init?.toList ++ declaredType?.toList) (after.operandsOf answer) after := by
  obtain ⟨issuedInit, issuedType⟩ := List.forall_mem_append.mp issued
  simp only [newDefinition, yields_bind, yields_look, isSymbol_eq_ok, yields_ite, yields_fail,
    yields_pure] at run
  obtain ⟨_, checked, ⟨isChecked, same⟩, ⟨_, _, _, never, _⟩ | ⟨_, run⟩⟩ := run
  · exact never.elim
  subst checked
  obtain ⟨heldInit?, _, turningInit, heldType?, ready, turningType, _, pushed, created, _, held,
    adopting, _, _, naming, rfl, rfl⟩ := run
  have turned := ((Turned.start before taken).asOperand? issuedInit turningInit).asOperand?
    issuedType turningType
  obtain ⟨rfl, isPushed⟩ := pushed_withLocationOf created
  have adopted := Edit.adopted adopting
  have takenChildren : ∀ child ∈ sym :: heldInit?.toList ++ heldType?.toList, taken child :=
    List.forall_mem_cons.mpr ⟨takenSym, fun child member =>
      free (turned.not_symbol child (by simpa using member))⟩
  obtain ⟨leavesNaming, others⟩ := leaves_changeSymbol takenSym naming
  have leaves := ((Leaves.of_pushed isPushed).trans (.of_adopted adopted takenChildren)).trans
    leavesNaming
  have different : ready.nextId ≠ sym := by
    rintro rfl
    rw [get?_eq_none_iff_kindAt.mp (turned.leaves.past (get?_nextId ready))] at isChecked
    cases isChecked
  have known : after.kindAt ready.nextId = some (.expr (.definition sym heldInit? heldType?)) := by
    rw [others _ different, adopted.kindAt, isPushed.kindAt]
  have step := turned.step leaves
  rw [operandsOf, known]
  simpa using step

theorem turned_newCond {condition thenStmt : NodeId} {elseStmt? : Option NodeId}
    (issued : (before.get? condition).isSome) (takenThen : taken thenStmt)
    (takenElse : ∀ elseStmt ∈ elseStmt?.toList, taken elseStmt)
    (run : Yields (newCond condition thenStmt elseStmt?) before answer after) :
    Turned before taken [condition] (after.operandsOf answer) after := by
  simp only [newCond, yields_bind] at run
  obtain ⟨held, _, turning, heldThen, _, branching, heldElse?, _, branchingElse, holding⟩ := run
  have turned := (Turned.start before taken).asOperand issued turning
  obtain ⟨leavesThen, takenHeldThen⟩ := leaves_asStmt (turned.free_new free) takenThen branching
  have branched := turned.step leavesThen
  obtain ⟨leavesElse, takenHeldElse⟩ :=
    leaves_asStmt? (branched.free_new free) takenElse branchingElse
  have takenHeld := free (turned.not_symbol held (by simp))
  refine (branched.step leavesElse).newHolder ?_ holding fun program _ known => ?_
  · exact List.forall_mem_cons.mpr ⟨takenHeld, List.forall_mem_cons.mpr
      ⟨takenHeldThen, takenHeldElse⟩⟩
  · rw [operandsOf, known]
    rfl

theorem turned_newSelect {subject : NodeId} {whens : List NodeId}
    (issued : (before.get? subject).isSome) (takenWhens : ∀ stmt ∈ whens, taken stmt)
    (run : Yields (newSelect subject whens) before answer after) :
    Turned before taken [subject] (after.operandsOf answer) after := by
  simp only [newSelect, yields_bind] at run
  obtain ⟨held, _, turning, list, _, listing, holding⟩ := run
  have turned := (Turned.start before taken).asOperand issued turning
  obtain ⟨leaves, takenList⟩ := leaves_newList (turned.free_new free) takenWhens listing
  have takenHeld := free (turned.not_symbol held (by simp))
  refine (turned.step leaves).newHolder ?_ holding fun program _ known => ?_
  · simpa using ⟨takenHeld, takenList⟩
  · rw [operandsOf, known]
    rfl

end Builders

/-! ## Builders that find what they need -/

section Endings

variable {left : List NodeId}

theorem ends_newDefinition {sym : NodeId} {init? declaredType? : Option NodeId}
    (isSymbol : (before.kindAt sym).any Kind.isSymbol)
    (issued : ∀ id ∈ init?.toList ++ declaredType?.toList, (before.get? id).isSome)
    (loose : Loose ((init?.toList ++ declaredType?.toList).flatMap before.spent ++ sym :: left)
      before) :
    Ends (newDefinition sym init? declaredType?) before fun answer after =>
      Loose (answer :: left) after := by
  obtain ⟨issuedInit, issuedType⟩ := List.forall_mem_append.mp issued
  obtain ⟨symbol, known⟩ := exists_symbol isSymbol
  rw [List.flatMap_append, List.append_assoc] at loose
  refine .look_bind true (isSymbol_eq_ok.mpr (by rw [known]; rfl)) ?_
  simp only [Bool.not_true, Bool.false_eq_true, if_false]
  refine (Loose.supply.ends_asOperand? (.refl before) issuedInit loose).bind
    fun heldInit? between _ made => ?_
  obtain ⟨looseInit, since⟩ := made
  refine (Loose.supply.ends_asOperand? since issuedType
    (Loose.supply.perm looseInit (List.perm_append_comm_assoc _ _ _))).bind
    fun heldType? ready _ made => ?_
  obtain ⟨looseBoth, since⟩ := made
  refine (Loose.supply.ends_newNodeAt (since.issued (get?_isSome_of_kindAt known)) looseBoth).bind
    fun definition pushed _ made => ?_
  obtain ⟨rfl, isPushed, madeDefinition⟩ := made
  have toHold : Loose ((sym :: heldInit?.toList ++ heldType?.toList) ++ ready.nextId :: left)
      pushed :=
    Loose.supply.perm madeDefinition (by grind)
  refine (Loose.supply.ends_adopt toHold).bind fun _ held adopting rest => ?_
  have different : sym ≠ ready.nextId := by
    rintro rfl
    have issuedSym := since.issued (get?_isSome_of_kindAt known)
    simp [get?_nextId] at issuedSym
  have isSymbolHeld : (held.kindAt sym).any Kind.isSymbol := by
    rw [(Edit.adopted adopting).kindAt, isPushed.kinds different]
    exact since.isSymbol isSymbol
  obtain ⟨heldSymbol, knownHeld⟩ := exists_symbol isSymbolHeld
  have naming : Ends (changeSymbol sym fun symbol => { symbol with defPoint? := some ready.nextId })
      held fun _ after => Loose (ready.nextId :: left) after :=
    .look_bind heldSymbol (symbol_eq_ok.mpr knownHeld)
      ⟨(), _, yields_change.mpr ⟨get?_isSome_of_kindAt knownHeld, rfl⟩, rest.modify⟩
  exact naming.bind fun _ _ _ named => .pure named

theorem ends_newCall {callee : NodeId} (issued : ∀ id ∈ callee :: args, (before.get? id).isSome)
    (loose : Loose ((callee :: args).flatMap before.spent ++ left) before) :
    Ends (newCall callee args) before fun answer after => Loose (answer :: left) after := by
  obtain ⟨issuedCallee, issuedArgs⟩ := List.forall_mem_cons.mp issued
  rw [List.flatMap_cons, List.append_assoc] at loose
  refine (Loose.supply.ends_asOperand (.refl before) issuedCallee loose).bind
    fun held between _ made => ?_
  obtain ⟨looseCallee, since⟩ := made
  refine (Loose.supply.ends_newOperands since issuedArgs
    (Loose.supply.perm looseCallee List.perm_middle.symm)).bind fun list listed _ looseArgs => ?_
  have ready : Loose ([held, list] ++ left) listed := Loose.supply.perm looseArgs (.swap _ _ _)
  exact Loose.supply.ends_newHolder ready

theorem ends_of_single {make : NodeId → Kind} (issued : (before.get? given).isSome)
    (loose : Loose (before.spent given ++ left) before) :
    Ends (asOperand given >>= fun held => newHolder (make held) [held]) before
      fun answer after => Loose (answer :: left) after :=
  (Loose.supply.ends_asOperand (.refl before) issued loose).bind fun held between _ made => by
    have ready : Loose ([held] ++ left) between := made.1
    exact Loose.supply.ends_newHolder ready

theorem ends_newReturn {value? : Option NodeId}
    (issued : ∀ id ∈ value?.toList, (before.get? id).isSome)
    (loose : Loose (value?.toList.flatMap before.spent ++ left) before) :
    Ends (newReturn value?) before fun answer after => Loose (answer :: left) after :=
  (Loose.supply.ends_asOperand? (.refl before) issued loose).bind fun _ _ _ made =>
    Loose.supply.ends_newHolder made.1

theorem ends_newForLoop {indices iterators : List NodeId} {body : NodeId} {independent : Bool}
    (issued : ∀ id ∈ indices ++ iterators, (before.get? id).isSome)
    (loose : Loose ((indices ++ iterators).flatMap before.spent ++ body :: left) before) :
    Ends (newForLoop indices iterators body independent) before
      fun answer after => Loose (answer :: left) after := by
  obtain ⟨issuedIndices, issuedIterators⟩ := List.forall_mem_append.mp issued
  rw [List.flatMap_append, List.append_assoc] at loose
  refine (Loose.supply.ends_asOperands (.refl before) issuedIndices loose).bind
    fun heldIndices running _ made => ?_
  obtain ⟨looseIndices, since⟩ := made
  refine (Loose.supply.ends_asOperands since issuedIterators
    (Loose.supply.perm looseIndices (List.perm_append_comm_assoc _ _ _))).bind
    fun heldIterators bounded _ made => ?_
  refine (Loose.supply.ends_newList .exprs
    (Loose.supply.perm made.1 (List.perm_append_comm_assoc _ _ _))).bind
    fun indexList listed _ made => ?_
  refine (Loose.supply.ends_newList .exprs
    (Loose.supply.perm made List.perm_middle.symm)).bind fun boundList listed _ made => ?_
  have toBlock : Loose (body :: boundList :: indexList :: left) listed :=
    Loose.supply.perm made (by grind)
  refine (Loose.supply.ends_asBlock toBlock).bind fun block blocked _ made => ?_
  have toHold : Loose ([indexList, boundList, block] ++ left) blocked :=
    Loose.supply.perm made (by grind)
  exact Loose.supply.ends_newHolder toHold

theorem ends_newCond {condition thenStmt : NodeId} {elseStmt? : Option NodeId}
    (issued : (before.get? condition).isSome)
    (loose : Loose (before.spent condition ++ thenStmt :: (elseStmt?.toList ++ left)) before) :
    Ends (newCond condition thenStmt elseStmt?) before
      fun answer after => Loose (answer :: left) after := by
  refine (Loose.supply.ends_asOperand (.refl before) issued loose).bind
    fun held between _ made => ?_
  refine (Loose.supply.ends_asElement .stmts (Loose.supply.perm made.1 (.swap _ _ _))).bind
    fun heldThen branched _ made => ?_
  have toBranch : Loose (elseStmt?.toList ++ held :: heldThen :: left) branched :=
    Loose.supply.perm made (by grind)
  refine (Loose.supply.ends_asStmt? toBranch).bind fun heldElse? branched _ made => ?_
  have toHold : Loose (([held, heldThen] ++ heldElse?.toList) ++ left) branched :=
    Loose.supply.perm made (by grind)
  exact Loose.supply.ends_newHolder toHold

theorem ends_newSelect {subject : NodeId} {whens : List NodeId}
    (issued : (before.get? subject).isSome)
    (loose : Loose (before.spent subject ++ (whens ++ left)) before) :
    Ends (newSelect subject whens) before fun answer after => Loose (answer :: left) after := by
  refine (Loose.supply.ends_asOperand (.refl before) issued loose).bind
    fun held between _ made => ?_
  refine (Loose.supply.ends_newList .stmts (Loose.supply.perm made.1 List.perm_middle.symm)).bind
    fun list listed _ made => ?_
  have ready : Loose ([held, list] ++ left) listed := Loose.supply.perm made (.swap _ _ _)
  exact Loose.supply.ends_newHolder ready

end Endings

end Program

section Results

variable {before after : Program} {builder : Builder} {answer : NodeId}

namespace Builder

theorem turned {taken : NodeId → Prop} (converts : builder.Converts before)
    (issued : ∀ id ∈ builder.operands, (before.get? id).isSome)
    (free : ∀ {id}, ¬ (before.kindAt id).any Kind.isSymbol → taken id)
    (takenOthers : ∀ id ∈ builder.others, taken id)
    (run : Yields builder.run before answer after) :
    Turned before taken builder.operands (after.operandsOf answer) after := by
  cases builder with
  | definition sym init? declaredType? =>
    exact turned_newDefinition free issued (takenOthers sym (by simp [others])) run
  | call callee args => exact turned_newCall free issued run
  | primitiveCall operation args => exact turned_newPrimitiveCall free issued run
  | cast _ given | named _ given =>
    refine turned_of_single free (issued given (by simp [operands])) (fun held program known => ?_)
      run
    rw [operandsOf, known]
  | ret value? => exact turned_newReturn free issued run
  | forLoop indices iterators body orderIndependent =>
    exact turned_newForLoop free issued (takenOthers body (by simp [others])) run
  | cond condition thenStmt elseStmt? =>
    obtain ⟨takenThen, takenElse⟩ := List.forall_mem_cons.mp takenOthers
    exact turned_newCond free (issued condition (by simp [operands])) takenThen takenElse run
  | select subject whens =>
    exact turned_newSelect free (issued subject (by simp [operands])) takenOthers run
  | _ => exact converts.elim

theorem ends_of_loose (converts : builder.Converts before)
    (issued : ∀ id ∈ builder.operands, (before.get? id).isSome)
    (loose : Loose (builder.operands.flatMap before.spent ++ builder.others) before) :
    Ends builder.run before fun answer after => Loose [answer] after := by
  cases builder with
  | definition sym init? declaredType? => exact ends_newDefinition converts issued loose
  | call callee args => exact ends_newCall issued loose
  | primitiveCall operation args =>
    exact Loose.supply.ends_newPrimitiveCall (.refl before) issued loose
  | cast _ given | named _ given =>
    refine ends_of_single (issued given (by simp [operands])) ?_
    simpa [operands, others] using loose
  | ret value? => exact ends_newReturn issued loose
  | forLoop indices iterators body orderIndependent => exact ends_newForLoop issued loose
  | cond condition thenStmt elseStmt? =>
    refine ends_newCond (issued condition (by simp [operands])) ?_
    simpa [operands, others] using loose
  | select subject whens =>
    refine ends_newSelect (issued subject (by simp [operands])) ?_
    simpa [operands, others] using loose
  | _ => exact converts.elim

/-- A builder that finds its children lying around ends well.  In the places of operands stands
what it was given, new uses where that was a symbol, and no symbol changes that it does not take
over as another child. -/
theorem ends_with_operands (converts : builder.Converts before)
    (issued : ∀ id ∈ builder.operands, (before.get? id).isSome)
    (loose : Loose (builder.operands.flatMap before.spent ++ builder.others) before) :
    Ends builder.run before fun answer after =>
      List.Forall₂ (TurnsInto before after) builder.operands (after.operandsOf answer) ∧
        ∀ sym, (before.kindAt sym).any Kind.isSymbol → sym ∉ builder.others →
          after.get? sym = before.get? sym := by
  refine (builder.ends_of_loose converts issued loose).mono fun answer after run _ => ?_
  have turned : Turned before
      (fun id => ¬ (before.kindAt id).any Kind.isSymbol ∨ id ∈ builder.others)
      builder.operands (after.operandsOf answer) after :=
    builder.turned converts issued .inl (fun _ => .inr) run
  refine ⟨turned.turn, fun sym isSymbol notTaken => ?_⟩
  exact turned.leaves.others (get?_isSome_of_any isSymbol) (by simp [isSymbol, notTaken])

end Builder

/-- The cases of a `when` statement become its children as they are, symbols included.  One that
is held already stops the builder. -/
theorem cases_of_newWhen {cases : List NodeId} {body : NodeId} (wellFormed : WellFormed before)
    (issued : ∀ id ∈ body :: cases, (before.get? id).isSome)
    (run : Yields (newWhen cases body) before answer after) :
    after.operandsOf answer = cases ∧ ∃ list, ∀ given ∈ cases,
      before.parentOf given = none ∧ after.parentOf given = some list := by
  have parents := (Builder.whenCase cases body).parentOf_of_holds trivial issued wellFormed run
  simp only [newWhen, yields_bind] at run
  obtain ⟨list, listed, listing, block, blocked, blocking, holding⟩ := run
  have made : MadeOf (fun _ => True) before list (.list .exprs cases.toArray) listed :=
    madeOf_newList listing fun _ _ => trivial
  have further : Leaves (fun _ => True) listed blocked :=
    (leaves_asBlock (fun _ => trivial) trivial blocking).1
  have whole : MadeOf (fun _ => True) blocked answer (.stmt (.whenCase list block)) after :=
    madeOf_newHolder holding fun _ _ => trivial
  have isList := (further.trans whole.leaves).kept made.known rfl
  have isHeld : after.held list = cases := by
    rw [held_eq_of_kindAt isList]
    simp [Kind.owned]
  refine ⟨?_, list, fun given member => ?_⟩
  · rw [operandsOf, whole.known]
    exact isHeld
  · have holds : after.Holds list given := by
      rwa [Holds, isHeld]
    obtain ⟨named, free, _⟩ := parents.2 list given made.unissued holds
    exact ⟨free, named⟩

/-- A symbol that is defined already, and an empty block. -/
def Program.oneDefinition : Program := Edit.making do
  let sym ← newVar "x" none
  let _ ← define sym
  newBlock []

/-- The symbol can be returned, but it cannot be a case. -/
example : ((newReturn (some ⟨13⟩)).run oneDefinition).isOk ∧
    ((newWhen [⟨13⟩] ⟨16⟩).run oneDefinition).isOk = false := by
  decide +kernel

end Results

end ProgramTree
