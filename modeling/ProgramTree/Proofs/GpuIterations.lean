import ProgramTree.Proofs.FreeSymbols
import ProgramTree.Proofs.Inspection
import ProgramTree.Proofs.Pieces
import ProgramTree.Proofs.Redirection

/-!
# What the GPU variant of a loop is

The default outliner declines a loop that has several indices, an index that is no use, or a
body that jumps.  Of any other loop it builds the variant, as long as the symbol of the index
does not lie in the body: a function for one iteration, with a copy of the body that uses the
function's own index, and a call of it.
-/

namespace ProgramTree

open Program Edit

/-- Statements that go elsewhere, or are there to be gone to. -/
inductive Stmt.Jumps : Stmt → Prop where
  | ret (value? : Option NodeId) : Jumps (.ret value?)
  | goto (label? : Option NodeId) : Jumps (.goto label?)
  | label (definition stmt : NodeId) : Jumps (.label definition stmt)

theorem Remap.apply_empty : (∅ : Remap).apply = id :=
  funext fun _ => Remap.apply_of_notMem Std.ExtTreeMap.not_mem_empty

theorem Remap.apply_single (key value : NodeId) :
    Remap.apply ((∅ : Remap).insert key value) = Function.update id key value := by
  funext target
  by_cases same : target = key
  · subst same
    rw [Remap.apply_eq Std.ExtTreeMap.getElem?_insert_self, Function.update_self]
  · rw [Remap.apply_of_notMem fun seeded => same (eq_of_mem_seeds seeded),
      Function.update_of_ne same, id]

namespace Edit

/-- The thread's index is defined and set. -/
def placeThread (threadIndex : NodeId) : Edit (NodeId × NodeId) := do
  let define ← define threadIndex
  let globalId ← newPrimitiveCall .getGlobalId []
  let set ← newPrimitiveCall .move [threadIndex, globalId]
  return (define, set)

/-- The loop's own index is defined and set. -/
def placeLocal (low? : Option NodeId) (threadIndex localIndex : NodeId) :
    Edit (NodeId × NodeId) := do
  let start ← newStart low? threadIndex
  let define ← define localIndex
  let set ← newPrimitiveCall .move [localIndex, start]
  return (define, set)

theorem newIteration_eq {parts : LoopParts} : newIteration parts = do
    let index ← look (·.symbol parts.index)
    let lows ← look (·.elements parts.iterators)
    let threadIndex ← newTemp "c_idx" (some PrimitiveType.int.id)
    let localIndex ← newVar index.name index.type?
    let body ← duplicateWith parts.body ((∅ : Remap).insert parts.index localIndex) [] false
    let thread ← placeThread threadIndex
    let own ← placeLocal lows[0]? threadIndex localIndex
    return [thread.1, thread.2, own.1, own.2, body.duplicate] := by
  simp only [newIteration, placeThread, placeLocal, bind_assoc, pure_bind]

end Edit

namespace Program

/-- The subtree under `copy` is a new one of the same shape.  Links to nodes of the original
lead to their images, other links where `outer` leads them. -/
structure IsCopy (origin program : Program) (outer : NodeId → NodeId) (top copy : NodeId)
    (image link : NodeId → NodeId) : Prop where
  issued : ∀ id, origin.Contains top id → (origin.get? id).isSome
  top_image : copy = image top
  bijective : Set.BijOn image { id | origin.Contains top id } { id | program.Contains copy id }
  new : ∀ id, origin.Contains top id → origin.New (image id)
  kind : ∀ id kind, origin.Contains top id → origin.kindAt id = some kind →
    program.kindAt (image id) = some (kind.renamed image link)
  link_inside : ∀ target, origin.Contains top target → link target = image target
  link_outside : ∀ target, ¬ origin.Contains top target → link target = outer target

def HasCopy (origin program : Program) (outer : NodeId → NodeId) (top copy : NodeId) : Prop :=
  ∃ image link, IsCopy origin program outer top copy image link

/-- What stands for a node among statements: an expression is wrapped. -/
inductive IsStmtOf (origin program : Program) (id : NodeId) : NodeId → Prop where
  | wrapped {stmt : NodeId} (isExpr : (program.kindAt id).any Kind.isExpr)
      (wrapper : Added origin program stmt (.stmt (.expr id))) : IsStmtOf origin program id stmt
  | bare (notExpr : (program.kindAt id).any (!·.isExpr)) : IsStmtOf origin program id id

/-- A new block of these nodes. -/
def IsBlockOf (origin program : Program) (ids : List NodeId) (block : NodeId) : Prop :=
  ∃ list stmts, Added origin program block (.stmt (.block list)) ∧
    Added origin program list (.list .stmts stmts.toArray) ∧
    List.Forall₂ (IsStmtOf origin program) ids stmts

/-- The start of a thread is its own index, on top of a copy of the low bound if there is one. -/
inductive StartsAt (origin program : Program) (threadIndex start : NodeId) :
    Option NodeId → Prop where
  | unbounded (use : IsUse origin program start threadIndex) :
      StartsAt origin program threadIndex start none
  | bounded {low lowCopy use : NodeId} (copies : HasCopy origin program id low lowCopy)
      (adds : Calls origin program .add start [lowCopy, use])
      (isUse : IsUse origin program use threadIndex) :
      StartsAt origin program threadIndex start (some low)

/-- The statements of one iteration: `c_idx` is defined and set to the thread's index, a local
variable with the name and type of the index is defined and set to the start, and a copy of the
body runs on it. -/
def IsIteration (origin program : Program) (parts : LoopParts) (index : Symbol)
    (low? : Option NodeId) (stmts : List NodeId) : Prop :=
  ∃ defineThread setThread defineLocal setLocal copy threadIndex globalId localIndex start,
    stmts = [defineThread, setThread, defineLocal, setLocal, copy] ∧
    Declares origin program defineThread threadIndex
      { name := "c_idx", type? := some PrimitiveType.int.id, flags := (∅ : FlagSet).insert .temp,
        kind := .var } ∧
    Sets origin program setThread threadIndex globalId ∧
    Calls origin program .getGlobalId globalId [] ∧
    Declares origin program defineLocal localIndex
      { name := index.name, type? := index.type?, kind := .var } ∧
    Sets origin program setLocal localIndex start ∧
    StartsAt origin program threadIndex start low? ∧
    HasCopy origin program (Function.update id parts.index localIndex) parts.body copy

/-- There is one index, which is a use, and nothing in the body jumps. -/
def Outlinable (program : Program) (uses : Array NodeId) (body : NodeId) : Prop :=
  (∃ use sym, uses = #[use] ∧ program.kindAt use = some (.expr (.use sym))) ∧
    ∀ id stmt, program.Contains body id → program.kindAt id = some (.stmt stmt) → ¬ stmt.Jumps

/-- A block that defines a function, marked as running on the GPU, whose body is one iteration,
and calls it. -/
def IsGpuVariant (origin program : Program) (name : String) (parts : LoopParts) (index : Symbol)
    (low? : Option NodeId) (block : NodeId) : Prop :=
  ∃ definition call fn formals body stmts use args,
    IsBlockOf origin program [definition, call] block ∧
    Declares origin program definition fn
      { name, flags := (∅ : FlagSet).insert .offloadToGpu, kind := .fn formals body none none } ∧
    Added origin program formals (.list .defs #[]) ∧
    IsBlockOf origin program stmts body ∧
    IsIteration origin program parts index low? stmts ∧
    Added origin program call (.expr (.call (.expr use) args)) ∧
    IsUse origin program use fn ∧ Added origin program args (.list .exprs #[])

variable {origin before between after : Program} {touched : NodeId → Prop}
  {outer image link : NodeId → NodeId} {top copy id sym block start threadIndex : NodeId}
  {ids stmts left : List NodeId} {parts : LoopParts} {index : Symbol} {low? : Option NodeId}

/-! ## Copies -/

/-- Renamed kinds make a copy: what the images hold are the images of what the nodes hold. -/
theorem isCopy_of_kinds (issued : ∀ id, origin.Contains top id → (origin.get? id).isSome)
    (injective : Set.InjOn image { id | origin.Contains top id })
    (new : ∀ id, origin.Contains top id → origin.New (image id))
    (kinds : ∀ id kind, origin.Contains top id → origin.kindAt id = some kind →
      before.kindAt (image id) = some (kind.renamed image link))
    (link_inside : ∀ target, origin.Contains top target → link target = image target)
    (link_outside : ∀ target, ¬ origin.Contains top target → link target = outer target) :
    IsCopy origin before outer top (image top) image link := by
  have held : ∀ id, origin.Contains top id →
      before.held (image id) = (origin.held id).map image := by
    intro id contained
    obtain ⟨node, found⟩ := Option.isSome_iff_exists.mp (issued id contained)
    rw [held_eq_of_kindAt (kinds id node.kind contained (kindAt_eq found)), held_eq found,
      Kind.owned_renamed]
  refine ⟨issued, rfl, ⟨fun id contained => ?_, injective, fun id contained => ?_⟩, new, kinds,
    link_inside, link_outside⟩
  · induction contained with
    | refl => exact .refl
    | tail above holds ih =>
      refine ih.tail ?_
      rw [Holds, held _ above]
      exact List.mem_map_of_mem holds
  · induction contained with
    | refl => exact ⟨top, .refl, rfl⟩
    | tail _ holds ih =>
      obtain ⟨source, above, rfl⟩ := ih
      rw [Holds, held _ above] at holds
      obtain ⟨child, member, rfl⟩ := List.mem_map.mp holds
      exact ⟨child, above.tail member, rfl⟩

theorem IsCopy.keep (copies : IsCopy origin before outer top copy image link)
    (revision : Revision origin touched before after)
    (apart : ∀ id, origin.Contains top id → ¬ touched (image id)) :
    IsCopy origin after outer top copy image link := by
  obtain ⟨issued, rfl, bijective, new, kinds, inside, outside⟩ := copies
  refine isCopy_of_kinds issued bijective.injOn new ?_ inside outside
  intro id kind contained known
  exact revision.kinds (kinds id kind contained known) (apart id contained)

/-- It holds, and goes on to hold while nothing is revised but what was there before. -/
def Lasts (origin before after : Program) (holds : Program → Prop) : Prop :=
  ∀ touched later, Revision origin touched after later → (∀ id, touched id → ¬ before.New id) →
    holds later

/-! ## What is added leaves all as it is -/

section Adding

variable (addition : Addition origin before after)
include addition

theorem HasCopy.keep (copies : HasCopy origin before outer top copy) :
    HasCopy origin after outer top copy := by
  obtain ⟨image, link, isCopy⟩ := copies
  exact ⟨image, link, isCopy.keep addition fun _ _ => not_false⟩

theorem IsStmtOf.keep {stmt : NodeId} (isStmt : IsStmtOf origin before id stmt) :
    IsStmtOf origin after id stmt := by
  cases isStmt with
  | wrapped isExpr wrapper =>
    exact .wrapped (addition.passes isExpr not_false) (wrapper.keep addition not_false)
  | bare notExpr => exact .bare (addition.passes notExpr not_false)

theorem IsBlockOf.keep (isBlock : IsBlockOf origin before ids block) :
    IsBlockOf origin after ids block := by
  obtain ⟨list, stmts, block, list, areStmts⟩ := isBlock
  exact ⟨_, stmts, block.keep addition not_false, list.keep addition not_false,
    areStmts.imp fun _ _ => (·.keep addition)⟩

theorem StartsAt.keep (starts : StartsAt origin before threadIndex start low?) :
    StartsAt origin after threadIndex start low? := by
  cases starts with
  | unbounded use => exact .unbounded (use.keep addition not_false)
  | bounded copies adds isUse =>
    exact .bounded (copies.keep addition) (adds.keep addition nofun) (isUse.keep addition not_false)

theorem IsIteration.keep (iteration : IsIteration origin before parts index low? stmts) :
    IsIteration origin after parts index low? stmts := by
  obtain ⟨_, _, _, _, _, _, _, _, _, rfl, thread, setThread, calls, local_, setLocal, starts,
    copies⟩ := iteration
  exact ⟨_, _, _, _, _, _, _, _, _, rfl, thread.keep addition nofun, setThread.keep addition nofun,
    calls.keep addition nofun, local_.keep addition nofun, setLocal.keep addition nofun,
    starts.keep addition, copies.keep addition⟩

theorem IsGpuVariant.keep {name : String}
    (variant : IsGpuVariant origin before name parts index low? block) :
    IsGpuVariant origin after name parts index low? block := by
  obtain ⟨_, _, _, _, _, _, _, _, isBlock, declares, formals, isBody, iteration, call, use, args⟩ :=
    variant
  exact ⟨_, _, _, _, _, _, _, _, isBlock.keep addition, declares.keep addition nofun,
    formals.keep addition not_false, isBody.keep addition, iteration.keep addition,
    call.keep addition not_false, use.keep addition not_false, args.keep addition not_false⟩

end Adding

/-! ## Blocks -/

section Blocks

variable (past : ∀ {id}, before.New id → origin.New id)
include past

theorem stmtOf_asStmt {stmt : NodeId} (new : origin.New id) (issued : ¬ before.New id)
    (run : Yields (asStmt id) before stmt after) :
    Addition origin before after ∧ IsStmtOf origin after id stmt ∧ origin.New stmt ∧
      ¬ after.New stmt := by
  simp only [asStmt, newExprStmt, yields_bind, yields_look, kindOf_eq_ok, yields_ite,
    yields_pure] at run
  obtain ⟨kind, start, ⟨known, rfl⟩, ⟨isExpr, run⟩ | ⟨notExpr, rfl, rfl⟩⟩ := run
  · obtain ⟨_, _, created, _, _, adoption, rfl, rfl⟩ := run
    obtain ⟨rfl, pushed⟩ := pushed_withLocationOf created
    have old : start.nextId ∉ (Kind.stmt (.expr id)).owned := fun owned => by
      obtain rfl : start.nextId = id := by simpa [Kind.owned, Stmt.owned] using owned
      exact issued (get?_nextId _)
    have made := produced_of_grown past (pushed.grown (Edit.adopted adoption) old)
      (by simpa [Kind.owned, Stmt.owned] using ⟨new, issued⟩)
    have isExprNow : (after.kindAt id).any Kind.isExpr :=
      made.addition.passes (by rw [known]; exact isExpr) not_false
    exact ⟨made.addition, .wrapped isExprNow made.added, made.added.new, made.added.issued⟩
  · refine ⟨.refl past, .bare ?_, new, issued⟩
    rw [known]
    simpa using notExpr

theorem stmtsOf_mapM (pieces : ∀ id ∈ ids, origin.New id ∧ ¬ before.New id)
    (run : Yields (ids.mapM asStmt) before stmts after) :
    Addition origin before after ∧ List.Forall₂ (IsStmtOf origin after) ids stmts ∧
      ∀ stmt ∈ stmts, origin.New stmt ∧ ¬ after.New stmt := by
  induction ids generalizing before stmts with
  | nil =>
    obtain ⟨rfl, rfl⟩ := yields_pure.mp run
    exact ⟨.refl past, .nil, nofun⟩
  | cons first rest ih =>
    simp only [List.mapM_cons, yields_bind, yields_pure] at run
    obtain ⟨stmt, middle, runFirst, others, _, runRest, rfl, rfl⟩ := run
    obtain ⟨⟨new, issued⟩, pieces⟩ := List.forall_mem_cons.mp pieces
    obtain ⟨addition, isStmt, newStmt, issuedStmt⟩ := stmtOf_asStmt past new issued runFirst
    obtain ⟨further, areStmts, newStmts⟩ := ih addition.past_after
      (fun id member => (pieces id member).imp_right addition.issued) runRest
    exact ⟨addition.adding further, .cons (isStmt.keep further) areStmts,
      List.forall_mem_cons.mpr ⟨⟨newStmt, further.issued issuedStmt⟩, newStmts⟩⟩

theorem isBlockOf_newBlock (pieces : ∀ id ∈ ids, origin.New id ∧ ¬ before.New id)
    (run : Yields (newBlock ids) before block after) :
    Addition origin before after ∧ IsBlockOf origin after ids block := by
  simp only [newBlock, newList, yields_bind] at run
  obtain ⟨list, listed, ⟨stmts, wrapped, wrapping, runList⟩, runBlock⟩ := run
  obtain ⟨addition, areStmts, new⟩ := stmtsOf_mapM past pieces wrapping
  have madeList := produced_newHolder addition.past_after runList (by simp [Kind.owned]) new
  have madeBlock := produced_newHolder madeList.addition.past_after runBlock rfl
    (by simpa using ⟨madeList.added.new, madeList.added.issued⟩)
  have untilBlock := madeList.addition.adding madeBlock.addition
  exact ⟨addition.adding untilBlock, list, stmts, madeBlock.added,
    madeList.added.keep madeBlock.addition not_false, areStmts.imp fun _ _ => (·.keep untilBlock)⟩

end Blocks

section Lasting

variable {later : Program} {kind : Kind} {operation : Primitive} {args : List NodeId}
  (past : ∀ {id}, before.New id → origin.New id) (revision : Revision origin touched after later)
  (old : ∀ id, touched id → ¬ before.New id)
include past revision old

theorem Added.lasts (added : Added before after id kind) : Added origin later id kind :=
  ⟨past added.new, revision.kinds added.known fun again => old id again added.new⟩

theorem Calls.lasts (calls : Calls before after operation id args) :
    Calls origin later operation id args := by
  obtain ⟨list, call, isList⟩ := calls
  exact ⟨list, call.lasts past revision old, isList.lasts past revision old⟩

end Lasting

/-- Duplicating adds nodes and changes none. -/
theorem Twins.addition {seeds : Remap} {order : List NodeId}
    (twins : Twins origin before seeds top order after)
    (past : ∀ {id}, before.New id → origin.New id)
    (issued : ∀ id, origin.Contains top id → (origin.get? id).isSome) :
    Addition origin before after := by
  have extended := twins.extended
  have sameKind : ∀ {id kind}, before.kindAt id = some kind → after.kindAt id = some kind :=
    fun known => (extended.same_kind (get?_isSome_of_kindAt known)).trans known
  refine ⟨past, fun known _ => sameKind known, fun known => ⟨_, sameKind known, .same _⟩,
    fun old => ?_, fun {holder child} holds => ?_⟩
  · exact extended.same_parent (Option.isSome_iff_ne_none.mpr fun unissued => old (past unissued))
  · by_cases unissued : before.get? holder = none
    · right
      obtain ⟨original, member, rfl⟩ := twins.isTwin unissued holds.issued
      have contained := twins.mem_order.mp member
      obtain ⟨node, found⟩ := Option.isSome_iff_exists.mp (issued original contained)
      have knownTwin := twins.kind member (kindAt_eq found)
      rw [Holds, held_eq_of_kindAt knownTwin, Kind.owned_renamed] at holds
      obtain ⟨source, owned, rfl⟩ := List.mem_map.mp holds
      have below : origin.Contains top source := contained.tail (by rwa [Holds, held_eq found])
      obtain ⟨node, found⟩ := Option.isSome_iff_exists.mp (issued source below)
      exact ⟨past unissued_twin,
        issued_of_kindAt (twins.kind (twins.mem_order.mpr below) (kindAt_eq found))⟩
    · exact .inl ((extended.same_holds (Option.isSome_iff_ne_none.mpr unissued)).mp holds)

namespace Pieces

/-- A copy of something that was there before. -/
theorem ends_copy {seeds : Remap} (issued : (origin.get? top).isSome)
    (unseeded : ∀ id, origin.Contains top id → id ∉ seeds) (pieces : Pieces origin left before) :
    Ends (Edit.duplicateWith top seeds [] false) before fun copied after =>
      Pieces origin (copied.duplicate :: left) after ∧ Addition origin before after ∧
        ((origin.kindAt top).any Kind.isExpr → NewExpr before after copied.duplicate) ∧
        Lasts origin before after fun later =>
          HasCopy origin later seeds.apply top copied.duplicate := by
  have issuedBelow : ∀ id, origin.Contains top id → (origin.get? id).isSome := fun id =>
    pieces.wellFormed.orderly.forest.issued_of_contains trivial issued
  refine (ends_duplicateWith issued unseeded [] pieces).mono fun copied after _ made => ?_
  obtain ⟨made, order, isTwin, duplicated⟩ := made
  have twins := duplicated.twins pieces.extended issuedBelow
  have copies : IsCopy origin after seeds.apply top (before.twin order top) (before.twin order)
      (before.redirect seeds order) := by
    refine isCopy_of_kinds issuedBelow (fun first below second _ same => ?_)
      (fun id _ => pieces.past unissued_twin)
      (fun id kind below known => twins.kind (twins.mem_order.mpr below) known)
      (fun target below => if_pos (twins.mem_order.mpr below))
      (fun target outside => if_neg fun member => outside (twins.mem_order.mp member))
    exact twin_injective (twins.mem_order.mpr below) same
  rw [← isTwin] at copies
  refine ⟨made, twins.addition pieces.past issuedBelow, fun expr => ⟨isTwin ▸ unissued_twin, ?_⟩,
    fun touched later revision old => ⟨_, _, copies.keep revision fun id _ again => ?_⟩⟩
  · obtain ⟨kind, known, isExpr⟩ := (Option.any_eq_true _ _).mp expr
    rw [isTwin, twins.kind (twins.mem_order.mpr .refl) known, Option.any_some, Kind.isExpr_renamed,
      isExpr]
  · exact old _ again unissued_twin

/-! ## Declaring and setting -/

theorem ends_declare {symbol : Symbol} (known : before.kindAt sym = some (.symbol symbol))
    (pieces : Pieces origin (sym :: left) before) :
    Ends (Edit.define sym) before fun definition after => Pieces origin (definition :: left) after ∧
      Revision origin (· = sym) before after ∧ Declares origin after definition sym symbol := by
  have isSymbol : (before.kindAt sym).any Kind.isSymbol := by
    rw [known]
    rfl
  refine (ends_define isSymbol pieces).mono fun definition after run made => ?_
  obtain ⟨revision, _, declares⟩ := declares_define pieces.past (pieces.new sym (by simp)) known run
  exact ⟨made, revision, declares⟩

theorem ends_set {value : NodeId} (symbol : (before.kindAt sym).any Kind.isSymbol)
    (expr : NewExpr origin before value) (pieces : Pieces origin (value :: left) before) :
    Ends (Edit.newPrimitiveCall .move [sym, value]) before fun set after =>
      Pieces origin (set :: left) after ∧ Addition origin before after ∧
        Sets origin after set sym value := by
  have issued : ∀ id ∈ [sym, value], (before.get? id).isSome := by
    simpa using ⟨get?_isSome_of_any symbol, get?_isSome_of_any expr.isExpr⟩
  have ready : Pieces origin ([sym, value].flatMap before.spent ++ left) before := by
    simpa [spent_of_isSymbol symbol, spent_of_isExpr expr.isExpr] using pieces
  refine (ends_newPrimitiveCall issued ready).mono fun set after run made => ?_
  obtain ⟨addition, _, sets⟩ := sets_newPrimitiveCall pieces.past symbol expr run
  exact ⟨made, addition, sets⟩

theorem ends_ask {operation : Primitive} (pieces : Pieces origin left before) :
    Ends (Edit.newPrimitiveCall operation []) before fun call after =>
      Pieces origin (call :: left) after ∧ Addition origin before after ∧
        Calls origin after operation call [] := by
  have ready : Pieces origin ([].flatMap before.spent ++ left) before := pieces
  refine (ends_newPrimitiveCall (by simp) ready).mono fun call after run made => ?_
  obtain ⟨addition, _, args, calls, none⟩ := calls_newPrimitiveCall pieces.past (by simp) run
  obtain rfl := List.forall₂_nil_left_iff.mp none
  exact ⟨made, addition, calls⟩

theorem ends_newStart (symbol : (before.kindAt threadIndex).any Kind.isSymbol)
    (lowExpr : ∀ low ∈ low?, (origin.kindAt low).any Kind.isExpr)
    (pieces : Pieces origin left before) :
    Ends (Edit.newStart low? threadIndex) before fun start after =>
      Pieces origin (start :: left) after ∧ Addition origin before after ∧
        NewExpr origin after start ∧
        Lasts origin before after (StartsAt origin · threadIndex start low?) := by
  cases low? with
  | none =>
    refine ((supply origin).ends_newNode pieces).mono fun start after run made => ?_
    have madeUse := produced_newNode pieces.past run rfl
    have isUse : IsUse before after start threadIndex := ⟨madeUse.unissued, madeUse.known⟩
    exact ⟨made, madeUse.addition, IsUse.newExpr madeUse.added, fun touched later revision old =>
      .unbounded (isUse.lasts pieces.past revision old)⟩
  | some low =>
    have isExpr := lowExpr low rfl
    simp only [Edit.newStart, Edit.duplicate, bind_assoc, pure_bind]
    refine (ends_copy (get?_isSome_of_any isExpr) (by simp) pieces).bind
      fun copied between _ made => ?_
    obtain ⟨made, copying, copiesExpr, copies⟩ := made
    rw [Remap.apply_empty] at copies
    have copyExpr := copiesExpr isExpr
    have stillSymbol := copying.passes symbol not_false
    have operands : ∀ id ∈ [copied.duplicate, threadIndex],
        (between.kindAt id).any Kind.isSymbol ∨ NewExpr before between id := by
      simpa using ⟨.inr copyExpr, .inl stillSymbol⟩
    have issued : ∀ id ∈ [copied.duplicate, threadIndex], (between.get? id).isSome := by
      simpa using ⟨get?_isSome_of_any copyExpr.isExpr, get?_isSome_of_any stillSymbol⟩
    have ready : Pieces origin ([copied.duplicate, threadIndex].flatMap between.spent ++ left)
        between := by
      simpa [spent_of_isSymbol stillSymbol, spent_of_isExpr copyExpr.isExpr] using made
    refine (ends_newPrimitiveCall issued ready).mono fun start after run made => ?_
    obtain ⟨addition, _⟩ := calls_newPrimitiveCall ready.past (fun id member =>
      (operands id member).imp_right fun expr => ⟨pieces.past expr.new, expr.isExpr⟩) run
    obtain ⟨_, _, args, calls, areArguments⟩ :=
      calls_newPrimitiveCall (fun unissued => not_imp_not.mp copying.issued unissued) operands run
    obtain ⟨first, _, isFirst, rest, rfl⟩ := List.forall₂_cons_left_iff.mp areArguments
    obtain ⟨use, _, isSecond, none, rfl⟩ := List.forall₂_cons_left_iff.mp rest
    obtain rfl := List.forall₂_nil_left_iff.mp none
    obtain rfl := isFirst.same (addition.passes copyExpr.isExpr not_false)
    have isUse := isSecond.isUse (addition.passes stillSymbol not_false)
    refine ⟨made, copying.adding addition, ⟨pieces.past calls.newExpr.new, calls.newExpr.isExpr⟩,
      fun touched later revision old => .bounded ?_ (calls.lasts pieces.past revision old)
        (isUse.lasts pieces.past revision old)⟩
    exact copies touched later (revision.following addition) old

/-! ## One iteration -/

theorem ends_placeThread {symbol : Symbol}
    (known : before.kindAt threadIndex = some (.symbol symbol))
    (pieces : Pieces origin (threadIndex :: left) before) :
    Ends (Edit.placeThread threadIndex) before fun placed after =>
      Pieces origin (placed.2 :: placed.1 :: left) after ∧
        Revision origin (· = threadIndex) before after ∧
        Declares origin after placed.1 threadIndex symbol ∧ ∃ globalId,
          Sets origin after placed.2 threadIndex globalId ∧
          Calls origin after .getGlobalId globalId [] := by
  refine (ends_declare known pieces).bind fun define defined _ made => ?_
  obtain ⟨piecesD, defining, declares⟩ := made
  refine (ends_ask piecesD).bind fun globalId asked _ made => ?_
  obtain ⟨piecesG, asking, calls⟩ := made
  have stillSymbol := asking.passes declares.isSymbol not_false
  refine (ends_set stillSymbol calls.newExpr piecesG).bind fun set after _ made => .pure ?_
  obtain ⟨piecesEnd, setting, sets⟩ := made
  have sinceDefined := asking.adding setting
  exact ⟨piecesEnd, defining.adding sinceDefined, declares.keep sinceDefined nofun, globalId, sets,
    calls.keep setting nofun⟩

theorem ends_placeLocal {localIndex : NodeId} {symbol : Symbol}
    (known : before.kindAt localIndex = some (.symbol symbol))
    (isThread : (before.kindAt threadIndex).any Kind.isSymbol)
    (lowExpr : ∀ low ∈ low?, (origin.kindAt low).any Kind.isExpr)
    (pieces : Pieces origin (localIndex :: left) before) :
    Ends (Edit.placeLocal low? threadIndex localIndex) before fun placed after =>
      Pieces origin (placed.2 :: placed.1 :: left) after ∧
        Revision origin (· = localIndex) before after ∧
        Declares origin after placed.1 localIndex symbol ∧ ∃ start,
          Sets origin after placed.2 localIndex start ∧
          StartsAt origin after threadIndex start low? := by
  refine (ends_newStart isThread lowExpr pieces).bind fun start started _ made => ?_
  obtain ⟨piecesS, starting, startExpr, starts⟩ := made
  have knownNow := starting.kinds known not_false
  refine (ends_declare knownNow (piecesS.perm (.swap _ _ _))).bind fun define defined _ made => ?_
  obtain ⟨piecesD, defining, declares⟩ := made
  have notLocal : start ≠ localIndex := by
    rintro rfl
    exact not_isSymbol_of_isExpr startExpr.isExpr (by rw [knownNow]; rfl)
  have startExprNow : NewExpr origin defined start :=
    ⟨startExpr.new, defining.passes startExpr.isExpr notLocal⟩
  refine (ends_set declares.isSymbol startExprNow (piecesD.perm (.swap _ _ _))).bind
    fun set after _ made => .pure ?_
  obtain ⟨piecesEnd, setting, sets⟩ := made
  have sinceStart := defining.adding setting
  refine ⟨piecesEnd, sinceStart.following starting, declares.keep setting nofun, start, sets, ?_⟩
  exact starts _ _ sinceStart fun _ same => issued_of_kindAt (same ▸ known)

theorem ends_newIteration {lows : Array NodeId} {holds : ListCategory}
    (isIndex : origin.kindAt parts.index = some (.symbol index))
    (isIterators : origin.kindAt parts.iterators = some (.list holds lows))
    (lowExpr : ∀ low ∈ lows[0]?, (origin.kindAt low).any Kind.isExpr)
    (issuedBody : (origin.get? parts.body).isSome)
    (outside : ¬ origin.Contains parts.body parts.index) (pieces : Pieces origin [] before) :
    Ends (Edit.newIteration parts) before fun stmts after => Pieces origin stmts after ∧
      Addition origin before after ∧ IsIteration origin after parts index lows[0]? stmts := by
  have sameKind : ∀ {id kind}, origin.kindAt id = some kind → before.kindAt id = some kind :=
    fun known => (pieces.extended.same_kind (get?_isSome_of_kindAt known)).trans known
  rw [Edit.newIteration_eq]
  refine .look_bind index (symbol_eq_ok.mpr (sameKind isIndex)) ?_
  refine .look_bind lows (elements_eq_ok.mpr ⟨holds, sameKind isIterators⟩) ?_
  refine (ends_newTemp pieces).bind fun threadIndex timed runThread piecesT => ?_
  have madeThread := produced_newTemp pieces.past runThread
  refine ((supply origin).ends_newNode piecesT).bind fun localIndex indexed runLocal piecesL => ?_
  have madeLocal := produced_newNode piecesT.past runLocal rfl
  have different : localIndex ≠ threadIndex := fun same =>
    madeThread.added.issued (same ▸ madeLocal.unissued)
  have unseeded : ∀ id, origin.Contains parts.body id →
      id ∉ (∅ : Remap).insert parts.index localIndex :=
    fun id below seeded => outside (eq_of_mem_seeds seeded ▸ below)
  refine (ends_copy issuedBody unseeded piecesL).bind fun copied between _ made => ?_
  obtain ⟨piecesC, copying, -, copies⟩ := made
  rw [Remap.apply_single] at copies
  have untilCopy := madeLocal.addition.adding copying
  have knownThread := untilCopy.kinds madeThread.known not_false
  have knownLocal := copying.kinds madeLocal.known not_false
  have readyThread : Pieces origin (threadIndex :: [copied.duplicate, localIndex]) between :=
    piecesC.perm (by grind)
  refine (ends_placeThread knownThread readyThread).bind fun thread placed _ made => ?_
  obtain ⟨piecesP, placing, declares, globalId, sets, calls⟩ := made
  have knownLocalNow := placing.kinds knownLocal different
  have isLocalSymbol : (placed.kindAt localIndex).any Kind.isSymbol := by
    rw [knownLocalNow]
    rfl
  have readyLocal : Pieces origin (localIndex :: [thread.2, thread.1, copied.duplicate]) placed :=
    piecesP.perm (by grind)
  refine (ends_placeLocal knownLocalNow declares.isSymbol lowExpr readyLocal).bind
    fun own after _ made => .pure ?_
  obtain ⟨piecesEnd, owning, declaresLocal, start, setsLocal, starts⟩ := made
  have sinceCopy : Revision origin (fun id => id = threadIndex ∨ id = localIndex) between after :=
    placing.followedBy owning (fun _ => .inl) fun _ same _ => .inr same
  have notDefinition : thread.1 ≠ localIndex := fun same =>
    not_isSymbol_of_isExpr declares.newExpr.isExpr (same ▸ isLocalSymbol)
  have spared : ∀ id, id = localIndex → ¬ origin.New id ∨ (placed.kindAt id).any Kind.isSymbol :=
    fun _ same => .inr (same ▸ isLocalSymbol)
  refine ⟨piecesEnd.perm (by grind), ?_, thread.1, thread.2, own.1, own.2, copied.duplicate,
    threadIndex, globalId, localIndex, start, rfl, ?_, sets.keep owning spared,
    calls.keep owning spared, declaresLocal, setsLocal, starts, ?_⟩
  · refine (madeThread.addition.adding untilCopy).absorbing sinceCopy ?_
    rintro _ (rfl | rfl)
    · exact madeThread.unissued
    · exact not_imp_not.mp madeThread.addition.issued madeLocal.unissued
  · exact ⟨declares.defines.keep owning notDefinition, declares.defined.keep owning different.symm⟩
  · refine copies _ _ sinceCopy ?_
    rintro _ (rfl | rfl)
    · exact madeLocal.addition.issued madeThread.added.issued
    · exact madeLocal.added.issued

theorem ends_block (pieces : Pieces origin (ids ++ left) before) :
    Ends (Edit.newBlock ids) before fun block after => Pieces origin (block :: left) after ∧
      Addition origin before after ∧ IsBlockOf origin after ids block := by
  refine ((supply origin).ends_newBlock pieces).mono fun block after run made => ⟨made, ?_⟩
  refine isBlockOf_newBlock pieces.past (fun id member => ?_) run
  have taken := List.mem_append_left left member
  exact ⟨pieces.new id taken, Option.isSome_iff_ne_none.mp (pieces.unattached id taken).issued⟩

theorem ends_newGpuVariant {lows : Array NodeId} {holds : ListCategory} (name : String)
    (isIndex : origin.kindAt parts.index = some (.symbol index))
    (isIterators : origin.kindAt parts.iterators = some (.list holds lows))
    (lowExpr : ∀ low ∈ lows[0]?, (origin.kindAt low).any Kind.isExpr)
    (issuedBody : (origin.get? parts.body).isSome)
    (outside : ¬ origin.Contains parts.body parts.index) (pieces : Pieces origin [] before) :
    Ends (Edit.newGpuVariant name parts) before fun block after => Pieces origin [block] after ∧
      IsGpuVariant origin after name parts index lows[0]? block := by
  refine (ends_newIteration isIndex isIterators lowExpr issuedBody outside pieces).bind
    fun stmts iterated _ made => ?_
  obtain ⟨piecesI, -, iteration⟩ := made
  rw [← List.append_nil stmts] at piecesI
  refine (ends_block piecesI).bind fun body framed _ made => ?_
  obtain ⟨piecesB, framing, isBody⟩ := made
  have isBodyBlock := isBody
  obtain ⟨list, _, bodyBlock, _⟩ := isBodyBlock
  refine (ends_newFn bodyBlock.known piecesB).bind fun fn declared _ made => ?_
  obtain ⟨piecesF, formals, madeFn, madeFormals⟩ := made
  have newFn := madeFn.added.new
  refine (ends_changeSymbol newFn madeFn.known piecesF).bind fun _ flagged runFlag piecesFlag => ?_
  obtain ⟨symbol, knownFn, flagging, isFlagged⟩ := revision_addFlag piecesF.past runFlag
  obtain rfl := Kind.symbol.inj (Option.some.inj (knownFn.symm.trans madeFn.known))
  refine (ends_declare isFlagged piecesFlag).bind fun definition defined _ made => ?_
  obtain ⟨piecesD, defining, declares⟩ := made
  refine (ends_newCall declares.isSymbol piecesD).bind fun call called _ made => ?_
  obtain ⟨piecesC, calling, use, args, isCall, isUse, isArgs⟩ := made
  have ready : Pieces origin ([definition, call] ++ []) called := piecesC.perm (.swap _ _ _)
  refine (ends_block ready).mono fun block after _ made => ?_
  obtain ⟨piecesEnd, closing, isBlock⟩ := made
  have sinceDefined := calling.adding closing
  have flaggedAndDefined : Revision origin (· = fn) declared defined :=
    flagging.followedBy defining (fun _ => id) fun _ same _ => same
  have sinceFormals := flaggedAndDefined.adding sinceDefined
  have sinceBody : Addition origin framed after :=
    madeFn.addition.absorbing sinceFormals fun _ same => same ▸ madeFn.unissued
  have notFormals : formals ≠ fn := by
    rintro rfl
    have never := madeFormals.known.symm.trans madeFn.known
    cases never
  exact ⟨piecesEnd, definition, call, fn, formals, body, stmts, use, args, isBlock,
    declares.keep sinceDefined nofun, madeFormals.keep sinceFormals notFormals,
    isBody.keep sinceBody, iteration.keep (framing.adding sinceBody),
    isCall.keep closing not_false, isUse.keep closing not_false, isArgs.keep closing not_false⟩

end Pieces

/-! ## Which loops have a variant -/

theorem exists_isJump (issued : (before.get? id).isSome) :
    ∃ jumps, before.isJump id = .ok jumps ∧
      (jumps = true ↔ ∃ stmt, before.kindAt id = some (.stmt stmt) ∧ stmt.Jumps) := by
  obtain ⟨node, found⟩ := Option.isSome_iff_exists.mp issued
  have known := kindAt_eq found
  by_cases jumping : ∃ stmt, node.kind = .stmt stmt ∧ stmt.Jumps
  · obtain ⟨stmt, isStmt, jumps⟩ := jumping
    refine ⟨true, Fault.bind_eq_ok.mpr ⟨_, kindOf_eq_ok.mpr known, ?_⟩,
      by simp [known, isStmt, jumps]⟩
    rw [isStmt]
    cases jumps <;> rfl
  · refine ⟨false, Fault.bind_eq_ok.mpr ⟨_, kindOf_eq_ok.mpr known, ?_⟩,
      by simpa [known] using jumping⟩
    split
    · exact absurd ⟨_, ‹_›, .ret _⟩ jumping
    · exact absurd ⟨_, ‹_›, .goto _⟩ jumping
    · exact absurd ⟨_, ‹_›, .label _ _⟩ jumping
    · rfl

theorem WellFormed.exists_jumps (wellFormed : WellFormed before)
    (issued : (before.get? top).isSome) : ∃ found, before.jumps top = .ok found ∧ (found = true ↔
      ∃ id stmt, before.Contains top id ∧ before.kindAt id = some (.stmt stmt) ∧ stmt.Jumps) := by
  have forest := wellFormed.orderly.forest
  obtain ⟨nodes, walked, _⟩ := forest.exists_subtree trivial issued
  have answers : ∀ id ∈ nodes, ∃ jumps, before.isJump id = .ok jumps ∧
      (jumps = true ↔ ∃ stmt, before.kindAt id = some (.stmt stmt) ∧ stmt.Jumps) :=
    fun id member => exists_isJump
      (forest.issued_of_contains trivial issued ((mem_subtree walked).mp member))
  obtain ⟨found, looked, found_iff⟩ := Fault.exists_anyM fun id member =>
    (answers id member).imp fun _ => And.left
  refine ⟨found, by rw [Program.jumps, walked]; exact looked, found_iff.trans ⟨?_, ?_⟩⟩
  · rintro ⟨id, member, jumps⟩
    obtain ⟨answer, asked, answer_iff⟩ := answers id member
    obtain rfl := Except.ok.inj (asked.symm.trans jumps)
    obtain ⟨stmt, known, isJump⟩ := answer_iff.mp rfl
    exact ⟨id, stmt, (mem_subtree walked).mp member, known, isJump⟩
  · rintro ⟨id, stmt, contained, known, isJump⟩
    have member := (mem_subtree walked).mpr contained
    obtain ⟨answer, asked, answer_iff⟩ := answers id member
    obtain rfl := answer_iff.mpr ⟨stmt, known, isJump⟩
    exact ⟨id, member, asked⟩

theorem WellFormed.outlinable {use body : NodeId} (wellFormed : WellFormed before)
    (used : before.kindAt use = some (.expr (.use sym))) (issued : (before.get? body).isSome)
    (staying : before.jumps body = .ok false) : before.Outlinable #[use] body := by
  obtain ⟨found, asked, found_iff⟩ := wellFormed.exists_jumps issued
  obtain rfl : found = false := Except.ok.inj (asked.symm.trans staying)
  refine ⟨⟨use, sym, rfl, used⟩, fun id stmt contained known jumps => ?_⟩
  exact Bool.false_ne_true (found_iff.mpr ⟨id, stmt, contained, known, jumps⟩)

theorem WellFormed.exists_loopParts {loop indices iterators body : NodeId} {independent : Bool}
    {uses : Array NodeId} {holds : ListCategory} (wellFormed : WellFormed before)
    (isLoop : before.kindAt loop = some (.stmt (.forLoop indices iterators body independent)))
    (isIndices : before.kindAt indices = some (.list holds uses)) :
    ∃ parts?, before.loopParts? loop = .ok parts? ∧
      (parts?.isSome ↔ before.Outlinable uses body) ∧
      ∀ parts ∈ parts?, ∃ use index, parts = ⟨index, iterators, body⟩ ∧ uses = #[use] ∧
        before.kindAt use = some (.expr (.use index)) := by
  have issued : ∀ {id}, before.Holds loop id → (before.get? id).isSome :=
    wellFormed.orderly.issued_of_held trivial
  have holdsBody : before.Holds loop body := by
    simp [Holds, held_eq_of_kindAt isLoop, Kind.owned, Stmt.owned]
  obtain ⟨jumping, asked, jumping_iff⟩ := wellFormed.exists_jumps (issued holdsBody)
  have listed := elements_eq_ok.mpr ⟨holds, isIndices⟩
  by_cases single : ∃ use, uses = #[use]
  swap
  · refine ⟨none, ?_, iff_of_false Bool.false_ne_true ?_, by simp⟩
    · refine Fault.bind_eq_ok.mpr ⟨_, kindOf_eq_ok.mpr isLoop, Fault.bind_eq_ok.mpr ⟨_, listed, ?_⟩⟩
      split
      · exact absurd ⟨_, Array.toList_inj.mp ‹_›⟩ single
      · rfl
    · rintro ⟨⟨use, _, isSingle, _⟩, -⟩
      exact absurd ⟨use, isSingle⟩ single
  obtain ⟨use, rfl⟩ := single
  have holdsUse : before.Holds indices use := by
    simp [Holds, held_eq_of_kindAt isIndices, Kind.owned]
  obtain ⟨index?, used, isUse_iff⟩ :=
    exists_usedSymbol (wellFormed.orderly.issued_of_held trivial holdsUse)
  cases index? with
  | none =>
    refine ⟨none, Fault.bind_eq_ok.mpr ⟨_, kindOf_eq_ok.mpr isLoop, Fault.bind_eq_ok.mpr
      ⟨_, listed, Fault.bind_eq_ok.mpr ⟨none, used, rfl⟩⟩⟩,
      iff_of_false Bool.false_ne_true ?_, by simp⟩
    rintro ⟨⟨other, index, same, isIndex⟩, -⟩
    obtain rfl : use = other := by simpa using same
    cases (isUse_iff index).mpr isIndex
  | some index =>
    have isUse := usedSymbol_eq_some.mp used
    refine ⟨if jumping then none else some ⟨index, iterators, body⟩, Fault.bind_eq_ok.mpr
      ⟨_, kindOf_eq_ok.mpr isLoop, Fault.bind_eq_ok.mpr ⟨_, listed, Fault.bind_eq_ok.mpr
        ⟨some index, used, Fault.bind_eq_ok.mpr ⟨jumping, asked, rfl⟩⟩⟩⟩, ?_, ?_⟩
    · have answered : ∀ parts : LoopParts,
          (if jumping then none else some parts).isSome ↔ ¬ jumping = true := by
        cases jumping <;> simp
      rw [answered, jumping_iff]
      simp only [Outlinable, not_exists, not_and]
      exact ⟨fun goesOn => ⟨⟨use, index, rfl, isUse⟩, goesOn⟩, fun outlinable => outlinable.2⟩
    · intro parts isParts
      cases jumping with
      | true => cases isParts
      | false =>
        obtain rfl := Option.some.inj isParts
        exact ⟨use, index, rfl, rfl, isUse⟩

end Program

namespace GpuLoopBuilder

section Outlining

variable {before : Program} {loop indices iterators body : NodeId} {independent : Bool}
  {uses lows : Array NodeId} {category bounds : ListCategory}
  (wellFormed : WellFormed before)
  (isLoop : before.kindAt loop = some (.stmt (.forLoop indices iterators body independent)))
  (isIndices : before.kindAt indices = some (.list category uses))
  (isIterators : before.kindAt iterators = some (.list bounds lows))
  (exprs : ∀ low ∈ lows, (before.kindAt low).any Kind.isExpr)
include wellFormed isLoop isIterators exprs

/-- The variant is attributed to the loop. -/
theorem ends_variant {index : NodeId} {symbol : Symbol} (name : String)
    (isIndex : before.kindAt index = some (.symbol symbol))
    (outside : ¬ before.Contains body index) :
    Ends (Edit.withLocationOf loop (Edit.newGpuVariant name ⟨index, iterators, body⟩)) before
      fun block after => Pieces before [block] after ∧
        IsGpuVariant before after name ⟨index, iterators, body⟩ symbol lows[0]? block := by
  obtain ⟨node, found, _⟩ := get?_of_kindAt isLoop
  have holdsBody : before.Holds loop body := by
    simp [Holds, held_eq_of_kindAt isLoop, Kind.owned, Stmt.owned]
  have entered : Pieces before [] { before with givenLocation? := some node.location } :=
    (Pieces.start wellFormed).frame rfl rfl rfl
  have lowExpr : ∀ low ∈ lows[0]?, (before.kindAt low).any Kind.isExpr := fun low isLow =>
    exprs low (Array.mem_of_getElem? isLow)
  obtain ⟨block, built, run, pieces, variant⟩ :
      Ends (Edit.newGpuVariant name ⟨index, iterators, body⟩) _ _ :=
    entered.ends_newGpuVariant name isIndex isIterators lowExpr
      (wellFormed.orderly.issued_of_held trivial holdsBody) outside
  have left : Pieces before [block] { built with givenLocation? := before.givenLocation? } :=
    pieces.frame rfl rfl rfl
  have same : Addition before built { built with givenLocation? := before.givenLocation? } :=
    .of_nodes pieces.past rfl
  exact ⟨block, _, yields_withLocationOf.mpr ⟨node, built, found, run, rfl⟩, left,
    variant.keep same⟩

include isIndices

/-- What the default outliner does with a loop. -/
theorem outlines
    (symbols : ∀ use ∈ uses, ∀ index, before.kindAt use = some (.expr (.use index)) →
      (before.kindAt index).any Kind.isSymbol)
    (outside : ∀ use index, uses = #[use] → before.kindAt use = some (.expr (.use index)) →
      ¬ before.Contains body index)
    (builder : GpuLoopBuilder) :
    ∃ block? later after,
      Yields (GpuLoopBuilder.outline loop builder) before (block?, later) after ∧
      (block?.isSome ↔ before.Outlinable uses body) ∧
      (block? = none → later = builder ∧ after = before) ∧
      ∀ block, block? = some block → later.built = builder.built + 1 ∧
        Extends before after ∧ after.Unattached block ∧
        ∃ use index symbol, uses = #[use] ∧ before.kindAt use = some (.expr (.use index)) ∧
          before.kindAt index = some (.symbol symbol) ∧
          IsGpuVariant before after ("gpu_func_" ++ toString (builder.built + 1))
            ⟨index, iterators, body⟩ symbol lows[0]? block := by
  obtain ⟨parts?, looked, parts_iff, isParts⟩ := wellFormed.exists_loopParts isLoop isIndices
  cases parts? with
  | none =>
    refine ⟨none, builder, before, ?_, parts_iff, fun _ => ⟨rfl, rfl⟩, nofun⟩
    exact yields_bind.mpr ⟨none, before, yields_look.mpr ⟨looked, rfl⟩, yields_pure.mpr ⟨rfl, rfl⟩⟩
  | some parts =>
    obtain ⟨use, index, rfl, rfl, isUse⟩ := isParts parts rfl
    obtain ⟨symbol, isIndex⟩ := exists_symbol (symbols use (by simp) index isUse)
    obtain ⟨block, after, run, variant⟩ := ends_variant wellFormed isLoop isIterators exprs
      ("gpu_func_" ++ toString (builder.built + 1)) isIndex (outside use index rfl isUse)
    obtain ⟨pieces, variant⟩ := variant
    refine ⟨some block, ⟨builder.built + 1⟩, after, ?_, ⟨fun _ => parts_iff.mp rfl, fun _ => rfl⟩,
      nofun, ?_⟩
    · exact yields_bind.mpr ⟨_, before, yields_look.mpr ⟨looked, rfl⟩,
        yields_bind.mpr ⟨block, after, run, yields_pure.mpr ⟨rfl, rfl⟩⟩⟩
    · rintro _ ⟨⟩
      exact ⟨rfl, pieces.extended, pieces.unattached block (by simp), use, index, symbol, rfl, isUse,
        isIndex, variant⟩

/-- The default outliner answers, unless the body of a loop with a variant holds the index. -/
theorem answers_iff
    (symbols : ∀ use ∈ uses, ∀ index, before.kindAt use = some (.expr (.use index)) →
      (before.kindAt index).any Kind.isSymbol)
    (builder : GpuLoopBuilder) :
    (∃ answer after, Yields (GpuLoopBuilder.outline loop builder) before answer after) ↔
      ∀ use index, before.Outlinable uses body → uses = #[use] →
        before.kindAt use = some (.expr (.use index)) → ¬ before.Contains body index := by
  obtain ⟨parts?, looked, parts_iff, isParts⟩ := wellFormed.exists_loopParts isLoop isIndices
  constructor
  · rintro ⟨answer, after, run⟩ use index outlinable rfl isUse contained
    obtain ⟨parts, rfl⟩ := Option.isSome_iff_exists.mp (parts_iff.mpr outlinable)
    obtain ⟨other, found, rfl, same, isFound⟩ := isParts parts rfl
    obtain rfl : use = other := by simpa using same
    obtain rfl : index = found := by simpa [isUse] using isFound
    obtain ⟨_, _, looking, run⟩ := yields_bind.mp run
    obtain ⟨answered, rfl⟩ := yields_look.mp looking
    obtain rfl := Except.ok.inj (looked.symm.trans answered)
    obtain ⟨block, later, building, -⟩ := yields_bind.mp run
    obtain ⟨node, built, _, running, -⟩ := yields_withLocationOf.mp building
    exact not_yields_newGpuVariant contained running
  · intro outside
    by_cases outlinable : before.Outlinable uses body
    · obtain ⟨block?, later, after, run, -⟩ := outlines wellFormed isLoop isIndices isIterators exprs
        symbols (fun use index => outside use index outlinable) builder
      exact ⟨_, after, run⟩
    · obtain rfl := Option.not_isSome_iff_eq_none.mp (mt parts_iff.mp outlinable)
      exact ⟨_, before, yields_bind.mpr ⟨none, before, yields_look.mpr ⟨looked, rfl⟩,
        yields_pure.mpr ⟨rfl, rfl⟩⟩⟩

end Outlining

/-- A loop from three on that sets a variable of its body to the index. -/
def loopFromThree : Program := Edit.making do
  let index ← newVar "i" (some PrimitiveType.int.id)
  let defineIndex ← define index
  let var ← newVar "x" none
  let defineVar ← define var
  let set ← newPrimitiveCall .move [var, index]
  let body ← newBlock [defineVar, set]
  let low ← newInt 3
  let loop ← newForLoop [index] [low] body true
  let module ← newModule "m" .user [defineIndex, loop]
  addModule module

theorem outlines_loopFromThree :
    WellFormed loopFromThree ∧ loopFromThree.Outlinable #[⟨26⟩] ⟨24⟩ ∧
      ∃ block later after,
        Yields (GpuLoopBuilder.outline ⟨29⟩ {}) loopFromThree (some block, later) after ∧
        later.built = 1 ∧ Extends loopFromThree after ∧ after.Unattached block ∧
        ∃ symbol, loopFromThree.kindAt ⟨13⟩ = some (.symbol symbol) ∧
          IsGpuVariant loopFromThree after "gpu_func_1" ⟨⟨13⟩, ⟨28⟩, ⟨24⟩⟩ symbol (some ⟨25⟩)
            block := by
  have standsUp : loopFromThree.StandsUp ⟨33⟩ := by decide +kernel
  have wellFormed := standsUp.inspected.wellFormed
  have used : loopFromThree.kindAt ⟨26⟩ = some (.expr (.use ⟨13⟩)) := by decide +kernel
  have outlinable : loopFromThree.Outlinable #[⟨26⟩] ⟨24⟩ :=
    wellFormed.outlinable used (by decide +kernel) (Fault.toOption_eq_some.mp (by decide +kernel))
  have usesIndex : ∀ {use index}, use ∈ #[(⟨26⟩ : NodeId)] →
      loopFromThree.kindAt use = some (.expr (.use index)) → index = ⟨13⟩ := by
    intro use index member isUse
    obtain rfl : use = ⟨26⟩ := by simpa using member
    simpa [used, eq_comm] using isUse
  have outside : ¬ loopFromThree.Contains ⟨24⟩ ⟨13⟩ := fun contained =>
    absurd (mem_nodesBelow_of_contains (by decide +kernel) contained) (by decide +kernel)
  have isLoop : loopFromThree.kindAt ⟨29⟩ = some (.stmt (.forLoop ⟨27⟩ ⟨28⟩ ⟨24⟩ true)) := by
    decide +kernel
  have isIndices : loopFromThree.kindAt ⟨27⟩ = some (.list .exprs #[⟨26⟩]) := by decide +kernel
  have isIterators : loopFromThree.kindAt ⟨28⟩ = some (.list .exprs #[⟨25⟩]) := by decide +kernel
  obtain ⟨block?, later, after, run, block_iff, -, outlined⟩ :=
    outlines wellFormed isLoop isIndices isIterators (by decide +kernel)
      (fun use member index isUse => usesIndex member isUse ▸ by decide +kernel)
      (fun use index same isUse => usesIndex (by simp [same]) isUse ▸ outside) {}
  obtain ⟨block, rfl⟩ := Option.isSome_iff_exists.mp (block_iff.mpr outlinable)
  obtain ⟨isNext, extended, unattached, use, index, symbol, same, isUse, known, variant⟩ :=
    outlined block rfl
  obtain rfl := usesIndex (by simp [same]) isUse
  exact ⟨wellFormed, outlinable, block, later, after, run, isNext, extended, unattached, symbol,
    known, variant⟩

/-- The index of the loop is a statement of its body. -/
def indexAsStatement : Program := Edit.making do
  let index ← newVar "i" none
  let body ← newBlock [index]
  let loop ← newForLoop [index] [] body true
  let module ← newModule "m" .user [loop]
  addModule module

/-- The index is not defined in the body, but it lies there: the copy of the body takes over the
variable that is to be defined outside. -/
theorem not_outlines_indexAsStatement :
    WellFormed indexAsStatement ∧ indexAsStatement.Reachable ⟨19⟩ ∧
      indexAsStatement.kindAt ⟨19⟩ = some (.stmt (.forLoop ⟨17⟩ ⟨18⟩ ⟨15⟩ true)) ∧
      indexAsStatement.kindAt ⟨17⟩ = some (.list .exprs #[⟨16⟩]) ∧
      indexAsStatement.kindAt ⟨18⟩ = some (.list .exprs #[]) ∧
      indexAsStatement.kindAt ⟨16⟩ = some (.expr (.use ⟨13⟩)) ∧
      (indexAsStatement.kindAt ⟨13⟩).any Kind.isSymbol ∧
      indexAsStatement.Outlinable #[⟨16⟩] ⟨15⟩ ∧
      (∀ id init? type?, indexAsStatement.Contains ⟨15⟩ id →
        indexAsStatement.kindAt id ≠ some (.expr (.definition ⟨13⟩ init? type?))) ∧
      ∀ answer after, ¬ Yields (GpuLoopBuilder.outline ⟨19⟩ {}) indexAsStatement answer after := by
  have standsUp : indexAsStatement.StandsUp ⟨22⟩ := by decide +kernel
  have inspected := standsUp.inspected
  have used : indexAsStatement.kindAt ⟨16⟩ = some (.expr (.use ⟨13⟩)) := by decide +kernel
  have fails : (GpuLoopBuilder.outline ⟨19⟩ {} indexAsStatement).isOk = false := by decide +kernel
  refine ⟨inspected.wellFormed, inspected.reachable_iff.mpr (by decide +kernel),
    by decide +kernel, by decide +kernel, by decide +kernel, used, by decide +kernel,
    inspected.wellFormed.outlinable used (by decide +kernel)
      (Fault.toOption_eq_some.mp (by decide +kernel)), ?_, ?_⟩
  · intro id init? type? contained isDefinition
    have noExpr : ∀ id ∈ indexAsStatement.nodesBelow ⟨15⟩,
        ¬ (indexAsStatement.kindAt id).any Kind.isExpr := by decide +kernel
    refine noExpr id (mem_nodesBelow_of_contains (by decide +kernel) contained) ?_
    rw [isDefinition]
    rfl
  · intro answer after run
    rw [show _ = _ from run] at fails
    cases fails

end GpuLoopBuilder

end ProgramTree
