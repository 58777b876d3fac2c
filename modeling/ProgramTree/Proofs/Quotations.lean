import ProgramTree.Proofs.Dispatching
import ProgramTree.Proofs.FirstCallers
import ProgramTree.Proofs.GpuIterations

/-!
# Quotations

When a loop is outlined, new code takes its place.  Of the functions that were there before, the
new code calls only those that the loop calls: its calls are copies of calls in the loop, apart
from the one call of the new function.  Everything outside the loop stays where it is.
-/

namespace ProgramTree

open Program Edit Relation

namespace Kind

variable {own link : NodeId → NodeId} {kind : Kind} {base args sym indices iterators body : NodeId}
  {independent : Bool}

/-- Whether it is a call of what an expression names. -/
def callsNamed : Kind → Bool
  | .expr (.call (.expr _) _) => true
  | _ => false

theorem renamed_eq_call (same : kind.renamed own link = .expr (.call (.expr base) args)) :
    ∃ first second, kind = .expr (.call (.expr first) second) ∧ own first = base := by
  cases kind with
  | expr expr =>
    cases expr with
    | call callee second =>
      cases callee with
      | expr first =>
        simp only [renamed, Expr.renamed, Callee.renamed, Kind.expr.injEq, Expr.call.injEq,
          Callee.expr.injEq] at same
        exact ⟨first, second, rfl, same.1⟩
      | primitive => simp [renamed, Expr.renamed, Callee.renamed] at same
    | _ => simp [renamed, Expr.renamed] at same
  | _ => simp [renamed] at same

theorem renamed_eq_use (same : kind.renamed own link = .expr (.use sym)) :
    ∃ var, kind = .expr (.use var) ∧ link var = sym := by
  cases kind with
  | expr expr =>
    cases expr with
    | use var =>
      simp only [renamed, Expr.renamed, Kind.expr.injEq, Expr.use.injEq] at same
      exact ⟨var, rfl, same⟩
    | _ => simp [renamed, Expr.renamed] at same
  | _ => simp [renamed] at same

theorem renamed_eq_forLoop
    (same : kind.renamed own link = .stmt (.forLoop indices iterators body independent)) :
    ∃ first second third, kind = .stmt (.forLoop first second third independent) ∧
      own second = iterators := by
  cases kind with
  | stmt stmt =>
    cases stmt with
    | forLoop first second third flag =>
      simp only [renamed, Stmt.renamed, Kind.stmt.injEq, Stmt.forLoop.injEq] at same
      obtain ⟨_, isIterators, _, rfl⟩ := same
      exact ⟨first, second, third, rfl, isIterators⟩
    | _ => simp [renamed, Stmt.renamed] at same
  | _ => simp [renamed] at same

end Kind

namespace Program

/-- Of the functions that were there before, the node calls only what the loop calls. -/
def Quotes (origin program : Program) (loop id : NodeId) : Prop :=
  ∀ fn, program.Invokes id fn → ¬ origin.New fn →
    ∃ call, origin.Contains loop call ∧ origin.Invokes call fn

/-- All that is below the node calls only what the loop calls. -/
def QuotesBelow (origin program : Program) (loop top : NodeId) : Prop :=
  ∀ id, program.Contains top id → Quotes origin program loop id

variable {origin program before between after : Program}
  {id sym value top copy loop variant block choice fn : NodeId} {kind : Kind} {symbol : Symbol}
  {operation : Primitive} {ids args : List NodeId}

/-! ## Calls in new code -/

theorem quotes_of_kindAt (known : program.kindAt id = some kind)
    (noCall : kind.callsNamed = false) : Quotes origin program loop id := by
  rintro fn ⟨base, args, isCall, _⟩
  obtain rfl := Option.some.inj (known.symm.trans isCall)
  cases noCall

theorem quotesBelow_of_kindAt (known : program.kindAt id = some kind)
    (here : Quotes origin program loop id)
    (below : ∀ child ∈ kind.owned, QuotesBelow origin program loop child) :
    QuotesBelow origin program loop id := by
  intro other contained
  rcases contained.cases_head with rfl | ⟨child, holds, further⟩
  · exact here
  · rw [Holds, held_eq_of_kindAt known] at holds
    exact below child holds other further

theorem Added.quotes (added : Added origin program id kind)
    (noCall : kind.callsNamed = false)
    (below : ∀ child ∈ kind.owned, QuotesBelow origin program loop child) :
    QuotesBelow origin program loop id :=
  quotesBelow_of_kindAt added.known (quotes_of_kindAt added.known noCall) below

theorem IsUse.quotes (isUse : IsUse origin program id sym) : QuotesBelow origin program loop id :=
  Added.quotes isUse rfl (by simp [Kind.owned, Expr.owned])

theorem Calls.quotes (calls : Calls origin program operation id args)
    (below : ∀ arg ∈ args, QuotesBelow origin program loop arg) :
    QuotesBelow origin program loop id := by
  obtain ⟨list, isCall, isList⟩ := calls
  have areArgs : QuotesBelow origin program loop list :=
    isList.quotes rfl (by simpa [Kind.owned] using below)
  exact isCall.quotes rfl (by simpa [Kind.owned, Expr.owned] using areArgs)

theorem Sets.quotes (sets : Sets origin program id sym value)
    (below : QuotesBelow origin program loop value) : QuotesBelow origin program loop id := by
  obtain ⟨use, calls, isUse⟩ := sets
  exact calls.quotes (by simpa using ⟨IsUse.quotes isUse, below⟩)

theorem Declares.quotes (declares : Declares origin program id sym symbol)
    (below : ∀ child ∈ symbol.kind.owned, QuotesBelow origin program loop child) :
    QuotesBelow origin program loop id := by
  have isSymbol : QuotesBelow origin program loop sym :=
    declares.defined.quotes rfl (by simpa [Kind.owned] using below)
  exact declares.defines.quotes rfl (by simpa [Kind.owned, Expr.owned] using isSymbol)

theorem IsStmtOf.quotes {stmt : NodeId} (isStmt : IsStmtOf origin program id stmt)
    (below : QuotesBelow origin program loop id) : QuotesBelow origin program loop stmt := by
  cases isStmt with
  | wrapped _ wrapper => exact wrapper.quotes rfl (by simpa [Kind.owned, Stmt.owned] using below)
  | bare => exact below

theorem quotes_of_stmts {stmts : List NodeId}
    (areStmts : List.Forall₂ (IsStmtOf origin program) ids stmts)
    (below : ∀ id ∈ ids, QuotesBelow origin program loop id) :
    ∀ stmt ∈ stmts, QuotesBelow origin program loop stmt := by
  induction areStmts with
  | nil => simp
  | cons isStmt _ ih =>
    obtain ⟨belowFirst, belowRest⟩ := List.forall_mem_cons.mp below
    exact List.forall_mem_cons.mpr ⟨isStmt.quotes belowFirst, ih belowRest⟩

theorem IsBlockOf.quotes (isBlock : IsBlockOf origin program ids block)
    (below : ∀ id ∈ ids, QuotesBelow origin program loop id) :
    QuotesBelow origin program loop block := by
  obtain ⟨list, stmts, isBlock, isList, areStmts⟩ := isBlock
  have quotesList : QuotesBelow origin program loop list :=
    isList.quotes rfl (by simpa [Kind.owned] using quotes_of_stmts areStmts below)
  exact isBlock.quotes rfl (by simpa [Kind.owned, Stmt.owned] using quotesList)

/-- A copy of a part of the loop calls what the part calls, or something new. -/
theorem HasCopy.quotes {outer : NodeId → NodeId} (copies : HasCopy origin program outer top copy)
    (inLoop : origin.Contains loop top)
    (keeps : ∀ target, outer target = target ∨ origin.New (outer target)) :
    QuotesBelow origin program loop copy := by
  obtain ⟨image, link, isCopy⟩ := copies
  rintro id contained fn ⟨base, args, isCall, uses⟩ old
  have copied : ∀ {original}, origin.Contains top original → ∃ kind,
      origin.kindAt original = some kind ∧
        program.kindAt (image original) = some (kind.renamed image link) := by
    intro original below
    obtain ⟨node, found⟩ := Option.isSome_iff_exists.mp (isCopy.issued original below)
    exact ⟨node.kind, kindAt_eq found, isCopy.kind original _ below (kindAt_eq found)⟩
  obtain ⟨call, below, rfl⟩ := isCopy.bijective.surjOn contained
  obtain ⟨kind, known, isImage⟩ := copied below
  obtain ⟨first, second, rfl, rfl⟩ :=
    Kind.renamed_eq_call (Option.some.inj (isImage.symm.trans isCall))
  have holds : origin.Holds call first := by
    simp [Holds, held_eq_of_kindAt known, Kind.owned, Expr.owned]
  obtain ⟨kind, isBase, isImage⟩ := copied (below.tail holds)
  obtain ⟨var, rfl, rfl⟩ := Kind.renamed_eq_use (Option.some.inj (isImage.symm.trans uses))
  by_cases inside : origin.Contains top var
  · rw [isCopy.link_inside var inside] at old
    exact absurd (isCopy.new var inside) old
  · rw [isCopy.link_outside var inside] at old ⊢
    rcases keeps var with same | new
    · exact ⟨call, inLoop.trans below, first, second, known, same.symm ▸ isBase⟩
    · exact absurd new old

theorem StartsAt.quotes {threadIndex start : NodeId} {low? : Option NodeId}
    (starts : StartsAt origin program threadIndex start low?)
    (inLoop : ∀ low ∈ low?, origin.Contains loop low) : QuotesBelow origin program loop start := by
  cases starts with
  | unbounded use => exact IsUse.quotes use
  | bounded copies adds use =>
    have quotesLow := copies.quotes (inLoop _ rfl) fun _ => .inl rfl
    exact adds.quotes (by simpa using ⟨quotesLow, IsUse.quotes use⟩)

section Variants

variable {parts : LoopParts} {index : Symbol} {low? : Option NodeId}
  (inBody : origin.Contains loop parts.body) (inLow : ∀ low ∈ low?, origin.Contains loop low)
include inBody inLow

theorem IsIteration.quotes (iteration : IsIteration origin program parts index low? ids) :
    ∀ id ∈ ids, QuotesBelow origin program loop id := by
  obtain ⟨defineThread, setThread, defineLocal, setLocal, copy, threadIndex, globalId, localIndex,
    start, rfl, declaresThread, setsThread, asks, declaresLocal, setsLocal, starts, copies⟩ := iteration
  have noChild : ∀ child ∈ (SymbolKind.var).owned, QuotesBelow origin program loop child := by
    simp [SymbolKind.owned]
  have quotesBody := copies.quotes inBody fun target => by
    by_cases isIndex : target = parts.index
    · rw [isIndex, Function.update_self]
      exact .inr declaresLocal.defined.new
    · exact .inl (Function.update_of_ne isIndex _ _)
  simp only [List.forall_mem_cons, List.not_mem_nil, false_implies, implies_true, and_true]
  exact ⟨declaresThread.quotes noChild, setsThread.quotes (asks.quotes (by simp)),
    declaresLocal.quotes noChild, setsLocal.quotes (starts.quotes inLow), quotesBody⟩

/-- The variant calls the new function, and otherwise what the loop calls. -/
theorem IsGpuVariant.quotes {name : String}
    (isVariant : IsGpuVariant origin program name parts index low? block) :
    QuotesBelow origin program loop block := by
  obtain ⟨definition, call, fn, formals, body, stmts, use, args, isBlock, declares, isFormals, isBody,
    iteration, isCall, isUse, isArgs⟩ := isVariant
  have quotesFn : QuotesBelow origin program loop definition := declares.quotes (by
    simp only [SymbolKind.owned, Option.toList_none, List.append_nil, List.forall_mem_cons,
      List.not_mem_nil, false_implies, implies_true, and_true]
    exact ⟨isFormals.quotes rfl (by simp [Kind.owned]),
      isBody.quotes (iteration.quotes inBody inLow)⟩)
  have quotesCall : QuotesBelow origin program loop call := by
    refine quotesBelow_of_kindAt isCall.known ?_ ?_
    · rintro called ⟨base, _, known, uses⟩ old
      obtain ⟨rfl, _⟩ : use = base ∧ _ := by simpa [isCall.known] using known
      obtain rfl : fn = called := by simpa [Uses, isUse.known] using uses
      exact absurd declares.defined.new old
    · simp only [Kind.owned, Expr.owned, List.forall_mem_cons, List.not_mem_nil, false_implies,
        implies_true, and_true]
      exact ⟨IsUse.quotes isUse, isArgs.quotes rfl (by simp [Kind.owned])⟩
  exact isBlock.quotes (by simpa using ⟨quotesFn, quotesCall⟩)

end Variants

theorem IsDispatch.quotes (isDispatch : IsDispatch origin program loop variant block choice copy)
    (quotesVariant : QuotesBelow origin program loop variant) :
    QuotesBelow origin program loop block := by
  obtain ⟨list, first, second, definition, onGpu, set, query, condition, isBlock, isList, isFirst,
    declares, isSecond, sets, asks, isChoice, isUse, copies⟩ := isDispatch
  have quotesDefinition : QuotesBelow origin program loop definition :=
    declares.quotes (by simp [SymbolKind.owned])
  have quotesSet : QuotesBelow origin program loop set := sets.quotes (asks.quotes (by simp))
  have quotesCopy := copies.quotes .refl fun _ => .inl rfl
  have quotesChoice : QuotesBelow origin program loop choice := by
    refine isChoice.quotes rfl ?_
    simpa [Kind.owned, Stmt.owned] using ⟨IsUse.quotes isUse, quotesVariant, quotesCopy⟩
  have quotesList : QuotesBelow origin program loop list := by
    refine isList.quotes rfl ?_
    simp only [Kind.owned, List.forall_mem_cons, List.not_mem_nil, false_implies, implies_true,
      and_true]
    exact ⟨isFirst.quotes rfl (by simpa [Kind.owned, Stmt.owned] using quotesDefinition),
      isSecond.quotes rfl (by simpa [Kind.owned, Stmt.owned] using quotesSet), quotesChoice⟩
  exact isBlock.quotes rfl (by simpa [Kind.owned, Stmt.owned] using quotesList)

/-! ## The block beside the tree -/

theorem QuotesBelow.of_kinds (quotes : QuotesBelow origin before loop top)
    (kinds : ∀ id, before.Contains top id → after.kindAt id = before.kindAt id) :
    QuotesBelow origin after loop top := by
  intro id contained
  have below : before.Contains top id := by
    induction contained with
    | refl => exact .refl
    | @tail holder child _ holds ih =>
      rw [Holds, held, kinds holder ih, ← held] at holds
      exact ih.tail holds
  rintro fn ⟨base, args, isCall, uses⟩ old
  rw [kinds id below] at isCall
  have holds : before.Holds id base := by
    simp [Holds, held_eq_of_kindAt isCall, Kind.owned, Expr.owned]
  rw [Uses, kinds base (below.tail holds)] at uses
  exact quotes id below fn ⟨base, args, isCall, uses⟩ old

section Extending

variable (extended : Extends before between) (wellFormed : WellFormed before)
include extended

theorem Extends.past (new : between.New id) : before.New id := by
  by_contra old
  obtain ⟨node, found⟩ := Option.ne_none_iff_exists'.mp old
  rw [New, extended.old found] at new
  cases new

include wellFormed

/-- What was there before hangs where it hung, so no new node contains it. -/
theorem Extends.new_of_contains (wellFormedBetween : WellFormed between) (new : before.New top)
    (contained : between.Contains top id) : before.New id := by
  induction contained with
  | refl => exact new
  | @tail holder child _ holds ih =>
    by_contra old
    have named := (wellFormedBetween.parent_iff holder child).mp holds
    rw [extended.same_parent (Option.isSome_iff_ne_none.mpr old)] at named
    exact Option.isSome_iff_ne_none.mp ((wellFormed.parent_iff holder child).mpr named).issued ih

variable (issued : (before.get? top).isSome)
include issued

theorem Extends.same_below : between.Contains top id ↔ before.Contains top id :=
  extended.contains_iff fun _ => wellFormed.orderly.forest.issued_of_contains trivial issued

theorem HasCopy.past {outer : NodeId → NodeId} (copies : HasCopy between after outer top copy) :
    HasCopy before after outer top copy := by
  obtain ⟨image, link, isCopy⟩ := copies
  have same_below : ∀ {id}, between.Contains top id ↔ before.Contains top id :=
    extended.same_below wellFormed issued
  have old := fun id below => wellFormed.orderly.forest.issued_of_contains trivial issued
    (show before.Contains top id from below)
  have sameNodes : { id | between.Contains top id } = { id | before.Contains top id } :=
    Set.ext fun _ => same_below
  refine ⟨image, link, ⟨old, isCopy.top_image, sameNodes ▸ isCopy.bijective, ?_, ?_, ?_, ?_⟩⟩
  · exact fun id below => extended.past (isCopy.new id (same_below.mpr below))
  · intro id kind below known
    rw [← extended.same_kind (old id below)] at known
    exact isCopy.kind id kind (same_below.mpr below) known
  · exact fun target inside => isCopy.link_inside target (same_below.mpr inside)
  · exact fun target outside => isCopy.link_outside target (mt same_below.mp outside)

end Extending

theorem IsDispatch.past (isDispatch : IsDispatch between after loop variant block choice copy)
    (extended : Extends before between) (wellFormed : WellFormed before)
    (issued : (before.get? loop).isSome) :
    IsDispatch before after loop variant block choice copy := by
  obtain ⟨list, first, second, definition, onGpu, set, query, condition, isBlock, isList, isFirst,
    ⟨defines, defined⟩, isSecond, ⟨use, ⟨setArgs, isSet, isSetArgs⟩, isSetUse⟩,
    ⟨queryArgs, isQuery, isQueryArgs⟩, isChoice, isUse, copies⟩ := isDispatch
  have past : ∀ {id kind}, Added between after id kind → Added before after id kind :=
    fun added => ⟨extended.past added.new, added.known⟩
  exact ⟨list, first, second, definition, onGpu, set, query, condition, past isBlock, past isList,
    past isFirst, ⟨past defines, past defined⟩, past isSecond,
    ⟨use, ⟨setArgs, past isSet, past isSetArgs⟩, past isSetUse⟩,
    ⟨queryArgs, past isQuery, past isQueryArgs⟩, past isChoice, past isUse,
    copies.past extended wellFormed issued⟩

/-! ## The new tree -/

/-- New code has taken the place of the loop.  What lies outside the loop stays where it is. -/
structure Outlined (before : Program) (loop : NodeId) (after : Program) : Prop where
  wellFormed : WellFormed after
  /-- The slot that held the loop holds a new block. -/
  kinds : ∃ block, before.New block ∧ ∀ id, (before.get? id).isSome →
    after.kindAt id = (before.kindAt id).map (·.mapOwned fun child =>
      if child = loop then block else child)
  stays : ∀ id, before.Reachable id → ¬ before.Contains loop id →
    after.Reachable id ∧ after.contextOf id = before.contextOf id
  stayed : ∀ id, (before.get? id).isSome → after.Reachable id →
    before.Reachable id ∧ ¬ before.Contains loop id ∧ after.parentOf id = before.parentOf id
  /-- Of the functions that were there before, the new code calls only what the loop calls. -/
  calls : ∀ call fn, after.Reachable call → after.Invokes call fn → ¬ before.New fn →
    ¬ before.New call ∧ before.Invokes call fn ∨
      before.New call ∧ ∃ original, before.Contains loop original ∧ before.Invokes original fn

section Outlining

variable {holder : NodeId} (extended : Extends before between) (wellFormed : WellFormed before)
  (wellFormedBetween : WellFormed between) (new : before.New variant)
  (named : before.parentOf loop = some holder)
  (dispatched : Dispatched between holder loop variant block choice after)
include extended wellFormed wellFormedBetween new named dispatched

/-- Outside the loop only a slot of its holder changes. -/
theorem Dispatched.outside (issued : (before.get? id).isSome)
    (outside : ¬ before.Contains loop id) :
    after.get? id = (before.get? id).map fun node =>
      { node with kind := node.kind.mapOwned fun child => if child = loop then block else child } := by
  have issuedLoop := wellFormed.orderly.issued_of_held trivial
    ((wellFormed.parent_iff holder loop).mpr named)
  by_cases isHolder : id = holder
  · rw [isHolder, dispatched.place, extended.same_node (isHolder ▸ issued)]
  · have notVariant : ¬ between.Contains variant id := fun contained =>
      Option.isSome_iff_ne_none.mp issued
        (extended.new_of_contains wellFormed wellFormedBetween new contained)
    have issuedBetween : (between.get? id).isSome := by rwa [extended.same_node issued]
    rw [dispatched.others id issuedBetween isHolder
      (mt (extended.same_below wellFormed issuedLoop).mp outside) notVariant,
      extended.same_node issued]
    obtain ⟨node, found⟩ := Option.isSome_iff_exists.mp issued
    rw [found, Option.map_some, Kind.mapOwned_eq_self fun child owned => if_neg ?_]
    rintro rfl
    have holds : before.Holds id child := by rwa [Holds, held_eq found]
    exact isHolder (Option.some.inj (((wellFormed.parent_iff id child).mp holds).symm.trans named))

theorem Dispatched.parents (issued : (before.get? id).isSome)
    (outside : ¬ before.Contains loop id) : after.parentOf id = before.parentOf id := by
  rw [parentOf, dispatched.outside extended wellFormed wellFormedBetween new named issued outside]
  cases found : before.get? id <;> simp [parentOf, found]

theorem Dispatched.kinds (issued : (before.get? id).isSome) :
    after.kindAt id = (before.kindAt id).map (·.mapOwned fun child =>
      if child = loop then block else child) := by
  have issuedLoop := wellFormed.orderly.issued_of_held trivial
    ((wellFormed.parent_iff holder loop).mpr named)
  by_cases inside : before.Contains loop id
  · rw [kindAt, dispatched.loopOut id ((extended.same_below wellFormed issuedLoop).mpr inside),
      extended.same_node issued, kindAt]
    obtain ⟨node, found⟩ := Option.isSome_iff_exists.mp issued
    simp only [found, Option.map_some, Option.some.injEq]
    rw [Kind.mapOwned_eq_self fun child owned => if_neg ?_]
    rintro rfl
    have holds : before.Holds id child := by rwa [Holds, held_eq found]
    exact wellFormed.acyclic child (.tail' inside holds)
  · rw [kindAt, dispatched.outside extended wellFormed wellFormedBetween new named issued inside,
      kindAt, Option.map_map, Option.map_map]
    rfl

theorem Dispatched.stays (reachable : before.Reachable id) (outside : ¬ before.Contains loop id) :
    after.Reachable id ∧ after.contextOf id = before.contextOf id := by
  have issued := wellFormed.orderly.issued_of_reachable reachable
  constructor
  · obtain ⟨root, isRoot, contained⟩ := reachable
    clear issued
    induction contained with
    | refl => exact .of_root (by rwa [dispatched.roots, extended.roots])
    | @tail parent child _ holds ih =>
      refine (ih fun inside => outside (inside.tail holds)).holds ?_
      obtain ⟨node, found⟩ := Option.isSome_iff_exists.mp holds.issued
      have kinds := dispatched.kinds extended wellFormed wellFormedBetween new named holds.issued
      rw [kindAt_eq found, Option.map_some] at kinds
      rw [Holds, held_eq found] at holds
      rw [Holds, held_eq_of_kindAt kinds, Kind.owned_mapOwned, List.mem_map]
      refine ⟨child, holds, if_neg ?_⟩
      rintro rfl
      exact outside .refl
  · rw [contextOf, dispatched.outside extended wellFormed wellFormedBetween new named issued outside,
      Option.map_map, contextOf]
    rfl

/-- What is new in the tree lies below the new block. -/
theorem Dispatched.contains_block (reachable : after.Reachable id) (isNew : before.New id) :
    after.Contains block id := by
  obtain ⟨root, isRoot, contained⟩ := reachable
  induction contained with
  | refl =>
    rw [dispatched.roots, extended.roots] at isRoot
    have issued := wellFormed.orderly.issued_of_reachable (.of_root isRoot)
    exact absurd isNew (Option.isSome_iff_ne_none.mp issued)
  | @tail parent child _ holds ih =>
    by_cases newParent : before.New parent
    · exact (ih newParent).tail holds
    · have issued := Option.isSome_iff_ne_none.mpr newParent
      obtain ⟨node, found⟩ := Option.isSome_iff_exists.mp issued
      have kinds := dispatched.kinds extended wellFormed wellFormedBetween new named issued
      rw [kindAt_eq found, Option.map_some] at kinds
      rw [Holds, held_eq_of_kindAt kinds, Kind.owned_mapOwned, List.mem_map] at holds
      obtain ⟨original, owned, same⟩ := holds
      split at same
      · exact same ▸ .refl
      · have holdsBefore : before.Holds parent original := by rwa [Holds, held_eq found]
        have issuedChild := wellFormed.orderly.issued_of_held trivial holdsBefore
        exact absurd isNew (Option.isSome_iff_ne_none.mp (same ▸ issuedChild))

variable (wellFormedAfter : WellFormed after)
include wellFormedAfter

/-- What was there before and is in the tree now lay in the tree outside the loop, and hangs where
it hung. -/
theorem Dispatched.stayed (issued : (before.get? id).isSome) (reachable : after.Reachable id) :
    before.Reachable id ∧ ¬ before.Contains loop id ∧ after.parentOf id = before.parentOf id := by
  obtain ⟨root, isRoot, contained⟩ := reachable
  induction contained with
  | refl =>
    rw [dispatched.roots, extended.roots] at isRoot
    have free := wellFormed.roots_free root isRoot
    have outside : ¬ before.Contains loop root := by
      intro inside
      obtain rfl := wellFormed.orderly.forest.eq_of_contains_free trivial inside free
      rw [free] at named
      cases named
    exact ⟨.of_root isRoot, outside,
      dispatched.parents extended wellFormed wellFormedBetween new named issued outside⟩
  | @tail parent child _ holds ih =>
    have isParent := (wellFormedAfter.parent_iff parent child).mp holds
    have issuedLoop := wellFormed.orderly.issued_of_held trivial
      ((wellFormed.parent_iff holder loop).mpr named)
    by_cases inside : before.Contains loop child
    · have out := dispatched.loopOut child ((extended.same_below wellFormed issuedLoop).mpr inside)
      rw [extended.same_node issued] at out
      obtain ⟨node, found⟩ := Option.isSome_iff_exists.mp issued
      rw [found, Option.map_some] at out
      rw [parentOf_eq out] at isParent
      split at isParent
      · cases isParent
      · rename_i notLoop
        obtain ⟨above, insideAbove, holdsChild⟩ := exists_holder_of_contains inside notLoop
        have isAbove := (wellFormed.parent_iff above child).mp holdsChild
        obtain rfl : above = parent :=
          Option.some.inj (isAbove.symm.trans ((parentOf_eq found).trans isParent))
        exact absurd insideAbove (ih holdsChild.issued).2.1
    · have same :=
        dispatched.parents extended wellFormed wellFormedBetween new named issued inside
      have holdsBefore := (wellFormed.parent_iff parent child).mpr (same ▸ isParent)
      exact ⟨(ih holdsBefore.issued).1.holds holdsBefore, inside, same⟩

/-- New code has taken the place of the loop. -/
theorem Dispatched.outlined (isDispatch : IsDispatch between after loop variant block choice copy)
    (quotes : QuotesBelow before between loop variant) :
    Outlined before loop after := by
  have holds := (wellFormed.parent_iff holder loop).mpr named
  have issuedLoop := wellFormed.orderly.issued_of_held trivial holds
  have isBlock := isDispatch.past extended wellFormed issuedLoop
  have quotesVariant : QuotesBelow before after loop variant := by
    refine quotes.of_kinds fun id below => ?_
    obtain ⟨context, into⟩ := dispatched.variantIn id below
    rw [kindAt, into, Option.map_map, kindAt]
    rfl
  have kinds : ∀ id, (before.get? id).isSome → after.kindAt id = (before.kindAt id).map (·.mapOwned
      fun child => if child = loop then block else child) := fun _ =>
    dispatched.kinds extended wellFormed wellFormedBetween new named
  refine ⟨wellFormedAfter, ⟨block, isBlock.new_block, kinds⟩,
    fun id => dispatched.stays extended wellFormed wellFormedBetween new named,
    fun id => dispatched.stayed extended wellFormed wellFormedBetween new named wellFormedAfter,
    fun call fn reachable invokes old => ?_⟩
  by_cases newCall : before.New call
  · exact .inr ⟨newCall, isBlock.quotes quotesVariant call
      (dispatched.contains_block extended wellFormed wellFormedBetween new named reachable newCall)
      fn invokes old⟩
  · obtain ⟨base, args, isCall, uses⟩ := invokes
    have same : ∀ {id kind}, ¬ before.New id → after.kindAt id = some kind →
        ∃ first, before.kindAt id = some first ∧
          first.renamed (fun child => if child = loop then block else child) (fun link => link) =
            kind := by
      intro id kind known isKind
      rw [kinds id (Option.isSome_iff_ne_none.mpr known), Option.map_eq_some_iff] at isKind
      simpa only [Kind.mapOwned_eq_renamed] using isKind
    obtain ⟨first, known, renamed⟩ := same newCall isCall
    obtain ⟨callee, second, rfl, rfl⟩ := Kind.renamed_eq_call renamed
    have holdsCallee : before.Holds call callee := by
      simp [Holds, held_eq_of_kindAt known, Kind.owned, Expr.owned]
    by_cases isLoop : callee = loop
    · obtain ⟨list, _, _, _, _, _, _, _, isBlock, _⟩ := isBlock
      simp [Uses, isLoop, isBlock.known] at uses
    · rw [if_neg isLoop] at uses
      have issued := wellFormed.orderly.issued_of_held trivial holdsCallee
      obtain ⟨use, isUse, renamed⟩ := same (Option.isSome_iff_ne_none.mp issued) uses
      obtain ⟨var, rfl, rfl⟩ := Kind.renamed_eq_use renamed
      exact .inl ⟨newCall, callee, second, known, isUse⟩

end Outlining

/-- What the loop runs between is a list of expressions. -/
def BoundedByExprs (program : Program) (loop : NodeId) : Prop :=
  ∀ {indices iterators body independent},
    program.kindAt loop = some (.stmt (.forLoop indices iterators body independent)) →
    ∃ holds lows, program.kindAt iterators = some (.list holds lows) ∧
      ∀ low ∈ lows, (program.kindAt low).any Kind.isExpr

theorem exists_symbol_of_newGpuVariant {name : String} {parts : LoopParts}
    (run : Yields (Edit.newGpuVariant name parts) before block after) :
    ∃ symbol, before.kindAt parts.index = some (.symbol symbol) := by
  simp only [Edit.newGpuVariant, Edit.newIteration, yields_bind, yields_look, symbol_eq_ok] at run
  obtain ⟨_, _, ⟨symbol, _, ⟨isIndex, _⟩, _⟩, _⟩ := run
  exact ⟨symbol, isIndex⟩

end Program

/-! ## The variant beside the tree -/

namespace Program

/-- The program is well-formed, and what was there before is of the kind that it was. -/
structure Annexed (origin program : Program) : Prop where
  wellFormed : WellFormed program
  kinds : SameKinds origin program

namespace Annexed

variable {origin before after : Program} {id top : NodeId} {seeds : Remap}
  {copied : Edit.Duplication} {parts : LoopParts}

theorem new_of_unissued (annexed : Annexed origin before) (unissued : before.New id) :
    origin.New id := by
  by_contra old
  obtain ⟨node, found⟩ := Option.ne_none_iff_exists'.mp old
  exact issued_of_kindAt (annexed.kinds id node.kind (kindAt_eq found)) unissued

theorem workshop (origin : Program) : Workshop origin.New (Annexed origin) where
  fresh annexed := annexed.new_of_unissued (get?_nextId _)
  grow annexed undefined pushed adopted known := by
    refine ⟨wellFormed_workshop.grow annexed.wellFormed undefined pushed adopted
      fun child owned => ⟨trivial, (known child owned).issued⟩, fun id kind isKind => ?_⟩
    rw [adopted.kindAt, pushed.kinds, annexed.kinds id kind isKind]
    rintro rfl
    exact issued_of_kindAt isKind (annexed.new_of_unissued (get?_nextId _))
  setKind {before changed _ _} annexed new known alike _ := by
    refine ⟨(orderly_setKind annexed.wellFormed.orderly known alike).wellFormed,
      fun id kind isKind => ?_⟩
    rw [kindAt_setKind known, if_neg, annexed.kinds id kind isKind]
    rintro rfl
    exact issued_of_kindAt isKind new
  frame {before after} annexed nodes roots index := by
    refine ⟨wellFormed_workshop.frame annexed.wellFormed nodes roots index, fun id kind isKind => ?_⟩
    rw [kindAt, get?, nodes, ← get?, ← kindAt, annexed.kinds id kind isKind]

variable (annexed : Annexed origin before)
include annexed

theorem duplicateWith (unseeded : ∀ id, before.Contains top id → id ∉ seeds)
    (run : Yields (Edit.duplicateWith top seeds [] false) before copied after) :
    Made origin.New (Annexed origin) before copied.duplicate after := by
  obtain ⟨issued, order, isTwin, duplicated⟩ :=
    duplicated_of_yields annexed.wellFormed.orderly.forest trivial unseeded run
  have extended := duplicated.extends_before
  obtain ⟨source, found⟩ := Option.isSome_iff_exists.mp issued
  refine ⟨⟨⟨(duplicated.orderly trivial issued annexed.wellFormed.orderly).wellFormed, ?_⟩,
    extended.since⟩, ?_, ?_⟩
  · intro id kind isKind
    have known := annexed.kinds id kind isKind
    rw [extended.same_kind (get?_isSome_of_kindAt known), known]
  · exact annexed.new_of_unissued (isTwin ▸ unissued_twin)
  · rw [isTwin, duplicated.copy (duplicated.mem_order.mpr .refl) found]
    rfl

/-- What was there contains what it contained. -/
theorem contains_iff (wellFormed : WellFormed origin) (issued : (origin.get? top).isSome) :
    before.Contains top id ↔ origin.Contains top id := by
  have same : ∀ {holder child}, (origin.get? holder).isSome →
      (before.Holds holder child ↔ origin.Holds holder child) := by
    intro holder child issued
    obtain ⟨node, found⟩ := Option.isSome_iff_exists.mp issued
    rw [Holds, held_eq_of_kindAt (annexed.kinds holder _ (kindAt_eq found)), Holds, held_eq found]
  constructor
  · intro contained
    induction contained with
    | refl => exact .refl
    | tail _ holds ih =>
      have issuedHolder := wellFormed.orderly.forest.issued_of_contains trivial issued ih
      exact ih.tail ((same issuedHolder).mp holds)
  · exact contains_mono fun _ _ holds => (same holds.issued).mpr holds

end Annexed

theorem Annexed.copies (wellFormed : WellFormed origin) (issued : (origin.get? parts.body).isSome)
    (outside : ¬ origin.Contains parts.body parts.index) :
    CopiesParts origin.New (Annexed origin) parts where
  body annexed _ run := annexed.duplicateWith (fun id below seeded =>
    outside (eq_index_of_seeded seeded ▸ (annexed.contains_iff wellFormed issued).mp below)) run
  low _ _ annexed run := by
    obtain ⟨copied, _, copying, isCopy, same⟩ := yields_bind.mp run
    exact annexed.duplicateWith (by simp) copying

end Program

namespace GpuLoopBuilder

variable {before between after : Program} {loop variant : NodeId} {builder left : GpuLoopBuilder}
  {done : Unit}

/-- A loop that is declined stays as it is. -/
theorem same_of_declined
    (run : Yields (GpuLoopBuilder.outline loop builder) before (none, left) after) :
    after = before := by
  obtain ⟨parts?, _, looked, run⟩ := yields_bind.mp run
  obtain ⟨_, rfl⟩ := yields_look.mp looked
  cases parts? with
  | none => exact (yields_pure.mp run).2
  | some parts =>
    simp only [yields_bind, yields_pure] at run
    obtain ⟨_, _, _, never, _⟩ := run
    cases never

/-- The variant is built beside the tree. -/
theorem annexed_of_outline (wellFormed : WellFormed before) (bounded : before.BoundedByExprs loop)
    (run : Yields (GpuLoopBuilder.outline loop builder) before (some variant, left) between) :
    WellFormed between ∧ Pieces before [variant] between ∧ QuotesBelow before between loop variant ∧
      ∃ body, Added before between variant (.stmt (.block body)) := by
  obtain ⟨parts?, start, looked, run⟩ := yields_bind.mp run
  obtain ⟨found, same⟩ := yields_look.mp looked
  subst start
  cases parts? with
  | none => cases (yields_pure.mp run).1
  | some parts =>
    simp only [yields_bind, yields_pure, Prod.mk.injEq, Option.some.injEq] at run
    obtain ⟨block, final, building, ⟨isBlock, _⟩, same⟩ := run
    subst block final
    obtain ⟨indices, independent, isLoop⟩ := exists_forLoop_of_loopParts? found
    obtain ⟨inIterators, inBody⟩ := contains_of_loopParts? found
    obtain ⟨node, built, _, running, same⟩ := yields_withLocationOf.mp building
    obtain ⟨symbol, isIndex⟩ := exists_symbol_of_newGpuVariant running
    obtain ⟨holds, lows, isIterators, areExprs⟩ := bounded isLoop
    have outside : ¬ before.Contains parts.body parts.index := by
      intro inside
      have inEntered : ({ before with givenLocation? := some node.location } : Program).Contains
          parts.body parts.index := inside
      exact not_yields_newGpuVariant inEntered running
    have issuedBody := (wellFormed.orderly.forest.issued_of_contains trivial
      (get?_isSome_of_kindAt isLoop) inBody)
    have annexed : Annexed before { before with givenLocation? := some node.location } :=
      (Annexed.workshop before).frame ⟨wellFormed, fun _ _ known => known⟩ rfl rfl rfl
    have made := ((Annexed.workshop before).newGpuVariant annexed
      (Annexed.copies wellFormed issuedBody outside) running).1
    have wellFormedBetween : WellFormed between := by
      subst same
      exact wellFormed_workshop.frame made.progress.kept.wellFormed rfl rfl rfl
    obtain ⟨block, after, again, pieces, isVariant⟩ := ends_variant wellFormed isLoop isIterators
      areExprs _ isIndex outside
    obtain ⟨same, sameAfter⟩ := Prod.mk.inj (Except.ok.inj (again.symm.trans building))
    subst block after
    have inLow : ∀ low ∈ lows[0]?, before.Contains loop low := fun low isLow =>
      inIterators.tail (by
        simpa [Holds, held_eq_of_kindAt isIterators, Kind.owned] using Array.mem_of_getElem? isLow)
    have quotes := isVariant.quotes inBody inLow
    obtain ⟨_, _, _, _, _, _, _, _, ⟨body, _, isBlock, _⟩, _⟩ := isVariant
    exact ⟨wellFormedBetween, pieces, quotes, body, isBlock⟩

/-- A loop for which there is a variant is outlined. -/
theorem outlined (wellFormed : WellFormed before) (reachable : before.Reachable loop)
    {stmt : Stmt} (isLoop : before.kindAt loop = some (.stmt stmt))
    (bounded : before.BoundedByExprs loop)
    (answered : Yields (GpuLoopBuilder.outline loop builder) before (some variant, left) between)
    (replaced : Yields (Edit.dispatch loop variant) between done after) :
    Outlined before loop after := by
  obtain ⟨wellFormedBetween, pieces, quotes, body, isBlock⟩ :=
    annexed_of_outline wellFormed bounded answered
  have extended := pieces.extended
  have issued := wellFormed.orderly.issued_of_reachable reachable
  have isStmt : (between.kindAt variant).any Kind.isStmt := by rw [isBlock.known]; rfl
  obtain ⟨holder, block, choice, copy, final, named, again, wellFormedAfter, isDispatch, dispatched⟩ :=
    exists_dispatched wellFormedBetween ((extended.same_kind issued).trans isLoop)
      ((wellFormed.orderly.reachable_of_extends extended).mpr reachable) isStmt
      (pieces.unattached variant (by simp))
  obtain ⟨_, same⟩ := Prod.mk.inj (Except.ok.inj (again.symm.trans replaced))
  subst final
  rw [extended.same_parent issued] at named
  exact dispatched.outlined extended wellFormed wellFormedBetween isBlock.new named wellFormedAfter
    isDispatch quotes

end GpuLoopBuilder

end ProgramTree
