import ProgramTree.Proofs.Quotations
import ProgramTree.Proofs.Reporting

/-!
# Candidates

The pass asks about a loop when its turn comes.  By then the loops before it have been decided on,
and where one was outlined, the calls in it have left the tree and copies have come in, which count
as later calls.  So a loop that is still in the tree is decided on as the tree was at first, if no
loop that was outlined before it contains the first call of a function that is asked on its behalf.
-/

namespace ProgramTree

open Program Edit Relation

namespace Kind

variable {own : NodeId → NodeId} {kind : Kind}

/-- A loop whose iterations may run in any order. -/
def isIndependentLoop : Kind → Bool
  | .stmt (.forLoop _ _ _ independent) => independent
  | _ => false

theorem isIndependentLoop_mapOwned :
    (kind.mapOwned own).isIndependentLoop = kind.isIndependentLoop := by
  rw [mapOwned_eq_renamed]
  cases kind with
  | stmt stmt => cases stmt <;> rfl
  | _ => rfl

theorem exists_stmt_of_isIndependentLoop (isLoop : kind.isIndependentLoop) :
    ∃ stmt, kind = .stmt stmt := by
  cases kind with
  | stmt stmt => exact ⟨stmt, rfl⟩
  | _ => cases isLoop

theorem category?_of_isIndependentLoop (isLoop : kind.isIndependentLoop) :
    kind.category? = some .loop := by
  cases kind with
  | stmt stmt => cases stmt <;> first | rfl | cases isLoop
  | _ => cases isLoop

theorem isStmt_mapOwned : (kind.mapOwned own).isStmt = kind.isStmt := by
  rw [mapOwned_eq_renamed]
  cases kind <;> rfl

theorem isExpr_mapOwned : (kind.mapOwned own).isExpr = kind.isExpr := by
  rw [mapOwned_eq_renamed]
  cases kind <;> rfl

theorem isFn_mapOwned : (kind.mapOwned own).isFn = kind.isFn := by
  rw [mapOwned_eq_renamed]
  cases kind with
  | symbol symbol =>
    obtain ⟨_, _, _, _, kind⟩ := symbol
    cases kind <;> rfl
  | _ => rfl

theorem hasFlag_mapOwned (flag : Flag) : (kind.mapOwned own).hasFlag flag = kind.hasFlag flag := by
  rw [mapOwned_eq_renamed]
  cases kind <;> rfl

end Kind

namespace Program

variable {program origin now next : Program} {id top loop call fn caller asked : NodeId}
  {taken : NodeId → Prop}

/-- A loop of the tree whose iterations may run in any order. -/
def IsIndependent (program : Program) (loop : NodeId) : Prop :=
  program.Reachable loop ∧ (program.kindAt loop).any Kind.isIndependentLoop

/-- A loop that is to be decided on: its iterations may run in any order, and the chain of first
callers from its function comes to a mark. -/
def Candidate (program : Program) (loop : NodeId) : Prop :=
  program.IsIndependent loop ∧ ∃ fn, program.InFn loop fn ∧ program.ComesToMark fn

/-- Going from `fn` to first callers until there is a mark, `asked` is asked for it. -/
abbrev AskedFrom (program : Program) : NodeId → NodeId → Prop :=
  ReflTransGen fun fn caller => ¬ program.Marked fn ∧ program.FirstCaller fn caller

/-- Nothing that is taken contains the first call of a function whose callers are asked for, to
find a mark for the loop. -/
def Undisturbed (program : Program) (taken : NodeId → Prop) (loop : NodeId) : Prop :=
  ∀ fn asked call, program.InFn loop fn → program.AskedFrom fn asked → ¬ program.Marked asked →
    program.FirstCall asked call → ∀ other, taken other → ¬ program.Contains other call

/-! ## What the pass asks -/

theorem isOrderIndependent_eq_ok {answer : Bool} :
    program.isOrderIndependent id = .ok answer ↔
      (program.kindAt id).map Kind.isIndependentLoop = some answer := by
  have asks : program.isOrderIndependent id = program.kindOf id >>= fun kind =>
      pure kind.isIndependentLoop :=
    bind_congr fun kind => by cases kind with
      | stmt stmt => cases stmt <;> rfl
      | _ => rfl
  simp only [asks, Fault.bind_eq_ok, Fault.pure_eq_ok, kindOf_eq_ok, Option.map_eq_some_iff]

theorem isCandidate_iff (wellFormed : WellFormed program) {answer : Bool}
    (looked : program.isCandidate loop = .ok answer) :
    answer = true ↔ program.Candidate loop := by
  obtain ⟨placed, inTree, looked⟩ := Fault.bind_eq_ok.mp looked
  have placed_iff := (inTree_eq_ok.mp inTree).2
  rw [wellFormed.orderly.isPlaced_iff trivial] at placed_iff
  cases placed with
  | false =>
    obtain rfl := Fault.pure_eq_ok.mp looked
    simp only [Bool.false_eq_true, false_iff] at placed_iff ⊢
    exact fun candidate => placed_iff candidate.1.1
  | true =>
    have reachable := placed_iff.mp rfl
    obtain ⟨independent, asked, looked⟩ := Fault.bind_eq_ok.mp looked
    obtain ⟨kind, known, same⟩ := Option.map_eq_some_iff.mp (isOrderIndependent_eq_ok.mp asked)
    cases independent with
    | false =>
      obtain rfl := Fault.pure_eq_ok.mp looked
      simp only [Bool.false_eq_true, false_iff]
      exact fun candidate => by simpa [known, same] using candidate.1.2
    | true =>
      rw [fits_iff wellFormed reachable looked]
      have independent : program.IsIndependent loop := ⟨reachable, by rwa [known]⟩
      exact ⟨fun fits => ⟨independent, fits⟩, fun candidate => candidate.2⟩

theorem comesToMark_iff_askedFrom :
    program.ComesToMark fn ↔ ∃ asked, program.AskedFrom fn asked ∧ program.Marked asked := by
  constructor
  · rintro ⟨last, chain, marked⟩
    induction chain using ReflTransGen.head_induction_on with
    | refl => exact ⟨last, .refl, marked⟩
    | @head fn _ first _ ih =>
      by_cases isMarked : program.Marked fn
      · exact ⟨fn, .refl, isMarked⟩
      · obtain ⟨asked, further, marked⟩ := ih
        exact ⟨asked, .head ⟨isMarked, first⟩ further, marked⟩
  · rintro ⟨asked, chain, marked⟩
    exact ⟨asked, ReflTransGen.mono (fun _ _ => And.right) _ _ chain, marked⟩

theorem FirstCall.unique {other : NodeId} (first : program.FirstCall fn call)
    (second : program.FirstCall fn other) : call = other := by
  cases call
  cases other
  exact congrArg NodeId.mk (Nat.le_antisymm (first.first _ second.inTree second.invokes)
    (second.first _ first.inTree first.invokes))

theorem exists_firstCall (reachable : program.Reachable call) (invokes : program.Invokes call fn) :
    ∃ first, program.FirstCall fn first := by
  obtain ⟨first, ⟨inTree, calls⟩, isFirst⟩ := (measure NodeId.val).wf.has_min
    { call | program.Reachable call ∧ program.Invokes call fn } ⟨call, reachable, invokes⟩
  exact ⟨first, inTree, calls, fun other reachable invokes =>
    Nat.le_of_not_lt (isFirst other ⟨reachable, invokes⟩)⟩

theorem InFn.issued (inFn : program.InFn id fn) : ¬ program.New fn :=
  Option.isSome_iff_ne_none.mp (get?_isSome_of_any inFn.2)

theorem AskedFrom.issued (chain : program.AskedFrom fn asked) (old : ¬ program.New fn) :
    ¬ program.New asked := by
  cases chain with
  | refl => exact old
  | tail _ further =>
    obtain ⟨_, _, _, inFn⟩ := further
    exact inFn.issued

/-! ## While loops are outlined -/

/-- The loops that were taken have been outlined one after the other. -/
structure Swept (origin : Program) (taken : NodeId → Prop) (now : Program) : Prop where
  wellFormed : WellFormed now
  stmts : ∀ {id}, taken id → (origin.kindAt id).any Kind.isStmt
  kinds : ∀ {id kind}, origin.kindAt id = some kind → ∃ place : NodeId → NodeId,
    (∀ child, ¬ taken child → place child = child) ∧ now.kindAt id = some (kind.mapOwned place)
  stays : ∀ {id}, origin.Reachable id → (∀ loop, taken loop → ¬ origin.Contains loop id) →
    now.Reachable id ∧ now.contextOf id = origin.contextOf id
  stayed : ∀ {id}, ¬ origin.New id → now.Reachable id → origin.Reachable id ∧
    (∀ loop, taken loop → ¬ origin.Contains loop id) ∧ now.parentOf id = origin.parentOf id
  calls : ∀ {call fn}, now.Reachable call → now.Invokes call fn → ¬ origin.New fn →
    ¬ origin.New call ∧ origin.Invokes call fn ∨
      origin.New call ∧ ∃ original, origin.Reachable original ∧ origin.Invokes original fn

namespace Swept

theorem congr {others : NodeId → Prop} (swept : Swept origin taken now)
    (same : ∀ id, others id ↔ taken id) : Swept origin others now := by
  obtain rfl : others = taken := funext fun id => propext (same id)
  exact swept

theorem start (wellFormed : WellFormed origin) : Swept origin (fun _ => False) origin where
  wellFormed := wellFormed
  stmts := False.elim
  kinds {_ kind} known := ⟨id, fun _ _ => rfl, known.trans (congrArg some kind.mapOwned_id.symm)⟩
  stays reachable _ := ⟨reachable, rfl⟩
  stayed _ reachable := ⟨reachable, fun _ => False.elim, rfl⟩
  calls reachable invokes _ :=
    .inl ⟨Option.isSome_iff_ne_none.mp (wellFormed.orderly.issued_of_reachable reachable), invokes⟩

section Later

variable (swept : Swept origin taken now) (wellFormed : WellFormed origin)
include swept

theorem issued (old : ¬ origin.New id) : ¬ now.New id := by
  obtain ⟨node, found⟩ := Option.ne_none_iff_exists'.mp old
  obtain ⟨_, _, known⟩ := swept.kinds (kindAt_eq found)
  exact issued_of_kindAt known

theorem any_kindAt {wanted : Kind → Bool} (old : ¬ origin.New id)
    (same : ∀ {kind : Kind} {own : NodeId → NodeId}, wanted (kind.mapOwned own) = wanted kind) :
    (now.kindAt id).any wanted = (origin.kindAt id).any wanted := by
  obtain ⟨node, found⟩ := Option.ne_none_iff_exists'.mp old
  obtain ⟨_, _, known⟩ := swept.kinds (kindAt_eq found)
  rw [known, kindAt_eq found, Option.any_some, Option.any_some, same]

theorem marked_iff (old : ¬ origin.New fn) : now.Marked fn ↔ origin.Marked fn := by
  rw [Marked, swept.any_kindAt old (Kind.hasFlag_mapOwned _), ← Marked]

theorem not_taken_of_expr {expr : Expr} (known : origin.kindAt id = some (.expr expr)) :
    ¬ taken id := by
  intro isTaken
  simpa [known, Kind.isStmt] using swept.stmts isTaken

theorem independent_of_now (old : ¬ origin.New loop) (independent : now.IsIndependent loop) :
    origin.IsIndependent loop ∧ ∀ other, taken other → ¬ origin.Contains other loop := by
  obtain ⟨reachable, spared, _⟩ := swept.stayed old independent.1
  refine ⟨⟨reachable, ?_⟩, spared⟩
  rw [← swept.any_kindAt old Kind.isIndependentLoop_mapOwned]
  exact independent.2

/-- What a loop runs between does not go away. -/
theorem boundedByExprs (old : ¬ origin.New loop) (bounded : origin.BoundedByExprs loop) :
    now.BoundedByExprs loop := by
  intro indices iterators body independent known
  obtain ⟨node, found⟩ := Option.ne_none_iff_exists'.mp old
  obtain ⟨place, kept, knownNow⟩ := swept.kinds (kindAt_eq found)
  rw [Kind.mapOwned_eq_renamed, known, Option.some.injEq] at knownNow
  obtain ⟨_, list, _, isLoop, rfl⟩ := Kind.renamed_eq_forLoop knownNow.symm
  obtain ⟨holds, lows, isList, areExprs⟩ := bounded ((kindAt_eq found).trans (congrArg some isLoop))
  obtain ⟨placeList, keptLows, isListNow⟩ := swept.kinds isList
  have notTaken : ¬ taken list := fun isTaken => by
    simpa [isList, Kind.isStmt] using swept.stmts isTaken
  rw [Kind.mapOwned_eq_renamed, Kind.renamed, ← kept list notTaken] at isListNow
  refine ⟨holds, _, isListNow, fun low member => ?_⟩
  obtain ⟨first, isFirst, rfl⟩ := Array.mem_map.mp member
  have isExpr := areExprs first isFirst
  obtain ⟨kind, knownLow, exprKind⟩ := (Option.any_eq_true _ _).mp isExpr
  have notTakenLow : ¬ taken first := fun isTaken => by
    have isStmt := swept.stmts isTaken
    rw [knownLow] at isStmt
    cases kind <;> simp_all [Kind.isStmt, Kind.isExpr]
  rwa [keptLows first notTakenLow,
    swept.any_kindAt (issued_of_kindAt knownLow) Kind.isExpr_mapOwned]

/-- An old call still calls what it called. -/
theorem invokes_now (invokes : origin.Invokes call fn) : now.Invokes call fn := by
  obtain ⟨base, args, known, uses⟩ := invokes
  obtain ⟨place, kept, isCall⟩ := swept.kinds known
  obtain ⟨_, _, isUse⟩ := swept.kinds uses
  rw [Kind.mapOwned_eq_renamed] at isCall isUse
  simp only [Kind.renamed, Expr.renamed, Callee.renamed,
    kept base (swept.not_taken_of_expr uses)] at isCall isUse
  exact ⟨base, _, isCall, isUse⟩

include wellFormed

/-- What was there and is still in the tree lies below the same nodes as at first. -/
theorem contains_origin (old : ¬ origin.New id) (reachable : now.Reachable top)
    (contained : now.Contains top id) : origin.Contains top id := by
  induction contained with
  | refl => exact .refl
  | @tail holder child above holds ih =>
    have named := (swept.wellFormed.parent_iff holder child).mp holds
    rw [(swept.stayed old ((reachable.contains above).holds holds)).2.2] at named
    have holdsOrigin := (wellFormed.parent_iff holder child).mpr named
    exact (ih (Option.isSome_iff_ne_none.mp holdsOrigin.issued)).tail holdsOrigin

theorem contains_now (old : ¬ origin.New id) (reachable : now.Reachable id)
    (contained : origin.Contains top id) : now.Contains top id := by
  induction contained with
  | refl => exact .refl
  | @tail holder child _ holds ih =>
    have named := (wellFormed.parent_iff holder child).mp holds
    rw [← (swept.stayed old reachable).2.2] at named
    have orderly := swept.wellFormed.orderly
    have reachableHolder := orderly.rooted.reachable_holder orderly.forest named reachable
    exact (ih (Option.isSome_iff_ne_none.mp holds.issued) reachableHolder).tail
      ((swept.wellFormed.parent_iff holder child).mpr named)

/-- One more loop is outlined. -/
theorem step (outlined : Outlined now loop next) (reachableLoop : now.Reachable loop)
    (isStmt : (origin.kindAt loop).any Kind.isStmt) :
    Swept origin (fun id => taken id ∨ id = loop) next where
  wellFormed := outlined.wellFormed
  stmts isTaken := isTaken.elim swept.stmts fun same => same ▸ isStmt
  kinds {id kind} known := by
    obtain ⟨place, kept, knownNow⟩ := swept.kinds known
    obtain ⟨block, _, kinds⟩ := outlined.kinds
    refine ⟨(fun child => if child = loop then block else child) ∘ place, fun child spared => ?_, ?_⟩
    · obtain ⟨notTaken, notLoop⟩ := not_or.mp spared
      simp [kept child notTaken, notLoop]
    · rw [kinds id (get?_isSome_of_kindAt knownNow), knownNow, Option.map_some,
        Kind.mapOwned_mapOwned]
  stays {id} reachable spared := by
    have old := Option.isSome_iff_ne_none.mp (wellFormed.orderly.issued_of_reachable reachable)
    obtain ⟨reachableNow, sameContext⟩ :=
      swept.stays reachable fun other isTaken => spared other (.inl isTaken)
    have outside : ¬ now.Contains loop id := fun inside =>
      spared loop (.inr rfl) (swept.contains_origin wellFormed old reachableLoop inside)
    obtain ⟨reachableNext, sameNext⟩ := outlined.stays id reachableNow outside
    exact ⟨reachableNext, sameNext.trans sameContext⟩
  stayed {id} old reachable := by
    obtain ⟨reachableNow, outside, sameNext⟩ :=
      outlined.stayed id (Option.isSome_iff_ne_none.mpr (swept.issued old)) reachable
    obtain ⟨reachableOrigin, spared, sameNow⟩ := swept.stayed old reachableNow
    refine ⟨reachableOrigin, ?_, sameNext.trans sameNow⟩
    rintro other (isTaken | rfl) inside
    · exact spared other isTaken inside
    · exact outside (swept.contains_now wellFormed old reachableNow inside)
  calls {call fn} reachable invokes old := by
    rcases outlined.calls call fn reachable invokes (swept.issued old) with
      ⟨oldCall, invokesNow⟩ | ⟨newCall, original, inside, invokesNow⟩
    · exact swept.calls (outlined.stayed call (Option.isSome_iff_ne_none.mpr oldCall) reachable).1
        invokesNow old
    · refine .inr ⟨by_contra fun oldCall => swept.issued oldCall newCall, ?_⟩
      have reachableOriginal := reachableLoop.contains inside
      rcases swept.calls reachableOriginal invokesNow old with
        ⟨oldOriginal, invokesOrigin⟩ | ⟨_, earlier⟩
      · exact ⟨original, (swept.stayed oldOriginal reachableOriginal).1, invokesOrigin⟩
      · exact earlier

/-! ## The same answers -/

/-- A first call that is in no loop that was taken still is the first one. -/
theorem firstCall_now (old : ¬ origin.New fn) (first : origin.FirstCall fn call)
    (spared : ∀ loop, taken loop → ¬ origin.Contains loop call) : now.FirstCall fn call := by
  refine ⟨(swept.stays first.inTree spared).1, swept.invokes_now first.invokes,
    fun other reachable invokes => ?_⟩
  rcases swept.calls reachable invokes old with ⟨oldOther, invokesOrigin⟩ | ⟨newOther, _⟩
  · exact first.first other (swept.stayed oldOther reachable).1 invokesOrigin
  · -- identities are given out in ascending order, so a copy counts as a later call
    have issued := isSome_get?_iff.mp (wellFormed.orderly.issued_of_reachable first.inTree)
    have issuedOther := isSome_get?_iff.mp (swept.wellFormed.orderly.issued_of_reachable reachable)
    have unissued := mt isSome_get?_iff.mpr (Option.not_isSome_iff_eq_none.mpr newOther)
    omega

theorem firstCall_iff (old : ¬ origin.New fn)
    (spared : ∀ call, origin.FirstCall fn call →
      ∀ loop, taken loop → ¬ origin.Contains loop call) :
    now.FirstCall fn call ↔ origin.FirstCall fn call := by
  constructor
  · intro firstNow
    obtain ⟨original, reachable, invokes⟩ :
        ∃ original, origin.Reachable original ∧ origin.Invokes original fn := by
      rcases swept.calls firstNow.inTree firstNow.invokes old with
        ⟨oldCall, invokes⟩ | ⟨_, earlier⟩
      · exact ⟨call, (swept.stayed oldCall firstNow.inTree).1, invokes⟩
      · exact earlier
    obtain ⟨first, isFirst⟩ := exists_firstCall reachable invokes
    have sameFirst := swept.firstCall_now wellFormed old isFirst (spared first isFirst)
    exact firstNow.unique sameFirst ▸ isFirst
  · exact fun first => swept.firstCall_now wellFormed old first (spared call first)

theorem inFn_iff (reachable : origin.Reachable id)
    (spared : ∀ loop, taken loop → ¬ origin.Contains loop id) :
    now.InFn id fn ↔ origin.InFn id fn := by
  obtain ⟨reachableNow, sameContext⟩ := swept.stays reachable spared
  have sameNearest : now.Nearest Kind.isSymbol id fn ↔ origin.Nearest Kind.isSymbol id fn := by
    rw [← swept.wellFormed.enclosing_symbol id fn reachableNow, sameContext,
      wellFormed.enclosing_symbol id fn reachable]
  rw [InFn, InFn, sameNearest]
  refine and_congr_right fun nearest => ?_
  have old := Option.isSome_iff_ne_none.mp (get?_isSome_of_any nearest.around.2)
  rw [swept.any_kindAt old Kind.isFn_mapOwned]

theorem firstCaller_iff (old : ¬ origin.New fn)
    (spared : ∀ call, origin.FirstCall fn call →
      ∀ loop, taken loop → ¬ origin.Contains loop call) :
    now.FirstCaller fn caller ↔ origin.FirstCaller fn caller := by
  refine exists_congr fun call => ?_
  rw [swept.firstCall_iff wellFormed old spared]
  exact and_congr_right fun first => swept.inFn_iff wellFormed first.inTree (spared call first)

theorem askedFrom_iff (old : ¬ origin.New fn)
    (spared : ∀ asked call, origin.AskedFrom fn asked → ¬ origin.Marked asked →
      origin.FirstCall asked call → ∀ loop, taken loop → ¬ origin.Contains loop call) :
    now.AskedFrom fn asked ↔ origin.AskedFrom fn asked := by
  have same_step : ∀ {asked caller}, origin.AskedFrom fn asked →
      (¬ now.Marked asked ∧ now.FirstCaller asked caller ↔
        ¬ origin.Marked asked ∧ origin.FirstCaller asked caller) := by
    intro asked caller chain
    have oldAsked := AskedFrom.issued chain old
    rw [swept.marked_iff oldAsked]
    exact and_congr_right fun unmarked =>
      swept.firstCaller_iff wellFormed oldAsked fun call => spared asked call chain unmarked
  constructor
  · intro chain
    induction chain with
    | refl => exact .refl
    | tail _ further ih => exact ih.tail ((same_step ih).mp further)
  · intro chain
    induction chain with
    | refl => exact .refl
    | tail before further ih => exact ih.tail ((same_step before).mpr further)

theorem independent_iff (reachable : origin.Reachable loop)
    (spared : ∀ other, taken other → ¬ origin.Contains other loop) :
    now.IsIndependent loop ↔ origin.IsIndependent loop := by
  have old := Option.isSome_iff_ne_none.mp (wellFormed.orderly.issued_of_reachable reachable)
  rw [IsIndependent, IsIndependent, swept.any_kindAt old Kind.isIndependentLoop_mapOwned]
  exact and_congr_left fun _ => iff_of_true (swept.stays reachable spared).1 reachable

/-- A loop that was there at first is to be decided on now if it was at first and is in no loop that
was taken. -/
theorem candidate_iff (old : ¬ origin.New loop) (undisturbed : origin.Undisturbed taken loop) :
    now.Candidate loop ↔
      origin.Candidate loop ∧ ∀ other, taken other → ¬ origin.Contains other loop := by
  have same : origin.Reachable loop → (∀ other, taken other → ¬ origin.Contains other loop) →
      (now.Candidate loop ↔ origin.Candidate loop) := by
    intro reachable spared
    refine and_congr (swept.independent_iff wellFormed reachable spared) (exists_congr fun fn => ?_)
    rw [swept.inFn_iff wellFormed reachable spared]
    refine and_congr_right fun inFn => ?_
    rw [comesToMark_iff_askedFrom, comesToMark_iff_askedFrom]
    refine exists_congr fun asked => ?_
    rw [swept.askedFrom_iff wellFormed inFn.issued fun asked call => undisturbed fn asked call inFn]
    exact and_congr_right fun chain => swept.marked_iff (AskedFrom.issued chain inFn.issued)
  constructor
  · intro candidate
    obtain ⟨independent, spared⟩ := swept.independent_of_now old candidate.1
    exact ⟨(same independent.1 spared).mp candidate, spared⟩
  · rintro ⟨candidate, spared⟩
    exact (same candidate.1.1 spared).mpr candidate

end Later

end Swept

end Program

/-! ## The sweep -/

section Sweeping

variable {origin now next before after between : Program} {loop : NodeId} {loops : List NodeId}
  {taken : NodeId → Prop} {state middle left : GpuLoopBuilder} {outcome : Outcome}
  {moments : List Moment}

/-- The loop was outlined, and it was there before the other one. -/
def OutlinedBefore (outlined : List NodeId) (loop other : NodeId) : Prop :=
  other ∈ outlined ∧ other.val < loop.val

theorem outlinedBefore_cons {moment : Moment} {other : NodeId}
    (less : moment.loop.val < loop.val) :
    OutlinedBefore (Moment.loops (moment :: moments) .outlined) loop other ↔
      moment.outcome = .outlined ∧ other = moment.loop ∨
        OutlinedBefore (Moment.loops moments .outlined) loop other := by
  by_cases isOutlined : moment.outcome = .outlined
  · have isHead : other = moment.loop → other.val < loop.val := fun same => same ▸ less
    simp only [OutlinedBefore, Moment.loops, isOutlined, decide_true, List.filter_cons_of_pos,
      List.map_cons, List.mem_cons, true_and]
    rw [or_and_right, and_iff_left_of_imp isHead]
  · simp [OutlinedBefore, Moment.loops, isOutlined]

theorem mem_of_mem_loops (member : loop ∈ Moment.loops moments outcome) :
    loop ∈ moments.map Moment.loop :=
  (List.filter_sublist.map _).subset member

/-- Before the first of the loops there is none. -/
theorem Sweep.not_outlinedBefore {rest : List NodeId} {other : NodeId}
    (sweep : Sweep GpuLoopBuilder.outline (loop :: rest) state now moments left after)
    (smallest : ∀ later ∈ rest, loop.val < later.val) :
    ¬ OutlinedBefore (Moment.loops moments .outlined) loop other := by
  rintro ⟨outlined, less⟩
  rcases List.mem_cons.mp (sweep.sublist.subset (mem_of_mem_loops outlined)) with rfl | later
  · exact Nat.lt_irrefl _ less
  · exact Nat.lt_asymm less (smallest other later)

section Steps

variable (wellFormed : WellFormed origin) (swept : Swept origin taken now)
  (bounded : ∀ loop, origin.IsIndependent loop → origin.BoundedByExprs loop)
include wellFormed swept bounded

/-- Where a loop was decided on, it has been taken if it was outlined. -/
theorem Decides.swept_next (old : ¬ origin.New loop) (candidate : now.Candidate loop)
    (decided : Decides GpuLoopBuilder.outline loop state now outcome between middle next) :
    Swept origin (fun other => taken other ∨ outcome = .outlined ∧ other = loop) next := by
  cases decided with
  | declined answered =>
    obtain rfl := GpuLoopBuilder.same_of_declined answered
    simpa using swept
  | outlined answered replaced =>
    obtain ⟨independent, _⟩ := swept.independent_of_now old candidate.1
    obtain ⟨kind, known, isLoop⟩ := (Option.any_eq_true _ _).mp candidate.1.2
    obtain ⟨stmt, rfl⟩ := Kind.exists_stmt_of_isIndependentLoop isLoop
    have outlined := GpuLoopBuilder.outlined swept.wellFormed candidate.1.1 known
      (swept.boundedByExprs old (bounded loop independent)) answered replaced
    have isStmtAtFirst : (origin.kindAt loop).any Kind.isStmt := by
      rw [← swept.any_kindAt old Kind.isStmt_mapOwned, known]
      rfl
    simpa using swept.step wellFormed outlined candidate.1.1 isStmtAtFirst

/-- When it is the turn of a loop, the loops have been taken that were outlined before it. -/
theorem Sweep.exists_turn
    (sweep : Sweep GpuLoopBuilder.outline loops state now moments left after)
    (old : ∀ loop ∈ loops, ¬ origin.New loop)
    (ordered : loops.Pairwise fun first second => first.val < second.val) (member : loop ∈ loops) :
    ∃ turn, (loop ∈ moments.map Moment.loop ↔ turn.Candidate loop) ∧
      Swept origin (fun other =>
        taken other ∨ OutlinedBefore (Moment.loops moments .outlined) loop other) turn := by
  induction sweep generalizing taken with
  | done => cases member
  | @pass first rest moments state left now after passed later ih =>
    obtain ⟨smallest, orderedRest⟩ := List.pairwise_cons.mp ordered
    rcases List.mem_cons.mp member with rfl | memberRest
    · refine ⟨now, iff_of_false ?_ ?_, ?_⟩
      · exact fun decided => Nat.lt_irrefl _ (smallest loop (later.sublist.subset decided))
      · exact fun candidate =>
          Bool.false_ne_true ((isCandidate_iff swept.wellFormed passed).mpr candidate)
      · have isFirst : Sweep _ (loop :: rest) _ _ _ _ _ := .pass passed later
        exact swept.congr fun other => or_iff_left (isFirst.not_outlinedBefore smallest)
    · exact ih swept (fun other isOther => old other (.tail _ isOther)) orderedRest memberRest
  | @decide first rest outcome moments state middle left now between next after asked decided later ih =>
    obtain ⟨smallest, orderedRest⟩ := List.pairwise_cons.mp ordered
    have candidate := (isCandidate_iff swept.wellFormed asked).mp rfl
    rcases List.mem_cons.mp member with rfl | memberRest
    · refine ⟨now, iff_of_true (List.mem_cons_self ..) candidate, ?_⟩
      have isFirst : Sweep _ (loop :: rest) _ _ _ _ _ := .decide asked decided later
      exact swept.congr fun other => or_iff_left (isFirst.not_outlinedBefore smallest)
    · obtain ⟨turn, decided_iff, sweptTurn⟩ := ih
        (decided.swept_next wellFormed swept bounded (old first (.head _)) candidate)
        (fun other isOther => old other (.tail _ isOther)) orderedRest memberRest
      have less := smallest loop memberRest
      refine ⟨turn, ?_, sweptTurn.congr fun other => ?_⟩
      · rw [← decided_iff, List.map_cons, List.mem_cons]
        exact or_iff_right fun same => Nat.lt_irrefl _ (same ▸ less)
      · rw [outlinedBefore_cons less, or_assoc]

end Steps

/-- The loops that are decided on are outlined or declined. -/
theorem perm_loops (moments : List Moment) :
    (Moment.loops moments .outlined ++ Moment.loops moments .declined).Perm
      (moments.map Moment.loop) := by
  have other : ∀ moment : Moment,
      decide (moment.outcome = .declined) = !decide (moment.outcome = .outlined) := by
    rintro ⟨_, ⟨⟩, _⟩ <;> rfl
  rw [Moment.loops, Moment.loops, funext other, ← List.map_append]
  exact (List.filter_append_perm _ _).map _

section Whole

variable (wellFormed : WellFormed before)
  (bounded : ∀ loop, before.IsIndependent loop → before.BoundedByExprs loop)
include wellFormed bounded

/-- A loop that is decided on was to be decided on when it was its turn. -/
theorem Sweep.decided_iff
    (sweep : Sweep GpuLoopBuilder.outline before.index.loops.toList {} before.entered moments left
      after) (loop : NodeId) :
    (loop ∈ moments.map Moment.loop → before.IsIndependent loop ∧
      ∀ other, OutlinedBefore (Moment.loops moments .outlined) loop other →
        ¬ before.Contains other loop) ∧
    (before.Undisturbed (OutlinedBefore (Moment.loops moments .outlined) loop) loop →
      (loop ∈ moments.map Moment.loop ↔ before.Candidate loop ∧
        ∀ other, OutlinedBefore (Moment.loops moments .outlined) loop other →
          ¬ before.Contains other loop)) := by
  have indexed : ∀ {loop}, loop ∈ before.index.loops.toList ↔
      before.Reachable loop ∧ (before.kindAt loop).bind Kind.category? = some .loop :=
    Std.ExtTreeSet.mem_toList.trans (wellFormed.indexed_iff _ .loop)
  have old : ∀ loop ∈ before.index.loops.toList, ¬ before.New loop := fun loop member =>
    Option.isSome_iff_ne_none.mp (wellFormed.orderly.issued_of_reachable (indexed.mp member).1)
  by_cases member : loop ∈ before.index.loops.toList
  · have begun : Swept before (fun _ => False) before.entered :=
      { Swept.start wellFormed with wellFormed := wellFormed_workshop.frame wellFormed rfl rfl rfl }
    obtain ⟨turn, isDecided, swept⟩ :=
      sweep.exists_turn wellFormed begun bounded old (before.index.ascending_entries .loop)
        member
    have swept := swept.congr fun _ => (false_or _).symm.to_iff
    exact ⟨fun decided => swept.independent_of_now (old loop member) (isDecided.mp decided).1,
      fun undisturbed => isDecided.trans
        (swept.candidate_iff wellFormed (old loop member) undisturbed)⟩
  · have undecided : loop ∉ moments.map Moment.loop := fun decided =>
      member (sweep.sublist.subset decided)
    refine ⟨fun decided => absurd decided undecided, fun _ => iff_of_false undecided ?_⟩
    rintro ⟨⟨⟨reachable, independent⟩, _⟩, _⟩
    obtain ⟨kind, known, isLoop⟩ := (Option.any_eq_true _ _).mp independent
    exact member (indexed.mpr ⟨reachable, by
      rw [known, Option.bind_some, Kind.category?_of_isIndependentLoop isLoop]⟩)

/-- Which loops the pass decides on.  Every one is a loop of the tree as it was at first, whose
iterations may run in any order, and is in none that was outlined before it.  Where none of those
contains a first call that is asked about on its behalf, the tree as it was at first decides.  The
loops are decided on once each, in the order of their creation. -/
theorem decided_iff_candidate {report : OutlineReport} (run : Yields outline before report after) :
    (report.outlined ++ report.declined).Nodup ∧
    report.outlined.Pairwise (fun first second => first.val < second.val) ∧
    report.declined.Pairwise (fun first second => first.val < second.val) ∧
    ∀ loop,
      (loop ∈ report.outlined ++ report.declined → before.IsIndependent loop ∧
        ∀ other, OutlinedBefore report.outlined loop other → ¬ before.Contains other loop) ∧
      (before.Undisturbed (OutlinedBefore report.outlined loop) loop →
        (loop ∈ report.outlined ++ report.declined ↔ before.Candidate loop ∧
          ∀ other, OutlinedBefore report.outlined loop other → ¬ before.Contains other loop)) := by
  rw [Yields, outline_apply] at run
  obtain ⟨⟨⟨decisions, left⟩, between⟩, sweeping, run⟩ := Fault.bind_eq_ok.mp run
  obtain ⟨relocated, _, same⟩ := Fault.bind_eq_ok.mp run
  obtain ⟨rfl, _⟩ := Prod.mk.inj (Except.ok.inj same)
  obtain ⟨moments, reports, sweep, alike, rfl⟩ := exists_sweep sweeping
  have outlined_eq : OutlineReport.outlined ⟨_, relocated.1⟩ = Moment.loops moments .outlined :=
    decisions_alike alike .outlined
  have declined_eq : OutlineReport.declined ⟨_, relocated.1⟩ = Moment.loops moments .declined :=
    decisions_alike alike .declined
  rw [outlined_eq, declined_eq]
  have ascending : (moments.map Moment.loop).Pairwise fun first second => first.val < second.val :=
    List.pairwise_map.mpr (sweep.ascending before)
  have distinct : (moments.map Moment.loop).Nodup :=
    List.Pairwise.imp (fun less same => Nat.ne_of_lt less (congrArg NodeId.val same)) ascending
  refine ⟨(perm_loops moments).nodup_iff.mpr distinct,
    ascending.sublist (List.filter_sublist.map _), ascending.sublist (List.filter_sublist.map _),
    fun loop => ?_⟩
  rw [(perm_loops moments).mem_iff]
  exact sweep.decided_iff wellFormed bounded loop

end Whole

end Sweeping

end ProgramTree
