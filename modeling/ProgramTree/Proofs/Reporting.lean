import Mathlib.Data.List.ReduceOption
import ProgramTree.Proofs.Compiling
import ProgramTree.Proofs.Ownership

/-!
# Reporting

Reports only observe.  The pass does the same whatever is to be reported, and the reports say of
each decision what became of the loop and which module it belonged to when it was decided.  For
that every loop that is decided on must belong to a module, or else its report would stop the pass.
-/

namespace ProgramTree

open Edit Relation Program

/-- How the report of a decision starts. -/
def Outcome.announcement : Outcome → String
  | .outlined => "Replacing loop with CPU and GPU loops at "
  | .declined => "Failed to generate GPU loop from loop at "

/-- A decision that was taken, and the program as it was then. -/
structure Moment where
  loop : NodeId
  outcome : Outcome
  program : Program

/-- The line that reports the decision.  A loop of a library module has one in developer mode
only. -/
def Moment.Announces (moment : Moment) (developer : Bool) (line? : Option String) : Prop :=
  ∃ module symbol block initFn? tag node,
    moment.program.owningModule moment.loop = .ok (some module) ∧
    moment.program.kindAt module = some (.symbol symbol) ∧
    symbol.kind = .module block initFn? tag ∧
    moment.program.get? moment.loop = some node ∧
    line? = if tag = .user ∨ developer then
      some (moment.outcome.announcement ++ (symbol.name ++ ":" ++ toString node.location.line))
      else none

/-- The loop belongs to a module. -/
def Moment.Belongs (moment : Moment) : Prop :=
  ∃ module, moment.program.owningModule moment.loop = .ok (some module)

/-- The moment, and this to be reported. -/
def Moment.reporting (moment : Moment) (reportOutlining developer : Bool) : Moment :=
  { moment with program := moment.program.reporting reportOutlining developer }

/-- The decision, with what is reported of it. -/
def Moment.decision (moment : Moment) (report? : Option String) : Decision :=
  ⟨moment.loop, moment.outcome, report?⟩

/-- The loops that were decided on with this outcome. -/
def Moment.loops (moments : List Moment) (outcome : Outcome) : List NodeId :=
  (moments.filter (·.outcome = outcome)).map Moment.loop

/-- Deciding on one loop: what became of it, the program when that was decided, and the program
that it leads to. -/
inductive Decides {σ : Type} (outliner : LoopOutliner σ) (loop : NodeId) (state : σ)
    (before : Program) : Outcome → Program → σ → Program → Prop where
  | declined {left : σ} {after : Program}
      (answered : Yields (outliner loop state) before (none, left) after) :
      Decides outliner loop state before .declined after left after
  | outlined {left : σ} {variant : NodeId} {between after : Program}
      (answered : Yields (outliner loop state) before (some variant, left) between)
      (replaced : Yields (dispatch loop variant) between () after) :
      Decides outliner loop state before .outlined between left after

/-- Deciding on the loops in turn, with the decisions that are taken. -/
inductive Sweep {σ : Type} (outliner : LoopOutliner σ) :
    List NodeId → σ → Program → List Moment → σ → Program → Prop where
  | done {state : σ} {program : Program} : Sweep outliner [] state program [] state program
  | pass {loop : NodeId} {rest : List NodeId} {moments : List Moment} {state left : σ}
      {before after : Program} (passed : before.isCandidate loop = .ok false)
      (later : Sweep outliner rest state before moments left after) :
      Sweep outliner (loop :: rest) state before moments left after
  | decide {loop : NodeId} {rest : List NodeId} {outcome : Outcome} {moments : List Moment}
      {state middle left : σ} {before between next after : Program}
      (candidate : before.isCandidate loop = .ok true)
      (decided : Decides outliner loop state before outcome between middle next)
      (later : Sweep outliner rest middle next moments left after) :
      Sweep outliner (loop :: rest) state before (⟨loop, outcome, between⟩ :: moments) left after

/-- The program as the pass enters it. -/
def Program.entered (program : Program) : Program :=
  { program with traversal? := some "createGpuForLoops" }

/-- The report of a pass says which loops were decided on, in the order of their creation, and what
became of them; and if decisions are to be reported, it has their lines. -/
def Program.Reported (before : Program) (report : OutlineReport) : Prop :=
  ∃ (moments : List Moment) (lines : List (Option String)) (left : GpuLoopBuilder)
      (decided : Program),
    Sweep GpuLoopBuilder.outline before.index.loops.toList {} before.entered moments left decided ∧
    moments.Pairwise (fun first second => first.loop.val < second.loop.val) ∧
    report.outlined = Moment.loops moments .outlined ∧
    report.declined = Moment.loops moments .declined ∧
    List.Forall₂ (fun moment line? => moment.Announces before.settings.developer line?) moments
      lines ∧
    report.messages = if before.settings.reportOutlining then lines.reduceOption else []

variable {α : Type} {exact : Prop} {region : NodeId → Prop}
  {origin program before between after : Program} {loop module : NodeId} {loops rest : List NodeId}
  {state left : GpuLoopBuilder} {outcome : Outcome} {moments : List Moment} {fault : Fault}

/-! ## The line of a decision -/

theorem decisionReport?_eq {symbol : Symbol} {block : NodeId} {initFn? : Option NodeId}
    {tag : ModuleTag} {node : Node} (owning : before.owningModule loop = .ok (some module))
    (known : before.kindAt module = some (.symbol symbol))
    (isModule : symbol.kind = .module block initFn? tag) (found : before.get? loop = some node) :
    before.decisionReport? loop outcome = .ok (if before.settings.reportOutlining then
      if tag = .user ∨ before.settings.developer then
        some (outcome.announcement ++ (symbol.name ++ ":" ++ toString node.location.line))
      else none else none) := by
  have looked : before.expectModule loop = .ok module := expectModule_eq_ok.mpr owning
  have symbolOf : before.symbol module = .ok symbol := symbol_eq_ok.mpr known
  have tagged : before.moduleTag module = .ok tag := by
    rw [moduleTag, Fault.bind_eq_ok]
    refine ⟨symbol, symbolOf, ?_⟩
    rw [isModule]
    rfl
  have nodeOf : before.node loop = .ok node := node_eq_ok.mpr found
  rw [decisionReport?]
  split
  · simp only [Fault.bind_eq_ok]
    refine ⟨module, looked, tag, tagged, ?_⟩
    by_cases shown : tag = .user ∨ before.settings.developer
    · rw [if_pos shown, if_neg (by simpa [or_iff_not_imp_left] using shown)]
      simp only [Fault.bind_eq_ok]
      refine ⟨symbol, symbolOf, node, nodeOf, ?_⟩
      cases outcome <;> rfl
    · rw [if_neg shown, if_pos (by simpa [not_or] using shown)]
      rfl
  · rfl

/-- A decision on a loop that belongs to a module can be reported. -/
theorem Moment.Belongs.exists_announces {moment : Moment} (belongs : moment.Belongs)
    (reportOutlining developer : Bool) :
    ∃ line?, (moment.reporting reportOutlining developer).Announces developer line? ∧
      (moment.program.reporting reportOutlining developer).decisionReport? moment.loop
        moment.outcome = .ok (if reportOutlining then line? else none) := by
  obtain ⟨module, owning⟩ := belongs
  rw [← Unframed.reporting (·.owningModule moment.loop) moment.program reportOutlining
    developer] at owning
  obtain ⟨kind, known, isModule⟩ := (Option.any_eq_true _ _).mp (isModule_of_ascend owning)
  obtain ⟨symbol, rfl⟩ : ∃ symbol, kind = .symbol symbol := by
    cases kind <;> simp_all [Kind.isModule, Kind.symbol?]
  obtain ⟨block, initFn?, tag, form⟩ : ∃ block initFn? tag, symbol.kind = .module block initFn? tag := by
    cases form : symbol.kind <;> simp_all [Kind.isModule, Kind.symbol?, Symbol.isModule]
  obtain ⟨node, found⟩ : ∃ node,
      (moment.program.reporting reportOutlining developer).get? moment.loop = some node := by
    obtain ⟨node, foundNode, _⟩ := Fault.bind_eq_ok.mp owning
    exact ⟨node, node_eq_ok.mp foundNode⟩
  exact ⟨_, ⟨module, symbol, block, initFn?, tag, node, owning, known, form, found, rfl⟩,
    decisionReport?_eq owning known form found⟩

/-! ## Whatever is to be reported -/

/-- Whatever is to be reported, the edit stops with this fault. -/
def Edit.Stops (edit : Edit α) (before : Program) (fault : Fault) : Prop :=
  ∀ reportOutlining developer, edit (before.reporting reportOutlining developer) = .error fault

theorem Edit.Plain.yields {edit : Edit α} {answer : α} (plain : Plain edit)
    (run : Yields edit before answer after) (reportOutlining developer : Bool) :
    Yields edit (before.reporting reportOutlining developer) answer
      (after.reporting reportOutlining developer) := by
  rw [Yields, plain.reporting, show edit before = _ from run]
  rfl

theorem Edit.Plain.stops_or_yields {edit : Edit α} (plain : Plain edit) (before : Program) :
    (∃ fault, edit.Stops before fault) ∨ ∃ answer after, Yields edit before answer after := by
  cases result : edit before with
  | error fault =>
    left
    refine ⟨fault, fun reportOutlining developer => ?_⟩
    rw [plain.reporting, result]
    rfl
  | ok made => exact .inr ⟨made.1, made.2, result⟩

section Stopping

variable {β : Type} {edit : Edit β} {next : β → Edit α}

theorem Edit.Stops.at_once (stops : edit.Stops before fault) : (edit >>= next).Stops before fault :=
  fun _ _ => run_bind_of_error (stops _ _)

theorem Edit.Stops.later (stops : ∀ reportOutlining developer, ∃ answer,
    Yields edit (before.reporting reportOutlining developer) answer
      (between.reporting reportOutlining developer) ∧
    next answer (between.reporting reportOutlining developer) = .error fault) :
    (edit >>= next).Stops before fault := by
  intro reportOutlining developer
  obtain ⟨_, run, stopsLater⟩ := stops reportOutlining developer
  rw [run.run_bind, stopsLater]

end Stopping

theorem isCandidate_reporting {reportOutlining developer : Bool} :
    (before.reporting reportOutlining developer).isCandidate loop = before.isCandidate loop :=
  Unframed.reporting (·.isCandidate loop) before reportOutlining developer

section Deciding

variable {σ β : Type} {outliner : LoopOutliner σ} {start : σ}

theorem run_bind {edit : StateT σ Edit β} {next : β → StateT σ Edit α} :
    (edit >>= next) start = edit start >>= fun made => next made.1 made.2 :=
  rfl

/-- An edit that knows nothing of the outliner's state leaves it as it is. -/
theorem run_lift_bind {edit : Edit β} {next : β → StateT σ Edit α} :
    ((liftM edit >>= next : StateT σ Edit α) start) = edit >>= fun answer => next answer start := by
  funext program
  change (edit program >>= fun made => pure ((made.1, start), made.2)) >>= _ =
    edit program >>= _
  cases edit program <;> rfl

theorem outlineLoop_eq : outlineLoop outliner loop start = outliner loop start >>= fun answer =>
    match answer.1 with
    | none => look (·.decisionReport? loop .declined) >>= fun report? =>
      pure (⟨loop, .declined, report?⟩, answer.2)
    | some variant => look (·.decisionReport? loop .outlined) >>= fun report? =>
      dispatch loop variant >>= fun _ => pure (⟨loop, .outlined, report?⟩, answer.2) := by
  refine run_bind.trans (bind_congr fun answer => ?_)
  obtain ⟨variant?, left⟩ := answer
  cases variant? with
  | none => exact run_lift_bind
  | some variant =>
    refine run_lift_bind.trans (bind_congr fun report? => ?_)
    exact run_lift_bind

theorem outlineLoops_cons_eq : outlineLoops outliner (loop :: rest) start =
    look (·.isCandidate loop) >>= fun candidate =>
      if candidate then outlineLoop outliner loop start >>= fun first =>
        outlineLoops outliner rest first.2 >>= fun later => pure (first.1 :: later.1, later.2)
      else outlineLoops outliner rest start := by
  refine run_lift_bind.trans (bind_congr fun candidate => ?_)
  cases candidate <;> rfl

theorem Decides.yields {report? : Option String} {final : σ}
    (decided : Decides outliner loop start before outcome between final after)
    (reported : between.decisionReport? loop outcome = .ok report?) :
    Yields (outlineLoop outliner loop start) before (⟨loop, outcome, report?⟩, final) after := by
  rw [outlineLoop_eq, yields_bind]
  cases decided with
  | declined answered =>
    exact ⟨_, _, answered, yields_bind.mpr ⟨_, _, yields_look.mpr ⟨reported, rfl⟩, rfl⟩⟩
  | outlined answered replaced =>
    refine ⟨_, _, answered, yields_bind.mpr ⟨_, _, yields_look.mpr ⟨reported, rfl⟩, ?_⟩⟩
    exact yields_bind.mpr ⟨_, _, replaced, rfl⟩

theorem exists_decides {decision : Decision} {final : σ}
    (run : Yields (outlineLoop outliner loop start) before (decision, final) after) :
    ∃ outcome report? between, decision = ⟨loop, outcome, report?⟩ ∧
      Decides outliner loop start before outcome between final after := by
  rw [outlineLoop_eq, yields_bind] at run
  obtain ⟨⟨variant?, left⟩, between, answered, run⟩ := run
  cases variant? with
  | none =>
    simp only [yields_bind, yields_pure, yields_look] at run
    obtain ⟨report?, _, ⟨_, rfl⟩, same, rfl⟩ := run
    obtain ⟨rfl, rfl⟩ := Prod.mk.inj same
    exact ⟨_, report?, after, rfl, .declined answered⟩
  | some variant =>
    simp only [yields_bind, yields_pure, yields_look] at run
    obtain ⟨report?, _, ⟨_, rfl⟩, _, _, replaced, same, rfl⟩ := run
    obtain ⟨rfl, rfl⟩ := Prod.mk.inj same
    exact ⟨_, report?, _, rfl, .outlined answered replaced⟩

theorem Sweep.yields {reports : List (Option String)} {final : σ}
    (sweep : Sweep outliner loops start before moments final after)
    (reported : List.Forall₂ (fun moment report? =>
      moment.program.decisionReport? moment.loop moment.outcome = .ok report?) moments reports) :
    Yields (outlineLoops outliner loops start) before
      (List.zipWith Moment.decision moments reports, final) after := by
  induction sweep generalizing reports with
  | done =>
    cases reported
    rfl
  | pass passed later ih =>
    rw [outlineLoops_cons_eq, yields_bind]
    exact ⟨_, _, yields_look.mpr ⟨passed, rfl⟩, ih reported⟩
  | decide candidate decided later ih =>
    cases reported with
    | cons first others =>
      rw [outlineLoops_cons_eq, yields_bind]
      refine ⟨_, _, yields_look.mpr ⟨candidate, rfl⟩, yields_bind.mpr ⟨_, _, decided.yields first, ?_⟩⟩
      exact yields_bind.mpr ⟨_, _, ih others, rfl⟩

/-- What the phase does is a sweep over the loops. -/
theorem exists_sweep {decisions : List Decision} {final : σ}
    (run : Yields (outlineLoops outliner loops start) before (decisions, final) after) :
    ∃ moments reports, Sweep outliner loops start before moments final after ∧
      moments.length = reports.length ∧
      decisions = List.zipWith Moment.decision moments reports := by
  induction loops generalizing start before decisions with
  | nil =>
    obtain ⟨same, rfl⟩ := yields_pure.mp run
    obtain ⟨rfl, rfl⟩ := Prod.mk.inj same
    exact ⟨[], [], .done, rfl, rfl⟩
  | cons loop rest ih =>
    rw [outlineLoops_cons_eq, yields_bind] at run
    obtain ⟨candidate, _, looked, run⟩ := run
    obtain ⟨asked, rfl⟩ := yields_look.mp looked
    cases candidate with
    | false =>
      obtain ⟨moments, reports, sweep, alike, same⟩ := ih run
      exact ⟨moments, reports, .pass asked sweep, alike, same⟩
    | true =>
      simp only [if_true, yields_bind, yields_pure] at run
      obtain ⟨⟨first, middle⟩, next, deciding, ⟨later, _⟩, _, sweeping, same, rfl⟩ := run
      obtain ⟨rfl, rfl⟩ := Prod.mk.inj same
      obtain ⟨moments, reports, sweep, alike, rfl⟩ := ih sweeping
      obtain ⟨outcome, report?, between, rfl, decided⟩ := exists_decides deciding
      exact ⟨⟨loop, outcome, between⟩ :: moments, report? :: reports, .decide asked decided sweep,
        congrArg Nat.succ alike, rfl⟩

/-- The loops that are decided on are among the loops, in the same order. -/
theorem Sweep.sublist {final : σ}
    (sweep : Sweep outliner loops start before moments final after) :
    (moments.map Moment.loop).Sublist loops := by
  induction sweep with
  | done => exact .slnil
  | pass _ _ ih => exact ih.cons _
  | decide _ _ _ ih => exact ih.cons_cons _

section Plainness

variable [∀ loop state, Plain (outliner loop state)]

theorem Decides.reporting {final : σ}
    (decided : Decides outliner loop start before outcome between final after)
    (reportOutlining developer : Bool) :
    Decides outliner loop start (before.reporting reportOutlining developer) outcome
      (between.reporting reportOutlining developer) final
      (after.reporting reportOutlining developer) := by
  cases decided with
  | declined answered =>
    exact .declined (Plain.yields inferInstance answered reportOutlining developer)
  | outlined answered replaced =>
    exact .outlined (Plain.yields inferInstance answered reportOutlining developer)
      (Plain.yields inferInstance replaced reportOutlining developer)

theorem Sweep.reporting {final : σ}
    (sweep : Sweep outliner loops start before moments final after)
    (reportOutlining developer : Bool) :
    Sweep outliner loops start (before.reporting reportOutlining developer)
      (moments.map (·.reporting reportOutlining developer)) final
      (after.reporting reportOutlining developer) := by
  induction sweep with
  | done => exact .done
  | pass passed later ih =>
    exact .pass (isCandidate_reporting.trans passed) ih
  | decide candidate decided later ih =>
    exact .decide (isCandidate_reporting.trans candidate)
      (decided.reporting reportOutlining developer) ih

/-- If the loop belongs to a module when it is decided on, its report does not stop the pass. -/
theorem stops_or_decides (start : σ)
    (belongs : ∀ answer between, Yields (outliner loop start) before answer between →
      ∃ module, between.owningModule loop = .ok (some module)) :
    (∃ fault, (outlineLoop outliner loop start).Stops before fault) ∨
      ∃ outcome between final after, Decides outliner loop start before outcome between final after ∧
        Moment.Belongs ⟨loop, outcome, between⟩ := by
  rw [outlineLoop_eq]
  rcases (inferInstance : Plain (outliner loop start)).stops_or_yields before with
    ⟨fault, stops⟩ | ⟨⟨variant?, final⟩, between, answered⟩
  · exact .inl ⟨fault, stops.at_once⟩
  cases variant? with
  | none => exact .inr ⟨_, _, _, _, .declined answered, belongs _ _ answered⟩
  | some variant =>
    rcases (inferInstance : Plain (dispatch loop variant)).stops_or_yields between with
      ⟨fault, stops⟩ | ⟨done, after, replaced⟩
    · refine .inl ⟨fault, .later fun reportOutlining developer =>
        ⟨_, Plain.yields inferInstance answered reportOutlining developer, ?_⟩⟩
      have moment : Moment.Belongs ⟨loop, .outlined, between⟩ := belongs _ _ answered
      obtain ⟨_, _, reported⟩ := moment.exists_announces reportOutlining developer
      change (look _ >>= _) _ = _
      rw [(yields_look.mpr ⟨reported, rfl⟩).run_bind]
      exact run_bind_of_error (stops _ _)
    · exact .inr ⟨_, _, _, _, .outlined answered replaced, belongs _ _ answered⟩

end Plainness

end Deciding

/-! ## Along the loops -/

section Along

variable {sharp naked : Prop} {zone : NodeId → Prop} (sound : Sound exact False region before)
  (weathered : Weathered origin before) (orderlyOrigin : Orderly sharp naked zone [] origin)
  (seated : Seated origin)
include sound weathered orderlyOrigin seated

/-- A loop that was there at first belongs to a module when it is decided on. -/
theorem exists_owningModule_of_outline {answer : Option NodeId × GpuLoopBuilder}
    (old : (origin.get? loop).isSome) (reachable : before.Reachable loop)
    (candidate : before.isCandidate loop = .ok true)
    (run : Yields (GpuLoopBuilder.outline loop state) before answer between) :
    ∃ module, between.owningModule loop = .ok (some module) := by
  obtain ⟨draft, _⟩ := GpuLoopBuilder.drafts sound.healthy reachable run
  obtain ⟨_, _, _, _, isLoop⟩ := exists_forLoop_of_isCandidate candidate rfl
  rw [← draft.extended.same_kind (sound.orderly.issued_of_reachable reachable)] at isLoop
  exact (weathered.extend sound.orderly draft.extended).exists_owningModule draft.orderly
    orderlyOrigin seated old ((sound.orderly.reachable_of_extends draft.extended).mpr reachable) isLoop

theorem onward_of_decides (old : (origin.get? loop).isSome) (reachable : before.Reachable loop)
    (candidate : before.isCandidate loop = .ok true)
    (decided : Decides GpuLoopBuilder.outline loop state before outcome between left after) :
    (∃ later, Onward exact region before later after) ∧ Weathered origin after := by
  have belongs : Moment.Belongs ⟨loop, outcome, between⟩ := by
    cases decided with
    | declined answered | outlined answered =>
      exact exists_owningModule_of_outline sound weathered orderlyOrigin seated old reachable
        candidate answered
  obtain ⟨_, _, reported⟩ :=
    belongs.exists_announces between.settings.reportOutlining between.settings.developer
  refine ⟨sound.exists_onward_outlineLoop GpuLoopBuilder.respectful reachable
    (decided.yields reported), ?_⟩
  cases decided with
  | declined answered =>
    obtain ⟨draft, _⟩ := GpuLoopBuilder.drafts sound.healthy reachable answered
    exact weathered.extend sound.orderly draft.extended
  | outlined answered replaced =>
    obtain ⟨draft, variants⟩ := GpuLoopBuilder.drafts sound.healthy reachable answered
    exact weathered.dispatch sound.healthy reachable draft (variants _ rfl).1 replaced

/-- The loops are decided on one after the other, and every one that is belongs to a module. -/
theorem stops_or_sweeps (state : GpuLoopBuilder) (old : ∀ loop ∈ loops, (origin.get? loop).isSome)
    (known : ∀ loop ∈ loops, Known region before loop) :
    (∃ fault, (outlineLoops GpuLoopBuilder.outline loops state).Stops before fault) ∨
      ∃ moments left after, Sweep GpuLoopBuilder.outline loops state before moments left after ∧
        ∀ moment ∈ moments, moment.Belongs := by
  induction loops generalizing region before state with
  | nil => exact .inr ⟨[], state, before, .done, nofun⟩
  | cons loop rest ih =>
    obtain ⟨knownLoop, knownRest⟩ := List.forall_mem_cons.mp known
    obtain ⟨oldLoop, oldRest⟩ := List.forall_mem_cons.mp old
    have asked : ∀ {candidate}, before.isCandidate loop = .ok candidate →
        ∀ reportOutlining developer, Yields (look (·.isCandidate loop))
          (before.reporting reportOutlining developer) candidate
          (before.reporting reportOutlining developer) := fun looked _ _ =>
      yields_look.mpr ⟨isCandidate_reporting.trans looked, rfl⟩
    rw [outlineLoops_cons_eq]
    cases looked : before.isCandidate loop with
    | error fault =>
      refine .inl ⟨fault, Stops.at_once fun _ _ => ?_⟩
      rw [look, isCandidate_reporting, looked]
    | ok candidate =>
      cases candidate with
      | false =>
        obtain ⟨fault, stops⟩ | ⟨moments, left, after, sweep, belong⟩ :=
          ih sound weathered state oldRest knownRest
        · exact .inl ⟨fault, .later fun _ _ => ⟨_, asked looked _ _, stops _ _⟩⟩
        · exact .inr ⟨moments, left, after, .pass looked sweep, belong⟩
      | true =>
        have reachable := sound.reachable_of_isCandidate knownLoop looked rfl
        obtain ⟨fault, stops⟩ | ⟨outcome, between, middle, next, decided, belongs⟩ :=
          stops_or_decides state fun _ _ => exists_owningModule_of_outline sound weathered
            orderlyOrigin seated oldLoop reachable looked
        · exact .inl ⟨fault, .later fun _ _ =>
            ⟨_, asked looked _ _, run_bind_of_error (stops _ _)⟩⟩
        obtain ⟨⟨later, onward⟩, weatheredNext⟩ :=
          onward_of_decides sound weathered orderlyOrigin seated oldLoop reachable looked decided
        obtain ⟨fault, stops⟩ | ⟨moments, left, after, sweep, belong⟩ :=
          ih onward.sound weatheredNext middle oldRest fun other member =>
            onward.known other (knownRest other member)
        · refine .inl ⟨fault, .later fun reportOutlining developer => ⟨_, asked looked _ _, ?_⟩⟩
          obtain ⟨_, _, reported⟩ := belongs.exists_announces reportOutlining developer
          have first := (decided.reporting reportOutlining developer).yields reported
          exact first.run_bind.trans (run_bind_of_error (stops _ _))
        · exact .inr ⟨_ :: moments, left, after, .decide looked decided sweep,
            List.forall_mem_cons.mpr ⟨belongs, belong⟩⟩

end Along

/-! ## The whole pass -/

/-- The second phase of the pass. -/
def Edit.relocateOffloaded : Edit (List Relocation) := do
  let fns := (← get).index.fns.toList
  let offloaded ← fns.filterM fun fn => look (·.isOffloaded fn)
  offloaded.mapM relocate

instance : Plain relocateOffloaded :=
  .read (fun _ => inferInstance) fun _ _ _ => rfl

theorem outlineWith_eq {σ : Type} {outliner : LoopOutliner σ} {start : σ} :
    outlineWith outliner start = withTraversal "createGpuForLoops" do
      let loops := (← get).index.loops.toList
      let decided ← outlineLoops outliner loops start
      let relocated ← relocateOffloaded
      return (⟨decided.1, relocated⟩, decided.2) := by
  simp only [outlineWith, relocateOffloaded, bind_assoc]

/-- The pass decides on the loops and then relocates functions. -/
theorem outline_apply : outline before =
    outlineLoops GpuLoopBuilder.outline before.index.loops.toList {} before.entered >>= fun decided =>
      relocateOffloaded decided.2 >>= fun relocated =>
        pure (⟨decided.1.1, relocated.1⟩, { relocated.2 with traversal? := before.traversal? }) := by
  rw [outline, outlineWith_eq]
  change ((outlineLoops GpuLoopBuilder.outline before.index.loops.toList {} before.entered >>=
      fun decided => relocateOffloaded decided.2 >>= fun relocated =>
        pure ((OutlineReport.mk decided.1.1 relocated.1, decided.1.2), relocated.2)) >>= fun made =>
      pure (made.1, { made.2 with traversal? := before.traversal? })) >>= (fun made =>
      pure (made.1.1, made.2)) = _
  simp only [bind_assoc, pure_bind]

section Phases

variable {decisions : List Decision} {relocated : List Relocation}

theorem outline_stops (stops : outlineLoops GpuLoopBuilder.outline before.index.loops.toList {}
    before.entered = .error fault) : outline before = .error fault := by
  rw [outline_apply, stops]
  rfl

variable (run : Yields (outlineLoops GpuLoopBuilder.outline before.index.loops.toList {})
  before.entered (decisions, left) between)
include run

theorem outline_stops_relocating (stops : relocateOffloaded between = .error fault) :
    outline before = .error fault := by
  rw [Yields] at run
  rw [outline_apply, run]
  change relocateOffloaded between >>= _ = _
  rw [stops]
  rfl

theorem yields_outline (relocating : Yields relocateOffloaded between relocated after) :
    Yields outline before ⟨decisions, relocated⟩ { after with traversal? := before.traversal? } := by
  rw [Yields] at run relocating ⊢
  rw [outline_apply, run]
  change relocateOffloaded between >>= _ = _
  rw [relocating]
  rfl

end Phases

/-- The reports of decisions on loops that belong to modules, and the lines in them. -/
theorem exists_lines (belong : ∀ moment ∈ moments, moment.Belongs)
    (reportOutlining developer : Bool) :
    ∃ lines : List (Option String),
      List.Forall₂ (fun moment line? => moment.Announces developer line?)
        (moments.map (·.reporting reportOutlining developer)) lines ∧
      List.Forall₂ (fun moment report? =>
          moment.program.decisionReport? moment.loop moment.outcome = .ok report?)
        (moments.map (·.reporting reportOutlining developer))
        (lines.map fun line? => if reportOutlining then line? else none) := by
  induction moments with
  | nil => exact ⟨[], .nil, .nil⟩
  | cons moment rest ih =>
    obtain ⟨belongs, belongRest⟩ := List.forall_mem_cons.mp belong
    obtain ⟨line?, announces, reported⟩ := belongs.exists_announces reportOutlining developer
    obtain ⟨lines, allAnnounce, allReported⟩ := ih belongRest
    exact ⟨line? :: lines, .cons announces allAnnounce, .cons reported allReported⟩

theorem decisions_alike {reports : List (Option String)}
    (alike : moments.length = reports.length) (outcome : Outcome) :
    ((List.zipWith Moment.decision moments reports).filter (·.outcome = outcome)).map Decision.loop =
      Moment.loops moments outcome := by
  induction moments generalizing reports with
  | nil => rfl
  | cons moment rest ih =>
    cases reports with
    | nil => cases alike
    | cons report? others =>
      have same := ih (Nat.succ.inj alike)
      by_cases isOutcome : moment.outcome = outcome <;>
        simpa [Moment.loops, Moment.decision, isOutcome] using same

theorem messages_alike {reports : List (Option String)}
    (alike : moments.length = reports.length) :
    (List.zipWith Moment.decision moments reports).filterMap Decision.report? =
      reports.reduceOption := by
  induction moments generalizing reports with
  | nil =>
    obtain rfl := List.length_eq_zero_iff.mp alike.symm
    rfl
  | cons moment rest ih =>
    cases reports with
    | nil => cases alike
    | cons report? others =>
      have same := ih (Nat.succ.inj alike)
      cases report? <;> simp [Moment.decision, same]

theorem loops_map_reporting {reportOutlining developer : Bool} :
    Moment.loops (moments.map (·.reporting reportOutlining developer)) outcome =
      Moment.loops moments outcome := by
  simp [Moment.loops, List.filter_map, Function.comp_def, Moment.reporting]

/-- The loops are decided on in the order of their creation. -/
theorem Sweep.ascending {σ : Type} (program : Program) {outliner : LoopOutliner σ} {start final : σ}
    (sweep : Sweep outliner program.index.loops.toList start before moments final after) :
    moments.Pairwise fun first second => first.loop.val < second.loop.val := by
  have sorted := (program.index.ascending_entries .loop).sublist sweep.sublist
  rwa [List.pairwise_map] at sorted

/-- A sweep over loops that belong to modules leads to decisions, whatever is to be reported, with
the lines in which they are reported. -/
theorem Sweep.exists_reported (sweep : Sweep GpuLoopBuilder.outline before.index.loops.toList {}
      before.entered moments left after) (belong : ∀ moment ∈ moments, moment.Belongs)
    (reportOutlining developer : Bool) :
    ∃ decisions,
      Yields (outlineLoops GpuLoopBuilder.outline before.index.loops.toList {})
        (before.entered.reporting reportOutlining developer) (decisions, left)
        (after.reporting reportOutlining developer) ∧
      ∀ report : OutlineReport, report.decisions = decisions →
        report.outlined = Moment.loops moments .outlined ∧
        report.declined = Moment.loops moments .declined ∧
        (before.reporting reportOutlining developer).Reported report := by
  obtain ⟨lines, announced, reported⟩ := exists_lines belong reportOutlining developer
  have sweeping := sweep.reporting reportOutlining developer
  have ascending : (moments.map (·.reporting reportOutlining developer)).Pairwise _ :=
    sweeping.ascending before
  have alike := reported.length_eq
  refine ⟨_, sweeping.yields reported, fun report same => ?_⟩
  have decided : ∀ outcome, report.loops outcome = Moment.loops moments outcome := fun outcome => by
    rw [OutlineReport.loops, same, decisions_alike alike, loops_map_reporting]
  refine ⟨decided .outlined, decided .declined, _, lines, left, _, sweeping, ascending, ?_, ?_,
    announced, ?_⟩
  · rw [loops_map_reporting]
    exact decided .outlined
  · rw [loops_map_reporting]
    exact decided .declined
  · rw [OutlineReport.messages, same, messages_alike alike]
    cases reportOutlining <;> simp [Program.reporting, List.reduceOption_replicate_none]

/-- Reports only observe.  Whatever is to be reported, a pass over a consistent program that was
built through the interface, and whose symbols sit where they are defined, stops with the same
fault, or it makes the same program and decides and relocates the same; and its report has the line
of every decision that is to be reported, in the order of the loops. -/
theorem outline_of_reporting (built : Built before) (verified : before.verify = .ok none)
    (seated : Seated before) :
    (∃ fault, outline.Stops before fault) ∨
      ∃ (outlined declined : List NodeId) (relocated : List Relocation) (after : Program),
        ∀ reportOutlining developer, ∃ report,
        Yields outline (before.reporting reportOutlining developer) report
          (after.reporting reportOutlining developer) ∧
        report.outlined = outlined ∧ report.declined = declined ∧ report.relocated = relocated ∧
        (before.reporting reportOutlining developer).Reported report := by
  have sound := sound_of_verify verified (Built.moduleRoots built) seated
  have entering : Progress
      (Sound before.Indexed False fun id => before.Reachable id ∨ before.get? id = none) before
      before.entered :=
    (Sound.workshop _ _ _).progress_of_nodes sound rfl rfl rfl
  obtain ⟨fault, stops⟩ | ⟨moments, left, decided, sweep, belong⟩ :=
    stops_or_sweeps entering.kept ((Weathered.refl before).frame rfl rfl) sound.orderly seated {}
      (fun loop member => (sound.known_of_mem_loops loop member).issued)
      entering.kept.known_of_mem_loops
  · exact .inl ⟨fault, fun _ _ => outline_stops (stops _ _)⟩
  obtain ⟨fault, stops⟩ | ⟨relocated, finished, relocating⟩ :=
    (inferInstance : Plain relocateOffloaded).stops_or_yields decided
  · refine .inl ⟨fault, fun reportOutlining developer => ?_⟩
    obtain ⟨_, run, _⟩ := sweep.exists_reported belong reportOutlining developer
    exact outline_stops_relocating run (stops _ _)
  · refine .inr ⟨Moment.loops moments .outlined, Moment.loops moments .declined, relocated,
      { finished with traversal? := before.traversal? }, fun reportOutlining developer => ?_⟩
    obtain ⟨decisions, run, reports⟩ := sweep.exists_reported belong reportOutlining developer
    obtain ⟨outlined, declined, reported⟩ := reports ⟨decisions, relocated⟩ rfl
    exact ⟨⟨decisions, relocated⟩, yields_outline run (Plain.yields inferInstance relocating _ _),
      outlined, declined, rfl, reported⟩

/-- The loop is outlined, and there is a line for it if decisions are to be reported. -/
theorem outline_of_reporting_oneLoop : Built oneLoop ∧ oneLoop.verify = .ok none ∧ Seated oneLoop ∧
    ∃ (outlined declined : List NodeId) (relocated : List Relocation) (after : Program),
      (∃ loop, outlined = [loop]) ∧
      (∀ reportOutlining developer, ∃ report,
        Yields outline (oneLoop.reporting reportOutlining developer) report
          (after.reporting reportOutlining developer) ∧
        report.outlined = outlined ∧ report.declined = declined ∧ report.relocated = relocated ∧
        (oneLoop.reporting reportOutlining developer).Reported report) ∧
      ∃ report, Yields outline (oneLoop.reporting true false) report (after.reporting true false) ∧
        report.messages = ["Replacing loop with CPU and GPU loops at m:0"] := by
  refine ⟨built_oneLoop, verify_oneLoop, seated_oneLoop, ?_⟩
  have runs : ((outline (oneLoop.reporting true false)).map
      fun made => (made.1.messages, made.1.outlined.length)).toOption =
        some (["Replacing loop with CPU and GPU loops at m:0"], 1) := by decide +kernel
  obtain ⟨fault, stops⟩ | ⟨outlined, declined, relocated, after, alike⟩ :=
    outline_of_reporting built_oneLoop verify_oneLoop seated_oneLoop
  · rw [stops] at runs
    cases runs
  · obtain ⟨report, run, same, _⟩ := alike true false
    rw [show outline (oneLoop.reporting true false) = _ from run] at runs
    obtain ⟨messages, length⟩ := Prod.mk.inj (Option.some.inj runs)
    rw [same] at length
    exact ⟨outlined, declined, relocated, after, List.length_eq_one_iff.mp length, alike, report, run,
      messages⟩

end ProgramTree
