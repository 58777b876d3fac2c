import ProgramTree.Proofs.Inspection
import ProgramTree.Proofs.Outlining

/-!
# Loops that are left alone

Whether a loop is decided on is only looked up, and so is whether a loop has a GPU variant.  If no
loop has one, the first phase of the pass ends where it began, and the second phase finds the same
functions as it would have found then.
-/

namespace ProgramTree

open Program Edit

/-- An outliner that declines a loop has changed neither the program nor its own state. -/
def LoopOutliner.Discreet {σ : Type} (outliner : LoopOutliner σ) : Prop :=
  ∀ loop state before left after, Yields (outliner loop state) before (none, left) after →
    after = before ∧ left = state

/-- No live function is flagged for offload. -/
def Program.OffloadsNothing (program : Program) : Prop :=
  ∀ fn kind, program.kindAt fn = some kind → kind.isFn → kind.hasFlag .offloadToGpu →
    program.isAlive fn ≠ .ok true

variable {σ : Type} {outliner : LoopOutliner σ} {state left : σ} {before after : Program}
  {loop : NodeId} {loops : List NodeId} {decision : Decision} {decisions : List Decision}
  {report : OutlineReport}

theorem GpuLoopBuilder.discreet : LoopOutliner.Discreet GpuLoopBuilder.outline := by
  intro loop builder before left after run
  simp only [GpuLoopBuilder.outline, yields_bind, yields_look] at run
  obtain ⟨parts?, _, ⟨_, rfl⟩, run⟩ := run
  cases parts? with
  | none =>
    obtain ⟨answered, rfl⟩ := yields_pure.mp run
    exact ⟨rfl, (Prod.mk.inj answered).2⟩
  | some parts =>
    simp only [yields_bind, yields_pure] at run
    obtain ⟨_, _, _, answered, _⟩ := run
    cases answered

/-! ## The first phase -/

theorem Kind.isFn_of_category {kind : Kind} (category : kind.category? = some .fn) : kind.isFn := by
  rw [category?.eq_def] at category
  split at category <;> simp_all [isFn, symbol?]

theorem OutlineReport.declined_of_mem (noneOutlined : report.outlined = [])
    (member : decision ∈ report.decisions) : decision.outcome = .declined := by
  cases outcome : decision.outcome with
  | declined => rfl
  | outlined =>
    have listed : decision.loop ∈ report.outlined :=
      List.mem_map_of_mem (List.mem_filter.mpr ⟨member, by simp [outcome]⟩)
    rw [noneOutlined] at listed
    cases listed

section Deciding

variable (discreet : outliner.Discreet)
include discreet

theorem unchanged_of_outlineLoop
    (run : Yields (outlineLoop outliner loop state) before (decision, left) after)
    (declined : decision.outcome = .declined) : after = before ∧ left = state := by
  simp only [outlineLoop, yields_run_bind] at run
  obtain ⟨⟨variant?, middle⟩, between, answered, run⟩ := run
  cases variant? with
  | none =>
    obtain ⟨rfl, rfl⟩ := discreet loop state before middle between answered
    simp only [yields_run_bind, yields_run_lift, yields_run_pure, yields_look] at run
    obtain ⟨_, _, ⟨⟨_, rfl⟩, same⟩, made, rfl⟩ := run
    exact ⟨rfl, (Prod.mk.inj made).2.trans same⟩
  | some variant =>
    simp only [yields_run_bind, yields_run_pure] at run
    obtain ⟨_, _, _, _, _, _, made, _⟩ := run
    cases made
    cases declined

/-- If every loop is declined, nothing happens. -/
theorem unchanged_of_outlineLoops
    (run : Yields (outlineLoops outliner loops state) before (decisions, left) after)
    (declined : ∀ decision ∈ decisions, decision.outcome = .declined) :
    after = before ∧ left = state := by
  induction loops generalizing state before decisions with
  | nil =>
    obtain ⟨made, rfl⟩ := yields_run_pure.mp run
    exact ⟨rfl, (Prod.mk.inj made).2⟩
  | cons loop rest ih =>
    simp only [outlineLoops, yields_run_bind, yields_run_lift, yields_look] at run
    obtain ⟨⟨candidate, _⟩, _, ⟨⟨_, rfl⟩, rfl⟩, run⟩ := run
    cases candidate with
    | false => exact ih run declined
    | true =>
      simp only [if_true, yields_run_bind, yields_run_pure] at run
      obtain ⟨⟨first, middle⟩, between, runLoop, ⟨others, _⟩, _, runRest, made, rfl⟩ := run
      obtain ⟨rfl, rfl⟩ := Prod.mk.inj made
      obtain ⟨rfl, rfl⟩ := unchanged_of_outlineLoop discreet runLoop (declined first (by simp))
      exact ih runRest fun decision member => declined decision (by simp [member])

end Deciding

/-! ## The whole pass -/

namespace Program

/-- Where no live function is flagged, the second phase has nothing to do. -/
theorem OffloadsNothing.offloaded_eq_nil {fns : List NodeId} (wellFormed : WellFormed before)
    (offloadsNothing : before.OffloadsNothing)
    (offloaded : before.index.fns.toList.filterM before.isOffloaded = .ok fns) : fns = [] := by
  refine List.eq_nil_iff_forall_not_mem.mpr fun fn member => ?_
  obtain ⟨indexed, looked⟩ := Sound.mem_of_offloaded offloaded fn member
  obtain ⟨_, entered⟩ := (wellFormed.indexed_iff fn .fn).mp indexed
  obtain ⟨kind, known, category⟩ := Option.bind_eq_some_iff.mp entered
  simp only [isOffloaded, hasFlag, Fault.bind_eq_ok, Fault.pure_eq_ok, kindOf_eq_ok] at looked
  obtain ⟨flagged, ⟨_, knownAgain, rfl⟩, looked⟩ := looked
  obtain rfl := Option.some.inj (known.symm.trans knownAgain)
  cases isFlagged : kind.hasFlag .offloadToGpu with
  | false => simp [isFlagged, Fault.pure_eq_ok] at looked
  | true =>
    rw [isFlagged, if_pos rfl] at looked
    exact offloadsNothing fn kind known (Kind.isFn_of_category category) isFlagged looked

namespace WellFormed

variable (wellFormed : WellFormed before) (offloadsNothing : before.OffloadsNothing)
include wellFormed offloadsNothing

theorem unchanged_of_outlineWith (discreet : outliner.Discreet)
    (run : Yields (outlineWith outliner state) before (report, left) after)
    (noneOutlined : report.outlined = []) :
    after = before ∧ left = state ∧ report.relocated = [] := by
  obtain ⟨decided, fns, finished, runLoops, offloaded, runRelocate, rfl⟩ :=
    Sound.exists_phases_of_outlineWith run
  obtain ⟨rfl, rfl⟩ := unchanged_of_outlineLoops discreet runLoops fun _ member =>
    report.declined_of_mem noneOutlined member
  obtain rfl := offloadsNothing.offloaded_eq_nil wellFormed offloaded
  obtain ⟨relocated, rfl⟩ := yields_pure.mp runRelocate
  exact ⟨rfl, rfl, relocated⟩

end WellFormed

end Program

/-- **Declining changes nothing.**  If no live function is flagged for offload, and the pass ends
without having outlined a loop, then the program is what it was, whatever loops were declined; the
outliner has counted no function, and nothing was relocated. -/
theorem Program.WellFormed.unchanged_of_declined (wellFormed : WellFormed before)
    (offloadsNothing : before.OffloadsNothing) :
    (∀ (builder left : GpuLoopBuilder) (report : OutlineReport) (after : Program),
      Yields (outlineWith GpuLoopBuilder.outline builder) before (report, left) after →
      report.outlined = [] → after = before ∧ left = builder ∧ report.relocated = []) ∧
    ∀ (report : OutlineReport) (after : Program), Yields outline before report after →
      report.outlined = [] → after = before ∧ report.relocated = [] := by
  constructor
  · intro builder left report after run noneOutlined
    exact wellFormed.unchanged_of_outlineWith offloadsNothing GpuLoopBuilder.discreet run
      noneOutlined
  · intro report after run noneOutlined
    simp only [outline, yields_bind, yields_pure] at run
    obtain ⟨_, _, passing, rfl, rfl⟩ := run
    obtain ⟨same, _, nothing⟩ := wellFormed.unchanged_of_outlineWith offloadsNothing
      GpuLoopBuilder.discreet passing noneOutlined
    exact ⟨same, nothing⟩

/-- A loop over two indices, and one whose body returns, in a function that is fit for the GPU.
Another function is flagged for offload, but not defined. -/
def Program.stubbornLoops : Program := Edit.making do
  let row ← newVar "i" none
  let column ← newVar "j" none
  let pairBody ← newBlock []
  let paired ← newForLoop [row, column] [] pairBody true
  let index ← newVar "k" none
  let jump ← newReturn none
  let jumpBody ← newBlock [jump]
  let jumping ← newForLoop [index] [] jumpBody true
  let fnBody ← newBlock [paired, jumping]
  let fn ← newFn "f" [] fnBody none
  addFlag fn .fitForGpu
  let defineFn ← define fn
  let spareBody ← newBlock []
  let spare ← newFn "g" [] spareBody none
  addFlag spare .offloadToGpu
  let module ← newModule "m" .user [defineFn]
  addModule module

theorem Program.offloadsNothing_stubbornLoops : stubbornLoops.OffloadsNothing := by
  have deadIfFlagged : ∀ place < stubbornLoops.nodes.size,
      (stubbornLoops.kindAt ⟨place + 1⟩).any (·.hasFlag .offloadToGpu) →
      (stubbornLoops.isAlive ⟨place + 1⟩).toOption = some false := by
    decide +kernel
  intro fn kind known _ flagged alive
  obtain ⟨place, rfl, inBounds⟩ := val_of_issued (get?_isSome_of_kindAt known)
  have dead := deadIfFlagged place inBounds (by rw [known, Option.any_some, flagged])
  rw [alive] at dead
  cases dead

/-- Both loops are declined. -/
theorem Program.WellFormed.unchanged_of_declined_stubbornLoops :
    WellFormed stubbornLoops ∧ stubbornLoops.OffloadsNothing ∧
      ∃ report, Yields outline stubbornLoops report stubbornLoops ∧ report.outlined = [] ∧
        report.declined = [⟨21⟩, ⟨29⟩] ∧ report.relocated = [] := by
  have standsUp : stubbornLoops.StandsUp ⟨42⟩ := by decide +kernel
  have wellFormed := standsUp.inspected.wellFormed
  have decided : ((outline stubbornLoops).map fun made =>
      (made.1.outlined, made.1.declined)).toOption = some ([], [⟨21⟩, ⟨29⟩]) := by decide +kernel
  have ends : (outline stubbornLoops).isOk := by decide +kernel
  obtain ⟨report, after, run⟩ := yields_of_isOk ends
  rw [show outline stubbornLoops = _ from run] at decided
  obtain ⟨outlined, declined⟩ := Prod.mk.inj (Option.some.inj decided)
  obtain ⟨rfl, nothing⟩ := (unchanged_of_declined wellFormed offloadsNothing_stubbornLoops).2
    report after run outlined
  exact ⟨wellFormed, offloadsNothing_stubbornLoops, report, run, outlined, declined, nothing⟩

end ProgramTree
