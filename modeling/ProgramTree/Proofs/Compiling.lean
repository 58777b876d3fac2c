import ProgramTree.Proofs.GpuVariants
import ProgramTree.Proofs.Plainness
import ProgramTree.Proofs.Outlining
import ProgramTree.Proofs.Sessions

/-!
# Compiling keeps trees consistent

A pass over a program that was built through the interface keeps its tree consistent.  A
compilation is therefore given up only for the tree that it was given.
-/

namespace ProgramTree

open Program

namespace Edit

section Work

variable {queue rest : GoalQueue} {stage : Stage} {reports : List String}

theorem work_done (next : queue.next? = none) : work queue reports = pure reports := by
  rw [work]
  split <;> simp_all

theorem work_verify (next : queue.next? = some (.verify stage, rest)) :
    work queue reports = (do
      expectConsistent
      work (rest.finish (.verify stage)) reports) := by
  rw [work]
  split <;> simp_all

theorem work_outline (next : queue.next? = some (.outline, rest)) :
    work queue reports = (do
      let report ← outline
      work ((rest.add (.verify .outlining)).finish .outline) (reports ++ report.messages)) := by
  rw [work]
  split <;> simp_all

end Work

/-- A compilation checks the tree, outlines its loops and checks it again. -/
theorem compile_eq : compile = do
    expectConsistent
    let report ← outline
    expectConsistent
    return report.messages := by
  rw [compile, work_verify rfl]
  congr 1
  funext _
  rw [work_outline rfl]
  congr 1
  funext report
  rw [work_verify rfl, work_done rfl, List.nil_append]

variable {before after : Program}

theorem yields_expectConsistent {answer : Unit} :
    Yields expectConsistent before answer after ↔ before.verify = .ok none ∧ after = before := by
  rw [expectConsistent, yields_bind]
  constructor
  · rintro ⟨defect?, middle, looked, run⟩
    obtain ⟨verdict, rfl⟩ := yields_look.mp looked
    cases defect? with
    | none => exact ⟨verdict, (yields_pure.mp run).2⟩
    | some defect =>
      simp only [yields_bind] at run
      obtain ⟨_, _, _, never⟩ := run
      exact (yields_throw never).elim
  · rintro ⟨verdict, rfl⟩
    exact ⟨none, after, yields_look.mpr ⟨verdict, rfl⟩, yields_pure.mpr ⟨rfl, rfl⟩⟩

/-- If the tree was consistent before and after outlining, the program is not given up. -/
theorem verify_of_compile {report : String} (stops : compile before = .error (.inconsistent report))
    (keeps : ∀ answer after, before.verify = .ok none → Yields outline before answer after →
      after.verify = .ok none) : before.verify ≠ .ok none := by
  intro verified
  have checked : Yields expectConsistent before () before := yields_expectConsistent.mpr ⟨verified, rfl⟩
  cases outlined : outline before with
  | error fault =>
    have lenient : ProgramTree.Lenient (outline before) := Edit.Lenient.runs before
    rw [Yields] at checked
    have fails : compile before = .error fault := by
      simp only [compile_eq, bind, StateT.bind, checked, outlined, Except.bind]
    rw [stops] at fails
    cases fails
    exact lenient.no_verdict report outlined
  | ok result =>
    have run : Yields compile before result.1.messages result.2 := by
      rw [compile_eq, yields_bind]
      refine ⟨(), before, checked, ?_⟩
      rw [yields_bind]
      refine ⟨result.1, result.2, outlined, ?_⟩
      rw [yields_bind]
      exact ⟨(), result.2, yields_expectConsistent.mpr ⟨keeps _ _ verified outlined, rfl⟩,
        yields_pure.mpr ⟨rfl, rfl⟩⟩
    rw [Yields, stops] at run
    cases run

end Edit

namespace Program

variable {before : Program}

/-- Outlining a program that was built through the interface, and whose symbols sit where they
are defined, keeps its tree consistent and its index exact, whatever outliner is used.  So a
compilation is given up only if the tree that it is given is not consistent. -/
theorem consistent_of_outlining (built : Built before) (seated : Seated before) :
    (∀ {σ : Type} (outliner : LoopOutliner σ) (state : σ) (answer : OutlineReport × σ)
        (after : Program), outliner.Respectful → before.verify = .ok none →
        Edit.Yields (Edit.outlineWith outliner state) before answer after →
        after.verify = .ok none ∧ (before.Indexed → after.Indexed)) ∧
      ∀ report, Edit.compile before = .error (.inconsistent report) →
        before.verify ≠ .ok none := by
  have keeps : ∀ {σ : Type} (outliner : LoopOutliner σ) (state : σ) (answer : OutlineReport × σ)
      (after : Program), outliner.Respectful → before.verify = .ok none →
      Edit.Yields (Edit.outlineWith outliner state) before answer after →
      after.verify = .ok none ∧ (before.Indexed → after.Indexed) :=
    fun _ _ _ _ respectful verified run =>
      verify_of_outlineWith verified (Built.moduleRoots built) seated respectful run
  refine ⟨keeps, fun report stops => Edit.verify_of_compile stops fun answer after verified run => ?_⟩
  simp only [Edit.outline, Edit.yields_bind, Edit.yields_pure] at run
  obtain ⟨result, _, run, _, rfl⟩ := run
  exact (keeps _ _ result _ GpuLoopBuilder.respectful verified run).1

/-! ## A loop that is outlined -/

/-- It is enough to look at the nodes that have an enclosing symbol. -/
theorem seated_of_sitsInDefinition {program : Program} (verified : program.verify = .ok none)
    (modules : ∀ root ∈ program.roots, (program.kindAt root).any Kind.isModule)
    (sits : ∀ place < program.nodes.size, (program.contextOf ⟨place + 1⟩).symbol?.isSome →
      program.sitsInDefinition ⟨place + 1⟩) : Seated program := by
  intro id symbol reachable notRoot known
  have consistent := consistent_of_verify verified
  have placed := (consistent.placed modules reachable).1.resolve_left notRoot
  obtain ⟨place, rfl, inBounds⟩ := val_of_issued (get?_isSome_of_kindAt known)
  exact exists_of_sitsInDefinition known (sits place inBounds placed)

end Program

/-- A module with a function that is fit for the GPU and runs one loop. -/
def Edit.buildOneLoop : Edit NodeId := do
  let index ← newVar "i" none
  let body ← newBlock []
  let loop ← newForLoop [index] [] body true
  let fnBody ← newBlock [loop]
  let fn ← newFn "f" [] fnBody none
  addFlag fn .fitForGpu
  let defineFn ← define fn
  let module ← newModule "m" .user [defineFn]
  addModule module
  return loop

theorem client_buildOneLoop : Client Edit.buildOneLoop := by
  refine .bind (.newSymbol _ _ _) fun index => .bind (.newBlock _) fun body => ?_
  refine .bind (.newForLoop _ _ _ _) fun loop => .bind (.newBlock _) fun fnBody => .bind (.newFn _ _ _ _) fun fn => ?_
  refine .bind (.addFlag _ _) fun _ => .bind (.newDefinition _ _ _) fun defineFn => ?_
  exact .bind (.newModule _ _ _) fun module => .bind (.addModule _) fun _ => .pure _

namespace Program

/-- The program with one loop. -/
def oneLoop : Program :=
  match Edit.buildOneLoop (.empty {}) with
  | .ok (_, program) => program
  | .error _ => .empty {}

/-- What can be looked up in the program with one loop. -/
theorem looks_oneLoop : (Edit.buildOneLoop (.empty {})).isOk ∧ oneLoop.verify = .ok none ∧
    ∀ place < oneLoop.nodes.size, (oneLoop.contextOf ⟨place + 1⟩).symbol?.isSome →
      oneLoop.sitsInDefinition ⟨place + 1⟩ := by
  decide +kernel

theorem built_oneLoop : Built oneLoop := by
  obtain ⟨loop, program, run⟩ := Edit.yields_of_isOk looks_oneLoop.1
  have same : oneLoop = program := by rw [oneLoop, show Edit.buildOneLoop (.empty {}) = _ from run]
  exact ⟨{}, _, Edit.buildOneLoop, loop, client_buildOneLoop, same ▸ run⟩

theorem verify_oneLoop : oneLoop.verify = .ok none :=
  looks_oneLoop.2.1

theorem seated_oneLoop : Seated oneLoop :=
  seated_of_sitsInDefinition verify_oneLoop (Built.moduleRoots built_oneLoop) looks_oneLoop.2.2

/-- The loop is replaced by its GPU variant and a copy, and the tree stays consistent. -/
theorem consistent_of_outlining_oneLoop :
    Built oneLoop ∧ Seated oneLoop ∧ ∃ answer after,
      Edit.Yields (Edit.outlineWith GpuLoopBuilder.outline {}) oneLoop answer after ∧
        answer.1.outlined.length = 1 ∧ after.verify = .ok none := by
  have outlines : ((Edit.outlineWith GpuLoopBuilder.outline {} oneLoop).map
      (·.1.1.outlined.length)).toOption = some 1 := by decide +kernel
  cases result : Edit.outlineWith GpuLoopBuilder.outline {} oneLoop with
  | error fault =>
    rw [result] at outlines
    cases outlines
  | ok ended =>
    obtain ⟨answer, after⟩ := ended
    rw [result] at outlines
    have outlined : answer.1.outlined.length = 1 := Option.some.inj outlines
    have consistent := (consistent_of_outlining built_oneLoop seated_oneLoop).1
      GpuLoopBuilder.outline {} answer after GpuLoopBuilder.respectful verify_oneLoop result
    exact ⟨built_oneLoop, seated_oneLoop, answer, after, result, outlined, consistent.1⟩

end Program

end ProgramTree
