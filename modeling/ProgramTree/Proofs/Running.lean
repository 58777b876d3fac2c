import Mathlib.Data.List.Forall2
import ProgramTree.Edit

/-!
# What an edit leaves behind

`Yields edit before answer after` says that an edit ends well.  The equivalences
below take a sequence of steps apart, so that no later proof unfolds the monad.
`Maintains` is the partial-correctness judgement for a property that every step
keeps; its rules follow the way edits are put together.
-/

namespace ProgramTree

variable {α β : Type}

theorem Fault.bind_eq_ok
    {query : Except Fault α} {next : α → Except Fault β} {answer : β} :
    (query >>= next) = .ok answer ↔
      ∃ middle, query = .ok middle ∧ next middle = .ok answer := by
  cases query with
  | error fault => simp [bind, Except.bind]
  | ok middle => simp [bind, Except.bind]

theorem Fault.pure_eq_ok {given answer : α} :
    (pure given : Except Fault α) = .ok answer ↔ given = answer := by
  simp [pure, Except.pure]

theorem Fault.toOption_eq_some {query : Except Fault α} {answer : α} :
    query.toOption = some answer ↔ query = .ok answer := by
  cases query <;> simp [Except.toOption]

theorem Fault.ite_eq_ok
    {condition : Prop} [Decidable condition] {left right : Except Fault α} {answer : α} :
    (if condition then left else right) = .ok answer ↔
      (condition ∧ left = .ok answer) ∨ (¬ condition ∧ right = .ok answer) := by
  by_cases holds : condition <;> simp [holds]

theorem Fault.mapM_eq_ok {query : α → Except Fault β} {items : List α} {answers : List β} :
    items.mapM query = .ok answers ↔
      List.Forall₂ (fun item answer => query item = .ok answer) items answers := by
  induction items generalizing answers with
  | nil =>
    rw [List.mapM_nil, Fault.pure_eq_ok, List.forall₂_nil_left_iff, eq_comm]
  | cons first rest ih =>
    simp only [List.mapM_cons, Fault.bind_eq_ok, Fault.pure_eq_ok, ih,
      List.forall₂_cons_left_iff]
    constructor
    · rintro ⟨head, headFound, tail, tailFound, rfl⟩
      exact ⟨head, tail, headFound, tailFound, rfl⟩
    · rintro ⟨head, tail, headFound, tailFound, rfl⟩
      exact ⟨head, headFound, tail, tailFound, rfl⟩

/-- The items that pass the test, put in reverse before those that passed earlier. -/
theorem Fault.filterAuxM_eq_ok {test : α → Except Fault Bool} {items earlier answers : List α} :
    List.filterAuxM test items earlier = .ok answers ↔
      (∀ item ∈ items, ∃ passed, test item = .ok passed) ∧
        answers = (items.filter fun item => (test item).toOption = some true).reverse ++ earlier := by
  induction items generalizing earlier with
  | nil =>
    rw [List.filterAuxM, Fault.pure_eq_ok]
    simp [eq_comm]
  | cons first rest ih =>
    simp only [List.filterAuxM, Fault.bind_eq_ok, ih]
    constructor
    · rintro ⟨passed, tested, ends, rfl⟩
      refine ⟨List.forall_mem_cons.mpr ⟨⟨passed, tested⟩, ends⟩, ?_⟩
      cases passed <;> simp [tested, Except.toOption]
    · rintro ⟨ends, rfl⟩
      obtain ⟨passed, tested⟩ := ends first (by simp)
      refine ⟨passed, tested, fun item member => ends item (by simp [member]), ?_⟩
      cases passed <;> simp [tested, Except.toOption]

theorem Fault.filterM_eq_ok {test : α → Except Fault Bool} {items answers : List α} :
    items.filterM test = .ok answers ↔
      (∀ item ∈ items, ∃ passed, test item = .ok passed) ∧
        answers = items.filter fun item => (test item).toOption = some true := by
  simp only [List.filterM, Fault.bind_eq_ok, Fault.filterAuxM_eq_ok, Fault.pure_eq_ok]
  constructor
  · rintro ⟨_, ⟨ends, rfl⟩, rfl⟩
    exact ⟨ends, by simp⟩
  · rintro ⟨ends, rfl⟩
    exact ⟨_, ⟨ends, rfl⟩, by simp⟩

theorem Fault.exists_anyM {test : α → Except Fault Bool} {items : List α}
    (answers : ∀ item ∈ items, ∃ passed, test item = .ok passed) :
    ∃ found, items.anyM test = .ok found ∧
      (found = true ↔ ∃ item ∈ items, test item = .ok true) := by
  induction items with
  | nil => exact ⟨false, rfl, by simp⟩
  | cons first rest ih =>
    obtain ⟨⟨passed, tested⟩, others⟩ := List.forall_mem_cons.mp answers
    obtain ⟨found, looked, found_iff⟩ := ih others
    cases passed with
    | true => exact ⟨true, by rw [List.anyM_cons, tested]; rfl, by simp [tested]⟩
    | false =>
      refine ⟨found, by rw [List.anyM_cons, tested]; exact looked, ?_⟩
      simp [found_iff, tested]

namespace Edit

/-- The edit ends well: it leads from `before` to `after` with this answer. -/
def Yields (edit : Edit α) (before : Program) (answer : α) (after : Program) : Prop :=
  edit before = .ok (answer, after)

section Steps

variable {before after : Program} {answer : α}

theorem yields_of_isOk {edit : Edit α} (endsWell : (edit before).isOk) :
    ∃ answer after, Yields edit before answer after := by
  cases result : edit before with
  | error fault => simp [result, Except.isOk, Except.toBool] at endsWell
  | ok pair => exact ⟨pair.1, pair.2, result⟩

/-- An edit ends well or fails. -/
theorem fails_iff {edit : Edit α} :
    (∃ fault, edit before = .error fault) ↔ ∀ answer after, ¬ Yields edit before answer after := by
  cases result : edit before with
  | error fault => simp [Yields, result]
  | ok pair => simpa [Yields, result] using ⟨_, _, rfl⟩

theorem yields_pure {given : α} :
    Yields (pure given) before answer after ↔ answer = given ∧ after = before := by
  change Except.ok (given, before) = Except.ok (answer, after) ↔ _
  simp [eq_comm]

theorem yields_bind {edit : Edit β} {next : β → Edit α} :
    Yields (edit >>= next) before answer after ↔
      ∃ middle between, Yields edit before middle between ∧
        Yields (next middle) between answer after := by
  simp only [Yields]
  change ((edit before) >>= fun left => next left.1 left.2) = _ ↔ _
  rw [Fault.bind_eq_ok]
  simp

/-- Steps that end well are followed by the rest. -/
theorem Yields.run_bind {edit : Edit β} {next : β → Edit α} {middle : β} {between : Program}
    (run : Yields edit before middle between) : (edit >>= next) before = next middle between := by
  change ((edit before) >>= fun left => next left.1 left.2) = _
  rw [show edit before = .ok (middle, between) from run]
  rfl

theorem run_bind_congr {edit other : Edit β} {next : β → Edit α}
    (same : edit before = other before) : (edit >>= next) before = (other >>= next) before := by
  change ((edit before) >>= fun left => next left.1 left.2) = _
  rw [same]
  rfl

/-- Nothing comes after a fault. -/
theorem run_bind_of_error {edit : Edit β} {next : β → Edit α} {fault : Fault}
    (stops : edit before = .error fault) : (edit >>= next) before = .error fault := by
  change ((edit before) >>= fun left => next left.1 left.2) = _
  rw [stops]
  rfl

theorem yields_look {query : Program → Except Fault α} :
    Yields (look query) before answer after ↔ query before = .ok answer ∧ after = before := by
  unfold Yields look
  cases query before <;> simp [eq_comm]

theorem yields_fail {id : NodeId} {cause : Cause} :
    ¬ Yields (fail id cause) before answer after := by
  simp [fail, yields_look, Program.fail]

theorem yields_throw {fault : Fault} :
    ¬ Yields (throw fault : Edit α) before answer after := by
  change ¬ (Except.error fault = _)
  simp

theorem yields_get {given : Program} :
    Yields get before given after ↔ given = before ∧ after = before := by
  simp [Yields, get, getThe, MonadStateOf.get, StateT.get, pure, Except.pure, eq_comm]

theorem yields_modify {change : Program → Program} {answer : Unit} :
    Yields (modify change) before answer after ↔ after = change before := by
  simp [Yields, modify, modifyGet, MonadStateOf.modifyGet, StateT.modifyGet, pure,
    Except.pure, eq_comm]

theorem yields_modifyGet {change : Program → α × Program} :
    Yields (modifyGet change) before answer after ↔ change before = (answer, after) := by
  simp [Yields, modifyGet, MonadStateOf.modifyGet, StateT.modifyGet, pure, Except.pure]

theorem yields_ite {condition : Prop} [Decidable condition] {left right : Edit α} :
    Yields (if condition then left else right) before answer after ↔
      (condition ∧ Yields left before answer after) ∨
        (¬ condition ∧ Yields right before answer after) := by
  by_cases holds : condition <;> simp [holds]

theorem yields_filterAuxM_look {test : β → Program → Except Fault Bool}
    {items earlier answers : List β} :
    Yields (List.filterAuxM (fun item => look (test item)) items earlier) before answers after ↔
      List.filterAuxM (test · before) items earlier = .ok answers ∧ after = before := by
  induction items generalizing earlier with
  | nil => rw [List.filterAuxM, List.filterAuxM, yields_pure, Fault.pure_eq_ok, @eq_comm _ answers]
  | cons first rest ih =>
    simp only [List.filterAuxM, yields_bind, yields_look, Fault.bind_eq_ok]
    constructor
    · rintro ⟨passed, _, ⟨tested, rfl⟩, run⟩
      obtain ⟨found, rfl⟩ := ih.mp run
      exact ⟨⟨passed, tested, found⟩, rfl⟩
    · rintro ⟨⟨passed, tested, found⟩, rfl⟩
      exact ⟨passed, after, ⟨tested, rfl⟩, ih.mpr ⟨found, rfl⟩⟩

theorem yields_filterM_look {test : β → Program → Except Fault Bool} {items answers : List β} :
    Yields (items.filterM fun item => look (test item)) before answers after ↔
      items.filterM (test · before) = .ok answers ∧ after = before := by
  simp only [List.filterM, yields_bind, yields_pure, Fault.bind_eq_ok, Fault.pure_eq_ok]
  constructor
  · rintro ⟨reversed, _, run, rfl, rfl⟩
    obtain ⟨found, rfl⟩ := yields_filterAuxM_look.mp run
    exact ⟨⟨reversed, found, rfl⟩, rfl⟩
  · rintro ⟨⟨reversed, found, rfl⟩, rfl⟩
    exact ⟨reversed, after, yields_filterAuxM_look.mpr ⟨found, rfl⟩, rfl, rfl⟩

theorem yields_forM_nil {edit : β → Edit Unit} {answer : Unit} :
    Yields (([] : List β).forM edit) before answer after ↔ after = before := by
  simp [yields_pure]

theorem yields_forM_cons
    {edit : β → Edit Unit} {first : β} {rest : List β} {answer : Unit} :
    Yields ((first :: rest).forM edit) before answer after ↔
      ∃ between, Yields (edit first) before () between ∧
        Yields (rest.forM edit) between () after := by
  change Yields (edit first >>= fun _ => rest.forM edit) before answer after ↔ _
  rw [yields_bind]
  constructor
  · rintro ⟨_, between, firstRun, restRun⟩
    exact ⟨between, firstRun, restRun⟩
  · rintro ⟨between, firstRun, restRun⟩
    exact ⟨(), between, firstRun, restRun⟩

section Stateful

variable {σ : Type} {state : σ} {final : β × σ}

theorem yields_run_bind {edit : StateT σ Edit α} {next : α → StateT σ Edit β} :
    Yields ((edit >>= next) state) before final after ↔
      ∃ middle between, Yields (edit state) before middle between ∧
        Yields (next middle.1 middle.2) between final after := by
  change Yields (edit state >>= fun middle => next middle.1 middle.2) before final after ↔ _
  exact yields_bind

theorem yields_run_pure {given : β} :
    Yields ((pure given : StateT σ Edit β) state) before final after ↔
      final = (given, state) ∧ after = before :=
  yields_pure

theorem yields_run_lift {edit : Edit β} :
    Yields ((liftM edit : StateT σ Edit β) state) before final after ↔
      Yields edit before final.1 after ∧ final.2 = state := by
  change Yields (edit >>= fun answer => pure (answer, state)) before final after ↔ _
  simp only [yields_bind, yields_pure]
  constructor
  · rintro ⟨answer, _, run, rfl, rfl⟩
    exact ⟨run, rfl⟩
  · rintro ⟨run, same⟩
    exact ⟨final.1, after, run, Prod.ext rfl same, rfl⟩

end Stateful

end Steps

/-! ## Properties that every step keeps -/

/-- Whenever the edit starts with `kept` and ends well, it ends with `kept`, and its
answer has the property `expected`. -/
def Maintains (kept : Program → Prop) (edit : Edit α) (expected : α → Prop) : Prop :=
  ∀ before answer after, kept before → Yields edit before answer after →
    kept after ∧ expected answer

namespace Maintains

variable {kept : Program → Prop} {expected : α → Prop} {wanted : β → Prop}

theorem pure {given : α} (holds : expected given) :
    Maintains kept (pure given) expected := by
  intro before answer after start run
  obtain ⟨rfl, rfl⟩ := yields_pure.mp run
  exact ⟨start, holds⟩

theorem bind {edit : Edit α} {next : α → Edit β}
    (first : Maintains kept edit expected)
    (second : ∀ middle, expected middle → Maintains kept (next middle) wanted) :
    Maintains kept (edit >>= next) wanted := by
  intro before answer after start run
  obtain ⟨middle, between, firstRun, secondRun⟩ := yields_bind.mp run
  obtain ⟨keptBetween, holds⟩ := first before middle between start firstRun
  exact second middle holds between answer after keptBetween secondRun

theorem look {query : Program → Except Fault α}
    (holds : ∀ program answer, kept program → query program = .ok answer → expected answer) :
    Maintains kept (look query) expected := by
  intro before answer after start run
  obtain ⟨found, rfl⟩ := yields_look.mp run
  exact ⟨start, holds _ _ start found⟩

theorem look_any {query : Program → Except Fault α} :
    Maintains kept (Edit.look query) fun _ => True :=
  look fun _ _ _ _ => trivial

theorem get : Maintains kept (get : Edit Program) fun _ => True := by
  intro before answer after start run
  obtain ⟨rfl, rfl⟩ := yields_get.mp run
  exact ⟨start, trivial⟩

theorem fail {id : NodeId} {cause : Cause} : Maintains kept (fail id cause) expected :=
  fun _ _ _ _ run => (yields_fail run).elim

theorem throw {fault : Fault} : Maintains kept (throw fault : Edit α) expected :=
  fun _ _ _ _ run => (yields_throw run).elim

/-- Nothing comes after a failure. -/
theorem fail_bind {id : NodeId} {cause : Cause} {next : α → Edit β} :
    Maintains kept (Edit.fail id cause >>= next) wanted :=
  bind (fun _ _ _ _ run => (yields_fail run).elim) fun _ (never : False) => never.elim

theorem throw_bind {fault : Fault} {next : α → Edit β} :
    Maintains kept (throwThe Fault fault >>= next) wanted :=
  bind (fun _ _ _ _ run => (yields_throw run).elim) fun _ (never : False) => never.elim

theorem ite {condition : Prop} [Decidable condition] {left right : Edit α}
    (whenTrue : condition → Maintains kept left expected)
    (whenFalse : ¬ condition → Maintains kept right expected) :
    Maintains kept (if condition then left else right) expected := by
  by_cases holds : condition
  · simpa [holds] using whenTrue holds
  · simpa [holds] using whenFalse holds

theorem forM {edit : β → Edit Unit} {items : List β}
    (each : ∀ item ∈ items, Maintains kept (edit item) fun _ => True) :
    Maintains kept (items.forM edit) fun _ => True := by
  induction items with
  | nil => exact pure trivial
  | cons first rest ih =>
    change Maintains kept (edit first >>= fun _ => rest.forM edit) _
    exact (each first (by simp)).bind fun _ _ =>
      ih fun item member => each item (by simp [member])

theorem mapM {edit : β → Edit α} {items : List β}
    (each : ∀ item ∈ items, Maintains kept (edit item) expected) :
    Maintains kept (items.mapM edit) fun answers => ∀ answer ∈ answers, expected answer := by
  induction items with
  | nil => exact pure (by simp)
  | cons first rest ih =>
    rw [List.mapM_cons]
    refine (each first (by simp)).bind fun answer holds => ?_
    refine (ih fun item member => each item (by simp [member])).bind fun answers allHold => ?_
    exact pure (by simpa using ⟨holds, allHold⟩)

theorem foldlM {step : α → β → Edit α} {items : List β} {start : α}
    (initial : expected start)
    (each : ∀ state, ∀ item ∈ items, expected state → Maintains kept (step state item) expected) :
    Maintains kept (items.foldlM step start) expected := by
  induction items generalizing start with
  | nil => exact pure initial
  | cons first rest ih =>
    rw [List.foldlM_cons]
    refine (each start first (by simp) initial).bind fun state holds => ?_
    exact ih holds fun state item member => each state item (by simp [member])

end Maintains

end Edit

end ProgramTree
