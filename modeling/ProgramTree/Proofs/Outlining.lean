import ProgramTree.Proofs.Bundling
import ProgramTree.Proofs.Outliners

/-!
# Outlining keeps programs sound

Every loop is decided on in a sound program and leaves one, in a region that has grown by
what the outliner built; then the functions are relocated.
-/

namespace ProgramTree.Program

open Edit

variable {exact : Prop} {region : NodeId → Prop} {before after : Program} {σ : Type}
  {outliner : LoopOutliner σ} {state left : σ} {loop variant : NodeId} {loops : List NodeId}
  {done : Unit}

namespace Sound

theorem dispatch (sound : Sound exact False region before) (knownLoop : Known region before loop)
    (knownVariant : Known region before variant)
    (run : Yields (Edit.dispatch loop variant) before done after) :
    Progress (Sound exact False region) before after := by
  have workshop := Sound.workshop exact False region
  obtain ⟨entered, block, built, _, placed, nodes, roots, index, runChoice, runReplace, rfl⟩ :=
    exists_of_dispatch run
  have entering := workshop.progress_of_nodes sound nodes roots index
  have choosing := workshop.newChoice (knownVariant.since entering.since)
    (entering.kept.duplicate knownLoop.inside) runChoice
  have replaced := choosing.progress.kept.replace knownLoop.inside choosing.known.inside runReplace
  have leaving : Progress (Sound exact False region) placed
      { placed with givenLocation? := before.givenLocation? } :=
    workshop.progress_of_nodes replaced.kept rfl rfl rfl
  exact (entering.trans choosing.progress).trans (replaced.trans leaving)

end Sound

/-- A region of a later program is sound, and what was known in the earlier region is known
in it. -/
structure Onward (exact : Prop) (region : NodeId → Prop) (before : Program)
    (later : NodeId → Prop) (after : Program) : Prop where
  sound : Sound exact False later after
  known : ∀ id, Known region before id → Known later after id

theorem Onward.trans {middle later : NodeId → Prop} {between : Program}
    (first : Onward exact region before middle between)
    (second : Onward exact middle between later after) : Onward exact region before later after :=
  ⟨second.sound, fun id known => second.known id (first.known id known)⟩

theorem Progress.onward (progress : Progress (Sound exact False region) before after) :
    Onward exact region before region after :=
  ⟨progress.kept, fun _ known => known.since progress.since⟩

namespace Sound

variable (sound : Sound exact False region before)
include sound

theorem onward_annex {island : NodeId → Prop} (extended : Extends before after)
    (isIsland : Island island after)
    (defined : ∀ id definition, island id → after.Names id definition →
      (after.kindAt definition).any Kind.isExpr ∧ (island definition ∨ after.InUse definition)) :
    Onward exact region before
      (fun id => (region id ∧ (before.get? id).isSome) ∨ island id ∨ after.get? id = none) after :=
  ⟨sound.annex extended isIsland defined, fun _ known =>
    ⟨.inl ⟨known.inside, known.issued⟩, extended.since.issued known.issued⟩⟩

/-- An outlined loop and a declined one. -/
theorem exists_onward_outlineLoop {decision : Decision × σ} (respectful : outliner.Respectful)
    (reachable : before.Reachable loop)
    (run : Yields (Edit.outlineLoop outliner loop state) before decision after) :
    ∃ later, Onward exact region before later after := by
  obtain ⟨answer, middle, runOutliner, run⟩ := yields_run_bind.mp run
  obtain ⟨extended, free⟩ :=
    respectful before loop state answer middle sound.healthy reachable runOutliner
  cases answered : answer.1 with
  | none =>
    simp only [answered, yields_run_bind, yields_run_lift, yields_run_pure, yields_look] at run
    obtain ⟨_, _, ⟨⟨_, rfl⟩, _⟩, _, rfl⟩ := run
    have nowhere : Island (fun _ => False) after := ⟨nofun, nofun, nofun, nofun, nofun⟩
    exact ⟨_, sound.onward_annex extended nowhere nofun⟩
  | some variant =>
    simp only [answered, yields_run_bind, yields_run_lift, yields_run_pure, yields_look] at run
    obtain ⟨_, _, ⟨⟨_, rfl⟩, _⟩, _, _, ⟨runDispatch, _⟩, _, rfl⟩ := run
    have isFree := free variant answered
    have annexed := sound.onward_annex extended isFree.isIsland isFree.defined
    have knownLoop := annexed.known loop (sound.known_of_reachable reachable)
    have dispatched := annexed.sound.dispatch knownLoop ⟨.inr (.inl .refl), isFree.issued⟩ runDispatch
    exact ⟨_, annexed.trans dispatched.onward⟩

theorem reachable_of_isCandidate {candidate : Bool} (known : Known region before loop)
    (looked : before.isCandidate loop = .ok candidate) (isCandidate : candidate = true) :
    before.Reachable loop := by
  simp only [Program.isCandidate, Fault.bind_eq_ok, inTree_eq_ok] at looked
  obtain ⟨placed, ⟨_, isPlaced⟩, looked⟩ := looked
  cases placed with
  | true => exact (sound.orderly.isPlaced_iff known.inside).mp (isPlaced.mp rfl)
  | false =>
    obtain rfl : false = candidate := by simpa [Fault.pure_eq_ok] using looked
    cases isCandidate

end Sound

/-! ## The loops, then the functions -/

namespace Sound

theorem exists_onward_outlineLoops {decisions : List Decision × σ}
    (sound : Sound exact False region before) (respectful : outliner.Respectful)
    (known : ∀ loop ∈ loops, Known region before loop)
    (run : Yields (Edit.outlineLoops outliner loops state) before decisions after) :
    ∃ later, Onward exact region before later after := by
  induction loops generalizing region before state decisions with
  | nil =>
    obtain ⟨_, rfl⟩ := yields_run_pure.mp run
    exact ⟨region, sound, fun _ known => known⟩
  | cons loop rest ih =>
    obtain ⟨knownLoop, knownRest⟩ := List.forall_mem_cons.mp known
    simp only [Edit.outlineLoops, yields_run_bind, yields_run_lift, yields_look] at run
    obtain ⟨⟨candidate, _⟩, middle, ⟨⟨looked, rfl⟩, rfl⟩, run⟩ := run
    cases candidate with
    | false => exact ih sound knownRest run
    | true =>
      have reachable := sound.reachable_of_isCandidate knownLoop looked rfl
      simp only [if_true, yields_run_bind, yields_run_pure] at run
      obtain ⟨decision, between, runLoop, _, _, runRest, rfl, rfl⟩ := run
      obtain ⟨next, first⟩ := sound.exists_onward_outlineLoop respectful reachable runLoop
      obtain ⟨later, second⟩ :=
        ih first.sound (fun other member => first.known other (knownRest other member)) runRest
      exact ⟨later, first.trans second⟩

theorem isSymbol_of_isOffloaded {fn : NodeId} (looked : before.isOffloaded fn = .ok true) :
    (before.kindAt fn).any Kind.isSymbol := by
  simp only [Program.isOffloaded, hasFlag, Fault.bind_eq_ok, Fault.pure_eq_ok, kindOf_eq_ok] at looked
  obtain ⟨flagged, ⟨kind, known, rfl⟩, looked⟩ := looked
  cases kind with
  | symbol symbol => simp [known, Kind.isSymbol, Kind.symbol?]
  | _ => simp [Kind.hasFlag, Kind.symbol?, Fault.pure_eq_ok] at looked

theorem relocateAll {fns : List NodeId} {relocated : List Relocation}
    (sound : Sound exact False region before) (known : ∀ fn ∈ fns, Known region before fn)
    (symbols : ∀ fn ∈ fns, (before.kindAt fn).any Kind.isSymbol)
    (run : Yields (fns.mapM Edit.relocate) before relocated after) :
    Progress (Sound exact False region) before after := by
  have relocating : Progress (Sound exact False region) before after ∧
      ∀ relocation ∈ relocated, True := by
    refine mapM_progress run sound ?_ fun _ _ _ _ _ => trivial
    intro middle later fn relocation member progress run
    refine ⟨progress.kept.relocate ?_ ?_ run, trivial⟩
    · exact (known fn member).since progress.since
    · exact progress.since.isSymbol (symbols fn member)
  exact relocating.1

/-- The pass decides on the indexed loops, and then relocates indexed functions that are
offloaded.  Around that only the name of the traversal changes. -/
theorem exists_phases_of_outlineWith {answer : OutlineReport × σ}
    (run : Yields (Edit.outlineWith outliner state) before answer after) :
    ∃ (decided : Program) (fns : List NodeId) (finished : Program),
      Yields (Edit.outlineLoops outliner before.index.loops.toList state)
        { before with traversal? := some "createGpuForLoops" }
        (answer.1.decisions, answer.2) decided ∧
      decided.index.fns.toList.filterM decided.isOffloaded = .ok fns ∧
      Yields (fns.mapM Edit.relocate) decided answer.1.relocated finished ∧
      after = { finished with traversal? := before.traversal? } := by
  simp only [Edit.outlineWith, withTraversal, yields_bind, yields_get, yields_modify, yields_pure,
    yields_filterM_look] at run
  obtain ⟨_, _, ⟨rfl, rfl⟩, _, _, rfl, _, finished, ⟨_, _, ⟨rfl, rfl⟩, _, _, runLoops, _, _,
    ⟨rfl, rfl⟩, fns, decided, ⟨filtered, rfl⟩, _, _, runRelocate, rfl, rfl⟩, _, _, rfl, rfl,
    rfl⟩ := run
  exact ⟨decided, fns, finished, runLoops, filtered, runRelocate, rfl⟩

theorem mem_of_offloaded {fns : List NodeId}
    (offloaded : before.index.fns.toList.filterM before.isOffloaded = .ok fns) :
    ∀ fn ∈ fns, fn ∈ before.index.entries .fn ∧ before.isOffloaded fn = .ok true := by
  intro fn member
  obtain ⟨_, rfl⟩ := Fault.filterM_eq_ok.mp offloaded
  obtain ⟨isFn, passed⟩ := List.mem_filter.mp member
  refine ⟨Std.ExtTreeSet.mem_toList.mp isFn, ?_⟩
  cases tested : before.isOffloaded fn with
  | error fault => simp [tested, Except.toOption] at passed
  | ok offloaded =>
    obtain rfl : offloaded = true := by simpa [tested, Except.toOption] using passed
    rfl

theorem known_of_indexed (sound : Sound exact False region before) {category : Category}
    {id : NodeId} (indexed : id ∈ before.index.entries category) : Known region before id :=
  sound.known_of_reachable (sound.orderly.settled.indexed_reachable indexed not_false)

theorem known_of_mem_loops (sound : Sound exact False region before) :
    ∀ loop ∈ before.index.loops.toList, Known region before loop := fun loop member =>
  sound.known_of_indexed (show loop ∈ before.index.entries .loop from
    Std.ExtTreeSet.mem_toList.mp member)

/-- The whole pass. -/
theorem exists_onward_outlineWith {answer : OutlineReport × σ} (sound : Sound exact False region before)
    (respectful : outliner.Respectful)
    (run : Yields (Edit.outlineWith outliner state) before answer after) :
    ∃ later, Onward exact region before later after := by
  obtain ⟨decided, fns, finished, runLoops, filtered, runRelocate, rfl⟩ :=
    exists_phases_of_outlineWith run
  have offloaded := mem_of_offloaded filtered
  have workshop := fun region => Sound.workshop exact False region
  have entering :
      Progress (Sound exact False region) before
        { before with traversal? := some "createGpuForLoops" } :=
    (workshop region).progress_of_nodes sound rfl rfl rfl
  obtain ⟨later, decide⟩ :=
    exists_onward_outlineLoops entering.kept respectful entering.kept.known_of_mem_loops runLoops
  have relocate : Progress (Sound exact False later) decided finished :=
    decide.sound.relocateAll
      (fun fn member => decide.sound.known_of_indexed (offloaded fn member).1)
      (fun fn member => isSymbol_of_isOffloaded (offloaded fn member).2) runRelocate
  refine ⟨later, (entering.onward.trans decide).trans (relocate.trans ?_).onward⟩
  exact (workshop later).progress_of_nodes relocate.kept rfl rfl rfl

end Sound

/-! ## From check to check -/

/-- A program that passes the check is sound where its tree is and where nothing is yet. -/
theorem sound_of_verify (verified : before.verify = .ok none)
    (modules : ∀ root ∈ before.roots, (before.kindAt root).any Kind.isModule)
    (seated : Seated before) :
    Sound before.Indexed False (fun id => before.Reachable id ∨ before.get? id = none) before := by
  have consistent := consistent_of_verify verified
  refine ⟨consistent.orderly modules id, ?_⟩
  intro id definition inside ⟨kind, known, notModule, names⟩
  cases kind with
  | symbol symbol =>
    have reachable : before.Reachable id := by
      refine inside.resolve_right fun unissued => ?_
      simp [get?_eq_none_iff_kindAt.mp unissued] at known
    have notRoot : id ∉ before.roots := by
      intro isRoot
      simpa [known, notModule] using modules id isRoot
    obtain ⟨point, init?, declaredType?, isPoint, isDefinition, holds⟩ :=
      seated id symbol reachable notRoot known
    obtain rfl : point = definition := by
      simpa [Kind.definition?, Kind.symbol?, isPoint] using names
    refine .inr ⟨.inl (consistent.holder_of_parent reachable holds).1, ?_⟩
    simp [isDefinition, Kind.isExpr]
  | _ => simp [Kind.definition?, Kind.symbol?] at names

theorem verify_of_outlineWith {answer : OutlineReport × σ} (verified : before.verify = .ok none)
    (modules : ∀ root ∈ before.roots, (before.kindAt root).any Kind.isModule)
    (seated : Seated before) (respectful : outliner.Respectful)
    (run : Yields (Edit.outlineWith outliner state) before answer after) :
    after.verify = .ok none ∧ (before.Indexed → after.Indexed) := by
  have sound := sound_of_verify verified modules seated
  obtain ⟨later, onward⟩ := sound.exists_onward_outlineWith respectful run
  exact ⟨onward.sound.orderly.verify_eq_ok, onward.sound.orderly.indexed⟩

end ProgramTree.Program
