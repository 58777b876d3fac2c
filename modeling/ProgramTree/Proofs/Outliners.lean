import ProgramTree.Outlining
import ProgramTree.Proofs.Sound
import ProgramTree.Proofs.Verification

/-!
# What is asked of an outliner

An outliner is a parameter of the pass.  It is called on loops of healthy programs, and
may add nodes to them, but leaves every node, the roots and the index as they are; a
variant that it answers hangs nowhere and is consistent in itself.
-/

namespace ProgramTree

open Program Relation

namespace Program

/-- The tree passes the check, its roots are modules, and its symbols are defined by
expressions. -/
structure Healthy (program : Program) : Prop where
  verified : program.verify = .ok none
  modules : ∀ root ∈ program.roots, (program.kindAt root).any Kind.isModule
  defined : ∀ id definition, program.Reachable id → program.Names id definition →
    (program.kindAt definition).any Kind.isExpr

/-- A definition point that symbols of the tree name, or that lies in the tree. -/
def InUse (program : Program) (definition : NodeId) : Prop :=
  program.Reachable definition ∨
    ∃ other, program.Reachable other ∧ program.Names other definition

/-- A node without parent and context whose subtree is consistent in itself: what is in it
is held once, there is no cycle, and definition points are expressions of the subtree or
such that the tree uses. -/
structure FreeStanding (program : Program) (top : NodeId) : Prop where
  issued : (program.get? top).isSome
  parentless : program.parentOf top = none
  detached : ∀ id, program.Contains top id → program.contextOf id = {}
  parent : ∀ holder child, program.Contains top holder → program.Holds holder child →
    program.parentOf child = some holder
  held_once : ∀ id, program.Contains top id → (program.held id).Nodup
  acyclic : ∀ id, program.Contains top id → ¬ TransGen program.Holds id id
  defined : ∀ id definition, program.Contains top id → program.Names id definition →
    (program.kindAt definition).any Kind.isExpr ∧
      (program.Contains top definition ∨ program.InUse definition)

end Program

/-- The outliner leaves the program as it is, new nodes apart, and its variants are
free-standing. -/
def LoopOutliner.Respectful {σ : Type} (outliner : LoopOutliner σ) : Prop :=
  ∀ before loop state answer after, Healthy before → before.Reachable loop →
    Edit.Yields (outliner loop state) before answer after →
    Extends before after ∧ ∀ variant, answer.1 = some variant → FreeStanding after variant

namespace Program

variable {exact : Prop} {region island : NodeId → Prop} {before after program : Program}
  {id top definition : NodeId}

theorem FreeStanding.isIsland (free : FreeStanding program top) :
    Island (program.Contains top) program where
  held contained holds := ⟨contained.tail holds, free.parent _ _ contained holds⟩
  holder {holder child} contained named := by
    have strict : child ≠ top := by
      rintro rfl
      simp [free.parentless] at named
    obtain ⟨above, containedAbove, holds⟩ := exists_holder_of_contains contained strict
    rw [free.parent above child containedAbove holds, Option.some.injEq] at named
    exact named ▸ ⟨containedAbove, holds⟩
  nodup contained := free.held_once _ contained
  grounded contained :=
    grounded_of_acyclic (fun _ _ contained holds => contained.tail holds) free.acyclic contained
  context contained := free.detached _ contained

namespace Sound

variable (sound : Sound exact False region before)
include sound

theorem healthy : Healthy before where
  verified := sound.orderly.verify_eq_ok
  modules _ isRoot := sound.orderly.rooted.module isRoot
  defined id definition reachable names := by
    have inside := sound.orderly.rooted.reachable_inside sound.orderly.forest reachable
    exact ((sound.located id definition inside names).resolve_left not_false).2

/-- The region of a sound program, without what is not there any more, and an island. -/
theorem annex (extended : Extends before after) (isIsland : Island island after)
    (defined : ∀ id definition, island id → after.Names id definition →
      (after.kindAt definition).any Kind.isExpr ∧ (island definition ∨ after.InUse definition)) :
    Sound exact False
      (fun id => (region id ∧ (before.get? id).isSome) ∨ island id ∨ after.get? id = none) after := by
  refine ⟨sound.orderly.annex extended isIsland, ?_⟩
  -- what symbols of the old region name lies in the old region
  have named : ∀ {id definition}, region id → before.Names id definition →
      (region definition ∧ (before.get? definition).isSome) ∧
        (after.kindAt definition).any Kind.isExpr := by
    intro id definition inside names
    obtain ⟨insideDefinition, isExpr⟩ :=
      (sound.located id definition inside names).resolve_left not_false
    exact ⟨⟨insideDefinition, get?_isSome_of_any isExpr⟩, extended.since.isExpr isExpr⟩
  rintro id definition (⟨inside, issued⟩ | onIsland | unissued) names
  · rw [extended.names_iff issued] at names
    exact .inr ((named inside names).imp_left .inl)
  · obtain ⟨isExpr, place⟩ := defined id definition onIsland names
    refine .inr ⟨?_, isExpr⟩
    rcases place with here | reachable | ⟨other, reachable, namesToo⟩
    · exact .inr (.inl here)
    · rw [sound.orderly.reachable_of_extends extended] at reachable
      exact .inl ⟨sound.orderly.rooted.reachable_inside sound.orderly.forest reachable,
        sound.orderly.issued_of_reachable reachable⟩
    · rw [sound.orderly.reachable_of_extends extended] at reachable
      rw [extended.names_iff (sound.orderly.issued_of_reachable reachable)] at namesToo
      have inside := sound.orderly.rooted.reachable_inside sound.orderly.forest reachable
      exact .inl (named inside namesToo).1
  · obtain ⟨kind, known, _⟩ := names
    simp [get?_eq_none_iff_kindAt.mp unissued] at known

end Sound

end Program

/-! ## What takes the place of a loop -/

/-- The block that takes the place of a loop: it runs `variant` on the GPU and a copy of the loop
elsewhere. -/
def Edit.newChoice (loop variant : NodeId) : Edit NodeId := do
  let cpuLoop ← duplicate loop
  let onGpu ← newTemp "_is_gpu" (some PrimitiveType.bool.id)
  let definition ← define onGpu
  let query ← newPrimitiveCall .isGpuSublocale []
  let set ← newPrimitiveCall .move [onGpu, query]
  let choice ← newCond onGpu variant (some cpuLoop)
  newBlock [definition, set, choice]

namespace Program

open Edit

variable {before after : Program} {zone : NodeId → Prop} {kept : Program → Prop}
  {loop variant answer : NodeId} {done : Unit}

/-- The block is made first, and then it replaces the loop. -/
theorem exists_of_dispatch (run : Yields (dispatch loop variant) before done after) :
    ∃ entered block built linked placed, entered.nodes = before.nodes ∧
      entered.roots = before.roots ∧ entered.index = before.index ∧
      Yields (newChoice loop variant) entered block built ∧
      Yields (replace loop block) built linked placed ∧
      after = { placed with givenLocation? := before.givenLocation? } := by
  rw [dispatch, yields_withLocationOf] at run
  obtain ⟨node, placed, _, run, rfl⟩ := run
  simp only [yields_bind, yields_pure] at run
  obtain ⟨copy, copied, runCopy, onGpu, named, runVar, definition, defined, runDefine, query,
    queried, runQuery, set, moved, runSet, choice, chosen, runChoice, block, built, runBlock, linked,
    _, runReplace, _, rfl⟩ := run
  refine ⟨{ before with givenLocation? := some node.location }, block, built, linked, _, rfl, rfl,
    rfl, ?_, runReplace, rfl⟩
  simp only [newChoice, yields_bind]
  exact ⟨copy, copied, runCopy, onGpu, named, runVar, definition, defined, runDefine, query,
    queried, runQuery, set, moved, runSet, choice, chosen, runChoice, runBlock⟩

/-- A workshop where loops can be copied makes the block. -/
theorem Workshop.newChoice (workshop : Workshop zone kept) (knownVariant : Known zone before variant)
    (copies : ∀ {copy copied}, Yields (duplicate loop) before copy copied →
      Made zone kept before copy copied)
    (run : Yields (newChoice loop variant) before answer after) :
    Made zone kept before answer after := by
  simp only [Edit.newChoice, yields_bind] at run
  obtain ⟨cpuLoop, _, runCopy, onGpu, _, runVar, definition, _, runDefine, query, _, runQuery, set,
    _, runSet, choice, chosen, runChoice, runBlock⟩ := run
  have madeCopy := copies runCopy
  have madeVar := workshop.newTemp madeCopy.progress.kept runVar
  have madeDefinition := workshop.define madeVar.progress.kept madeVar.known runDefine
  have madeQuery := workshop.newPrimitiveCall madeDefinition.progress.kept (by simp) runQuery
  -- from here on, what has happened since the variable was made
  have second := madeDefinition.progress.trans madeQuery.progress
  have madeSet := workshop.newPrimitiveCall second.kept
    (by simpa using ⟨.inl (madeVar.known.since second.since), .inl madeQuery.known⟩) runSet
  have third := second.trans madeSet.progress
  have untilThird := madeVar.progress.trans third
  have madeChoice := workshop.newCond third.kept (.inl (madeVar.known.since third.since))
    (knownVariant.since (madeCopy.progress.trans untilThird).since)
    (madeCopy.known.since untilThird.since) runChoice
  have fourth := third.trans madeChoice.progress
  have knownStmts : ∀ stmt ∈ [definition, set, choice], Known zone chosen stmt := by
    have afterDefinition := (madeQuery.progress.trans madeSet.progress).trans madeChoice.progress
    simpa using ⟨madeDefinition.known.since afterDefinition.since,
      madeSet.known.since madeChoice.progress.since, madeChoice.known⟩
  have madeBlock := workshop.newBlock fourth.kept knownStmts runBlock
  exact madeBlock.following ((madeCopy.progress.trans madeVar.progress).trans fourth)

end Program

end ProgramTree
