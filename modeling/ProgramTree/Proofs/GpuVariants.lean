import ProgramTree.Proofs.Drafts
import ProgramTree.Proofs.Fragments
import ProgramTree.Proofs.Grafts

/-!
# GPU variants are free-standing

The default outliner builds its variant as a draft beside the tree.  Where the loop defines
its index in its own body, the copy of the body has taken over the variant's own index, and
building stops.
-/

namespace ProgramTree

open Program Edit

namespace Program

variable {zone : NodeId → Prop} {kept : Program → Prop} {origin before after : Program}
  {loop answer : NodeId} {ids answers : List NodeId} {parts : LoopParts} {name : String}

theorem not_isExpr_of_isSymbol {id : NodeId} (symbol : (before.kindAt id).any Kind.isSymbol) :
    ¬ (before.kindAt id).any Kind.isExpr := by
  obtain ⟨kind, known, isSymbol⟩ := (Option.any_eq_true _ _).mp symbol
  rw [known, Option.any_some]
  cases kind with
  | symbol symbol => exact Bool.false_ne_true
  | _ => cases isSymbol

theorem exists_forLoop_of_loopParts? (found : before.loopParts? loop = .ok (some parts)) :
    ∃ indices independent, before.kindAt loop =
      some (.stmt (.forLoop indices parts.iterators parts.body independent)) := by
  rw [loopParts?, Fault.bind_eq_ok] at found
  obtain ⟨kind, isKind, found⟩ := found
  rw [kindOf_eq_ok] at isKind
  split at found
  · rename_i indices iterators body independent
    rw [Fault.bind_eq_ok] at found
    obtain ⟨elements, _, found⟩ := found
    split at found
    · rw [Fault.bind_eq_ok] at found
      obtain ⟨index?, _, found⟩ := found
      split at found
      · rw [Fault.bind_eq_ok] at found
        obtain ⟨jumping, _, found⟩ := found
        rw [Fault.pure_eq_ok] at found
        split at found
        · cases found
        · cases found
          exact ⟨indices, independent, isKind⟩
      · cases found
    · cases found
  · cases found

/-- The parts of a loop that has a variant hang below it. -/
theorem contains_of_loopParts? (found : before.loopParts? loop = .ok (some parts)) :
    before.Contains loop parts.iterators ∧ before.Contains loop parts.body := by
  obtain ⟨indices, independent, isLoop⟩ := exists_forLoop_of_loopParts? found
  constructor <;> exact .single (by simp [Holds, held_eq_of_kindAt isLoop, Kind.owned, Stmt.owned])

/-- The block hangs nowhere. -/
theorem Workshop.newFreeBlock (workshop : Workshop zone kept) (start : kept before)
    (known : ∀ id ∈ ids, Known zone before id)
    (run : Yields (Edit.newBlock ids) before answer after) :
    Made zone kept before answer after ∧ after.parentOf answer = none := by
  refine ⟨workshop.newBlock start known run, ?_⟩
  obtain ⟨body, listed, runBody, runBlock⟩ := yields_bind.mp run
  have madeBody := workshop.newList start known runBody
  simp only [Edit.newHolder, yields_bind, yields_newNode, yields_pure] at runBlock
  obtain ⟨_, _, ⟨rfl, rfl⟩, _, _, adoption, rfl, rfl⟩ := runBlock
  have old : listed.nextId ∉ [body] := by
    intro isBody
    have issued := madeBody.known.issued
    simp [← List.mem_singleton.mp isBody, get?_nextId] at issued
  have pushed : Pushed listed (.stmt (.block body)) _ := pushed_push
  exact (pushed.grown (Edit.adopted adoption) old).parent

theorem Draft.duplicate (draft : Draft origin before) (healthy : Healthy origin) {id : NodeId}
    (reachable : origin.Reachable id) (run : Yields (Edit.duplicate id) before answer after) :
    Made origin.New (Draft origin) before answer after := by
  simp only [Edit.duplicate, yields_bind, yields_pure] at run
  obtain ⟨copy, _, run, rfl, rfl⟩ := run
  exact (draft.duplicateWith healthy reachable (by simp) (by simp) run).1

/-- The copy of a body that holds the index takes over the variant's own index, and so does the
index itself if it is the body. -/
theorem exists_hangs_of_newIteration (contained : before.Contains parts.body parts.index)
    (run : Yields (Edit.newIteration parts) before answers after) :
    ∃ id ∈ answers, Hangs id after := by
  simp only [Edit.newIteration, yields_bind, yields_look, yields_pure, symbol_eq_ok,
    elements_eq_ok] at run
  obtain ⟨index, _, ⟨_, rfl⟩, lows, start, ⟨_, rfl⟩, threadIndex, timed, runThread,
    localIndex, indexed, runLocal, copy, copied, runCopy, run⟩ := run
  obtain ⟨defineThread, placed, runDefineThread, globalId, asked, runGlobalId, setThread, moved,
    runSetThread, startId, summed, runStart, defineLocal, defined, runDefineLocal, setLocal, _,
    runSetLocal, rfl, rfl⟩ := run
  by_cases same : parts.body = parts.index
  · have seeded : ((∅ : Remap).insert parts.index localIndex)[parts.index]? = some localIndex :=
      Std.ExtTreeMap.getElem?_insert_self
    simp only [Edit.duplicateWith, same, seeded, yields_pure] at runCopy
    obtain ⟨rfl, rfl⟩ := runCopy
    have hangs := (Hangs.newPrimitiveCall _ _ _ (Hangs.of_define runDefineLocal) runSetLocal).1
    exact ⟨localIndex, by simp, hangs⟩
  · -- the variant's own index cannot be defined any more
    have madeThread : Produced start start threadIndex _ timed := produced_newTemp id runThread
    have madeLocal := produced_newNode (not_imp_not.mp madeThread.addition.issued) runLocal rfl
    have containedIndexed : indexed.Contains parts.body parts.index := by
      refine contains_mono (fun holder child holds => ?_) contained
      obtain ⟨node, found⟩ := Option.isSome_iff_exists.mp holds.issued
      have known := madeLocal.addition.kinds
        (madeThread.addition.kinds (kindAt_eq found) not_false) not_false
      rwa [Holds, held_eq_of_kindAt known, ← held_eq found]
    have hangs := hangs_of_duplicateWith containedIndexed same runCopy
    have hangsPlaced := (Hangs.define _ _ _ hangs runDefineThread).1
    have hangsAsked := (Hangs.newPrimitiveCall _ _ _ hangsPlaced runGlobalId).1
    have hangsMoved := (Hangs.newPrimitiveCall _ _ _ hangsAsked runSetThread).1
    have hangsSummed := (Hangs.newStart _ _ _ hangsMoved runStart).1
    exact (hangsSummed.not_yields_define runDefineLocal).elim

theorem not_yields_newGpuVariant (contained : before.Contains parts.body parts.index) :
    ¬ Yields (Edit.newGpuVariant name parts) before answer after := by
  intro run
  simp only [Edit.newGpuVariant, yields_bind] at run
  obtain ⟨iteration, iterated, runIteration, body, framed, runBody, -⟩ := run
  obtain ⟨id, member, hangs⟩ := exists_hangs_of_newIteration contained runIteration
  exact hangs.not_yields_newBlock member runBody

/-! ## Building the variant -/

/-- The parts of the loop can be copied into the zone. -/
structure CopiesParts (zone : NodeId → Prop) (kept : Program → Prop) (parts : LoopParts) : Prop where
  body : ∀ {before localIndex copied after}, kept before →
    (before.kindAt parts.index).any Kind.isSymbol →
    Yields (Edit.duplicateWith parts.body ((∅ : Remap).insert parts.index localIndex) [] false)
      before copied after → Made zone kept before copied.duplicate after
  low : ∀ {first low before copy after}, kept first → first.Holds parts.iterators low →
    kept before → Yields (Edit.duplicate low) before copy after → Made zone kept before copy after

theorem eq_index_of_seeded {localIndex id : NodeId}
    (seeded : id ∈ (∅ : Remap).insert parts.index localIndex) : id = parts.index := by
  rcases Std.ExtTreeMap.mem_insert.mp seeded with equal | never
  · exact (Std.LawfulEqCmp.eq_of_compare equal).symm
  · simp at never

section Iterations

variable (workshop : Workshop zone kept) (start : kept before)
include workshop start

theorem Workshop.newStart {threadIndex : NodeId} {low? : Option NodeId}
    (copies : ∀ low ∈ low?, ∀ {copy copied}, Yields (Edit.duplicate low) before copy copied →
      Made zone kept before copy copied)
    (known : Known zone before threadIndex)
    (run : Yields (Edit.newStart low? threadIndex) before answer after) :
    Made zone kept before answer after := by
  cases low? with
  | none => exact (workshop.newNode start run rfl rfl).1
  | some low =>
    obtain ⟨copy, copied, runCopy, runSum⟩ := yields_bind.mp run
    have madeCopy := copies low rfl runCopy
    have knownIndex := known.since madeCopy.progress.since
    refine (workshop.newPrimitiveCall madeCopy.progress.kept ?_ runSum).following madeCopy.progress
    simpa [Operand] using ⟨.inl madeCopy.known, .inl knownIndex⟩

theorem Workshop.newIteration (copies : CopiesParts zone kept parts)
    (run : Yields (Edit.newIteration parts) before answers after) :
    Progress kept before after ∧ ∀ id ∈ answers, Known zone after id := by
  simp only [Edit.newIteration, yields_bind, yields_look, yields_pure, symbol_eq_ok,
    elements_eq_ok] at run
  obtain ⟨index, _, ⟨isSymbol, rfl⟩, lows, first, ⟨⟨_, isList⟩, rfl⟩, threadIndex, timed, runThread,
    localIndex, indexed, runLocal, copy, copied, runCopy, run⟩ := run
  obtain ⟨defineThread, placed, runDefineThread, globalId, asked, runGlobalId, setThread, moved,
    runSetThread, startId, summed, runStart, defineLocal, local_, runDefineLocal, setLocal, _,
    runSetLocal, rfl, rfl⟩ := run
  have madeThread := workshop.newTemp start runThread
  have madeLocal := workshop.newSymbol madeThread.progress.kept rfl runLocal
  have untilLocal := madeThread.progress.trans madeLocal.progress
  have symbol : (first.kindAt parts.index).any Kind.isSymbol := by
    rw [isSymbol]
    rfl
  have madeCopy := copies.body untilLocal.kept (untilLocal.since.isSymbol symbol) runCopy
  have untilCopy := untilLocal.trans madeCopy.progress
  have knownThread := madeThread.known.since (madeLocal.progress.trans madeCopy.progress).since
  have madeDefineThread := workshop.define untilCopy.kept knownThread runDefineThread
  have madeGlobalId := workshop.newPrimitiveCall madeDefineThread.progress.kept (by simp) runGlobalId
  have untilGlobalId := madeDefineThread.progress.trans madeGlobalId.progress
  have madeSetThread := workshop.newPrimitiveCall madeGlobalId.progress.kept
    (by simpa [Operand] using
      ⟨.inl (knownThread.since untilGlobalId.since), .inl madeGlobalId.known⟩) runSetThread
  have untilSetThread := untilGlobalId.trans madeSetThread.progress
  have copiesLow : ∀ low ∈ lows[0]?, ∀ {copy copied}, Yields (Edit.duplicate low) moved copy copied →
      Made zone kept moved copy copied := by
    intro low isLow _ _ runLow
    refine copies.low start ?_ madeSetThread.progress.kept runLow
    rw [Holds, held_eq_of_kindAt isList]
    exact Array.mem_toList_iff.mpr (Array.mem_of_getElem? isLow)
  have madeStart := workshop.newStart madeSetThread.progress.kept copiesLow
    (knownThread.since untilSetThread.since) runStart
  have untilStart := untilSetThread.trans madeStart.progress
  have knownLocal := madeLocal.known.since (madeCopy.progress.trans untilStart).since
  have madeDefineLocal := workshop.define untilStart.kept knownLocal runDefineLocal
  have madeSetLocal := workshop.newPrimitiveCall madeDefineLocal.progress.kept
    (by simpa [Operand] using ⟨.inl (knownLocal.since madeDefineLocal.progress.since),
      .inl (madeStart.known.since madeDefineLocal.progress.since)⟩) runSetLocal
  have untilEnd := madeDefineLocal.progress.trans madeSetLocal.progress
  refine ⟨untilCopy.trans (untilStart.trans untilEnd), ?_⟩
  simp only [List.mem_cons, List.not_mem_nil, or_false, forall_eq_or_imp, forall_eq]
  refine ⟨?_, ?_, ?_, madeSetLocal.known, ?_⟩
  · exact madeDefineThread.known.since
      ((madeGlobalId.progress.trans madeSetThread.progress).trans
        (madeStart.progress.trans untilEnd)).since
  · exact madeSetThread.known.since (madeStart.progress.trans untilEnd).since
  · exact madeDefineLocal.known.since madeSetLocal.progress.since
  · exact madeCopy.known.since (untilStart.trans untilEnd).since

/-- The variant hangs nowhere. -/
theorem Workshop.newGpuVariant (copies : CopiesParts zone kept parts)
    (run : Yields (Edit.newGpuVariant name parts) before answer after) :
    Made zone kept before answer after ∧ after.parentOf answer = none := by
  simp only [Edit.newGpuVariant, yields_bind] at run
  obtain ⟨iteration, iterated, runIteration, body, framed, runBody, fn, declared, runFn, _, flagged,
    runFlag, definition, defined, runDefinition, call, called, runCall, runBlock⟩ := run
  obtain ⟨iterating, knownIteration⟩ := workshop.newIteration start copies runIteration
  have madeBody := workshop.newBlock iterating.kept knownIteration runBody
  have madeFn := workshop.newFn madeBody.progress.kept (by simp) madeBody.known runFn
  have flagging := workshop.addFlag madeFn.progress.kept madeFn.known.inside runFlag
  have madeDefinition := workshop.define flagging.kept (madeFn.known.since flagging.since)
    runDefinition
  have knownFn := madeFn.known.since (flagging.trans madeDefinition.progress).since
  have madeCall := workshop.newCall madeDefinition.progress.kept (.inl knownFn) (by simp) runCall
  have knownStmts : ∀ id ∈ [definition, call], Known zone called id := by
    simpa using ⟨madeDefinition.known.since madeCall.progress.since, madeCall.known⟩
  obtain ⟨madeBlock, parentless⟩ := workshop.newFreeBlock madeCall.progress.kept knownStmts runBlock
  have untilFn := iterating.trans (madeBody.progress.trans madeFn.progress)
  have untilCall := flagging.trans (madeDefinition.progress.trans madeCall.progress)
  exact ⟨madeBlock.following (untilFn.trans untilCall), parentless⟩

end Iterations

theorem Draft.contains_iff_of_reachable (draft : Draft origin before) (healthy : Healthy origin)
    {id : NodeId} (inBody : origin.Reachable parts.body) :
    before.Contains parts.body id ↔ origin.Contains parts.body id :=
  draft.extended.contains_iff fun _ below =>
    Arranged.issued_of_reachable (Draft.start healthy).orderly (inBody.contains below)

theorem Draft.copies (healthy : Healthy origin) (outside : ¬ origin.Contains parts.body parts.index)
    (inBody : origin.Reachable parts.body) (inIterators : origin.Reachable parts.iterators) :
    CopiesParts origin.New (Draft origin) parts where
  body {_ localIndex _ _} draft symbol run := by
    have notBelow : ∀ id, _ → id ∉ (∅ : Remap).insert parts.index localIndex := fun id below seeded =>
      outside (eq_index_of_seeded seeded ▸ (draft.contains_iff_of_reachable healthy inBody).mp below)
    refine (draft.duplicateWith healthy inBody notBelow (fun id seeded => ?_) run).1
    rw [eq_index_of_seeded seeded]
    exact not_isExpr_of_isSymbol symbol
  low first holds draft run := by
    have issued := Arranged.issued_of_reachable (Draft.start healthy).orderly inIterators
    exact draft.duplicate healthy (inIterators.holds ((first.extended.same_holds issued).mp holds)) run

theorem Draft.newGpuVariant (draft : Draft origin before) (healthy : Healthy origin)
    (inBody : origin.Reachable parts.body) (inIterators : origin.Reachable parts.iterators)
    (run : Yields (Edit.newGpuVariant name parts) before answer after) :
    Made origin.New (Draft origin) before answer after ∧ after.parentOf answer = none := by
  have outside : ¬ origin.Contains parts.body parts.index := fun contained =>
    not_yields_newGpuVariant ((draft.contains_iff_of_reachable healthy inBody).mpr contained) run
  exact (Draft.workshop origin).newGpuVariant draft
    (Draft.copies healthy outside inBody inIterators) run

end Program

/-- The default outliner drafts a variant that hangs nowhere, or leaves the program as it is. -/
theorem GpuLoopBuilder.drafts {before after : Program} {loop : NodeId} {state : GpuLoopBuilder}
    {answer : Option NodeId × GpuLoopBuilder} (healthy : Healthy before)
    (reachable : before.Reachable loop)
    (run : Edit.Yields (GpuLoopBuilder.outline loop state) before answer after) :
    Draft before after ∧ ∀ variant, answer.1 = some variant →
      Known before.New after variant ∧ after.parentOf variant = none := by
  have start := Draft.start healthy
  rw [outline, yields_bind] at run
  obtain ⟨parts?, between, looked, run⟩ := run
  obtain ⟨found, same⟩ := yields_look.mp looked
  subst between
  cases parts? with
  | none =>
    obtain ⟨rfl, rfl⟩ := yields_pure.mp run
    exact ⟨start, nofun⟩
  | some parts =>
    simp only [yields_bind, yields_pure] at run
    obtain ⟨block, final, building, rfl, rfl⟩ := run
    obtain ⟨inIterators, inBody⟩ := contains_of_loopParts? found
    obtain ⟨node, built, _, running, rfl⟩ := yields_withLocationOf.mp building
    have entered : Draft before { before with givenLocation? := some node.location } :=
      start.frame rfl rfl rfl
    obtain ⟨made, parentless⟩ := entered.newGpuVariant healthy (reachable.contains inBody)
      (reachable.contains inIterators) running
    refine ⟨made.progress.kept.frame rfl rfl rfl, fun variant isVariant => ?_⟩
    obtain rfl : block = variant := by simpa using isVariant
    exact ⟨⟨made.known.inside, made.known.issued⟩, parentless⟩

/-- The default outliner keeps to what is asked of an outliner. -/
theorem GpuLoopBuilder.respectful : LoopOutliner.Respectful GpuLoopBuilder.outline := by
  intro before loop state answer after healthy reachable run
  obtain ⟨draft, variants⟩ := drafts healthy reachable run
  refine ⟨draft.extended, fun variant isVariant => ?_⟩
  obtain ⟨known, parentless⟩ := variants variant isVariant
  exact draft.freeStanding healthy known parentless

end ProgramTree
