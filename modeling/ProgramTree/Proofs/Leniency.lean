import ProgramTree.Compile
import ProgramTree.Proofs.Running

/-!
# Leniency

Only a check of the whole tree gives a program up.  Every query of a pass is lenient: where it
stops, it stops with a fault of another kind.
-/

namespace ProgramTree

variable {α β σ : Type}

/-- The query does not stop because the tree is not consistent. -/
class Lenient (result : Except Fault α) : Prop where
  no_verdict : ∀ report, result ≠ .error (.inconsistent report)

namespace Lenient

variable {first : Except Fault β} {next : β → Except Fault α} {query : β → Except Fault α}
  {items : List β}

instance {answer : α} : Lenient (Except.ok answer : Except Fault α) := ⟨nofun⟩

instance {answer : α} : Lenient (pure answer : Except Fault α) := ⟨nofun⟩

instance {defect : Defect} : Lenient (.error (.defect defect) : Except Fault α) := ⟨nofun⟩

instance {id : NodeId} : Lenient (.error (.unknownNode id) : Except Fault α) := ⟨nofun⟩

instance {id : NodeId} : Lenient (.error (.endless id) : Except Fault α) := ⟨nofun⟩

theorem andThen [Lenient first] (second : ∀ answer, Lenient (next answer)) :
    Lenient (first >>= next) := by
  refine ⟨fun report stops => ?_⟩
  cases result : first with
  | ok answer =>
    rw [result] at stops
    exact (second answer).no_verdict report stops
  | error fault =>
    rw [result] at stops
    cases stops
    exact no_verdict report result

instance [Lenient first] [second : ∀ answer, Lenient (next answer)] : Lenient (first >>= next) :=
  andThen second

instance {condition : Prop} [Decidable condition] {left right : Except Fault α} [Lenient left]
    [Lenient right] : Lenient (if condition then left else right) := by
  split <;> infer_instance

instance [∀ item, Lenient (query item)] : Lenient (items.mapM query) := by
  induction items with
  | nil =>
    rw [List.mapM_nil]
    infer_instance
  | cons first rest ih =>
    rw [List.mapM_cons]
    infer_instance

instance {test : β → Except Fault Bool} [∀ item, Lenient (test item)] :
    Lenient (items.anyM test) := by
  induction items with
  | nil =>
    rw [List.anyM_nil]
    infer_instance
  | cons first rest ih =>
    rw [List.anyM_cons]
    refine andThen fun passed => ?_
    cases passed <;> infer_instance

instance {test : β → Except Fault Bool} [∀ item, Lenient (test item)] :
    Lenient (items.filterM test) := by
  have within : ∀ earlier, Lenient (List.filterAuxM test items earlier) := by
    induction items with
    | nil => exact fun earlier => inferInstanceAs (Lenient (pure earlier))
    | cons first rest ih => exact fun earlier => andThen fun passed => ih _
  exact andThen fun passed => inferInstance

instance {step : α → β → Except Fault α} {start : α} [∀ state item, Lenient (step state item)] :
    Lenient (items.foldlM step start) := by
  induction items generalizing start with
  | nil =>
    rw [List.foldlM_nil]
    infer_instance
  | cons first rest ih =>
    rw [List.foldlM_cons]
    infer_instance

end Lenient

namespace Program

variable {program : Program} {id fn list module : NodeId} {id? : Option NodeId} {ids : List NodeId}
  {fuel : Nat}

/-! ## Queries -/

instance : Lenient (program.node id) := by
  unfold node
  split <;> infer_instance

instance {cause : Cause} : Lenient (program.fail id cause : Except Fault α) :=
  inferInstanceAs (Lenient (.error (.defect _)))

instance : Lenient (program.kindOf id) := by
  unfold kindOf
  infer_instance

instance : Lenient (program.isSymbol id) := by
  unfold isSymbol
  infer_instance

instance : Lenient (program.isFn id) := by
  unfold isFn
  infer_instance

instance {flag : Flag} : Lenient (program.hasFlag id flag) := by
  unfold hasFlag
  infer_instance

instance : Lenient (program.symbol id) :=
  .andThen fun kind => by split <;> infer_instance

instance : Lenient (program.typeOf id) := by
  unfold typeOf
  infer_instance

instance : Lenient (program.isList id) := by
  unfold isList
  infer_instance

instance : Lenient (program.list id) :=
  .andThen fun kind => by split <;> infer_instance

instance : Lenient (program.elements id) := by
  unfold elements
  infer_instance

instance : Lenient (program.fnBody id) :=
  .andThen fun symbol => by split <;> infer_instance

instance : Lenient (program.fnFormalsList id) :=
  .andThen fun symbol => by split <;> infer_instance

instance : Lenient (program.blockBody id) :=
  .andThen fun kind => by split <;> infer_instance

instance : Lenient (program.fnBodyList id) := by
  unfold fnBodyList
  infer_instance

instance : Lenient (program.moduleBodyList id) :=
  .andThen fun symbol => by split <;> infer_instance

instance : Lenient (program.definedSymbolWithin fuel id) := by
  induction fuel generalizing id with
  | zero => exact inferInstanceAs (Lenient (.error (.endless id)))
  | succ fuel ih => exact .andThen fun kind => by split <;> infer_instance

instance : Lenient (program.definedSymbol id) :=
  inferInstanceAs (Lenient (program.definedSymbolWithin _ id))

instance : Lenient (program.callArgs id) :=
  .andThen fun kind => by split <;> infer_instance

instance : Lenient (program.usedSymbol id) :=
  .andThen fun kind => by split <;> infer_instance

instance : Lenient (program.resolvedCallee id) :=
  .andThen fun kind => by
    split
    · exact .andThen fun var? => by split <;> infer_instance
    · infer_instance

instance : Lenient (program.typeSymbolOf id) := by
  unfold typeSymbolOf
  infer_instance

instance : Lenient (program.isClass id) :=
  .andThen fun kind => by split <;> infer_instance

instance : Lenient (program.fieldList id) :=
  .andThen fun kind => by split <;> infer_instance

instance {place : Nat} : Lenient (program.field id place) :=
  .andThen fun fields => .andThen fun definitions => by split <;> infer_instance

/-! ## Relations -/

instance : Lenient (program.listParent id) :=
  .andThen fun node => by split <;> infer_instance

instance : Lenient (program.positionIn list id) :=
  .andThen fun elements => by split <;> infer_instance

instance {side : Side} : Lenient (program.anchorPosition side id) :=
  .andThen fun isList => by
    split
    · exact .andThen fun _ => .andThen fun list? => by split <;> infer_instance
    · exact .andThen fun list? => by split <;> infer_instance

instance : Lenient (program.isStmtList id) :=
  .andThen fun kind => by split <;> infer_instance

instance : Lenient (program.enclosingStmtWithin fuel id) := by
  induction fuel generalizing id with
  | zero => exact inferInstanceAs (Lenient (.error (.endless id)))
  | succ fuel ih => exact .andThen fun node => by split <;> infer_instance

instance : Lenient (program.enclosingStmt id) :=
  inferInstanceAs (Lenient (program.enclosingStmtWithin _ id))

instance : Lenient (program.inTree id) := by
  unfold inTree
  infer_instance

instance : Lenient (program.isAlive id) :=
  .andThen fun kind => by
    split
    · infer_instance
    · split
      · infer_instance
      · split <;> infer_instance

instance : Lenient (program.childContext id) := by
  unfold childContext
  infer_instance

instance {turn : NodeId → SymbolKind → Ascent} : Lenient (program.ascend turn fuel id) := by
  induction fuel generalizing id with
  | zero => exact inferInstanceAs (Lenient (pure none))
  | succ fuel ih => exact .andThen fun node => by dsimp only; split <;> infer_instance

instance : Lenient (program.owningModule id) :=
  inferInstanceAs (Lenient (program.ascend _ _ id))

instance : Lenient (program.expectModule id) :=
  .andThen fun module? => by split <;> infer_instance

/-! ## Walks -/

instance : Lenient (program.owned id) := by
  unfold owned
  infer_instance

instance : Lenient (program.levels fuel ids) := by
  induction fuel generalizing ids with
  | zero =>
    cases ids with
    | nil => exact inferInstanceAs (Lenient (pure []))
    | cons first rest => exact inferInstanceAs (Lenient (.error (.endless first)))
  | succ fuel ih =>
    cases ids with
    | nil => exact inferInstanceAs (Lenient (pure []))
    | cons first rest => exact .andThen fun below => inferInstance

instance : Lenient (program.subtree id) :=
  inferInstanceAs (Lenient (program.levels _ [id]))

/-! ## The call graph -/

instance {call : NodeId} : Lenient (program.isCallSite fn call) :=
  .andThen fun kind => by split <;> infer_instance

instance : Lenient (program.callSites fn) := by
  unfold callSites
  infer_instance

instance : Lenient (program.enclosingFn id) :=
  .andThen fun node => by split <;> infer_instance

instance : Lenient (program.firstCaller fn) :=
  .andThen fun calls => by split <;> infer_instance

instance {seen : IdSet} : Lenient (program.chainFits fuel seen id?) := by
  induction fuel generalizing seen id? with
  | zero => cases id? <;> exact inferInstanceAs (Lenient (pure false))
  | succ fuel ih =>
    cases id? with
    | none => exact inferInstanceAs (Lenient (pure false))
    | some fn => exact .andThen fun fits => inferInstance

instance : Lenient (program.fitForOffload id) := by
  unfold fitForOffload
  infer_instance

/-! ## Captures -/

instance : Lenient (program.definingSymbol id) :=
  .andThen fun symbol => by split <;> infer_instance

instance {fn? : Option NodeId} : Lenient (program.nestedIn id? fuel fn?) := by
  induction fuel generalizing fn? with
  | zero => cases fn? <;> exact inferInstanceAs (Lenient (pure false))
  | succ fuel ih =>
    cases fn? with
    | none => exact inferInstanceAs (Lenient (pure false))
    | some fn => exact .andThen fun isFn => inferInstance

instance : Lenient (program.isOuterVar id fn) := by
  unfold isOuterVar
  infer_instance

instance : Lenient (program.usedOuterVar fn id) :=
  .andThen fun var? => by split <;> infer_instance

instance {captures : List Capture} : Lenient (program.addCapture fn captures id) :=
  .andThen fun var? => by split <;> infer_instance

instance : Lenient (program.captures fn) := by
  unfold captures
  infer_instance

instance : Lenient (program.isSharedType id) :=
  .andThen fun naming? => by split <;> infer_instance

/-! ## Loops -/

instance : Lenient (program.isJump id) :=
  .andThen fun kind => by split <;> infer_instance

instance : Lenient (program.jumps id) := by
  unfold jumps
  infer_instance

instance : Lenient (program.loopParts? id) :=
  .andThen fun kind => by
    split
    · exact .andThen fun elements => by
        split
        · exact .andThen fun index? => by split <;> infer_instance
        · infer_instance
    · infer_instance

instance : Lenient (program.isOrderIndependent id) :=
  .andThen fun kind => by split <;> infer_instance

instance : Lenient (program.isCandidate id) := by
  unfold isCandidate
  infer_instance

instance : Lenient (program.moduleTag id) :=
  .andThen fun symbol => by split <;> infer_instance

instance {outcome : Outcome} : Lenient (program.decisionReport? id outcome) := by
  unfold decisionReport?
  split
  · refine .andThen fun module => .andThen fun tag => ?_
    split
    · infer_instance
    · exact .andThen fun symbol => .andThen fun node => by cases outcome <;> infer_instance
  · infer_instance

instance : Lenient (program.isOffloaded id) := by
  unfold isOffloaded
  infer_instance

end Program

end ProgramTree
