import ProgramTree.Outlining

/-!
# Frames

Beside its nodes, roots and index a program has a frame: its settings, and what new nodes are
attributed to.  The queries of a pass do not depend on it.
-/

namespace ProgramTree.Program

/-- What a program has beside its nodes, roots and index. -/
structure Frame where
  settings : Settings
  lexerLocation? : Option Location
  givenLocation? : Option Location
  traversal? : Option String

/-- The program in another frame. -/
def framed (program : Program) (frame : Frame) : Program :=
  { program with
    settings := frame.settings
    lexerLocation? := frame.lexerLocation?
    givenLocation? := frame.givenLocation?
    traversal? := frame.traversal? }

/-- The query has the same answer in every frame. -/
class Unframed {α : Type} (query : Program → α) : Prop where
  framed : ∀ program frame, query (program.framed frame) = query program

/-- What new nodes are attributed to does not matter. -/
theorem Unframed.attributed {α : Type} (query : Program → α) [Unframed query] (program : Program)
    (location? : Option Location) :
    query { program with givenLocation? := location? } = query program :=
  framed program
    ⟨program.settings, program.lexerLocation?, location?, program.traversal?⟩

variable {program : Program} {frame : Frame} {fuel : Nat} {id list fn : NodeId} {id? : Option NodeId}

/-! ## Queries that recur -/

theorem definedSymbolWithin_framed :
    (program.framed frame).definedSymbolWithin fuel id = program.definedSymbolWithin fuel id := by
  induction fuel generalizing id with
  | zero => rfl
  | succ fuel ih =>
    simp only [definedSymbolWithin, ih]
    rfl

theorem enclosingStmtWithin_framed :
    (program.framed frame).enclosingStmtWithin fuel id = program.enclosingStmtWithin fuel id := by
  induction fuel generalizing id with
  | zero => rfl
  | succ fuel ih =>
    simp only [enclosingStmtWithin, ih]
    rfl

theorem levels_framed {level : List NodeId} :
    (program.framed frame).levels fuel level = program.levels fuel level := by
  induction fuel generalizing level with
  | zero => cases level <;> rfl
  | succ fuel ih =>
    cases level with
    | nil => rfl
    | cons id rest =>
      simp only [levels, ih]
      rfl

theorem ascend_framed {turn : NodeId → SymbolKind → Ascent} :
    (program.framed frame).ascend turn fuel id = program.ascend turn fuel id := by
  induction fuel generalizing id with
  | zero => rfl
  | succ fuel ih =>
    simp only [ascend, ih]
    rfl

theorem nestedIn_framed {owner? : Option NodeId} :
    (program.framed frame).nestedIn owner? fuel id? = program.nestedIn owner? fuel id? := by
  induction fuel generalizing id? with
  | zero => cases id? <;> rfl
  | succ fuel ih =>
    cases id? with
    | none => rfl
    | some fn =>
      simp only [nestedIn, ih]
      rfl

theorem chainFits_framed {seen : IdSet} :
    (program.framed frame).chainFits fuel seen id? = program.chainFits fuel seen id? := by
  induction fuel generalizing seen id? with
  | zero => cases id? <;> rfl
  | succ fuel ih =>
    cases id? with
    | none => rfl
    | some fn =>
      simp only [chainFits, ih]
      rfl

/-! ## What is asked in a pass -/

namespace Unframed

variable {side : Side} {place : Nat} {flag : Flag} {α : Type} {cause : Cause}

instance : Unframed (·.fail id cause : Program → Except Fault α) := ⟨fun _ _ => rfl⟩

instance : Unframed (·.node id) := ⟨fun _ _ => rfl⟩

instance : Unframed (·.kindOf id) := ⟨fun _ _ => rfl⟩

instance : Unframed (·.isSymbol id) := ⟨fun _ _ => rfl⟩

instance : Unframed (·.symbol id) := ⟨fun _ _ => rfl⟩

instance : Unframed (·.typeOf id) := ⟨fun _ _ => rfl⟩

instance : Unframed (·.typeSymbolOf id) := ⟨fun _ _ => rfl⟩

instance : Unframed (·.isSharedType id) := ⟨fun _ _ => rfl⟩

instance : Unframed (·.isList id) := ⟨fun _ _ => rfl⟩

instance : Unframed (·.list id) := ⟨fun _ _ => rfl⟩

instance : Unframed (·.elements id) := ⟨fun _ _ => rfl⟩

instance : Unframed (·.owned id) := ⟨fun _ _ => rfl⟩

instance : Unframed (·.inTree id) := ⟨fun _ _ => rfl⟩

instance : Unframed (·.isOffloaded id) := ⟨fun _ _ => rfl⟩

instance : Unframed (·.childContext id) := ⟨fun _ _ => rfl⟩

instance : Unframed (·.positionIn list id) := ⟨fun _ _ => rfl⟩

instance : Unframed (·.anchorPosition side id) := ⟨fun _ _ => rfl⟩

instance : Unframed (·.moduleBodyList id) := ⟨fun _ _ => rfl⟩

instance : Unframed (·.fnBody id) := ⟨fun _ _ => rfl⟩

instance : Unframed (·.fnBodyList id) := ⟨fun _ _ => rfl⟩

instance : Unframed (·.fnFormalsList id) := ⟨fun _ _ => rfl⟩

instance : Unframed (·.fieldList id) := ⟨fun _ _ => rfl⟩

instance : Unframed (·.callArgs id) := ⟨fun _ _ => rfl⟩

instance : Unframed (·.usedSymbol id) := ⟨fun _ _ => rfl⟩

instance : Unframed (·.callSites fn) := ⟨fun _ _ => rfl⟩

instance : Unframed (·.field id place) := by
  refine ⟨fun program frame => ?_⟩
  have same : (program.framed frame).definedSymbol = program.definedSymbol :=
    funext fun _ => definedSymbolWithin_framed
  simp only [field, same]
  rfl

instance : Unframed (·.enclosingStmt id) := ⟨fun _ _ => enclosingStmtWithin_framed⟩

instance : Unframed (·.subtree id) := ⟨fun _ _ => levels_framed⟩

instance : Unframed (·.owningModule id) := ⟨fun _ _ => ascend_framed⟩

instance : Unframed (·.expectModule id) := by
  refine ⟨fun program frame => ?_⟩
  simp only [expectModule, owningModule, ascend_framed]
  rfl

instance : Unframed (·.captures fn) := by
  refine ⟨fun program frame => ?_⟩
  have sameTest : (program.framed frame).addCapture fn = program.addCapture fn := by
    funext captures id
    simp only [addCapture, usedOuterVar, isOuterVar, nestedIn_framed]
    rfl
  simp only [captures, subtree, levels_framed, sameTest]
  rfl

instance : Unframed (·.loopParts? id) := by
  refine ⟨fun program frame => ?_⟩
  simp only [loopParts?, jumps, subtree, levels_framed]
  rfl

instance : Unframed (·.isCandidate id) := by
  refine ⟨fun program frame => ?_⟩
  simp only [isCandidate, fitForOffload, chainFits_framed]
  rfl

end Unframed

end ProgramTree.Program
