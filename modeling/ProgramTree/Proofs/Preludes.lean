import ProgramTree.Program.Consistency
import ProgramTree.Proofs.Agreement
import ProgramTree.Proofs.Moorings
import ProgramTree.Proofs.Outlining

/-!
# What runs before the call

The code that fills a bundle is put before the first node, going up from the call, that sits in a
list of statements.  Where the statement of the call is such a node, nothing can come between the
code and the statement.  Where it is not, because it is the branch of a conditional or the target
of a label, the code is put before a statement further up.
-/

namespace ProgramTree.Program

open Edit Relation

variable {origin before between after start passed program : Program} {touched : NodeId → Prop}
  {fn call bundle naming anchor list stmt id : NodeId} {captures : List Capture}
  {members : List (NodeId × NodeId)}

/-! ## The statement of a call -/

/-- A bundle class of the variables has been declared, and what was there hangs where it hung. -/
structure Declared (origin program : Program) (bundle naming : NodeId)
    (members : List (NodeId × NodeId)) : Prop where
  revision : Revision origin (fun _ => True) origin program
  isClass : IsClass origin program bundle naming members
  isNaming : (program.kindAt naming).any Kind.isSymbol

theorem Declared.next (declared : Declared origin before bundle naming members)
    (revision : Revision origin touched before after) (spares : Spares origin before touched) :
    Declared origin after bundle naming members where
  revision := declared.revision.followedBy revision (fun _ _ => trivial) fun _ _ _ => trivial
  isClass := declared.isClass.keep_of_spares revision spares
  isNaming := (revision.isSymbol_iff (issued_of_any declared.isNaming)).mpr declared.isNaming

section Course

variable {σ : Type} {outliner : LoopOutliner σ} {state : σ} {relocation : Relocation}
  {answer : OutlineReport × σ}

/-- In its course the pass comes to a function, and passes the captures of it. -/
def PassesIn (outliner : LoopOutliner σ) (state : σ) (before : Program) (relocation : Relocation)
    (start passed : Program) : Prop :=
  ∃ decisions decided earlier later done,
    Yields (outlineLoops outliner before.index.loops.toList state)
      { before with traversal? := some "createGpuForLoops" } decisions decided ∧
    decided.index.fns.toList.filterM decided.isOffloaded =
      .ok (earlier ++ relocation.fn :: later) ∧
    Yields (earlier.mapM relocate) decided done start ∧
    Yields (passCaptures relocation.fn) start relocation.bundle passed

variable [∀ loop state, Mooring (outliner loop state)]

theorem PassesIn.moored (passes : PassesIn outliner state before relocation start passed)
    (moored : before.Moored) : start.Moored := by
  obtain ⟨_, _, _, _, _, runLoops, _, runEarlier, _⟩ := passes
  have entering : Moors before { before with traversal? := some "createGpuForLoops" } :=
    .of_nodes rfl
  have deciding := Mooring.moors runLoops
  have relocating := Mooring.moors runEarlier
  exact ((entering.trans deciding).trans relocating).moored moored

end Course

/-- A function with a local, which a function for the GPU in it uses.  That function is called in a
branch of a conditional. -/
def branchingCalls : List Call :=
  [.build (.symbol "x" (some PrimitiveType.int.id) .var), .build (.definition ⟨13⟩ none none),
    .build (.use ⟨13⟩), .build (.block [⟨15⟩]), .build (.fn "kernel" [] ⟨18⟩ none),
    .addFlag ⟨20⟩ .offloadToGpu, .build (.definition ⟨20⟩ none none), .build (.call ⟨20⟩ []),
    .build (.literal (.bool true)), .build (.cond ⟨25⟩ ⟨24⟩ none),
    .build (.block [⟨14⟩, ⟨21⟩, ⟨27⟩]), .build (.fn "host" [] ⟨31⟩ none),
    .build (.definition ⟨33⟩ none none), .build (.module "m" .user [⟨34⟩]),
    .mutate (.addModule ⟨38⟩)]

/-- The program that they lead to. -/
def branching : Program :=
  (afterCalls branchingCalls (empty {})).getD (empty {})

end ProgramTree.Program
