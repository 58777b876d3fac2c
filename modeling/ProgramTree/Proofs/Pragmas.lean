import ProgramTree.Proofs.Inspection
import ProgramTree.Proofs.Lookups

/-!
# Pragmas

An expression statement passes a pragma on to its expression, and a definition to the symbol that
it defines.  In a well-formed program this leads down to one node, on which the pragma lands.  It is
found there, and from every node that has this one for its module.  No other node finds anything new:
the statement or the definition that was given the pragma does not look where it passed it on to.
-/

namespace ProgramTree

open Relation Program Edit

variable {before after program : Program} {id next target reader : NodeId} {kind : Kind}
  {pragma start : String} {fuel : Nat}

/-- The node to which a pragma is passed on. -/
def Kind.passesTo : Kind → Option NodeId
  | .stmt (.expr inner) => some inner
  | .expr (.definition sym _ _) => some sym
  | _ => none

namespace Program

/-- Passed on from node to node, a pragma for `id` comes to this one. -/
inductive LandsOn (program : Program) : NodeId → NodeId → Prop where
  | here {id : NodeId} {kind : Kind} (known : program.kindAt id = some kind)
      (keeps : kind.passesTo = none) : LandsOn program id id
  | further {id next target : NodeId} {kind : Kind} (known : program.kindAt id = some kind)
      (passes : kind.passesTo = some next) (lands : LandsOn program next target) :
      LandsOn program id target

/-- The pragmas of `target` are read at `reader`: it is the node itself, or a node that belongs to
this module. -/
def ReadAt (program : Program) (target reader : NodeId) : Prop :=
  reader = target ∨ program.owningModule reader = .ok (some target)

/-! ## Where a pragma lands -/

theorem pragmaTargetWithin_succ_eq (known : program.kindAt id = some kind) :
    program.pragmaTargetWithin (fuel + 1) id =
      match kind.passesTo with
      | none => .ok id
      | some next => program.pragmaTargetWithin fuel next := by
  rw [pragmaTargetWithin, kindOf_eq_ok.mpr known]
  cases kind with
  | stmt stmt => cases stmt <;> rfl
  | expr expr => cases expr <;> rfl
  | _ => rfl

theorem holds_of_passesTo (known : program.kindAt id = some kind)
    (passes : kind.passesTo = some next) : program.Holds id next := by
  rw [Holds, held_eq_of_kindAt known]
  unfold Kind.passesTo at passes
  split at passes
  · cases passes
    simp [Kind.owned, Stmt.owned]
  · cases passes
    simp [Kind.owned, Expr.owned]
  · cases passes

theorem LandsOn.issued (lands : program.LandsOn id target) : (program.get? target).isSome := by
  induction lands with
  | here known _ => exact get?_isSome_of_kindAt known
  | further _ _ _ ih => exact ih

theorem LandsOn.unique {other : NodeId} (lands : program.LandsOn id target)
    (landsToo : program.LandsOn id other) : target = other := by
  induction lands with
  | here known keeps =>
    cases landsToo with
    | here _ _ => rfl
    | further knownToo passes _ =>
      cases known.symm.trans knownToo
      exact nomatch keeps.symm.trans passes
  | further known passes _ ih =>
    cases landsToo with
    | here knownToo keeps =>
      cases known.symm.trans knownToo
      exact nomatch keeps.symm.trans passes
    | further knownToo passesToo lands =>
      cases known.symm.trans knownToo
      cases passes.symm.trans passesToo
      exact ih lands

/-- The nodes that passed the pragma on are distinct, so it may be passed on further. -/
theorem WellFormed.exists_landsOn_of_passed {passed : List NodeId}
    (wellFormed : WellFormed program) (issued : (program.get? id).isSome) (distinct : passed.Nodup)
    (above : ∀ upper ∈ passed, TransGen program.Holds upper id)
    (enough : fuel + passed.length = program.nodes.size + 1) :
    ∃ target, program.pragmaTargetWithin fuel id = .ok target ∧ program.LandsOn id target := by
  induction fuel generalizing id passed with
  | zero =>
    have bounded : passed.length ≤ program.nodes.size := by
      apply length_le_size distinct
      intro upper member
      obtain ⟨_, holds, _⟩ := TransGen.head'_iff.mp (above upper member)
      exact holds.issued
    omega
  | succ fuel ih =>
    obtain ⟨node, found⟩ := Option.isSome_iff_exists.mp issued
    have known := kindAt_eq found
    rw [pragmaTargetWithin_succ_eq known]
    cases passes : node.kind.passesTo with
    | none => exact ⟨id, rfl, .here known passes⟩
    | some next =>
      have holds := holds_of_passesTo known passes
      obtain ⟨child, foundNext, _⟩ := get?_of_parentOf ((wellFormed.parent_iff _ _).mp holds)
      have fresh : id ∉ passed := fun again => wellFormed.acyclic id (above id again)
      have aboveNext : ∀ upper ∈ id :: passed, TransGen program.Holds upper next :=
        List.forall_mem_cons.mpr
          ⟨.single holds, fun upper member => (above upper member).tail holds⟩
      obtain ⟨target, looked, lands⟩ := ih (by simp [foundNext])
        (List.nodup_cons.mpr ⟨fresh, distinct⟩) aboveNext (by rw [List.length_cons]; omega)
      exact ⟨target, looked, .further known passes lands⟩

theorem WellFormed.exists_landsOn (wellFormed : WellFormed program)
    (issued : (program.get? id).isSome) :
    ∃ target, program.pragmaTarget id = .ok target ∧ program.LandsOn id target :=
  wellFormed.exists_landsOn_of_passed issued .nil nofun rfl

/-! ## What changes with it -/

/-- The program with another pragma at a node. -/
def withPragma (program : Program) (target : NodeId) (pragma : String) : Program :=
  program.modifyNode target fun node => { node with pragmas := node.pragmas.push pragma }

theorem kindAt_withPragma : (program.withPragma target pragma).kindAt id = program.kindAt id := by
  rw [kindAt, withPragma, get?_modifyNode_map, kindAt]
  cases program.get? id <;> simp [apply_ite]

theorem contextOf_withPragma :
    (program.withPragma target pragma).contextOf id = program.contextOf id := by
  rw [contextOf, withPragma, get?_modifyNode_map, contextOf]
  cases program.get? id <;> simp [apply_ite]

theorem ascend_withPragma {turn : NodeId → SymbolKind → Ascent} :
    (program.withPragma target pragma).ascend turn fuel id = program.ascend turn fuel id := by
  induction fuel generalizing id with
  | zero => rfl
  | succ fuel ih =>
    cases known : program.kindAt id with
    | none =>
      rw [ascend_of_unissued (get?_eq_none_iff_kindAt.mpr known),
        ascend_of_unissued (get?_eq_none_iff_kindAt.mpr (kindAt_withPragma.trans known))]
    | some kind =>
      have way : (program.withPragma target pragma).wayUp turn id kind =
          program.wayUp turn id kind := by
        cases kind <;> simp only [wayUp, contextOf_withPragma]
      rw [ascend_succ_eq known, ascend_succ_eq (kindAt_withPragma.trans known), way]
      cases program.wayUp turn id kind with
      | inl owner? => rfl
      | inr above? =>
        cases above? with
        | none => rfl
        | some above => exact ih

theorem owningModule_withPragma :
    (program.withPragma target pragma).owningModule id = program.owningModule id := by
  rw [owningModule, owningModule, ascentBound, ascentBound, ascend_withPragma, withPragma,
    size_modifyNode]

theorem get?_withPragma_of_ne (other : id ≠ target) :
    (program.withPragma target pragma).get? id = program.get? id :=
  get?_modifyNode_of_ne other.symm

theorem get?_withPragma_self {node : Node} (found : program.get? target = some node) :
    (program.withPragma target pragma).get? target =
      some { node with pragmas := node.pragmas.push pragma } := by
  rw [withPragma, get?_modifyNode, if_pos rfl, found, Option.map_some]

/-! ## Finding a pragma -/

theorem begins_of_find? {pragmas : Array String} {found : String}
    (isFound : pragmas.find? (·.startsWith start) = some found) : start.toList <+: found.toList := by
  have passes : found.startsWith start = true := by simpa using Array.find?_some isFound
  exact String.startsWith_string_iff.mp passes

/-- Among pragmas of which one has this beginning the search finds one that has it. -/
theorem exists_find?_of_mem {pragmas : Array String} (member : pragma ∈ pragmas)
    (begins : start.toList <+: pragma.toList) :
    ∃ found, pragmas.find? (·.startsWith start) = some found :=
  Option.isSome_iff_exists.mp
    (Array.find?_isSome.mpr ⟨pragma, member, String.startsWith_string_iff.mpr begins⟩)

theorem pragma?_of_own {node : Node} {found : String} (known : program.get? id = some node)
    (own : node.pragmas.find? (·.startsWith start) = some found) :
    program.pragma? id start = .ok (some found) := by
  refine Fault.bind_eq_ok.mpr ⟨node, node_eq_ok.mpr known, ?_⟩
  rw [own]
  rfl

/-- Without a pragma of its own a node finds one at its module, unless it is a module. -/
theorem pragma?_of_no_own {node : Node} (known : program.get? id = some node)
    (none? : node.pragmas.find? (·.startsWith start) = none) :
    program.pragma? id start =
      if node.kind.isModule then .ok none
      else program.owningModule id >>= (·.elim (.ok none) fun module => do
        return (← program.node module).pragmas.find? (·.startsWith start)) := by
  simp only [pragma?, node_eq_ok.mpr known, bind, Except.bind, none?]
  cases program.owningModule id with
  | error fault => rfl
  | ok module? => cases module? <;> rfl

theorem owningModule_of_isModule (known : program.kindAt id = some kind)
    (isModule : kind.isModule) : program.owningModule id = .ok (some id) := by
  rw [owningModule, ascentBound, ascend_succ_eq known]
  cases kind with
  | symbol symbol =>
    cases form : symbol.kind <;>
      simp_all [wayUp, owningModule.turn, Kind.isModule, Kind.symbol?, Symbol.isModule]
  | _ => cases isModule

/-- The node that was given a pragma has one with every beginning of it. -/
theorem exists_find?_withPragma (issued : (program.get? target).isSome)
    (begins : start.toList <+: pragma.toList) :
    ∃ node found, (program.withPragma target pragma).get? target = some node ∧
      node.pragmas.find? (·.startsWith start) = some found := by
  obtain ⟨node, known⟩ := Option.isSome_iff_exists.mp issued
  have member : pragma ∈ node.pragmas.push pragma := Array.mem_push_self
  obtain ⟨found, isFound⟩ := exists_find?_of_mem member begins
  exact ⟨_, found, get?_withPragma_self known, isFound⟩

theorem exists_pragma?_of_readAt (issued : (program.get? target).isSome)
    (begins : start.toList <+: pragma.toList) (reads : program.ReadAt target reader) :
    ∃ found, (program.withPragma target pragma).pragma? reader start = .ok (some found) ∧
      start.toList <+: found.toList := by
  obtain ⟨module, landed, atModule, isLanded⟩ := exists_find?_withPragma issued begins
  by_cases same : reader = target
  · subst same
    exact ⟨landed, pragma?_of_own atModule isLanded, begins_of_find? isLanded⟩
  have owner := reads.resolve_left same
  cases known : program.get? reader with
  | none => simp [owningModule, ascentBound, ascend_of_unissued known] at owner
  | some node =>
    have kept : (program.withPragma target pragma).get? reader = some node :=
      (get?_withPragma_of_ne same).trans known
    cases own : node.pragmas.find? (·.startsWith start) with
    | some found => exact ⟨found, pragma?_of_own kept own, begins_of_find? own⟩
    | none =>
      have noModule : ¬ node.kind.isModule := by
        intro isModule
        have ownModule := owningModule_of_isModule (kindAt_eq known) isModule
        rw [owner] at ownModule
        cases ownModule
        exact same rfl
      refine ⟨landed, ?_, begins_of_find? isLanded⟩
      rw [pragma?_of_no_own kept own, if_neg noModule, owningModule_withPragma, owner]
      refine Fault.bind_eq_ok.mpr ⟨some target, rfl, ?_⟩
      exact Fault.bind_eq_ok.mpr ⟨module, node_eq_ok.mpr atModule, congrArg _ isLanded⟩

theorem pragma?_withPragma_of_not_readAt (elsewhere : ¬ program.ReadAt target reader) :
    (program.withPragma target pragma).pragma? reader start = program.pragma? reader start := by
  obtain ⟨other, notOwner⟩ := not_or.mp elsewhere
  have kept : (program.withPragma target pragma).get? reader = program.get? reader :=
    get?_withPragma_of_ne other
  cases known : program.get? reader with
  | none => rw [pragma?, pragma?, node, node, kept, known]; rfl
  | some node =>
    rw [known] at kept
    cases own : node.pragmas.find? (·.startsWith start) with
    | some found => rw [pragma?_of_own kept own, pragma?_of_own known own]
    | none =>
      rw [pragma?_of_no_own kept own, pragma?_of_no_own known own, owningModule_withPragma]
      cases owner : program.owningModule reader with
      | error fault => rfl
      | ok owner? =>
        cases owner? with
        | none => rfl
        | some module =>
          have otherModule : module ≠ target := by
            rintro rfl
            exact notOwner owner
          change (if node.kind.isModule then _ else Except.bind (Program.node _ module) _) =
            if node.kind.isModule then _ else Except.bind (Program.node _ module) _
          rw [Program.node, Program.node, get?_withPragma_of_ne otherModule]

theorem yields_addPragma (looked : before.pragmaTarget id = .ok target)
    (issued : (before.get? target).isSome) :
    Yields (addPragma id pragma) before () (before.withPragma target pragma) := by
  rw [addPragma, yields_bind]
  exact ⟨target, before, yields_look.mpr ⟨looked, rfl⟩, yields_change.mpr ⟨issued, rfl⟩⟩

/-- **Where a pragma is found.**  A pragma can be given to every node.  It lands on one node, and of
this node and of every node that has it for its module one can ask for any beginning of the pragma
and gets a pragma that has it.  All other nodes answer as before. -/
theorem WellFormed.pragma_found (wellFormed : WellFormed before)
    (issued : (before.get? id).isSome) :
    ∃ target, before.LandsOn id target ∧
      ∀ pragma, ∃ after, Yields (addPragma id pragma) before () after ∧
        (∀ start reader, start.toList <+: pragma.toList → before.ReadAt target reader →
          ∃ found, after.pragma? reader start = .ok (some found) ∧
            start.toList <+: found.toList) ∧
        ∀ reader, ¬ before.ReadAt target reader →
          ∀ start, after.pragma? reader start = before.pragma? reader start := by
  obtain ⟨target, looked, lands⟩ := wellFormed.exists_landsOn issued
  refine ⟨target, lands, fun pragma =>
    ⟨before.withPragma target pragma, yields_addPragma looked lands.issued, ?_, ?_⟩⟩
  · exact fun start reader begins reads => exists_pragma?_of_readAt lands.issued begins reads
  · exact fun reader elsewhere start => pragma?_withPragma_of_not_readAt elsewhere

/-! ## A variable that a module defines -/

/-- A module with a statement that defines a variable. -/
def variableInModule : Program := Edit.making do
  let var ← newVar "x" none
  let defineVar ← define var
  let module ← newModule "m" .user [defineVar]
  addModule module

theorem standsUp_variableInModule : variableInModule.StandsUp ⟨18⟩ := by
  decide +kernel

/-- The statement passes the pragma on to the definition, and that to the variable. -/
theorem landsOn_variableInModule : variableInModule.LandsOn ⟨15⟩ ⟨13⟩ := by
  have statement : variableInModule.kindAt ⟨15⟩ = some (.stmt (.expr ⟨14⟩)) := by decide +kernel
  have definition : variableInModule.kindAt ⟨14⟩ = some (.expr (.definition ⟨13⟩ none none)) := by
    decide +kernel
  have stays : (variableInModule.kindAt ⟨13⟩).map Kind.passesTo = some none := by decide +kernel
  obtain ⟨kind, known, keeps⟩ := Option.map_eq_some_iff.mp stays
  exact .further statement rfl (.further definition rfl (.here known keeps))

theorem not_readAt_variableInModule : ¬ variableInModule.ReadAt ⟨13⟩ ⟨15⟩ := by
  have owner : variableInModule.owningModule ⟨15⟩ = .ok (some ⟨18⟩) :=
    Fault.toOption_eq_some.mp (by decide +kernel)
  simp [ReadAt, owner]

/-- The pragma of the statement is found at the variable, and the statement answers as before. -/
theorem pragma_found_variableInModule :
    WellFormed variableInModule ∧ (variableInModule.get? ⟨15⟩).isSome ∧
      ∃ after, Yields (addPragma ⟨15⟩ "gpu targets") variableInModule () after ∧
        (∃ found, after.pragma? ⟨13⟩ "gpu" = .ok (some found) ∧
          "gpu".toList <+: found.toList) ∧
        ∀ start, after.pragma? ⟨15⟩ start = variableInModule.pragma? ⟨15⟩ start := by
  have wellFormed := standsUp_variableInModule.inspected.wellFormed
  have issued : (variableInModule.get? ⟨15⟩).isSome := by decide +kernel
  obtain ⟨target, lands, given⟩ := WellFormed.pragma_found wellFormed issued
  obtain rfl := lands.unique landsOn_variableInModule
  obtain ⟨after, run, atReaders, elsewhere⟩ := given "gpu targets"
  exact ⟨wellFormed, issued, after, run, atReaders "gpu" ⟨13⟩ (by decide) (.inl rfl),
    elsewhere ⟨15⟩ not_readAt_variableInModule⟩

/-- At the statement that was given it, a pragma is not found. -/
theorem not_forall_pragma_found_there :
    ¬ ∀ before after id pragma start, WellFormed before → (before.get? id).isSome →
      start.toList <+: pragma.toList → Yields (addPragma id pragma) before () after →
        ∃ found, after.pragma? id start = .ok (some found) := by
  intro found
  have wellFormed := standsUp_variableInModule.inspected.wellFormed
  have issued : (variableInModule.get? ⟨15⟩).isSome := by decide +kernel
  obtain ⟨target, looked, lands⟩ := wellFormed.exists_landsOn issued
  obtain rfl := lands.unique landsOn_variableInModule
  obtain ⟨found, isFound⟩ := found variableInModule _ ⟨15⟩ "gpu targets" "gpu" wellFormed issued
    (by decide) (yields_addPragma looked lands.issued)
  have nothing : variableInModule.pragma? ⟨15⟩ "gpu" = .ok none :=
    Fault.toOption_eq_some.mp (by decide +kernel)
  rw [pragma?_withPragma_of_not_readAt not_readAt_variableInModule, nothing] at isFound
  cases isFound

end Program

end ProgramTree
