import ProgramTree.Proofs.Compiling
import ProgramTree.Proofs.Clearing

/-!
# Outlining leaves no dangling uses

A loop that is outlined leaves the tree together with all that it defines.  As long as what is
used in the tree is in the tree and alive, and no use looks into a loop from outside, the code
that takes the place of the loops, and the functions that are relocated, use what is in the
tree and alive.
-/

namespace ProgramTree

open Program Edit

namespace Program

/-- Whatever the tree uses is alive. -/
def UsesAlive (program : Program) : Prop :=
  ∀ id sym, program.Reachable id → program.Uses id sym → program.isAlive sym = .ok true

/-- Whatever the tree uses is alive, and in the tree. -/
structure NoDanglingUses (program : Program) : Prop where
  alive : UsesAlive program
  reachable : ∀ {id sym}, program.Reachable id → program.Uses id sym → program.Reachable sym

/-- Loops define symbols in their bodies only, and these are used there only. -/
structure LoopsClosed (program : Program) : Prop where
  head : ∀ {loop indices iterators body independent list sym definition}, program.Reachable loop →
    program.kindAt loop = some (.stmt (.forLoop indices iterators body independent)) →
    list = indices ∨ list = iterators → program.Reachable sym →
    program.definitionOf sym = some definition → ¬ program.Contains list definition
  body : ∀ {loop indices iterators body independent sym definition id}, program.Reachable loop →
    program.kindAt loop = some (.stmt (.forLoop indices iterators body independent)) →
    program.definitionOf sym = some definition → program.Contains body definition →
    program.Reachable id → program.Uses id sym → program.Contains body id

variable {exact : Prop} {region : NodeId → Prop} {before after program : Program}
  {id sym loop list definition : NodeId}

/-! ## Resolved trees -/

theorem isSymbol_of_isAlive (alive : program.isAlive sym = .ok true) :
    (program.kindAt sym).any Kind.isSymbol := by
  simp only [isAlive, Fault.bind_eq_ok, kindOf_eq_ok] at alive
  obtain ⟨kind, known, alive⟩ := alive
  cases isSymbol : kind.symbol? with
  | none => simp [isSymbol, Fault.pure_eq_ok] at alive
  | some symbol => simp [known, Kind.isSymbol, isSymbol]

theorem resolved_of_noDanglingUses (built : Built program) (verified : program.verify = .ok none)
    (seated : Seated program) (attached : NoDanglingUses program) : Resolved program where
  healthy := (sound_of_verify verified (Built.moduleRoots built) seated).healthy
  seated := seated
  uses reachable uses :=
    ⟨attached.reachable reachable uses, isSymbol_of_isAlive (attached.alive _ _ reachable uses)⟩

namespace Resolved

variable (resolved : Resolved program)
include resolved

/-- What holds a symbol, other than the symbol itself, holds its definition. -/
theorem contains_definition (reachable : program.Reachable list)
    (noSymbol : ¬ (program.kindAt list).any Kind.isSymbol) (contained : program.Contains list sym)
    (symbol : (program.kindAt sym).any Kind.isSymbol) :
    ∃ definition, program.definitionOf sym = some definition ∧
      program.Contains list definition := by
  cases contained with
  | refl => exact absurd symbol noSymbol
  | tail above holds =>
    obtain ⟨definition, point, _, named⟩ :=
      sits_iff.mp (resolved.sits (reachable.contains above) holds symbol)
    have isHolder := (resolved.healthy.forest.held (.inl (reachable.contains above)) holds).2
    obtain rfl := Option.some.inj (named.symm.trans isHolder)
    exact ⟨_, point, above⟩

/-- Loops that keep their symbols to their bodies are tight. -/
theorem tight (closed : LoopsClosed program) (reachable : program.Reachable loop)
    (category : (program.kindAt loop).bind Kind.category? = some .loop) : Tight program loop := by
  obtain ⟨kind, known, isLoop⟩ := Option.bind_eq_some_iff.mp category
  obtain ⟨indices, iterators, body, independent, rfl⟩ := Kind.exists_forLoop_of_category isLoop
  intro part isPart id sym reachableId uses contained
  obtain ⟨reachableSym, symbol⟩ := resolved.uses reachableId uses
  rcases isPart with holds | ⟨list, starts, holds⟩
  · obtain ⟨definition, point, inPart⟩ := resolved.contains_definition (reachable.holds holds)
      (resolved.solid_of_held reachable known rfl holds).not_isSymbol contained symbol
    rw [Holds, held_eq_of_kindAt known] at holds
    simp only [Kind.owned, Stmt.owned, List.mem_cons, List.not_mem_nil, or_false] at holds
    rcases holds with rfl | rfl | rfl
    · exact absurd inPart (closed.head reachable known (.inl rfl) reachableSym point)
    · exact absurd inPart (closed.head reachable known (.inr rfl) reachableSym point)
    · exact closed.body reachable known point inPart reachableId uses
  · have reachableList := reachable.holds starts.holds
    obtain ⟨_, knownLoop, head, isList⟩ := starts
    obtain ⟨kind, knownList, isListKind⟩ := (Option.any_eq_true _ _).mp isList
    have noExpr : kind.isExpr = false := by cases kind <;> simp_all [Kind.isList, Kind.isExpr]
    obtain ⟨definition, point, inPart⟩ := resolved.contains_definition (reachableList.holds holds)
      (resolved.solid_of_held reachableList knownList noExpr holds).not_isSymbol contained symbol
    rw [known, Option.some.injEq] at knownLoop
    subst knownLoop
    simp only [Kind.heads, List.mem_cons, List.not_mem_nil, or_false] at head
    exact absurd (.head holds inPart) (closed.head reachable known head reachableSym point)

/-- Nothing lies on the bench when the loops are decided. -/
theorem neat :
    Neat program.Indexed (fun id => program.Reachable id ∨ program.get? id = none) [] program := by
  have sound := sound_of_verify resolved.healthy.verified resolved.healthy.modules resolved.seated
  have inTree : ∀ {id}, Known (fun id => program.Reachable id ∨ program.get? id = none) program id →
      program.Reachable id := fun known =>
    known.inside.resolve_right (Option.isSome_iff_ne_none.mp known.issued)
  refine ⟨sound, fun id known parentless => ?_, fun known uses => ?_, fun {id} known symbol => ?_⟩
  · obtain ⟨root, isRoot, contained⟩ := inTree known
    cases contained with
    | refl => exact .inl isRoot
    | tail above holds =>
      have isHolder := (sound.orderly.forest.held (.inl ⟨root, isRoot, above⟩) holds).2
      simp [parentless] at isHolder
  · obtain ⟨reachable, symbol⟩ := resolved.uses (inTree known) uses
    exact ⟨sound.known_of_reachable reachable, symbol⟩
  · obtain ⟨kind, isKind, isSymbol⟩ := (Option.any_eq_true _ _).mp symbol
    by_cases isRoot : id ∈ program.roots
    · exact .inl (resolved.healthy.modules id isRoot)
    · cases kind with
      | symbol symbol =>
        obtain ⟨definition, _, _, point, _⟩ :=
          resolved.seated id symbol (inTree known) isRoot isKind
        exact .inr (.inr (by simp [definitionOf, isKind, Kind.definition?, Kind.symbol?, point]))
      | _ => cases isSymbol

end Resolved

/-! ## When the bench is clear -/

/-- All that is known, other than lists without elements, is in the tree. -/
theorem Neat.reachable (neat : Neat exact region [] program) (known : Known region program id)
    (notSpent : ¬ program.Spent id) : program.Reachable id := by
  have forest := neat.sound.orderly.forest
  obtain ⟨top, insideTop, above, parentless⟩ := forest.exists_top known.inside
  have issuedTop : (program.get? top).isSome := by
    obtain rfl | ⟨_, holds, _⟩ := above.cases_head
    · exact known.issued
    · exact holds.issued
  rcases neat.stocked.accounted top ⟨insideTop, issuedTop⟩ parentless with
    isRoot | onBench | ⟨holds, isEmpty⟩
  · exact ⟨top, isRoot, above⟩
  · cases onBench
  · obtain rfl | ⟨_, held, _⟩ := above.cases_head
    · exact absurd ⟨holds, isEmpty⟩ notSpent
    · simp [Holds, held_eq_of_kindAt isEmpty, Kind.owned] at held

theorem Sound.inTree (sound : Sound exact False region program) (reachable : program.Reachable id) :
    program.inTree id = .ok true := by
  have known := sound.known_of_reachable reachable
  have placed := (sound.orderly.isPlaced_iff known.inside).mpr reachable
  exact Program.inTree_eq_ok.mpr ⟨known.issued, by simp [placed]⟩

/-- Symbols of the tree are alive. -/
theorem Neat.isAlive (neat : Neat exact region [] program) (reachable : program.Reachable sym)
    (symbol : (program.kindAt sym).any Kind.isSymbol) : program.isAlive sym = .ok true := by
  have known := neat.sound.known_of_reachable reachable
  have placed := neat.sound.inTree reachable
  obtain ⟨kind, isKind, isSymbol⟩ := (Option.any_eq_true _ _).mp symbol
  cases kind with
  | symbol data =>
    simp only [Program.isAlive, Fault.bind_eq_ok, kindOf_eq_ok]
    refine ⟨_, isKind, ?_⟩
    cases isModule : data.isModule with
    | true => simpa [Kind.symbol?, isModule] using placed
    | false =>
      rcases neat.stocked.defined known symbol with module | onBench | defined
      · simp [isKind, Kind.isModule, Kind.symbol?, isModule] at module
      · cases onBench
      · obtain ⟨definition, point⟩ := Option.isSome_iff_exists.mp defined
        rw [definitionOf, isKind, Option.bind_some] at point
        obtain ⟨insideDefinition, isExpr⟩ :=
          (neat.sound.located sym definition known.inside
            ⟨_, isKind, isModule, point⟩).resolve_left not_false
        have reachableDefinition :=
          neat.reachable ⟨insideDefinition, get?_isSome_of_any isExpr⟩
            (not_spent_of_any isExpr fun _ => rfl)
        have point : data.defPoint? = some definition := point
        simpa [Kind.symbol?, isModule, point] using neat.sound.inTree reachableDefinition
  | _ => cases isSymbol

theorem Neat.noDanglingUses (neat : Neat exact region [] program) : NoDanglingUses program := by
  have used : ∀ {id sym}, program.Reachable id → program.Uses id sym →
      program.Reachable sym ∧ (program.kindAt sym).any Kind.isSymbol := by
    intro id sym reachable uses
    obtain ⟨known, symbol⟩ := neat.stocked.uses (neat.sound.known_of_reachable reachable) uses
    exact ⟨neat.reachable known (not_spent_of_any symbol fun _ => rfl), symbol⟩
  refine ⟨fun id sym reachable uses => ?_, fun reachable uses => (used reachable uses).1⟩
  obtain ⟨reachableSym, symbol⟩ := used reachable uses
  exact neat.isAlive reachableSym symbol

theorem Neat.relocateAll {fns : List NodeId} {relocated : List Relocation}
    (neat : Neat exact region [] before) (known : ∀ fn ∈ fns, Known region before fn)
    (symbols : ∀ fn ∈ fns, (before.kindAt fn).any Kind.isSymbol)
    (run : Yields (fns.mapM Edit.relocate) before relocated after) :
    Neat exact region [] after := by
  have relocating : Progress (Neat exact region []) before after ∧
      ∀ relocation ∈ relocated, True := by
    refine mapM_progress run neat ?_ fun _ _ _ _ _ => trivial
    intro middle later fn relocation member progress run
    have knownFn := (known fn member).since progress.since
    have symbol := progress.since.isSymbol (symbols fn member)
    exact ⟨⟨progress.kept.relocate knownFn symbol run,
      (progress.kept.sound.relocate knownFn symbol run).since⟩, trivial⟩
  exact relocating.1.kept

/-! ## The whole pass -/

/-- Outlining a consistent program in which nothing dangles, and in which loops keep their
symbols to their bodies, leaves nothing that dangles. -/
theorem noDanglingUses_of_outline {report : OutlineReport} (built : Built before)
    (verified : before.verify = .ok none) (seated : Seated before) (closed : LoopsClosed before)
    (attached : NoDanglingUses before) (run : Yields Edit.outline before report after) :
    NoDanglingUses after := by
  simp only [Edit.outline, yields_bind, yields_pure] at run
  obtain ⟨answer, _, run, _, rfl⟩ := run
  obtain ⟨decided, fns, finished, runLoops, filtered, runRelocate, rfl⟩ :=
    Sound.exists_phases_of_outlineWith run
  have offloaded := Sound.mem_of_offloaded filtered
  have resolved := resolved_of_noDanglingUses built verified seated attached
  have entering := (resolved.neat.of_nodes rfl rfl rfl :
    Worked before.Indexed _ [] before
      { before with traversal? := some "createGpuForLoops" }).neat.sound
  have resolvedEntered : Resolved { before with traversal? := some "createGpuForLoops" } :=
    ⟨entering.healthy, resolved.seated, resolved.uses⟩
  have decide : Resolved decided :=
    entering.resolved_outlineLoops resolvedEntered entering.known_of_mem_loops
      (fun loop _ reachable category => resolved.tight closed reachable category) runLoops
  have relocating := decide.neat.relocateAll
    (fun fn member => decide.neat.sound.known_of_indexed (offloaded fn member).1)
    (fun fn member => Sound.isSymbol_of_isOffloaded (offloaded fn member).2) runRelocate
  have leaving := (relocating.of_nodes rfl rfl rfl : Worked _ _ [] finished
    { finished with traversal? := before.traversal? })
  exact leaving.neat.noDanglingUses

/-! ## A host with a loop -/

/-- All nodes that were issued. -/
def issued (program : Program) : List NodeId :=
  (List.range program.nodes.size).map fun place => ⟨place + 1⟩

/-- Whether no definition point is among the nodes. -/
def definesNone (program : Program) (nodes : List NodeId) : Bool :=
  program.issued.all fun sym => (program.definitionOf sym).all (· ∉ nodes)

/-- Whether the symbols that are defined among the nodes are used among them only. -/
def keepsUses (program : Program) (nodes : List NodeId) : Bool :=
  program.issued.all fun id =>
    match program.kindAt id with
    | some (.expr (.use sym)) =>
      (program.definitionOf sym).all fun definition => definition ∉ nodes || id ∈ nodes
    | _ => true

/-- Whether the node is no loop, or a loop that keeps its symbols to its body. -/
def keepsSymbols (program : Program) (id : NodeId) : Bool :=
  match program.kindAt id with
  | some (.stmt (.forLoop indices iterators body _)) =>
    (program.subtree indices).toOption.any program.definesNone &&
      (program.subtree iterators).toOption.any program.definesNone &&
      (program.subtree body).toOption.any program.keepsUses
  | _ => true

/-- Whether the node uses nothing, or a symbol that is alive. -/
def usesAliveAt (program : Program) (id : NodeId) : Bool :=
  match program.kindAt id with
  | some (.expr (.use sym)) => program.isAlive sym = .ok true
  | _ => true

/-- Whether the node uses nothing, or a symbol of the tree. -/
def usesPlacedAt (program : Program) (id : NodeId) : Bool :=
  match program.kindAt id with
  | some (.expr (.use sym)) =>
    program.roots.any fun root => (program.subtree root).toOption.any (sym ∈ ·)
  | _ => true

theorem mem_issued {kind : Kind} (known : program.kindAt id = some kind) : id ∈ program.issued := by
  obtain ⟨place, rfl, inBounds⟩ := val_of_issued (get?_isSome_of_kindAt known)
  exact List.mem_map.mpr ⟨place, List.mem_range.mpr inBounds, rfl⟩

theorem not_contains_of_definesNone (point : program.definitionOf sym = some definition)
    (defines : (program.subtree list).toOption.any program.definesNone) :
    ¬ program.Contains list definition := by
  obtain ⟨nodes, walked, defines⟩ := (Option.any_eq_true _ _).mp defines
  obtain ⟨_, known, _⟩ := Option.bind_eq_some_iff.mp point
  have outside := List.all_eq_true.mp defines sym (mem_issued known)
  rw [← mem_subtree (Fault.toOption_eq_some.mp walked)]
  simpa [point] using outside

theorem loopsClosed_of_keepsSymbols (keeps : program.issued.all program.keepsSymbols) :
    LoopsClosed program := by
  have parts : ∀ {loop indices iterators body independent},
      program.kindAt loop = some (.stmt (.forLoop indices iterators body independent)) →
      ((program.subtree indices).toOption.any program.definesNone ∧
        (program.subtree iterators).toOption.any program.definesNone) ∧
        (program.subtree body).toOption.any program.keepsUses := by
    intro loop indices iterators body independent known
    simpa [keepsSymbols, known] using List.all_eq_true.mp keeps loop (mem_issued known)
  refine ⟨fun _ known isHead _ point => ?_,
    fun {_ _ _ _ _ sym definition id} _ known point below _ uses => ?_⟩
  · obtain ⟨⟨first, second⟩, _⟩ := parts known
    rcases isHead with rfl | rfl
    · exact not_contains_of_definesNone point first
    · exact not_contains_of_definesNone point second
  · obtain ⟨nodes, walked, keepsUses⟩ := (Option.any_eq_true _ _).mp (parts known).2
    have inside := List.all_eq_true.mp keepsUses id (mem_issued uses)
    rw [← mem_subtree (Fault.toOption_eq_some.mp walked)] at below ⊢
    rw [uses] at inside
    simpa [point, below] using inside

theorem usesAlive_of_issued (alive : program.issued.all program.usesAliveAt) :
    UsesAlive program := by
  intro id sym _ uses
  have holds := List.all_eq_true.mp alive id (mem_issued uses)
  rw [usesAliveAt, uses] at holds
  exact of_decide_eq_true holds

theorem reachable_of_usesPlaced (placed : program.issued.all program.usesPlacedAt)
    (uses : program.Uses id sym) : program.Reachable sym := by
  have holds := List.all_eq_true.mp placed id (mem_issued uses)
  rw [usesPlacedAt, uses] at holds
  obtain ⟨root, isRoot, below⟩ := Array.any_eq_true'.mp holds
  obtain ⟨nodes, walked, member⟩ := (Option.any_eq_true _ _).mp below
  exact ⟨root, isRoot, (mem_subtree (Fault.toOption_eq_some.mp walked)).mp (by simpa using member)⟩

end Program

/-- A variable itself, or a copy of it. -/
def Edit.choose (copied : Bool) (var : NodeId) : Edit NodeId :=
  if copied then duplicate var else pure var

/-- A host that is fit for the GPU and runs a loop.  In the loop it uses a variable of its own, and
one that is defined in the loop, or a copy of that one. -/
def Edit.buildHost (copied : Bool) : Edit NodeId := do
  let index ← newVar "i" (some PrimitiveType.int.id)
  let defineIndex ← define index
  let size ← newVar "n" (some PrimitiveType.int.id)
  let defineSize ← define size
  let inner ← newVar "x" (some PrimitiveType.int.id)
  let defineInner ← define inner
  let used ← choose copied inner
  let useInner ← newUse used
  let useSize ← newUse size
  let body ← newBlock [defineInner, useInner, useSize]
  let loop ← newForLoop [index] [] body true
  let hostBody ← newBlock [defineIndex, defineSize, loop]
  let host ← newFn "host" [] hostBody none
  addFlag host .fitForGpu
  let defineHost ← define host
  let module ← newModule "m" .user [defineHost]
  addModule module
  return loop

theorem client_buildHost (copied : Bool) : Client (Edit.buildHost copied) := by
  have choose (inner : NodeId) : Client (Edit.choose copied inner) := by
    cases copied with
    | true => exact .bind (.duplicateWith _ _ _ _) fun _ => .pure _
    | false => exact .pure _
  refine .bind (.newSymbol _ _ _) fun index => .bind (.newDefinition _ _ _) fun _ => ?_
  refine .bind (.newSymbol _ _ _) fun size => .bind (.newDefinition _ _ _) fun _ => ?_
  refine .bind (.newSymbol _ _ _) fun inner => .bind (.newDefinition _ _ _) fun _ => ?_
  refine .bind (choose inner) fun used => .bind (.newUse _) fun _ => .bind (.newUse _) fun _ => ?_
  refine .bind (.newBlock _) fun body => .bind (.newForLoop _ _ _ _) fun loop => ?_
  refine .bind (.newBlock _) fun _ => .bind (.newFn _ _ _ _) fun host => ?_
  refine .bind (.addFlag _ _) fun _ => .bind (.newDefinition _ _ _) fun _ => ?_
  exact .bind (.newModule _ _ _) fun module => .bind (.addModule _) fun _ => .pure _

namespace Program

/-- The program with the host. -/
def host (copied : Bool) : Program :=
  match Edit.buildHost copied (.empty {}) with
  | .ok (_, program) => program
  | .error _ => .empty {}

/-- What can be looked up in the program with the host. -/
theorem looks_host (copied : Bool) :
    (Edit.buildHost copied (.empty {})).isOk ∧ (host copied).verify = .ok none ∧
      (∀ place < (host copied).nodes.size, ((host copied).contextOf ⟨place + 1⟩).symbol?.isSome →
        (host copied).sitsInDefinition ⟨place + 1⟩) ∧
      (host copied).issued.all (host copied).keepsSymbols ∧
      (host copied).issued.all (host copied).usesAliveAt ∧
      (copied = false → (host copied).issued.all (host copied).usesPlacedAt) := by
  cases copied <;> decide +kernel

theorem built_host (copied : Bool) : Built (host copied) := by
  obtain ⟨loop, program, run⟩ := Edit.yields_of_isOk (looks_host copied).1
  have same : host copied = program := by
    rw [host, show Edit.buildHost copied (.empty {}) = _ from run]
  exact ⟨{}, _, Edit.buildHost copied, loop, client_buildHost copied, same ▸ run⟩

theorem verify_host (copied : Bool) : (host copied).verify = .ok none :=
  (looks_host copied).2.1

theorem seated_host (copied : Bool) : Seated (host copied) :=
  seated_of_sitsInDefinition (verify_host copied) (Built.moduleRoots (built_host copied))
    (looks_host copied).2.2.1

theorem loopsClosed_host (copied : Bool) : LoopsClosed (host copied) :=
  loopsClosed_of_keepsSymbols (looks_host copied).2.2.2.1

theorem usesAlive_host (copied : Bool) : UsesAlive (host copied) :=
  usesAlive_of_issued (looks_host copied).2.2.2.2.1

/-- The loop leaves the tree, and the use of its variable is in the copies of the loop. -/
theorem noDanglingUses_of_outline_host :
    (Built (host false) ∧ (host false).verify = .ok none ∧ Seated (host false) ∧
      LoopsClosed (host false) ∧ NoDanglingUses (host false)) ∧
      ∃ report after, Yields Edit.outline (host false) report after ∧
        report.outlined.length = 1 ∧ report.relocated.length = 1 ∧ NoDanglingUses after := by
  have attached : NoDanglingUses (host false) :=
    ⟨usesAlive_host false, fun _ => reachable_of_usesPlaced ((looks_host false).2.2.2.2.2 rfl)⟩
  have outlines : (Edit.outline (host false)).toOption.any fun (report, _) =>
      report.outlined.length = 1 ∧ report.relocated.length = 1 := by decide +kernel
  obtain ⟨⟨report, after⟩, run, counts⟩ := (Option.any_eq_true _ _).mp outlines
  obtain ⟨outlined, relocated⟩ := of_decide_eq_true counts
  have run : Yields Edit.outline (host false) report after := Fault.toOption_eq_some.mp run
  exact ⟨⟨built_host false, verify_host false, seated_host false, loopsClosed_host false, attached⟩,
    report, after, run, outlined, relocated,
    noDanglingUses_of_outline (built_host false) (verify_host false) (seated_host false)
      (loopsClosed_host false) attached run⟩

/-- It does not suffice that what the tree uses is alive.  A copy of a variable is alive as long as
the definition of the variable is in the tree.  When that definition leaves the tree together with
the loop, what takes the place of the loop still uses the copy. -/
theorem not_forall_usesAlive_of_outline :
    ¬ ∀ before report after, Built before → before.verify = .ok none → Seated before →
      LoopsClosed before → UsesAlive before → Yields Edit.outline before report after →
      UsesAlive after := by
  intro keeps
  have dangles : (Edit.outline (host true)).toOption.any fun (_, after) =>
      after.roots.any fun root => (after.subtree root).toOption.any fun nodes =>
        nodes.any fun id => !after.usesAliveAt id := by decide +kernel
  obtain ⟨⟨report, after⟩, run, dangles⟩ := (Option.any_eq_true _ _).mp dangles
  obtain ⟨root, isRoot, dangles⟩ := Array.any_eq_true'.mp dangles
  obtain ⟨nodes, walked, dangles⟩ := (Option.any_eq_true _ _).mp dangles
  obtain ⟨id, member, dangles⟩ := List.any_eq_true.mp dangles
  have reachable : after.Reachable id :=
    ⟨root, isRoot, (mem_subtree (Fault.toOption_eq_some.mp walked)).mp member⟩
  have alive := keeps (host true) report after (built_host true) (verify_host true)
    (seated_host true) (loopsClosed_host true) (usesAlive_host true) (Fault.toOption_eq_some.mp run)
  simp only [usesAliveAt, Bool.not_eq_true'] at dangles
  split at dangles
  · rename_i sym uses
    simp [alive id sym reachable uses] at dangles
  · cases dangles

end Program

end ProgramTree
