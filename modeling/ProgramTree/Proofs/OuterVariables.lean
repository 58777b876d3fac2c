import ProgramTree.Proofs.DefinitionPoints
import ProgramTree.Proofs.FreeSymbols
import ProgramTree.Proofs.Inspection
import ProgramTree.Proofs.Linking
import ProgramTree.Proofs.Lookups
import ProgramTree.Proofs.Owners

/-!
# Outer variables

A function captures the locals that it uses of the functions around it.  The search for the
function that a local belongs to goes outward from symbol to symbol, and it ends at the first
symbol that is no function.  So the captures are the locals of those functions from which one comes
to the capturing function through functions only; what lies beyond a class is not captured.
-/

namespace ProgramTree

open Program Edit Relation

namespace Program

variable {program : Program} {id holder fn owner sym var found : NodeId}

/-! ## The functions around a node -/

/-- Going outward from `id`, from symbol to symbol and through functions only, one comes to the
function `owner`. -/
def FnsAround (program : Program) : NodeId → NodeId → Prop :=
  TransGen fun id fn => program.Nearest Kind.isSymbol id fn ∧ (program.kindAt fn).any Kind.isFn

theorem FnsAround.isFn (around : program.FnsAround id owner) :
    (program.kindAt owner).any Kind.isFn := by
  obtain ⟨_, _, last⟩ := TransGen.tail'_iff.mp around
  exact last.2

theorem FnsAround.contains (around : program.FnsAround id owner) :
    TransGen program.Holds owner id := by
  induction around with
  | single step => exact step.1.around.1
  | tail _ step ih => exact step.1.around.1.trans ih

theorem FnsAround.reachable (wellFormed : WellFormed program)
    (around : program.FnsAround id owner) (reachable : program.Reachable id) :
    program.Reachable owner :=
  by_contra fun unreachable => wellFormed.orderly.rooted.not_reachable_below
    wellFormed.orderly.forest trivial unreachable around.contains.to_reflTransGen reachable

/-- A symbol above a node is the nearest one, or it is above that one. -/
theorem Nearest.above_or_eq (wellFormed : WellFormed program)
    (nearest : program.Nearest Kind.isSymbol id found)
    (isSymbol : (program.kindAt sym).any Kind.isSymbol) (above : TransGen program.Holds sym id) :
    sym = found ∨ TransGen program.Holds sym found := by
  induction nearest with
  | @here id holder holds _ =>
    obtain ⟨other, upper, holdsOther⟩ := TransGen.tail'_iff.mp above
    obtain rfl := (wellFormed.held_once _ _ holds).2 _ holdsOther
    exact reflTransGen_iff_eq_or_transGen.mp upper |>.imp_left Eq.symm
  | @above id holder found holds unwanted _ ih =>
    obtain ⟨other, upper, holdsOther⟩ := TransGen.tail'_iff.mp above
    obtain rfl := (wellFormed.held_once _ _ holds).2 _ holdsOther
    rcases reflTransGen_iff_eq_or_transGen.mp upper with rfl | strict
    · exact absurd isSymbol unwanted
    · exact ih strict

theorem Nearest.unique (wellFormed : WellFormed program)
    (nearest : program.Nearest Kind.isSymbol id found)
    (other : program.Nearest Kind.isSymbol id sym) : sym = found := by
  rcases nearest.above_or_eq wellFormed other.around.2 other.around.1 with same | beyond
  · exact same
  rcases other.above_or_eq wellFormed nearest.around.2 nearest.around.1 with same | beyondToo
  · exact same.symm
  · exact absurd (beyond.trans beyondToo) (wellFormed.acyclic sym)

theorem fnsAround_iff_of_nearest (wellFormed : WellFormed program)
    (nearest : program.Nearest Kind.isSymbol id found) :
    program.FnsAround id owner ↔
      (program.kindAt found).any Kind.isFn ∧ (found = owner ∨ program.FnsAround found owner) := by
  constructor
  · intro around
    obtain ⟨first, ⟨nearestFirst, isFn⟩, rest⟩ := TransGen.head'_iff.mp around
    obtain rfl := nearest.unique wellFormed nearestFirst
    exact ⟨isFn, (reflTransGen_iff_eq_or_transGen.mp rest).imp_left Eq.symm⟩
  · rintro ⟨isFn, rfl | further⟩
    · exact .single ⟨nearest, isFn⟩
    · exact .head ⟨nearest, isFn⟩ further

/-- One comes to a function through functions only if it is around the node, and all symbols
between the two are functions. -/
theorem fnsAround_iff (wellFormed : WellFormed program) :
    program.FnsAround id owner ↔ (program.kindAt owner).any Kind.isFn ∧
      TransGen program.Holds owner id ∧
      ∀ sym, (program.kindAt sym).any Kind.isSymbol → TransGen program.Holds owner sym →
        TransGen program.Holds sym id → (program.kindAt sym).any Kind.isFn := by
  constructor
  · intro around
    refine ⟨around.isFn, around.contains, ?_⟩
    induction around using TransGen.head_induction_on with
    | single step =>
      intro sym isSymbol below above
      rcases step.1.above_or_eq wellFormed isSymbol above with rfl | beyond
      · exact step.2
      · exact absurd (below.trans beyond) (wellFormed.acyclic _)
    | head step _ ih =>
      intro sym isSymbol below above
      rcases step.1.above_or_eq wellFormed isSymbol above with rfl | beyond
      · exact step.2
      · exact ih sym isSymbol below beyond
  · rintro ⟨isFn, contained, between⟩
    induction contained with
    | single holds => exact .single ⟨.here holds (isSymbol_of_isFn isFn), isFn⟩
    | @tail holder id contained holds ih =>
      have further := ih fun sym isSymbol below above =>
        between sym isSymbol below (above.tail holds)
      by_cases isSymbol : (program.kindAt holder).any Kind.isSymbol
      · have isFn := between holder isSymbol contained (.single holds)
        exact .head ⟨.here holds isSymbol, isFn⟩ further
      · obtain ⟨first, ⟨nearest, firstIsFn⟩, rest⟩ := TransGen.head'_iff.mp further
        exact TransGen.head'_iff.mpr ⟨first, ⟨.above holds isSymbol nearest, firstIsFn⟩, rest⟩

/-! ## The symbol around a definition -/

/-- The symbol around the definition of a symbol, as the context of the definition names it. -/
def definedIn (program : Program) (sym : NodeId) : Option NodeId :=
  (program.definitionOf sym).bind fun definition => (program.contextOf definition).symbol?

theorem definingSymbol_eq (isSymbol : (program.kindAt sym).any Kind.isSymbol)
    (issued : ∀ definition ∈ program.definitionOf sym, (program.get? definition).isSome) :
    program.definingSymbol sym = .ok (program.definedIn sym) := by
  obtain ⟨kind, known, isSymbol⟩ := (Option.any_eq_true _ _).mp isSymbol
  cases kind with
  | symbol symbol =>
    have point : program.definitionOf sym = symbol.defPoint? := by
      rw [definitionOf, known]
      rfl
    simp only [definingSymbol, Fault.bind_eq_ok, symbol_eq_ok]
    refine ⟨symbol, known, ?_⟩
    rw [definedIn, point]
    rw [point] at issued
    cases named : symbol.defPoint? with
    | none => rfl
    | some definition =>
      obtain ⟨node, found⟩ := Option.isSome_iff_exists.mp (issued definition named)
      simp only [Fault.bind_eq_ok, node_eq_ok, Fault.pure_eq_ok]
      exact ⟨node, found, by rw [Option.bind_some, contextOf_eq found]⟩
  | _ => simp [Kind.isSymbol, Kind.symbol?] at isSymbol

section Nesting

variable (wellFormed : WellFormed program) (seated : Seated program)
include wellFormed

/-- A symbol of the tree in whose context a node is, is the nearest one around it. -/
theorem definedIn_eq_some (reachable : program.Reachable owner) :
    program.definedIn sym = some owner ↔ ∃ definition, program.definitionOf sym = some definition ∧
      program.Nearest Kind.isSymbol definition owner := by
  rw [definedIn, Option.bind_eq_some_iff]
  refine exists_congr fun definition => and_congr_right fun _ => ?_
  refine ⟨fun context => ?_, fun nearest => ?_⟩
  · by_cases inTree : program.Reachable definition
    · exact (wellFormed.enclosing_symbol definition owner inTree).mp context
    · rw [wellFormed.no_context definition inTree] at context
      cases context
  · have inTree := reachable.contains nearest.around.1.to_reflTransGen
    exact (wellFormed.enclosing_symbol definition owner inTree).mpr nearest

theorem not_root_of_isFn (isFn : (program.kindAt fn).any Kind.isFn) : fn ∉ program.roots :=
  fun isRoot => absurd_of_tests isModule_of_isFn isFn (wellFormed.roots_module fn isRoot)

include seated

/-- A symbol of the tree is defined in the nearest symbol around it. -/
theorem exists_definedIn (reachable : program.Reachable sym)
    (isSymbol : (program.kindAt sym).any Kind.isSymbol) (notRoot : sym ∉ program.roots) :
    ∃ outer, program.definingSymbol sym = .ok (some outer) ∧ program.Reachable outer ∧
      (program.kindAt outer).any Kind.isSymbol ∧ program.Nearest Kind.isSymbol sym outer := by
  obtain ⟨kind, known, isSymbolKind⟩ := (Option.any_eq_true _ _).mp isSymbol
  cases kind with
  | symbol symbol =>
    obtain ⟨definition, _, _, point, isDefinition, named⟩ :=
      seated sym symbol reachable notRoot known
    have orderly := wellFormed.orderly
    have holds := (wellFormed.parent_iff definition sym).mpr named
    have inTree := orderly.rooted.reachable_holder orderly.forest named reachable
    have noSymbol : ¬ (program.kindAt definition).any Kind.isSymbol := by
      simp [isDefinition, Kind.isSymbol, Kind.symbol?]
    obtain ⟨outer, around, outerIsSymbol, reachableOuter, _⟩ :=
      orderly.exists_around inTree fun isRoot => noSymbol (orderly.rooted.isSymbol isRoot)
    have nearest := (wellFormed.enclosing_symbol definition outer inTree).mp around
    have definitionOfSym : program.definitionOf sym = some definition := by
      rw [definitionOf, known]
      exact point
    refine ⟨outer, ?_, reachableOuter, outerIsSymbol, .above holds noSymbol nearest⟩
    rw [definingSymbol_eq isSymbol, definedIn, definitionOfSym, Option.bind_some, around]
    intro other isPoint
    obtain rfl := Option.some.inj (definitionOfSym.symm.trans isPoint)
    exact get?_isSome_of_kindAt isDefinition
  | _ => simp [Kind.isSymbol, Kind.symbol?] at isSymbolKind

/-- The symbols that were passed lie below the one that the search is at, so there is fuel left. -/
theorem exists_nestedIn_of_passed (owner? : Option NodeId) {fuel : Nat} {passed : List NodeId}
    (reachable : program.Reachable sym) (isSymbol : (program.kindAt sym).any Kind.isSymbol)
    (distinct : passed.Nodup) (below : ∀ lower ∈ passed, TransGen program.Holds sym lower)
    (enough : fuel + passed.length = program.nodes.size + 1) :
    ∃ nested, program.nestedIn owner? fuel (some sym) = .ok nested ∧
      (nested = true ↔ (program.kindAt sym).any Kind.isFn ∧
        ∃ owner ∈ owner?, sym = owner ∨ program.FnsAround sym owner) := by
  induction fuel generalizing sym passed with
  | zero =>
    have bounded := wellFormed.orderly.forest.length_le_of_below trivial distinct below
    omega
  | succ fuel ih =>
    obtain ⟨kind, known, _⟩ := (Option.any_eq_true _ _).mp isSymbol
    have asked : program.isFn sym = .ok kind.isFn := by
      rw [Program.isFn, kindOf_eq_ok.mpr known]
      rfl
    simp only [nestedIn, Fault.bind_eq_ok, Fault.ite_eq_ok, Fault.pure_eq_ok]
    by_cases isFn : kind.isFn = true
    swap
    · exact ⟨false, ⟨_, asked, .inl ⟨by simp [isFn], rfl⟩⟩, by simp [known, isFn]⟩
    by_cases found : owner? = some sym
    · refine ⟨true, ⟨_, asked, .inr ⟨by simp [isFn], .inl ⟨found, rfl⟩⟩⟩, ?_⟩
      simp [known, isFn, found]
    have notRoot : sym ∉ program.roots :=
      not_root_of_isFn wellFormed (by rw [known]; exact isFn)
    obtain ⟨outer, looked, reachableOuter, outerIsSymbol, nearest⟩ :=
      exists_definedIn wellFormed seated reachable isSymbol notRoot
    have above := nearest.around.1
    have fresh : sym ∉ passed := fun again => wellFormed.acyclic sym (below sym again)
    obtain ⟨nested, searched, nested_iff⟩ := ih reachableOuter outerIsSymbol
      (List.nodup_cons.mpr ⟨fresh, distinct⟩)
      (List.forall_mem_cons.mpr ⟨above, fun lower member => above.trans (below lower member)⟩)
      (by rw [List.length_cons]; omega)
    refine ⟨nested, ⟨_, asked, .inr ⟨by simp [isFn], .inr ⟨found, _, looked, searched⟩⟩⟩, ?_⟩
    rw [nested_iff, known]
    constructor
    · rintro ⟨outerIsFn, owner, isOwner, further⟩
      exact ⟨isFn, owner, isOwner,
        .inr ((fnsAround_iff_of_nearest wellFormed nearest).mpr ⟨outerIsFn, further⟩)⟩
    · rintro ⟨_, owner, isOwner, rfl | around⟩
      · exact absurd isOwner found
      · obtain ⟨outerIsFn, further⟩ := (fnsAround_iff_of_nearest wellFormed nearest).mp around
        exact ⟨outerIsFn, owner, isOwner, further⟩

theorem exists_isOuterVar (reachable : program.Reachable fn)
    (isFn : (program.kindAt fn).any Kind.isFn) (isSymbol : (program.kindAt var).any Kind.isSymbol)
    (issued : ∀ definition ∈ program.definitionOf var, (program.get? definition).isSome) :
    ∃ outer, program.isOuterVar var fn = .ok outer ∧
      (outer = true ↔ ∃ owner ∈ program.definedIn var, program.FnsAround fn owner) := by
  obtain ⟨around, looked, reachableAround, aroundIsSymbol, nearest⟩ := exists_definedIn wellFormed
    seated reachable (isSymbol_of_isFn isFn) (not_root_of_isFn wellFormed isFn)
  obtain ⟨nested, searched, nested_iff⟩ := exists_nestedIn_of_passed wellFormed seated
    (program.definedIn var) reachableAround aroundIsSymbol .nil nofun
    (Nat.add_zero (program.nodes.size + 1))
  refine ⟨nested, ?_, ?_⟩
  · simp only [isOuterVar, Fault.bind_eq_ok]
    exact ⟨_, definingSymbol_eq isSymbol issued, _, looked, searched⟩
  · rw [nested_iff]
    constructor
    · rintro ⟨aroundIsFn, owner, isOwner, further⟩
      exact ⟨owner, isOwner,
        (fnsAround_iff_of_nearest wellFormed nearest).mpr ⟨aroundIsFn, further⟩⟩
    · rintro ⟨owner, isOwner, fns⟩
      obtain ⟨aroundIsFn, further⟩ := (fnsAround_iff_of_nearest wellFormed nearest).mp fns
      exact ⟨aroundIsFn, owner, isOwner, further⟩

end Nesting

/-! ## The captures -/

/-- What is used below `top` is there, and its definition point as well. -/
def UsesThere (program : Program) (top : NodeId) : Prop :=
  ∀ id var, program.Contains top id → program.Uses id var →
    ∃ kind, program.kindAt var = some kind ∧
      ∀ definition ∈ kind.definition?, (program.get? definition).isSome

/-- `var` is a local of a function from which one comes to `fn` through functions only. -/
def OuterLocal (program : Program) (fn var : NodeId) : Prop :=
  (program.kindAt var).any (fun kind => kind.symbol?.any Symbol.isLocal) ∧
    ∃ definition owner, program.definitionOf var = some definition ∧
      program.Nearest Kind.isSymbol definition owner ∧ program.FnsAround fn owner

/-- Whether a variable is a compile-time constant. -/
def isParam (program : Program) (var : NodeId) : Bool :=
  (program.kindAt var).any fun kind => kind.hasFlag .param

theorem usedOuterVar_of_uses {kind : Kind} (uses : program.Uses id sym)
    (known : program.kindAt sym = some kind) :
    program.usedOuterVar fn id =
      if kind.symbol?.any Symbol.isLocal then
        (program.isOuterVar sym fn).map fun outer => if outer then some sym else none
      else .ok none := by
  rw [usedOuterVar, usedSymbol_eq_some.mpr uses]
  change (program.kindOf sym >>= _) = _
  rw [kindOf_eq_ok.mpr known]
  rfl

theorem addCapture_of_used {start : List Capture}
    (used : program.usedOuterVar fn id = .ok (some var)) :
    program.addCapture fn start id = .ok (if var ∈ start.map Capture.var then start
      else start ++ [⟨var, program.isParam var⟩]) := by
  obtain ⟨kind, known, _⟩ := (Option.any_eq_true _ _).mp (isSymbol_of_usedOuterVar used)
  have flagged : program.hasFlag var .param = .ok (program.isParam var) := by
    rw [Program.hasFlag, kindOf_eq_ok.mpr known, isParam, known]
    rfl
  have present_iff : (start.any fun capture => capture.var = var) = true ↔
      var ∈ start.map Capture.var := by simp
  rw [addCapture, used, ← if_congr present_iff rfl rfl]
  change (if _ then _ else _) = _
  split
  · rfl
  · rw [flagged]
    rfl

/-- Each variable that is used is captured once, unless it is captured already. -/
theorem exists_foldlM_addCapture (start : List Capture) {ids : List NodeId}
    (answers : ∀ id ∈ ids, ∃ var?, program.usedOuterVar fn id = .ok var?) :
    ∃ captures, ids.foldlM (program.addCapture fn) start = .ok captures ∧
      ∀ capture, capture ∈ captures ↔ capture ∈ start ∨
        capture.var ∉ start.map Capture.var ∧
          (∃ id ∈ ids, program.usedOuterVar fn id = .ok (some capture.var)) ∧
          capture.excluded = program.isParam capture.var := by
  induction ids generalizing start with
  | nil => exact ⟨start, rfl, by simp⟩
  | cons id rest ih =>
    obtain ⟨⟨var?, used⟩, further⟩ := List.forall_mem_cons.mp answers
    have goesOn : ∀ next, program.addCapture fn start id = .ok next →
        (id :: rest).foldlM (program.addCapture fn) start =
          rest.foldlM (program.addCapture fn) next := by
      intro next added
      rw [List.foldlM_cons, added]
      rfl
    cases var? with
    | none =>
      have added : program.addCapture fn start id = .ok start := by
        rw [addCapture, used]
        rfl
      obtain ⟨captures, looked, captures_iff⟩ := ih start further
      refine ⟨captures, (goesOn start added).trans looked, fun capture => ?_⟩
      simp [captures_iff, used]
    | some var =>
      have added : program.addCapture fn start id = .ok (if var ∈ start.map Capture.var then start
          else start ++ [⟨var, program.isParam var⟩]) := addCapture_of_used used
      split at added
      · rename_i present
        obtain ⟨captures, looked, captures_iff⟩ := ih start further
        refine ⟨captures, (goesOn start added).trans looked, fun capture => ?_⟩
        rw [captures_iff]
        refine or_congr_right (and_congr_right fun absent => and_congr_left fun _ => ?_)
        have other : var ≠ capture.var := fun same => absent (same ▸ present)
        simp [used, other]
      · obtain ⟨captures, looked, captures_iff⟩ :=
          ih (start ++ [⟨var, program.isParam var⟩]) further
        refine ⟨captures, (goesOn _ added).trans looked, fun capture => ?_⟩
        rw [captures_iff]
        obtain ⟨captured, excluded⟩ := capture
        by_cases same : captured = var
        · subst same
          simp_all
        · simp [used, same, Ne.symm same]

section Capturing

variable (wellFormed : WellFormed program) (seated : Seated program)
  (reachable : program.Reachable fn) (isFn : (program.kindAt fn).any Kind.isFn)
  (there : program.UsesThere fn)
include wellFormed seated reachable isFn there

theorem exists_usedOuterVar (contained : program.Contains fn id) :
    ∃ var?, program.usedOuterVar fn id = .ok var? ∧
      ∀ var, var? = some var ↔ program.Uses id var ∧ program.OuterLocal fn var := by
  obtain ⟨sym?, used, isUse_iff⟩ := exists_usedSymbol
    (wellFormed.orderly.issued_of_reachable (reachable.contains contained))
  cases sym? with
  | none =>
    refine ⟨none, ?_, fun var => ⟨nofun, fun captured => ?_⟩⟩
    · rw [usedOuterVar, used]
      rfl
    · cases (isUse_iff var).mpr captured.1
  | some sym => ?_
  have known := usedSymbol_eq_some.mp used
  obtain ⟨kind, knownSym, issued⟩ := there id sym contained known
  have uses_iff : ∀ var, program.Uses id var ↔ var = sym := fun var => by
    rw [← isUse_iff, Option.some.injEq, eq_comm]
  by_cases isLocal : kind.symbol?.any Symbol.isLocal = true
  swap
  · refine ⟨none, ?_, fun var => ?_⟩
    · exact (usedOuterVar_of_uses known knownSym).trans (if_neg isLocal)
    · simp only [reduceCtorEq, uses_iff, false_iff, not_and]
      rintro rfl outer
      have localToo := outer.1
      rw [knownSym] at localToo
      exact isLocal localToo
  have isSymbol : (program.kindAt sym).any Kind.isSymbol := by
    obtain ⟨symbol, isSymbol, _⟩ := (Option.any_eq_true _ _).mp isLocal
    simp [knownSym, Kind.isSymbol, isSymbol]
  obtain ⟨outer, looked, outer_iff⟩ := exists_isOuterVar wellFormed seated reachable isFn isSymbol
    (by rwa [definitionOf, knownSym])
  refine ⟨if outer then some sym else none, ?_, fun var => ?_⟩
  · rw [usedOuterVar_of_uses known knownSym, if_pos isLocal, looked]
    rfl
  · have outerLocal_iff : program.OuterLocal fn sym ↔ outer = true := by
      rw [outer_iff, OuterLocal, knownSym, Option.any_some, and_iff_right isLocal]
      constructor
      · rintro ⟨definition, owner, point, nearest, around⟩
        have reachableOwner := around.reachable wellFormed reachable
        have isOwner :=
          (definedIn_eq_some wellFormed reachableOwner).mpr ⟨definition, point, nearest⟩
        exact ⟨owner, isOwner, around⟩
      · rintro ⟨owner, isOwner, around⟩
        have reachableOwner := around.reachable wellFormed reachable
        obtain ⟨definition, point, nearest⟩ :=
          (definedIn_eq_some wellFormed reachableOwner).mp isOwner
        exact ⟨definition, owner, point, nearest, around⟩
    rw [uses_iff]
    cases outer with
    | true =>
      rw [if_pos rfl, Option.some.injEq, eq_comm]
      exact ⟨fun same => ⟨same, same ▸ outerLocal_iff.mpr rfl⟩, And.left⟩
    | false =>
      simp only [Bool.false_eq_true, if_false, reduceCtorEq, false_iff, not_and]
      rintro rfl
      simpa using outerLocal_iff

/-- **What a function captures.**  The captures are the locals that are used in the function and
belong to a function from which one comes to it through functions only; each of them is captured
once, and it is excluded if it is a compile-time constant. -/
theorem exists_captures :
    ∃ captures, program.captures fn = .ok captures ∧ (captures.map Capture.var).Nodup ∧
      ∀ capture, capture ∈ captures ↔
        (∃ id, program.Contains fn id ∧ program.Uses id capture.var) ∧
          program.OuterLocal fn capture.var ∧ capture.excluded = program.isParam capture.var := by
  have reachesAll : ∀ {id}, program.Contains fn id → (program.get? id).isSome := fun contained =>
    wellFormed.orderly.issued_of_reachable (reachable.contains contained)
  obtain ⟨nodes, walked, _⟩ := wellFormed.orderly.forest.exists_subtree trivial (reachesAll .refl)
  have answers : ∀ id ∈ nodes, ∃ var?, program.usedOuterVar fn id = .ok var? := by
    intro id member
    obtain ⟨var?, looked, _⟩ := exists_usedOuterVar wellFormed seated reachable isFn there
      ((mem_subtree walked).mp member)
    exact ⟨var?, looked⟩
  obtain ⟨captures, looked, captures_iff⟩ := exists_foldlM_addCapture [] answers
  have captured : program.captures fn = .ok captures := by
    rw [Program.captures, walked]
    exact looked
  refine ⟨captures, captured, nodup_of_captures captured, fun capture => ?_⟩
  rw [captures_iff]
  simp only [List.not_mem_nil, List.map_nil, not_false_eq_true, true_and, false_or, ← and_assoc]
  refine and_congr_left fun _ => ⟨?_, ?_⟩
  · rintro ⟨id, member, used⟩
    have contained := (mem_subtree walked).mp member
    obtain ⟨var?, usedToo, var_iff⟩ :=
      exists_usedOuterVar wellFormed seated reachable isFn there contained
    obtain rfl := Except.ok.inj (used.symm.trans usedToo)
    obtain ⟨uses, outer⟩ := (var_iff capture.var).mp rfl
    exact ⟨⟨id, contained, uses⟩, outer⟩
  · rintro ⟨⟨id, contained, uses⟩, outer⟩
    obtain ⟨var?, used, var_iff⟩ :=
      exists_usedOuterVar wellFormed seated reachable isFn there contained
    rw [(var_iff capture.var).mpr ⟨uses, outer⟩] at used
    exact ⟨id, (mem_subtree walked).mpr contained, used⟩

end Capturing

/-! ## Past a class -/

/-- A function with a variable and a class, in which another function uses the variable. -/
def fnInClass : Program := Edit.making do
  let var ← newVar "x" none
  let defineVar ← define var
  let use ← newUse var
  let innerBody ← newBlock [use]
  let inner ← newFn "inner" [] innerBody none
  let defineInner ← define inner
  let fields ← newList .defs [defineInner]
  let type ← newNamedType "c" (.aggregate .classTag fields)
  let naming := (← look (·.typeSymbolOf type)).getD type
  let defineType ← define naming
  let outerBody ← newBlock [defineVar, defineType]
  let outer ← newFn "outer" [] outerBody none
  let defineOuter ← define outer
  let module ← newModule "m" .user [defineOuter]
  addModule module

/-- A local of a function around a class is not captured by a function in the class, though it is
used there. -/
theorem captures_fnInClass :
    WellFormed fnInClass ∧ Seated fnInClass ∧ (∃ id, fnInClass.Contains ⟨20⟩ id ∧
      fnInClass.Uses id ⟨13⟩) ∧ fnInClass.definitionOf ⟨13⟩ = some ⟨14⟩ ∧
      fnInClass.Nearest Kind.isSymbol ⟨14⟩ ⟨31⟩ ∧ (fnInClass.kindAt ⟨31⟩).any Kind.isFn ∧
      TransGen fnInClass.Holds ⟨31⟩ ⟨20⟩ ∧ ¬ fnInClass.FnsAround ⟨20⟩ ⟨31⟩ ∧
      fnInClass.captures ⟨20⟩ = .ok [] := by
  have standsUp : fnInClass.StandsUp ⟨36⟩ := by decide +kernel
  have inspected := standsUp.inspected
  have wellFormed := inspected.wellFormed
  have seated : Seated fnInClass := inspected.seated (by decide +kernel)
  have below : ∀ {top id}, id ∈ fnInClass.nodesBelow top ∧ id ≠ top →
      TransGen fnInClass.Holds top id := fun ⟨member, different⟩ =>
    (reflTransGen_iff_eq_or_transGen.mp (contains_of_mem_nodesBelow member)).resolve_left different
  have outerBelow : TransGen fnInClass.Holds ⟨31⟩ ⟨20⟩ := below (by decide +kernel)
  have inside : fnInClass.Contains ⟨20⟩ ⟨15⟩ := contains_of_mem_nodesBelow (by decide +kernel)
  have uses : fnInClass.kindAt ⟨15⟩ = some (.expr (.use ⟨13⟩)) := by decide +kernel
  have reachable : fnInClass.Reachable ⟨14⟩ := inspected.reachable_iff.mpr (by decide +kernel)
  have nearest : fnInClass.Nearest Kind.isSymbol ⟨14⟩ ⟨31⟩ :=
    (wellFormed.enclosing_symbol _ _ reachable).mp (by decide +kernel)
  refine ⟨wellFormed, seated, ⟨⟨15⟩, inside, uses⟩, by decide +kernel, nearest,
    by decide +kernel, outerBelow, fun around => ?_, Fault.toOption_eq_some.mp (by decide +kernel)⟩
  have naming : (fnInClass.kindAt ⟨24⟩).any Kind.isSymbol := by decide +kernel
  have isFn := ((fnsAround_iff wellFormed).mp around).2.2 ⟨24⟩ naming (below (by decide +kernel))
    (below (by decide +kernel))
  exact absurd isFn (by decide +kernel)

end Program

end ProgramTree
