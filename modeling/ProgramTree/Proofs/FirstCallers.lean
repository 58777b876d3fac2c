import ProgramTree.Proofs.FreeSymbols
import ProgramTree.Proofs.Inspection
import ProgramTree.Proofs.Verdict

/-!
# First callers

A loop may be offloaded if its function is marked, or the function around the first call of that
function, and so on.  Functions may call one another in circles, so this chain of first callers
may come back to where it was.  The search for a mark ends there, and it has then asked every
function that the chain leads to.
-/

namespace ProgramTree.Program

open Relation

variable {program : Program} {id loop call fn caller : NodeId} {calls : List NodeId}
  {fn? : Option NodeId} {seen : IdSet} {fuel : Nat} {fits : Bool}

/-- The callee of the call is a use of `fn`. -/
def Invokes (program : Program) (call fn : NodeId) : Prop :=
  ∃ base args, program.kindAt call = some (.expr (.call (.expr base) args)) ∧ program.Uses base fn

/-- The nearest symbol around the node is a function. -/
def InFn (program : Program) (id fn : NodeId) : Prop :=
  program.Nearest Kind.isSymbol id fn ∧ (program.kindAt fn).any Kind.isFn

/-- The call of `fn` in the tree that was made first. -/
structure FirstCall (program : Program) (fn call : NodeId) : Prop where
  inTree : program.Reachable call
  invokes : program.Invokes call fn
  first : ∀ other, program.Reachable other → program.Invokes other fn → call.val ≤ other.val

/-- The function around the first call of `fn`. -/
def FirstCaller (program : Program) (fn caller : NodeId) : Prop :=
  ∃ call, program.FirstCall fn call ∧ program.InFn call caller

/-- A function that is fit for the GPU. -/
def Marked (program : Program) (fn : NodeId) : Prop :=
  (program.kindAt fn).any (·.hasFlag .fitForGpu)

instance : Decidable (program.Marked fn) :=
  inferInstanceAs (Decidable (_ = true))

/-- The chain of first callers that starts at `fn` comes to a function that is marked. -/
def ComesToMark (program : Program) (fn : NodeId) : Prop :=
  ∃ caller, ReflTransGen program.FirstCaller fn caller ∧ program.Marked caller

/-- The calls in the tree name functions that are there. -/
def CalleesKnown (program : Program) : Prop :=
  ∀ call fn, program.Reachable call → program.Invokes call fn → (program.get? fn).isSome

/-! ## Calls -/

theorem isFn_eq_ok {answer : Bool} :
    program.isFn id = .ok answer ↔ (program.kindAt id).map Kind.isFn = some answer := by
  simp only [isFn, Fault.bind_eq_ok, Fault.pure_eq_ok, kindOf_eq_ok, Option.map_eq_some_iff]

theorem hasFlag_eq_ok {flag : Flag} {answer : Bool} :
    program.hasFlag id flag = .ok answer ↔
      (program.kindAt id).map (·.hasFlag flag) = some answer := by
  simp only [hasFlag, Fault.bind_eq_ok, Fault.pure_eq_ok, kindOf_eq_ok, Option.map_eq_some_iff]

/-- A call site is a call in the tree whose callee is a use of the function. -/
theorem isCallSite_eq_true (isFunction : (program.kindAt fn).any Kind.isFn) :
    program.isCallSite fn call = .ok true ↔ program.IsPlaced call ∧ program.Invokes call fn := by
  constructor
  · intro looked
    obtain ⟨kind, known, looked⟩ := Fault.bind_eq_ok.mp looked
    rw [kindOf_eq_ok] at known
    split at looked
    · cases Fault.pure_eq_ok.mp looked
    · obtain ⟨placed, inTree, looked⟩ := Fault.bind_eq_ok.mp looked
      cases placed with
      | false => cases looked
      | true =>
        obtain ⟨callee?, resolved, isCallee⟩ := Fault.bind_eq_ok.mp looked
        obtain rfl := of_decide_eq_true (Fault.pure_eq_ok.mp isCallee)
        refine ⟨(inTree_eq_ok.mp inTree).2.mp rfl, ?_⟩
        simp only [resolvedCallee, Fault.bind_eq_ok, kindOf_eq_ok] at resolved
        obtain ⟨_, knownAgain, resolved⟩ := resolved
        split at resolved
        · obtain ⟨var?, used, resolved⟩ := Fault.bind_eq_ok.mp resolved
          cases var? with
          | none => cases resolved
          | some var =>
            obtain ⟨function, _, isVar⟩ := Fault.bind_eq_ok.mp resolved
            cases function with
            | false => cases isVar
            | true =>
              obtain rfl := Option.some.inj (Fault.pure_eq_ok.mp isVar)
              exact ⟨_, _, knownAgain, usedSymbol_eq_some.mp used⟩
        · cases resolved
  · rintro ⟨placed, base, args, known, uses⟩
    have function : program.isFn fn = .ok true := by
      rw [isFn_eq_ok, Option.map_eq_some_iff]
      exact (Option.any_eq_true _ _).mp isFunction
    have inTree : program.inTree call = .ok true :=
      inTree_eq_ok.mpr ⟨get?_isSome_of_kindAt known, iff_of_true rfl placed⟩
    have resolved : program.resolvedCallee call = .ok (some fn) := by
      refine Fault.bind_eq_ok.mpr ⟨_, kindOf_eq_ok.mpr known, ?_⟩
      refine Fault.bind_eq_ok.mpr ⟨_, usedSymbol_eq_some.mpr uses, ?_⟩
      exact Fault.bind_eq_ok.mpr ⟨true, function, rfl⟩
    refine Fault.bind_eq_ok.mpr ⟨_, kindOf_eq_ok.mpr known, ?_⟩
    refine Fault.bind_eq_ok.mpr ⟨true, inTree, ?_⟩
    exact Fault.bind_eq_ok.mpr ⟨_, resolved, Fault.pure_eq_ok.mpr (decide_eq_true rfl)⟩

/-- Whether a call is a call site can be told if its callee is there. -/
theorem exists_isCallSite (wellFormed : WellFormed program) (reachable : program.Reachable call)
    (known : ∀ fn, program.Invokes call fn → (program.get? fn).isSome) :
    ∃ isSite, program.isCallSite fn call = .ok isSite := by
  have issued := wellFormed.orderly.issued_of_reachable reachable
  obtain ⟨node, found⟩ := Option.isSome_iff_exists.mp issued
  obtain ⟨placed, inTree, _⟩ := exists_inTree issued
  have isKind := kindOf_eq_ok.mpr (kindAt_eq found)
  have resolves : ∃ callee?, program.resolvedCallee call = .ok callee? := by
    simp only [resolvedCallee, isKind, Fault.bind_eq_ok, Except.ok.injEq, exists_eq_left']
    split
    · rename_i base args isCall
      have holds : program.Holds call base := by
        simp [Holds, held_eq found, isCall, Kind.owned, Expr.owned]
      obtain ⟨var?, used, uses_iff⟩ :=
        exists_usedSymbol (wellFormed.orderly.issued_of_held trivial holds)
      cases var? with
      | none => exact ⟨none, Fault.bind_eq_ok.mpr ⟨none, used, rfl⟩⟩
      | some var =>
        have issuedVar := known var ⟨base, args, isCall ▸ kindAt_eq found, (uses_iff var).mp rfl⟩
        obtain ⟨varNode, foundVar⟩ := Option.isSome_iff_exists.mp issuedVar
        have function : program.isFn var = .ok varNode.kind.isFn :=
          isFn_eq_ok.mpr (by rw [kindAt_eq foundVar, Option.map_some])
        exact ⟨_, Fault.bind_eq_ok.mpr ⟨some var, used, Fault.bind_eq_ok.mpr ⟨_, function, rfl⟩⟩⟩
    · exact ⟨none, rfl⟩
  obtain ⟨callee?, resolved⟩ := resolves
  simp only [isCallSite, isKind, Fault.bind_eq_ok, Except.ok.injEq, exists_eq_left']
  split
  · exact ⟨false, rfl⟩
  · cases placed with
    | false => exact ⟨false, Fault.bind_eq_ok.mpr ⟨false, inTree, rfl⟩⟩
    | true =>
      exact ⟨_, Fault.bind_eq_ok.mpr ⟨true, inTree, Fault.bind_eq_ok.mpr ⟨callee?, resolved, rfl⟩⟩⟩

section Sites

variable (wellFormed : WellFormed program)
include wellFormed

theorem mem_calls_iff : call ∈ program.index.calls ↔
    program.Reachable call ∧ (program.kindAt call).bind Kind.category? = some .call :=
  wellFormed.indexed_iff call .call

/-- The call sites are all calls of the function in the tree, in the order of their creation. -/
theorem callSites_eq (isFunction : (program.kindAt fn).any Kind.isFn)
    (looked : program.callSites fn = .ok calls) :
    calls.Pairwise (·.val < ·.val) ∧
      ∀ call, call ∈ calls ↔ program.Reachable call ∧ program.Invokes call fn := by
  obtain ⟨_, rfl⟩ := Fault.filterM_eq_ok.mp looked
  refine ⟨(program.index.ascending_entries .call).filter _, fun call => ?_⟩
  simp only [List.mem_filter, Std.ExtTreeSet.mem_toList, mem_calls_iff wellFormed,
    decide_eq_true_eq, Fault.toOption_eq_some, isCallSite_eq_true isFunction,
    wellFormed.orderly.isPlaced_iff trivial]
  constructor
  · rintro ⟨⟨reachable, _⟩, _, invokes⟩
    exact ⟨reachable, invokes⟩
  · rintro ⟨reachable, base, args, known, uses⟩
    exact ⟨⟨reachable, by rw [known]; rfl⟩, reachable, base, args, known, uses⟩

theorem exists_callSites (fn : NodeId) (known : program.CalleesKnown) :
    ∃ calls, program.callSites fn = .ok calls := by
  refine ⟨_, Fault.filterM_eq_ok.mpr ⟨fun call member => ?_, rfl⟩⟩
  have reachable := ((mem_calls_iff wellFormed).mp (Std.ExtTreeSet.mem_toList.mp member)).1
  exact exists_isCallSite wellFormed reachable fun fn => known call fn reachable

theorem exists_enclosingFn (reachable : program.Reachable id) :
    ∃ fn?, program.enclosingFn id = .ok fn? ∧ ∀ fn, fn? = some fn ↔ program.InFn id fn := by
  obtain ⟨node, found⟩ :=
    Option.isSome_iff_exists.mp (wellFormed.orderly.issued_of_reachable reachable)
  have nearest_iff := fun found => wellFormed.enclosing_symbol id found reachable
  rw [contextOf_eq found] at nearest_iff
  simp only [enclosingFn, node_eq_ok.mpr found, Fault.bind_eq_ok, Except.ok.injEq, exists_eq_left']
  cases isSymbol : node.context.symbol? with
  | none =>
    refine ⟨none, rfl, fun fn => iff_of_false (by simp) fun inFn => ?_⟩
    have named := (nearest_iff fn).mpr inFn.1
    simp [isSymbol] at named
  | some symbol =>
    have nearest := (nearest_iff symbol).mp isSymbol
    obtain ⟨kind, known, _⟩ := (Option.any_eq_true _ _).mp nearest.around.2
    have asked : program.isFn symbol = .ok kind.isFn := isFn_eq_ok.mpr (by rw [known]; rfl)
    refine ⟨_, Fault.bind_eq_ok.mpr ⟨_, asked, rfl⟩, fun fn => ?_⟩
    cases function : kind.isFn with
    | false =>
      refine iff_of_false (by simp) fun inFn => ?_
      have same := (nearest_iff fn).mpr inFn.1
      obtain rfl : symbol = fn := Option.some.inj (isSymbol.symm.trans same)
      simpa [known, function] using inFn.2
    | true =>
      simp only [if_true, Option.some.injEq]
      constructor
      · rintro rfl
        exact ⟨nearest, by simp [known, function]⟩
      · intro inFn
        exact Option.some.inj (isSymbol.symm.trans ((nearest_iff fn).mpr inFn.1))

/-- The first caller is found, if the function has one. -/
theorem firstCaller_eq (isFunction : (program.kindAt fn).any Kind.isFn)
    (looked : program.firstCaller fn = .ok fn?) (caller : NodeId) :
    fn? = some caller ↔ program.FirstCaller fn caller := by
  obtain ⟨calls, sites, looked⟩ := Fault.bind_eq_ok.mp looked
  obtain ⟨ordered, sites_iff⟩ := callSites_eq wellFormed isFunction sites
  cases calls with
  | nil =>
    obtain rfl := Fault.pure_eq_ok.mp looked
    refine iff_of_false nofun ?_
    rintro ⟨call, isFirst, _⟩
    simpa using (sites_iff call).mpr ⟨isFirst.inTree, isFirst.invokes⟩
  | cons first later =>
    obtain ⟨reachable, invokes⟩ := (sites_iff first).mp (by simp)
    have isFirst : program.FirstCall fn first := by
      refine ⟨reachable, invokes, fun other reachable invokes => ?_⟩
      rcases List.mem_cons.mp ((sites_iff other).mpr ⟨reachable, invokes⟩) with rfl | member
      · exact Nat.le_refl _
      · exact Nat.le_of_lt ((List.pairwise_cons.mp ordered).1 other member)
    obtain ⟨found, answered, found_iff⟩ := exists_enclosingFn wellFormed reachable
    obtain rfl := Except.ok.inj (answered.symm.trans looked)
    rw [found_iff]
    constructor
    · exact fun inFn => ⟨first, isFirst, inFn⟩
    · rintro ⟨call, isCall, inFn⟩
      have earlier := isFirst.first call isCall.inTree isCall.invokes
      have notEarlier := isCall.first first reachable invokes
      obtain rfl : call = first := by
        cases call
        cases first
        exact congrArg NodeId.mk (Nat.le_antisymm notEarlier earlier)
      exact inFn

theorem exists_firstCaller (known : program.CalleesKnown)
    (isFunction : (program.kindAt fn).any Kind.isFn) :
    ∃ fn?, program.firstCaller fn = .ok fn? := by
  obtain ⟨calls, sites⟩ := exists_callSites wellFormed fn known
  obtain ⟨_, sites_iff⟩ := callSites_eq wellFormed isFunction sites
  simp only [firstCaller, sites, Fault.bind_eq_ok, Except.ok.injEq, exists_eq_left']
  cases calls with
  | nil => exact ⟨none, rfl⟩
  | cons first later =>
    obtain ⟨fn?, answered, _⟩ :=
      exists_enclosingFn wellFormed ((sites_iff first).mp (by simp)).1
    exact ⟨fn?, answered⟩

end Sites

/-! ## The chain -/

/-- The functions that were asked are not marked, and they lead on to one another and to the
function that is asked next. -/
structure Asked (program : Program) (seen : IdSet) (next? : Option NodeId) : Prop where
  function : ∀ fn ∈ next?, (program.kindAt fn).any Kind.isFn
  issued : ∀ fn ∈ seen, (program.get? fn).isSome
  unmarked : ∀ fn ∈ seen, ¬ program.Marked fn
  leadsOn : ∀ fn ∈ seen, ∀ caller, program.FirstCaller fn caller →
    caller ∈ seen ∨ next? = some caller

namespace Asked

/-- Where the chain comes back to a function that was asked, no other functions follow. -/
theorem not_comesToMark (asked : Asked program seen (some fn)) (again : fn ∈ seen) :
    ¬ program.ComesToMark fn := by
  rintro ⟨caller, chain, marked⟩
  have inCircle : caller ∈ seen := by
    clear marked
    induction chain with
    | refl => exact again
    | tail _ further ih =>
      rcases asked.leadsOn _ ih _ further with member | same
      · exact member
      · obtain rfl := Option.some.inj same
        exact again
  exact asked.unmarked caller inCircle marked

theorem goOn (asked : Asked program seen (some fn)) (unmarked : ¬ program.Marked fn)
    (next : ∀ caller, fn? = some caller ↔ program.FirstCaller fn caller) :
    Asked program (seen.insert fn) fn? := by
  have mem_insert : ∀ id, id ∈ seen.insert fn ↔ fn = id ∨ id ∈ seen := by
    simp [Std.ExtTreeSet.mem_insert]
  refine ⟨fun caller isNext => ?_, fun id member => ?_, fun id member => ?_,
    fun id member caller calls => ?_⟩
  · obtain ⟨_, _, _, function⟩ := (next caller).mp isNext
    exact function
  · rcases (mem_insert id).mp member with rfl | member
    · exact get?_isSome_of_any (asked.function fn rfl)
    · exact asked.issued id member
  · rcases (mem_insert id).mp member with rfl | member
    · exact unmarked
    · exact asked.unmarked id member
  · rcases (mem_insert id).mp member with rfl | member
    · exact .inr ((next caller).mpr calls)
    · rcases asked.leadsOn id member caller calls with member | same
      · exact .inl ((mem_insert caller).mpr (.inr member))
      · exact .inl ((mem_insert caller).mpr (.inl (Option.some.inj same)))

theorem room (asked : Asked program seen fn?) : seen.size ≤ program.nodes.size :=
  size_le_size asked.issued

end Asked

theorem comesToMark_iff (unmarked : ¬ program.Marked fn)
    (next : ∀ caller, fn? = some caller ↔ program.FirstCaller fn caller) :
    program.ComesToMark fn ↔ ∃ caller ∈ fn?, program.ComesToMark caller := by
  constructor
  · rintro ⟨last, chain, marked⟩
    rcases chain.cases_head with rfl | ⟨caller, first, further⟩
    · exact absurd marked unmarked
    · exact ⟨caller, (next caller).mpr first, last, further, marked⟩
  · rintro ⟨caller, isNext, last, further, marked⟩
    exact ⟨last, .head ((next caller).mp isNext) further, marked⟩

section Chains

variable (wellFormed : WellFormed program)
include wellFormed

theorem chainFits_iff (asked : Asked program seen fn?)
    (enough : fuel + seen.size = program.nodes.size + 1)
    (looked : program.chainFits fuel seen fn? = .ok fits) :
    fits = true ↔ ∃ fn ∈ fn?, program.ComesToMark fn := by
  induction fuel generalizing seen fn? with
  | zero =>
    have room := asked.room
    omega
  | succ fuel ih =>
    cases fn? with
    | none =>
      obtain rfl := Fault.pure_eq_ok.mp looked
      simp
    | some fn =>
      obtain ⟨isMarked, flagged, looked⟩ := Fault.bind_eq_ok.mp looked
      have marked_iff : program.Marked fn ↔ isMarked = true := by
        obtain ⟨kind, known, rfl⟩ := Option.map_eq_some_iff.mp (hasFlag_eq_ok.mp flagged)
        rw [Marked, known, Option.any_some]
      simp only [Option.mem_def, Option.some.injEq, exists_eq_left']
      cases isMarked with
      | true =>
        obtain rfl := Fault.pure_eq_ok.mp looked
        exact iff_of_true rfl ⟨fn, .refl, marked_iff.mpr rfl⟩
      | false =>
        have unmarked : ¬ program.Marked fn := by simp [marked_iff]
        by_cases again : fn ∈ seen
        · rw [if_neg Bool.false_ne_true, if_pos (Std.ExtTreeSet.contains_iff_mem.mpr again)]
            at looked
          obtain rfl := Fault.pure_eq_ok.mp looked
          exact iff_of_false Bool.false_ne_true (asked.not_comesToMark again)
        · have unseen : ¬ seen.contains fn = true := by rwa [Std.ExtTreeSet.contains_iff_mem]
          rw [if_neg Bool.false_ne_true, if_neg unseen] at looked
          obtain ⟨next?, first, further⟩ := Fault.bind_eq_ok.mp looked
          have next := firstCaller_eq wellFormed (asked.function fn rfl) first
          rw [comesToMark_iff unmarked next]
          refine ih (asked.goOn unmarked next) ?_ further
          rw [Std.ExtTreeSet.size_insert, if_neg unseen]
          omega

theorem exists_chainFits (known : program.CalleesKnown) (asked : Asked program seen fn?) :
    ∃ fits, program.chainFits fuel seen fn? = .ok fits := by
  induction fuel generalizing seen fn? with
  | zero => cases fn? <;> exact ⟨false, rfl⟩
  | succ fuel ih =>
    cases fn? with
    | none => exact ⟨false, rfl⟩
    | some fn =>
      have function := asked.function fn rfl
      obtain ⟨kind, isKind, _⟩ := (Option.any_eq_true _ _).mp function
      have flagged : program.hasFlag fn .fitForGpu = .ok (kind.hasFlag .fitForGpu) :=
        hasFlag_eq_ok.mpr (by rw [isKind, Option.map_some])
      simp only [chainFits, flagged, Fault.bind_eq_ok, Except.ok.injEq, exists_eq_left']
      cases isMarked : kind.hasFlag .fitForGpu with
      | true => exact ⟨true, rfl⟩
      | false =>
        by_cases again : seen.contains fn
        · rw [if_neg Bool.false_ne_true, if_pos again]
          exact ⟨false, rfl⟩
        · have unmarked : ¬ program.Marked fn := by simp [Marked, isKind, isMarked]
          obtain ⟨next?, first⟩ := exists_firstCaller wellFormed known function
          have next := firstCaller_eq wellFormed function first
          obtain ⟨fits, further⟩ := ih (asked.goOn unmarked next)
          rw [if_neg Bool.false_ne_true, if_neg again]
          exact ⟨fits, Fault.bind_eq_ok.mpr ⟨next?, first, further⟩⟩

/-- The function of a loop is where its chain starts. -/
theorem exists_start (reachable : program.Reachable loop) :
    ∃ fn?, program.enclosingFn loop = .ok fn? ∧ (∀ fn, fn? = some fn ↔ program.InFn loop fn) ∧
      Asked program ∅ fn? := by
  obtain ⟨fn?, enclosed, inFn_iff⟩ := exists_enclosingFn wellFormed reachable
  have asked : Asked program ∅ fn? := by
    refine ⟨fun fn isFn => ((inFn_iff fn).mp isFn).2, ?_, ?_, ?_⟩ <;> simp
  exact ⟨fn?, enclosed, inFn_iff, asked⟩

theorem fits_iff (reachable : program.Reachable loop)
    (looked : program.fitForOffload loop = .ok fits) :
    fits = true ↔ ∃ fn, program.InFn loop fn ∧ program.ComesToMark fn := by
  obtain ⟨fn?, enclosed, inFn_iff, asked⟩ := exists_start wellFormed reachable
  obtain ⟨_, again, looked⟩ := Fault.bind_eq_ok.mp looked
  obtain rfl := Except.ok.inj (enclosed.symm.trans again)
  rw [chainFits_iff wellFormed asked (by simp) looked]
  simp only [Option.mem_def, inFn_iff]

/-- A loop is fit for offload if the chain of first callers that starts at its function comes to a
mark, however the functions call one another.  An answer is always found if the calls in the tree
name functions that are there. -/
theorem fitForOffload_iff_comesToMark (reachable : program.Reachable loop) :
    (∀ fits, program.fitForOffload loop = .ok fits →
      (fits = true ↔ ∃ fn, program.InFn loop fn ∧ program.ComesToMark fn)) ∧
    (program.CalleesKnown → ∃ fits, program.fitForOffload loop = .ok fits) := by
  refine ⟨fun fits looked => fits_iff wellFormed reachable looked, fun known => ?_⟩
  obtain ⟨fn?, enclosed, _, asked⟩ := exists_start wellFormed reachable
  obtain ⟨fits, looked⟩ := exists_chainFits wellFormed known asked
  exact ⟨fits, Fault.bind_eq_ok.mpr ⟨fn?, enclosed, looked⟩⟩

end Chains

theorem calleesKnown_of_links (issued : ∀ place < program.nodes.size,
    ∀ link ∈ ((program.kindAt ⟨place + 1⟩).map Kind.links).getD [], (program.get? link).isSome) :
    program.CalleesKnown := by
  rintro call fn _ ⟨base, args, _, uses⟩
  obtain ⟨_ | place⟩ := base
  · cases uses
  · have inside := (isSome_get?_iff.mp (get?_isSome_of_kindAt uses)).2
    exact issued place inside fn (by simp [show program.kindAt ⟨place + 1⟩ = _ from uses, Kind.links,
      Expr.links])

/-- Two functions that call each other, one of them with a loop.  A marked function calls the other
one as well, but not first. -/
def calledInCircle : Program := Edit.making do
  let index ← Edit.newVar "i" none
  let loopBody ← Edit.newBlock []
  let loop ← Edit.newForLoop [index] [] loopBody true
  let callee ← Edit.newUse index
  let callHelper ← Edit.newCall callee []
  let workBody ← Edit.newBlock [loop, callHelper]
  let work ← Edit.newFn "work" [] workBody none
  let callWork ← Edit.newCall work []
  let helperBody ← Edit.newBlock [callWork]
  let helper ← Edit.newFn "helper" [] helperBody none
  Edit.setUsedSymbol callee helper
  let callAgain ← Edit.newCall helper []
  let driverBody ← Edit.newBlock [callAgain]
  let driver ← Edit.newFn "driver" [] driverBody none
  Edit.addFlag driver .fitForGpu
  let defineWork ← Edit.define work
  let defineHelper ← Edit.define helper
  let defineDriver ← Edit.define driver
  let module ← Edit.newModule "m" .user [defineWork, defineHelper, defineDriver]
  Edit.addModule module

/-- The chain of the loop goes round and does not come to the mark. -/
theorem fitForOffload_iff_comesToMark_circle :
    WellFormed calledInCircle ∧ calledInCircle.Reachable ⟨19⟩ ∧ calledInCircle.CalleesKnown ∧
      calledInCircle.Marked ⟨43⟩ ∧ calledInCircle.fitForOffload ⟨19⟩ = .ok false ∧
      ¬ ∃ fn, calledInCircle.InFn ⟨19⟩ fn ∧ calledInCircle.ComesToMark fn := by
  have standsUp : calledInCircle.StandsUp ⟨52⟩ := by decide +kernel
  have inspected := standsUp.inspected
  have reachable : calledInCircle.Reachable ⟨19⟩ := inspected.reachable_iff.mpr (by decide +kernel)
  have known : calledInCircle.CalleesKnown := calleesKnown_of_links (by decide +kernel)
  obtain ⟨isRight, answers⟩ := fitForOffload_iff_comesToMark inspected.wellFormed reachable
  obtain ⟨fits, looked⟩ := answers known
  have isFalse : calledInCircle.fitForOffload ⟨19⟩ = .ok false :=
    Fault.toOption_eq_some.mp (by decide +kernel)
  obtain rfl : fits = false := Except.ok.inj (looked.symm.trans isFalse)
  refine ⟨inspected.wellFormed, reachable, known, by decide +kernel, looked, fun comes => ?_⟩
  exact Bool.false_ne_true ((isRight false looked).mpr comes)

/-- A call of a function of another program. -/
def strangerCalled : Program := Edit.making do
  let index ← Edit.newVar "i" none
  let loopBody ← Edit.newBlock []
  let loop ← Edit.newForLoop [index] [] loopBody true
  let hostBody ← Edit.newBlock [loop]
  let host ← Edit.newFn "host" [] hostBody none
  let defineHost ← Edit.define host
  let stranger ← Edit.newUse ⟨99⟩
  let call ← Edit.newCall stranger []
  let module ← Edit.newModule "m" .user [defineHost, call]
  Edit.addModule module

/-- Looking for the callers of `host`, the search meets the call and asks whether its callee is a
function of the program. -/
theorem not_answers_strangerCalled :
    WellFormed strangerCalled ∧ strangerCalled.Reachable ⟨19⟩ ∧
      strangerCalled.kindAt ⟨19⟩ = some (.stmt (.forLoop ⟨17⟩ ⟨18⟩ ⟨15⟩ true)) ∧
      strangerCalled.fitForOffload ⟨19⟩ = .error (.unknownNode ⟨99⟩) := by
  have standsUp : strangerCalled.StandsUp ⟨32⟩ := by decide +kernel
  refine ⟨standsUp.inspected.wellFormed, standsUp.inspected.reachable_iff.mpr (by decide +kernel),
    by decide +kernel, ?_⟩
  decide +kernel

end ProgramTree.Program
