import ProgramTree.Proofs.Filling
import ProgramTree.Proofs.Frames
import ProgramTree.Proofs.Furnishing
import ProgramTree.Proofs.Inspection

/-!
# Both sides of a bundle

A function whose captures are passed in a bundle agrees with its call on everything they have
to agree on: what the call stores in a field is what the function reads from that field, and
the arguments fit the formals.
-/

namespace ProgramTree.Program

open Edit Relation

variable {before between after : Program} {touched : NodeId → Prop}
  {fn call module bundle list anchor : NodeId} {captures : List Capture}

/-! ## What is read before anything changes -/

section Attribution

variable {location? : Option Location}

theorem captures_attributed :
    ({ before with givenLocation? := location? } : Program).captures fn = before.captures fn :=
  Unframed.attributed (·.captures fn) before location?

theorem expectModule_attributed :
    ({ before with givenLocation? := location? } : Program).expectModule fn =
      before.expectModule fn :=
  Unframed.attributed (·.expectModule fn) before location?

end Attribution

/-! ## The agreement -/

/-- Right before the statement of the call, the bundle is filled. -/
def FillsBundle (before after : Program) (call bundle naming instanceVar erased : NodeId)
    (members : List (NodeId × NodeId)) : Prop :=
  ∃ (anchor list : NodeId) (left added right : List NodeId) (definition allocation : NodeId)
    (stores : List NodeId) (erasing casting : NodeId),
    before.enclosingStmt call = .ok (some anchor) ∧ before.Holds list anchor ∧
    after.held list = left ++ added ++ anchor :: right ∧
    List.Forall₂ (StandsFor before after) added
      ([definition, allocation] ++ stores ++ [erasing, casting]) ∧
    Fills before after bundle naming instanceVar erased members definition allocation stores erasing
      casting

/-- The call gets two more arguments, at the end. -/
def PassesBundle (before after : Program) (call instanceVar erased : NodeId) : Prop :=
  ∃ list first second, before.callArgs call = .ok list ∧ after.callArgs call = .ok list ∧
    after.held list = before.held list ++ [first, second] ∧
    HandsOver before after erased instanceVar first second

/-- The nodes that are made for a bundle class: the symbol that names the class, the two formals,
the two variables at the call, and for each captured variable its field and its local. -/
structure Passage where
  naming : NodeId
  untyped : NodeId
  wrap : NodeId
  instanceVar : NodeId
  erased : NodeId
  carried : List Carried

/-- The function and its call agree on the bundle. -/
structure Agree (before after : Program) (fn call bundle : NodeId) (vars : List NodeId)
    (passage : Passage) : Prop where
  vars : passage.carried.map Carried.var = vars
  members_distinct : (passage.carried.map Carried.member).Nodup
  locals_distinct : (passage.carried.map Carried.localVar).Nodup
  declares : DeclaresBundle before after fn bundle passage.naming (Carried.members passage.carried)
  receives : ReceivesBundle before after fn bundle passage.untyped passage.wrap
  unpacks : UnpacksBundle before after fn passage.wrap passage.carried
  reroutes : ReroutesUses before after fn passage.carried
  fills : FillsBundle before after call bundle passage.naming passage.instanceVar passage.erased
    (Carried.members passage.carried)
  passes : PassesBundle before after call passage.instanceVar passage.erased

/-! ## The outside -/

section Outside

variable {filled : Program} {vars : List NodeId} {naming untyped wrap : NodeId}
  {carried : List Carried} {moduleList formals body : NodeId}
  (forest : Forest (fun _ => True) [] before)
  (symbols : ∀ var ∈ vars, (before.kindAt var).any Kind.isSymbol)
  (furnished : Furnished before between fn module bundle vars naming untyped wrap carried moduleList
    formals body)
include forest symbols furnished

/-- The statement of the call stands where it stood.  If that is the body of the module, then the
definition of the class stands before it. -/
theorem Furnished.exists_standing (isStmtList : before.IsStmtList list)
    (held : before.Holds list anchor) (apart : list ≠ formals ∧ list ≠ body) :
    ∃ holds left right, Standing between { list, holds, anchor, right } left ∧
      (list = moduleList → left ≠ []) := by
  obtain ⟨kind, known, isList⟩ := Option.bind_eq_some_iff.mp isStmtList
  have parent := (forest.held trivial held).2
  have oldAnchor : ¬ before.New anchor := fun new => by simp [parentOf_of_unissued new] at parent
  have parentNow := (furnished.revision.parents oldAnchor).trans parent
  cases kind with
  | list category members =>
    have isMember : anchor ∈ members.toList := by rwa [Holds, held_of_list known] at held
    have distinct : members.toList.Nodup := held_of_list known ▸ forest.nodup trivial
    obtain ⟨left, right, split⟩ := List.append_of_mem isMember
    have absent : anchor ∉ left := fun again => by
      rw [split, List.nodup_append'] at distinct
      exact distinct.2.2 again (by simp)
    obtain rfl : members = (left ++ anchor :: right).toArray := by rw [← split]
    by_cases inModule : list = moduleList
    · subst inModule
      obtain ⟨element, holds, elements, wasKnown, newElement, knownNow⟩ := furnished.headed
      obtain ⟨rfl, same⟩ := Kind.list.inj (Option.some.inj (known.symm.trans wasKnown))
      obtain rfl : left ++ anchor :: right = elements := congrArg Array.toList same
      refine ⟨category, element :: left, right, ⟨knownNow, ?_, parentNow⟩,
        fun _ => List.cons_ne_nil _ _⟩
      rw [List.mem_cons]
      rintro (rfl | again)
      · exact oldAnchor newElement
      · exact absent again
    · refine ⟨category, left, right, ⟨furnished.revision.kinds known fun inside => ?_, absent,
        parentNow⟩, fun same => absurd same inModule⟩
      obtain same | same | same := inside.eq_of_isList symbols (by simp [known, Kind.isList])
      · exact inModule same
      · exact apart.1 same
      · exact apart.2 same
  | _ => cases isList

/-- The bundle is filled before the statement that the call was in from the start. -/
theorem Furnished.exists_anchor (issuedCall : ¬ before.New call)
    (outside : ¬ before.Contains fn call)
    (run : Yields (passBundle call fn vars bundle) between () filled) :
    ∃ anchor list holds left right, between.enclosingStmt call = .ok (some anchor) ∧
      before.enclosingStmt call = .ok (some anchor) ∧ before.Contains anchor call ∧
      before.Holds list anchor ∧ (list ≠ formals ∧ list ≠ body) ∧
      Standing between { list, holds, anchor, right } left ∧ (list = moduleList → left ≠ []) := by
  obtain ⟨anchor, isAnchorNow⟩ := Program.exists_anchor run
  have isAnchor := enclosingStmt_before forest furnished.revision issuedCall isAnchorNow
  obtain ⟨contained, list, isStmtList, holdsAnchor⟩ :=
    (anchors_of_enclosingStmt isAnchor).stands forest
  have apart := anchor_apart furnished.isFormals furnished.isBody holdsAnchor contained outside
  obtain ⟨holds, left, right, standing, headed⟩ :=
    furnished.exists_standing forest symbols isStmtList holdsAnchor apart
  exact ⟨anchor, list, holds, left, right, isAnchorNow, isAnchor, contained, holdsAnchor, apart,
    standing, headed⟩

/-- The call is made to fit the function. -/
theorem Furnished.agree (backed : before.Backed) (issuedFn : ¬ before.New fn)
    (isModule : before.expectModule fn = .ok module) (issuedCall : ¬ before.New call)
    (outside : ¬ before.Contains fn call) (reroutes : ReroutesUses before between fn carried)
    (run : Yields (passBundle call fn vars bundle) between () filled)
    (leaving : after.nodes = filled.nodes) :
    ∃ passage, Agree before after fn call bundle vars passage := by
  obtain ⟨areVars, distinctMembers, distinctLocals, _, declares, receives, unpacks, isModuleList,
    isFormals, isBody, _, inner⟩ := id furnished
  have old : ∀ {id}, before.Contains fn id → ¬ before.New id := fun contained =>
    backed.contains contained issuedFn
  have oldModuleList : ¬ before.New moduleList :=
    backed.contains (contains_of_moduleBodyList isModuleList) (issued_of_expectModule isModule)
  obtain ⟨anchor, list, category, left, right, isAnchorNow, isAnchor, contained, holdsAnchor,
    listApart, standing, headed⟩ := furnished.exists_anchor forest symbols issuedCall outside run
  have oldList : ¬ before.New list := fun new => by simpa [new] using holdsAnchor.issued
  -- the call
  have areMembers : (Carried.members carried).map Prod.fst = vars := by
    simpa [Carried.members, Function.comp_def] using areVars
  subst areMembers
  have symbolsNow : ∀ member ∈ Carried.members carried,
      (between.kindAt member.1).any Kind.isSymbol := by
    intro member isMember
    have symbol := symbols member.1 (List.mem_map_of_mem isMember)
    exact (inner.isSymbol_iff (issued_of_any symbol)).mpr symbol
  obtain ⟨args, added, definition, allocation, stores, erasing, casting, instanceVar, erased, first,
    second, isArgsNow, isArgsList, filling, isFilled, stand, fills, isPassed, handsOver⟩ :=
    filled_passBundle inner.past_after (inner.issued issuedCall)
      (fun args isArgs => by
        have isArgs := (inner.callArgs_iff issuedCall).mp isArgs
        exact ⟨backed.contains (contains_of_callArgs isArgs) issuedCall,
          args_apart_anchor forest isArgs holdsAnchor contained⟩)
      oldList (backed holdsAnchor) isAnchorNow standing declares.1 symbolsNow
      declares.isSymbol_naming run
  have isArgs := (inner.callArgs_iff issuedCall).mp isArgsNow
  have oldArgs := backed.contains (contains_of_callArgs isArgs) issuedCall
  obtain ⟨argsModule, argsFormals, argsBody⟩ :=
    args_apart forest isModuleList isFormals isBody isArgs
  -- what stays
  have leave : Addition before filled after := .of_nodes filling.past_after leaving
  have last := filling.adding leave
  have spares : Spares before between fun id => id = list ∨ id = args := spares_of_old (by
    rintro _ (rfl | rfl)
    · exact oldList
    · exact oldArgs)
  have whole : Revision before (fun _ => True) before after :=
    inner.followedBy last (fun _ _ => trivial) fun _ _ _ => trivial
  have same : ∀ {id}, ¬ before.New id → id ≠ list → id ≠ args → after.held id = between.held id :=
    fun issued notList notArgs => last.held_eq (inner.issued issued) (not_or_intro notList notArgs)
  have heldList := held_of_list (leave.kinds isFilled not_false)
  obtain ⟨symbol, isWrap⟩ := receives.added_wrap
  refine ⟨⟨naming, untyped, wrap, instanceVar, erased, carried⟩, areVars, distinctMembers,
    distinctLocals, declares.keep whole last spares backed isModule isModuleList ?_,
    receives.keep whole last spares issuedFn isFormals ?_,
    unpacks.keep whole last spares backed issuedFn isWrap.new ?_ isBody ?_, reroutes.keep last ?_,
    ⟨anchor, list, left, added, right, definition, allocation, stores, erasing, casting, isAnchor,
      holdsAnchor, heldList,
      stand.imp fun _ _ stands => stands.keep leave fun _ never => never.elim,
      fills.keep leave fun _ never => never.elim⟩,
    ⟨args, first, second, isArgs, (whole.callArgs_iff issuedCall).mpr isArgs, ?_,
      handsOver.keep leave fun _ never => never.elim⟩⟩
  · intro element rest isHead
    by_cases inModule : list = moduleList
    · subst inModule
      obtain ⟨head, front, rfl⟩ := List.exists_cons_of_ne_nil (headed rfl)
      rw [held_of_list standing.known] at isHead
      obtain ⟨rfl, -⟩ := List.cons.inj isHead
      exact ⟨_, heldList⟩
    · exact ⟨rest, (same oldModuleList (Ne.symm inModule) (Ne.symm argsModule)).trans isHead⟩
  · exact same (old (contains_of_fnFormalsList isFormals)) (Ne.symm listApart.1)
      (Ne.symm argsFormals)
  · exact fun entry member =>
      declares.newMembers (entry.var, entry.member) (List.mem_map.mpr ⟨entry, member, rfl⟩)
  · exact same (old (contains_of_fnBodyList isBody)) (Ne.symm listApart.2) (Ne.symm argsBody)
  · rintro _ (rfl | rfl)
    · have known := standing.known
      simp [known, Kind.isList]
    · exact isArgsList
  · calc after.held args
        = filled.held args := leave.held_eq (filling.issued (inner.issued oldArgs)) not_false
      _ = between.held args ++ [first, second] := isPassed
      _ = before.held args ++ [first, second] := by
        rw [furnished.held_eq symbols oldArgs ⟨argsModule, argsFormals, argsBody⟩]

end Outside

/-! ## The whole -/

theorem issued_of_callSites (isCall : before.callSites fn = .ok [call]) : ¬ before.New call := by
  rw [callSites, Fault.filterM_eq_ok] at isCall
  obtain ⟨tested, isCall⟩ := isCall
  have member : call ∈ before.index.calls.toList :=
    List.mem_of_mem_filter (isCall ▸ List.mem_singleton_self call)
  obtain ⟨passed, looked⟩ := tested call member
  rw [isCallSite, Fault.bind_eq_ok] at looked
  obtain ⟨kind, known, _⟩ := looked
  exact issued_of_kindAt (kindOf_eq_ok.mp known)

theorem callSites_of_singleCallSite (run : Yields (singleCallSite fn) before call after) :
    before.callSites fn = .ok [call] ∧ after = before := by
  simp only [singleCallSite, yields_bind, yields_look] at run
  obtain ⟨calls, start, ⟨looked, rfl⟩, run⟩ := run
  split at run
  · obtain ⟨rfl, rfl⟩ := yields_pure.mp run
    exact ⟨looked, rfl⟩
  · simp only [yields_bind, yields_look] at run
    obtain ⟨_, _, _, never⟩ := run
    exact (yields_fail never).elim

/-- What goes into the bundle at the call comes out of it in the function. -/
theorem agree_of_passCaptures (wellFormed : WellFormed before)
    (isCall : before.callSites fn = .ok [call]) (outside : ¬ before.Contains fn call)
    (looked : before.captures fn = .ok captures)
    (run : Yields (passCaptures fn) before bundle after) :
    ∃ passage, Agree before after fn call bundle (bundledVars captures) passage := by
  have forest := wellFormed.orderly.forest
  have backed : before.Backed := fun holds new => by
    simpa [parentOf_of_unissued new] using (forest.held trivial holds).2
  obtain ⟨site, start, runCall, rewriting⟩ := yields_bind.mp run
  obtain ⟨isSite, rfl⟩ := callSites_of_singleCallSite runCall
  obtain rfl : call = site := List.singleton_inj.mp (Except.ok.inj (isCall.symm.trans isSite))
  obtain ⟨node, left, foundFn, running, same⟩ := yields_withLocationOf.mp rewriting
  have issuedFn : ¬ start.New fn := by simp [New, foundFn]
  simp only [yields_bind, yields_look, yields_pure, captures_attributed] at running
  obtain ⟨found, _, ⟨lookedCaptures, rfl⟩, module, entered, ⟨isModule, rfl⟩, bundle', _, runClass,
    pointer, _, runPointer, _, _, runFlag, _, _, runFirst, wrap, _, runWrap, _, _, runSecond, table,
    _, runUnpack, block, unpacked, ⟨isBlock, rfl⟩, _, rerouted, runUses, _, _, runFill, rfl, rfl⟩ :=
    running
  obtain rfl := Except.ok.inj (looked.symm.trans lookedCaptures)
  rw [expectModule_attributed] at isModule
  have symbols := isSymbol_of_bundledVars looked
  obtain ⟨naming, carried, moduleList, formals, body, renames, furnished, uses⟩ :=
    exists_furnished forest backed symbols (nodup_bundledVars looked) issuedFn isModule (by rfl)
      runClass runPointer runFlag runFirst runWrap runSecond runUnpack
  obtain ⟨furnished, reroutes⟩ :=
    furnished.reroute backed issuedFn isModule symbols renames uses isBlock runUses
  exact furnished.agree forest symbols backed issuedFn isModule (issued_of_callSites isCall) outside
    reroutes runFill (by rw [same])

/-- A function for the GPU in a function with three locals, which it uses all.  One of them is a
compile-time constant. -/
def buildCapturing : Edit (NodeId × NodeId) := do
  let x ← newVar "x" (some PrimitiveType.int.id)
  let defineX ← define x
  let size ← newVar "size" (some PrimitiveType.int.id)
  addFlag size .param
  let defineSize ← define size
  let y ← newVar "y" (some PrimitiveType.real.id)
  let defineY ← define y
  let scaled ← newPrimitiveCall .multiply [y, size]
  let update ← newPrimitiveCall .move [x, scaled]
  let innerBody ← newBlock [update]
  let inner ← newFn "inner" [] innerBody none
  addFlag inner .offloadToGpu
  let defineInner ← define inner
  let call ← newCall inner []
  let outerBody ← newBlock [defineX, defineSize, defineY, defineInner, call]
  let outer ← newFn "outer" [] outerBody none
  let defineOuter ← define outer
  let module ← newModule "m" .user [defineOuter]
  addModule module
  return (inner, call)

/-- The program with the capturing function. -/
def capturing : Program :=
  match buildCapturing (.empty {}) with
  | .ok (_, program) => program
  | .error _ => .empty {}

theorem inspected_capturing :
    capturing.Inspected ⟨48⟩ ((capturing.subtree ⟨48⟩).toOption.getD []) where
  roots := by decide +kernel
  walked := by
    have ends : (capturing.subtree ⟨48⟩).toOption.isSome := by decide +kernel
    obtain ⟨nodes, walked⟩ := Option.isSome_iff_exists.mp ends
    rw [walked, Fault.toOption_eq_some.mp walked, Option.getD_some]
  module := by decide +kernel
  free := by decide +kernel
  root_context := by decide +kernel
  fitting := by decide +kernel
  indexed := by decide +kernel

/-- Two values go through the bundle, and the parameter stays out of it. -/
theorem agree_of_passCaptures_capturing :
    WellFormed capturing ∧ capturing.callSites ⟨30⟩ = .ok [⟨34⟩] ∧
      ¬ capturing.Contains ⟨30⟩ ⟨34⟩ ∧ ∃ captures bundle after passage,
        capturing.captures ⟨30⟩ = .ok captures ∧ (bundledVars captures).length = 2 ∧
          Yields (passCaptures ⟨30⟩) capturing bundle after ∧
            Agree capturing after ⟨30⟩ ⟨34⟩ bundle (bundledVars captures) passage := by
  have wellFormed : WellFormed capturing := inspected_capturing.wellFormed
  have isCall : capturing.callSites ⟨30⟩ = .ok [⟨34⟩] :=
    Fault.toOption_eq_some.mp (by decide +kernel)
  have outside : ¬ capturing.Contains ⟨30⟩ ⟨34⟩ := by
    have apart : (capturing.subtree ⟨30⟩).toOption.any (⟨34⟩ ∉ ·) := by decide +kernel
    obtain ⟨nodes, walked, free⟩ := (Option.any_eq_true _ _).mp apart
    rw [← mem_subtree (Fault.toOption_eq_some.mp walked)]
    simpa using free
  have two : (capturing.captures ⟨30⟩).toOption.map
      (fun captures => (bundledVars captures).length) = some 2 := by decide +kernel
  obtain ⟨captures, looked, two⟩ := Option.map_eq_some_iff.mp two
  have looked := Fault.toOption_eq_some.mp looked
  obtain ⟨bundle, after, run⟩ :=
    yields_of_isOk (show (passCaptures ⟨30⟩ capturing).isOk by decide +kernel)
  obtain ⟨passage, agree⟩ := agree_of_passCaptures wellFormed isCall outside looked run
  exact ⟨wellFormed, isCall, outside, captures, bundle, after, passage, looked, two, run, agree⟩

end ProgramTree.Program
