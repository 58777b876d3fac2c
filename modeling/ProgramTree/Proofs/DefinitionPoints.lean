import ProgramTree.Proofs.Calls
import ProgramTree.Proofs.Contents

/-!
# Definition points

A definition holds its symbol, and the symbol refers back to it.  The two fields are written
apart: a symbol can be replaced in its definition, and copied without it.  Calls that do
neither keep them in agreement, and then the symbols that are alive are those of the tree that
sit in a definition.
-/

namespace ProgramTree

open Program Edit

namespace Program

/-- The symbol that the definition holds. -/
def definedBy (program : Program) (definition : NodeId) : Option NodeId :=
  (program.kindAt definition).bind Kind.defined?

/-- The definition point of the symbol. -/
def definitionOf (program : Program) (sym : NodeId) : Option NodeId :=
  (program.kindAt sym).bind Kind.definition?

/-- A definition holds the symbol whose definition point it is, and no other. -/
def DefinitionsAgree (program : Program) : Prop :=
  ∀ definition sym,
    program.definedBy definition = some sym ↔ program.definitionOf sym = some definition

end Program

/-- Builders take over what they are given, no symbol is replaced in its definition, and what
is copied is neither such a symbol by itself nor, in an inner step, one among others. -/
def Call.KeepsDefinitions (before : Program) : Call → Prop
  | build builder => builder.TakesOver
  | mutate (.replace old _) => (before.parentOf old).bind before.definedBy ≠ some old
  | duplicate id table _ inner =>
    id ∈ table ∨ (∀ node, before.Contains id node → node ∉ table) ∧
      before.definitionOf id = none ∧
      (inner = true → ∀ node, before.Contains id node → before.definitionOf node = none)
  | _ => True

variable {before between after program : Program} {id old new sym definition parent : NodeId}
  {kind changed : Kind} {new? : Option NodeId}

theorem Call.KeepsDefinitions.takesOver {call : Call} (keeps : call.KeepsDefinitions before) :
    call.TakesOver before := by
  cases call with
  | build builder => exact keeps
  | duplicate id table updated inner => exact keeps.imp_right (·.1)
  | _ => trivial

/-! ## What a kind defines -/

namespace Kind

theorem defined?_owned (defines : kind.defined? = some sym) : sym ∈ kind.owned := by
  unfold defined? at defines
  split at defines
  · simp_all [Kind.owned, Expr.owned]
  · simp at defines

theorem defined?_renamed {own link : NodeId → NodeId} (kind : Kind) :
    (kind.renamed own link).defined? = kind.defined?.map own := by
  cases kind with
  | expr expr => cases expr <;> rfl
  | _ => rfl

theorem defined?_withSlots {slots : List Slot} (undefined : kind.defined? = none) :
    (kind.withSlots slots).defined? = none := by
  cases kind with
  | expr expr =>
    simp only [withSlots]
    unfold Expr.withSlots
    split
    · simp [defined?] at undefined
    all_goals first | rfl | exact undefined
  | _ => rfl

/-- A slot that does not hold the symbol of a definition can change without it. -/
theorem defined?_rebind (done : kind.rebind old new? = .done changed)
    (different : kind.defined? ≠ some old) : changed.defined? = kind.defined? := by
  rw [rebind] at done
  cases result : Slot.rebind old new? kind.slots with
  | missing => simp [result, Rebinding.map] at done
  | required => simp [result, Rebinding.map] at done
  | done slots =>
    obtain rfl : kind.withSlots slots = changed := by simpa [result, Rebinding.map] using done
    cases defines : kind.defined? with
    | none => exact defined?_withSlots defines
    | some sym =>
      unfold defined? at defines
      split at defines
      · next sym' init? declaredType? =>
        obtain rfl : sym' = sym := by simpa using defines
        have kept : sym' ≠ old := fun same => different (by simp [defined?, same])
        simp only [Kind.slots, Expr.slots, Slot.rebind, if_neg kept] at result
        split at result
        · obtain rfl : _ = slots := by simpa [Rebinding.map] using result
          rfl
        · split at result
          · obtain rfl : _ = slots := by simpa [Rebinding.map] using result
            rfl
          · simp [Rebinding.map] at result
      · simp at defines

/-- The slot of the symbol cannot be cleared. -/
theorem defined?_ne_of_cleared (done : kind.rebind old none = .done changed) :
    kind.defined? ≠ some old := by
  intro defines
  unfold defined? at defines
  split at defines
  · obtain rfl : _ = old := by simpa using defines
    simp [rebind, slots, Expr.slots, Slot.rebind, Rebinding.map] at done
  · simp at defines

theorem Exchanged.defined? (exchanged : Exchanged old new? kind changed)
    (different : kind.defined? ≠ some old) : changed.defined? = kind.defined? := by
  cases exchanged with
  | erased position => rfl
  | set position new => rfl
  | rebound noList done => exact defined?_rebind done different

theorem Exchanged.defined?_ne (exchanged : Exchanged old none kind changed) :
    kind.defined? ≠ some old := by
  cases exchanged with
  | erased position => simp [Kind.defined?]
  | rebound noList done => exact defined?_ne_of_cleared done

theorem Exchanged.definition? (exchanged : Exchanged old new? kind changed) :
    changed.definition? = kind.definition? := by
  cases exchanged with
  | erased position => rfl
  | set position new => rfl
  | rebound noList done => exact (sameForm_rebind done).definition

end Kind

namespace Program

theorem holds_of_definedBy (defines : program.definedBy definition = some sym) :
    program.Holds definition sym := by
  obtain ⟨kind, known, defined⟩ := Option.bind_eq_some_iff.mp defines
  rw [Holds, held_eq_of_kindAt known]
  exact Kind.defined?_owned defined

theorem issued_of_definedBy (defines : program.definedBy definition = some sym) :
    (program.get? definition).isSome :=
  (holds_of_definedBy defines).issued

theorem issued_of_definitionOf (defined : program.definitionOf sym = some definition) :
    (program.get? sym).isSome := by
  obtain ⟨kind, known, _⟩ := Option.bind_eq_some_iff.mp defined
  exact get?_isSome_of_kindAt known

theorem views_of_kindAt (same : after.kindAt id = before.kindAt id) :
    after.definedBy id = before.definedBy id ∧ after.definitionOf id = before.definitionOf id := by
  rw [definedBy, definitionOf, same, ← definedBy, ← definitionOf]
  exact ⟨rfl, rfl⟩

/-! ## Steps of builders -/

/-- A fresh definition holds the symbol, whose definition point it is from now on. -/
theorem views_of_defined {init? declaredType? : Option NodeId} {symbol : Symbol} {held : Program}
    (isSymbol : before.kindAt sym = some (.symbol symbol))
    (pushed : Pushed before (.expr (.definition sym init? declaredType?)) between)
    (adopted : Adopted between before.nextId (Expr.definition sym init? declaredType?).owned held)
    (named : held.modifyNode sym (fun node =>
      { node with kind := .symbol { symbol with defPoint? := some before.nextId } }) = after) :
    (∀ id, after.definedBy id = if id = before.nextId then some sym else before.definedBy id) ∧
      ∀ id, after.definitionOf id =
        if id = sym then some before.nextId else before.definitionOf id := by
  have unissued : before.kindAt before.nextId = none :=
    get?_eq_none_iff_kindAt.mp (get?_nextId before)
  have old : sym ≠ before.nextId := by
    rintro rfl
    simp [unissued] at isSymbol
  have isDefinition := (adopted.kindAt before.nextId).trans pushed.kindAt
  have isSymbolHeld := (kindAt_of_adopted pushed adopted old).trans isSymbol
  have kinds : ∀ id, after.kindAt id =
      if id = sym then some (.symbol { symbol with defPoint? := some before.nextId })
      else if id = before.nextId then some (.expr (.definition sym init? declaredType?))
      else before.kindAt id := by
    intro id
    rw [← named, kindAt_setKind isSymbolHeld]
    by_cases fresh : id = before.nextId
    · rw [if_pos fresh, fresh, isDefinition]
    · rw [if_neg fresh, kindAt_of_adopted pushed adopted fresh]
  constructor
  all_goals
    intro id
    by_cases isSym : id = sym
    · simp [definedBy, definitionOf, kinds, isSym, old, isSymbol, Kind.defined?, Kind.definition?,
        Kind.symbol?]
    · by_cases fresh : id = before.nextId
      · simp [definedBy, definitionOf, kinds, fresh, Ne.symm old, unissued, Kind.defined?,
          Kind.definition?, Kind.symbol?]
      · simp [definedBy, definitionOf, kinds, isSym, fresh]

namespace DefinitionsAgree

variable (agree : before.DefinitionsAgree)
include agree

theorem of_same (same : ∀ id, after.definedBy id = before.definedBy id ∧
    after.definitionOf id = before.definitionOf id) : after.DefinitionsAgree := by
  intro definition sym
  rw [(same definition).1, (same sym).2]
  exact agree definition sym

/-- A symbol that nothing holds has no definition point. -/
theorem definitionOf_eq_none (wellFormed : WellFormed before) (free : before.parentOf sym = none) :
    before.definitionOf sym = none := by
  refine Option.eq_none_iff_forall_ne_some.mpr fun definition defined => ?_
  have holds := holds_of_definedBy ((agree definition sym).mpr defined)
  simp [(wellFormed.parent_iff _ _).mp holds] at free

/-- A symbol that had no definition point gets one that was not there. -/
theorem of_defined (undefined : before.definitionOf sym = none)
    (unissued : before.get? definition = none)
    (defines : ∀ id, after.definedBy id =
      if id = definition then some sym else before.definedBy id)
    (defined : ∀ id, after.definitionOf id =
      if id = sym then some definition else before.definitionOf id) :
    after.DefinitionsAgree := by
  intro other id
  rw [defines, defined]
  by_cases isDefinition : other = definition
  · by_cases isSym : id = sym
    · simp [isDefinition, isSym]
    · rw [if_pos isDefinition, if_neg isSym, isDefinition]
      refine iff_of_false (by simpa using Ne.symm isSym) fun named => ?_
      have issued := issued_of_definedBy ((agree _ _).mpr named)
      simp [unissued] at issued
  · rw [if_neg isDefinition]
    by_cases isSym : id = sym
    · rw [if_pos isSym, isSym, agree, undefined]
      simpa using Ne.symm isDefinition
    · rw [if_neg isSym]
      exact agree other id

theorem construction (wellFormed : WellFormed before) (step : Construction before after) :
    after.DefinitionsAgree := by
  cases step with
  | quiet kinds => exact agree.of_same fun id => views_of_kindAt (kinds id)
  | grown undefined plain _ _ pushed adopted =>
    refine agree.of_same fun id => ?_
    by_cases fresh : id = before.nextId
    · subst fresh
      have known := (adopted.kindAt before.nextId).trans pushed.kindAt
      have unknown := get?_eq_none_iff_kindAt.mp (get?_nextId before)
      simp [definedBy, definitionOf, known, unknown, undefined, plain]
    · exact views_of_kindAt (kindAt_of_adopted pushed adopted fresh)
  | @defined sym init? declaredType? symbol between held isSymbol issued pushed adopted =>
    have old : sym ≠ before.nextId := by
      rintro rfl
      exact fresh_notMem issued (by simp [Expr.owned])
    have free : before.parentOf sym = none := by
      have freeLater := adopted.free (show sym ∈ _ by simp [Expr.owned])
      rwa [parentOf, pushed.others old, ← parentOf] at freeLater
    obtain ⟨defines, defined⟩ := views_of_defined isSymbol pushed adopted rfl
    exact agree.of_defined (agree.definitionOf_eq_none wellFormed free) (get?_nextId before)
      defines defined
  | @reworded id kind changed known alike definition defines =>
    refine agree.of_same fun other => ?_
    rw [definedBy, definitionOf, kindAt_setKind known]
    by_cases isId : other = id
    · simp [isId, definedBy, definitionOf, known, definition, defines]
    · rw [if_neg isId]
      exact ⟨rfl, rfl⟩

/-! ## Mutations -/

/-- An exchange in the holder leaves definitions as they are, unless it is the symbol of a
definition that is exchanged. -/
theorem exchanged (known : before.kindAt parent = some kind)
    (exchanged : Kind.Exchanged old new? kind changed) (different : kind.defined? ≠ some old)
    (kinds : ∀ other, after.kindAt other =
      if other = parent then some changed else before.kindAt other) :
    after.DefinitionsAgree := by
  refine agree.of_same fun id => ?_
  by_cases isParent : id = parent
  · subst isParent
    simp [definedBy, definitionOf, kinds, known, exchanged.defined? different,
      exchanged.definition?]
  · exact views_of_kindAt (by rw [kinds, if_neg isParent])

end DefinitionsAgree

/-- Definitions and definition points are those of the origin. -/
def SameDefinitions (origin program : Program) : Prop :=
  ∀ id, program.definedBy id = origin.definedBy id ∧
    program.definitionOf id = origin.definitionOf id

/-- Neither lists nor the statements that bare expressions become define anything. -/
theorem listwise_sameDefinitions (origin : Program) : Listwise (SameDefinitions origin) where
  of_kinds same kinds id := by
    have views := views_of_kindAt (kinds id)
    exact ⟨views.1.trans (same id).1, views.2.trans (same id).2⟩
  wrapped {before after expr} same grown id := by
    by_cases fresh : id = before.nextId
    · subst fresh
      have unknown := get?_eq_none_iff_kindAt.mp (get?_nextId before)
      have sameFresh := same before.nextId
      simp only [definedBy, definitionOf, unknown, Option.bind_none] at sameFresh
      simp only [definedBy, definitionOf, grown.known, Option.bind_some]
      exact sameFresh
    · have views := views_of_kindAt (grown.kinds fresh)
      exact ⟨views.1.trans (same id).1, views.2.trans (same id).2⟩
  elements {before after list holds old new} same known _ kinds id := by
    by_cases isList : id = list
    · subst isList
      have sameList := same id
      simp only [definedBy, definitionOf, known, Option.bind_some] at sameList
      simp only [definedBy, definitionOf, kinds, if_true, Option.bind_some]
      exact sameList
    · have views := views_of_kindAt ((kinds id).trans (if_neg isList))
      exact ⟨views.1.trans (same id).1, views.2.trans (same id).2⟩

theorem DefinitionsAgree.mutation {mutation : Mutation} (agree : before.DefinitionsAgree)
    (keeps : (Call.mutate mutation).KeepsDefinitions before)
    (run : Yields mutation.run before () after) : after.DefinitionsAgree := by
  have listwise := listwise_sameDefinitions before
  have unchanged : SameDefinitions before before := fun _ => ⟨rfl, rfl⟩
  cases mutation with
  | addModule module => exact agree.of_same fun id => views_of_kindAt (kindAt_addModule run id)
  | remove id =>
    obtain ⟨_, _, run, same⟩ := yields_bind.mp run
    obtain ⟨_, rfl⟩ := yields_pure.mp same
    rcases kindAt_remove run with ⟨_, kinds⟩ | ⟨parent, kind, changed, _, known, exchanged, kinds⟩
    · exact agree.of_same fun other => views_of_kindAt (kinds other)
    · exact agree.exchanged known exchanged exchanged.defined?_ne kinds
  | replace old new =>
    obtain ⟨_, _, run, same⟩ := yields_bind.mp run
    obtain ⟨_, rfl⟩ := yields_pure.mp same
    obtain ⟨parent, kind, changed, named, known, exchanged, kinds⟩ := kindAt_replace run
    refine agree.exchanged known exchanged (fun defines => keeps ?_) kinds
    rw [named, Option.bind_some, definedBy, known, Option.bind_some, defines]
  | insertBefore anchor new | insertAfter anchor new =>
    obtain ⟨_, _, run, same⟩ := yields_bind.mp run
    obtain ⟨_, rfl⟩ := yields_pure.mp same
    exact agree.of_same (listwise.insertBeside _ _ _ unchanged run).1
  | insertAtHead list new | insertAtTail list new =>
    obtain ⟨_, _, run, same⟩ := yields_bind.mp run
    obtain ⟨_, rfl⟩ := yields_pure.mp same
    exact agree.of_same (listwise.insertAtEnd _ _ _ unchanged run).1

/-! ## Copies -/

section Copies

variable {top : NodeId} {order : List NodeId} {link : NodeId → NodeId}

/-- The twins define each other as the original nodes do, if the links from the symbols to
their definition points are redirected to the twins of these. -/
theorem DefinitionsAgree.twinned (agree : before.DefinitionsAgree) (wellFormed : WellFormed before)
    (issued : (before.get? top).isSome) (twinned : Twinned before top order link after)
    (links : ∀ sym ∈ order, ∀ definition, before.definitionOf sym = some definition →
      definition ∈ order ∧ link definition = before.twin order definition) :
    after.DefinitionsAgree := by
  have forest := wellFormed.orderly.forest
  have sameViews : ∀ {id}, (before.get? id).isSome → after.definedBy id = before.definedBy id ∧
      after.definitionOf id = before.definitionOf id := fun issued =>
    views_of_kindAt (twinned.extends_before.same_kind issued)
  have definedTwin : ∀ {id}, id ∈ order →
      after.definedBy (before.twin order id) = (before.definedBy id).map (before.twin order) := by
    intro id member
    obtain ⟨source, found⟩ := twinned.exists_source forest trivial issued member
    rw [definedBy, twinned.kindAt_twin forest trivial issued member, definedBy, kindAt_eq found]
    exact Kind.defined?_renamed source.kind
  have definitionTwin : ∀ {id}, id ∈ order →
      after.definitionOf (before.twin order id) = (before.definitionOf id).map link := by
    intro id member
    obtain ⟨source, found⟩ := twinned.exists_source forest trivial issued member
    rw [definitionOf, twinned.kindAt_twin forest trivial issued member, definitionOf,
      kindAt_eq found]
    exact Kind.definition?_renamed source.kind
  have origin : ∀ {id}, (after.get? id).isSome →
      (before.get? id).isSome ∨ ∃ source ∈ order, id = before.twin order source := by
    intro id issuedAfter
    cases found : before.get? id with
    | some node => exact .inl rfl
    | none =>
      obtain ⟨source, member, same⟩ :=
        List.mem_map.mp (twinned.created_iff.mp ⟨found, issuedAfter⟩)
      exact .inr ⟨source, member, same.symm⟩
  intro definition sym
  constructor
  · intro defines
    rcases origin (issued_of_definedBy defines) with old | ⟨source, member, rfl⟩
    · rw [(sameViews old).1] at defines
      have defined := (agree definition sym).mp defines
      rwa [(sameViews (issued_of_definitionOf defined)).2]
    · rw [definedTwin member, Option.map_eq_some_iff] at defines
      obtain ⟨original, defines, rfl⟩ := defines
      have memberSym := (twinned.holder_in_order forest trivial member
        (holds_of_definedBy defines)).1
      have defined := (agree source original).mp defines
      rw [definitionTwin memberSym, defined, Option.map_some, (links _ memberSym _ defined).2]
  · intro defined
    rcases origin (issued_of_definitionOf defined) with old | ⟨source, member, rfl⟩
    · rw [(sameViews old).2] at defined
      have defines := (agree definition sym).mpr defined
      rwa [(sameViews (issued_of_definedBy defines)).1]
    · rw [definitionTwin member, Option.map_eq_some_iff] at defined
      obtain ⟨original, defined, rfl⟩ := defined
      obtain ⟨memberDefinition, redirected⟩ := links source member original defined
      rw [redirected, definedTwin memberDefinition, (agree original source).mpr defined,
        Option.map_some]

/-- The definition point of a copied symbol is copied with it, if it is not the symbol alone
that is copied. -/
theorem DefinitionsAgree.exists_twin {seeds : Remap} (agree : before.DefinitionsAgree)
    (wellFormed : WellFormed before) (twinned : Twinned before top order link after)
    (undefined : before.definitionOf top = none) (member : sym ∈ order)
    (defined : before.definitionOf sym = some definition) :
    definition ∈ order ∧ before.redirect seeds order definition = before.twin order definition := by
  have holds := holds_of_definedBy ((agree definition sym).mpr defined)
  have strict : sym ≠ top := by
    rintro rfl
    simp [undefined] at defined
  obtain ⟨holder, named, contained⟩ := wellFormed.orderly.forest.parent_of_contains trivial
    (twinned.mem_order.mp member) strict
  rw [(wellFormed.parent_iff _ _).mp holds, Option.some.injEq] at named
  subst named
  have memberDefinition := twinned.mem_order.mpr contained
  exact ⟨memberDefinition, by rw [redirect, if_pos memberDefinition]⟩

theorem DefinitionsAgree.copy {table : Remap} {updated : List NodeId} {inner : Bool}
    (agree : before.DefinitionsAgree) (wellFormed : WellFormed before)
    (keeps : (Call.duplicate top table updated inner).KeepsDefinitions before)
    (unseeded : ∀ node, before.Contains top node → node ∉ table)
    (issued : (before.get? top).isSome)
    (twinned : Twinned before top order
      (if inner then fun link => link else before.redirect table order) after) :
    after.DefinitionsAgree := by
  obtain ⟨_, undefined, quietInside⟩ := keeps.resolve_left (unseeded top .refl)
  refine agree.twinned wellFormed issued twinned fun sym member definition defined => ?_
  cases inner with
  | false => exact agree.exists_twin wellFormed twinned undefined member defined
  | true =>
    rw [quietInside rfl sym (twinned.mem_order.mp member)] at defined
    simp at defined

end Copies

end Program

/-! ## Fresh programs, and symbols that are alive -/

namespace Program

theorem definitionsAgree_empty (settings : Settings) : (empty settings).DefinitionsAgree := by
  have noViews : ∀ id,
      (empty settings).definedBy id = none ∧ (empty settings).definitionOf id = none := by
    rintro ⟨_ | place⟩
    · exact ⟨rfl, rfl⟩
    · by_cases inBounds : place < 12
      · interval_cases place <;> exact ⟨rfl, rfl⟩
      · have unissued : (empty settings).get? ⟨place + 1⟩ = none :=
          Array.getElem?_eq_none (Nat.le_of_not_lt inBounds)
        rw [get?_eq_none_iff_kindAt] at unissued
        simp [definedBy, definitionOf, unissued]
  intro definition sym
  simp [noViews]

/-- A symbol that is no module is alive if it sits in a definition and is in the tree. -/
theorem DefinitionsAgree.isAlive {symbol : Symbol} (agree : program.DefinitionsAgree)
    (wellFormed : WellFormed program) (isSymbol : program.kindAt sym = some (.symbol symbol))
    (notModule : symbol.isModule = false) :
    ∃ alive placed, program.isAlive sym = .ok alive ∧ program.inTree sym = .ok placed ∧
      (alive = true ↔ placed = true ∧ ∃ definition, program.definedBy definition = some sym) := by
  have orderly := wellFormed.orderly
  have inTree : ∀ {id}, (program.get? id).isSome →
      ∃ placed, program.inTree id = .ok placed ∧ (placed = true ↔ program.Reachable id) := by
    intro id issued
    rw [← orderly.isPlaced_iff trivial]
    exact exists_inTree issued
  have defined : program.definitionOf sym = symbol.defPoint? := by
    rw [definitionOf, isSymbol]
    rfl
  have looked : program.kindOf sym = .ok (.symbol symbol) := kindOf_eq_ok.mpr isSymbol
  obtain ⟨placed, isPlaced, reachableSym⟩ := inTree (get?_isSome_of_kindAt isSymbol)
  cases point : symbol.defPoint? with
  | none =>
    refine ⟨false, placed, ?_, isPlaced, iff_of_false Bool.false_ne_true ?_⟩
    · simp [Program.isAlive, looked, Kind.symbol?, notModule, point, pure, Except.pure, bind,
        Except.bind]
    · rintro ⟨_, definition, defines⟩
      rw [(agree definition sym).mp defines] at defined
      simp [point] at defined
  | some definition =>
    have defines : program.definedBy definition = some sym :=
      (agree definition sym).mpr (defined.trans point)
    have holds := holds_of_definedBy defines
    obtain ⟨alive, isAlive, reachable⟩ := inTree (issued_of_definedBy defines)
    refine ⟨alive, placed, ?_, isPlaced, ?_⟩
    · simp [Program.isAlive, looked, Kind.symbol?, notModule, point, isAlive, bind, Except.bind]
    · rw [reachable, reachableSym]
      constructor
      · exact fun above => ⟨above.holds holds, definition, defines⟩
      · rintro ⟨below, _⟩
        have named := (wellFormed.parent_iff _ _).mp holds
        exact orderly.rooted.reachable_holder orderly.forest named below

end Program

/-! ## Runs of calls -/

theorem upheld_definitionsAgree : Upheld Call.KeepsDefinitions DefinitionsAgree where
  takesOver keeps := keeps.takesOver
  fresh := definitionsAgree_empty
  construction wellFormed agree step := agree.construction wellFormed step
  mutation agree keeps run := agree.mutation keeps run
  copy wellFormed agree keeps unseeded issued twinned :=
    agree.copy wellFormed keeps unseeded issued twinned

/-- Calls that keep definitions keep them in agreement with their symbols, and the symbols that
are alive, modules aside, are those of the tree that sit in a definition. -/
theorem definitionsAgree_of_reached (reached : Reached Call.KeepsDefinitions program) :
    program.DefinitionsAgree ∧
      ∀ sym symbol, program.kindAt sym = some (.symbol symbol) → symbol.isModule = false →
        ∃ alive placed, program.isAlive sym = .ok alive ∧ program.inTree sym = .ok placed ∧
          (alive = true ↔
            placed = true ∧ ∃ definition, program.definedBy definition = some sym) := by
  obtain ⟨wellFormed, agree⟩ := upheld_definitionsAgree.of_reached reached
  exact ⟨agree, fun sym symbol isSymbol notModule => agree.isAlive wellFormed isSymbol notModule⟩

/-- A variable, its definition and a module with nothing else in it, which is made a root. -/
def definingCalls : List Call :=
  [.build (.symbol "x" none .var), .build (.definition ⟨13⟩ none none),
    .build (.module "m" .user [⟨14⟩]), .mutate (.addModule ⟨18⟩)]

theorem keepsDefinitions_definingCalls (program : Program) :
    ∀ call ∈ definingCalls, call.KeepsDefinitions program := by
  intro call member
  simp only [definingCalls, List.mem_cons, List.not_mem_nil, or_false] at member
  rcases member with rfl | rfl | rfl | rfl
  · exact rfl
  all_goals trivial

/-- The definition is copied together with its variable. -/
theorem definitionsAgree_of_reached_copying :
    ∃ program, Reached Call.KeepsDefinitions program ∧
      (program.definedBy ⟨20⟩ = some ⟨19⟩ ∧ program.definitionOf ⟨19⟩ = some ⟨20⟩) ∧
      program.DefinitionsAgree ∧
      ∀ sym symbol, program.kindAt sym = some (.symbol symbol) → symbol.isModule = false →
        ∃ alive placed, program.isAlive sym = .ok alive ∧ program.inTree sym = .ok placed ∧
          (alive = true ↔
            placed = true ∧ ∃ definition, program.definedBy definition = some sym) := by
  have ends : ((afterCalls definingCalls (empty {})).any fun program =>
      program.definitionOf ⟨14⟩ = none ∧
        (afterCalls [.duplicate ⟨14⟩ ∅ [] false] program).any fun copied =>
          copied.definedBy ⟨20⟩ = some ⟨19⟩ ∧ copied.definitionOf ⟨19⟩ = some ⟨20⟩) = true := by
    decide +kernel
  obtain ⟨program, defining, found⟩ := (Option.any_eq_true _ _).mp ends
  obtain ⟨undefined, found⟩ := of_decide_eq_true found
  obtain ⟨copied, copying, pair⟩ := (Option.any_eq_true _ _).mp found
  obtain ⟨next, issued, run, same⟩ := afterCalls_cons.mp copying
  obtain rfl : next = copied := by simpa [afterCalls] using same
  have reached : Reached Call.KeepsDefinitions program :=
    reached_of_afterCalls keepsDefinitions_definingCalls (.fresh {}) defining
  have keeps : (Call.duplicate ⟨14⟩ ∅ [] false).KeepsDefinitions program :=
    .inr ⟨fun _ _ => Std.ExtTreeMap.not_mem_empty, undefined, by simp⟩
  have reachedCopy := Reached.call reached issued keeps run
  exact ⟨next, reachedCopy, of_decide_eq_true pair, definitionsAgree_of_reached reachedCopy⟩

/-- The symbol in a definition is replaced; a defined symbol is copied by itself; a definition
is copied in an inner step, or with a seed for its symbol; a symbol or a type is made that does
not take over the symbol it is given; a symbol is put into the tree without a definition. -/
theorem definitions_parted :
    LeadTo (definingCalls ++ [.build (.symbol "y" none .var), .mutate (.replace ⟨13⟩ ⟨19⟩)])
        (fun program =>
          program.definedBy ⟨14⟩ = some ⟨19⟩ ∧ program.definitionOf ⟨19⟩ = none ∧
            program.definitionOf ⟨13⟩ = some ⟨14⟩ ∧
            program.isAlive ⟨13⟩ = .ok true ∧ program.inTree ⟨13⟩ = .ok false ∧
            program.isAlive ⟨19⟩ = .ok false ∧ program.inTree ⟨19⟩ = .ok true) ∧
      LeadTo (definingCalls ++ [.duplicate ⟨13⟩ ∅ [] false])
        (fun program =>
          program.definitionOf ⟨19⟩ = some ⟨14⟩ ∧ program.definedBy ⟨14⟩ = some ⟨13⟩ ∧
            program.isAlive ⟨19⟩ = .ok true ∧ program.inTree ⟨19⟩ = .ok false) ∧
      LeadTo (definingCalls ++ [.duplicate ⟨14⟩ ∅ [] true])
        (fun program =>
          program.definedBy ⟨20⟩ = some ⟨19⟩ ∧ program.definitionOf ⟨19⟩ = some ⟨14⟩) ∧
      LeadTo (definingCalls ++
          [.build (.symbol "y" none .var), .duplicate ⟨14⟩ {(⟨13⟩, ⟨19⟩)} [] false])
        (fun program => program.definedBy ⟨20⟩ = some ⟨19⟩ ∧ program.definitionOf ⟨19⟩ = none) ∧
      LeadTo
        [.build (.symbol "x" none .var), .build (.symbol "t" none (.type ⟨13⟩)),
          .build (.definition ⟨13⟩ none none), .build (.definition ⟨14⟩ none none),
          .build (.module "m" .user [⟨16⟩]), .mutate (.addModule ⟨20⟩)]
        (fun program => program.isAlive ⟨13⟩ = .ok false ∧ program.inTree ⟨13⟩ = .ok true) ∧
      LeadTo
        [.build (.symbol "x" none .var), .build (.namedType "u" (.user (some ⟨13⟩) none none)),
          .build (.definition ⟨13⟩ none none), .build (.definition ⟨15⟩ none none),
          .build (.module "m" .user [⟨17⟩]), .mutate (.addModule ⟨21⟩)]
        (fun program => program.isAlive ⟨13⟩ = .ok false ∧ program.inTree ⟨13⟩ = .ok true) ∧
      LeadTo
        [.build (.symbol "x" none .var), .build (.module "m" .user [⟨13⟩]),
          .mutate (.addModule ⟨16⟩)]
        (fun program => program.isAlive ⟨13⟩ = .ok false ∧ program.inTree ⟨13⟩ = .ok true) := by
  refine ⟨leadTo ?_, leadTo ?_, leadTo ?_, leadTo ?_, leadTo ?_, leadTo ?_, leadTo ?_⟩
  all_goals decide +kernel

end ProgramTree
