import ProgramTree.Proofs.Calls
import ProgramTree.Proofs.Contents

/-!
# Lists of statements

Builders and insertions wrap a bare expression before it goes into a list of statements.  A
replacement puts a node where another one was, whatever the two are.  So lists of statements
are free of bare expressions as long as none is put there by a replacement.
-/

namespace ProgramTree

open Program Edit

/-- No list of statements holds a bare expression. -/
def Program.ExprsWrapped (program : Program) : Prop :=
  ∀ list elements, program.kindAt list = some (.list .stmts elements) →
    ∀ id ∈ elements, ¬ (program.kindAt id).any Kind.isExpr

/-- Builders take over what they are given, copies are made of what is copied, and no
expression replaces an element of a list of statements. -/
def Call.KeepsStmts (before : Program) : Call → Prop
  | mutate (.replace old new) =>
    ((before.parentOf old).bind before.kindAt).bind Kind.holds? = some .stmts →
      ¬ (before.kindAt new).any Kind.isExpr
  | call => call.TakesOver before

variable {before between after program : Program} {id old parent : NodeId} {kind changed : Kind}
  {new? : Option NodeId}

theorem Call.KeepsStmts.takesOver {call : Call} (keeps : call.KeepsStmts before) :
    call.TakesOver before := by
  cases call with
  | mutate mutation => trivial
  | _ => exact keeps

namespace Kind

theorem holds?_eq_some {holds : ListCategory} :
    kind.holds? = some holds ↔ ∃ elements, kind = .list holds elements := by
  cases kind <;> simp [holds?]

theorem Exchanged.isExpr (exchanged : Exchanged old new? kind changed) :
    changed.isExpr = kind.isExpr := by
  cases exchanged with
  | erased position => rfl
  | set position new => rfl
  | rebound noList done => exact (sameForm_rebind done).isExpr

/-- A list takes up nothing but what is exchanged for one of its elements. -/
theorem Exchanged.elements {holds : ListCategory} {elements : Array NodeId}
    (exchanged : Exchanged old new? kind (.list holds elements)) :
    ∃ earlier, kind = .list holds earlier ∧ ∀ id ∈ elements, id ∈ earlier ∨ new? = some id := by
  cases exchanged with
  | @erased _ earlier position =>
    refine ⟨earlier, rfl, fun id member => .inl ?_⟩
    rw [Array.eraseIdxIfInBounds] at member
    split at member
    · exact Array.mem_of_mem_eraseIdx member
    · exact member
  | @set _ earlier position new =>
    refine ⟨earlier, rfl, fun id member => ?_⟩
    rcases Array.mem_or_eq_of_mem_setIfInBounds member with kept | rfl
    · exact .inl kept
    · exact .inr rfl
  | rebound noList done =>
    obtain ⟨slots, same⟩ := (rebind_splices done).form
    have isList : (Kind.list holds elements).isList = false := by
      rw [same, isList_withSlots, noList]
    simp [Kind.isList] at isList

end Kind

namespace Program

/-! ## Single calls -/

namespace ExprsWrapped

theorem construction (wrapped : before.ExprsWrapped) (wellFormed : WellFormed before)
    (step : Construction before after) : after.ExprsWrapped := by
  have since := step.since
  -- what a list holds is there
  have issued : ∀ {list elements}, before.kindAt list = some (.list .stmts elements) →
      ∀ id ∈ elements, (before.get? id).isSome := by
    intro list elements known id member
    have holds : before.Holds list id := by
      rw [Holds, held_eq_of_kindAt known]
      exact Array.mem_toList_iff.mpr member
    exact wellFormed.orderly.issued_of_held trivial holds
  have kept : ∀ list elements, before.kindAt list = some (.list .stmts elements) →
      ∀ id ∈ elements, ¬ (after.kindAt id).any Kind.isExpr := fun list elements known id member =>
    since.notExpr (issued known id member) (wrapped list elements known id member)
  intro list elements known
  cases step with
  | quiet kinds => exact kept list elements (kinds list ▸ known)
  | @grown kind between _ undefined plain free issued pushed adopted =>
    by_cases fresh : list = before.nextId
    · subst fresh
      rw [adopted.kindAt, pushed.kindAt, Option.some.injEq] at known
      subst known
      intro id member
      have owned : id ∈ (Kind.list .stmts elements).owned := Array.mem_toList_iff.mpr member
      exact since.notExpr (issued id owned) (free rfl id owned)
    · exact kept list elements ((kindAt_of_adopted pushed adopted fresh).symm.trans known)
  | @defined sym init? declaredType? symbol between held isSymbol issued pushed adopted =>
    have old : sym ≠ before.nextId := by
      rintro rfl
      exact fresh_notMem issued (by simp [Expr.owned])
    rw [kindAt_setKind ((kindAt_of_adopted pushed adopted old).trans isSymbol)] at known
    by_cases isSym : list = sym
    · simp [isSym] at known
    · rw [if_neg isSym] at known
      by_cases fresh : list = before.nextId
      · rw [fresh, adopted.kindAt, pushed.kindAt] at known
        simp at known
      · exact kept list elements ((kindAt_of_adopted pushed adopted fresh).symm.trans known)
  | @reworded id kind changed knownBefore alike definition defines holds =>
    rw [kindAt_setKind knownBefore] at known
    by_cases isId : list = id
    · rw [if_pos isId, Option.some.injEq] at known
      have owned := alike.owned
      rw [known] at holds owned
      obtain ⟨earlier, rfl⟩ := Kind.holds?_eq_some.mp holds.symm
      obtain rfl : elements = earlier := by simpa [Kind.owned] using owned
      exact kept id elements knownBefore
    · exact kept list elements (by rwa [if_neg isId] at known)

theorem exchanged (wrapped : before.ExprsWrapped) (known : before.kindAt parent = some kind)
    (exchanged : Kind.Exchanged old new? kind changed)
    (fits : ∀ new ∈ new?, kind.holds? = some .stmts → ¬ (before.kindAt new).any Kind.isExpr)
    (kinds : ∀ other, after.kindAt other =
      if other = parent then some changed else before.kindAt other) : after.ExprsWrapped := by
  have sameExpr : ∀ id, (after.kindAt id).any Kind.isExpr = (before.kindAt id).any Kind.isExpr := by
    intro id
    rw [kinds]
    by_cases isParent : id = parent
    · simp [isParent, known, exchanged.isExpr]
    · rw [if_neg isParent]
  intro list elements isList id member
  rw [sameExpr]
  rw [kinds] at isList
  by_cases isParent : list = parent
  · rw [if_pos isParent, Option.some.injEq] at isList
    subst isList
    obtain ⟨earlier, rfl, members⟩ := exchanged.elements
    rcases members id member with kept | isNew
    · exact wrapped parent earlier known id kept
    · exact fits id isNew rfl
  · rw [if_neg isParent] at isList
    exact wrapped list elements isList id member

end ExprsWrapped

/-- Insertion wraps what it puts into a list of statements. -/
theorem listwise_exprsWrapped : Listwise ExprsWrapped where
  of_kinds wrapped kinds list elements known := by
    intro id member
    rw [kinds]
    exact wrapped list elements (kinds list ▸ known) id member
  wrapped {before after expr} wrapped grown list elements known := by
    intro id member
    have notFresh : list ≠ before.nextId := by
      rintro rfl
      simp [grown.known] at known
    by_cases fresh : id = before.nextId
    · rw [fresh, grown.known]
      simp [Kind.isExpr]
    · rw [grown.kinds fresh]
      exact wrapped list elements (grown.kinds notFresh ▸ known) id member
  elements {before after list holds old new} wrapped known members kinds other elements isList := by
    have sameExpr : ∀ id,
        (after.kindAt id).any Kind.isExpr = (before.kindAt id).any Kind.isExpr := by
      intro id
      rw [kinds]
      by_cases same : id = list
      · simp [same, known, Kind.isExpr]
      · rw [if_neg same]
    intro id member
    rw [sameExpr]
    rw [kinds] at isList
    by_cases same : other = list
    · rw [if_pos same, Option.some.injEq, Kind.list.injEq] at isList
      obtain ⟨rfl, rfl⟩ := isList
      rcases members id member with kept | notExpr
      · exact wrapped list old known id kept
      · exact notExpr rfl
    · rw [if_neg same] at isList
      exact wrapped other elements isList id member

theorem ExprsWrapped.mutation {mutation : Mutation} (wrapped : before.ExprsWrapped)
    (keeps : (Call.mutate mutation).KeepsStmts before)
    (run : Yields mutation.run before () after) : after.ExprsWrapped := by
  have listwise := listwise_exprsWrapped
  cases mutation with
  | addModule module => exact listwise.of_kinds wrapped (kindAt_addModule run)
  | remove id =>
    obtain ⟨_, _, run, same⟩ := yields_bind.mp run
    obtain ⟨_, rfl⟩ := yields_pure.mp same
    rcases kindAt_remove run with ⟨_, kinds⟩ | ⟨parent, kind, changed, _, known, exchanged, kinds⟩
    · exact listwise.of_kinds wrapped kinds
    · exact wrapped.exchanged known exchanged nofun kinds
  | replace old new =>
    obtain ⟨_, _, run, same⟩ := yields_bind.mp run
    obtain ⟨_, rfl⟩ := yields_pure.mp same
    obtain ⟨parent, kind, changed, named, known, exchanged, kinds⟩ := kindAt_replace run
    refine wrapped.exchanged known exchanged ?_ kinds
    intro id isNew holdsStmts
    obtain rfl : new = id := Option.some.inj isNew
    refine keeps ?_
    rw [named, Option.bind_some, known, Option.bind_some, holdsStmts]
  | insertBefore anchor new | insertAfter anchor new =>
    obtain ⟨_, _, run, same⟩ := yields_bind.mp run
    obtain ⟨_, rfl⟩ := yields_pure.mp same
    exact (listwise.insertBeside _ _ _ wrapped run).1
  | insertAtHead list new | insertAtTail list new =>
    obtain ⟨_, _, run, same⟩ := yields_bind.mp run
    obtain ⟨_, rfl⟩ := yields_pure.mp same
    exact (listwise.insertAtEnd _ _ _ wrapped run).1

/-- The twin of a list holds the twins of its elements, which are what these are. -/
theorem ExprsWrapped.twinned {top : NodeId} {order : List NodeId} {link : NodeId → NodeId}
    (wrapped : before.ExprsWrapped) (wellFormed : WellFormed before)
    (issued : (before.get? top).isSome) (twinned : Twinned before top order link after) :
    after.ExprsWrapped := by
  have forest := wellFormed.orderly.forest
  have isExprTwin : ∀ {id}, id ∈ order →
      (after.kindAt (before.twin order id)).any Kind.isExpr =
        (before.kindAt id).any Kind.isExpr := by
    intro id member
    rw [twinned.kindAt_twin forest trivial issued member]
    cases before.kindAt id with
    | none => rfl
    | some kind => exact kind.isExpr_renamed
  intro list elements known id member
  cases found : before.get? list with
  | some node =>
    rw [twinned.extends_before.same_kind (by simp [found])] at known
    have holds : before.Holds list id := by
      rw [Holds, held_eq_of_kindAt known]
      exact Array.mem_toList_iff.mpr member
    rw [twinned.extends_before.same_kind (wellFormed.orderly.issued_of_held trivial holds)]
    exact wrapped list elements known id member
  | none =>
    obtain ⟨copied, foundAfter, _⟩ := get?_of_kindAt known
    obtain ⟨source, inOrder, rfl⟩ :=
      List.mem_map.mp (twinned.created_iff.mp ⟨found, by simp [foundAfter]⟩)
    rw [twinned.kindAt_twin forest trivial issued inOrder, Option.map_eq_some_iff] at known
    obtain ⟨kind, isKind, renamed⟩ := known
    obtain ⟨originals, rfl⟩ : ∃ originals, kind = .list .stmts originals := by
      cases kind <;> simp_all [Kind.renamed]
    obtain rfl : originals.map (before.twin order) = elements := by
      simpa [Kind.renamed] using renamed
    obtain ⟨original, memberOriginal, rfl⟩ := Array.mem_map.mp member
    have holds : before.Holds source original := by
      rw [Holds, held_eq_of_kindAt isKind]
      exact Array.mem_toList_iff.mpr memberOriginal
    rw [isExprTwin (twinned.holder_in_order forest trivial inOrder holds).1]
    exact wrapped source originals isKind original memberOriginal

theorem exprsWrapped_empty (settings : Settings) : (empty settings).ExprsWrapped := by
  intro list elements known id member
  have holds : (empty settings).Holds list id := by
    rw [Holds, held_eq_of_kindAt known]
    exact Array.mem_toList_iff.mpr member
  obtain ⟨primitive, rfl, rfl⟩ := holds_empty.mp holds
  cases primitive <;> cases known

end Program

/-! ## Runs of calls -/

theorem upheld_exprsWrapped : Upheld Call.KeepsStmts ExprsWrapped where
  takesOver keeps := keeps.takesOver
  fresh := exprsWrapped_empty
  construction wellFormed wrapped step := wrapped.construction wellFormed step
  mutation wrapped keeps run := wrapped.mutation keeps run
  copy wellFormed wrapped _ _ issued twinned := wrapped.twinned wellFormed issued twinned

/-- Unless a replacement puts one there, no list of statements ever holds a bare expression. -/
theorem exprsWrapped_of_reached (reached : Reached Call.KeepsStmts program) :
    program.ExprsWrapped :=
  (upheld_exprsWrapped.of_reached reached).2

end ProgramTree
