import ProgramTree.Proofs.Lookups
import ProgramTree.Proofs.Revisions

/-!
# Anchors

The anchor of a node is the statement around it: the first node, going up, that sits in a list
of statements.  In a forest the way up has no circle, so it is long enough to search as many
levels as the program has nodes.
-/

namespace ProgramTree.Program

open Relation

variable {origin before after program : Program} {touched : NodeId → Prop}
  {id anchor parent : NodeId} {anchor? : Option NodeId} {fuel : Nat}

/-- A statement list. -/
def IsStmtList (program : Program) (id : NodeId) : Prop :=
  (program.kindAt id).bind Kind.holds? = some .stmts

/-- Going up from a node, `anchor` is the first one that sits in a list of statements. -/
inductive Anchors (program : Program) (anchor : NodeId) : NodeId → Prop where
  | here {list : NodeId} (named : program.parentOf anchor = some list)
      (isList : program.IsStmtList list) : Anchors program anchor anchor
  | above {id parent : NodeId} (named : program.parentOf id = some parent)
      (noList : ¬ program.IsStmtList parent) (further : Anchors program anchor parent) :
      Anchors program anchor id

/-! ## Queries -/

theorem isStmtList_eq_ok {isList : Bool} : program.isStmtList id = .ok isList ↔
    (program.get? id).isSome ∧ (isList = true ↔ program.IsStmtList id) := by
  simp only [isStmtList, Fault.bind_eq_ok, kindOf_eq_ok, IsStmtList]
  constructor
  · rintro ⟨kind, known, looked⟩
    obtain ⟨node, found, _⟩ := get?_of_kindAt known
    refine ⟨by simp [found], ?_⟩
    split at looked
    · simp [← Fault.pure_eq_ok.mp looked, known, Kind.holds?]
    · next other =>
      rw [← Fault.pure_eq_ok.mp looked, known, Option.bind_some]
      refine iff_of_false Bool.false_ne_true fun isList => ?_
      cases kind with
      | list holds elements =>
        obtain rfl := Option.some.inj isList
        exact other elements rfl
      | _ => cases isList
  · rintro ⟨issued, isList_iff⟩
    obtain ⟨node, found⟩ := Option.isSome_iff_exists.mp issued
    refine ⟨node.kind, kindAt_eq found, ?_⟩
    rw [kindAt_eq found, Option.bind_some] at isList_iff
    split
    · next isList => rw [Fault.pure_eq_ok, eq_comm, isList_iff, isList, Kind.holds?]
    · next other =>
      rw [Fault.pure_eq_ok, eq_comm, Bool.eq_false_iff, Ne, isList_iff]
      intro isList
      cases isKind : node.kind with
      | list holds elements =>
        rw [isKind] at isList
        obtain rfl := Option.some.inj isList
        exact other elements isKind
      | _ => simp [isKind, Kind.holds?] at isList

theorem enclosingStmtWithin_succ :
    program.enclosingStmtWithin (fuel + 1) id = .ok anchor? ↔
      (program.get? id).isSome ∧ (program.parentOf id = none ∧ anchor? = none ∨
        ∃ parent, program.parentOf id = some parent ∧ (program.get? parent).isSome ∧
          (program.IsStmtList parent ∧ anchor? = some id ∨
            ¬ program.IsStmtList parent ∧
              program.enclosingStmtWithin fuel parent = .ok anchor?)) := by
  classical
  simp only [enclosingStmtWithin, Fault.bind_eq_ok, node_eq_ok]
  constructor
  · rintro ⟨node, found, looked⟩
    rw [parentOf_eq found]
    refine ⟨by simp [found], ?_⟩
    split at looked
    · next free => exact .inl ⟨free, (Fault.pure_eq_ok.mp looked).symm⟩
    · next parent named =>
      simp only [Fault.bind_eq_ok, isStmtList_eq_ok, Fault.ite_eq_ok, Fault.pure_eq_ok] at looked
      obtain ⟨isList, ⟨issued, isList_iff⟩, step⟩ := looked
      rw [isList_iff] at step
      exact .inr ⟨parent, named, issued, step.imp_left (And.imp_right Eq.symm)⟩
  · rintro ⟨issued, step⟩
    obtain ⟨node, found⟩ := Option.isSome_iff_exists.mp issued
    rw [parentOf_eq found] at step
    refine ⟨node, found, ?_⟩
    rcases step with ⟨free, rfl⟩ | ⟨parent, named, issuedParent, step⟩
    · simp only [free, Fault.pure_eq_ok]
    · simp only [named, Fault.bind_eq_ok, isStmtList_eq_ok, Fault.ite_eq_ok, Fault.pure_eq_ok]
      refine ⟨decide (program.IsStmtList parent), ⟨issuedParent, by simp⟩, ?_⟩
      simpa [eq_comm] using step

theorem IsStmtList.exists_elements (isList : program.IsStmtList id) :
    ∃ elements, program.kindAt id = some (.list .stmts elements) := by
  obtain ⟨kind, known, isList⟩ := Option.bind_eq_some_iff.mp isList
  cases kind with
  | list holds elements =>
    obtain rfl := Option.some.inj isList
    exact ⟨elements, known⟩
  | _ => cases isList

theorem Anchors.issued (anchors : program.Anchors anchor id) : (program.get? id).isSome := by
  cases anchors with
  | here named _ | above named _ _ =>
    obtain ⟨node, found, _⟩ := get?_of_parentOf named
    simp [found]

/-- What the search answers is the anchor, and no answer means that there is none. -/
theorem anchors_iff_of_enclosingStmtWithin
    (looked : program.enclosingStmtWithin fuel id = .ok anchor?) :
    program.Anchors anchor id ↔ anchor? = some anchor := by
  induction fuel generalizing id with
  | zero => cases looked
  | succ fuel ih =>
    obtain ⟨_, ⟨free, rfl⟩ | ⟨parent, named, _, ⟨isList, rfl⟩ | ⟨noList, further⟩⟩⟩ :=
      enclosingStmtWithin_succ.mp looked
    · refine iff_of_false (fun anchors => ?_) nofun
      cases anchors with
      | here named _ | above named _ _ => simp [free] at named
    · constructor
      · intro anchors
        cases anchors with
        | here => rfl
        | above namedAgain noList _ =>
          obtain rfl := Option.some.inj (named.symm.trans namedAgain)
          exact absurd isList noList
      · intro same
        obtain rfl := Option.some.inj same
        exact .here named isList
    · rw [← ih further]
      constructor
      · intro anchors
        cases anchors with
        | here namedAgain isList =>
          obtain rfl := Option.some.inj (named.symm.trans namedAgain)
          exact absurd isList noList
        | above namedAgain _ further =>
          obtain rfl := Option.some.inj (named.symm.trans namedAgain)
          exact further
      · exact .above named noList

theorem anchors_of_enclosingStmt (looked : program.enclosingStmt id = .ok (some anchor)) :
    program.Anchors anchor id :=
  (anchors_iff_of_enclosingStmtWithin looked).mpr rfl

section Forests

/-- No more distinct nodes are below a node than there are nodes. -/
theorem Forest.length_le_of_below {region : NodeId → Prop} {loose passed : List NodeId}
    (forest : Forest region loose program) (inside : region id) (distinct : passed.Nodup)
    (below : ∀ lower ∈ passed, TransGen program.Holds id lower) :
    passed.length ≤ program.nodes.size := by
  apply length_le_size distinct
  intro lower member
  obtain ⟨_, above, holds⟩ := TransGen.tail'_iff.mp (below lower member)
  obtain ⟨node, isNode, _⟩ :=
    get?_of_parentOf (forest.held (forest.contains inside above) holds).2
  simp [isNode]

variable (forest : Forest (fun _ => True) [] program)
include forest

/-- The anchor is around the node, and it stands in a statement list. -/
theorem Anchors.stands (anchors : program.Anchors anchor id) :
    program.Contains anchor id ∧
      ∃ list, program.IsStmtList list ∧ program.Holds list anchor := by
  induction anchors with
  | here named isList => exact ⟨.refl, _, isList, (forest.holder trivial (by simp) named).2⟩
  | above named _ _ ih => exact ⟨ih.1.tail (forest.holder trivial (by simp) named).2, ih.2⟩

/-- The way up from below a list of statements ends below it. -/
theorem Anchors.below_list {list : NodeId} (anchors : program.Anchors anchor id)
    (isList : program.IsStmtList list) (below : TransGen program.Holds list id) :
    TransGen program.Holds list anchor := by
  induction anchors with
  | here => exact below
  | @above id parent named noList _ ih =>
    apply ih
    obtain ⟨holder, above, holds⟩ := TransGen.tail'_iff.mp below
    have isParent : parent = holder :=
      forest.only_holder trivial trivial (forest.holder trivial (by simp) named).2 holds
    subst isParent
    rcases reflTransGen_iff_eq_or_transGen.mp above with rfl | strict
    · exact absurd isList noList
    · exact strict

/-- The nodes that were passed on the way up are distinct, so the search may still go up. -/
theorem exists_enclosingStmtWithin {passed : List NodeId} (issued : (program.get? id).isSome)
    (distinct : passed.Nodup) (below : ∀ lower ∈ passed, TransGen program.Holds id lower)
    (enough : fuel + passed.length = program.nodes.size + 1) :
    ∃ anchor?, program.enclosingStmtWithin fuel id = .ok anchor? := by
  induction fuel generalizing id passed with
  | zero =>
    have bounded := forest.length_le_of_below trivial distinct below
    omega
  | succ fuel ih =>
    simp only [enclosingStmtWithin_succ]
    cases named : program.parentOf id with
    | none => exact ⟨none, issued, .inl ⟨rfl, rfl⟩⟩
    | some parent =>
      have holds := (forest.holder trivial (by simp) named).2
      have fresh : id ∉ passed := fun again =>
        (forest.grounded trivial).not_below_itself (below id again)
      have belowParent : ∀ lower ∈ id :: passed, TransGen program.Holds parent lower :=
        List.forall_mem_cons.mpr
          ⟨.single holds, fun lower member => .head holds (below lower member)⟩
      by_cases isList : program.IsStmtList parent
      · exact ⟨some id, issued, .inr ⟨parent, rfl, holds.issued, .inl ⟨isList, rfl⟩⟩⟩
      · obtain ⟨anchor?, looked⟩ := ih holds.issued (List.nodup_cons.mpr ⟨fresh, distinct⟩)
          belowParent (by rw [List.length_cons]; omega)
        exact ⟨anchor?, issued, .inr ⟨parent, rfl, holds.issued, .inr ⟨isList, looked⟩⟩⟩

/-- In a forest the search ends, with the anchor if there is one. -/
theorem exists_enclosingStmt (issued : (program.get? id).isSome) :
    ∃ anchor?, program.enclosingStmt id = .ok anchor? ∧
      ∀ anchor, program.Anchors anchor id ↔ anchor? = some anchor := by
  obtain ⟨anchor?, looked⟩ := exists_enclosingStmtWithin forest issued .nil nofun rfl
  exact ⟨anchor?, looked, fun _ => anchors_iff_of_enclosingStmtWithin looked⟩

theorem enclosingStmt_eq_ok :
    program.enclosingStmt id = .ok (some anchor) ↔ program.Anchors anchor id := by
  constructor
  · exact anchors_of_enclosingStmt
  · intro anchors
    obtain ⟨anchor?, looked, isAnchor⟩ := exists_enclosingStmt forest anchors.issued
    rw [looked, (isAnchor anchor).mp anchors]

end Forests

/-! ## Earlier programs -/

theorem isStmtList_iff (revision : Revision origin touched before after)
    (issued : ¬ before.New id) :
    after.IsStmtList id ↔ before.IsStmtList id := by
  obtain ⟨old, new, known, knownLater, becomes⟩ := revision.exists_mayBecome issued
  simp [IsStmtList, known, knownLater, becomes.holds?]

/-- The anchor of a node that was there before was its anchor before, if parents were there. -/
theorem Anchors.earlier
    (issuedParent : ∀ {id parent}, before.parentOf id = some parent → ¬ before.New parent)
    (revision : Revision before touched before after) (issued : ¬ before.New id)
    (anchors : after.Anchors anchor id) : before.Anchors anchor id := by
  induction anchors with
  | here named isList =>
    rw [revision.parents issued] at named
    rw [isStmtList_iff revision (issuedParent named)] at isList
    exact .here named isList
  | above named noList _ ih =>
    rw [revision.parents issued] at named
    rw [isStmtList_iff revision (issuedParent named)] at noList
    exact .above named noList (ih (issuedParent named))

theorem enclosingStmt_before (forest : Forest (fun _ => True) [] before)
    (revision : Revision before touched before after) (issued : ¬ before.New id)
    (looked : after.enclosingStmt id = .ok (some anchor)) :
    before.enclosingStmt id = .ok (some anchor) := by
  refine (enclosingStmt_eq_ok forest).mpr
    ((anchors_of_enclosingStmt looked).earlier (fun named => ?_) revision issued)
  exact Option.isSome_iff_ne_none.mp (forest.holder trivial (by simp) named).2.issued

end ProgramTree.Program
