import ProgramTree.Proofs.Mutations
import ProgramTree.Proofs.Revisions

/-!
# Kinds under edits of the tree

Removal and replacement change the kind of one node, the holder.  Insertion changes lists, and
makes statements of bare expressions on the way, so what it keeps follows from what these steps
keep.
-/

namespace ProgramTree

open Program Edit

/-- Where the one kind holds `old`, the other holds `new?` instead, or nothing. -/
inductive Kind.Exchanged (old : NodeId) : Option NodeId → Kind → Kind → Prop where
  | erased {holds : ListCategory} {elements : Array NodeId} (position : Nat) :
      Exchanged old none (.list holds elements) (.list holds (elements.eraseIdxIfInBounds position))
  | set {holds : ListCategory} {elements : Array NodeId} (position : Nat) (new : NodeId) :
      Exchanged old (some new) (.list holds elements)
        (.list holds (elements.setIfInBounds position new))
  | rebound {new? : Option NodeId} {kind changed : Kind} (noList : kind.isList = false)
      (done : kind.rebind old new? = .done changed) : Exchanged old new? kind changed

/-- The property looks at kinds alone, and is kept when a bare expression becomes a statement
and when a list gets other elements.  A list of statements gets no bare expressions. -/
structure Listwise (kept : Program → Prop) : Prop where
  of_kinds : ∀ {before after}, kept before → (∀ id, after.kindAt id = before.kindAt id) → kept after
  wrapped : ∀ {before after expr}, kept before → Grown before (.stmt (.expr expr)) after →
    kept after
  elements : ∀ {before after list holds old new}, kept before →
    before.kindAt list = some (.list holds old) →
    (∀ id ∈ new, id ∈ old ∨ (holds = .stmts → ¬ (before.kindAt id).any Kind.isExpr)) →
    (∀ id, after.kindAt id = if id = list then some (.list holds new) else before.kindAt id) →
    kept after

variable {before after : Program} {id old new list parent answer : NodeId} {done : Unit}

namespace Edit

/-! ## What single steps do to kinds -/

theorem kindAt_setParent {parent? : Option NodeId}
    (run : Yields (setParent id parent?) before done after) (other : NodeId) :
    after.kindAt other = before.kindAt other := by
  obtain ⟨_, rfl⟩ := yields_setParent.mp run
  rw [kindAt, get?_modifyNode_map, Option.map_map, kindAt]
  congr 1
  funext node
  simp only [Function.comp_def]
  split <;> rfl

theorem kindAt_attach {context : Context} (run : Yields (attach id context) before done after)
    (other : NodeId) : after.kindAt other = before.kindAt other :=
  (attachedBelow (yields_attach.mp run)).same.kindAt

theorem kindAt_detach (run : Yields (detach id) before done after) (other : NodeId) :
    after.kindAt other = before.kindAt other :=
  (displaced run).same.kindAt

theorem kindAt_changeElements {f : Array NodeId → Array NodeId}
    (run : Yields (changeElements list f) before done after) :
    ∃ holds elements, before.kindAt list = some (.list holds elements) ∧
      ∀ other, after.kindAt other =
        if other = list then some (.list holds (f elements)) else before.kindAt other := by
  simp only [changeElements, yields_bind, yields_look, yields_change, list_eq_ok] at run
  obtain ⟨⟨holds, elements⟩, _, ⟨known, rfl⟩, _, rfl⟩ := run
  refine ⟨holds, elements, known, fun other => ?_⟩
  obtain ⟨node, found, isList⟩ := get?_of_kindAt known
  rw [kindAt, get?_modifyNode]
  by_cases isTarget : list = other
  · subst isTarget
    simp [found, isList, Kind.mapElements]
  · rw [if_neg isTarget, if_neg (Ne.symm isTarget), kindAt]

theorem kindAt_rebindSlot {new? : Option NodeId}
    (run : Yields (rebindSlot parent old new?) before done after) :
    ∃ kind changed, before.kindAt parent = some kind ∧ Kind.Exchanged old new? kind changed ∧
      ∀ other, after.kindAt other =
        if other = parent then some changed else before.kindAt other := by
  simp only [rebindSlot, yields_bind, yields_look, kindOf_eq_ok, yields_ite, yields_fail] at run
  obtain ⟨kind, _, ⟨known, rfl⟩, ⟨_, _, _, never, _⟩ | ⟨noList, run⟩⟩ := run
  · exact never.elim
  cases rebound : kind.rebind old new? with
  | missing =>
    simp only [rebound, yields_bind, yields_fail] at run
    obtain ⟨_, _, never, _⟩ := run
    exact never.elim
  | required =>
    simp only [rebound, yields_bind, yields_fail] at run
    obtain ⟨_, _, never, _⟩ := run
    exact never.elim
  | done changed =>
    simp only [rebound, yields_bind, setKind, yields_change] at run
    obtain ⟨_, _, ⟨_, rfl⟩, _, _, released, run⟩ := run
    refine ⟨kind, changed, known, .rebound (by simpa using noList) rebound, fun other => ?_⟩
    have written := (kindAt_setParent released other).trans (kindAt_setKind known)
    cases new? with
    | none =>
      obtain ⟨_, rfl⟩ := yields_pure.mp run
      exact written
    | some new => exact (kindAt_setParent run other).trans written

/-! ## Removal and replacement -/

/-- A removal changes the kind of the holder only, and of nothing if there is none. -/
theorem kindAt_remove (run : Yields (remove id) before answer after) :
    (before.parentOf id = none ∧ ∀ other, after.kindAt other = before.kindAt other) ∨
      ∃ parent kind changed, before.parentOf id = some parent ∧
        before.kindAt parent = some kind ∧ Kind.Exchanged id none kind changed ∧
        ∀ other, after.kindAt other =
          if other = parent then some changed else before.kindAt other := by
  simp only [remove, yields_bind, yields_look, node_eq_ok] at run
  obtain ⟨node, _, ⟨found, rfl⟩, run⟩ := run
  cases named : node.parent? with
  | none =>
    simp only [named, yields_bind, yields_modify, yields_pure] at run
    obtain ⟨_, _, rfl, _, _, detached, _, rfl⟩ := run
    exact .inl ⟨(parentOf_eq found).trans named,
      fun other => (kindAt_detach detached other).trans rfl⟩
  | some parent =>
    rw [← parentOf_eq found] at named
    rw [← parentOf_eq found] at run
    simp only [named, yields_bind, yields_look, yields_ite, yields_pure] at run
    obtain ⟨_, _, ⟨_, rfl⟩, run⟩ := run
    right
    rcases run with
      ⟨_, position, _, ⟨_, rfl⟩, _, _, changing, _, _, releasing, _, _, detached, _, rfl⟩ |
      ⟨_, _, _, rebinding, _, _, detached, _, rfl⟩
    · obtain ⟨holds, elements, known, kinds⟩ := kindAt_changeElements changing
      refine ⟨parent, _, _, named, known, .erased position, fun other => ?_⟩
      rw [kindAt_detach detached, kindAt_setParent releasing, kinds]
    · obtain ⟨kind, changed, known, exchanged, kinds⟩ := kindAt_rebindSlot rebinding
      refine ⟨parent, kind, changed, named, known, exchanged, fun other => ?_⟩
      rw [kindAt_detach detached, kinds]

/-- A replacement changes the kind of the holder only. -/
theorem kindAt_replace (run : Yields (replace old new) before answer after) :
    ∃ parent kind changed, before.parentOf old = some parent ∧
      before.kindAt parent = some kind ∧ Kind.Exchanged old (some new) kind changed ∧
      ∀ other, after.kindAt other =
        if other = parent then some changed else before.kindAt other := by
  simp only [replace, yields_bind, yields_look, yields_checkInsertable, node_eq_ok] at run
  obtain ⟨_, _, ⟨rfl, _⟩, node, _, ⟨found, rfl⟩, run⟩ := run
  cases named : node.parent? with
  | none =>
    simp only [named] at run
    exact (yields_fail run).elim
  | some parent =>
    rw [← parentOf_eq found] at named
    rw [← parentOf_eq found] at run
    simp only [named, yields_bind, yields_look, yields_ite, yields_pure] at run
    obtain ⟨_, _, ⟨_, rfl⟩, run⟩ := run
    rcases run with
      ⟨_, position, _, ⟨_, rfl⟩, _, _, changing, _, _, releasing, _, _, claiming, _, _, detached,
        _, _, attached, _, rfl⟩ |
      ⟨_, _, _, rebinding, _, _, detached, _, _, attached, _, rfl⟩
    · obtain ⟨holds, elements, known, kinds⟩ := kindAt_changeElements changing
      refine ⟨parent, _, _, named, known, .set position new, fun other => ?_⟩
      rw [kindAt_attach attached, kindAt_detach detached, kindAt_setParent claiming,
        kindAt_setParent releasing, kinds]
    · obtain ⟨kind, changed, known, exchanged, kinds⟩ := kindAt_rebindSlot rebinding
      refine ⟨parent, kind, changed, named, known, exchanged, fun other => ?_⟩
      rw [kindAt_attach attached, kindAt_detach detached, kinds]

theorem kindAt_addModule (run : Yields (addModule id) before done after) (other : NodeId) :
    after.kindAt other = before.kindAt other := by
  simp only [addModule, yields_bind, yields_look, yields_ite, yields_fail, yields_checkInsertable,
    yields_modify] at run
  obtain ⟨_, _, ⟨_, rfl⟩, ⟨_, _, _, never, _⟩ | ⟨_, _, _, ⟨rfl, _⟩, _, _, rfl, attached⟩⟩ := run
  · exact never.elim
  · exact (kindAt_attach attached other).trans rfl

/-- What goes into a list of statements is no bare expression. -/
theorem notExpr_asStmt (run : Yields (asStmt id) before answer after) :
    ¬ (after.kindAt answer).any Kind.isExpr := by
  simp only [asStmt, newExprStmt, yields_bind, yields_look, yields_ite, yields_pure,
    kindOf_eq_ok] at run
  obtain ⟨kind, _, ⟨known, rfl⟩, ⟨_, _, _, created, _, _, adoption, rfl, rfl⟩ |
    ⟨notExpr, rfl, rfl⟩⟩ := run
  · obtain ⟨rfl, pushed⟩ := pushed_withLocationOf created
    rw [(adopted adoption).kindAt, pushed.kindAt]
    simp [Kind.isExpr]
  · simpa [known] using notExpr

end Edit

/-! ## Insertion -/

namespace Listwise

variable {kept : Program → Prop} (listwise : Listwise kept)
include listwise

theorem change {f : Array NodeId → Array NodeId} {holds : ListCategory} {elements : Array NodeId}
    (start : kept before) (known : before.kindAt list = some (.list holds elements))
    (members : ∀ id ∈ f elements,
      id ∈ elements ∨ (holds = .stmts → ¬ (before.kindAt id).any Kind.isExpr))
    (run : Yields (changeElements list f) before done after) : kept after := by
  obtain ⟨_, _, knownAgain, kinds⟩ := kindAt_changeElements run
  obtain ⟨rfl, rfl⟩ : holds = _ ∧ elements = _ := by simpa using known.symm.trans knownAgain
  exact listwise.elements start known members kinds

theorem asElement {holds : ListCategory} (start : kept before)
    (issued : (before.get? new).isSome) (run : Yields (asElement holds new) before answer after) :
    kept after ∧ (holds = .stmts → ¬ (after.kindAt answer).any Kind.isExpr) := by
  constructor
  · cases Edit.wrapped run issued with
    | bare => exact start
    | wrapped grown => exact listwise.wrapped start grown
  · rintro rfl
    exact notExpr_asStmt run

theorem insertElement {position : Nat} (start : kept before) (issued : (before.get? new).isSome)
    (run : Yields (insertElement list position new) before answer after) : kept after := by
  simp only [Edit.insertElement, yields_bind, yields_look, yields_ite, yields_throw,
    yields_pure] at run
  obtain ⟨⟨holds, elements⟩, _, ⟨known, rfl⟩, linked, middle, wrapping, run⟩ := run
  rcases run with ⟨_, _, _, never, _⟩ |
    ⟨inBounds, _, _, changing, _, _, claiming, _, _, ⟨_, rfl⟩, _, _, attached, rfl, rfl⟩
  · exact never.elim
  · obtain ⟨keptMiddle, notExpr⟩ := listwise.asElement start issued wrapping
    have knownMiddle := (Edit.wrapped wrapping issued).kindAt (list_eq_ok.mp known)
    have placed : position ≤ elements.size := Nat.le_of_not_lt inBounds
    have members : ∀ id ∈ elements.insertIdxIfInBounds position answer,
        id ∈ elements ∨ (holds = .stmts → ¬ (middle.kindAt id).any Kind.isExpr) := by
      intro id member
      rw [Array.insertIdxIfInBounds, dif_pos placed, Array.mem_insertIdx] at member
      rcases member with rfl | earlier
      · exact .inr notExpr
      · exact .inl earlier
    have keptChanged := listwise.change keptMiddle knownMiddle members changing
    exact listwise.of_kinds (listwise.of_kinds keptChanged (kindAt_setParent claiming))
      (kindAt_attach attached)

/-- A list that is inserted is emptied, and its elements are inserted one by one. -/
theorem spliceWithin {depth position : Nat} :
    Maintains kept (Edit.spliceWithin depth list position new) fun _ => True := by
  induction depth generalizing position new with
  | zero => exact .throw
  | succ depth ih =>
    intro before answer after start run
    simp only [Edit.spliceWithin, yields_bind, yields_checkInsertable, yields_look, yields_ite,
      yields_pure] at run
    obtain ⟨_, _, ⟨rfl, issued, _⟩, _, _, ⟨_, rfl⟩, run⟩ := run
    rcases run with ⟨_, elements, _, ⟨_, rfl⟩, _, _, clearing, _, _, loop, rfl, rfl⟩ | ⟨_, run⟩
    · obtain ⟨holds, _, known, _⟩ := kindAt_changeElements clearing
      have keptCleared := listwise.change start known (by simp) clearing
      have each : Maintains kept (elements.toList.zipIdx.forM fun item => do
          setParent item.1 none
          let _ ← Edit.spliceWithin depth list (position + item.2) item.1) fun _ => True := by
        refine .forM fun item _ => ?_
        have released : Maintains kept (setParent item.1 none) fun _ => True :=
          fun _ _ _ start run => ⟨listwise.of_kinds start (kindAt_setParent run), trivial⟩
        exact released.bind fun _ _ => ih.bind fun _ _ => .pure trivial
      exact each _ _ _ keptCleared loop
    · exact ⟨listwise.insertElement start issued run, trivial⟩

theorem splice {position : Nat} :
    Maintains kept (Edit.splice list position new) fun _ => True :=
  Maintains.get.bind fun _ _ => listwise.spliceWithin

theorem insertBeside {side : Side} {anchor : NodeId} :
    Maintains kept (Edit.insertBeside side anchor new) fun _ => True := by
  refine Maintains.look_any.bind fun (list, position) _ => ?_
  cases side with
  | before => exact listwise.splice
  | after => exact listwise.splice

theorem insertAtEnd {listEnd : ListEnd} :
    Maintains kept (Edit.insertAtEnd listEnd list new) fun _ => True := by
  refine Maintains.look_any.bind fun kind _ => ?_
  cases kind with
  | list holds elements =>
    cases listEnd with
    | head => exact listwise.splice
    | tail => exact listwise.splice
  | _ => exact .fail

end Listwise

end ProgramTree
