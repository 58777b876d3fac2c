import ProgramTree.Outlining
import ProgramTree.Proofs.Anchors
import ProgramTree.Proofs.DefinitionPoints
import ProgramTree.Proofs.Endings

/-!
# Moving a function to the end of its module

What is moved is the anchor of the definition.  That is the statement of the definition, if this
is an element of a list of statements.  If the definition is the branch of a conditional or the
body of a label, the whole statement around it is moved, and all that is in there goes along.
Nothing else is moved: every list keeps its other elements in their order, and every node outside
of what is moved stays in its function.
-/

namespace ProgramTree

open Program Edit Relation

variable {before between after program : Program}
  {id fn module definition moved list holder child sym : NodeId} {holds : ListCategory}
  {elements : Array NodeId} {position fuel : Nat} {kind : Kind}
  {turn : NodeId → SymbolKind → Ascent}

/-- `moved` was taken out of its list and put behind the elements of `list`. -/
structure Program.MovedToEnd (before : Program) (moved list : NodeId) (after : Program) :
    Prop where
  lists : ∀ {id holds elements}, before.kindAt id = some (.list holds elements) →
    after.kindAt id = some (.list holds
      (if id = list then (elements.erase moved).push moved else elements.erase moved))
  others : ∀ {id}, (before.kindAt id).map Kind.isList ≠ some true →
    after.kindAt id = before.kindAt id
  contexts : ∀ {id}, ¬ before.Contains moved id → after.contextOf id = before.contextOf id
  roots : after.roots = before.roots
  size : after.nodes.size = before.nodes.size

/-! ## Out of a list and into a list -/

namespace Edit

theorem eraseIdxIfInBounds_of_idxOf? (index : elements.idxOf? id = some position) :
    elements.eraseIdxIfInBounds position = elements.erase id := by
  obtain ⟨items⟩ := elements
  rw [List.idxOf?_toArray] at index
  apply Array.toList_inj.mp
  rw [Array.toList_eraseIdxIfInBounds, List.erase_toArray, List.erase_eq_eraseIdx, index]

/-- What a removal from a list does before it detaches the element. -/
theorem exists_relinked_remove (known : before.kindAt list = some (.list holds elements))
    (named : before.parentOf id = some list) (member : id ∈ elements) :
    ∃ relinked, Relinked before list [id] [] [] relinked ∧
      relinked.kindAt list = some (.list holds (elements.erase id)) ∧
      remove id before = (do detach id; return id : Edit NodeId) relinked := by
  obtain ⟨node, found, isParent⟩ := get?_of_parentOf named
  obtain ⟨position, index⟩ := exists_idxOf? member
  let changed := before.modifyNode list fun node =>
    { node with kind := node.kind.mapElements (·.eraseIdxIfInBounds position) }
  let released := changed.modifyNode id fun node => { node with parent? := none }
  have looked : Yields (look (·.node id)) before node before :=
    yields_look.mpr ⟨node_eq_ok.mpr found, rfl⟩
  have listed : Yields (look (·.isList list)) before true before :=
    yields_look.mpr ⟨isList_eq_ok.mpr (by rw [known]; rfl), rfl⟩
  have positioned : Yields (look (·.positionIn list id)) before position before :=
    yields_look.mpr ⟨positionIn_eq_ok.mpr ⟨holds, elements, known, index⟩, rfl⟩
  have changing : Yields (changeElements list (·.eraseIdxIfInBounds position)) before () changed :=
    yields_changeElements.mpr ⟨⟨holds, elements, known⟩, rfl⟩
  have releasing : Yields (setParent id none) changed () released :=
    yields_setParent.mpr ⟨by simp [changed, get?_modifyNode_map, found], rfl⟩
  refine ⟨released, relinked_erase known index, ?_, ?_⟩
  · obtain ⟨_, _, knownAgain, kinds⟩ := kindAt_changeElements changing
    obtain ⟨rfl, rfl⟩ := Kind.list.inj (Option.some.inj (known.symm.trans knownAgain))
    rw [kindAt_setParent releasing, kinds, if_pos rfl, eraseIdxIfInBounds_of_idxOf? index]
  · unfold remove
    rw [looked.run_bind]
    simp only [isParent]
    rw [listed.run_bind, if_pos rfl, positioned.run_bind, changing.run_bind, releasing.run_bind]

theorem asElement_of_stmt (holds : ListCategory) (isStmt : (before.kindAt id).any Kind.isStmt) :
    Yields (asElement holds id) before id before := by
  cases holds with
  | exprs | defs => exact yields_pure.mpr ⟨rfl, rfl⟩
  | stmts =>
    obtain ⟨kind, known, isStmt⟩ := (Option.any_eq_true _ _).mp isStmt
    simp only [asElement, asStmt, yields_bind, yields_look, yields_ite, yields_pure, kindOf_eq_ok]
    refine ⟨kind, before, ⟨known, rfl⟩, .inr ⟨?_, trivial, rfl⟩⟩
    cases kind <;> simp_all [Kind.isStmt, Kind.isExpr]

/-- What the insertion of a statement does before it attaches the statement. -/
theorem exists_relinked_insertStmt (known : before.kindAt list = some (.list holds elements))
    (inBounds : position ≤ elements.size) (isStmt : (before.kindAt id).any Kind.isStmt) :
    ∃ relinked context, Relinked before list [] [id] [] relinked ∧
      relinked.kindAt list = some (.list holds (elements.insertIdxIfInBounds position id)) ∧
      insertElement list position id before =
        (do attach id context; return id : Edit NodeId) relinked := by
  have issued : (before.get? id).isSome := Option.isSome_iff_ne_none.mpr (issued_of_any isStmt)
  let changed := before.modifyNode list fun node =>
    { node with kind := node.kind.mapElements (·.insertIdxIfInBounds position id) }
  let claimed := changed.modifyNode id fun node => { node with parent? := some list }
  have looked : Yields (look (·.list list)) before (holds, elements) before :=
    yields_look.mpr ⟨list_eq_ok.mpr known, rfl⟩
  have changing : Yields (changeElements list (·.insertIdxIfInBounds position id)) before ()
      changed := yields_changeElements.mpr ⟨⟨holds, elements, known⟩, rfl⟩
  have claiming : Yields (setParent id (some list)) changed () claimed :=
    yields_setParent.mpr ⟨by simpa [changed, get?_modifyNode_map] using issued, rfl⟩
  have relinked : Relinked before list [] [id] [] claimed := relinked_insert known inBounds issued
  have issuedList : (claimed.get? list).isSome := by
    rw [relinked.isSome]
    exact Option.isSome_iff_ne_none.mpr (issued_of_kindAt known)
  obtain ⟨context, handed⟩ := exists_childContext issuedList
  have asked : Yields (look (·.childContext list)) claimed context claimed :=
    yields_look.mpr ⟨handed, rfl⟩
  refine ⟨claimed, context, relinked, ?_, ?_⟩
  · obtain ⟨_, _, knownAgain, kinds⟩ := kindAt_changeElements changing
    obtain ⟨rfl, rfl⟩ := Kind.list.inj (Option.some.inj (known.symm.trans knownAgain))
    rw [kindAt_setParent claiming, kinds, if_pos rfl]
  · unfold insertElement
    rw [looked.run_bind]
    simp only
    rw [(asElement_of_stmt holds isStmt).run_bind, if_neg (Nat.not_lt.mpr inBounds),
      changing.run_bind, claiming.run_bind, asked.run_bind]

/-- A statement goes behind the elements of a list. -/
theorem insertAtTail_of_stmt (known : before.kindAt list = some (.list holds elements))
    (isStmt : (before.kindAt id).any Kind.isStmt) (unattached : before.Unattached id) :
    insertAtTail list id before = insertElement list elements.size id before := by
  have looked : Yields (look (·.kindOf list)) before (.list holds elements) before :=
    yields_look.mpr ⟨kindOf_eq_ok.mpr known, rfl⟩
  have single : (before.kindAt id).map Kind.isList = some false := by
    obtain ⟨kind, known, isStmt⟩ := (Option.any_eq_true _ _).mp isStmt
    cases kind <;> simp_all [Kind.isStmt, Kind.isList]
  unfold insertAtTail insertAtEnd
  rw [looked.run_bind]
  exact spliceWithin_of_single before.nodes.size elements.size list unattached single

end Edit

/-! ## What a move changes -/

namespace Program

/-- Programs in which the same nodes are there have the same size. -/
theorem size_eq_of_issued (issued : ∀ id, after.get? id = none ↔ before.get? id = none) :
    after.nodes.size = before.nodes.size := by
  apply Nat.le_antisymm
  · simpa [get?, nextId] using (issued before.nextId).mpr (get?_nextId before)
  · simpa [get?, nextId] using (issued after.nextId).mp (get?_nextId after)

/-- One list got other elements, and contexts changed below `top` only. -/
structure Relisted (before : Program) (top list : NodeId) (holds : ListCategory)
    (elements : Array NodeId) (after : Program) : Prop where
  kinds : ∀ id, after.kindAt id =
    if id = list then some (.list holds elements) else before.kindAt id
  contexts : ∀ {id}, ¬ before.Contains top id → after.contextOf id = before.contextOf id
  roots : after.roots = before.roots
  size : after.nodes.size = before.nodes.size

theorem Relinked.relisted {out into : List NodeId}
    (relinked : Relinked before list out into [] between) (outside : ¬ before.Contains id list)
    (known : between.kindAt list = some (.list holds elements)) (same : SameTree between after)
    (others : ∀ {other}, ¬ between.Contains id other → after.get? other = between.get? other) :
    Relisted before id list holds elements after where
  kinds other := by
    rw [same.kindAt]
    by_cases isList : other = list
    · rw [if_pos isList, isList, known]
    · rw [if_neg isList, relinked.kinds isList]
  contexts {other} apart := by
    rw [← contains_iff_of_holds relinked.holds_of_ne outside] at apart
    rw [contextOf, others apart, ← contextOf, relinked.contexts]
  roots := same.roots.trans relinked.roots
  size := same.size.trans (size_eq_of_issued fun _ => relinked.get?_eq_none)

section Relisted

variable (relisted : Relisted before moved list holds elements after)
include relisted

theorem Relisted.holds_of_ne (different : holder ≠ list) :
    after.Holds holder child ↔ before.Holds holder child := by
  rw [Holds, held, relisted.kinds, if_neg different, Holds, held]

theorem Relisted.others (isList : (before.kindAt list).map Kind.isList = some true)
    (noList : (before.kindAt id).map Kind.isList ≠ some true) :
    after.kindAt id = before.kindAt id := by
  rw [relisted.kinds, if_neg]
  rintro rfl
  exact noList isList

end Relisted

/-- The only list that held the node is the one that it was taken out of. -/
theorem Relisted.lists_of_erased (forest : Forest (fun _ => True) [] before)
    (isList : before.kindAt list = some (.list holds elements)) (held : before.Holds list moved)
    (relisted : Relisted before moved list holds (elements.erase moved) after)
    {category : ListCategory} {members : Array NodeId}
    (known : before.kindAt id = some (.list category members)) :
    after.kindAt id = some (.list category (members.erase moved)) := by
  rw [relisted.kinds]
  by_cases isHolder : id = list
  · subst isHolder
    obtain ⟨rfl, rfl⟩ := Kind.list.inj (Option.some.inj (known.symm.trans isList))
    rw [if_pos rfl]
  · have absent : moved ∉ members := by
      intro member
      apply isHolder
      apply forest.only_holder trivial trivial ?_ held
      rw [Holds, held_eq_of_kindAt known]
      exact Array.mem_toList_iff.mpr member
    rw [if_neg isHolder, known, Array.erase_of_not_mem absent]

/-- A node can be taken out of the list that it is an element of. -/
theorem exists_takenOut (wellFormed : WellFormed before)
    (known : before.kindAt list = some (.list holds elements))
    (named : before.parentOf id = some list) :
    ∃ after, Yields (remove id) before id after ∧
      Relisted before id list holds (elements.erase id) after ∧ after.Unattached id := by
  have orderly := wellFormed.orderly
  have held := (wellFormed.parent_iff list id).mpr named
  have outside := orderly.forest.not_contains_holder trivial held
  have member : id ∈ elements := by
    rw [Holds, held_eq_of_kindAt known] at held
    exact Array.mem_toList_iff.mp held
  obtain ⟨relinked, isRelinked, knownLater, same⟩ := exists_relinked_remove known named member
  obtain ⟨after, detaching⟩ := isRelinked.exists_detach orderly.forest (List.mem_singleton_self id)
  have gone := displaced detaching
  have run : Yields (remove id) before id after := by
    rw [Yields, same, detaching.run_bind]
    rfl
  have relisted := isRelinked.relisted outside knownLater gone.same gone.others
  have free : after.parentOf id = none := by
    rw [gone.same.parentOf]
    exact isRelinked.parent_out (by simp) (by simp) (by simp)
  refine ⟨after, run, relisted, ?_, free, ?_⟩
  · obtain ⟨node, found, _⟩ := get?_of_parentOf named
    rw [gone.same.isSome, isRelinked.isSome]
    simp [found]
  · have orderlyAfter := orderly.remove trivial run
    rw [orderlyAfter.isPlaced_iff trivial]
    apply orderlyAfter.rooted.not_reachable_of_free orderlyAfter.forest free
    intro root
    rw [relisted.roots] at root
    simp [orderly.rooted.free root] at named

/-- A statement can be put behind the elements of a list that it does not contain. -/
theorem exists_putLast (wellFormed : WellFormed before)
    (known : before.kindAt list = some (.list holds elements))
    (isStmt : (before.kindAt id).any Kind.isStmt) (unattached : before.Unattached id)
    (outside : ¬ before.Contains id list) :
    ∃ after, Yields (insertAtTail list id) before id after ∧
      Relisted before id list holds (elements.push id) after := by
  have forest := wellFormed.orderly.forest
  obtain ⟨relinked, context, isRelinked, knownLater, same⟩ :=
    exists_relinked_insertStmt known (Nat.le_refl elements.size) isStmt
  obtain ⟨after, attaching⟩ := isRelinked.exists_attach forest context
    (unattached.spare List.not_mem_nil) unattached.issued outside (.refl relinked)
  have attached := attachedBelow (yields_attach.mp attaching)
  rw [Array.insertIdxIfInBounds, dif_pos le_rfl, Array.insertIdx_size_self] at knownLater
  refine ⟨after, ?_, isRelinked.relisted outside knownLater attached.same attached.others⟩
  rw [Yields, insertAtTail_of_stmt known isStmt unattached, same, attaching.run_bind]
  rfl

/-- A statement can be moved to the end of a list that it does not contain. -/
theorem exists_movedToEnd {source : NodeId} {category : ListCategory} {sources : Array NodeId}
    (wellFormed : WellFormed before)
    (isSource : before.kindAt source = some (.list category sources))
    (named : before.parentOf moved = some source)
    (isList : before.kindAt list = some (.list holds elements))
    (isStmt : (before.kindAt moved).any Kind.isStmt) (outside : ¬ before.Contains moved list) :
    ∃ between after, Yields (remove moved) before moved between ∧
      Relisted before moved source category (sources.erase moved) between ∧
      Yields (insertAtTail list moved) between moved after ∧
      before.MovedToEnd moved list after ∧ WellFormed after := by
  have forest := wellFormed.orderly.forest
  have held := (wellFormed.parent_iff source moved).mpr named
  obtain ⟨between, removing, removed, unattached⟩ := exists_takenOut wellFormed isSource named
  have orderlyBetween := wellFormed.orderly.remove trivial removing
  have sameBelow : ∀ {id}, between.Contains moved id ↔ before.Contains moved id :=
    contains_iff_of_holds removed.holds_of_ne (forest.not_contains_holder trivial held)
  have sourceList : (before.kindAt source).map Kind.isList = some true := by
    rw [isSource]
    rfl
  have isListBetween := removed.lists_of_erased forest isSource held isList
  have stillStmt : (between.kindAt moved).any Kind.isStmt := by
    obtain ⟨kind, known, isKind⟩ := (Option.any_eq_true _ _).mp isStmt
    rw [removed.others sourceList, known]
    · exact isKind
    · cases kind <;> simp_all [Kind.isStmt, Kind.isList]
  obtain ⟨after, inserting, inserted⟩ := exists_putLast orderlyBetween.wellFormed isListBetween
    stillStmt unattached (mt sameBelow.mp outside)
  refine ⟨between, after, removing, removed, inserting, ⟨?_, ?_, ?_, ?_, ?_⟩,
    (orderlyBetween.insertAtEnd trivial trivial inserting).wellFormed⟩
  · intro id category members known
    rw [inserted.kinds]
    by_cases isTarget : id = list
    · subst isTarget
      obtain ⟨rfl, rfl⟩ := Kind.list.inj (Option.some.inj (known.symm.trans isList))
      simp
    · rw [if_neg isTarget, if_neg isTarget, removed.lists_of_erased forest isSource held known]
  · intro id noList
    have kept := removed.others sourceList noList
    rw [inserted.others (by rw [isListBetween]; rfl) (kept ▸ noList), kept]
  · intro id apart
    rw [inserted.contexts (mt sameBelow.mp apart), removed.contexts apart]
  · exact inserted.roots.trans removed.roots
  · exact inserted.size.trans removed.size

end Program

/-! ## Ascents -/

namespace Program

/-- Two ascents have the same answer if they go the same way from every node they come to. -/
theorem ascend_congr {passed : NodeId → Prop}
    (same : ∀ id, passed id → ∃ kind later, before.kindAt id = some kind ∧
      after.kindAt id = some later ∧ after.wayUp turn id later = before.wayUp turn id kind)
    (further : ∀ id kind above, passed id → before.kindAt id = some kind →
      before.wayUp turn id kind = .inr (some above) → passed above)
    (start : passed id) : after.ascend turn fuel id = before.ascend turn fuel id := by
  induction fuel generalizing id with
  | zero => rfl
  | succ fuel ih =>
    obtain ⟨kind, later, known, knownLater, alike⟩ := same id start
    rw [ascend_succ_eq known, ascend_succ_eq knownLater, alike]
    cases way : before.wayUp turn id kind with
    | inl owner? => rfl
    | inr above? =>
      cases above? with
      | none => rfl
      | some above => exact ih (further id kind above start known way)

/-- Only what is part of the tree has a symbol around it. -/
theorem WellFormed.nearest_of_context (wellFormed : WellFormed program)
    (around : (program.contextOf id).symbol? = some sym) :
    program.Reachable id ∧ program.Nearest Kind.isSymbol id sym := by
  have reachable : program.Reachable id := by
    by_contra unreachable
    simp [wellFormed.no_context id unreachable] at around
  exact ⟨reachable, (wellFormed.enclosing_symbol id sym reachable).mp around⟩

/-- An ascent goes on to a node above, and never comes to a type. -/
theorem above_of_wayUp {above : NodeId} (wellFormed : WellFormed program)
    (agree : program.DefinitionsAgree) (known : program.kindAt id = some kind)
    (noType : kind.isType = false) (way : program.wayUp turn id kind = .inr (some above)) :
    TransGen program.Holds above id ∧ ∃ kind, program.kindAt above = some kind ∧
      kind.isType = false := by
  have around : (program.contextOf id).symbol? = some above →
      TransGen program.Holds above id ∧ ∃ kind, program.kindAt above = some kind ∧
        kind.isType = false := by
    intro around
    obtain ⟨below, isSymbol⟩ := (wellFormed.nearest_of_context around).2.around
    obtain ⟨kind, known, isSymbol⟩ := (Option.any_eq_true _ _).mp isSymbol
    refine ⟨below, kind, known, ?_⟩
    cases kind <;> simp_all [Kind.isSymbol, Kind.symbol?, Kind.isType]
  cases kind with
  | symbol symbol =>
    have named : program.definitionOf id = some above := by
      simp only [wayUp] at way
      split at way
      · cases way
      · rw [definitionOf, known]
        exact Sum.inr.inj way
    have defines := (agree above id).mpr named
    obtain ⟨kind, knownAbove, isDefinition⟩ := Option.bind_eq_some_iff.mp defines
    refine ⟨.single (holds_of_definedBy defines), kind, knownAbove, ?_⟩
    cases kind <;> simp_all [Kind.defined?, Kind.isType]
  | type type => simp [Kind.isType] at noType
  | _ => exact around (Sum.inr.inj way)

/-- The owning module contains the node. -/
theorem contains_of_owningModule (wellFormed : WellFormed program)
    (agree : program.DefinitionsAgree) (known : program.kindAt id = some kind)
    (noType : kind.isType = false)
    (looked : program.ascend owningModule.turn fuel id = .ok (some module)) :
    program.Contains module id := by
  induction fuel generalizing id kind with
  | zero => simp [ascend, Fault.pure_eq_ok] at looked
  | succ fuel ih =>
    rw [ascend_succ_eq known] at looked
    cases way : program.wayUp owningModule.turn id kind with
    | inl owner? =>
      rw [way] at looked
      obtain rfl : owner? = some module := Except.ok.inj looked
      obtain ⟨rfl, _⟩ := isModule_of_wayUp way
      exact .refl
    | inr above? =>
      rw [way] at looked
      cases above? with
      | none => cases looked
      | some above =>
        obtain ⟨below, kind, knownAbove, noType⟩ :=
          above_of_wayUp wellFormed agree known noType way
        exact (ih knownAbove noType looked).trans below.to_reflTransGen

end Program

/-! ## Moving a function -/

theorem Program.exists_symbol_of_definitionOf
    (defined : program.definitionOf fn = some definition) :
    ∃ symbol, program.kindAt fn = some (.symbol symbol) ∧ symbol.defPoint? = some definition := by
  obtain ⟨kind, known, defined⟩ := Option.bind_eq_some_iff.mp defined
  cases kind with
  | symbol symbol => exact ⟨symbol, known, defined⟩
  | _ => cases defined

/-- The module that a symbol belongs to contains its definition, unless it is the symbol. -/
theorem Program.contains_of_expectModule (wellFormed : WellFormed program)
    (agree : program.DefinitionsAgree) (isModule : program.expectModule fn = .ok module)
    (notModule : ¬ (program.kindAt fn).any Kind.isModule)
    (defined : program.definitionOf fn = some definition) :
    program.Contains module definition := by
  have forest := wellFormed.orderly.forest
  obtain ⟨symbol, isSymbol, _⟩ := exists_symbol_of_definitionOf defined
  have contained : program.Contains module fn :=
    contains_of_owningModule wellFormed agree isSymbol rfl (expectModule_eq_ok.mp isModule)
  have different : fn ≠ module := by
    rintro rfl
    exact notModule (isModule_of_expectModule isModule)
  obtain ⟨holder, above, holds⟩ := exists_holder_of_contains contained different
  have holdsDefined := holds_of_definedBy ((agree definition fn).mpr defined)
  obtain rfl := forest.only_holder trivial trivial holds holdsDefined
  exact above

/-- Below a module all is below the list of its body, but for the list and its block. -/
theorem Program.below_body (isBody : program.moduleBodyList module = .ok list)
    (isStmtList : program.IsStmtList list) (isExpr : (program.kindAt id).any Kind.isExpr)
    (contained : program.Contains module id) :
    TransGen program.Holds list id := by
  obtain ⟨block, initFn?, tag, ⟨symbol, isSymbol, form⟩, isBlock⟩ :=
    moduleBodyList_eq_ok.mp isBody
  rw [blockBody_eq_ok] at isBlock
  rcases contained.cases_head with rfl | ⟨child, holds, below⟩
  · simp [isSymbol, Kind.isExpr] at isExpr
  · obtain rfl : child = block := by
      simpa [Holds, held_eq_of_kindAt isSymbol, Kind.owned, form, SymbolKind.owned] using holds
    rcases below.cases_head with rfl | ⟨child, holds, below⟩
    · simp [isBlock, Kind.isExpr] at isExpr
    · obtain rfl : child = list := by
        simpa [Holds, held_eq_of_kindAt isBlock, Kind.owned, Stmt.owned] using holds
      rcases reflTransGen_iff_eq_or_transGen.mp below with rfl | strict
      · obtain ⟨elements, isList⟩ := isStmtList.exists_elements
        simp [isList, Kind.isExpr] at isExpr
      · exact strict

/-- Where the body of the module is a list of statements, the anchor of a definition in the
module does not contain it. -/
theorem Program.not_contains_body (wellFormed : WellFormed program)
    (agree : program.DefinitionsAgree) (isModule : program.expectModule fn = .ok module)
    (isBody : program.moduleBodyList module = .ok list) (isStmtList : program.IsStmtList list)
    (notModule : ¬ (program.kindAt fn).any Kind.isModule)
    (defined : program.definitionOf fn = some definition)
    (anchors : program.Anchors moved definition) : ¬ program.Contains moved list := by
  have forest := wellFormed.orderly.forest
  have inModule := contains_of_expectModule wellFormed agree isModule notModule defined
  have below : TransGen program.Holds list definition := by
    obtain ⟨kind, isDefinition, defines⟩ :=
      Option.bind_eq_some_iff.mp ((agree definition fn).mpr defined)
    apply below_body isBody isStmtList ?_ inModule
    cases kind <;> simp_all [Kind.defined?, Kind.isExpr]
  intro contained
  exact (forest.grounded trivial).not_below_itself
    ((anchors.below_list forest isStmtList below).trans_left contained)

/-- The anchor of its definition is what moves to the end of the module of a function. -/
theorem exists_flatten (wellFormed : WellFormed before) (agree : before.DefinitionsAgree)
    (isModule : before.expectModule fn = .ok module)
    (isBody : before.moduleBodyList module = .ok list) (isBodyList : before.IsStmtList list)
    (notModule : ¬ (before.kindAt fn).any Kind.isModule)
    (defined : before.definitionOf fn = some definition)
    (anchors : before.Anchors moved definition) (isStmt : (before.kindAt moved).any Kind.isStmt) :
    ∃ after, Yields (flatten fn) before () after ∧ before.MovedToEnd moved list after ∧
      WellFormed after := by
  have forest := wellFormed.orderly.forest
  have outside :=
    not_contains_body wellFormed agree isModule isBody isBodyList notModule defined anchors
  obtain ⟨elements, isList⟩ := isBodyList.exists_elements
  obtain ⟨_, source, isStmtList, held⟩ := anchors.stands forest
  obtain ⟨sources, isSource⟩ := isStmtList.exists_elements
  have named := (wellFormed.parent_iff source moved).mp held
  obtain ⟨between, after, removing, removed, inserting, movedToEnd, wellFormedAfter⟩ :=
    exists_movedToEnd wellFormed isSource named isList isStmt outside
  obtain ⟨symbol, isSymbol, defPoint⟩ := exists_symbol_of_definitionOf defined
  -- no list is in the way from the module to its body
  have stillBody : between.moduleBodyList module = .ok list := by
    obtain ⟨block, initFn?, tag, ⟨moduleSymbol, knownModule, isModuleSymbol⟩, isBlock⟩ :=
      moduleBodyList_eq_ok.mp isBody
    have knownBlock := blockBody_eq_ok.mp isBlock
    refine moduleBodyList_eq_ok.mpr
      ⟨block, initFn?, tag, ⟨moduleSymbol, ?_, isModuleSymbol⟩, blockBody_eq_ok.mpr ?_⟩
    · rw [removed.kinds, if_neg, knownModule]
      rintro rfl
      simp [isSource] at knownModule
    · rw [removed.kinds, if_neg, knownBlock]
      rintro rfl
      simp [isSource] at knownBlock
  refine ⟨after, ?_, movedToEnd, wellFormedAfter⟩
  simp only [flatten, yields_bind, yields_look]
  refine ⟨module, before, ⟨isModule, rfl⟩, symbol, before, ⟨symbol_eq_ok.mpr isSymbol, rfl⟩, ?_⟩
  simp only [defPoint, yields_bind, yields_look, yields_pure]
  exact ⟨some moved, before, ⟨(enclosingStmt_eq_ok forest).mpr anchors, rfl⟩, moved, between,
    removing, list, between, ⟨stillBody, rfl⟩, moved, after, inserting, trivial, rfl⟩

/-! ## Who a node belongs to after the move -/

namespace Program

/-- The symbol around the list of the body is the module. -/
theorem symbol_of_body (wellFormed : WellFormed program)
    (isBody : program.moduleBodyList module = .ok list) (reachable : program.Reachable module) :
    (program.contextOf list).symbol? = some module := by
  obtain ⟨block, initFn?, tag, ⟨symbol, isSymbol, form⟩, isBlock⟩ :=
    moduleBodyList_eq_ok.mp isBody
  rw [blockBody_eq_ok] at isBlock
  have holdsBlock : program.Holds module block := by
    simp [Holds, held_eq_of_kindAt isSymbol, Kind.owned, form, SymbolKind.owned]
  have holdsList : program.Holds block list := by
    simp [Holds, held_eq_of_kindAt isBlock, Kind.owned, Stmt.owned]
  apply (wellFormed.enclosing_symbol _ _ ((reachable.holds holdsBlock).holds holdsList)).mpr
  apply Nearest.above holdsList
  · simp [isBlock, Kind.isSymbol, Kind.symbol?]
  · exact .here holdsBlock (by simp [isSymbol, Kind.isSymbol, Kind.symbol?])

namespace MovedToEnd

variable (movedToEnd : before.MovedToEnd moved list after)
include movedToEnd

/-- A node outside of what is moved belongs to what it belonged to. -/
theorem ascend_eq (wellFormed : WellFormed before) (agree : before.DefinitionsAgree)
    (known : before.kindAt id = some kind) (noType : kind.isType = false)
    (outside : ¬ before.Contains moved id) :
    after.ascend turn fuel id = before.ascend turn fuel id := by
  let Passed : NodeId → Prop := fun id =>
    (∃ kind, before.kindAt id = some kind ∧ kind.isType = false) ∧ ¬ before.Contains moved id
  have start : Passed id := ⟨⟨kind, known, noType⟩, outside⟩
  refine ascend_congr (fun id passed => ?_) (fun id kind above passed known way => ?_) start
  · obtain ⟨⟨kind, known, noType⟩, outside⟩ := passed
    have contexts := movedToEnd.contexts outside
    cases kind with
    | list holds elements =>
      exact ⟨_, _, known, movedToEnd.lists known, by simp [wayUp, contexts]⟩
    | _ =>
      refine ⟨_, _, known, (movedToEnd.others ?_).trans known, by simp [wayUp, contexts]⟩
      simp [known, Kind.isList]
  · obtain ⟨⟨_, knownAgain, noType⟩, outside⟩ := passed
    obtain rfl := Option.some.inj (known.symm.trans knownAgain)
    obtain ⟨above, isKind⟩ := above_of_wayUp wellFormed agree known noType way
    exact ⟨isKind, fun inside => outside (inside.trans above.to_reflTransGen)⟩

/-- A node outside of what is moved stays in its function. -/
theorem owningFunction_eq (wellFormed : WellFormed before) (agree : before.DefinitionsAgree)
    (known : before.kindAt id = some kind) (noType : kind.isType = false)
    (outside : ¬ before.Contains moved id) :
    after.owningFunction id = before.owningFunction id := by
  rw [owningFunction, owningFunction, ascentBound, ascentBound, movedToEnd.size]
  exact movedToEnd.ascend_eq wellFormed agree known noType outside

theorem holds_of_ne (different : child ≠ moved) :
    after.Holds holder child ↔ before.Holds holder child := by
  cases known : before.kindAt holder with
  | none => simp [Holds, held, movedToEnd.others, known]
  | some kind =>
    cases kind with
    | list holds elements =>
      obtain ⟨items⟩ := elements
      rw [Holds, held_eq_of_kindAt (movedToEnd.lists known), Holds, held_eq_of_kindAt known]
      by_cases isTarget : holder = list
      · simp [isTarget, Kind.owned, List.mem_erase_of_ne different, different]
      · simp [isTarget, Kind.owned, List.mem_erase_of_ne different]
    | _ =>
      rw [Holds, held, movedToEnd.others (by simp [known, Kind.isList]), Holds, held]

/-- What is moved ends up as the last element of the list. -/
theorem last (isList : before.kindAt list = some (.list holds elements)) :
    after.kindAt list = some (.list holds ((elements.erase moved).push moved)) := by
  rw [movedToEnd.lists isList, if_pos rfl]

theorem isSymbol : (after.kindAt id).any Kind.isSymbol = (before.kindAt id).any Kind.isSymbol := by
  cases known : before.kindAt id with
  | none => rw [movedToEnd.others (by simp [known]), known]
  | some kind =>
    cases kind with
    | list holds elements => rw [movedToEnd.lists known]; rfl
    | _ => rw [movedToEnd.others (by simp [known, Kind.isList]), known]

theorem contains_outside (contained : before.Contains holder id)
    (outside : ¬ before.Contains moved id) : after.Contains holder id := by
  induction contained using ReflTransGen.head_induction_on with
  | refl => exact .refl
  | head holds below ih =>
    apply ih.head
    apply (movedToEnd.holds_of_ne ?_).mpr holds
    rintro rfl
    exact outside below

theorem contains_inside (wellFormed : WellFormed before) (inside : before.Contains moved id) :
    after.Contains moved id := by
  induction inside with
  | refl => exact .refl
  | tail above holds ih =>
    apply ih.tail
    apply (movedToEnd.holds_of_ne ?_).mpr holds
    rintro rfl
    exact wellFormed.acyclic _ (TransGen.tail' above holds)

theorem holder_inside (wellFormed : WellFormed before) (inside : before.Contains moved id)
    (holds : before.Holds holder id) :
    before.Contains moved holder ∧ after.Holds holder id ∨
      id = moved ∧ ¬ before.Contains moved holder := by
  have forest := wellFormed.orderly.forest
  by_cases isTop : id = moved
  · subst isTop
    exact .inr ⟨rfl, forest.not_contains_holder trivial holds⟩
  · obtain ⟨other, above, holdsId⟩ := exists_holder_of_contains inside isTop
    obtain rfl := forest.only_holder trivial trivial holds holdsId
    exact .inl ⟨above, (movedToEnd.holds_of_ne isTop).mpr holds⟩

/-- A symbol around a node that is moved along stays around it if it is moved along itself.
Otherwise what is around the moved node comes to be around the other one. -/
theorem nearest_inside (wellFormed : WellFormed before) (inside : before.Contains moved id)
    (nearest : before.Nearest Kind.isSymbol id sym) :
    before.Contains moved sym ∧ after.Nearest Kind.isSymbol id sym ∨
      ¬ before.Contains moved sym ∧ ∀ {found}, after.Nearest Kind.isSymbol moved found →
        after.Nearest Kind.isSymbol id found := by
  induction nearest with
  | here holds isSymbol =>
    rcases movedToEnd.holder_inside wellFormed inside holds with
      ⟨above, stillHolds⟩ | ⟨rfl, apart⟩
    · exact .inl ⟨above, .here stillHolds (movedToEnd.isSymbol.trans isSymbol)⟩
    · exact .inr ⟨apart, fun nearest => nearest⟩
  | above holds noSymbol further ih =>
    rcases movedToEnd.holder_inside wellFormed inside holds with
      ⟨above, stillHolds⟩ | ⟨rfl, apart⟩
    · rw [← movedToEnd.isSymbol] at noSymbol
      rcases ih above with ⟨along, nearest⟩ | ⟨apart, further⟩
      · exact .inl ⟨along, .above stillHolds noSymbol nearest⟩
      · exact .inr ⟨apart, fun nearest => .above stillHolds noSymbol (further nearest)⟩
    · refine .inr ⟨fun along => apart ?_, fun nearest => nearest⟩
      exact along.trans further.around.1.to_reflTransGen

/-- The symbol around a node that is moved along is moved along, or it gives way to the module. -/
theorem symbol_inside (wellFormed : WellFormed before) (wellFormedAfter : WellFormed after)
    (isList : before.kindAt list = some (.list holds elements))
    (outside : ¬ before.Contains moved list)
    (home : (before.contextOf list).symbol? = some module)
    (inside : before.Contains moved id) (around : (before.contextOf id).symbol? = some sym) :
    before.Contains moved sym ∧ (after.contextOf id).symbol? = some sym ∨
      ¬ before.Contains moved sym ∧ (after.contextOf id).symbol? = some module := by
  have holdsMoved : after.Holds list moved := by
    rw [Holds, held_eq_of_kindAt (movedToEnd.last isList)]
    simp [Kind.owned]
  have reachableList : after.Reachable list := by
    obtain ⟨root, member, contained⟩ := (wellFormed.nearest_of_context home).1
    exact ⟨root, movedToEnd.roots ▸ member, movedToEnd.contains_outside contained outside⟩
  have reachable : after.Reachable id :=
    (reachableList.holds holdsMoved).contains (movedToEnd.contains_inside wellFormed inside)
  have homeLater : after.Nearest Kind.isSymbol moved module := by
    rw [← movedToEnd.contexts outside] at home
    have noSymbol : ¬ (after.kindAt list).any Kind.isSymbol := by
      simp [movedToEnd.last isList, Kind.isSymbol, Kind.symbol?]
    exact .above holdsMoved noSymbol (wellFormedAfter.nearest_of_context home).2
  have nearest := (wellFormed.nearest_of_context around).2
  rcases movedToEnd.nearest_inside wellFormed inside nearest with
    ⟨along, nearest⟩ | ⟨apart, further⟩
  · exact .inl ⟨along, (wellFormedAfter.enclosing_symbol id sym reachable).mpr nearest⟩
  · exact .inr ⟨apart,
      (wellFormedAfter.enclosing_symbol id module reachable).mpr (further homeLater)⟩

end MovedToEnd

/-- When a function is moved, all that is not in the anchor of its definition stays in its
function, and what is in there without a symbol of its own comes to belong to the module. -/
theorem exists_flatten_owners (wellFormed : WellFormed before) (agree : before.DefinitionsAgree)
    (isModule : before.expectModule fn = .ok module) (reachable : before.Reachable module)
    (isBody : before.moduleBodyList module = .ok list) (isBodyList : before.IsStmtList list)
    (notModule : ¬ (before.kindAt fn).any Kind.isModule)
    (defined : before.definitionOf fn = some definition)
    (anchors : before.Anchors moved definition) (isStmt : (before.kindAt moved).any Kind.isStmt) :
    ∃ after, Yields (flatten fn) before () after ∧
      (∀ id kind, before.kindAt id = some kind → kind.isType = false →
        ¬ before.Contains moved id → after.owningFunction id = before.owningFunction id) ∧
      ∀ id sym, before.Contains moved id → (before.contextOf id).symbol? = some sym →
        ¬ before.Contains moved sym → (after.contextOf id).symbol? = some module := by
  obtain ⟨after, run, movedToEnd, wellFormedAfter⟩ := exists_flatten wellFormed agree isModule
    isBody isBodyList notModule defined anchors isStmt
  obtain ⟨elements, isList⟩ := isBodyList.exists_elements
  have outside :=
    not_contains_body wellFormed agree isModule isBody isBodyList notModule defined anchors
  refine ⟨after, run, ?_, ?_⟩
  · exact fun id kind known noType apart =>
      movedToEnd.owningFunction_eq wellFormed agree known noType apart
  · intro id sym inside around apart
    have either := movedToEnd.symbol_inside wellFormed wellFormedAfter isList outside
      (symbol_of_body wellFormed isBody reachable) inside around
    exact (either.resolve_left fun along => apart along.1).2

end Program

end ProgramTree
