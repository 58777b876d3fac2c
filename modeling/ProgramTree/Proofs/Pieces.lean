import ProgramTree.Edit.Declaring
import ProgramTree.Proofs.Construction
import ProgramTree.Proofs.Fragments
import ProgramTree.Proofs.Islands
import ProgramTree.Proofs.Placing

/-!
# Building from pieces

What is built beside the tree is put together from pieces, which are new nodes that hang
nowhere.  A builder takes its pieces from those that lie around, and what it makes of them is
a piece again.  A builder that finds its pieces ends well.
-/

namespace ProgramTree

open Program Edit

/-- The edit ends well, with an answer and a program that are as wanted. -/
def Edit.Ends {α : Type} (edit : Edit α) (before : Program) (wanted : α → Program → Prop) : Prop :=
  ∃ answer after, Yields edit before answer after ∧ wanted answer after

namespace Edit.Ends

variable {α β : Type} {before : Program} {wanted : α → Program → Prop}

theorem pure {given : α} (holds : wanted given before) : Ends (pure given) before wanted :=
  ⟨given, before, yields_pure.mpr ⟨rfl, rfl⟩, holds⟩

theorem bind {first : Edit β} {next : β → Edit α} {middle : β → Program → Prop}
    (ends : Ends first before middle)
    (goesOn : ∀ answer between, Yields first before answer between → middle answer between →
      Ends (next answer) between wanted) :
    Ends (first >>= next) before wanted := by
  obtain ⟨given, between, run, holds⟩ := ends
  obtain ⟨answer, after, further, isWanted⟩ := goesOn given between run holds
  exact ⟨answer, after, yields_bind.mpr ⟨given, between, run, further⟩, isWanted⟩

theorem look_bind {query : Program → Except Fault β} {next : β → Edit α} (answer : β)
    (isAnswer : query before = .ok answer) (goesOn : Ends (next answer) before wanted) :
    Ends (look query >>= next) before wanted := by
  obtain ⟨given, after, run, holds⟩ := goesOn
  exact ⟨given, after, yields_bind.mpr ⟨_, _, yields_look.mpr ⟨isAnswer, rfl⟩, run⟩, holds⟩

theorem mono {more : α → Program → Prop} (ends : Ends edit before wanted)
    (weaker : ∀ answer after, Yields edit before answer after → wanted answer after →
      more answer after) :
    Ends edit before more := by
  obtain ⟨answer, after, run, holds⟩ := ends
  exact ⟨answer, after, run, weaker answer after run holds⟩

/-- What holds of the answers so far and the items that are left is carried from item to item. -/
theorem mapM {edit : β → Edit α} (kept : List α → List β → Program → Prop) {items : List β}
    {done : List α} (start : kept done items before)
    (each : ∀ program done item rest, kept done (item :: rest) program →
      Ends (edit item) program fun answer later => kept (done ++ [answer]) rest later) :
    Ends (items.mapM edit) before fun answers after => kept (done ++ answers) [] after := by
  induction items generalizing before done with
  | nil => exact .pure (by simpa using start)
  | cons item rest ih =>
    rw [List.mapM_cons]
    refine (each before done item rest start).bind fun answer between _ holds => ?_
    refine (ih holds).bind fun answers after _ holdsAll => .pure ?_
    rwa [List.append_assoc] at holdsAll

end Edit.Ends

namespace Program

/-- The program extends a well-formed one, and these are distinct new nodes that hang nowhere. -/
structure Pieces (origin : Program) (ids : List NodeId) (program : Program) : Prop where
  wellFormed : WellFormed origin
  extended : Extends origin program
  distinct : ids.Nodup
  new : ∀ id ∈ ids, origin.New id
  unattached : ∀ id ∈ ids, program.Unattached id

/-- What an operand takes from the pieces: a symbol is used, anything else is taken. -/
def spent (program : Program) (id : NodeId) : List NodeId :=
  if (program.kindAt id).any Kind.isSymbol then [] else [id]

variable {origin before between after : Program} {id sym answer : NodeId} {ids left : List NodeId}
  {kind : Kind}

theorem contextOf_setKind {other : NodeId} :
    (before.modifyNode id fun node => { node with kind }).contextOf other =
      before.contextOf other := by
  rw [contextOf, get?_modifyNode, contextOf]
  split
  · cases before.get? other <;> rfl
  · rfl

theorem spent_of_isSymbol (symbol : (before.kindAt id).any Kind.isSymbol) :
    before.spent id = [] :=
  if_pos symbol

theorem spent_of_isExpr (expr : (before.kindAt id).any Kind.isExpr) : before.spent id = [id] :=
  if_neg (not_isSymbol_of_isExpr expr)

theorem spent_eq_of_since (since : Since before after) (issued : (before.get? id).isSome) :
    after.spent id = before.spent id := by
  obtain ⟨node, found⟩ := Option.isSome_iff_exists.mp issued
  obtain ⟨later, known, outlives⟩ := since id node.kind (kindAt_eq found)
  simp only [spent, known, kindAt_eq found, Option.any_some, outlives.isSymbol]

theorem Unattached.of_same (same : after.get? id = before.get? id)
    (roots : after.roots = before.roots) (unattached : before.Unattached id) :
    after.Unattached id := by
  obtain ⟨issued, free, notPlaced⟩ := unattached
  refine ⟨same ▸ issued, by rw [parentOf, same, ← parentOf, free], ?_⟩
  rwa [IsPlaced, contextOf, same, roots]

/-- The roots of a well-formed program are there, so a new node is no root. -/
theorem unattached_of_new (wellFormed : WellFormed origin) (new : origin.New id)
    (roots : after.roots = origin.roots) (issued : (after.get? id).isSome)
    (free : after.parentOf id = none) (bare : after.contextOf id = {}) : after.Unattached id := by
  refine ⟨issued, free, ?_⟩
  rintro (isRoot | enclosed)
  · have isModule := wellFormed.roots_module id (roots ▸ isRoot)
    rw [get?_eq_none_iff_kindAt.mp new] at isModule
    cases isModule
  · rw [bare] at enclosed
    cases enclosed

/-! ## Supplies -/

/-- What is kept while nodes are built: of nodes that lie around, some are taken over and others
are made. -/
structure Supply (kept : List NodeId → Program → Prop) : Prop where
  unattached : ∀ {ids program}, kept ids program → ∀ id ∈ ids, program.Unattached id
  perm : ∀ {ids others program}, kept ids program → ids.Perm others → kept others program
  push : ∀ {ids before kind after}, kept ids before → Pushed before kind after →
    kept (before.nextId :: ids) after
  adopt : ∀ {parent children left before after}, kept (children ++ left) before →
    Adopted before parent children after → kept left after

namespace Supply

variable {kept : List NodeId → Program → Prop} (supply : Supply kept)
include supply

theorem ends_adopt {parent : NodeId} (holds : kept (ids ++ left) before) :
    Ends (Edit.adopt parent ids) before fun _ after => kept left after := by
  obtain ⟨after, adopting⟩ : ∃ after, Yields (Edit.adopt parent ids) before () after := by
    induction ids generalizing before with
    | nil => exact ⟨before, yields_forM_nil.mpr rfl⟩
    | cons first rest ih =>
      obtain ⟨between, taking⟩ := Edit.exists_adopt parent (supply.unattached holds first (by simp))
      have holdsOne : kept ([first] ++ (rest ++ left)) before := holds
      obtain ⟨after, further⟩ := ih (supply.adopt holdsOne (Edit.adopted taking))
      obtain ⟨middle, one, isLast⟩ := yields_forM_cons.mp taking
      obtain rfl := yields_forM_nil.mp isLast
      exact ⟨after, yields_forM_cons.mpr ⟨between, one, further⟩⟩
  exact ⟨(), after, adopting, supply.adopt holds (Edit.adopted adopting)⟩

theorem ends_newNode (holds : kept left before) :
    Ends (Edit.newNode kind) before fun answer after => kept (answer :: left) after :=
  ⟨_, _, yields_newNode.mpr ⟨rfl, rfl⟩, supply.push holds pushed_push⟩

/-- A holder takes its children from what lies around. -/
theorem ends_newHolder (holds : kept (ids ++ left) before) :
    Ends (Edit.newHolder kind ids) before fun answer after => kept (answer :: left) after := by
  refine (supply.ends_newNode holds).bind fun answer pushed _ more => ?_
  refine (supply.ends_adopt (supply.perm more List.perm_middle.symm)).bind fun _ _ _ rest => ?_
  exact .pure rest

/-- A node that is attributed to another node's place. -/
theorem ends_newNodeAt {source : NodeId} (issued : (before.get? source).isSome)
    (holds : kept left before) :
    Ends (Edit.withLocationOf source (Edit.newNode kind)) before fun answer after =>
      answer = before.nextId ∧ Pushed before kind after ∧ kept (answer :: left) after := by
  obtain ⟨node, found⟩ := Option.isSome_iff_exists.mp issued
  have creating : Yields (Edit.withLocationOf source (Edit.newNode kind)) before _ _ :=
    yields_withLocationOf.mpr ⟨node, _, found, yields_newNode.mpr ⟨rfl, rfl⟩, rfl⟩
  obtain ⟨isNext, pushed⟩ := Edit.pushed_withLocationOf creating
  have more := supply.push holds pushed
  exact ⟨_, _, creating, isNext, pushed, more⟩

theorem ends_asElement (category : ListCategory) (holds : kept (id :: left) before) :
    Ends (Edit.asElement category id) before fun answer after => kept (answer :: left) after := by
  have issued := (supply.unattached holds id (by simp)).issued
  cases category with
  | exprs | defs => exact .pure holds
  | stmts =>
    obtain ⟨node, found⟩ := Option.isSome_iff_exists.mp issued
    refine .look_bind node.kind (kindOf_eq_ok.mpr (kindAt_eq found)) ?_
    split
    · refine (supply.ends_newNodeAt issued holds).bind fun stmt pushed _ made => ?_
      obtain ⟨rfl, _, more⟩ := made
      have ready : kept ([id] ++ before.nextId :: left) pushed := supply.perm more (.swap _ _ _)
      exact (supply.ends_adopt ready).bind fun _ _ _ rest => .pure rest
    · exact .pure holds

theorem ends_newList (category : ListCategory) (holds : kept (ids ++ left) before) :
    Ends (Edit.newList category ids) before fun answer after => kept (answer :: left) after := by
  have wrapping : Ends (ids.mapM (Edit.asElement category)) before fun elements after =>
      kept ([] ++ elements ++ ([] ++ left)) after := by
    refine .mapM (fun done rest program => kept (done ++ (rest ++ left)) program) holds ?_
    intro program done item rest holds
    refine (supply.ends_asElement category (supply.perm holds List.perm_middle)).mono
      fun answer after _ made => ?_
    simpa using supply.perm made List.perm_middle.symm
  exact wrapping.bind fun _ _ _ wrapped => supply.ends_newHolder wrapped

theorem ends_newBlock (holds : kept (ids ++ left) before) :
    Ends (Edit.newBlock ids) before fun answer after => kept (answer :: left) after :=
  (supply.ends_newList .stmts holds).bind fun list later _ listed => by
    have listedOne : kept ([list] ++ left) later := listed
    exact supply.ends_newHolder listedOne

theorem ends_asBlock (holds : kept (id :: left) before) :
    Ends (Edit.asBlock id) before fun answer after => kept (answer :: left) after := by
  obtain ⟨node, found⟩ := Option.isSome_iff_exists.mp (supply.unattached holds id (by simp)).issued
  refine .look_bind node.kind (kindOf_eq_ok.mpr (kindAt_eq found)) ?_
  split
  · exact .pure holds
  · have ready : kept ([id] ++ left) before := holds
    exact supply.ends_newBlock ready

theorem ends_asStmt? {id? : Option NodeId} (holds : kept (id?.toList ++ left) before) :
    Ends (Edit.asStmt? id?) before fun answer? after => kept (answer?.toList ++ left) after := by
  cases id? with
  | none => exact .pure holds
  | some id =>
    have ready : kept (id :: left) before := holds
    exact (supply.ends_asElement .stmts ready).bind fun _ _ _ made => .pure made

section Operands

variable (since : Since origin before)
include since

/-- What an operand takes was settled before the operands were made. -/
theorem ends_asOperand (issued : (origin.get? id).isSome)
    (holds : kept (origin.spent id ++ left) before) :
    Ends (Edit.asOperand id) before fun answer after =>
      kept (answer :: left) after ∧ Since origin after := by
  rw [← spent_eq_of_since since issued] at holds
  obtain ⟨node, found⟩ := Option.isSome_iff_exists.mp (since.issued issued)
  refine .look_bind node.kind.isSymbol (isSymbol_eq_ok.mpr (by rw [kindAt_eq found]; rfl)) ?_
  cases isSymbol : node.kind.isSymbol with
  | true =>
    rw [spent_of_isSymbol (by rw [kindAt_eq found, Option.any_some, isSymbol])] at holds
    refine ⟨_, _, yields_newNode.mpr ⟨rfl, rfl⟩, supply.push holds pushed_push, ?_⟩
    exact since.trans (since_of_kinds pushed_push.kinds)
  | false =>
    have notSymbol : ¬ (before.kindAt id).any Kind.isSymbol := by
      rw [kindAt_eq found, Option.any_some, isSymbol]
      exact Bool.false_ne_true
    rw [spent, if_neg notSymbol] at holds
    exact .pure ⟨holds, since⟩

theorem ends_asOperands (issued : ∀ id ∈ ids, (origin.get? id).isSome)
    (holds : kept (ids.flatMap origin.spent ++ left) before) :
    Ends (ids.mapM Edit.asOperand) before fun operands after =>
      kept (operands ++ left) after ∧ Since origin after := by
  have standing : Ends (ids.mapM Edit.asOperand) before fun operands after =>
      kept ([] ++ operands ++ ([].flatMap origin.spent ++ left)) after ∧
        Since origin after ∧ ∀ id ∈ ([] : List NodeId), (origin.get? id).isSome := by
    refine .mapM (fun done rest program =>
      kept (done ++ (rest.flatMap origin.spent ++ left)) program ∧ Since origin program ∧
        ∀ id ∈ rest, (origin.get? id).isSome) ⟨holds, since, issued⟩ ?_
    intro program done item rest ⟨holds, since, issued⟩
    obtain ⟨issuedItem, issuedRest⟩ := List.forall_mem_cons.mp issued
    have ready :
        kept (origin.spent item ++ (done ++ (rest.flatMap origin.spent ++ left))) program := by
      refine supply.perm holds ?_
      rw [List.flatMap_cons, List.append_assoc]
      exact List.perm_append_comm_assoc _ _ _
    refine (supply.ends_asOperand since issuedItem ready).mono fun answer after _ made => ?_
    refine ⟨?_, made.2, issuedRest⟩
    simpa using supply.perm made.1 List.perm_middle.symm
  exact standing.mono fun _ _ _ used => ⟨used.1, used.2.1⟩

theorem ends_newOperands (issued : ∀ id ∈ ids, (origin.get? id).isSome)
    (holds : kept (ids.flatMap origin.spent ++ left) before) :
    Ends (Edit.newOperands ids) before fun answer after => kept (answer :: left) after :=
  (supply.ends_asOperands since issued holds).bind fun _ _ _ used =>
    supply.ends_newList .exprs used.1

theorem ends_newPrimitiveCall {operation : Primitive} (issued : ∀ id ∈ ids, (origin.get? id).isSome)
    (holds : kept (ids.flatMap origin.spent ++ left) before) :
    Ends (Edit.newPrimitiveCall operation ids) before fun answer after =>
      kept (answer :: left) after :=
  (supply.ends_newOperands since issued holds).bind fun args listed _ made => by
    have ready : kept ([args] ++ left) listed := made
    exact supply.ends_newHolder ready

theorem ends_asOperand? {id? : Option NodeId} (issued : ∀ id ∈ id?.toList, (origin.get? id).isSome)
    (holds : kept (id?.toList.flatMap origin.spent ++ left) before) :
    Ends (Edit.asOperand? id?) before fun answer? after =>
      kept (answer?.toList ++ left) after ∧ Since origin after := by
  cases id? with
  | none => exact .pure ⟨holds, since⟩
  | some id =>
    have ready : kept (origin.spent id ++ left) before := by simpa using holds
    exact (supply.ends_asOperand since (issued id (by simp)) ready).bind fun _ _ _ made =>
      .pure made

end Operands

end Supply

/-- Distinct nodes that hang nowhere. -/
structure Loose (ids : List NodeId) (program : Program) : Prop where
  rooted : ∀ root ∈ program.roots, (program.get? root).isSome
  distinct : ids.Nodup
  unattached : ∀ id ∈ ids, program.Unattached id

theorem Loose.supply : Supply Loose where
  unattached loose := loose.unattached
  perm loose same := ⟨loose.rooted, same.nodup loose.distinct,
    fun id member => loose.unattached id (same.mem_iff.mpr member)⟩
  push := by
    intro ids before kind after loose pushed
    obtain ⟨node, found, _, free, bare⟩ := pushed.node
    have old : ∀ {id}, (before.get? id).isSome → after.get? id = before.get? id := by
      intro id issued
      refine pushed.others ?_
      rintro rfl
      simp [get?_nextId] at issued
    have roots : after.roots = before.roots := by rw [pushed.rest]
    have notRoot : before.nextId ∉ before.roots := by
      intro isRoot
      have issued := loose.rooted _ isRoot
      simp [get?_nextId] at issued
    refine ⟨fun root isRoot => ?_, List.nodup_cons.mpr ⟨fun member => ?_, loose.distinct⟩,
      List.forall_mem_cons.mpr ⟨⟨by simp [found], by rw [parentOf_eq found, free], ?_⟩, ?_⟩⟩
    · rw [roots] at isRoot
      rw [old (loose.rooted root isRoot)]
      exact loose.rooted root isRoot
    · have issued := (loose.unattached _ member).issued
      simp [get?_nextId] at issued
    · rintro (isRoot | enclosed)
      · exact notRoot (roots ▸ isRoot)
      · rw [contextOf_eq found, bare] at enclosed
        cases enclosed
    · intro id member
      have unattached := loose.unattached id member
      exact unattached.of_same (old unattached.issued) roots
  adopt := by
    intro parent children left before after loose adopted
    obtain ⟨_, distinct, apart⟩ := List.nodup_append.mp loose.distinct
    have roots : after.roots = before.roots := by rw [adopted.rest]
    refine ⟨fun root isRoot => ?_, distinct, fun id member => ?_⟩
    · rw [roots] at isRoot
      rw [adopted.nodes, Option.isSome_map]
      exact loose.rooted root isRoot
    · have notTaken : id ∉ children := fun taken => apart id taken id member rfl
      have same : after.get? id = before.get? id := by
        rw [adopted.nodes]
        simp [notTaken]
      exact (loose.unattached id (List.mem_append_right _ member)).of_same same roots

/-- What lies around still does after a node got another kind. -/
theorem Loose.modify (loose : Loose ids before) :
    Loose ids (before.modifyNode id fun node => { node with kind }) := by
  have stillIssued : ∀ other, (before.get? other).isSome →
      ((before.modifyNode id fun node => { node with kind }).get? other).isSome := by
    intro other issued
    simpa [get?_modifyNode_map] using issued
  refine ⟨fun root isRoot => ?_, loose.distinct, fun other member => ?_⟩
  · rw [roots_modifyNode] at isRoot
    exact stillIssued root (loose.rooted root isRoot)
  · obtain ⟨issued, free, notPlaced⟩ := loose.unattached other member
    refine ⟨stillIssued other issued, by rw [parentOf_setKind, free], ?_⟩
    rwa [IsPlaced, roots_modifyNode, contextOf_setKind]

namespace Pieces

theorem start (wellFormed : WellFormed origin) : Pieces origin [] origin :=
  ⟨wellFormed, ⟨id, rfl, rfl⟩, .nil, nofun, nofun⟩

section Steps

variable (pieces : Pieces origin ids before)
include pieces

theorem perm {others : List NodeId} (same : ids.Perm others) : Pieces origin others before where
  wellFormed := pieces.wellFormed
  extended := pieces.extended
  distinct := same.nodup pieces.distinct
  new id member := pieces.new id (same.mem_iff.mpr member)
  unattached id member := pieces.unattached id (same.mem_iff.mpr member)

theorem past (unissued : before.New id) : origin.New id := by
  by_contra issued
  obtain ⟨node, found⟩ := Option.ne_none_iff_exists'.mp issued
  rw [New, pieces.extended.old found] at unissued
  cases unissued

theorem frame (nodes : after.nodes = before.nodes) (roots : after.roots = before.roots)
    (index : after.index = before.index) : Pieces origin ids after := by
  have same : after.get? = before.get? := by
    funext id
    rw [get?, get?, nodes]
  refine ⟨pieces.wellFormed, ⟨fun found => same ▸ pieces.extended.old found,
    roots.trans pieces.extended.roots, index.trans pieces.extended.index⟩, pieces.distinct,
    pieces.new, fun id member => ?_⟩
  exact (pieces.unattached id member).of_same (congrFun same id) roots

theorem loose : Loose ids before where
  rooted root isRoot := by
    rw [pieces.extended.roots] at isRoot
    have isModule := pieces.wellFormed.roots_module root isRoot
    obtain ⟨kind, known, _⟩ := (Option.any_eq_true _ _).mp isModule
    obtain ⟨node, found, _⟩ := get?_of_kindAt known
    simp [pieces.extended.old found]
  distinct := pieces.distinct
  unattached := pieces.unattached

/-- The next node is a piece. -/
theorem push (pushed : Pushed before kind after) :
    Pieces origin (before.nextId :: ids) after := by
  have loose := Loose.supply.push pieces.loose pushed
  refine ⟨pieces.wellFormed, ⟨fun {id node} found => ?_, ?_, ?_⟩, loose.distinct,
    List.forall_mem_cons.mpr ⟨pieces.past (get?_nextId before), pieces.new⟩, loose.unattached⟩
  · have foundBefore := pieces.extended.old found
    have different : id ≠ before.nextId := by
      rintro rfl
      simp [get?_nextId] at foundBefore
    rw [pushed.others different, foundBefore]
  · rw [pushed.rest]
    exact pieces.extended.roots
  · rw [pushed.rest]
    exact pieces.extended.index

/-- A new node may get another kind. -/
theorem modify (new : origin.New id) :
    Pieces origin ids (before.modifyNode id fun node => { node with kind }) := by
  refine ⟨pieces.wellFormed, ⟨fun {other node} found => ?_,
    roots_modifyNode.trans pieces.extended.roots, index_modifyNode.trans pieces.extended.index⟩,
    pieces.distinct, pieces.new, pieces.loose.modify.unattached⟩
  have different : id ≠ other := by
    rintro rfl
    rw [new] at found
    cases found
  rw [get?_modifyNode_of_ne different]
  exact pieces.extended.old found

/-- What is taken over is no piece any more. -/
theorem adopt {parent : NodeId} {children : List NodeId} (isSplit : ids = children ++ left)
    (adopted : Adopted before parent children after) : Pieces origin left after := by
  subst isSplit
  have loose := Loose.supply.adopt pieces.loose adopted
  refine ⟨pieces.wellFormed, ⟨fun {id node} found => ?_, ?_, ?_⟩, loose.distinct,
    fun id member => pieces.new id (List.mem_append_right _ member), loose.unattached⟩
  · have notTaken : id ∉ children := by
      intro taken
      have new := pieces.new id (List.mem_append_left _ taken)
      rw [new] at found
      cases found
    rw [adopted.nodes, pieces.extended.old found, Option.map_some, if_neg notTaken]
  · rw [adopted.rest]
    exact pieces.extended.roots
  · rw [adopted.rest]
    exact pieces.extended.index

end Steps

theorem supply (origin : Program) : Supply (Pieces origin) where
  unattached := fun pieces => pieces.unattached
  perm := fun pieces same => pieces.perm same
  push := fun pieces pushed => pieces.push pushed
  adopt := fun pieces => pieces.adopt rfl

/-! ## Taking over -/

/-- A holder takes its children from the pieces. -/
theorem ends_newHolder (owned : kind.owned = ids) (pieces : Pieces origin (ids ++ left) before) :
    Ends (Edit.newHolder kind ids) before fun answer after =>
      Pieces origin (answer :: left) after ∧ Produced origin before answer kind after := by
  have isNew : ∀ id ∈ ids, origin.New id ∧ ¬ before.New id := fun id member =>
    have taken := List.mem_append_left left member
    ⟨pieces.new id taken, Option.isSome_iff_ne_none.mp (pieces.unattached id taken).issued⟩
  exact ((supply origin).ends_newHolder pieces).mono fun answer after run holds =>
    ⟨holds, produced_newHolder pieces.past run owned isNew⟩

/-! ## Operands and lists -/

theorem ends_asOperand (issued : (before.get? id).isSome)
    (pieces : Pieces origin (before.spent id ++ left) before) :
    Ends (Edit.asOperand id) before fun answer after =>
      Pieces origin (answer :: left) after ∧ Since before after :=
  (supply origin).ends_asOperand (.refl before) issued pieces

theorem ends_newPrimitiveCall {operation : Primitive}
    (issued : ∀ id ∈ ids, (before.get? id).isSome)
    (pieces : Pieces origin (ids.flatMap before.spent ++ left) before) :
    Ends (Edit.newPrimitiveCall operation ids) before fun answer after =>
      Pieces origin (answer :: left) after :=
  (supply origin).ends_newPrimitiveCall (.refl before) issued pieces

/-- A call of a function without arguments. -/
theorem ends_newCall (symbol : (before.kindAt sym).any Kind.isSymbol)
    (pieces : Pieces origin left before) :
    Ends (Edit.newCall sym []) before fun call after => Pieces origin (call :: left) after ∧
      Addition origin before after ∧ ∃ use args,
        Added origin after call (.expr (.call (.expr use) args)) ∧
        IsUse origin after use sym ∧ Added origin after args (.list .exprs #[]) := by
  have issued : (before.get? sym).isSome := get?_isSome_of_any symbol
  have standing : Pieces origin (before.spent sym ++ left) before := by
    rwa [spent_of_isSymbol symbol]
  simp only [Edit.newCall, Edit.newOperands, Edit.newList, List.mapM_nil, pure_bind]
  refine (ends_asOperand issued standing).bind fun use used run made => ?_
  obtain ⟨addition, isArgument⟩ := argument_of_asOperand pieces.past (.inl symbol) run
  have isUse := isArgument.isUse (addition.passes symbol not_false)
  have listing : Pieces origin ([] ++ use :: left) used := made.1
  refine (ends_newHolder rfl listing).bind fun args listed _ made => ?_
  obtain ⟨made, madeArgs⟩ := made
  have ready : Pieces origin ([use, args] ++ left) listed := made.perm (.swap _ _ _)
  refine (ends_newHolder rfl ready).mono fun call after _ made => ?_
  obtain ⟨made, madeCall⟩ := made
  exact ⟨made, (addition.adding madeArgs.addition).adding madeCall.addition, use, args,
    madeCall.added, (isUse.keep madeArgs.addition not_false).keep madeCall.addition not_false,
    madeArgs.added.keep madeCall.addition not_false⟩

/-! ## Symbols -/

theorem ends_changeSymbol {f : Symbol → Symbol} {symbol : Symbol} (new : origin.New sym)
    (known : before.kindAt sym = some (.symbol symbol)) (pieces : Pieces origin left before) :
    Ends (Edit.changeSymbol sym f) before fun _ after => Pieces origin left after := by
  refine .look_bind symbol (symbol_eq_ok.mpr known) ⟨(), _, yields_change.mpr ⟨?_, rfl⟩, ?_⟩
  · exact get?_isSome_of_kindAt known
  · exact pieces.modify new

theorem ends_newTemp {name : String} {type? : Option NodeId} (pieces : Pieces origin left before) :
    Ends (Edit.newTemp name type?) before fun answer after =>
      Pieces origin (answer :: left) after := by
  refine ((supply origin).ends_newNode pieces).bind fun temp pushed run made => ?_
  obtain ⟨rfl, rfl⟩ := yields_newNode.mp run
  exact (ends_changeSymbol (made.new _ (by simp)) pushed_push.kindAt made).bind
    fun _ _ _ holds => .pure holds

theorem ends_define (symbol : (before.kindAt sym).any Kind.isSymbol)
    (pieces : Pieces origin (sym :: left) before) :
    Ends (Edit.define sym) before fun answer after => Pieces origin (answer :: left) after := by
  obtain ⟨symbol, known⟩ := exists_symbol symbol
  have issued : (before.get? sym).isSome := get?_isSome_of_kindAt known
  refine .look_bind true (isSymbol_eq_ok.mpr (by rw [known]; rfl)) ?_
  simp only [Bool.not_true, Bool.false_eq_true, if_false, asOperand?, pure_bind]
  refine ((supply origin).ends_newNodeAt issued pieces).bind fun definition pushed _ made => ?_
  obtain ⟨rfl, isPushed, made⟩ := made
  have different : sym ≠ before.nextId := by
    rintro rfl
    simp [get?_nextId] at issued
  have ready : Pieces origin ([sym] ++ before.nextId :: left) pushed := made.perm (.swap _ _ _)
  refine ((supply origin).ends_adopt ready).bind fun _ held adopting made => ?_
  have knownHeld : held.kindAt sym = some (.symbol symbol) := by
    rw [(Edit.adopted adopting).kindAt, isPushed.kinds different, known]
  refine (ends_changeSymbol (pieces.new sym (by simp)) knownHeld made).bind ?_
  exact fun _ _ _ holds => .pure holds

/-- A function without formals. -/
theorem ends_newFn {name : String} {body list : NodeId}
    (isBlock : before.kindAt body = some (.stmt (.block list)))
    (pieces : Pieces origin (body :: left) before) :
    Ends (Edit.newFn name [] body none) before fun fn after => Pieces origin (fn :: left) after ∧
      ∃ formals, Produced origin before fn
          (.symbol { name, kind := .fn formals body none none }) after ∧
        Added origin after formals (.list .defs #[]) := by
  simp only [Edit.newFn, Edit.newList, List.mapM_nil, pure_bind]
  have listing : Pieces origin ([] ++ body :: left) before := pieces
  refine (ends_newHolder rfl listing).bind fun formals listed _ made => ?_
  obtain ⟨made, madeFormals⟩ := made
  have stillBlock : listed.kindAt body = some (.stmt (.block list)) :=
    madeFormals.addition.kinds isBlock not_false
  have blocking : Ends (Edit.asBlock body) listed fun answer after =>
      answer = body ∧ after = listed :=
    .look_bind _ (kindOf_eq_ok.mpr stillBlock) (.pure ⟨rfl, rfl⟩)
  refine blocking.bind fun block same _ isBody => ?_
  obtain ⟨rfl, rfl⟩ := isBody
  have ready : Pieces origin ([formals, block] ++ left) same := made
  refine (ends_newHolder rfl ready).mono fun fn after _ made => ?_
  obtain ⟨made, madeFn⟩ := made
  exact ⟨made, formals, madeFn.following madeFormals.addition,
    madeFormals.added.keep madeFn.addition not_false⟩

/-! ## Copies -/

/-- What was there before can be copied, as long as nothing in it is seeded. -/
theorem ends_duplicateWith {top : NodeId} {seeds : Remap} (issued : (origin.get? top).isSome)
    (unseeded : ∀ id, origin.Contains top id → id ∉ seeds) (updated : List NodeId)
    (pieces : Pieces origin left before) :
    Ends (Edit.duplicateWith top seeds updated false) before fun copied after =>
      Pieces origin (copied.duplicate :: left) after ∧
        ∃ order, copied.duplicate = before.twin order top ∧
          Duplicated before seeds top order after := by
  have issuedBelow : ∀ id, origin.Contains top id → (origin.get? id).isSome := fun id =>
    pieces.wellFormed.orderly.forest.issued_of_contains trivial issued
  have noIsland : Island (fun _ => False) before := ⟨nofun, nofun, nofun, nofun, nofun⟩
  have forest := (pieces.wellFormed.orderly.annex pieces.extended noIsland).forest
  have issuedTop : (before.get? top).isSome := by rwa [pieces.extended.same_node issued]
  obtain ⟨copied, after, order, run, isTwin, duplicated⟩ :=
    exists_duplicateWith forest (.inl ⟨trivial, issued⟩) issuedTop (fun id contained =>
      unseeded id ((pieces.extended.contains_iff issuedBelow).mp contained)) updated
  obtain ⟨source, found⟩ := Option.isSome_iff_exists.mp issuedTop
  have foundCopy := duplicated.copy (duplicated.mem_order.mpr .refl) found
  have new : origin.New (before.twin order top) := pieces.past unissued_twin
  have grown := duplicated.extends_before
  rw [← isTwin] at foundCopy new
  refine ⟨copied, after, run, ⟨pieces.wellFormed, pieces.extended.trans grown, ?_, ?_, ?_⟩, order,
    isTwin, duplicated⟩
  · refine List.nodup_cons.mpr ⟨fun member => ?_, pieces.distinct⟩
    have issuedCopy := (pieces.unattached _ member).issued
    rw [isTwin, unissued_twin] at issuedCopy
    cases issuedCopy
  · exact List.forall_mem_cons.mpr ⟨new, pieces.new⟩
  · refine List.forall_mem_cons.mpr ⟨?_, fun id member => ?_⟩
    · refine unattached_of_new pieces.wellFormed new (grown.roots.trans pieces.extended.roots)
        (by simp [foundCopy]) ?_ ?_
      · rw [parentOf_eq foundCopy, copyOf, if_pos rfl]
      · rw [contextOf_eq foundCopy, copyOf_context]
    · have unattached := pieces.unattached id member
      exact unattached.of_same (grown.same_node unattached.issued) grown.roots

end Pieces

end Program

end ProgramTree
