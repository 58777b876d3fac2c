import ProgramTree.Proofs.GpuIterations
import ProgramTree.Proofs.Supplanting

/-!
# The block that takes the place of a loop

Outlining puts a block where the loop was.  The block asks whether it runs on the GPU, and then
runs the variant that was built for it, or a copy of the loop.  The loop itself is taken out of
the tree with all that it contains, and what lies outside the loop and the variant stays as it
is.
-/

namespace ProgramTree

open Program Edit Relation

namespace Edit

/-- A variable that says whether this runs on the GPU, with the statements that define and set
it. -/
structure Question where
  onGpu : NodeId
  definition : NodeId
  set : NodeId

/-- Asks whether this runs on the GPU. -/
def newQuestion : Edit Question := do
  let onGpu ← newTemp "_is_gpu" (some PrimitiveType.bool.id)
  let definition ← define onGpu
  let query ← newPrimitiveCall .isGpuSublocale []
  let set ← newPrimitiveCall .move [onGpu, query]
  return { onGpu, definition, set }

theorem newChoice_eq {loop variant : NodeId} : newChoice loop variant = (do
    let copy ← duplicate loop
    let asked ← newQuestion
    let choice ← newCond asked.onGpu variant (some copy)
    newBlock [asked.definition, asked.set, choice]) := by
  simp only [newChoice, newQuestion, bind_assoc, pure_bind]

theorem dispatch_eq {loop variant : NodeId} :
    dispatch loop variant = withLocationOf loop (do
      let block ← newChoice loop variant
      let _ ← replace loop block) := by
  simp only [dispatch, newChoice, bind_assoc]

end Edit

namespace Program

/-- The block defines a new variable `_is_gpu`, asks for its value, and picks the variant or a
copy of the loop. -/
def IsDispatch (origin program : Program) (loop variant block choice copy : NodeId) : Prop :=
  ∃ list first second definition onGpu set query condition,
    Added origin program block (.stmt (.block list)) ∧
    Added origin program list (.list .stmts #[first, second, choice]) ∧
    Added origin program first (.stmt (.expr definition)) ∧
    Declares origin program definition onGpu
      { name := "_is_gpu", type? := some PrimitiveType.bool.id,
        flags := (∅ : FlagSet).insert .temp, kind := .var } ∧
    Added origin program second (.stmt (.expr set)) ∧
    Sets origin program set onGpu query ∧ Calls origin program .isGpuSublocale query [] ∧
    Added origin program choice (.stmt (.cond condition variant (some copy))) ∧
    IsUse origin program condition onGpu ∧ HasCopy origin program (fun link => link) loop copy

/-- The block hangs where the loop hung, and the variant hangs in the choice.  The loop hangs
nowhere, with all that it contains, and everything else is what it was. -/
structure Dispatched (before : Program) (holder loop variant block choice : NodeId)
    (after : Program) : Prop where
  place : after.get? holder = (before.get? holder).map fun node =>
    { node with kind := node.kind.mapOwned fun child => if child = loop then block else child }
  loopOut : ∀ id, before.Contains loop id → after.get? id = (before.get? id).map fun node =>
    { node with parent? := if id = loop then none else node.parent?, context := {} }
  variantIn : ∀ id, before.Contains variant id →
    ∃ context, after.get? id = (before.get? id).map fun node =>
      { node with parent? := if id = variant then some choice else node.parent?, context }
  others : ∀ id, (before.get? id).isSome → id ≠ holder → ¬ before.Contains loop id →
    ¬ before.Contains variant id → after.get? id = before.get? id
  unindexed : ∀ id category, before.Contains loop id → id ∉ after.index.entries category
  indexed : ∀ id category, (before.get? id).isSome → ¬ before.Contains loop id →
    ¬ before.Contains variant id →
    (id ∈ after.index.entries category ↔ id ∈ before.index.entries category)
  roots : after.roots = before.roots

variable {zone : NodeId → Prop} {origin before between after : Program}
  {id sym loop variant block choice copy holder : NodeId} {symbol : Symbol} {done : Unit}

/-! ## What is built elsewhere -/

/-- Outside the zone all is as in the snapshot. -/
structure Aside (zone : NodeId → Prop) (snapshot program : Program) : Prop where
  nodes : ∀ id, ¬ zone id → program.get? id = snapshot.get? id
  roots : program.roots = snapshot.roots
  index : program.index = snapshot.index

/-- Building in a zone of new nodes leaves what is outside of it alone. -/
theorem Aside.workshop {snapshot : Program} (old : ∀ id, ¬ zone id → (snapshot.get? id).isSome) :
    Workshop zone (Aside zone snapshot) where
  fresh {program} aside := by
    by_contra outside
    have issued := old _ outside
    rw [← aside.nodes _ outside, get?_nextId] at issued
    cases issued
  grow {before between after kind} aside _ pushed adopted known := by
    refine ⟨fun id outside => ?_, ?_, ?_⟩
    · have issued : (before.get? id).isSome := by
        rw [aside.nodes id outside]
        exact old id outside
      have different : id ≠ before.nextId := by
        rintro rfl
        simp [get?_nextId] at issued
      have notTaken : id ∉ kind.owned := fun taken => outside (known id taken).inside
      rw [adopted.nodes, pushed.others different, aside.nodes id outside]
      simp [notTaken]
    · rw [adopted.rest, pushed.rest]
      exact aside.roots
    · rw [adopted.rest, pushed.rest]
      exact aside.index
  setKind {program id kind changed} aside inside _ _ _ := by
    refine ⟨fun other outside => ?_, roots_modifyNode.trans aside.roots,
      index_modifyNode.trans aside.index⟩
    have different : id ≠ other := by
      rintro rfl
      exact outside inside
    rw [get?_modifyNode_of_ne different, aside.nodes other outside]
  frame {before after} aside nodes roots index := by
    refine ⟨fun id outside => ?_, roots.trans aside.roots, index.trans aside.index⟩
    rw [← aside.nodes id outside, get?, get?, nodes]

/-- Builders take over what hangs nowhere, so they leave a program well-formed. -/
theorem wellFormed_workshop : Workshop Anywhere WellFormed where
  fresh _ := trivial
  grow wellFormed _ pushed adopted known :=
    (orderly_grow wellFormed.orderly pushed adopted known).wellFormed
  setKind wellFormed _ known alike _ := (orderly_setKind wellFormed.orderly known alike).wellFormed
  frame wellFormed nodes roots index :=
    (orderly_of_nodes wellFormed.orderly nodes roots index).wellFormed

/-! ## What only depends on the kinds of new nodes -/

section Kinds

variable (same : ∀ {id kind}, origin.New id → before.kindAt id = some kind →
  after.kindAt id = some kind)
include same

theorem Added.of_kinds {kind : Kind} (added : Added origin before id kind) :
    Added origin after id kind :=
  ⟨added.new, same added.new added.known⟩

theorem Calls.of_kinds {operation : Primitive} {args : List NodeId}
    (calls : Calls origin before operation id args) : Calls origin after operation id args := by
  obtain ⟨list, call, isList⟩ := calls
  exact ⟨list, call.of_kinds same, isList.of_kinds same⟩

theorem Sets.of_kinds {value : NodeId} (sets : Sets origin before id sym value) :
    Sets origin after id sym value := by
  obtain ⟨use, calls, isUse⟩ := sets
  exact ⟨use, calls.of_kinds same, isUse.of_kinds same⟩

theorem Declares.of_kinds (declares : Declares origin before id sym symbol) :
    Declares origin after id sym symbol :=
  ⟨declares.defines.of_kinds same, declares.defined.of_kinds same⟩

theorem HasCopy.of_kinds {outer : NodeId → NodeId} {top : NodeId}
    (copies : HasCopy origin before outer top copy) : HasCopy origin after outer top copy := by
  obtain ⟨image, link, issued, rfl, bijective, new, kinds, inside, outside⟩ := copies
  exact ⟨image, link, isCopy_of_kinds issued bijective.injOn new
    (fun id kind contained known => same (new id contained) (kinds id kind contained known))
    inside outside⟩

theorem IsDispatch.of_kinds (dispatch : IsDispatch origin before loop variant block choice copy) :
    IsDispatch origin after loop variant block choice copy := by
  obtain ⟨list, first, second, definition, onGpu, set, query, condition, isBlock, isList, isFirst,
    declares, isSecond, sets, calls, isChoice, isUse, copies⟩ := dispatch
  exact ⟨list, first, second, definition, onGpu, set, query, condition, isBlock.of_kinds same,
    isList.of_kinds same, isFirst.of_kinds same, declares.of_kinds same, isSecond.of_kinds same,
    sets.of_kinds same, calls.of_kinds same, isChoice.of_kinds same, isUse.of_kinds same,
    copies.of_kinds same⟩

end Kinds

theorem IsDispatch.new_block
    (dispatch : IsDispatch origin before loop variant block choice copy) : origin.New block := by
  obtain ⟨_, _, _, _, _, _, _, _, isBlock, -⟩ := dispatch
  exact isBlock.new

theorem IsDispatch.contains_variant
    (dispatch : IsDispatch origin before loop variant block choice copy) :
    before.Contains block variant := by
  obtain ⟨list, first, second, _, _, _, _, condition, isBlock, isList, -, -, -, -, -, isChoice, -⟩ :=
    dispatch
  have holdsList : before.Holds block list := by
    simp [Holds, held_eq_of_kindAt isBlock.known, Kind.owned, Stmt.owned]
  have holdsChoice : before.Holds list choice := by
    simp [Holds, held_eq_of_kindAt isList.known, Kind.owned]
  have holdsVariant : before.Holds choice variant := by
    simp [Holds, held_eq_of_kindAt isChoice.known, Kind.owned, Stmt.owned]
  exact ((ReflTransGen.single holdsList).tail holdsChoice).tail holdsVariant

/-- A copy is shown like the original, if that is still what it was. -/
theorem HasCopy.render_eq {top : NodeId} (wellFormed : WellFormed origin)
    (copies : HasCopy origin after (fun link => link) top copy)
    (kinds : ∀ id, origin.Contains top id → after.kindAt id = origin.kindAt id) :
    (after.render copy).toOption = (after.render top).toOption := by
  obtain ⟨image, link, isCopy⟩ := copies
  obtain ⟨nodes, walked, -⟩ :=
    wellFormed.orderly.forest.exists_subtree trivial (isCopy.issued top .refl)
  have mirrored : Mirrored after nodes image link := by
    refine ⟨fun {holder child} member holds => ?_, fun {id} member => ?_, fun {id} member => ?_,
      fun {id} outside => ?_⟩
    · have contained := (mem_subtree walked).mp member
      rw [Holds, held, kinds holder contained, ← held] at holds
      exact (mem_subtree walked).mpr (contained.tail holds)
    · have contained := (mem_subtree walked).mp member
      obtain ⟨node, found⟩ := Option.isSome_iff_exists.mp (isCopy.issued id contained)
      exact ⟨node.kind, (kinds id contained).trans (kindAt_eq found),
        isCopy.kind id node.kind contained (kindAt_eq found)⟩
    · exact isCopy.link_inside id ((mem_subtree walked).mp member)
    · exact isCopy.link_outside id (mt (mem_subtree walked).mpr outside)
  rw [isCopy.top_image]
  exact mirrored.renderWithin_own ((mem_subtree walked).mpr .refl) _ _ _

theorem IsStmtOf.wrapper {stmt : NodeId} (isStmt : IsStmtOf origin before id stmt)
    (isExpr : (before.kindAt id).any Kind.isExpr) : Added origin before stmt (.stmt (.expr id)) := by
  cases isStmt with
  | wrapped _ wrapper => exact wrapper
  | bare notExpr =>
    obtain ⟨kind, known, isExpr⟩ := (Option.any_eq_true _ _).mp isExpr
    simp [known, isExpr] at notExpr

theorem IsStmtOf.same {stmt : NodeId} (isStmt : IsStmtOf origin before id stmt)
    (known : (before.kindAt id).any Kind.isStmt) : id = stmt := by
  cases isStmt with
  | bare => rfl
  | wrapped isExpr =>
    obtain ⟨kind, isKind, isStmt⟩ := (Option.any_eq_true _ _).mp known
    cases kind with
    | stmt => simp [isKind, Kind.isExpr] at isExpr
    | _ => cases isStmt

/-! ## The question -/

namespace Pieces

/-- The variable is defined, and set to the answer. -/
theorem ends_newQuestion {left : List NodeId} (pieces : Pieces origin left before) :
    Ends Edit.newQuestion before fun asked after =>
      Pieces origin (asked.set :: asked.definition :: left) after ∧ Addition origin before after ∧
        Declares origin after asked.definition asked.onGpu
          { name := "_is_gpu", type? := some PrimitiveType.bool.id,
            flags := (∅ : FlagSet).insert .temp, kind := .var } ∧
        ∃ query, Sets origin after asked.set asked.onGpu query ∧
          Calls origin after .isGpuSublocale query [] := by
  refine (ends_newTemp pieces).bind fun onGpu named runVar piecesN => ?_
  have madeVar := produced_newTemp pieces.past runVar
  refine (ends_declare madeVar.known piecesN).bind fun definition defined _ made => ?_
  obtain ⟨piecesD, defining, declares⟩ := made
  refine (ends_ask piecesD).bind fun query asked _ made => ?_
  obtain ⟨piecesQ, asking, calls⟩ := made
  have isSymbol := asking.passes declares.isSymbol not_false
  refine (ends_set isSymbol calls.newExpr piecesQ).bind fun set after _ made => .pure ?_
  obtain ⟨piecesEnd, setting, sets⟩ := made
  have sinceDefined := asking.adding setting
  refine ⟨piecesEnd, ?_, declares.keep sinceDefined nofun, query, sets, calls.keep setting nofun⟩
  exact madeVar.addition.absorbing (defining.adding sinceDefined) fun _ same =>
    same ▸ madeVar.unissued

end Pieces

/-! ## The choice -/

/-- The branches are taken over as they are. -/
theorem Loose.ends_newCond {condition thenStmt elseStmt : NodeId} {left : List NodeId}
    (symbol : (before.kindAt condition).any Kind.isSymbol)
    (isThen : (before.kindAt thenStmt).any Kind.isStmt)
    (isElse : (before.kindAt elseStmt).any Kind.isStmt)
    (loose : Loose (thenStmt :: elseStmt :: left) before) :
    Ends (Edit.newCond condition thenStmt (some elseStmt)) before fun choice after =>
      Loose (choice :: left) after ∧ before.New choice ∧
        (∃ use, before.New use ∧ after.kindAt use = some (.expr (.use condition)) ∧
          after.kindAt choice = some (.stmt (.cond use thenStmt (some elseStmt)))) ∧
        (∀ id, (before.get? id).isSome → after.get? id = (before.get? id).map fun node =>
          if id ∈ [thenStmt, elseStmt] then { node with parent? := some choice } else node) ∧
        after.roots = before.roots ∧ after.index = before.index := by
  have asIs : ∀ {id} {program : Program}, (program.kindAt id).any Kind.isStmt →
      Ends (asStmt id) program fun answer later => id = answer ∧ program = later :=
    fun {id program} isStmt => ⟨id, program, asElement_of_stmt .stmts isStmt, rfl, rfl⟩
  obtain ⟨kind, isCondition, isSymbol⟩ := (Option.any_eq_true _ _).mp symbol
  have old : ∀ {id}, (before.get? id).isSome → id ≠ before.nextId := by
    rintro id issued rfl
    simp [get?_nextId] at issued
  have testing : Ends (asOperand condition) before fun use after =>
      use = before.nextId ∧ Pushed before (.expr (.use condition)) after := by
    refine .look_bind _ (isSymbol_eq_ok.mpr (by rw [isCondition]; rfl)) ?_
    rw [if_pos isSymbol]
    exact ⟨_, _, yields_newNode.mpr ⟨rfl, rfl⟩, rfl, pushed_push⟩
  refine testing.bind fun use used _ made => ?_
  obtain ⟨rfl, isUse⟩ := made
  have looseUse := Loose.supply.push loose isUse
  have stillStmt : ∀ {id}, (before.kindAt id).any Kind.isStmt → (used.kindAt id).any Kind.isStmt :=
    fun isStmt => by rwa [isUse.kinds (old (get?_isSome_of_any isStmt))]
  refine (asIs (stillStmt isThen)).bind fun _ _ _ same => ?_
  obtain ⟨rfl, rfl⟩ := same
  have closing : Ends (asStmt? (some elseStmt)) used fun else? later =>
      some elseStmt = else? ∧ used = later :=
    (asIs (stillStmt isElse)).bind fun _ _ _ same => .pure ⟨congrArg some same.1, same.2⟩
  refine closing.bind fun _ _ _ same => ?_
  obtain ⟨rfl, rfl⟩ := same
  have ready : Loose ([before.nextId, thenStmt] ++ [elseStmt] ++ left) _ := looseUse
  refine (Loose.supply.ends_newHolder ready).mono fun choice after run loose => ⟨loose, ?_⟩
  simp only [Edit.newHolder, yields_bind, yields_newNode, yields_pure] at run
  obtain ⟨_, held, ⟨rfl, rfl⟩, _, _, adopting, rfl, rfl⟩ := run
  have isChoice : Pushed used (.stmt (.cond before.nextId thenStmt (some elseStmt))) _ := pushed_push
  have adopted := Edit.adopted adopting
  have unissued : before.New used.nextId := by
    by_contra issued
    have issuedUsed : (used.get? used.nextId).isSome := by
      rw [isUse.others (old (Option.isSome_iff_ne_none.mpr issued))]
      exact Option.isSome_iff_ne_none.mpr issued
    simp [get?_nextId] at issuedUsed
  have different : before.nextId ≠ used.nextId := by
    intro same
    have never := get?_nextId used
    obtain ⟨node, found, _⟩ := isUse.node
    rw [← same, found] at never
    cases never
  refine ⟨unissued, ⟨before.nextId, get?_nextId before, ?_, ?_⟩, fun id issued => ?_, ?_, ?_⟩
  · rw [adopted.kindAt, isChoice.kinds different, isUse.kindAt]
  · rw [adopted.kindAt, isChoice.kindAt]
  · have notUse := old issued
    have notChoice : id ≠ used.nextId := by
      rintro rfl
      rw [unissued] at issued
      cases issued
    rw [adopted.nodes, isChoice.others notChoice, isUse.others notUse]
    simp [notUse]
  · rw [adopted.rest, isChoice.rest, isUse.rest]
  · rw [adopted.rest, isChoice.rest, isUse.rest]

/-! ## The block -/

/-- The variant hangs in the choice, and every other node of the first program is what it was. -/
def TakenUp (before : Program) (variant choice : NodeId) (built : Program) : Prop :=
  ∀ id, (before.get? id).isSome → built.get? id = (before.get? id).map fun node =>
    if id = variant then { node with parent? := some choice } else node

/-- An old node that hangs nowhere lies around with the pieces. -/
theorem Pieces.loose_cons {ids : List NodeId} (pieces : Pieces origin ids before)
    (unattached : origin.Unattached id) : Loose (id :: ids) before where
  rooted := pieces.loose.rooted
  distinct := by
    refine List.nodup_cons.mpr ⟨fun member => ?_, pieces.distinct⟩
    have issued := unattached.issued
    rw [pieces.new id member] at issued
    cases issued
  unattached := by
    refine List.forall_mem_cons.mpr ⟨?_, pieces.unattached⟩
    exact unattached.of_same (pieces.extended.same_node unattached.issued) pieces.extended.roots

/-- The block is built beside the tree.  Of what was there, only the variant hangs elsewhere. -/
theorem Pieces.ends_newChoice {entered : Program} {stmt : Stmt}
    (isLoop : before.kindAt loop = some (.stmt stmt))
    (isStmt : (before.kindAt variant).any Kind.isStmt) (unattached : before.Unattached variant)
    (pieces : Pieces before [] entered) :
    Ends (Edit.newChoice loop variant) entered fun block built =>
      Loose [block] built ∧ built.roots = before.roots ∧ built.index = before.index ∧
        ∃ choice copy, IsDispatch before built loop variant block choice copy ∧
          TakenUp before variant choice built := by
  simp only [Edit.newChoice_eq, Edit.duplicate, bind_assoc, pure_bind]
  have issuedLoop := get?_isSome_of_kindAt isLoop
  refine (ends_copy issuedLoop (by simp) pieces).bind fun copied duplicated _ made => ?_
  obtain ⟨piecesC, copying, -, copies⟩ := made
  rw [Remap.apply_empty] at copies
  refine (ends_newQuestion piecesC).bind fun asked moved _ made => ?_
  obtain ⟨piecesQ, asking, declares, query, sets, calls⟩ := made
  have copiesMoved := copies _ _ asking fun _ never => never.elim
  have isCopyStmt : (moved.kindAt copied.duplicate).any Kind.isStmt := by
    obtain ⟨image, link, isCopy⟩ := copiesMoved
    rw [isCopy.top_image, isCopy.kind loop _ .refl isLoop]
    rfl
  have notNew : ∀ {id}, (before.get? id).isSome → ¬ before.New id := fun issued new => by
    rw [new] at issued
    cases issued
  have isVariantStmt : (moved.kindAt variant).any Kind.isStmt := by
    rwa [piecesQ.extended.same_kind unattached.issued]
  have loose : Loose (variant :: copied.duplicate :: [asked.set, asked.definition]) moved :=
    Loose.supply.perm (piecesQ.loose_cons unattached) (by grind)
  refine (Loose.ends_newCond declares.isSymbol isVariantStmt isCopyStmt loose).bind
    fun choice chosen _ made => ?_
  obtain ⟨looseChosen, newChoice, ⟨use, newUse, isUse, isChoice⟩, nodes, roots, index⟩ := made
  have kept : ∀ {id kind}, moved.kindAt id = some kind → chosen.kindAt id = some kind := by
    intro id kind known
    rw [kindAt, nodes id (get?_isSome_of_kindAt known), Option.map_map, ← known, kindAt]
    refine Option.map_congr fun node _ => ?_
    rw [Function.comp_apply]
    split <;> rfl
  have past : ∀ {id}, chosen.New id → before.New id := by
    intro id new
    by_contra issued
    obtain ⟨node, found⟩ := Option.ne_none_iff_exists'.mp issued
    have known := kept (kindAt_eq (piecesQ.extended.old found))
    exact issued_of_kindAt known new
  have ready : Loose ([asked.definition, asked.set, choice] ++ []) chosen :=
    Loose.supply.perm looseChosen (by grind)
  refine (Loose.supply.ends_newBlock ready).mono fun block built run looseBuilt => ?_
  have isChosen : ∀ id ∈ [asked.definition, asked.set, choice], before.New id ∧ ¬ chosen.New id := by
    have issuedChosen : ∀ id ∈ [asked.definition, asked.set, choice], ¬ chosen.New id :=
      fun id member => Option.isSome_iff_ne_none.mp (ready.unattached id (by simpa using member)).issued
    have new : ∀ id ∈ [asked.definition, asked.set, choice], before.New id := by
      simpa using ⟨piecesQ.new _ (by simp), piecesQ.new _ (by simp), piecesQ.past newChoice⟩
    exact fun id member => ⟨new id member, issuedChosen id member⟩
  obtain ⟨addition, list, stmts, isBlock, isList, areStmts⟩ := isBlockOf_newBlock past isChosen run
  have aside : Aside before.New chosen built := by
    have old : ∀ id, ¬ before.New id → (chosen.get? id).isSome := fun id issued =>
      Option.isSome_iff_ne_none.mpr (mt past issued)
    refine ((Aside.workshop old).newBlock ⟨fun _ _ => rfl, rfl, rfl⟩ (fun id member => ?_) run).progress.kept
    exact ⟨(isChosen id member).1, Option.isSome_iff_ne_none.mpr (isChosen id member).2⟩
  refine ⟨looseBuilt, ?_, ?_, choice, copied.duplicate, ?_, fun id issued => ?_⟩
  · rw [aside.roots, roots, piecesQ.extended.roots]
  · rw [aside.index, index, piecesQ.extended.index]
  · have keptBuilt : ∀ {id kind}, before.New id → moved.kindAt id = some kind →
        built.kindAt id = some kind :=
      fun _ known => addition.kinds (kept known) not_false
    have isChoiceBuilt := addition.kinds isChoice not_false
    obtain ⟨first, _, isFirst, others, rfl⟩ := List.forall₂_cons_left_iff.mp areStmts
    obtain ⟨second, _, isSecond, last, rfl⟩ := List.forall₂_cons_left_iff.mp others
    obtain ⟨third, _, isThird, none, rfl⟩ := List.forall₂_cons_left_iff.mp last
    obtain rfl := List.forall₂_nil_left_iff.mp none
    have declaresBuilt := declares.of_kinds keptBuilt
    have setsBuilt := sets.of_kinds keptBuilt
    obtain rfl := isThird.same (by rw [isChoiceBuilt]; rfl)
    exact ⟨list, first, second, asked.definition, asked.onGpu, asked.set, query, use, isBlock,
      isList, isFirst.wrapper declaresBuilt.newExpr.isExpr, declaresBuilt,
      isSecond.wrapper setsBuilt.newExpr.isExpr, setsBuilt, calls.of_kinds keptBuilt,
      ⟨piecesQ.past newChoice, isChoiceBuilt⟩,
      ⟨piecesQ.past newUse, addition.kinds isUse not_false⟩, copiesMoved.of_kinds keptBuilt⟩
  · have notCopy : id ≠ copied.duplicate := by
      rintro rfl
      exact notNew issued (piecesQ.new _ (by simp))
    rw [aside.nodes id (notNew issued), nodes id (by rwa [piecesQ.extended.same_node issued]),
      piecesQ.extended.same_node issued]
    simp [notCopy]

/-! ## What was there before -/

namespace TakenUp

variable {built : Program} (takenUp : TakenUp before variant choice built)
  (wellFormed : WellFormed before)
include takenUp

theorem kindAt_eq (issued : (before.get? id).isSome) : built.kindAt id = before.kindAt id := by
  rw [kindAt, takenUp id issued, Option.map_map, kindAt]
  refine Option.map_congr fun node _ => ?_
  rw [Function.comp_apply]
  split <;> rfl

theorem get?_eq (issued : (before.get? id).isSome) (different : id ≠ variant) :
    built.get? id = before.get? id := by
  rw [takenUp id issued]
  simp [different]

theorem holds_iff (issued : (before.get? holder).isSome) {child : NodeId} :
    built.Holds holder child ↔ before.Holds holder child := by
  rw [Holds, Holds, held, held, takenUp.kindAt_eq issued]

include wellFormed

theorem contains_iff {top : NodeId} (issued : (before.get? top).isSome) :
    built.Contains top id ↔ before.Contains top id := by
  have forest := wellFormed.orderly.forest
  constructor
  · intro contained
    induction contained with
    | refl => exact .refl
    | tail _ holds ih =>
      exact ih.tail ((takenUp.holds_iff (forest.issued_of_contains trivial issued ih)).mp holds)
  · exact contains_mono fun _ _ holds => (takenUp.holds_iff holds.issued).mpr holds

theorem reachable_iff (roots : built.roots = before.roots) :
    built.Reachable id ↔ before.Reachable id := by
  rw [Reachable, Reachable, roots]
  refine exists_congr fun root => and_congr_right fun isRoot => ?_
  obtain ⟨kind, known, _⟩ := (Option.any_eq_true _ _).mp (wellFormed.roots_module root isRoot)
  exact takenUp.contains_iff wellFormed (get?_isSome_of_kindAt known)

/-- Of what was there, the block contains what the variant contains. -/
theorem contains_variant (wellFormedBuilt : WellFormed built) (new : before.New block)
    (contained : built.Contains block id) (issued : (before.get? id).isSome) :
    before.Contains variant id := by
  induction contained with
  | refl =>
    rw [new] at issued
    cases issued
  | @tail parent child _ holds ih =>
    by_cases isVariant : child = variant
    · exact isVariant ▸ .refl
    have named : before.parentOf child = some parent := by
      have namedBuilt := (wellFormedBuilt.parent_iff parent child).mp holds
      rwa [parentOf, takenUp.get?_eq issued isVariant, ← parentOf] at namedBuilt
    have holdsBefore := (wellFormed.parent_iff parent child).mpr named
    exact (ih holdsBefore.issued).tail holdsBefore

end TakenUp

/-! ## The block in the place of the loop -/

/-- A statement of the tree is no root, so something of the tree holds it. -/
theorem exists_holder_of_stmt {stmt : Stmt} (wellFormed : WellFormed before)
    (isLoop : before.kindAt loop = some (.stmt stmt)) (reachable : before.Reachable loop) :
    ∃ holder, before.Reachable holder ∧ before.parentOf loop = some holder := by
  rcases reachable.root_or_held with isRoot | ⟨holder, reachableHolder, holds⟩
  · have isModule := wellFormed.roots_module loop isRoot
    rw [isLoop] at isModule
    cases isModule
  · exact ⟨holder, reachableHolder, (wellFormed.parent_iff holder loop).mp holds⟩

/-- Copying leaves a program well-formed. -/
theorem WellFormed.made_of_duplicate {top : NodeId} (wellFormed : WellFormed before)
    (run : Yields (Edit.duplicate top) before copy after) :
    Made Anywhere WellFormed before copy after := by
  simp only [Edit.duplicate, yields_bind, yields_pure] at run
  obtain ⟨copied, _, run, rfl, rfl⟩ := run
  obtain ⟨issued, order, isTwin, duplicated⟩ :=
    duplicated_of_yields wellFormed.orderly.forest trivial (by simp) run
  obtain ⟨source, found⟩ := Option.isSome_iff_exists.mp issued
  refine ⟨⟨(duplicated.orderly trivial issued wellFormed.orderly).wellFormed,
    duplicated.extends_before.since⟩, trivial, ?_⟩
  rw [isTwin, duplicated.copy (duplicated.mem_order.mpr .refl) found]
  rfl

theorem Swapped.kindAt_eq (swapped : Swapped before holder loop block after)
    (different : id ≠ holder) : after.kindAt id = before.kindAt id := by
  obtain ⟨_, _, _, _, kinds⟩ := swapped.kinds
  rw [kinds, if_neg different]

section Placing

variable {built placed : Program} (takenUp : TakenUp before variant choice built)
  (named : before.parentOf loop = some holder)
include takenUp named

theorem TakenUp.parentOf_loop (unattached : before.Unattached variant) :
    built.parentOf loop = some holder := by
  have different : loop ≠ variant := by
    rintro rfl
    rw [unattached.free] at named
    cases named
  obtain ⟨node, found, _⟩ := get?_of_parentOf named
  rw [parentOf, takenUp.get?_eq (by simp [found]) different, ← parentOf, named]

variable (wellFormed : WellFormed before) (wellFormedBuilt : WellFormed built)
  (swapped : Swapped built holder loop block placed)
include wellFormed wellFormedBuilt swapped

/-- The loop is taken out of the index. -/
theorem not_indexed_of_swapped (wellFormedPlaced : WellFormed placed) {category : Category}
    (below : before.Contains loop id) : id ∉ placed.index.entries category := by
  have issued := wellFormed.orderly.issued_of_held trivial
    ((wellFormed.parent_iff holder loop).mpr named)
  rw [wellFormedPlaced.indexed_iff]
  exact fun indexed => swapped.not_reachable_old wellFormedBuilt.orderly trivial trivial
    ((takenUp.contains_iff wellFormed issued).mpr below) indexed.1

variable (isDispatch : IsDispatch before built loop variant block choice copy)
  (roots : built.roots = before.roots)
include isDispatch roots

/-- What lies outside the loop and the variant is part of the tree if it was. -/
theorem reachable_iff_of_swapped (issued : (before.get? id).isSome)
    (notLoop : ¬ before.Contains loop id) (notVariant : ¬ before.Contains variant id) :
    placed.Reachable id ↔ before.Reachable id := by
  have orderly := wellFormedBuilt.orderly
  have issuedLoop := wellFormed.orderly.issued_of_held trivial
    ((wellFormed.parent_iff holder loop).mpr named)
  rw [← takenUp.reachable_iff wellFormed roots]
  refine ⟨fun reachable => ?_, fun reachable => ?_⟩
  · refine (swapped.reachable_before orderly trivial reachable).resolve_right fun inBlock => ?_
    rw [swapped.contains_new_iff orderly trivial] at inBlock
    exact notVariant
      (takenUp.contains_variant wellFormed wellFormedBuilt isDispatch.new_block inBlock issued)
  · exact swapped.reachable_after orderly trivial reachable
      (mt (takenUp.contains_iff wellFormed issuedLoop).mp notLoop)

/-- What lies outside the loop and the variant is indexed as before. -/
theorem indexed_iff_of_swapped (wellFormedPlaced : WellFormed placed) {category : Category}
    (issued : (before.get? id).isSome) (notLoop : ¬ before.Contains loop id)
    (notVariant : ¬ before.Contains variant id) :
    id ∈ placed.index.entries category ↔ id ∈ before.index.entries category := by
  rw [wellFormedPlaced.indexed_iff, wellFormed.indexed_iff, swapped.category,
    takenUp.kindAt_eq issued, reachable_iff_of_swapped takenUp named wellFormed wellFormedBuilt
      swapped isDispatch roots issued notLoop notVariant]

theorem dispatched_of_supplanted (unattached : before.Unattached variant)
    (reachable : before.Reachable holder) (supplanted : built.Supplanted holder loop block placed)
    (wellFormedPlaced : WellFormed placed) :
    Dispatched before holder loop variant block choice placed := by
  have forest := wellFormed.orderly.forest
  have holds := (wellFormed.parent_iff holder loop).mpr named
  have issuedLoop := wellFormed.orderly.issued_of_held trivial holds
  have inLoop : ∀ {id}, built.Contains loop id ↔ before.Contains loop id :=
    takenUp.contains_iff wellFormed issuedLoop
  have apart : ∀ {id}, before.Contains loop id → id ≠ variant := by
    rintro id below rfl
    obtain rfl := forest.eq_of_contains_free trivial below unattached.free
    rw [unattached.free] at named
    cases named
  have inVariant : ∀ {id}, before.Contains variant id → built.Contains block id := fun below =>
    isDispatch.contains_variant.trans
      ((takenUp.contains_iff wellFormed unattached.issued).mpr below)
  refine ⟨?_, fun id below => ?_, fun id below => ?_, fun id issued different notLoop notVariant => ?_,
    fun _ _ below =>
      not_indexed_of_swapped takenUp named wellFormed wellFormedBuilt swapped wellFormedPlaced below,
    fun _ _ issued notLoop notVariant => indexed_iff_of_swapped takenUp named wellFormed
      wellFormedBuilt swapped isDispatch roots wellFormedPlaced issued notLoop notVariant, ?_⟩
  · rw [supplanted.place, takenUp.get?_eq holds.issued ?_]
    rintro rfl
    exact unattached.not_contains_of_reachable wellFormed reachable .refl
  · rw [supplanted.out id (inLoop.mpr below), takenUp.get?_eq ?_ (apart below)]
    exact forest.issued_of_contains trivial issuedLoop below
  · have issued := forest.issued_of_contains trivial unattached.issued below
    obtain ⟨context, into⟩ := supplanted.into id (inVariant below)
    refine ⟨context, ?_⟩
    rw [into, takenUp id issued, Option.map_map]
    refine Option.map_congr fun node _ => ?_
    have notBlock : id ≠ block := by
      rintro rfl
      rw [isDispatch.new_block] at issued
      cases issued
    rw [Function.comp_apply, if_neg notBlock]
    split <;> rfl
  · have notBlock : ¬ built.Contains block id := fun contained => notVariant
      (takenUp.contains_variant wellFormed wellFormedBuilt isDispatch.new_block contained issued)
    have notThis : id ≠ variant := by
      rintro rfl
      exact notVariant .refl
    rw [supplanted.others id different (mt inLoop.mp notLoop) notBlock,
      takenUp.get?_eq issued notThis]
  · rw [supplanted.rest, roots]

end Placing

end Program

/-- The block takes the place of the loop. -/
theorem exists_dispatched {before : Program} {loop variant : NodeId} {stmt : Stmt}
    (wellFormed : WellFormed before) (isLoop : before.kindAt loop = some (.stmt stmt))
    (reachable : before.Reachable loop) (isStmt : (before.kindAt variant).any Kind.isStmt)
    (unattached : before.Unattached variant) :
    ∃ holder block choice copy after, before.parentOf loop = some holder ∧
      Yields (Edit.dispatch loop variant) before () after ∧ WellFormed after ∧
      IsDispatch before after loop variant block choice copy ∧
      Dispatched before holder loop variant block choice after := by
  obtain ⟨holder, reachableHolder, named⟩ := exists_holder_of_stmt wellFormed isLoop reachable
  obtain ⟨node, found, _⟩ := get?_of_kindAt isLoop
  have pieces : Pieces before [] { before with givenLocation? := some node.location } :=
    (Pieces.start wellFormed).frame rfl rfl rfl
  -- the block is built
  obtain ⟨block, built, building, loose, roots, index, choice, copy, isDispatch, takenUp⟩ :=
    pieces.ends_newChoice isLoop isStmt unattached
  have wellFormedBuilt : WellFormed built := by
    have entered : WellFormed { before with givenLocation? := some node.location } :=
      wellFormed_workshop.frame wellFormed rfl rfl rfl
    have known : Known Anywhere { before with givenLocation? := some node.location } variant :=
      ⟨trivial, unattached.issued⟩
    exact (wellFormed_workshop.newChoice known entered.made_of_duplicate building).progress.kept
  have unattachedBlock := loose.unattached block (by simp)
  -- and it replaces the loop
  have namedBuilt := takenUp.parentOf_loop named unattached
  have outside : ¬ built.Contains block holder :=
    unattachedBlock.not_contains_of_reachable wellFormedBuilt
      ((takenUp.reachable_iff wellFormed roots).mpr reachableHolder)
  obtain ⟨placed, replacing⟩ := exists_replace wellFormedBuilt unattachedBlock namedBuilt outside
  have wellFormedPlaced := (wellFormedBuilt.orderly.replace trivial trivial replacing).wellFormed
  obtain ⟨parent, swapped⟩ := exists_swapped replacing
  obtain rfl : parent = holder := Option.some.inj (swapped.named.symm.trans namedBuilt)
  have dispatched := dispatched_of_supplanted takenUp named wellFormed wellFormedBuilt swapped
    isDispatch roots unattached reachableHolder
    (supplanted_of_replace wellFormedBuilt namedBuilt replacing outside) wellFormedPlaced
  let after : Program := { placed with givenLocation? := before.givenLocation? }
  have sameKind : ∀ {id}, after.kindAt id = placed.kindAt id := rfl
  have holds := (wellFormed.parent_iff parent loop).mpr named
  have isDispatchAfter : IsDispatch before after loop variant block choice copy := by
    refine isDispatch.of_kinds fun {id kind} new known => ?_
    have different : id ≠ parent := by
      rintro rfl
      have issued := holds.issued
      rw [new] at issued
      cases issued
    rw [sameKind, swapped.kindAt_eq different, known]
  refine ⟨parent, block, choice, copy, after, named, ?_,
    wellFormed_workshop.frame wellFormedPlaced rfl rfl rfl, isDispatchAfter, ?_⟩
  · rw [Edit.dispatch_eq]
    refine yields_withLocationOf.mpr ⟨node, placed, found, yields_bind.mpr ?_, rfl⟩
    exact ⟨block, built, building, yields_bind.mpr ⟨block, placed, replacing,
      yields_pure.mpr ⟨rfl, rfl⟩⟩⟩
  · exact ⟨dispatched.place, dispatched.loopOut, dispatched.variantIn, dispatched.others,
      dispatched.unindexed, dispatched.indexed, dispatched.roots⟩

/-- **The replacement step.**  A block takes the place of the loop, in the slot that held it.  It
asks where it runs, and picks the variant or a copy that is shown like the loop.  The loop is
taken out with all that it contains, and everything else stays as it is. -/
theorem dispatches {before : Program} {loop variant : NodeId} {stmt : Stmt}
    (wellFormed : WellFormed before) (isLoop : before.kindAt loop = some (.stmt stmt))
    (reachable : before.Reachable loop) (isStmt : (before.kindAt variant).any Kind.isStmt)
    (unattached : before.Unattached variant) :
    ∃ holder block choice copy after, before.parentOf loop = some holder ∧
      Yields (Edit.dispatch loop variant) before () after ∧ WellFormed after ∧
      IsDispatch before after loop variant block choice copy ∧
      (after.render copy).toOption = (after.render loop).toOption ∧
      Dispatched before holder loop variant block choice after := by
  obtain ⟨holder, block, choice, copy, after, named, run, wellFormedAfter, isDispatch, dispatched⟩ :=
    exists_dispatched wellFormed isLoop reachable isStmt unattached
  refine ⟨holder, block, choice, copy, after, named, run, wellFormedAfter, isDispatch, ?_, dispatched⟩
  have keptLoop : ∀ id, before.Contains loop id → after.kindAt id = before.kindAt id := by
    intro id below
    rw [kindAt, dispatched.loopOut id below, Option.map_map, kindAt]
    rfl
  obtain ⟨_, _, _, _, _, _, _, _, _, _, _, _, _, _, _, _, _, copies⟩ := isDispatch
  exact copies.render_eq wellFormed keptLoop

/-- A loop that runs on a condition, and a block that hangs nowhere. -/
def loopInBranch : Program := Edit.making do
  let index ← newVar "i" (some PrimitiveType.int.id)
  let defineIndex ← define index
  let body ← newBlock []
  let low ← newInt 0
  let loop ← newForLoop [index] [low] body false
  let test ← newInt 1
  let choice ← newCond test loop none
  let module ← newModule "m" .user [defineIndex, choice]
  addModule module
  let _ ← newBlock []

/-- The block becomes the branch. -/
theorem dispatches_loopInBranch :
    WellFormed loopInBranch ∧ loopInBranch.Reachable ⟨21⟩ ∧ loopInBranch.Unattached ⟨29⟩ ∧
      loopInBranch.kindAt ⟨23⟩ = some (.stmt (.cond ⟨22⟩ ⟨21⟩ none)) ∧
      ∃ block choice copy after,
        Yields (Edit.dispatch ⟨21⟩ ⟨29⟩) loopInBranch () after ∧ WellFormed after ∧
        after.kindAt ⟨23⟩ = some (.stmt (.cond ⟨22⟩ block none)) ∧
        IsDispatch loopInBranch after ⟨21⟩ ⟨29⟩ block choice copy ∧
        (after.render copy).toOption = (after.render ⟨21⟩).toOption ∧
        Dispatched loopInBranch ⟨23⟩ ⟨21⟩ ⟨29⟩ block choice after := by
  have standsUp : loopInBranch.StandsUp ⟨27⟩ := by decide +kernel
  have inspected := standsUp.inspected
  have wellFormed := inspected.wellFormed
  have isLoop : loopInBranch.kindAt ⟨21⟩ = some (.stmt (.forLoop ⟨19⟩ ⟨20⟩ ⟨16⟩ false)) := by
    decide +kernel
  have reachable : loopInBranch.Reachable ⟨21⟩ := inspected.reachable_iff.mpr (by decide +kernel)
  have notReachable : ¬ loopInBranch.Reachable ⟨29⟩ :=
    mt inspected.reachable_iff.mp (by decide +kernel)
  have unattached : loopInBranch.Unattached ⟨29⟩ := by
    refine ⟨by decide +kernel, by decide +kernel, ?_⟩
    rwa [wellFormed.orderly.isPlaced_iff trivial]
  have isCond : loopInBranch.kindAt ⟨23⟩ = some (.stmt (.cond ⟨22⟩ ⟨21⟩ none)) := by
    decide +kernel
  obtain ⟨holder, block, choice, copy, after, named, run, wellFormedAfter, isDispatch, shown,
      dispatched⟩ :=
    dispatches wellFormed isLoop reachable (by decide +kernel) unattached
  have isHolder : loopInBranch.parentOf ⟨21⟩ = some ⟨23⟩ := by decide +kernel
  obtain rfl : holder = ⟨23⟩ := Option.some.inj (named.symm.trans isHolder)
  refine ⟨wellFormed, reachable, unattached, isCond, block, choice, copy, after, run,
    wellFormedAfter, ?_, isDispatch, shown, dispatched⟩
  obtain ⟨node, found, same⟩ := get?_of_kindAt isCond
  rw [kindAt, dispatched.place, found, Option.map_map, Option.map_some, Function.comp_apply, same]
  rfl

end ProgramTree
