import ProgramTree.Proofs.Moves
import ProgramTree.Proofs.Workshop

/-!
# Crafting

What builders leave besides what a workshop keeps: the nodes that hang nowhere afterwards,
the symbols that the new nodes use, and the symbols that sit in their definitions.
-/

namespace ProgramTree

open Program Edit

/-- What a builder may make of a node that is there: a symbol may get flags or a definition
point, and a type a name. -/
inductive Kind.Reworded : Kind → Kind → Prop where
  | same (kind : Kind) : Reworded kind kind
  | symbol {old new : Symbol} (kind : new.kind = old.kind)
      (defined : old.defPoint?.isSome → new.defPoint?.isSome) :
      Reworded (.symbol old) (.symbol new)
  | type (old? new? : Option NodeId) (kind : TypeKind) :
      Reworded (.type { symbol? := old?, kind }) (.type { symbol? := new?, kind })

namespace Kind.Reworded

variable {first second third : Kind}

theorem trans (left : first.Reworded second) (right : second.Reworded third) :
    first.Reworded third := by
  cases left with
  | same => exact right
  | symbol kind defined =>
    cases right with
    | same => exact .symbol kind defined
    | symbol kindToo definedToo =>
      exact .symbol (kindToo.trans kind) fun point => definedToo (defined point)
  | type =>
    cases right with
    | same => exact .type ..
    | type => exact .type ..

theorem owned (reworded : first.Reworded second) : second.owned = first.owned := by
  cases reworded with
  | same | type => rfl
  | symbol kind => simp [Kind.owned, kind]

theorem isSymbol (reworded : first.Reworded second) : second.isSymbol = first.isSymbol := by
  cases reworded <;> rfl

end Kind.Reworded

namespace Program

/-- The node is a use of the symbol. -/
def Uses (program : Program) (id sym : NodeId) : Prop :=
  program.kindAt id = some (.expr (.use sym))

/-- The symbol is held by its definition point. -/
def Sits (program : Program) (id : NodeId) : Prop :=
  ∃ symbol definition init? declaredType?, program.kindAt id = some (.symbol symbol) ∧
    symbol.defPoint? = some definition ∧
    program.kindAt definition = some (.expr (.definition id init? declaredType?)) ∧
    program.parentOf id = some definition

/-- The node is there, and is no symbol. -/
def Solid (program : Program) (id : NodeId) : Prop :=
  (program.kindAt id).any (!·.isSymbol)

/-- A symbol that may be used. -/
def Usable (allowed : NodeId → Prop) (program : Program) (sym : NodeId) : Prop :=
  allowed sym ∧ (program.kindAt sym).any Kind.isSymbol

/-- Builders lead from one program to the other.  What they took over hangs somewhere, and of
the new nodes only those that were made hang nowhere. -/
structure Crafted (allowed : NodeId → Prop) (taken made : List NodeId) (before after : Program) :
    Prop where
  kinds : ∀ {id kind}, before.kindAt id = some kind →
    ∃ later, after.kindAt id = some later ∧ kind.Reworded later
  uses : ∀ {id sym}, before.New id → after.Uses id sym → Usable allowed after sym
  roots : after.roots = before.roots
  parents : ∀ {id parent}, before.parentOf id = some parent → after.parentOf id = some parent
  tops : ∀ {id}, (after.get? id).isSome → after.parentOf id = none →
    id ∈ made ∨ (before.get? id).isSome ∧ before.parentOf id = none ∧ id ∉ taken
  points : ∀ {id old new}, before.kindAt id = some (.symbol old) → before.parentOf id ≠ none →
    after.kindAt id = some (.symbol new) → new.defPoint? = old.defPoint?
  sits : ∀ {id}, (after.kindAt id).any Kind.isSymbol → after.parentOf id ≠ none →
    before.parentOf id ≠ none ∨ after.Sits id

/-- Builders made the node, or took it as it was, and it is no symbol. -/
structure Assembled (allowed : NodeId → Prop) (taken : List NodeId) (before : Program)
    (answer : NodeId) (after : Program) : Prop where
  crafted : Crafted allowed taken [answer] before after
  solid : Solid after answer

/-- Builders made a symbol that is not defined yet. -/
structure Named (allowed : NodeId → Prop) (before : Program) (answer : NodeId) (after : Program) :
    Prop where
  crafted : Crafted allowed [] [answer] before after
  fresh : before.New answer
  symbol : (after.kindAt answer).any Kind.isSymbol

variable {allowed : NodeId → Prop} {before between after : Program}
  {id sym answer var : NodeId} {id? : Option NodeId} {ids answers taken more made : List NodeId}
  {kind changed : Kind} {holds : ListCategory} {done : Unit}

theorem Solid.of_kind (known : before.kindAt id = some kind) (noSymbol : kind.isSymbol = false) :
    Solid before id := by
  simp [Solid, known, noSymbol]

theorem Solid.not_isSymbol (solid : Solid before id) : ¬ (before.kindAt id).any Kind.isSymbol := by
  obtain ⟨kind, known, noSymbol⟩ := (Option.any_eq_true _ _).mp solid
  simpa [known] using noSymbol

theorem Solid.issued (solid : Solid before id) : (before.get? id).isSome :=
  get?_isSome_of_any solid

theorem Solid.since (solid : Solid before id) (since : Since before after) : Solid after id := by
  obtain ⟨kind, known, noSymbol⟩ := (Option.any_eq_true _ _).mp solid
  obtain ⟨later, knownLater, outlives⟩ := since id kind known
  exact .of_kind knownLater (by simpa [outlives.isSymbol] using noSymbol)

/-! ## Steps in a row -/

namespace Crafted

section Basics

variable (crafted : Crafted allowed taken made before after)
include crafted

theorem issued (issued : (before.get? id).isSome) : (after.get? id).isSome := by
  obtain ⟨node, found⟩ := Option.isSome_iff_exists.mp issued
  obtain ⟨_, known, _⟩ := crafted.kinds (kindAt_eq found)
  exact get?_isSome_of_kindAt known

theorem new (new : after.New id) : before.New id := by
  by_contra issued
  have issuedAfter := crafted.issued (Option.isSome_iff_ne_none.mpr issued)
  simp [new] at issuedAfter

theorem isSymbol_iff (issued : (before.get? id).isSome) :
    (after.kindAt id).any Kind.isSymbol ↔ (before.kindAt id).any Kind.isSymbol := by
  obtain ⟨node, found⟩ := Option.isSome_iff_exists.mp issued
  obtain ⟨later, known, reworded⟩ := crafted.kinds (kindAt_eq found)
  rw [known, kindAt_eq found, Option.any_some, Option.any_some, reworded.isSymbol]

theorem isSymbol (symbol : (before.kindAt id).any Kind.isSymbol) :
    (after.kindAt id).any Kind.isSymbol :=
  (crafted.isSymbol_iff (get?_isSome_of_any symbol)).mpr symbol

theorem solid (solid : Solid before id) : Solid after id := by
  obtain ⟨kind, known, noSymbol⟩ := (Option.any_eq_true _ _).mp solid
  obtain ⟨later, knownLater, reworded⟩ := crafted.kinds known
  exact .of_kind knownLater (by simpa [reworded.isSymbol] using noSymbol)

/-- What is neither a symbol nor a type stays what it is. -/
theorem kept (known : before.kindAt id = some kind) (noSymbol : kind.isSymbol = false)
    (noType : kind.isType = false) : after.kindAt id = some kind := by
  obtain ⟨later, knownLater, reworded⟩ := crafted.kinds known
  cases reworded with
  | same => exact knownLater
  | symbol => cases noSymbol
  | type => cases noType

/-- A use was there, or it uses a symbol that may be used. -/
theorem uses_before (uses : after.Uses id sym) :
    before.Uses id sym ∨ before.New id ∧ Usable allowed after sym := by
  cases known : before.kindAt id with
  | none =>
    have new := get?_eq_none_iff_kindAt.mpr known
    exact .inr ⟨new, crafted.uses new uses⟩
  | some earlier =>
    obtain ⟨later, knownLater, reworded⟩ := crafted.kinds known
    obtain rfl : later = .expr (.use sym) := Option.some.inj (knownLater.symm.trans uses)
    cases reworded with
    | same => exact .inl known

theorem keepsSitting (sitting : before.Sits id) : after.Sits id := by
  obtain ⟨symbol, definition, init?, declaredType?, isSymbol, point, isDefinition, named⟩ := sitting
  obtain ⟨later, known, reworded⟩ := crafted.kinds isSymbol
  have isDefinitionLater := crafted.kept isDefinition rfl rfl
  cases reworded with
  | same =>
    exact ⟨symbol, definition, init?, declaredType?, known, point, isDefinitionLater,
      crafted.parents named⟩
  | @symbol _ new =>
    have samePoint := crafted.points isSymbol (by simp [named]) known
    exact ⟨new, definition, init?, declaredType?, known, samePoint.trans point, isDefinitionLater,
      crafted.parents named⟩

/-- Less may be said about what was taken over, and more nodes may be counted as made. -/
theorem mono {takenToo madeToo : List NodeId} (counted : ∀ id ∈ made, id ∈ madeToo)
    (took : ∀ id ∈ takenToo, id ∈ taken ∨ id ∈ madeToo) :
    Crafted allowed takenToo madeToo before after :=
  { crafted with
    tops := fun {id} issued parentless => by
      rcases crafted.tops issued parentless with isMade | ⟨issuedBefore, free, untaken⟩
      · exact .inl (counted id isMade)
      · by_cases isTaken : id ∈ takenToo
        · exact .inl ((took id isTaken).resolve_left untaken)
        · exact .inr ⟨issuedBefore, free, isTaken⟩ }

/-- What was made first may be taken over by the next steps. -/
theorem followedBy {results final : List NodeId} {consumed : List NodeId}
    (next : Crafted allowed more results after between)
    (left : ∀ id ∈ made, id ∈ more ∨ id ∈ final) (right : ∀ id ∈ results, id ∈ final)
    (took : ∀ id ∈ consumed, id ∈ taken ∨ id ∈ more) :
    Crafted allowed consumed final before between where
  kinds known := by
    obtain ⟨middle, knownMiddle, first⟩ := crafted.kinds known
    obtain ⟨later, knownLater, second⟩ := next.kinds knownMiddle
    exact ⟨later, knownLater, first.trans second⟩
  uses new uses := by
    rcases next.uses_before uses with usesMiddle | ⟨_, usable⟩
    · exact (crafted.uses new usesMiddle).imp_right next.isSymbol
    · exact usable
  roots := next.roots.trans crafted.roots
  parents named := next.parents (crafted.parents named)
  tops {id} issued parentless := by
    rcases next.tops issued parentless with isResult | ⟨issuedAfter, free, untaken⟩
    · exact .inl (right id isResult)
    · rcases crafted.tops issuedAfter free with isMade | ⟨issuedBefore, freeBefore, untakenBefore⟩
      · exact .inl ((left id isMade).resolve_left untaken)
      · exact .inr ⟨issuedBefore, freeBefore, fun isTaken =>
          (took id isTaken).elim untakenBefore untaken⟩
  points {id old new} isSymbol held isSymbolLater := by
    obtain ⟨middle, knownMiddle, reworded⟩ := crafted.kinds isSymbol
    obtain ⟨parent, named⟩ := Option.ne_none_iff_exists'.mp held
    obtain ⟨point, rfl⟩ : ∃ point, middle = .symbol point := by
      cases reworded with
      | same => exact ⟨_, rfl⟩
      | symbol => exact ⟨_, rfl⟩
    exact (next.points knownMiddle (by simp [crafted.parents named]) isSymbolLater).trans
      (crafted.points isSymbol held knownMiddle)
  sits {id} isSymbol held := by
    rcases next.sits isSymbol held with heldMiddle | sitting
    · obtain ⟨parent, named⟩ := Option.ne_none_iff_exists'.mp heldMiddle
      obtain ⟨node, found, _⟩ := get?_of_parentOf named
      have isSymbolMiddle := (next.isSymbol_iff (by simp [found])).mp isSymbol
      exact (crafted.sits isSymbolMiddle heldMiddle).imp_right next.keepsSitting
    · exact .inr sitting

end Basics

/-- The next steps, after steps that took over nothing. -/
theorem andThen {results : List NodeId} (crafted : Crafted allowed [] made before after)
    (next : Crafted allowed more results after between) (final : List NodeId)
    (left : ∀ id ∈ made, id ∈ more ∨ id ∈ final) (right : ∀ id ∈ results, id ∈ final) :
    Crafted allowed [] final before between :=
  crafted.followedBy next left right (by simp)

theorem refl : Crafted allowed [] [] before before where
  kinds known := ⟨_, known, .same _⟩
  uses new uses := by simp [Uses, get?_eq_none_iff_kindAt.mp new] at uses
  roots := rfl
  parents named := named
  tops issued parentless := .inr ⟨issued, parentless, by simp⟩
  points known _ knownAgain := by
    obtain ⟨⟩ := known.symm.trans knownAgain
    rfl
  sits _ held := .inl held

/-- Nothing but attributions changed. -/
theorem of_nodes (nodes : after.nodes = before.nodes) (roots : after.roots = before.roots) :
    Crafted allowed [] [] before after := by
  have same : after.get? = before.get? := by
    funext id
    rw [get?, get?, nodes]
  have kinds : after.kindAt = before.kindAt := by
    funext id
    rw [kindAt, kindAt, same]
  have parents : after.parentOf = before.parentOf := by
    funext id
    rw [parentOf, parentOf, same]
  refine ⟨?_, ?_, roots, ?_, ?_, ?_, ?_⟩
  · exact fun known => ⟨_, kinds ▸ known, .same _⟩
  · intro id sym new uses
    rw [Uses, kinds, get?_eq_none_iff_kindAt.mp new] at uses
    cases uses
  · exact fun named => parents ▸ named
  · intro id issued parentless
    rw [same] at issued
    rw [parents] at parentless
    exact .inr ⟨issued, parentless, by simp⟩
  · intro id old new known _ knownAgain
    obtain ⟨⟩ := known.symm.trans (kinds ▸ knownAgain)
    rfl
  · exact fun _ held => .inl (parents ▸ held)

/-- A fresh node took over nodes that are no symbols. -/
theorem of_adopted (plain : ∀ sym, kind = .expr (.use sym) → Usable allowed before sym)
    (pushed : Pushed before kind between)
    (adopted : Adopted between before.nextId kind.owned after)
    (solid : ∀ child ∈ kind.owned, Solid before child) :
    Crafted allowed kind.owned [before.nextId] before after := by
  have old : ∀ {id}, (before.get? id).isSome → id ≠ before.nextId := by
    rintro id issued rfl
    simp [get?_nextId] at issued
  have grown := pushed.grown adopted fun owned => old (solid _ owned).issued rfl
  have oldParent : ∀ {id parent}, before.parentOf id = some parent → id ≠ before.nextId := by
    intro id parent named
    obtain ⟨node, found, _⟩ := get?_of_parentOf named
    exact old (by simp [found])
  have free : ∀ child ∈ kind.owned, before.parentOf child = none := by
    intro child owned
    have freeBetween := adopted.free owned
    rwa [pushed.parents (old (solid child owned).issued)] at freeBetween
  have keptKind : ∀ {id kind}, before.kindAt id = some kind → after.kindAt id = some kind := by
    intro id kind known
    rw [grown.kinds, known]
    rintro rfl
    simp [Program.kindAt, get?_nextId] at known
  refine ⟨fun known => ⟨_, keptKind known, .same _⟩, ?_, grown.roots, ?_, ?_, ?_, ?_⟩
  · intro id sym new uses
    by_cases fresh : id = before.nextId
    · subst fresh
      refine (plain sym (Option.some.inj (grown.known.symm.trans uses))).imp_right fun symbol => ?_
      obtain ⟨data, isData, isSymbol⟩ := (Option.any_eq_true _ _).mp symbol
      rwa [keptKind isData]
    · rw [Uses, grown.kinds fresh, get?_eq_none_iff_kindAt.mp new] at uses
      cases uses
  · intro id parent named
    rw [grown.parents (oldParent named), named]
    intro owned
    rw [free id owned] at named
    cases named
  · intro id issued parentless
    by_cases fresh : id = before.nextId
    · exact .inl (by simp [fresh])
    · have untaken : id ∉ kind.owned := fun owned => by
        simp [grown.parent_child owned] at parentless
      rw [grown.parents fresh untaken] at parentless
      refine .inr ⟨?_, parentless, untaken⟩
      obtain ⟨node, found⟩ := Option.isSome_iff_exists.mp issued
      have known := kindAt_eq found
      rw [grown.kinds fresh] at known
      exact get?_isSome_of_kindAt known
  · intro id first second known _ knownAgain
    obtain ⟨⟩ := (keptKind known).symm.trans knownAgain
    rfl
  · intro id isSymbol held
    left
    by_cases fresh : id = before.nextId
    · simp [fresh, grown.parent] at held
    · rw [grown.kinds fresh] at isSymbol
      rwa [grown.parents fresh fun owned => (solid id owned).not_isSymbol isSymbol] at held

/-- A node says something else about itself, but keeps its definition point. -/
theorem of_setKind (run : Yields (setKind id changed) before done after)
    (known : before.kindAt id = some kind) (reworded : kind.Reworded changed)
    (point : changed.definition? = kind.definition?) : Crafted allowed [] [] before after := by
  obtain ⟨_, rfl⟩ := yields_change.mp run
  refine ⟨?_, ?_, roots_modifyNode, fun named => parentOf_setKind.trans named, ?_, ?_,
    fun _ held => .inl (parentOf_setKind ▸ held)⟩
  · intro other otherKind knownOther
    rw [kindAt_setKind known]
    by_cases isId : other = id
    · subst isId
      obtain rfl : kind = otherKind := Option.some.inj (known.symm.trans knownOther)
      exact ⟨changed, if_pos rfl, reworded⟩
    · exact ⟨otherKind, by rw [if_neg isId, knownOther], .same otherKind⟩
  · intro other sym new uses
    rw [Uses, kindAt_setKind known, get?_eq_none_iff_kindAt.mp new] at uses
    have isId : other = id := by
      by_contra different
      simp [different] at uses
    rw [New, isId, get?_eq_none_iff_kindAt, known] at new
    cases new
  · intro other issued parentless
    rw [parentOf_setKind] at parentless
    exact .inr ⟨by simpa [get?_modifyNode_map] using issued, parentless, by simp⟩
  · intro other old new isSymbol _ isSymbolLater
    rw [kindAt_setKind known] at isSymbolLater
    by_cases isId : other = id
    · subst isId
      rw [if_pos rfl, Option.some.injEq] at isSymbolLater
      obtain rfl : kind = .symbol old := Option.some.inj (known.symm.trans isSymbol)
      subst isSymbolLater
      exact point
    · rw [if_neg isId, isSymbol] at isSymbolLater
      obtain ⟨⟩ := isSymbolLater
      rfl

end Crafted

/-! ## Definitions -/

/-- The next node is a definition that took over the free-standing symbol, which names it. -/
structure Defining (before : Program) (sym : NodeId) (symbol : Symbol) (after : Program) :
    Prop where
  isSymbol : before.kindAt sym = some (.symbol symbol)
  free : before.parentOf sym = none
  kind_sym : after.kindAt sym = some (.symbol { symbol with defPoint? := some before.nextId })
  kind_definition : after.kindAt before.nextId = some (.expr (.definition sym none none))
  kinds : ∀ {id}, id ≠ sym → id ≠ before.nextId → after.kindAt id = before.kindAt id
  parent_sym : after.parentOf sym = some before.nextId
  parent_definition : after.parentOf before.nextId = none
  parents : ∀ {id}, id ≠ sym → id ≠ before.nextId → after.parentOf id = before.parentOf id
  roots : after.roots = before.roots

theorem exists_defining (run : Yields (define sym) before answer after) :
    answer = before.nextId ∧ ∃ symbol, Defining before sym symbol after := by
  simp only [define, newDefinition, asOperand?, changeSymbol, setKind, yields_bind, yields_look,
    yields_ite, yields_fail, yields_pure, yields_change, symbol_eq_ok] at run
  obtain ⟨_, _, ⟨_, rfl⟩, ⟨_, _, _, never, _⟩ | ⟨_, run⟩⟩ := run
  · exact never.elim
  obtain ⟨_, _, ⟨rfl, rfl⟩, _, origin, ⟨rfl, rfl⟩, _, _, created, _, _, adoption, _, _,
    ⟨symbol, adopting, ⟨isSymbol, rfl⟩, _, rfl⟩, rfl, rfl⟩ := run
  obtain ⟨rfl, pushed⟩ := pushed_withLocationOf created
  have adopted := Edit.adopted adoption
  have old : sym ≠ origin.nextId := by
    rintro rfl
    rw [adopted.kindAt, pushed.kindAt] at isSymbol
    cases isSymbol
  have grown : Grown origin (.expr (.definition sym none none)) adopting :=
    pushed.grown adopted (by simpa [Kind.owned, Expr.owned] using Ne.symm old)
  have isChild : sym ∈ (Kind.expr (.definition sym none none)).owned := by
    simp [Kind.owned, Expr.owned]
  have freeBetween := adopted.free (by simp : sym ∈ _)
  refine ⟨rfl, symbol, ?_, ?_, ?_, ?_, fun notSym fresh => ?_, ?_, ?_, fun notSym fresh => ?_, ?_⟩
  · rw [← grown.kinds old, isSymbol]
  · rwa [pushed.parents old] at freeBetween
  · rw [kindAt_setKind isSymbol, if_pos rfl]
  · rw [kindAt_setKind isSymbol, if_neg (Ne.symm old), grown.known]
  · rw [kindAt_setKind isSymbol, if_neg notSym, grown.kinds fresh]
  · rw [parentOf_setKind, grown.parent_child isChild]
  · rw [parentOf_setKind, grown.parent]
  · rw [parentOf_setKind, grown.parents fresh (by simpa [Kind.owned, Expr.owned] using notSym)]
  · rw [roots_modifyNode, grown.roots]

section Defining

variable {symbol : Symbol} (defining : Defining before sym symbol after)
include defining

theorem Defining.sits : after.Sits sym :=
  ⟨_, before.nextId, none, none, defining.kind_sym, rfl, defining.kind_definition,
    defining.parent_sym⟩

/-- The symbol sits in its definition from then on. -/
theorem Defining.crafted : Crafted allowed [sym] [before.nextId] before after := by
  have known_ne : ∀ {id kind}, before.kindAt id = some kind → id ≠ before.nextId := by
    rintro id kind known rfl
    simp [kindAt, get?_nextId] at known
  refine ⟨fun {id kind} known => ?_, fun {id user} new uses => ?_, defining.roots,
    fun {id parent} named => ?_, fun {id} issued parentless => ?_, fun {id old new} known held
      knownLater => ?_, fun {id} _ held => ?_⟩
  · by_cases isSym : id = sym
    · subst isSym
      obtain rfl : kind = .symbol symbol := Option.some.inj (known.symm.trans defining.isSymbol)
      exact ⟨_, defining.kind_sym, .symbol rfl fun _ => rfl⟩
    · exact ⟨kind, (defining.kinds isSym (known_ne known)).trans known, .same kind⟩
  · by_cases isSym : id = sym
    · rw [Uses, isSym, defining.kind_sym] at uses
      cases uses
    · by_cases fresh : id = before.nextId
      · rw [Uses, fresh, defining.kind_definition] at uses
        cases uses
      · rw [Uses, defining.kinds isSym fresh, get?_eq_none_iff_kindAt.mp new] at uses
        cases uses
  · rw [defining.parents, named]
    · rintro rfl
      simp [defining.free] at named
    · rintro rfl
      simp [parentOf, get?_nextId] at named
  · by_cases fresh : id = before.nextId
    · exact .inl (by simp [fresh])
    · have notSym : id ≠ sym := by
        rintro rfl
        simp [defining.parent_sym] at parentless
      rw [defining.parents notSym fresh] at parentless
      refine .inr ⟨?_, parentless, by simpa using notSym⟩
      obtain ⟨node, found⟩ := Option.isSome_iff_exists.mp issued
      have known := kindAt_eq found
      rw [defining.kinds notSym fresh] at known
      exact get?_isSome_of_kindAt known
  · have notSym : id ≠ sym := by
      rintro rfl
      exact held defining.free
    rw [defining.kinds notSym (known_ne known), known] at knownLater
    obtain ⟨⟩ := knownLater
    rfl
  · by_cases isSym : id = sym
    · exact .inr (isSym ▸ defining.sits)
    · left
      by_cases fresh : id = before.nextId
      · simp [fresh, defining.parent_definition] at held
      · rwa [defining.parents isSym fresh] at held

end Defining

/-- The definition takes over the symbol. -/
theorem Assembled.of_define (run : Yields (define sym) before answer after) :
    Assembled allowed [sym] before answer after := by
  obtain ⟨rfl, symbol, defining⟩ := exists_defining run
  exact ⟨defining.crafted, .of_kind defining.kind_definition rfl⟩

theorem kindAt_newHolder (run : Yields (newHolder kind ids) before answer after) :
    after.kindAt answer = some kind := by
  simp only [newHolder, yields_bind, yields_newNode, yields_pure] at run
  obtain ⟨_, _, ⟨rfl, rfl⟩, _, _, adoption, rfl, rfl⟩ := run
  exact ((Edit.adopted adoption).kindAt _).trans pushed_push.kindAt

namespace Crafted

/-! ## Single nodes -/

theorem of_newHolder (run : Yields (newHolder kind ids) before answer after)
    (plain : ∀ sym, kind = .expr (.use sym) → Usable allowed before sym) (owned : kind.owned = ids)
    (solid : ∀ child ∈ ids, Solid before child) :
    Crafted allowed ids [answer] before after ∧ before.New answer ∧
      after.kindAt answer = some kind := by
  have known := kindAt_newHolder run
  subst owned
  simp only [newHolder, yields_bind, yields_newNode, yields_pure] at run
  obtain ⟨_, _, ⟨rfl, rfl⟩, _, _, adoption, rfl, rfl⟩ := run
  exact ⟨of_adopted plain pushed_push (Edit.adopted adoption) solid, get?_nextId before, known⟩

theorem of_newNode (run : Yields (newNode kind) before answer after)
    (plain : ∀ sym, kind = .expr (.use sym) → Usable allowed before sym) (leaf : kind.owned = []) :
    Crafted allowed [] [answer] before after ∧ before.New answer ∧
      after.kindAt answer = some kind := by
  have holder : Yields (newHolder kind []) before answer after := by
    simp only [newHolder, yields_bind, yields_pure]
    exact ⟨answer, after, run, (), after, yields_forM_nil.mpr rfl, rfl, rfl⟩
  exact of_newHolder holder plain leaf (by simp)

theorem of_addFlag {flag : Flag} (run : Yields (addFlag id flag) before done after) :
    Crafted allowed [] [] before after := by
  simp only [addFlag, changeSymbol, yields_bind, yields_look, symbol_eq_ok] at run
  obtain ⟨symbol, _, ⟨known, rfl⟩, run⟩ := run
  exact of_setKind run known (.symbol rfl fun point => point) rfl

end Crafted

namespace Named

theorem of_newSymbol {name : String} {kind : SymbolKind} (leaf : kind.owned = [])
    (run : Yields (newSymbol name id? kind) before answer after) :
    Named allowed before answer after := by
  obtain ⟨crafted, fresh, isSymbol⟩ := Crafted.of_newNode run (by simp) leaf
  exact ⟨crafted, fresh, by simp [isSymbol, Kind.isSymbol, Kind.symbol?]⟩

theorem of_newTemp {name : String} (run : Yields (newTemp name id?) before answer after) :
    Named allowed before answer after := by
  simp only [newTemp, yields_bind, yields_pure] at run
  obtain ⟨_, between, runVar, _, _, runFlag, rfl, rfl⟩ := run
  have named : Named allowed before answer between := of_newSymbol rfl runVar
  have flagged : Crafted allowed [] [] between after := .of_addFlag runFlag
  exact ⟨named.crafted.followedBy flagged (fun _ member => .inr member) (by simp) (by simp),
    named.fresh, flagged.isSymbol named.symbol⟩

end Named

/-! ## Operands, statements and lists -/

namespace Assembled

theorem of_newHolder (run : Yields (newHolder kind ids) before answer after)
    (plain : ∀ sym, kind ≠ .expr (.use sym)) (owned : kind.owned = ids)
    (noSymbol : kind.isSymbol = false) (solid : ∀ child ∈ ids, Solid before child) :
    Assembled allowed ids before answer after := by
  obtain ⟨crafted, _, known⟩ :=
    Crafted.of_newHolder run (fun sym same => absurd same (plain sym)) owned solid
  exact ⟨crafted, .of_kind known noSymbol⟩

/-- The node is there already. -/
theorem found (solid : Solid before id) : Assembled allowed [id] before id before :=
  ⟨Crafted.refl.mono (by simp) fun _ member => .inr member, solid⟩

theorem following (assembled : Assembled allowed more between answer after)
    (crafted : Crafted allowed taken made before between)
    (left : ∀ id ∈ made, id ∈ more) (took : ∀ id ∈ ids, id ∈ taken ∨ id ∈ more) :
    Assembled allowed ids before answer after :=
  ⟨crafted.followedBy assembled.crafted (fun id member => .inl (left id member))
    (fun _ member => member) took, assembled.solid⟩

theorem of_newUse (usable : Usable allowed before sym)
    (run : Yields (newUse sym) before answer after) : Assembled allowed [] before answer after := by
  obtain ⟨crafted, _, known⟩ := Crafted.of_newNode run (by rintro _ ⟨⟩; exact usable) rfl
  exact ⟨crafted, .of_kind known rfl⟩

theorem of_newLiteral {value : Literal} (run : Yields (newLiteral value) before answer after) :
    Assembled allowed [] before answer after := by
  obtain ⟨crafted, _, known⟩ := Crafted.of_newNode run (by simp) rfl
  exact ⟨crafted, .of_kind known rfl⟩

/-- A symbol is used, anything else is taken as it is. -/
theorem of_asOperand (operand : Solid before id ∨ allowed id)
    (run : Yields (asOperand id) before answer after) :
    Assembled allowed [] before answer after ∧ (Solid before id → answer = id) := by
  simp only [asOperand, yields_bind, yields_look, isSymbol_eq_ok, yields_ite] at run
  obtain ⟨isSymbol, origin, ⟨known, rfl⟩, run⟩ := run
  obtain ⟨kind, isKind, rfl⟩ := Option.map_eq_some_iff.mp known
  rcases run with ⟨symbol, run⟩ | ⟨noSymbol, run⟩
  · have isSymbol : (origin.kindAt id).any Kind.isSymbol := by simpa [isKind] using symbol
    have notSolid : ¬ Solid origin id := fun solid => solid.not_isSymbol isSymbol
    exact ⟨of_newUse ⟨operand.resolve_left notSolid, isSymbol⟩ run,
      fun solid => absurd solid notSolid⟩
  · obtain ⟨rfl, rfl⟩ := yields_pure.mp run
    have solid := Solid.of_kind isKind (by simpa using noSymbol)
    exact ⟨⟨Crafted.refl.mono (by simp) (by simp), solid⟩, fun _ => rfl⟩

theorem of_asStmt (solid : Solid before id) (run : Yields (asStmt id) before answer after) :
    Assembled allowed [id] before answer after := by
  simp only [asStmt, newExprStmt, yields_bind, yields_look, yields_ite, yields_pure] at run
  obtain ⟨kind, _, ⟨_, rfl⟩, ⟨_, _, _, created, _, _, adoption, rfl, rfl⟩ | ⟨_, rfl, rfl⟩⟩ := run
  · obtain ⟨rfl, pushed⟩ := pushed_withLocationOf created
    have adopted := Edit.adopted adoption
    refine ⟨Crafted.of_adopted (by rintro _ ⟨⟩) pushed adopted ?_, ?_⟩
    · simpa [Kind.owned, Stmt.owned] using solid
    · exact .of_kind ((adopted.kindAt _).trans pushed.kindAt) rfl
  · exact found solid

theorem of_asElement (solid : Solid before id)
    (run : Yields (asElement holds id) before answer after) :
    Assembled allowed [id] before answer after := by
  cases holds with
  | stmts => exact of_asStmt solid run
  | exprs | defs =>
    obtain ⟨rfl, rfl⟩ := yields_pure.mp run
    exact found solid

end Assembled

theorem Crafted.of_elements (solid : ∀ id ∈ ids, Solid before id)
    (run : Yields (ids.mapM (asElement holds)) before answers after) :
    Crafted allowed ids answers before after ∧ ∀ answer ∈ answers, Solid after answer := by
  induction ids generalizing before answers with
  | nil =>
    obtain ⟨rfl, rfl⟩ := yields_pure.mp run
    exact ⟨refl, nofun⟩
  | cons first rest ih =>
    simp only [List.mapM_cons, yields_bind, yields_pure] at run
    obtain ⟨answer, middle, runFirst, later, _, runRest, rfl, rfl⟩ := run
    obtain ⟨solidFirst, solidRest⟩ := List.forall_mem_cons.mp solid
    have assembled : Assembled allowed [first] before answer middle :=
      .of_asElement solidFirst runFirst
    obtain ⟨crafted, solidLater⟩ :=
      ih (fun id member => assembled.crafted.solid (solidRest id member)) runRest
    refine ⟨assembled.crafted.followedBy crafted (by simp) (fun _ => List.mem_cons_of_mem _)
      (by simp), ?_⟩
    exact List.forall_mem_cons.mpr ⟨crafted.solid assembled.solid, solidLater⟩

theorem Crafted.of_operands (operands : ∀ id ∈ ids, Solid before id ∨ allowed id)
    (run : Yields (ids.mapM asOperand) before answers after) :
    Crafted allowed [] answers before after ∧ (∀ answer ∈ answers, Solid after answer) ∧
      ∀ id ∈ ids, Solid before id → id ∈ answers := by
  induction ids generalizing before answers with
  | nil =>
    obtain ⟨rfl, rfl⟩ := yields_pure.mp run
    exact ⟨refl, nofun, nofun⟩
  | cons first rest ih =>
    simp only [List.mapM_cons, yields_bind, yields_pure] at run
    obtain ⟨answer, middle, runFirst, later, _, runRest, rfl, rfl⟩ := run
    obtain ⟨operandFirst, operandsRest⟩ := List.forall_mem_cons.mp operands
    obtain ⟨assembled, same⟩ := Assembled.of_asOperand operandFirst runFirst
    obtain ⟨crafted, solidLater, members⟩ :=
      ih (fun id member => (operandsRest id member).imp_left assembled.crafted.solid) runRest
    refine ⟨assembled.crafted.followedBy crafted (by simp) (fun _ => List.mem_cons_of_mem _)
      (by simp), ?_, ?_⟩
    · exact List.forall_mem_cons.mpr ⟨crafted.solid assembled.solid, solidLater⟩
    · refine List.forall_mem_cons.mpr ⟨fun solid => by simp [same solid], fun id member solid => ?_⟩
      exact List.mem_cons_of_mem _ (members id member (assembled.crafted.solid solid))

namespace Assembled

theorem of_newList (solid : ∀ id ∈ ids, Solid before id)
    (run : Yields (newList holds ids) before answer after) :
    Assembled allowed ids before answer after := by
  obtain ⟨elements, middle, runElements, runList⟩ := yields_bind.mp run
  obtain ⟨crafted, solidElements⟩ : Crafted allowed ids elements before middle ∧ _ :=
    Crafted.of_elements solid runElements
  have assembled : Assembled allowed elements middle answer after :=
    of_newHolder runList (by simp) (by simp [Kind.owned]) rfl solidElements
  exact assembled.following crafted (fun _ member => member) fun _ member => .inl member

/-- What is taken over are operands that are no symbols. -/
theorem of_newOperands (operands : ∀ id ∈ ids, Solid before id ∨ allowed id)
    (took : ∀ id ∈ taken, id ∈ ids ∧ Solid before id)
    (run : Yields (newOperands ids) before answer after) :
    Assembled allowed taken before answer after := by
  obtain ⟨uses, middle, runUses, runList⟩ := yields_bind.mp run
  obtain ⟨crafted, solidUses, members⟩ := Crafted.of_operands operands runUses
  have assembled : Assembled allowed uses middle answer after := of_newList solidUses runList
  exact assembled.following crafted (fun _ member => member) fun id member =>
    .inr (members id (took id member).1 (took id member).2)

theorem of_newBlock (solid : ∀ id ∈ ids, Solid before id)
    (run : Yields (newBlock ids) before answer after) :
    Assembled allowed ids before answer after := by
  obtain ⟨body, middle, runBody, runBlock⟩ := yields_bind.mp run
  have assembledBody : Assembled allowed ids before body middle := of_newList solid runBody
  have assembled : Assembled allowed [body] middle answer after :=
    of_newHolder runBlock (by simp) rfl rfl (by simpa using assembledBody.solid)
  exact assembled.following assembledBody.crafted (fun _ member => member) fun _ member =>
    .inl member

theorem of_asBlock (solid : Solid before id) (run : Yields (asBlock id) before answer after) :
    Assembled allowed [id] before answer after := by
  rw [asBlock, yields_bind] at run
  obtain ⟨kind, middle, found, run⟩ := run
  obtain ⟨_, rfl⟩ := yields_look.mp found
  split at run
  · obtain ⟨rfl, rfl⟩ := yields_pure.mp run
    exact Assembled.found solid
  · exact of_newBlock (by simpa using solid) run

/-! ## Calls and conditionals -/

theorem of_newPrimitiveCall {operation : Primitive}
    (operands : ∀ id ∈ ids, Solid before id ∨ allowed id)
    (took : ∀ id ∈ taken, id ∈ ids ∧ Solid before id)
    (run : Yields (newPrimitiveCall operation ids) before answer after) :
    Assembled allowed taken before answer after := by
  obtain ⟨args, middle, runArgs, runCall⟩ := yields_bind.mp run
  have assembledArgs := of_newOperands operands took runArgs
  have assembled : Assembled allowed [args] middle answer after :=
    of_newHolder runCall (by simp) rfl rfl (by simpa using assembledArgs.solid)
  exact assembled.following assembledArgs.crafted (fun _ member => member) fun _ member =>
    .inl member

/-- A call of an allowed symbol without arguments. -/
theorem of_newCall (allows : allowed sym) (run : Yields (newCall sym []) before answer after) :
    Assembled allowed [] before answer after := by
  simp only [newCall, yields_bind] at run
  obtain ⟨callee, called, runCallee, args, middle, runArgs, runCall⟩ := run
  obtain ⟨assembledCallee, _⟩ := of_asOperand (.inr allows) runCallee
  have assembledArgs : Assembled allowed [] called args middle :=
    of_newOperands (by simp) (by simp) runArgs
  have parts : Crafted allowed [] [callee, args] before middle :=
    assembledCallee.crafted.followedBy assembledArgs.crafted (by simp) (by simp) (by simp)
  have assembled : Assembled allowed [callee, args] middle answer after := by
    refine of_newHolder runCall (by simp) rfl rfl ?_
    simpa using ⟨assembledArgs.crafted.solid assembledCallee.solid, assembledArgs.solid⟩
  exact assembled.following parts (fun _ member => member) (by simp)

/-- A choice between two statements that depends on an allowed symbol. -/
theorem of_newCond {thenStmt elseStmt : NodeId} (allows : allowed sym)
    (solidThen : Solid before thenStmt) (solidElse : Solid before elseStmt)
    (run : Yields (newCond sym thenStmt (some elseStmt)) before answer after) :
    Assembled allowed [thenStmt, elseStmt] before answer after := by
  simp only [newCond, asStmt?, yields_bind, yields_pure] at run
  obtain ⟨use, tested, runUse, inner, opened, runThen, _, closed, ⟨other, _, runElse, rfl, rfl⟩,
    runCond⟩ := run
  obtain ⟨assembledUse, _⟩ := of_asOperand (.inr allows) runUse
  have assembledThen : Assembled allowed [thenStmt] tested inner opened :=
    of_asStmt (assembledUse.crafted.solid solidThen) runThen
  have untilThen : Crafted allowed [thenStmt] [use, inner] before opened :=
    assembledUse.crafted.followedBy assembledThen.crafted (by simp) (by simp) (by simp)
  have assembledElse : Assembled allowed [elseStmt] opened other closed :=
    of_asStmt (untilThen.solid solidElse) runElse
  have parts : Crafted allowed [thenStmt, elseStmt] [use, inner, other] before closed :=
    untilThen.followedBy assembledElse.crafted (by simp) (by simp) (by simp)
  have assembled : Assembled allowed [use, inner, other] closed answer after := by
    refine of_newHolder runCond (by simp) rfl rfl ?_
    simpa using ⟨assembledElse.crafted.solid (assembledThen.crafted.solid assembledUse.solid),
      assembledElse.crafted.solid assembledThen.solid, assembledElse.solid⟩
  exact assembled.following parts (fun _ member => member) fun _ member => .inl member

end Assembled

/-! ## Functions and types -/

namespace Crafted

/-- A function without formals takes over its body. -/
theorem of_newFn {name : String} {body : NodeId} (solid : Solid before body)
    (run : Yields (newFn name [] body none) before answer after) :
    Crafted allowed [body] [answer] before after ∧ before.New answer := by
  simp only [newFn, newSymbol, List.mapM_nil, yields_bind, yields_newNode, yields_pure] at run
  obtain ⟨_, origin, ⟨rfl, rfl⟩, formals, listed, runFormals, block, framed, runBlock, _, _,
    ⟨rfl, rfl⟩, _, _, adoption, rfl, rfl⟩ := run
  have assembledFormals : Assembled allowed [] origin formals listed :=
    Assembled.of_newList (by simp) runFormals
  have assembledBlock : Assembled allowed [body] listed block framed :=
    Assembled.of_asBlock (assembledFormals.crafted.solid solid) runBlock
  have parts : Crafted allowed [body] [formals, block] origin framed :=
    assembledFormals.crafted.followedBy assembledBlock.crafted (by simp) (by simp) (by simp)
  have pushed : Pushed framed (.symbol { name, kind := .fn formals block none none }) _ :=
    pushed_push
  have adopted : Crafted allowed [formals, block] [framed.nextId] framed after := by
    refine of_adopted (by rintro _ ⟨⟩) pushed (Edit.adopted adoption) ?_
    simpa [Kind.owned, SymbolKind.owned] using
      ⟨assembledBlock.crafted.solid assembledFormals.solid, assembledBlock.solid⟩
  exact ⟨parts.followedBy adopted (by simp) (by simp) (by simp),
    parts.new (get?_nextId framed)⟩

variable (allowed) in
/-- Of a class without fields, the symbol that names it is what hangs nowhere. -/
theorem of_newAggregateType {name : String} {tag : AggregateTag}
    (run : Yields (newAggregateType name tag) before answer after) :
    ∃ naming fields, Crafted allowed [] [naming] before after ∧
      (after.kindAt naming).any Kind.isSymbol ∧
      after.kindAt answer =
        some (.type { symbol? := some naming, kind := .aggregate tag fields }) := by
  simp only [newAggregateType, newNamedType, newSymbol, yields_bind, yields_newNode,
    yields_pure] at run
  obtain ⟨fields, listed, runFields, type, grown, runType, naming, _, ⟨rfl, rfl⟩, _, held, adoption,
    _, _, runName, rfl, rfl⟩ := run
  have assembledFields : Assembled allowed [] before fields listed :=
    Assembled.of_newList (by simp) runFields
  obtain ⟨craftedType, _, isType⟩ : Crafted allowed [fields] [answer] listed grown ∧ _ :=
    of_newHolder runType (by simp) rfl (by simpa using assembledFields.solid)
  have pushed : Pushed grown (.symbol { name, kind := .type answer }) _ := pushed_push
  have adopted := Edit.adopted adoption
  have craftedNaming : Crafted allowed [answer] [grown.nextId] grown held := by
    refine of_adopted (by rintro _ ⟨⟩) pushed adopted ?_
    simpa [Kind.owned, SymbolKind.owned] using Solid.of_kind isType rfl
  have old : answer ≠ grown.nextId := by
    rintro rfl
    simp [Program.kindAt, get?_nextId] at isType
  have isTypeHeld : held.kindAt answer = some (.type { kind := .aggregate tag fields }) := by
    rw [adopted.kindAt, pushed.kinds old, isType]
  have isNamed : Crafted allowed [] [] held after := of_setKind runName isTypeHeld (.type ..) rfl
  have untilType : Crafted allowed [] [answer] before grown :=
    assembledFields.crafted.followedBy craftedType (by simp) (by simp) (by simp)
  have untilNaming : Crafted allowed [] [grown.nextId] before held :=
    untilType.followedBy craftedNaming (by simp) (by simp) (by simp)
  have isSymbol : (held.kindAt grown.nextId).any Kind.isSymbol := by
    simp [adopted.kindAt, pushed.kindAt, Kind.isSymbol, Kind.symbol?]
  refine ⟨grown.nextId, fields, untilNaming.followedBy isNamed (by simp) (by simp) (by simp),
    isNamed.isSymbol isSymbol, ?_⟩
  obtain ⟨_, rfl⟩ := yields_change.mp runName
  rw [kindAt_setKind isTypeHeld, if_pos rfl]

end Crafted

end Program

end ProgramTree
