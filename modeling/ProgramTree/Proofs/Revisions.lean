import ProgramTree.Proofs.Lookups

/-!
# Revisions

A pass adds nodes and changes some that were there.  A revision says which ones those may
be: all other nodes are what they were.  Whatever is hung somewhere in the course of it is
new to the program that the pass started from, so the nodes of that program hang where they
hung.
-/

namespace ProgramTree

open Program Edit Relation

/-- The category of a list. -/
def Kind.holds? : Kind → Option ListCategory
  | .list holds _ => some holds
  | _ => none

/-- What a node may become: a list may get more elements, a symbol other flags or another
definition point, a use another variable, and a type another name. -/
inductive Kind.MayBecome : Kind → Kind → Prop where
  | same (kind : Kind) : MayBecome kind kind
  | list {holds : ListCategory} {old new : Array NodeId} (kept : ∀ id ∈ old, id ∈ new) :
      MayBecome (.list holds old) (.list holds new)
  | symbol {old new : Symbol} (type : new.type? = old.type?) (kind : new.kind = old.kind) :
      MayBecome (.symbol old) (.symbol new)
  | use (old new : NodeId) : MayBecome (.expr (.use old)) (.expr (.use new))
  | type (old? new? : Option NodeId) (kind : TypeKind) :
      MayBecome (.type { symbol? := old?, kind }) (.type { symbol? := new?, kind })

namespace Kind.MayBecome

variable {first second third : Kind}

theorem trans (left : first.MayBecome second) (right : second.MayBecome third) :
    first.MayBecome third := by
  cases left with
  | same => exact right
  | list kept =>
    cases right with
    | same => exact .list kept
    | list keptToo => exact .list fun id member => keptToo id (kept id member)
  | symbol type kind =>
    cases right with
    | same => exact .symbol type kind
    | symbol typeToo kindToo => exact .symbol (typeToo.trans type) (kindToo.trans kind)
  | use =>
    cases right with
    | same => exact .use ..
    | use => exact .use ..
  | type =>
    cases right with
    | same => exact .type ..
    | type => exact .type ..

theorem owned (becomes : first.MayBecome second) : ∀ id ∈ first.owned, id ∈ second.owned := by
  cases becomes with
  | same => exact fun _ member => member
  | list kept => simpa [Kind.owned] using kept
  | symbol _ kind =>
    intro id member
    simpa [Kind.owned, kind] using member
  | use => exact fun _ member => member
  | type => exact fun _ member => member

theorem holds? (becomes : first.MayBecome second) : second.holds? = first.holds? := by
  cases becomes <;> rfl

end Kind.MayBecome

namespace Program

theorem modifyNode_congr {program : Program} {id : NodeId} {f g : Node → Node}
    (same : ∀ node, program.get? id = some node → f node = g node) :
    program.modifyNode id f = program.modifyNode id g := by
  obtain ⟨_ | place⟩ := id
  · rfl
  · simp only [modifyNode]
    congr 1
    refine Array.ext (by simp) fun other _ _ => ?_
    rw [Array.getElem_modify, Array.getElem_modify]
    split
    · next isPlace => exact same _ (by simp [get?, isPlace])
    · rfl

variable {origin before between after final program : Program} {touched more : NodeId → Prop}
  {id top holder child fn found : NodeId} {kind changed : Kind}

theorem issued_of_kindAt (known : before.kindAt id = some kind) : ¬ before.New id := by
  simp [New, get?_eq_none_iff_kindAt, known]

theorem issued_of_any {test : Kind → Bool} (passes : (before.kindAt id).any test) :
    ¬ before.New id := by
  obtain ⟨kind, known, _⟩ := (Option.any_eq_true _ _).mp passes
  exact issued_of_kindAt known

theorem issued_of_expectModule {module : NodeId} (isModule : before.expectModule fn = .ok module) :
    ¬ before.New module :=
  issued_of_any (isModule_of_expectModule isModule)

/-- From `before` to `after`, nothing but the touched nodes became something else.  What was
hung somewhere is new to `origin`, and so is what `before` does not have. -/
structure Revision (origin : Program) (touched : NodeId → Prop) (before after : Program) :
    Prop where
  past : ∀ {id}, before.New id → origin.New id
  kinds : ∀ {id kind}, before.kindAt id = some kind → ¬ touched id → after.kindAt id = some kind
  becomes : ∀ {id kind}, before.kindAt id = some kind →
    ∃ later, after.kindAt id = some later ∧ kind.MayBecome later
  parents : ∀ {id}, ¬ origin.New id → after.parentOf id = before.parentOf id
  holds : ∀ {holder child}, after.Holds holder child →
    before.Holds holder child ∨ origin.New child ∧ ¬ after.New child

/-- A revision that adds nodes and touches none. -/
abbrev Addition (origin : Program) : Program → Program → Prop :=
  Revision origin fun _ => False

namespace Revision

section Basics

variable (revision : Revision origin touched before after)
include revision

theorem issued (issued : ¬ before.New id) : ¬ after.New id := by
  rw [New, get?_eq_none_iff_kindAt] at issued ⊢
  obtain ⟨kind, known⟩ := Option.ne_none_iff_exists'.mp issued
  obtain ⟨later, knownLater, _⟩ := revision.becomes known
  exact Option.ne_none_iff_exists'.mpr ⟨later, knownLater⟩

theorem past_after (new : after.New id) : origin.New id :=
  revision.past (not_imp_not.mp revision.issued new)

theorem holds_before (holds : before.Holds holder child) : after.Holds holder child := by
  obtain ⟨node, found⟩ := Option.isSome_iff_exists.mp holds.issued
  obtain ⟨later, knownLater, becomes⟩ := revision.becomes (kindAt_eq found)
  rw [Holds, held_eq_of_kindAt knownLater]
  rw [Holds, held_eq found] at holds
  exact becomes.owned child holds

theorem contains_before (contained : before.Contains top id) : after.Contains top id :=
  contains_mono (fun _ _ => revision.holds_before) contained

/-- One revision after the other touches what either of them touches, new nodes excepted. -/
theorem followedBy {either : NodeId → Prop} (next : Revision origin more after final)
    (left : ∀ id, touched id → either id) (right : ∀ id, more id → ¬ before.New id → either id) :
    Revision origin either before final where
  past := revision.past
  kinds {id kind} known untouched := by
    exact next.kinds (revision.kinds known fun first => untouched (left id first)) fun again =>
      untouched (right id again (issued_of_kindAt known))
  becomes known := by
    obtain ⟨middle, knownMiddle, becomes⟩ := revision.becomes known
    obtain ⟨later, knownLater, further⟩ := next.becomes knownMiddle
    exact ⟨later, knownLater, becomes.trans further⟩
  parents old := (next.parents old).trans (revision.parents old)
  holds held := by
    rcases next.holds held with held | new
    · exact (revision.holds held).imp_right fun ⟨new, issued⟩ => ⟨new, next.issued issued⟩
    · exact .inr new

theorem adding (next : Addition origin after final) : Revision origin touched before final :=
  revision.followedBy next (fun _ => id) fun _ never => never.elim

theorem following (addition : Addition origin between before) :
    Revision origin touched between after :=
  addition.followedBy revision (fun _ never => never.elim) fun _ again _ => again

theorem absorbing (next : Revision origin more after final) (new : ∀ id, more id → before.New id) :
    Revision origin touched before final :=
  revision.followedBy next (fun _ => id) fun id again issued => absurd (new id again) issued

theorem mono {either : NodeId → Prop} (left : ∀ id, touched id → either id) :
    Revision origin either before after :=
  { revision with kinds := fun known untouched =>
      revision.kinds known fun again => untouched (left _ again) }

end Basics

/-! ## Steps -/

section Steps

variable (past : ∀ {id}, before.New id → origin.New id)
include past

/-- Nothing changed but contexts, attributions and the parents of new nodes. -/
theorem of_views (kinds : ∀ id, after.kindAt id = before.kindAt id)
    (parents : ∀ {id}, ¬ origin.New id → after.parentOf id = before.parentOf id) :
    Addition origin before after where
  past := past
  kinds known _ := (kinds _).trans known
  becomes known := ⟨_, (kinds _).trans known, .same _⟩
  parents := parents
  holds held := .inl (by rwa [Holds, Program.held, kinds, ← Program.held] at held)

theorem refl : Addition origin before before :=
  of_views past (fun _ => rfl) fun _ => rfl

theorem of_nodes (nodes : after.nodes = before.nodes) : Addition origin before after := by
  have same : ∀ id, after.get? id = before.get? id := fun id => by rw [get?, nodes, get?]
  exact of_views past (fun id => by rw [kindAt, same, kindAt])
    fun _ => by rw [parentOf, same, parentOf]

theorem of_sameTree (same : SameTree before after) : Addition origin before after :=
  of_views past (fun _ => same.kindAt) fun _ => same.parentOf

theorem of_grown (grown : Grown before kind after)
    (new : ∀ child ∈ kind.owned, origin.New child ∧ ¬ before.New child) :
    Addition origin before after := by
  have kinds : ∀ {id kind}, before.kindAt id = some kind → after.kindAt id = some kind := by
    intro id kind known
    rw [grown.kinds, known]
    rintro rfl
    exact issued_of_kindAt known (get?_nextId before)
  refine ⟨past, fun known _ => kinds known, fun known => ⟨_, kinds known, .same _⟩, ?_, ?_⟩
  · intro id old
    refine grown.parents ?_ fun owned => old (new id owned).1
    rintro rfl
    exact old (past (get?_nextId before))
  · intro holder child held
    by_cases fresh : holder = before.nextId
    · rw [fresh, Holds, grown.held_fresh] at held
      obtain ⟨newChild, issued⟩ := new child held
      rw [New, get?_eq_none_iff_kindAt] at issued
      obtain ⟨kind, known⟩ := Option.ne_none_iff_exists'.mp issued
      exact .inr ⟨newChild, issued_of_kindAt (kinds known)⟩
    · rw [Holds, grown.held_of_ne fresh] at held
      exact .inl held

theorem of_setKind {done : Unit} (run : Yields (setKind id changed) before done after)
    (known : before.kindAt id = some kind) (becomes : kind.MayBecome changed)
    (owned : ∀ child ∈ changed.owned, child ∈ kind.owned ∨ origin.New child ∧ ¬ before.New child) :
    Revision origin (· = id) before after ∧ after.kindAt id = some changed := by
  obtain ⟨_, rfl⟩ := yields_change.mp run
  refine ⟨⟨past, ?_, ?_, ?_, ?_⟩, ?_⟩
  · intro other otherKind knownOther untouched
    rw [kindAt_setKind known, if_neg untouched, knownOther]
  · intro other otherKind knownOther
    rw [kindAt_setKind known]
    by_cases isId : other = id
    · rw [isId, known, Option.some.injEq] at knownOther
      exact ⟨changed, by rw [if_pos isId], knownOther ▸ becomes⟩
    · exact ⟨otherKind, by rw [if_neg isId, knownOther], .same otherKind⟩
  · exact fun _ => parentOf_setKind
  · intro holder child held
    rw [Holds, Program.held, kindAt_setKind known] at held
    by_cases isId : holder = id
    · rw [if_pos isId, Option.map_some, Option.getD_some] at held
      rw [isId, Holds, held_eq_of_kindAt known]
      simpa [New, get?_modifyNode_map] using owned child held
    · rw [if_neg isId, ← Program.held] at held
      exact .inl held
  · rw [kindAt_setKind known, if_pos rfl]

theorem of_setParent {parent? : Option NodeId} {done : Unit}
    (run : Yields (setParent id parent?) before done after) (new : origin.New id) :
    Addition origin before after ∧ after.parentOf id = parent? := by
  obtain ⟨issued, rfl⟩ := yields_setParent.mp run
  refine ⟨of_views past (fun other => ?_) fun {other} old => ?_, ?_⟩
  · rw [kindAt, get?_modifyNode_map, Option.map_map, kindAt]
    congr 1
    funext node
    simp only [Function.comp_def]
    split <;> rfl
  · rw [parentOf, get?_modifyNode_of_ne (by rintro rfl; exact old new), parentOf]
  · obtain ⟨node, found⟩ := Option.isSome_iff_exists.mp issued
    simp [parentOf, get?_modifyNode, found]

theorem of_changeElements {f : Array NodeId → Array NodeId} {list : NodeId} {holds : ListCategory}
    {elements : Array NodeId} {done : Unit} (run : Yields (changeElements list f) before done after)
    (known : before.kindAt list = some (.list holds elements))
    (kept : ∀ id ∈ elements, id ∈ f elements)
    (new : ∀ id ∈ f elements, id ∈ elements ∨ origin.New id ∧ ¬ before.New id) :
    Revision origin (· = list) before after ∧
      after.kindAt list = some (.list holds (f elements)) := by
  obtain ⟨_, rfl⟩ := yields_changeElements.mp run
  obtain ⟨node, found, isList⟩ := get?_of_kindAt known
  have write : Yields (setKind list (.list holds (f elements))) before ()
      (before.modifyNode list fun node => { node with kind := node.kind.mapElements f }) := by
    refine yields_change.mpr ⟨by simp [found], modifyNode_congr fun other foundOther => ?_⟩
    rw [found, Option.some.injEq] at foundOther
    rw [← foundOther, isList, Kind.mapElements]
  exact of_setKind past write known (.list kept) (by simpa [Kind.owned] using new)

end Steps

/-- What is not new hangs where it hung in the program that the pass started from. -/
theorem contains_origin (revision : Revision origin touched origin after)
    (contained : after.Contains top id) (old : ¬ origin.New id) : origin.Contains top id := by
  induction contained with
  | refl => exact .refl
  | tail _ holds ih =>
    have heldBefore := (revision.holds holds).resolve_right fun ⟨new, _⟩ => old new
    exact (ih (Option.isSome_iff_ne_none.mp heldBefore.issued)).tail heldBefore

end Revision

/-! ## Lookups

The queries that follow slots read parts of a node that touching leaves alone. -/

/-- A symbol that stands for something of this kind. -/
def IsSymbolOf (program : Program) (id : NodeId) (kind : SymbolKind) : Prop :=
  ∃ symbol, program.kindAt id = some (.symbol symbol) ∧ symbol.kind = kind

theorem fnBody_eq_ok : program.fnBody id = .ok found ↔
    ∃ formals retType? whereExpr?, program.IsSymbolOf id
      (.fn formals found retType? whereExpr?) := by
  simp only [fnBody, Fault.bind_eq_ok, symbol_eq_ok]
  constructor
  · rintro ⟨symbol, known, looked⟩
    split at looked
    · next isFn => exact ⟨_, _, _, symbol, known, Fault.pure_eq_ok.mp looked ▸ isFn⟩
    · simp [fail] at looked
  · rintro ⟨_, _, _, symbol, known, isFn⟩
    exact ⟨symbol, known, by rw [isFn]; rfl⟩

theorem fnFormalsList_eq_ok : program.fnFormalsList id = .ok found ↔
    ∃ body retType? whereExpr?, program.IsSymbolOf id (.fn found body retType? whereExpr?) := by
  simp only [fnFormalsList, Fault.bind_eq_ok, symbol_eq_ok]
  constructor
  · rintro ⟨symbol, known, looked⟩
    split at looked
    · next isFn => exact ⟨_, _, _, symbol, known, Fault.pure_eq_ok.mp looked ▸ isFn⟩
    · simp [fail] at looked
  · rintro ⟨_, _, _, symbol, known, isFn⟩
    exact ⟨symbol, known, by rw [isFn]; rfl⟩

theorem blockBody_eq_ok :
    program.blockBody id = .ok found ↔ program.kindAt id = some (.stmt (.block found)) := by
  simp only [blockBody, Fault.bind_eq_ok, kindOf_eq_ok]
  constructor
  · rintro ⟨kind, known, looked⟩
    split at looked
    · exact Fault.pure_eq_ok.mp looked ▸ known
    · simp [fail] at looked
  · exact fun known => ⟨_, known, rfl⟩

theorem moduleBodyList_eq_ok : program.moduleBodyList id = .ok found ↔
    ∃ block initFn? tag, program.IsSymbolOf id (.module block initFn? tag) ∧
      program.blockBody block = .ok found := by
  simp only [moduleBodyList, Fault.bind_eq_ok, symbol_eq_ok]
  constructor
  · rintro ⟨symbol, known, looked⟩
    split at looked
    · next isModule => exact ⟨_, _, _, ⟨symbol, known, isModule⟩, looked⟩
    · simp [fail] at looked
  · rintro ⟨block, _, _, ⟨symbol, known, isModule⟩, looked⟩
    exact ⟨symbol, known, by rw [isModule]; exact looked⟩

theorem callArgs_eq_ok : program.callArgs id = .ok found ↔
    ∃ callee, program.kindAt id = some (.expr (.call callee found)) := by
  simp only [callArgs, Fault.bind_eq_ok, kindOf_eq_ok]
  constructor
  · rintro ⟨kind, known, looked⟩
    split at looked
    · exact ⟨_, Fault.pure_eq_ok.mp looked ▸ known⟩
    · simp [fail] at looked
  · rintro ⟨_, known⟩
    exact ⟨_, known, rfl⟩

theorem typeOf_eq_ok {type? : Option NodeId} : program.typeOf id = .ok type? ↔
    ∃ symbol, program.kindAt id = some (.symbol symbol) ∧ symbol.type? = type? := by
  simp only [typeOf, Fault.bind_eq_ok, Fault.pure_eq_ok, symbol_eq_ok]

/-- What is held somewhere is there. -/
def Backed (program : Program) : Prop :=
  ∀ {holder child}, program.Holds holder child → ¬ program.New child

theorem Backed.contains (backed : before.Backed) {top : NodeId} (contained : before.Contains top id)
    (issued : ¬ before.New top) : ¬ before.New id := by
  rcases contained.cases_tail with same | ⟨holder, _, holds⟩
  · exact same ▸ issued
  · exact backed holds

namespace Revision

theorem backed_after (revision : Revision origin touched before after) (backed : before.Backed) :
    after.Backed := by
  intro holder child holds
  rcases revision.holds holds with holds | ⟨_, issued⟩
  · exact revision.issued (backed holds)
  · exact issued

variable (revision : Revision origin touched before after) (backed : before.Backed)
  (issued : ¬ before.New id)
include revision issued

theorem exists_mayBecome : ∃ old new, before.kindAt id = some old ∧ after.kindAt id = some new ∧
    old.MayBecome new := by
  rw [New, get?_eq_none_iff_kindAt] at issued
  obtain ⟨old, known⟩ := Option.ne_none_iff_exists'.mp issued
  obtain ⟨new, knownLater, becomes⟩ := revision.becomes known
  exact ⟨old, new, known, knownLater, becomes⟩

theorem kindAt_eq (untouched : ¬ touched id) : after.kindAt id = before.kindAt id := by
  obtain ⟨old, _, known, _⟩ := revision.exists_mayBecome issued
  rw [known, revision.kinds known untouched]

theorem held_eq (untouched : ¬ touched id) : after.held id = before.held id := by
  rw [held, revision.kindAt_eq issued untouched, held]

/-- Only a list gets to hold something else. -/
theorem held_of_noList (noList : touched id → ¬ (before.kindAt id).any Kind.isList) :
    after.held id = before.held id := by
  obtain ⟨old, new, known, knownLater, becomes⟩ := revision.exists_mayBecome issued
  by_cases again : touched id
  · have noList := noList again
    rw [held_eq_of_kindAt known, held_eq_of_kindAt knownLater]
    cases becomes with
    | list => simp [known, Kind.isList] at noList
    | symbol _ kind => simp [Kind.owned, kind]
    | _ => rfl
  · exact revision.held_eq issued again

theorem isUse_of_after {sym : NodeId} (isUse : after.kindAt id = some (.expr (.use sym))) :
    ∃ sym, before.kindAt id = some (.expr (.use sym)) := by
  obtain ⟨old, new, known, knownLater, becomes⟩ := revision.exists_mayBecome issued
  rw [isUse, Option.some.injEq] at knownLater
  subst knownLater
  cases becomes with
  | same => exact ⟨_, known⟩
  | use old => exact ⟨old, known⟩

theorem isSymbol_iff :
    (after.kindAt id).any Kind.isSymbol ↔ (before.kindAt id).any Kind.isSymbol := by
  obtain ⟨old, new, known, knownLater, becomes⟩ := revision.exists_mayBecome issued
  rw [known, knownLater]
  cases becomes <;> rfl

theorem isList_iff :
    (after.kindAt id).any Kind.isList ↔ (before.kindAt id).any Kind.isList := by
  obtain ⟨old, new, known, knownLater, becomes⟩ := revision.exists_mayBecome issued
  rw [known, knownLater]
  cases becomes <;> rfl

theorem isSymbolOf_iff {kind : SymbolKind} :
    after.IsSymbolOf id kind ↔ before.IsSymbolOf id kind := by
  obtain ⟨old, new, known, knownLater, becomes⟩ := revision.exists_mayBecome issued
  simp only [IsSymbolOf, known, knownLater, Option.some.injEq]
  cases becomes with
  | symbol _ kind => simp [kind]
  | list => simp
  | use => simp
  | type => simp
  | same => rfl

theorem typeOf_iff {type? : Option NodeId} :
    after.typeOf id = .ok type? ↔ before.typeOf id = .ok type? := by
  obtain ⟨old, new, known, knownLater, becomes⟩ := revision.exists_mayBecome issued
  simp only [typeOf_eq_ok, known, knownLater, Option.some.injEq]
  cases becomes with
  | symbol type _ => simp [type]
  | list => simp
  | use => simp
  | type => simp
  | same => rfl

theorem stmt_iff {stmt : Stmt} :
    after.kindAt id = some (.stmt stmt) ↔ before.kindAt id = some (.stmt stmt) := by
  obtain ⟨old, new, known, knownLater, becomes⟩ := revision.exists_mayBecome issued
  rw [known, knownLater]
  cases becomes <;> simp

theorem call_iff {callee : Callee} {args : NodeId} :
    after.kindAt id = some (.expr (.call callee args)) ↔
      before.kindAt id = some (.expr (.call callee args)) := by
  obtain ⟨old, new, known, knownLater, becomes⟩ := revision.exists_mayBecome issued
  rw [known, knownLater]
  cases becomes <;> simp

theorem fnBody_iff : after.fnBody id = .ok found ↔ before.fnBody id = .ok found := by
  simp only [fnBody_eq_ok, revision.isSymbolOf_iff issued]

theorem fnFormalsList_iff :
    after.fnFormalsList id = .ok found ↔ before.fnFormalsList id = .ok found := by
  simp only [fnFormalsList_eq_ok, revision.isSymbolOf_iff issued]

theorem blockBody_iff : after.blockBody id = .ok found ↔ before.blockBody id = .ok found := by
  simp only [blockBody_eq_ok, revision.stmt_iff issued]

theorem callArgs_iff : after.callArgs id = .ok found ↔ before.callArgs id = .ok found := by
  simp only [callArgs_eq_ok, revision.call_iff issued]

include backed

theorem fnBodyList_iff : after.fnBodyList id = .ok found ↔ before.fnBodyList id = .ok found := by
  simp only [fnBodyList, Fault.bind_eq_ok, revision.fnBody_iff issued]
  refine exists_congr fun block => and_congr_right fun isBody => ?_
  exact revision.blockBody_iff (backed.contains (contains_of_fnBody isBody) issued)

theorem moduleBodyList_iff :
    after.moduleBodyList id = .ok found ↔ before.moduleBodyList id = .ok found := by
  simp only [moduleBodyList_eq_ok, revision.isSymbolOf_iff issued]
  refine exists_congr fun block => exists_congr fun _ => exists_congr fun _ =>
    and_congr_right fun ⟨symbol, known, isModule⟩ => revision.blockBody_iff ?_
  refine backed.contains (contains_of_owned known ?_) issued
  simp [Kind.owned, isModule, SymbolKind.owned]

end Revision

end Program

end ProgramTree
