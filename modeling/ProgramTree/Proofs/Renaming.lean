import Mathlib.Tactic.Common
import ProgramTree.Kind.Children
import ProgramTree.Kind.Links
import ProgramTree.Kind.Slots

/-!
# Renamed kinds

A kind with every identity in it renamed, field by field: owned children in one way and
links in another.  Renaming first the slots and then the links of a kind comes to the
same, so no field escapes either enumeration.
-/

namespace ProgramTree

variable (own link : NodeId → NodeId)

def Stmt.renamed : Stmt → Stmt
  | .expr inner => .expr (own inner)
  | .ret value? => .ret (value?.map own)
  | .block body => .block (own body)
  | .forLoop indices iterators body orderIndependent =>
    .forLoop (own indices) (own iterators) (own body) orderIndependent
  | .cond condition thenStmt elseStmt? =>
    .cond (own condition) (own thenStmt) (elseStmt?.map own)
  | .whenCase cases body => .whenCase (own cases) (own body)
  | .select subject whens => .select (own subject) (own whens)
  | .label definition target => .label (own definition) (own target)
  | .goto label? => .goto (label?.map link)

def Callee.renamed : Callee → Callee
  | .expr base => .expr (own base)
  | .primitive operation => .primitive operation

def Expr.renamed : Expr → Expr
  | .use var => .use (link var)
  | .definition sym init? declaredType? =>
    .definition (own sym) (init?.map own) (declaredType?.map own)
  | .call callee args => .call (callee.renamed own) (own args)
  | .cast toType? newType? expr => .cast (toType?.map link) (newType?.map own) (own expr)
  | .named name actual => .named name (own actual)
  | .importModule module? => .importModule (module?.map link)
  | .literal value => .literal value

def SymbolKind.renamed : SymbolKind → SymbolKind
  | .unresolved => .unresolved
  | .module block initFn? tag => .module (own block) (initFn?.map link) tag
  | .var => .var
  | .arg intent defaultExpr? => .arg intent (defaultExpr?.map own)
  | .type defines => .type (own defines)
  | .fn formals body retType? whereExpr? =>
    .fn (own formals) (own body) (retType?.map link) (whereExpr?.map own)
  | .enumConst => .enumConst
  | .label => .label

def TypeKind.renamed : TypeKind → TypeKind
  | .primitive which => .primitive which
  | .function => .function
  | .enumeration constants => .enumeration (own constants)
  | .user typeExpr? defaultExpr? underlying? =>
    .user (typeExpr?.map own) (defaultExpr?.map own) (underlying?.map link)
  | .aggregate tag fields => .aggregate tag (own fields)
  | .metatype base? => .metatype (base?.map link)
  | .sum components => .sum (components.map link)
  | .typeVariable bound? => .typeVariable (bound?.map link)

/-- The kind with every owned child and every link renamed, and all else kept. -/
def Kind.renamed : Kind → Kind
  | .list holds elements => .list holds (elements.map own)
  | .stmt data => .stmt (data.renamed own link)
  | .expr data => .expr (data.renamed own link)
  | .symbol data =>
    .symbol
      { name := data.name
        type? := data.type?.map link
        defPoint? := data.defPoint?.map link
        flags := data.flags
        kind := data.kind.renamed own link }
  | .type data =>
    .type
      { symbol? := data.symbol?.map link
        kind := data.kind.renamed own link }

variable {own link}

theorem Kind.mapLinks_mapOwned (kind : Kind) :
    (kind.mapOwned own).mapLinks link = kind.renamed own link := by
  cases kind with
  | list holds elements =>
    simp [mapOwned, mapLinks, renamed, withSlots, slots, List.filterMap_map, Function.comp_def,
      Slot.child?, Slot.map]
    rw [← Array.toList_map]
  | stmt stmt => cases stmt <;> rfl
  | expr expr =>
    cases expr with
    | call callee args => cases callee <;> rfl
    | _ => rfl
  | symbol symbol =>
    obtain ⟨_, _, _, _, kind⟩ := symbol
    cases kind <;> rfl
  | type type =>
    obtain ⟨_, kind⟩ := type
    cases kind <;> rfl

theorem Kind.mapLinks_id (kind : Kind) : (kind.mapLinks fun link => link) = kind := by
  cases kind with
  | list holds elements => rfl
  | stmt stmt => cases stmt <;> simp [mapLinks, Stmt.mapLinks]
  | expr expr => cases expr <;> simp [mapLinks, Expr.mapLinks]
  | symbol symbol =>
    obtain ⟨_, _, _, _, kind⟩ := symbol
    cases kind <;> simp [mapLinks, SymbolKind.mapLinks]
  | type type =>
    obtain ⟨_, kind⟩ := type
    cases kind <;> simp [mapLinks, TypeKind.mapLinks]

theorem Kind.mapOwned_eq_renamed (kind : Kind) :
    kind.mapOwned own = kind.renamed own fun link => link := by
  rw [← Kind.mapLinks_mapOwned, Kind.mapLinks_id]

theorem Kind.mapOwned_mapOwned {second : NodeId → NodeId} (kind : Kind) :
    (kind.mapOwned own).mapOwned second = kind.mapOwned (second ∘ own) := by
  cases kind with
  | list holds elements => simp [mapOwned_eq_renamed, renamed]
  | stmt stmt => cases stmt <;> simp [mapOwned_eq_renamed, renamed, Stmt.renamed]
  | expr expr =>
    cases expr with
    | call callee args =>
      cases callee <;> simp [mapOwned_eq_renamed, renamed, Expr.renamed, Callee.renamed]
    | _ => simp [mapOwned_eq_renamed, renamed, Expr.renamed]
  | symbol symbol =>
    obtain ⟨_, _, _, _, kind⟩ := symbol
    cases kind <;> simp [mapOwned_eq_renamed, renamed, SymbolKind.renamed]
  | type type =>
    obtain ⟨_, kind⟩ := type
    cases kind <;> simp [mapOwned_eq_renamed, renamed, TypeKind.renamed]

theorem Kind.mapOwned_id (kind : Kind) : kind.mapOwned id = kind := by
  cases kind with
  | list holds elements => simp [mapOwned_eq_renamed, renamed]
  | stmt stmt => cases stmt <;> simp [mapOwned_eq_renamed, renamed, Stmt.renamed]
  | expr expr =>
    cases expr with
    | call callee args =>
      cases callee <;> simp [mapOwned_eq_renamed, renamed, Expr.renamed, Callee.renamed]
    | _ => simp [mapOwned_eq_renamed, renamed, Expr.renamed]
  | symbol symbol =>
    obtain ⟨_, _, _, _, kind⟩ := symbol
    cases kind <;> simp [mapOwned_eq_renamed, renamed, SymbolKind.renamed]
  | type type =>
    obtain ⟨_, kind⟩ := type
    cases kind <;> simp [mapOwned_eq_renamed, renamed, TypeKind.renamed]

/-- Only what happens to the owned children matters. -/
theorem Kind.mapOwned_congr {other : NodeId → NodeId} {kind : Kind}
    (agree : ∀ child ∈ kind.owned, own child = other child) :
    kind.mapOwned own = kind.mapOwned other := by
  have sameSlots : kind.slots.map (Slot.map own) = kind.slots.map (Slot.map other) := by
    apply List.map_congr_left
    intro slot member
    have agreeSlot : ∀ child, slot.child? = some child → own child = other child := by
      intro child isChild
      apply agree
      rw [Kind.owned_eq_slots]
      exact List.mem_filterMap.mpr ⟨slot, member, isChild⟩
    cases slot with
    | required child => simp [Slot.map, agreeSlot child rfl]
    | optional child? =>
      cases child? with
      | none => rfl
      | some child => simp [Slot.map, agreeSlot child rfl]
  rw [Kind.mapOwned, sameSlots, Kind.mapOwned]

theorem Kind.mapOwned_eq_self {kind : Kind} (fixed : ∀ child ∈ kind.owned, own child = child) :
    kind.mapOwned own = kind :=
  (kind.mapOwned_congr fixed).trans kind.mapOwned_id

theorem Kind.owned_mapLinks (kind : Kind) : (kind.mapLinks link).owned = kind.owned := by
  cases kind with
  | list holds elements => rfl
  | stmt stmt => cases stmt <;> rfl
  | expr expr =>
    cases expr with
    | call callee args => cases callee <;> rfl
    | _ => rfl
  | symbol symbol =>
    obtain ⟨_, _, _, _, kind⟩ := symbol
    cases kind <;> rfl
  | type type =>
    obtain ⟨_, kind⟩ := type
    cases kind <;> rfl

theorem Kind.owned_renamed (kind : Kind) : (kind.renamed own link).owned = kind.owned.map own := by
  rw [← Kind.mapLinks_mapOwned, Kind.owned_mapLinks, Kind.owned_mapOwned]

theorem Kind.isExpr_renamed (kind : Kind) : (kind.renamed own link).isExpr = kind.isExpr := by
  cases kind <;> rfl

theorem Kind.isModule_mapLinks (kind : Kind) : (kind.mapLinks link).isModule = kind.isModule := by
  cases kind with
  | symbol data =>
    obtain ⟨_, _, _, _, kind⟩ := data
    cases kind <;> rfl
  | _ => rfl

theorem Kind.isModule_renamed (kind : Kind) : (kind.renamed own link).isModule = kind.isModule := by
  cases kind with
  | symbol data =>
    obtain ⟨_, _, _, _, kind⟩ := data
    cases kind <;> rfl
  | _ => rfl

end ProgramTree
