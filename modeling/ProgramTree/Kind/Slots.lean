import ProgramTree.Kind

/-!
# Owned slots

The children a node contains.  `Kind.slots` lists the owned slots of a kind from
left to right and `Kind.withSlots` puts new ones in their place; renaming the
owned children and rebinding one of them are written through these two.
`Kind.owned` lists the children themselves, kind by kind.
-/

namespace ProgramTree

/-- An owned slot of a node, with what it holds. -/
inductive Slot where
  | required (child : NodeId)
  | optional (child? : Option NodeId)
deriving DecidableEq

namespace Slot

def child? : Slot → Option NodeId
  | required child => some child
  | optional child? => child?

def map (rename : NodeId → NodeId) : Slot → Slot
  | required child => required (rename child)
  | optional child? => optional (child?.map rename)

end Slot

/-- What became of an attempt to rebind a slot. -/
inductive Rebinding (α : Type) where
  /-- The slot is rebound, with this result. -/
  | done (result : α)
  /-- No slot holds the node. -/
  | missing
  /-- The slot that holds the node cannot be cleared. -/
  | required
deriving DecidableEq

namespace Rebinding

variable {α β : Type}

def map (f : α → β) : Rebinding α → Rebinding β
  | done result => done (f result)
  | missing => missing
  | required => required

end Rebinding

/-- Puts `new?` in the place of `old` in the first slot that holds `old`. -/
def Slot.rebind (old : NodeId) (new? : Option NodeId) : List Slot → Rebinding (List Slot)
  | [] => .missing
  | .required child :: rest =>
    if child = old then
      match new? with
      | some new => .done (.required new :: rest)
      | none => .required
    else (rebind old new? rest).map (.required child :: ·)
  | .optional child? :: rest =>
    if child? = some old then .done (.optional new? :: rest)
    else (rebind old new? rest).map (.optional child? :: ·)

/-! ## Slots, kind by kind -/

def Stmt.slots : Stmt → List Slot
  | .expr inner => [.required inner]
  | .ret value? => [.optional value?]
  | .block body => [.required body]
  | .forLoop indices iterators body _ => [.required indices, .required iterators, .required body]
  | .cond condition thenStmt elseStmt? =>
    [.required condition, .required thenStmt, .optional elseStmt?]
  | .whenCase cases body => [.required cases, .required body]
  | .select subject whens => [.required subject, .required whens]
  | .label definition target => [.required definition, .required target]
  | .goto _ => []

def Expr.slots : Expr → List Slot
  | .use _ => []
  | .definition sym init? declaredType? =>
    [.required sym, .optional init?, .optional declaredType?]
  | .call (.expr base) args => [.required base, .required args]
  | .call (.primitive _) args => [.required args]
  | .cast _ newType? expr => [.optional newType?, .required expr]
  | .named _ actual => [.required actual]
  | .importModule _ => []
  | .literal _ => []

def SymbolKind.slots : SymbolKind → List Slot
  | .unresolved => []
  | .module block _ _ => [.required block]
  | .var => []
  | .arg _ defaultExpr? => [.optional defaultExpr?]
  | .type defines => [.required defines]
  | .fn formals body _ whereExpr? => [.required formals, .required body, .optional whereExpr?]
  | .enumConst => []
  | .label => []

def TypeKind.slots : TypeKind → List Slot
  | .primitive _ => []
  | .function => []
  | .enumeration constants => [.required constants]
  | .user typeExpr? defaultExpr? _ => [.optional typeExpr?, .optional defaultExpr?]
  | .aggregate _ fields => [.required fields]
  | .metatype _ => []
  | .sum _ => []
  | .typeVariable _ => []

/-- The owned slots of a node, from left to right.  The elements of a list count
as required slots. -/
def Kind.slots : Kind → List Slot
  | .list _ elements => elements.toList.map .required
  | .stmt statement => statement.slots
  | .expr expression => expression.slots
  | .symbol data => data.kind.slots
  | .type data => data.kind.slots

/-! ## Refilling the slots

Slots that do not have the shape of the kind leave it as it is. -/

def Stmt.withSlots (stmt : Stmt) (slots : List Slot) : Stmt :=
  match stmt, slots with
  | .expr _, [.required inner] => .expr inner
  | .ret _, [.optional value?] => .ret value?
  | .block _, [.required body] => .block body
  | .forLoop _ _ _ independent, [.required indices, .required iterators, .required body] =>
    .forLoop indices iterators body independent
  | .cond _ _ _, [.required condition, .required thenStmt, .optional elseStmt?] =>
    .cond condition thenStmt elseStmt?
  | .whenCase _ _, [.required cases, .required body] => .whenCase cases body
  | .select _ _, [.required subject, .required whens] => .select subject whens
  | .label _ _, [.required definition, .required target] => .label definition target
  | other, _ => other

def Expr.withSlots (expr : Expr) (slots : List Slot) : Expr :=
  match expr, slots with
  | .definition _ _ _, [.required sym, .optional init?, .optional declaredType?] =>
    .definition sym init? declaredType?
  | .call (.expr _) _, [.required base, .required args] => .call (.expr base) args
  | .call (.primitive operation) _, [.required args] => .call (.primitive operation) args
  | .cast toType? _ _, [.optional newType?, .required expr] => .cast toType? newType? expr
  | .named name _, [.required actual] => .named name actual
  | other, _ => other

def SymbolKind.withSlots (kind : SymbolKind) (slots : List Slot) : SymbolKind :=
  match kind, slots with
  | .module _ initFn? tag, [.required block] => .module block initFn? tag
  | .arg intent _, [.optional defaultExpr?] => .arg intent defaultExpr?
  | .type _, [.required defines] => .type defines
  | .fn _ _ retType? _, [.required formals, .required body, .optional whereExpr?] =>
    .fn formals body retType? whereExpr?
  | other, _ => other

def TypeKind.withSlots (kind : TypeKind) (slots : List Slot) : TypeKind :=
  match kind, slots with
  | .enumeration _, [.required constants] => .enumeration constants
  | .user _ _ underlying?, [.optional typeExpr?, .optional defaultExpr?] =>
    .user typeExpr? defaultExpr? underlying?
  | .aggregate tag _, [.required fields] => .aggregate tag fields
  | other, _ => other

/-- The same node with other owned slots. -/
def Kind.withSlots (kind : Kind) (slots : List Slot) : Kind :=
  match kind with
  | .list holds _ => .list holds (slots.filterMap Slot.child?).toArray
  | .stmt statement => .stmt (statement.withSlots slots)
  | .expr expression => .expr (expression.withSlots slots)
  | .symbol data => .symbol { data with kind := data.kind.withSlots slots }
  | .type data => .type { data with kind := data.kind.withSlots slots }

/-- Renames every owned child. -/
def Kind.mapOwned (rename : NodeId → NodeId) (kind : Kind) : Kind :=
  kind.withSlots (kind.slots.map (Slot.map rename))

/-- Puts `new?` in the first slot that holds `old`. -/
def Kind.rebind (kind : Kind) (old : NodeId) (new? : Option NodeId) : Rebinding Kind :=
  (Slot.rebind old new? kind.slots).map kind.withSlots

/-! ## Owned children, kind by kind -/

def Stmt.owned : Stmt → List NodeId
  | .expr inner => [inner]
  | .ret value? => value?.toList
  | .block body => [body]
  | .forLoop indices iterators body _ => [indices, iterators, body]
  | .cond condition thenStmt elseStmt? => [condition, thenStmt] ++ elseStmt?.toList
  | .whenCase cases body => [cases, body]
  | .select subject whens => [subject, whens]
  | .label definition target => [definition, target]
  | .goto _ => []

def Expr.owned : Expr → List NodeId
  | .use _ | .importModule _ | .literal _ => []
  | .definition sym init? declaredType? => sym :: init?.toList ++ declaredType?.toList
  | .call (.expr base) args => [base, args]
  | .call (.primitive _) args => [args]
  | .cast _ newType? expr => newType?.toList ++ [expr]
  | .named _ actual => [actual]

def SymbolKind.owned : SymbolKind → List NodeId
  | .module block _ _ => [block]
  | .arg _ defaultExpr? => defaultExpr?.toList
  | .type defines => [defines]
  | .fn formals body _ whereExpr? => [formals, body] ++ whereExpr?.toList
  | .unresolved | .var | .enumConst | .label => []

def TypeKind.owned : TypeKind → List NodeId
  | .enumeration constants => [constants]
  | .user typeExpr? defaultExpr? _ => typeExpr?.toList ++ defaultExpr?.toList
  | .aggregate _ fields => [fields]
  | .primitive _ | .function | .metatype _ | .sum _ | .typeVariable _ => []

/-- The nodes held in owned slots, in the order of the slots. -/
def Kind.owned : Kind → List NodeId
  | .list _ elements => elements.toList
  | .stmt statement => statement.owned
  | .expr expression => expression.owned
  | .symbol data => data.kind.owned
  | .type data => data.kind.owned

/-! ## Slots and children agree -/

theorem Stmt.owned_eq_slots (stmt : Stmt) : stmt.owned = stmt.slots.filterMap Slot.child? := by
  cases stmt with
  | ret value? => cases value? <;> rfl
  | cond condition thenStmt elseStmt? => cases elseStmt? <;> rfl
  | _ => rfl

theorem Expr.owned_eq_slots (expr : Expr) : expr.owned = expr.slots.filterMap Slot.child? := by
  cases expr with
  | definition sym init? declaredType? => cases init? <;> cases declaredType? <;> rfl
  | call callee args => cases callee <;> rfl
  | cast toType? newType? expr => cases newType? <;> rfl
  | _ => rfl

theorem SymbolKind.owned_eq_slots (kind : SymbolKind) :
    kind.owned = kind.slots.filterMap Slot.child? := by
  cases kind with
  | arg intent defaultExpr? => cases defaultExpr? <;> rfl
  | fn formals body retType? whereExpr? => cases whereExpr? <;> rfl
  | _ => rfl

theorem TypeKind.owned_eq_slots (kind : TypeKind) :
    kind.owned = kind.slots.filterMap Slot.child? := by
  cases kind with
  | user typeExpr? defaultExpr? underlying? =>
    cases typeExpr? <;> cases defaultExpr? <;> rfl
  | _ => rfl

/-- The owned children are what the slots hold. -/
theorem Kind.owned_eq_slots (kind : Kind) : kind.owned = kind.slots.filterMap Slot.child? := by
  cases kind with
  | list holds elements =>
    simp [Kind.owned, Kind.slots, List.filterMap_map, Function.comp_def, Slot.child?]
  | stmt data => exact data.owned_eq_slots
  | expr data => exact data.owned_eq_slots
  | symbol data => exact data.kind.owned_eq_slots
  | type data => exact data.kind.owned_eq_slots

theorem Slot.child?_map (rename : NodeId → NodeId) (slot : Slot) :
    (slot.map rename).child? = slot.child?.map rename := by
  cases slot <;> rfl

/-- Renaming the owned children fills the slots with the new names. -/
theorem Kind.slots_mapOwned (rename : NodeId → NodeId) (kind : Kind) :
    (kind.mapOwned rename).slots = kind.slots.map (Slot.map rename) := by
  cases kind with
  | list holds elements =>
    simp [Kind.mapOwned, Kind.withSlots, Kind.slots, List.filterMap_map, Function.comp_def,
      Slot.child?, Slot.map]
  | stmt data => cases data <;> rfl
  | expr data =>
    cases data with
    | call callee args => cases callee <;> rfl
    | _ => rfl
  | symbol data =>
    obtain ⟨_, _, _, _, kind⟩ := data
    cases kind <;> rfl
  | type data =>
    obtain ⟨_, kind⟩ := data
    cases kind <;> rfl

theorem Kind.owned_mapOwned (rename : NodeId → NodeId) (kind : Kind) :
    (kind.mapOwned rename).owned = kind.owned.map rename := by
  have renamed : Slot.child? ∘ Slot.map rename = fun slot => slot.child?.map rename :=
    funext (Slot.child?_map rename)
  rw [Kind.owned_eq_slots, Kind.slots_mapOwned, List.filterMap_map, renamed, Kind.owned_eq_slots,
    List.map_filterMap]

end ProgramTree
