import Mathlib.Tactic.Common
import ProgramTree.Kind.Slots
import ProgramTree.Proofs.Index

/-!
# Splicing owned children

Every change of the slots of one node lets a stretch of its owned children give way
to another one: rebinding a slot, and taking out, setting, inserting and dropping
elements of a list.  Nothing else of the kind changes.
-/

namespace ProgramTree

/-! ## Refilled slots -/

namespace Slot

def isOptional : Slot → Bool
  | required _ => false
  | optional _ => true

variable {slots : List Slot} {shape : List Bool}

theorem shape_required :
    slots.map isOptional = false :: shape ↔
      ∃ child rest, slots = .required child :: rest ∧ rest.map isOptional = shape := by
  rw [List.map_eq_cons_iff]
  constructor
  · rintro ⟨child | child?, rest, rfl, required, restShape⟩
    · exact ⟨child, rest, rfl, restShape⟩
    · cases required
  · rintro ⟨child, rest, rfl, restShape⟩
    exact ⟨_, rest, rfl, rfl, restShape⟩

theorem shape_optional :
    slots.map isOptional = true :: shape ↔
      ∃ child? rest, slots = .optional child? :: rest ∧ rest.map isOptional = shape := by
  rw [List.map_eq_cons_iff]
  constructor
  · rintro ⟨child | child?, rest, rfl, optional, restShape⟩
    · cases optional
    · exact ⟨child?, rest, rfl, restShape⟩
  · rintro ⟨child?, rest, rfl, restShape⟩
    exact ⟨_, rest, rfl, rfl, restShape⟩

theorem required_children {shape : List NodeId}
    (allRequired : slots.map isOptional = (shape.map required).map isOptional) :
    (slots.filterMap child?).map required = slots := by
  induction slots generalizing shape with
  | nil => rfl
  | cons first rest ih =>
    cases shape with
    | nil => simp at allRequired
    | cons _ shape =>
      simp only [List.map_cons, List.cons.injEq] at allRequired
      cases first with
      | required child => simp [child?, ih allRequired.2]
      | optional child? => simp [isOptional] at allRequired

/-- A rebound slot stands where the old one stood, and is optional if that one was. -/
theorem rebind_done {old : NodeId} {new? : Option NodeId} {rebound : List Slot}
    (run : rebind old new? slots = .done rebound) :
    ∃ left slot new right, slots = left ++ slot :: right ∧ rebound = left ++ new :: right ∧
      slot.child? = some old ∧ new.child? = new? ∧ new.isOptional = slot.isOptional := by
  induction slots generalizing rebound with
  | nil => simp [rebind] at run
  | cons first rest ih =>
    have later : ∀ {kept : Slot}, (rebind old new? rest).map (kept :: ·) = .done rebound →
        ∃ left slot new right, kept :: rest = left ++ slot :: right ∧
          rebound = left ++ new :: right ∧ slot.child? = some old ∧ new.child? = new? ∧
          new.isOptional = slot.isOptional := by
      intro kept run
      cases found : rebind old new? rest with
      | done inner =>
        rw [found] at run
        obtain rfl : kept :: inner = rebound := by simpa [Rebinding.map] using run
        obtain ⟨left, slot, new, right, rfl, rfl, facts⟩ := ih found
        exact ⟨kept :: left, slot, new, right, rfl, rfl, facts⟩
      | missing => simp [found, Rebinding.map] at run
      | required => simp [found, Rebinding.map] at run
    cases first with
    | required child =>
      simp only [rebind] at run
      split at run
      · next isOld =>
        cases new? with
        | none => simp at run
        | some new =>
          obtain rfl : .required new :: rest = rebound := by simpa using run
          exact ⟨[], _, .required new, rest, rfl, rfl, by rw [isOld]; rfl, rfl, rfl⟩
      · exact later run
    | optional child? =>
      simp only [rebind] at run
      split at run
      · next isOld =>
        obtain rfl : .optional new? :: rest = rebound := by simpa using run
        exact ⟨[], _, .optional new?, rest, rfl, rfl, isOld, rfl, rfl⟩
      · exact later run

end Slot

section Refilling

variable {slots : List Slot}

theorem Stmt.slots_withSlots {stmt : Stmt}
    (shape : slots.map Slot.isOptional = stmt.slots.map Slot.isOptional) :
    (stmt.withSlots slots).slots = slots := by
  cases stmt <;>
    simp only [Stmt.slots, List.map_cons, List.map_nil, Slot.isOptional, Slot.shape_required,
      Slot.shape_optional, List.map_eq_nil_iff] at shape
  all_goals aesop

theorem Expr.slots_withSlots {expr : Expr}
    (shape : slots.map Slot.isOptional = expr.slots.map Slot.isOptional) :
    (expr.withSlots slots).slots = slots := by
  rcases expr with _ | _ | ⟨_ | _, _⟩ | _ | _ | _ | _ <;>
    simp only [Expr.slots, List.map_cons, List.map_nil, Slot.isOptional, Slot.shape_required,
      Slot.shape_optional, List.map_eq_nil_iff] at shape
  all_goals aesop

theorem SymbolKind.slots_withSlots {kind : SymbolKind}
    (shape : slots.map Slot.isOptional = kind.slots.map Slot.isOptional) :
    (kind.withSlots slots).slots = slots := by
  cases kind <;>
    simp only [SymbolKind.slots, List.map_cons, List.map_nil, Slot.isOptional,
      Slot.shape_required, Slot.shape_optional, List.map_eq_nil_iff] at shape
  all_goals aesop

theorem TypeKind.slots_withSlots {kind : TypeKind}
    (shape : slots.map Slot.isOptional = kind.slots.map Slot.isOptional) :
    (kind.withSlots slots).slots = slots := by
  cases kind <;>
    simp only [TypeKind.slots, List.map_cons, List.map_nil, Slot.isOptional,
      Slot.shape_required, Slot.shape_optional, List.map_eq_nil_iff] at shape
  all_goals aesop

/-- Slots of the shape of the kind go in as they are. -/
theorem Kind.slots_withSlots {kind : Kind}
    (shape : slots.map Slot.isOptional = kind.slots.map Slot.isOptional) :
    (kind.withSlots slots).slots = slots := by
  cases kind with
  | list holds elements => exact Slot.required_children shape
  | stmt stmt => exact Stmt.slots_withSlots shape
  | expr expr => exact Expr.slots_withSlots shape
  | symbol symbol => exact SymbolKind.slots_withSlots shape
  | type type => exact TypeKind.slots_withSlots shape

end Refilling

/-! ## What a kind keeps when its slots change -/

section Kept

variable {slots : List Slot} {kind : Kind}

theorem SymbolKind.isFn_withSlots (symbol : Symbol) :
    Symbol.isFn { symbol with kind := symbol.kind.withSlots slots } = symbol.isFn := by
  obtain ⟨_, _, _, _, kind⟩ := symbol
  simp only [SymbolKind.withSlots]
  split <;> rfl

theorem SymbolKind.isModule_withSlots (symbol : Symbol) :
    Symbol.isModule { symbol with kind := symbol.kind.withSlots slots } = symbol.isModule := by
  obtain ⟨_, _, _, _, kind⟩ := symbol
  simp only [SymbolKind.withSlots]
  split <;> rfl

@[simp] theorem Kind.isList_withSlots : (kind.withSlots slots).isList = kind.isList := by
  cases kind <;> rfl

@[simp] theorem Kind.isSymbol_withSlots : (kind.withSlots slots).isSymbol = kind.isSymbol := by
  cases kind <;> rfl

@[simp] theorem Kind.isModule_withSlots : (kind.withSlots slots).isModule = kind.isModule := by
  cases kind with
  | symbol symbol => exact SymbolKind.isModule_withSlots symbol
  | _ => rfl

@[simp] theorem Kind.isScope_withSlots : (kind.withSlots slots).isScope = kind.isScope := by
  cases kind with
  | symbol symbol =>
    simp only [Kind.withSlots, Kind.isScope, SymbolKind.isFn_withSlots,
      SymbolKind.isModule_withSlots]
  | stmt stmt =>
    simp only [Kind.withSlots]
    unfold Stmt.withSlots
    split <;> rfl
  | _ => rfl

@[simp] theorem Kind.category?_withSlots :
    (kind.withSlots slots).category? = kind.category? := by
  cases kind with
  | symbol symbol =>
    simp only [Kind.withSlots, Kind.category?, SymbolKind.isFn_withSlots]
  | stmt stmt =>
    simp only [Kind.withSlots]
    unfold Stmt.withSlots
    split <;> rfl
  | expr expr =>
    simp only [Kind.withSlots]
    unfold Expr.withSlots
    split <;> rfl
  | _ => rfl

end Kept

/-! ## Splices -/

/-- In the owned children of `before` the stretch `out` gives way to `into`, and that
is all that `after` differs in. -/
structure Kind.Splices (before : Kind) (out into : List NodeId) (after : Kind) : Prop where
  form : ∃ slots, after = before.withSlots slots
  owned : ∃ left right,
    before.owned = left ++ out ++ right ∧ after.owned = left ++ into ++ right

namespace Kind

variable {before after : Kind} {out into : List NodeId} {id old new : NodeId}

theorem Splices.mem (splices : before.Splices out into after) (nodup : before.owned.Nodup) :
    id ∈ after.owned ↔ (id ∈ before.owned ∧ id ∉ out) ∨ id ∈ into := by
  obtain ⟨left, right, ownedBefore, ownedAfter⟩ := splices.owned
  rw [ownedBefore] at nodup ⊢
  rw [ownedAfter]
  have leftOut : ∀ {id}, id ∈ left → id ∉ out := by
    intro id inLeft inOut
    exact (List.nodup_append.mp (List.nodup_append.mp nodup).1).2.2 id inLeft id inOut rfl
  have outRight : ∀ {id}, id ∈ right → id ∉ out := by
    intro id inRight inOut
    exact (List.nodup_append.mp nodup).2.2 id (by simp [inOut]) id inRight rfl
  simp only [List.mem_append]
  constructor
  · rintro ((inLeft | inInto) | inRight)
    · exact .inl ⟨.inl (.inl inLeft), leftOut inLeft⟩
    · exact .inr inInto
    · exact .inl ⟨.inr inRight, outRight inRight⟩
  · rintro (⟨((inLeft | inOut) | inRight), kept⟩ | inInto)
    · exact .inl (.inl inLeft)
    · exact absurd inOut kept
    · exact .inr inRight
    · exact .inl (.inr inInto)

theorem Splices.out_owned (splices : before.Splices out into after) (member : id ∈ out) :
    id ∈ before.owned := by
  obtain ⟨left, right, ownedBefore, _⟩ := splices.owned
  simp [ownedBefore, member]

theorem Splices.into_owned (splices : before.Splices out into after) (member : id ∈ into) :
    id ∈ after.owned := by
  obtain ⟨left, right, _, ownedAfter⟩ := splices.owned
  simp [ownedAfter, member]

theorem Splices.nodup (splices : before.Splices out into after) (nodup : before.owned.Nodup)
    (distinct : into.Nodup) (fresh : ∀ id ∈ into, id ∉ before.owned) : after.owned.Nodup := by
  obtain ⟨left, right, ownedBefore, ownedAfter⟩ := splices.owned
  rw [ownedBefore] at nodup fresh
  rw [ownedAfter]
  have sides : (left ++ right).Nodup := nodup.sublist (by simp)
  obtain ⟨leftNodup, rightNodup, apart⟩ := List.nodup_append.mp sides
  refine List.nodup_append.mpr ⟨List.nodup_append.mpr ⟨leftNodup, distinct, ?_⟩, rightNodup, ?_⟩
  · rintro first inLeft second inInto rfl
    exact fresh first inInto (by simp [inLeft])
  · rintro first inFront second inRight rfl
    rcases List.mem_append.mp inFront with inLeft | inInto
    · exact apart first inLeft first inRight rfl
    · exact fresh first inInto (by simp [inRight])

theorem rebind_splices {kind rebound : Kind} {new? : Option NodeId}
    (run : kind.rebind old new? = .done rebound) : kind.Splices [old] new?.toList rebound := by
  rw [Kind.rebind] at run
  cases found : Slot.rebind old new? kind.slots with
  | done slots =>
    rw [found] at run
    obtain rfl : kind.withSlots slots = rebound := by simpa [Rebinding.map] using run
    obtain ⟨left, slot, new, right, slotsBefore, rfl, wasOld, isNew, sameForm⟩ :=
      Slot.rebind_done found
    refine ⟨⟨_, rfl⟩, left.filterMap Slot.child?, right.filterMap Slot.child?, ?_, ?_⟩
    · rw [owned_eq_slots, slotsBefore]
      simp [wasOld]
    · rw [owned_eq_slots, slots_withSlots (by rw [slotsBefore]; simp [sameForm])]
      cases new? <;> simp [isNew]
  | missing => simp [found, Rebinding.map] at run
  | required => simp [found, Rebinding.map] at run

/-! ### Lists -/

section Lists

variable {holds : ListCategory} {elements : Array NodeId} {position : Nat}

theorem list_withSlots (changed : Array NodeId) :
    Kind.list holds changed =
      (Kind.list holds elements).withSlots (changed.toList.map .required) := by
  simp [withSlots, List.filterMap_map, Function.comp_def, Slot.child?]

theorem clear_splices :
    (Kind.list holds elements).Splices elements.toList [] (.list holds #[]) :=
  ⟨⟨_, list_withSlots #[]⟩, [], [], by simp [Kind.owned], by simp [Kind.owned]⟩

/-- A list falls apart at the place of an element. -/
theorem split_at_element (found : elements.toList[position]? = some old) :
    elements.toList =
      elements.toList.take position ++ [old] ++ elements.toList.drop (position + 1) := by
  obtain ⟨inBounds, here⟩ := List.getElem?_eq_some_iff.mp found
  conv_lhs => rw [← List.take_append_drop position elements.toList]
  rw [List.drop_eq_getElem_cons inBounds, here]
  simp

theorem erase_splices (found : elements.toList[position]? = some old) :
    (Kind.list holds elements).Splices [old] []
      (.list holds (elements.eraseIdxIfInBounds position)) := by
  refine ⟨⟨_, list_withSlots _⟩, elements.toList.take position,
    elements.toList.drop (position + 1), split_at_element found, ?_⟩
  rw [Kind.owned, Array.toList_eraseIdxIfInBounds, List.eraseIdx_eq_take_drop_succ,
    List.append_nil]

theorem set_splices (found : elements.toList[position]? = some old) :
    (Kind.list holds elements).Splices [old] [new]
      (.list holds (elements.setIfInBounds position new)) := by
  have inBounds := (List.getElem?_eq_some_iff.mp found).1
  refine ⟨⟨_, list_withSlots _⟩, elements.toList.take position,
    elements.toList.drop (position + 1), split_at_element found, ?_⟩
  rw [Kind.owned, Array.toList_setIfInBounds, List.set_eq_take_append_cons_drop,
    if_pos inBounds]
  simp

theorem insertIdx_length_append (new : NodeId) (left right : List NodeId) :
    (left ++ right).insertIdx left.length new = left ++ [new] ++ right := by
  induction left with
  | nil => rfl
  | cons first rest ih => simpa using ih

theorem insertIdxIfInBounds_append (new : NodeId) (left right : List NodeId) :
    (left ++ right).toArray.insertIdxIfInBounds left.length new =
      (left ++ new :: right).toArray := by
  simpa using insertIdx_length_append new left right

theorem insertIdxIfInBounds_eq {items : List NodeId} (new : NodeId)
    (inBounds : position ≤ items.length) :
    items.toArray.insertIdxIfInBounds position new =
      (items.take position ++ new :: items.drop position).toArray := by
  have inserted := insertIdxIfInBounds_append new (items.take position) (items.drop position)
  rwa [List.length_take_of_le inBounds, List.take_append_drop] at inserted

theorem insert_splices (inBounds : position ≤ elements.size) :
    (Kind.list holds elements).Splices [] [new]
      (.list holds (elements.insertIdxIfInBounds position new)) := by
  obtain ⟨items⟩ := elements
  refine ⟨⟨_, list_withSlots _⟩, items.take position, items.drop position, ?_, ?_⟩
  · simp [Kind.owned]
  · rw [insertIdxIfInBounds_eq new inBounds]
    simp [Kind.owned]

end Lists

end Kind

end ProgramTree
