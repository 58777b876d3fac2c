import Mathlib.Data.List.Perm.Basic
import Mathlib.Tactic.Common
import ProgramTree.Kind.Children
import ProgramTree.Kind.Links
import ProgramTree.Kind.Slots

/-!
# What a kind holds, refers to and shows

Four enumerations list the nodes that a kind names: its slots, its owned children, its links and
its children in a view.  Each goes through all kinds by itself.  The shallow view leaves out owned
children but keeps their order.  The deep view puts links between them, each as often as the kind
refers to it, and leaves out two: the definition point of a symbol, and the declared type of a type
symbol.
-/

namespace ProgramTree

/-! ## Links that stay hidden -/

/-- The declared type of a symbol, where no view shows it. -/
def Symbol.hiddenType (symbol : Symbol) : List NodeId :=
  match symbol.kind with
  | .type _ => symbol.type?.toList
  | _ => []

/-- The links that no view shows. -/
def Kind.hiddenLinks : Kind → List NodeId
  | .symbol data => data.defPoint?.toList ++ data.hiddenType
  | _ => []

theorem Symbol.shownType_append_hiddenType (symbol : Symbol) :
    symbol.shownType .deep ++ symbol.hiddenType = symbol.type?.toList := by
  obtain ⟨_, _, _, _, kind⟩ := symbol
  cases kind <;> simp [shownType, hiddenType, View.only]

/-! ## The shallow view -/

/-- The shallow view shows owned children only, in the order of the slots. -/
theorem Kind.children_shallow_sublist (kind : Kind) :
    (kind.children .shallow).Sublist kind.owned := by
  cases kind with
  | list holds elements => exact .refl _
  | stmt stmt => cases stmt <;> simp [children, Stmt.children, owned, Stmt.owned, View.only]
  | expr expr =>
    cases expr with
    | call callee args => cases callee <;> exact .refl _
    | _ => simp [children, Expr.children, owned, Expr.owned, View.only]
  | symbol data =>
    obtain ⟨_, _, _, _, kind⟩ := data
    cases kind <;>
      simp [children, SymbolKind.children, Symbol.shownType, owned, SymbolKind.owned, View.only]
  | type data =>
    obtain ⟨_, kind⟩ := data
    cases kind <;> simp [children, TypeKind.children, owned, TypeKind.owned, View.only]

/-! ## The deep view -/

/-- A statement shows what it holds and then its label. -/
theorem Stmt.children_deep (stmt : Stmt) : stmt.children .deep = stmt.owned ++ stmt.links := by
  cases stmt with
  | goto label? => rfl
  | _ => exact (List.append_nil _).symm

theorem Expr.owned_sublist_children (expr : Expr) : expr.owned.Sublist (expr.children .deep) := by
  cases expr with
  | call callee args => cases callee <;> exact .refl _
  | _ => simp [children, owned, View.only]

/-- The target type of a cast stands before what the cast holds. -/
theorem Expr.children_deep_perm (expr : Expr) :
    (expr.children .deep).Perm (expr.owned ++ expr.links) := by
  cases expr with
  | call callee args => cases callee <;> exact .refl _
  | cast toType? newType? inner =>
    show (toType?.toList ++ newType?.toList ++ [inner]).Perm
      (newType?.toList ++ [inner] ++ toType?.toList)
    rw [List.append_assoc]
    exact List.perm_append_comm
  | _ => simp [children, owned, links, View.only]

theorem SymbolKind.owned_sublist_children (kind : SymbolKind) :
    kind.owned.Sublist (kind.children .deep) := by
  cases kind <;> simp [children, owned, View.only]

/-- The return type of a function stands before its condition. -/
theorem SymbolKind.children_deep_perm (kind : SymbolKind) :
    (kind.children .deep).Perm (kind.owned ++ kind.links) := by
  cases kind with
  | fn formals body retType? whereExpr? =>
    show ([formals, body] ++ retType?.toList ++ whereExpr?.toList).Perm
      ([formals, body] ++ whereExpr?.toList ++ retType?.toList)
    rw [List.append_assoc, List.append_assoc]
    exact List.perm_append_comm.append_left [formals, body]
  | _ => simp [children, owned, links, View.only]

/-- A type shows what it holds and then its links. -/
theorem TypeKind.children_deep (kind : TypeKind) :
    kind.children .deep = kind.owned ++ kind.links := by
  cases kind <;> rfl

/-- The deep view shows all owned children, in the order of the slots. -/
theorem Kind.owned_sublist_children (kind : Kind) : kind.owned.Sublist (kind.children .deep) := by
  cases kind with
  | list holds elements => exact .refl _
  | stmt stmt =>
    rw [children, Stmt.children_deep]
    exact List.sublist_append_left _ _
  | expr expr => exact expr.owned_sublist_children
  | symbol data => exact data.kind.owned_sublist_children.trans (List.sublist_append_left _ _)
  | type data =>
    rw [children, TypeKind.children_deep, List.append_assoc]
    exact List.sublist_append_left _ _

/-- The deep view shows the owned children and all links that are not hidden. -/
theorem Kind.children_deep_perm (kind : Kind) :
    (kind.children .deep ++ kind.hiddenLinks).Perm (kind.owned ++ kind.links) := by
  cases kind with
  | list holds elements => exact .refl _
  | stmt stmt =>
    rw [children, Stmt.children_deep]
    exact .of_eq (List.append_nil _)
  | expr expr =>
    show (expr.children .deep ++ []).Perm (expr.owned ++ expr.links)
    rw [List.append_nil]
    exact expr.children_deep_perm
  | symbol data =>
    have inner := data.kind.children_deep_perm
    have types := data.shownType_append_hiddenType
    rw [List.perm_iff_count] at inner ⊢
    intro id
    have innerCount := inner id
    simp only [children, hiddenLinks, owned, links, ← types, List.count_append] at innerCount ⊢
    omega
  | type data =>
    show (data.kind.children .deep ++ data.symbol?.toList ++ []).Perm
      (data.kind.owned ++ (data.symbol?.toList ++ data.kind.links))
    rw [List.append_nil, TypeKind.children_deep, List.append_assoc]
    exact List.perm_append_comm.append_left _

/-- No view shows anything but owned children and links. -/
theorem Kind.children_subset (view : View) (kind : Kind) :
    kind.children view ⊆ kind.owned ++ kind.links := by
  cases view with
  | shallow =>
    exact List.Subset.trans kind.children_shallow_sublist.subset (List.subset_append_left _ _)
  | deep =>
    exact List.Subset.trans (List.subset_append_left _ _) kind.children_deep_perm.subset

/-- **The enumerations agree.**  The owned children are what the slots hold.  The shallow view is
a part of them, they are a part of the deep view, and the order is the same in all.  The deep view
and the hidden links have each node as often as the owned children and the links. -/
theorem Kind.enumerations_agree (kind : Kind) :
    kind.owned = kind.slots.filterMap Slot.child? ∧
      (kind.children .shallow).Sublist kind.owned ∧
      kind.owned.Sublist (kind.children .deep) ∧
      (kind.children .deep ++ kind.hiddenLinks).Perm (kind.owned ++ kind.links) :=
  ⟨kind.owned_eq_slots, kind.children_shallow_sublist, kind.owned_sublist_children,
    kind.children_deep_perm⟩

end ProgramTree
