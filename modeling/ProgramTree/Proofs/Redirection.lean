import Mathlib.Logic.Function.Iterate
import ProgramTree.Proofs.Copying
import ProgramTree.Proofs.Mutations

/-!
# Redirection

The outermost step of a copy ends by redirecting the links below the duplicate, each node as
often as the walk comes across it.  As long as no duplicate was copied itself, no link below
the duplicate leads to a node that has a duplicate.  That is so only if the step copies: one
for a node that is in the table already redirects nothing.
-/

namespace ProgramTree

open Program

/-! ## Tables of duplicates -/

/-- No node that stands for another has one that stands for it. -/
def Remap.Flat (table : Remap) : Prop :=
  ∀ {original duplicate : NodeId}, table[original]? = some duplicate → duplicate ∉ table

theorem Remap.apply_eq {table : Remap} {id value : NodeId} (entry : table[id]? = some value) :
    table.apply id = value := by
  rw [Remap.apply, Std.ExtTreeMap.getD_eq_getD_getElem?, entry, Option.getD_some]

theorem Remap.apply_of_notMem {table : Remap} {id : NodeId} (absent : id ∉ table) :
    table.apply id = id := by
  rw [Remap.apply, Std.ExtTreeMap.getD_eq_getD_getElem?, Std.ExtTreeMap.getElem?_eq_none absent,
    Option.getD_none]

theorem Remap.Flat.apply_notMem {table : Remap} (flat : table.Flat) (id : NodeId) :
    table.apply id ∉ table := by
  by_cases member : id ∈ table
  · rw [Remap.apply_eq (Std.ExtTreeMap.getElem?_eq_some_getElem member)]
    exact flat (Std.ExtTreeMap.getElem?_eq_some_getElem member)
  · rwa [Remap.apply_of_notMem member]

/-! ## Nodes with their links redirected -/

theorem Kind.mapLinks_mapLinks {first second : NodeId → NodeId} (kind : Kind) :
    (kind.mapLinks first).mapLinks second = kind.mapLinks (second ∘ first) := by
  cases kind with
  | list holds elements => rfl
  | stmt data => cases data <;> simp [Kind.mapLinks, Stmt.mapLinks]
  | expr data => cases data <;> simp [Kind.mapLinks, Expr.mapLinks]
  | symbol data =>
    obtain ⟨_, _, _, _, kind⟩ := data
    cases kind <;> simp [Kind.mapLinks, SymbolKind.mapLinks]
  | type data =>
    obtain ⟨_, kind⟩ := data
    cases kind <;> simp [Kind.mapLinks, TypeKind.mapLinks]

theorem Kind.isSymbol_mapLinks {redirect : NodeId → NodeId} (kind : Kind) :
    (kind.mapLinks redirect).isSymbol = kind.isSymbol := by
  cases kind <;> rfl

theorem Kind.isScope_mapLinks {redirect : NodeId → NodeId} (kind : Kind) :
    (kind.mapLinks redirect).isScope = kind.isScope := by
  cases kind with
  | stmt data => cases data <;> rfl
  | symbol data =>
    obtain ⟨_, _, _, _, kind⟩ := data
    cases kind <;> rfl
  | _ => rfl

theorem Kind.category?_mapLinks {redirect : NodeId → NodeId} (kind : Kind) :
    (kind.mapLinks redirect).category? = kind.category? := by
  cases kind with
  | stmt data => cases data <;> rfl
  | expr data => cases data <;> rfl
  | symbol data =>
    obtain ⟨_, _, _, _, kind⟩ := data
    cases kind <;> rfl
  | _ => rfl

theorem Kind.mapLinks_eq_self (kind : Kind) : kind.mapLinks id = kind :=
  kind.mapLinks_id

/-- The node with each of its links redirected. -/
def Node.redirected (redirect : NodeId → NodeId) (node : Node) : Node :=
  { node with kind := node.kind.mapLinks redirect }

theorem Node.redirected_id (node : Node) : node.redirected id = node := by
  rw [redirected, Kind.mapLinks_eq_self]

theorem Node.redirected_iterate (redirect : NodeId → NodeId) (times : Nat) (node : Node) :
    (Node.redirected redirect)^[times] node = node.redirected redirect^[times] := by
  induction times with
  | zero => exact node.redirected_id.symm
  | succ times ih =>
    rw [Function.iterate_succ_apply', ih, Function.iterate_succ', redirected, redirected,
      redirected, Kind.mapLinks_mapLinks]

namespace Edit

variable {before after : Program} {table : Remap} {root : NodeId}

/-- Changing nodes in a row changes each as often as it comes up. -/
theorem get?_of_changeAll {ids : List NodeId} {f : Node → Node}
    (run : Yields (ids.forM fun id => change id f) before () after) :
    (∀ id, after.get? id = (before.get? id).map f^[ids.count id]) ∧
      after = { before with nodes := after.nodes } := by
  induction ids generalizing before with
  | nil =>
    obtain rfl := yields_forM_nil.mp run
    exact ⟨fun id => by simp, rfl⟩
  | cons first rest ih =>
    obtain ⟨between, changed, run⟩ := yields_forM_cons.mp run
    obtain ⟨_, rfl⟩ := yields_change.mp changed
    obtain ⟨nodes, others⟩ := ih run
    refine ⟨fun id => ?_, by rw [others, modifyNode_rest]⟩
    rw [nodes, get?_modifyNode]
    by_cases isFirst : first = id
    · subst isFirst
      rw [if_pos rfl, List.count_cons_self, Option.map_map, Function.iterate_succ]
    · rw [if_neg isFirst, List.count_cons_of_ne isFirst]

/-- Below the root, and only there, links were redirected through the table, once or more. -/
structure Redirected (table : Remap) (root : NodeId) (before after : Program) : Prop where
  node : ∀ id, ∃ times, (times = 0 ↔ ¬ before.Contains root id) ∧
    after.get? id = (before.get? id).map (Node.redirected table.apply^[times])
  rest : after = { before with nodes := after.nodes }

theorem redirected_of_redirectLinks (run : Yields (redirectLinks table root) before () after) :
    Redirected table root before after := by
  obtain ⟨nodes, _, walk, changes⟩ := yields_bind.mp run
  obtain ⟨walked, rfl⟩ := yields_look.mp walk
  obtain ⟨changed, rest⟩ := get?_of_changeAll changes
  refine ⟨fun id => ⟨nodes.count id, ?_, ?_⟩, rest⟩
  · rw [List.count_eq_zero, mem_subtree walked]
  · rw [changed]
    congr 1
    funext node
    exact node.redirected_iterate table.apply (nodes.count id)

namespace Redirected

variable {id holder : NodeId} (redirected : Redirected table root before after)
include redirected

theorem held : after.held = before.held := by
  funext id
  obtain ⟨times, _, found⟩ := redirected.node id
  cases known : before.get? id with
  | none =>
    rw [known] at found
    rw [held_of_unissued found, held_of_unissued known]
  | some node =>
    rw [known] at found
    rw [held_eq found, held_eq known, Node.redirected, Kind.owned_mapLinks]

theorem contains : after.Contains = before.Contains := by
  have holds : after.Holds = before.Holds := by
    funext holder child
    rw [Holds, redirected.held, Holds]
  rw [Contains, holds]

theorem kindAt (id : NodeId) :
    ∃ redirect, after.kindAt id = (before.kindAt id).map (Kind.mapLinks redirect) := by
  obtain ⟨times, _, found⟩ := redirected.node id
  refine ⟨table.apply^[times], ?_⟩
  rw [Program.kindAt, found, Option.map_map, Program.kindAt, Option.map_map]
  rfl

/-- Links are nothing that the order of a program depends on. -/
theorem orderly {exact bare : Prop} {region : NodeId → Prop} {loose : List NodeId}
    (orderly : Orderly exact bare region loose before) : Orderly exact bare region loose after := by
  have unchanged : ∀ (test : Kind → Bool),
      (∀ (redirect : NodeId → NodeId) (kind : Kind), test (kind.mapLinks redirect) = test kind) →
      ∀ id, (after.kindAt id).any test = (before.kindAt id).any test := by
    intro test same id
    obtain ⟨redirect, kinds⟩ := redirected.kindAt id
    rw [kinds]
    cases before.kindAt id <;> simp [same]
  refine orderly.of_frame ⟨?_, ?_, ?_, ?_, ?_, by rw [redirected.rest]⟩
    (fun id => congrFun redirected.held id) ?_ ?_ (by rw [redirected.rest])
  · intro id
    obtain ⟨times, _, found⟩ := redirected.node id
    rw [contextOf, found, Option.map_map, contextOf]
    rfl
  · exact unchanged Kind.isSymbol fun _ => Kind.isSymbol_mapLinks
  · exact unchanged Kind.isScope fun _ => Kind.isScope_mapLinks
  · exact unchanged Kind.isModule fun _ => Kind.isModule_mapLinks
  · intro id
    obtain ⟨redirect, kinds⟩ := redirected.kindAt id
    rw [kinds]
    cases before.kindAt id <;> simp [Kind.category?_mapLinks]
  · intro id
    obtain ⟨times, _, found⟩ := redirected.node id
    rw [parentOf, found, parentOf]
    cases before.get? id <;> rfl
  · intro id
    obtain ⟨times, _, found⟩ := redirected.node id
    rw [found, Option.map_eq_none_iff]

/-- Nothing below the root refers to a node that has a duplicate. -/
theorem notMem_of_link (flat : table.Flat) {kind : Kind} (below : after.Contains root id)
    (known : after.kindAt id = some kind) {link : NodeId} (isLink : link ∈ kind.links) :
    link ∉ table := by
  obtain ⟨times, often, found⟩ := redirected.node id
  rw [redirected.contains] at below
  obtain ⟨fewer, rfl⟩ : ∃ fewer, times = fewer + 1 :=
    Nat.exists_eq_succ_of_ne_zero fun never => often.mp never below
  obtain ⟨node, foundAfter, rfl⟩ := get?_of_kindAt known
  rw [foundAfter] at found
  obtain ⟨old, _, rfl⟩ := Option.map_eq_some_iff.mp found.symm
  rw [Node.redirected, Kind.links_mapLinks] at isLink
  obtain ⟨source, _, rfl⟩ := List.mem_map.mp isLink
  rw [Function.iterate_succ_apply']
  exact flat.apply_notMem _

end Redirected

/-- A step that copies goes through the subtree; the outermost one then redirects. -/
theorem yields_duplicateWith {top : NodeId} {updated : List NodeId} {inner : Bool}
    {answer : Duplication} (absent : top ∉ table) :
    Yields (duplicateWith top table updated inner) before answer after ↔
      ∃ final middle, Yields (duplicateWithin before.levelBound table top) before final middle ∧
        ((inner = true ∧ answer = ⟨final.apply top, final, updated⟩ ∧ after = middle) ∨
          (inner = false ∧ answer = ⟨final.apply top, final, updated.map final.apply⟩ ∧
            Yields (redirectLinks final (final.apply top)) middle () after)) := by
  rw [duplicateWith, Std.ExtTreeMap.getElem?_eq_none absent]
  simp only [yields_bind, yields_get, yields_ite, yields_pure, Bool.not_eq_true]
  constructor
  · intro run
    obtain ⟨_, start, ⟨rfl, isStart⟩, final, middle, copying, rest⟩ := run
    rw [isStart] at copying
    refine ⟨final, middle, copying, ?_⟩
    rcases rest with ⟨isInner, rfl, rfl⟩ | ⟨isOuter, _, _, redirection, rfl, rfl⟩
    · exact .inl ⟨isInner, rfl, rfl⟩
    · exact .inr ⟨isOuter, rfl, redirection⟩
  · intro steps
    obtain ⟨final, middle, copying, rest⟩ := steps
    refine ⟨before, before, ⟨rfl, rfl⟩, final, middle, copying, ?_⟩
    rcases rest with ⟨isInner, rfl, rfl⟩ | ⟨isOuter, rfl, redirection⟩
    · exact .inl ⟨isInner, rfl, rfl⟩
    · exact .inr ⟨isOuter, (), after, redirection, rfl, rfl⟩

/-- The outermost step that makes a copy brings the list up to date, and refers to no node that
has a duplicate any more, neither there nor below the copy. -/
theorem notMem_of_duplicateWith {top : NodeId} {updated : List NodeId} {answer : Duplication}
    (absent : top ∉ table)
    (run : Yields (duplicateWith top table updated false) before answer after)
    (flat : answer.table.Flat) :
    (∀ id kind, after.Contains answer.duplicate id → after.kindAt id = some kind →
      ∀ link ∈ kind.links, link ∉ answer.table) ∧
    answer.updated = updated.map answer.table.apply ∧
    ∀ entry ∈ answer.updated, entry ∉ answer.table := by
  obtain ⟨final, middle, _, ⟨never, _⟩ | ⟨_, rfl, redirection⟩⟩ :=
    (yields_duplicateWith absent).mp run
  · simp at never
  refine ⟨?_, rfl, ?_⟩
  · intro id kind below known link isLink
    exact (redirected_of_redirectLinks redirection).notMem_of_link flat below known isLink
  · intro entry isUpdated
    obtain ⟨source, _, rfl⟩ := List.mem_map.mp isUpdated
    exact flat.apply_notMem source

end Edit

end ProgramTree
