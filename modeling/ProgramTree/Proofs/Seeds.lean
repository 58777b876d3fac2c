import ProgramTree.Proofs.Calls
import ProgramTree.Proofs.Redirection

/-!
# Copies that take over

A seed for a node that is held inside the copied subtree stands for that node's duplicate:
the copy holds it as it is.  So the seed gets a new holder, the links below it are redirected
with those of the copy, and nothing else of what was there changes.  If the seeds that are
taken over were free-standing, one for each place, then the copy is made, and the program
stays well-formed.
-/

namespace ProgramTree

open Program Edit

namespace Program

variable {before now after : Program} {seeds table final : Remap}
  {top id holder child key value : NodeId} {node source : Node} {kind : Kind}

/-! ## What is copied and what is taken over -/

/-- Copying `top` makes a duplicate of the node: no seed stands for it, and it is `top` or held by
a node that is copied. -/
inductive Copies (before : Program) (seeds : Remap) (top : NodeId) : NodeId → Prop where
  | top (unseeded : top ∉ seeds) : Copies before seeds top top
  | child {holder id : NodeId} (copies : Copies before seeds top holder)
      (holds : before.Holds holder id) (unseeded : id ∉ seeds) : Copies before seeds top id

/-- A node that is copied holds `key`, and the seed for it is `value`. -/
def TakenFor (before : Program) (seeds : Remap) (top value key : NodeId) : Prop :=
  ∃ holder, Copies before seeds top holder ∧ before.Holds holder key ∧ seeds[key]? = some value

theorem Copies.unseeded (copies : Copies before seeds top id) : id ∉ seeds := by
  cases copies with
  | top unseeded => exact unseeded
  | child _ _ unseeded => exact unseeded

/-- What a copied node holds is seeded or copied itself. -/
theorem Copies.child_cases (copies : Copies before seeds top holder)
    (holds : before.Holds holder child) :
    (∃ value, TakenFor before seeds top value child) ∨ Copies before seeds top child := by
  by_cases seeded : child ∈ seeds
  · exact .inl ⟨_, holder, copies, holds, Std.ExtTreeMap.getElem?_eq_some_getElem seeded⟩
  · exact .inr (copies.child holds seeded)

/-! ## Copying one node -/

/-- A node of this kind was made, and everything that it holds names it as its parent. -/
structure Begot (now : Program) (kind : Kind) (after : Program) : Prop where
  fresh : ∃ node, after.get? now.nextId = some node ∧ node.kind = kind ∧ node.context = {} ∧
    (now.nextId ∉ kind.owned → node.parent? = none)
  others : ∀ {other}, other ≠ now.nextId → after.get? other = (now.get? other).map fun node =>
    if other ∈ kind.owned then { node with parent? := some now.nextId } else node
  rest : after = { now with nodes := after.nodes }

/-- The parent that is set last is the same each time. -/
theorem iterate_setParent (parent? : Option NodeId) (times : Nat) (node : Node) :
    (fun node : Node => { node with parent? })^[times] node =
      if times = 0 then node else { node with parent? } := by
  induction times with
  | zero => rfl
  | succ times ih =>
    rw [Function.iterate_succ_apply', ih, if_neg (Nat.succ_ne_zero times)]
    split <;> rfl

theorem begot_of_setParents
    (run : Yields (kind.owned.forM (setParent · (some now.nextId))) (now.push kind) () after) :
    Begot now kind after := by
  have pushed : Pushed now kind (now.push kind) := pushed_push
  obtain ⟨nodes, rest⟩ := get?_of_changeAll run
  have setOnce : ∀ id, after.get? id = ((now.push kind).get? id).map fun node =>
      if id ∈ kind.owned then { node with parent? := some now.nextId } else node := by
    intro id
    rw [nodes]
    congr 1
    funext node
    by_cases member : id ∈ kind.owned <;> simp [iterate_setParent, List.count_eq_zero, member]
  refine ⟨?_, ?_, ?_⟩
  · obtain ⟨fresh, found, isKind, free, bare⟩ := pushed.node
    rw [setOnce, found]
    refine ⟨_, rfl, ?_⟩
    by_cases member : now.nextId ∈ kind.owned <;> simp [member, isKind, free, bare]
  · intro other old
    rw [setOnce, pushed.others old]
  · rw [rest, pushed.rest]

theorem Begot.carryOver (begot : Begot now kind before)
    (run : Yields (Edit.carryOver source now.nextId) before () after) : Begot now kind after := by
  simp only [Edit.carryOver, yields_bind, yields_get, yields_change] at run
  obtain ⟨_, _, ⟨rfl, rfl⟩, _, rfl⟩ := run
  refine ⟨?_, ?_, ?_⟩
  · obtain ⟨node, found, isKind, bare, free⟩ := begot.fresh
    rw [get?_modifyNode, if_pos rfl, found]
    exact ⟨_, rfl, isKind, bare, free⟩
  · intro other old
    rw [get?_modifyNode_of_ne (Ne.symm old), begot.others old]
  · rw [modifyNode_rest, begot.rest]

theorem begot_of_duplicateNode (run : Yields (duplicateNode id table) now final after) :
    ∃ source, now.get? id = some source ∧ final = table.insert id now.nextId ∧
      Begot now (source.kind.mapOwned table.apply) after := by
  simp only [duplicateNode, yields_bind, yields_look, yields_newNode, yields_pure, node_eq_ok,
    owned_eq_ok] at run
  obtain ⟨source, _, ⟨found, rfl⟩, _, _, ⟨rfl, rfl⟩, children, _, ⟨⟨_, held⟩, rfl⟩, _, adopted,
    adoption, _, _, carried, rfl, rfl⟩ := run
  rw [held_eq_of_kindAt pushed_push.kindAt] at held
  subst held
  exact ⟨source, found, rfl, (begot_of_setParents adoption).carryOver carried⟩

/-! ## What copying leaves of the old nodes -/

/-- The copies made so far: old nodes are what they were, but for the parents of those that are
taken over, and new nodes hold new ones and those. -/
structure Drawn (before : Program) (seeds : Remap) (top : NodeId) (table : Remap) (now : Program) :
    Prop where
  rest : now = { before with nodes := now.nodes }
  seeded : ∀ {key value : NodeId}, seeds[key]? = some value → table[key]? = some value
  entry : ∀ {key value : NodeId}, table[key]? = some value →
    seeds[key]? = some value ∨ before.New value
  old : ∀ {id node}, before.get? id = some node →
    ∃ parent?, now.get? id = some { node with parent? } ∧
      (parent? = node.parent? ∨ ∃ key, TakenFor before seeds top id key)
  fresh : ∀ {holder child}, before.New holder → now.Holds holder child →
    before.New child ∨ ∃ key, TakenFor before seeds top child key

namespace Drawn

theorem start : Drawn before seeds top seeds before where
  rest := rfl
  seeded entry := entry
  entry := .inl
  old found := ⟨_, found, .inl rfl⟩
  fresh isNew holds := by simp [Holds, held_of_unissued isNew] at holds

variable (drawn : Drawn before seeds top table now)
include drawn

theorem kindAt (issued : (before.get? id).isSome) : now.kindAt id = before.kindAt id := by
  obtain ⟨node, found⟩ := Option.isSome_iff_exists.mp issued
  obtain ⟨_, foundNow, _⟩ := drawn.old found
  rw [kindAt_eq foundNow, kindAt_eq found]

theorem held (issued : (before.get? id).isSome) : now.held id = before.held id := by
  rw [Program.held, drawn.kindAt issued, Program.held]

theorem new_nextId : before.New now.nextId := by
  rw [Program.New, ← Option.not_isSome_iff_eq_none]
  intro issued
  obtain ⟨node, found⟩ := Option.isSome_iff_exists.mp issued
  obtain ⟨_, foundNow, _⟩ := drawn.old found
  simp [get?_nextId] at foundNow

/-- What is put in the place of a node that the next copy holds. -/
theorem child_value (copies : Copies before seeds top id) (holds : before.Holds id child)
    (isIn : child ∈ table) :
    before.New (table.apply child) ∨ TakenFor before seeds top (table.apply child) child := by
  have found := Std.ExtTreeMap.getElem?_eq_some_getElem isIn
  rw [Remap.apply_eq found]
  rcases drawn.entry found with seeded | isNew
  · exact .inr ⟨id, copies, holds, seeded⟩
  · exact .inl isNew

/-- Copying one more node, whose children are all in the table. -/
theorem step (copies : Copies before seeds top id) (issued : (before.get? id).isSome)
    (childrenIn : ∀ child, before.Holds id child → child ∈ table)
    (run : Yields (duplicateNode id table) now final after) :
    Drawn before seeds top final after ∧ final = table.insert id now.nextId := by
  obtain ⟨source, found, rfl, begot⟩ := begot_of_duplicateNode run
  have ownedValues : ∀ value ∈ (source.kind.mapOwned table.apply).owned,
      before.New value ∨ ∃ key, TakenFor before seeds top value key := by
    intro value owned
    rw [Kind.owned_mapOwned, ← held_eq found, drawn.held issued] at owned
    obtain ⟨child, holds, rfl⟩ := List.mem_map.mp owned
    exact (drawn.child_value copies holds (childrenIn child holds)).imp_right fun stands =>
      ⟨child, stands⟩
  refine ⟨⟨?_, ?_, ?_, ?_, ?_⟩, rfl⟩
  · rw [begot.rest, drawn.rest]
  · intro key value seeded
    rw [Std.ExtTreeMap.getElem?_insert, if_neg, drawn.seeded seeded]
    intro same
    obtain rfl := Std.LawfulEqCmp.eq_of_compare same
    exact copies.unseeded (Std.ExtTreeMap.mem_iff_isSome_getElem?.mpr (by simp [seeded]))
  · intro key value entry
    rw [Std.ExtTreeMap.getElem?_insert] at entry
    split at entry
    · obtain rfl := Option.some.inj entry
      exact .inr drawn.new_nextId
    · exact drawn.entry entry
  · intro other node foundBefore
    obtain ⟨parent?, foundNow, parent⟩ := drawn.old foundBefore
    have old : other ≠ now.nextId := by
      rintro rfl
      simp [get?_nextId] at foundNow
    rw [begot.others old, foundNow, Option.map_some]
    by_cases owned : other ∈ (source.kind.mapOwned table.apply).owned
    · rw [if_pos owned]
      refine ⟨_, rfl, .inr ?_⟩
      rcases ownedValues other owned with isNew | stands
      · simp [Program.New, foundBefore] at isNew
      · exact stands
    · rw [if_neg owned]
      exact ⟨parent?, rfl, parent⟩
  · intro holder child isNew holds
    by_cases isFresh : holder = now.nextId
    · subst isFresh
      obtain ⟨fresh, foundFresh, isKind, _⟩ := begot.fresh
      rw [Holds, held_eq foundFresh, isKind] at holds
      exact ownedValues child holds
    · apply drawn.fresh isNew
      rw [Holds, Program.held, Program.kindAt, begot.others isFresh] at holds
      rw [Holds, Program.held, Program.kindAt]
      cases foundNow : now.get? holder with
      | none => simp [foundNow] at holds
      | some node =>
        rw [foundNow, Option.map_some] at holds
        split at holds <;> exact holds

/-- Copying one child after the other, if each is copied so. -/
theorem foldlM {copy : Remap → NodeId → Edit Remap} {children : List NodeId}
    (each : ∀ child ∈ children, ∀ {table now final after}, Drawn before seeds top table now →
      Yields (copy table child) now final after →
      Drawn before seeds top final after ∧ child ∈ final ∧ ∀ key ∈ table, key ∈ final)
    (run : Yields (children.foldlM copy table) now final after) :
    Drawn before seeds top final after ∧ (∀ child ∈ children, child ∈ final) ∧
      ∀ key ∈ table, key ∈ final := by
  induction children generalizing table now with
  | nil =>
    obtain ⟨rfl, rfl⟩ := yields_pure.mp run
    exact ⟨drawn, by simp, fun _ member => member⟩
  | cons first rest ih =>
    rw [List.foldlM_cons, yields_bind] at run
    obtain ⟨middle, between, runFirst, runRest⟩ := run
    obtain ⟨drawnFirst, firstIn, kept⟩ := each first (by simp) drawn runFirst
    obtain ⟨drawnRest, restIn, keptRest⟩ :=
      ih drawnFirst (fun child member => each child (by simp [member])) runRest
    refine ⟨drawnRest, ?_, fun key member => keptRest key (kept key member)⟩
    exact List.forall_mem_cons.mpr ⟨keptRest first firstIn, restIn⟩

/-- Copying the subtree under a node that is copied or seeded. -/
theorem duplicateWithin {depth : Nat} (wellFormed : WellFormed before)
    (place : id ∈ table ∨ Copies before seeds top id) (issued : (before.get? id).isSome)
    (run : Yields (Edit.duplicateWithin depth table id) now final after) :
    Drawn before seeds top final after ∧ id ∈ final ∧ ∀ key ∈ table, key ∈ final := by
  induction depth generalizing table now final after id with
  | zero => exact (yields_throw run).elim
  | succ depth ih =>
    simp only [Edit.duplicateWithin, yields_ite, yields_pure, yields_bind, yields_look,
      owned_eq_ok] at run
    rcases run with ⟨isIn, rfl, rfl⟩ | ⟨notIn, children, _, ⟨⟨_, held⟩, rfl⟩, middle, between,
      below, copied⟩
    · exact ⟨drawn, isIn, fun _ member => member⟩
    · have copies := place.resolve_left notIn
      rw [drawn.held issued] at held
      subst held
      have each : ∀ child ∈ before.held id, ∀ {table now final after},
          Drawn before seeds top table now →
          Yields (Edit.duplicateWithin depth table child) now final after →
          Drawn before seeds top final after ∧ child ∈ final ∧ ∀ key ∈ table, key ∈ final := by
        intro child holds table now final after drawn run
        have issuedChild : (before.get? child).isSome := by
          obtain ⟨node, found, _⟩ := get?_of_parentOf ((wellFormed.parent_iff id child).mp holds)
          simp [found]
        refine ih drawn ?_ issuedChild run
        rcases copies.child_cases holds with ⟨value, _, _, _, seeded⟩ | copiesChild
        · exact .inl (Std.ExtTreeMap.mem_iff_isSome_getElem?.mpr (by simp [drawn.seeded seeded]))
        · exact .inr copiesChild
      obtain ⟨drawnBelow, childrenIn, kept⟩ := drawn.foldlM each below
      obtain ⟨drawnAfter, rfl⟩ := drawnBelow.step copies issued childrenIn copied
      refine ⟨drawnAfter, by simp, fun key member => ?_⟩
      exact Std.ExtTreeMap.mem_insert.mpr (.inr (kept key member))

/-- Of the old nodes, the new ones contain those that are below what is taken over. -/
theorem contains (isNew : before.New holder) (contained : now.Contains holder id) :
    before.New id ∨
      ∃ value key, TakenFor before seeds top value key ∧ before.Contains value id := by
  induction contained with
  | refl => exact .inl isNew
  | @tail above id _ holds ih =>
    rcases ih with newAbove | ⟨value, key, stands, contained⟩
    · exact (drawn.fresh newAbove holds).imp_right fun ⟨key, stands⟩ => ⟨id, key, stands, .refl⟩
    · by_cases issued : (before.get? above).isSome
      · rw [Holds, drawn.held issued] at holds
        exact .inr ⟨value, key, stands, contained.tail holds⟩
      · refine (drawn.fresh (by simpa using issued) holds).imp_right fun ⟨key, stands⟩ => ?_
        exact ⟨id, key, stands, .refl⟩

end Drawn

/-- Each seed that is taken over is free-standing, and stands for one node only. -/
structure SeedsFree (before : Program) (seeds : Remap) (top : NodeId) : Prop where
  issued : ∀ {value key}, TakenFor before seeds top value key → (before.get? value).isSome
  free : ∀ {value key}, TakenFor before seeds top value key → before.parentOf value = none
  notPlaced : ∀ {value key}, TakenFor before seeds top value key → ¬ before.IsPlaced value
  once : ∀ {value key other}, TakenFor before seeds top value key →
    TakenFor before seeds top value other → key = other

/-- The copies made so far are part of an orderly program, and the duplicates of what a node holds
have no parent until that node is copied. -/
structure Budding (before : Program) (seeds : Remap) (top : NodeId) (table : Remap)
    (now : Program) : Prop extends Drawn before seeds top table now where
  orderly : Orderly True True (fun _ => True) [] now
  twin : ∀ {key value : NodeId}, key ∉ seeds → table[key]? = some value →
    before.New value ∧ (now.get? value).isSome
  apart : ∀ {key other value : NodeId}, key ∉ seeds → other ∉ seeds → table[key]? = some value →
    table[other]? = some value → key = other
  waiting : ∀ {holder child value : NodeId}, Copies before seeds top holder →
    before.Holds holder child → holder ∉ table → table[child]? = some value →
    now.parentOf value = none

theorem Begot.grown (begot : Begot now kind after)
    (issued : ∀ child ∈ kind.owned, (now.get? child).isSome) : Grown now kind after := by
  have old : now.nextId ∉ kind.owned := by
    intro member
    have issuedFresh := issued _ member
    simp [get?_nextId] at issuedFresh
  obtain ⟨fresh, found, isKind, bare, free⟩ := begot.fresh
  refine ⟨?_, ?_, ?_, ?_, ?_, ?_, ?_, begot.rest⟩
  · rw [kindAt_eq found, isKind]
  · rw [parentOf_eq found, free old]
  · rw [contextOf_eq found, bare]
  · intro id different
    rw [Program.kindAt, begot.others different, Option.map_map, Program.kindAt]
    congr 1
    funext node
    simp only [Function.comp_def]
    split <;> rfl
  · intro id member
    have different : id ≠ now.nextId := fun same => old (same ▸ member)
    obtain ⟨child, foundChild⟩ := Option.isSome_iff_exists.mp (issued id member)
    simp [parentOf, begot.others different, foundChild, member]
  · intro id different notChild
    simp [parentOf, begot.others different, notChild]
  · intro id different
    rw [contextOf, begot.others different, Option.map_map, contextOf]
    congr 2
    funext node
    simp only [Function.comp_def]
    split <;> rfl

namespace Budding

theorem start (wellFormed : WellFormed before) (seedsFree : SeedsFree before seeds top) :
    Budding before seeds top seeds before where
  toDrawn := .start
  orderly := wellFormed.orderly
  twin unseeded entry :=
    absurd (Std.ExtTreeMap.mem_iff_isSome_getElem?.mpr (by simp [entry])) unseeded
  apart unseeded _ entry :=
    absurd (Std.ExtTreeMap.mem_iff_isSome_getElem?.mpr (by simp [entry])) unseeded
  waiting copies holds _ entry := seedsFree.free ⟨_, copies, holds, entry⟩

variable (budding : Budding before seeds top table now) (seedsFree : SeedsFree before seeds top)
include budding seedsFree

/-- What stands in the table for a node that a copied node holds. -/
theorem value_cases {value : NodeId} (copies : Copies before seeds top holder)
    (holds : before.Holds holder child) (entry : table[child]? = some value) :
    (child ∉ seeds ∧ before.New value ∧ (now.get? value).isSome) ∨
      (TakenFor before seeds top value child ∧ (before.get? value).isSome ∧
        (now.get? value).isSome) := by
  by_cases seeded : child ∈ seeds
  · obtain ⟨seed, isSeed⟩ : ∃ seed, seeds[child]? = some seed :=
      ⟨_, Std.ExtTreeMap.getElem?_eq_some_getElem seeded⟩
    obtain rfl : seed = value := by
      rw [budding.seeded isSeed] at entry
      exact Option.some.inj entry
    have stands : TakenFor before seeds top seed child := ⟨holder, copies, holds, isSeed⟩
    obtain ⟨node, found⟩ := Option.isSome_iff_exists.mp (seedsFree.issued stands)
    obtain ⟨_, foundNow, _⟩ := budding.old found
    exact .inr ⟨stands, by simp [found], by simp [foundNow]⟩
  · exact .inl ⟨seeded, budding.twin seeded entry⟩

/-- Different nodes that copied nodes hold have different duplicates. -/
theorem child_eq {value other otherChild : NodeId} (copies : Copies before seeds top holder)
    (holds : before.Holds holder child) (copiesOther : Copies before seeds top other)
    (holdsOther : before.Holds other otherChild) (entry : table[child]? = some value)
    (entryOther : table[otherChild]? = some value) : child = otherChild := by
  rcases budding.value_cases seedsFree copies holds entry with
    ⟨unseeded, isNew, _⟩ | ⟨stands, issued, _⟩ <;>
  rcases budding.value_cases seedsFree copiesOther holdsOther entryOther with
    ⟨unseededOther, isNewOther, _⟩ | ⟨standsOther, issuedOther, _⟩
  · exact budding.apart unseeded unseededOther entry entryOther
  · simp [isNew] at issuedOther
  · simp [isNewOther] at issued
  · exact seedsFree.once stands standsOther

/-- One more node is copied, whose children are all in the table. -/
theorem exists_step (wellFormed : WellFormed before) (copies : Copies before seeds top id)
    (issued : (before.get? id).isSome) (notIn : id ∉ table)
    (childrenIn : ∀ child, before.Holds id child → child ∈ table) :
    ∃ after, Yields (duplicateNode id table) now (table.insert id now.nextId) after ∧
      Budding before seeds top (table.insert id now.nextId) after := by
  have entryOf : ∀ {child}, before.Holds id child → table[child]? = some (table.apply child) := by
    intro child holds
    obtain ⟨value, entry⟩ : ∃ value, table[child]? = some value :=
      ⟨_, Std.ExtTreeMap.getElem?_eq_some_getElem (childrenIn child holds)⟩
    rw [entry, Remap.apply_eq entry]
  obtain ⟨node, foundBefore⟩ := Option.isSome_iff_exists.mp issued
  obtain ⟨parent?, found, _⟩ := budding.old foundBefore
  have owned : (node.kind.mapOwned table.apply).owned = (before.held id).map table.apply := by
    rw [Kind.owned_mapOwned, held_eq foundBefore]
  have distinct : (node.kind.mapOwned table.apply).owned.Nodup := by
    rw [owned]
    apply List.Nodup.map_on
    · intro first holdsFirst second holdsSecond same
      have entrySecond := entryOf holdsSecond
      rw [← same] at entrySecond
      exact budding.child_eq seedsFree copies holdsFirst copies holdsSecond (entryOf holdsFirst)
        entrySecond
    · exact wellFormed.orderly.forest.nodup trivial
  have issuedValues : ∀ value ∈ (node.kind.mapOwned table.apply).owned,
      (now.get? value).isSome := by
    intro value member
    rw [owned] at member
    obtain ⟨child, holds, rfl⟩ := List.mem_map.mp member
    rcases budding.value_cases seedsFree copies holds (entryOf holds) with
      ⟨_, _, isIssued⟩ | ⟨_, _, isIssued⟩ <;> exact isIssued
  obtain ⟨after, run, _⟩ := exists_duplicateNode found distinct issuedValues
  obtain ⟨source, foundSource, _, begot⟩ := begot_of_duplicateNode run
  obtain rfl : { node with parent? } = source := Option.some.inj (found.symm.trans foundSource)
  have grown := begot.grown issuedValues
  have roots : now.roots = before.roots := by rw [budding.rest]
  have spare : Spare (fun _ => True) [] now (node.kind.mapOwned table.apply).owned := by
    have free : ∀ {value}, value ∈ (node.kind.mapOwned table.apply).owned →
        now.parentOf value = none := by
      intro value member
      rw [owned] at member
      obtain ⟨child, holds, rfl⟩ := List.mem_map.mp member
      exact budding.waiting copies holds notIn (entryOf holds)
    refine ⟨fun _ => trivial, free, by simp, ?_, distinct⟩
    intro value member
    rw [budding.orderly.isPlaced_iff trivial]
    apply budding.orderly.rooted.not_reachable_of_free budding.orderly.forest (free member)
    intro root
    rw [roots] at root
    rw [owned] at member
    obtain ⟨child, holds, rfl⟩ := List.mem_map.mp member
    rcases budding.value_cases seedsFree copies holds (entryOf holds) with
      ⟨_, isNew, _⟩ | ⟨stands, _⟩
    · have isModule := wellFormed.roots_module _ root
      simp [Program.kindAt, show before.get? (table.apply child) = none from isNew] at isModule
    · exact seedsFree.notPlaced stands (.inl root)
  have notFresh : ∀ {value}, (now.get? value).isSome → value ≠ now.nextId := by
    rintro value isIssued rfl
    simp [get?_nextId] at isIssued
  have old : now.nextId ∉ (node.kind.mapOwned table.apply).owned := fun member =>
    notFresh (issuedValues _ member) rfl
  refine ⟨after, run, (budding.toDrawn.step copies issued childrenIn run).1,
    grown.orderly_after budding.orderly spare old, ?_, ?_, ?_⟩
  · intro key value unseeded entry
    rw [Std.ExtTreeMap.getElem?_insert] at entry
    split at entry
    · obtain rfl := Option.some.inj entry
      exact ⟨budding.new_nextId, by
        rw [← Option.ne_none_iff_isSome, ne_eq, get?_eq_none_iff_kindAt, grown.known]
        simp⟩
    · obtain ⟨isNew, isIssued⟩ := budding.twin unseeded entry
      refine ⟨isNew, ?_⟩
      rw [← Option.ne_none_iff_isSome, ne_eq, get?_eq_none_iff_kindAt,
        grown.kinds (notFresh isIssued), ← get?_eq_none_iff_kindAt]
      exact Option.ne_none_iff_isSome.mpr isIssued
  · intro key other value unseeded unseededOther entry entryOther
    rw [Std.ExtTreeMap.getElem?_insert] at entry entryOther
    split at entry <;> split at entryOther
    · rename_i sameKey sameOther
      exact (Std.LawfulEqCmp.eq_of_compare sameKey).symm.trans
        (Std.LawfulEqCmp.eq_of_compare sameOther)
    · obtain rfl := Option.some.inj entry
      exact absurd rfl (notFresh (budding.twin unseededOther entryOther).2)
    · obtain rfl := Option.some.inj entryOther
      exact absurd rfl (notFresh (budding.twin unseeded entry).2)
    · exact budding.apart unseeded unseededOther entry entryOther
  · intro holder child value copiesHolder holds holderNotIn entry
    rw [Std.ExtTreeMap.mem_insert, not_or] at holderNotIn
    rw [Std.ExtTreeMap.getElem?_insert] at entry
    split at entry
    · obtain rfl := Option.some.inj entry
      exact grown.parent
    · have isIssued : (now.get? value).isSome := by
        rcases budding.value_cases seedsFree copiesHolder holds entry with
          ⟨_, _, isIssued⟩ | ⟨_, _, isIssued⟩ <;> exact isIssued
      rw [grown.parents (notFresh isIssued), budding.waiting copiesHolder holds holderNotIn.2 entry]
      intro member
      rw [owned] at member
      obtain ⟨sibling, holdsSibling, same⟩ := List.mem_map.mp member
      have entrySibling := entryOf holdsSibling
      rw [same] at entrySibling
      obtain rfl := budding.child_eq seedsFree copiesHolder holds copies holdsSibling entry
        entrySibling
      obtain rfl := wellFormed.orderly.forest.only_holder trivial trivial holds holdsSibling
      exact holderNotIn.1 Std.ReflCmp.compare_self

/-- Copying goes through some tops in post-order and skips what has a duplicate already. -/
theorem exists_visits {tops below : List NodeId} {depth : Nat} (wellFormed : WellFormed before)
    (visits : before.Visits tops below) (enough : below.length ≤ depth) (distinct : below.Nodup)
    (issued : ∀ id ∈ below, (before.get? id).isSome)
    (places : ∀ id ∈ tops, id ∈ table ∨ Copies before seeds top id) :
    ∃ final after, Yields (tops.foldlM (Edit.duplicateWithin depth) table) now final after ∧
      Budding before seeds top final after ∧ (∀ id ∈ tops, id ∈ final) ∧
      (∀ id ∈ table, id ∈ final) ∧ ∀ id ∈ final, id ∈ table ∨ id ∈ below := by
  induction visits generalizing table now depth with
  | nil =>
    exact ⟨table, now, yields_pure.mpr ⟨rfl, rfl⟩, budding, by simp, fun _ member => member,
      fun _ member => .inl member⟩
  | @cons first rest below later descent _ ihBelow ihLater =>
    obtain ⟨depth, rfl⟩ : ∃ smaller, depth = smaller + 1 := by
      rw [List.length_append, List.length_cons] at enough
      exact ⟨depth - 1, by omega⟩
    rw [List.length_append, List.length_cons] at enough
    have enoughBelow : below.length ≤ depth := by omega
    have enoughLater : later.length ≤ depth + 1 := by omega
    obtain ⟨distinctBelow, distinctLater, apart⟩ := List.nodup_append.mp distinct
    have issuedBelow : ∀ id ∈ below, (before.get? id).isSome := fun id member =>
      issued id (by simp [member])
    have issuedLater : ∀ id ∈ later, (before.get? id).isSome := fun id member =>
      issued id (by simp [member])
    -- the first top, and then the others
    have continued : ∀ {middle between}, Yields (Edit.duplicateWithin (depth + 1) table first) now
          middle between → Budding before seeds top middle between → first ∈ middle →
        (∀ id ∈ table, id ∈ middle) → (∀ id ∈ middle, id ∈ table ∨ id ∈ below ∨ id = first) →
        ∃ final after, Yields ((first :: rest).foldlM (Edit.duplicateWithin (depth + 1)) table) now
            final after ∧
          Budding before seeds top final after ∧ (∀ id ∈ first :: rest, id ∈ final) ∧
          (∀ id ∈ table, id ∈ final) ∧ ∀ id ∈ final, id ∈ table ∨ id ∈ below ++ first :: later := by
      intro middle between runFirst buddingFirst firstIn kept only
      obtain ⟨final, after, runRest, buddingRest, restIn, keptRest, onlyRest⟩ :=
        ihLater buddingFirst enoughLater (List.nodup_cons.mp distinctLater).2 issuedLater
          fun id member => (places id (by simp [member])).imp_left (kept id)
      refine ⟨final, after, ?_, buddingRest,
        List.forall_mem_cons.mpr ⟨keptRest first firstIn, restIn⟩,
        fun id member => keptRest id (kept id member), ?_⟩
      · rw [List.foldlM_cons, yields_bind]
        exact ⟨middle, between, runFirst, runRest⟩
      · intro id member
        rcases onlyRest id member with inMiddle | inLater
        · rcases only id inMiddle with inTable | inBelow | isFirst
          · exact .inl inTable
          · exact .inr (by simp [inBelow])
          · exact .inr (by simp [isFirst])
        · exact .inr (by simp [inLater])
    by_cases isIn : first ∈ table
    · refine continued ?_ budding isIn (fun _ member => member) fun _ member => .inl member
      rw [Edit.duplicateWithin, if_pos (Std.ExtTreeMap.contains_iff_mem.mpr isIn)]
      exact yields_pure.mpr ⟨rfl, rfl⟩
    · have copies := (places first (by simp)).resolve_left isIn
      have issuedFirst := issued first (by simp)
      have placesBelow : ∀ child ∈ before.held first,
          child ∈ table ∨ Copies before seeds top child := by
        intro child holds
        rcases copies.child_cases holds with ⟨value, _, _, _, seeded⟩ | copiesChild
        · exact .inl (Std.ExtTreeMap.mem_iff_isSome_getElem?.mpr (by simp [budding.seeded seeded]))
        · exact .inr copiesChild
      obtain ⟨middle, between, runBelow, buddingBelow, childrenIn, kept, only⟩ :=
        ihBelow budding enoughBelow distinctBelow issuedBelow placesBelow
      have notIn : first ∉ middle := by
        intro member
        rcases only first member with inTable | inBelow
        · exact isIn inTable
        · exact apart first inBelow first (by simp) rfl
      obtain ⟨after, copied, buddingAfter⟩ :=
        buddingBelow.exists_step seedsFree wellFormed copies issuedFirst notIn childrenIn
      refine continued ?_ buddingAfter (by simp) ?_ ?_
      · obtain ⟨node, found⟩ := Option.isSome_iff_exists.mp issuedFirst
        obtain ⟨_, foundNow, _⟩ := budding.old found
        rw [Edit.duplicateWithin, if_neg (by simpa using isIn)]
        simp only [yields_bind, yields_look, owned_eq_ok]
        exact ⟨before.held first, now, ⟨⟨by simp [foundNow], budding.held issuedFirst⟩, rfl⟩,
          middle, between, runBelow, copied⟩
      · exact fun id member => Std.ExtTreeMap.mem_insert.mpr (.inr (kept id member))
      · intro id member
        rcases Std.ExtTreeMap.mem_insert.mp member with isFirst | inMiddle
        · exact .inr (.inr (Std.LawfulEqCmp.eq_of_compare isFirst).symm)
        · exact (only id inMiddle).imp_right .inl

end Budding

end Program

end ProgramTree
