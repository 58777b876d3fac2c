import ProgramTree.Proofs.Undoing

/-!
# Several removals

A removal takes a node out of the slot or list that holds it, or out of the roots.  What it leaves
is the kind of every node without the removed one, and it goes well if no slot requires that node.
Both are said of each kind alone, and hold no matter what else was taken out.  So removals come to
the same program in any order.
-/

namespace ProgramTree

open Program Edit

variable {before between after other program : Program} {id first second holder answer : NodeId}
  {kind changed : Kind}

/-! ## Slots without a node -/

/-- An optional slot that holds the node is cleared. -/
def Slot.clear (id : NodeId) : Slot → Slot
  | required child => required child
  | optional child? => optional (child?.filter (· ≠ id))

/-- A list loses the node, and an optional slot that holds it is cleared. -/
def Kind.without (id : NodeId) : Kind → Kind
  | .list holds elements => .list holds (elements.filter (· ≠ id))
  | kind => kind.withSlots (kind.slots.map (Slot.clear id))

/-- No slot requires the node.  A list can do without any of its elements. -/
def Kind.Releases (id : NodeId) (kind : Kind) : Prop :=
  kind.isList ∨ .required id ∉ kind.slots

namespace Slot

variable {slots rebound : List Slot}

@[simp] theorem isOptional_clear (slot : Slot) : (slot.clear id).isOptional = slot.isOptional := by
  cases slot <;> rfl

theorem clear_of_ne {slot : Slot} (different : slot.child? ≠ some id) : slot.clear id = slot := by
  cases slot with
  | required child => rfl
  | optional child? =>
    cases child? with
    | none => rfl
    | some child => simp_all [clear, Slot.child?]

theorem clear_of_eq {child? : Option NodeId} (here : child? = some id) :
    (optional child?).clear id = optional none := by
  simp [clear, here]

theorem map_clear_eq_self (absent : id ∉ slots.filterMap child?) :
    slots.map (clear id) = slots := by
  refine (List.map_congr_left fun slot member => ?_).trans (List.map_id slots)
  exact clear_of_ne fun here => absent (List.mem_filterMap.mpr ⟨slot, member, here⟩)

theorem required_mem_map_clear :
    required second ∈ slots.map (clear first) ↔ required second ∈ slots := by
  have each : ∀ slot : Slot, slot.clear first = required second ↔ slot = required second := by
    intro slot
    cases slot <;> simp [clear]
  simp [each]

/-- The slot that holds the node is cleared, unless it is required. -/
theorem rebind_none (member : id ∈ slots.filterMap child?) (nodup : (slots.filterMap child?).Nodup)
    (free : required id ∉ slots) : rebind id none slots = .done (slots.map (clear id)) := by
  induction slots with
  | nil => cases member
  | cons slot rest ih =>
    rw [List.map_cons]
    by_cases here : slot.child? = some id
    · rw [List.filterMap_cons_some here] at nodup
      rw [map_clear_eq_self (List.nodup_cons.mp nodup).1]
      cases slot with
      | required child =>
        obtain rfl := Option.some.inj here
        exact absurd List.mem_cons_self free
      | optional child? =>
        have emptied : child? = some id := here
        rw [rebind, if_pos emptied, clear_of_eq emptied]
    · have later : id ∈ rest.filterMap child? := by
        simp only [List.mem_filterMap, List.mem_cons, exists_eq_or_imp] at member
        exact List.mem_filterMap.mpr (member.resolve_left here)
      have found := ih later (nodup.sublist ((List.sublist_cons_self slot rest).filterMap _))
        (mt (List.mem_cons_of_mem slot) free)
      rw [clear_of_ne here]
      cases slot with
      | required child => rw [rebind, if_neg (mt (congrArg some) here), found, Rebinding.map]
      | optional child? =>
        have kept : child? ≠ some id := here
        rw [rebind, if_neg kept, found, Rebinding.map]

/-- A slot that was cleared was not required. -/
theorem free_of_rebind (nodup : (slots.filterMap child?).Nodup)
    (done : rebind id none slots = .done rebound) : required id ∉ slots := by
  obtain ⟨left, slot, cleared, right, rfl, rfl, wasHere, isClear, sameForm⟩ := rebind_done done
  rw [List.filterMap_append, List.filterMap_cons_some wasHere] at nodup
  obtain ⟨_, tail, apart⟩ := List.nodup_append.mp nodup
  rw [List.mem_append, List.mem_cons]
  rintro (inLeft | isSlot | inRight)
  · exact apart id (List.mem_filterMap.mpr ⟨_, inLeft, rfl⟩) id List.mem_cons_self rfl
  · subst isSlot
    cases cleared with
    | required child => cases isClear
    | optional child? => cases sameForm
  · exact (List.nodup_cons.mp tail).1 (List.mem_filterMap.mpr ⟨_, inRight, rfl⟩)

end Slot

namespace Kind

theorem without_eq_withSlots (single : kind.isList = false) :
    kind.without id = kind.withSlots (kind.slots.map (Slot.clear id)) := by
  cases kind with
  | list => cases single
  | _ => rfl

theorem isList_without : (kind.without id).isList = kind.isList := by
  cases single : kind.isList with
  | false => rw [without_eq_withSlots single, isList_withSlots, single]
  | true =>
    cases kind with
    | list => rfl
    | _ => cases single

theorem slots_without (single : kind.isList = false) :
    (kind.without id).slots = kind.slots.map (Slot.clear id) := by
  rw [without_eq_withSlots single]
  exact slots_withSlots (by simp [Function.comp_def])

/-- What else is taken out does not matter to whether a node can be. -/
theorem releases_without : (kind.without first).Releases second ↔ kind.Releases second := by
  rw [Releases, Releases, isList_without]
  cases single : kind.isList with
  | true => simp
  | false => rw [slots_without single, Slot.required_mem_map_clear]

theorem owned_of_required (member : .required id ∈ kind.slots) : id ∈ kind.owned := by
  rw [owned_eq_slots]
  exact List.mem_filterMap.mpr ⟨_, member, rfl⟩

theorem withSlots_slots (kind : Kind) : kind.withSlots kind.slots = kind := by
  have fixed : kind.slots.map (Slot.map fun id => id) = kind.slots :=
    Slot.map_eq_self fun _ _ => rfl
  have same : kind.withSlots (kind.slots.map (Slot.map fun id => id)) = kind := kind.mapOwned_id
  rwa [fixed] at same

theorem without_eq_self (absent : id ∉ kind.owned) : kind.without id = kind := by
  cases single : kind.isList with
  | false =>
    rw [owned_eq_slots] at absent
    rw [without_eq_withSlots single, Slot.map_clear_eq_self absent, withSlots_slots]
  | true =>
    cases kind with
    | list holds elements =>
      rw [without, Array.filter_eq_self.mpr]
      intro element member
      refine decide_eq_true ?_
      rintro rfl
      exact absent (Array.mem_toList_iff.mpr member)
    | _ => cases single

/-- Two nodes are taken out in any order. -/
theorem without_comm (kind : Kind) :
    (kind.without first).without second = (kind.without second).without first := by
  have filters : ∀ child? : Option NodeId,
      (child?.filter (· ≠ first)).filter (· ≠ second) =
        (child?.filter (· ≠ second)).filter (· ≠ first) := by
    intro child?
    simp [Option.filter_filter, Bool.and_comm]
  cases kind with
  | list holds elements => simp [without, Bool.and_comm]
  | stmt stmt =>
    cases stmt <;> simp only [without, slots, withSlots, Stmt.slots, Stmt.withSlots, List.map_cons,
      List.map_nil, Slot.clear, filters]
  | expr expr =>
    cases expr with
    | call callee args => cases callee <;> rfl
    | _ =>
      simp only [without, slots, withSlots, Expr.slots, Expr.withSlots, List.map_cons, List.map_nil,
        Slot.clear, filters]
  | symbol symbol =>
    obtain ⟨_, _, _, _, kind⟩ := symbol
    cases kind <;> simp only [without, slots, withSlots, SymbolKind.slots, SymbolKind.withSlots,
      List.map_cons, List.map_nil, Slot.clear, filters]
  | type type =>
    obtain ⟨_, kind⟩ := type
    cases kind <;> simp only [without, slots, withSlots, TypeKind.slots, TypeKind.withSlots,
      List.map_cons, List.map_nil, Slot.clear, filters]

/-- Emptying a slot takes the node out of the kind, and needs a slot that does not require it. -/
theorem rebind_none (single : kind.isList = false) (member : id ∈ kind.owned)
    (nodup : kind.owned.Nodup) (free : .required id ∉ kind.slots) :
    kind.rebind id none = .done (kind.without id) := by
  rw [owned_eq_slots] at member nodup
  rw [rebind, Slot.rebind_none member nodup free, Rebinding.map, without_eq_withSlots single]

/-- What gave up the node did not require it. -/
theorem Exchanged.releases (exchanged : Exchanged id none kind changed)
    (nodup : kind.owned.Nodup) : kind.Releases id := by
  cases exchanged with
  | erased => exact .inl rfl
  | rebound single done =>
    rw [owned_eq_slots] at nodup
    rw [rebind] at done
    cases found : Slot.rebind id none kind.slots with
    | done slots => exact .inr (Slot.free_of_rebind nodup found)
    | missing => simp [found, Rebinding.map] at done
    | required => simp [found, Rebinding.map] at done

theorem Exchanged.eq_without (exchanged : Exchanged id none kind changed)
    (single : kind.isList = false) (member : id ∈ kind.owned) (nodup : kind.owned.Nodup) :
    changed = kind.without id := by
  have free := (exchanged.releases nodup).resolve_left (by simp [single])
  cases exchanged with
  | erased => cases single
  | rebound _ done =>
    rw [rebind_none single member nodup free] at done
    exact (Rebinding.done.inj done).symm

end Kind

/-! ## One removal -/

namespace Program

/-- No slot, list or root holds the node any more. -/
structure Without (before : Program) (id : NodeId) (after : Program) : Prop where
  kinds : ∀ other, after.kindAt other = (before.kindAt other).map (Kind.without id)
  marks : ∀ other, (after.get? other).map Node.marks = (before.get? other).map Node.marks
  rest : after = { before with
    nodes := after.nodes, roots := before.roots.filter (· ≠ id), index := after.index }

/-- What a holder gave up was no root. -/
theorem Without.of_named (wellFormed : WellFormed before)
    (named : before.parentOf id = some holder) (run : Yields (remove id) before answer after)
    (kinds : ∀ other, after.kindAt other = (before.kindAt other).map (Kind.without id)) :
    Without before id after where
  kinds := kinds
  marks := (Rehung.of_remove named run).marks
  rest := by
    have notRoot : ∀ root ∈ before.roots, decide (root ≠ id) = true := by
      intro root member
      refine decide_eq_true ?_
      rintro rfl
      simp [wellFormed.roots_free root member] at named
    rw [(Rehung.of_remove named run).rest, Array.filter_eq_self.mpr notRoot]

/-- All that the program holds can do without the node. -/
def CanSpare (program : Program) (id : NodeId) : Prop :=
  (program.get? id).isSome ∧ ∀ holder kind, program.kindAt holder = some kind → kind.Releases id

theorem WellFormed.nodup_owned (wellFormed : WellFormed before)
    (known : before.kindAt holder = some kind) : kind.owned.Nodup := by
  have nodup : (before.held holder).Nodup := wellFormed.orderly.forest.nodup trivial
  rwa [held_eq_of_kindAt known] at nodup

theorem kindAt_map_without (outside : ¬ before.Holds holder id) :
    (before.kindAt holder).map (Kind.without id) = before.kindAt holder := by
  cases known : before.kindAt holder with
  | none => rfl
  | some kind =>
    rw [Holds, held_eq_of_kindAt known] at outside
    rw [Option.map_some, Kind.without_eq_self outside]

/-- Only the holder of a node changes when the node is taken out. -/
theorem WellFormed.kinds_without (wellFormed : WellFormed before)
    (holds : before.Holds holder id) (known : before.kindAt holder = some kind)
    (kinds : ∀ other, after.kindAt other =
      if other = holder then some (kind.without id) else before.kindAt other) :
    ∀ other, after.kindAt other = (before.kindAt other).map (Kind.without id) := by
  intro other
  rw [kinds]
  split
  · rename_i isHolder
    rw [isHolder, known, Option.map_some]
  · rename_i notHolder
    refine (kindAt_map_without fun holdsToo => notHolder ?_).symm
    exact (wellFormed.held_once holder id holds).2 other holdsToo

end Program

namespace Edit

open Program

/-- The slot that holds a node can be cleared, unless it is required. -/
theorem exists_rebindSlot_none (known : before.kindAt holder = some kind)
    (single : kind.isList = false) (member : id ∈ kind.owned) (nodup : kind.owned.Nodup)
    (free : .required id ∉ kind.slots) (issued : (before.get? id).isSome) :
    ∃ after, Yields (rebindSlot holder id none) before () after := by
  obtain ⟨node, found, _⟩ := get?_of_kindAt known
  let written := before.modifyNode holder fun node => { node with kind := kind.without id }
  refine ⟨written.modifyNode id fun node => { node with parent? := none }, ?_⟩
  simp only [rebindSlot, yields_bind, yields_look, kindOf_eq_ok, yields_ite]
  refine ⟨kind, before, ⟨known, rfl⟩, .inr ⟨by simp [single], ?_⟩⟩
  simp only [Kind.rebind_none single member nodup free, yields_bind, setKind, yields_change,
    yields_setParent]
  refine ⟨(), written, ⟨by simp [found], rfl⟩, (), _, ⟨?_, rfl⟩, yields_pure.mpr ⟨rfl, rfl⟩⟩
  simpa [written, get?_modifyNode_map] using issued

variable (wellFormed : WellFormed before)
include wellFormed

/-- What nothing holds is taken out of the roots. -/
theorem exists_remove_of_free (issued : (before.get? id).isSome)
    (free : before.parentOf id = none) :
    ∃ after, Yields (remove id) before id after ∧ Without before id after := by
  obtain ⟨node, found⟩ := Option.isSome_iff_exists.mp issued
  let uprooted := { before with roots := before.roots.filter (· ≠ id) }
  have forest := (wellFormed.orderly.uproot id).forest
  obtain ⟨order, visits, distinct, issuedAll⟩ := forest.exists_visits trivial issued
  obtain ⟨after, detaching⟩ := exists_detach visits distinct issuedAll
  have rehung : Rehung uprooted after := .of_detach detaching
  have looked : Yields (look (·.node id)) before node before :=
    yields_look.mpr ⟨node_eq_ok.mpr found, rfl⟩
  have uprooting : Yields (modify fun program =>
      { program with roots := program.roots.filter (· ≠ id) }) before () uprooted :=
    yields_modify.mpr rfl
  refine ⟨after, ?_, ?_, rehung.marks, rehung.rest⟩
  · rw [parentOf_eq found] at free
    unfold remove
    rw [Yields, looked.run_bind]
    simp only [free]
    rw [uprooting.run_bind, detaching.run_bind]
    rfl
  · intro other
    have unheld : ¬ before.Holds other id := by
      simp [wellFormed.parent_iff, free]
    rw [kindAt_detach detaching, kindAt_map_without unheld]
    rfl

/-- What sits in a slot is taken out of it. -/
theorem exists_remove_of_slot (named : before.parentOf id = some holder)
    (known : before.kindAt holder = some kind) (single : kind.isList = false)
    (free : .required id ∉ kind.slots) :
    ∃ after, Yields (remove id) before id after ∧ Without before id after := by
  have forest := wellFormed.orderly.forest
  have holds := (wellFormed.parent_iff holder id).mpr named
  have nodup := wellFormed.nodup_owned known
  have member := holds
  rw [Holds, held_eq_of_kindAt known] at member
  obtain ⟨node, found, isParent⟩ := get?_of_parentOf named
  obtain ⟨cleared, rebinding⟩ :=
    exists_rebindSlot_none known single member nodup free (by simp [found])
  obtain ⟨_, _, foundHolder, splices, issued, written⟩ := exists_written_rebindSlot rebinding
  obtain ⟨after, detaching⟩ :=
    (written.relinked foundHolder splices issued).exists_detach forest List.mem_cons_self
  have looked : Yields (look (·.node id)) before node before :=
    yields_look.mpr ⟨node_eq_ok.mpr found, rfl⟩
  have listed : Yields (look (·.isList holder)) before false before :=
    yields_look.mpr ⟨isList_eq_ok.mpr (by rw [known, Option.map_some, single]), rfl⟩
  have run : Yields (remove id) before id after := by
    unfold remove
    rw [Yields, looked.run_bind]
    simp only [isParent]
    rw [listed.run_bind, if_neg Bool.false_ne_true, rebinding.run_bind, detaching.run_bind]
    rfl
  obtain ⟨_, changed, knownAgain, exchanged, kinds⟩ := kindAt_rebindSlot rebinding
  obtain rfl := Option.some.inj (known.symm.trans knownAgain)
  obtain rfl := exchanged.eq_without single member nodup
  refine ⟨after, run, .of_named wellFormed named run ?_⟩
  refine wellFormed.kinds_without holds known fun other => ?_
  rw [kindAt_detach detaching, kinds]

/-- An element is taken out of its list. -/
theorem exists_remove_of_list {holds : ListCategory} {elements : Array NodeId}
    (named : before.parentOf id = some holder)
    (known : before.kindAt holder = some (.list holds elements)) :
    ∃ after, Yields (remove id) before id after ∧ Without before id after := by
  have holdsId := (wellFormed.parent_iff holder id).mpr named
  have erased : elements.erase id = elements.filter (· ≠ id) := by
    obtain ⟨items⟩ := elements
    have distinct : items.Nodup := wellFormed.nodup_owned known
    rw [List.erase_toArray, List.filter_toArray, distinct.erase_eq_filter]
    exact congrArg List.toArray (List.filter_congr fun element _ => by
      rw [bne, beq_eq_decide, decide_not])
  obtain ⟨after, run, relisted, _⟩ := exists_takenOut wellFormed known named
  refine ⟨after, run, .of_named wellFormed named run ?_⟩
  refine wellFormed.kinds_without holdsId known fun other => ?_
  rw [relisted.kinds, Kind.without, erased]

/-- A removal goes well if no slot requires the node. -/
theorem exists_remove (spare : before.CanSpare id) :
    ∃ after, Yields (remove id) before id after ∧ Without before id after := by
  obtain ⟨issued, releases⟩ := spare
  cases named : before.parentOf id with
  | none => exact exists_remove_of_free wellFormed issued named
  | some holder =>
    obtain ⟨node, found⟩ :=
      Option.isSome_iff_exists.mp ((wellFormed.parent_iff holder id).mpr named).issued
    have known := kindAt_eq found
    cases single : node.kind.isList with
    | true =>
      have isList : (before.kindAt holder).any Kind.isList := by rw [known, Option.any_some, single]
      obtain ⟨_, _, knownList⟩ := exists_list isList
      exact exists_remove_of_list wellFormed named knownList
    | false =>
      have free := (releases holder node.kind known).resolve_left (by simp [single])
      exact exists_remove_of_slot wellFormed named known single free

/-- A removal that goes well finds no slot that requires the node. -/
theorem canSpare_of_remove (run : Yields (remove id) before answer after) :
    before.CanSpare id := by
  constructor
  · obtain ⟨node, _, looked, _⟩ := yields_bind.mp run
    obtain ⟨found, _⟩ := yields_look.mp looked
    simp [node_eq_ok.mp found]
  · intro holder kind known
    by_cases member : id ∈ kind.owned
    · have named : before.parentOf id = some holder := by
        rwa [← wellFormed.parent_iff, Holds, held_eq_of_kindAt known]
      rcases kindAt_remove run with ⟨free, _⟩ | ⟨_, _, _, namedAgain, knownAgain, exchanged, _⟩
      · cases named.symm.trans free
      · obtain rfl := Option.some.inj (named.symm.trans namedAgain)
        obtain rfl := Option.some.inj (known.symm.trans knownAgain)
        exact exchanged.releases (wellFormed.nodup_owned known)
    · exact .inr (mt Kind.owned_of_required member)

/-- What a removal leaves. -/
theorem without_of_remove (run : Yields (remove id) before answer after) :
    answer = id ∧ Without before id after := by
  have spare := canSpare_of_remove wellFormed run
  obtain ⟨later, runAgain, isWithout⟩ := exists_remove wellFormed spare
  cases run.symm.trans runAgain
  exact ⟨rfl, isWithout⟩

end Edit

/-! ## One removal after the other -/

namespace Program

section Commuting

variable {later : Program}

theorem Without.canSpare_iff (isWithout : Without before first after) :
    after.CanSpare second ↔ before.CanSpare second := by
  have issued : (after.get? second).isSome = (before.get? second).isSome := by
    have marks := congrArg Option.isSome (isWithout.marks second)
    rwa [Option.isSome_map, Option.isSome_map] at marks
  rw [CanSpare, CanSpare, issued]
  refine and_congr_right fun _ => forall_congr' fun holder => ?_
  rw [isWithout.kinds]
  cases before.kindAt holder with
  | none => simp
  | some kind => simp [Kind.releases_without]

/-- The nodes hold the same after two removals in either order. -/
theorem Without.eq_of_exchanged (wellFormedAfter : WellFormed after)
    (wellFormedLater : WellFormed later)
    (isFirst : Without before first between) (thenSecond : Without between second after)
    (isSecond : Without before second other) (thenFirst : Without other first later) :
    later = after := by
  refine wellFormedAfter.eq_of_kinds wellFormedLater (fun id => ?_) ⟨fun id => ?_, ?_⟩
  · rw [thenFirst.kinds, isSecond.kinds, thenSecond.kinds, isFirst.kinds]
    cases before.kindAt id with
    | none => rfl
    | some kind => exact congrArg some kind.without_comm
  · rw [thenFirst.marks, isSecond.marks, thenSecond.marks, isFirst.marks]
  · rw [thenFirst.rest, isSecond.rest, thenSecond.rest, isFirst.rest]
    simp [Bool.and_comm]

variable (wellFormed : WellFormed before)
include wellFormed

/-- Two removals can change places. -/
theorem WellFormed.exists_exchanged (removing : Yields (remove first) before first between)
    (thenRemoving : Yields (remove second) between second after) :
    ∃ other, Yields (remove second) before second other ∧
      Yields (remove first) other first after := by
  have wellFormedBetween := (wellFormed.orderly.remove trivial removing).wellFormed
  have wellFormedAfter := (wellFormedBetween.orderly.remove trivial thenRemoving).wellFormed
  obtain ⟨_, isFirst⟩ := without_of_remove wellFormed removing
  obtain ⟨_, thenSecond⟩ := without_of_remove wellFormedBetween thenRemoving
  have spareSecond := isFirst.canSpare_iff.mp (canSpare_of_remove wellFormedBetween thenRemoving)
  obtain ⟨other, removingOther, isSecond⟩ := exists_remove wellFormed spareSecond
  have wellFormedOther := (wellFormed.orderly.remove trivial removingOther).wellFormed
  have spareFirst := isSecond.canSpare_iff.mpr (canSpare_of_remove wellFormed removing)
  obtain ⟨later, removingLater, thenFirst⟩ := exists_remove wellFormedOther spareFirst
  have wellFormedLater := (wellFormedOther.orderly.remove trivial removingLater).wellFormed
  obtain rfl :=
    isFirst.eq_of_exchanged wellFormedAfter wellFormedLater thenSecond isSecond thenFirst
  exact ⟨other, removingOther, removingLater⟩

end Commuting

end Program

/-- Removes one node after the other. -/
def Edit.removeEach (ids : List NodeId) : Edit Unit :=
  ids.forM fun id => do
    let _ ← remove id

theorem Edit.yields_removeEach_cons {ids : List NodeId} :
    Yields (removeEach (id :: ids)) before () after ↔
      ∃ between, Yields (remove id) before id between ∧
        Yields (removeEach ids) between () after := by
  simp only [removeEach, yields_forM_cons, yields_bind, yields_pure, true_and]
  constructor
  · rintro ⟨between, ⟨_, _, removing, rfl⟩, run⟩
    obtain ⟨rfl, _⟩ := taken removing
    exact ⟨between, removing, run⟩
  · rintro ⟨between, removing, run⟩
    exact ⟨between, ⟨_, between, removing, rfl⟩, run⟩

/-- **Removals commute.**  Two nodes, wherever they hang, are removed in either order or in none,
and what is left is the same program.  So it is with any number of nodes in any order. -/
theorem Program.WellFormed.removals_commute (wellFormed : WellFormed before) :
    (∀ first second between after, Yields (remove first) before first between →
      Yields (remove second) between second after →
      ∃ other, Yields (remove second) before second other ∧
        Yields (remove first) other first after) ∧
    ∀ (ids others : List NodeId) (after : Program), ids.Perm others →
      Yields (removeEach ids) before () after → Yields (removeEach others) before () after := by
  refine ⟨fun _ _ _ _ => wellFormed.exists_exchanged, fun ids others after reordered => ?_⟩
  induction reordered generalizing before after with
  | nil => exact fun run => run
  | @cons id ids others _ ih =>
    rw [yields_removeEach_cons, yields_removeEach_cons]
    rintro ⟨between, removing, run⟩
    exact ⟨between, removing, ih (wellFormed.orderly.remove trivial removing).wellFormed _ run⟩
  | swap first second ids =>
    simp only [yields_removeEach_cons]
    rintro ⟨between, removing, after, thenRemoving, run⟩
    obtain ⟨other, removingOther, removingLater⟩ :=
      wellFormed.exists_exchanged removing thenRemoving
    exact ⟨other, removingOther, after, removingLater, run⟩
  | trans _ _ ihFirst ihSecond => exact fun run => ihSecond wellFormed _ (ihFirst wellFormed _ run)

/-- Two neighbours in a list, and these with the statement that they are part of and its module. -/
theorem Program.WellFormed.removals_commute_listArguments :
    WellFormed listArguments ∧
      (∃ between after other, Yields (remove ⟨14⟩) listArguments ⟨14⟩ between ∧
        Yields (remove ⟨15⟩) between ⟨15⟩ after ∧
        Yields (remove ⟨15⟩) listArguments ⟨15⟩ other ∧
        Yields (remove ⟨14⟩) other ⟨14⟩ after) ∧
      ∃ after, Yields (removeEach [⟨24⟩, ⟨21⟩, ⟨14⟩, ⟨15⟩]) listArguments () after ∧
        Yields (removeEach [⟨15⟩, ⟨21⟩, ⟨24⟩, ⟨14⟩]) listArguments () after := by
  have wellFormed := standsUp_listArguments.inspected.wellFormed
  obtain ⟨exchanged, reordered⟩ := removals_commute wellFormed
  have bothEnd : (removeEach [⟨14⟩, ⟨15⟩] listArguments).isOk := by decide +kernel
  have allEnd : (removeEach [⟨24⟩, ⟨21⟩, ⟨14⟩, ⟨15⟩] listArguments).isOk := by decide +kernel
  obtain ⟨_, after, both⟩ := yields_of_isOk bothEnd
  obtain ⟨_, afterAll, all⟩ := yields_of_isOk allEnd
  obtain ⟨between, removing, rest⟩ := yields_removeEach_cons.mp both
  obtain ⟨_, thenRemoving, nothingMore⟩ := yields_removeEach_cons.mp rest
  obtain rfl := yields_forM_nil.mp nothingMore
  obtain ⟨other, removingOther, removingLater⟩ := exchanged _ _ _ _ removing thenRemoving
  exact ⟨wellFormed, ⟨between, after, other, removing, thenRemoving, removingOther, removingLater⟩,
    afterAll, all, reordered _ _ _ (by decide) all⟩

end ProgramTree
