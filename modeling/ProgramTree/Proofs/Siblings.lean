import ProgramTree.Proofs.Undoing

/-!
# Siblings

In a well-formed program a list element stands at one place of one list, the list that it names as
its parent.  Its neighbours there are what it answers when it is asked for the nodes before and
after it, so each of two neighbours answers the other.  Asking on and on leads through the whole
list, forwards and backwards.
-/

namespace ProgramTree

open Program Edit

variable {program : Program} {id list first second : NodeId} {left right rest : List NodeId}
  {holds : ListCategory} {elements : Array NodeId}

/-- From each node of the walk the step leads to the next one, and from the last one nowhere. -/
inductive Follows (step : NodeId → Except Fault (Option NodeId)) : List NodeId → Prop where
  | nil : Follows step []
  | cons {id : NodeId} {rest : List NodeId} (leads : step id = .ok rest.head?)
      (further : Follows step rest) : Follows step (id :: rest)

namespace Program

/-- The node is an element of a list. -/
def IsElement (program : Program) (id : NodeId) : Prop :=
  ∃ list holds elements, program.kindAt list = some (.list holds elements) ∧ id ∈ elements

/-- The node is an element of a list, between these. -/
def StandsBetween (program : Program) (id : NodeId) (left right : List NodeId) : Prop :=
  ∃ list holds, program.kindAt list = some (.list holds (left ++ id :: right).toArray)

theorem IsElement.exists_standsBetween (element : program.IsElement id) :
    ∃ left right, program.StandsBetween id left right := by
  obtain ⟨list, holds, ⟨items⟩, known, member⟩ := element
  obtain ⟨left, right, rfl⟩ := List.append_of_mem (List.mem_toArray.mp member)
  exact ⟨left, right, list, holds, known⟩

/-- Of two neighbours each stands beside the other. -/
theorem standsBetween_neighbours :
    program.StandsBetween first left (second :: rest) ↔
      program.StandsBetween second (left ++ [first]) rest := by
  simp [StandsBetween]

namespace WellFormed

variable (wellFormed : WellFormed program)
include wellFormed

/-! ## What a node answers -/

/-- An element is held by its list, to which it belongs at this place alone. -/
theorem held_of_standsBetween
    (known : program.kindAt list = some (.list holds (left ++ id :: right).toArray)) :
    program.parentOf id = some list ∧ id ∉ left := by
  have held : program.held list = left ++ id :: right := held_eq_of_kindAt known
  have holdsId : program.Holds list id := by simp [Holds, held]
  have once := (wellFormed.held_once list id holdsId).1
  refine ⟨(wellFormed.parent_iff list id).mp holdsId, fun again => ?_⟩
  have twice := List.count_pos_iff.mpr again
  rw [held, List.count_append, List.count_cons_self] at once
  omega

/-- An element answers the ends of what is left and right of it. -/
theorem siblings_of_standsBetween (stands : program.StandsBetween id left right) :
    program.siblings id = .ok (left.getLast?, right.head?) := by
  obtain ⟨list, holds, known⟩ := stands
  obtain ⟨named, absent⟩ := wellFormed.held_of_standsBetween known
  have inList := listParent_of_list known named
  have position : program.positionIn list id = .ok left.length :=
    positionIn_eq_ok.mpr ⟨holds, _, known, idxOf?_of_absent absent⟩
  have elements : program.elements list = .ok (left ++ id :: right).toArray :=
    elements_eq_ok.mpr ⟨holds, known⟩
  have before : (if left.length = 0 then none
      else (left ++ id :: right).toArray[left.length - 1]?) = left.getLast? := by
    rcases List.eq_nil_or_concat left with rfl | ⟨front, last, rfl⟩
    · rfl
    · simp
  have behind : (left ++ id :: right).toArray[left.length + 1]? = right.head? := by
    simp [List.getElem?_append_right, List.head?_eq_getElem?]
  refine Fault.bind_eq_ok.mpr ⟨some list, inList, Fault.bind_eq_ok.mpr ⟨left.length, position,
    Fault.bind_eq_ok.mpr ⟨_, elements, Fault.pure_eq_ok.mpr ?_⟩⟩⟩
  rw [before, behind]

/-- What is no element of a list answers that it has no neighbours. -/
theorem siblings_of_not_isElement (issued : (program.get? id).isSome)
    (outside : ¬ program.IsElement id) : program.siblings id = .ok (none, none) := by
  have alone : program.listParent id = .ok none := by
    refine listParent_eq_ok.mpr ⟨issued, ?_⟩
    cases named : program.parentOf id with
    | none => exact .inl ⟨rfl, rfl⟩
    | some parent =>
      have holdsId := (wellFormed.parent_iff parent id).mpr named
      obtain ⟨node, found⟩ := Option.isSome_iff_exists.mp holdsId.issued
      have known := kindAt_eq found
      refine .inr ⟨parent, rfl, node.kind.isList, by rw [known]; rfl, ?_⟩
      cases kind : node.kind with
      | list holds elements =>
        rw [kind] at known
        refine absurd ⟨parent, holds, elements, known, ?_⟩ outside
        rw [Holds, held_eq_of_kindAt known] at holdsId
        exact Array.mem_toList_iff.mp holdsId
      | _ => rfl
  simp only [siblings, alone]
  rfl

/-- Whatever a node answers comes from its place in a list, or it has none. -/
theorem siblings_cases {before? after? : Option NodeId}
    (looked : program.siblings id = .ok (before?, after?)) :
    (∃ left right, program.StandsBetween id left right ∧
      before? = left.getLast? ∧ after? = right.head?) ∨ before? = none ∧ after? = none := by
  by_cases element : program.IsElement id
  · obtain ⟨left, right, stands⟩ := element.exists_standsBetween
    rw [wellFormed.siblings_of_standsBetween stands, Except.ok.injEq, Prod.mk.injEq] at looked
    exact .inl ⟨left, right, stands, looked.1.symm, looked.2.symm⟩
  · have issued : (program.get? id).isSome := by
      obtain ⟨_, asked, _⟩ := Fault.bind_eq_ok.mp looked
      exact (listParent_eq_ok.mp asked).1
    rw [wellFormed.siblings_of_not_isElement issued element, Except.ok.injEq,
      Prod.mk.injEq] at looked
    exact .inr ⟨looked.1.symm, looked.2.symm⟩

theorem next_of_standsBetween (stands : program.StandsBetween id left right) :
    program.next id = .ok right.head? := by
  rw [Program.next, wellFormed.siblings_of_standsBetween stands]
  rfl

theorem prev_of_standsBetween (stands : program.StandsBetween id left right) :
    program.prev id = .ok left.getLast? := by
  rw [Program.prev, wellFormed.siblings_of_standsBetween stands]
  rfl

theorem next_eq_ok_some : program.next first = .ok (some second) ↔
    ∃ left rest, program.StandsBetween first left (second :: rest) := by
  constructor
  · intro asked
    obtain ⟨⟨before?, after?⟩, looked, isAfter⟩ := Fault.bind_eq_ok.mp asked
    obtain rfl : after? = some second := Fault.pure_eq_ok.mp isAfter
    obtain ⟨left, right, stands, _, isHead⟩ | ⟨_, never⟩ := wellFormed.siblings_cases looked
    · obtain ⟨rest, rfl⟩ := List.head?_eq_some_iff.mp isHead.symm
      exact ⟨left, rest, stands⟩
    · cases never
  · rintro ⟨left, rest, stands⟩
    exact wellFormed.next_of_standsBetween stands

theorem prev_eq_ok_some : program.prev second = .ok (some first) ↔
    ∃ left rest, program.StandsBetween second (left ++ [first]) rest := by
  constructor
  · intro asked
    obtain ⟨⟨before?, after?⟩, looked, isBefore⟩ := Fault.bind_eq_ok.mp asked
    obtain rfl : before? = some first := Fault.pure_eq_ok.mp isBefore
    obtain ⟨left, right, stands, isLast, _⟩ | ⟨never, _⟩ := wellFormed.siblings_cases looked
    · obtain ⟨front, rfl⟩ := List.getLast?_eq_some_iff.mp isLast.symm
      exact ⟨front, right, stands⟩
    · cases never
  · rintro ⟨left, rest, stands⟩
    rw [wellFormed.prev_of_standsBetween stands, List.getLast?_concat]

/-! ## Through a list -/

/-- From any of its elements on, the list is followed to its end. -/
theorem follows_next
    (known : program.kindAt list = some (.list holds (left ++ right).toArray)) :
    Follows program.next right := by
  induction right generalizing left with
  | nil => exact .nil
  | cons id rest ih =>
    have later : program.kindAt list = some (.list holds (left ++ [id] ++ rest).toArray) := by
      simpa using known
    apply Follows.cons
    · exact wellFormed.next_of_standsBetween ⟨list, holds, known⟩
    · exact ih later

/-- And back to its beginning. -/
theorem follows_prev
    (known : program.kindAt list = some (.list holds (left ++ right).toArray)) :
    Follows program.prev left.reverse := by
  induction left using List.reverseRecOn generalizing right with
  | nil => exact .nil
  | append_singleton front id ih =>
    rw [List.append_assoc] at known
    rw [List.reverse_concat]
    apply Follows.cons
    · rw [List.head?_reverse]
      exact wellFormed.prev_of_standsBetween ⟨list, holds, known⟩
    · exact ih known

/-- **Siblings are in order.**  Of two nodes the second comes after the first exactly if the first
comes before the second.  From the first element of a list the nodes after one another are its
elements, each once, and from the last one the nodes before one another are these in reverse.
Every node answers, and what is no element has nothing before or after it. -/
theorem siblings_in_order :
    (∀ first second, program.next first = .ok (some second) ↔
      program.prev second = .ok (some first)) ∧
    (∀ list holds elements, program.kindAt list = some (.list holds elements) →
      elements.toList.Nodup ∧ Follows program.next elements.toList ∧
        Follows program.prev elements.toList.reverse) ∧
    ∀ id, (program.get? id).isSome →
      (∃ after?, program.next id = .ok after?) ∧ (∃ before?, program.prev id = .ok before?) ∧
        (¬ program.IsElement id → program.next id = .ok none ∧ program.prev id = .ok none) := by
  refine ⟨fun first second => ?_, fun list holds elements known => ⟨?_, ?_, ?_⟩,
    fun id issued => ?_⟩
  · rw [wellFormed.next_eq_ok_some, wellFormed.prev_eq_ok_some]
    simp only [standsBetween_neighbours]
  · have nodup : (program.held list).Nodup := wellFormed.orderly.forest.nodup trivial
    rwa [held_eq_of_kindAt known] at nodup
  · have fromStart : program.kindAt list = some (.list holds ([] ++ elements.toList).toArray) :=
      known
    exact wellFormed.follows_next fromStart
  · have toEnd : program.kindAt list = some (.list holds (elements.toList ++ []).toArray) := by
      simpa using known
    exact wellFormed.follows_prev toEnd
  · by_cases element : program.IsElement id
    · obtain ⟨left, right, stands⟩ := element.exists_standsBetween
      exact ⟨⟨_, wellFormed.next_of_standsBetween stands⟩,
        ⟨_, wellFormed.prev_of_standsBetween stands⟩, fun outside => absurd element outside⟩
    · have alone := wellFormed.siblings_of_not_isElement issued element
      have noNext : program.next id = .ok none := by rw [Program.next, alone]; rfl
      have noPrev : program.prev id = .ok none := by rw [Program.prev, alone]; rfl
      exact ⟨⟨_, noNext⟩, ⟨_, noPrev⟩, fun _ => ⟨noNext, noPrev⟩⟩

end WellFormed

/-- Through the arguments of a call.  The list of the arguments itself is no element. -/
theorem siblings_in_order_listArguments :
    WellFormed listArguments ∧
      listArguments.kindAt ⟨19⟩ = some (.list .exprs #[⟨17⟩, ⟨14⟩, ⟨18⟩, ⟨15⟩, ⟨16⟩]) ∧
      Follows listArguments.next [⟨17⟩, ⟨14⟩, ⟨18⟩, ⟨15⟩, ⟨16⟩] ∧
      Follows listArguments.prev [⟨16⟩, ⟨15⟩, ⟨18⟩, ⟨14⟩, ⟨17⟩] ∧
      (listArguments.next ⟨18⟩ = .ok (some ⟨15⟩) ↔ listArguments.prev ⟨15⟩ = .ok (some ⟨18⟩)) ∧
      ¬ listArguments.IsElement ⟨19⟩ ∧
      listArguments.next ⟨19⟩ = .ok none ∧ listArguments.prev ⟨19⟩ = .ok none := by
  have wellFormed := standsUp_listArguments.inspected.wellFormed
  have known : listArguments.kindAt ⟨19⟩ = some (.list .exprs #[⟨17⟩, ⟨14⟩, ⟨18⟩, ⟨15⟩, ⟨16⟩]) := by
    decide +kernel
  obtain ⟨inverse, through, answers⟩ := WellFormed.siblings_in_order wellFormed
  obtain ⟨_, forwards, backwards⟩ := through ⟨19⟩ _ _ known
  have outside : ¬ listArguments.IsElement ⟨19⟩ := by
    intro element
    obtain ⟨left, right, list, holds, isList⟩ := element.exists_standsBetween
    have named : listArguments.parentOf ⟨19⟩ = some ⟨20⟩ := by decide +kernel
    obtain rfl : ⟨20⟩ = list :=
      Option.some.inj (named.symm.trans (wellFormed.held_of_standsBetween isList).1)
    have noList : (listArguments.kindAt ⟨20⟩).map Kind.isList = some false := by decide +kernel
    simp [isList, Kind.isList] at noList
  exact ⟨wellFormed, known, forwards, backwards, inverse ⟨18⟩ ⟨15⟩, outside,
    (answers ⟨19⟩ (by decide +kernel)).2.2 outside⟩

end Program

end ProgramTree
