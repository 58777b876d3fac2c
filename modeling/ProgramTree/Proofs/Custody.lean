import ProgramTree.Proofs.Calls

/-!
# Custody

A builder makes every node that it creates the parent of what that node holds, and takes over
only what had no parent.  The exception are user types: the builder of named types adopts fields
and constants, but neither the type expression nor the default expression of a user type, so the
program is not well-formed from then on.
-/

namespace ProgramTree

open Program Edit

namespace Program

variable {before after : Program} {id holder parent : NodeId}

/-! ## Parents stay -/

/-- No step of a builder gives a new parent to a node that has one. -/
theorem Construction.parentOf_of_some (step : Construction before after)
    (named : before.parentOf id = some parent) : after.parentOf id = some parent := by
  have ofPushed : ∀ {kind : Kind} {pushed held : Program}, Pushed before kind pushed →
      Adopted pushed before.nextId kind.owned held → held.parentOf id = some parent := by
    intro kind grown held isPushed adopted
    apply adopted.parentOf_of_some
    rw [isPushed.parents, named]
    rintro rfl
    simp [parentOf, get?_nextId] at named
  cases step with
  | quiet _ parents => rw [parents, named]
  | grown _ _ _ _ pushed adopted => exact ofPushed pushed adopted
  | defined _ _ pushed adopted =>
    rw [parentOf_setKind]
    exact ofPushed pushed adopted
  | reworded => rw [parentOf_setKind, named]

theorem Construction.roots (step : Construction before after) : after.roots = before.roots := by
  cases step with
  | quiet _ _ _ roots => exact roots
  | grown _ _ _ _ pushed adopted => rw [adopted.rest, pushed.rest]
  | defined _ _ pushed adopted => rw [roots_modifyNode, adopted.rest, pushed.rest]
  | reworded => exact roots_modifyNode

theorem Constructed.parentOf_of_some (constructed : Constructed before after)
    (named : before.parentOf id = some parent) : after.parentOf id = some parent := by
  induction constructed with
  | refl => exact named
  | tail _ step ih => exact step.parentOf_of_some ih

theorem Constructed.roots (constructed : Constructed before after) :
    after.roots = before.roots := by
  induction constructed with
  | refl => rfl
  | tail _ step ih => exact step.roots.trans ih

end Program

variable {before after : Program} {answer holder child type : NodeId}

/-- What a builder made holds free-standing nodes only, names itself as their parent, and leaves
the program well-formed. -/
theorem Builder.parentOf_of_holds {builder : Builder} (takesOver : builder.TakesOver)
    (issued : ∀ id ∈ builder.given, (before.get? id).isSome) (wellFormed : WellFormed before)
    (run : Yields builder.run before answer after) :
    WellFormed after ∧ ∀ holder child, before.New holder → after.Holds holder child →
      after.parentOf child = some holder ∧ before.parentOf child = none ∧
        child ∉ before.roots := by
  have constructed : Constructed before after :=
    (builder.builtUp takesOver issued run).progress.kept
  have wellFormedAfter : WellFormed after :=
    (constructed.orderly wellFormed.orderly).wellFormed
  refine ⟨wellFormedAfter, fun holder child isNew holds => ?_⟩
  have named := (wellFormedAfter.parent_iff holder child).mp holds
  refine ⟨named, ?_, fun root => ?_⟩
  · rw [Option.eq_none_iff_forall_ne_some]
    intro parent namedBefore
    obtain rfl : holder = parent :=
      Option.some.inj (named.symm.trans (constructed.parentOf_of_some namedBefore))
    have issuedHolder := ((wellFormed.parent_iff holder child).mpr namedBefore).issued
    simp [isNew] at issuedHolder
  · rw [← constructed.roots] at root
    simp [wellFormedAfter.roots_free child root] at named

/-! ## User types -/

/-- A named type holds all that its kind owns, and gives a parent to what it adopts. -/
theorem parentOf_of_newNamedType {name : String} {kind : TypeKind}
    (issued : (before.get? child).isSome) (notAdopted : child ∉ adoptedByType kind)
    (run : Yields (newNamedType name kind) before type after) :
    type = before.nextId ∧ after.held type = kind.owned ∧
      after.parentOf child = before.parentOf child := by
  have notFresh : ∀ {program : Program}, (program.get? child).isSome → child ≠ program.nextId := by
    rintro program isIssued rfl
    simp [get?_nextId] at isIssued
  simp only [newNamedType, newHolder, newSymbol, yields_bind, yields_newNode, yields_pure] at run
  obtain ⟨_, grown, ⟨_, made, ⟨rfl, isMade⟩, _, _, adopting, rfl, rfl⟩, naming, symbolMade,
    ⟨rfl, isSymbolMade⟩, _, held, adoptingType, _, _, writing, rfl, rfl⟩ := run
  have pushed : Pushed before (.type { kind }) made := isMade ▸ pushed_push
  have adopted := Edit.adopted adopting
  have pushedNaming : Pushed grown (.symbol { name, kind := .type before.nextId }) symbolMade :=
    isSymbolMade ▸ pushed_push
  have adoptedType := Edit.adopted adoptingType
  obtain ⟨isType, rfl⟩ := yields_change.mp writing
  refine ⟨rfl, ?_, ?_⟩
  · obtain ⟨node, found⟩ := Option.isSome_iff_exists.mp isType
    rw [Program.held, Program.kindAt, get?_modifyNode, if_pos rfl, found]
    rfl
  · have issuedGrown : (grown.get? child).isSome := by
      rw [adopted.nodes, Option.isSome_map, pushed.others (notFresh issued)]
      exact issued
    rw [parentOf_setKind, adoptedType.parentOf_of_notMem (by simpa using notFresh issued),
      pushedNaming.parents (notFresh issuedGrown), adopted.parentOf_of_notMem notAdopted,
      pushed.parents (notFresh issued)]

/-- A type that holds a child which it does not adopt makes the program ill-formed, as user types
do with their type expressions and default expressions. -/
theorem not_wellFormed_of_newNamedType {name : String} {kind : TypeKind}
    (wellFormed : WellFormed before) (given : child ∈ kind.owned)
    (issued : (before.get? child).isSome) (notAdopted : child ∉ adoptedByType kind)
    (run : Yields (newNamedType name kind) before type after) : ¬ WellFormed after := by
  intro wellFormedAfter
  obtain ⟨rfl, held, parent⟩ := parentOf_of_newNamedType issued notAdopted run
  have holds : after.Holds before.nextId child := by
    rw [Holds, held]
    exact given
  have named := (wellFormedAfter.parent_iff _ _).mp holds
  rw [parent, ← wellFormed.parent_iff] at named
  simp [Holds, held_of_unissued (get?_nextId before)] at named

end ProgramTree
