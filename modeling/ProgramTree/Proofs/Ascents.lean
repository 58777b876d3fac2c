import ProgramTree.Proofs.Anchors

/-!
# Ascents

An ascent goes from a node to its definition, to the symbol that names it or to the symbol around
it, wherever these links lead.  It gives up when it comes back to a node that it has passed.
`Climbs` describes it without a bound on the number of its steps.  Whatever the links are, it comes
to an end, and where each step goes up in a forest it gives up nowhere.
-/

namespace ProgramTree.Program

open Relation

variable {exact bare : Prop} {region : NodeId → Prop} {program : Program}
  {turn : NodeId → SymbolKind → Ascent} {id : NodeId} {kind : Kind} {passed : List NodeId}
  {fuel : Nat}

/-- From `id`, with the nodes of `passed` behind it, the ascent ends with this answer. -/
inductive Climbs (program : Program) (turn : NodeId → SymbolKind → Ascent) :
    List NodeId → NodeId → Except Fault (Option NodeId) → Prop where
  | circles {passed : List NodeId} {id : NodeId} (again : id ∈ passed) :
      Climbs program turn passed id (.ok none)
  | unissued {passed : List NodeId} {id : NodeId} (fresh : id ∉ passed)
      (missing : program.get? id = none) :
      Climbs program turn passed id (.error (.unknownNode id))
  | arrives {passed : List NodeId} {id : NodeId} {kind : Kind} {owner? : Option NodeId}
      (fresh : id ∉ passed) (known : program.kindAt id = some kind)
      (way : program.wayUp turn id kind = .inl owner?) :
      Climbs program turn passed id (.ok owner?)
  | loses {passed : List NodeId} {id : NodeId} {kind : Kind} (fresh : id ∉ passed)
      (known : program.kindAt id = some kind) (way : program.wayUp turn id kind = .inr none) :
      Climbs program turn passed id (.ok none)
  | goesOn {passed : List NodeId} {id above : NodeId} {kind : Kind}
      {answer : Except Fault (Option NodeId)} (fresh : id ∉ passed)
      (known : program.kindAt id = some kind)
      (way : program.wayUp turn id kind = .inr (some above))
      (further : Climbs program turn (id :: passed) above answer) :
      Climbs program turn passed id answer

/-- The ascent goes on from `id` to `above`. -/
def StepsUp (program : Program) (turn : NodeId → SymbolKind → Ascent) (id above : NodeId) : Prop :=
  ∃ kind, program.kindAt id = some kind ∧ program.wayUp turn id kind = .inr (some above)

/-! ## Every ascent ends -/

/-- Nodes that go on among themselves have no way out. -/
theorem ascend_of_circle (circle : ∀ lower ∈ passed, ∃ above ∈ passed,
    program.StepsUp turn lower above) (member : id ∈ passed) :
    program.ascend turn fuel id = .ok none := by
  induction fuel generalizing id with
  | zero => rfl
  | succ fuel ih =>
    obtain ⟨above, memberAbove, _, known, way⟩ := circle id member
    rw [ascend_succ_eq known, way]
    exact ih memberAbove

/-- The nodes that were passed lead on to one another and then to `id`.  They are distinct nodes of
the program, so there is fuel left. -/
theorem climbs_ascend_of_passed (distinct : passed.Nodup)
    (leads : ∀ lower ∈ passed, ∃ above ∈ id :: passed, program.StepsUp turn lower above)
    (enough : fuel + passed.length = program.nodes.size + 1) :
    program.Climbs turn passed id (program.ascend turn fuel id) := by
  induction fuel generalizing id passed with
  | zero =>
    have bounded : passed.length ≤ program.nodes.size := by
      refine length_le_size distinct fun lower member => ?_
      obtain ⟨_, _, _, known, _⟩ := leads lower member
      exact get?_isSome_of_kindAt known
    omega
  | succ fuel ih =>
    by_cases again : id ∈ passed
    · rw [ascend_of_circle (fun lower member => ?_) again]
      · exact .circles again
      · obtain ⟨above, memberAbove, steps⟩ := leads lower member
        rcases List.mem_cons.mp memberAbove with rfl | memberAbove
        · exact ⟨above, again, steps⟩
        · exact ⟨above, memberAbove, steps⟩
    cases known : program.kindAt id with
    | none =>
      have missing := get?_eq_none_iff_kindAt.mpr known
      rw [ascend_of_unissued missing]
      exact .unissued again missing
    | some kind =>
      rw [ascend_succ_eq known]
      cases way : program.wayUp turn id kind with
      | inl owner? => exact .arrives again known way
      | inr above? =>
        cases above? with
        | none => exact .loses again known way
        | some above =>
          refine .goesOn again known way
            (ih (List.nodup_cons.mpr ⟨again, distinct⟩) ?_ (by rw [List.length_cons]; omega))
          refine List.forall_mem_cons.mpr ⟨⟨above, by simp, kind, known, way⟩, ?_⟩
          intro lower member
          obtain ⟨next, memberNext, steps⟩ := leads lower member
          exact ⟨next, List.mem_cons_of_mem _ memberNext, steps⟩

/-- The ascent that counts its steps answers what the one that remembers its way answers. -/
theorem climbs_ascend (program : Program) (turn : NodeId → SymbolKind → Ascent) (id : NodeId) :
    program.Climbs turn [] id (program.ascend turn program.ascentBound id) :=
  climbs_ascend_of_passed .nil nofun rfl

/-! ## Ascents in a forest -/

/-- From the rising nodes the ascent arrives, or it goes up to another one, and what is the answer
there is the answer below as well. -/
structure Rises (program : Program) (turn : NodeId → SymbolKind → Ascent) (rising : NodeId → Prop)
    (answers : NodeId → Option NodeId → Prop) : Prop where
  step : ∀ {id}, rising id → ∃ kind, program.kindAt id = some kind ∧
    ((∃ owner?, program.wayUp turn id kind = .inl owner? ∧ answers id owner?) ∨
      ∃ above, program.wayUp turn id kind = .inr (some above) ∧ TransGen program.Holds above id ∧
        rising above ∧ ∀ owner?, answers above owner? → answers id owner?)

namespace Rises

variable {rising : NodeId → Prop} {loose : List NodeId}
  {answers : NodeId → Option NodeId → Prop} (rises : Rises program turn rising answers)
  (forest : Forest region loose program) (inside : ∀ {id}, rising id → region id)
include rises forest inside

/-- The nodes that were passed are distinct, so there is fuel left. -/
theorem exists_ascend_of_passed (start : rising id) (distinct : passed.Nodup)
    (below : ∀ lower ∈ passed, TransGen program.Holds id lower)
    (enough : fuel + passed.length = program.nodes.size + 1) :
    ∃ owner?, program.ascend turn fuel id = .ok owner? ∧ answers id owner? := by
  induction fuel generalizing id passed with
  | zero =>
    have bounded := forest.length_le_of_below (inside start) distinct below
    omega
  | succ fuel ih =>
    obtain ⟨kind, known, ⟨owner?, way, answer⟩ | ⟨above, way, strict, further, transfer⟩⟩ :=
      rises.step start
    · exact ⟨owner?, by rw [ascend_succ_eq known, way], answer⟩
    · have fresh : id ∉ passed := fun again =>
        (forest.grounded (inside start)).not_below_itself (below id again)
      have belowAbove : ∀ lower ∈ id :: passed, TransGen program.Holds above lower :=
        List.forall_mem_cons.mpr ⟨strict, fun lower member => strict.trans (below lower member)⟩
      obtain ⟨owner?, looked, answer⟩ := ih further (List.nodup_cons.mpr ⟨fresh, distinct⟩)
        belowAbove (by rw [List.length_cons]; omega)
      exact ⟨owner?, by rw [ascend_succ_eq known, way]; exact looked, transfer owner? answer⟩

theorem exists_ascend (start : rising id) :
    ∃ owner?, program.ascend turn program.ascentBound id = .ok owner? ∧ answers id owner? :=
  rises.exists_ascend_of_passed forest inside start .nil nofun rfl

end Rises

/-! ## The symbol around a node -/

/-- Around a node of the tree that is no root there is a symbol. -/
theorem Orderly.exists_around (orderly : Orderly exact bare region [] program)
    (reachable : program.Reachable id) (notRoot : id ∉ program.roots) :
    ∃ sym, (program.contextOf id).symbol? = some sym ∧ (program.kindAt sym).any Kind.isSymbol ∧
      program.Reachable sym ∧ TransGen program.Holds sym id := by
  obtain ⟨root, isRoot, contained⟩ := reachable
  induction contained with
  | refl => exact absurd isRoot notRoot
  | @tail holder child contained holds ih =>
    have reachable : program.Reachable holder := ⟨root, isRoot, contained⟩
    rw [orderly.context_of_held reachable holds, innerContext]
    by_cases isSymbol : (program.kindAt holder).any Kind.isSymbol
    · exact ⟨holder, by simp [isSymbol], isSymbol, reachable, .single holds⟩
    · obtain ⟨sym, around, symIsSymbol, reachableSym, above⟩ := ih fun isRoot =>
        isSymbol (orderly.rooted.isSymbol isRoot)
      exact ⟨sym, by simpa [isSymbol] using around, symIsSymbol, reachableSym, above.tail holds⟩

end ProgramTree.Program
