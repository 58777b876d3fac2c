import ProgramTree.Program.Rendering
import ProgramTree.Proofs.Containment
import ProgramTree.Proofs.Renaming

/-!
# Rendering copies

What a program shows of a node depends on kinds and names alone.  So a renamed copy of
a subtree is shown like the subtree, and a program with more nodes shows what it showed
before.
-/

namespace ProgramTree

variable {α β : Type}

namespace Fault

theorem toOption_bind {query : Except Fault α} {next : α → Except Fault β} :
    (query >>= next).toOption = query.toOption.bind fun answer => (next answer).toOption := by
  cases query <;> rfl

theorem toOption_map {query : Except Fault α} {change : α → β} :
    (change <$> query).toOption = query.toOption.map change := by
  cases query <;> rfl

end Fault

/-! ## Kinds with other identities in them -/

namespace Kind

variable {own link : NodeId → NodeId}

theorem name_renamed (kind : Kind) : (kind.renamed own link).name = kind.name := by
  cases kind with
  | list => rfl
  | stmt stmt => cases stmt <;> rfl
  | expr expr => cases expr <;> rfl
  | symbol symbol =>
    obtain ⟨_, _, _, _, kind⟩ := symbol
    cases kind <;> rfl
  | type type =>
    obtain ⟨_, kind⟩ := type
    cases kind <;> rfl

theorem symbol_renamed (kind : Kind) :
    (kind.renamed own link).symbol?.map Symbol.name = kind.symbol?.map Symbol.name := by
  cases kind <;> rfl

end Kind

namespace Program

variable {program before after : Program} {id : NodeId}

theorem toOption_kindOf : (program.kindOf id).toOption = program.kindAt id := by
  unfold kindOf node kindAt
  cases program.get? id <;> rfl

theorem toOption_symbol :
    (program.symbol id).toOption = (program.kindAt id).bind Kind.symbol? := by
  rw [symbol, Fault.toOption_bind, toOption_kindOf]
  congr 1
  funext kind
  cases kind <;> rfl

/-- The name that a node has on its own. -/
def ownName (program : Program) (id : NodeId) : Option String :=
  ((program.kindAt id).bind Kind.symbol?).map Symbol.name

theorem toOption_nameOf :
    (program.nameOf id).toOption = (program.kindAt id).bind fun kind =>
      match kind with
      | .symbol symbol => some (some symbol.name)
      | .type { symbol? := some naming, .. } => (program.ownName naming).map some
      | _ => some none := by
  rw [nameOf, Fault.toOption_bind, toOption_kindOf]
  congr 1
  funext kind
  cases kind with
  | type type =>
    obtain ⟨_ | naming, _⟩ := type
    · rfl
    · simp only [ownName, ← toOption_symbol]
      cases program.symbol naming <;> rfl
  | _ => rfl

/-! ## A renamed copy within one program -/

/-- The nodes of `order` have renamed copies, and a link leads to the copy of what it
led to, if there is one. -/
structure Mirrored (program : Program) (order : List NodeId) (own link : NodeId → NodeId) :
    Prop where
  closed : ∀ {holder child}, holder ∈ order → program.Holds holder child → child ∈ order
  copy : ∀ {id}, id ∈ order → ∃ kind, program.kindAt id = some kind ∧
    program.kindAt (own id) = some (kind.renamed own link)
  inside : ∀ {id}, id ∈ order → link id = own id
  outside : ∀ {id}, id ∉ order → link id = id

namespace Mirrored

variable {order : List NodeId} {own link : NodeId → NodeId}
  (mirrored : Mirrored program order own link)
include mirrored

theorem ownName_link (id : NodeId) : program.ownName (link id) = program.ownName id := by
  by_cases member : id ∈ order
  · obtain ⟨kind, original, copy⟩ := mirrored.copy member
    rw [mirrored.inside member, ownName, copy, ownName, original]
    exact kind.symbol_renamed
  · rw [mirrored.outside member]

theorem kindName_link (id : NodeId) :
    (program.kindAt (link id)).map Kind.name = (program.kindAt id).map Kind.name := by
  by_cases member : id ∈ order
  · obtain ⟨kind, original, copy⟩ := mirrored.copy member
    rw [mirrored.inside member, copy, original, Option.map_some, Option.map_some,
      Kind.name_renamed]
  · rw [mirrored.outside member]

theorem nameOf_link (id : NodeId) :
    (program.nameOf (link id)).toOption = (program.nameOf id).toOption := by
  by_cases member : id ∈ order
  · obtain ⟨kind, original, copy⟩ := mirrored.copy member
    rw [mirrored.inside member, toOption_nameOf, toOption_nameOf, copy, original]
    cases kind with
    | type type =>
      obtain ⟨_ | naming, _⟩ := type
      · rfl
      · simp [Kind.renamed, mirrored.ownName_link]
    | _ => rfl
  · rw [mirrored.outside member]

theorem mention_link (id : NodeId) :
    (program.mention (link id)).toOption = (program.mention id).toOption := by
  have shown : ∀ id, (program.mention id).toOption =
      (program.nameOf id).toOption.bind fun name? =>
        name?.elim (((program.kindAt id).map Kind.name).map fun name => " <" ++ name ++ ">")
          fun name => some (" " ++ name) := by
    intro id
    rw [mention, Fault.toOption_bind]
    congr 1
    funext name?
    cases name? with
    | some name => rfl
    | none =>
      rw [← toOption_kindOf]
      cases program.kindOf id <;> rfl
  rw [shown, shown, mirrored.nameOf_link, mirrored.kindName_link]

theorem mention?_link (id? : Option NodeId) :
    (program.mention? (id?.map link)).toOption = (program.mention? id?).toOption := by
  cases id? with
  | none => rfl
  | some id => exact mirrored.mention_link id

theorem detail_renamed (kind : Kind) :
    (program.detail (kind.renamed own link)).toOption = (program.detail kind).toOption := by
  cases kind with
  | list => rfl
  | stmt stmt =>
    cases stmt with
    | goto label? => exact mirrored.mention?_link label?
    | forLoop _ _ _ orderIndependent => cases orderIndependent <;> rfl
    | _ => rfl
  | expr expr =>
    cases expr with
    | use var => exact mirrored.mention_link var
    | call callee args => cases callee <;> rfl
    | cast toType? newType? inner =>
      cases toType? with
      | none => rfl
      | some toType =>
        have mentioned := mirrored.mention_link toType
        simp [detail, exprDetail, Kind.renamed, Expr.renamed, Fault.toOption_map, mentioned]
    | importModule module? => exact mirrored.mention?_link module?
    | _ => rfl
  | symbol symbol =>
    obtain ⟨name, type?, defPoint?, flags, kind⟩ := symbol
    cases type? with
    | none => rfl
    | some type =>
      have mentioned := mirrored.mention_link type
      simp [detail, symbolDetail, Kind.renamed, Fault.toOption_map, mentioned]
  | type type =>
    obtain ⟨symbol?, kind⟩ := type
    have mentioned := mirrored.mention?_link symbol?
    cases kind <;>
      simp [detail, typeDetail, Kind.renamed, TypeKind.renamed, Fault.toOption_map, mentioned]

theorem describe_own (member : id ∈ order) :
    (program.describe (own id)).toOption = (program.describe id).toOption := by
  obtain ⟨kind, original, copy⟩ := mirrored.copy member
  simp only [describe, Fault.toOption_bind, toOption_kindOf, original, copy, Option.bind_some,
    mirrored.detail_renamed, Kind.name_renamed]

/-- The copy of a subtree is shown like the subtree. -/
theorem renderWithin_own (member : id ∈ order) (fuel indent : Nat) (text : String) :
    (program.renderWithin fuel indent text (own id)).toOption =
      (program.renderWithin fuel indent text id).toOption := by
  induction fuel generalizing id indent text with
  | zero => rfl
  | succ fuel ih =>
    obtain ⟨kind, original, copy⟩ := mirrored.copy member
    have childrenAlike : ∀ (children : List NodeId) (text : String),
        (∀ child ∈ children, child ∈ order) →
        ((children.map own).foldlM (program.renderWithin fuel (indent + 2)) text).toOption =
          (children.foldlM (program.renderWithin fuel (indent + 2)) text).toOption := by
      intro children
      induction children with
      | nil => exact fun _ _ => rfl
      | cons first rest ihRest =>
        intro text members
        rw [List.map_cons, List.foldlM_cons, List.foldlM_cons, Fault.toOption_bind,
          Fault.toOption_bind, ih (members first (by simp))]
        congr 1
        funext shown
        exact ihRest shown fun child later => members child (by simp [later])
    have below : ∀ child ∈ kind.owned, child ∈ order := by
      intro child owned
      apply mirrored.closed member
      simpa [Holds, held, original] using owned
    simp only [renderWithin, Fault.toOption_bind, toOption_kindOf, original, copy,
      Option.bind_some, mirrored.describe_own member, Kind.owned_renamed]
    congr 1
    funext line
    exact childrenAlike kind.owned _ below

end Mirrored

/-! ## A program with more nodes -/

section Extension

variable (old : ∀ {id node}, before.get? id = some node → after.get? id = some node)
include old

theorem kindOf_extended {kind : Kind} (found : before.kindOf id = .ok kind) :
    after.kindOf id = .ok kind := by
  rw [← Fault.toOption_eq_some, toOption_kindOf] at found ⊢
  obtain ⟨node, issued, rfl⟩ := get?_of_kindAt found
  exact kindAt_eq (old issued)

theorem symbol_extended {symbol : Symbol} (found : before.symbol id = .ok symbol) :
    after.symbol id = .ok symbol := by
  rw [← Fault.toOption_eq_some, toOption_symbol] at found ⊢
  obtain ⟨kind, known, isSymbol⟩ := Option.bind_eq_some_iff.mp found
  obtain ⟨node, issued, rfl⟩ := get?_of_kindAt known
  rw [kindAt_eq (old issued), Option.bind_some, isSymbol]

theorem nameOf_extended {name? : Option String} (found : before.nameOf id = .ok name?) :
    after.nameOf id = .ok name? := by
  rw [nameOf, Fault.bind_eq_ok] at found ⊢
  obtain ⟨kind, known, found⟩ := found
  refine ⟨kind, kindOf_extended old known, ?_⟩
  cases kind with
  | type type =>
    obtain ⟨_ | naming, _⟩ := type
    · exact found
    · obtain ⟨symbol, isSymbol, found⟩ := Fault.bind_eq_ok.mp found
      exact Fault.bind_eq_ok.mpr ⟨symbol, symbol_extended old isSymbol, found⟩
  | _ => exact found

theorem mention_extended {text : String} (found : before.mention id = .ok text) :
    after.mention id = .ok text := by
  rw [mention, Fault.bind_eq_ok] at found ⊢
  obtain ⟨name?, named, found⟩ := found
  refine ⟨name?, nameOf_extended old named, ?_⟩
  cases name? with
  | some name => exact found
  | none =>
    obtain ⟨kind, known, found⟩ := Fault.bind_eq_ok.mp found
    exact Fault.bind_eq_ok.mpr ⟨kind, kindOf_extended old known, found⟩

theorem mention?_extended {id? : Option NodeId} {text : String}
    (found : before.mention? id? = .ok text) : after.mention? id? = .ok text := by
  cases id? with
  | none => exact found
  | some id => exact mention_extended old found

theorem detail_extended {kind : Kind} {text : String} (found : before.detail kind = .ok text) :
    after.detail kind = .ok text := by
  cases kind with
  | list => exact found
  | stmt stmt =>
    cases stmt with
    | goto label? => exact mention?_extended old found
    | forLoop _ _ _ orderIndependent => cases orderIndependent <;> exact found
    | _ => exact found
  | expr expr =>
    cases expr with
    | use var => exact mention_extended old found
    | call callee args => cases callee <;> exact found
    | cast toType? newType? inner =>
      cases toType? with
      | none => exact found
      | some toType =>
        obtain ⟨shown, mentioned, found⟩ := Fault.bind_eq_ok.mp found
        exact Fault.bind_eq_ok.mpr ⟨shown, mention_extended old mentioned, found⟩
    | importModule module? => exact mention?_extended old found
    | _ => exact found
  | symbol symbol =>
    obtain ⟨name, type?, defPoint?, flags, kind⟩ := symbol
    cases type? with
    | none => exact found
    | some type =>
      simp only [detail, symbolDetail, Fault.bind_eq_ok] at found ⊢
      obtain ⟨shown, mentioned, found⟩ := found
      exact ⟨shown, mention_extended old mentioned, found⟩
  | type type =>
    obtain ⟨shown, mentioned, found⟩ := Fault.bind_eq_ok.mp found
    exact Fault.bind_eq_ok.mpr ⟨shown, mention?_extended old mentioned, found⟩

theorem describe_extended {line : String} (found : before.describe id = .ok line) :
    after.describe id = .ok line := by
  rw [describe, Fault.bind_eq_ok] at found ⊢
  obtain ⟨kind, known, found⟩ := found
  obtain ⟨text, detailed, found⟩ := Fault.bind_eq_ok.mp found
  exact ⟨kind, kindOf_extended old known,
    Fault.bind_eq_ok.mpr ⟨text, detail_extended old detailed, found⟩⟩

theorem renderWithin_extended {fuel more indent : Nat} {text shown : String} (enough : fuel ≤ more)
    (found : before.renderWithin fuel indent text id = .ok shown) :
    after.renderWithin more indent text id = .ok shown := by
  induction fuel generalizing id more indent text shown with
  | zero => simp [renderWithin] at found
  | succ fuel ih =>
    obtain ⟨more, rfl⟩ := Nat.exists_eq_add_of_lt enough
    rw [renderWithin, Fault.bind_eq_ok] at found ⊢
    obtain ⟨line, described, found⟩ := found
    obtain ⟨kind, known, found⟩ := Fault.bind_eq_ok.mp found
    refine ⟨line, describe_extended old described, ?_⟩
    refine Fault.bind_eq_ok.mpr ⟨kind, kindOf_extended old known, ?_⟩
    generalize text.pushn ' ' indent ++ line ++ "\n" = start at found ⊢
    generalize kind.owned = children at found ⊢
    induction children generalizing start with
    | nil => exact found
    | cons first rest ihRest =>
      rw [List.foldlM_cons, Fault.bind_eq_ok] at found ⊢
      obtain ⟨between, shownFirst, found⟩ := found
      exact ⟨between, ih (Nat.le_add_right fuel more) shownFirst, ihRest _ found⟩

end Extension

end Program

end ProgramTree
