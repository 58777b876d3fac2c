import ProgramTree.Kind.Name
import ProgramTree.Kind.Slots
import ProgramTree.Program.Access

/-!
# Rendering

Subtrees as text, one node per line, children indented under the node that holds
them.  Identities are left out, so equivalent trees are rendered alike.  Defects
are described here too, with the node they are about.
-/

namespace ProgramTree

/-- A literal as it is written. -/
def Literal.text : Literal → String
  | .int value => toString value.toInt
  | .bool value => if value then "true" else "false"
  | .string value => Text.quoted value

namespace Program

/-- A node by its name, or by its kind when it has none, behind a space. -/
def mention (program : Program) (id : NodeId) : Except Fault String := do
  match ← program.nameOf id with
  | some name => return " " ++ name
  | none => return " <" ++ (← program.kindOf id).name ++ ">"

/-- As `mention`, and nothing for an absent node. -/
def mention? (program : Program) : Option NodeId → Except Fault String
  | some id => program.mention id
  | none => return ""

/-- What is shown of an expression behind the name of its kind. -/
def exprDetail (program : Program) : Expr → Except Fault String
  | .use var => program.mention var
  | .call (.primitive operation) _ => return " " ++ operation.name
  | .cast (some toType) _ _ => return " to" ++ (← program.mention toType)
  | .named name _ => return " " ++ name
  | .importModule module? => program.mention? module?
  | .literal value => return " " ++ value.text
  | _ => return ""

/-- What is shown of a symbol behind the name of its kind. -/
def symbolDetail (program : Program) (symbol : Symbol) : Except Fault String := do
  let type ← match symbol.type? with
    | some type => pure (":" ++ (← program.mention type))
    | none => pure ""
  let flags := if symbol.flags.isEmpty then "" else " " ++ symbol.flags.text
  return " " ++ symbol.name ++ type ++ flags

/-- What is shown of a type behind the name of its kind. -/
def typeDetail (program : Program) (type : TypeNode) : Except Fault String := do
  let tag := match type.kind with
    | .aggregate tag _ => "(" ++ tag.name ++ ")"
    | _ => ""
  return tag ++ (← program.mention? type.symbol?)

/-- What is shown of a node behind the name of its kind. -/
def detail (program : Program) : Kind → Except Fault String
  | .stmt (.forLoop _ _ _ true) => return " order-independent"
  | .stmt (.goto label?) => program.mention? label?
  | .expr expression => program.exprDetail expression
  | .symbol symbol => program.symbolDetail symbol
  | .type type => program.typeDetail type
  | _ => return ""

/-- A node in one line. -/
def describe (program : Program) (id : NodeId) : Except Fault String := do
  let kind ← program.kindOf id
  return kind.name ++ (← program.detail kind)

/-- Appends the lines of the subtree under `id` to `text`.  The subtree is at most
`fuel` levels deep. -/
def renderWithin (program : Program) : Nat → Nat → String → NodeId → Except Fault String
  | 0, _, _, id => .error (.endless id)
  | fuel + 1, indent, text, id => do
    let line ← program.describe id
    let text := text.pushn ' ' indent ++ line ++ "\n"
    (← program.kindOf id).owned.foldlM (program.renderWithin fuel (indent + 2)) text

/-- The subtree under `root`, children indented by two spaces. -/
def render (program : Program) (root : NodeId) : Except Fault String :=
  program.renderWithin (program.nodes.size + 1) 0 "" root

/-- Every root module. -/
def renderRoots (program : Program) : Except Fault String :=
  return String.join (← program.roots.toList.mapM program.render)

/-- A defect over several lines, with its node if the program has it. -/
def explain (program : Program) (defect : Defect) : Except Fault String := do
  let headline :=
    "Internal error occurred during compilation:\n    " ++ defect.location.text ++ ": " ++
      defect.cause.message
  match defect.node? with
  | none => return headline
  | some id =>
    if program.contains id then
      let kind ← program.kindOf id
      let name := match ← program.nameOf id with
        | some name => " " ++ name
        | none => ""
      return headline ++ "\n    at " ++ kind.name ++ name ++ " (" ++ id.text ++ ")"
    else return headline

end Program

end ProgramTree
