import ProgramTree.Kind

/-!
# Names of kinds

How kinds, and the operations and tags in them, are called in diagnostics and in
rendered trees.
-/

namespace ProgramTree

/-- The name of an operation in a rendered tree. -/
def Primitive.name : Primitive → String
  | .move => "move"
  | .setMember => "set_member"
  | .getMemberValue => "get_member_value"
  | .castToVoidStar => "cast_to_void_star"
  | .isGpuSublocale => "is_gpu_sublocale"
  | .getGlobalId => "get_global_id"
  | .alloc => "alloc"
  | .add => "+"
  | .subtract => "-"
  | .multiply => "*"
  | .less => "<"
  | .index => "index"

/-- The name of the tag in a rendered tree. -/
def AggregateTag.name : AggregateTag → String
  | .classTag => "Class"
  | .recordTag => "Record"

/-- The name of a statement's kind. -/
def Stmt.kindName : Stmt → String
  | .expr .. => "ExprStmt"
  | .ret .. => "ReturnStmt"
  | .block .. => "BlockStmt"
  | .forLoop .. => "ForLoopStmt"
  | .cond .. => "CondStmt"
  | .whenCase .. => "WhenStmt"
  | .select .. => "SelectStmt"
  | .label .. => "LabelStmt"
  | .goto .. => "GotoStmt"

/-- The name of an expression's kind. -/
def Expr.kindName : Expr → String
  | .use .. => "SymExpr"
  | .definition .. => "DefExpr"
  | .call .. => "CallExpr"
  | .cast .. => "CastExpr"
  | .named .. => "NamedExpr"
  | .importModule .. => "ImportExpr"
  | .literal .. => "LiteralExpr"

/-- The name of a symbol's kind. -/
def SymbolKind.kindName : SymbolKind → String
  | .unresolved => "UnresolvedSymbol"
  | .module .. => "ModuleSymbol"
  | .var => "VarSymbol"
  | .arg .. => "ArgSymbol"
  | .type .. => "TypeSymbol"
  | .fn .. => "FnSymbol"
  | .enumConst => "EnumSymbol"
  | .label => "LabelSymbol"

/-- The name of a type's kind. -/
def TypeKind.kindName : TypeKind → String
  | .primitive .. => "PrimitiveType"
  | .function => "FnType"
  | .enumeration .. => "EnumType"
  | .user .. => "UserType"
  | .aggregate .. => "AggregateType"
  | .metatype .. => "MetaType"
  | .sum .. => "SumType"
  | .typeVariable .. => "VariableType"

/-- A short name for the kind, used in diagnostics and rendered trees. -/
def Kind.name : Kind → String
  | .list .. => "List"
  | .stmt statement => statement.kindName
  | .expr expression => expression.kindName
  | .symbol data => data.kind.kindName
  | .type data => data.kind.kindName

end ProgramTree
