import ProgramTree.Kind

/-!
# Children

The children of a node as a walker sees them, in two views.  The shallow view
lists executable structure; the deep view adds declarations and links, such as
the type of a symbol or the variable a use refers to.  Neither view follows the
definition point of a symbol.
-/

namespace ProgramTree

/-- How much of a node its children show. -/
inductive View where
  | shallow
  | deep
deriving DecidableEq

/-- The nodes that only the deep view shows. -/
def View.only (view : View) (nodes : List NodeId) : List NodeId :=
  match view with
  | .shallow => []
  | .deep => nodes

def Stmt.children (view : View) : Stmt → List NodeId
  | .expr inner => [inner]
  | .ret value? => value?.toList
  | .block body => [body]
  | .forLoop indices iterators body _ => [indices, iterators, body]
  | .cond condition thenStmt elseStmt? => [condition, thenStmt] ++ elseStmt?.toList
  | .whenCase cases body => [cases, body]
  | .select subject whens => [subject, whens]
  | .label definition target => [definition, target]
  | .goto label? => view.only label?.toList

def Expr.children (view : View) : Expr → List NodeId
  | .use var => view.only [var]
  | .definition sym init? declaredType? =>
    view.only [sym] ++ init?.toList ++ declaredType?.toList
  | .call (.expr base) args => [base, args]
  | .call (.primitive _) args => [args]
  | .cast toType? newType? expr => view.only toType?.toList ++ newType?.toList ++ [expr]
  | .named _ actual => [actual]
  | .importModule module? => view.only module?.toList
  | .literal _ => []

def SymbolKind.children (view : View) : SymbolKind → List NodeId
  | .module block initFn? _ => view.only (block :: initFn?.toList)
  | .arg _ defaultExpr? => defaultExpr?.toList
  | .type defines => view.only [defines]
  | .fn formals body retType? whereExpr? =>
    view.only [formals] ++ [body] ++ view.only retType?.toList ++ whereExpr?.toList
  | .unresolved | .var | .enumConst | .label => []

/-- The declared type of a symbol, which a type symbol does not show. -/
def Symbol.shownType (view : View) (symbol : Symbol) : List NodeId :=
  match symbol.kind with
  | .type _ => []
  | _ => view.only symbol.type?.toList

def TypeKind.children (view : View) : TypeKind → List NodeId
  | .enumeration constants => view.only [constants]
  | .user typeExpr? defaultExpr? underlying? =>
    typeExpr?.toList ++ defaultExpr?.toList ++ view.only underlying?.toList
  | .aggregate _ fields => view.only [fields]
  | .metatype base? => view.only base?.toList
  | .sum components => view.only components
  | .typeVariable bound? => view.only bound?.toList
  | .primitive _ | .function => []

/-- The children of a node in order. -/
def Kind.children (view : View) : Kind → List NodeId
  | .list _ elements => elements.toList
  | .stmt statement => statement.children view
  | .expr expression => expression.children view
  | .symbol data => data.kind.children view ++ data.shownType view
  | .type data => data.kind.children view ++ view.only data.symbol?.toList

end ProgramTree
