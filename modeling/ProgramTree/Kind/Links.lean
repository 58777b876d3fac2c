import ProgramTree.Kind

/-!
# Links

The weak references of a node.  `Kind.links` lists them and `Kind.mapLinks`
redirects each of them; neither looks at what the node owns.
-/

namespace ProgramTree

def Stmt.links : Stmt → List NodeId
  | .goto label? => label?.toList
  | _ => []

def Expr.links : Expr → List NodeId
  | .use var => [var]
  | .cast toType? _ _ => toType?.toList
  | .importModule module? => module?.toList
  | _ => []

def SymbolKind.links : SymbolKind → List NodeId
  | .module _ initFn? _ => initFn?.toList
  | .fn _ _ retType? _ => retType?.toList
  | _ => []

def TypeKind.links : TypeKind → List NodeId
  | .user _ _ underlying? => underlying?.toList
  | .metatype base? => base?.toList
  | .sum components => components
  | .typeVariable bound? => bound?.toList
  | _ => []

/-- The nodes a node refers to without containing them. -/
def Kind.links : Kind → List NodeId
  | .list _ _ => []
  | .stmt statement => statement.links
  | .expr expression => expression.links
  | .symbol data => data.type?.toList ++ data.defPoint?.toList ++ data.kind.links
  | .type data => data.symbol?.toList ++ data.kind.links

def Stmt.mapLinks (redirect : NodeId → NodeId) : Stmt → Stmt
  | .goto label? => .goto (label?.map redirect)
  | other => other

def Expr.mapLinks (redirect : NodeId → NodeId) : Expr → Expr
  | .use var => .use (redirect var)
  | .cast toType? newType? expr => .cast (toType?.map redirect) newType? expr
  | .importModule module? => .importModule (module?.map redirect)
  | other => other

def SymbolKind.mapLinks (redirect : NodeId → NodeId) : SymbolKind → SymbolKind
  | .module block initFn? tag => .module block (initFn?.map redirect) tag
  | .fn formals body retType? whereExpr? => .fn formals body (retType?.map redirect) whereExpr?
  | other => other

def TypeKind.mapLinks (redirect : NodeId → NodeId) : TypeKind → TypeKind
  | .user typeExpr? defaultExpr? underlying? =>
    .user typeExpr? defaultExpr? (underlying?.map redirect)
  | .metatype base? => .metatype (base?.map redirect)
  | .sum components => .sum (components.map redirect)
  | .typeVariable bound? => .typeVariable (bound?.map redirect)
  | other => other

/-- Redirects every link of a node. -/
def Kind.mapLinks (redirect : NodeId → NodeId) : Kind → Kind
  | .list holds elements => .list holds elements
  | .stmt statement => .stmt (statement.mapLinks redirect)
  | .expr expression => .expr (expression.mapLinks redirect)
  | .symbol data =>
    .symbol { data with
      type? := data.type?.map redirect
      defPoint? := data.defPoint?.map redirect
      kind := data.kind.mapLinks redirect }
  | .type data =>
    .type { data with
      symbol? := data.symbol?.map redirect
      kind := data.kind.mapLinks redirect }

/-- The links of a redirected node are the redirected links. -/
theorem Kind.links_mapLinks (redirect : NodeId → NodeId) (kind : Kind) :
    (kind.mapLinks redirect).links = kind.links.map redirect := by
  have optional (id? : Option NodeId) :
      (id?.map redirect).toList = id?.toList.map redirect := by cases id? <;> rfl
  cases kind with
  | list holds elements => rfl
  | stmt data =>
    cases data <;> simp [Kind.mapLinks, Kind.links, Stmt.mapLinks, Stmt.links, optional]
  | expr data =>
    cases data <;> simp [Kind.mapLinks, Kind.links, Expr.mapLinks, Expr.links, optional]
  | symbol data =>
    obtain ⟨_, _, _, _, kind⟩ := data
    cases kind <;>
      simp [Kind.mapLinks, Kind.links, SymbolKind.mapLinks, SymbolKind.links, optional]
  | type data =>
    obtain ⟨_, kind⟩ := data
    cases kind <;> simp [Kind.mapLinks, Kind.links, TypeKind.mapLinks, TypeKind.links, optional]

end ProgramTree
