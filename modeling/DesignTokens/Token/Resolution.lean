import DesignTokens.Token.Substitute
import DesignTokens.Token.Tree
import DesignTokens.Dependency.Order

/-!
# Resolving a tree

* `Resolution` : the tokens of a tree, their resolved values, and the citations;
* `resolve tree` : the resolution. Each value has its placeholders replaced by the resolved values
  of the tokens that it cites, so cited tokens are resolved first;
* `ResolveError` : a token cites one that does not exist, or citations go around.
-/

namespace DesignTokens

inductive ResolveError where
  | dangling (token reference : String)
  | circular (cycle : List String)
  deriving DecidableEq, Repr

def ResolveError.message : ResolveError → String
  | dangling token reference =>
    "Dangling reference: '" ++ token ++ "' cites '" ++ reference ++ "', which does not exist"
  | circular cycle => "Circular reference: " ++ String.intercalate " → " cycle

/-- A resolved tree. An edge is a cited token and one that cites it. -/
structure Resolution where
  declarations : SortedMap String Declaration
  values : Values
  edges : List (String × String)

namespace Resolution

/-- Every token and an id that it cites, in the order of the tokens and of the citations. -/
def citations (decls : SortedMap String Declaration) : List (String × String) :=
  decls.values.flatMap fun d => d.refs.map fun r => (d.id, r)

/-- The first token, with the id it cites, that cites a token that does not exist. -/
def dangling? (decls : SortedMap String Declaration) : Option (String × String) :=
  (citations decls).find? fun c => !decls.contains c.2

def raws (decls : SortedMap String Declaration) : Values := decls.mapValues Declaration.raw

/-- Replaces the value of a token that cites others by its declared value with those filled in. -/
def resolveOne (decls : SortedMap String Declaration) (values : Values) (id : String) : Values :=
  match decls.get? id with
  | some d => if d.refs.isEmpty then values else values.insert id (substitute values.get? d.raw)
  | none => values

/-- Resolves the tokens in the given order. -/
def resolveAll (decls : SortedMap String Declaration) (order : List String) : Values :=
  order.foldl (resolveOne decls) (raws decls)

def raw (r : Resolution) : Values := raws r.declarations

/-- The tokens with their resolved values, in ascending order of id. -/
def tokens (r : Resolution) : List (Declaration × TokenValue) :=
  r.declarations.values.map fun d => (d, (r.values.get? d.id).getD d.raw)

def graph (r : Resolution) : DependencyGraph := .build r.declarations.keys r.edges

end Resolution

def resolve (tree : Json) : Except ResolveError Resolution :=
  let decls := declarationMap tree
  match Resolution.dangling? decls with
  | some (token, reference) => .error (.dangling token reference)
  | none =>
    let edges := (Resolution.citations decls).map fun c => (c.2, c.1)
    let graph := DependencyGraph.build decls.keys edges
    match graph.order with
    | (order, []) => .ok ⟨decls, Resolution.resolveAll decls order, edges⟩
    | (_, stuck) => .error (.circular ((graph.cycleIn? stuck).getD stuck))

end DesignTokens
