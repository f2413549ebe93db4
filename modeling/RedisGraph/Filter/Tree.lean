import Mathlib.Data.List.Perm.Basic

/-! The WHERE clause: the AST filter nodes of `ast.h` and the three operations the plan builder
asks of the filter module, given by their contracts over the tree's predicates and the aliases
each predicate references. -/

namespace RedisGraph.Filter

/-- `AST_CompareValueType` with its payload: a constant, or another entity's property. -/
inductive CompareValue where
  | constant (value : Int)
  | varying («alias» property : String)
deriving DecidableEq, Repr

/-- `AST_PredicateNode`: `alias.property op value`. -/
structure PredicateNode where
  «alias» : String
  property : String
  op : Nat
  value : CompareValue
deriving DecidableEq, Repr

/-- `AST_FilterNode`: a predicate, or a condition joining two filter nodes. -/
inductive FilterNode where
  | pred (pn : PredicateNode)
  | cond (left : FilterNode) (op : Nat) (right : FilterNode)
deriving Repr

/-- The aliases a predicate references: its own, and the compared entity's for `N_VARYING`. -/
def PredicateNode.aliases (p : PredicateNode) : List String :=
  p.alias :: match p.value with
    | .varying other _ => [other]
    | .constant _ => []

theorem PredicateNode.alias_mem_aliases (p : PredicateNode) : p.alias ∈ p.aliases :=
  List.mem_cons_self _ _

/-- `FT_FilterNode` as its contracts see it: the predicates of the tree; no predicates is the
`NULL` tree. -/
structure FilterTree where
  predicates : List PredicateNode
deriving DecidableEq, Repr

def PredicateNode.boundBy (p : PredicateNode) (aliases : List String) : Bool :=
  p.aliases.all (· ∈ aliases)

/-! `BuildFiltersTree` and the three operations below are not in the source; they follow the spec. -/

def buildFiltersTree : FilterNode → FilterTree
  | .pred pn => ⟨[pn]⟩
  | .cond left _ right => ⟨(buildFiltersTree left).predicates ++ (buildFiltersTree right).predicates⟩

namespace FilterTree

variable (tree : FilterTree) (aliases : List String)

/-- `FilterTree_ContainsNode`: whether the tree references at least one of `aliases`. -/
def containsNode : Bool :=
  tree.predicates.any fun p => p.aliases.any (· ∈ aliases)

/-- `FilterTree_MinFilterTree`: the predicates all of whose aliases are in `aliases`. -/
def minFilterTree : FilterTree :=
  ⟨tree.predicates.filter (·.boundBy aliases)⟩

def removePredNodes : FilterTree :=
  ⟨tree.predicates.filter fun p => !p.boundBy aliases⟩

/-- Extraction and removal split the tree: no predicate is lost or duplicated. -/
theorem minFilterTree_append_removePredNodes :
    ((tree.minFilterTree aliases).predicates ++ (tree.removePredNodes aliases).predicates).Perm
      tree.predicates :=
  List.filter_append_perm _ _

theorem boundBy_of_mem_minFilterTree {p : PredicateNode}
    (member : p ∈ (tree.minFilterTree aliases).predicates) : p.boundBy aliases = true :=
  (List.mem_filter.mp member).2

theorem containsNode_of_boundBy {p : PredicateNode} (member : p ∈ tree.predicates)
    (bound : p.boundBy aliases = true) : tree.containsNode aliases = true :=
  List.any_eq_true.mpr ⟨p, member, List.any_eq_true.mpr
    ⟨p.alias, p.alias_mem_aliases, List.all_eq_true.mp bound _ p.alias_mem_aliases⟩⟩

end FilterTree

end RedisGraph.Filter
