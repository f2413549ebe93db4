import RedisGraph.Pattern.Graph
import RedisGraph.Plan.OpNode

/-! `NewExecutionPlan` (`execution_plan.c`, lines 114-417) and `OpNode_Free`. Every loop of the
source is a function with a `fuel` bound on its iterations, so a run that does not end in the
source returns `none` here for every fuel. The two enumeration orders of
`Graph_GetNDegreeNodes` are arguments. -/

namespace RedisGraph.Plan

open Pattern Filter

inductive ReturnElementType where
  | node
  | prop
  | aggFunc
deriving DecidableEq, Repr

structure ReturnElementNode where
  type : ReturnElementType
deriving DecidableEq, Repr

structure ReturnNode where
  returnElements : List ReturnElementNode
  distinct : Bool
deriving DecidableEq, Repr

structure WhereNode where
  filters : FilterNode
deriving Repr

/-- `AST_QueryExpressionNode`; `pattern` is `BuildGraph(ast->matchNode)`. -/
structure QueryExpressionNode where
  pattern : Graph
  whereNode : Option WhereNode
  returnNode : ReturnNode
deriving Repr

/-! `ReturnClause_ContainsAggregation` and the operator constructors are not in the source; they
follow the spec: a scan binds the alias of the node it scans, `ExpandAll` its destination, and
the others none. -/

def returnClauseContainsAggregation (returnNode : ReturnNode) : Bool :=
  returnNode.returnElements.any (·.type == .aggFunc)

def newProduceResultsOp : OpBase := ⟨.produceResults, []⟩

def newAggregateOp : OpBase := ⟨.aggregate, []⟩

def newAllNodeScanOp (g : Graph) (node : Nat) : OpBase := ⟨.allNodeScan node, [g.aliasOf node]⟩

def newNodeByLabelScanOp (g : Graph) (node : Nat) (label : String) : OpBase :=
  ⟨.nodeByLabelScan node label, [g.aliasOf node]⟩

def newExpandAllOp (g : Graph) (src relation dest : Nat) : OpBase :=
  ⟨.expandAll src relation dest, [g.aliasOf dest]⟩

def newExpandIntoOp (src relation dest : Nat) : OpBase := ⟨.expandInto src relation dest, []⟩

def newFilterOp (tree : FilterTree) : OpBase := ⟨.filter tree, []⟩

/-- Lines 220-226 and 364-372: a labelled node is scanned by label, any other by a full scan. -/
def newScanOp (g : Graph) (node : Nat) : OpBase :=
  match g.label node with
  | some label => newNodeByLabelScanOp g node label
  | none => newAllNodeScanOp g node

/-- Lines 340-352: follow the first outgoing edge until a node without one, creating an
`ExpandAll` per hop on the stack `reversedExpandOps` (head on top). -/
def expandWalk (g : Graph) : Nat → Nat → Heap → List Nat → Option (Heap × List Nat)
  | 0, _, _, _ => none
  | fuel + 1, srcNode, h, reversedExpandOps =>
    match g.next srcNode with
    | none => some (h, reversedExpandOps)
    | some (edge, destNode) =>
      let (op, h) := h.newOpNode (newExpandAllOp g srcNode edge destNode)
      expandWalk g fuel destNode h (op :: reversedExpandOps)

/-- Lines 380-387: pop the stack `Ops` (head on top), making each operation the parent of the
one popped before it. -/
def linkOps (h : Heap) (prevOp : Nat) : List Nat → Heap
  | [] => h
  | currentOp :: rest => linkOps (h.addChild currentOp prevOp) currentOp rest

/-- Lines 332-374: the expansions of the walk from `node` pushed on the stack `Ops` (head on
top), or a scan when `node` has no outgoing edge. -/
def pushEntryOps (g : Graph) (fuel node : Nat) (h : Heap) (ops : List Nat) :
    Option (Heap × List Nat) :=
  if g.outgoingEdges node ≠ [] then
    -- lines 355-359: moving every expansion onto `Ops` reverses the order of the stack
    (expandWalk g fuel node h []).map fun walked => (walked.1, walked.2.reverseAux ops)
  else
    let (scan, h) := h.newOpNode (newScanOp g node)
    some (h, scan :: ops)

/-- Lines 377-391: with more than one operation on `Ops`, link them into a chain and leave only
the root on it. -/
def consumeOps (h : Heap) (root : Nat) : List Nat → Heap × List Nat
  | prevOp :: rest@(_ :: _) => (linkOps h prevOp rest, [root])
  | ops => (h, ops)

/-- One iteration of the entry-node loop, lines 328-391. -/
def addEntryNode (g : Graph) (fuel root node : Nat) (h : Heap) (ops : List Nat) :
    Option (Heap × List Nat) :=
  (pushEntryOps g fuel node h ops).map fun pushed => consumeOps pushed.1 root pushed.2

/-- Lines 232-234: visit `children[i]` for `i < childCount`, both re-read after every visit. -/
def forEachChild (visit : Nat → Heap → Option Heap) (root : Nat) : Nat → Nat → Heap → Option Heap
  | 0, _, _ => none
  | fuel + 1, i, h =>
    match (h.node root).children.items[i]? with
    | none => some h
    | some child => (visit child h).bind (forEachChild visit root fuel (i + 1))

/-- `_ExecutionPlan_OptimizeEntryPoints`: a childless `ExpandAll` gets a scan of its source. -/
def optimizeEntryPoints (g : Graph) : Nat → Nat → Heap → Option Heap
  | 0, _, _ => none
  | fuel + 1, root, h =>
    match (h.node root).children.items, (h.node root).operation.type with
    | [], .expandAll src _ _ =>
      let (scan, h) := h.newOpNode (newScanOp g src)
      some (h.addChild root scan)
    | _, _ => forEachChild (optimizeEntryPoints g fuel) root fuel 0 h

/-- Lines 139-142: `current` is an `ExpandAll` whose destination is `n`. -/
def expandsInto (op : OpBase) (n : Nat) : Bool :=
  match op.type with
  | .expandAll _ _ dest => dest == n
  | _ => false

/-- Lines 137-156: the search from the stack `nodesToVisit` (head on top), with no visited set,
for the first two `ExpandAll` operations into `n`; a found one's children are not pushed. -/
def locateExpands (h : Heap) (n : Nat) :
    Nat → List Nat → Option Nat → Option (Option Nat × Option Nat)
  | 0, _, _ => none
  | _ + 1, [], a => some (a, none)
  | fuel + 1, current :: nodesToVisit, a =>
    if expandsInto (h.node current).operation n then
      match a with
      | none => locateExpands h n fuel nodesToVisit (some current)
      | some a => some (some a, some current)
    else locateExpands h n fuel ((h.node current).children.items.reverse ++ nodesToVisit) a

/-- Lines 180-192: every parent of `b` other than `expandInto` gets `expandInto` as a child,
unless it has it, and loses `b`; `b->parents[i]` and `b->parentCount` are re-read each time. -/
def inheritParents (expandInto b : Nat) : Nat → Nat → Heap → Option Heap
  | 0, _, _ => none
  | fuel + 1, i, h =>
    match (h.node b).parents.items[i]? with
    | none => some h
    | some bParent =>
      if bParent = expandInto then inheritParents expandInto b fuel (i + 1) h
      else
        let h := if h.containsChild bParent expandInto then h else h.addChild bParent expandInto
        inheritParents expandInto b fuel (i + 1) (h.removeChild bParent b)

/-- `_ExecutionPlan_MergeNodes`: for a node `n` of in-degree two, the first `ExpandAll` into `n`
found becomes an `ExpandInto` over the second, which it takes from the second's parents. -/
def mergeNodes (g : Graph) (fuel root : Nat) (h : Heap) (n : Nat) : Option Heap :=
  if g.inDegree n ≠ 2 then some h
  else
    match locateExpands h n fuel [root] none with
    | none => none
    | some (some a, some b) =>
      match (h.node a).operation.type with
      | .expandAll src relation dest =>
        inheritParents a b fuel 0
          ((h.setOperation a (newExpandIntoOp src relation dest)).addChild a b)
      | _ => some h
    | some _ => some h

/-- What `_ExecutionPlan_AddFilters` returns: the `seen` vector or `NULL`, and the state. -/
abbrev FilterResult := Option (Option (List String) × Heap × FilterTree)

/-- Lines 251-271: visit `children[i]` for `i` from `childCount - 1` down to `0`, collecting
what each saw, and return `NULL` as soon as the filter tree is empty. -/
def addFiltersChildren (visit : Nat → Heap → FilterTree → FilterResult) (root : Nat) :
    Nat → List String → Heap → FilterTree → FilterResult
  | 0, seen, h, tree => some (some seen, h, tree)
  | i + 1, seen, h, tree =>
    match (h.node root).children.items[i]? with
    | none => none
    | some child =>
      match visit child h tree with
      | none => none
      | some (saw, h, tree) =>
        if tree.predicates = [] then some (none, h, tree)
        else addFiltersChildren visit root i (seen ++ saw.getD []) h tree

/-- `_ExecutionPlan_AddFilters`: after the children, the predicates bound by what they saw go
into a new `Filter` pushed between `root` and its children. -/
def addFilters : Nat → Nat → Heap → FilterTree → FilterResult
  | 0, _, _, _ => none
  | fuel + 1, root, h, tree =>
    match addFiltersChildren (addFilters fuel) root (h.node root).children.items.length [] h tree with
    | some (some seen, h, tree) =>
      if tree.containsNode seen then
        let (nodeFilter, h) := h.newOpNode (newFilterOp (tree.minFilterTree seen))
        (Heap.pushInBetween root nodeFilter fuel h).map fun h =>
          (some (seen ++ (h.node root).operation.modifies), h, tree.removePredNodes seen)
      else some (some (seen ++ (h.node root).operation.modifies), h, tree)
    | other => other

structure ExecutionPlan where
  heap : Heap
  root : Nat
  filterTree : Option FilterTree

/-- `NewExecutionPlan`, with `entryNodes` and `nodesToMerge` the lists
`Graph_GetNDegreeNodes` returns for in-degrees 0 and 2. -/
def newExecutionPlan (fuel : Nat) (ast : QueryExpressionNode) (entryNodes nodesToMerge : List Nat) :
    Option ExecutionPlan := do
  let g := ast.pattern
  let (root, h) := Heap.empty.newOpNode newProduceResultsOp
  let (h, ops) :=
    if returnClauseContainsAggregation ast.returnNode then
      let (opAggregate, h) := h.newOpNode newAggregateOp
      (h, [opAggregate, root])
    else (h, [root])
  let (h, _) ← entryNodes.foldlM (fun state node => addEntryNode g fuel root node state.1 state.2)
    (h, ops)
  let h ← optimizeEntryPoints g fuel root h
  let h ← nodesToMerge.foldlM (mergeNodes g fuel root) h
  match ast.whereNode with
  | none => pure ⟨h, root, none⟩
  | some whereNode =>
    let (_, h, tree) ← addFilters fuel root h (buildFiltersTree whereNode.filters)
    pure ⟨h, root, some tree⟩

/-- `OpNode_Free`: the operators freed, in post-order over `children`. A free is only logged and
the operator stays readable, so the log follows C up to the first operator freed twice. -/
def opNodeFree (h : Heap) : Nat → Nat → Option (List Nat)
  | 0, _ => none
  | fuel + 1, op => do
    let freed ← (h.node op).children.items.mapM (opNodeFree h fuel)
    pure (freed.flatten ++ [op])

end RedisGraph.Plan
