import RedisGraph.Filter.Tree

/-! Operator nodes and the primitives that wire them (`execution_plan.c`, lines 20-112). Nodes
live in a `Heap` indexed by allocation order, so a pointer is a `Nat`. Each `children`/`parents`
array keeps, beside its elements, the element count of the block it was last given by `malloc`
or `realloc`, and the heap records whether a store ever landed outside its block. -/

namespace RedisGraph.Plan

open Filter

/-- The operator variants the plan builder creates (`OPType_*`), with the pattern references
they hold: node ids and edge ids of the pattern graph. -/
inductive OpType where
  | produceResults
  | aggregate
  | allNodeScan (node : Nat)
  | nodeByLabelScan (node : Nat) (label : String)
  | expandAll (src relation dest : Nat)
  | expandInto (src relation dest : Nat)
  | filter (tree : FilterTree)
deriving DecidableEq, Repr

/-- `OpBase`: the operator and its `modifies` vector. -/
structure OpBase where
  type : OpType
  modifies : List String
deriving DecidableEq, Repr

/-- An `OpNode **` array: the stored pointers and the element count of the block `malloc` or
`realloc` last gave it; `0` is `NULL`, as `realloc` to zero elements frees the block. -/
structure PtrArray where
  items : List Nat
  capacity : Nat
deriving DecidableEq, Repr

namespace PtrArray

def null : PtrArray := ⟨[], 0⟩

/-- Lines 45-51: a `NULL` array gets a one-element block, the pointer is stored at index `count`,
and the block is resized to `count + 1`. -/
def append (a : PtrArray) (x : Nat) : PtrArray :=
  ⟨a.items ++ [x], a.items.length + 2⟩

/-- Whether the store at index `count` of `append` lands inside the block. -/
def storeFits (a : PtrArray) : Bool :=
  a.items.length < if a.capacity = 0 then 1 else a.capacity

/-- Lines 67-78: the first occurrence of `x` is shifted out and the block is resized to the
decremented count. -/
def remove (a : PtrArray) (x : Nat) : PtrArray :=
  if x ∈ a.items then ⟨a.items.erase x, a.items.length - 1⟩ else a

@[simp] theorem items_append (a : PtrArray) (x : Nat) : (a.append x).items = a.items ++ [x] := rfl

@[simp] theorem items_remove (a : PtrArray) (x : Nat) : (a.remove x).items = a.items.erase x := by
  unfold remove
  split
  · rfl
  · exact (List.erase_of_not_mem ‹_›).symm

theorem storeFits_append (a : PtrArray) (x : Nat) : (a.append x).storeFits = true := by
  simp [storeFits, append]

end PtrArray

inductive StreamState where
  | unInitialized
  | consuming
deriving DecidableEq, Repr

structure OpNode where
  operation : OpBase
  children : PtrArray
  parents : PtrArray
  state : StreamState
deriving DecidableEq, Repr

/-- `NewOpNode`. -/
def OpNode.fresh (op : OpBase) : OpNode :=
  ⟨op, PtrArray.null, PtrArray.null, .unInitialized⟩

/-- The two link arrays of a node, which every primitive treats alike. -/
inductive Side where
  | children
  | parents
deriving DecidableEq, Repr

namespace OpNode

def links (n : OpNode) : Side → PtrArray
  | .children => n.children
  | .parents => n.parents

def setLinks (n : OpNode) : Side → PtrArray → OpNode
  | .children, a => { n with children := a }
  | .parents, a => { n with parents := a }

@[simp] theorem links_children (n : OpNode) : n.links .children = n.children := rfl
@[simp] theorem links_parents (n : OpNode) : n.links .parents = n.parents := rfl

@[simp] theorem links_setLinks (n : OpNode) (side other : Side) (a : PtrArray) :
    (n.setLinks side a).links other = if other = side then a else n.links other := by
  cases side <;> cases other <;> rfl

@[simp] theorem operation_setLinks (n : OpNode) (side : Side) (a : PtrArray) :
    (n.setLinks side a).operation = n.operation := by
  cases side <;> rfl

end OpNode

/-- The operator nodes allocated so far; `node i` for `i ≥ count` is not yet allocated. -/
structure Heap where
  node : Nat → OpNode
  count : Nat
  overrun : Bool

namespace Heap

def empty : Heap :=
  ⟨fun _ => OpNode.fresh ⟨.produceResults, []⟩, 0, false⟩

def update (h : Heap) (i : Nat) (f : OpNode → OpNode) : Heap :=
  { h with node := fun j => if j = i then f (h.node i) else h.node j }

/-- `NewOpNode(op)`: the new node's pointer and the heap holding it. -/
def newOpNode (h : Heap) (op : OpBase) : Nat × Heap :=
  (h.count, { h with node := fun j => if j = h.count then OpNode.fresh op else h.node j,
                     count := h.count + 1 })

def store (h : Heap) (side : Side) (i x : Nat) : Heap :=
  { h.update i (fun n => n.setLinks side ((n.links side).append x)) with
    overrun := h.overrun || !((h.node i).links side).storeFits }

def unlink (h : Heap) (side : Side) (i x : Nat) : Heap :=
  h.update i fun n => n.setLinks side ((n.links side).remove x)

def addChild (h : Heap) (parent child : Nat) : Heap :=
  (h.store .children parent child).store .parents child parent

/-- `_OpNode_RemoveNode(a, b)`: `b` leaves `a->children`, `a` leaves `b->parents`. -/
def removeNode (h : Heap) (a b : Nat) : Heap :=
  (h.unlink .children a b).unlink .parents b a

def removeChild (h : Heap) (parent child : Nat) : Heap :=
  h.removeNode parent child

def removeParent (h : Heap) (child parent : Nat) : Heap :=
  h.removeNode parent child

def containsChild (h : Heap) (parent child : Nat) : Bool :=
  child ∈ (h.node parent).children.items

/-- `node->operation = op`. -/
def setOperation (h : Heap) (i : Nat) (op : OpBase) : Heap :=
  h.update i fun n => { n with operation := op }

/-- `_OpNode_PushInBetween(parent, onlyChild)`: lines 106-109 move the children of `parent` under
`onlyChild`, which never ends when `onlyChild` is `parent`; then line 111 links the two. -/
def pushInBetween (parent onlyChild : Nat) : Nat → Heap → Option Heap
  | 0, _ => none
  | fuel + 1, h =>
    match (h.node parent).children.items with
    | [] => some (h.addChild parent onlyChild)
    | first :: _ =>
      let h := h.addChild onlyChild first
      pushInBetween parent onlyChild fuel
        (h.removeChild parent ((h.node parent).children.items.headD first))

@[simp] theorem count_store (h : Heap) (side : Side) (i x : Nat) :
    (h.store side i x).count = h.count := rfl

@[simp] theorem count_unlink (h : Heap) (side : Side) (i x : Nat) :
    (h.unlink side i x).count = h.count := rfl

@[simp] theorem count_addChild (h : Heap) (p c : Nat) : (h.addChild p c).count = h.count := rfl

@[simp] theorem count_removeNode (h : Heap) (a b : Nat) : (h.removeNode a b).count = h.count :=
  rfl

@[simp] theorem count_setOperation (h : Heap) (i : Nat) (op : OpBase) :
    (h.setOperation i op).count = h.count := rfl

theorem links_store (h : Heap) (side other : Side) (i x n : Nat) :
    ((h.store side i x).node n).links other =
      if n = i ∧ other = side then ((h.node n).links side).append x
      else (h.node n).links other := by
  by_cases same : n = i <;> simp [store, update, same]

theorem links_unlink (h : Heap) (side other : Side) (i x n : Nat) :
    ((h.unlink side i x).node n).links other =
      if n = i ∧ other = side then ((h.node n).links side).remove x
      else (h.node n).links other := by
  by_cases same : n = i <;> simp [unlink, update, same]

@[simp] theorem operation_store (h : Heap) (side : Side) (i x n : Nat) :
    ((h.store side i x).node n).operation = (h.node n).operation := by
  by_cases same : n = i <;> simp [store, update, same]

@[simp] theorem operation_unlink (h : Heap) (side : Side) (i x n : Nat) :
    ((h.unlink side i x).node n).operation = (h.node n).operation := by
  by_cases same : n = i <;> simp [unlink, update, same]

@[simp] theorem children_addChild (h : Heap) (p c n : Nat) :
    ((h.addChild p c).node n).children.items =
      if n = p then (h.node n).children.items ++ [c] else (h.node n).children.items := by
  have first := links_store h .children .children p c n
  have second := links_store (h.store .children p c) .parents .children c p n
  simp only [OpNode.links_children, and_true, reduceCtorEq, and_false, ite_false] at first second
  rw [addChild, second, first]
  split <;> rfl

@[simp] theorem parents_addChild (h : Heap) (p c n : Nat) :
    ((h.addChild p c).node n).parents.items =
      if n = c then (h.node n).parents.items ++ [p] else (h.node n).parents.items := by
  have first := links_store h .children .parents p c n
  have second := links_store (h.store .children p c) .parents .parents c p n
  simp only [OpNode.links_parents, and_true, reduceCtorEq, and_false, ite_false] at first second
  rw [addChild, second, first]
  split <;> rfl

@[simp] theorem children_removeNode (h : Heap) (a b n : Nat) :
    ((h.removeNode a b).node n).children.items =
      if n = a then (h.node n).children.items.erase b else (h.node n).children.items := by
  have first := links_unlink h .children .children a b n
  have second := links_unlink (h.unlink .children a b) .parents .children b a n
  simp only [OpNode.links_children, and_true, reduceCtorEq, and_false, ite_false] at first second
  rw [removeNode, second, first]
  split <;> simp

@[simp] theorem parents_removeNode (h : Heap) (a b n : Nat) :
    ((h.removeNode a b).node n).parents.items =
      if n = b then (h.node n).parents.items.erase a else (h.node n).parents.items := by
  have first := links_unlink h .children .parents a b n
  have second := links_unlink (h.unlink .children a b) .parents .parents b a n
  simp only [OpNode.links_parents, and_true, reduceCtorEq, and_false, ite_false] at first second
  rw [removeNode, second, first]
  split <;> simp

@[simp] theorem operation_addChild (h : Heap) (p c n : Nat) :
    ((h.addChild p c).node n).operation = (h.node n).operation := by
  simp [addChild]

@[simp] theorem operation_removeNode (h : Heap) (a b n : Nat) :
    ((h.removeNode a b).node n).operation = (h.node n).operation := by
  simp [removeNode]

end Heap

end RedisGraph.Plan
