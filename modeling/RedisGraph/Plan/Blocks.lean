import RedisGraph.Plan.Walks

/-! The blocks behind the link arrays. `_OpNode_AddChild` stores at index `count` and then
resizes the block to `count + 1` elements, so an array that only ever grew keeps a spare
element and every store lands inside its block. `_OpNode_RemoveNode` resizes the block to
exactly the decremented count, and the next store lands one element past it. -/

namespace RedisGraph.Plan

namespace PtrArray

/-- The array is the empty `NULL` array, or its block has one spare element. -/
def Roomy (a : PtrArray) : Prop :=
  (a.items = [] ∧ a.capacity = 0) ∨ a.capacity = a.items.length + 1

theorem roomy_null : null.Roomy := .inl ⟨rfl, rfl⟩

theorem roomy_append (a : PtrArray) (x : Nat) : (a.append x).Roomy :=
  .inr (by simp [append])

theorem Roomy.storeFits {a : PtrArray} (roomy : a.Roomy) : a.storeFits = true := by
  rcases roomy with ⟨empty, null⟩ | spare <;> simp [PtrArray.storeFits, *]

end PtrArray

namespace Heap

def Roomy (h : Heap) : Prop :=
  ∀ i side, ((h.node i).links side).Roomy

variable {h : Heap}

theorem Roomy.newOpNode (roomy : h.Roomy) (op : OpBase) : (h.newOpNode op).2.Roomy := by
  intro i side
  by_cases fresh : i = h.count
  · cases side <;> simp [Heap.newOpNode, fresh, OpNode.fresh, PtrArray.roomy_null]
  · simpa [Heap.newOpNode, fresh] using roomy i side

theorem Roomy.store (roomy : h.Roomy) (side : Side) (i x : Nat) :
    (h.store side i x).Roomy ∧ (h.store side i x).overrun = h.overrun := by
  refine ⟨fun n other => ?_, by simp [Heap.store, (roomy i side).storeFits]⟩
  rw [links_store]
  split
  · exact PtrArray.roomy_append _ _
  · exact roomy n other

/-- On roomy arrays `_OpNode_AddChild` stores inside both blocks and leaves them roomy. -/
theorem Roomy.addChild (roomy : h.Roomy) (p c : Nat) :
    (h.addChild p c).Roomy ∧ (h.addChild p c).overrun = h.overrun := by
  obtain ⟨first, same⟩ := roomy.store .children p c
  obtain ⟨second, same'⟩ := first.store .parents c p
  exact ⟨second, same'.trans same⟩

end Heap

/-- Five pattern nodes, `a` to `e`, with edges `e -> a`, `e -> c`, `d -> a`, `c -> b`,
`a -> c`, `d -> b`: `a`, `b` and `c` have in-degree two and are merged in that order. -/
def overrunQuery : QueryExpressionNode :=
  ⟨⟨[⟨"a", none⟩, ⟨"b", none⟩, ⟨"c", none⟩, ⟨"d", none⟩, ⟨"e", none⟩],
    [⟨4, 0⟩, ⟨4, 2⟩, ⟨3, 0⟩, ⟨2, 1⟩, ⟨0, 2⟩, ⟨3, 1⟩]⟩, none, ⟨[⟨.node⟩], false⟩⟩

/-- Some `_OpNode_AddChild` of the merges stores past the block a removal shrank. -/
theorem overrunQuery_overruns :
    ∃ plan, newExecutionPlan 8 overrunQuery (overrunQuery.pattern.getNDegreeNodes 0)
      (overrunQuery.pattern.getNDegreeNodes 2) = some plan ∧ plan.heap.overrun = true :=
  ⟨_, rfl, rfl⟩

end RedisGraph.Plan
