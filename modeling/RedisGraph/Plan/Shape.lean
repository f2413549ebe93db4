import RedisGraph.Plan.Walks

/-! The shape of a plan under `children`: which operators the root reaches, and how often
`OpNode_Free`'s post-order traversal meets each of them. The traversal frees exactly the
operators the root reaches, once per path, so a shared operator is freed twice and an
unreached one never. -/

namespace RedisGraph.Plan

namespace Heap

/-- `b` is reached from `a` along `children` links. -/
inductive Reaches (h : Heap) : Nat → Nat → Prop where
  | refl (a : Nat) : Reaches h a a
  | child {a c b : Nat} (member : c ∈ (h.node a).children.items) (rest : Reaches h c b) :
      Reaches h a b

theorem reaches_iff {h : Heap} {a b : Nat} :
    h.Reaches a b ↔ b = a ∨ ∃ c ∈ (h.node a).children.items, h.Reaches c b := by
  constructor
  · intro reaches
    cases reaches with
    | refl => exact .inl rfl
    | child member rest => exact .inr ⟨_, member, rest⟩
  · rintro (rfl | ⟨c, member, rest⟩)
    · exact .refl b
    · exact .child member rest

theorem Reaches.trans {h : Heap} {a b c : Nat} (first : h.Reaches a b) (second : h.Reaches b c) :
    h.Reaches a c := by
  induction first with
  | refl => exact second
  | child member _ ih => exact .child member (ih second)

theorem Reaches.tail {h : Heap} {a b c : Nat} (reaches : h.Reaches a b)
    (member : c ∈ (h.node b).children.items) : h.Reaches a c :=
  reaches.trans (.child member (.refl c))

theorem Reaches.lt_count {h : Heap} {a b : Nat} (closed : h.Closed) (reaches : h.Reaches a b)
    (made : a < h.count) : b < h.count := by
  induction reaches with
  | refl => exact made
  | child member _ ih => exact ih ((closed _).1 _ member)

theorem Reaches.mem_of_closed {h : Heap} {S : List Nat} {a b : Nat}
    (closed : ∀ x ∈ S, ∀ c ∈ (h.node x).children.items, c ∈ S) (reaches : h.Reaches a b)
    (start : a ∈ S) : b ∈ S := by
  induction reaches with
  | refl => exact start
  | child member _ ih => exact ih (closed _ start _ member)

/-- No `children` link leads back to a node that reaches its source. -/
def Acyclic (h : Heap) : Prop :=
  ∀ a b, b ∈ (h.node a).children.items → ¬ h.Reaches b a

theorem acyclic_of_rank {h : Heap} (wf : h.WellFormed) (rank : Nat → Nat)
    (lower : ∀ a < h.count, ∀ b ∈ (h.node a).children.items, rank b < rank a) : h.Acyclic := by
  have climbs {a b : Nat} (reaches : h.Reaches a b) : rank b ≤ rank a := by
    induction reaches with
    | refl => exact le_rfl
    | child member _ ih => exact ih.trans (lower _ (wf.lt_count_of_mem_children member) _ member).le
  exact fun a b member back =>
    Nat.lt_irrefl _ ((lower a (wf.lt_count_of_mem_children member) b member).trans_le (climbs back))

end Heap

variable {h : Heap}

private theorem mem_flatten_of_mapM {f : Nat → Option (List Nat)} {l : List Nat}
    {freed : List (List Nat)} {x : Nat} (mapped : l.mapM f = some freed) :
    x ∈ freed.flatten ↔ ∃ a ∈ l, ∃ y, f a = some y ∧ x ∈ y := by
  induction l generalizing freed with
  | nil =>
    cases mapped
    simp
  | cons a l ih =>
    simp only [List.mapM_cons, bind, Option.bind_eq_some, pure, Option.some.injEq] at mapped
    obtain ⟨y, first, ys, rest, rfl⟩ := mapped
    simp only [List.flatten_cons, List.mem_append, ih rest, List.mem_cons, exists_eq_or_imp,
      first, Option.some.injEq, exists_eq_left']

private theorem exists_of_mapM {f : Nat → Option (List Nat)} {l : List Nat}
    {freed : List (List Nat)} {a : Nat} (mapped : l.mapM f = some freed) (member : a ∈ l) :
    ∃ y, f a = some y := by
  induction l generalizing freed with
  | nil => cases member
  | cons b l ih =>
    simp only [List.mapM_cons, bind, Option.bind_eq_some, pure, Option.some.injEq] at mapped
    obtain ⟨y, first, ys, rest, rfl⟩ := mapped
    rcases List.mem_cons.mp member with rfl | member
    · exact ⟨y, first⟩
    · exact ih rest member

theorem mem_opNodeFree_iff {fuel op x : Nat} {freed : List Nat}
    (frees : opNodeFree h fuel op = some freed) : x ∈ freed ↔ h.Reaches op x := by
  induction fuel generalizing op freed with
  | zero => cases frees
  | succ fuel ih =>
    simp only [opNodeFree, bind, Option.bind_eq_some, pure, Option.some.injEq] at frees
    obtain ⟨ys, mapped, rfl⟩ := frees
    rw [List.mem_append, mem_flatten_of_mapM mapped, Heap.reaches_iff, List.mem_singleton]
    constructor
    · rintro (⟨c, member, y, frees, found⟩ | rfl)
      · exact .inr ⟨c, member, (ih frees).mp found⟩
      · exact .inl rfl
    · rintro (rfl | ⟨c, member, reaches⟩)
      · exact .inr rfl
      · obtain ⟨y, frees⟩ := exists_of_mapM mapped member
        exact .inl ⟨c, member, y, frees, (ih frees).mpr reaches⟩

/-- `a -> b <- c` with an aggregation in RETURN: `b` has in-degree two. -/
def sharedQuery : QueryExpressionNode :=
  ⟨⟨[⟨"a", none⟩, ⟨"b", none⟩, ⟨"c", none⟩], [⟨0, 1⟩, ⟨2, 1⟩]⟩, none, ⟨[⟨.aggFunc⟩], false⟩⟩

/-- The `ExpandInto` made by the merge keeps two parents, the root and the aggregate, so
`OpNode_Free` frees it and its subtree twice. -/
theorem sharedQuery_expandInto_freed_twice :
    ∃ plan, newExecutionPlan 8 sharedQuery (sharedQuery.pattern.getNDegreeNodes 0)
      (sharedQuery.pattern.getNDegreeNodes 2) = some plan ∧
      (plan.heap.node 3).operation.type = .expandInto 2 1 1 ∧
      (plan.heap.node 3).parents.items = [0, 1] ∧
      opNodeFree plan.heap 8 plan.root = some [5, 4, 2, 3, 1, 5, 4, 2, 3, 0] :=
  ⟨_, rfl, rfl, rfl, rfl⟩

/-- `b -> c`, `b -> d`, `d -> c`, `a -> d` with an aggregation in RETURN: `c` and `d` have
in-degree two, and the second merge finds the same `ExpandAll` into `d` twice. -/
def leafQuery : QueryExpressionNode :=
  ⟨⟨[⟨"a", none⟩, ⟨"b", none⟩, ⟨"c", none⟩, ⟨"d", none⟩], [⟨1, 2⟩, ⟨1, 3⟩, ⟨3, 2⟩, ⟨0, 3⟩]⟩,
    none, ⟨[⟨.aggFunc⟩], false⟩⟩

theorem leafQuery_childless_expandAll :
    ∃ plan, newExecutionPlan 12 leafQuery (leafQuery.pattern.getNDegreeNodes 0)
      (leafQuery.pattern.getNDegreeNodes 2) = some plan ∧ plan.heap.Reaches plan.root 3 ∧
      (plan.heap.node 3).operation.type = .expandAll 3 2 2 ∧
      (plan.heap.node 3).children.items = [] := by
  refine ⟨_, rfl, .child (c := 4) (by decide) (.child (by decide) (.refl 3)), rfl, rfl⟩

/-- `a -> b` and `c -> d`, two separate chains, with an aggregation in RETURN. -/
def twoChainQuery : QueryExpressionNode :=
  ⟨⟨[⟨"a", none⟩, ⟨"b", none⟩, ⟨"c", none⟩, ⟨"d", none⟩], [⟨0, 1⟩, ⟨2, 3⟩]⟩, none,
    ⟨[⟨.aggFunc⟩], false⟩⟩

/-- After the chain of the first entry node `a`, line 389 leaves only the root on `Ops`, so the
chain of `c` is linked under the root beside the `Aggregate`, which never sees its matches. -/
theorem twoChainQuery_expand_bypasses_aggregate :
    ∃ plan, newExecutionPlan 8 twoChainQuery (twoChainQuery.pattern.getNDegreeNodes 0)
      (twoChainQuery.pattern.getNDegreeNodes 2) = some plan ∧
      (plan.heap.node 1).operation = newAggregateOp ∧ plan.heap.Reaches plan.root 1 ∧
      (plan.heap.node 3).operation.type = .expandAll 2 1 3 ∧ plan.heap.Reaches plan.root 3 ∧
      ¬ plan.heap.Reaches 1 3 :=
  ⟨_, rfl, rfl, .child (by decide) (.refl 1), rfl, .child (by decide) (.refl 3),
    fun reaches => absurd (reaches.mem_of_closed (S := [1, 2, 4]) (by decide) (by decide))
      (by decide)⟩

end RedisGraph.Plan
