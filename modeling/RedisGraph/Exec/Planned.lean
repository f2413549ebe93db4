import RedisGraph.Exec.Termination
import RedisGraph.Plan.SelfLinks

/-! `ExecutionPlan_Execute` (lines 513-518) and `ExecutionPlanFree` (lines 531-538) on the plans
`NewExecutionPlan` returns. When no node to merge has in-degree two, the planner merges nothing,
every operator keeps at most one parent, and the root reaches no cycle: the operators under the
root form a tree, the pull executor ends on it for every operator behaviour that `Ranked` bounds,
and `OpNode_Free` frees each operator once. -/

namespace RedisGraph.Exec

open Plan

section Tree

variable {h : Heap}

theorem reaches_of_mem_streamNodes {depth n m : Nat}
    (member : m ∈ streamNodes (fun n => (h.node n).children.items) depth n) : h.Reaches n m := by
  induction depth generalizing n with
  | zero => cases member
  | succ depth ih =>
    simp only [streamNodes, List.mem_append, List.mem_flatMap, List.mem_reverse,
      List.mem_singleton] at member
    rcases member with ⟨c, kid, below⟩ | rfl
    · exact .child kid (ih below)
    · exact .refl _

open Classical in
theorem bounded_of_not_reachesCycle (wf : h.WellFormed) {depth n : Nat}
    (noCycle : ¬ h.ReachesCycle n) (made : n < h.count)
    (enough : ((Finset.range h.count).filter (h.Reaches n ·)).card < depth) :
    bounded (fun n => (h.node n).children.items) depth n = true := by
  induction depth generalizing n with
  | zero => omega
  | succ depth ih =>
    rw [bounded, List.all_eq_true]
    exact fun c member => ih (fun cycle => noCycle (cycle.of_child member))
      ((wf.closed n).1 c member)
      (by have := card_reaches_lt_of_not_reachesCycle noCycle made member; omega)

theorem streamNodes_nodup (wf : h.WellFormed) (single : ∀ x, h.OneParent x) {depth n : Nat}
    (noCycle : ¬ h.ReachesCycle n) :
    (streamNodes (fun n => (h.node n).children.items) depth n).Nodup := by
  induction depth generalizing n with
  | zero => exact List.nodup_nil
  | succ depth ih =>
    rw [streamNodes, List.nodup_append]
    refine ⟨List.nodup_flatMap.mpr ⟨fun c member => ih fun cycle =>
        noCycle (cycle.of_child (List.mem_reverse.mp member)), ?_⟩, List.nodup_singleton n, ?_⟩
    · refine (List.nodup_reverse.mpr (Heap.children_nodup wf single n)).pairwise_of_forall_ne
        fun c kid c' kid' other m below below' => ?_
      rw [List.mem_reverse] at kid kid'
      rcases Heap.reaches_parent_of_common wf single kid kid' other
        (reaches_of_mem_streamNodes below) (reaches_of_mem_streamNodes below') with back | back
      · exact noCycle ⟨n, c, .refl n, kid, back⟩
      · exact noCycle ⟨n, c', .refl n, kid', back⟩
    · intro m below atRoot
      obtain ⟨c, kid, below⟩ := List.mem_flatMap.mp below
      rw [List.mem_singleton.mp atRoot] at below
      exact noCycle ⟨n, c, .refl n, List.mem_reverse.mp kid, reaches_of_mem_streamNodes below⟩

theorem flatten_perm_of_mapM {f : Nat → Option (List Nat)} {g : Nat → List Nat} {l : List Nat}
    {lists : List (List Nat)} (related : ∀ a ∈ l, ∀ r, f a = some r → r.Perm (g a))
    (mapped : l.mapM f = some lists) : lists.flatten.Perm (l.flatMap g) := by
  induction l generalizing lists with
  | nil =>
    cases mapped
    exact List.Perm.refl _
  | cons a l ih =>
    simp only [List.mapM_cons, bind, Option.bind_eq_some, pure, Option.some.injEq] at mapped
    obtain ⟨r, first, rs, rest, rfl⟩ := mapped
    exact (related a (List.mem_cons_self a l) r first).append
      (ih (fun b member => related b (List.mem_cons_of_mem a member)) rest)

theorem opNodeFree_perm {fuel op : Nat} {freed : List Nat}
    (frees : opNodeFree h fuel op = some freed) :
    freed.Perm (streamNodes (fun n => (h.node n).children.items) fuel op) := by
  induction fuel generalizing op freed with
  | zero => cases frees
  | succ fuel ih =>
    simp only [opNodeFree, bind, Option.bind_eq_some, pure, Option.some.injEq] at frees
    obtain ⟨lists, mapped, rfl⟩ := frees
    exact ((flatten_perm_of_mapM (fun _ _ _ frees => ih frees) mapped).trans
      (List.Perm.flatMap_right _ (List.reverse_perm _).symm)).append_right [op]

open Classical in
/-- A well-formed heap whose operators have at most one parent each is a tree under every node
that reaches no cycle. -/
theorem isTree_of_oneParent (wf : h.WellFormed) (single : ∀ x, h.OneParent x) {root : Nat}
    (noCycle : ¬ h.ReachesCycle root) (made : root < h.count) :
    IsTree (fun n => (h.node n).children.items) (h.count + 1) root :=
  ⟨bounded_of_not_reachesCycle wf noCycle made
      (Nat.lt_succ_of_le ((Finset.card_filter_le _ _).trans (Finset.card_range _).le)),
    streamNodes_nodup wf single noCycle⟩

end Tree

/-- Without a merge the operators under the root of a plan `NewExecutionPlan` returns form a tree,
so `_ExecuteOpNode(root)` and `ExecutionPlan_Execute` end for every behaviour `Ranked` bounds. -/
theorem newExecutionPlan_execute_terminates {fuel : Nat} {ast : QueryExpressionNode}
    {entryNodes nodesToMerge : List Nat} {plan : ExecutionPlan}
    (planned : newExecutionPlan fuel ast entryNodes nodesToMerge = some plan)
    (distinct : nodesToMerge.Nodup)
    (unmerging : ∀ n ∈ nodesToMerge, ast.pattern.inDegree n ≠ 2) :
    (∀ x, plan.heap.OneParent x) ∧
    IsTree (fun n => (plan.heap.node n).children.items) (plan.heap.count + 1) plan.root ∧
      ∀ {W : Type} (ops : Operators W) (rank : Nat → W → Nat), Ranked ops rank →
        ∀ s : Pipeline W,
          (∃ fuel r, executeOpNode ops (fun n => (plan.heap.node n).children.items) fuel
            plan.root s = some r) ∧
          ∃ fuel, (executionPlanExecute ops (fun n => (plan.heap.node n).children.items) plan.root
            fuel s).isSome := by
  have shape := newExecutionPlan_shape planned distinct
  have tree := isTree_of_oneParent shape.apart.wellFormed (shape.single unmerging)
    shape.apart.not_reachesCycle shape.apart.rootMade
  refine ⟨shape.single unmerging, tree, fun ops rank ranked s => ?_⟩
  obtain ⟨f, r, runs⟩ := (stream_settles ranked tree).1 s
  obtain ⟨f', s', ends⟩ := executionPlanExecute_settles ranked tree s
  exact ⟨⟨f, r, runs f le_rfl⟩, f', Option.isSome_iff_exists.mpr ⟨s', ends f' le_rfl⟩⟩

theorem twoChainQuery_execute_terminates :
    ∃ plan, newExecutionPlan 8 twoChainQuery (twoChainQuery.pattern.getNDegreeNodes 0)
        (twoChainQuery.pattern.getNDegreeNodes 2) = some plan ∧
      (twoChainQuery.pattern.getNDegreeNodes 2).Nodup ∧
      (∀ n ∈ twoChainQuery.pattern.getNDegreeNodes 2, twoChainQuery.pattern.inDegree n ≠ 2) ∧
      (∀ x, plan.heap.OneParent x) ∧
      IsTree (fun n => (plan.heap.node n).children.items) (plan.heap.count + 1) plan.root ∧
      ∀ {W : Type} (ops : Operators W) (rank : Nat → W → Nat), Ranked ops rank →
        ∀ s : Pipeline W,
          (∃ fuel r, executeOpNode ops (fun n => (plan.heap.node n).children.items) fuel
            plan.root s = some r) ∧
          ∃ fuel, (executionPlanExecute ops (fun n => (plan.heap.node n).children.items) plan.root
            fuel s).isSome :=
  let planned : newExecutionPlan 8 twoChainQuery (twoChainQuery.pattern.getNDegreeNodes 0)
      (twoChainQuery.pattern.getNDegreeNodes 2) = some _ := rfl
  ⟨_, planned, by decide, by decide, newExecutionPlan_execute_terminates planned (by decide)
    (by decide)⟩

/-- Without a merge `OpNode_Free(root)` frees every operator of the plan exactly once (the
operators only, never their `children` and `parents` arrays): the operators form a tree. -/
theorem newExecutionPlan_frees_each_once {fuel : Nat} {ast : QueryExpressionNode}
    {entryNodes nodesToMerge : List Nat} {plan : ExecutionPlan}
    (planned : newExecutionPlan fuel ast entryNodes nodesToMerge = some plan)
    (distinct : nodesToMerge.Nodup) (entry : entryNodes ≠ [])
    (unmerging : ∀ n ∈ nodesToMerge, ast.pattern.inDegree n ≠ 2) {k : Nat}
    (enough : plan.heap.count < k) :
    ∃ freed, opNodeFree plan.heap k plan.root = some freed ∧ freed.Nodup ∧
      ∀ x, x ∈ freed ↔ x < plan.heap.count := by
  have shape := newExecutionPlan_shape planned distinct
  have wf := shape.apart.wellFormed
  obtain ⟨freed, frees⟩ := shape.apart.opNodeFree_returns enough
  refine ⟨freed, frees, (opNodeFree_perm frees).nodup_iff.mpr
    (streamNodes_nodup wf (shape.single unmerging) shape.apart.not_reachesCycle),
    fun x => ⟨fun member => ?_, fun made => ?_⟩⟩
  · exact ((mem_opNodeFree_iff frees).mp member).lt_count wf.closed shape.apart.rootMade
  · rcases shape.reaches_or_self entry made with reaches | ⟨s, self, _⟩
    · exact (mem_opNodeFree_iff frees).mpr reaches
    · obtain ⟨src, relation, dest, into⟩ := shape.apart.into s self
      obtain ⟨member, degree⟩ :=
        shape.intoMerged s (wf.lt_count_of_mem_children self) src relation dest into
      exact absurd degree (unmerging dest member)

theorem twoChainQuery_frees_each_once :
    ∃ plan, newExecutionPlan 8 twoChainQuery (twoChainQuery.pattern.getNDegreeNodes 0)
        (twoChainQuery.pattern.getNDegreeNodes 2) = some plan ∧
      (twoChainQuery.pattern.getNDegreeNodes 2).Nodup ∧
      twoChainQuery.pattern.getNDegreeNodes 0 ≠ [] ∧
      (∀ n ∈ twoChainQuery.pattern.getNDegreeNodes 2, twoChainQuery.pattern.inDegree n ≠ 2) ∧
      plan.heap.count < 13 ∧
      ∃ freed, opNodeFree plan.heap 13 plan.root = some freed ∧ freed.Nodup ∧
        ∀ x, x ∈ freed ↔ x < plan.heap.count :=
  let planned : newExecutionPlan 8 twoChainQuery (twoChainQuery.pattern.getNDegreeNodes 0)
      (twoChainQuery.pattern.getNDegreeNodes 2) = some _ := rfl
  ⟨_, planned, by decide, by decide, by decide, by decide,
    newExecutionPlan_frees_each_once planned (by decide) (by decide) (by decide) (by decide)⟩

/-- When no operator of the plan has two parents, merged or not, `OpNode_Free(root)` frees none
twice and frees every operator that no self-linked `ExpandInto` reaches. -/
theorem newExecutionPlan_frees_unshared {fuel : Nat} {ast : QueryExpressionNode}
    {entryNodes nodesToMerge : List Nat} {plan : ExecutionPlan}
    (planned : newExecutionPlan fuel ast entryNodes nodesToMerge = some plan)
    (distinct : nodesToMerge.Nodup) (entry : entryNodes ≠ [])
    (unshared : ∀ x, plan.heap.OneParent x) {k : Nat} (enough : plan.heap.count < k) :
    ∃ freed, opNodeFree plan.heap k plan.root = some freed ∧ freed.Nodup ∧
      ∀ x < plan.heap.count, x ∈ freed ∨
        ∃ s, s ∈ (plan.heap.node s).children.items ∧ plan.heap.Reaches s x := by
  have shape := newExecutionPlan_shape planned distinct
  obtain ⟨freed, frees⟩ := shape.apart.opNodeFree_returns enough
  exact ⟨freed, frees, (opNodeFree_perm frees).nodup_iff.mpr
    (streamNodes_nodup shape.apart.wellFormed unshared shape.apart.not_reachesCycle),
    fun x made => (shape.reaches_or_self entry made).imp_left (mem_opNodeFree_iff frees).mpr⟩

/-- `a -> b <- c`, returning nodes: both `ExpandAll`s into `b` hang under `ProduceResults`, so the
merge leaves every operator one parent. -/
def joinQuery : QueryExpressionNode :=
  ⟨⟨[⟨"a", none⟩, ⟨"b", none⟩, ⟨"c", none⟩], [⟨0, 1⟩, ⟨2, 1⟩]⟩, none, ⟨[⟨.node⟩], false⟩⟩

theorem joinQuery_frees_unshared :
    ∃ plan, newExecutionPlan 8 joinQuery (joinQuery.pattern.getNDegreeNodes 0)
        (joinQuery.pattern.getNDegreeNodes 2) = some plan ∧
      (joinQuery.pattern.getNDegreeNodes 2).Nodup ∧ joinQuery.pattern.getNDegreeNodes 0 ≠ [] ∧
      (∀ x, plan.heap.OneParent x) ∧ plan.heap.count < 8 ∧
      (∃ freed, opNodeFree plan.heap 8 plan.root = some freed ∧ freed.Nodup ∧
        ∀ x < plan.heap.count, x ∈ freed ∨
          ∃ s, s ∈ (plan.heap.node s).children.items ∧ plan.heap.Reaches s x) ∧
      (plan.heap.node 2).operation.type = .expandInto 2 1 1 :=
  let planned : newExecutionPlan 8 joinQuery (joinQuery.pattern.getNDegreeNodes 0)
      (joinQuery.pattern.getNDegreeNodes 2) = some _ := rfl
  have unshared := (newExecutionPlan_built planned).1.wellFormed.oneParent_of_lt (by decide)
  ⟨_, planned, by decide, by decide, unshared, by decide,
    newExecutionPlan_frees_unshared planned (by decide) (by decide) unshared (by decide), rfl⟩

end RedisGraph.Exec
