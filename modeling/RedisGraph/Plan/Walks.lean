import RedisGraph.Plan.BuildRun

/-! The entry-node loop of `NewExecutionPlan` (lines 328-391) follows the first outgoing edge of
each node it reaches. Its inner loop (lines 340-352) computes `Graph.hop`: it stops exactly when
the first-edge walk reaches a node without outgoing edges, which happens, and then within as
many steps as the pattern has edges, exactly when the walk visits no node twice. -/

namespace RedisGraph.Plan

open Pattern

variable {g : Graph}

theorem endsAt_of_expandWalk {fuel v : Nat} {h : Heap} {rev : List Nat} {r : Heap × List Nat}
    (walk : expandWalk g fuel v h rev = some r) : ∃ k < fuel, g.EndsAt v k := by
  induction fuel generalizing v h rev with
  | zero => cases walk
  | succ fuel ih =>
    simp only [expandWalk] at walk
    split at walk
    · exact ⟨0, Nat.succ_pos _, v, rfl, ‹_›⟩
    · rename_i edge dest step
      obtain ⟨k, within, u, at_k, stuck⟩ := ih walk
      exact ⟨k + 1, by omega, u, by simp [Graph.hop_succ_eq_next, step, at_k], stuck⟩

theorem expandWalk_isSome_of_endsAt {fuel v k : Nat} (ends : g.EndsAt v k) (within : k < fuel)
    (h : Heap) (rev : List Nat) : (expandWalk g fuel v h rev).isSome := by
  induction fuel generalizing v k h rev with
  | zero => omega
  | succ fuel ih =>
    simp only [expandWalk]
    split
    · rfl
    · rename_i edge dest step
      obtain ⟨u, at_k, stuck⟩ := ends
      cases k with
      | zero =>
        cases at_k
        simp [step] at stuck
      | succ k =>
        exact ih ⟨u, by simpa [Graph.hop_succ_eq_next, step] using at_k, stuck⟩ (by omega) _ _

/-- The loop at lines 340-352 stops within `fuel` iterations exactly when the walk ends within
`fuel - 1` steps. -/
theorem expandWalk_isSome_iff {fuel v : Nat} {h : Heap} {rev : List Nat} :
    (expandWalk g fuel v h rev).isSome ↔ ∃ k < fuel, g.EndsAt v k := by
  constructor
  · intro walks
    obtain ⟨r, walk⟩ := Option.isSome_iff_exists.mp walks
    exact endsAt_of_expandWalk walk
  · rintro ⟨k, within, ends⟩
    exact expandWalk_isSome_of_endsAt ends within h rev

theorem expandWalk_eq_none_of_not_simple {v : Nat} (looping : ¬ g.WalkSimple v) (fuel : Nat)
    (h : Heap) (rev : List Nat) : expandWalk g fuel v h rev = none := by
  cases walk : expandWalk g fuel v h rev with
  | none => rfl
  | some r =>
    obtain ⟨k, -, ends⟩ := endsAt_of_expandWalk walk
    exact absurd (g.simple_of_endsAt ends) looping

theorem addEntryNode_eq_none_of_not_simple {fuel root v : Nat} (looping : ¬ g.WalkSimple v)
    (h : Heap) (ops : List Nat) : addEntryNode g fuel root v h ops = none := by
  unfold addEntryNode pushEntryOps
  split
  · simp [expandWalk_eq_none_of_not_simple looping]
  · rename_i leaf
    have stuck : g.next v = none := by
      simpa [← Graph.next_isSome_iff] using leaf
    exact absurd (g.simple_of_endsAt (show g.EndsAt v 0 from ⟨v, rfl, stuck⟩)) looping

/-- An entry node whose first-edge walk comes back to a node it visited makes
`NewExecutionPlan` run forever, whatever the other entries and merges. -/
theorem newExecutionPlan_eq_none_of_not_simple {ast : QueryExpressionNode}
    {entryNodes nodesToMerge : List Nat} {v : Nat} (entry : v ∈ entryNodes)
    (looping : ¬ ast.pattern.WalkSimple v) (fuel : Nat) :
    newExecutionPlan fuel ast entryNodes nodesToMerge = none := by
  unfold newExecutionPlan
  simp only [bind]
  rw [foldlM_eq_none_of_mem entry fun state => addEntryNode_eq_none_of_not_simple looping _ _]
  rfl

/-- `a -> b -> c -> b`: the first-edge walk from `a` circles through `b` and `c`. -/
def cyclicQuery : QueryExpressionNode :=
  ⟨⟨[⟨"a", none⟩, ⟨"b", none⟩, ⟨"c", none⟩], [⟨0, 1⟩, ⟨1, 2⟩, ⟨2, 1⟩]⟩, none, ⟨[⟨.node⟩], false⟩⟩

theorem cyclicQuery_never_planned :
    ¬ ∃ fuel, (newExecutionPlan fuel cyclicQuery (cyclicQuery.pattern.getNDegreeNodes 0)
      (cyclicQuery.pattern.getNDegreeNodes 2)).isSome := by
  rintro ⟨fuel, planned⟩
  rw [newExecutionPlan_eq_none_of_not_simple (v := 0) (by decide)
    (fun simple => simple 1 3 (by decide) (by decide) (by decide)) fuel] at planned
  cases planned

end RedisGraph.Plan
