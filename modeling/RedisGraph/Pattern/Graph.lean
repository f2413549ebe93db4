import Mathlib.Data.List.Nodup
import Mathlib.Data.List.Perm.Subperm
import Mathlib.Data.List.Range

/-! The MATCH pattern as `NewExecutionPlan` reads it: nodes with an alias and an optional label,
directed edges, each node's outgoing edges in declaration order, and the in-degree queries of
`Graph_GetNDegreeNodes`. The first-edge walk of the plan builder is `Graph.hop`. -/

namespace RedisGraph.Pattern

structure Node where
  «alias» : String
  label : Option String
deriving DecidableEq, Repr

/-- A pattern edge `src -> dest`; its id is its position in `Graph.edges`. -/
structure Edge where
  src : Nat
  dest : Nat
deriving DecidableEq, Repr

structure Graph where
  nodes : List Node
  edges : List Edge
deriving Repr

namespace Graph

variable (g : Graph)

def leaves (n e : Nat) : Bool :=
  match g.edges[e]? with
  | some edge => edge.src == n
  | none => false

/-- `n->outgoingEdges`: the ids of the edges leaving `n`, in declaration order. -/
def outgoingEdges (n : Nat) : List Nat :=
  (List.range g.edges.length).filter (g.leaves n)

/-- `Node_IncomeDegree`: the number of pattern edges entering `n`. -/
def inDegree (n : Nat) : Nat :=
  g.edges.countP (·.dest == n)

/-- `Graph_GetNDegreeNodes(graph, k)` in node order; the plan builder is run on every
permutation. -/
def getNDegreeNodes (k : Nat) : List Nat :=
  (List.range g.nodes.length).filter (g.inDegree · == k)

def aliasOf (n : Nat) : String :=
  ((g.nodes[n]?).map Node.«alias»).getD ""

/-- The label of node `n`, `NULL` for an unlabelled or unknown node. -/
def label (n : Nat) : Option String :=
  (g.nodes[n]?).bind Node.label

/-- The first outgoing edge of `n` and its destination: one step of the loop at lines 340-352. -/
def next (n : Nat) : Option (Nat × Nat) :=
  match (g.outgoingEdges n).head? with
  | none => none
  | some e => (g.edges[e]?).map fun edge => (e, edge.dest)

/-- The `k`-th node of the first-edge walk from `v`, if the walk gets that far. -/
def hop (v : Nat) : Nat → Option Nat
  | 0 => some v
  | k + 1 => (hop v k).bind fun u => (g.next u).map Prod.snd

/-- The walk from `v` reaches, after `k` steps, a node without outgoing edges. -/
def EndsAt (v k : Nat) : Prop :=
  ∃ u, g.hop v k = some u ∧ g.next u = none

/-- No node is visited twice by the first-edge walk from `v`. -/
def WalkSimple (v : Nat) : Prop :=
  ∀ i j, i < j → (g.hop v i).isSome → g.hop v i ≠ g.hop v j

theorem next_eq_some {n e w : Nat} (found : g.next n = some (e, w)) :
    g.edges[e]? = some ⟨n, w⟩ ∧ (g.outgoingEdges n).head? = some e := by
  unfold next at found
  split at found
  · cases found
  · rename_i first head
    obtain ⟨edge, present, same⟩ := Option.map_eq_some'.mp found
    cases same
    have member := List.mem_of_mem_head? head
    have leaving : g.leaves n e = true := (List.mem_filter.mp member).2
    simp only [leaves, present, beq_iff_eq] at leaving
    exact ⟨by rw [present, ← leaving], head⟩

theorem next_isSome_iff (n : Nat) : (g.next n).isSome ↔ g.outgoingEdges n ≠ [] := by
  unfold next
  cases first : (g.outgoingEdges n) with
  | nil => simp
  | cons e rest =>
    have member : e ∈ g.outgoingEdges n := by simp [first]
    have bound := List.mem_range.mp (List.mem_filter.mp member).1
    simp [List.getElem?_eq_getElem bound]

@[simp] theorem hop_zero (v : Nat) : g.hop v 0 = some v := rfl

theorem hop_succ (v k : Nat) :
    g.hop v (k + 1) = (g.hop v k).bind fun u => (g.next u).map Prod.snd := rfl

theorem hop_add (v i k : Nat) : g.hop v (i + k) = (g.hop v i).bind fun u => g.hop u k := by
  induction k with
  | zero => simp
  | succ k ih =>
    rw [← Nat.add_assoc, hop_succ, ih]
    cases g.hop v i <;> rfl

theorem hop_succ_eq_next (v k : Nat) :
    g.hop v (k + 1) = ((g.next v).map Prod.snd).bind fun u => g.hop u k := by
  rw [Nat.add_comm, hop_add]
  rfl

theorem hop_none_of_le {v i j : Nat} (ended : g.hop v i = none) (later : i ≤ j) :
    g.hop v j = none := by
  obtain ⟨k, rfl⟩ := Nat.exists_eq_add_of_le later
  rw [hop_add, ended]
  rfl

theorem hop_isSome_of_le {v i j : Nat} (reached : (g.hop v j).isSome) (earlier : i ≤ j) :
    (g.hop v i).isSome := by
  cases before : g.hop v i with
  | none => simp [g.hop_none_of_le before earlier] at reached
  | some _ => rfl

theorem hop_periodic {u p : Nat} (back : g.hop u p = some u) (q r : Nat) :
    g.hop u (p * q + r) = g.hop u r := by
  induction q with
  | zero => simp
  | succ q ih => rw [Nat.mul_succ, Nat.add_right_comm, hop_add, ih, ← hop_add, Nat.add_comm,
      hop_add, back]; rfl

theorem hop_isSome_of_repeat {v i j u : Nat} (first : g.hop v i = some u)
    (again : g.hop v j = some u) (earlier : i < j) (k : Nat) : (g.hop v k).isSome := by
  have back : g.hop u (j - i) = some u := by
    rw [← again, show j = i + (j - i) by omega, hop_add, first]; simp
  rcases Nat.lt_or_ge k i with before | after
  · exact g.hop_isSome_of_le (by simp [first]) before.le
  · have within : (k - i) % (j - i) ≤ j - i := (Nat.mod_lt _ (by omega)).le
    have split := g.hop_periodic back ((k - i) / (j - i)) ((k - i) % (j - i))
    rw [Nat.div_add_mod] at split
    rw [show k = i + (k - i) by omega, hop_add, first, Option.some_bind, split]
    exact g.hop_isSome_of_le (by simp [back]) within

theorem not_endsAt_of_repeat {v i j u : Nat} (first : g.hop v i = some u)
    (again : g.hop v j = some u) (earlier : i < j) (k : Nat) : ¬ g.EndsAt v k := by
  rintro ⟨w, at_k, stuck⟩
  have beyond := g.hop_isSome_of_repeat first again earlier (k + 1)
  simp [hop_succ, at_k, stuck] at beyond

/-- `v` lies on the first-edge walk from one of `entries`. -/
def OnWalkFrom (entries : List Nat) (v : Nat) : Prop :=
  ∃ entry ∈ entries, ∃ k, g.hop entry k = some v

variable {g} in
theorem OnWalkFrom.next {entries : List Nat} {v e w : Nat} (onWalk : g.OnWalkFrom entries v)
    (step : g.next v = some (e, w)) : g.OnWalkFrom entries w := by
  obtain ⟨entry, member, k, at_k⟩ := onWalk
  exact ⟨entry, member, k + 1, by simp [hop_succ, at_k, step]⟩

/-- The edge the walk from `v` takes at step `i` (`0` once the walk has ended). -/
def stepEdge (v i : Nat) : Nat :=
  (((g.hop v i).bind g.next).map Prod.fst).getD 0

theorem next_source_unique {u u' e w w' : Nat} (first : g.next u = some (e, w))
    (second : g.next u' = some (e, w')) : u = u' := by
  have same := (g.next_eq_some first).1.symm.trans (g.next_eq_some second).1
  simp only [Option.some.injEq, Edge.mk.injEq] at same
  exact same.1

private theorem going_of_not_ends {v : Nat} (never : ∀ k ≤ g.edges.length, ¬ g.EndsAt v k) :
    ∀ i ≤ g.edges.length, ∃ u e w, g.hop v i = some u ∧ g.next u = some (e, w) := by
  intro i
  induction i with
  | zero =>
    intro _
    cases step : g.next v with
    | none => exact absurd ⟨v, rfl, step⟩ (never 0 (Nat.zero_le _))
    | some ew => exact ⟨v, ew.1, ew.2, rfl, step⟩
  | succ i ih =>
    intro le
    obtain ⟨u, e, w, at_i, step⟩ := ih (by omega)
    have at_next : g.hop v (i + 1) = some w := by simp [hop_succ, at_i, step]
    cases step' : g.next w with
    | none => exact absurd ⟨w, at_next, step'⟩ (never (i + 1) le)
    | some ew => exact ⟨w, ew.1, ew.2, at_next, step'⟩

/-- Pigeonhole: a walk without repeats ends within as many steps as the pattern has edges. -/
theorem endsAt_of_simple {v : Nat} (simple : g.WalkSimple v) :
    ∃ k ≤ g.edges.length, g.EndsAt v k := by
  by_contra ends
  push_neg at ends
  have going := g.going_of_not_ends ends
  have taken (i : Nat) (le : i ≤ g.edges.length) : ∃ u w, g.hop v i = some u ∧
      g.next u = some (g.stepEdge v i, w) := by
    obtain ⟨u, e, w, at_i, step⟩ := going i le
    exact ⟨u, w, at_i, by simp [stepEdge, at_i, step]⟩
  have distinct : ((List.range (g.edges.length + 1)).map (g.stepEdge v)).Nodup := by
    refine List.Nodup.map_on (fun i hi j hj same => ?_) (List.nodup_range _)
    obtain ⟨u, w, at_i, step⟩ := taken i (by simpa [Nat.lt_succ_iff] using hi)
    obtain ⟨u', w', at_j, step'⟩ := taken j (by simpa [Nat.lt_succ_iff] using hj)
    rw [same] at step
    have meet := g.next_source_unique step step'
    subst meet
    rcases Nat.lt_trichotomy i j with lt | eq | gt
    · exact absurd (at_i.trans at_j.symm) (simple i j lt (by simp [at_i]))
    · exact eq
    · exact absurd (at_j.trans at_i.symm) (simple j i gt (by simp [at_j]))
  have bounded : (List.range (g.edges.length + 1)).map (g.stepEdge v) ⊆
      List.range g.edges.length := by
    intro e member
    obtain ⟨i, hi, rfl⟩ := List.mem_map.mp member
    obtain ⟨u, w, -, step⟩ := taken i (by simpa [Nat.lt_succ_iff] using hi)
    exact List.mem_range.mpr (List.getElem?_eq_some_iff.mp (g.next_eq_some step).1).1
  have := (distinct.subperm bounded).length_le
  simp only [List.length_map, List.length_range] at this
  omega

theorem simple_of_endsAt {v k : Nat} (ends : g.EndsAt v k) : g.WalkSimple v := by
  intro i j earlier reached same
  obtain ⟨u, first⟩ := Option.isSome_iff_exists.mp reached
  exact g.not_endsAt_of_repeat first (same ▸ first) earlier k ends

def stepsToEnd : Nat → Nat → Nat
  | 0, _ => 0
  | fuel + 1, v =>
    match g.next v with
    | none => 0
    | some (_, w) => stepsToEnd fuel w + 1

/-- The length of the first-edge walk from `v`, for a walk that ends. -/
def toEnd (v : Nat) : Nat :=
  g.stepsToEnd (g.edges.length + 1) v

theorem stepsToEnd_of_endsAt {v k fuel : Nat} (ends : g.EndsAt v k) (within : k < fuel) :
    g.stepsToEnd fuel v = k := by
  induction fuel generalizing v k with
  | zero => omega
  | succ fuel ih =>
    obtain ⟨u, at_k, stuck⟩ := ends
    simp only [stepsToEnd]
    split
    · rename_i ended
      cases k with
      | zero => rfl
      | succ k => simp [hop_succ_eq_next, ended] at at_k
    · rename_i e w step
      cases k with
      | zero =>
        cases at_k
        simp [step] at stuck
      | succ k =>
        rw [ih ⟨u, by simpa [hop_succ_eq_next, step] using at_k, stuck⟩ (by omega)]

variable {g} in
theorem EndsAt.next {u e w k : Nat} (ends : g.EndsAt u k) (step : g.next u = some (e, w)) :
    0 < k ∧ g.EndsAt w (k - 1) := by
  obtain ⟨v, at_k, stuck⟩ := ends
  cases k with
  | zero =>
    cases at_k
    simp [step] at stuck
  | succ k => exact ⟨Nat.succ_pos k, v, by simpa [hop_succ_eq_next, step] using at_k, stuck⟩

theorem toEnd_next {u e w k : Nat} (step : g.next u = some (e, w)) (ends : g.EndsAt u k)
    (within : k ≤ g.edges.length) : g.toEnd u = g.toEnd w + 1 := by
  obtain ⟨positive, rest⟩ := ends.next step
  rw [toEnd, g.stepsToEnd_of_endsAt ends (by omega), toEnd, g.stepsToEnd_of_endsAt rest (by omega)]
  omega

variable {g} in
theorem OnWalkFrom.endsAt {entries : List Nat} {v : Nat} (onWalk : g.OnWalkFrom entries v)
    (simple : ∀ e ∈ entries, g.WalkSimple e) : ∃ k ≤ g.edges.length, g.EndsAt v k := by
  obtain ⟨entry, member, j, at_j⟩ := onWalk
  obtain ⟨K, within, u, at_K, stuck⟩ := g.endsAt_of_simple (simple entry member)
  have reached : j ≤ K := by
    by_contra beyond
    have ended : g.hop entry (K + 1) = none := by simp [hop_succ, at_K, stuck]
    rw [g.hop_none_of_le ended (by omega)] at at_j
    cases at_j
  refine ⟨K - j, by omega, u, ?_, stuck⟩
  rw [← at_K, show K = j + (K - j) by omega, hop_add, at_j, Nat.add_sub_cancel_left]
  rfl

end Graph

end RedisGraph.Pattern
