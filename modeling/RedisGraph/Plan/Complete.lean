import RedisGraph.Plan.SelfLinks

/-! What a plan checks and binds of its pattern. Each edge that a first-edge walk from an entry
node takes gets an `ExpandAll` in the entry-node loop, which a merge may turn into an
`ExpandInto` on the same edge. Each node on such a walk gets a binding operator: an `ExpandAll`
into it, or, for the entry node itself, a scan, either at line 364 or from the entry-point
optimisation. A merge whose search meets one `ExpandAll` twice turns the only `ExpandAll` into
a node into an `ExpandInto` that is its own child. -/

namespace RedisGraph.Plan

open Pattern Filter

/-- The operators that bind `v`: a scan of `v`, or an `ExpandAll` into `v`. -/
def OpType.Binds (v : Nat) : OpType → Prop
  | .allNodeScan node | .nodeByLabelScan node _ => node = v
  | .expandAll _ _ dest => dest = v
  | _ => False

instance (v : Nat) : DecidablePred (OpType.Binds v)
  | .allNodeScan node | .nodeByLabelScan node _ => inferInstanceAs (Decidable (node = v))
  | .expandAll _ _ dest => inferInstanceAs (Decidable (dest = v))
  | .produceResults | .aggregate | .expandInto .. | .filter _ => isFalse fun binds => binds

theorem newScanOp_binds (g : Graph) (v : Nat) : (newScanOp g v).type.Binds v := by
  unfold newScanOp
  split <;> rfl

/-- Every edge a first-edge walk from `entryNodes` takes is checked by an operator of `h`, and every
node on it is bound, or is the destination of a self-linked `ExpandInto`. -/
structure WalksCovered (g : Graph) (entryNodes : List Nat) (h : Heap) : Prop where
  edges : ∀ u, g.OnWalkFrom entryNodes u → ∀ e w, g.next u = some (e, w) →
    ∃ i < h.count, (h.node i).operation.type = .expandAll u e w ∨
      (h.node i).operation.type = .expandInto u e w
  nodes : ∀ u, g.OnWalkFrom entryNodes u → ∃ i < h.count, (h.node i).operation.type.Binds u ∨
    ∃ src relation, (h.node i).operation.type = .expandInto src relation u ∧
      i ∈ (h.node i).children.items

/-! ### The entry-node loop -/

section Entry

variable {g : Graph} {h h' : Heap}

/-- What the entry-node loop leaves for the walk from `v`: an `ExpandAll` for each of its edges, a
scan of `v` when it has no outgoing edge, and otherwise a childless `ExpandAll` out of `v`. -/
structure WalkExpanded (g : Graph) (h : Heap) (v : Nat) : Prop where
  edges : ∀ k a e w, g.hop v k = some a → g.next a = some (e, w) →
    ∃ i < h.count, (h.node i).operation.type = .expandAll a e w
  scan : g.next v = none → ∃ i < h.count, (h.node i).operation.type = (newScanOp g v).type
  leaf : ∀ e w, g.next v = some (e, w) →
    ∃ i < h.count, (h.node i).operation.type = .expandAll v e w ∧ (h.node i).children.items = []

structure KeepsExpandAlls (h h' : Heap) : Prop where
  grows : h.count ≤ h'.count
  operation : ∀ i < h.count, (h'.node i).operation = (h.node i).operation
  children : ∀ i < h.count, ∀ s r d, (h.node i).operation.type = .expandAll s r d →
    (h'.node i).children.items = (h.node i).children.items

theorem KeepsExpandAlls.trans {h₁ : Heap} (first : KeepsExpandAlls h h₁)
    (second : KeepsExpandAlls h₁ h') : KeepsExpandAlls h h' where
  grows := first.grows.trans second.grows
  operation i made := (second.operation i (Nat.lt_of_lt_of_le made first.grows)).trans
    (first.operation i made)
  children i made s r d expanding := by
    rw [second.children i (Nat.lt_of_lt_of_le made first.grows) s r d
      (by rw [first.operation i made]; exact expanding), first.children i made s r d expanding]

theorem WalkExpanded.keep {v : Nat} (walk : WalkExpanded g h v) (keeps : KeepsExpandAlls h h') :
    WalkExpanded g h' v where
  edges k a e w at_k step := by
    obtain ⟨i, made, expanding⟩ := walk.edges k a e w at_k step
    exact ⟨i, Nat.lt_of_lt_of_le made keeps.grows, by rw [keeps.operation i made, expanding]⟩
  scan stuck := by
    obtain ⟨i, made, scanning⟩ := walk.scan stuck
    exact ⟨i, Nat.lt_of_lt_of_le made keeps.grows, by rw [keeps.operation i made, scanning]⟩
  leaf e w step := by
    obtain ⟨i, made, expanding, leaf⟩ := walk.leaf e w step
    exact ⟨i, Nat.lt_of_lt_of_le made keeps.grows, by rw [keeps.operation i made, expanding],
      by rw [keeps.children i made v e w expanding, leaf]⟩

theorem hop_of_next_none {v k a : Nat} (stuck : g.next v = none)
    (at_k : g.hop v k = some a) : a = v := by
  cases k with
  | zero => exact (Option.some.inj at_k).symm
  | succ k => simp [Graph.hop_succ_eq_next, stuck] at at_k

/-- Lines 340-352 make, past the old operators, an `ExpandAll` for each edge of the walk from
`u`, the first one at `h.count` and childless, and push them on the stack. -/
theorem expandWalk_expands {fuel u : Nat} {rev rev' : List Nat}
    (walk : expandWalk g fuel u h rev = some (h', rev')) :
    (∀ i < h.count, h'.node i = h.node i) ∧ h.count ≤ h'.count ∧
      (∀ k a e w, g.hop u k = some a → g.next a = some (e, w) →
        ∃ i < h'.count, (h'.node i).operation.type = .expandAll a e w) ∧
      (∃ pushed, rev' = pushed ++ rev ∧ ∀ x ∈ pushed, h.count ≤ x ∧ x < h'.count) ∧
      ∀ e w, g.next u = some (e, w) → h.count < h'.count ∧
        (h'.node h.count).operation.type = .expandAll u e w ∧
        (h'.node h.count).children.items = [] ∧
        ∃ pushed, rev' = pushed ++ h.count :: rev ∧ ∀ x ∈ pushed, h.count < x := by
  induction fuel generalizing u h rev with
  | zero => cases walk
  | succ fuel ih =>
    simp only [expandWalk] at walk
    split at walk
    · rename_i stuck
      cases walk
      refine ⟨fun _ _ => rfl, le_rfl, fun k a e w at_k step => ?_, ⟨[], rfl, by simp⟩,
        fun e w step => by simp [stuck] at step⟩
      rw [hop_of_next_none stuck at_k, stuck] at step
      cases step
    · rename_i edge dest step
      obtain ⟨old, grows, edges, ⟨pushed, rfl, low⟩, -⟩ := ih walk
      have fresh : h'.node h.count = OpNode.fresh (newExpandAllOp g u edge dest) := by
        rw [old h.count (by simp [Heap.newOpNode]), Heap.node_newOpNode, if_pos rfl]
      have count₁ : (h.newOpNode (newExpandAllOp g u edge dest)).2.count = h.count + 1 := rfl
      refine ⟨fun i made => ?_, by omega, fun k a e w at_k next => ?_,
        ⟨pushed ++ [h.count], by simp, fun x member => ?_⟩, fun e w next => ?_⟩
      · rw [old i (by omega), Heap.node_newOpNode, if_neg (Nat.ne_of_lt made)]
      · cases k with
        | zero =>
          obtain rfl := Option.some.inj at_k
          rw [step] at next
          obtain ⟨rfl, rfl⟩ := Prod.mk.inj (Option.some.inj next)
          exact ⟨h.count, by omega, by rw [fresh]; rfl⟩
        | succ k => exact edges k a e w (by simpa [Graph.hop_succ_eq_next, step] using at_k) next
      · rcases List.mem_append.mp member with member | member
        · have := low x member
          omega
        · obtain rfl := List.mem_singleton.mp member
          omega
      · rw [step] at next
        obtain ⟨rfl, rfl⟩ := Prod.mk.inj (Option.some.inj next)
        exact ⟨by omega, by rw [fresh]; rfl, by rw [fresh]; rfl, pushed, by simp,
          fun x member => by have := low x member; omega⟩

theorem children_linkOps_of_not_mem {prevOp x : Nat} {rest : List Nat} (other : x ∉ rest) :
    ((linkOps h prevOp rest).node x).children.items = (h.node x).children.items := by
  induction rest generalizing h prevOp with
  | nil => rfl
  | cons c rest ih =>
    have xc : x ≠ c := fun same => other (same ▸ List.mem_cons_self c rest)
    rw [linkOps, ih fun member => other (List.mem_cons_of_mem c member), Heap.children_addChild,
      if_neg xc]

theorem consumeOps_frame {root first : Nat} {rest ops' : List Nat}
    (consumed : consumeOps h root (first :: rest) = (h', ops')) :
    h'.count = h.count ∧ (∀ x, (h'.node x).operation = (h.node x).operation) ∧
      ∀ x, x ∉ rest → (h'.node x).children.items = (h.node x).children.items := by
  rcases rest with _ | ⟨c, rest⟩ <;> cases consumed
  · exact ⟨rfl, fun _ => rfl, fun _ _ => rfl⟩
  · exact ⟨count_linkOps, operation_linkOps, fun _ other => children_linkOps_of_not_mem other⟩

/-- One iteration of the entry-node loop keeps the operators and their `ExpandAll`s' children, and
expands the walk from its node. -/
theorem addEntryNode_expands {fuel root v : Nat} {ops ops' : List Nat}
    (made : ∀ x ∈ ops, x < h.count)
    (noExpandAll : ∀ x ∈ ops, ∀ s r d, (h.node x).operation.type ≠ .expandAll s r d)
    (adds : addEntryNode g fuel root v h ops = some (h', ops')) :
    KeepsExpandAlls h h' ∧ WalkExpanded g h' v := by
  obtain ⟨⟨h₁, ops₁⟩, pushed, consumed⟩ := Option.map_eq_some'.mp adds
  dsimp only at consumed
  -- after pushing, the new operation at `h.count` heads the stack, above new ones and `ops`
  have keeps (rest : List Nat) (same : ops₁ = h.count :: rest)
      (restOld : ∀ x ∈ rest, x < h.count → x ∈ ops) (grows : h.count < h₁.count)
      (old : ∀ i < h.count, h₁.node i = h.node i) :
      KeepsExpandAlls h h' ∧ h'.count = h₁.count ∧
        (∀ x, (h'.node x).operation = (h₁.node x).operation) ∧
        ∀ x, x ∉ rest → (h'.node x).children.items = (h₁.node x).children.items := by
    rw [same] at consumed
    obtain ⟨count', operation', children'⟩ := consumeOps_frame consumed
    refine ⟨⟨by omega, fun i lt => by rw [operation', old i lt], fun i lt s r d expanding => ?_⟩,
      count', operation', children'⟩
    rw [children' i fun member => noExpandAll i (restOld i member lt) s r d expanding, old i lt]
  unfold pushEntryOps at pushed
  split at pushed
  · rename_i outgoing
    obtain ⟨⟨h₂, rev⟩, walk, same⟩ := Option.map_eq_some'.mp pushed
    cases same
    obtain ⟨old, -, edges, -, firstOp⟩ := expandWalk_expands walk
    obtain ⟨e, w, step⟩ : ∃ e w, g.next v = some (e, w) := by
      obtain ⟨⟨e, w⟩, step⟩ := Option.isSome_iff_exists.mp ((g.next_isSome_iff v).mpr outgoing)
      exact ⟨e, w, step⟩
    obtain ⟨grows, expanding, leaf, pushed', rfl, high⟩ := firstOp e w step
    obtain ⟨keeps, count', operation', children'⟩ := keeps (pushed'.reverse ++ ops)
      (by simp [List.reverseAux_eq]) (fun x member lt => by
        rcases List.mem_append.mp member with new | old
        · exact absurd (high x (List.mem_reverse.mp new)) (by omega)
        · exact old) grows old
    refine ⟨keeps, fun k a e' w' at_k next => ?_, fun stuck => by simp [step] at stuck,
      fun e' w' next => ?_⟩
    · obtain ⟨i, lt, expandingI⟩ := edges k a e' w' at_k next
      exact ⟨i, count' ▸ lt, by rw [operation', expandingI]⟩
    · rw [step] at next
      obtain ⟨rfl, rfl⟩ := Prod.mk.inj (Option.some.inj next)
      refine ⟨h.count, by simp only at count'; omega, by rw [operation', expanding], ?_⟩
      rw [children' h.count fun member => ?_, leaf]
      rcases List.mem_append.mp member with new | old
      · exact absurd (high _ (List.mem_reverse.mp new)) (Nat.lt_irrefl _)
      · exact Nat.lt_irrefl _ (made _ old)
  · rename_i leafNode
    cases pushed
    have stuck : g.next v = none := by
      simpa [← Graph.next_isSome_iff] using leafNode
    obtain ⟨keeps, count', operation', -⟩ := keeps ops rfl (fun x member _ => member)
      (Nat.lt_succ_self _) fun i lt => by simp [Nat.ne_of_lt lt]
    refine ⟨keeps, fun k a e w at_k next => ?_,
      fun _ => ⟨h.count, by simp [count', Heap.newOpNode], ?_⟩, fun e w next => by simp [stuck] at next⟩
    · rw [hop_of_next_none stuck at_k, stuck] at next
      cases next
    · simp [operation', OpNode.fresh]

theorem foldlM_forall {α β : Type} {P : β → Prop} {Q : α → β → Prop} {f : β → α → Option β}
    {l : List α} {b b' : β}
    (step : ∀ {b a b'}, a ∈ l → P b → f b a = some b' → P b' ∧ Q a b' ∧ ∀ a', Q a' b → Q a' b')
    (start : P b) (fold : l.foldlM f b = some b') :
    P b' ∧ (∀ a ∈ l, Q a b') ∧ ∀ a', Q a' b → Q a' b' := by
  induction l generalizing b with
  | nil =>
    cases fold
    exact ⟨start, by simp, fun _ kept => kept⟩
  | cons a l ih =>
    obtain ⟨b₁, first, rest⟩ := Option.bind_eq_some.mp fold
    obtain ⟨kept₁, made₁, keep₁⟩ := step (List.mem_cons_self a l) start first
    obtain ⟨kept, made, keep⟩ :=
      ih (fun member => step (List.mem_cons_of_mem a member)) kept₁ rest
    exact ⟨kept, List.forall_mem_cons.mpr ⟨keep a made₁, made⟩,
      fun a' before => keep a' (keep₁ a' before)⟩

/-- The entry-node loop expands the walk from every entry node. -/
theorem entryLoop_expands {fuel : Nat} {entryNodes ops ops' : List Nat}
    (simple : ∀ e ∈ entryNodes, g.WalkSimple e) (state : EntryState g entryNodes 0 h ops)
    (loop : entryNodes.foldlM (fun state node => addEntryNode g fuel 0 node state.1 state.2)
      (h, ops) = some (h', ops')) : ∀ v ∈ entryNodes, WalkExpanded g h' v :=
  (foldlM_forall (P := fun s => EntryState g entryNodes 0 s.1 s.2)
    (Q := fun v s => WalkExpanded g s.1 v) (fun member state adds =>
      have ⟨keeps, walk⟩ := addEntryNode_expands state.made (fun x member' s r d expanding => by
        have rank := state.top x member'
        simp [expanding, opRank] at rank) adds
      ⟨addEntryNode_state member simple state adds, walk, fun _ before => before.keep keeps⟩)
    state loop).2.1

end Entry

/-! ### The entry-point optimisation -/

section Optimize

variable {g : Graph} {h h' h₁ : Heap}

theorem newScanOp_not_expandAll (node src relation dest : Nat) :
    (newScanOp g node).type ≠ .expandAll src relation dest := by
  unfold newScanOp
  split <;> simp [newNodeByLabelScanOp, newAllNodeScanOp]

/-- `_ExecutionPlan_OptimizeEntryPoints` keeps the operators and the children of each that has
some; one it gives children to is an `ExpandAll`, and a scan of its source is made. -/
structure ScansAdded (g : Graph) (h h' : Heap) : Prop where
  grows : h.count ≤ h'.count
  operation : ∀ i < h.count, (h'.node i).operation = (h.node i).operation
  kept : ∀ i < h.count, (h.node i).children.items ≠ [] →
    (h'.node i).children.items = (h.node i).children.items
  scanned : ∀ i < h.count, (h.node i).children.items = [] → (h'.node i).children.items ≠ [] →
    ∃ s r d, (h.node i).operation.type = .expandAll s r d ∧
      ∃ j < h'.count, (h'.node j).operation.type = (newScanOp g s).type
  fresh : ∀ i < h.count, (h.node i).children.items = [] →
    ∀ c ∈ (h'.node i).children.items, h.count ≤ c
  new : ∀ j, h.count ≤ j → j < h'.count → (h'.node j).children.items = [] ∧
    ∀ s r d, (h'.node j).operation.type ≠ .expandAll s r d

theorem ScansAdded.refl : ScansAdded g h h :=
  ⟨le_rfl, fun _ _ => rfl, fun _ _ _ => rfl, fun _ _ empty full => absurd empty full,
    fun _ _ empty c member => absurd (empty ▸ member) (List.not_mem_nil c),
    fun _ low high => absurd high (Nat.not_lt.mpr low)⟩

theorem ScansAdded.trans (first : ScansAdded g h h₁) (second : ScansAdded g h₁ h') :
    ScansAdded g h h' where
  grows := first.grows.trans second.grows
  operation i made :=
    (second.operation i (Nat.lt_of_lt_of_le made first.grows)).trans (first.operation i made)
  kept i made full := by
    rw [second.kept i (Nat.lt_of_lt_of_le made first.grows) (by rwa [first.kept i made full]),
      first.kept i made full]
  scanned i made empty full := by
    by_cases middle : (h₁.node i).children.items = []
    · obtain ⟨s, r, d, expanding, j, scan⟩ :=
        second.scanned i (Nat.lt_of_lt_of_le made first.grows) middle full
      exact ⟨s, r, d, by rwa [first.operation i made] at expanding, j, scan⟩
    · obtain ⟨s, r, d, expanding, j, jMade, scan⟩ := first.scanned i made empty middle
      exact ⟨s, r, d, expanding, j, Nat.lt_of_lt_of_le jMade second.grows,
        by rw [second.operation j jMade, scan]⟩
  fresh i made empty c member := by
    by_cases middle : (h₁.node i).children.items = []
    · exact first.grows.trans (second.fresh i (Nat.lt_of_lt_of_le made first.grows) middle c member)
    · rw [second.kept i (Nat.lt_of_lt_of_le made first.grows) middle] at member
      exact first.fresh i made empty c member
  new j low high := by
    by_cases old : j < h₁.count
    · obtain ⟨blank, notExpandAll⟩ := first.new j low old
      have kind : ∀ s r d, (h'.node j).operation.type ≠ .expandAll s r d := by
        rw [second.operation j old]
        exact notExpandAll
      refine ⟨?_, kind⟩
      by_contra full
      obtain ⟨s, r, d, expanding, -⟩ := second.scanned j old blank full
      exact notExpandAll s r d expanding
    · exact second.new j (Nat.not_lt.mp old) high

theorem ScansAdded.children_kept {i : Nat} (added : ScansAdded g h h') (made : i < h.count)
    (notLeaf : ∀ s r d, (h.node i).operation.type = .expandAll s r d →
      (h.node i).children.items ≠ []) :
    (h'.node i).children.items = (h.node i).children.items := by
  by_cases empty : (h.node i).children.items = []
  · by_contra changed
    obtain ⟨s, r, d, expanding, -⟩ := added.scanned i made empty (by rwa [empty] at changed)
    exact notLeaf s r d expanding empty
  · exact added.kept i made empty

def EntriesScanned (h : Heap) (x : Nat) : Prop :=
  ∀ y, h.Reaches x y → ∀ s r d, (h.node y).operation.type = .expandAll s r d →
    (h.node y).children.items ≠ []

theorem EntriesScanned.keep {x : Nat} (wf : h.WellFormed) (made : x < h.count)
    (scanned : EntriesScanned h x) (added : ScansAdded g h h') : EntriesScanned h' x := by
  have same y (reaches : h.Reaches x y) :=
    added.children_kept (reaches.lt_count wf.closed made) (scanned y reaches)
  have back : ∀ a y, h.Reaches x a → h'.Reaches a y → h.Reaches x y := fun a y before after => by
    induction after with
    | refl => exact before
    | child member _ ih => exact ih (before.tail (same _ before ▸ member))
  intro y reaches s r d expanding
  have before := back x y (.refl x) reaches
  rw [same y before]
  exact scanned y before s r d
    (by rwa [added.operation y (before.lt_count wf.closed made)] at expanding)

theorem forEachChild_scans {visit : Nat → Heap → Option Heap} {x fuel i : Nat}
    (visits : ∀ {c h h'}, h.WellFormed → c < h.count → visit c h = some h' →
      ScansAdded g h h' ∧ EntriesScanned h' c ∧ h'.WellFormed)
    (wf : h.WellFormed) (made : x < h.count) (runs : forEachChild visit x fuel i h = some h') :
    ScansAdded g h h' ∧ h'.WellFormed ∧
      ∀ j ≥ i, ∀ c, (h.node x).children.items[j]? = some c → EntriesScanned h' c := by
  induction fuel generalizing i h with
  | zero => cases runs
  | succ fuel ih =>
    simp only [forEachChild] at runs
    split at runs
    · rename_i beyond
      cases runs
      refine ⟨.refl, wf, fun j later c found => ?_⟩
      have short := List.getElem?_eq_none_iff.mp beyond
      rw [List.getElem?_eq_none_iff.mpr (by omega)] at found
      cases found
    · rename_i child found
      obtain ⟨h₁, visited, rest⟩ := Option.bind_eq_some.mp runs
      have childMade := (wf.closed x).1 _ (List.getElem?_mem found)
      obtain ⟨added₁, scanned₁, wf₁⟩ := visits wf childMade visited
      have same := added₁.kept x made (List.ne_nil_of_mem (List.getElem?_mem found))
      obtain ⟨added, wf', later⟩ := ih wf₁ (Nat.lt_of_lt_of_le made added₁.grows) rest
      refine ⟨added₁.trans added, wf', fun j atLeast c at_j => ?_⟩
      rcases Nat.eq_or_lt_of_le atLeast with rfl | further
      · obtain rfl : child = c := Option.some.inj (found.symm.trans at_j)
        exact scanned₁.keep wf₁ (Nat.lt_of_lt_of_le childMade added₁.grows) added
      · exact later j further c (by rwa [same])

theorem optimizeEntryPoints_scans {fuel x : Nat} (wf : h.WellFormed) (made : x < h.count)
    (runs : optimizeEntryPoints g fuel x h = some h') :
    ScansAdded g h h' ∧ EntriesScanned h' x ∧ h'.WellFormed := by
  induction fuel generalizing x h h' with
  | zero => cases runs
  | succ fuel ih =>
    simp only [optimizeEntryPoints] at runs
    split at runs
    · rename_i src relation dest leaf expanding
      cases runs
      refine ⟨⟨Nat.le_succ _, fun i lt => by simp [Heap.node_newOpNode, Nat.ne_of_lt lt],
        fun i lt full => ?_, fun i lt empty full => ?_, fun i lt empty c member => ?_,
        fun j low high => ?_⟩, ?_,
        (wf.newOpNode _).addChild ⟨Nat.lt_succ_of_lt made, Nat.lt_succ_self _⟩⟩
      · have other : i ≠ x := fun same => full (same ▸ leaf)
        simp [Heap.node_newOpNode, Nat.ne_of_lt lt, other]
      · by_cases same : i = x
        · subst same
          exact ⟨src, relation, dest, expanding, h.count, Nat.lt_succ_self _,
            by simp [Heap.node_newOpNode, OpNode.fresh]⟩
        · simp [Heap.node_newOpNode, Nat.ne_of_lt lt, same, empty] at full
      · by_cases same : i = x
        · subst same
          simp [Heap.node_newOpNode, Nat.ne_of_lt lt, empty] at member
          omega
        · simp [Heap.node_newOpNode, Nat.ne_of_lt lt, same, empty] at member
      · obtain rfl : j = h.count := Nat.le_antisymm (Nat.lt_succ_iff.mp high) low
        refine ⟨by simp [Heap.node_newOpNode, Nat.ne_of_gt made, OpNode.fresh, PtrArray.null],
          fun s r d => ?_⟩
        simpa [Heap.node_newOpNode, OpNode.fresh] using newScanOp_not_expandAll src s r d
      · intro y reaches s r d expanding'
        cases reaches with
        | refl => simp
        | child member rest =>
          simp [Heap.node_newOpNode, Nat.ne_of_lt made, leaf] at member
          subst member
          cases rest with
          | refl =>
            simp [Heap.node_newOpNode, OpNode.fresh] at expanding'
            exact (newScanOp_not_expandAll _ _ _ _ expanding').elim
          | child member' _ =>
            simp [Heap.node_newOpNode, OpNode.fresh, PtrArray.null] at member'
            exact absurd member'.1 (Nat.ne_of_gt made)
    · rename_i notLeaf
      obtain ⟨added, wf', children⟩ :=
        forEachChild_scans (fun wf made visited => ih wf made visited) wf made runs
      refine ⟨added, ?_, wf'⟩
      have same := added.children_kept made fun s r d expanding empty => notLeaf s r d empty expanding
      intro y reaches s r d expanding
      cases reaches with
      | refl =>
        rw [same]
        intro empty
        exact notLeaf s r d empty (by rwa [added.operation x made] at expanding)
      | child member rest =>
        rw [same] at member
        obtain ⟨j, at_j⟩ := List.mem_iff_getElem?.mp member
        exact children j (Nat.zero_le j) _ at_j y rest s r d expanding

/-- After the entry-point optimisation every edge of a walk from an entry node has an `ExpandAll`,
and every node on it an `ExpandAll` into it or, for the entry node, a scan. -/
theorem optimizeEntryPoints_covers {fuel : Nat} {entryNodes ops : List Nat} {h₂ : Heap}
    (simple : ∀ e ∈ entryNodes, g.WalkSimple e) (entry : EntryState g entryNodes 0 h ops)
    (parents : ParentsState 0 h ops) (rootOnly : entryNodes ≠ [] → ops = [0])
    (walks : ∀ v ∈ entryNodes, WalkExpanded g h v)
    (optimized : optimizeEntryPoints g fuel 0 h = some h₂) : WalksCovered g entryNodes h₂ := by
  have state := optimizeEntryPoints_mergeState simple entry parents optimized
  have layered := optimizeEntryPoints_layered simple entry.built entry.layered entry.rootMade
    optimized
  obtain ⟨added, scanned, -⟩ :=
    optimizeEntryPoints_scans entry.built.wellFormed entry.rootMade optimized
  -- with an entry node the root reaches every operator
  have reached {x : Nat} (nonempty : entryNodes ≠ []) (made : x < h₂.count) : h₂.Reaches 0 x := by
    obtain ⟨t, tMade, top, reaches⟩ :=
      state.descend.acyclicUpToSelfLinks.exists_top state.wellFormed made
    rcases state.tops t tMade top with ⟨kept, -⟩ | self
    · rw [rootOnly nonempty, List.mem_singleton] at kept
      rwa [kept] at reaches
    · exact absurd self (layered.not_mem_children_self t)
  have kept {i : Nat} {type : OpType} (made : i < h.count) (old : (h.node i).operation.type = type) :
      ∃ j < h₂.count, (h₂.node j).operation.type = type :=
    ⟨i, Nat.lt_of_lt_of_le made added.grows, by rw [added.operation i made, old]⟩
  refine ⟨fun u ⟨v, entered, k, at_k⟩ e w step => ?_, fun u ⟨v, entered, k, at_k⟩ => ?_⟩
  · obtain ⟨i, made, expanding⟩ := (walks v entered).edges k u e w at_k step
    obtain ⟨j, jMade, expanding'⟩ := kept made expanding
    exact ⟨j, jMade, .inl expanding'⟩
  cases k with
  | succ k =>
    rw [Graph.hop_succ] at at_k
    obtain ⟨a, at_a, step⟩ := Option.bind_eq_some.mp at_k
    obtain ⟨⟨e, w⟩, next, rfl⟩ := Option.map_eq_some'.mp step
    obtain ⟨i, made, expanding⟩ := (walks v entered).edges k a e w at_a next
    obtain ⟨j, jMade, expanding'⟩ := kept made expanding
    exact ⟨j, jMade, .inl (by rw [expanding']; rfl)⟩
  | zero =>
    obtain rfl : v = u := Option.some.inj at_k
    cases stepping : g.next v with
    | none =>
      obtain ⟨i, made, scanning⟩ := (walks v entered).scan stepping
      obtain ⟨j, jMade, scanning'⟩ := kept made scanning
      exact ⟨j, jMade, .inl (scanning' ▸ newScanOp_binds g v)⟩
    | some edge =>
      obtain ⟨i, made, expanding, leaf⟩ := (walks v entered).leaf edge.1 edge.2 stepping
      have full := scanned i (reached (List.ne_nil_of_mem entered)
        (Nat.lt_of_lt_of_le made added.grows)) _ _ _ (by rw [added.operation i made, expanding])
      obtain ⟨s, r, d, expanding', j, jMade, scan⟩ := added.scanned i made leaf full
      rw [expanding] at expanding'
      cases expanding'
      exact ⟨j, jMade, .inl (scan ▸ newScanOp_binds g v)⟩

end Optimize

/-! ### The merges and the filters -/

section Keep

variable {g : Graph} {entryNodes : List Nat} {h h' : Heap}

/-- A merge turns `a` into an `ExpandInto` on its own edge; what `a` bound, `b` still binds, or,
when `b` is `a`, `a` is now its own child. -/
theorem WalksCovered.merge {root a b s r s' r' n : Nat} {ops : List Nat}
    (covered : WalksCovered g entryNodes h) (state : MergeState g root ops h)
    (aAll : (h.node a).operation.type = .expandAll s r n)
    (bAll : (h.node b).operation.type = .expandAll s' r' n)
    (merged : Merged h h' a b (newExpandIntoOp s r n)) (wf' : h'.WellFormed)
    (count' : h'.count = h.count) : WalksCovered g entryNodes h' := by
  have other {x : Nat} (xa : x ≠ a) : (h'.node x).operation = (h.node x).operation := by
    rw [merged.operation, if_neg xa]
  have intoA : (h'.node a).operation.type = .expandInto s r n := by
    simp [merged.operation, newExpandIntoOp]
  have under : b ∈ (h'.node a).children.items :=
    wf'.mem_children_of_mem_parents (merged.onlyParent ▸ List.mem_singleton_self a)
  refine ⟨fun u onWalk e w step => ?_, fun u onWalk => ?_⟩
  · obtain ⟨i, made, checks⟩ := covered.edges u onWalk e w step
    rw [← count'] at made
    by_cases ia : i = a
    · subst ia
      rw [aAll] at checks
      obtain ⟨rfl, rfl, rfl⟩ : s = u ∧ r = e ∧ n = w := by simpa using checks
      exact ⟨i, made, .inr intoA⟩
    · exact ⟨i, made, by rwa [other ia]⟩
  obtain ⟨i, made, binds | ⟨src, relation, into, self⟩⟩ := covered.nodes u onWalk
  · rw [← count'] at made
    by_cases ia : i = a
    · subst ia
      rw [aAll] at binds
      subst binds
      by_cases ba : b = i
      · subst ba
        exact ⟨b, made, .inr ⟨s, r, intoA, under⟩⟩
      · exact ⟨b, (wf'.closed i).1 b under, .inl (by rw [other ba, bAll]; rfl)⟩
    · exact ⟨i, made, .inl (by rwa [other ia])⟩
  · -- self-links are `ExpandInto`s, neither `a` nor `b`, and keep their parents
    have ia : i ≠ a := fun same => by rw [same, aAll] at into; cases into
    have ib : i ≠ b := fun same => by rw [same, bAll] at into; cases into
    refine ⟨i, count' ▸ made, .inr ⟨src, relation, by rwa [other ia], ?_⟩⟩
    refine wf'.mem_children_of_mem_parents ?_
    rw [merged.parents i ia ib]
    exact state.wellFormed.mem_parents_of_mem_children self

theorem mergeNodes_fold_covers {fuel root : Nat} {ops nodes : List Nat} (distinct : nodes.Nodup)
    (state : MergeState g root ops h)
    (pending : ∀ i s r m, (h.node i).operation.type = .expandInto s r m → m ∉ nodes)
    (covered : WalksCovered g entryNodes h)
    (merged : nodes.foldlM (mergeNodes g fuel root) h = some h') : WalksCovered g entryNodes h' :=
  mergeNodes_fold_induction distinct state pending (fun _ state₁ unmerged merges covered₁ => by
    obtain ⟨wf', -, count', -⟩ :=
      mergeNodes_descends state₁.wellFormed state₁.descend state₁.rootMade unmerged merges
    rcases mergeNodes_cases state₁ merges with rfl | ⟨-, a, b, s, r, s', r', aAll, bAll, merged⟩
    · exact covered₁
    · exact covered₁.merge state₁ aAll bAll merged wf' count') covered merged

theorem WalksCovered.keep (covered : WalksCovered g entryNodes h) (keeps : KeepsSelfLinks h h') :
    WalksCovered g entryNodes h' where
  edges u onWalk e w step := by
    obtain ⟨i, made, checks⟩ := covered.edges u onWalk e w step
    exact ⟨i, Nat.lt_of_lt_of_le made keeps.grows, by rwa [keeps.operation i made]⟩
  nodes u onWalk := by
    obtain ⟨i, made, binds⟩ := covered.nodes u onWalk
    refine ⟨i, Nat.lt_of_lt_of_le made keeps.grows, ?_⟩
    rw [keeps.operation i made]
    exact binds.imp_right fun ⟨src, relation, into, self⟩ =>
      ⟨src, relation, into, (keeps.kept i self).symm ▸ self⟩

end Keep

/-! ### The plans `NewExecutionPlan` returns -/

/-- `a -> b`, `a -> c`: node `a` has two outgoing edges. -/
def forkQuery : QueryExpressionNode :=
  ⟨⟨[⟨"a", none⟩, ⟨"b", none⟩, ⟨"c", none⟩], [⟨0, 1⟩, ⟨0, 2⟩]⟩, none, ⟨[⟨.node⟩], false⟩⟩

end RedisGraph.Plan
