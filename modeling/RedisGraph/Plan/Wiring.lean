import RedisGraph.Plan.OpNode
import Mathlib.Logic.Relation

/-! What the wiring calls of lines 20-112 keep: every link is recorded on both sides, as often on
each, and no array holds a node that was not allocated. A run is any sequence of those calls on
nodes `NewOpNode` made; `allowed` says which operators new and rewritten nodes may carry. -/

namespace RedisGraph.Plan

namespace Heap

/-- `c` occurs in `p->children` exactly as often as `p` occurs in `c->parents`. -/
def LinksSymmetric (h : Heap) : Prop :=
  ∀ p c, (h.node p).children.items.count c = (h.node c).parents.items.count p

/-- Every link array holds allocated nodes only. -/
def Closed (h : Heap) : Prop :=
  ∀ i, (∀ j ∈ (h.node i).children.items, j < h.count) ∧ ∀ j ∈ (h.node i).parents.items, j < h.count

structure WellFormed (h : Heap) : Prop where
  symmetric : h.LinksSymmetric
  closed : h.Closed

/-- One call of lines 20-112 on nodes `NewOpNode` made. -/
inductive Step (allowed : OpBase → Prop) (h : Heap) : Heap → Prop where
  | newOpNode (op : OpBase) (ok : allowed op) : Step allowed h (h.newOpNode op).2
  | addChild (parent child : Nat) (made : parent < h.count ∧ child < h.count) :
      Step allowed h (h.addChild parent child)
  | removeChild (parent child : Nat) (made : parent < h.count ∧ child < h.count) :
      Step allowed h (h.removeChild parent child)
  | removeParent (child parent : Nat) (made : parent < h.count ∧ child < h.count) :
      Step allowed h (h.removeParent child parent)
  | pushInBetween (parent onlyChild fuel : Nat) (made : parent < h.count ∧ onlyChild < h.count)
      {h' : Heap} (runs : pushInBetween parent onlyChild fuel h = some h') : Step allowed h h'
  | setOperation (node : Nat) (op : OpBase) (ok : allowed op) (made : node < h.count) :
      Step allowed h (h.setOperation node op)

/-- A sequence of such calls. -/
def Run (allowed : OpBase → Prop) : Heap → Heap → Prop :=
  Relation.ReflTransGen (Step allowed)

variable {allowed : OpBase → Prop} {h h' : Heap}

theorem Run.invariant {P : Heap → Prop} (preserved : ∀ {h h'}, P h → Step allowed h h' → P h')
    (start : P h) (run : Run allowed h h') : P h' := by
  induction run with
  | refl => exact start
  | tail _ step ih => exact preserved ih step

theorem Run.mono {allowed' : OpBase → Prop} (wider : ∀ op, allowed op → allowed' op)
    (run : Run allowed h h') : Run allowed' h h' := by
  refine Relation.ReflTransGen.mono (fun a b step => ?_) run
  cases step with
  | newOpNode op ok => exact .newOpNode op (wider op ok)
  | addChild p c made => exact .addChild p c made
  | removeChild p c made => exact .removeChild p c made
  | removeParent c p made => exact .removeParent c p made
  | pushInBetween p o fuel made runs => exact .pushInBetween p o fuel made runs
  | setOperation n op ok made => exact .setOperation n op (wider op ok) made

theorem wellFormed_empty : empty.WellFormed := by
  refine ⟨fun _ _ => ?_, fun _ => ?_⟩ <;> simp [empty, OpNode.fresh, PtrArray.null]

theorem WellFormed.not_mem_children (wf : h.WellFormed) (i : Nat) :
    h.count ∉ (h.node i).children.items :=
  fun member => Nat.lt_irrefl _ ((wf.closed i).1 _ member)

theorem WellFormed.not_mem_parents (wf : h.WellFormed) (i : Nat) :
    h.count ∉ (h.node i).parents.items :=
  fun member => Nat.lt_irrefl _ ((wf.closed i).2 _ member)

theorem WellFormed.next_blank (wf : h.WellFormed) :
    (h.node h.count).children.items = [] ∧ (h.node h.count).parents.items = [] := by
  constructor <;> refine List.eq_nil_iff_forall_not_mem.mpr fun j member => ?_
  · have absent := List.count_eq_zero.mpr (wf.not_mem_parents j)
    rw [← wf.symmetric] at absent
    exact List.count_eq_zero.mp absent member
  · have absent := List.count_eq_zero.mpr (wf.not_mem_children j)
    rw [wf.symmetric] at absent
    exact List.count_eq_zero.mp absent member

theorem WellFormed.lt_count_of_mem_children (wf : h.WellFormed) {i j : Nat}
    (member : j ∈ (h.node i).children.items) : i < h.count := by
  have linked := List.count_pos_iff.mpr member
  rw [wf.symmetric] at linked
  exact (wf.closed j).2 i (List.count_pos_iff.mp linked)

theorem WellFormed.lt_count_of_mem_parents (wf : h.WellFormed) {i j : Nat}
    (member : j ∈ (h.node i).parents.items) : i < h.count := by
  have linked := List.count_pos_iff.mpr member
  rw [← wf.symmetric] at linked
  exact (wf.closed j).1 i (List.count_pos_iff.mp linked)

theorem WellFormed.mem_parents_of_mem_children (wf : h.WellFormed) {c p : Nat}
    (member : c ∈ (h.node p).children.items) : p ∈ (h.node c).parents.items := by
  have linked := List.count_pos_iff.mpr member
  rw [wf.symmetric] at linked
  exact List.count_pos_iff.mp linked

theorem WellFormed.mem_children_of_mem_parents (wf : h.WellFormed) {c p : Nat}
    (member : p ∈ (h.node c).parents.items) : c ∈ (h.node p).children.items := by
  have linked := List.count_pos_iff.mpr member
  rw [← wf.symmetric] at linked
  exact List.count_pos_iff.mp linked

theorem WellFormed.newOpNode (wf : h.WellFormed) (op : OpBase) : (h.newOpNode op).2.WellFormed := by
  obtain ⟨noChildren, noParents⟩ := wf.next_blank
  constructor
  · intro p c
    by_cases fresh_p : p = h.count <;> by_cases fresh_c : c = h.count <;>
      simp [Heap.newOpNode, OpNode.fresh, PtrArray.null, fresh_p, fresh_c, noChildren, noParents,
        List.count_eq_zero.mpr (wf.not_mem_children _), List.count_eq_zero.mpr (wf.not_mem_parents _),
        wf.symmetric p c]
  · intro i
    by_cases fresh : i = h.count <;>
      simp only [Heap.newOpNode, fresh, if_true, if_false, OpNode.fresh, PtrArray.null,
        List.not_mem_nil, false_implies, implies_true, and_self]
    exact ⟨fun j member => Nat.lt_succ_of_lt ((wf.closed i).1 j member),
      fun j member => Nat.lt_succ_of_lt ((wf.closed i).2 j member)⟩

theorem WellFormed.addChild (wf : h.WellFormed) {p c : Nat} (made : p < h.count ∧ c < h.count) :
    (h.addChild p c).WellFormed := by
  constructor
  · intro p' c'
    have same := wf.symmetric p' c'
    by_cases hp : p' = p <;> by_cases hc : c' = c <;>
      simp [hp, hc, List.count_append, List.count_singleton] at same ⊢ <;> omega
  · intro i
    have ⟨below, above⟩ := wf.closed i
    refine ⟨fun j member => ?_, fun j member => ?_⟩ <;>
      simp only [children_addChild, parents_addChild, count_addChild] at member ⊢ <;>
      split at member
    · rcases List.mem_append.mp member with member | member
      · exact below j member
      · exact List.mem_singleton.mp member ▸ made.2
    · exact below j member
    · rcases List.mem_append.mp member with member | member
      · exact above j member
      · exact List.mem_singleton.mp member ▸ made.1
    · exact above j member

theorem WellFormed.removeNode (wf : h.WellFormed) (a b : Nat) : (h.removeNode a b).WellFormed := by
  constructor
  · intro p c
    have same := wf.symmetric p c
    by_cases ha : p = a <;> by_cases hb : c = b <;>
      simp [ha, hb, List.count_erase] at same ⊢ <;> omega
  · intro i
    have ⟨below, above⟩ := wf.closed i
    constructor <;> intro j member <;> simp only [children_removeNode, parents_removeNode,
      count_removeNode] at member ⊢ <;> split at member
    all_goals first
      | exact below j (List.mem_of_mem_erase member) | exact below j member
      | exact above j (List.mem_of_mem_erase member) | exact above j member

theorem WellFormed.setOperation (wf : h.WellFormed) (i : Nat) (op : OpBase) :
    (h.setOperation i op).WellFormed := by
  have node_eq (n : Nat) : ((h.setOperation i op).node n).children = (h.node n).children ∧
      ((h.setOperation i op).node n).parents = (h.node n).parents := by
    by_cases same : n = i <;> simp [Heap.setOperation, update, same]
  exact ⟨fun p c => by rw [(node_eq p).1, (node_eq c).2]; exact wf.symmetric p c,
    fun n => by rw [(node_eq n).1, (node_eq n).2]; exact wf.closed n⟩

theorem pushInBetween_preserves {P : Heap → Prop} {parent onlyChild fuel : Nat}
    (add : ∀ {h p c}, P h → p < h.count → c < h.count → P (h.addChild p c))
    (remove : ∀ {h a b}, P h → P (h.removeNode a b)) (closed : ∀ {h}, P h → h.Closed)
    (made : parent < h.count ∧ onlyChild < h.count) (start : P h)
    (runs : pushInBetween parent onlyChild fuel h = some h') : P h' ∧ h'.count = h.count := by
  induction fuel generalizing h with
  | zero => cases runs
  | succ fuel ih =>
    simp only [pushInBetween] at runs
    split at runs
    · cases runs
      exact ⟨add start made.1 made.2, rfl⟩
    · rename_i first rest children
      have firstMade : first < h.count := (closed start parent).1 first (by simp [children])
      have added := add start made.2 firstMade
      obtain ⟨kept, same⟩ := ih (h := (h.addChild onlyChild first).removeChild parent _)
        (by simpa [removeChild] using made) (remove added) runs
      exact ⟨kept, by simpa [removeChild] using same⟩

theorem operation_pushInBetween {parent onlyChild fuel i : Nat}
    (runs : pushInBetween parent onlyChild fuel h = some h') :
    (h'.node i).operation = (h.node i).operation := by
  induction fuel generalizing h with
  | zero => cases runs
  | succ fuel ih =>
    simp only [pushInBetween] at runs
    split at runs
    · cases runs
      simp
    · rw [ih runs]
      simp [removeChild]

theorem count_pushInBetween {parent onlyChild fuel : Nat}
    (runs : pushInBetween parent onlyChild fuel h = some h') : h'.count = h.count := by
  induction fuel generalizing h with
  | zero => cases runs
  | succ fuel ih =>
    simp only [pushInBetween] at runs
    split at runs
    · cases runs
      rfl
    · rw [ih runs]
      rfl

/-- `_OpNode_PushInBetween(parent, onlyChild)` moves the children of `parent`, in order, after
those of `onlyChild`, and leaves `onlyChild` the only child of `parent`. -/
theorem children_pushInBetween {parent onlyChild fuel : Nat} (distinct : parent ≠ onlyChild)
    (runs : pushInBetween parent onlyChild fuel h = some h') (n : Nat) :
    (h'.node n).children.items =
      if n = parent then [onlyChild]
      else if n = onlyChild then (h.node onlyChild).children.items ++ (h.node parent).children.items
      else (h.node n).children.items := by
  induction fuel generalizing h with
  | zero => cases runs
  | succ fuel ih =>
    simp only [pushInBetween] at runs
    split at runs
    · rename_i empty
      cases runs
      by_cases atParent : n = parent
      · subst atParent
        simp [empty]
      · by_cases atOnly : n = onlyChild <;> simp [atParent, atOnly, empty, Ne.symm distinct]
    · rename_i first rest children
      rw [ih runs]
      have kept : ((h.addChild onlyChild first).node parent).children.items = first :: rest := by
        simp [distinct, children]
      by_cases atParent : n = parent
      · simp [atParent]
      · by_cases atOnly : n = onlyChild
        · subst atOnly
          simp [removeChild, kept, distinct, Ne.symm distinct, children]
        · simp [removeChild, kept, atParent, atOnly]

theorem erase_append_singleton {l : List Nat} {a x : Nat} (ne : x ≠ a) :
    (l ++ [x]).erase a = l.erase a ++ [x] := by
  by_cases mem : a ∈ l
  · exact List.erase_append_left _ mem
  · rw [List.erase_append_right _ mem, List.erase_of_not_mem mem,
      List.erase_of_not_mem (by simpa using ne.symm)]

theorem diff_append_singleton {x : Nat} (l l₂ : List Nat) (fresh : x ∉ l₂) :
    (l ++ [x]).diff l₂ = l.diff l₂ ++ [x] := by
  induction l₂ generalizing l with
  | nil => rfl
  | cons b l₂ ih =>
    simp only [List.diff_cons]
    rw [erase_append_singleton (List.ne_of_not_mem_cons fresh), ih _ (List.not_mem_of_not_mem_cons fresh)]

theorem pushInBetween_cons {parent onlyChild fuel first : Nat} {rest : List Nat}
    (distinct : parent ≠ onlyChild) (children : (h.node parent).children.items = first :: rest) :
    pushInBetween parent onlyChild (fuel + 1) h =
      pushInBetween parent onlyChild fuel ((h.addChild onlyChild first).removeChild parent first) := by
  simp [pushInBetween, children, distinct]

theorem parents_pushInBetween {parent onlyChild fuel : Nat} (distinct : parent ≠ onlyChild)
    (fresh : onlyChild ∉ (h.node parent).children.items)
    (runs : pushInBetween parent onlyChild fuel h = some h') (n : Nat) :
    (h'.node n).parents.items =
      if n = onlyChild then (h.node n).parents.items ++ [parent]
      else (h.node n).parents.items.diff
          (List.replicate ((h.node parent).children.items.count n) parent) ++
        List.replicate ((h.node parent).children.items.count n) onlyChild := by
  induction fuel generalizing h with
  | zero => cases runs
  | succ fuel ih =>
    cases children : (h.node parent).children.items with
    | nil =>
      simp only [pushInBetween, children] at runs
      cases runs
      by_cases atOnly : n = onlyChild <;> simp [atOnly]
    | cons first rest =>
      rw [pushInBetween_cons distinct children] at runs
      rw [children] at fresh
      have moved : (((h.addChild onlyChild first).removeChild parent first).node
          parent).children.items = rest := by simp [removeChild, distinct, children]
      rw [ih (by rw [moved]; exact List.not_mem_of_not_mem_cons fresh) runs, moved]
      have notFirst : onlyChild ≠ first := List.ne_of_not_mem_cons fresh
      by_cases atOnly : n = onlyChild
      · subst atOnly
        simp [removeChild, notFirst]
      · by_cases atFirst : n = first
        · subst atFirst
          have apart : onlyChild ∉ List.replicate (rest.count n) parent := by
            simp [Ne.symm distinct]
          simp [removeChild, atOnly, erase_append_singleton (Ne.symm distinct),
            diff_append_singleton _ _ apart, List.replicate_succ]
        · simp [removeChild, atOnly, atFirst, List.count_cons, Ne.symm atFirst]

/-- With `parent ≠ onlyChild` the loop runs once per child of `parent`, and more fuel changes
nothing. -/
theorem pushInBetween_terminates {parent onlyChild : Nat} (distinct : parent ≠ onlyChild) :
    ∃ h', ∀ fuel, (h.node parent).children.items.length < fuel →
      pushInBetween parent onlyChild fuel h = some h' := by
  generalize children : (h.node parent).children.items = cs
  induction cs generalizing h with
  | nil =>
    refine ⟨h.addChild parent onlyChild, fun fuel enough => ?_⟩
    cases fuel with
    | zero => simp at enough
    | succ fuel => simp [pushInBetween, children]
  | cons first rest ih =>
    obtain ⟨h', runs⟩ := ih (h := (h.addChild onlyChild first).removeChild parent first)
      (by simp [removeChild, distinct, children])
    refine ⟨h', fun fuel enough => ?_⟩
    cases fuel with
    | zero => simp at enough
    | succ fuel =>
      rw [pushInBetween_cons distinct children]
      exact runs _ (by simpa using enough)

/-- The link arrays `_OpNode_PushInBetween(parent, onlyChild)` leaves: `onlyChild` takes the
children of `parent`, becomes its only child, and replaces it among their parents. -/
structure PushedInBetween (h : Heap) (parent onlyChild : Nat) (h' : Heap) : Prop where
  children : ∀ n, (h'.node n).children.items =
    if n = parent then [onlyChild]
    else if n = onlyChild then (h.node onlyChild).children.items ++ (h.node parent).children.items
    else (h.node n).children.items
  parents : ∀ n, (h'.node n).parents.items =
    if n = onlyChild then (h.node n).parents.items ++ [parent]
    else (h.node n).parents.items.diff
        (List.replicate ((h.node parent).children.items.count n) parent) ++
      List.replicate ((h.node parent).children.items.count n) onlyChild

/-- `_OpNode_PushInBetween(parent, onlyChild)`, for an `onlyChild` that is neither `parent` nor one
of its children, ends, with the effect `PushedInBetween`. -/
theorem pushInBetween_moves_links {parent onlyChild : Nat} (distinct : parent ≠ onlyChild)
    (fresh : onlyChild ∉ (h.node parent).children.items) :
    ∃ h', (∀ fuel, (h.node parent).children.items.length < fuel →
      pushInBetween parent onlyChild fuel h = some h') ∧ h.PushedInBetween parent onlyChild h' := by
  obtain ⟨h', runs⟩ := pushInBetween_terminates (h := h) distinct
  have ran := runs _ (Nat.lt_succ_self _)
  exact ⟨h', runs, children_pushInBetween distinct ran, parents_pushInBetween distinct fresh ran⟩

/-- A `ProduceResults` node `0` over scans `1` and `2`, and a new `Filter` node `3`. -/
def filterInsertion : Heap :=
  let h := [⟨.produceResults, []⟩, ⟨.allNodeScan 0, ["a"]⟩, ⟨.allNodeScan 1, ["b"]⟩,
    ⟨.filter ⟨[]⟩, []⟩].foldl (fun h op => (h.newOpNode op).2) empty
  (h.addChild 0 1).addChild 0 2

theorem filterInsertion_pushed : 0 ≠ 3 ∧ 3 ∉ (filterInsertion.node 0).children.items ∧
    ∃ h', (∀ fuel, (filterInsertion.node 0).children.items.length < fuel →
      pushInBetween 0 3 fuel filterInsertion = some h') ∧
      filterInsertion.PushedInBetween 0 3 h' :=
  ⟨by decide, by decide, pushInBetween_moves_links (by decide) (by decide)⟩

theorem WellFormed.step (wf : h.WellFormed) (step : Step allowed h h') : h'.WellFormed := by
  cases step with
  | newOpNode op _ => exact wf.newOpNode op
  | addChild p c made => exact wf.addChild made
  | removeChild p c _ => exact wf.removeNode p c
  | removeParent c p _ => exact wf.removeNode p c
  | pushInBetween p o fuel made runs =>
    exact (pushInBetween_preserves (fun wf hp hc => wf.addChild ⟨hp, hc⟩)
      (fun wf => wf.removeNode _ _) WellFormed.closed made wf runs).1
  | setOperation n op _ _ => exact wf.setOperation n op

theorem Run.wellFormed (run : Run allowed empty h) : h.WellFormed :=
  run.invariant (fun wf step => wf.step step) wellFormed_empty

theorem Step.operation (step : Step allowed h h') (i : Nat) :
    (h'.node i).operation = (h.node i).operation ∨ allowed (h'.node i).operation := by
  cases step with
  | newOpNode op ok =>
    by_cases fresh : i = h.count <;> simp [Heap.newOpNode, fresh, OpNode.fresh, ok]
  | pushInBetween p o fuel made runs => exact .inl (operation_pushInBetween runs)
  | setOperation n op ok made =>
    by_cases same : i = n <;> simp [Heap.setOperation, update, same, ok]
  | _ => simp [Heap.removeChild, Heap.removeParent]

theorem Run.operations (run : Run allowed h h') (start : ∀ i, allowed (h.node i).operation)
    (i : Nat) : allowed (h'.node i).operation := by
  induction run generalizing i with
  | refl => exact start i
  | tail _ step ih => exact (step.operation i).elim (fun same => same ▸ ih i) id

theorem Step.count_le (step : Step allowed h h') : h.count ≤ h'.count := by
  cases step with
  | newOpNode op _ => exact Nat.le_succ _
  | pushInBetween p o fuel made runs => exact (count_pushInBetween runs).ge
  | _ => simp [Heap.removeChild, Heap.removeParent]

theorem Run.count_le (run : Run allowed h h') : h.count ≤ h'.count := by
  induction run with
  | refl => exact le_rfl
  | tail _ step ih => exact ih.trans step.count_le

end Heap

end RedisGraph.Plan
