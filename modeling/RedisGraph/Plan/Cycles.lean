import RedisGraph.Plan.Filters
import Mathlib.Data.List.Chain

/-! The cycles of the plans `NewExecutionPlan` builds. Each expansion and scan sits at the
pattern node it expands into or scans, and that node lies on a first-edge walk that ends. The
builder links an operator only to operators further from the end of their walks (lines 340-391
and 206-228), and `_ExecutionPlan_MergeNodes` (lines 120-193) keeps that order, except where its
search, which keeps no visited set, meets one `ExpandAll` twice: `_OpNode_AddChild(expandInto, b)`
then makes the new `ExpandInto` its own child. `_ExecutionPlan_AddFilters` keeps those self-links
and makes no other cycle. -/

namespace RedisGraph.Plan

open Pattern Filter

/-- Where an operator sits on the first-edge walks: further from the end of its walk is deeper, and
at one node an `ExpandInto` lies above an `ExpandAll`, which lies above a scan. -/
def opRank (g : Graph) : OpType → Nat × Nat
  | .expandInto _ _ dest => (g.toEnd dest + 1, 3 * dest)
  | .expandAll _ _ dest => (g.toEnd dest + 1, 3 * dest + 1)
  | .allNodeScan node => (g.toEnd node + 1, 3 * node + 2)
  | .nodeByLabelScan node _ => (g.toEnd node + 1, 3 * node + 2)
  | .aggregate => (0, 1)
  | .produceResults | .filter _ => (0, 0)

/-- `s` lies strictly deeper than `r` in the lexicographic order. -/
def Deeper (r s : Nat × Nat) : Prop :=
  r.1 < s.1 ∨ r.1 = s.1 ∧ r.2 < s.2

theorem Deeper.trans {r s t : Nat × Nat} (first : Deeper r s) (second : Deeper s t) :
    Deeper r t := by
  unfold Deeper at *
  omega

theorem Deeper.irrefl (r : Nat × Nat) : ¬ Deeper r r := by
  unfold Deeper
  omega

section Ranks

variable {g : Graph} {src relation dest src' relation' : Nat}

theorem deeper_expandInto_expandAll : Deeper (opRank g (.expandInto src relation dest))
    (opRank g (.expandAll src' relation' dest)) := by
  simp [opRank, Deeper]

theorem Deeper.of_expandAll {t : OpType}
    (below : Deeper (opRank g (.expandAll src relation dest)) (opRank g t)) :
    Deeper (opRank g (.expandInto src' relation' dest)) (opRank g t) :=
  deeper_expandInto_expandAll.trans below

theorem Deeper.to_expandInto {t : OpType}
    (above : Deeper (opRank g t) (opRank g (.expandAll src relation dest)))
    (other : ∀ s r, t ≠ .expandInto s r dest) :
    Deeper (opRank g t) (opRank g (.expandInto src' relation' dest)) := by
  cases t with
  | expandInto s r d =>
    have apart : d ≠ dest := fun same => other s r (by rw [same])
    simp only [opRank, Deeper] at above ⊢
    omega
  | _ =>
    simp only [opRank, Deeper] at above ⊢
    omega

end Ranks

/-- Every link of `h` leads deeper, but for an `ExpandInto` that is its own child. -/
def LinksDescend (g : Graph) (h : Heap) : Prop :=
  ∀ a, ∀ b ∈ (h.node a).children.items,
    (b = a ∧ ∃ src relation dest, (h.node a).operation.type = .expandInto src relation dest) ∨
      Deeper (opRank g (h.node a).operation.type) (opRank g (h.node b).operation.type)

/-- Every cycle of `children` links is a self-link. -/
def Heap.AcyclicUpToSelfLinks (h : Heap) : Prop :=
  ∀ a b, b ∈ (h.node a).children.items → h.Reaches b a → b = a

theorem acyclicUpToSelfLinks_of_deeper {h : Heap} (rank : Nat → Nat × Nat)
    (deeper : ∀ a, ∀ b ∈ (h.node a).children.items, b = a ∨ Deeper (rank a) (rank b)) :
    h.AcyclicUpToSelfLinks := by
  have descends {a b : Nat} (reaches : h.Reaches a b) : b = a ∨ Deeper (rank a) (rank b) := by
    induction reaches with
    | refl => exact .inl rfl
    | @child a c b member _ ih =>
      rcases deeper a c member with rfl | down
      · exact ih
      · rcases ih with rfl | below
        · exact .inr down
        · exact .inr (down.trans below)
  intro a b member back
  rcases deeper a b member with same | down
  · exact same
  · rcases descends back with same | below
    · exact same.symm
    · exact absurd (down.trans below) (Deeper.irrefl _)

theorem Heap.AcyclicUpToSelfLinks.acyclic {h : Heap} (cycles : h.AcyclicUpToSelfLinks)
    (noSelf : ∀ i, i ∉ (h.node i).children.items) : h.Acyclic :=
  fun a b member back => noSelf a (cycles a b member back ▸ member)

theorem LinksDescend.acyclicUpToSelfLinks {g : Graph} {h : Heap} (descend : LinksDescend g h) :
    h.AcyclicUpToSelfLinks :=
  acyclicUpToSelfLinks_of_deeper (fun x => opRank g (h.node x).operation.type) fun a b member =>
    (descend a b member).imp_left And.left

theorem LinksDescend.acyclic {g : Graph} {h : Heap} (descend : LinksDescend g h)
    (noSelf : ∀ i, i ∉ (h.node i).children.items) : h.Acyclic :=
  descend.acyclicUpToSelfLinks.acyclic noSelf

theorem LinksDescend.addChild {g : Graph} {h : Heap} (descend : LinksDescend g h) {p c : Nat}
    (link : (c = p ∧
        ∃ src relation dest, (h.node p).operation.type = .expandInto src relation dest) ∨
      Deeper (opRank g (h.node p).operation.type) (opRank g (h.node c).operation.type)) :
    LinksDescend g (h.addChild p c) := by
  intro a b member
  simp only [Heap.children_addChild, Heap.operation_addChild] at member ⊢
  split at member
  · rename_i atP
    rcases List.mem_append.mp member with old | new
    · exact descend a b old
    · rw [List.mem_singleton.mp new, atP]
      exact link
  · exact descend a b member

theorem LinksDescend.removeNode {g : Graph} {h : Heap} (descend : LinksDescend g h) (p c : Nat) :
    LinksDescend g (h.removeNode p c) := by
  intro a b member
  simp only [Heap.children_removeNode, Heap.operation_removeNode] at member ⊢
  split at member
  · exact descend a b (List.mem_of_mem_erase member)
  · exact descend a b member

namespace Heap

variable {h : Heap}

@[simp] theorem fst_newOpNode (op : OpBase) : (h.newOpNode op).1 = h.count := rfl

theorem node_newOpNode (op : OpBase) (i : Nat) :
    (h.newOpNode op).2.node i = if i = h.count then OpNode.fresh op else h.node i := rfl

@[simp] theorem children_setOperation (i : Nat) (op : OpBase) (n : Nat) :
    ((h.setOperation i op).node n).children = (h.node n).children := by
  by_cases same : n = i <;> simp [setOperation, update, same]

@[simp] theorem parents_setOperation (i : Nat) (op : OpBase) (n : Nat) :
    ((h.setOperation i op).node n).parents = (h.node n).parents := by
  by_cases same : n = i <;> simp [setOperation, update, same]

@[simp] theorem operation_setOperation (i : Nat) (op : OpBase) (n : Nat) :
    ((h.setOperation i op).node n).operation = if n = i then op else (h.node n).operation := by
  by_cases same : n = i <;> simp [setOperation, update, same]

end Heap

/-- What the plan builder keeps up to its merges: the heap is well formed, every link leads
deeper, and no operator is an `ExpandInto`. -/
structure Layered (g : Graph) (h : Heap) : Prop where
  wellFormed : h.WellFormed
  descend : LinksDescend g h
  noInto : ∀ i src relation dest, (h.node i).operation.type ≠ .expandInto src relation dest

namespace Layered

variable {g : Graph} {h : Heap}

theorem empty : Layered g Heap.empty :=
  ⟨Heap.wellFormed_empty,
    fun _ _ member => by simp [Heap.empty, OpNode.fresh, PtrArray.null] at member,
    fun _ _ _ _ => by simp [Heap.empty, OpNode.fresh]⟩

theorem newOpNode (layered : Layered g h) {op : OpBase}
    (notInto : ∀ src relation dest, op.type ≠ .expandInto src relation dest) :
    Layered g (h.newOpNode op).2 where
  wellFormed := layered.wellFormed.newOpNode op
  descend a b member := by
    by_cases fresh : a = h.count
    · simp [Heap.node_newOpNode, fresh, OpNode.fresh, PtrArray.null] at member
    · simp only [Heap.node_newOpNode, if_neg fresh] at member ⊢
      rw [if_neg (Nat.ne_of_lt ((layered.wellFormed.closed a).1 b member))]
      exact layered.descend a b member
  noInto i := by
    simp only [Heap.node_newOpNode]
    split
    · exact notInto
    · exact layered.noInto i

theorem addChild (layered : Layered g h) {p c : Nat} (made : p < h.count ∧ c < h.count)
    (deeper : Deeper (opRank g (h.node p).operation.type) (opRank g (h.node c).operation.type)) :
    Layered g (h.addChild p c) where
  wellFormed := layered.wellFormed.addChild made
  descend := layered.descend.addChild (.inr deeper)
  noInto i := by
    simpa only [Heap.operation_addChild] using layered.noInto i

end Layered

/-! ### Building: the entry-node loop and `_ExecutionPlan_OptimizeEntryPoints` -/

/-- The stack `Ops` of lines 304-391, top first: every operation lies deeper than the one below
it, which `linkOps` makes its parent. -/
def Stacked (g : Graph) (h : Heap) (ops : List Nat) : Prop :=
  ops.Chain' fun x y =>
    Deeper (opRank g (h.node y).operation.type) (opRank g (h.node x).operation.type)

section Build

variable {g : Graph} {entryNodes : List Nat} {h h' : Heap}

theorem Stacked.congr {ops : List Nat} (stacked : Stacked g h ops)
    (same : ∀ x ∈ ops, (h'.node x).operation = (h.node x).operation) : Stacked g h' ops :=
  (List.Chain'.iff_mem.mp stacked).imp fun x y ⟨xIn, yIn, deeper⟩ => by
    rwa [same x xIn, same y yIn]

theorem opRank_newScanOp (node : Nat) :
    opRank g (newScanOp g node).type = (g.toEnd node + 1, 3 * node + 2) := by
  unfold newScanOp
  split <;> rfl

theorem newScanOp_notInto (node src relation dest : Nat) :
    (newScanOp g node).type ≠ .expandInto src relation dest := by
  unfold newScanOp
  split <;> simp [newNodeByLabelScanOp, newAllNodeScanOp]

@[simp] theorem operation_linkOps {prevOp : Nat} {rest : List Nat} (x : Nat) :
    ((linkOps h prevOp rest).node x).operation = (h.node x).operation := by
  induction rest generalizing h prevOp with
  | nil => rfl
  | cons c rest ih => exact ih.trans (Heap.operation_addChild h c prevOp x)

/-- Lines 340-352 push expansions, each into a node one step nearer the end of the walk, so the
stack they leave, bottom first, goes up the walk. -/
theorem expandWalk_layered {fuel src : Nat} {rev rev' : List Nat} (layered : Layered g h)
    (ends : ∃ k ≤ g.edges.length, g.EndsAt src k) (made : ∀ x ∈ rev, x < h.count)
    (stacked : Stacked g h rev.reverse)
    (top : ∀ x ∈ rev.head?, ∃ s e, (h.node x).operation.type = .expandAll s e src)
    (walk : expandWalk g fuel src h rev = some (h', rev')) :
    Layered g h' ∧ h.count ≤ h'.count ∧ (∀ i < h.count, h'.node i = h.node i) ∧
      (∀ x ∈ rev', x < h'.count) ∧ Stacked g h' rev'.reverse ∧
      ∀ x ∈ rev'.head?, ∃ s e d, (h'.node x).operation.type = .expandAll s e d := by
  induction fuel generalizing src h rev with
  | zero => cases walk
  | succ fuel ih =>
    simp only [expandWalk] at walk
    split at walk
    · cases walk
      exact ⟨layered, le_rfl, fun _ _ => rfl, made, stacked, fun x member =>
        let ⟨s, e, expands⟩ := top x member; ⟨s, e, src, expands⟩⟩
    · rename_i edge dest step
      obtain ⟨k, within, endsK⟩ := ends
      obtain ⟨-, endsNext⟩ := endsK.next step
      have nearer := g.toEnd_next step endsK within
      have old :
          ∀ i < h.count, (h.newOpNode (newExpandAllOp g src edge dest)).2.node i = h.node i :=
        fun i lt => if_neg (Nat.ne_of_lt lt)
      have fresh : ((h.newOpNode (newExpandAllOp g src edge dest)).2.node h.count).operation.type =
          .expandAll src edge dest := by
        simp [Heap.node_newOpNode, OpNode.fresh, newExpandAllOp]
      have stacked₁ : Stacked g (h.newOpNode (newExpandAllOp g src edge dest)).2
          (h.count :: rev).reverse := by
        rw [List.reverse_cons]
        refine List.chain'_append.mpr ⟨stacked.congr fun x member =>
          congrArg OpNode.operation (old x (made x (List.mem_reverse.mp member))),
          List.chain'_singleton _, fun x last y first => ?_⟩
        rw [List.getLast?_reverse] at last
        obtain ⟨s, e, expands⟩ := top x last
        cases List.mem_singleton.mp (Option.mem_toList.mpr first)
        rw [fresh, old x (made x (List.mem_of_mem_head? last)), expands]
        simp only [opRank, Deeper, nearer]
        omega
      obtain ⟨layered', grows, same, made', stacked', top'⟩ :=
        ih (layered.newOpNode (by simp [newExpandAllOp])) ⟨k - 1, by omega, endsNext⟩
          (fun x member => by
            rcases List.mem_cons.mp member with rfl | member
            · exact Nat.lt_succ_self _
            · exact Nat.lt_succ_of_lt (made x member))
          stacked₁ (fun x member => ⟨src, edge, by cases member; exact fresh⟩) walk
      exact ⟨layered', Nat.le_of_succ_le grows,
        fun i lt => (same i (Nat.lt_succ_of_lt lt)).trans (old i lt), made', stacked', top'⟩

theorem linkOps_layered {prevOp : Nat} {rest : List Nat} (layered : Layered g h)
    (made : prevOp < h.count) (restMade : ∀ x ∈ rest, x < h.count)
    (stacked : Stacked g h (prevOp :: rest)) : Layered g (linkOps h prevOp rest) := by
  induction rest generalizing h prevOp with
  | nil => exact layered
  | cons currentOp rest ih =>
    have current := restMade currentOp (List.mem_cons_self _ _)
    obtain ⟨deeper, tail⟩ := List.chain'_cons.mp stacked
    exact ih (layered.addChild ⟨current, made⟩ deeper) current
      (fun x member => restMade x (List.mem_cons_of_mem _ member))
      ((show Stacked g h (currentOp :: rest) from tail).congr fun x _ =>
        Heap.operation_addChild h currentOp prevOp x)

/-- The state of the entry-node loop: the heap is layered, and `Ops` holds allocated operations over
one another, with `ProduceResults` or `Aggregate` at the top. -/
structure EntryState (g : Graph) (entryNodes : List Nat) (root : Nat) (h : Heap)
    (ops : List Nat) : Prop where
  built : Built g entryNodes h
  layered : Layered g h
  rootMade : root < h.count
  nonempty : ops ≠ []
  made : ∀ x ∈ ops, x < h.count
  top : ∀ x ∈ ops, (opRank g (h.node x).operation.type).1 = 0
  stacked : Stacked g h ops
  rootTop : (opRank g (h.node root).operation.type).1 = 0

@[simp] theorem count_linkOps {prevOp : Nat} {rest : List Nat} :
    (linkOps h prevOp rest).count = h.count := by
  induction rest generalizing h prevOp with
  | nil => rfl
  | cons c rest ih => exact ih

theorem pushEntryOps_layered {fuel root node : Nat} {ops ops₁ : List Nat}
    (entry : node ∈ entryNodes) (simple : ∀ e ∈ entryNodes, g.WalkSimple e)
    (state : EntryState g entryNodes root h ops)
    (pushed : pushEntryOps g fuel node h ops = some (h', ops₁)) :
    Layered g h' ∧ h.count ≤ h'.count ∧ (∀ i < h.count, h'.node i = h.node i) ∧
      (∀ x ∈ ops₁, x < h'.count) ∧ Stacked g h' ops₁ ∧ ∃ pushedOps, ops₁ = pushedOps ++ ops := by
  have kept {h₁ : Heap} (old : ∀ i < h.count, h₁.node i = h.node i) (x : Nat) (member : x ∈ ops) :
      (h₁.node x).operation = (h.node x).operation :=
    congrArg OpNode.operation (old x (state.made x member))
  have onTop {h₁ : Heap} (old : ∀ i < h.count, h₁.node i = h.node i) {x y : Nat}
      (low : 0 < (opRank g (h₁.node x).operation.type).1) (member : y ∈ ops) :
      Deeper (opRank g (h₁.node y).operation.type) (opRank g (h₁.node x).operation.type) := by
    have top := state.top y member
    rw [← kept old y member] at top
    exact .inl (by omega)
  unfold pushEntryOps at pushed
  split at pushed
  · obtain ⟨⟨h₂, reversed⟩, walk, same⟩ := Option.map_eq_some'.mp pushed
    cases same
    obtain ⟨layered₂, grows, old, made₂, stacked₂, top₂⟩ := expandWalk_layered state.layered
      (Graph.OnWalkFrom.endsAt ⟨node, entry, 0, rfl⟩ simple) (by simp)
      (by simp [Stacked]) (by simp) walk
    refine ⟨layered₂, grows, old, fun x member => ?_, ?_, reversed.reverse, List.reverseAux_eq _ _⟩
    · rcases List.mem_append.mp (List.reverseAux_eq _ _ ▸ member) with member | member
      · exact made₂ x (List.mem_reverse.mp member)
      · exact Nat.lt_of_lt_of_le (state.made x member) grows
    · rw [List.reverseAux_eq]
      refine List.chain'_append.mpr ⟨stacked₂, state.stacked.congr (kept old), ?_⟩
      intro x last y first
      rw [List.getLast?_reverse] at last
      obtain ⟨s, e, d, expands⟩ := top₂ x last
      exact onTop old (by simp [expands, opRank]) (List.mem_of_mem_head? first)
  · cases pushed
    have old : ∀ i < h.count, (h.newOpNode (newScanOp g node)).2.node i = h.node i :=
      fun i lt => if_neg (Nat.ne_of_lt lt)
    refine ⟨state.layered.newOpNode (newScanOp_notInto node), Nat.le_succ _, old,
      fun x member => ?_, List.Chain'.cons' (state.stacked.congr (kept old)) fun y first =>
        onTop old ?_ (List.mem_of_mem_head? first), [h.count], rfl⟩
    · rcases List.mem_cons.mp member with rfl | member
      · exact Nat.lt_succ_self _
      · exact Nat.lt_succ_of_lt (state.made x member)
    · simp [Heap.node_newOpNode, OpNode.fresh, opRank_newScanOp]

theorem addEntryNode_state {fuel root node : Nat} {ops : List Nat} {next : Heap × List Nat}
    (entry : node ∈ entryNodes) (simple : ∀ e ∈ entryNodes, g.WalkSimple e)
    (state : EntryState g entryNodes root h ops)
    (adds : addEntryNode g fuel root node h ops = some next) :
    EntryState g entryNodes root next.1 next.2 := by
  have built := state.built.extend (addEntryNode_extends entry state.rootMade state.made adds).1
  obtain ⟨⟨h₁, ops₁⟩, pushed, linked⟩ := Option.map_eq_some'.mp adds
  obtain ⟨layered₁, grows, old, made₁, stacked₁, pushedOps, rfl⟩ :=
    pushEntryOps_layered entry simple state pushed
  have rootTop : (opRank g (h₁.node root).operation.type).1 = 0 := by
    rw [old root state.rootMade]
    exact state.rootTop
  have rootMade := Nat.lt_of_lt_of_le state.rootMade grows
  unfold consumeOps at linked
  split at linked
  · rename_i prevOp next rest split
    simp only at split
    cases linked
    rw [split] at made₁ stacked₁
    refine ⟨built, linkOps_layered layered₁ (made₁ prevOp (List.mem_cons_self _ _))
      (fun x member => made₁ x (List.mem_cons_of_mem _ member)) stacked₁,
      by simpa using rootMade, by simp, by simpa using rootMade, by simpa using rootTop,
      List.chain'_singleton _, by simpa using rootTop⟩
  · rename_i unlinked
    cases linked
    obtain rfl : pushedOps = [] := by
      obtain ⟨x, rest, rfl⟩ := List.exists_cons_of_ne_nil state.nonempty
      cases pushedOps with
      | nil => rfl
      | cons p ps =>
        obtain ⟨y, tail, split⟩ := List.exists_cons_of_ne_nil
          (List.append_ne_nil_of_right_ne_nil ps (List.cons_ne_nil x rest))
        exact absurd (show p :: (ps ++ x :: rest) = p :: y :: tail by rw [split])
          (unlinked p y tail)
    refine ⟨built, layered₁, rootMade, state.nonempty, made₁, fun x member => ?_, stacked₁,
      rootTop⟩
    rw [old x (state.made x member)]
    exact state.top x member

/-- `_ExecutionPlan_OptimizeEntryPoints` hangs under a childless `ExpandAll` a scan of its source,
one step further from the end of the walk. -/
theorem optimizeEntryPoints_layered {fuel root : Nat} (simple : ∀ e ∈ entryNodes, g.WalkSimple e)
    (built : Built g entryNodes h) (layered : Layered g h) (rootMade : root < h.count)
    (runs : optimizeEntryPoints g fuel root h = some h') : Layered g h' := by
  induction fuel generalizing root h h' with
  | zero => cases runs
  | succ fuel ih =>
    simp only [optimizeEntryPoints] at runs
    split at runs
    · rename_i src relation dest leaf expanding
      cases runs
      have follows := built.follows root
      rw [expanding] at follows
      obtain ⟨k, within, ends⟩ := follows.2.endsAt simple
      have nearer := g.toEnd_next follows.1 ends within
      refine (layered.newOpNode (newScanOp_notInto src)).addChild
        ⟨Nat.lt_succ_of_lt rootMade, Nat.lt_succ_self _⟩ ?_
      simp only [Heap.fst_newOpNode, Heap.node_newOpNode, if_neg (Nat.ne_of_lt rootMade),
        ↓reduceIte, OpNode.fresh, expanding, opRank_newScanOp]
      simp only [opRank, Deeper, nearer]
      omega
    · exact (forEachChild_induction (P := fun h₁ => Built g entryNodes h₁ ∧ Layered g h₁)
        (fun ⟨built₁, layered₁⟩ member visited =>
          have made := (built₁.wellFormed.closed root).1 _ member
          ⟨built₁.extend (optimizeEntryPoints_extends built₁ made visited),
            ih built₁ layered₁ made visited⟩) ⟨built, layered⟩ runs).2

end Build

/-! ### `_ExecutionPlan_MergeNodes` -/

section Merge

variable {g : Graph} {h h' : Heap}

theorem expandsInto_iff {op : OpBase} {n : Nat} :
    expandsInto op n = true ↔ ∃ src relation, op.type = .expandAll src relation n := by
  unfold expandsInto
  split <;> simp_all

theorem locateExpands_expands {n fuel : Nat} {stack : List Nat} {a x y : Option Nat}
    (aExpands : ∀ s ∈ a, expandsInto (h.node s).operation n = true)
    (found : locateExpands h n fuel stack a = some (x, y)) :
    (∀ s ∈ x, expandsInto (h.node s).operation n = true) ∧
      ∀ s ∈ y, expandsInto (h.node s).operation n = true := by
  induction fuel generalizing stack a with
  | zero => cases found
  | succ fuel ih =>
    rcases stack with _ | ⟨current, rest⟩
    · cases found
      exact ⟨aExpands, by simp⟩
    · simp only [locateExpands] at found
      split at found
      · rename_i expands
        rcases a with _ | a
        · exact ih (by simpa using expands) found
        · cases found
          exact ⟨aExpands, by simpa using expands⟩
      · exact ih aExpands found

theorem LinksDescend.setExpandInto {a src relation n : Nat} (descend : LinksDescend g h)
    (expanding : (h.node a).operation.type = .expandAll src relation n)
    (unmerged : ∀ i s r, (h.node i).operation.type ≠ .expandInto s r n) :
    LinksDescend g (h.setOperation a (newExpandIntoOp src relation n)) := by
  intro x y member
  simp only [Heap.children_setOperation, Heap.operation_setOperation] at member ⊢
  rcases descend x y member with ⟨same, into⟩ | deeper
  · have other : x ≠ a := fun atA => by
      obtain ⟨s, r, d, into⟩ := into
      rw [atA, expanding] at into
      cases into
    exact .inl ⟨same, by simpa [other] using into⟩
  · by_cases xa : x = a <;> by_cases ya : y = a
    · subst xa ya
      exact absurd deeper (Deeper.irrefl _)
    · subst xa
      simp only [if_pos rfl, if_neg ya, newExpandIntoOp]
      rw [expanding] at deeper
      exact .inr deeper.of_expandAll
    · subst ya
      simp only [if_neg xa, if_pos rfl, newExpandIntoOp]
      rw [expanding] at deeper
      exact .inr (deeper.to_expandInto fun s r => unmerged x s r)
    · simp only [if_neg xa, if_neg ya]
      exact .inr deeper

/-- Lines 180-192: each parent of `b` other than `a` takes `a` for `b`, and as it lay above `b`, an
`ExpandAll` into `n`, it lies above the `ExpandInto` `a`. -/
theorem inheritParents_descends {a b fuel i n : Nat} (wf : h.WellFormed)
    (descend : LinksDescend g h) (made : a < h.count ∧ b < h.count)
    (into : ∃ s r, (h.node a).operation.type = .expandInto s r n)
    (expanding : b ≠ a → ∃ s r, (h.node b).operation.type = .expandAll s r n)
    (only : ∀ x ≠ a, ∀ s r, (h.node x).operation.type ≠ .expandInto s r n)
    (runs : inheritParents a b fuel i h = some h') :
    h'.WellFormed ∧ LinksDescend g h' ∧ h'.count = h.count ∧
      ∀ x, (h'.node x).operation = (h.node x).operation := by
  induction fuel generalizing i h with
  | zero => cases runs
  | succ fuel ih =>
    simp only [inheritParents] at runs
    split at runs
    · cases runs
      exact ⟨wf, descend, rfl, fun _ => rfl⟩
    · rename_i bParent found
      have parentMade := (wf.closed b).2 bParent (List.getElem?_mem found)
      split at runs
      · exact ih wf descend made into expanding only runs
      · rename_i other
        have linked : b ∈ (h.node bParent).children.items := by
          have counted := List.count_pos_iff.mpr (List.getElem?_mem found)
          rw [← wf.symmetric] at counted
          exact List.count_pos_iff.mp counted
        have adopted : ∀ h₂ : Heap,
            h₂ = (if h.containsChild bParent a then h else h.addChild bParent a) →
            h₂.WellFormed ∧ LinksDescend g h₂ ∧ h₂.count = h.count ∧
              ∀ x, (h₂.node x).operation = (h.node x).operation := by
          rintro h₂ rfl
          split
          · exact ⟨wf, descend, rfl, fun _ => rfl⟩
          · rename_i absent
            have apart : b ≠ a := fun same => absent (by simp [Heap.containsChild, ← same, linked])
            obtain ⟨s, r, bAll⟩ := expanding apart
            obtain ⟨s', r', aInto⟩ := into
            refine ⟨wf.addChild ⟨parentMade, made.1⟩, descend.addChild (.inr ?_), rfl,
              Heap.operation_addChild h bParent a⟩
            rcases descend bParent b linked with ⟨same, s₀, r₀, d₀, pInto⟩ | deeper
            · rw [← same, bAll] at pInto
              cases pInto
            · rw [bAll] at deeper
              rw [aInto]
              exact deeper.to_expandInto fun s₀ r₀ => only bParent other s₀ r₀
        obtain ⟨wf₂, descend₂, count₂, ops₂⟩ := adopted _ rfl
        have ops₃ : ∀ x, (((if h.containsChild bParent a then h else h.addChild bParent a
            ).removeNode bParent b).node x).operation = (h.node x).operation := fun x =>
          (Heap.operation_removeNode _ bParent b x).trans (ops₂ x)
        obtain ⟨wf', descend', count', ops'⟩ := ih (wf₂.removeNode bParent b)
          (descend₂.removeNode bParent b) (by simpa [Heap.removeChild, count₂] using made)
          (by simpa only [ops₃] using into) (by simpa only [ops₃] using expanding)
          (by simpa only [ops₃] using only) runs
        exact ⟨wf', descend', by simpa [Heap.removeChild, count₂] using count',
          fun x => (ops' x).trans (ops₃ x)⟩

/-- One call of `_ExecutionPlan_MergeNodes(plan, n)`, with no `ExpandInto` into `n` yet, keeps every
link leading deeper but for self-links of an `ExpandInto`. -/
theorem mergeNodes_descends {fuel root n : Nat} (wf : h.WellFormed) (descend : LinksDescend g h)
    (rootMade : root < h.count) (unmerged : ∀ i s r, (h.node i).operation.type ≠ .expandInto s r n)
    (merges : mergeNodes g fuel root h n = some h') :
    h'.WellFormed ∧ LinksDescend g h' ∧ h'.count = h.count ∧
      ∀ i s r m, (h'.node i).operation.type = .expandInto s r m →
        m = n ∨ (h.node i).operation.type = .expandInto s r m := by
  have unchanged : h.WellFormed ∧ LinksDescend g h ∧ h.count = h.count ∧
      ∀ i s r m, (h.node i).operation.type = .expandInto s r m →
        m = n ∨ (h.node i).operation.type = .expandInto s r m :=
    ⟨wf, descend, rfl, fun _ _ _ _ into => .inr into⟩
  unfold mergeNodes at merges
  split at merges
  · cases merges
    exact unchanged
  · split at merges
    · cases merges
    · rename_i a b found
      obtain ⟨aMade, bMade⟩ :=
        locateExpands_made wf.closed (by simpa using rootMade) (by simp) found
      obtain ⟨aExpands, bExpands⟩ := locateExpands_expands (by simp) found
      obtain ⟨s, r, aAll⟩ := expandsInto_iff.mp (aExpands a rfl)
      obtain ⟨s', r', bAll⟩ := expandsInto_iff.mp (bExpands b rfl)
      split at merges
      · rename_i src relation dest expanding
        rw [aAll] at expanding
        cases expanding
        have set := descend.setExpandInto aAll unmerged
        have linked : LinksDescend g ((h.setOperation a (newExpandIntoOp s r n)).addChild a b) := by
          refine set.addChild ?_
          by_cases ba : b = a
          · exact .inl ⟨ba, s, r, n, by simp [newExpandIntoOp]⟩
          · simp only [Heap.operation_setOperation, if_pos rfl, if_neg ba, bAll, newExpandIntoOp]
            exact .inr deeper_expandInto_expandAll
        have into : ∃ s₀ r₀, (((h.setOperation a (newExpandIntoOp s r n)).addChild a b).node
            a).operation.type = .expandInto s₀ r₀ n := ⟨s, r, by simp [newExpandIntoOp]⟩
        obtain ⟨wf', descend', count', ops'⟩ := inheritParents_descends
          ((wf.setOperation a _).addChild ⟨aMade a rfl, bMade b rfl⟩) linked
          ⟨by simpa using aMade a rfl, by simpa using bMade b rfl⟩ into
          (fun ba => ⟨s', r', by simp [ba, bAll]⟩)
          (fun x xa s₀ r₀ => by simpa [xa] using unmerged x s₀ r₀) merges
        refine ⟨wf', descend', by simpa using count', fun i s₀ r₀ m into => ?_⟩
        rw [ops'] at into
        by_cases ia : i = a
        · simp only [Heap.operation_addChild, Heap.operation_setOperation, if_pos ia,
            newExpandIntoOp, OpType.expandInto.injEq] at into
          exact .inl into.2.2.symm
        · simp only [Heap.operation_addChild, Heap.operation_setOperation, if_neg ia] at into
          exact .inr into
      · cases merges
        exact unchanged
    · cases merges
      exact unchanged

end Merge

/-! ### `_ExecutionPlan_AddFilters` on a heap with self-links -/

def Heap.SelfLinksOrphaned (h : Heap) : Prop :=
  ∀ s, s ∈ (h.node s).children.items → ∀ t, s ∈ (h.node t).children.items → t = s

def Heap.OneParent (h : Heap) (x : Nat) : Prop :=
  (h.node x).parents.items.length ≤ 1

theorem Heap.WellFormed.oneParent_of_lt {h : Heap} (wf : h.WellFormed)
    (small : ∀ x < h.count, (h.node x).parents.items.length ≤ 1) (x : Nat) : h.OneParent x := by
  by_cases made : x < h.count
  · exact small x made
  · have blank : (h.node x).parents.items = [] := List.eq_nil_iff_forall_not_mem.mpr
      fun p member => made ((wf.closed p).1 x (wf.mem_children_of_mem_parents member))
    simp [Heap.OneParent, blank]

/-- Operator `x` has no parent but itself. -/
def Heap.Top (h : Heap) (x : Nat) : Prop :=
  ∀ p ∈ (h.node x).parents.items, p = x

theorem Heap.WellFormed.top_iff {h : Heap} (wf : h.WellFormed) {x : Nat} :
    h.Top x ↔ ∀ p, x ∈ (h.node p).children.items → p = x :=
  ⟨fun top p member => top p (wf.mem_parents_of_mem_children member),
    fun top p member => top p (wf.mem_children_of_mem_parents member)⟩

section Insert

variable {h h₂ : Heap} {X fuel : Nat} {op : OpBase} (wf : h.WellFormed) (made : X < h.count)
  (notSelf : X ∉ (h.node X).children.items)
  (pushed : Heap.pushInBetween X h.count fuel (h.newOpNode op).2 = some h₂)

include wf made pushed

theorem Heap.self_of_insert {s : Nat} (self : s ∈ (h₂.node s).children.items) :
    s ∈ (h.node s).children.items ∧ s ≠ X ∧ s ≠ h.count := by
  rw [Heap.children_insert made pushed] at self
  split_ifs at self with atX fresh
  · exact absurd (atX.symm.trans (List.mem_singleton.mp self)) (Nat.ne_of_lt made)
  · exact absurd ((wf.closed X).1 s self) (fresh ▸ Nat.lt_irrefl s)
  · exact ⟨self, atX, fresh⟩

theorem Heap.oneParent_insert (single : ∀ x, h.OneParent x) : ∀ x, h₂.OneParent x := by
  have fresh : h.count ∉ ((h.newOpNode op).2.node X).children.items := by
    rw [Heap.node_newOpNode, if_neg (Nat.ne_of_lt made)]
    exact wf.not_mem_children X
  intro x
  unfold Heap.OneParent
  rw [Heap.parents_pushInBetween (Nat.ne_of_lt made) fresh pushed, Heap.node_newOpNode,
    Heap.node_newOpNode, if_neg (Nat.ne_of_lt made)]
  split_ifs with atFilter
  · simp [OpNode.fresh, PtrArray.null]
  · have counted := wf.symmetric X x
    have short := single x
    unfold Heap.OneParent at short
    generalize (h.node x).parents.items = ps at counted short
    match ps, short with
    | [], _ => simp_all
    | [p], _ => by_cases same : p = X <;> simp_all [List.count_singleton']

theorem Heap.SelfLinksOrphaned.insert (orphaned : h.SelfLinksOrphaned) :
    h₂.SelfLinksOrphaned := by
  intro s self t linked
  obtain ⟨old, notX, notFresh⟩ := Heap.self_of_insert wf made pushed self
  rw [Heap.children_insert made pushed] at linked
  split_ifs at linked with atX fresh
  · exact absurd (List.mem_singleton.mp linked) notFresh
  · exact absurd (orphaned s old X linked).symm notX
  · exact orphaned s old t linked

theorem Heap.top_insert {x : Nat} (made₂ : x < h₂.count) (top : h₂.Top x) :
    x < h.count ∧ h.Top x := by
  rw [(Heap.wellFormed_insert wf made pushed).top_iff] at top
  rw [wf.top_iff]
  have old : x ≠ h.count := fun fresh => Nat.ne_of_lt made (fresh ▸ top X (by
    rw [Heap.children_insert made pushed, if_pos rfl, fresh]
    exact List.mem_singleton_self _))
  refine ⟨by rw [Heap.count_insert pushed] at made₂; omega, fun p linked => ?_⟩
  by_cases atX : p = X
  · subst atX
    refine absurd (top h.count ?_).symm old
    rwa [Heap.children_insert made pushed, if_neg (Nat.ne_of_gt made), if_pos rfl]
  · apply top p
    rwa [Heap.children_insert made pushed, if_neg atX,
      if_neg (Nat.ne_of_lt (wf.lt_count_of_mem_children linked))]

include notSelf

/-- Pushing a `Filter` under an operator that is not its own child makes no new cycle. -/
theorem Heap.AcyclicUpToSelfLinks.insert (cycles : h.AcyclicUpToSelfLinks) :
    h₂.AcyclicUpToSelfLinks := by
  intro a b member back
  rw [Heap.children_insert made pushed] at member
  split at member
  · rename_i atX
    subst atX
    rw [List.mem_singleton.mp member] at back
    have down := Heap.reaches_insert_of wf made pushed back le_rfl made
    rw [if_pos rfl] at down
    obtain ⟨c, kid, up⟩ := down
    exact absurd (cycles a c kid up ▸ kid) notSelf
  · split at member
    · rename_i fresh
      subst fresh
      have bMade := (wf.closed _).1 b member
      rcases Heap.reaches_X_of_reaches_fresh wf made pushed back rfl with same | up
      · exact same
      · have back := (Heap.reaches_insert_iff wf made pushed bMade made).mp up
        exact absurd (cycles X b member back ▸ member) notSelf
    · exact cycles a b member ((Heap.reaches_insert_iff wf made pushed ((wf.closed _).1 b member)
        (wf.lt_count_of_mem_children member)).mp back)

end Insert

/-- `h'` keeps the self-links of `h`, makes no new cycle and no second parent, and adds only
`Filter`s, leaving the old operators as they were. -/
structure KeepsSelfLinks (h h' : Heap) : Prop where
  grows : h.count ≤ h'.count
  kept : ∀ n, n ∈ (h.node n).children.items →
    (h'.node n).children.items = (h.node n).children.items
  noneNew : ∀ n, n ∈ (h'.node n).children.items → n ∈ (h.node n).children.items
  cycles : h.AcyclicUpToSelfLinks → h'.AcyclicUpToSelfLinks
  orphaned : h.SelfLinksOrphaned → h'.SelfLinksOrphaned
  single : (∀ x, h.OneParent x) → ∀ x, h'.OneParent x
  operation : ∀ n < h.count, (h'.node n).operation = (h.node n).operation
  fresh : ∀ n, h.count ≤ n → n < h'.count → ∃ t, (h'.node n).operation = newFilterOp t
  tops : ∀ x < h'.count, h'.Top x → x < h.count ∧ h.Top x

namespace KeepsSelfLinks

variable {h h₁ h₂ : Heap}

theorem refl : KeepsSelfLinks h h :=
  ⟨le_rfl, fun _ _ => rfl, fun _ self => self, id, id, id, fun _ _ => rfl,
    fun _ low high => absurd high (Nat.not_lt.mpr low), fun _ made top => ⟨made, top⟩⟩

theorem trans (first : KeepsSelfLinks h h₁) (second : KeepsSelfLinks h₁ h₂) :
    KeepsSelfLinks h h₂ where
  grows := first.grows.trans second.grows
  kept n self := by
    have self₁ : n ∈ (h₁.node n).children.items := by rw [first.kept n self]; exact self
    rw [second.kept n self₁, first.kept n self]
  noneNew n self := first.noneNew n (second.noneNew n self)
  cycles acyclic := second.cycles (first.cycles acyclic)
  orphaned alone := second.orphaned (first.orphaned alone)
  single one := second.single (first.single one)
  operation n made :=
    (second.operation n (Nat.lt_of_lt_of_le made first.grows)).trans (first.operation n made)
  fresh n low high := by
    by_cases old : n < h₁.count
    · rw [second.operation n old]
      exact first.fresh n low old
    · exact second.fresh n (Nat.not_lt.mp old) high
  tops x made top :=
    have ⟨made₁, top₁⟩ := second.tops x made top
    first.tops x made₁ top₁

theorem push {X fuel : Nat} {t : FilterTree} (wf : h.WellFormed) (made : X < h.count)
    (notSelf : X ∉ (h.node X).children.items)
    (pushed : Heap.pushInBetween X h.count fuel (h.newOpNode (newFilterOp t)).2 = some h₂) :
    KeepsSelfLinks h h₂ := by
  refine ⟨by simp [Heap.count_insert pushed], fun n self => ?_,
    fun n self => (Heap.self_of_insert wf made pushed self).1,
    fun cycles => cycles.insert wf made notSelf pushed,
    fun orphaned => orphaned.insert wf made pushed, Heap.oneParent_insert wf made pushed,
    fun n old => ?_, fun n low high => ⟨t, ?_⟩, fun _ => Heap.top_insert wf made pushed⟩
  · have old := (wf.closed n).1 n self
    rw [Heap.children_insert made pushed, if_neg fun (same : n = X) => notSelf (same ▸ self),
      if_neg (Nat.ne_of_lt old)]
  · rw [Heap.operation_insert pushed, if_neg (Nat.ne_of_lt old)]
  · rw [Heap.operation_insert pushed, if_pos (by simp [Heap.count_insert pushed] at high; omega)]

end KeepsSelfLinks

section Filters

variable {g : Graph} {entryNodes : List Nat} {h h' : Heap}

theorem addFiltersChildren_selfLinks {fuel X i : Nat} {seen : List String}
    {tree tree' : FilterTree} {r : Option (List String)}
    (visit : ∀ {c : Nat} {h₀ h₁ : Heap} {tree₀ tree₁ : FilterTree} {r₀ : Option (List String)},
      Built g entryNodes h₀ → c < h₀.count → addFilters fuel c h₀ tree₀ = some (r₀, h₁, tree₁) →
      KeepsSelfLinks h₀ h₁ ∧ (r₀.isSome → c ∉ (h₀.node c).children.items) ∧
        (r₀ = none → tree₁.predicates = []))
    (built : Built g entryNodes h) (made : X < h.count)
    (runs : addFiltersChildren (addFilters fuel) X i seen h tree = some (r, h', tree')) :
    KeepsSelfLinks h h' ∧ (r.isSome → ∀ j < i, (h.node X).children.items[j]? ≠ some X) ∧
      (r = none → tree'.predicates = []) := by
  induction i generalizing seen h tree with
  | zero =>
    cases runs
    exact ⟨.refl, fun _ j below => absurd below (Nat.not_lt_zero j), fun none => nomatch none⟩
  | succ i ih =>
    simp only [addFiltersChildren] at runs
    split at runs
    · cases runs
    · rename_i child found
      split at runs
      · cases runs
      · rename_i saw h₁ tree₁ visited
        have childMade := (built.wellFormed.closed X).1 child (List.getElem?_mem found)
        obtain ⟨keeps, seenChild, emptied⟩ := visit built childMade visited
        split at runs
        · rename_i empty
          cases runs
          exact ⟨keeps, fun isSome => by simp at isSome, fun _ => empty⟩
        · rename_i nonempty
          obtain ⟨keeps', seen', emptied'⟩ := ih (built.extend (addFilters_extends built childMade
            visited)) (Nat.lt_of_lt_of_le made keeps.grows) runs
          refine ⟨keeps.trans keeps', fun isSome j below atJ => ?_, emptied'⟩
          have self : X ∈ (h.node X).children.items := List.getElem?_mem atJ
          rcases Nat.lt_succ_iff_lt_or_eq.mp below with below | rfl
          · exact seen' isSome j below (by rw [keeps.kept X self]; exact atJ)
          · rw [found] at atJ
            cases atJ
            cases saw with
            | none => exact nonempty (emptied rfl)
            | some saw => exact seenChild rfl self

/-- A returning call of `_ExecutionPlan_AddFilters(X, &tree)` keeps the self-links; it returns a
`seen` vector only if `X` is not its own child, and `NULL` only once the tree is empty. -/
theorem addFilters_selfLinks {fuel X : Nat} {tree tree' : FilterTree} {r : Option (List String)}
    (built : Built g entryNodes h) (made : X < h.count)
    (runs : addFilters fuel X h tree = some (r, h', tree')) :
    KeepsSelfLinks h h' ∧ (r.isSome → X ∉ (h.node X).children.items) ∧
      (r = none → tree'.predicates = []) := by
  induction fuel generalizing X h h' tree tree' r with
  | zero => cases runs
  | succ fuel ih =>
    have loop {h₁ : Heap} {r₁ : Option (List String)} {tree₁ : FilterTree}
        (visits : addFiltersChildren (addFilters fuel) X (h.node X).children.items.length [] h
          tree = some (r₁, h₁, tree₁)) :
        Built g entryNodes h₁ ∧ KeepsSelfLinks h h₁ ∧ (r₁.isSome → X ∉ (h.node X).children.items) ∧
          (r₁ = none → tree₁.predicates = []) := by
      have more := addFiltersChildren_induction (P := Extends g entryNodes h) (fun more member
        visited => more.trans (addFilters_extends (built.extend more)
        (((built.extend more).wellFormed.closed _).1 _ member) visited)) .refl visits
      obtain ⟨keeps, notFound, emptied⟩ :=
        addFiltersChildren_selfLinks (fun built made visited => ih built made visited) built made
          visits
      refine ⟨built.extend more, keeps, fun isSome self => ?_, emptied⟩
      obtain ⟨j, atJ⟩ := List.mem_iff_getElem?.mp self
      exact notFound isSome j (List.getElem?_eq_some_iff.mp atJ).1 atJ
    simp only [addFilters] at runs
    split at runs
    · rename_i seen h₁ tree₁ visits
      obtain ⟨built₁, keeps, notSelf, -⟩ := loop visits
      have notSelf' := notSelf rfl
      split at runs
      · obtain ⟨h₂, pushed, same⟩ := Option.map_eq_some'.mp runs
        cases same
        exact ⟨keeps.trans (.push built₁.wellFormed (Nat.lt_of_lt_of_le made keeps.grows)
          (fun self => notSelf' (keeps.noneNew X self)) pushed), fun _ => notSelf',
          fun none => nomatch none⟩
      · cases runs
        exact ⟨keeps, fun _ => notSelf', fun none => nomatch none⟩
    · rename_i other
      obtain ⟨-, keeps, notSelf, emptied⟩ := loop runs
      exact ⟨keeps, notSelf, emptied⟩

end Filters

end RedisGraph.Plan
