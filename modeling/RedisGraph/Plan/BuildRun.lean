import RedisGraph.Plan.Build
import RedisGraph.Plan.Wiring

/-! Every phase of `NewExecutionPlan` is a run of the wiring calls of lines 20-112 on allocated
nodes, and every operator it creates or rewrites refers to the first-edge walks from the entry
nodes: an expansion follows the first outgoing edge of a node on such a walk, a scan scans such a
node. -/

namespace RedisGraph.Plan

open Pattern Filter

/-- What an operator of a plan built from `entryNodes` may refer to. -/
def OpType.FollowsWalks (g : Graph) (entryNodes : List Nat) : OpType → Prop
  | .expandAll src relation dest => g.next src = some (relation, dest) ∧ g.OnWalkFrom entryNodes src
  | .expandInto src relation dest => g.next src = some (relation, dest) ∧ g.OnWalkFrom entryNodes src
  | .allNodeScan node => g.OnWalkFrom entryNodes node
  | .nodeByLabelScan node _ => g.OnWalkFrom entryNodes node
  | _ => True

/-- The operators the plan builder may put into a plan for `g` built from `entryNodes`. -/
def PlanOp (g : Graph) (entryNodes : List Nat) (op : OpBase) : Prop :=
  op.type.FollowsWalks g entryNodes

/-- `h'` is `h` after wiring calls that create only such operators. -/
abbrev Extends (g : Graph) (entryNodes : List Nat) : Heap → Heap → Prop :=
  Heap.Run (PlanOp g entryNodes)

/-- A heap the plan builder can have reached from the empty heap. -/
def Built (g : Graph) (entryNodes : List Nat) (h : Heap) : Prop :=
  Extends g entryNodes Heap.empty h

variable {g : Graph} {entryNodes : List Nat} {h h' : Heap}

theorem Built.wellFormed (built : Built g entryNodes h) : h.WellFormed :=
  Heap.Run.wellFormed built

theorem Built.follows (built : Built g entryNodes h) (i : Nat) :
    (h.node i).operation.type.FollowsWalks g entryNodes :=
  Heap.Run.operations built (fun _ => trivial) i

theorem Built.extend (built : Built g entryNodes h) (more : Extends g entryNodes h h') :
    Built g entryNodes h' :=
  Relation.ReflTransGen.trans built more

theorem extends_newOpNode {op : OpBase} (ok : op.type.FollowsWalks g entryNodes) :
    Extends g entryNodes h (h.newOpNode op).2 :=
  .single (.newOpNode op ok)

theorem extends_addChild {p c : Nat} (made : p < h.count ∧ c < h.count) :
    Extends g entryNodes h (h.addChild p c) :=
  .single (.addChild p c made)

theorem newScanOp_follows {node : Nat} (onWalk : g.OnWalkFrom entryNodes node) :
    (newScanOp g node).type.FollowsWalks g entryNodes := by
  unfold newScanOp
  split <;> exact onWalk

theorem foldlM_induction {α β : Type} {P : β → Prop} {f : β → α → Option β} {l : List α}
    {b b' : β} (step : ∀ {b a b'}, a ∈ l → P b → f b a = some b' → P b') (start : P b)
    (fold : l.foldlM f b = some b') : P b' := by
  induction l generalizing b with
  | nil => cases fold; exact start
  | cons a l ih =>
    obtain ⟨b₁, first, rest⟩ := Option.bind_eq_some.mp fold
    exact ih (fun member => step (List.mem_cons_of_mem a member)) (step (List.mem_cons_self a l)
      start first) rest

theorem foldlM_eq_none_of_mem {α β : Type} {f : β → α → Option β} {l : List α} {a : α}
    (member : a ∈ l) (stuck : ∀ b, f b a = none) (b : β) : l.foldlM f b = none := by
  induction l generalizing b with
  | nil => cases member
  | cons x l ih =>
    rw [List.foldlM_cons]
    rcases List.mem_cons.mp member with rfl | member
    · rw [stuck]
      rfl
    · cases f b x with
      | none => rfl
      | some b' => exact ih member b'

theorem expandWalk_extends {fuel src : Nat} {rev rev' : List Nat}
    (onWalk : g.OnWalkFrom entryNodes src) (walk : expandWalk g fuel src h rev = some (h', rev')) :
    Extends g entryNodes h h' ∧ ((∀ x ∈ rev, x < h.count) → ∀ x ∈ rev', x < h'.count) := by
  induction fuel generalizing src h rev with
  | zero => cases walk
  | succ fuel ih =>
    simp only [expandWalk] at walk
    split at walk
    · cases walk
      exact ⟨.refl, id⟩
    · rename_i edge dest step
      obtain ⟨more, made⟩ := ih (onWalk.next step) walk
      refine ⟨Relation.ReflTransGen.head (.newOpNode (newExpandAllOp g src edge dest) ⟨step, onWalk⟩)
        more, fun old => made ?_⟩
      intro x member
      rcases List.mem_cons.mp member with rfl | member
      · exact Nat.lt_succ_self _
      · exact Nat.lt_succ_of_lt (old x member)

theorem linkOps_extends {prevOp : Nat} {rest : List Nat} (made : prevOp < h.count)
    (restMade : ∀ x ∈ rest, x < h.count) : Extends g entryNodes h (linkOps h prevOp rest) := by
  induction rest generalizing h prevOp with
  | nil => exact .refl
  | cons currentOp rest ih =>
    have current := restMade currentOp (List.mem_cons_self _ _)
    exact Relation.ReflTransGen.head (.addChild currentOp prevOp ⟨current, made⟩)
      (ih current fun x member => restMade x (List.mem_cons_of_mem _ member))

theorem addEntryNode_extends {fuel root node : Nat} {ops ops' : List Nat}
    (entry : node ∈ entryNodes) (rootMade : root < h.count) (opsMade : ∀ x ∈ ops, x < h.count)
    (adds : addEntryNode g fuel root node h ops = some (h', ops')) :
    Extends g entryNodes h h' ∧ ∀ x ∈ ops', x < h'.count := by
  obtain ⟨⟨h₁, ops₁⟩, pushed, linked⟩ := Option.map_eq_some'.mp adds
  have onWalk : g.OnWalkFrom entryNodes node := ⟨node, entry, 0, rfl⟩
  have first : Extends g entryNodes h h₁ ∧ ∀ x ∈ ops₁, x < h₁.count := by
    unfold pushEntryOps at pushed
    split at pushed
    · obtain ⟨⟨h₂, reversed⟩, walk, same⟩ := Option.map_eq_some'.mp pushed
      cases same
      obtain ⟨more, made⟩ := expandWalk_extends onWalk walk
      refine ⟨more, fun x member => ?_⟩
      rcases List.mem_append.mp (List.reverseAux_eq _ _ ▸ member) with member | member
      · exact made (by simp) x (List.mem_reverse.mp member)
      · exact Nat.lt_of_lt_of_le (opsMade x member) more.count_le
    · cases pushed
      refine ⟨extends_newOpNode (newScanOp_follows onWalk), fun x member => ?_⟩
      rcases List.mem_cons.mp member with rfl | member
      · exact Nat.lt_succ_self _
      · exact Nat.lt_succ_of_lt (opsMade x member)
  obtain ⟨more, made⟩ := first
  match ops₁, made, linked with
  | prevOp :: next :: rest, made, linked =>
    cases linked
    have chain : Extends g entryNodes h₁ _ := linkOps_extends (made prevOp (List.mem_cons_self _ _))
      fun x member => made x (List.mem_cons_of_mem _ member)
    refine ⟨more.trans chain, fun x member => ?_⟩
    rw [List.mem_singleton.mp member]
    exact Nat.lt_of_lt_of_le rootMade (Heap.Run.count_le (more.trans chain))
  | [], made, linked => cases linked; exact ⟨more, made⟩
  | [_], made, linked => cases linked; exact ⟨more, made⟩

theorem forEachChild_induction {P : Heap → Prop} {visit : Nat → Heap → Option Heap}
    {root fuel i : Nat}
    (step : ∀ {c h h'}, P h → c ∈ (h.node root).children.items → visit c h = some h' → P h')
    (start : P h) (runs : forEachChild visit root fuel i h = some h') : P h' := by
  induction fuel generalizing i h with
  | zero => cases runs
  | succ fuel ih =>
    simp only [forEachChild] at runs
    split at runs
    · cases runs
      exact start
    · rename_i child found
      obtain ⟨h₁, visited, rest⟩ := Option.bind_eq_some.mp runs
      exact ih (step start (List.getElem?_mem found) visited) rest

theorem optimizeEntryPoints_extends {fuel root : Nat} (built : Built g entryNodes h)
    (rootMade : root < h.count) (runs : optimizeEntryPoints g fuel root h = some h') :
    Extends g entryNodes h h' := by
  induction fuel generalizing root h h' with
  | zero => cases runs
  | succ fuel ih =>
    simp only [optimizeEntryPoints] at runs
    split at runs
    · rename_i src _ _ leaf expanding
      cases runs
      have follows := built.follows root
      rw [expanding] at follows
      exact Relation.ReflTransGen.tail (extends_newOpNode (newScanOp_follows follows.2))
        (.addChild root _ ⟨Nat.lt_succ_of_lt rootMade, Nat.lt_succ_self _⟩)
    · refine forEachChild_induction (P := fun h₁ => Extends g entryNodes h h₁)
        (fun more member visited => more.trans (ih (built.extend more) ?_ visited)) .refl runs
      exact (built.extend more).wellFormed.closed root |>.1 _ member

theorem locateExpands_made {n fuel : Nat} {stack : List Nat} {a x y : Option Nat}
    (closed : h.Closed) (stackMade : ∀ s ∈ stack, s < h.count) (aMade : ∀ s ∈ a, s < h.count)
    (found : locateExpands h n fuel stack a = some (x, y)) :
    (∀ s ∈ x, s < h.count) ∧ ∀ s ∈ y, s < h.count := by
  induction fuel generalizing stack a with
  | zero => cases found
  | succ fuel ih =>
    rcases stack with _ | ⟨current, rest⟩
    · cases found
      exact ⟨aMade, by simp⟩
    · have currentMade := stackMade current (List.mem_cons_self _ _)
      have restMade := fun s member => stackMade s (List.mem_cons_of_mem current member)
      simp only [locateExpands] at found
      split at found
      · rcases a with _ | a
        · exact ih restMade (by simpa using currentMade) found
        · cases found
          exact ⟨aMade, by simpa using currentMade⟩
      · refine ih (fun s member => ?_) aMade found
        rcases List.mem_append.mp member with child | member
        · exact (closed current).1 s (List.mem_reverse.mp child)
        · exact restMade s member

theorem inheritParents_extends {a b fuel i : Nat} (built : Built g entryNodes h)
    (made : a < h.count ∧ b < h.count) (runs : inheritParents a b fuel i h = some h') :
    Extends g entryNodes h h' := by
  induction fuel generalizing i h with
  | zero => cases runs
  | succ fuel ih =>
    simp only [inheritParents] at runs
    split at runs
    · cases runs
      exact .refl
    · rename_i bParent found
      have parentMade := (built.wellFormed.closed b).2 bParent (List.getElem?_mem found)
      split at runs
      · exact ih built made runs
      · have adopted : Extends g entryNodes h
            (if h.containsChild bParent a then h else h.addChild bParent a) := by
          split
          · exact .refl
          · exact extends_addChild ⟨parentMade, made.1⟩
        have grows := adopted.count_le
        have moved := adopted.tail (.removeChild bParent b ⟨by omega, by omega⟩)
        have stillMade := Heap.Run.count_le moved
        exact moved.trans (ih (built.extend moved) ⟨by omega, by omega⟩ runs)

theorem mergeNodes_extends {fuel root n : Nat} (built : Built g entryNodes h)
    (rootMade : root < h.count) (merges : mergeNodes g fuel root h n = some h') :
    Extends g entryNodes h h' := by
  unfold mergeNodes at merges
  split at merges
  · cases merges
    exact .refl
  · split at merges
    · cases merges
    · rename_i a b found
      obtain ⟨aMade, bMade⟩ := locateExpands_made built.wellFormed.closed (by simpa using rootMade)
        (by simp) found
      have made : a < h.count ∧ b < h.count := ⟨aMade a rfl, bMade b rfl⟩
      split at merges
      · rename_i src relation dest expanding
        have follows := built.follows a
        rw [expanding] at follows
        have rewired : Extends g entryNodes h
            ((h.setOperation a (newExpandIntoOp src relation dest)).addChild a b) :=
          .head (.setOperation a (newExpandIntoOp src relation dest) follows made.1) (extends_addChild made)
        exact rewired.trans (inheritParents_extends (built.extend rewired) made merges)
      · cases merges
        exact .refl
    · cases merges
      exact .refl

theorem addFiltersChildren_induction {P : Heap → Prop}
    {visit : Nat → Heap → FilterTree → FilterResult} {root i : Nat} {seen : List String}
    {tree tree' : FilterTree} {r : Option (List String)}
    (step : ∀ {c h h' tree tree' saw}, P h → c ∈ (h.node root).children.items →
      visit c h tree = some (saw, h', tree') → P h')
    (start : P h) (runs : addFiltersChildren visit root i seen h tree = some (r, h', tree')) :
    P h' := by
  induction i generalizing seen h tree with
  | zero => cases runs; exact start
  | succ i ih =>
    simp only [addFiltersChildren] at runs
    split at runs
    · cases runs
    · rename_i child found
      split at runs
      · cases runs
      · rename_i saw h₁ tree₁ visited
        have kept := step start (List.getElem?_mem found) visited
        split at runs
        · cases runs; exact kept
        · exact ih kept runs

theorem addFilters_extends {fuel root : Nat} {tree tree' : FilterTree} {r : Option (List String)}
    (built : Built g entryNodes h) (rootMade : root < h.count)
    (runs : addFilters fuel root h tree = some (r, h', tree')) : Extends g entryNodes h h' := by
  induction fuel generalizing root h h' tree tree' r with
  | zero => cases runs
  | succ fuel ih =>
    have children {h₁ r₁ tree₁} (visits : addFiltersChildren (addFilters fuel) root
        (h.node root).children.items.length [] h tree = some (r₁, h₁, tree₁)) :
        Extends g entryNodes h h₁ :=
      addFiltersChildren_induction (P := Extends g entryNodes h) (fun more member visited =>
        more.trans (ih (built.extend more)
        (((built.extend more).wellFormed.closed _).1 _ member) visited)) .refl visits
    simp only [addFilters] at runs
    split at runs
    · rename_i seen h₁ tree₁ visits
      split at runs
      · obtain ⟨h₂, pushed, same⟩ := Option.map_eq_some'.mp runs
        cases same
        have grows := (children visits).count_le
        exact ((children visits).tail (.newOpNode (newFilterOp _) trivial)).tail
          (.pushInBetween root _ fuel ⟨by simp [Heap.newOpNode]; omega, by simp [Heap.newOpNode]⟩
            pushed)
      · cases runs
        exact children visits
    · exact children ‹_›

/-- Every heap `NewExecutionPlan` returns is reached from the empty heap by wiring calls that create
only operators following the first-edge walks, and its root is allocated. -/
theorem newExecutionPlan_built {fuel : Nat} {ast : QueryExpressionNode}
    {nodesToMerge : List Nat} {plan : ExecutionPlan}
    (planned : newExecutionPlan fuel ast entryNodes nodesToMerge = some plan) :
    Built ast.pattern entryNodes plan.heap ∧ plan.root < plan.heap.count := by
  unfold newExecutionPlan at planned
  simp only [bind, pure] at planned
  have start : Built ast.pattern entryNodes (Heap.empty.newOpNode newProduceResultsOp).2 :=
    extends_newOpNode trivial
  obtain ⟨⟨h₁, ops₁⟩, entries, planned⟩ := Option.bind_eq_some.mp planned
  have staged := foldlM_induction (P := fun s => Built ast.pattern entryNodes s.1 ∧ 0 < s.1.count ∧
      ∀ x ∈ s.2, x < s.1.count) (fun member ⟨built, rootMade, opsMade⟩ adds => by
        obtain ⟨more, made⟩ := addEntryNode_extends member rootMade opsMade adds
        exact ⟨built.extend more, Nat.lt_of_lt_of_le rootMade more.count_le, made⟩) ?_ entries
  · obtain ⟨built₁, rootMade, -⟩ := staged
    obtain ⟨h₂, optimized, planned⟩ := Option.bind_eq_some.mp planned
    have optimizes := optimizeEntryPoints_extends built₁ rootMade optimized
    obtain ⟨h₃, merged, planned⟩ := Option.bind_eq_some.mp planned
    have built₃ := foldlM_induction (P := fun h => Built ast.pattern entryNodes h ∧ 0 < h.count)
      (fun _ ⟨built, rootMade⟩ merges => by
        have more := mergeNodes_extends built rootMade merges
        exact ⟨built.extend more, Nat.lt_of_lt_of_le rootMade more.count_le⟩)
      ⟨built₁.extend optimizes, Nat.lt_of_lt_of_le rootMade optimizes.count_le⟩ merged
    split at planned
    · cases planned
      exact built₃
    · obtain ⟨⟨r, h₄, tree⟩, filtered, same⟩ := Option.bind_eq_some.mp planned
      cases same
      have more := addFilters_extends built₃.1 built₃.2 filtered
      exact ⟨built₃.1.extend more, Nat.lt_of_lt_of_le built₃.2 more.count_le⟩
  · split
    · exact ⟨start.extend (extends_newOpNode trivial), by simp [Heap.newOpNode, Heap.empty],
        by simp [Heap.newOpNode, Heap.empty]⟩
    · exact ⟨start, by simp [Heap.newOpNode, Heap.empty], by simp [Heap.newOpNode, Heap.empty]⟩

/-- Every link is recorded on both sides, as often on each: after any sequence of wiring calls
on nodes `NewOpNode` made, and so in every plan `NewExecutionPlan` returns. -/
theorem wiring_keeps_links_symmetric :
    (∀ {h : Heap}, Heap.Run (fun _ => True) Heap.empty h → h.LinksSymmetric) ∧
    ∀ {fuel ast entryNodes nodesToMerge} {plan : ExecutionPlan},
      newExecutionPlan fuel ast entryNodes nodesToMerge = some plan → plan.heap.LinksSymmetric :=
  ⟨fun run => (Heap.Run.wellFormed run).symmetric,
    fun planned => (newExecutionPlan_built planned).1.wellFormed.symmetric⟩

end RedisGraph.Plan
