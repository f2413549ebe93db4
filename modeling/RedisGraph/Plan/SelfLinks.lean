import RedisGraph.Plan.Stores
import RedisGraph.Plan.Print

/-! Where the self-links of a plan sit, and what that means for `ExecutionPlanPrint` (lines
419-439) and for `OpNode_Free` (lines 520-529), which `ExecutionPlanFree` calls on the root.
A self-linked `ExpandInto` is the child of no other operator, so the root reaches no cycle, both
walks return, the printer prints the whole plan, and an operator that is its own child is never
freed; every other operator hangs below the root, so nothing else is lost. Each merge also makes
one `ExpandInto`, into the node it merges, so no two `ExpandInto`s lead into one node, and without
a merge no store of `_OpNode_AddChild` goes past its block. -/

namespace RedisGraph.Plan

open Pattern Filter

/-! ### The plans `NewExecutionPlan` returns -/

/-- The shape of the plans `NewExecutionPlan` returns: every cycle is a self-link, of an
`ExpandInto` that is the child of no other operator, and the root is none of them. -/
structure SelfLinksApart (h : Heap) (root : Nat) : Prop where
  wellFormed : h.WellFormed
  rootMade : root < h.count
  cycles : h.AcyclicUpToSelfLinks
  orphaned : h.SelfLinksOrphaned
  into : ∀ i, i ∈ (h.node i).children.items →
    ∃ src relation dest, (h.node i).operation.type = .expandInto src relation dest
  rootApart : root ∉ (h.node root).children.items

section Apart

variable {g : Graph} {h h' : Heap} {root : Nat} {ops : List Nat}

theorem MergeState.apart (state : MergeState g root ops h) : SelfLinksApart h root where
  wellFormed := state.wellFormed
  rootMade := state.rootMade
  cycles := state.descend.acyclicUpToSelfLinks
  orphaned := state.orphaned
  into _ self := state.descend.into_of_self self
  rootApart self := by
    obtain ⟨_, _, _, into⟩ := state.descend.into_of_self self
    have top := state.rootTop
    simp [into, opRank] at top

theorem SelfLinksApart.keep (apart : SelfLinksApart h root) (keeps : KeepsSelfLinks h h')
    (wf : h'.WellFormed) : SelfLinksApart h' root where
  wellFormed := wf
  rootMade := Nat.lt_of_lt_of_le apart.rootMade keeps.grows
  cycles := keeps.cycles apart.cycles
  orphaned := keeps.orphaned apart.orphaned
  into i self := by
    have old := keeps.noneNew i self
    rw [keeps.operation i ((apart.wellFormed.closed i).1 i old)]
    exact apart.into i old
  rootApart self := apart.rootApart (keeps.noneNew root self)

theorem KeepsSelfLinks.into_old (keeps : KeepsSelfLinks h h') {i s r d : Nat} (made : i < h'.count)
    (into : (h'.node i).operation.type = .expandInto s r d) :
    (h.node i).operation.type = .expandInto s r d := by
  by_cases old : i < h.count
  · rwa [keeps.operation i old] at into
  · obtain ⟨t, filter⟩ := keeps.fresh i (Nat.not_lt.mp old) made
    simp [filter, newFilterOp] at into

theorem SelfLinksApart.eq_of_reaches (apart : SelfLinksApart h root) {t s : Nat}
    (self : s ∈ (h.node s).children.items) (reaches : h.Reaches t s) : t = s := by
  induction reaches with
  | refl => rfl
  | @child t c s member _ ih => exact apart.orphaned s self t (ih self ▸ member)

theorem SelfLinksApart.not_reachesCycle (apart : SelfLinksApart h root) :
    ¬ h.ReachesCycle root := fun ⟨a, b, reaches, link, back⟩ => by
  have self : a ∈ (h.node a).children.items := apart.cycles a b link back ▸ link
  exact apart.rootApart (apart.eq_of_reaches self reaches ▸ self)

theorem SelfLinksApart.opNodeFree_returns (apart : SelfLinksApart h root) {k : Nat}
    (enough : h.count < k) : ∃ freed, opNodeFree h k root = some freed := by
  classical
  have bound : ((Finset.range h.count).filter (h.Reaches root ·)).card < k :=
    ((Finset.card_filter_le _ _).trans (Finset.card_range _).le).trans_lt enough
  exact Option.isSome_iff_exists.mp
    (opNodeFree_isSome apart.wellFormed apart.not_reachesCycle apart.rootMade bound)

theorem Heap.AcyclicUpToSelfLinks.exists_top (cycles : h.AcyclicUpToSelfLinks)
    (wf : h.WellFormed) {x : Nat} (made : x < h.count) :
    ∃ t < h.count, h.Top t ∧ h.Reaches t x := by
  classical
  obtain ⟨n, above⟩ : ∃ n, ((Finset.range h.count).filter (h.Reaches · x)).card = n := ⟨_, rfl⟩
  induction n using Nat.strong_induction_on generalizing x with
  | _ n ih =>
  by_cases top : h.Top x
  · exact ⟨x, made, top, .refl x⟩
  obtain ⟨p, member, apart⟩ : ∃ p ∈ (h.node x).parents.items, p ≠ x := by
    simpa [Heap.Top] using top
  have link := wf.mem_children_of_mem_parents member
  have fewer : ((Finset.range h.count).filter (h.Reaches · p)).card < n := by
    refine above ▸ Finset.card_lt_card ((Finset.ssubset_iff_of_subset fun q reached => ?_).mpr
      ⟨x, by simp [made, Heap.Reaches.refl], by simpa using fun _ back => apart (cycles p x link back).symm⟩)
    simp only [Finset.mem_filter] at reached ⊢
    exact ⟨reached.1, reached.2.trans (.child link (.refl x))⟩
  obtain ⟨t, tMade, topT, reaches⟩ := ih _ fewer ((wf.closed x).2 p member) rfl
  exact ⟨t, tMade, topT, reaches.trans (.child link (.refl x))⟩

end Apart

theorem newExecutionPlan_simple {fuel : Nat} {ast : QueryExpressionNode}
    {entryNodes nodesToMerge : List Nat} {plan : ExecutionPlan}
    (planned : newExecutionPlan fuel ast entryNodes nodesToMerge = some plan) :
    ∀ e ∈ entryNodes, ast.pattern.WalkSimple e := fun e entry => by
  by_contra looping
  rw [newExecutionPlan_eq_none_of_not_simple entry looping fuel] at planned
  cases planned

theorem Heap.parents_newOpNode_of_blank {h : Heap} (op : OpBase)
    (blank : ∀ i, (h.node i).parents.items = []) (i : Nat) :
    ((h.newOpNode op).2.node i).parents.items = [] := by
  rw [Heap.node_newOpNode]
  split
  · rfl
  · exact blank i

theorem ParentsState.of_blank {h : Heap} {ops : List Nat}
    (blank : ∀ i, (h.node i).parents.items = []) (all : ∀ x < h.count, x ∈ ops)
    (bottom : ops.getLast? = some 0) : ParentsState 0 h ops :=
  ⟨fun x => by simp [Heap.OneParent, blank x], fun x _ => blank x, fun x made _ => all x made,
    bottom⟩

section Start

variable {g : Graph} {entryNodes : List Nat}

/-- Lines 317-322 start the entry-node loop from the root `ProduceResults` alone in `Ops`. -/
theorem entryLoop_start :
    EntryState g entryNodes 0 (Heap.empty.newOpNode newProduceResultsOp).2 [0] ∧
      ParentsState 0 (Heap.empty.newOpNode newProduceResultsOp).2 [0] ∧
      (Heap.empty.newOpNode newProduceResultsOp).2.Clean :=
  ⟨⟨extends_newOpNode trivial, Layered.empty.newOpNode (by simp [newProduceResultsOp]),
      by decide, List.cons_ne_nil _ _, by decide, List.forall_mem_singleton.mpr rfl,
      List.chain'_singleton _, rfl⟩,
    .of_blank (Heap.parents_newOpNode_of_blank _ fun _ => rfl) (by decide) rfl,
    Heap.clean_empty.newOpNode _⟩

/-- With an aggregation in the return clause, lines 319-321 start the loop from
`Ops = [opAggregate, root]`. -/
theorem entryLoop_start_aggregate :
    EntryState g entryNodes 0
        ((Heap.empty.newOpNode newProduceResultsOp).2.newOpNode newAggregateOp).2 [1, 0] ∧
      ParentsState 0
        ((Heap.empty.newOpNode newProduceResultsOp).2.newOpNode newAggregateOp).2 [1, 0] ∧
      ((Heap.empty.newOpNode newProduceResultsOp).2.newOpNode newAggregateOp).2.Clean :=
  have ⟨root, _, clean⟩ := @entryLoop_start g entryNodes
  ⟨⟨root.built.extend (extends_newOpNode trivial),
      root.layered.newOpNode (by simp [newAggregateOp]), by decide, List.cons_ne_nil _ _,
      by decide, List.forall_mem_cons.mpr ⟨rfl, List.forall_mem_singleton.mpr rfl⟩,
      List.chain'_pair.mpr (.inr ⟨rfl, Nat.zero_lt_one⟩), rfl⟩,
    .of_blank (Heap.parents_newOpNode_of_blank _ (Heap.parents_newOpNode_of_blank _ fun _ => rfl))
      (by decide) rfl,
    clean.newOpNode _⟩

theorem Layered.not_mem_children_self {h : Heap} (layered : Layered g h) (i : Nat) :
    i ∉ (h.node i).children.items := fun self => by
  obtain ⟨s, r, d, into⟩ := layered.descend.into_of_self self
  exact layered.noInto i s r d into

/-- The merges start from `MergeState`: the entry-point optimisation makes no `ExpandInto` and
leaves the operators with no parent on `Ops`. -/
theorem optimizeEntryPoints_mergeState {fuel : Nat} {h h' : Heap} {ops : List Nat}
    (simple : ∀ e ∈ entryNodes, g.WalkSimple e) (entry : EntryState g entryNodes 0 h ops)
    (parents : ParentsState 0 h ops) (optimized : optimizeEntryPoints g fuel 0 h = some h') :
    MergeState g 0 ops h' := by
  have layered := optimizeEntryPoints_layered simple entry.built entry.layered entry.rootMade
    optimized
  have more := optimizeEntryPoints_extends entry.built entry.rootMade optimized
  obtain ⟨single, ops', tops⟩ :=
    optimizeEntryPoints_oneParent entry.built entry.rootMade parents.single optimized
  refine ⟨layered.wellFormed, layered.descend, fun x _ => single x,
    fun s self => absurd self (layered.not_mem_children_self s),
    Nat.lt_of_lt_of_le entry.rootMade more.count_le, ?_,
    fun i s r m into => absurd into (layered.noInto i s r m),
    fun i _ s r _ _ m into => absurd into (layered.noInto i s r m), fun x made top => ?_⟩
  · rw [ops' 0 entry.rootMade]
    exact entry.rootTop
  · obtain ⟨made₁, top₁⟩ := tops x made top
    have kept := parents.tops x made₁ top₁
    exact .inl ⟨kept, (ops' x made₁).symm ▸ entry.top x kept⟩

theorem mergeNodes_fold_unmerging {fuel root : Nat} {nodesToMerge : List Nat} {h h' : Heap}
    (unmerging : ∀ n ∈ nodesToMerge, g.inDegree n ≠ 2)
    (merged : nodesToMerge.foldlM (mergeNodes g fuel root) h = some h') : h' = h :=
  foldlM_induction (P := fun h'' => h'' = h) (fun member same merges => by
    rw [mergeNodes, if_pos (unmerging _ member)] at merges
    cases merges
    exact same) rfl merged

theorem entryLoop_state {fuel : Nat} {h h' : Heap} {ops ops' : List Nat}
    (simple : ∀ e ∈ entryNodes, g.WalkSimple e)
    (start : EntryState g entryNodes 0 h ops ∧ ParentsState 0 h ops ∧ h.Clean)
    (loop : entryNodes.foldlM (fun state node => addEntryNode g fuel 0 node state.1 state.2)
      (h, ops) = some (h', ops')) :
    (EntryState g entryNodes 0 h' ops' ∧ ParentsState 0 h' ops' ∧ h'.Clean) ∧
      (entryNodes ≠ [] → ops' = [0]) :=
  foldlM_induction_last
    (P := fun s => EntryState g entryNodes 0 s.1 s.2 ∧ ParentsState 0 s.1 s.2 ∧ s.1.Clean)
    (Q := fun s => s.2 = [0])
    (fun member ⟨state, parents, clean⟩ adds =>
      have linked := addEntryNode_parents member simple state parents adds
      ⟨⟨addEntryNode_state member simple state adds, linked.1, addEntryNode_clean clean adds⟩,
        linked.2⟩) start loop

theorem mergeNodes_fold_built {fuel : Nat} {nodesToMerge : List Nat} {h h' : Heap}
    (built : Built g entryNodes h) (rootMade : 0 < h.count)
    (merged : nodesToMerge.foldlM (mergeNodes g fuel 0) h = some h') :
    Built g entryNodes h' ∧ 0 < h'.count :=
  foldlM_induction (P := fun h => Built g entryNodes h ∧ 0 < h.count)
    (fun _ ⟨built, rootMade⟩ merges =>
      have more := mergeNodes_extends built rootMade merges
      ⟨built.extend more, Nat.lt_of_lt_of_le rootMade more.count_le⟩)
    ⟨built, rootMade⟩ merged

theorem newExecutionPlan_eq_phases (ast : QueryExpressionNode) (entryNodes nodesToMerge : List Nat) :
    ∃ start : Heap × List Nat, (EntryState ast.pattern entryNodes 0 start.1 start.2 ∧
      ParentsState 0 start.1 start.2 ∧ start.1.Clean) ∧ ∀ fuel,
      newExecutionPlan fuel ast entryNodes nodesToMerge =
        (entryNodes.foldlM (fun state node => addEntryNode ast.pattern fuel 0 node state.1 state.2)
          start).bind fun built =>
        (optimizeEntryPoints ast.pattern fuel 0 built.1).bind fun h =>
        (nodesToMerge.foldlM (mergeNodes ast.pattern fuel 0) h).bind fun h =>
        match ast.whereNode with
        | none => some ⟨h, 0, none⟩
        | some whereNode => (addFilters fuel 0 h (buildFiltersTree whereNode.filters)).bind
            fun filtered => some ⟨filtered.2.1, 0, some filtered.2.2⟩ := by
  by_cases aggregate : returnClauseContainsAggregation ast.returnNode = true
  · refine ⟨(((Heap.empty.newOpNode newProduceResultsOp).2.newOpNode newAggregateOp).2, [1, 0]),
      entryLoop_start_aggregate, fun fuel => ?_⟩
    unfold newExecutionPlan
    simp only [aggregate, if_true]
    rcases ast.whereNode with _ | whereNode <;> rfl
  · refine ⟨((Heap.empty.newOpNode newProduceResultsOp).2, [0]), entryLoop_start, fun fuel => ?_⟩
    unfold newExecutionPlan
    simp only [aggregate, if_false]
    rcases ast.whereNode with _ | whereNode <;> rfl

/-- The four phases of `NewExecutionPlan`: the entry-node loop from its start, the entry-point
optimisation, the merges, and, with a WHERE clause, the filters. -/
theorem newExecutionPlan_phases {fuel : Nat} {ast : QueryExpressionNode}
    {nodesToMerge : List Nat} {plan : ExecutionPlan}
    (planned : newExecutionPlan fuel ast entryNodes nodesToMerge = some plan) :
    ∃ h₀ ops₀ h₁ ops₁ h₂ h₃,
      (EntryState ast.pattern entryNodes 0 h₀ ops₀ ∧ ParentsState 0 h₀ ops₀ ∧ h₀.Clean) ∧
      entryNodes.foldlM (fun state node => addEntryNode ast.pattern fuel 0 node state.1 state.2)
        (h₀, ops₀) = some (h₁, ops₁) ∧
      optimizeEntryPoints ast.pattern fuel 0 h₁ = some h₂ ∧
      nodesToMerge.foldlM (mergeNodes ast.pattern fuel 0) h₂ = some h₃ ∧ plan.root = 0 ∧
      (ast.whereNode = none ∧ plan.heap = h₃ ∨ ∃ whereNode r tree, ast.whereNode = some whereNode ∧
        addFilters fuel 0 h₃ (buildFiltersTree whereNode.filters) = some (r, plan.heap, tree)) := by
  obtain ⟨start, start₀, unfolds⟩ := newExecutionPlan_eq_phases ast entryNodes nodesToMerge
  rw [unfolds] at planned
  obtain ⟨⟨h₁, ops₁⟩, entries, planned⟩ := Option.bind_eq_some.mp planned
  obtain ⟨h₂, optimized, planned⟩ := Option.bind_eq_some.mp planned
  obtain ⟨h₃, merged, planned⟩ := Option.bind_eq_some.mp planned
  refine ⟨start.1, start.2, h₁, ops₁, h₂, h₃, start₀, entries, optimized, merged, ?_⟩
  split at planned
  · cases planned
    exact ⟨rfl, .inl ⟨‹_›, rfl⟩⟩
  · obtain ⟨⟨r, h₄, tree⟩, filtered, same⟩ := Option.bind_eq_some.mp planned
    cases same
    exact ⟨rfl, .inr ⟨_, r, tree, ‹_›, filtered⟩⟩

end Start

/-- The shape of a plan `NewExecutionPlan` builds: self-links apart from the root, one `ExpandInto`
into each merged node, and with no merge one parent each and no overrun. -/
structure PlanShape (g : Graph) (entryNodes nodesToMerge : List Nat) (plan : ExecutionPlan) :
    Prop where
  apart : SelfLinksApart plan.heap plan.root
  intoMerged : ∀ i < plan.heap.count, ∀ src relation dest,
    (plan.heap.node i).operation.type = .expandInto src relation dest →
      dest ∈ nodesToMerge ∧ g.inDegree dest = 2
  intoUnique : ∀ i < plan.heap.count, ∀ j < plan.heap.count, ∀ src relation src' relation' dest,
    (plan.heap.node i).operation.type = .expandInto src relation dest →
      (plan.heap.node j).operation.type = .expandInto src' relation' dest → i = j
  single : (∀ n ∈ nodesToMerge, g.inDegree n ≠ 2) → ∀ x, plan.heap.OneParent x
  tops : ∀ x < plan.heap.count, plan.heap.Top x →
    x = plan.root ∨ x ∈ (plan.heap.node x).children.items ∨ entryNodes = []
  fits : (∀ n ∈ nodesToMerge, g.inDegree n ≠ 2) → plan.heap.overrun = false

/-- Every plan `NewExecutionPlan` returns, with the nodes to merge listed once each, has
`PlanShape`: the merges keep `MergeState`, and no other phase makes an `ExpandInto`. -/
theorem newExecutionPlan_shape {fuel : Nat} {ast : QueryExpressionNode}
    {entryNodes nodesToMerge : List Nat} {plan : ExecutionPlan}
    (planned : newExecutionPlan fuel ast entryNodes nodesToMerge = some plan)
    (distinct : nodesToMerge.Nodup) : PlanShape ast.pattern entryNodes nodesToMerge plan := by
  have simple := newExecutionPlan_simple planned
  have wf := (newExecutionPlan_built planned).1.wellFormed
  obtain ⟨h₀, ops₀, h₁, ops₁, h₂, h₃, start₀, entries, optimized, merged, rootZero, filters⟩ :=
    newExecutionPlan_phases planned
  obtain ⟨⟨entry₁, parents₁, clean₁⟩, rootOnly⟩ := entryLoop_state simple start₀ entries
  have layered₂ := optimizeEntryPoints_layered simple entry₁.built entry₁.layered
    entry₁.rootMade optimized
  have more := optimizeEntryPoints_extends entry₁.built entry₁.rootMade optimized
  have start := optimizeEntryPoints_mergeState simple entry₁ parents₁ optimized
  have single₂ x : h₂.OneParent x := start.single x (layered₂.noInto x)
  have clean₂ := optimizeEntryPoints_clean clean₁ optimized
  obtain ⟨merge₃, origin₃⟩ := mergeNodes_fold_state distinct start
    (fun i s r m into => absurd into (layered₂.noInto i s r m)) merged
  have into₃ : ∀ i s r m, (h₃.node i).operation.type = .expandInto s r m →
      m ∈ nodesToMerge ∧ ast.pattern.inDegree m = 2 := fun i s r m into =>
    ⟨(origin₃ i s r m into).resolve_left (layered₂.noInto i s r m),
      merge₃.intoDegree i s r m into⟩
  have built₃ := mergeNodes_fold_built (entry₁.built.extend more) start.rootMade merged
  have single₃ (unmerging : ∀ n ∈ nodesToMerge, ast.pattern.inDegree n ≠ 2) :
      ∀ x, h₃.OneParent x :=
    (mergeNodes_fold_unmerging unmerging merged).symm ▸ single₂
  have tops₃ : ∀ x < h₃.count, h₃.Top x →
      x = 0 ∨ x ∈ (h₃.node x).children.items ∨ entryNodes = [] := fun x made top => by
    rcases merge₃.tops x made top with ⟨kept, _⟩ | self
    · by_cases none : entryNodes = []
      · exact .inr (.inr none)
      · rw [show ops₁ = [0] from rootOnly none] at kept
        exact .inl (List.mem_singleton.mp kept)
    · exact .inr (.inl self)
  rcases plan with ⟨heap, root, filterTree⟩
  dsimp only at rootZero filters wf ⊢
  subst rootZero
  rcases filters with ⟨_, rfl⟩ | ⟨_, r, tree, _, filtered⟩
  · exact ⟨merge₃.apart, fun i _ s r m into => into₃ i s r m into,
      fun i _ j _ s r s' r' m => merge₃.intoUnique i j s r s' r' m, single₃, tops₃,
      fun unmerging => (mergeNodes_fold_unmerging unmerging merged).symm ▸ clean₂.fits⟩
  · have keeps := (addFilters_selfLinks built₃.1 built₃.2 filtered).1
    refine ⟨merge₃.apart.keep keeps wf,
      fun i made s r m into => into₃ i s r m (keeps.into_old made into),
      fun i madeI j madeJ s r s' r' m intoI intoJ => merge₃.intoUnique i j s r s' r' m
        (keeps.into_old madeI intoI) (keeps.into_old madeJ intoJ),
      fun unmerging => keeps.single (single₃ unmerging), fun x made top =>
        have ⟨made₃, top₃⟩ := keeps.tops x made top
        (tops₃ x made₃ top₃).imp_right (Or.imp_left fun self => (keeps.kept x self).symm ▸ self),
      fun unmerging => ?_⟩
    obtain rfl := mergeNodes_fold_unmerging unmerging merged
    exact (addFilters_fits built₃.1.wellFormed
      (layered₂.descend.acyclic layered₂.not_mem_children_self) built₃.2 le_rfl
      ⟨clean₂.fits, single₂, fun n => .inl (clean₂.roomy n .parents).storeFits⟩
      (fun y reaches => reaches.lt_count built₃.1.wellFormed.closed built₃.2) filtered).fits

theorem PlanShape.reaches_or_self {g : Graph} {entryNodes nodesToMerge : List Nat}
    {plan : ExecutionPlan} (shape : PlanShape g entryNodes nodesToMerge plan)
    (entry : entryNodes ≠ []) {x : Nat} (made : x < plan.heap.count) :
    plan.heap.Reaches plan.root x ∨
      ∃ s, s ∈ (plan.heap.node s).children.items ∧ plan.heap.Reaches s x := by
  obtain ⟨t, tMade, top, reaches⟩ := shape.apart.cycles.exists_top shape.apart.wellFormed made
  rcases shape.tops t tMade top with rfl | self | none
  · exact .inl reaches
  · exact .inr ⟨t, self, reaches⟩
  · exact absurd none entry

/-- In every plan `NewExecutionPlan` returns an operator that is its own child is an `ExpandInto`,
and the plan is acyclic exactly when no operator is its own child. -/
theorem newExecutionPlan_cycles_are_self_links {fuel : Nat} {ast : QueryExpressionNode}
    {entryNodes nodesToMerge : List Nat} {plan : ExecutionPlan}
    (planned : newExecutionPlan fuel ast entryNodes nodesToMerge = some plan)
    (distinct : nodesToMerge.Nodup) :
    (plan.heap.Acyclic ↔ ∀ i, i ∉ (plan.heap.node i).children.items) ∧
      ∀ i, i ∈ (plan.heap.node i).children.items →
        ∃ src relation dest, (plan.heap.node i).operation.type = .expandInto src relation dest := by
  have apart := (newExecutionPlan_shape planned distinct).apart
  exact ⟨⟨fun acyclic i self => acyclic i i self (.refl i), apart.cycles.acyclic⟩, apart.into⟩

/-- `s1 -> x`, `s2 -> x`, `x -> m`, `t -> m`, `m -> z`: merging `m` first shares the `ExpandInto`
into `m`, so merging `x` meets the `ExpandAll` from `s2` twice and makes it its own child. -/
def selfLinkQuery : QueryExpressionNode :=
  ⟨⟨[⟨"s1", none⟩, ⟨"s2", none⟩, ⟨"t", none⟩, ⟨"m", none⟩, ⟨"x", none⟩, ⟨"z", none⟩],
    [⟨0, 4⟩, ⟨1, 4⟩, ⟨4, 3⟩, ⟨2, 3⟩, ⟨3, 5⟩]⟩, none, ⟨[⟨.node⟩], false⟩⟩

theorem selfLinkQuery_self_link :
    ∃ plan, newExecutionPlan 16 selfLinkQuery (selfLinkQuery.pattern.getNDegreeNodes 0)
        (selfLinkQuery.pattern.getNDegreeNodes 2) = some plan ∧
      (selfLinkQuery.pattern.getNDegreeNodes 2).Nodup ∧
      ((plan.heap.Acyclic ↔ ∀ i, i ∉ (plan.heap.node i).children.items) ∧
        ∀ i, i ∈ (plan.heap.node i).children.items →
          ∃ src relation dest, (plan.heap.node i).operation.type = .expandInto src relation dest) ∧
      4 ∈ (plan.heap.node 4).children.items :=
  let planned : newExecutionPlan 16 selfLinkQuery (selfLinkQuery.pattern.getNDegreeNodes 0)
      (selfLinkQuery.pattern.getNDegreeNodes 2) = some _ := rfl
  ⟨_, planned, by decide, newExecutionPlan_cycles_are_self_links planned (by decide), by decide⟩

/-- On every plan `NewExecutionPlan` returns, `ExecutionPlanPrint` returns the lines of the whole
pre-order walk from the root, with no operator that is its own child on them. -/
theorem newExecutionPlan_prints_whole_plan {fuel : Nat} {ast : QueryExpressionNode}
    {entryNodes nodesToMerge : List Nat} {plan : ExecutionPlan}
    (planned : newExecutionPlan fuel ast entryNodes nodesToMerge = some plan)
    (distinct : nodesToMerge.Nodup) (name : OpBase → String) {k : Nat}
    (enough : plan.heap.count < k) :
    executionPlanPrint name plan k =
        some (render name plan.heap (preorder plan.heap (plan.heap.count + 1) plan.root 0)) ∧
      ∀ line ∈ preorder plan.heap (plan.heap.count + 1) plan.root 0,
        line.1 ∉ (plan.heap.node line.1).children.items := by
  have apart := (newExecutionPlan_shape planned distinct).apart
  refine ⟨executionPlanPrint_eq_render apart.wellFormed apart.not_reachesCycle apart.rootMade
    enough, fun line member self => ?_⟩
  have reaches := reaches_of_mem_preorder member
  exact apart.rootApart (apart.eq_of_reaches self reaches ▸ self)

theorem selfLinkQuery_prints_whole_plan :
    ∃ plan, newExecutionPlan 16 selfLinkQuery (selfLinkQuery.pattern.getNDegreeNodes 0)
        (selfLinkQuery.pattern.getNDegreeNodes 2) = some plan ∧
      (selfLinkQuery.pattern.getNDegreeNodes 2).Nodup ∧ plan.heap.count < 13 ∧
      (executionPlanPrint (fun _ => "Op") plan 13 = some (render (fun _ => "Op") plan.heap
          (preorder plan.heap (plan.heap.count + 1) plan.root 0)) ∧
        ∀ line ∈ preorder plan.heap (plan.heap.count + 1) plan.root 0,
          line.1 ∉ (plan.heap.node line.1).children.items) ∧
      4 ∈ (plan.heap.node 4).children.items :=
  let planned : newExecutionPlan 16 selfLinkQuery (selfLinkQuery.pattern.getNDegreeNodes 0)
      (selfLinkQuery.pattern.getNDegreeNodes 2) = some _ := rfl
  ⟨_, planned, by decide, by decide,
    newExecutionPlan_prints_whole_plan planned (by decide) _ (by decide), by decide⟩

/-- In every plan `NewExecutionPlan` returns an `ExpandInto` leads into a node to merge of in-degree
two, and no other `ExpandInto` leads into that node. -/
theorem newExecutionPlan_expandInto_unique {fuel : Nat} {ast : QueryExpressionNode}
    {entryNodes nodesToMerge : List Nat} {plan : ExecutionPlan}
    (planned : newExecutionPlan fuel ast entryNodes nodesToMerge = some plan)
    (distinct : nodesToMerge.Nodup) :
    ∀ i < plan.heap.count, ∀ src relation dest,
      (plan.heap.node i).operation.type = .expandInto src relation dest →
        dest ∈ nodesToMerge ∧ ast.pattern.inDegree dest = 2 ∧
          ∀ j < plan.heap.count, ∀ src' relation',
            (plan.heap.node j).operation.type = .expandInto src' relation' dest → j = i := by
  have shape := newExecutionPlan_shape planned distinct
  intro i made src relation dest into
  exact ⟨(shape.intoMerged i made src relation dest into).1,
    (shape.intoMerged i made src relation dest into).2,
    fun j madeJ src' relation' intoJ =>
      shape.intoUnique j madeJ i made src' relation' src relation dest intoJ into⟩

theorem sharedQuery_expandInto_unique :
    ∃ plan, newExecutionPlan 8 sharedQuery (sharedQuery.pattern.getNDegreeNodes 0)
        (sharedQuery.pattern.getNDegreeNodes 2) = some plan ∧
      (sharedQuery.pattern.getNDegreeNodes 2).Nodup ∧
      (∀ i < plan.heap.count, ∀ src relation dest,
        (plan.heap.node i).operation.type = .expandInto src relation dest →
          dest ∈ sharedQuery.pattern.getNDegreeNodes 2 ∧ sharedQuery.pattern.inDegree dest = 2 ∧
            ∀ j < plan.heap.count, ∀ src' relation',
              (plan.heap.node j).operation.type = .expandInto src' relation' dest → j = i) ∧
      3 < plan.heap.count ∧ (plan.heap.node 3).operation.type = .expandInto 2 1 1 :=
  let planned : newExecutionPlan 8 sharedQuery (sharedQuery.pattern.getNDegreeNodes 0)
      (sharedQuery.pattern.getNDegreeNodes 2) = some _ := rfl
  ⟨_, planned, by decide, newExecutionPlan_expandInto_unique planned (by decide), by decide,
    rfl⟩

/-- Without a merge no store of `_OpNode_AddChild` (lines 49 and 58) goes past its block: the
filters empty `parent->children` with `realloc(p, 0)` before line 111 stores into a fresh block. -/
theorem newExecutionPlan_stores_fit {fuel : Nat} {ast : QueryExpressionNode}
    {entryNodes nodesToMerge : List Nat} {plan : ExecutionPlan}
    (planned : newExecutionPlan fuel ast entryNodes nodesToMerge = some plan)
    (distinct : nodesToMerge.Nodup)
    (unmerging : ∀ n ∈ nodesToMerge, ast.pattern.inDegree n ≠ 2) : plan.heap.overrun = false :=
  (newExecutionPlan_shape planned distinct).fits unmerging

/-- `a -> b` with `WHERE a.p = 1 AND b.q = 2`: a `Filter` goes above the scan of `a` and another
above the expansion into `b`. -/
def filteredQuery : QueryExpressionNode :=
  ⟨⟨[⟨"a", none⟩, ⟨"b", none⟩], [⟨0, 1⟩]⟩,
    some ⟨.cond (.pred ⟨"a", "p", 0, .constant 1⟩) 0 (.pred ⟨"b", "q", 0, .constant 2⟩)⟩,
    ⟨[⟨.node⟩], false⟩⟩

theorem filteredQuery_stores_fit :
    ∃ plan, newExecutionPlan 8 filteredQuery (filteredQuery.pattern.getNDegreeNodes 0)
        (filteredQuery.pattern.getNDegreeNodes 2) = some plan ∧
      (filteredQuery.pattern.getNDegreeNodes 2).Nodup ∧
      (∀ n ∈ filteredQuery.pattern.getNDegreeNodes 2, filteredQuery.pattern.inDegree n ≠ 2) ∧
      plan.heap.overrun = false ∧ (plan.heap.node 2).parents.storeFits = false :=
  let planned : newExecutionPlan 8 filteredQuery (filteredQuery.pattern.getNDegreeNodes 0)
      (filteredQuery.pattern.getNDegreeNodes 2) = some _ := rfl
  ⟨_, planned, by decide, by decide, newExecutionPlan_stores_fit planned (by decide) (by decide),
    rfl⟩

end RedisGraph.Plan
