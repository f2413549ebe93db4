import RedisGraph.Plan.Complete
import RedisGraph.Exec.Termination
import Mathlib.Logic.Hydra
import Mathlib.Data.Prod.Lex

/-! `NewExecutionPlan` returns once its fuel is large enough whenever the first-edge walk from every
entry node ends. Each phase settles: the loop of lines 340-352 past the walk's length, the
entry-point optimisation on what each operator reaches in the heap of the entry-node loop, the
search of lines 137-156 in the cut-expand order of the reach counts, and
`_ExecutionPlan_AddFilters` on the old operators each operator reaches, then on whether it is a
new `Filter`, then on all it reaches. -/

namespace RedisGraph.Plan

open Pattern Filter Exec

/-! ### The entry-node loop -/

section Entry

variable {g : Graph}

/-- Lines 340-352 give one heap and stack for every fuel beyond the walk's length. -/
theorem expandWalk_settles {v k : Nat} (ends : g.EndsAt v k) (h : Heap) (rev : List Nat) :
    Settles fun fuel => expandWalk g fuel v h rev := by
  induction k generalizing v h rev with
  | zero =>
    obtain ⟨u, here, stuck⟩ := ends
    cases here
    refine Settles.succ ?_
    simp only [expandWalk, stuck]
    exact .pure _
  | succ k ih =>
    obtain ⟨u, at_k, stuck⟩ := ends
    rw [Graph.hop_succ_eq_next] at at_k
    cases step : g.next v with
    | none => simp [step] at at_k
    | some edge =>
      obtain ⟨e, w⟩ := edge
      refine Settles.succ ?_
      simp only [expandWalk, step]
      exact ih ⟨u, by simpa [step] using at_k, stuck⟩ _ _

theorem addEntryNode_settles {root v : Nat} (simple : g.WalkSimple v) (h : Heap)
    (ops : List Nat) : Settles fun fuel => addEntryNode g fuel root v h ops := by
  obtain ⟨k, -, ends⟩ := g.endsAt_of_simple simple
  unfold addEntryNode pushEntryOps
  by_cases outgoing : g.outgoingEdges v ≠ []
  · simp only [if_pos outgoing]
    exact ((expandWalk_settles ends h []).map _).map _
  · simp only [if_neg outgoing]
    exact .pure _

end Entry

/-! ### The entry-point optimisation -/

section Optimize

variable {g : Graph} {B : Heap}

/-- The loop of lines 232-234 settles, in the fuel of its visits and in its own, when each visit
settles and keeps `P` and the children of `root`. -/
theorem forEachChild_settles {visit : Nat → Nat → Heap → Option Heap} {root : Nat}
    {P : Heap → Prop}
    (keeps : ∀ {m c h h'}, P h → c ∈ (h.node root).children.items → visit m c h = some h' →
      P h' ∧ (h'.node root).children.items = (h.node root).children.items)
    (ends : ∀ {c h}, P h → c ∈ (h.node root).children.items → Settles fun m => visit m c h)
    (i : Nat) {h : Heap} (start : P h) :
    ∃ F r, ∀ m n, F ≤ m → F ≤ n → forEachChild (visit m) root n i h = some r := by
  obtain ⟨k, left⟩ : ∃ k, (h.node root).children.items.length - i = k := ⟨_, rfl⟩
  induction k generalizing i h with
  | zero =>
    refine ⟨1, h, fun m n _ more => ?_⟩
    obtain ⟨n, rfl⟩ : ∃ n', n = n' + 1 := ⟨n - 1, by omega⟩
    simp [forEachChild,
      List.getElem?_eq_none_iff.mpr (show (h.node root).children.items.length ≤ i by omega)]
  | succ k ih =>
    obtain ⟨c, found⟩ : ∃ c, (h.node root).children.items[i]? = some c :=
      ⟨_, List.getElem?_eq_getElem (by omega)⟩
    have member := List.getElem?_mem found
    obtain ⟨F₁, h₁, visited⟩ := ends start member
    obtain ⟨kept, same⟩ := keeps start member (visited F₁ le_rfl)
    obtain ⟨F₂, r, rest⟩ := ih (i + 1) kept (by rw [same]; omega)
    refine ⟨max F₁ F₂ + 1, r, fun m n atM atN => ?_⟩
    obtain ⟨n, rfl⟩ : ∃ n', n = n' + 1 := ⟨n - 1, by omega⟩
    simp only [forEachChild, found, visited m (by omega), Option.some_bind]
    exact rest m n (by omega) (by omega)

theorem optimizeEntryPoints_blank {c : Nat} {h : Heap} (blank : (h.node c).children.items = [])
    (kind : ∀ s r d, (h.node c).operation.type ≠ .expandAll s r d) :
    Settles fun fuel => optimizeEntryPoints g fuel c h := by
  refine Settles.succ (Settles.of_eq 1 (fun fuel more => ?_) (.pure h))
  obtain ⟨fuel, rfl⟩ : ∃ n, fuel = n + 1 := ⟨fuel - 1, by omega⟩
  simp only [optimizeEntryPoints]
  split
  · exact absurd ‹_› (kind _ _ _)
  · simp [forEachChild, blank]

open Classical in
/-- `_ExecutionPlan_OptimizeEntryPoints` settles on the heaps it makes from an acyclic `B`: each
visited child of `B` reaches fewer operators of `B`. -/
theorem optimizeEntryPoints_settles (acyclic : B.Acyclic) {x : Nat}
    (made : x < B.count) {h : Heap} (wfH : h.WellFormed) (added : ScansAdded g B h) :
    Settles fun fuel => optimizeEntryPoints g fuel x h := by
  obtain ⟨n, reach⟩ : ∃ n, ((Finset.range B.count).filter (B.Reaches x ·)).card = n := ⟨_, rfl⟩
  induction n using Nat.strong_induction_on generalizing x h with
  | _ n ih =>
  refine Settles.succ ?_
  by_cases leaf : (h.node x).children.items = [] ∧
      ∃ s r d, (h.node x).operation.type = .expandAll s r d
  · obtain ⟨empty, s, r, d, expanding⟩ := leaf
    simp only [optimizeEntryPoints, empty, expanding]
    exact .pure _
  have loop fuel : optimizeEntryPoints g (fuel + 1) x h =
      forEachChild (optimizeEntryPoints g fuel) x fuel 0 h := by
    simp only [optimizeEntryPoints]
    split
    · exact absurd ⟨‹_›, _, _, _, ‹_›⟩ leaf
    · rfl
  simp only [loop]
  obtain ⟨F, r, runs⟩ := forEachChild_settles (P := fun h' => h'.WellFormed ∧ ScansAdded g B h')
    (fun ⟨wf', added'⟩ member visited =>
      have ⟨more, _, wf''⟩ := optimizeEntryPoints_scans wf' ((wf'.closed x).1 _ member) visited
      ⟨⟨wf'', added'.trans more⟩, more.kept x (Nat.lt_of_lt_of_le made added'.grows)
        (List.ne_nil_of_mem member)⟩)
    (fun {c h'} start member => by
      obtain ⟨wf', added'⟩ := start
      by_cases old : c < B.count
      · have inB : c ∈ (B.node x).children.items := by
          by_cases empty : (B.node x).children.items = []
          · exact absurd (added'.fresh x made empty c member) (Nat.not_le.mpr old)
          · rwa [added'.kept x made empty] at member
        exact ih _ (reach ▸ card_reaches_lt_of_not_reachesCycle (acyclic.not_reachesCycle x) made
          inB) old wf' added' rfl
      · obtain ⟨blank, kind⟩ :=
          added'.new c (Nat.not_lt.mp old) ((wf'.closed x).1 c member)
        exact optimizeEntryPoints_blank blank kind)
    0 ⟨wfH, added⟩
  exact ⟨F, r, fun fuel more => runs fuel fuel more more⟩

end Optimize

/-! ### The merges -/

section Merge

variable {g : Graph} {h : Heap}

open Classical in
/-- The search of lines 137-156 settles from a stack of operators that reach no cycle: it pops one
and pushes its children, each of which reaches fewer operators. -/
theorem locateExpands_settles (wf : h.WellFormed) (n : Nat) {stack : List Nat}
    (fine : ∀ z ∈ stack, z < h.count ∧ ¬ h.ReachesCycle z) (a : Option Nat) :
    Settles fun fuel => locateExpands h n fuel stack a := by
  let reach (z : Nat) := ((Finset.range h.count).filter (h.Reaches z ·)).card
  obtain ⟨s, same⟩ : ∃ s : Multiset Nat, (stack : Multiset Nat) = s := ⟨_, rfl⟩
  induction s using (WellFounded.cutExpand (InvImage.wf reach wellFounded_lt)).induction
    generalizing stack a with
  | _ s ih =>
  refine Settles.succ ?_
  rcases stack with _ | ⟨current, rest⟩
  · simp only [locateExpands]
    exact .pure _
  obtain ⟨made, noCycle⟩ := fine current (List.mem_cons_self _ _)
  have restFine z member := fine z (List.mem_cons_of_mem current member)
  by_cases found : expandsInto (h.node current).operation n = true
  · rcases a with _ | a
    · simp only [locateExpands, found, if_true]
      refine ih _ ⟨0, current, by simp, ?_⟩ restFine _ rfl
      rw [← same, add_zero, ← Multiset.cons_coe, add_comm, Multiset.singleton_add]
    · simp only [locateExpands, found, if_true]
      exact .pure _
  · simp only [locateExpands, found]
    refine ih _ ⟨(h.node current).children.items.reverse, current, fun c member => ?_, ?_⟩
      (fun z member => ?_) _ rfl
    · exact card_reaches_lt_of_not_reachesCycle noCycle made
        (List.mem_reverse.mp (Multiset.mem_coe.mp member))
    · rw [← same, ← Multiset.coe_add, ← Multiset.cons_coe, add_comm, Multiset.singleton_add,
        Multiset.cons_add, add_comm]
    · rcases List.mem_append.mp member with child | old
      · have link := List.mem_reverse.mp child
        exact ⟨(wf.closed current).1 z link, fun cycle => noCycle (cycle.of_child link)⟩
      · exact restFine z old

theorem inheritParents_settles (a b i : Nat) (h : Heap) :
    Settles fun fuel => inheritParents a b fuel i h := by
  obtain ⟨k, left⟩ : ∃ k, (h.node b).parents.items.length - i ≤ k := ⟨_, le_rfl⟩
  induction k generalizing i h with
  | zero =>
    refine Settles.succ ?_
    simp only [inheritParents, List.getElem?_eq_none_iff.mpr
      (show (h.node b).parents.items.length ≤ i by omega)]
    exact .pure h
  | succ k ih =>
    refine Settles.succ ?_
    cases found : (h.node b).parents.items[i]? with
    | none =>
      simp only [inheritParents, found]
      exact .pure h
    | some p =>
      have member := List.getElem?_mem found
      have within : i < (h.node b).parents.items.length :=
        (List.getElem?_eq_some_iff.mp found).1
      simp only [inheritParents, found]
      by_cases same : p = a
      · simp only [same, if_true]
        exact ih (i + 1) h (by omega)
      · simp only [same, if_false]
        refine ih (i + 1) _ ?_
        have shrink : (((if h.containsChild p a then h else h.addChild p a).removeChild p b).node
            b).parents.items.length ≤ (h.node b).parents.items.length := by
          simp only [Heap.removeChild, Heap.parents_removeNode, if_true]
          split
          · rw [List.length_erase_of_mem member]
            omega
          · rw [Heap.parents_addChild]
            split
            · rw [List.length_erase_of_mem (List.mem_append_left _ member)]
              simp
            · rw [List.length_erase_of_mem member]
              omega
        omega

theorem mergeNodes_settles {root n : Nat} {ops : List Nat} (state : MergeState g root ops h) :
    Settles fun fuel => mergeNodes g fuel root h n := by
  unfold mergeNodes
  by_cases degree : g.inDegree n ≠ 2
  · simp only [if_pos degree]
    exact .pure h
  simp only [if_neg degree]
  obtain ⟨F, found, located⟩ := locateExpands_settles state.wellFormed n
    (show ∀ z ∈ [root], z < h.count ∧ ¬ h.ReachesCycle z by
      simpa using ⟨state.rootMade, state.apart.not_reachesCycle⟩) none
  rcases found with ⟨_ | a, _ | b⟩
  · exact Settles.of_eq F (fun fuel more => by simp only [located fuel more]) (.pure h)
  · exact Settles.of_eq F (fun fuel more => by simp only [located fuel more]) (.pure h)
  · exact Settles.of_eq F (fun fuel more => by simp only [located fuel more]) (.pure h)
  · obtain ⟨aExpands, -⟩ := locateExpands_expands (by simp) (located F le_rfl)
    obtain ⟨s, r, aAll⟩ := expandsInto_iff.mp (aExpands a rfl)
    exact Settles.of_eq F (fun fuel more => by simp only [located fuel more, aAll])
      (inheritParents_settles a b 0 ((h.setOperation a (newExpandIntoOp s r n)).addChild a b))

theorem mergeNodes_fold_settles {root : Nat} {ops nodes : List Nat} (distinct : nodes.Nodup)
    (state : MergeState g root ops h)
    (pending : ∀ i s r m, (h.node i).operation.type = .expandInto s r m → m ∉ nodes) :
    Settles fun fuel => nodes.foldlM (mergeNodes g fuel root) h := by
  induction nodes generalizing h with
  | nil => exact .pure h
  | cons n rest ih =>
    simp only [List.foldlM_cons]
    exact (mergeNodes_settles state).bind fun _ _ merges =>
      have ⟨state₁, pending₁⟩ := mergeNodes_pending distinct state pending merges
      ih (List.nodup_cons.mp distinct).2 state₁ pending₁

end Merge

/-! ### The filters -/

namespace Heap

/-- Every operator has only children below `O`, or one child: the `Filter`s pushed in since the
heap had `O` operators hang in chains. -/
def FiltersChained (O : Nat) (h : Heap) : Prop :=
  ∀ z, (∀ c ∈ (h.node z).children.items, c < O) ∨ (h.node z).children.items.length = 1

section Insert

variable {h h₂ : Heap} {X fuel : Nat} {op : OpBase} (wf : h.WellFormed) (made : X < h.count)
  (pushed : pushInBetween X h.count fuel (h.newOpNode op).2 = some h₂)

include wf made pushed in
theorem not_reachesCycle_insert {a : Nat} (aMade : a < h.count) (noCycle : ¬ h.ReachesCycle a) :
    ¬ h₂.ReachesCycle a := by
  have back {x y : Nat} (xMade : x < h.count) (yMade : y < h.count) :=
    (reaches_insert_iff wf made pushed xMade yMade).mp
  rintro ⟨p, q, reaches, link, cycle⟩
  rw [children_insert made pushed] at link
  split at link
  · rename_i atX
    subst atX
    obtain rfl := List.mem_singleton.mp link
    have down := reaches_insert_of wf made pushed cycle le_rfl made
    rw [if_pos rfl] at down
    obtain ⟨c, kid, up⟩ := down
    exact noCycle ⟨p, c, back aMade made reaches, kid, up⟩
  split at link
  · rename_i fresh
    subst fresh
    have qMade := (wf.closed X).1 q link
    rcases reaches_X_of_reaches_fresh wf made pushed cycle rfl with same | up
    · exact absurd same (Nat.ne_of_lt qMade)
    rcases reaches_X_of_reaches_fresh wf made pushed reaches rfl with same | down
    · exact absurd same (Nat.ne_of_lt aMade)
    exact noCycle ⟨X, q, back aMade made down, link, back qMade made up⟩
  · rename_i notX old
    have pMade : p < h.count := by
      have := reaches.lt_count (wellFormed_insert wf made pushed).closed
        (by rw [count_insert pushed]; omega)
      rw [count_insert pushed] at this
      omega
    have qMade := (wf.closed p).1 q link
    exact noCycle ⟨p, q, back aMade pMade reaches, link, back qMade pMade cycle⟩

include made pushed in
theorem FiltersChained.insert {O : Nat} (chained : h.FiltersChained O) : h₂.FiltersChained O :=
  fun z => by
    rw [children_insert made pushed]
    split
    · exact .inr rfl
    split
    · exact chained X
    · exact chained z

end Insert

/-- `h'` is `h` with nodes pushed in between operators and their children: the old nodes reach
each other as before, reach no new cycle, and the `Filter`s stay chained. -/
structure FiltersPushed (h h' : Heap) : Prop where
  grows : h.count ≤ h'.count
  wellFormed : h'.WellFormed
  reaches : ∀ a < h.count, ∀ b < h.count, h'.Reaches a b ↔ h.Reaches a b
  noCycle : ∀ a < h.count, ¬ h.ReachesCycle a → ¬ h'.ReachesCycle a
  chained : ∀ O, h.FiltersChained O → h'.FiltersChained O

namespace FiltersPushed

variable {h h₁ h₂ : Heap}

theorem refl (wf : h.WellFormed) : FiltersPushed h h :=
  ⟨le_rfl, wf, fun _ _ _ _ => Iff.rfl, fun _ _ => id, fun _ => id⟩

theorem trans (first : FiltersPushed h h₁) (second : FiltersPushed h₁ h₂) : FiltersPushed h h₂ where
  grows := first.grows.trans second.grows
  wellFormed := second.wellFormed
  reaches a aMade b bMade := (second.reaches a (Nat.lt_of_lt_of_le aMade first.grows) b
    (Nat.lt_of_lt_of_le bMade first.grows)).trans (first.reaches a aMade b bMade)
  noCycle a made noCycle := second.noCycle a (Nat.lt_of_lt_of_le made first.grows)
    (first.noCycle a made noCycle)
  chained O chained := second.chained O (first.chained O chained)

theorem insert {X fuel : Nat} {op : OpBase} (wf : h.WellFormed) (made : X < h.count)
    (pushed : pushInBetween X h.count fuel (h.newOpNode op).2 = some h₂) : FiltersPushed h h₂ :=
  ⟨by rw [count_insert pushed]; omega, wellFormed_insert wf made pushed,
    fun _ aMade _ bMade => reaches_insert_iff wf made pushed aMade bMade,
    fun _ aMade => not_reachesCycle_insert wf made pushed aMade,
    fun _ => FiltersChained.insert made pushed⟩

end FiltersPushed

end Heap

section Filters

variable {h h' : Heap}

theorem addFilters_pushed {fuel X : Nat} {tree tree' : FilterTree} {r : Option (List String)}
    (wf : h.WellFormed) (made : X < h.count)
    (runs : addFilters fuel X h tree = some (r, h', tree')) :
    Heap.FiltersPushed h h' ∧
      ∀ n < h.count, ¬ h.Reaches X n → (h'.node n).children.items = (h.node n).children.items := by
  induction fuel generalizing X h h' tree tree' r with
  | zero => cases runs
  | succ fuel ih =>
    have loop {h₁ : Heap} {r₁ : Option (List String)} {tree₁ : FilterTree}
        (visits : addFiltersChildren (addFilters fuel) X (h.node X).children.items.length [] h
          tree = some (r₁, h₁, tree₁)) :
        Heap.FiltersPushed h h₁ ∧ ∀ n < h.count, ¬ h.Reaches X n →
          (h₁.node n).children.items = (h.node n).children.items :=
      addFiltersChildren_induction (P := fun h₁ => Heap.FiltersPushed h h₁ ∧ ∀ n < h.count,
          ¬ h.Reaches X n → (h₁.node n).children.items = (h.node n).children.items)
        (fun ⟨pushed, frame⟩ member visited => by
          obtain ⟨pushed', frame'⟩ :=
            ih pushed.wellFormed ((pushed.wellFormed.closed X).1 _ member) visited
          refine ⟨pushed.trans pushed', fun n nMade away => ?_⟩
          rw [frame' n (Nat.lt_of_lt_of_le nMade pushed.grows) fun reaches => away
            ((pushed.reaches X made n nMade).mp (.child member reaches)), frame n nMade away])
        ⟨.refl wf, fun _ _ _ => rfl⟩ visits
    simp only [addFilters] at runs
    split at runs
    · rename_i seen h₁ tree₁ visits
      obtain ⟨pushed, frame⟩ := loop visits
      split at runs
      · obtain ⟨h₂, pushedIn, same⟩ := Option.map_eq_some'.mp runs
        cases same
        have xMade := Nat.lt_of_lt_of_le made pushed.grows
        refine ⟨pushed.trans (.insert pushed.wellFormed xMade pushedIn), fun n nMade away => ?_⟩
        have other : n ≠ X := fun same => away (same ▸ .refl n)
        rw [Heap.children_insert xMade pushedIn, if_neg other,
          if_neg (Nat.ne_of_lt (Nat.lt_of_lt_of_le nMade pushed.grows)), frame n nMade away]
      · cases runs
        exact ⟨pushed, frame⟩
    · exact loop ‹_›

theorem addFiltersChildren_settles {X : Nat} (wf : h.WellFormed) (made : X < h.count)
    (noCycle : ¬ h.ReachesCycle X)
    (visit : ∀ {i c h₁} (tree : FilterTree), Heap.FiltersPushed h h₁ →
      (h.node X).children.items[i]? = some c →
      (i + 1 = (h.node X).children.items.length → h₁ = h) →
      Settles fun fuel => addFilters fuel c h₁ tree)
    {i : Nat} (within : i ≤ (h.node X).children.items.length) (seen : List String)
    {h₁ : Heap} (tree : FilterTree) (pushed : Heap.FiltersPushed h h₁)
    (same : (h₁.node X).children.items = (h.node X).children.items)
    (first : i = (h.node X).children.items.length → h₁ = h) :
    Settles fun fuel => addFiltersChildren (addFilters fuel) X i seen h₁ tree := by
  induction i generalizing h₁ seen tree with
  | zero => exact .pure _
  | succ i ih =>
    obtain ⟨c, found⟩ : ∃ c, (h.node X).children.items[i]? = some c :=
      ⟨_, List.getElem?_eq_getElem (by omega)⟩
    have member := List.getElem?_mem found
    have cMade := (wf.closed X).1 c member
    obtain ⟨F, ⟨saw, h₂, tree₂⟩, visited⟩ := visit tree pushed found first
    obtain ⟨pushed', frame⟩ :=
      addFilters_pushed pushed.wellFormed (Nat.lt_of_lt_of_le cMade pushed.grows) (visited F le_rfl)
    have kept : (h₂.node X).children.items = (h.node X).children.items := by
      rw [frame X (Nat.lt_of_lt_of_le made pushed.grows) fun reaches =>
        noCycle ⟨X, c, .refl X, member, (pushed.reaches c cMade X made).mp reaches⟩, same]
    by_cases empty : tree₂.predicates = []
    · exact Settles.of_eq F (fun fuel more => by
        simp only [addFiltersChildren, same, found, visited fuel more, empty, if_true])
        (.pure (none, h₂, tree₂))
    · exact Settles.of_eq F (fun fuel more => by
        simp only [addFiltersChildren, same, found, visited fuel more, empty, if_false])
        (ih (by omega) (seen ++ saw.getD []) tree₂ (pushed.trans pushed') kept
          fun at_i => absurd at_i (by omega))

theorem lex_lt_of {a a' b b' c c' : Nat} (order : a < a' ∨ a = a' ∧ (b < b' ∨ b = b' ∧ c < c')) :
    toLex (a, toLex (b, c)) < toLex (a', toLex (b', c')) := by
  simpa only [Prod.Lex.lt_iff] using order

open Classical in
/-- `_ExecutionPlan_AddFilters(X, &tree)` settles when `X` reaches no cycle, in the lexicographic
order of the old operators a visit reaches, whether it is new, and all it reaches. -/
theorem addFilters_settles (O : Nat) {X : Nat} (wf : h.WellFormed) (low : O ≤ h.count)
    (chained : h.FiltersChained O) (made : X < h.count) (noCycle : ¬ h.ReachesCycle X)
    (tree : FilterTree) : Settles fun fuel => addFilters fuel X h tree := by
  let old (h : Heap) (x : Nat) := ((Finset.range O).filter (h.Reaches x ·)).card
  let all (h : Heap) (x : Nat) := ((Finset.range h.count).filter (h.Reaches x ·)).card
  let rank (h : Heap) (x : Nat) : ℕ ×ₗ ℕ ×ₗ ℕ :=
    toLex (old h x, toLex (if x < O then 0 else 1, all h x))
  suffices ∀ m, ∀ {X h}, rank h X = m → h.WellFormed → O ≤ h.count → h.FiltersChained O →
      X < h.count → ¬ h.ReachesCycle X → ∀ tree, Settles fun fuel => addFilters fuel X h tree from
    this _ rfl wf low chained made noCycle tree
  intro m
  induction m using WellFoundedLT.induction with
  | _ m ih =>
  intro X h ranked wf low chained made noCycle tree
  subst ranked
  -- a visit is on a child that reaches fewer old operators, or is the first one under a new node
  have descends {i c h₁} (pushed : Heap.FiltersPushed h h₁)
      (found : (h.node X).children.items[i]? = some c)
      (first : i + 1 = (h.node X).children.items.length → h₁ = h) : rank h₁ c < rank h X := by
    have member := List.getElem?_mem found
    have cMade := (wf.closed X).1 c member
    have le₀ := card_reaches_le_of_mem O member
    have lt₀ (xOld : X < O) := card_reaches_lt_of_not_reachesCycle noCycle xOld member
    have key : old h₁ c ≤ old h X ∧ (X < O → old h₁ c < old h X) ∧
        (old h₁ c = old h X → c < O ∨ all h₁ c < all h X) := by
      rcases chained X with allOld | single
      · have same : old h₁ c = old h c := congrArg Finset.card (Finset.filter_congr fun y below =>
          pushed.reaches c cMade y (Nat.lt_of_lt_of_le (Finset.mem_range.mp below) low))
        exact ⟨same ▸ le₀, fun xOld => same ▸ lt₀ xOld, fun _ => .inl (allOld c member)⟩
      · obtain rfl := first (by have := (List.getElem?_eq_some_iff.mp found).1; omega)
        exact ⟨le₀, lt₀, fun _ => .inr (card_reaches_lt_of_not_reachesCycle noCycle made member)⟩
    obtain ⟨le, lt, tie⟩ := key
    apply lex_lt_of
    by_cases xOld : X < O
    · exact .inl (lt xOld)
    rcases Nat.lt_or_eq_of_le le with fewer | same
    · exact .inl fewer
    refine .inr ⟨same, ?_⟩
    by_cases cOld : c < O
    · exact .inl (by simp [xOld, cOld])
    · exact .inr ⟨by simp [xOld, cOld], (tie same).resolve_left cOld⟩
  refine Settles.succ ?_
  obtain ⟨F, ⟨_ | seen, h₁, tree₁⟩, looped⟩ := addFiltersChildren_settles wf made noCycle
    (fun {i c h₁} tree pushed found first =>
      have cMade := (wf.closed X).1 c (List.getElem?_mem found)
      ih _ (descends pushed found first) rfl pushed.wellFormed (low.trans pushed.grows)
        (pushed.chained O chained) (Nat.lt_of_lt_of_le cMade pushed.grows)
        (pushed.noCycle c cMade fun cycle => noCycle (cycle.of_child (List.getElem?_mem found)))
        tree)
    le_rfl [] tree (.refl wf) rfl fun _ => rfl
  · exact Settles.of_eq F (fun fuel more => by simp only [addFilters, looped fuel more])
      (.pure (none, h₁, tree₁))
  have grows : h.count ≤ h₁.count := (addFiltersChildren_induction
    (P := fun h' => h'.WellFormed ∧ h.count ≤ h'.count) (fun ⟨wf', low'⟩ member visited =>
      have pushed := (addFilters_pushed wf' ((wf'.closed X).1 _ member) visited).1
      ⟨pushed.wellFormed, low'.trans pushed.grows⟩) ⟨wf, le_rfl⟩ (looped F le_rfl)).2
  by_cases contains : tree₁.containsNode seen = true
  · obtain ⟨h₂, pushedIn⟩ : ∃ h₂, ∀ fuel,
        ((h₁.newOpNode (newFilterOp (tree₁.minFilterTree seen))).2.node X).children.items.length <
          fuel → Heap.pushInBetween X h₁.count fuel
            (h₁.newOpNode (newFilterOp (tree₁.minFilterTree seen))).2 = some h₂ :=
      Heap.pushInBetween_terminates (Nat.ne_of_lt (Nat.lt_of_lt_of_le made grows))
    exact Settles.of_eq F
      (fun fuel more => by simp only [addFilters, looped fuel more, contains, if_true]; rfl)
      (Settles.map ⟨_, h₂, fun fuel more => pushedIn fuel more⟩ _)
  · exact Settles.of_eq F
      (fun fuel more => by
        simp only [addFilters, looped fuel more, if_neg contains])
      (.pure (some (seen ++ (h₁.node X).operation.modifies), h₁, tree₁))

end Filters

/-! ### `NewExecutionPlan` -/

/-- With the first-edge walk from every entry node simple and the nodes to merge listed once
each, `NewExecutionPlan` returns one plan for every fuel from some point on. -/
theorem newExecutionPlan_settles {ast : QueryExpressionNode} {entryNodes nodesToMerge : List Nat}
    (simple : ∀ e ∈ entryNodes, ast.pattern.WalkSimple e) (distinct : nodesToMerge.Nodup) :
    Settles fun fuel => newExecutionPlan fuel ast entryNodes nodesToMerge := by
  obtain ⟨start, start₀, unfolds⟩ := newExecutionPlan_eq_phases ast entryNodes nodesToMerge
  simp only [unfolds]
  refine (foldlM_settles (fun e member state => addEntryNode_settles (simple e member) state.1
    state.2) start).bind fun _ built entries => ?_
  obtain ⟨⟨entry₁, parents₁, -⟩, -⟩ := entryLoop_state simple start₀ entries
  have layered₁ := entry₁.layered
  refine (optimizeEntryPoints_settles (layered₁.descend.acyclic layered₁.not_mem_children_self)
    entry₁.rootMade layered₁.wellFormed .refl).bind fun _ h₂ optimized => ?_
  have state₂ := optimizeEntryPoints_mergeState simple entry₁ parents₁ optimized
  have layered₂ := optimizeEntryPoints_layered simple entry₁.built layered₁ entry₁.rootMade
    optimized
  have pending i s r m (into : (h₂.node i).operation.type = .expandInto s r m) :
      m ∉ nodesToMerge := absurd into (layered₂.noInto i s r m)
  refine (mergeNodes_fold_settles distinct state₂ pending).bind fun _ h₃ merged => ?_
  have apart := (mergeNodes_fold_state distinct state₂ pending merged).1.apart
  rcases ast.whereNode with _ | whereNode
  · exact .pure _
  · exact (addFilters_settles h₃.count apart.wellFormed le_rfl
      (fun z => .inl fun c member => (apart.wellFormed.closed z).1 c member) apart.rootMade
      apart.not_reachesCycle _).bind fun _ _ _ => .pure _

/-- The first-edge walk from `v` ends exactly when it is simple, and lines 340-352 stop exactly when
it ends; `NewExecutionPlan` settles exactly when every entry walk is simple. -/
theorem firstEdgeWalk_ends_iff_simple (ast : QueryExpressionNode)
    (entryNodes nodesToMerge : List Nat) (distinct : nodesToMerge.Nodup) (v : Nat) :
    (ast.pattern.WalkSimple v ↔ ∃ k ≤ ast.pattern.edges.length, ast.pattern.EndsAt v k) ∧
    (∀ fuel h rev, (expandWalk ast.pattern fuel v h rev).isSome ↔
      ∃ k < fuel, ast.pattern.EndsAt v k) ∧
    ((∃ fuel plan, ∀ fuel', fuel ≤ fuel' →
        newExecutionPlan fuel' ast entryNodes nodesToMerge = some plan) ↔
      ∀ e ∈ entryNodes, ast.pattern.WalkSimple e) :=
  ⟨⟨ast.pattern.endsAt_of_simple, fun ⟨_, _, ends⟩ => ast.pattern.simple_of_endsAt ends⟩,
    fun _ _ _ => expandWalk_isSome_iff,
    fun ⟨fuel, _, planned⟩ => newExecutionPlan_simple (planned fuel le_rfl),
    fun simple => newExecutionPlan_settles simple distinct⟩

theorem forkQuery_planned_eventually :
    ∃ fuel plan, ∀ fuel', fuel ≤ fuel' → newExecutionPlan fuel' forkQuery [0] [] = some plan :=
  have ends := firstEdgeWalk_ends_iff_simple forkQuery [0] [] List.nodup_nil 0
  ends.2.2.mpr fun e member =>
    (List.mem_singleton.mp member) ▸ ends.1.mpr ⟨1, by decide, 1, rfl, rfl⟩

end RedisGraph.Plan
