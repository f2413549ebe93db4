import RedisGraph.Plan.Parents
import RedisGraph.Plan.Blocks

/-! Where the stores of `_OpNode_AddChild` (lines 49 and 58) land when no merge happens. The
entry-node loop and `_ExecutionPlan_OptimizeEntryPoints` only allocate and append, so every link
array keeps a spare element. `_ExecutionPlan_AddFilters` visits the operators below the root in
post-order, each once, as they form a tree, and pushes a `Filter` only between one of them and its
children: the removals of `_OpNode_PushInBetween` leave a child's parents array without a spare
element, but with the new `Filter` for its only parent, and no later store goes to that array. -/

namespace RedisGraph.Plan

open Pattern Filter

/-! ### Whole link arrays through the wiring calls -/

theorem PtrArray.storeFits_of_items_nil {a : PtrArray} (empty : a.items = []) :
    a.storeFits = true := by
  simp only [PtrArray.storeFits, empty, List.length_nil, decide_eq_true_eq]
  split <;> omega

namespace Heap

variable {h h' : Heap}

theorem parents_addChild_of_ne {p c n : Nat} (other : n ≠ c) :
    ((h.addChild p c).node n).parents = (h.node n).parents := by
  have first := links_store h .children .parents p c n
  have second := links_store (h.store .children p c) .parents .parents c p n
  simp only [OpNode.links_parents, reduceCtorEq, and_false, ite_false, other, false_and]
    at first second
  rw [addChild, second, first]

theorem parents_addChild_self {p c : Nat} :
    ((h.addChild p c).node c).parents = (h.node c).parents.append p := by
  have first := links_store h .children .parents p c c
  have second := links_store (h.store .children p c) .parents .parents c p c
  simp only [OpNode.links_parents, reduceCtorEq, and_false, ite_false, and_self, ite_true]
    at first second
  rw [addChild, second, first]

theorem children_addChild_of_ne {p c n : Nat} (other : n ≠ p) :
    ((h.addChild p c).node n).children = (h.node n).children := by
  have first := links_store h .children .children p c n
  have second := links_store (h.store .children p c) .parents .children c p n
  simp only [OpNode.links_children, reduceCtorEq, and_false, ite_false, other, false_and]
    at first second
  rw [addChild, second, first]

theorem children_addChild_self {p c : Nat} :
    ((h.addChild p c).node p).children = (h.node p).children.append c := by
  have first := links_store h .children .children p c p
  have second := links_store (h.store .children p c) .parents .children c p p
  simp only [OpNode.links_children, reduceCtorEq, and_false, ite_false, and_self, ite_true]
    at first second
  rw [addChild, second, first]

theorem parents_removeNode_of_ne {a b n : Nat} (other : n ≠ b) :
    ((h.removeNode a b).node n).parents = (h.node n).parents := by
  have first := links_unlink h .children .parents a b n
  have second := links_unlink (h.unlink .children a b) .parents .parents b a n
  simp only [OpNode.links_parents, reduceCtorEq, and_false, ite_false, other, false_and]
    at first second
  rw [removeNode, second, first]

theorem children_removeNode_of_ne {a b n : Nat} (other : n ≠ a) :
    ((h.removeNode a b).node n).children = (h.node n).children := by
  have first := links_unlink h .children .children a b n
  have second := links_unlink (h.unlink .children a b) .parents .children b a n
  simp only [OpNode.links_children, reduceCtorEq, and_false, ite_false, other, false_and]
    at first second
  rw [removeNode, second, first]

/-- `_OpNode_AddChild(p, c)` overruns when its store into `p->children` or `c->parents` does. -/
theorem overrun_addChild {p c : Nat} :
    (h.addChild p c).overrun =
      (h.overrun || !(h.node p).children.storeFits || !(h.node c).parents.storeFits) := by
  have first := links_store h .children .parents p c c
  simp only [reduceCtorEq, and_false, ite_false] at first
  show ((h.store .children p c).overrun ||
    !(((h.store .children p c).node c).links .parents).storeFits) = _
  rw [first]
  rfl

theorem overrun_removeNode {a b : Nat} : (h.removeNode a b).overrun = h.overrun := rfl

/-- `_OpNode_PushInBetween(parent, onlyChild)` stores inside every block when `onlyChild` is new and
each child of `parent` has room for one more parent: `parent->children` is empty by then. -/
theorem pushInBetween_fits {parent onlyChild fuel : Nat} (distinct : parent ≠ onlyChild)
    (fresh : (h.node onlyChild).parents = .null) (grows : (h.node onlyChild).children.Roomy)
    (apart : onlyChild ∉ (h.node parent).children.items)
    (nodup : (h.node parent).children.items.Nodup)
    (room : ∀ c ∈ (h.node parent).children.items, (h.node c).parents.storeFits = true)
    (runs : pushInBetween parent onlyChild fuel h = some h') :
    h'.overrun = h.overrun ∧ (h'.node onlyChild).parents = PtrArray.null.append parent ∧
      ∀ n, n ∉ (h.node parent).children.items → n ≠ onlyChild →
        (h'.node n).parents = (h.node n).parents := by
  induction fuel generalizing h with
  | zero => cases runs
  | succ fuel ih =>
    cases children : (h.node parent).children.items with
    | nil =>
      simp only [pushInBetween, children, Option.some.injEq] at runs
      subst runs
      refine ⟨?_, by rw [parents_addChild_self, fresh], fun n _ other => parents_addChild_of_ne other⟩
      rw [overrun_addChild, fresh, PtrArray.storeFits_of_items_nil children]
      simp [PtrArray.storeFits, PtrArray.null]
    | cons first rest =>
      rw [pushInBetween_cons distinct children] at runs
      rw [children] at apart nodup room
      have firstApart : onlyChild ≠ first := fun same => apart (same ▸ List.mem_cons_self _ _)
      obtain ⟨notFirst, restNodup⟩ := List.nodup_cons.mp nodup
      have rest₁ : (((h.addChild onlyChild first).removeChild parent first).node
          parent).children.items = rest := by
        simp [Heap.removeChild, children, distinct]
      have parents₁ {n : Nat} (other : n ≠ first) :
          (((h.addChild onlyChild first).removeChild parent first).node n).parents =
            (h.node n).parents := by
        rw [Heap.removeChild, parents_removeNode_of_ne other, parents_addChild_of_ne other]
      obtain ⟨same, only, frame⟩ := ih (by rw [parents₁ firstApart, fresh])
        (by rw [Heap.removeChild, children_removeNode_of_ne (Ne.symm distinct),
          children_addChild_self]; exact PtrArray.roomy_append _ _)
        (by rw [rest₁]; exact fun member => apart (List.mem_cons_of_mem _ member))
        (by rw [rest₁]; exact restNodup)
        (by
          rw [rest₁]
          intro c member
          rw [parents₁ fun same => notFirst (same ▸ member)]
          exact room c (List.mem_cons_of_mem _ member))
        runs
      refine ⟨?_, only, fun n away other => ?_⟩
      · rw [same, Heap.removeChild, overrun_removeNode, overrun_addChild, grows.storeFits,
          room first (List.mem_cons_self _ _)]
        simp
      · rw [frame n (by rw [rest₁]; exact fun member => away (List.mem_cons_of_mem _ member))
          other, parents₁ fun same => away (same ▸ List.mem_cons_self _ _)]

end Heap

/-! ### The entry-node loop and `_ExecutionPlan_OptimizeEntryPoints` -/

/-- Every link array keeps a spare element, and no store has gone past its block. -/
structure Heap.Clean (h : Heap) : Prop where
  roomy : h.Roomy
  fits : h.overrun = false

section Clean

variable {g : Graph} {h h' : Heap}

theorem Heap.clean_empty : Heap.empty.Clean :=
  ⟨fun _ side => by cases side <;> exact PtrArray.roomy_null, rfl⟩

theorem Heap.Clean.newOpNode (clean : h.Clean) (op : OpBase) : (h.newOpNode op).2.Clean :=
  ⟨clean.roomy.newOpNode op, clean.fits⟩

theorem Heap.Clean.addChild (clean : h.Clean) (p c : Nat) : (h.addChild p c).Clean :=
  ⟨(clean.roomy.addChild p c).1, (clean.roomy.addChild p c).2.trans clean.fits⟩

theorem expandWalk_clean {fuel src : Nat} {rev rev' : List Nat} (clean : h.Clean)
    (walk : expandWalk g fuel src h rev = some (h', rev')) : h'.Clean := by
  induction fuel generalizing src h rev with
  | zero => cases walk
  | succ fuel ih =>
    simp only [expandWalk] at walk
    split at walk
    · cases walk
      exact clean
    · exact ih (clean.newOpNode _) walk

theorem linkOps_clean {prevOp : Nat} {rest : List Nat} (clean : h.Clean) :
    (linkOps h prevOp rest).Clean := by
  induction rest generalizing h prevOp with
  | nil => exact clean
  | cons currentOp rest ih => exact ih (clean.addChild currentOp prevOp)

theorem addEntryNode_clean {fuel root node : Nat} {ops : List Nat} {next : Heap × List Nat}
    (clean : h.Clean) (adds : addEntryNode g fuel root node h ops = some next) :
    next.1.Clean := by
  obtain ⟨⟨h₁, ops₁⟩, pushed, rfl⟩ := Option.map_eq_some'.mp adds
  have clean₁ : h₁.Clean := by
    unfold pushEntryOps at pushed
    split at pushed
    · obtain ⟨⟨h₂, reversed⟩, walk, same⟩ := Option.map_eq_some'.mp pushed
      cases same
      exact expandWalk_clean clean walk
    · cases pushed
      exact clean.newOpNode _
  unfold consumeOps
  split
  · exact linkOps_clean clean₁
  · exact clean₁

theorem optimizeEntryPoints_clean {fuel root : Nat} (clean : h.Clean)
    (runs : optimizeEntryPoints g fuel root h = some h') : h'.Clean := by
  induction fuel generalizing root h h' with
  | zero => cases runs
  | succ fuel ih =>
    simp only [optimizeEntryPoints] at runs
    split at runs
    · cases runs
      exact (clean.newOpNode _).addChild _ _
    · exact forEachChild_induction (P := Heap.Clean) (fun clean₁ _ visited => ih clean₁ visited)
        clean runs

end Clean

/-! ### `_ExecutionPlan_AddFilters` on a tree -/

/-- While `_ExecutionPlan_AddFilters` pushes `Filter`s numbered from `base`: no overrun, one parent
each, and a full parents array holds only such `Filter`s. -/
structure Heap.FiltersFit (base : Nat) (h : Heap) : Prop where
  fits : h.overrun = false
  single : ∀ x, h.OneParent x
  parents : ∀ n, (h.node n).parents.storeFits = true ∨ ∀ p ∈ (h.node n).parents.items, base ≤ p

section Fits

variable {h h' : Heap} {base : Nat}

theorem Heap.FiltersFit.insert {X fuel : Nat} {op : OpBase} (fit : h.FiltersFit base)
    (wf : h.WellFormed) (made : X < h.count) (original : X < base) (low : base ≤ h.count)
    (pushed : pushInBetween X h.count fuel (h.newOpNode op).2 = some h') : h'.FiltersFit base := by
  have old {n : Nat} (other : n ≠ h.count) : (h.newOpNode op).2.node n = h.node n := if_neg other
  have kids : ((h.newOpNode op).2.node X).children.items = (h.node X).children.items := by
    rw [old (Nat.ne_of_lt made)]
  have kidMade {c : Nat} (kid : c ∈ (h.node X).children.items) : c ≠ h.count :=
    Nat.ne_of_lt ((wf.closed X).1 c kid)
  obtain ⟨same, only, frame⟩ := Heap.pushInBetween_fits (Nat.ne_of_lt made)
    (by simp [Heap.node_newOpNode, OpNode.fresh]) (by simp [Heap.node_newOpNode, OpNode.fresh,
      PtrArray.roomy_null])
    (by rw [kids]; exact fun kid => kidMade kid rfl)
    (by rw [kids]; exact Heap.children_nodup wf fit.single X)
    (by
      rw [kids]
      intro c kid
      rw [old (kidMade kid)]
      exact (fit.parents c).resolve_right fun filters =>
        Nat.lt_irrefl _ (Nat.lt_of_lt_of_le original
          (filters X (wf.mem_parents_of_mem_children kid))))
    pushed
  have wf₂ := Heap.wellFormed_insert wf made pushed
  have single₂ := Heap.oneParent_insert wf made pushed fit.single
  refine ⟨same.trans fit.fits, single₂, fun n => ?_⟩
  by_cases fresh : n = h.count
  · rw [fresh, only]
    exact .inl (PtrArray.storeFits_append _ _)
  by_cases kid : n ∈ (h.node X).children.items
  · refine .inr fun p member => ?_
    have moved : h.count ∈ (h'.node n).parents.items := wf₂.mem_parents_of_mem_children (by
      rw [Heap.children_insert made pushed, if_neg (Nat.ne_of_gt made), if_pos rfl]
      exact kid)
    have short := single₂ n
    unfold Heap.OneParent at short
    generalize (h'.node n).parents.items = ps at member moved short
    match ps, short with
    | [q], _ =>
      rw [List.mem_singleton.mp member, ← List.mem_singleton.mp moved]
      exact low
  · rw [frame n (by rw [kids]; exact kid) fresh, old fresh]
    exact fit.parents n

theorem Heap.reaches_of_children_kept {c y : Nat}
    (kept : ∀ n, h.Reaches c n → (h'.node n).children.items = (h.node n).children.items)
    (reaches : h'.Reaches c y) : h.Reaches c y := by
  induction reaches with
  | refl => exact .refl _
  | @child a d y member _ ih =>
    have here := kept a (.refl a)
    rw [here] at member
    exact .child member (ih fun n down => kept n (.child member down))

theorem addFiltersChildren_fits {fuel X i : Nat} {seen : List String} {tree tree' : FilterTree}
    {r : Option (List String)}
    (visit : ∀ {c : Nat} {h₀ h₁ : Heap} {tree₀ tree₁ : FilterTree} {r₀ : Option (List String)},
      h₀.WellFormed → h₀.Acyclic → c < h₀.count → base ≤ h₀.count → h₀.FiltersFit base →
      (∀ y, h₀.Reaches c y → y < base) →
      addFilters fuel c h₀ tree₀ = some (r₀, h₁, tree₁) → h₁.FiltersFit base)
    (wf : h.WellFormed) (acyclic : h.Acyclic) (made : X < h.count) (low : base ≤ h.count)
    (fit : h.FiltersFit base)
    (original : ∀ c ∈ (h.node X).children.items.take i, ∀ y, h.Reaches c y → y < base)
    (runs : addFiltersChildren (addFilters fuel) X i seen h tree = some (r, h', tree')) :
    h'.FiltersFit base := by
  induction i generalizing seen h tree with
  | zero =>
    cases runs
    exact fit
  | succ i ih =>
    simp only [addFiltersChildren] at runs
    split at runs
    · cases runs
    rename_i c found
    split at runs
    · cases runs
    rename_i saw h₁ tree₁ visited
    have kid : c ∈ (h.node X).children.items := List.getElem?_mem found
    have cMade := (wf.closed X).1 c kid
    have first := Heap.addFilters_spec wf acyclic cMade visited
    have fit₁ := visit wf acyclic cMade low fit
      (original c (List.mem_take_iff_getElem.mpr ⟨i, by
        have := (List.getElem?_eq_some_iff.mp found).1; omega,
        (List.getElem?_eq_some_iff.mp found).2⟩)) visited
    split at runs
    · cases runs
      exact fit₁
    have kids : (h₁.node X).children.items = (h.node X).children.items :=
      first.frame X made (acyclic X c kid)
    refine ih (first.added.wellFormed) first.added.acyclic (Nat.lt_of_lt_of_le made first.added.grows)
      (low.trans first.added.grows) fit₁ (fun c' member y reaches => ?_) runs
    rw [kids] at member
    have kid' := List.mem_of_mem_take member
    have other : c' ≠ c := by
      rintro rfl
      obtain ⟨j, before, atJ⟩ := List.mem_take_iff_getElem.mp member
      obtain ⟨within, atI⟩ := List.getElem?_eq_some_iff.mp found
      have := (Heap.children_nodup wf fit.single X).getElem_inj_iff.mp (atJ.trans atI.symm)
      omega
    refine original c' (List.take_subset_take_left _ (Nat.le_succ i) member) y
      (Heap.reaches_of_children_kept (fun n down => first.frame n ?_ fun below => ?_) reaches)
    · exact down.lt_count wf.closed ((wf.closed X).1 c' kid')
    · rcases Heap.reaches_parent_of_common wf fit.single kid' kid other down below with back | back
      · exact acyclic X c' kid' back
      · exact acyclic X c kid back

/-- `_ExecutionPlan_AddFilters(X, &tree)` keeps `FiltersFit` when all it reaches lies below
`base`. -/
theorem addFilters_fits {fuel X : Nat} {tree tree' : FilterTree} {r : Option (List String)}
    (wf : h.WellFormed) (acyclic : h.Acyclic) (made : X < h.count) (low : base ≤ h.count)
    (fit : h.FiltersFit base) (original : ∀ y, h.Reaches X y → y < base)
    (runs : addFilters fuel X h tree = some (r, h', tree')) : h'.FiltersFit base := by
  induction fuel generalizing X h h' tree tree' r with
  | zero => cases runs
  | succ fuel ih =>
    simp only [addFilters] at runs
    have loopFits {i : Nat} {seen : List String} {r₁ : Option (List String)} {h₁ : Heap}
        {tree₁ : FilterTree}
        (loop : addFiltersChildren (addFilters fuel) X i seen h tree = some (r₁, h₁, tree₁)) :
        h₁.FiltersFit base :=
      addFiltersChildren_fits (fun wf acyclic made low fit original visited =>
        ih wf acyclic made low fit original visited) wf acyclic made low fit
        (fun c member y reaches => original y (.child (List.mem_of_mem_take member) reaches)) loop
    split at runs
    · rename_i seen h₁ tree₁ visits
      have spec := Heap.addFiltersChildren_spec (fun wf acyclic made visited =>
        Heap.addFilters_spec wf acyclic made visited) wf acyclic made le_rfl visits
      split at runs
      · obtain ⟨h₂, pushed, same⟩ := Option.map_eq_some'.mp runs
        cases same
        exact (loopFits visits).insert spec.added.wellFormed
          (Nat.lt_of_lt_of_le made spec.added.grows) (original X (.refl X))
          (low.trans spec.added.grows) pushed
      · cases runs
        exact loopFits visits
    · exact loopFits runs

end Fits

end RedisGraph.Plan
