import RedisGraph.Plan.Cycles
import Mathlib.Data.List.Infix

/-! Parents through the phases of `NewExecutionPlan`. The entry-node loop gives every operation
it pushes one parent, the operation below it on `Ops`, when it links `Ops`, and leaves only the
root there; `_ExecutionPlan_OptimizeEntryPoints` gives each scan it makes one parent. Through the
merges an `ExpandAll` keeps at most one parent, `_ExecutionPlan_MergeNodes` makes an `ExpandInto`
its own child only when its search meets one `ExpandAll` twice, and the loop of lines 180-192
then takes that operator from its one parent. An operator with no parent but itself is the root,
an operation left on `Ops`, or such a self-linked `ExpandInto`. -/

namespace RedisGraph.Plan

open Pattern Filter

/-! ### Parents in the entry-node loop and `_ExecutionPlan_OptimizeEntryPoints` -/

section Build

variable {g : Graph} {entryNodes : List Nat} {h h' : Heap}

theorem foldlM_induction_last {α β : Type} {P Q : β → Prop} {f : β → α → Option β} {l : List α}
    {b b' : β} (step : ∀ {b a b'}, a ∈ l → P b → f b a = some b' → P b' ∧ Q b') (start : P b)
    (fold : l.foldlM f b = some b') : P b' ∧ (l ≠ [] → Q b') := by
  induction l generalizing b with
  | nil =>
    cases fold
    exact ⟨start, fun nonempty => absurd rfl nonempty⟩
  | cons a l ih =>
    obtain ⟨b₁, first, rest⟩ := Option.bind_eq_some.mp fold
    have stepped := step (List.mem_cons_self a l) start first
    obtain ⟨kept, last⟩ := ih (fun member => step (List.mem_cons_of_mem a member)) stepped.1 rest
    refine ⟨kept, fun _ => ?_⟩
    by_cases empty : l = []
    · subst empty
      cases rest
      exact stepped.2
    · exact last empty

theorem Stacked.nodup {ops : List Nat} (stacked : Stacked g h ops) : ops.Nodup := by
  have : IsTrans Nat fun x y =>
      Deeper (opRank g (h.node y).operation.type) (opRank g (h.node x).operation.type) :=
    ⟨fun _ _ _ first second => second.trans first⟩
  refine (List.chain'_iff_pairwise.mp stacked).imp fun deeper same => ?_
  subst same
  exact Deeper.irrefl _ deeper

theorem expandWalk_allocates {fuel src : Nat} {rev rev' : List Nat}
    (blank : ∀ i, h.count ≤ i → (h.node i).parents.items = [])
    (walk : expandWalk g fuel src h rev = some (h', rev')) :
    (∀ i < h.count, h'.node i = h.node i) ∧ (∀ i, h.count ≤ i → (h'.node i).parents.items = []) ∧
      ∃ pushed, rev' = pushed ++ rev ∧ (∀ x ∈ pushed, h.count ≤ x) ∧
        ∀ x, h.count ≤ x → x < h'.count → x ∈ pushed := by
  induction fuel generalizing src h rev with
  | zero => cases walk
  | succ fuel ih =>
    simp only [expandWalk] at walk
    split at walk
    · cases walk
      exact ⟨fun _ _ => rfl, blank, [], rfl, by simp, fun x low high => by omega⟩
    · rename_i edge dest _
      have count : (h.newOpNode (newExpandAllOp g src edge dest)).2.count = h.count + 1 := rfl
      obtain ⟨old, fresh, pushed, rfl, above, all⟩ := ih (fun i beyond => by
        rw [Heap.node_newOpNode, if_neg (by omega)]
        exact blank i (by omega)) walk
      refine ⟨fun i lt => (old i (by omega)).trans (if_neg (Nat.ne_of_lt lt)),
        fun i beyond => ?_, pushed ++ [h.count], by simp, fun x member => ?_,
        fun x low high => ?_⟩
      · rcases Nat.eq_or_lt_of_le beyond with rfl | later
        · rw [old _ (by omega), Heap.node_newOpNode, if_pos rfl]
          rfl
        · exact fresh i (by omega)
      · rcases List.mem_append.mp member with member | member
        · have := above x member
          omega
        · rw [List.mem_singleton.mp member]
      · rcases Nat.eq_or_lt_of_le low with rfl | later
        · exact List.mem_append_right _ (List.mem_singleton_self _)
        · exact List.mem_append_left _ (all x (by rwa [count]) high)

/-- Lines 332-374 only allocate, and push the new operations on top of `Ops`. -/
theorem pushEntryOps_allocates {fuel node : Nat} {ops ops₁ : List Nat}
    (blank : ∀ i, h.count ≤ i → (h.node i).parents.items = [])
    (pushed : pushEntryOps g fuel node h ops = some (h', ops₁)) :
    (∀ i < h.count, h'.node i = h.node i) ∧ (∀ i, h.count ≤ i → (h'.node i).parents.items = []) ∧
      ∃ pushedOps, ops₁ = pushedOps ++ ops ∧ (∀ x ∈ pushedOps, h.count ≤ x) ∧
        ∀ x, h.count ≤ x → x < h'.count → x ∈ pushedOps := by
  unfold pushEntryOps at pushed
  split at pushed
  · obtain ⟨⟨h₂, reversed⟩, walk, same⟩ := Option.map_eq_some'.mp pushed
    cases same
    obtain ⟨old, fresh, pushedOps, rfl, above, all⟩ := expandWalk_allocates blank walk
    exact ⟨old, fresh, pushedOps.reverse, by simp [List.reverseAux_eq],
      fun x member => above x (List.mem_reverse.mp member),
      fun x low high => List.mem_reverse.mpr (all x low high)⟩
  · cases pushed
    refine ⟨fun i lt => if_neg (Nat.ne_of_lt lt), fun i beyond => ?_, [h.count], rfl, by simp,
      fun x low high => List.mem_singleton.mpr (by simp [Heap.newOpNode] at high; omega)⟩
    by_cases fresh : i = h.count
    · simp [fresh, OpNode.fresh, PtrArray.null]
    · simp [fresh, blank i beyond]

/-- The links of the entry-node loop: every operator has at most one parent, and one without a
parent is on `Ops`, where none but the bottom one, the root, has a parent yet. -/
structure ParentsState (root : Nat) (h : Heap) (ops : List Nat) : Prop where
  single : ∀ x, h.OneParent x
  unlinked : ∀ x ∈ ops.dropLast, (h.node x).parents.items = []
  tops : ∀ x < h.count, h.Top x → x ∈ ops
  bottom : ops.getLast? = some root

/-- Lines 380-387 give each operation of the stack but the bottom one the operation below it as
its only parent. -/
theorem linkOps_oneParent {prevOp : Nat} {rest : List Nat} (distinct : (prevOp :: rest).Nodup)
    (single : ∀ x, h.OneParent x)
    (unlinked : ∀ x ∈ (prevOp :: rest).dropLast, (h.node x).parents.items = []) :
    ∀ x, (linkOps h prevOp rest).OneParent x := by
  induction rest generalizing h prevOp with
  | nil => exact single
  | cons currentOp rest ih =>
    obtain ⟨apart, distinct⟩ := List.nodup_cons.mp distinct
    refine ih distinct (fun x => ?_) fun x member => ?_
    · unfold Heap.OneParent
      rw [Heap.parents_addChild]
      split
      · rename_i same
        subst same
        simp [unlinked x (by simp)]
      · exact single x
    · rw [Heap.parents_addChild,
        if_neg fun (same : x = prevOp) => apart (same ▸ List.mem_of_mem_dropLast member)]
      exact unlinked x (by simp [member])

theorem linkOps_top {prevOp x : Nat} {rest : List Nat} (distinct : (prevOp :: rest).Nodup)
    (top : (linkOps h prevOp rest).Top x) :
    h.Top x ∧ (x ∈ prevOp :: rest → (prevOp :: rest).getLast? = some x) := by
  induction rest generalizing h prevOp with
  | nil => exact ⟨top, fun member => by rw [List.mem_singleton.mp member]; rfl⟩
  | cons currentOp rest ih =>
    obtain ⟨apart, distinct⟩ := List.nodup_cons.mp distinct
    obtain ⟨top₁, last⟩ := ih distinct top
    have notPrev : x ≠ prevOp := fun same => by
      have linked : currentOp = x := top₁ currentOp (by simp [same])
      exact apart (by rw [← same, ← linked]; exact List.mem_cons_self _ _)
    refine ⟨fun p member => top₁ p (by rwa [Heap.parents_addChild, if_neg notPrev]),
      fun member => ?_⟩
    rcases List.mem_cons.mp member with same | later
    · exact absurd same notPrev
    · exact last later

/-- One iteration of the entry-node loop keeps `ParentsState` and leaves only the root on `Ops`. -/
theorem addEntryNode_parents {fuel root node : Nat} {ops : List Nat} {next : Heap × List Nat}
    (entry : node ∈ entryNodes) (simple : ∀ e ∈ entryNodes, g.WalkSimple e)
    (state : EntryState g entryNodes root h ops) (parents : ParentsState root h ops)
    (adds : addEntryNode g fuel root node h ops = some next) :
    ParentsState root next.1 next.2 ∧ next.2 = [root] := by
  obtain ⟨⟨h₁, ops₁⟩, pushed, linked⟩ := Option.map_eq_some'.mp adds
  have stacked := (pushEntryOps_layered entry simple state pushed).2.2.2.2.1
  obtain ⟨old, fresh, pushedOps, rfl, above, all⟩ := pushEntryOps_allocates
    (fun i beyond => List.eq_nil_iff_forall_not_mem.mpr fun _ member =>
      absurd (state.layered.wellFormed.lt_count_of_mem_parents member) (Nat.not_lt.mpr beyond))
    pushed
  have single : ∀ x, h₁.OneParent x := fun x => by
    unfold Heap.OneParent
    by_cases made : x < h.count
    · rw [old x made]
      exact parents.single x
    · simp [fresh x (Nat.not_lt.mp made)]
  have unlinked : ∀ x ∈ (pushedOps ++ ops).dropLast, (h₁.node x).parents.items = [] := by
    intro x member
    rw [List.dropLast_append_of_ne_nil _ state.nonempty] at member
    rcases List.mem_append.mp member with new | below
    · exact fresh x (above x new)
    · rw [old x (state.made x (List.mem_of_mem_dropLast below))]
      exact parents.unlinked x below
  have tops : ∀ x < h₁.count, h₁.Top x → x ∈ pushedOps ++ ops := fun x made top => by
    by_cases older : x < h.count
    · refine List.mem_append_right _ (parents.tops x older fun p member => top p ?_)
      rwa [old x older]
    · exact List.mem_append_left _ (all x (Nat.not_lt.mp older) made)
  have bottom : (pushedOps ++ ops).getLast? = some root := by
    rw [List.getLast?_append_of_ne_nil _ state.nonempty]
    exact parents.bottom
  unfold consumeOps at linked
  split at linked
  · rename_i prevOp next rest split
    simp only at split
    cases linked
    rw [split] at stacked unlinked tops bottom
    refine ⟨⟨linkOps_oneParent stacked.nodup single unlinked, by simp, fun x made top => ?_,
      rfl⟩, rfl⟩
    obtain ⟨top₁, last⟩ := linkOps_top stacked.nodup top
    have bottomX := (last (tops x (by rwa [count_linkOps] at made) top₁)).symm.trans bottom
    exact List.mem_singleton.mpr (Option.some.inj bottomX)
  · cases linked
    rename_i short
    refine ⟨⟨single, unlinked, tops, bottom⟩, ?_⟩
    match pushedOps ++ ops, bottom, short with
    | [_], bottom, _ => simpa using bottom
    | [], bottom, _ => cases bottom
    | _ :: _ :: _, _, short => exact absurd rfl (short _ _ _)

/-- `_ExecutionPlan_OptimizeEntryPoints` gives each scan it makes one parent, and changes no
operator and no other parent list. -/
theorem optimizeEntryPoints_oneParent {fuel root : Nat} (built : Built g entryNodes h)
    (rootMade : root < h.count) (single : ∀ x, h.OneParent x)
    (runs : optimizeEntryPoints g fuel root h = some h') :
    (∀ x, h'.OneParent x) ∧ (∀ i < h.count, (h'.node i).operation = (h.node i).operation) ∧
      ∀ x < h'.count, h'.Top x → x < h.count ∧ h.Top x := by
  induction fuel generalizing root h h' with
  | zero => cases runs
  | succ fuel ih =>
    simp only [optimizeEntryPoints] at runs
    split at runs
    · cases runs
      refine ⟨fun x => ?_, fun i made => ?_, fun x made top => ?_⟩
      · unfold Heap.OneParent
        rw [Heap.parents_addChild, Heap.fst_newOpNode, Heap.node_newOpNode]
        by_cases fresh : x = h.count
        · simp [fresh, OpNode.fresh, PtrArray.null]
        · simp only [if_neg fresh]
          exact single x
      · rw [Heap.operation_addChild, Heap.node_newOpNode, if_neg (Nat.ne_of_lt made)]
      · have old : x ≠ h.count := fun fresh =>
          Nat.ne_of_lt rootMade ((top root (by simp [fresh])).trans fresh)
        refine ⟨by simp [Heap.newOpNode] at made; omega, fun p member => top p ?_⟩
        rwa [Heap.parents_addChild, Heap.fst_newOpNode, Heap.node_newOpNode, if_neg old,
          if_neg old]
    · have loop := forEachChild_induction (P := fun h₁ => Built g entryNodes h₁ ∧
          (∀ x, h₁.OneParent x) ∧ h.count ≤ h₁.count ∧
            (∀ i < h.count, (h₁.node i).operation = (h.node i).operation) ∧
            ∀ x < h₁.count, h₁.Top x → x < h.count ∧ h.Top x)
        (fun ⟨built₁, single₁, grows₁, ops₁, tops₁⟩ member visited => by
          have made := (built₁.wellFormed.closed root).1 _ member
          have more := optimizeEntryPoints_extends built₁ made visited
          obtain ⟨single₂, ops₂, tops₂⟩ := ih built₁ made single₁ visited
          exact ⟨built₁.extend more, single₂, grows₁.trans more.count_le,
            fun i lt => (ops₂ i (Nat.lt_of_lt_of_le lt grows₁)).trans (ops₁ i lt),
            fun x made top => tops₁ x (tops₂ x made top).1 (tops₂ x made top).2⟩)
        ⟨built, single, le_rfl, fun _ _ => rfl, fun _ made top => ⟨made, top⟩⟩ runs
      exact ⟨loop.2.1, loop.2.2.2.1, loop.2.2.2.2⟩

end Build

/-! ### Parents through `_ExecutionPlan_MergeNodes` -/

section Merge

variable {g : Graph} {h h' : Heap} {a b : Nat} {ops : List Nat}

theorem LinksDescend.into_of_self (descend : LinksDescend g h) {i : Nat}
    (self : i ∈ (h.node i).children.items) :
    ∃ src relation dest, (h.node i).operation.type = .expandInto src relation dest :=
  (descend i i self).elim (fun ⟨_, into⟩ => into) fun deeper => absurd deeper (Deeper.irrefl _)

theorem LinksDescend.not_mem_expandAll (descend : LinksDescend g h) {s r s' r' n : Nat}
    (aAll : (h.node a).operation.type = .expandAll s r n)
    (bAll : (h.node b).operation.type = .expandAll s' r' n) : b ∉ (h.node a).children.items :=
  fun member => (descend a b member).elim
    (fun ⟨_, _, _, _, into⟩ => by rw [aAll] at into; cases into) fun deeper => by
      rw [aAll, bAll] at deeper
      exact Deeper.irrefl _ deeper

/-- Lines 180-192 change no operator and the parents of no operator but `a` and `b`, add only
links from an operator other than `a` to `a`, and take parents from `b` alone. -/
theorem inheritParents_frame {fuel i : Nat} (runs : inheritParents a b fuel i h = some h') :
    (∀ x, (h'.node x).operation = (h.node x).operation) ∧
      (∀ x, x ≠ a → x ≠ b → (h'.node x).parents.items = (h.node x).parents.items) ∧
      (∀ t c, c ∈ (h'.node t).children.items → c ∈ (h.node t).children.items ∨ c = a ∧ t ≠ a) ∧
      ∀ x, x ≠ b → ∀ p ∈ (h.node x).parents.items, p ∈ (h'.node x).parents.items := by
  induction fuel generalizing i h with
  | zero => cases runs
  | succ fuel ih =>
    simp only [inheritParents] at runs
    split at runs
    · cases runs
      exact ⟨fun _ => rfl, fun _ _ _ => rfl, fun _ _ member => .inl member,
        fun _ _ _ member => member⟩
    · rename_i bParent _
      split at runs
      · exact ih runs
      · rename_i other
        obtain ⟨ops, parents, children, grows⟩ := ih runs
        refine ⟨fun x => (ops x).trans ?_, fun x xa xb => (parents x xa xb).trans ?_,
          fun t c member => (children t c member).elim (fun kept => ?_) .inr,
          fun x xb p member => grows x xb p ?_⟩
        · split <;> simp [Heap.removeChild]
        · split <;> simp [Heap.removeChild, xa, xb]
        · simp only [Heap.removeChild, Heap.children_removeNode] at kept
          replace kept : c ∈ ((if h.containsChild bParent a then h else h.addChild bParent a).node
              t).children.items := by
            split at kept
            · exact List.mem_of_mem_erase kept
            · exact kept
          split at kept
          · exact .inl kept
          · rw [Heap.children_addChild] at kept
            split at kept
            · rename_i atParent
              rcases List.mem_append.mp kept with old | new
              · exact .inl old
              · exact .inr ⟨List.mem_singleton.mp new, by subst atParent; exact other⟩
            · exact .inl kept
        · split <;> simp only [Heap.removeChild, Heap.parents_removeNode, Heap.parents_addChild,
            if_neg xb]
          · exact member
          · split <;> simp [member]

/-- Lines 180-192, re-reading `b->parents`, leave `a` the only parent of `b` when `b` had at most
one parent besides `a`. -/
theorem inheritParents_parents {ps : List Nat} {fuel : Nat} (wf : h.WellFormed)
    (short : ps.length ≤ 1) (others : a ∉ ps) (parents : (h.node b).parents.items = ps ++ [a])
    (runs : inheritParents a b fuel 0 h = some h') : (h'.node b).parents.items = [a] := by
  match ps, short with
  | [], _ =>
    rcases fuel with _ | _ | fuel <;> simp [inheritParents, parents] at runs
    rw [← runs, parents, List.nil_append]
  | [p], _ =>
    have pa : p ≠ a := fun same => others (same ▸ List.mem_singleton_self p)
    have linked : b ∈ (h.node p).children.items :=
      wf.mem_children_of_mem_parents (by simp [parents])
    have kept : ((if h.containsChild p a then h else h.addChild p a).node b).parents.items =
        [p, a] := by
      split
      · exact parents
      · rename_i absent
        have ba : b ≠ a := fun same => absent (by simp [Heap.containsChild, ← same, linked])
        simp [ba, parents]
    have after : (((if h.containsChild p a then h else h.addChild p a).removeChild p
        b).node b).parents.items = [a] := by
      simp [Heap.removeChild, kept, pa]
    rcases fuel with _ | _ | fuel <;> simp [inheritParents, parents, pa, after] at runs
    rw [← runs, after]

/-- What the merge loop keeps: the links lead deeper but for the self-links of an `ExpandInto`,
which alone may have two parents and is the only one into its node of in-degree two. -/
structure MergeState (g : Graph) (root : Nat) (ops : List Nat) (h : Heap) : Prop where
  wellFormed : h.WellFormed
  descend : LinksDescend g h
  single : ∀ x, (∀ src relation dest, (h.node x).operation.type ≠ .expandInto src relation dest) →
    h.OneParent x
  orphaned : h.SelfLinksOrphaned
  rootMade : root < h.count
  rootTop : (opRank g (h.node root).operation.type).1 = 0
  intoDegree : ∀ i src relation dest,
    (h.node i).operation.type = .expandInto src relation dest → g.inDegree dest = 2
  intoUnique : ∀ i j src relation src' relation' dest,
    (h.node i).operation.type = .expandInto src relation dest →
      (h.node j).operation.type = .expandInto src' relation' dest → i = j
  tops : ∀ x < h.count, h.Top x →
    x ∈ ops ∧ (opRank g (h.node x).operation.type).1 = 0 ∨ x ∈ (h.node x).children.items

/-- What lines 166-192 do once the search has found the `ExpandAll`s `a` and `b`: `a` takes `op`
and becomes the only parent of `b`, and the only new links are `a` over `b` and into `a`. -/
structure Merged (h h' : Heap) (a b : Nat) (op : OpBase) : Prop where
  operation : ∀ x, (h'.node x).operation = if x = a then op else (h.node x).operation
  parents : ∀ x, x ≠ a → x ≠ b → (h'.node x).parents.items = (h.node x).parents.items
  onlyParent : (h'.node b).parents.items = [a]
  links : ∀ t c, c ∈ (h'.node t).children.items →
    c ∈ (h.node t).children.items ∨ t = a ∧ c = b ∨ c = a ∧ t ≠ a
  grows : a ≠ b → ∀ p ∈ (h.node a).parents.items, p ∈ (h'.node a).parents.items

theorem inheritParents_merged {root fuel s r s' r' n : Nat} (state : MergeState g root ops h)
    (aAll : (h.node a).operation.type = .expandAll s r n)
    (bAll : (h.node b).operation.type = .expandAll s' r' n) (made : a < h.count ∧ b < h.count)
    (runs : inheritParents a b fuel 0
      ((h.setOperation a (newExpandIntoOp s r n)).addChild a b) = some h') :
    Merged h h' a b (newExpandIntoOp s r n) := by
  obtain ⟨ops', parents', children', grows'⟩ := inheritParents_frame runs
  have bNotInto : ∀ s r d, (h.node b).operation.type ≠ .expandInto s r d := fun _ _ _ into => by
    rw [bAll] at into
    cases into
  refine ⟨fun x => by rw [ops', Heap.operation_addChild, Heap.operation_setOperation],
    fun x xa xb => by rw [parents' x xa xb, Heap.parents_addChild, if_neg xb,
      Heap.parents_setOperation],
    inheritParents_parents ((state.wellFormed.setOperation a _).addChild made)
      (state.single b bNotInto) (fun member => state.descend.not_mem_expandAll aAll bAll
        (state.wellFormed.mem_children_of_mem_parents member)) (by simp) runs,
    fun t c member => ?_, fun ab p member => grows' a ab p (by
      rwa [Heap.parents_addChild, if_neg ab, Heap.parents_setOperation])⟩
  rcases children' t c member with old | new
  · simp only [Heap.children_addChild, Heap.children_setOperation] at old
    split at old
    · rename_i ta
      rcases List.mem_append.mp old with old | new
      · exact .inl old
      · exact .inr (.inl ⟨ta, List.mem_singleton.mp new⟩)
    · exact .inl old
  · exact .inr (.inr new)

/-- A merge of two `ExpandAll`s into `n`, of in-degree two and with no `ExpandInto` into it yet,
keeps `MergeState`. -/
theorem MergeState.merge {root s r s' r' n : Nat} (state : MergeState g root ops h)
    (degree : g.inDegree n = 2)
    (unmerged : ∀ i s r, (h.node i).operation.type ≠ .expandInto s r n)
    (aAll : (h.node a).operation.type = .expandAll s r n)
    (bAll : (h.node b).operation.type = .expandAll s' r' n)
    (merged : Merged h h' a b (newExpandIntoOp s r n)) (wf' : h'.WellFormed)
    (descend' : LinksDescend g h') (count' : h'.count = h.count) : MergeState g root ops h' := by
  have aNotSelf : a ∉ (h.node a).children.items := fun self => by
    obtain ⟨_, _, _, into⟩ := state.descend.into_of_self self
    rw [aAll] at into
    cases into
  have aRank : (opRank g (h.node a).operation.type).1 ≠ 0 := by simp [aAll, opRank]
  have into' : ∀ x src relation dest,
      (h'.node x).operation.type = .expandInto src relation dest →
        x = a ∧ dest = n ∨ (h.node x).operation.type = .expandInto src relation dest :=
    fun x src relation dest into => by
      rw [merged.operation] at into
      split_ifs at into with xa
      · simp only [newExpandIntoOp, OpType.expandInto.injEq] at into
        exact .inl ⟨xa, into.2.2.symm⟩
      · exact .inr into
  refine ⟨wf', descend', fun x notInto => ?_, fun t self u linked => ?_,
    count' ▸ state.rootMade, ?_, fun i src relation dest into => ?_,
    fun i j src relation src' relation' dest intoI intoJ => ?_, fun x made top => ?_⟩
  · have xa : x ≠ a := fun same => notInto s r n (by simp [merged.operation, same, newExpandIntoOp])
    unfold Heap.OneParent
    by_cases xb : x = b
    · rw [xb, merged.onlyParent]
      rfl
    · rw [merged.parents x xa xb]
      exact state.single x fun s₀ r₀ d₀ into =>
        notInto s₀ r₀ d₀ (by rwa [merged.operation, if_neg xa])
  · by_cases ta : t = a
    · subst ta
      have ba : b = t := by
        rcases merged.links t t self with old | ⟨_, same⟩ | ⟨_, apart⟩
        · exact absurd old aNotSelf
        · exact same.symm
        · exact absurd rfl apart
      subst ba
      have counted := List.count_pos_iff.mpr linked
      rw [wf'.symmetric, merged.onlyParent] at counted
      exact List.mem_singleton.mp (List.count_pos_iff.mp counted)
    · have old : t ∈ (h.node t).children.items := by
        rcases merged.links t t self with old | ⟨same, _⟩ | ⟨same, _⟩
        · exact old
        · exact absurd same ta
        · exact absurd same ta
      have tb : t ≠ b := fun same => by
        obtain ⟨_, _, _, into⟩ := state.descend.into_of_self old
        rw [same, bAll] at into
        cases into
      rcases merged.links u t linked with linked | ⟨_, same⟩ | ⟨same, _⟩
      · exact state.orphaned t old u linked
      · exact absurd same tb
      · exact absurd same ta
  · have rootApart : root ≠ a := fun same => aRank (same ▸ state.rootTop)
    rw [merged.operation, if_neg rootApart]
    exact state.rootTop
  · rcases into' i src relation dest into with ⟨_, rfl⟩ | old
    · exact degree
    · exact state.intoDegree i src relation dest old
  · rcases into' i src relation dest intoI with ⟨rfl, rfl⟩ | oldI <;>
      rcases into' j src' relation' dest intoJ with ⟨rfl, same⟩ | oldJ
    · rfl
    · exact absurd oldJ (unmerged j src' relation')
    · exact absurd (same ▸ oldI) (unmerged i src relation)
    · exact state.intoUnique i j src relation src' relation' dest oldI oldJ
  · rw [count'] at made
    by_cases xb : x = b
    · subst xb
      obtain rfl : a = x := top a (by rw [merged.onlyParent]; exact List.mem_singleton_self a)
      refine .inr (wf'.mem_children_of_mem_parents ?_)
      rw [merged.onlyParent]
      exact List.mem_singleton_self a
    by_cases xa : x = a
    · rw [xa] at top xb made
      rcases state.tops a made fun p member => top p (merged.grows xb p member) with
        ⟨_, rank⟩ | self
      · exact absurd rank aRank
      · exact absurd self aNotSelf
    have same := merged.parents x xa xb
    rcases state.tops x made fun p member => top p (by rwa [same]) with ⟨kept, rank⟩ | self
    · exact .inl ⟨kept, by rwa [merged.operation, if_neg xa]⟩
    · refine .inr (wf'.mem_children_of_mem_parents ?_)
      rw [same]
      exact state.wellFormed.mem_parents_of_mem_children self

/-- One call of `_ExecutionPlan_MergeNodes(plan, n)` changes nothing, or merges two `ExpandAll`s
into `n`, of in-degree two. -/
theorem mergeNodes_cases {fuel root n : Nat} (state : MergeState g root ops h)
    (merges : mergeNodes g fuel root h n = some h') :
    h' = h ∨ g.inDegree n = 2 ∧ ∃ a b s r s' r', (h.node a).operation.type = .expandAll s r n ∧
      (h.node b).operation.type = .expandAll s' r' n ∧ Merged h h' a b (newExpandIntoOp s r n) := by
  unfold mergeNodes at merges
  split at merges
  · cases merges
    exact .inl rfl
  rename_i degree
  split at merges
  · cases merges
  case h_3 =>
    cases merges
    exact .inl rfl
  rename_i a b found
  obtain ⟨aMade, bMade⟩ :=
    locateExpands_made state.wellFormed.closed (by simpa using state.rootMade) (by simp) found
  obtain ⟨aExpands, bExpands⟩ := locateExpands_expands (by simp) found
  obtain ⟨s, r, aAll⟩ := expandsInto_iff.mp (aExpands a rfl)
  obtain ⟨s', r', bAll⟩ := expandsInto_iff.mp (bExpands b rfl)
  split at merges
  case h_2 =>
    cases merges
    exact .inl rfl
  rename_i src relation dest expanding
  rw [aAll] at expanding
  cases expanding
  exact .inr ⟨not_not.mp degree, a, b, s, r, s', r', aAll, bAll,
    inheritParents_merged state aAll bAll ⟨aMade a rfl, bMade b rfl⟩ merges⟩

theorem mergeNodes_state {fuel root n : Nat} (state : MergeState g root ops h)
    (unmerged : ∀ i s r, (h.node i).operation.type ≠ .expandInto s r n)
    (merges : mergeNodes g fuel root h n = some h') :
    MergeState g root ops h' ∧ ∀ i s r m, (h'.node i).operation.type = .expandInto s r m →
      m = n ∨ (h.node i).operation.type = .expandInto s r m := by
  obtain ⟨wf', descend', count', into'⟩ :=
    mergeNodes_descends state.wellFormed state.descend state.rootMade unmerged merges
  refine ⟨?_, into'⟩
  rcases mergeNodes_cases state merges with rfl | ⟨degree, a, b, s, r, s', r', aAll, bAll, merged⟩
  · exact state
  · exact state.merge degree unmerged aAll bAll merged wf' descend' count'

theorem mergeNodes_pending {fuel root n : Nat} {rest : List Nat} (distinct : (n :: rest).Nodup)
    (state : MergeState g root ops h)
    (pending : ∀ i s r m, (h.node i).operation.type = .expandInto s r m → m ∉ n :: rest)
    (merges : mergeNodes g fuel root h n = some h') :
    MergeState g root ops h' ∧
      ∀ i s r m, (h'.node i).operation.type = .expandInto s r m → m ∉ rest := by
  obtain ⟨state', into'⟩ :=
    mergeNodes_state state (fun i s r into => pending i s r n into (List.mem_cons_self n rest)) merges
  refine ⟨state', fun i s r m into => ?_⟩
  rcases into' i s r m into with rfl | old
  · exact (List.nodup_cons.mp distinct).1
  · exact fun member => pending i s r m old (List.mem_cons_of_mem n member)

variable {nodes : List Nat} in
theorem mergeNodes_fold_induction {P : Heap → Prop} {fuel root : Nat} (distinct : nodes.Nodup)
    (state : MergeState g root ops h)
    (pending : ∀ i s r m, (h.node i).operation.type = .expandInto s r m → m ∉ nodes)
    (step : ∀ {n h h'}, n ∈ nodes → MergeState g root ops h →
      (∀ i s r, (h.node i).operation.type ≠ .expandInto s r n) →
      mergeNodes g fuel root h n = some h' → P h → P h')
    (start : P h) (merged : nodes.foldlM (mergeNodes g fuel root) h = some h') : P h' := by
  induction nodes generalizing h with
  | nil =>
    cases merged
    exact start
  | cons n rest ih =>
    obtain ⟨h₁, first, more⟩ := Option.bind_eq_some.mp merged
    obtain ⟨state₁, pending₁⟩ := mergeNodes_pending distinct state pending first
    exact ih (List.nodup_cons.mp distinct).2 state₁ pending₁
      (fun member => step (List.mem_cons_of_mem n member))
      (step (List.mem_cons_self n rest) state
        (fun i s r into => pending i s r n into (List.mem_cons_self n rest)) first start) more

/-- The loop of lines 399-404 over nodes listed once each keeps `MergeState`, and its new
`ExpandInto`s lead into the nodes it merges. -/
theorem mergeNodes_fold_state {fuel root : Nat} {nodes : List Nat} (distinct : nodes.Nodup)
    (state : MergeState g root ops h)
    (pending : ∀ i s r m, (h.node i).operation.type = .expandInto s r m → m ∉ nodes)
    (merged : nodes.foldlM (mergeNodes g fuel root) h = some h') :
    MergeState g root ops h' ∧ ∀ i s r m, (h'.node i).operation.type = .expandInto s r m →
      (h.node i).operation.type = .expandInto s r m ∨ m ∈ nodes :=
  mergeNodes_fold_induction (P := fun h₁ => MergeState g root ops h₁ ∧
      ∀ i s r m, (h₁.node i).operation.type = .expandInto s r m →
        (h.node i).operation.type = .expandInto s r m ∨ m ∈ nodes) distinct state pending
    (fun member state₁ unmerged merges ⟨_, origin⟩ =>
      have ⟨state', into'⟩ := mergeNodes_state state₁ unmerged merges
      ⟨state', fun i s r m into => (into' i s r m into).elim (fun same => .inr (same ▸ member))
        (origin i s r m)⟩)
    ⟨state, fun _ _ _ _ into => .inl into⟩ merged

end Merge

/-! ### Operators with one parent -/

namespace Heap

variable {h : Heap}

theorem Reaches.cases_tail {a b : Nat} (reaches : h.Reaches a b) :
    b = a ∨ ∃ p, h.Reaches a p ∧ b ∈ (h.node p).children.items := by
  induction reaches with
  | refl => exact .inl rfl
  | @child a c b member _ ih =>
    rcases ih with rfl | ⟨p, reaches, link⟩
    · exact .inr ⟨a, .refl a, member⟩
    · exact .inr ⟨p, .child member reaches, link⟩

theorem parent_unique (wf : h.WellFormed) {c p q : Nat} (single : h.OneParent c)
    (first : c ∈ (h.node p).children.items) (second : c ∈ (h.node q).children.items) : p = q := by
  have fromP := wf.mem_parents_of_mem_children first
  have fromQ := wf.mem_parents_of_mem_children second
  unfold OneParent at single
  generalize (h.node c).parents.items = ps at fromP fromQ single
  match ps, single with
  | [], _ => cases fromP
  | [x], _ => exact (List.mem_singleton.mp fromP).trans (List.mem_singleton.mp fromQ).symm
  | _ :: _ :: _, short => simp at short

theorem reaches_total (wf : h.WellFormed) (single : ∀ x, h.OneParent x) {a b x : Nat}
    (fromA : h.Reaches a x) (fromB : h.Reaches b x) : h.Reaches a b ∨ h.Reaches b a := by
  induction fromA with
  | refl => exact .inr fromB
  | @child a c x member _ ih =>
    rcases ih fromB with down | up
    · exact .inl (.child member down)
    · rcases up.cases_tail with rfl | ⟨p, reaches, link⟩
      · exact .inl (.child member (.refl _))
      · exact .inr (parent_unique wf (single c) link member ▸ reaches)

theorem children_nodup (wf : h.WellFormed) (single : ∀ x, h.OneParent x) (n : Nat) :
    (h.node n).children.items.Nodup :=
  List.nodup_iff_count_le_one.mpr fun c => by
    rw [wf.symmetric n c]
    exact (List.count_le_length _ _).trans (single c)

theorem reaches_of_sibling (wf : h.WellFormed) (single : ∀ x, h.OneParent x) {X c c' : Nat}
    (kid : c ∈ (h.node X).children.items) (kid' : c' ∈ (h.node X).children.items) (other : c ≠ c')
    (down : h.Reaches c c') : h.Reaches c X := by
  rcases down.cases_tail with same | ⟨p, reaches, link⟩
  · exact absurd same.symm other
  · obtain rfl := parent_unique wf (single c') link kid'
    exact reaches

theorem reaches_parent_of_common (wf : h.WellFormed) (single : ∀ x, h.OneParent x)
    {X c c' n : Nat} (kid : c ∈ (h.node X).children.items) (kid' : c' ∈ (h.node X).children.items)
    (other : c ≠ c') (fromC : h.Reaches c n) (fromC' : h.Reaches c' n) :
    h.Reaches c X ∨ h.Reaches c' X :=
  (reaches_total wf single fromC fromC').imp (reaches_of_sibling wf single kid kid' other)
    (reaches_of_sibling wf single kid' kid (Ne.symm other))

end Heap

end RedisGraph.Plan
