import RedisGraph.Plan.Shape

/-! `_ExecutionPlan_AddFilters` (lines 238-294) over any well-formed acyclic heap, with the
filter module given by its contracts. Every `Filter` it makes is pushed between a node and that
node's children, so the old nodes reach each other exactly as before; the predicates of the
WHERE tree end up each in one new `Filter` or in the residual tree; a `Filter` only checks
aliases that some operator below it binds; and the residual tree is empty exactly when every
alias the tree references is bound below the root. -/

namespace RedisGraph.Plan

open Filter

namespace Heap

/-! ### One `Filter` pushed between a node and its children -/

section Insert

variable {h h₂ : Heap} {X fuel : Nat} {op : OpBase} (wf : h.WellFormed) (made : X < h.count)
  (pushed : pushInBetween X h.count fuel (h.newOpNode op).2 = some h₂)

include pushed

include made in
theorem children_insert (n : Nat) : (h₂.node n).children.items =
    if n = X then [h.count]
    else if n = h.count then (h.node X).children.items else (h.node n).children.items := by
  rw [children_pushInBetween (Nat.ne_of_lt made) pushed]
  by_cases atX : n = X
  · simp [atX]
  · by_cases fresh : n = h.count <;>
      simp [atX, fresh, newOpNode, OpNode.fresh, PtrArray.null, Nat.ne_of_lt made]

theorem count_insert : h₂.count = h.count + 1 :=
  count_pushInBetween pushed

theorem operation_insert (n : Nat) :
    (h₂.node n).operation = if n = h.count then op else (h.node n).operation := by
  rw [operation_pushInBetween pushed]
  by_cases fresh : n = h.count <;> simp [newOpNode, fresh, OpNode.fresh]

include wf made in
theorem wellFormed_insert : h₂.WellFormed :=
  (pushInBetween_preserves (fun wf hp hc => wf.addChild ⟨hp, hc⟩) (fun wf => wf.removeNode _ _)
    WellFormed.closed ⟨Nat.lt_succ_of_lt made, Nat.lt_succ_self _⟩ (wf.newOpNode op) pushed).1

include wf made in
theorem reaches_insert_of {a b : Nat} (reaches : h₂.Reaches a b) (start : a ≤ h.count)
    (stop : b < h.count) :
    if a = h.count then ∃ c ∈ (h.node X).children.items, h.Reaches c b else h.Reaches a b := by
  induction reaches with
  | refl a =>
    rw [if_neg (Nat.ne_of_lt stop)]
    exact .refl a
  | @child a c b member _ ih =>
    rw [children_insert made pushed] at member
    by_cases atX : a = X
    · simp only [atX, List.mem_singleton, if_true] at member
      subst member
      rw [if_pos rfl] at ih
      obtain ⟨c', kid, reaches⟩ := ih le_rfl stop
      rw [if_neg (Nat.ne_of_lt (atX ▸ made))]
      exact atX ▸ .child kid reaches
    · rw [if_neg atX] at member
      split at member
      · rename_i fresh
        rw [if_pos fresh]
        have old := (wf.closed X).1 c member
        rw [if_neg (Nat.ne_of_lt old)] at ih
        exact ⟨c, member, ih old.le stop⟩
      · rename_i stale
        have old := (wf.closed a).1 c member
        rw [if_neg (Nat.ne_of_lt old)] at ih
        rw [if_neg stale]
        exact .child member (ih old.le stop)

include wf made in
theorem reaches_insert_to {a b : Nat} (reaches : h.Reaches a b) : h₂.Reaches a b := by
  induction reaches with
  | refl a => exact .refl a
  | @child a c b member _ ih =>
    by_cases atX : a = X
    · subst atX
      have down : h.count ∈ (h₂.node a).children.items := by
        simp [children_insert made pushed]
      have across : c ∈ (h₂.node h.count).children.items := by
        simp [children_insert made pushed, Nat.ne_of_gt made, member]
      exact .child down (.child across ih)
    · have kept : c ∈ (h₂.node a).children.items := by
        have fresh : a ≠ h.count := Nat.ne_of_lt (wf.lt_count_of_mem_children member)
        simp [children_insert made pushed, atX, fresh, member]
      exact .child kept ih

include wf made in
theorem reaches_insert_iff {a b : Nat} (aMade : a < h.count) (bMade : b < h.count) :
    h₂.Reaches a b ↔ h.Reaches a b := by
  constructor
  · intro reaches
    have back := reaches_insert_of wf made pushed reaches aMade.le bMade
    rwa [if_neg (Nat.ne_of_lt aMade)] at back
  · exact reaches_insert_to wf made pushed

include wf made in
theorem reaches_X_of_reaches_fresh {a b : Nat} (reaches : h₂.Reaches a b) (fresh : b = h.count) :
    a = h.count ∨ h₂.Reaches a X := by
  induction reaches with
  | refl => exact .inl fresh
  | @child a c b member _ ih =>
    rcases ih fresh with rfl | down
    · rw [children_insert made pushed] at member
      split at member
      · rename_i atX
        exact .inr (atX ▸ .refl a)
      · split at member
        · exact absurd member (wf.not_mem_children X)
        · exact absurd member (wf.not_mem_children a)
    · exact .inr (.child member down)

include wf made in
theorem acyclic_insert (acyclic : h.Acyclic) : h₂.Acyclic := by
  intro a b member back
  rw [children_insert made pushed] at member
  split at member
  · rename_i atX
    subst atX
    rw [List.mem_singleton.mp member] at back
    have down := reaches_insert_of wf made pushed back le_rfl made
    rw [if_pos rfl] at down
    obtain ⟨c, kid, up⟩ := down
    exact acyclic a c kid up
  · rename_i notX
    split at member
    · rename_i fresh
      subst fresh
      have bMade := (wf.closed _).1 b member
      rcases reaches_X_of_reaches_fresh wf made pushed back rfl with same | up
      · exact Nat.ne_of_lt bMade same
      · exact acyclic X b member ((reaches_insert_iff wf made pushed bMade made).mp up)
    · have aMade := wf.lt_count_of_mem_children member
      have bMade := (wf.closed _).1 b member
      exact acyclic a b member ((reaches_insert_iff wf made pushed bMade aMade).mp back)

end Insert

theorem Acyclic.eq_of_reaches {h : Heap} (acyclic : h.Acyclic) {a b : Nat} (there : h.Reaches a b)
    (back : h.Reaches b a) : a = b := by
  cases there with
  | refl => rfl
  | child member rest => exact absurd (rest.trans back) (acyclic _ _ member)

/-! ### Heaps with `Filter`s added -/

/-- The predicates of node `n`'s `Filter`, none for another operator. -/
def filterPredicates (h : Heap) (n : Nat) : List PredicateNode :=
  match (h.node n).operation.type with
  | .filter tree => tree.predicates
  | _ => []

/-- The predicates of the `Filter`s allocated since `h`, in allocation order. -/
def addedPredicates (h h' : Heap) : List PredicateNode :=
  ((List.range' h.count (h'.count - h.count)).map h'.filterPredicates).flatten

/-- Some operator that `n` reaches binds `a`. -/
def BoundBelow (h : Heap) (n : Nat) (a : String) : Prop :=
  ∃ y, h.Reaches n y ∧ a ∈ (h.node y).operation.modifies

theorem boundBelow_iff_children {h : Heap} {X : Nat} {a : String} : h.BoundBelow X a ↔
    a ∈ (h.node X).operation.modifies ∨ ∃ c ∈ (h.node X).children.items, h.BoundBelow c a := by
  constructor
  · rintro ⟨y, reaches, binds⟩
    rcases reaches_iff.mp reaches with rfl | ⟨c, member, rest⟩
    · exact .inl binds
    · exact .inr ⟨c, member, y, rest, binds⟩
  · rintro (binds | ⟨c, member, y, reaches, binds⟩)
    · exact ⟨X, .refl X, binds⟩
    · exact ⟨y, .child member reaches, binds⟩

/-- Every alias the predicates of the `Filter` at `f` reference is bound below it. -/
def FilterSound (h : Heap) (f : Nat) : Prop :=
  ∀ p ∈ h.filterPredicates f, ∀ a ∈ p.aliases, h.BoundBelow f a

/-- `h'` is the well-formed acyclic heap `h` with sound `Filter`s pushed in: the old nodes keep
their operators and reach each other as before. -/
structure FiltersAdded (h h' : Heap) : Prop where
  grows : h.count ≤ h'.count
  operation : ∀ n < h.count, (h'.node n).operation = (h.node n).operation
  fresh : ∀ n, h.count ≤ n → n < h'.count → ∃ t, (h'.node n).operation = newFilterOp t
  reaches : ∀ a < h.count, ∀ b < h.count, h'.Reaches a b ↔ h.Reaches a b
  wellFormed : h'.WellFormed
  acyclic : h'.Acyclic
  sound : ∀ f, h.count ≤ f → f < h'.count → h'.FilterSound f

namespace FiltersAdded

variable {h h₁ h₂ : Heap}

theorem refl (wf : h.WellFormed) (acyclic : h.Acyclic) : FiltersAdded h h :=
  ⟨le_rfl, fun _ _ => rfl, fun _ low high => absurd high (Nat.not_lt.mpr low),
    fun _ _ _ _ => Iff.rfl, wf, acyclic, fun _ low high => absurd high (Nat.not_lt.mpr low)⟩

theorem boundBelow_iff (added : FiltersAdded h h') (wf : h.WellFormed) {c : Nat}
    (made : c < h.count) (a : String) :
    h'.BoundBelow c a ↔ h.BoundBelow c a := by
  constructor
  · rintro ⟨y, reaches, binds⟩
    have yMade := reaches.lt_count added.wellFormed.closed (Nat.lt_of_lt_of_le made added.grows)
    by_cases old : y < h.count
    · exact ⟨y, (added.reaches c made y old).mp reaches, added.operation y old ▸ binds⟩
    · obtain ⟨t, filter⟩ := added.fresh y (Nat.not_lt.mp old) yMade
      rw [filter] at binds
      cases binds
  · rintro ⟨y, reaches, binds⟩
    have yMade := reaches.lt_count wf.closed made
    exact ⟨y, (added.reaches c made y yMade).mpr reaches, (added.operation y yMade).symm ▸ binds⟩

theorem trans (first : FiltersAdded h h₁) (second : FiltersAdded h₁ h₂) : FiltersAdded h h₂ where
  grows := first.grows.trans second.grows
  operation n made := (second.operation n (Nat.lt_of_lt_of_le made first.grows)).trans
    (first.operation n made)
  fresh n low high := by
    by_cases old : n < h₁.count
    · rw [second.operation n old]
      exact first.fresh n low old
    · exact second.fresh n (Nat.not_lt.mp old) high
  reaches a aMade b bMade := (second.reaches a (Nat.lt_of_lt_of_le aMade first.grows) b
    (Nat.lt_of_lt_of_le bMade first.grows)).trans (first.reaches a aMade b bMade)
  wellFormed := second.wellFormed
  acyclic := second.acyclic
  sound f low high := by
    by_cases old : f < h₁.count
    · intro p member a mentioned
      have kept : h₂.filterPredicates f = h₁.filterPredicates f := by
        simp only [filterPredicates, second.operation f old]
      rw [kept] at member
      exact (second.boundBelow_iff first.wellFormed old a).mpr
        (first.sound f low old p member a mentioned)
    · exact second.sound f (Nat.not_lt.mp old) high

theorem addedPredicates_trans (first : FiltersAdded h h₁) (second : FiltersAdded h₁ h₂) :
    addedPredicates h h₂ = addedPredicates h h₁ ++ addedPredicates h₁ h₂ := by
  have split : h₂.count - h.count = (h₂.count - h₁.count) + (h₁.count - h.count) := by
    have := first.grows
    have := second.grows
    omega
  have start : h.count + (h₁.count - h.count) = h₁.count := by
    have := first.grows
    omega
  have kept : ∀ n ∈ List.range' h.count (h₁.count - h.count),
      h₂.filterPredicates n = h₁.filterPredicates n := by
    intro n member
    have old : n < h₁.count := by
      have := (List.mem_range'_1.mp member).2
      omega
    simp only [filterPredicates, second.operation n old]
  rw [addedPredicates, addedPredicates, addedPredicates, split, ← List.range'_append_1, start,
    List.map_append, List.flatten_append, List.map_congr_left kept]

end FiltersAdded

@[simp] theorem addedPredicates_self (h : Heap) : addedPredicates h h = [] := by
  simp [addedPredicates]

theorem filtersAdded_insert {h h₂ : Heap} {X fuel : Nat} {t : FilterTree} (wf : h.WellFormed)
    (acyclic : h.Acyclic) (made : X < h.count)
    (pushed : pushInBetween X h.count fuel (h.newOpNode (newFilterOp t)).2 = some h₂)
    (bound : ∀ p ∈ t.predicates, ∀ a ∈ p.aliases,
      ∃ c ∈ (h.node X).children.items, h.BoundBelow c a) :
    FiltersAdded h h₂ ∧ addedPredicates h h₂ = t.predicates := by
  have count := count_insert pushed
  have filterAt : h₂.filterPredicates h.count = t.predicates := by
    simp [filterPredicates, operation_insert pushed, newFilterOp]
  refine ⟨⟨by omega, fun n old => ?_, fun n low high => ?_, fun a aMade b bMade =>
    reaches_insert_iff wf made pushed aMade bMade, wellFormed_insert wf made pushed,
    acyclic_insert wf made pushed acyclic, fun f low high => ?_⟩, ?_⟩
  · simp [operation_insert pushed, Nat.ne_of_lt old]
  · exact ⟨t, by simp [operation_insert pushed, show n = h.count by omega]⟩
  · obtain rfl : f = h.count := by omega
    intro p member a mentioned
    rw [filterAt] at member
    obtain ⟨c, kid, y, reaches, binds⟩ := bound p member a mentioned
    have yMade := reaches.lt_count wf.closed ((wf.closed X).1 c kid)
    have across : c ∈ (h₂.node h.count).children.items := by
      simp [children_insert made pushed, Nat.ne_of_gt made, kid]
    refine ⟨y, .child across (reaches_insert_to wf made pushed reaches), ?_⟩
    simpa [operation_insert pushed, Nat.ne_of_lt yMade] using binds
  · simp [addedPredicates, count, filterAt]

/-! ### The recursion of `_ExecutionPlan_AddFilters` -/

/-- A returning `_ExecutionPlan_AddFilters(X, &tree)` pushes `Filter`s in below `X` with the
predicates it takes, and returns the aliases bound below `X`, or `NULL` once the tree is empty. -/
structure AddFiltersSpec (X : Nat) (h h' : Heap) (tree tree' : FilterTree)
    (r : Option (List String)) : Prop where
  added : FiltersAdded h h'
  frame : ∀ n < h.count, ¬ h.Reaches X n →
    (h'.node n).children.items = (h.node n).children.items
  conserves : (addedPredicates h h' ++ tree'.predicates).Perm tree.predicates
  below : ∀ f, h.count ≤ f → f < h'.count → h'.Reaches X f
  seen : ∀ s, r = some s → ∀ a, a ∈ s ↔ h.BoundBelow X a
  emptied : r = none → tree'.predicates = []
  residual : ∀ p ∈ tree'.predicates,
    ¬ ∀ a ∈ p.aliases, ∃ c ∈ (h.node X).children.items, h.BoundBelow c a

/-- The loop over the children of `X` (lines 251-271) after the children before index `i`:
`AddFiltersSpec` for what they reach, with `seen` and the aliases they bind collected. -/
structure ChildrenSpec (X i : Nat) (seen : List String) (h h' : Heap) (tree tree' : FilterTree)
    (r : Option (List String)) : Prop where
  added : FiltersAdded h h'
  frame : ∀ n < h.count, (∀ c ∈ (h.node X).children.items, ¬ h.Reaches c n) →
    (h'.node n).children.items = (h.node n).children.items
  conserves : (addedPredicates h h' ++ tree'.predicates).Perm tree.predicates
  below : ∀ f, h.count ≤ f → f < h'.count → ∃ c ∈ (h.node X).children.items, h'.Reaches c f
  seen : ∀ s, r = some s → ∀ a,
    a ∈ s ↔ a ∈ seen ∨ ∃ c ∈ (h.node X).children.items.take i, h.BoundBelow c a
  emptied : r = none → tree'.predicates = []

theorem childrenSpec_zero {X : Nat} {seen : List String} {h : Heap} {tree : FilterTree}
    (wf : h.WellFormed) (acyclic : h.Acyclic) : ChildrenSpec X 0 seen h h tree tree (some seen) :=
  ⟨.refl wf acyclic, fun _ _ _ => rfl, by simp, fun _ low high => absurd high (Nat.not_lt.mpr low),
    fun s same a => by cases same; simp, fun none => by cases none⟩

theorem ChildrenSpec.stop {X i c : Nat} {seen : List String} {h h₁ : Heap}
    {tree tree₁ : FilterTree} {saw : Option (List String)} (kid : c ∈ (h.node X).children.items)
    (first : AddFiltersSpec c h h₁ tree tree₁ saw) (empty : tree₁.predicates = []) :
    ChildrenSpec X (i + 1) seen h h₁ tree tree₁ none :=
  ⟨first.added, fun n nMade away => first.frame n nMade (away c kid), first.conserves,
    fun f low high => ⟨c, kid, first.below f low high⟩, fun _ stopped => (nomatch stopped),
    fun _ => empty⟩

theorem ChildrenSpec.cons {X i c : Nat} {seen saw : List String} {h h₁ h₂ : Heap}
    {tree tree₁ tree₂ : FilterTree} {r : Option (List String)} (wf : h.WellFormed)
    (acyclic : h.Acyclic) (made : X < h.count) (found : (h.node X).children.items[i]? = some c)
    (first : AddFiltersSpec c h h₁ tree tree₁ (some saw))
    (rest : ChildrenSpec X i (seen ++ saw) h₁ h₂ tree₁ tree₂ r) :
    ChildrenSpec X (i + 1) seen h h₂ tree tree₂ r := by
  have kid : c ∈ (h.node X).children.items := List.getElem?_mem found
  have cMade := (wf.closed X).1 c kid
  have kidMade : ∀ c ∈ (h.node X).children.items, c < h.count :=
    fun c member => (wf.closed X).1 c member
  have sameKids : (h₁.node X).children.items = (h.node X).children.items :=
    first.frame X made (acyclic X c kid)
  refine ⟨first.added.trans rest.added, fun n nMade away => ?_, ?_, fun f low high => ?_,
    fun s same a => ?_, rest.emptied⟩
  · rw [rest.frame n (Nat.lt_of_lt_of_le nMade first.added.grows) fun c' member => ?_,
      first.frame n nMade (away c kid)]
    rw [sameKids] at member
    rw [first.added.reaches c' (kidMade c' member) n nMade]
    exact away c' member
  · rw [FiltersAdded.addedPredicates_trans first.added rest.added, List.append_assoc]
    exact (rest.conserves.append_left _).trans first.conserves
  · by_cases old : f < h₁.count
    · exact ⟨c, kid, (rest.added.reaches c (Nat.lt_of_lt_of_le cMade first.added.grows) f
        old).mpr (first.below f low old)⟩
    · obtain ⟨c', member, reaches⟩ := rest.below f (Nat.not_lt.mp old) high
      exact ⟨c', sameKids ▸ member, reaches⟩
  · rw [rest.seen s same a, sameKids, List.take_succ, found, List.mem_append,
      first.seen saw rfl a]
    constructor
    · rintro ((old | new) | ⟨c', member, bound⟩)
      · exact .inl old
      · exact .inr ⟨c, by simp, new⟩
      · exact .inr ⟨c', List.mem_append_left _ member, (first.added.boundBelow_iff wf
          (kidMade c' (List.mem_of_mem_take member)) a).mp bound⟩
    · rintro (old | ⟨c', member, bound⟩)
      · exact .inl (.inl old)
      · rcases List.mem_append.mp member with member | single
        · exact .inr ⟨c', member, (first.added.boundBelow_iff wf
            (kidMade c' (List.mem_of_mem_take member)) a).mpr bound⟩
        · rw [Option.toList_some, List.mem_singleton] at single
          subst single
          exact .inl (.inr bound)

theorem addFiltersChildren_spec {fuel X i : Nat} {seen : List String} {h h' : Heap}
    {tree tree' : FilterTree} {r : Option (List String)}
    (visit : ∀ {c : Nat} {h₀ h₁ : Heap} {tree₀ tree₁ : FilterTree} {r₀ : Option (List String)},
      h₀.WellFormed → h₀.Acyclic → c < h₀.count →
      addFilters fuel c h₀ tree₀ = some (r₀, h₁, tree₁) → AddFiltersSpec c h₀ h₁ tree₀ tree₁ r₀)
    (wf : h.WellFormed) (acyclic : h.Acyclic) (made : X < h.count)
    (within : i ≤ (h.node X).children.items.length)
    (runs : addFiltersChildren (addFilters fuel) X i seen h tree = some (r, h', tree')) :
    ChildrenSpec X i seen h h' tree tree' r := by
  induction i generalizing seen h tree with
  | zero =>
    cases runs
    exact childrenSpec_zero wf acyclic
  | succ i ih =>
    simp only [addFiltersChildren] at runs
    split at runs
    · cases runs
    · rename_i c found
      split at runs
      · cases runs
      · rename_i saw h₁ tree₁ visited
        have kid : c ∈ (h.node X).children.items := List.getElem?_mem found
        have first := visit wf acyclic ((wf.closed X).1 c kid) visited
        split at runs
        · cases runs
          exact .stop kid first ‹_›
        · rename_i nonempty
          cases saw with
          | none => exact absurd (first.emptied rfl) nonempty
          | some saw =>
          have within₁ : i ≤ (h₁.node X).children.items.length := by
            rw [first.frame X made (acyclic X c kid)]
            exact (List.getElem?_eq_some_iff.mp found).1.le
          exact .cons wf acyclic made found first (ih first.added.wellFormed first.added.acyclic
            (Nat.lt_of_lt_of_le made first.added.grows) within₁ runs)

theorem ChildrenSpec.atRoot {X : Nat} {h h₁ : Heap} {tree tree₁ : FilterTree}
    {r₁ : Option (List String)} (acyclic : h.Acyclic) (made : X < h.count)
    (loop : ChildrenSpec X (h.node X).children.items.length [] h h₁ tree tree₁ r₁) :
    (h₁.node X).children.items = (h.node X).children.items ∧
    (∀ n < h.count, ¬ h.Reaches X n → (h₁.node n).children.items = (h.node n).children.items) ∧
    (∀ f, h.count ≤ f → f < h₁.count → h₁.Reaches X f) ∧
    (∀ seen, r₁ = some seen → ∀ mods, mods = (h.node X).operation.modifies →
      ∀ a, a ∈ seen ++ mods ↔ h.BoundBelow X a) ∧
    (∀ seen, r₁ = some seen → ∀ p : PredicateNode,
      (∀ a ∈ p.aliases, ∃ c ∈ (h.node X).children.items, h.BoundBelow c a) →
      p.boundBy seen = true) := by
  have kids := loop.frame X made fun c member => acyclic X c member
  refine ⟨kids, fun n nMade away => loop.frame n nMade fun c member back =>
    away (.child member back), fun f low high => ?_, fun seen same mods own a => ?_,
    fun seen same p bound => ?_⟩
  · obtain ⟨c, member, reaches⟩ := loop.below f low high
    exact .child (kids ▸ member) reaches
  · rw [List.mem_append, loop.seen seen same a, List.take_length, own, boundBelow_iff_children]
    simp only [List.not_mem_nil, false_or]
    exact or_comm
  · refine List.all_eq_true.mpr fun a mentioned => ?_
    simpa [loop.seen seen same a] using bound a mentioned

theorem addFilters_spec {fuel X : Nat} {h h' : Heap} {tree tree' : FilterTree}
    {r : Option (List String)} (wf : h.WellFormed) (acyclic : h.Acyclic) (made : X < h.count)
    (runs : addFilters fuel X h tree = some (r, h', tree')) : AddFiltersSpec X h h' tree tree' r := by
  induction fuel generalizing X h h' tree tree' r with
  | zero => cases runs
  | succ fuel ih =>
    simp only [addFilters] at runs
    split at runs
    · rename_i seen h₁ tree₁ visits
      have loop := addFiltersChildren_spec ih wf acyclic made le_rfl visits
      obtain ⟨kids, frame, below, seenAt, boundBy⟩ := loop.atRoot acyclic made
      have made₁ := Nat.lt_of_lt_of_le made loop.added.grows
      split at runs
      · obtain ⟨h₂, pushed, same⟩ := Option.map_eq_some'.mp runs
        cases same
        have inserted := filtersAdded_insert loop.added.wellFormed loop.added.acyclic made₁ pushed
          fun p member a mentioned => by
            have bound := List.all_eq_true.mp (tree₁.boundBy_of_mem_minFilterTree seen member) a
              mentioned
            obtain ⟨c, kid, binds⟩ := ((loop.seen seen rfl a).mp (of_decide_eq_true bound)).resolve_left
              (List.not_mem_nil a)
            rw [List.take_length] at kid
            exact ⟨c, kids ▸ kid, (loop.added.boundBelow_iff wf ((wf.closed X).1 c kid) a).mpr binds⟩
        refine ⟨loop.added.trans inserted.1, fun n nMade away => ?_, ?_, fun f low high => ?_,
          fun s same => ?_, fun stopped => (nomatch stopped), fun p member bound => ?_⟩
        · rw [children_insert made₁ pushed, if_neg (fun atX : n = X => away (by rw [atX]; exact .refl X)),
            if_neg (Nat.ne_of_lt (Nat.lt_of_lt_of_le nMade loop.added.grows))]
          exact frame n nMade away
        · rw [FiltersAdded.addedPredicates_trans loop.added inserted.1, inserted.2,
            List.append_assoc]
          exact ((tree₁.minFilterTree_append_removePredNodes seen).append_left _).trans
            loop.conserves
        · by_cases old : f < h₁.count
          · exact reaches_insert_to loop.added.wellFormed made₁ pushed (below f low old)
          · obtain rfl : f = h₁.count := by
              have := count_insert pushed
              omega
            exact .child (by simp [children_insert made₁ pushed]) (.refl _)
        · cases same
          refine seenAt seen rfl _ ?_
          rw [operation_insert pushed, if_neg (Nat.ne_of_lt made₁), loop.added.operation X made]
        · have kept := (List.mem_filter.mp member).2
          rw [boundBy seen rfl p bound, Bool.not_true] at kept
          cases kept
      · cases runs
        refine ⟨loop.added, frame, loop.conserves, below, fun s same => ?_,
          fun stopped => (nomatch stopped), fun p member bound => ‹¬ _› ?_⟩
        · cases same
          exact seenAt seen rfl _ (congrArg OpBase.modifies (loop.added.operation X made))
        · exact FilterTree.containsNode_of_boundBy _ seen member (boundBy seen rfl p bound)
    · rename_i other
      have loop := addFiltersChildren_spec ih wf acyclic made le_rfl runs
      obtain ⟨kids, frame, below, -, -⟩ := loop.atRoot acyclic made
      cases r with
      | some seen => exact absurd runs (other seen h' tree')
      | none =>
        refine ⟨loop.added, frame, loop.conserves, below, fun _ stopped => (nomatch stopped),
          fun _ => loop.emptied rfl, fun p member => ?_⟩
        rw [loop.emptied rfl] at member
        cases member

end Heap

open Heap

/-- The chain `0 -> 1 -> 2`: a root binding nothing, an operator binding `b`, and a scan binding
`a`. -/
def chainHeap : Heap :=
  let h := (Heap.empty.newOpNode ⟨.produceResults, []⟩).2
  let h := (h.newOpNode ⟨.expandAll 0 0 1, ["b"]⟩).2
  let h := (h.newOpNode ⟨.allNodeScan 0, ["a"]⟩).2
  (h.addChild 0 1).addChild 1 2

def chainTree : FilterTree :=
  ⟨[⟨"a", "x", 0, .constant 1⟩, ⟨"b", "y", 0, .varying "a" "z"⟩]⟩

theorem chainHeap_wellFormed : chainHeap.WellFormed :=
  Heap.Run.wellFormed (show Heap.Run (fun _ => True) Heap.empty chainHeap from
    ((((Relation.ReflTransGen.single (.newOpNode _ trivial)).tail (.newOpNode _ trivial)).tail
      (.newOpNode _ trivial)).tail (.addChild 0 1 ⟨by decide, by decide⟩)).tail
      (.addChild 1 2 ⟨by decide, by decide⟩))

/-- `MATCH (a)-[]->(b) WHERE b.y = a.z RETURN b`: the predicate references `a`, which the scan
binds, and `b`, which the `ExpandAll` above the scan binds. -/
def varyingQuery : QueryExpressionNode :=
  ⟨⟨[⟨"a", none⟩, ⟨"b", none⟩], [⟨0, 1⟩]⟩, some ⟨.pred ⟨"b", "y", 0, .varying "a" "z"⟩⟩,
    ⟨[⟨.node⟩], false⟩⟩

/-- Above the scan `a` is seen, so a `Filter` is pushed there, but the predicate also needs `b`:
that `Filter` gets the empty tree, and a second one under the root gets the predicate. -/
theorem varyingQuery_empty_filter :
    ∃ plan, newExecutionPlan 8 varyingQuery (varyingQuery.pattern.getNDegreeNodes 0)
      (varyingQuery.pattern.getNDegreeNodes 2) = some plan ∧
      plan.heap.Reaches plan.root 3 ∧ (plan.heap.node 3).operation = newFilterOp ⟨[]⟩ ∧
      plan.heap.Reaches plan.root 4 ∧
      (plan.heap.node 4).operation = newFilterOp ⟨[⟨"b", "y", 0, .varying "a" "z"⟩]⟩ :=
  ⟨_, rfl, .child (c := 4) (by decide) (.child (c := 1) (by decide) (.child (by decide) (.refl 3))),
    rfl, .child (by decide) (.refl 4), rfl⟩

end RedisGraph.Plan
