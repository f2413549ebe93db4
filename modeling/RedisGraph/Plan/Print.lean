import RedisGraph.Plan.Shape
import Mathlib.Data.Finset.Card

/-! `_ExecutionPlanPrint` and `ExecutionPlanPrint` (`execution_plan.c`, lines 419-439). The
printer walks `children` in pre-order and appends one line per visit to `*strPlan`, after
formatting it with `sprintf` into the 512 bytes of `strOp`. The operators' `name` fields are
set by the operator modules, outside this file, so they are a parameter. On an acyclic plan the
printer ends and its text is the one the spec gives. A line longer than `strOp` is written past
its end, and a plan 128 operators deep makes such a line whatever the names. -/

namespace RedisGraph.Plan

/-- `sprintf(strOp, "%*s%s\n", ident, "", name)`: `ident` spaces, the name and a newline. -/
def formatLine (ident : Nat) (name : String) : List Char :=
  List.replicate ident ' ' ++ name.toList ++ ['\n']

/-- Whether those bytes and the terminating `NUL` fit the 512 bytes of `strOp`. -/
def lineFits (ident : Nat) (name : String) : Bool :=
  ident + name.utf8ByteSize + 2 ≤ 512

/-- The printer's state: the characters of `*strPlan`, and whether some `sprintf` wrote past the
end of `strOp`. -/
structure PrintState where
  strPlan : List Char
  overflow : Bool
deriving DecidableEq, Repr

/-- `_ExecutionPlanPrint(op, strPlan, ident)`: the line of `op` goes at the end of `*strPlan`, then
the lines of each child at `ident + 4`; `fuel` bounds the depth. -/
def executionPlanPrintRec (name : OpBase → String) (h : Heap) :
    Nat → Nat → Nat → PrintState → Option PrintState
  | 0, _, _, _ => none
  | fuel + 1, op, ident, st =>
    (h.node op).children.items.foldlM
      (fun st child => executionPlanPrintRec name h fuel child (ident + 4) st)
      ⟨st.strPlan ++ formatLine ident (name (h.node op).operation),
        st.overflow || !lineFits ident (name (h.node op).operation)⟩

/-- `ExecutionPlanPrint(plan)`: from the root at indentation `0`, with `*strPlan` `NULL`. -/
def executionPlanPrint (name : OpBase → String) (plan : ExecutionPlan) (fuel : Nat) :
    Option PrintState :=
  executionPlanPrintRec name plan.heap fuel plan.root 0 ⟨[], false⟩

/-- The pre-order walk from `op`: each operator with its depth, children in array order, one entry
per path; `fuel` bounds the depth. -/
def preorder (h : Heap) : Nat → Nat → Nat → List (Nat × Nat)
  | 0, _, _ => []
  | fuel + 1, op, depth =>
    (op, depth) :: (h.node op).children.items.flatMap fun c => preorder h fuel c (depth + 1)

/-- The text the spec gives for the walk `lines`, `4 * depth` spaces, the name and a newline per
operator, and whether one of those lines is too long for `strOp`. -/
def render (name : OpBase → String) (h : Heap) (lines : List (Nat × Nat)) : PrintState :=
  ⟨lines.flatMap fun line => formatLine (4 * line.2) (name (h.node line.1).operation),
    lines.any fun line => !lineFits (4 * line.2) (name (h.node line.1).operation)⟩

def PrintState.append (st more : PrintState) : PrintState :=
  ⟨st.strPlan ++ more.strPlan, st.overflow || more.overflow⟩

@[simp] theorem PrintState.append_append (a b c : PrintState) :
    (a.append b).append c = a.append (b.append c) := by
  simp [PrintState.append, List.append_assoc, Bool.or_assoc]

theorem render_cons (name : OpBase → String) (h : Heap) (line : Nat × Nat)
    (lines : List (Nat × Nat)) :
    render name h (line :: lines) = (render name h [line]).append (render name h lines) := by
  simp [render, PrintState.append]

theorem render_append (name : OpBase → String) (h : Heap) (lines more : List (Nat × Nat)) :
    render name h (lines ++ more) = (render name h lines).append (render name h more) := by
  simp [render, PrintState.append]

variable {name : OpBase → String} {h : Heap}

/-- Whenever the printer returns, it has appended the lines of the pre-order walk, with the
same bound on the depth. -/
theorem executionPlanPrintRec_eq {fuel op depth : Nat} {st st' : PrintState}
    (printed : executionPlanPrintRec name h fuel op (4 * depth) st = some st') :
    st' = st.append (render name h (preorder h fuel op depth)) := by
  induction fuel generalizing op depth st st' with
  | zero => cases printed
  | succ fuel ih =>
    have children : ∀ (cs : List Nat) (st₀ st' : PrintState),
        cs.foldlM (fun st child => executionPlanPrintRec name h fuel child (4 * depth + 4) st)
          st₀ = some st' →
        st' = st₀.append (render name h (cs.flatMap fun c => preorder h fuel c (depth + 1))) := by
      intro cs
      induction cs with
      | nil =>
        intro st₀ st' folded
        cases folded
        simp [render, PrintState.append]
      | cons c cs ihc =>
        intro st₀ st' folded
        obtain ⟨st₁, first, rest⟩ := Option.bind_eq_some.mp folded
        have first : executionPlanPrintRec name h fuel c (4 * (depth + 1)) st₀ = some st₁ := first
        rw [ihc _ _ rest, ih first, List.flatMap_cons, render_append, PrintState.append_append]
    rw [executionPlanPrintRec] at printed
    rw [children _ _ _ printed, preorder, render_cons, ← PrintState.append_append]
    simp [render, PrintState.append]

namespace Heap

/-- `op` reaches an operator on a cycle of `children` links. -/
def ReachesCycle (h : Heap) (op : Nat) : Prop :=
  ∃ a b, h.Reaches op a ∧ b ∈ (h.node a).children.items ∧ h.Reaches b a

theorem ReachesCycle.of_child {op c : Nat} (member : c ∈ (h.node op).children.items)
    (cycle : h.ReachesCycle c) : h.ReachesCycle op := by
  obtain ⟨a, b, reaches, link, back⟩ := cycle
  exact ⟨a, b, .child member reaches, link, back⟩

theorem ReachesCycle.child {op : Nat} (cycle : h.ReachesCycle op) :
    ∃ c ∈ (h.node op).children.items, h.ReachesCycle c := by
  obtain ⟨a, b, reaches, link, back⟩ := cycle
  cases reaches with
  | refl => exact ⟨b, link, op, b, back, link, back⟩
  | child member rest => exact ⟨_, member, a, b, rest, link, back⟩

theorem Acyclic.not_reachesCycle (acyclic : h.Acyclic) (op : Nat) : ¬ h.ReachesCycle op :=
  fun ⟨a, b, _, link, back⟩ => acyclic a b link back

end Heap

open Classical in
theorem card_reaches_le_of_mem {op c : Nat} (n : Nat) (member : c ∈ (h.node op).children.items) :
    ((Finset.range n).filter (h.Reaches c ·)).card ≤
      ((Finset.range n).filter (h.Reaches op ·)).card :=
  Finset.card_le_card fun x reached => by
    simp only [Finset.mem_filter] at reached ⊢
    exact ⟨reached.1, .child member reached.2⟩

open Classical in
theorem card_reaches_lt_of_not_reachesCycle {op c n : Nat} (noCycle : ¬ h.ReachesCycle op)
    (made : op < n) (member : c ∈ (h.node op).children.items) :
    ((Finset.range n).filter (h.Reaches c ·)).card <
      ((Finset.range n).filter (h.Reaches op ·)).card := by
  refine Finset.card_lt_card ((Finset.ssubset_iff_of_subset fun x reached => ?_).mpr
    ⟨op, by simp [made, Heap.Reaches.refl],
      by simpa using fun _ back => noCycle ⟨op, c, .refl op, member, back⟩⟩)
  simp only [Finset.mem_filter] at reached ⊢
  exact ⟨reached.1, .child member reached.2⟩

theorem foldlM_isSome {α β : Type} {f : β → α → Option β} {l : List α}
    (steps : ∀ a ∈ l, ∀ b, (f b a).isSome) (b : β) : (l.foldlM f b).isSome := by
  induction l generalizing b with
  | nil => rfl
  | cons a l ih =>
    obtain ⟨b', stepped⟩ := Option.isSome_iff_exists.mp (steps a (List.mem_cons_self a l) b)
    simpa [stepped] using ih (fun a' member => steps a' (List.mem_cons_of_mem a member)) b'

theorem mapM_isSome {α β : Type} {f : α → Option β} {l : List α}
    (calls : ∀ a ∈ l, (f a).isSome) : (l.mapM f).isSome := by
  induction l with
  | nil => rfl
  | cons a l ih =>
    obtain ⟨b, first⟩ := Option.isSome_iff_exists.mp (calls a (List.mem_cons_self a l))
    obtain ⟨bs, rest⟩ := Option.isSome_iff_exists.mp
      (ih fun a' member => calls a' (List.mem_cons_of_mem a member))
    rw [List.mapM_cons, first, rest]
    rfl

open Classical in
theorem executionPlanPrintRec_isSome_of_not_reachesCycle (wf : h.WellFormed) {fuel op : Nat}
    (noCycle : ¬ h.ReachesCycle op) (made : op < h.count)
    (enough : ((Finset.range h.count).filter (h.Reaches op ·)).card < fuel) (ident : Nat)
    (st : PrintState) : (executionPlanPrintRec name h fuel op ident st).isSome := by
  induction fuel generalizing op ident st with
  | zero => omega
  | succ fuel ih =>
    rw [executionPlanPrintRec]
    exact foldlM_isSome (fun c member st => ih (fun cycle => noCycle (cycle.of_child member))
      ((wf.closed op).1 c member)
      (by have := card_reaches_lt_of_not_reachesCycle noCycle made member; omega) _ st) _

open Classical in
theorem executionPlanPrintRec_isSome (wf : h.WellFormed) (acyclic : h.Acyclic) {fuel op : Nat}
    (made : op < h.count)
    (enough : ((Finset.range h.count).filter (h.Reaches op ·)).card < fuel) (ident : Nat)
    (st : PrintState) : (executionPlanPrintRec name h fuel op ident st).isSome :=
  executionPlanPrintRec_isSome_of_not_reachesCycle wf (acyclic.not_reachesCycle op) made enough
    ident st

open Classical in
theorem opNodeFree_isSome (wf : h.WellFormed) {fuel op : Nat} (noCycle : ¬ h.ReachesCycle op)
    (made : op < h.count)
    (enough : ((Finset.range h.count).filter (h.Reaches op ·)).card < fuel) :
    (opNodeFree h fuel op).isSome := by
  induction fuel generalizing op with
  | zero => omega
  | succ fuel ih =>
    obtain ⟨freed, mapped⟩ := Option.isSome_iff_exists.mp (mapM_isSome fun c member =>
      ih (fun cycle => noCycle (cycle.of_child member)) ((wf.closed op).1 c member)
        (by have := card_reaches_lt_of_not_reachesCycle noCycle made member; omega))
    have mapped : (h.node op).children.items.mapM (opNodeFree h fuel) = some freed := mapped
    rw [opNodeFree, mapped]
    rfl

open Classical in
theorem preorder_succ (wf : h.WellFormed) {fuel op : Nat} (noCycle : ¬ h.ReachesCycle op)
    (made : op < h.count)
    (enough : ((Finset.range h.count).filter (h.Reaches op ·)).card < fuel) (depth : Nat) :
    preorder h (fuel + 1) op depth = preorder h fuel op depth := by
  induction fuel generalizing op depth with
  | zero => omega
  | succ fuel ih =>
    rw [preorder, preorder]
    congr 1
    refine List.flatMap_congr fun c member => ?_
    exact ih (fun cycle => noCycle (cycle.of_child member)) ((wf.closed op).1 c member)
      (by have := card_reaches_lt_of_not_reachesCycle noCycle made member; omega) _

open Classical in
theorem preorder_stable (wf : h.WellFormed) {fuel op : Nat} (noCycle : ¬ h.ReachesCycle op)
    (made : op < h.count) (enough : h.count < fuel) (depth : Nat) :
    preorder h fuel op depth = preorder h (h.count + 1) op depth := by
  have bound : ((Finset.range h.count).filter (h.Reaches op ·)).card ≤ h.count :=
    (Finset.card_filter_le _ _).trans (Finset.card_range _).le
  obtain ⟨k, rfl⟩ := Nat.exists_eq_add_of_lt enough
  induction k with
  | zero => rfl
  | succ k ih =>
    rw [← ih (by omega), show h.count + (k + 1) + 1 = h.count + k + 1 + 1 by omega,
      preorder_succ wf noCycle made (by omega)]

theorem reaches_of_mem_preorder {fuel op depth : Nat} {line : Nat × Nat}
    (member : line ∈ preorder h fuel op depth) : h.Reaches op line.1 := by
  induction fuel generalizing op depth with
  | zero => cases member
  | succ fuel ih =>
    rcases List.mem_cons.mp member with rfl | member
    · exact .refl _
    · obtain ⟨c, child, below⟩ := List.mem_flatMap.mp member
      exact Heap.reaches_iff.mpr (.inr ⟨c, child, ih below⟩)

/-- `ProduceResults` over `k - 2` `ExpandAll`s over a scan, the plan of a path of `k - 2` edges:
node `i` has the single child `i + 1`. -/
def deepChain (k : Nat) : Heap :=
  ⟨fun i => ⟨if i = 0 then ⟨.produceResults, []⟩
      else if i + 1 < k then ⟨.expandAll (k - 2 - i) (k - 2 - i) (k - 1 - i), []⟩
      else ⟨.allNodeScan 0, []⟩,
    if i + 1 < k then ⟨[i + 1], 2⟩ else PtrArray.null,
    if 0 < i ∧ i < k then ⟨[i - 1], 2⟩ else PtrArray.null, .unInitialized⟩, k, false⟩

@[simp] theorem deepChain_children (k i : Nat) :
    ((deepChain k).node i).children.items = if i + 1 < k then [i + 1] else [] := by
  simp only [deepChain]
  split_ifs <;> rfl

@[simp] theorem deepChain_parents (k i : Nat) :
    ((deepChain k).node i).parents.items = if 0 < i ∧ i < k then [i - 1] else [] := by
  simp only [deepChain]
  split_ifs <;> rfl

@[simp] theorem deepChain_count (k : Nat) : (deepChain k).count = k := rfl

theorem deepChain_wellFormed (k : Nat) : (deepChain k).WellFormed := by
  refine ⟨fun p c => ?_, fun i => ?_⟩
  · simp only [deepChain_children, deepChain_parents]
    split_ifs <;> simp only [List.count_singleton', List.count_nil] <;> split_ifs <;> omega
  · simp only [deepChain_children, deepChain_parents, deepChain_count]
    split_ifs <;> simp <;> omega

theorem deepChain_acyclic (k : Nat) : (deepChain k).Acyclic :=
  Heap.acyclic_of_rank (deepChain_wellFormed k) (k - ·) fun a _ b member => by
    show k - b < k - a
    rw [deepChain_children] at member
    split_ifs at member <;> simp at member
    omega

theorem mem_preorder_deepChain {k : Nat} :
    ∀ j i depth fuel, i + j < k → j < fuel →
      (i + j, depth + j) ∈ preorder (deepChain k) fuel i depth := by
  intro j
  induction j with
  | zero =>
    intro i depth fuel _ enough
    obtain ⟨fuel, rfl⟩ : ∃ f, fuel = f + 1 := ⟨fuel - 1, by omega⟩
    simp [preorder]
  | succ j ih =>
    intro i depth fuel inside enough
    obtain ⟨fuel, rfl⟩ : ∃ f, fuel = f + 1 := ⟨fuel - 1, by omega⟩
    have below := ih (i + 1) (depth + 1) fuel (by omega) (by omega)
    rw [show i + 1 + j = i + (j + 1) by omega, show depth + 1 + j = depth + (j + 1) by omega]
      at below
    have single : ((deepChain k).node i).children.items = [i + 1] := by
      simp [show i + 1 < k by omega]
    simp only [preorder, single, List.flatMap_cons, List.flatMap_nil, List.append_nil]
    exact List.mem_cons_of_mem _ below

theorem executionPlanPrint_eq_render {plan : ExecutionPlan} (wf : plan.heap.WellFormed)
    (noCycle : ¬ plan.heap.ReachesCycle plan.root) (made : plan.root < plan.heap.count)
    {fuel : Nat} (enough : plan.heap.count < fuel) :
    executionPlanPrint name plan fuel =
      some (render name plan.heap (preorder plan.heap (plan.heap.count + 1) plan.root 0)) := by
  classical
  have bound : ((Finset.range plan.heap.count).filter (plan.heap.Reaches plan.root ·)).card <
      fuel := ((Finset.card_filter_le _ _).trans (Finset.card_range _).le).trans_lt enough
  have returns : (executionPlanPrintRec name plan.heap fuel plan.root 0 ⟨[], false⟩).isSome :=
    executionPlanPrintRec_isSome_of_not_reachesCycle wf noCycle made bound 0 _
  obtain ⟨st, printed⟩ := Option.isSome_iff_exists.mp returns
  have rendered := executionPlanPrintRec_eq (show executionPlanPrintRec name plan.heap fuel
    plan.root (4 * 0) ⟨[], false⟩ = some st from printed)
  rw [preorder_stable wf noCycle made enough] at rendered
  rw [executionPlanPrint, printed, rendered]
  simp [PrintState.append]

/-- `ExecutionPlanPrint` on an acyclic plan returns, for every fuel beyond the number of operators,
the lines of the whole pre-order walk, and flags an overflow exactly when a line is too long. -/
theorem executionPlanPrint_renders {plan : ExecutionPlan} (wf : plan.heap.WellFormed)
    (acyclic : plan.heap.Acyclic) (made : plan.root < plan.heap.count) {fuel : Nat}
    (enough : plan.heap.count < fuel) :
    executionPlanPrint name plan fuel =
      some (render name plan.heap (preorder plan.heap (plan.heap.count + 1) plan.root 0)) :=
  executionPlanPrint_eq_render wf (acyclic.not_reachesCycle _) made enough

def shortPlan : ExecutionPlan := ⟨deepChain 3, 0, none⟩

theorem shortPlan_renders :
    shortPlan.heap.WellFormed ∧ shortPlan.heap.Acyclic ∧ shortPlan.root < shortPlan.heap.count ∧
      shortPlan.heap.count < 4 ∧
      executionPlanPrint (fun _ => "Op") shortPlan 4 = some (render (fun _ => "Op") shortPlan.heap
        (preorder shortPlan.heap (shortPlan.heap.count + 1) shortPlan.root 0)) :=
  ⟨deepChain_wellFormed 3, deepChain_acyclic 3, by decide, by decide,
    executionPlanPrint_renders (deepChain_wellFormed 3) (deepChain_acyclic 3) (by decide) (by decide)⟩

example : (executionPlanPrint (fun _ => "Op") shortPlan 4).map PrintState.strPlan =
    some "Op\n    Op\n        Op\n".toList := by
  decide

/-- `ProduceResults` over 127 `ExpandAll` operators over a scan at depth 128. -/
def deepPlan : ExecutionPlan := ⟨deepChain 129, 0, none⟩

/-- Whatever the operators' names, the printer formats the line of the scan of `deepPlan`, `4 * 128`
spaces, the name, a newline and the `NUL`, past the 512 bytes of `strOp`. -/
theorem deepPlan_print_overflows :
    deepPlan.heap.WellFormed ∧ deepPlan.heap.Acyclic ∧
      ∀ name, ∃ st, executionPlanPrint name deepPlan 130 = some st ∧ st.overflow = true := by
  refine ⟨deepChain_wellFormed 129, deepChain_acyclic 129, fun name => ?_⟩
  classical
  have returns : (executionPlanPrintRec name (deepChain 129) 130 0 0 ⟨[], false⟩).isSome :=
    executionPlanPrintRec_isSome (deepChain_wellFormed 129) (deepChain_acyclic 129) (by decide)
      (((Finset.card_filter_le _ _).trans (Finset.card_range _).le).trans_lt (by decide)) 0 _
  obtain ⟨st, printed⟩ := Option.isSome_iff_exists.mp returns
  have rendered := executionPlanPrintRec_eq (show executionPlanPrintRec name (deepChain 129) 130 0
    (4 * 0) ⟨[], false⟩ = some st from printed)
  refine ⟨st, printed, ?_⟩
  rw [rendered]
  simp only [PrintState.append, render, Bool.false_or, List.any_eq_true]
  exact ⟨(128, 128), mem_preorder_deepChain 128 0 0 130 (by decide) (by decide),
    by simp [lineFits]; omega⟩

end RedisGraph.Plan
