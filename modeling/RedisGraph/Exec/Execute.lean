import RedisGraph.Plan.OpNode

/-! The pull executor of `execution_plan.c`, lines 441-518. The operators are given by their
`consume` and `reset` calls on a state `W` that all of them share; the executor keeps, beside
it, the `state` field of every node. The recursion between `_ExecuteOpNode` and
`PullFromStreams`, the `goto consume` loop and the `while` loop of `ExecutionPlan_Execute` all
spend one `fuel` unit per round, so a run that does not end in the source is `none` here for
every fuel. -/

namespace RedisGraph.Exec

open Plan

inductive OpResult where
  | ok
  | depleted
  | refresh
  | err
deriving DecidableEq, Repr

/-- `op->consume` and `op->reset` of the operator of each node. -/
structure Operators (W : Type) where
  consume : Nat → W → OpResult × W
  reset : Nat → W → OpResult × W

/-- The operators' state, and the `state` field of each node by node number
(`StreamUnInitialized` past the end of the list). -/
structure Pipeline (W : Type) where
  world : W
  states : List StreamState
deriving DecidableEq, Repr

namespace Pipeline

variable {W : Type}

def state (s : Pipeline W) (n : Nat) : StreamState :=
  s.states.getD n .unInitialized

def setState (s : Pipeline W) (n : Nat) (st : StreamState) : Pipeline W :=
  { s with states :=
      if n < s.states.length then s.states.set n st
      else s.states ++ List.replicate (n - s.states.length) .unInitialized ++ [st] }

@[simp] theorem world_setState (s : Pipeline W) (n : Nat) (st : StreamState) :
    (s.setState n st).world = s.world := rfl

@[simp] theorem state_setState (s : Pipeline W) (n m : Nat) (st : StreamState) :
    (s.setState n st).state m = if m = n then st else s.state m := by
  simp only [state, setState, List.getD_eq_getElem?_getD]
  split
  · rw [List.getElem?_set]
    by_cases same : m = n <;> simp [same, *, Ne.symm]
  · rw [List.append_assoc]
    by_cases below : m < s.states.length
    · rw [List.getElem?_append_left below, if_neg (by omega)]
    · rw [List.getElem?_eq_none (by omega : s.states.length ≤ m),
        List.getElem?_append_right (by omega), List.getElem?_append]
      split <;> rename_i inside <;> simp only [List.length_replicate] at inside
      · simp [List.getElem?_replicate, inside, show m ≠ n by omega]
      · by_cases same : m = n
        · subst same
          simp
        · rw [List.getElem?_eq_none (by simp; omega)]
          simp [same]

@[simp] theorem state_with_world (s : Pipeline W) (w : W) (m : Nat) :
    ({ s with world := w } : Pipeline W).state m = s.state m := rfl

end Pipeline

variable {W : Type} (ops : Operators W) (children : Nat → List Nat)

/-- `ResetStream`: the stream's operator is reset, its result ignored, then each child's
stream in order; no node's `state` changes. -/
def resetStream : Nat → Nat → W → Option W
  | 0, _, _ => none
  | fuel + 1, stream, world =>
    (children stream).foldlM (fun world child => resetStream fuel child world)
      (ops.reset stream world).2

section Pull

variable (execute : Nat → Pipeline W → Option (OpResult × Pipeline W))

/-- Lines 476-483: run the streams in order until one returns `OP_OK`; the streams before it,
nearest first, and those after it, or `none` when every stream is run without `OP_OK`. -/
def advanceStreams : List Nat → List Nat → Pipeline W →
    Option (Option (List Nat × List Nat) × Pipeline W)
  | _, [], s => some (none, s)
  | before, stream :: after, s =>
    (execute stream s).bind fun (res, s) =>
      if res = .ok then some (some (before, after), s)
      else advanceStreams (stream :: before) after s

/-- Lines 491-498: run each stream whose node is still `StreamUnInitialized`; `false` as soon
as one does not return `OP_OK`. -/
def pullUninitialized : List Nat → Pipeline W → Option (Bool × Pipeline W)
  | [], s => some (true, s)
  | stream :: after, s =>
    if s.state stream = .unInitialized then
      (execute stream s).bind fun (res, s) =>
        if res = .ok then pullUninitialized after s else some (false, s)
    else pullUninitialized after s

/-- Lines 501-507: reset each stream and run it; `OP_ERR` as soon as one does not return
`OP_OK`. -/
def resetAndPull (reset : Nat → W → Option W) :
    List Nat → Pipeline W → Option (OpResult × Pipeline W)
  | [], s => some (.ok, s)
  | stream :: before, s =>
    (reset stream s.world).bind fun world =>
      (execute stream { s with world }).bind fun (res, s) =>
        if res = .ok then resetAndPull reset before s else some (.err, s)

/-- `PullFromStreams(source)`, with `execute` for `_ExecuteOpNode` and `reset` for
`ResetStream`. -/
def pullFromStreams (reset : Nat → W → Option W) (source : Nat) (s : Pipeline W) :
    Option (OpResult × Pipeline W) :=
  (advanceStreams execute [] (children source) s).bind fun
    | (none, s) => some (.depleted, s)
    | (some (before, after), s) =>
      (pullUninitialized execute after s).bind fun
        | (false, s) => some (.depleted, s)
        | (true, s) => resetAndPull execute reset before s

end Pull

/-- `_ExecuteOpNode(node)`; each pass through the label `consume` spends one unit of fuel. -/
def executeOpNode : Nat → Nat → Pipeline W → Option (OpResult × Pipeline W)
  | 0, _, _ => none
  | fuel + 1, node, s =>
    let s := s.setState node .consuming
    let (res, world) := ops.consume node s.world
    let s := { s with world }
    if res = .refresh then
      let (reset, world) := ops.reset node s.world
      let s := { s with world }
      if reset = .ok then
        (pullFromStreams children (executeOpNode fuel) (resetStream ops children fuel) node
          s).bind fun (res, s) => if res = .ok then executeOpNode fuel node s else some (res, s)
      else some (.err, s)
    else some (res, s)

/-- `ExecutionPlan_Execute`: `_ExecuteOpNode(root)` until it returns other than `OP_OK`. -/
def executionPlanExecute (root : Nat) : Nat → Pipeline W → Option (Pipeline W)
  | 0, _ => none
  | fuel + 1, s =>
    (executeOpNode ops children fuel root s).bind fun (res, s) =>
      if res = .ok then executionPlanExecute root fuel s else some s

/-- `k` successive calls of `call`, each on the state the one before left, with their results. -/
def repeatCalls (call : Pipeline W → Option (OpResult × Pipeline W)) :
    Nat → Pipeline W → Option (List (OpResult × Pipeline W))
  | 0, _ => some []
  | k + 1, s => (call s).bind fun (r, s') => (repeatCalls call k s').map ((r, s') :: ·)

theorem executeOpNode_succ_eq (fuel node : Nat) (s : Pipeline W) :
    executeOpNode ops children (fuel + 1) node s =
      if (ops.consume node s.world).1 = .refresh then
        if (ops.reset node (ops.consume node s.world).2).1 = .ok then
          (pullFromStreams children (executeOpNode ops children fuel)
            (resetStream ops children fuel) node { s.setState node .consuming with
              world := (ops.reset node (ops.consume node s.world).2).2 }).bind
            fun r => if r.1 = .ok then executeOpNode ops children fuel node r.2 else some r
        else some (.err, { s.setState node .consuming with
          world := (ops.reset node (ops.consume node s.world).2).2 })
      else some ((ops.consume node s.world).1,
        { s.setState node .consuming with world := (ops.consume node s.world).2 }) := by
  rw [executeOpNode.eq_2]
  rfl

variable {ops children} in
/-- One pass through the label `consume` ends the call, fails in a `reset` with `OP_ERR`, or runs
`PullFromStreams`, after whose `OP_OK` the next pass ends the call. -/
theorem executeOpNode_succ_cases {fuel node : Nat} {s s' : Pipeline W} {res : OpResult}
    (runs : executeOpNode ops children (fuel + 1) node s = some (res, s')) :
    (res = (ops.consume node s.world).1 ∧ s'.world = (ops.consume node s.world).2) ∨
    (res = .err ∧ s'.world = (ops.reset node (ops.consume node s.world).2).2) ∨
    ∃ r s₂, pullFromStreams children (executeOpNode ops children fuel)
        (resetStream ops children fuel) node { s.setState node .consuming with
          world := (ops.reset node (ops.consume node s.world).2).2 } = some (r, s₂) ∧
      (r ≠ .ok ∧ res = r ∧ s' = s₂ ∨
        r = .ok ∧ executeOpNode ops children fuel node s₂ = some (res, s')) := by
  rw [executeOpNode_succ_eq] at runs
  split at runs
  · split at runs
    · obtain ⟨⟨r, s₂⟩, pulled, rest⟩ := Option.bind_eq_some.mp runs
      refine .inr (.inr ⟨r, s₂, pulled, ?_⟩)
      dsimp only at rest
      split at rest
      · exact .inr ⟨‹_›, rest⟩
      · cases rest
        exact .inl ⟨‹_›, rfl, rfl⟩
    · cases runs
      exact .inr (.inl ⟨rfl, rfl⟩)
  · cases runs
    exact .inl ⟨rfl, rfl⟩

/-! ### Where `OP_ERR` and `OP_DEPLETED` come from -/

section Failures

variable {execute : Nat → Pipeline W → Option (OpResult × Pipeline W)}
  {reset : Nat → W → Option W}

theorem resetAndPull_err_iff {before : List Nat} {s s' : Pipeline W} :
    resetAndPull execute reset before s = some (.err, s') ↔
      ∃ pre stream post s₁ w res, before = pre ++ stream :: post ∧
        resetAndPull execute reset pre s = some (.ok, s₁) ∧ reset stream s₁.world = some w ∧
        execute stream { s₁ with world := w } = some (res, s') ∧ res ≠ .ok := by
  induction before generalizing s with
  | nil => simp [resetAndPull]
  | cons stream before ih =>
    simp only [resetAndPull, Option.bind_eq_some, Prod.exists]
    constructor
    · rintro ⟨w, reset₁, res, s₁, ran, rest⟩
      split at rest
      · obtain ⟨pre, stream', post, s₂, w', res', rfl, first, more⟩ := ih.mp rest
        exact ⟨stream :: pre, stream', post, s₂, w', res', rfl,
          by simp [resetAndPull, reset₁, ran, *, first], more⟩
      · cases rest
        exact ⟨[], stream, before, s, w, res, rfl, rfl, reset₁, ran, ‹_›⟩
    · rintro ⟨_ | ⟨first, pre⟩, stream', post, s₁, w, res, same, pulled, reset₁, ran, failed⟩
      · cases pulled
        obtain ⟨rfl, rfl⟩ := List.cons.inj same
        exact ⟨w, reset₁, res, s', ran, by simp [failed]⟩
      · obtain ⟨rfl, rfl⟩ := List.cons.inj same
        simp only [resetAndPull, Option.bind_eq_some, Prod.exists] at pulled
        obtain ⟨w₀, reset₀, res₀, s₀, ran₀, rest⟩ := pulled
        split at rest
        · exact ⟨w₀, reset₀, res₀, s₀, ran₀, by
            rw [if_pos ‹_›]
            exact ih.mpr ⟨pre, stream', post, s₁, w, res, rfl, rest, reset₁, ran, failed⟩⟩
        · cases rest

theorem pullUninitialized_false_iff {after : List Nat} {s s' : Pipeline W} :
    pullUninitialized execute after s = some (false, s') ↔
      ∃ pre stream post s₁ res, after = pre ++ stream :: post ∧
        pullUninitialized execute pre s = some (true, s₁) ∧ s₁.state stream = .unInitialized ∧
        execute stream s₁ = some (res, s') ∧ res ≠ .ok := by
  induction after generalizing s with
  | nil => simp [pullUninitialized]
  | cons stream after ih =>
    unfold pullUninitialized
    split
    · rename_i fresh
      simp only [Option.bind_eq_some, Prod.exists]
      constructor
      · rintro ⟨res, s₁, ran, rest⟩
        split at rest
        · obtain ⟨pre, stream', post, s₂, res', rfl, first, fresh', more⟩ := ih.mp rest
          refine ⟨stream :: pre, stream', post, s₂, res', rfl, ?_, fresh', more⟩
          simp [pullUninitialized, fresh, ran, *, first]
        · cases rest
          exact ⟨[], stream, after, s, res, rfl, rfl, fresh, ran, ‹_›⟩
      · rintro ⟨_ | ⟨first, pre⟩, stream', post, s₁, res, same, pulled, fresh', ran, failed⟩
        · cases pulled
          obtain ⟨rfl, rfl⟩ := List.cons.inj same
          exact ⟨res, s', ran, by simp [failed]⟩
        · obtain ⟨rfl, rfl⟩ := List.cons.inj same
          simp only [pullUninitialized, fresh, if_true, Option.bind_eq_some, Prod.exists] at pulled
          obtain ⟨res₀, s₀, ran₀, rest⟩ := pulled
          split at rest
          · exact ⟨res₀, s₀, ran₀, by
              rw [if_pos ‹_›]
              exact ih.mpr ⟨pre, stream', post, s₁, res, rfl, rest, fresh', ran, failed⟩⟩
          · cases rest
    · rename_i initialized
      constructor
      · intro rest
        obtain ⟨pre, stream', post, s₂, res', rfl, first, fresh', more⟩ := ih.mp rest
        refine ⟨stream :: pre, stream', post, s₂, res', rfl, ?_, fresh', more⟩
        simp [pullUninitialized, initialized, first]
      · rintro ⟨_ | ⟨first, pre⟩, stream', post, s₁, res, same, pulled, fresh', ran, failed⟩
        · cases pulled
          obtain ⟨rfl, rfl⟩ := List.cons.inj same
          exact absurd fresh' initialized
        · obtain ⟨rfl, rfl⟩ := List.cons.inj same
          simp only [pullUninitialized, initialized, if_false] at pulled
          exact ih.mpr ⟨pre, stream', post, s₁, res, rfl, pulled, fresh', ran, failed⟩

theorem resetAndPull_ne_depleted {before : List Nat} {s s' : Pipeline W} :
    resetAndPull execute reset before s ≠ some (.depleted, s') := by
  induction before generalizing s with
  | nil => simp [resetAndPull]
  | cons stream before ih =>
    simp only [resetAndPull, ne_eq, Option.bind_eq_some, Prod.exists, not_exists, not_and]
    intro w _ res s₁ _
    split
    · exact ih
    · simp

end Failures

/-! ### More fuel gives the same result -/

def Agrees {α β γ : Type} (f g : α → β → Option γ) : Prop :=
  ∀ a b r, f a b = some r → g a b = some r

section Mono

variable {ops children}

theorem foldlM_agrees {α β : Type} {f g : β → α → Option β} (agrees : ∀ b a r, f b a = some r →
    g b a = some r) {l : List α} {b r : β} (fold : l.foldlM f b = some r) :
    l.foldlM g b = some r := by
  induction l generalizing b with
  | nil => exact fold
  | cons a l ih =>
    obtain ⟨b₁, first, rest⟩ := Option.bind_eq_some.mp fold
    exact Option.bind_eq_some.mpr ⟨b₁, agrees _ _ _ first, ih rest⟩

theorem resetStream_succ {fuel : Nat} : Agrees (resetStream ops children fuel)
    (resetStream ops children (fuel + 1)) := by
  induction fuel with
  | zero => intro _ _ _ runs; cases runs
  | succ fuel ih => exact fun _ _ _ runs => foldlM_agrees (fun _ _ _ => ih _ _ _) runs

variable {execute execute' : Nat → Pipeline W → Option (OpResult × Pipeline W)}
  (more : Agrees execute execute')

include more in
theorem advanceStreams_agrees {before after : List Nat} {s : Pipeline W}
    {r : Option (List Nat × List Nat) × Pipeline W}
    (runs : advanceStreams execute before after s = some r) :
    advanceStreams execute' before after s = some r := by
  induction after generalizing before s with
  | nil => exact runs
  | cons stream after ih =>
    obtain ⟨⟨res, s₁⟩, first, rest⟩ := Option.bind_eq_some.mp runs
    refine Option.bind_eq_some.mpr ⟨(res, s₁), more _ _ _ first, ?_⟩
    dsimp only at rest ⊢
    split at rest
    · rwa [if_pos ‹_›]
    · rw [if_neg ‹_›]
      exact ih rest

include more in
theorem pullUninitialized_agrees {after : List Nat} {s : Pipeline W} {r : Bool × Pipeline W}
    (runs : pullUninitialized execute after s = some r) :
    pullUninitialized execute' after s = some r := by
  induction after generalizing s with
  | nil => exact runs
  | cons stream after ih =>
    simp only [pullUninitialized] at runs ⊢
    split at runs
    · rw [if_pos ‹_›]
      obtain ⟨⟨res, s₁⟩, first, rest⟩ := Option.bind_eq_some.mp runs
      refine Option.bind_eq_some.mpr ⟨(res, s₁), more _ _ _ first, ?_⟩
      dsimp only at rest ⊢
      split at rest
      · rw [if_pos ‹_›]
        exact ih rest
      · rwa [if_neg ‹_›]
    · rw [if_neg ‹_›]
      exact ih runs

include more in
theorem resetAndPull_agrees {reset reset' : Nat → W → Option W} (resets : Agrees reset reset')
    {before : List Nat} {s : Pipeline W} {r : OpResult × Pipeline W}
    (runs : resetAndPull execute reset before s = some r) :
    resetAndPull execute' reset' before s = some r := by
  induction before generalizing s with
  | nil => exact runs
  | cons stream before ih =>
    obtain ⟨world, rewound, rest⟩ := Option.bind_eq_some.mp runs
    obtain ⟨⟨res, s₁⟩, first, rest⟩ := Option.bind_eq_some.mp rest
    refine Option.bind_eq_some.mpr ⟨world, resets _ _ _ rewound,
      Option.bind_eq_some.mpr ⟨(res, s₁), more _ _ _ first, ?_⟩⟩
    dsimp only at rest ⊢
    split at rest
    · rw [if_pos ‹_›]
      exact ih rest
    · rwa [if_neg ‹_›]

include more in
theorem pullFromStreams_agrees {reset reset' : Nat → W → Option W} (resets : Agrees reset reset')
    {source : Nat} {s : Pipeline W} {r : OpResult × Pipeline W}
    (runs : pullFromStreams children execute reset source s = some r) :
    pullFromStreams children execute' reset' source s = some r := by
  obtain ⟨⟨advanced, s₁⟩, first, rest⟩ := Option.bind_eq_some.mp runs
  refine Option.bind_eq_some.mpr ⟨_, advanceStreams_agrees more first, ?_⟩
  rcases advanced with _ | ⟨before, after⟩
  · exact rest
  · obtain ⟨⟨fresh, s₂⟩, second, rest⟩ := Option.bind_eq_some.mp rest
    refine Option.bind_eq_some.mpr ⟨_, pullUninitialized_agrees more second, ?_⟩
    cases fresh
    · exact rest
    · exact resetAndPull_agrees more resets rest

theorem executeOpNode_succ {fuel : Nat} : Agrees (executeOpNode ops children fuel)
    (executeOpNode ops children (fuel + 1)) := by
  induction fuel with
  | zero => intro _ _ _ runs; cases runs
  | succ fuel ih =>
    intro node s r runs
    rw [executeOpNode.eq_2] at runs ⊢
    generalize ops.consume node _ = consumed at runs ⊢
    obtain ⟨res, world⟩ := consumed
    dsimp only at runs ⊢
    split at runs
    · rw [if_pos ‹_›]
      split at runs
      · rw [if_pos ‹_›]
        obtain ⟨⟨res, s₁⟩, pulled, rest⟩ := Option.bind_eq_some.mp runs
        refine Option.bind_eq_some.mpr ⟨_, pullFromStreams_agrees ih resetStream_succ pulled, ?_⟩
        dsimp only at rest ⊢
        split at rest
        · rw [if_pos ‹_›]
          exact ih _ _ _ rest
        · rwa [if_neg ‹_›]
      · rwa [if_neg ‹_›]
    · rwa [if_neg ‹_›]

theorem executeOpNode_mono {fuel fuel' node : Nat} {s : Pipeline W} {r : OpResult × Pipeline W}
    (more : fuel ≤ fuel') (runs : executeOpNode ops children fuel node s = some r) :
    executeOpNode ops children fuel' node s = some r := by
  induction more with
  | refl => exact runs
  | step _ ih => exact executeOpNode_succ _ _ _ ih

/-- `_ExecuteOpNode` is deterministic: two fuels that both suffice give the same result. -/
theorem executeOpNode_deterministic {fuel fuel' node : Nat} {s : Pipeline W}
    {r r' : OpResult × Pipeline W} (runs : executeOpNode ops children fuel node s = some r)
    (runs' : executeOpNode ops children fuel' node s = some r') : r = r' := by
  rcases Nat.le_total fuel fuel' with le | le
  · exact Option.some.inj ((executeOpNode_mono le runs).symm.trans runs')
  · exact Option.some.inj (runs.symm.trans (executeOpNode_mono le runs'))

/-- From a state of a set in which `_ExecuteOpNode(root)` always returns `OP_OK` into the set
again, the `while` loop of `ExecutionPlan_Execute` never ends. -/
theorem executionPlanExecute_eq_none_of_looping {root : Nat} {Looping : Pipeline W → Prop}
    (loops : ∀ s, Looping s →
      ∃ fuel s', Looping s' ∧ executeOpNode ops children fuel root s = some (.ok, s'))
    (fuel : Nat) {s : Pipeline W} (start : Looping s) :
    executionPlanExecute ops children root fuel s = none := by
  induction fuel generalizing s with
  | zero => rfl
  | succ fuel ih =>
    obtain ⟨enough, s', next, runs⟩ := loops s start
    simp only [executionPlanExecute]
    cases round : executeOpNode ops children fuel root s with
    | none => rfl
    | some r =>
      cases executeOpNode_deterministic runs round
      exact ih next

end Mono

end RedisGraph.Exec
