import RedisGraph.Exec.Execute

/-! Operators of the kind the executor is written for: scans that yield a list of tuples after
each reset, and flat-maps that, after each successful refresh, yield once the combination of
their children's current tuples and then ask for a refresh. Each keeps a cursor; a flat-map
knows whether one of its children yielded since its last reset. `ProduceResults` is a flat-map
that also adds its tuple to the result set. -/

namespace RedisGraph.Exec

/-- What one operator of a plan does. -/
inductive Behaviour where
  | scan (tuples : List Nat)
  | flatMap
  | produceResults
  | failing
deriving DecidableEq, Repr

/-- An operator's cursor: the scan position, the current tuple, whether a reset armed it, and
whether a child yielded since that reset. -/
structure Cursor where
  position : Nat
  current : List Nat
  armed : Bool
  advanced : Bool
deriving DecidableEq, Repr

def Cursor.start : Cursor := ⟨0, [], false, false⟩

structure Cursors where
  cursors : List Cursor
  resultSet : List (List Nat)
deriving DecidableEq, Repr

namespace Cursors

def cursor (w : Cursors) (n : Nat) : Cursor :=
  w.cursors.getD n Cursor.start

def modify (w : Cursors) (n : Nat) (f : Cursor → Cursor) : Cursors :=
  { w with cursors :=
      (w.cursors ++ List.replicate (n + 1 - w.cursors.length) Cursor.start).modify f n }

@[simp] theorem resultSet_modify (w : Cursors) (n : Nat) (f : Cursor → Cursor) :
    (w.modify n f).resultSet = w.resultSet := rfl

theorem cursor_with_resultSet (w : Cursors) (rs : List (List Nat)) (n : Nat) :
    ({ w with resultSet := rs } : Cursors).cursor n = w.cursor n := rfl

theorem cursor_modify (w : Cursors) (n : Nat) (f : Cursor → Cursor) (k : Nat) :
    (w.modify n f).cursor k = if n = k then f (w.cursor k) else w.cursor k := by
  have pad (i : Nat) : (w.cursors ++ List.replicate (n + 1 - w.cursors.length)
      Cursor.start)[i]?.getD Cursor.start = w.cursors[i]?.getD Cursor.start := by
    rw [List.getElem?_append]
    split
    · rfl
    · rw [List.getElem?_eq_none (by omega : w.cursors.length ≤ i), List.getElem?_replicate]
      split <;> rfl
  simp only [cursor, modify, List.getD_eq_getElem?_getD, List.getElem?_modify]
  split
  · subst k
    have padded := pad n
    rw [List.getElem?_eq_getElem (by simp; omega)] at padded ⊢
    simp only [Option.getD_some] at padded
    simp [padded]
  · simpa using pad k

end Cursors

structure StreamPlan where
  behaviour : List Behaviour
  children : List (List Nat)

namespace StreamPlan

variable (p : StreamPlan)

def childrenOf (n : Nat) : List Nat := p.children.getD n []

def behaviourOf (n : Nat) : Behaviour := p.behaviour.getD n (.scan [])

def parentsOf (n : Nat) : List Nat :=
  (List.range p.children.length).filter (n ∈ p.childrenOf ·)

/-- Node `n` yields tuple `t`: its cursor moves by `f` and takes `t`, and every parent learns
that a child yielded. -/
def emit (w : Cursors) (n : Nat) (t : List Nat) (f : Cursor → Cursor) : Cursors :=
  (p.parentsOf n).foldl (fun w q => w.modify q fun c => { c with advanced := true })
    (w.modify n fun c => { f c with current := t })

def consume (n : Nat) (w : Cursors) : OpResult × Cursors :=
  match p.behaviourOf n with
  | .scan tuples =>
    match tuples[(w.cursor n).position]? with
    | some t => (.ok, p.emit w n [t] fun c => { c with position := c.position + 1 })
    | none => (.depleted, w)
  | .failing => (.err, w)
  | behaviour =>
    if (w.cursor n).armed && (w.cursor n).advanced then
      let t := (p.childrenOf n).flatMap fun child => (w.cursor child).current
      let w := p.emit w n t fun c => { c with armed := false }
      (.ok, if behaviour = .produceResults then { w with resultSet := w.resultSet ++ [t] } else w)
    else (.refresh, w.modify n fun c => { c with armed := false })

def reset (n : Nat) (w : Cursors) : OpResult × Cursors :=
  match p.behaviourOf n with
  | .scan _ => (.ok, w.modify n fun c => { c with position := 0 })
  | .failing => (.ok, w)
  | _ => (.ok, w.modify n fun c => { c with armed := true, advanced := false })

def operators : Operators Cursors := ⟨p.consume, p.reset⟩

def start : Pipeline Cursors :=
  ⟨⟨List.replicate p.children.length Cursor.start, []⟩, []⟩

/-- The state a freshly built operator starts in: a scan at its first tuple, a flat-map with no
current tuple, waiting for a child to yield. -/
def initial (n : Nat) : Cursor :=
  match p.behaviourOf n with
  | .scan _ => Cursor.start
  | _ => ⟨0, [], true, false⟩

/-- The same operators, with a `reset` that puts the operator back in its initial state. -/
def restartOperators : Operators Cursors :=
  ⟨p.consume, fun n w => (.ok, w.modify n fun _ => p.initial n)⟩

def fresh : Pipeline Cursors :=
  ⟨⟨(List.range p.children.length).map p.initial, []⟩, []⟩

theorem restartOperators_reset (n : Nat) (w : Cursors) :
    (p.restartOperators.reset n w).2.resultSet = w.resultSet ∧ ∀ k,
      (p.restartOperators.reset n w).2.cursor k = if n = k then p.initial k else w.cursor k :=
  ⟨rfl, fun k => by by_cases same : n = k <;> simp [restartOperators, Cursors.cursor_modify, same]⟩

theorem fresh_cursor {n : Nat} (made : n < p.children.length) :
    p.fresh.world.cursor n = p.initial n := by
  simp [fresh, Cursors.cursor, made]

theorem consume_err {n : Nat} {w : Cursors} (errs : (p.consume n w).1 = .err) :
    p.behaviourOf n = .failing := by
  unfold consume at errs
  split at errs
  · split at errs <;> cases errs
  · assumption
  · split at errs <;> cases errs

theorem reset_ok (n : Nat) (w : Cursors) : (p.reset n w).1 = .ok := by
  unfold reset
  split <;> rfl

theorem consume_scan {n : Nat} {tuples : List Nat} (scans : p.behaviourOf n = .scan tuples)
    (w : Cursors) : (p.consume n w).1 =
      if (w.cursor n).position < tuples.length then .ok else .depleted := by
  unfold consume
  rw [scans]
  dsimp only
  split
  · rename_i found
    simp [(List.getElem?_eq_some_iff.mp found).1]
  · rename_i missing
    simp [Nat.not_lt.mpr (List.getElem?_eq_none_iff.mp missing)]

theorem consume_flatMap {n : Nat} (combines : p.behaviourOf n = .flatMap ∨
    p.behaviourOf n = .produceResults) (w : Cursors) :
    (p.consume n w).1 = if (w.cursor n).armed && (w.cursor n).advanced then .ok else .refresh := by
  unfold consume
  rcases combines with same | same <;> rw [same] <;> dsimp only <;> split <;> rfl

def combinations : List (List (List Nat)) → List (List Nat)
  | [] => [[]]
  | rows :: rest => (combinations rest).flatMap fun tail => rows.map (· ++ tail)

/-- The rows of the nested-loop reading of the plan: a scan's tuples, and for a flat-map one row
for each combination of its children's rows; `depth` bounds the recursion. -/
def nestedLoopRows : Nat → Nat → List (List Nat)
  | 0, _ => []
  | depth + 1, n =>
    match p.behaviourOf n with
    | .scan tuples => tuples.map ([·])
    | .failing => []
    | _ => combinations ((p.childrenOf n).map (nestedLoopRows depth))

end StreamPlan

/-- `ProduceResults` over a flat-map of the scans `[20]` and `[40]`, and the scan `[30, 31]`. -/
def nestedPlan : StreamPlan :=
  ⟨[.produceResults, .flatMap, .scan [20], .scan [30, 31], .scan [40]],
    [[1, 3], [2, 4], [], [], []]⟩

/-- After the scan `[30, 31]` moves on, `ResetStream` leaves the scan `[40]` `StreamConsuming`, so
the flat-map yields `[20, 40]` again: the row `[20, 40, 31]` comes out twice. -/
theorem nestedPlan_row_twice :
    nestedPlan.nestedLoopRows 3 0 = [[20, 40, 30], [20, 40, 31]] ∧
    (executionPlanExecute nestedPlan.operators nestedPlan.childrenOf 0 30 nestedPlan.start).map
      (·.world.resultSet) = some [[20, 40, 30], [20, 40, 31], [20, 40, 31]] :=
  ⟨rfl, rfl⟩

def swallowPlan : StreamPlan :=
  ⟨[.produceResults, .scan [10], .failing], [[1, 2], [], []]⟩

def emptyPlan : StreamPlan :=
  ⟨[.produceResults, .scan [], .scan [20]], [[1, 2], [], []]⟩

/-- Node 2, the scan `[20, 21]`, is a child of both the root and node 1. -/
def sharedPlan : StreamPlan :=
  ⟨[.flatMap, .flatMap, .scan [20, 21], .scan [], .scan [40]], [[1, 2], [4, 3, 2], [], [], []]⟩

def sharedRound (tuple : Nat) : Pipeline Cursors :=
  ⟨⟨[⟨0, [40, tuple, tuple], false, true⟩, ⟨0, [40, tuple], false, true⟩,
      ⟨0, [tuple], false, false⟩, ⟨0, [], false, false⟩, ⟨1, [40], false, false⟩], []⟩,
    List.replicate 5 .consuming⟩

/-- On `sharedPlan` every round from the second on returns `OP_OK` into the same state. -/
theorem sharedPlan_never_ends :
    ¬ ∃ fuel, (executionPlanExecute sharedPlan.operators sharedPlan.childrenOf 0 fuel
      sharedPlan.start).isSome := by
  have loops : ∀ s, (s = sharedPlan.start ∨ s = sharedRound 20 ∨ s = sharedRound 21) →
      ∃ fuel s', (s' = sharedPlan.start ∨ s' = sharedRound 20 ∨ s' = sharedRound 21) ∧
        executeOpNode sharedPlan.operators sharedPlan.childrenOf fuel 0 s = some (.ok, s') := by
    rintro s (rfl | rfl | rfl)
    · exact ⟨8, _, .inr (.inl rfl), rfl⟩
    · exact ⟨8, _, .inr (.inr rfl), rfl⟩
    · exact ⟨8, _, .inr (.inr rfl), rfl⟩
  rintro ⟨fuel, ends⟩
  rw [executionPlanExecute_eq_none_of_looping loops fuel (.inl rfl)] at ends
  cases ends

def pairPlan : StreamPlan :=
  ⟨[.flatMap, .scan [20], .scan [40]], [[1, 2], [], []]⟩

/-- A call of `_ExecuteOpNode(0)` on `pairPlan` with restoring resets: its result and the
combination the flat-map holds after it. -/
def pairRounds (k : Nat) (s : Pipeline Cursors) : Option (List (OpResult × List Nat)) :=
  (repeatCalls (executeOpNode pairPlan.restartOperators pairPlan.childrenOf 4 0) k s).map
    (·.map fun (r, s) => (r, (s.world.cursor 0).current))

/-- After two calls `ResetStream(0)` restores every operator but leaves the scans `StreamConsuming`,
so the stream yields twice where a fresh copy yields once. -/
theorem pairPlan_resetStream_keeps_states :
    ∃ s, (repeatCalls (executeOpNode pairPlan.restartOperators pairPlan.childrenOf 4 0) 2
        pairPlan.fresh).bind List.getLast? = some (.depleted, s) ∧
      resetStream pairPlan.restartOperators pairPlan.childrenOf 4 0 s.world =
        some pairPlan.fresh.world ∧
      pairRounds 3 ⟨pairPlan.fresh.world, s.states⟩ =
        some [(.ok, [20]), (.ok, [20, 40]), (.depleted, [])] ∧
      pairRounds 3 pairPlan.fresh = some [(.ok, [20, 40]), (.depleted, []), (.depleted, [])] :=
  ⟨_, rfl, rfl, rfl, rfl⟩

end RedisGraph.Exec
