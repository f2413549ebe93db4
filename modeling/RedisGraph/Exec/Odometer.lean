import RedisGraph.Exec.Termination
import Mathlib.Algebra.BigOperators.Ring.List
import Mathlib.Algebra.Order.Ring.Nat

/-! `PullFromStreams` over leaf streams (lines 471-511). With distinct, fresh children that each
return the elements of a finite sequence and then `OP_DEPLETED` until reset, the first call
initializes every child, and each later call moves the first child that has an element left
and restarts the ones before it. The children's positions step like an odometer, child 0
fastest, and their current elements run through the product of the sequences once each, in
that order. A child listed twice moves twice per call, and the product is not enumerated. -/

namespace RedisGraph.Exec

/-- The product of `xss` in odometer order: the first list varies fastest. -/
def odometer {α : Type} : List (List α) → List (List α)
  | [] => [[]]
  | xs :: xss => (odometer xss).flatMap fun tail => xs.map (· :: tail)

theorem length_odometer {α : Type} (xss : List (List α)) :
    (odometer xss).length = (xss.map List.length).prod := by
  induction xss with
  | nil => rfl
  | cons xs xss ih =>
    simp [odometer, List.length_flatMap, Function.comp_def, List.sum_const_nat, ih, Nat.mul_comm]

/-- One call of `PullFromStreams` on initialized leaves at positions `ps`: the first child with an
element left takes it and those before it restart; `none` when none has one left. -/
def incr : List Nat → List Nat → Option (List Nat)
  | n :: lens, p :: ps => if p < n then some ((p + 1) :: ps) else (incr lens ps).map (1 :: ·)
  | _, _ => none

/-- `a` and then `L` are the positions `incr lens` steps through, until it stops. -/
inductive IncrRun (lens : List Nat) : List Nat → List (List Nat) → Prop
  | stop {a : List Nat} (last : incr lens a = none) : IncrRun lens a []
  | step {a b : List Nat} {L : List (List Nat)} (next : incr lens a = some b)
      (rest : IncrRun lens b L) : IncrRun lens a (b :: L)

section Odometer

variable {n : Nat} {lens a : List Nat} {L : List (List Nat)}

theorem IncrRun.turn {R : List (List Nat)} (atEnd : IncrRun (n :: lens) (n :: a) R) :
    ∀ k p, p + k = n → IncrRun (n :: lens) (p :: a) ((List.range' (p + 1) k).map (· :: a) ++ R)
  | 0, p, full => by simpa [← full] using atEnd
  | k + 1, p, full => by
    refine .step (b := (p + 1) :: a) (by simp [incr, show p < n by omega]) ?_
    simpa [List.range'_succ] using IncrRun.turn atEnd k (p + 1) (by omega)

theorem IncrRun.cons (run : IncrRun lens a L) (positive : 0 < n) :
    IncrRun (n :: lens) (n :: a) (L.flatMap fun t => (List.range' 1 n).map (· :: t)) := by
  induction run with
  | stop last => exact .stop (by simp [incr, last])
  | @step a b L next _ ih =>
    obtain ⟨m, rfl⟩ : ∃ m, n = m + 1 := ⟨n - 1, by omega⟩
    refine .step (b := 1 :: b) (by simp [incr, next]) ?_
    simpa [List.range'_succ] using ih.turn m 1 (by omega)

/-- With every sequence non-empty, the positions of the odometer over `1 .. n` for each length
`n` are the run of `incr` from all ones. -/
theorem odometer_incrRun (positive : ∀ n ∈ lens, 0 < n) :
    ∃ L, odometer (lens.map (List.range' 1 ·)) = List.replicate lens.length 1 :: L ∧
      IncrRun lens (List.replicate lens.length 1) L := by
  induction lens with
  | nil => exact ⟨[], rfl, .stop rfl⟩
  | cons n lens ih =>
    obtain ⟨L, same, run⟩ := ih fun m member => positive m (List.mem_cons_of_mem n member)
    have first : 0 < n := positive n (List.mem_cons_self n lens)
    obtain ⟨m, rfl⟩ : ∃ m, n = m + 1 := ⟨n - 1, by omega⟩
    refine ⟨(List.range' 2 m).map (· :: List.replicate lens.length 1) ++
      L.flatMap fun t => (List.range' 1 (m + 1)).map (· :: t), ?_, ?_⟩
    · simp [odometer, same, List.range'_succ, List.replicate_succ]
    · simpa [List.replicate_succ] using (run.cons first).turn m 1 (by omega)

theorem map_range'_getElem? {α : Type} (xs : List α) :
    (List.range' 1 xs.length).map (fun p => xs[p - 1]?) = xs.map some := by
  refine List.ext_getElem (by simp) fun i _ _ => ?_
  simp [List.getElem_range', Nat.add_sub_cancel_left]

theorem odometer_positions {α : Type} (cs : List Nat) (seqs : Nat → List α) :
    (odometer (cs.map fun c => List.range' 1 (seqs c).length)).map
        (List.zipWith (fun c p => (seqs c)[p - 1]?) cs) =
      (odometer (cs.map seqs)).map (List.map some) := by
  induction cs with
  | nil => rfl
  | cons c cs ih =>
    calc _ = ((odometer (cs.map fun c => List.range' 1 (seqs c).length)).map
            (List.zipWith (fun c p => (seqs c)[p - 1]?) cs)).flatMap
          fun t => ((List.range' 1 (seqs c).length).map fun p => (seqs c)[p - 1]?).map (· :: t) := by
          simp [odometer, List.map_flatMap, List.flatMap_map, Function.comp_def]
      _ = _ := by
          rw [ih, map_range'_getElem?]
          simp [odometer, List.map_flatMap, List.flatMap_map, Function.comp_def]

end Odometer

section Leaves

variable {W α : Type} (ops : Operators W) (children : Nat → List Nat)

/-- The children `cs` are leaf streams over `seqs`, at positions `pos`: `consume` returns `OP_OK`
while an element is left, `reset` rewinds, and neither moves another child. -/
structure LeafStreams (cs : List Nat) (seqs : Nat → List α) (pos : Nat → W → Nat) : Prop where
  childless : ∀ c ∈ cs, children c = []
  consume_ok : ∀ c ∈ cs, ∀ w, pos c w < (seqs c).length →
    (ops.consume c w).1 = .ok ∧ pos c (ops.consume c w).2 = pos c w + 1
  consume_depleted : ∀ c ∈ cs, ∀ w, (seqs c).length ≤ pos c w →
    (ops.consume c w).1 = .depleted ∧ pos c (ops.consume c w).2 = pos c w
  reset : ∀ c ∈ cs, ∀ w, pos c (ops.reset c w).2 = 0
  consume_other : ∀ c ∈ cs, ∀ d ∈ cs, d ≠ c → ∀ w, pos d (ops.consume c w).2 = pos d w
  reset_other : ∀ c ∈ cs, ∀ d ∈ cs, d ≠ c → ∀ w, pos d (ops.reset c w).2 = pos d w

/-- `PullFromStreams` from the point where the streams `before` (nearest first) ran without
`OP_OK` and the streams `after` are still to run. -/
def pullRest (execute : Nat → Pipeline W → Option (OpResult × Pipeline W))
    (reset : Nat → W → Option W) (before after : List Nat) (s : Pipeline W) :
    Option (OpResult × Pipeline W) :=
  (advanceStreams execute before after s).bind fun
    | (none, s) => some (.depleted, s)
    | (some (before, after), s) =>
      (pullUninitialized execute after s).bind fun
        | (false, s) => some (.depleted, s)
        | (true, s) => resetAndPull execute reset before s

theorem pullFromStreams_eq_pullRest (execute : Nat → Pipeline W → Option (OpResult × Pipeline W))
    (reset : Nat → W → Option W) (node : Nat) (s : Pipeline W) :
    pullFromStreams children execute reset node s = pullRest execute reset [] (children node) s :=
  rfl

variable {ops children} {execute : Nat → Pipeline W → Option (OpResult × Pipeline W)}
  {reset : Nat → W → Option W} {cs before after : List Nat} {seqs : Nat → List α}
  {pos : Nat → W → Nat} {c : Nat} {s s' : Pipeline W}

theorem pullRest_cons_ok (ran : execute c s = some (.ok, s')) :
    pullRest execute reset before (c :: after) s =
      (pullUninitialized execute after s').bind fun
        | (false, s) => some (.depleted, s)
        | (true, s) => resetAndPull execute reset before s := by
  simp [pullRest, advanceStreams, ran]

theorem pullRest_cons_other {r : OpResult} (ran : execute c s = some (r, s')) (other : r ≠ .ok) :
    pullRest execute reset before (c :: after) s = pullRest execute reset (c :: before) after s' := by
  simp [pullRest, advanceStreams, ran, other]

theorem pullUninitialized_initialized (initialized : ∀ d ∈ after, s.state d ≠ .unInitialized) :
    pullUninitialized execute after s = some (true, s) := by
  induction after with
  | nil => rfl
  | cons d after ih =>
    rw [pullUninitialized, if_neg (initialized d (List.mem_cons_self d after))]
    exact ih fun e member => initialized e (List.mem_cons_of_mem d member)

theorem LeafStreams.execute_eq (leaf : LeafStreams ops children cs seqs pos)
    (member : c ∈ cs) (fuel : Nat) (s : Pipeline W) :
    executeOpNode ops children (fuel + 1) c s = some ((ops.consume c s.world).1,
      { s.setState c .consuming with world := (ops.consume c s.world).2 }) := by
  rw [executeOpNode_succ_eq, if_neg]
  by_cases room : pos c s.world < (seqs c).length
  · simp [(leaf.consume_ok c member _ room).1]
  · simp [(leaf.consume_depleted c member _ (Nat.le_of_not_lt room)).1]

theorem LeafStreams.resetStream_eq (leaf : LeafStreams ops children cs seqs pos)
    (member : c ∈ cs) (fuel : Nat) (w : W) :
    resetStream ops children (fuel + 1) c w = some (ops.reset c w).2 := by
  simp [resetStream, leaf.childless c member]

theorem LeafStreams.pos_consume (leaf : LeafStreams ops children cs seqs pos)
    (member : c ∈ cs) {d : Nat} (other : d ∈ cs) (w : W) :
    pos d (ops.consume c w).2 =
      if d = c then (if pos c w < (seqs c).length then pos c w + 1 else pos c w) else pos d w := by
  by_cases same : d = c
  · subst same
    by_cases room : pos d w < (seqs d).length
    · simp [room, (leaf.consume_ok d member w room).2]
    · simp [room, (leaf.consume_depleted d member w (Nat.le_of_not_lt room)).2]
  · simp [same, leaf.consume_other c member d other same w]

theorem LeafStreams.pos_reset (leaf : LeafStreams ops children cs seqs pos)
    (member : c ∈ cs) {d : Nat} (other : d ∈ cs) (w : W) :
    pos d (ops.reset c w).2 = if d = c then 0 else pos d w := by
  by_cases same : d = c
  · subst same
    simp [leaf.reset d member w]
  · simp [same, leaf.reset_other c member d other same w]

theorem LeafStreams.consume_keeps_fresh (leaf : LeafStreams ops children cs seqs pos)
    (member : c ∈ cs) (sub : ∀ d ∈ after, d ∈ cs) (notIn : c ∉ after)
    (fresh : ∀ d ∈ c :: after, pos d s.world = 0 ∧ s.state d = .unInitialized) :
    ∀ d ∈ after, pos d (ops.consume c s.world).2 = 0 ∧
      ({ s.setState c .consuming with world := (ops.consume c s.world).2 } : Pipeline W).state d =
        .unInitialized := fun d inAfter => by
  have other : d ≠ c := fun same => notIn (same ▸ inAfter)
  simp [other, leaf.pos_consume member (sub d inAfter), fresh d (List.mem_cons_of_mem c inAfter)]

theorem LeafStreams.resetAndPull (leaf : LeafStreams ops children cs seqs pos) (fuel : Nat)
    (sub : ∀ d ∈ before, d ∈ cs) (distinct : before.Nodup)
    (nonempty : ∀ d ∈ before, 0 < (seqs d).length) (s : Pipeline W) :
    ∃ s', resetAndPull (executeOpNode ops children (fuel + 1))
        (resetStream ops children (fuel + 1)) before s = some (.ok, s') ∧
      ∀ d ∈ cs, pos d s'.world = (if d ∈ before then 1 else pos d s.world) ∧
        s'.state d = if d ∈ before then .consuming else s.state d := by
  induction before generalizing s with
  | nil => exact ⟨s, rfl, fun d _ => by simp⟩
  | cons b before ih =>
    have bMem : b ∈ cs := sub b (List.mem_cons_self b before)
    have rewound : pos b (ops.reset b s.world).2 = 0 := leaf.reset b bMem _
    obtain ⟨ok, moved⟩ := leaf.consume_ok b bMem (ops.reset b s.world).2
      (by rw [rewound]; exact nonempty b (List.mem_cons_self b before))
    obtain ⟨s', pulled, after⟩ := ih (fun d member => sub d (List.mem_cons_of_mem b member))
      (List.nodup_cons.mp distinct).2 (fun d member => nonempty d (List.mem_cons_of_mem b member))
      { ({ s with world := (ops.reset b s.world).2 } : Pipeline W).setState b .consuming with
        world := (ops.consume b (ops.reset b s.world).2).2 }
    refine ⟨s', ?_, fun d member => ?_⟩
    · simp [RedisGraph.Exec.resetAndPull, leaf.resetStream_eq bMem, leaf.execute_eq bMem, ok, pulled]
    · obtain ⟨atD, stateD⟩ := after d member
      rw [atD, stateD]
      by_cases inRest : d ∈ before
      · simp [inRest]
      · by_cases same : d = b
        · subst same
          simp [moved, rewound]
        · simp [inRest, same, leaf.pos_consume bMem member, leaf.pos_reset bMem member]

theorem LeafStreams.pullUninitialized (leaf : LeafStreams ops children cs seqs pos) (fuel : Nat)
    (sub : ∀ d ∈ after, d ∈ cs) (distinct : after.Nodup) (s : Pipeline W)
    (fresh : ∀ d ∈ after, pos d s.world = 0 ∧ s.state d = .unInitialized) :
    ∃ b s', pullUninitialized (executeOpNode ops children (fuel + 1)) after s = some (b, s') ∧
      (b = true ↔ ∀ d ∈ after, 0 < (seqs d).length) ∧
      (b = true → ∀ d ∈ cs, pos d s'.world = (if d ∈ after then 1 else pos d s.world) ∧
        s'.state d = if d ∈ after then .consuming else s.state d) := by
  induction after generalizing s with
  | nil => exact ⟨true, s, rfl, by simp, fun _ d _ => by simp⟩
  | cons c after ih =>
    have cMem : c ∈ cs := sub c (List.mem_cons_self c after)
    obtain ⟨atStart, unInit⟩ := fresh c (List.mem_cons_self c after)
    obtain ⟨notIn, nodup⟩ := List.nodup_cons.mp distinct
    by_cases room : 0 < (seqs c).length
    · obtain ⟨ok, moved⟩ := leaf.consume_ok c cMem s.world (by omega)
      have afterCs : ∀ d ∈ after, d ∈ cs := fun d member => sub d (List.mem_cons_of_mem c member)
      obtain ⟨b, s', pulled, iff, facts⟩ := ih afterCs nodup
        { s.setState c .consuming with world := (ops.consume c s.world).2 }
        (leaf.consume_keeps_fresh cMem afterCs notIn fresh)
      refine ⟨b, s', ?_, by simp [iff, room], fun isTrue d member => ?_⟩
      · simp [RedisGraph.Exec.pullUninitialized, unInit, leaf.execute_eq cMem, ok, pulled]
      · obtain ⟨atD, stateD⟩ := facts isTrue d member
        rw [atD, stateD]
        by_cases inRest : d ∈ after
        · simp [inRest]
        · by_cases same : d = c
          · subst same
            simp [inRest, moved, atStart]
          · simp [inRest, same, leaf.pos_consume cMem member]
    · refine ⟨false, { s.setState c .consuming with world := (ops.consume c s.world).2 }, ?_, ?_,
        fun isTrue => absurd isTrue Bool.false_ne_true⟩
      · simp [RedisGraph.Exec.pullUninitialized, unInit, leaf.execute_eq cMem,
          (leaf.consume_depleted c cMem s.world (by omega)).1]
      · simp only [Bool.false_eq_true, false_iff, not_forall]
        exact ⟨c, List.mem_cons_self c after, room⟩

/-- A call of `PullFromStreams` on initialized leaves with non-empty sequences is one step of
`incr`, from the point where the streams `before` ran depleted. -/
theorem LeafStreams.pullRest_step (leaf : LeafStreams ops children cs seqs pos) (fuel : Nat)
    (distinct : cs.Nodup) (nonempty : ∀ d ∈ cs, 0 < (seqs d).length) (after : List Nat) :
    ∀ (before : List Nat) (s : Pipeline W), before.reverse ++ after = cs →
    (∀ d ∈ cs, s.state d = .consuming) →
    (∀ ps, incr (after.map fun d => (seqs d).length) (after.map (pos · s.world)) = some ps →
      ∃ s', pullRest (executeOpNode ops children (fuel + 1)) (resetStream ops children (fuel + 1))
          before after s = some (.ok, s') ∧ (∀ d ∈ cs, s'.state d = .consuming) ∧
        cs.map (pos · s'.world) = List.replicate before.length 1 ++ ps) ∧
    (incr (after.map fun d => (seqs d).length) (after.map (pos · s.world)) = none →
      ∃ s', pullRest (executeOpNode ops children (fuel + 1)) (resetStream ops children (fuel + 1))
          before after s = some (.depleted, s')) := by
  induction after with
  | nil => exact fun before s _ _ => ⟨fun ps stops => by simp [incr] at stops, fun _ => ⟨s, rfl⟩⟩
  | cons c after ih =>
    intro before s split consuming
    have cMem : c ∈ cs := split ▸ by simp
    have beforeCs : ∀ d ∈ before, d ∈ cs := fun d member => split ▸ by simp [member]
    have afterCs : ∀ d ∈ after, d ∈ cs := fun d member => split ▸ by simp [member]
    rw [← split] at distinct
    simp only [List.nodup_append, List.nodup_reverse, List.nodup_cons, List.disjoint_cons_right,
      List.mem_reverse] at distinct
    obtain ⟨beforeNodup, ⟨cNotAfter, afterNodup⟩, cNotBefore, apart⟩ := distinct
    have ran := leaf.execute_eq cMem fuel s
    have consuming₁ : ∀ d ∈ cs,
        ({ s.setState c .consuming with world := (ops.consume c s.world).2 } : Pipeline W).state d =
          .consuming := fun d member => by simp [consuming d member]
    by_cases room : pos c s.world < (seqs c).length
    · obtain ⟨ok, moved⟩ := leaf.consume_ok c cMem s.world room
      rw [ok] at ran
      obtain ⟨s₂, pulled, facts⟩ := leaf.resetAndPull fuel beforeCs beforeNodup
        (fun d member => nonempty d (beforeCs d member))
        { s.setState c .consuming with world := (ops.consume c s.world).2 }
      refine ⟨fun ps step => ⟨s₂, ?_, fun d member => ?_, ?_⟩, fun stops => by simp [incr, room] at stops⟩
      · rw [pullRest_cons_ok ran, pullUninitialized_initialized fun d member => ?_]
        · exact pulled
        · rw [consuming₁ d (afterCs d member)]
          decide
      · rw [(facts d member).2]
        split
        · rfl
        · exact consuming₁ d member
      · simp only [incr, List.map_cons, if_pos room, Option.some.injEq] at step
        subst step
        rw [← split, List.map_append, List.map_cons]
        congr 1
        · refine List.eq_replicate_iff.mpr ⟨by simp, fun x member => ?_⟩
          obtain ⟨d, dMem, rfl⟩ := List.mem_map.mp member
          simpa [List.mem_reverse.mp dMem] using (facts d (beforeCs d (List.mem_reverse.mp dMem))).1
        · congr 1
          · simp [(facts c cMem).1, cNotBefore, moved]
          · refine List.map_congr_left fun d member => ?_
            have other : d ≠ c := fun same => cNotAfter (same ▸ member)
            have notBefore : d ∉ before := fun inBefore => apart (List.mem_reverse.mpr inBefore) member
            simp [(facts d (afterCs d member)).1, notBefore, other,
              leaf.pos_consume cMem (afterCs d member)]
    · obtain ⟨depleted, stays⟩ := leaf.consume_depleted c cMem s.world (Nat.le_of_not_lt room)
      rw [depleted] at ran
      have unmoved : after.map (pos · (ops.consume c s.world).2) = after.map (pos · s.world) :=
        List.map_congr_left fun d member => by
          have other : d ≠ c := fun same => cNotAfter (same ▸ member)
          simp [leaf.pos_consume cMem (afterCs d member), other]
      obtain ⟨someCase, noneCase⟩ := ih (c :: before) _ (by simp [← split]) consuming₁
      simp only [unmoved] at someCase noneCase
      rw [pullRest_cons_other ran (by decide)]
      refine ⟨fun ps step => ?_, fun stops => noneCase ?_⟩
      · simp only [incr, List.map_cons, if_neg room] at step
        obtain ⟨q, found, rfl⟩ := Option.map_eq_some'.mp step
        obtain ⟨s', pulled, states, positions⟩ := someCase q found
        exact ⟨s', pulled, states, by simp [positions, List.replicate_succ']⟩
      · simpa only [incr, room, ↓reduceIte, Option.map_eq_none'] using stops

/-- The first call on fresh leaves returns `OP_OK`, with every child at its first element,
exactly when no sequence is empty. -/
theorem LeafStreams.pullRest_first (leaf : LeafStreams ops children cs seqs pos) (fuel : Nat)
    (distinct : cs.Nodup) (after : List Nat) :
    ∀ (before : List Nat) (s : Pipeline W), before.reverse ++ after = cs →
    (∀ d ∈ before, (seqs d).length = 0) →
    (∀ d ∈ after, pos d s.world = 0 ∧ s.state d = .unInitialized) →
    ∃ r s', pullRest (executeOpNode ops children (fuel + 1)) (resetStream ops children (fuel + 1))
        before after s = some (r, s') ∧
      (r = .ok ↔ before = [] ∧ after ≠ [] ∧ ∀ d ∈ after, 0 < (seqs d).length) ∧
      (r = .ok → (∀ d ∈ cs, s'.state d = .consuming) ∧
        cs.map (pos · s'.world) = List.replicate cs.length 1) := by
  induction after with
  | nil => exact fun before s _ _ _ => ⟨.depleted, s, rfl, by simp, by simp⟩
  | cons c after ih =>
    intro before s split empty fresh
    have cMem : c ∈ cs := split ▸ by simp
    have afterCs : ∀ d ∈ after, d ∈ cs := fun d member => split ▸ by simp [member]
    obtain ⟨-, nodupRest, -⟩ := List.nodup_append.mp (split.symm ▸ distinct)
    obtain ⟨cNotAfter, afterNodup⟩ := List.nodup_cons.mp nodupRest
    obtain ⟨atStart, unInit⟩ := fresh c (List.mem_cons_self c after)
    have fresh₁ := leaf.consume_keeps_fresh cMem afterCs cNotAfter fresh
    have ran := leaf.execute_eq cMem fuel s
    by_cases room : 0 < (seqs c).length
    · obtain ⟨ok, moved⟩ := leaf.consume_ok c cMem s.world (by omega)
      rw [ok] at ran
      obtain ⟨b, s₂, pulled, iff, facts⟩ := leaf.pullUninitialized fuel afterCs afterNodup
        { s.setState c .consuming with world := (ops.consume c s.world).2 } fresh₁
      rw [pullRest_cons_ok ran, pulled]
      cases b with
      | false =>
        refine ⟨.depleted, s₂, rfl, ?_, by simp⟩
        simp only [Bool.false_eq_true, false_iff] at iff
        simp [iff]
      | true =>
        cases before with
        | nil =>
          have atD : ∀ d ∈ cs, pos d s₂.world = 1 ∧ s₂.state d = .consuming := fun d member => by
            rw [(facts rfl d member).1, (facts rfl d member).2]
            by_cases inAfter : d ∈ after
            · simp [inAfter]
            · have same : d = c := by simpa [← split, inAfter] using member
              subst same
              simp [inAfter, moved, atStart]
          refine ⟨.ok, s₂, rfl, by simpa [room] using iff.mp rfl,
            fun _ => ⟨fun d member => (atD d member).2, ?_⟩⟩
          refine List.eq_replicate_iff.mpr ⟨by simp, fun x member => ?_⟩
          obtain ⟨d, dMem, rfl⟩ := List.mem_map.mp member
          exact (atD d dMem).1
        | cons b before =>
          have bMem : b ∈ cs := split ▸ by simp
          have drained := leaf.consume_depleted b bMem (ops.reset b s₂.world).2
            (by rw [leaf.reset b bMem, empty b (List.mem_cons_self b before)])
          refine ⟨.err, { ({ s₂ with world := (ops.reset b s₂.world).2 } : Pipeline W).setState b
            .consuming with world := (ops.consume b (ops.reset b s₂.world).2).2 }, ?_, by simp, by simp⟩
          simp [Exec.resetAndPull, leaf.resetStream_eq bMem, leaf.execute_eq bMem, drained.1]
    · obtain ⟨depleted, -⟩ := leaf.consume_depleted c cMem s.world (by omega)
      rw [depleted] at ran
      obtain ⟨r, s', pulled, iff, -⟩ := ih (c :: before)
        { s.setState c .consuming with world := (ops.consume c s.world).2 } (by simp [← split])
        (List.forall_mem_cons.mpr ⟨by omega, empty⟩) fresh₁
      have notOk : r ≠ .ok := fun isOk => by simpa using iff.mp isOk
      rw [pullRest_cons_other ran (by decide), pulled]
      exact ⟨r, s', rfl, by simp [notOk, room], fun isOk => absurd isOk notOk⟩

/-- From initialized leaves at the start of a run `a :: L` of `incr`, successive calls of
`PullFromStreams(node)` return `OP_OK` at each position of `L`, then `OP_DEPLETED`. -/
theorem LeafStreams.repeatCalls_incrRun {node : Nat}
    (leaf : LeafStreams ops children (children node) seqs pos) (fuel : Nat)
    (distinct : (children node).Nodup) (nonempty : ∀ d ∈ children node, 0 < (seqs d).length)
    {a : List Nat} {L : List (List Nat)}
    (run : IncrRun ((children node).map fun d => (seqs d).length) a L) :
    ∀ s : Pipeline W, (∀ d ∈ children node, s.state d = .consuming) →
      (children node).map (pos · s.world) = a →
      ∃ rounds, repeatCalls (pullFromStreams children (executeOpNode ops children (fuel + 1))
          (resetStream ops children (fuel + 1)) node) (L.length + 1) s = some rounds ∧
        rounds.map (·.1) = List.replicate L.length .ok ++ [.depleted] ∧
        (rounds.take L.length).map (fun x => (children node).map (pos · x.2.world)) = L := by
  induction run with
  | stop last =>
    intro s consuming positions
    subst positions
    obtain ⟨s', pulled⟩ := (leaf.pullRest_step fuel distinct nonempty _ [] s rfl consuming).2 last
    exact ⟨[(.depleted, s')], by simp [repeatCalls, pullFromStreams_eq_pullRest, pulled], rfl, rfl⟩
  | step next _ ih =>
    intro s consuming positions
    subst positions
    obtain ⟨s₁, pulled, consuming₁, positions₁⟩ :=
      (leaf.pullRest_step fuel distinct nonempty _ [] s rfl consuming).1 _ next
    obtain ⟨rounds, calls, results, views⟩ := ih s₁ consuming₁ (by simpa using positions₁)
    refine ⟨(.ok, s₁) :: rounds, ?_, by simp [results, List.replicate_succ], ?_⟩
    · rw [List.length_cons, repeatCalls, pullFromStreams_eq_pullRest, pulled]
      simp [calls]
    · simpa [views] using positions₁

/-- With `k ≥ 1` distinct, fresh leaf children, `PullFromStreams(node)` returns `OP_OK` once for
each tuple of the product of their sequences, in odometer order, and then another status. -/
theorem pullFromStreams_odometer {node : Nat} {s : Pipeline W}
    (leaf : LeafStreams ops children (children node) seqs pos) (distinct : (children node).Nodup)
    (nonempty : children node ≠ [])
    (fresh : ∀ c ∈ children node, pos c s.world = 0 ∧ s.state c = .unInitialized) (fuel : Nat) :
    ∃ rounds r, repeatCalls (pullFromStreams children (executeOpNode ops children (fuel + 1))
        (resetStream ops children (fuel + 1)) node)
        (((children node).map fun c => (seqs c).length).prod + 1) s = some rounds ∧ r ≠ .ok ∧
      rounds.map (·.1) =
        List.replicate ((children node).map fun c => (seqs c).length).prod .ok ++ [r] ∧
      (rounds.take ((children node).map fun c => (seqs c).length).prod).map
          (fun x => (children node).map fun c => (seqs c)[pos c x.2.world - 1]?) =
        (odometer ((children node).map seqs)).map (List.map some) := by
  obtain ⟨r, s₁, pulled, iff, facts⟩ :=
    leaf.pullRest_first fuel distinct (children node) [] s rfl (by simp) fresh
  have first : pullFromStreams children (executeOpNode ops children (fuel + 1))
      (resetStream ops children (fuel + 1)) node s = some (r, s₁) := pulled
  by_cases allNonempty : ∀ d ∈ children node, 0 < (seqs d).length
  · obtain ⟨consuming₁, ones⟩ := facts (iff.mpr ⟨rfl, nonempty, allNonempty⟩)
    rw [iff.mpr ⟨rfl, nonempty, allNonempty⟩] at first
    have positive : ∀ n ∈ (children node).map fun d => (seqs d).length, 0 < n := by
      simpa only [List.mem_map, forall_exists_index, and_imp, forall_apply_eq_imp_iff₂]
        using allNonempty
    obtain ⟨L, positionsOdometer, run⟩ := odometer_incrRun positive
    obtain ⟨rounds, calls, results, views⟩ :=
      leaf.repeatCalls_incrRun fuel distinct allNonempty run s₁ consuming₁ (by simpa using ones)
    have count : ((children node).map fun c => (seqs c).length).prod = L.length + 1 := by
      have := congrArg List.length positionsOdometer
      simpa only [List.map_map, Function.comp_def, length_odometer, List.length_range',
        List.length_map, List.length_cons] using this
    refine ⟨(.ok, s₁) :: rounds, .depleted, ?_, by decide, ?_, ?_⟩
    · rw [count, repeatCalls, first]
      simp [calls]
    · simp [count, results, List.replicate_succ]
    · have reads : ∀ x : OpResult × Pipeline W,
          (children node).map (fun c => (seqs c)[pos c x.2.world - 1]?) =
            List.zipWith (fun c p => (seqs c)[p - 1]?) (children node)
              ((children node).map (pos · x.2.world)) := fun x => by
        simp only [List.zipWith_map_right, List.zipWith_same]
      have lengths : (children node).map (fun c => List.range' 1 (seqs c).length) =
          ((children node).map fun d => (seqs d).length).map (List.range' 1 ·) := by
        simp [Function.comp_def]
      rw [count, List.take_succ_cons, ← odometer_positions, lengths, positionsOdometer, ← views]
      simp only [reads, List.map_take, List.length_take, List.length_map, List.map_cons, ones,
        List.map_map, Function.comp_def, List.cons.injEq, List.take_eq_take, inf_le_right,
        inf_of_le_left, and_self]
  · have notOk : r ≠ .ok := fun isOk => allNonempty (iff.mp isOk).2.2
    have zero : ((children node).map fun c => (seqs c).length).prod = 0 := by
      simp only [not_forall, Nat.not_lt, Nat.le_zero] at allNonempty
      obtain ⟨d, member, empty⟩ := allNonempty
      exact List.prod_eq_zero (List.mem_map.mpr ⟨d, member, empty⟩)
    have none : odometer ((children node).map seqs) = [] := by
      rw [← List.length_eq_zero, length_odometer]
      simpa only [List.map_map, Function.comp_def, List.prod_eq_zero_iff, List.mem_map,
        List.length_eq_zero] using zero
    refine ⟨[(r, s₁)], r, ?_, notOk, by simp [zero], by simp [zero, none]⟩
    simp [zero, repeatCalls, first]

end Leaves

theorem StreamPlan.leafStreams (p : StreamPlan) {cs : List Nat} {seqs : Nat → List Nat}
    (scans : ∀ c ∈ cs, p.behaviourOf c = .scan (seqs c))
    (childless : ∀ c ∈ cs, p.childrenOf c = []) :
    LeafStreams p.operators p.childrenOf cs seqs fun c w => (w.cursor c).position where
  childless := childless
  consume_ok c member w room := by
    have moved := congrArg Prod.fst (p.counter_emit_self w c [(seqs c)[(w.cursor c).position]]
      fun c => { c with position := c.position + 1 })
    simp only [Cursor.counter] at moved
    simp [StreamPlan.operators, StreamPlan.consume, scans c member, List.getElem?_eq_getElem room, moved]
  consume_depleted c member w full := by
    simp [StreamPlan.operators, StreamPlan.consume, scans c member, List.getElem?_eq_none full]
  reset c member w := by
    simp [StreamPlan.operators, StreamPlan.reset, scans c member, Cursors.cursor_modify]
  consume_other c _ d _ other w := congrArg Prod.fst (p.counter_consume_other (Ne.symm other) w)
  reset_other c _ d _ other w := congrArg Prod.fst (p.counter_reset_other (Ne.symm other) w)

def StreamPlan.scanned (p : StreamPlan) (n : Nat) : List Nat :=
  match p.behaviourOf n with
  | .scan tuples => tuples
  | _ => []

/-- A flat-map over the scans `[7, 8]` and `[5, 6]`. -/
def gridPlan : StreamPlan :=
  ⟨[.flatMap, .scan [7, 8], .scan [5, 6]], [[1, 2], [], []]⟩

theorem gridPlan_odometer :
    LeafStreams gridPlan.operators gridPlan.childrenOf (gridPlan.childrenOf 0) gridPlan.scanned
        (fun c w => (w.cursor c).position) ∧
      (gridPlan.childrenOf 0).Nodup ∧ gridPlan.childrenOf 0 ≠ [] ∧
      (∀ c ∈ gridPlan.childrenOf 0, (gridPlan.start.world.cursor c).position = 0 ∧
        gridPlan.start.state c = .unInitialized) ∧
      ∃ rounds r, repeatCalls (pullFromStreams gridPlan.childrenOf
          (executeOpNode gridPlan.operators gridPlan.childrenOf 1)
          (resetStream gridPlan.operators gridPlan.childrenOf 1) 0)
          (((gridPlan.childrenOf 0).map fun c => (gridPlan.scanned c).length).prod + 1)
          gridPlan.start = some rounds ∧ r ≠ .ok ∧
        rounds.map (·.1) =
          List.replicate ((gridPlan.childrenOf 0).map fun c => (gridPlan.scanned c).length).prod
            .ok ++ [r] ∧
        (rounds.take ((gridPlan.childrenOf 0).map fun c => (gridPlan.scanned c).length).prod).map
            (fun x => (gridPlan.childrenOf 0).map fun c =>
              (gridPlan.scanned c)[(x.2.world.cursor c).position - 1]?) =
          (odometer ((gridPlan.childrenOf 0).map gridPlan.scanned)).map (List.map some) :=
  have leaf : LeafStreams gridPlan.operators gridPlan.childrenOf (gridPlan.childrenOf 0)
      gridPlan.scanned (fun c w => (w.cursor c).position) :=
    gridPlan.leafStreams (by decide) (by decide)
  ⟨leaf, by decide, by decide, by decide,
    pullFromStreams_odometer leaf (by decide) (by decide) (by decide) 0⟩

end RedisGraph.Exec
