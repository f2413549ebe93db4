import RedisGraph.Exec.Cursors
import RedisGraph.Plan.BuildRun
import Mathlib.Data.List.Pairwise

/-! Termination of `ExecutionPlan_Execute` when the operators form a tree. `PullFromStreams`
advances its children like an odometer: the first child that returns `OP_OK` moves, and the
children before it are reset. Each operator gets a rank that bounds the `OP_OK`s it can still
return. List the ranks of a stream's nodes from its last child's stream to the node itself:
every `OP_OK` of the stream makes that list smaller in lexicographic order. This holds because
the streams under one node share no operator, the assumption the source states at line 473;
`sharedPlan_never_ends` shows what happens when they do. -/

namespace RedisGraph.Exec

open Plan

/-! ### Lexicographic order on lists of one length -/

section Lex

variable {a a' b b' : List Nat}

theorem append_lt_append_of_lt (len : a'.length = a.length) (lt : a' < a) (b b' : List Nat) :
    a' ++ b' < a ++ b := by
  induction a' generalizing a with
  | nil =>
    cases a with
    | nil => exact absurd lt (List.Lex.not_nil_right _ _)
    | cons => cases len
  | cons x a' ih =>
    cases a with
    | nil => cases lt
    | cons y a =>
      cases lt with
      | cons lt => exact .cons (ih (by simpa using len) lt)
      | rel lt => exact .rel lt

theorem append_lt_append (len : a'.length = a.length) (le : a' ≤ a) (lt : b' < b) :
    a' ++ b' < a ++ b := by
  rcases le.lt_or_eq with le | rfl
  · exact append_lt_append_of_lt len le b b'
  · exact List.Lex.append_left _ lt a'

theorem append_le_append (len : a'.length = a.length) (le : a' ≤ a) (le' : b' ≤ b) :
    a' ++ b' ≤ a ++ b := by
  rcases le'.lt_or_eq with lt | rfl
  · exact (append_lt_append len le lt).le
  · rcases le.lt_or_eq with lt | rfl
    · exact (append_lt_append_of_lt len lt b' b').le
    · exact le_rfl

theorem map_le_map {l : List Nat} {f g : Nat → Nat} (le : ∀ m ∈ l, f m ≤ g m) :
    l.map f ≤ l.map g := by
  induction l with
  | nil => exact le_rfl
  | cons m l ih =>
    have rest := ih fun k member => le k (List.mem_cons_of_mem m member)
    rcases (le m (List.mem_cons_self m l)).lt_or_eq with lt | same
    · exact (show f m :: l.map f < g m :: l.map g from .rel lt).le
    · rw [List.map_cons, List.map_cons, same]
      exact show [g m] ++ l.map f ≤ [g m] ++ l.map g from append_le_append rfl le_rfl rest

theorem flatMap_le_flatMap {l : List Nat} {f g : Nat → List Nat}
    (len : ∀ x ∈ l, (f x).length = (g x).length) (le : ∀ x ∈ l, f x ≤ g x) :
    l.flatMap f ≤ l.flatMap g := by
  induction l with
  | nil => exact le_rfl
  | cons x l ih =>
    simp only [List.flatMap_cons]
    exact append_le_append (len x (List.mem_cons_self x l)) (le x (List.mem_cons_self x l))
      (ih (fun y member => len y (List.mem_cons_of_mem x member))
        fun y member => le y (List.mem_cons_of_mem x member))

theorem lex_wellFounded (k : Nat) :
    WellFounded fun l l' : List Nat => l.length = k ∧ l < l' := by
  induction k with
  | zero =>
    refine ⟨fun l => ⟨l, fun l' ⟨len, lt⟩ => ?_⟩⟩
    cases List.eq_nil_of_length_eq_zero len
    exact ⟨[], fun l'' ⟨_, lt⟩ => absurd lt (List.Lex.not_nil_right _ _)⟩
  | succ k ih =>
    refine Subrelation.wf (r := InvImage (Prod.Lex (· < ·) fun l l' => l.length = k ∧ l < l')
      fun l => (l.headD 0, l.tail)) ?_ (InvImage.wf _ (WellFounded.prod_lex wellFounded_lt ih))
    intro l l' ⟨len, lt⟩
    cases l with
    | nil => cases len
    | cons x l =>
      cases lt with
      | cons lt => exact Prod.Lex.right _ ⟨by simpa using len, lt⟩
      | rel lt => exact Prod.Lex.left _ _ lt

end Lex

/-! ### Trees of streams and ranked operators -/

variable {W : Type} (ops : Operators W) (children : Nat → List Nat)

/-- Every path down from `n` has fewer than `depth` nodes. -/
def bounded : Nat → Nat → Bool
  | 0, _ => false
  | depth + 1, n => (children n).all (bounded depth)

/-- The nodes of the stream under `n`: its children's streams from the last child to the first,
then `n`. -/
def streamNodes : Nat → Nat → List Nat
  | 0, _ => []
  | depth + 1, n => (children n).reverse.flatMap (streamNodes depth) ++ [n]

/-- The streams under `root` form a tree: every path down is shorter than `depth`, and no node is
met twice. -/
structure IsTree (depth root : Nat) : Prop where
  bounded : bounded children depth root = true
  nodup : (streamNodes children depth root).Nodup

/-- Each operator's rank bounds the `OP_OK`s it can still return: its `consume` lowers it on
`OP_OK`, and no other operator's calls raise it. -/
structure Ranked (rank : Nat → W → Nat) : Prop where
  consume_ok : ∀ n w, (ops.consume n w).1 = .ok → rank n (ops.consume n w).2 < rank n w
  consume_other : ∀ m n w, m ≠ n → rank n (ops.consume m w).2 ≤ rank n w
  reset_other : ∀ m n w, m ≠ n → rank n (ops.reset m w).2 ≤ rank n w

/-- What a tree says of its root's children: each roots a tree, and their streams are disjoint from
each other and from the root. -/
structure Fork (depth n : Nat) : Prop where
  tree : ∀ c ∈ children n, IsTree children depth c
  nodup : (children n).Nodup
  apart : ∀ c ∈ children n, ∀ c' ∈ children n, c ≠ c' →
    ∀ m ∈ streamNodes children depth c, m ∉ streamNodes children depth c'
  root : ∀ c ∈ children n, n ∉ streamNodes children depth c

/-! ### The test operators are ranked -/

def Cursor.counter (c : Cursor) : Nat × Bool := (c.position, c.armed)

namespace StreamPlan

variable (p : StreamPlan)

/-- A scan can still yield the tuples past its position; a flat-map, once more while armed. -/
def rank (n : Nat) (w : Cursors) : Nat :=
  match p.behaviourOf n with
  | .scan tuples => tuples.length - (w.cursor n).position
  | _ => if (w.cursor n).armed then 1 else 0

theorem rank_congr {n : Nat} {w w' : Cursors}
    (same : (w'.cursor n).counter = (w.cursor n).counter) : p.rank n w' = p.rank n w := by
  simp only [Cursor.counter, Prod.mk.injEq] at same
  simp only [rank, same.1, same.2]

theorem counter_foldl_advanced (qs : List Nat) (w : Cursors) (k : Nat) :
    ((qs.foldl (fun w q => w.modify q fun c => { c with advanced := true }) w).cursor k).counter =
      (w.cursor k).counter := by
  induction qs generalizing w with
  | nil => rfl
  | cons q qs ih =>
    rw [List.foldl_cons, ih, Cursors.cursor_modify]
    split <;> rfl

theorem counter_emit (w : Cursors) (n : Nat) (t : List Nat) (f : Cursor → Cursor) (k : Nat) :
    ((p.emit w n t f).cursor k).counter =
      if n = k then (f (w.cursor k)).counter else (w.cursor k).counter := by
  rw [emit, counter_foldl_advanced, Cursors.cursor_modify]
  split <;> rfl

theorem counter_emit_self (w : Cursors) (n : Nat) (t : List Nat) (f : Cursor → Cursor) :
    ((p.emit w n t f).cursor n).counter = (f (w.cursor n)).counter :=
  (p.counter_emit w n t f n).trans (if_pos rfl)

theorem counter_consume_other {m n : Nat} (other : m ≠ n) (w : Cursors) :
    ((p.consume m w).2.cursor n).counter = (w.cursor n).counter := by
  unfold consume
  split
  · split
    · exact (p.counter_emit ..).trans (if_neg other)
    · rfl
  · rfl
  · split
    · split <;> exact (p.counter_emit ..).trans (if_neg other)
    · rw [Cursors.cursor_modify, if_neg other]

theorem counter_reset_other {m n : Nat} (other : m ≠ n) (w : Cursors) :
    ((p.reset m w).2.cursor n).counter = (w.cursor n).counter := by
  unfold reset
  split <;> first | rfl | rw [Cursors.cursor_modify, if_neg other]

theorem rank_consume_ok {n : Nat} {w : Cursors} (ok : (p.consume n w).1 = .ok) :
    p.rank n (p.consume n w).2 < p.rank n w := by
  cases behaves : p.behaviourOf n with
  | scan tuples =>
    simp only [consume, behaves] at ok ⊢
    cases found : tuples[(w.cursor n).position]? with
    | none => simp [found] at ok
    | some t =>
      have moved := congrArg Prod.fst
        (p.counter_emit_self w n [t] fun c => { c with position := c.position + 1 })
      simp only [Cursor.counter] at moved
      have bound := (List.getElem?_eq_some_iff.mp found).1
      simp only [found, rank, behaves, moved]
      omega
  | failing => simp [consume, behaves] at ok
  | flatMap | produceResults =>
    simp only [consume, behaves] at ok ⊢
    split at ok
    · rename_i ready
      have armed := (Bool.and_eq_true _ _ ▸ ready).1
      have disarmed := congrArg Prod.snd (p.counter_emit_self w n
        ((p.childrenOf n).flatMap fun child => (w.cursor child).current)
        fun c => { c with armed := false })
      simp only [Cursor.counter] at disarmed
      simp only [if_pos ready, rank, behaves]
      split <;> simp [Cursors.cursor_with_resultSet, disarmed, armed]
    · cases ok

theorem operators_ranked : Ranked p.operators p.rank :=
  ⟨fun _ _ ok => p.rank_consume_ok ok,
    fun _ _ w other => (p.rank_congr (p.counter_consume_other other w)).le,
    fun _ _ w other => (p.rank_congr (p.counter_reset_other other w)).le⟩

end StreamPlan

variable {ops children}

theorem bounded_of_mem {depth n c : Nat} (bound : bounded children (depth + 1) n = true)
    (child : c ∈ children n) : bounded children depth c = true := by
  simp only [bounded, List.all_eq_true] at bound
  exact bound c child

theorem mem_streamNodes_self {depth n : Nat} (bound : bounded children depth n = true) :
    n ∈ streamNodes children depth n := by
  cases depth with
  | zero => cases bound
  | succ depth => simp [streamNodes]

theorem streamNodes_subset {depth n c : Nat} (child : c ∈ children n) :
    streamNodes children depth c ⊆ streamNodes children (depth + 1) n := fun _ member => by
  simp only [streamNodes, List.mem_append, List.mem_flatMap, List.mem_reverse]
  exact .inl ⟨c, child, member⟩

theorem IsTree.fork {depth n : Nat} (tree : IsTree children (depth + 1) n) :
    Fork children depth n := by
  obtain ⟨streams, -, rootApart⟩ := List.nodup_append.mp tree.nodup
  obtain ⟨each, pairwise⟩ := List.nodup_flatMap.mp streams
  have bound c (child : c ∈ children n) := bounded_of_mem tree.bounded child
  have pairwise : (children n).Pairwise fun c c' =>
      (streamNodes children depth c).Disjoint (streamNodes children depth c') :=
    (List.pairwise_reverse.mp pairwise).imp List.disjoint_comm.mp
  refine ⟨fun c child => ⟨bound c child, each c (List.mem_reverse.mpr child)⟩,
    pairwise.imp_of_mem fun child _ apart same => ?_,
    fun c child c' child' ne m member => pairwise.forall
      (fun _ _ => List.disjoint_comm.mp) child child' ne member,
    fun c child member => ?_⟩
  · subst same
    exact apart (mem_streamNodes_self (bound _ child)) (mem_streamNodes_self (bound _ child))
  · exact rootApart (List.mem_flatMap.mpr ⟨c, List.mem_reverse.mpr child, member⟩)
      (List.mem_singleton_self n)

/-! ### Ranks that do not rise -/

variable (children) (rank : Nat → W → Nat)

/-- The ranks of the nodes of the stream under `n`, most significant first. -/
def streamRanks (depth n : Nat) (w : W) : List Nat :=
  (streamNodes children depth n).map (rank · w)

/-- No rank outside `S` rises from `w` to `w'`. -/
def Confined (S : Nat → Prop) (w w' : W) : Prop :=
  ∀ m, ¬ S m → rank m w' ≤ rank m w

variable {children rank}

@[simp] theorem length_streamRanks (depth n : Nat) (w : W) :
    (streamRanks children rank depth n w).length = (streamNodes children depth n).length :=
  List.length_map _ _

theorem Confined.refl (S : Nat → Prop) (w : W) : Confined rank S w w := fun _ _ => le_rfl

theorem Confined.trans {S : Nat → Prop} {w₁ w₂ w₃ : W} (first : Confined rank S w₁ w₂)
    (second : Confined rank S w₂ w₃) : Confined rank S w₁ w₃ := fun m outside =>
  (second m outside).trans (first m outside)

theorem Confined.mono {S S' : Nat → Prop} {w w' : W} (confined : Confined rank S w w')
    (sub : ∀ m, S m → S' m) : Confined rank S' w w' := fun m outside =>
  confined m fun inside => outside (sub m inside)

theorem Confined.streamRanks_le {S : Nat → Prop} {w w' : W} (confined : Confined rank S w w')
    {depth c : Nat} (outside : ∀ m ∈ streamNodes children depth c, ¬ S m) :
    streamRanks children rank depth c w' ≤ streamRanks children rank depth c w :=
  map_le_map fun m member => confined m (outside m member)

theorem Ranked.consume_confined (ranked : Ranked ops rank) (n : Nat) (w : W) :
    Confined rank (· = n) w (ops.consume n w).2 := fun m other =>
  ranked.consume_other n m w (Ne.symm other)

theorem Ranked.reset_confined (ranked : Ranked ops rank) (n : Nat) (w : W) :
    Confined rank (· = n) w (ops.reset n w).2 := fun m other =>
  ranked.reset_other n m w (Ne.symm other)

/-! ### What a call touches -/

section Loops

variable {S : Nat → Prop} {execute : Nat → Pipeline W → Option (OpResult × Pipeline W)}

theorem advanceStreams_split {before₀ streams before after : List Nat} {s s' : Pipeline W}
    (runs : advanceStreams execute before₀ streams s = some (some (before, after), s')) :
    ∃ pre x, streams = pre ++ x :: after ∧ before = pre.reverse ++ before₀ := by
  induction streams generalizing before₀ s with
  | nil => cases runs
  | cons x streams ih =>
    obtain ⟨⟨res, s₁⟩, -, rest⟩ := Option.bind_eq_some.mp runs
    dsimp only at rest
    split at rest
    · cases rest
      exact ⟨[], x, rfl, rfl⟩
    · obtain ⟨pre, y, rfl, rfl⟩ := ih rest
      exact ⟨x :: pre, y, rfl, by simp⟩

variable {streams : List Nat}
  (exec : ∀ x ∈ streams, ∀ s r s', execute x s = some (r, s') → Confined rank S s.world s'.world)

include exec in
theorem advanceStreams_confined {before : List Nat} {s s' : Pipeline W}
    {r : Option (List Nat × List Nat)} (runs : advanceStreams execute before streams s = some (r, s')) :
    Confined rank S s.world s'.world := by
  induction streams generalizing before s with
  | nil =>
    cases runs
    exact .refl _ _
  | cons x streams ih =>
    obtain ⟨⟨res, s₁⟩, first, rest⟩ := Option.bind_eq_some.mp runs
    have step := exec x (List.mem_cons_self x streams) _ _ _ first
    dsimp only at rest
    split at rest
    · cases rest
      exact step
    · exact step.trans (ih (fun y member => exec y (List.mem_cons_of_mem x member)) rest)

include exec in
theorem pullUninitialized_confined {s s' : Pipeline W} {fresh : Bool}
    (runs : pullUninitialized execute streams s = some (fresh, s')) :
    Confined rank S s.world s'.world := by
  induction streams generalizing s with
  | nil =>
    cases runs
    exact .refl _ _
  | cons x streams ih =>
    have rest : ∀ {s : Pipeline W}, pullUninitialized execute streams s = some (fresh, s') →
        Confined rank S s.world s'.world := ih fun y member => exec y (List.mem_cons_of_mem x member)
    simp only [pullUninitialized] at runs
    split at runs
    · obtain ⟨⟨res, s₁⟩, first, runs⟩ := Option.bind_eq_some.mp runs
      have step := exec x (List.mem_cons_self x streams) _ _ _ first
      dsimp only at runs
      split at runs
      · exact step.trans (rest runs)
      · cases runs
        exact step
    · exact rest runs

include exec in
theorem resetAndPull_confined {reset : Nat → W → Option W}
    (resets : ∀ x ∈ streams, ∀ w w', reset x w = some w' → Confined rank S w w')
    {s s' : Pipeline W} {res : OpResult}
    (runs : resetAndPull execute reset streams s = some (res, s')) :
    Confined rank S s.world s'.world := by
  induction streams generalizing s with
  | nil =>
    cases runs
    exact .refl _ _
  | cons x streams ih =>
    obtain ⟨world, rewound, runs⟩ := Option.bind_eq_some.mp runs
    obtain ⟨⟨res, s₁⟩, first, runs⟩ := Option.bind_eq_some.mp runs
    have step := (resets x (List.mem_cons_self x streams) _ _ rewound).trans
      (exec x (List.mem_cons_self x streams) _ _ _ first)
    dsimp only at runs
    split at runs
    · exact step.trans (ih (fun y member => exec y (List.mem_cons_of_mem x member))
        (fun y member => resets y (List.mem_cons_of_mem x member)) runs)
    · cases runs
      exact step

end Loops

theorem pullFromStreams_confined {S : Nat → Prop}
    {execute : Nat → Pipeline W → Option (OpResult × Pipeline W)}
    {reset : Nat → W → Option W} {source : Nat}
    (exec : ∀ x ∈ children source, ∀ s r s', execute x s = some (r, s') →
      Confined rank S s.world s'.world)
    (resets : ∀ x ∈ children source, ∀ w w', reset x w = some w' → Confined rank S w w')
    {s s' : Pipeline W} {res : OpResult}
    (runs : pullFromStreams children execute reset source s = some (res, s')) :
    Confined rank S s.world s'.world := by
  obtain ⟨⟨advanced, s₁⟩, first, rest⟩ := Option.bind_eq_some.mp runs
  have advancing := advanceStreams_confined exec first
  rcases advanced with _ | ⟨before, after⟩
  · cases rest
    exact advancing
  · obtain ⟨pre, x, parts, rfl⟩ := advanceStreams_split first
    have inAfter y (member : y ∈ after) : y ∈ children source := by
      rw [parts]; exact List.mem_append_right _ (List.mem_cons_of_mem x member)
    have inBefore y (member : y ∈ pre.reverse ++ []) : y ∈ children source := by
      rw [List.append_nil] at member
      rw [parts]; exact List.mem_append_left _ (List.mem_reverse.mp member)
    obtain ⟨⟨fresh, s₂⟩, second, rest⟩ := Option.bind_eq_some.mp rest
    have uninit := pullUninitialized_confined (fun y member => exec y (inAfter y member)) second
    cases fresh
    · cases rest
      exact advancing.trans uninit
    · exact advancing.trans (uninit.trans (resetAndPull_confined
        (fun y member => exec y (inBefore y member))
        (fun y member => resets y (inBefore y member)) rest))

theorem resetStream_confined (ranked : Ranked ops rank) {fuel depth stream : Nat} {w w' : W}
    (bound : bounded children depth stream = true)
    (resets : resetStream ops children fuel stream w = some w') :
    Confined rank (· ∈ streamNodes children depth stream) w w' := by
  induction fuel generalizing depth stream w w' with
  | zero => cases resets
  | succ fuel ih =>
    cases depth with
    | zero => cases bound
    | succ depth =>
      exact foldlM_induction (P := Confined rank (· ∈ streamNodes children (depth + 1) stream) w)
        (fun child confined step => confined.trans ((ih (bounded_of_mem bound child) step).mono
          fun _ member => streamNodes_subset child member))
        ((ranked.reset_confined stream w).mono fun _ same => by
          rw [same]; exact mem_streamNodes_self bound)
        resets

theorem executeOpNode_confined (ranked : Ranked ops rank) {fuel depth node : Nat}
    {s s' : Pipeline W} {res : OpResult} (bound : bounded children depth node = true)
    (runs : executeOpNode ops children fuel node s = some (res, s')) :
    Confined rank (· ∈ streamNodes children depth node) s.world s'.world := by
  induction fuel generalizing depth node s s' res with
  | zero => cases runs
  | succ fuel ih =>
    have own (m : Nat) (same : m = node) : m ∈ streamNodes children depth node := by
      rw [same]; exact mem_streamNodes_self bound
    have consumes := (ranked.consume_confined node s.world).mono own
    have resets := consumes.trans ((ranked.reset_confined node _).mono own)
    rcases executeOpNode_succ_cases runs with ⟨-, world⟩ | ⟨-, world⟩ | ⟨r, s₂, pulled, rest⟩
    · rw [world]
      exact consumes
    · rw [world]
      exact resets
    · cases depth with
      | zero => cases bound
      | succ depth =>
      have pulls := pullFromStreams_confined
        (fun x child _ _ _ runs => (ih (bounded_of_mem bound child) runs).mono
          fun _ member => streamNodes_subset child member)
        (fun x child _ _ resets => (resetStream_confined ranked (bounded_of_mem bound child)
          resets).mono fun _ member => streamNodes_subset child member) pulled
      rcases rest with ⟨-, -, rfl⟩ | ⟨-, rest⟩
      · exact resets.trans pulls
      · exact resets.trans (pulls.trans (ih bound rest))

/-! ### Every `OP_OK` of a stream lowers its ranks -/

theorem streamRanks_succ (depth n : Nat) (w : W) :
    streamRanks children rank (depth + 1) n w =
      (children n).reverse.flatMap (streamRanks children rank depth · w) ++ [rank n w] := by
  simp [streamRanks, streamNodes, List.map_flatMap]

@[simp] theorem length_flatMap_streamRanks (l : List Nat) (depth : Nat) (w : W) :
    (l.flatMap (streamRanks children rank depth · w)).length =
      (l.flatMap (streamNodes children depth)).length := by
  induction l with
  | nil => rfl
  | cons x l ih =>
    rw [List.flatMap_cons, List.flatMap_cons, List.length_append, List.length_append,
      length_streamRanks, ih]

theorem length_streamRanks_eq (depth n : Nat) (w w' : W) :
    (streamRanks children rank depth n w).length =
      (streamRanks children rank depth n w').length := by
  rw [length_streamRanks, length_streamRanks]

theorem length_flatMap_streamRanks_eq (l : List Nat) (depth : Nat) (w w' : W) :
    (l.flatMap (streamRanks children rank depth · w)).length =
      (l.flatMap (streamRanks children rank depth · w')).length := by
  rw [length_flatMap_streamRanks, length_flatMap_streamRanks]

section Fork

variable (ranked : Ranked ops rank) {depth n : Nat} (fork : Fork children depth n)

include fork in
theorem Fork.frame (others : List Nat) {w w' : W}
    (confined : Confined rank (· ∈ others.flatMap (streamNodes children depth)) w w')
    (sub : ∀ y ∈ others, y ∈ children n) {x : Nat} (child : x ∈ children n) (other : x ∉ others) :
    streamRanks children rank depth x w' ≤ streamRanks children rank depth x w :=
  confined.streamRanks_le fun m member inside => by
    obtain ⟨y, mine, theirs⟩ := List.mem_flatMap.mp inside
    exact fork.apart x child y (sub y mine) (fun same => other (same ▸ mine)) m member theirs

include ranked fork in
theorem Fork.executeOpNode_frame {fuel y : Nat} {s s' : Pipeline W} {res : OpResult}
    (runs : executeOpNode ops children fuel y s = some (res, s')) (called : y ∈ children n)
    {x : Nat} (child : x ∈ children n) (other : x ≠ y) :
    streamRanks children rank depth x s'.world ≤ streamRanks children rank depth x s.world :=
  fork.frame [y] ((executeOpNode_confined ranked (fork.tree y called).bounded runs).mono
    fun m member => by simpa using member) (by simpa using called) child (by simpa using other)

include fork in
theorem Fork.children_le {w w' : W} (confined : Confined rank (· = n) w w') :
    (children n).reverse.flatMap (streamRanks children rank depth · w') ≤
      (children n).reverse.flatMap (streamRanks children rank depth · w) :=
  flatMap_le_flatMap (fun _ _ => length_streamRanks_eq ..) fun c member => confined.streamRanks_le
    fun _ inside same => fork.root c (List.mem_reverse.mp member) (same ▸ inside)

variable (descends : ∀ x ∈ children n, ∀ fuel s s',
  executeOpNode ops children fuel x s = some (.ok, s') →
    streamRanks children rank depth x s'.world < streamRanks children rank depth x s.world)

include ranked fork descends in
theorem advanceStreams_advances {fuel : Nat} {before₀ streams before after : List Nat}
    {s s' : Pipeline W} (sub : ∀ y ∈ streams, y ∈ children n) (nodup : streams.Nodup)
    (runs : advanceStreams (executeOpNode ops children fuel) before₀ streams s =
      some (some (before, after), s')) :
    ∃ pre x, streams = pre ++ x :: after ∧ before = pre.reverse ++ before₀ ∧
      streamRanks children rank depth x s'.world < streamRanks children rank depth x s.world ∧
      ∀ y ∈ after,
        streamRanks children rank depth y s'.world ≤ streamRanks children rank depth y s.world := by
  induction streams generalizing before₀ s with
  | nil => cases runs
  | cons y streams ih =>
    obtain ⟨⟨res, s₁⟩, first, rest⟩ := Option.bind_eq_some.mp runs
    have called := sub y (List.mem_cons_self y streams)
    have later z (member : z ∈ streams) := fork.executeOpNode_frame ranked first called
      (sub z (List.mem_cons_of_mem y member))
      fun same => (List.nodup_cons.mp nodup).1 (same ▸ member)
    dsimp only at rest
    split at rest
    · cases rest
      subst res
      exact ⟨[], y, rfl, rfl, descends y called _ _ _ first, later⟩
    · obtain ⟨pre, x, rfl, rfl, moved, kept⟩ := ih (fun z member => sub z
        (List.mem_cons_of_mem y member)) (List.nodup_cons.mp nodup).2 rest
      exact ⟨y :: pre, x, rfl, by simp, lt_of_lt_of_le moved (later x (by simp)),
        fun z member => (kept z member).trans (later z (by simp [member]))⟩

include ranked fork descends in
theorem pullUninitialized_descends {fuel : Nat} {streams : List Nat} {s s' : Pipeline W}
    (sub : ∀ y ∈ streams, y ∈ children n)
    (runs : pullUninitialized (executeOpNode ops children fuel) streams s = some (true, s'))
    {x : Nat} (child : x ∈ children n) :
    streamRanks children rank depth x s'.world ≤ streamRanks children rank depth x s.world := by
  induction streams generalizing s with
  | nil =>
    cases runs
    exact le_rfl
  | cons y streams ih =>
    have rest {s₀ : Pipeline W}
        (runs : pullUninitialized (executeOpNode ops children fuel) streams s₀ = some (true, s')) :=
      ih (fun z member => sub z (List.mem_cons_of_mem y member)) runs
    simp only [pullUninitialized] at runs
    split at runs
    · obtain ⟨⟨res, s₁⟩, first, runs⟩ := Option.bind_eq_some.mp runs
      dsimp only at runs
      split at runs
      · subst res
        have called := sub y (List.mem_cons_self y streams)
        refine (rest runs).trans ?_
        by_cases same : x = y
        · exact (same ▸ descends y called _ _ _ first).le
        · exact fork.executeOpNode_frame ranked first called child same
      · cases runs
    · exact rest runs

include ranked fork descends in
/-- `PullFromStreams(n)` returning `OP_OK` lowers the ranks of `n`'s children's streams, read from
the last child to the first: only the streams before the one that moved may rise. -/
theorem pullFromStreams_descends {fuel : Nat} {s s' : Pipeline W}
    (runs : pullFromStreams children (executeOpNode ops children fuel)
      (resetStream ops children fuel) n s = some (.ok, s')) :
    (children n).reverse.flatMap (streamRanks children rank depth · s'.world) <
      (children n).reverse.flatMap (streamRanks children rank depth · s.world) := by
  obtain ⟨⟨advanced, s₁⟩, first, rest⟩ := Option.bind_eq_some.mp runs
  rcases advanced with _ | ⟨before, after⟩
  · cases rest
  obtain ⟨pre, x, parts, rfl, moved, kept⟩ :=
    advanceStreams_advances ranked fork descends (fun _ => id) fork.nodup first
  obtain ⟨⟨fresh, s₂⟩, second, rest⟩ := Option.bind_eq_some.mp rest
  cases fresh
  · cases rest
  rw [List.append_nil] at rest
  have inChildren y (member : y ∈ pre.reverse ∨ y = x ∨ y ∈ after) : y ∈ children n := by
    rw [parts, List.mem_append, List.mem_cons, ← List.mem_reverse]
    exact member
  have reset := resetAndPull_confined (S := (· ∈ pre.reverse.flatMap (streamNodes children depth)))
    (fun y member _ _ _ runs => (executeOpNode_confined ranked
      (fork.tree y (inChildren y (.inl member))).bounded runs).mono
      fun m inside => List.mem_flatMap.mpr ⟨y, member, inside⟩)
    (fun y member _ _ resets => (resetStream_confined ranked
      (fork.tree y (inChildren y (.inl member))).bounded resets).mono
      fun m inside => List.mem_flatMap.mpr ⟨y, member, inside⟩) rest
  have apart := (List.nodup_append.mp (parts ▸ fork.nodup)).2.2
  have settled y (member : y = x ∨ y ∈ after) := (fork.frame _ reset
      (fun z inside => inChildren z (.inl inside)) (inChildren y (.inr member))
      fun inside => apart (List.mem_reverse.mp inside) (List.mem_cons.mpr member)).trans
    (pullUninitialized_descends ranked fork descends
      (fun z inside => inChildren z (.inr (.inr inside))) second (inChildren y (.inr member)))
  simp only [parts, List.reverse_append, List.reverse_cons, List.flatMap_append,
    List.flatMap_cons, List.flatMap_nil, List.append_nil, List.append_assoc]
  refine append_lt_append (length_flatMap_streamRanks_eq ..) (flatMap_le_flatMap
    (fun _ _ => length_streamRanks_eq ..) fun y member => (settled y (.inr (List.mem_reverse.mp member))).trans
      (kept y (List.mem_reverse.mp member))) ?_
  exact append_lt_append_of_lt (length_streamRanks_eq ..) (lt_of_le_of_lt (settled x (.inl rfl))
    moved) _ _

include ranked fork descends in
/-- `_ExecuteOpNode(n)` returning `OP_OK` lowers the ranks of the stream under `n`, through `n`'s
own `consume` or through a `PullFromStreams`. -/
theorem executeOpNode_descends {fuel : Nat} {s s' : Pipeline W}
    (runs : executeOpNode ops children fuel n s = some (.ok, s')) :
    streamRanks children rank (depth + 1) n s'.world <
      streamRanks children rank (depth + 1) n s.world := by
  induction fuel generalizing s with
  | zero => cases runs
  | succ fuel ih =>
    rcases executeOpNode_succ_cases runs with ⟨consumed, world⟩ | ⟨err, -⟩ |
      ⟨r, s₂, pulled, ⟨notOk, rfl, -⟩ | ⟨rfl, rest⟩⟩
    · rw [world, streamRanks_succ, streamRanks_succ]
      exact append_lt_append (length_flatMap_streamRanks_eq ..)
        (fork.children_le (ranked.consume_confined n _))
        (.rel (ranked.consume_ok n _ consumed.symm))
    · cases err
    · exact absurd rfl notOk
    · refine lt_trans (ih rest) ?_
      rw [streamRanks_succ, streamRanks_succ]
      exact append_lt_append_of_lt (length_flatMap_streamRanks_eq ..) (lt_of_lt_of_le
        (pullFromStreams_descends ranked fork descends pulled)
        (fork.children_le ((ranked.consume_confined n _).trans
          (ranked.reset_confined n _)))) _ _

end Fork

/-! ### Termination -/

/-- `run fuel` returns one result for every fuel from some point on. -/
def Settles {α : Type} (run : Nat → Option α) : Prop :=
  ∃ fuel r, ∀ fuel', fuel ≤ fuel' → run fuel' = some r

theorem Settles.pure {α : Type} (r : α) : Settles fun _ => some r :=
  ⟨0, r, fun _ _ => rfl⟩

theorem Settles.bind {α β : Type} {run : Nat → Option α} {next : Nat → α → Option β}
    (first : Settles run) (rest : ∀ fuel a, run fuel = some a → Settles fun fuel => next fuel a) :
    Settles fun fuel => (run fuel).bind (next fuel) := by
  obtain ⟨f₁, a, settles₁⟩ := first
  obtain ⟨f₂, b, settles₂⟩ := rest f₁ a (settles₁ f₁ le_rfl)
  refine ⟨max f₁ f₂, b, fun fuel more => ?_⟩
  dsimp only
  rw [settles₁ fuel (by omega), Option.some_bind]
  exact settles₂ fuel (by omega)

theorem Settles.succ {α : Type} {run : Nat → Option α} (later : Settles fun fuel => run (fuel + 1)) :
    Settles run := by
  obtain ⟨f, r, settles⟩ := later
  refine ⟨f + 1, r, fun fuel more => ?_⟩
  cases fuel with
  | zero => omega
  | succ fuel => exact settles fuel (by omega)

theorem Settles.map {α β : Type} {run : Nat → Option α} (settles : Settles run) (f : α → β) :
    Settles fun fuel => (run fuel).map f := by
  obtain ⟨F, r, settled⟩ := settles
  exact ⟨F, f r, fun fuel more => by simp only [settled fuel more, Option.map_some']⟩

theorem Settles.of_eq {α : Type} {run run' : Nat → Option α} (F : Nat)
    (same : ∀ fuel, F ≤ fuel → run fuel = run' fuel) (settles : Settles run') : Settles run := by
  obtain ⟨F', r, settled⟩ := settles
  exact ⟨max F F', r, fun fuel more =>
    (same fuel ((le_max_left F F').trans more)).trans (settled fuel ((le_max_right F F').trans more))⟩

theorem foldlM_settles {α β : Type} {f : Nat → β → α → Option β} {l : List α}
    (ends : ∀ a ∈ l, ∀ b, Settles fun fuel => f fuel b a) (b : β) :
    Settles fun fuel => l.foldlM (f fuel) b := by
  induction l generalizing b with
  | nil => exact .pure b
  | cons a l ih =>
    simp only [List.foldlM_cons]
    exact (ends a (List.mem_cons_self a l) b).bind fun _ b₁ _ =>
      ih (fun a' member => ends a' (List.mem_cons_of_mem a member)) b₁

theorem resetStream_settles {depth stream : Nat} (bound : bounded children depth stream = true)
    (w : W) : Settles fun fuel => resetStream ops children fuel stream w := by
  induction depth generalizing stream w with
  | zero => cases bound
  | succ depth ih =>
    refine Settles.succ ?_
    simp only [resetStream]
    exact foldlM_settles (fun child member w => ih (bounded_of_mem bound member) w) _

section Settle

variable {execute : Nat → Nat → Pipeline W → Option (OpResult × Pipeline W)}
  {reset : Nat → Nat → W → Option W}

theorem advanceStreams_settles {streams : List Nat}
    (ends : ∀ x ∈ streams, ∀ s, Settles fun fuel => execute fuel x s) (before : List Nat)
    (s : Pipeline W) : Settles fun fuel => advanceStreams (execute fuel) before streams s := by
  induction streams generalizing before s with
  | nil => exact .pure _
  | cons x streams ih =>
    simp only [advanceStreams]
    refine (ends x (List.mem_cons_self x streams) s).bind fun _ (res, s₁) _ => ?_
    dsimp only
    split
    · exact .pure _
    · exact ih (fun y member => ends y (List.mem_cons_of_mem x member)) _ _

theorem pullUninitialized_settles {streams : List Nat}
    (ends : ∀ x ∈ streams, ∀ s, Settles fun fuel => execute fuel x s) (s : Pipeline W) :
    Settles fun fuel => pullUninitialized (execute fuel) streams s := by
  induction streams generalizing s with
  | nil => exact .pure _
  | cons x streams ih =>
    have rest := ih fun y member => ends y (List.mem_cons_of_mem x member)
    by_cases fresh : s.state x = .unInitialized
    · simp only [pullUninitialized, if_pos fresh]
      refine (ends x (List.mem_cons_self x streams) s).bind fun _ (res, s₁) _ => ?_
      dsimp only
      split
      · exact rest _
      · exact .pure _
    · simp only [pullUninitialized, if_neg fresh]
      exact rest s

theorem resetAndPull_settles {streams : List Nat}
    (ends : ∀ x ∈ streams, ∀ s, Settles fun fuel => execute fuel x s)
    (resets : ∀ x ∈ streams, ∀ w, Settles fun fuel => reset fuel x w) (s : Pipeline W) :
    Settles fun fuel => resetAndPull (execute fuel) (reset fuel) streams s := by
  induction streams generalizing s with
  | nil => exact .pure _
  | cons x streams ih =>
    simp only [resetAndPull]
    refine (resets x (List.mem_cons_self x streams) s.world).bind fun _ world _ => ?_
    refine (ends x (List.mem_cons_self x streams) _).bind fun _ (res, s₁) _ => ?_
    dsimp only
    split
    · exact ih (fun y member => ends y (List.mem_cons_of_mem x member))
        (fun y member => resets y (List.mem_cons_of_mem x member)) _
    · exact .pure _

theorem pullFromStreams_settles {source : Nat}
    (ends : ∀ x ∈ children source, ∀ s, Settles fun fuel => execute fuel x s)
    (resets : ∀ x ∈ children source, ∀ w, Settles fun fuel => reset fuel x w) (s : Pipeline W) :
    Settles fun fuel => pullFromStreams children (execute fuel) (reset fuel) source s := by
  simp only [pullFromStreams]
  refine (advanceStreams_settles ends [] s).bind fun _ (advanced, s₁) runs => ?_
  rcases advanced with _ | ⟨before, after⟩
  · exact .pure _
  obtain ⟨pre, x, parts, rfl⟩ := advanceStreams_split runs
  have inChildren y (member : y ∈ pre ∨ y ∈ after) : y ∈ children source := by
    rw [parts]; rcases member with member | member <;> simp [member]
  refine (pullUninitialized_settles (fun y member => ends y (inChildren y (.inr member))) s₁).bind
    fun _ (fresh, s₂) _ => ?_
  cases fresh
  · exact .pure _
  · exact resetAndPull_settles (fun y member => ends y (inChildren y (.inl (by simpa using member))))
      (fun y member => resets y (inChildren y (.inl (by simpa using member)))) s₂

end Settle

/-- The `goto consume` loop of `_ExecuteOpNode(n)` ends: a round that goes on lowered the ranks of
`n`'s children's streams. -/
theorem executeOpNode_settles (ranked : Ranked ops rank) {depth n : Nat}
    (fork : Fork children depth n)
    (descends : ∀ x ∈ children n, ∀ fuel s s',
      executeOpNode ops children fuel x s = some (.ok, s') →
        streamRanks children rank depth x s'.world < streamRanks children rank depth x s.world)
    (ends : ∀ x ∈ children n, ∀ s, Settles fun fuel => executeOpNode ops children fuel x s)
    (s : Pipeline W) : Settles fun fuel => executeOpNode ops children fuel n s := by
  refine (InvImage.wf (fun s : Pipeline W =>
      (children n).reverse.flatMap (streamRanks children rank depth · s.world))
    (lex_wellFounded ((children n).reverse.flatMap (streamNodes children depth)).length)).induction
    (C := fun s => Settles fun fuel => executeOpNode ops children fuel n s) s
    fun s ih => Settles.succ ?_
  simp only [executeOpNode_succ_eq]
  by_cases refresh : (ops.consume n s.world).1 = .refresh
  · by_cases reset : (ops.reset n (ops.consume n s.world).2).1 = .ok
    · simp only [if_pos refresh, if_pos reset]
      refine (pullFromStreams_settles ends (fun x child =>
        resetStream_settles (fork.tree x child).bounded) _).bind fun fuel ⟨r, s₃⟩ pulled => ?_
      dsimp only
      split
      · subst r
        exact ih s₃ ⟨length_flatMap_streamRanks .., lt_of_lt_of_le (pullFromStreams_descends ranked fork descends pulled)
          (fork.children_le ((ranked.consume_confined n _).trans (ranked.reset_confined n _)))⟩
      · exact .pure _
    · simp only [if_pos refresh, if_neg reset]
      exact .pure _
  · simp only [if_neg refresh]
    exact .pure _

/-- On a tree `_ExecuteOpNode` ends on every node from every state. -/
theorem stream_settles (ranked : Ranked ops rank) : ∀ {depth n : Nat}, IsTree children depth n →
    (∀ s, Settles fun fuel => executeOpNode ops children fuel n s) ∧
      ∀ fuel s s', executeOpNode ops children fuel n s = some (.ok, s') →
        streamRanks children rank depth n s'.world < streamRanks children rank depth n s.world
  | 0, _, tree => absurd tree.bounded Bool.false_ne_true
  | _ + 1, _, tree =>
    have below x child := stream_settles ranked (tree.fork.tree x child)
    ⟨executeOpNode_settles ranked tree.fork (fun x child => (below x child).2)
        fun x child => (below x child).1,
      fun _ _ _ runs => executeOpNode_descends ranked tree.fork
        (fun x child => (below x child).2) runs⟩

theorem executionPlanExecute_settles (ranked : Ranked ops rank) {depth root : Nat}
    (tree : IsTree children depth root) (s : Pipeline W) :
    Settles fun fuel => executionPlanExecute ops children root fuel s := by
  obtain ⟨ends, descends⟩ := stream_settles ranked tree
  refine (InvImage.wf (fun s : Pipeline W => streamRanks children rank depth root s.world)
    (lex_wellFounded (streamNodes children depth root).length)).induction
    (C := fun s => Settles fun fuel => executionPlanExecute ops children root fuel s) s
    fun s ih => Settles.succ ?_
  simp only [executionPlanExecute]
  refine (ends s).bind fun fuel ⟨res, s₁⟩ runs => ?_
  dsimp only
  split
  · subst res
    exact ih s₁ ⟨length_streamRanks .., descends fuel s s₁ runs⟩
  · exact .pure _

/-- When the operators form a tree and are ranked, `_ExecuteOpNode(root)` and the `while` loop of
`ExecutionPlan_Execute` end. -/
theorem executionPlanExecute_terminates (ranked : Ranked ops rank) {depth root : Nat}
    (tree : IsTree children depth root) (s : Pipeline W) :
    (∃ fuel r, executeOpNode ops children fuel root s = some r) ∧
      ∃ fuel, (executionPlanExecute ops children root fuel s).isSome := by
  obtain ⟨f, r, runs⟩ := (stream_settles ranked tree).1 s
  obtain ⟨f', s', runs'⟩ := executionPlanExecute_settles ranked tree s
  have ended : executionPlanExecute ops children root f' s = some s' := runs' f' le_rfl
  exact ⟨⟨f, r, runs f le_rfl⟩, f', by rw [ended]; rfl⟩

theorem nestedPlan_terminates : IsTree nestedPlan.childrenOf 3 0 ∧
    (∃ fuel r, executeOpNode nestedPlan.operators nestedPlan.childrenOf fuel 0 nestedPlan.start =
      some r) ∧
    ∃ fuel, (executionPlanExecute nestedPlan.operators nestedPlan.childrenOf 0 fuel
      nestedPlan.start).isSome :=
  have tree : IsTree nestedPlan.childrenOf 3 0 := ⟨by decide, by decide⟩
  ⟨tree, executionPlanExecute_terminates nestedPlan.operators_ranked tree _⟩

end RedisGraph.Exec
