import P2Poker.Table.Protocol
import Mathlib.Data.List.Chain

/-! The Lamport clock of a node (`protocol.Lamport`), which all the tables of the node share: each
    message a table writes is stamped by `TickLocal`, and each message a table handles first moves
    the clock past its stamp by `TickRemote`.

    `TickRemote` is a compare-and-swap loop, and goroutines interleave its load and its CAS with each
    other's calls; a CAS fails when the counter moved since the load, and the loop starts again.
    Every run of the goroutines is linearizable: the values returned, in the order the calls return,
    are those of the calls done one at a time in that order, and the counter ends where that
    sequential run ends (`run_linearizable`). So the clocks of a cluster are read as atomic
    operations, and on them Lamport's clock condition holds: an operation that happened before
    another, through the operations of one node and the messages between nodes, returned a smaller
    value (`clock_condition`), as long as no value reaches the largest `uint64`, past which the
    counter wraps to zero. -/

namespace P2Poker
namespace Lamport

/-! ### The clock object -/

/-- The value `TickRemote(remote)` moves the counter `cur` to. -/
def next (cur remote : UInt64) : UInt64 := if remote ≥ cur then remote + 1 else cur + 1

/-- A call on the clock. -/
inductive Op
  | tickLocal
  | tickRemote (remote : UInt64)
  deriving DecidableEq, Repr

/-- The call done at once on the counter `v`: the counter it leaves, which is also what it returns.
    `TickLocal` is `atomic.AddUint64(&l.v, 1)`. -/
def Op.apply : Op → UInt64 → UInt64
  | .tickLocal, v => v + 1
  | .tickRemote remote, v => next v remote

/-- Where a goroutine is in `TickRemote(remote)`: about to load the counter, or holding the value
    `cur` it loaded, about to compare and swap. -/
inductive Pc
  | load
  | cas (cur : UInt64)
  deriving DecidableEq

/-- The counter, and the `TickRemote` call each goroutine is in. -/
structure Clock where
  v : UInt64
  calls : Nat → Option (UInt64 × Pc)

/-- The atomic steps of the goroutines on one clock. -/
inductive Step
  | tickLocal (g : Nat)
  | enter (g : Nat) (remote : UInt64)
  | load (g : Nat)
  | cas (g : Nat)

namespace Clock

/-- One atomic step, where the goroutine can take it: the clock after it and, where a call returns,
    the goroutine, its call and the value returned. -/
def step (c : Clock) : Step → Option (Clock × Option (Nat × Op × UInt64))
  | .tickLocal g =>
    if c.calls g = none then some ({ c with v := c.v + 1 }, some (g, .tickLocal, c.v + 1)) else none
  | .enter g remote =>
    if c.calls g = none then some ({ c with calls := Function.update c.calls g (some (remote, .load)) }, none)
    else none
  | .load g =>
    match c.calls g with
    | some (remote, .load) => some ({ c with calls := Function.update c.calls g (some (remote, .cas c.v)) }, none)
    | _ => none
  | .cas g =>
    match c.calls g with
    | some (remote, .cas cur) =>
      if c.v = cur then
        some (⟨next cur remote, Function.update c.calls g none⟩, some (g, .tickRemote remote, next cur remote))
      else some ({ c with calls := Function.update c.calls g (some (remote, .load)) }, none)
    | _ => none

/-- The steps `ss`, one after another: the clock they end with and the calls that returned, in
    order; `none` where a step cannot be taken. -/
def run (c : Clock) : List Step → Option (Clock × List (Nat × Op × UInt64))
  | [] => some (c, [])
  | s :: ss =>
    match c.step s with
    | some (c', r) => (c'.run ss).map fun (c'', rs) => (c'', r.toList ++ rs)
    | none => none

theorem step_cases {c c' : Clock} {s : Step} {r : Option (Nat × Op × UInt64)} (h : c.step s = some (c', r)) :
    (r = none ∧ c'.v = c.v) ∨ ∃ g op, r = some (g, op, op.apply c.v) ∧ c'.v = op.apply c.v := by
  cases s with
  | tickLocal g =>
    simp only [step] at h
    split_ifs at h
    cases h
    exact .inr ⟨g, .tickLocal, rfl, rfl⟩
  | enter g remote =>
    simp only [step] at h
    split_ifs at h
    cases h
    exact .inl ⟨rfl, rfl⟩
  | load g =>
    simp only [step] at h
    split at h <;> cases h
    exact .inl ⟨rfl, rfl⟩
  | cas g =>
    simp only [step] at h
    split at h
    · split_ifs at h with hv <;> cases h
      · subst hv
        exact .inr ⟨g, .tickRemote _, rfl, rfl⟩
      · exact .inl ⟨rfl, rfl⟩
    · cases h

end Clock

/-- The values returned by calls done one at a time from the counter `v`, in order. -/
def replay (v : UInt64) : List Op → List UInt64
  | [] => []
  | op :: ops => op.apply v :: replay (op.apply v) ops

/-- Every run of the goroutines on a clock is linearizable: the values the calls return, in the order
    they return, are those of the same calls done one at a time in that order, and the counter ends
    where that sequential run ends. -/
theorem run_linearizable {c c' : Clock} {ss : List Step} {rs : List (Nat × Op × UInt64)}
    (h : c.run ss = some (c', rs)) :
    rs.map (·.2.2) = replay c.v (rs.map (·.2.1)) ∧ c'.v = (rs.map (·.2.1)).foldl (fun v op => op.apply v) c.v := by
  induction ss generalizing c rs with
  | nil =>
    cases h
    exact ⟨rfl, rfl⟩
  | cons s ss ih =>
    simp only [Clock.run] at h
    split at h
    · rename_i c₁ r hs
      obtain ⟨⟨c₂, rs₂⟩, hrun, he⟩ := Option.map_eq_some'.1 h
      cases he
      obtain ⟨ih₁, ih₂⟩ := ih hrun
      rcases Clock.step_cases hs with ⟨rfl, hv⟩ | ⟨g, op, rfl, hv⟩
      · rw [hv] at ih₁ ih₂
        exact ⟨ih₁, ih₂⟩
      · rw [hv] at ih₁ ih₂
        exact ⟨by simp [replay, ih₁], ih₂⟩
    · cases h

/-- Goroutine 1 calls `TickRemote(5)` and loads 0; goroutine 2's `TickLocal` moves the counter to 1,
    so the CAS fails; the second load and CAS set 6. The calls return 1, then 6, as if done one after
    the other in that order. -/
theorem run_linearizable_retry :
    ∃ c', (⟨0, fun _ => none⟩ : Clock).run [.enter 1 5, .load 1, .tickLocal 2, .cas 1, .load 1, .cas 1] =
        some (c', [(2, .tickLocal, 1), (1, .tickRemote 5, 6)]) ∧
      [(1 : UInt64), 6] = replay 0 [.tickLocal, .tickRemote 5] ∧ c'.v = [Op.tickLocal, .tickRemote 5].foldl (fun v op => op.apply v) 0 := by
  obtain ⟨c', h⟩ : ∃ c', (⟨0, fun _ => none⟩ : Clock).run [.enter 1 5, .load 1, .tickLocal 2, .cas 1, .load 1, .cas 1] =
      some (c', [(2, .tickLocal, 1), (1, .tickRemote 5, 6)]) := ⟨_, rfl⟩
  exact ⟨c', h, run_linearizable h⟩

/-! ### Values below the largest `uint64`

While neither the counter nor the stamp is the largest `uint64`, each call returns more than the
counter it found, and `TickRemote` more than the stamp. -/

section NoWrap
variable {v r : UInt64}

theorem lt_iff_toNat {a b : UInt64} : a < b ↔ a.toNat < b.toNat := Iff.rfl

theorem toNat_add_one (h : v.toNat < 2 ^ 64 - 1) : (v + 1).toNat = v.toNat + 1 := by
  show (v.toBitVec + 1#64).toNat = _
  rw [BitVec.toNat_add, BitVec.toNat_ofNat]
  show (v.toNat + 1 % 2 ^ 64) % 2 ^ 64 = _
  omega

theorem lt_next (hv : v.toNat < 2 ^ 64 - 1) (hr : r.toNat < 2 ^ 64 - 1) : v < next v r ∧ r < next v r := by
  unfold next
  split_ifs with h
  · have : v.toNat ≤ r.toNat := h
    simp only [lt_iff_toNat, toNat_add_one hr]
    omega
  · have : r.toNat < v.toNat := lt_iff_toNat.1 (UInt64.not_le.1 h)
    simp only [lt_iff_toNat, toNat_add_one hv]
    omega

theorem lt_apply (hv : v.toNat < 2 ^ 64 - 1) : ∀ op : Op, (∀ r, op = .tickRemote r → r.toNat < 2 ^ 64 - 1) →
    v < op.apply v
  | .tickLocal, _ => by simp only [Op.apply, lt_iff_toNat, toNat_add_one hv]; omega
  | .tickRemote r, hr => (lt_next hv (hr r rfl)).1

end NoWrap

/-! ### The clocks of a cluster

Every message a table writes is stamped by the node's `TickLocal`, and `onNet` starts every message
a table handles with `TickRemote` of its stamp. The network here is as free as it can be: any node
may handle any message written so far, any number of times, in any order. -/

/-- A clock operation of a node: the stamp of the `k`-th message of the run, or the handling of it. -/
inductive Kind
  | send (k : Nat)
  | recv (k : Nat)
  deriving DecidableEq

/-- The clocks of a cluster. `hist n` lists node `n`'s clock operations, oldest first, each with the
    value it returned; `sent` lists the stamps of the messages, in the order they were written. -/
structure World where
  clock : NodeID → UInt64
  hist : NodeID → List (Kind × UInt64)
  sent : List UInt64

/-- The events of a run: a table of node `n` writes a message, or handles the `k`-th one written. -/
inductive Event
  | send (n : NodeID)
  | recv (n : NodeID) (k : Nat)

namespace World

/-- Every clock at zero, nothing sent. -/
def init : World := ⟨fun _ => 0, fun _ => [], []⟩

/-- Node `n`'s clock does `op`, recorded as `kind`. -/
def tick (w : World) (n : NodeID) (op : Op) (kind : Kind) : World :=
  { w with
    clock := Function.update w.clock n (op.apply (w.clock n))
    hist := Function.update w.hist n (w.hist n ++ [(kind, op.apply (w.clock n))]) }

/-- One event. Handling a message that was never written changes nothing. -/
def step (w : World) : Event → World
  | .send n => { w.tick n .tickLocal (.send w.sent.length) with sent := w.sent ++ [Op.tickLocal.apply (w.clock n)] }
  | .recv n k =>
    match w.sent[k]? with
    | some s => w.tick n (.tickRemote s) (.recv k)
    | none => w

/-- The events `es`, one after another. -/
def run (w : World) (es : List Event) : World := es.foldl step w

/-- The value node `n`'s `i`-th clock operation returned. -/
def stamp (w : World) (e : NodeID × Nat) : Option UInt64 := ((w.hist e.1)[e.2]?).map (·.2)

/-- Lamport's happened-before on the clock operations of a world: `(n, i)` is node `n`'s `i`-th
    operation. One operation happened before another of the same node that came later, the stamp of
    a message before every handling of it, and the relation is transitive. -/
inductive HB (w : World) : NodeID × Nat → NodeID × Nat → Prop
  | node {n : NodeID} {i j : Nat} : i < j → j < (w.hist n).length → HB w (n, i) (n, j)
  | msg {n m : NodeID} {i j k : Nat} : ((w.hist n)[i]?).map (·.1) = some (.send k) →
      ((w.hist m)[j]?).map (·.1) = some (.recv k) → HB w (n, i) (m, j)
  | trans {a b c : NodeID × Nat} : HB w a b → HB w b c → HB w a c

/-- No clock operation of the world returned the largest `uint64` or more. -/
def NoWrap (w : World) : Prop := ∀ n, ∀ e ∈ w.hist n, e.2.toNat < 2 ^ 64 - 1

end World

namespace World

section Steps
variable {w : World} {n m : NodeID} {op : Op} {kind : Kind}

@[simp] theorem tick_clock : (w.tick n op kind).clock m = if m = n then op.apply (w.clock n) else w.clock m := by
  by_cases h : m = n <;> simp [tick, h]

@[simp] theorem tick_hist :
    (w.tick n op kind).hist m = if m = n then w.hist n ++ [(kind, op.apply (w.clock n))] else w.hist m := by
  by_cases h : m = n <;> simp [tick, h]

theorem step_cases (e : Event) : w.step e = w ∨
    (∃ n, w.step e = { w.tick n .tickLocal (.send w.sent.length) with
      sent := w.sent ++ [Op.tickLocal.apply (w.clock n)] }) ∨
    ∃ n k s, w.sent[k]? = some s ∧ w.step e = w.tick n (.tickRemote s) (.recv k) := by
  cases e with
  | send n => exact .inr (.inl ⟨n, rfl⟩)
  | recv n k =>
    simp only [step]
    split
    · exact .inr (.inr ⟨n, k, _, ‹_›, rfl⟩)
    · exact .inl rfl

theorem hist_grows (e : Event) (m : NodeID) : w.hist m <+: (w.step e).hist m := by
  rcases step_cases (w := w) e with h | ⟨n, h⟩ | ⟨n, k, s, -, h⟩ <;> rw [h] <;>
    simp only [tick_hist] <;> split_ifs <;> simp_all

theorem NoWrap.of_step {e : Event} (h : (w.step e).NoWrap) : w.NoWrap :=
  fun m x hx => h m x ((hist_grows e m).subset hx)

end Steps

/-- What every reachable world keeps: each clock is the value of its node's last operation; a send
    returned the stamp of its message, and every stamp is the value of a send; a handling of a
    message, and every later operation of its node, returned more than the stamp. -/
structure Inv (w : World) : Prop where
  clock : ∀ n : NodeID, w.clock n = ((w.hist n).getLast?.map (·.2)).getD 0
  sent : ∀ (n : NodeID) (i k : Nat) (v : UInt64), (w.hist n)[i]? = some (Kind.send k, v) → w.sent[k]? = some v
  stamped : ∀ (k : Nat) (s : UInt64), w.sent[k]? = some s → ∃ n, (Kind.send k, s) ∈ w.hist n
  recv : ∀ (n : NodeID) (i k : Nat) (v : UInt64), (w.hist n)[i]? = some (Kind.recv k, v) → ∃ s, w.sent[k]? = some s ∧ (w.NoWrap → s < v)
  chain : w.NoWrap → ∀ n : NodeID, (w.hist n).Chain' (fun a b => a.2 < b.2)

theorem inv_init : Inv init :=
  ⟨fun _ => rfl, fun _ _ _ _ h => by simp [init] at h, fun _ _ h => by simp [init] at h,
    fun _ _ _ _ h => by simp [init] at h, fun _ _ => List.chain'_nil⟩

theorem getElem?_snoc {α : Type} {l : List α} {x y : α} {i : Nat} (h : (l ++ [x])[i]? = some y) :
    l[i]? = some y ∨ (i = l.length ∧ y = x) := by
  rcases Nat.lt_or_ge i l.length with hi | hi
  · rw [List.getElem?_append_left hi] at h
    exact .inl h
  · rw [List.getElem?_append_right hi] at h
    obtain ⟨hlt, he⟩ := List.getElem?_eq_some_iff.1 h
    simp only [List.length_singleton] at hlt
    simp only [show i - l.length = 0 by omega, List.getElem_singleton] at he
    exact .inr ⟨by omega, he.symm⟩

section Tick
variable {w : World} {n m : NodeID} {op : Op} {kind : Kind}

theorem getElem?_tick {i : Nat} {y : Kind × UInt64} (h : ((w.tick n op kind).hist m)[i]? = some y) :
    (w.hist m)[i]? = some y ∨ (m = n ∧ i = (w.hist n).length ∧ y = (kind, op.apply (w.clock n))) := by
  by_cases hm : m = n
  · subst hm
    simp only [tick_hist, if_pos rfl] at h
    rcases getElem?_snoc h with h | ⟨hi, hy⟩
    · exact .inl h
    · exact .inr ⟨rfl, hi, hy⟩
  · simp only [tick_hist, if_neg hm] at h
    exact .inl h

theorem mem_tick_hist {x : Kind × UInt64} (h : x ∈ w.hist m) : x ∈ (w.tick n op kind).hist m := by
  by_cases hm : m = n
  · subst hm
    simp [h]
  · simpa [hm] using h

theorem NoWrap.of_tick (h : (w.tick n op kind).NoWrap) : w.NoWrap :=
  fun m x hx => h m x (mem_tick_hist hx)

end Tick

section Inv
variable {w : World}

theorem Inv.clock_lt (hi : w.Inv) (hw : w.NoWrap) (n : NodeID) : (w.clock n).toNat < 2 ^ 64 - 1 := by
  rw [hi.clock n]
  cases hl : (w.hist n).getLast? with
  | none => decide
  | some e => exact hw n e (List.mem_of_getLast?_eq_some hl)

theorem Inv.stamp_lt (hi : w.Inv) (hw : w.NoWrap) {k : Nat} {s : UInt64} (hs : w.sent[k]? = some s) :
    s.toNat < 2 ^ 64 - 1 := by
  obtain ⟨n, hn⟩ := hi.stamped k s hs
  exact hw n _ hn

theorem Inv.tick (hi : w.Inv) (n : NodeID) (op : Op) (kind : Kind) :
    (∀ m, (w.tick n op kind).clock m = (((w.tick n op kind).hist m).getLast?.map (·.2)).getD 0) ∧
      (w.NoWrap → w.clock n < op.apply (w.clock n) → ∀ m, ((w.tick n op kind).hist m).Chain' (fun a b => a.2 < b.2)) := by
  refine ⟨fun m => ?_, fun hw hlt m => ?_⟩
  · by_cases h : m = n
    · subst h
      simp
    · simp [h, hi.clock m]
  · by_cases h : m = n
    · subst h
      simp only [tick_hist, if_pos rfl]
      refine (hi.chain hw m).append (List.chain'_singleton _) fun x hx y hy => ?_
      have hc := hi.clock m
      rw [Option.mem_def.1 hx] at hc
      simp only [List.head?_cons, Option.mem_def, Option.some.injEq] at hy
      rw [← hy]
      simpa [hc] using hlt
    · simpa [h] using hi.chain hw m

theorem Inv.tickLocal (hi : w.Inv) (n : NodeID) : (w.step (.send n)).Inv := by
  obtain ⟨hclock, hchain⟩ := hi.tick n .tickLocal (.send w.sent.length)
  have hpre {k : Nat} {v : UInt64} (h : w.sent[k]? = some v) :
      (w.sent ++ [Op.tickLocal.apply (w.clock n)])[k]? = some v := by
    rw [List.getElem?_append_left (List.getElem?_eq_some_iff.1 h).1, h]
  refine ⟨hclock, fun m i k v h => ?_, fun k s h => ?_, fun m i k v h => ?_,
    fun hw => hchain (NoWrap.of_step hw) (lt_apply (hi.clock_lt (NoWrap.of_step hw) n) _ nofun)⟩
  · rcases getElem?_tick h with h | ⟨-, -, he⟩
    · exact hpre (hi.sent m i k v h)
    · cases he
      simp [World.step]
  · rcases getElem?_snoc h with h | ⟨rfl, rfl⟩
    · obtain ⟨m, hm⟩ := hi.stamped k s h
      exact ⟨m, mem_tick_hist hm⟩
    · exact ⟨n, by simp [World.step]⟩
  · rcases getElem?_tick h with h | ⟨-, -, he⟩
    · obtain ⟨s, hs, hlt⟩ := hi.recv m i k v h
      exact ⟨s, hpre hs, fun hw => hlt (NoWrap.of_step hw)⟩
    · cases he

theorem Inv.tickRemote (hi : w.Inv) (n : NodeID) {k : Nat} {s : UInt64} (hs : w.sent[k]? = some s) :
    (w.tick n (.tickRemote s) (.recv k)).Inv := by
  obtain ⟨hclock, hchain⟩ := hi.tick n (.tickRemote s) (.recv k)
  refine ⟨hclock, fun m i k' v h => ?_, fun k' s' h => ?_, fun m i k' v h => ?_,
    fun hw => hchain (NoWrap.of_tick hw) (lt_next (hi.clock_lt (NoWrap.of_tick hw) n)
      (hi.stamp_lt (NoWrap.of_tick hw) hs)).1⟩
  · rcases getElem?_tick h with h | ⟨-, -, he⟩
    · exact hi.sent m i k' v h
    · cases he
  · obtain ⟨m, hm⟩ := hi.stamped k' s' h
    exact ⟨m, mem_tick_hist hm⟩
  · rcases getElem?_tick h with h | ⟨rfl, -, he⟩
    · obtain ⟨s', hs', hlt⟩ := hi.recv m i k' v h
      exact ⟨s', hs', fun hw => hlt (NoWrap.of_tick hw)⟩
    · cases he
      exact ⟨s, hs, fun hw => (lt_next (hi.clock_lt (NoWrap.of_tick hw) _) (hi.stamp_lt (NoWrap.of_tick hw) hs)).2⟩

theorem Inv.step (hi : w.Inv) : ∀ e : Event, (w.step e).Inv
  | .send n => hi.tickLocal n
  | .recv n k => by
    simp only [World.step]
    split
    · exact hi.tickRemote n ‹_›
    · exact hi

theorem Inv.run (hi : w.Inv) (es : List Event) : (w.run es).Inv := by
  induction es generalizing w with
  | nil => exact hi
  | cons e es ih => exact ih (hi.step e)

/-- Every clock, every value and every stamp is at most `k`. -/
def Bounded (k : Nat) (w : World) : Prop :=
  (∀ n, (w.clock n).toNat ≤ k) ∧ (∀ n, ∀ e ∈ w.hist n, e.2.toNat ≤ k) ∧ ∀ s ∈ w.sent, s.toNat ≤ k

theorem toNat_next_le {v r : UInt64} (hv : v.toNat < 2 ^ 64 - 1) (hr : r.toNat < 2 ^ 64 - 1) :
    (next v r).toNat ≤ max v.toNat r.toNat + 1 := by
  unfold next
  split_ifs
  · rw [toNat_add_one hr]; omega
  · rw [toNat_add_one hv]; omega

theorem Bounded.step {k : Nat} (hb : w.Bounded k) (hk : k < 2 ^ 64 - 1) (e : Event) : (w.step e).Bounded (k + 1) := by
  obtain ⟨hc, hh, hs⟩ := hb
  have hv {op : Op} (hop : ∀ r, op = .tickRemote r → r.toNat ≤ k) (n : NodeID) : (op.apply (w.clock n)).toNat ≤ k + 1 := by
    cases op with
    | tickLocal => rw [Op.apply, toNat_add_one (by have := hc n; omega)]; have := hc n; omega
    | tickRemote r =>
      have := hop r rfl
      have := hc n
      have := toNat_next_le (v := w.clock n) (r := r) (by omega) (by omega)
      simp only [Op.apply]
      omega
  have htick (op : Op) (kind : Kind) (hop : ∀ r, op = .tickRemote r → r.toNat ≤ k) (n : NodeID) :
      (∀ m, ((w.tick n op kind).clock m).toNat ≤ k + 1) ∧ ∀ m, ∀ x ∈ (w.tick n op kind).hist m, x.2.toNat ≤ k + 1 := by
    refine ⟨fun m => ?_, fun m x hx => ?_⟩
    · rw [tick_clock]
      split_ifs
      · exact hv hop n
      · have := hc m; omega
    · rw [tick_hist] at hx
      split_ifs at hx with hm
      · rcases List.mem_append.1 hx with hx | hx
        · have := hh m x (hm ▸ hx); omega
        · rw [List.mem_singleton.1 hx]; exact hv hop n
      · have := hh m x hx; omega
  cases e with
  | send n =>
    obtain ⟨h₁, h₂⟩ := htick .tickLocal (.send w.sent.length) (fun _ h => Op.noConfusion h) n
    refine ⟨h₁, h₂, fun s hs' => ?_⟩
    rcases List.mem_append.1 hs' with hs' | hs'
    · have := hs s hs'; omega
    · rw [List.mem_singleton.1 hs']; exact hv (fun _ h => Op.noConfusion h) n
  | recv n k' =>
    simp only [World.step]
    split
    · rename_i s hs'
      obtain ⟨h₁, h₂⟩ := htick (.tickRemote s) (.recv k')
        (fun r hr => by cases hr; exact hs s (List.mem_iff_getElem?.2 ⟨_, hs'⟩)) n
      exact ⟨h₁, h₂, fun s' hs'' => by have := hs s' hs''; omega⟩
    · exact ⟨fun n => by have := hc n; omega, fun n x hx => by have := hh n x hx; omega,
        fun s hs' => by have := hs s hs'; omega⟩

/-- After `j` events from a world bounded by `k`, the bound is `k + j`, while it stays below the
    largest `uint64`. -/
theorem Bounded.run {k : Nat} (hb : w.Bounded k) (es : List Event) (hk : k + es.length < 2 ^ 64 - 1) :
    (w.run es).Bounded (k + es.length) := by
  induction es generalizing w k with
  | nil => exact hb
  | cons e es ih =>
    have := ih (hb.step (by simp at hk; omega) e) (by simp at hk; omega)
    simpa [World.run, Nat.add_assoc, Nat.add_comm 1] using this

theorem noWrap_run {es : List Event} (hes : es.length < 2 ^ 64 - 1) : (init.run es).NoWrap := by
  have hb : init.Bounded 0 := ⟨fun _ => le_rfl, fun _ _ h => by simp [init] at h, fun _ h => by simp [init] at h⟩
  obtain ⟨-, hh, -⟩ := hb.run es (by omega)
  exact fun n e he => by have := hh n e he; omega

theorem getElem?_of_map_fst {l : List (Kind × UInt64)} {i : Nat} {kind : Kind} (h : (l[i]?).map (·.1) = some kind) :
    ∃ v, l[i]? = some (kind, v) := by
  obtain ⟨⟨kind', v⟩, hl, rfl⟩ := Option.map_eq_some'.1 h
  exact ⟨v, hl⟩

/-- Happened-before orders the values of the operations, while none has wrapped. -/
theorem Inv.stamp_lt_of_hb (hi : w.Inv) (hw : w.NoWrap) {a b : NodeID × Nat} (h : w.HB a b) :
    ∃ x y, w.stamp a = some x ∧ w.stamp b = some y ∧ x < y := by
  induction h with
  | @node n i j hij hj =>
    haveI : IsTrans (Kind × UInt64) fun a b => a.2 < b.2 := ⟨fun _ _ _ => UInt64.lt_trans⟩
    have hp := List.pairwise_iff_getElem.1 (List.chain'_iff_pairwise.1 (hi.chain hw n)) i j (by omega) hj hij
    exact ⟨_, _, by simp [stamp, List.getElem?_eq_getElem (show i < (w.hist n).length by omega)],
      by simp [stamp, List.getElem?_eq_getElem hj], hp⟩
  | @msg n m i j k hs hr =>
    obtain ⟨x, hx⟩ := getElem?_of_map_fst hs
    obtain ⟨y, hy⟩ := getElem?_of_map_fst hr
    obtain ⟨s, hs', hlt⟩ := hi.recv m j k y hy
    rw [hi.sent n i k x hx, Option.some.injEq] at hs'
    subst hs'
    exact ⟨x, y, by simp [stamp, hx], by simp [stamp, hy], hlt hw⟩
  | trans _ _ ih₁ ih₂ =>
    obtain ⟨x, y, hx, hy, hxy⟩ := ih₁
    obtain ⟨y', z, hy', hz, hyz⟩ := ih₂
    rw [hy, Option.some.injEq] at hy'
    subst hy'
    exact ⟨x, z, hx, hz, UInt64.lt_trans hxy hyz⟩

end Inv

end World

/-- Lamport's clock condition: in every run of fewer than `2^64 - 1` events, an operation that
    happened before another returned a smaller value. -/
theorem clock_condition {es : List Event} (hes : es.length < 2 ^ 64 - 1) {a b : NodeID × Nat}
    (h : (World.init.run es).HB a b) :
    ∃ x y, (World.init.run es).stamp a = some x ∧ (World.init.run es).stamp b = some y ∧ x < y :=
  (World.inv_init.run es).stamp_lt_of_hb (World.noWrap_run hes) h

/-- Node A stamps a message, node B handles it and then stamps one of its own: A's stamp is below
    B's. -/
theorem clock_condition_reply :
    let w := World.init.run [.send "A", .recv "B" 0, .send "B"]
    ∃ x y, w.stamp ("A", 0) = some x ∧ w.stamp ("B", 1) = some y ∧ x < y :=
  clock_condition (by decide) (.trans (b := ("B", 0)) (.msg rfl rfl) (.node (by decide) (by decide)))

end Lamport

end P2Poker
