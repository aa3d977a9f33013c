import P2Poker.Table.Handlers

/-! The replicas of one table on a network of nodes, and the runs of the protocol.

    Every node id has a replica and a FIFO channel to every other node. This is an abstraction of
    the nodes on `netx.TCP`, which holds when each pair of nodes is connected once before the table
    is used and nobody dials after (`P2Poker.Cluster.Tcp`). A step is one event of one node: a local proposal
    (`ProposeLocal`), the handling of the oldest message some other node has sent it (`onNet`), a
    tick of the authority ticker (`sendHeartbeat`), the expiry of the follower timer
    (`tryAuthorityTakeover`), or the `STATE_QUERY` that discovery broadcasts. Any event may come at
    any time: the timers are not modelled, and a run may hold back any channel for as long as it
    likes. A node whose process has panicked does nothing more; what it is sent is lost.

    `ProposeLocal` runs on the caller's goroutine (the REPL), not on the table's, and Go takes no
    lock around it: a proposal may interleave with an `onNet` of the same table. The model assumes
    each call runs alone, as one step. -/

namespace P2Poker

/-- A global state. `chan i j` holds the messages node `i` has written and node `j` has not yet
    handled, oldest first. -/
structure Cluster where
  table : NodeID → Table
  chan : NodeID → NodeID → List NetMessage

/-- The events of a run. -/
inductive Event
  | propose (i : NodeID) (a : Action)
  | deliver (i j : NodeID)
  | heartbeat (i : NodeID)
  | takeover (i : NodeID)
  | query (i : NodeID)

namespace Cluster

/-- The table `tid` as the manager sets it up: node `auth` creates it as authority at epoch 0
    (`CreateLocalAuthorityTable`) and every other node attaches a follower with the same
    configuration at epoch 0 (`AttachFollowerTable`). -/
def init (tid : TableID) (cfg : TableConfig) (auth : NodeID) : Cluster where
  table i := Table.new tid i cfg (decide (i = auth)) 0
  chan _ _ := []

/-- Node `i` leaves its replica as `r.1` and writes `r.2`, which goes to every other node. -/
def act (c : Cluster) (i : NodeID) (r : Table × List NetMessage) : Cluster where
  table k := if k = i then r.1 else c.table k
  chan s d := if s = i ∧ d ≠ i then c.chan s d ++ r.2 else c.chan s d

/-- Node `j` takes the oldest message from `i` off the channel. -/
def pop (c : Cluster) (i j : NodeID) : Cluster :=
  { c with chan := fun s d => if s = i ∧ d = j then (c.chan s d).tail else c.chan s d }

/-- One event. A delivery from an empty channel changes nothing. The discovery query goes out from
    the node, not from its replica, under epoch 0. -/
def step (rt : Runtime) (c : Cluster) : Event → Cluster
  | .propose i a => c.act i ((c.table i).handle rt (.propose a))
  | .deliver i j =>
    match c.chan i j with
    | [] => c
    | m :: _ => (c.pop i j).act j ((c.table j).handle rt (.net m))
  | .heartbeat i => c.act i ((c.table i).handle rt .heartbeat)
  | .takeover i => c.act i ((c.table i).handle rt .takeover)
  | .query i =>
    c.act i (c.table i, if (c.table i).panicked then [] else [⟨(c.table i).id, i, .stateQuery, 0, 0, none, none⟩])

/-- The events `es`, one after another. -/
def run (rt : Runtime) (c : Cluster) (es : List Event) : Cluster := es.foldl (step rt) c

section Updates
variable {c : Cluster} {i j k s d : NodeID} {r : Table × List NetMessage}

@[simp] theorem act_table_self : (c.act i r).table i = r.1 := if_pos rfl

@[simp] theorem act_table_ne (h : k ≠ i) : (c.act i r).table k = c.table k := if_neg h

theorem act_chan_self (h : d ≠ i) : (c.act i r).chan i d = c.chan i d ++ r.2 := if_pos ⟨rfl, h⟩

theorem act_chan_ne (h : s ≠ i) : (c.act i r).chan s d = c.chan s d := if_neg fun h' => h h'.1

@[simp] theorem act_chan_diag : (c.act j r).chan i i = c.chan i i := if_neg fun h' => h'.2 h'.1

@[simp] theorem pop_table : (c.pop i j).table = c.table := rfl

@[simp] theorem pop_chan_self : (c.pop i j).chan i j = (c.chan i j).tail := if_pos ⟨rfl, rfl⟩

theorem pop_chan_ne (h : s ≠ i ∨ d ≠ j) : (c.pop i j).chan s d = c.chan s d :=
  if_neg fun h' => h.elim (· h'.1) (· h'.2)

theorem pop_chan_nil (h : c.chan s d = []) : (c.pop i j).chan s d = [] := by
  show (if s = i ∧ d = j then (c.chan s d).tail else c.chan s d) = []
  split <;> simp only [h, List.tail_nil]

theorem act_stay : c.act i (c.table i, []) = c := by
  obtain ⟨table, chan⟩ := c
  simp only [act, List.append_nil, ite_self, mk.injEq]
  exact ⟨funext fun k => by split <;> simp_all, trivial⟩

theorem act_panicked {t : Table} (ht : c.table i = t) (hp : t.panicked = true) (rt : Runtime) (x : Table.Input) :
    c.act i (t.handle rt x) = c := by
  rw [Table.handle_panicked hp, ← ht, act_stay]

end Updates

/-- The global states a run reaches from `c₀` by events that `ok` allows. -/
inductive Reach (rt : Runtime) (ok : Cluster → Event → Prop) (c₀ : Cluster) : Cluster → Prop
  | init : Reach rt ok c₀ c₀
  | step {c : Cluster} (e : Event) : Reach rt ok c₀ c → ok c e → Reach rt ok c₀ (c.step rt e)

theorem Reach.run {rt : Runtime} {ok : Cluster → Event → Prop} {c₀ c : Cluster} (h : Reach rt ok c₀ c)
    (hok : ∀ c e, ok c e) (es : List Event) : Reach rt ok c₀ (c.run rt es) := by
  induction es generalizing c with
  | nil => exact h
  | cons e es ih => exact ih (h.step e (hok c e))

theorem step_chan_diag {rt : Runtime} {c : Cluster} {i : NodeID} (h : c.chan i i = []) (e : Event) :
    (c.step rt e).chan i i = [] := by
  cases e with
  | deliver s d =>
    simp only [step]
    split
    · exact h
    · rw [act_chan_diag, pop_chan_nil h]
  | _ => simp only [step, act_chan_diag, h]

theorem Reach.chan_diag {rt : Runtime} {ok : Cluster → Event → Prop} {c₀ c : Cluster}
    (h : Reach rt ok c₀ c) (h₀ : ∀ i, c₀.chan i i = []) (i : NodeID) : c.chan i i = [] := by
  induction h with
  | init => exact h₀ i
  | step e _ _ ih => exact step_chan_diag ih e

end Cluster
end P2Poker
