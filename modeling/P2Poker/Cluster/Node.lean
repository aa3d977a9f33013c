import P2Poker.Table.Runs

/-! A node (`cluster.Node`) with its `TableManager` and `Router`: the tables it holds, the dispatcher
    that hands each message from the network to the inbox of its table, and the discovery of a table
    the node does not hold yet (`DiscoverAndAttach`).

    The dispatcher takes the messages of the network one at a time. The router hands a message for a
    table of the node to that table's inbox, a channel the table's goroutine reads in order; any
    other message goes to `maybeDeliverDiscovery`, which puts a `SNAPSHOT` into the waiter of its
    table, a channel of capacity one, when there is one and it is empty, and drops everything else.
    The manager never removes a table.

    Each table handles the messages the dispatcher took for it since it was made, in the order it
    took them, each once (`handled_inbox_eq`); that is the per-table FIFO delivery the cluster model
    assumes. A discovery adopts the first `SNAPSHOT` of its table that the dispatcher took after the
    discovery began, and drops the later ones (`discovered_first_snapshot`). A `SNAPSHOT` with no
    state, for a table under discovery, stops the process (`maybeDeliverDiscovery` reads
    `*msg.State`), and so does a table whose `apply` panics; a stopped process takes no more steps.

    The facts about runs come from one invariant, `Inv`, that every event keeps (`Inv.step`). The
    model runs each call of the manager, each round of the dispatcher and each input a table handles
    as one event; the ids a node holds, its waiters and the network it writes to are the state they
    share. `ProposeLocal` is called on the REPL's goroutine while the table's goroutine may be in
    `onNet`, and Go takes no lock: the model assumes the two never overlap. -/

namespace P2Poker

/-- A table of the node: its replica, its inbox (the messages routed to it that its goroutine has not
    handled yet, oldest first) and, for the proofs, the messages it has handled and the number of
    messages the dispatcher had taken when the table was made. -/
structure Local where
  table : Table
  inbox : List NetMessage
  handled : List NetMessage
  since : Nat

/-- A waiter of `DiscoverAndAttach`: its channel of capacity one and, for the proofs, the number of
    messages the dispatcher had taken when it was made. -/
structure Waiter where
  buf : Option TableSnapshot
  since : Nat

/-- A node. `tables` is the manager's map, `router` the ids registered with the router, `pending` the
    discovery waiters and `out` the messages written to the network, in order; `alive` turns false
    when the process panics. `dispatched` lists, for the proofs, every message the dispatcher took
    from the network and handed on. -/
structure Node where
  self : NodeID
  tables : TableID → Option Local
  router : TableID → Bool
  pending : TableID → Option Waiter
  out : List NetMessage
  alive : Bool
  dispatched : List NetMessage

/-- What a node is asked to do: the manager's and the node's exported methods, one round of the
    dispatcher, one message handled by a table's goroutine, and the inputs of a table that do not
    come from its inbox. `DiscoverAndAttach` is three events: its start, and its end with the
    snapshot of its waiter or with the timeout. -/
inductive Node.Event
  | createLocalAuthorityTable (id : TableID) (cfg : TableConfig)
  | attachFollowerTable (id : TableID) (cfg : TableConfig) (epoch : Nat)
  | createTable (id : TableID) (cfg : TableConfig) (aid : String)
  | joinTableRemote (id : TableID) (epoch : Nat) (cfg : TableConfig) (aid : String)
  | dispatch (msg : NetMessage)
  | handleNext (id : TableID)
  | input (id : TableID) (i : Table.Input)
  | discover (id : TableID)
  | discovered (id : TableID) (aid : String)
  | timeout (id : TableID)

namespace Node

variable (rt : Runtime)

/-- A node with no table, no waiter and nothing sent. -/
def init (self : NodeID) : Node := ⟨self, fun _ => none, fun _ => false, fun _ => none, [], true, []⟩

/-- `CreateLocalAuthorityTable` and `AttachFollowerTable`: a new replica, registered with the router,
    unless the manager holds the id already. -/
def addTable (n : Node) (id : TableID) (cfg : TableConfig) (authority : Bool) (epoch : Nat) :
    Node × Option String :=
  if (n.tables id).isSome then (n, some "table exists")
  else
    ({ n with
      tables := Function.update n.tables id (some ⟨Table.new id n.self cfg authority epoch, [], [], n.dispatched.length⟩)
      router := Function.update n.router id true }, none)

/-- `CreateLocalAuthorityTable(id, cfg)`. -/
def createLocalAuthorityTable (n : Node) (id : TableID) (cfg : TableConfig) : Node × Option String :=
  n.addTable id cfg true 0

/-- `AttachFollowerTable(id, cfg, epoch)`. -/
def attachFollowerTable (n : Node) (id : TableID) (cfg : TableConfig) (epoch : Nat) : Node × Option String :=
  n.addTable id cfg false epoch

/-- Table `id`'s goroutine handles `i`: the replica it leaves, and the messages it writes. A panic in
    the handler stops the process. -/
def runTable (n : Node) (id : TableID) (l : Local) (i : Table.Input) (inbox : List NetMessage)
    (handled : List NetMessage) : Node :=
  let r := l.table.handle rt i
  { n with tables := Function.update n.tables id (some { l with table := r.1, inbox := inbox, handled := handled })
           out := n.out ++ r.2
           alive := n.alive && !r.1.panicked }

/-- `t.ProposeLocal(a)` on the table `id`, if the node holds it. -/
def proposeOn (n : Node) (id : TableID) (a : Action) : Node :=
  match n.tables id with
  | some l => n.runTable rt id l (.propose a) l.inbox l.handled
  | none => n

/-- `Router.Route(msg)`: if the router has the message's table, the message joins its inbox. -/
def route (n : Node) (msg : NetMessage) : Option Node :=
  if n.router msg.table then
    some { n with
      tables := Function.update n.tables msg.table
        ((n.tables msg.table).map fun l => { l with inbox := l.inbox ++ [msg] }) }
  else none

/-- `maybeDeliverDiscovery(msg)`: a `SNAPSHOT` goes into the waiter of its table if the channel is
    empty; everything else is dropped. The send reads `*msg.State` first: a snapshot without a state
    panics, and the process stops with the message not handed on. -/
def maybeDeliverDiscovery (n : Node) (msg : NetMessage) : Node × Option String :=
  if msg.type ≠ .snapshot then ({ n with dispatched := n.dispatched ++ [msg] }, none)
  else
    match n.pending msg.table, msg.state with
    | none, _ => ({ n with dispatched := n.dispatched ++ [msg] }, none)
    | some _, none => ({ n with alive := false }, some "nil pointer dereference")
    | some w, some ss =>
      match w.buf with
      | none =>
        ({ n with
          pending := Function.update n.pending msg.table (some { w with buf := some ss })
          dispatched := n.dispatched ++ [msg] }, none)
      | some _ => ({ n with dispatched := n.dispatched ++ [msg] }, none)

/-- One round of `dispatcher`, on the message `msg` it takes from the network. -/
def dispatch (n : Node) (msg : NetMessage) : Node × Option String :=
  match n.route msg with
  | some n' => ({ n' with dispatched := n.dispatched ++ [msg] }, none)
  | none => n.maybeDeliverDiscovery msg

/-- The message `STATE_QUERY` the node sends for a table. -/
def stateQuery (n : Node) (id : TableID) (epoch : Nat) : NetMessage := ⟨id, n.self, .stateQuery, epoch, 0, none, none⟩

/-- The start of `DiscoverAndAttach(tableID)`: a waiter for the table, and a `STATE_QUERY` for it. -/
def discover (n : Node) (id : TableID) : Node × Option String :=
  if (n.pending id).isSome then (n, some "discovery already in progress")
  else
    ({ n with
      pending := Function.update n.pending id (some ⟨none, n.dispatched.length⟩)
      out := n.out ++ [n.stateQuery id 0] }, none)

/-- `DiscoverAndAttach` takes the snapshot `ss` from its waiter: the waiter goes, a follower is
    attached with the snapshot's configuration and epoch, and it proposes `JOIN` (action id `aid`). -/
def discovered (n : Node) (id : TableID) (ss : TableSnapshot) (aid : String) : Node × Option String :=
  let n := { n with pending := Function.update n.pending id none }
  match n.attachFollowerTable id ss.cfg ss.epoch with
  | (n', some e) => (n', some e)
  | (n', none) => (n'.proposeOn rt id ⟨aid, .join, n.self, 0, none⟩, none)

/-- `DiscoverAndAttach` times out: the waiter goes. -/
def timeout (n : Node) (id : TableID) : Node × Option String :=
  ({ n with pending := Function.update n.pending id none }, some "discover timeout (no snapshot received)")

/-- `CreateTable`: an authority table, then its `CREATE_TABLE` proposal. -/
def createTable (n : Node) (id : TableID) (cfg : TableConfig) (aid : String) : Node × Option String :=
  match n.createLocalAuthorityTable id cfg with
  | (n', some e) => (n', some e)
  | (n', none) => (n'.proposeOn rt id ⟨aid, .createTable, n.self, 0, none⟩, none)

/-- `JoinTableRemote(tableID, epoch, cfg)`: a follower, a `STATE_QUERY` under its epoch, and its
    `JOIN` proposal. -/
def joinTableRemote (n : Node) (id : TableID) (epoch : Nat) (cfg : TableConfig) (aid : String) :
    Node × Option String :=
  match n.attachFollowerTable id cfg epoch with
  | (n', some e) => (n', some e)
  | (n', none) =>
    ({ n' with out := n'.out ++ [n'.stateQuery id epoch] }.proposeOn rt id ⟨aid, .join, n.self, 0, none⟩, none)

/-- An event on a running process: the node it leaves and the error it returns. A table's goroutine
    takes its inbox's oldest message; the other inputs of a table (local proposals, ticks, the
    follower timer) come to it directly. An event that cannot happen (a table the node does not hold,
    an empty inbox, a waiter that is not there or holds nothing) changes nothing. -/
def step' (n : Node) : Event → Node × Option String
  | .createLocalAuthorityTable id cfg => n.createLocalAuthorityTable id cfg
  | .attachFollowerTable id cfg epoch => n.attachFollowerTable id cfg epoch
  | .createTable id cfg aid => n.createTable rt id cfg aid
  | .joinTableRemote id epoch cfg aid => n.joinTableRemote rt id epoch cfg aid
  | .dispatch msg => n.dispatch msg
  | .handleNext id =>
    match n.tables id with
    | some l =>
      match l.inbox with
      | m :: rest => (n.runTable rt id l (.net m) rest (l.handled ++ [m]), none)
      | [] => (n, none)
    | none => (n, none)
  | .input id i =>
    match i, n.tables id with
    | .net _, _ => (n, none)
    | i, some l => (n.runTable rt id l i l.inbox l.handled, none)
    | _, none => (n, none)
  | .discover id => n.discover id
  | .discovered id aid =>
    match n.pending id with
    | some ⟨some ss, _⟩ => n.discovered rt id ss aid
    | _ => (n, none)
  | .timeout id => if (n.pending id).isSome then n.timeout id else (n, none)

/-- One event; once the process has stopped, nothing happens. -/
def step (n : Node) (e : Event) : Node × Option String :=
  if n.alive then n.step' rt e else (n, none)

/-- The node after the events `es`, in order. -/
def run (n : Node) (es : List Event) : Node := es.foldl (fun n e => (n.step rt e).1) n

end Node

/-- The nodes reached from a fresh node by events. -/
inductive Node.Reachable (rt : Runtime) : Node → Prop
  | init (self : NodeID) : Node.Reachable rt (Node.init self)
  | step {n : Node} (e : Node.Event) : Node.Reachable rt n → Node.Reachable rt (n.step rt e).1

namespace Node

theorem Reachable.run {rt : Runtime} {n : Node} (h : n.Reachable rt) (es : List Event) : (n.run rt es).Reachable rt := by
  induction es generalizing n with
  | nil => exact h
  | cons e es ih => exact ih (h.step e)

/-- A snapshot message of table `id`. -/
def isSnapshotOf (id : TableID) (m : NetMessage) : Bool := m.table = id && m.type = .snapshot

/-- What every reachable node keeps. The router holds exactly the manager's tables. Each table has
    handled, then holds in its inbox, the messages the dispatcher took for it since it was made. A
    waiter that holds a snapshot holds the one of the first snapshot of its table since the waiter
    was made; an empty waiter has seen every such snapshot go to a table of the node. A running node
    holds no replica that has panicked. -/
structure Inv (n : Node) : Prop where
  router : ∀ id, n.router id = (n.tables id).isSome
  since : ∀ id l, n.tables id = some l → l.since ≤ n.dispatched.length
  fifo : ∀ id l, n.tables id = some l → l.handled ++ l.inbox = (n.dispatched.drop l.since).filter (·.table = id)
  waiter_since : ∀ id w, n.pending id = some w → w.since ≤ n.dispatched.length
  full : ∀ id w ss, n.pending id = some w → w.buf = some ss →
    ∃ msg, (n.dispatched.drop w.since).find? (isSnapshotOf id) = some msg ∧ msg.state = some ss
  empty : ∀ id w, n.pending id = some w → w.buf = none →
    ∀ msg ∈ n.dispatched.drop w.since, isSnapshotOf id msg → (n.tables id).isSome
  live : n.alive = true → ∀ id l, n.tables id = some l → l.table.panicked = false

theorem inv_init (self : NodeID) : (init self).Inv :=
  ⟨fun _ => rfl, fun _ _ h => Option.noConfusion h, fun _ _ h => Option.noConfusion h,
    fun _ _ h => Option.noConfusion h, fun _ _ _ h => Option.noConfusion h, fun _ _ h => Option.noConfusion h,
    fun _ _ _ h => Option.noConfusion h⟩

section Inv
variable {rt : Runtime} {n : Node}

theorem Inv.out (hi : n.Inv) (o : List NetMessage) : { n with out := o }.Inv :=
  ⟨hi.router, hi.since, hi.fifo, hi.waiter_since, hi.full, hi.empty, hi.live⟩

theorem Inv.setTable (hi : n.Inv) {id : TableID} {l : Local} (hs : l.since ≤ n.dispatched.length)
    (hf : l.handled ++ l.inbox = (n.dispatched.drop l.since).filter (·.table = id)) {r : TableID → Bool}
    (hr : ∀ id', r id' = (Function.update n.tables id (some l) id').isSome) (o : List NetMessage) {b : Bool}
    (hb : b = true → n.alive = true ∧ l.table.panicked = false) :
    { n with tables := Function.update n.tables id (some l), router := r, out := o, alive := b }.Inv := by
  refine ⟨hr, fun id' l' hl => ?_, fun id' l' hl => ?_, hi.waiter_since, hi.full, fun id' w hw hb msg hm hs' => ?_,
    fun ha id' l' hl => ?_⟩
  · by_cases e : id' = id
    · subst e; simp at hl; rwa [← hl]
    · simp only [Function.update_noteq e] at hl; exact hi.since id' l' hl
  · by_cases e : id' = id
    · subst e; simp at hl; rwa [← hl]
    · simp only [Function.update_noteq e] at hl; exact hi.fifo id' l' hl
  · by_cases e : id' = id
    · subst e; simp
    · simp only [Function.update_noteq e]; exact hi.empty id' w hw hb msg hm hs'
  · by_cases e : id' = id
    · subst e; simp at hl; rw [← hl]; exact (hb ha).2
    · simp only [Function.update_noteq e] at hl; exact hi.live (hb ha).1 id' l' hl

theorem Inv.addTable (hi : n.Inv) (id : TableID) (cfg : TableConfig) (authority : Bool) (epoch : Nat) :
    (n.addTable id cfg authority epoch).1.Inv := by
  unfold Node.addTable
  split_ifs
  · exact hi
  · refine hi.setTable le_rfl (by simp) (fun id' => ?_) n.out fun h => ⟨h, rfl⟩
    by_cases e : id' = id
    · subst e; simp
    · simp [Function.update_noteq e, hi.router id']

theorem Inv.runTable (hi : n.Inv) {id : TableID} {l : Local} (hl : n.tables id = some l) (i : Table.Input)
    {inbox handled : List NetMessage} (hh : handled ++ inbox = l.handled ++ l.inbox) :
    (n.runTable rt id l i inbox handled).Inv := by
  refine hi.setTable (l := { l with table := (l.table.handle rt i).1, inbox := inbox, handled := handled })
    (hi.since id l hl) (by rw [← hi.fifo id l hl, ← hh]) (fun id' => ?_) _ fun h => by simpa using h
  by_cases e : id' = id
  · subst e; simp [hi.router, hl]
  · simp [Function.update_noteq e, hi.router id']

theorem Inv.proposeOn (hi : n.Inv) (id : TableID) (a : Action) : (n.proposeOn rt id a).Inv := by
  unfold Node.proposeOn
  split
  · exact hi.runTable ‹_› _ rfl
  · exact hi

theorem Inv.clearPending (hi : n.Inv) (id : TableID) : { n with pending := Function.update n.pending id none }.Inv := by
  have hw {id' : TableID} {w : Waiter} (h : Function.update n.pending id none id' = some w) : n.pending id' = some w := by
    by_cases e : id' = id
    · subst e; simp at h
    · rwa [Function.update_noteq e] at h
  exact ⟨hi.router, hi.since, hi.fifo, fun id' w h => hi.waiter_since id' w (hw h),
    fun id' w ss h => hi.full id' w ss (hw h), fun id' w h => hi.empty id' w (hw h), hi.live⟩

theorem Inv.discover (hi : n.Inv) (id : TableID) : (n.discover id).1.Inv := by
  unfold Node.discover
  split_ifs with h
  · exact hi
  · simp only [Option.not_isSome, Option.isNone_iff_eq_none] at h
    refine ⟨hi.router, hi.since, hi.fifo, fun id' w hw => ?_, fun id' w ss hw hb => ?_, fun id' w hw hb msg hm => ?_,
      hi.live⟩ <;> by_cases e : id' = id
    · subst e; simp at hw; simp [← hw]
    · simp only [Function.update_noteq e] at hw; exact hi.waiter_since id' w hw
    · subst e; simp at hw; simp [← hw] at hb
    · simp only [Function.update_noteq e] at hw; exact hi.full id' w ss hw hb
    · subst e; simp at hw; simp [← hw] at hm
    · simp only [Function.update_noteq e] at hw; exact hi.empty id' w hw hb msg hm

theorem drop_snoc {l : List NetMessage} {k : Nat} (hk : k ≤ l.length) (m : NetMessage) :
    (l ++ [m]).drop k = l.drop k ++ [m] := List.drop_append_of_le_length hk

theorem Inv.skip (hi : n.Inv) {msg : NetMessage} (hno : n.tables msg.table = none)
    (hsnap : ∀ id w, n.pending id = some w → w.buf = none → isSnapshotOf id msg = false) :
    { n with dispatched := n.dispatched ++ [msg] }.Inv := by
  refine ⟨hi.router, fun id l hl => ?_, fun id l hl => ?_, fun id w hw => ?_, fun id w ss hw hb => ?_,
    fun id w hw hb m hm hs => ?_, hi.live⟩
  · have := hi.since id l hl; simp; omega
  · have hne : msg.table ≠ id := fun e => by rw [e, hl] at hno; cases hno
    simp [drop_snoc (hi.since id l hl), hi.fifo id l hl, hne]
  · have := hi.waiter_since id w hw; simp; omega
  · obtain ⟨m, hf, hs⟩ := hi.full id w ss hw hb
    exact ⟨m, by simp [drop_snoc (hi.waiter_since id w hw), List.find?_append, hf], hs⟩
  · rw [drop_snoc (hi.waiter_since id w hw)] at hm
    rcases List.mem_append.1 hm with hm | hm
    · exact hi.empty id w hw hb m hm hs
    · rw [List.mem_singleton.1 hm, hsnap id w hw hb] at hs
      cases hs

theorem Inv.fill (hi : n.Inv) {msg : NetMessage} {w : Waiter} {ss : TableSnapshot}
    (hno : n.tables msg.table = none) (hw : n.pending msg.table = some w) (hb : w.buf = none)
    (hs : msg.type = .snapshot) (hst : msg.state = some ss) :
    { n with
      pending := Function.update n.pending msg.table (some { w with buf := some ss })
      dispatched := n.dispatched ++ [msg] }.Inv := by
  have hfirst : (n.dispatched.drop w.since).find? (isSnapshotOf msg.table) = none :=
    List.find?_eq_none.2 fun m hm hsm => by
      have := hi.empty _ w hw hb m hm hsm
      rw [hno] at this
      cases this
  refine ⟨hi.router, fun id l hl => ?_, fun id l hl => ?_, fun id w' hw' => ?_, fun id w' ss' hw' hb' => ?_,
    fun id w' hw' hb' m hm hsm => ?_, hi.live⟩
  · have := hi.since id l hl; simp; omega
  · have hne : msg.table ≠ id := fun e => by rw [e, hl] at hno; cases hno
    simp [drop_snoc (hi.since id l hl), hi.fifo id l hl, hne]
  · by_cases e : id = msg.table
    · subst e; simp at hw'; have := hi.waiter_since _ w hw; simp [← hw']; omega
    · simp only [Function.update_noteq e] at hw'; have := hi.waiter_since id w' hw'; simp; omega
  · by_cases e : id = msg.table
    · subst e
      simp at hw'
      subst hw'
      simp only [Option.some.injEq] at hb'
      subst hb'
      refine ⟨msg, ?_, hst⟩
      simp [drop_snoc (hi.waiter_since _ w hw), List.find?_append, hfirst, isSnapshotOf, hs]
    · simp only [Function.update_noteq e] at hw'
      obtain ⟨m, hf, hs'⟩ := hi.full id w' ss' hw' hb'
      exact ⟨m, by simp [drop_snoc (hi.waiter_since id w' hw'), List.find?_append, hf], hs'⟩
  · by_cases e : id = msg.table
    · subst e; simp at hw'; simp [← hw'] at hb'
    · simp only [Function.update_noteq e] at hw'
      rw [drop_snoc (hi.waiter_since id w' hw')] at hm
      rcases List.mem_append.1 hm with hm | hm
      · exact hi.empty id w' hw' hb' m hm hsm
      · rw [List.mem_singleton.1 hm] at hsm
        simp [isSnapshotOf] at hsm
        exact absurd hsm.1.symm e

theorem Inv.route (hi : n.Inv) {msg : NetMessage} {l : Local} (hl : n.tables msg.table = some l) :
    { n with
      tables := Function.update n.tables msg.table (some { l with inbox := l.inbox ++ [msg] })
      dispatched := n.dispatched ++ [msg] }.Inv := by
  have hsome {id : TableID} (h : (n.tables id).isSome) :
      (Function.update n.tables msg.table (some { l with inbox := l.inbox ++ [msg] }) id).isSome := by
    by_cases e : id = msg.table
    · subst e; simp
    · rwa [Function.update_noteq e]
  refine ⟨fun id => ?_, fun id l' hl' => ?_, fun id l' hl' => ?_, fun id w hw => ?_, fun id w ss hw hb => ?_,
    fun id w hw hb m hm hsm => ?_, fun ha id l' hl' => ?_⟩
  · by_cases e : id = msg.table
    · subst e; simp [hi.router, hl]
    · simp [Function.update_noteq e, hi.router id]
  · by_cases e : id = msg.table
    · subst e; simp at hl'; have := hi.since _ l hl; simp [← hl']; omega
    · simp only [Function.update_noteq e] at hl'; have := hi.since id l' hl'; simp; omega
  · by_cases e : id = msg.table
    · subst e
      simp at hl'
      subst hl'
      simp [drop_snoc (hi.since _ l hl), ← hi.fifo _ l hl]
    · simp only [Function.update_noteq e] at hl'
      simp [drop_snoc (hi.since id l' hl'), hi.fifo id l' hl', Ne.symm e]
  · have := hi.waiter_since id w hw; simp; omega
  · obtain ⟨m, hf, hs⟩ := hi.full id w ss hw hb
    exact ⟨m, by simp [drop_snoc (hi.waiter_since id w hw), List.find?_append, hf], hs⟩
  · rw [drop_snoc (hi.waiter_since id w hw)] at hm
    rcases List.mem_append.1 hm with hm | hm
    · exact hsome (hi.empty id w hw hb m hm hsm)
    · rw [List.mem_singleton.1 hm] at hsm
      simp only [isSnapshotOf, Bool.and_eq_true, decide_eq_true_eq] at hsm
      rw [← hsm.1]
      exact hsome (by rw [hl]; rfl)
  · by_cases e : id = msg.table
    · subst e; simp at hl'; rw [← hl']; exact hi.live ha _ l hl
    · simp only [Function.update_noteq e] at hl'; exact hi.live ha id l' hl'

theorem Inv.dispatch (hi : n.Inv) (msg : NetMessage) : (n.dispatch msg).1.Inv := by
  unfold Node.dispatch Node.route
  by_cases hr : n.router msg.table = true
  · obtain ⟨l, hl⟩ := Option.isSome_iff_exists.1 (hi.router msg.table ▸ hr)
    simp only [hr, if_true, hl, Option.map_some']
    exact hi.route hl
  · have hno : n.tables msg.table = none := by
      simpa [hi.router msg.table] using hr
    simp only [hr, Bool.false_eq_true, if_false]
    unfold Node.maybeDeliverDiscovery
    split_ifs with ht
    · exact hi.skip hno fun id w _ _ => by simp [isSnapshotOf, ht]
    · have ht : msg.type = .snapshot := not_not.1 ht
      split
      · rename_i hp
        refine hi.skip hno fun id w hw _ => ?_
        simp only [isSnapshotOf, ht, decide_True, Bool.and_true, decide_eq_false_iff_not]
        rintro rfl
        rw [hp] at hw
        cases hw
      · exact ⟨hi.router, hi.since, hi.fifo, hi.waiter_since, hi.full, hi.empty, nofun⟩
      · rename_i w ss hp hst
        split
        · exact hi.fill hno hp ‹_› ht hst
        · refine hi.skip hno fun id w' hw' hb' => ?_
          simp only [isSnapshotOf, ht, decide_True, Bool.and_true, decide_eq_false_iff_not]
          rintro rfl
          rw [hp] at hw'
          cases hw'
          simp_all

theorem Inv.addThen (hi : n.Inv) {id : TableID} {cfg : TableConfig} {authority : Bool} {epoch : Nat}
    {k : Node → Node} (hk : ∀ n', n'.Inv → (k n').Inv) :
    (match n.addTable id cfg authority epoch with
      | (n', some e) => (n', some e)
      | (n', none) => (k n', none)).1.Inv := by
  have h := hi.addTable id cfg authority epoch
  rcases hr : n.addTable id cfg authority epoch with ⟨n', _ | e⟩ <;> rw [hr] at h
  · exact hk n' h
  · exact h

theorem Inv.step' (hi : n.Inv) : ∀ e : Event, (n.step' rt e).1.Inv
  | .createLocalAuthorityTable id cfg => hi.addTable id cfg true 0
  | .attachFollowerTable id cfg epoch => hi.addTable id cfg false epoch
  | .createTable id cfg aid => hi.addThen fun _ h => h.proposeOn id _
  | .joinTableRemote id epoch cfg aid => hi.addThen fun _ h => (h.out _).proposeOn id _
  | .dispatch msg => hi.dispatch msg
  | .handleNext id => by
    simp only [Node.step']
    split
    · split
      · exact hi.runTable ‹_› _ (by simp_all)
      · exact hi
    · exact hi
  | .input id i => by
    simp only [Node.step']
    split
    · exact hi
    · exact hi.runTable ‹_› _ rfl
    · exact hi
  | .discover id => hi.discover id
  | .discovered id aid => by
    simp only [Node.step']
    split
    · exact (hi.clearPending id).addThen fun _ h => h.proposeOn id _
    · exact hi
  | .timeout id => by
    simp only [Node.step']
    split_ifs
    · exact hi.clearPending id
    · exact hi

theorem Inv.step (hi : n.Inv) (e : Event) : (n.step rt e).1.Inv := by
  unfold Node.step
  split_ifs
  · exact hi.step' e
  · exact hi

theorem Inv.of_reachable (h : n.Reachable rt) : n.Inv := by
  induction h with
  | init self => exact inv_init self
  | step e _ ih => exact ih.step e

end Inv

variable {rt : Runtime} {n : Node}

/-- Each table of a node, over every run, has handled and then holds in its inbox exactly the
    messages the dispatcher took for it since the table was made, in the order taken: none lost,
    none twice, none out of order. -/
theorem handled_inbox_eq (h : n.Reachable rt) {id : TableID} {l : Local} (hl : n.tables id = some l) :
    l.handled ++ l.inbox = (n.dispatched.drop l.since).filter (·.table = id) :=
  (Inv.of_reachable h).fifo id l hl

/-- A fresh node makes table `t`; the network brings two heartbeats for `t` with one for `u` between
    them, and the table handles the first. -/
theorem handled_inbox_eq_heartbeats :
    let rt : Runtime := ⟨fun _ => ⟨fun _ _ => 0, fun _ _ h => h⟩, fun _ => "#"⟩
    let hb (id : TableID) (seq : Nat) : NetMessage := ⟨id, "m", .heartbeat, 0, seq, none, none⟩
    let n := (init "n").run rt [.createLocalAuthorityTable "t" ⟨"t", 1000, 5, 10, 0, 0⟩,
      .dispatch (hb "t" 1), .dispatch (hb "u" 2), .dispatch (hb "t" 3), .handleNext "t"]
    ∃ l, n.tables "t" = some l ∧ l.handled = [hb "t" 1] ∧ l.inbox = [hb "t" 3] ∧
      l.handled ++ l.inbox = (n.dispatched.drop l.since).filter (·.table = "t") :=
  ⟨_, rfl, rfl, rfl, handled_inbox_eq ((Reachable.init "n").run _) rfl⟩

theorem discovered_tables {id : TableID} {ss : TableSnapshot} {aid : String} (hno : n.tables id = none) :
    (n.discovered rt id ss aid).1.tables id = some ⟨Table.new id n.self ss.cfg false ss.epoch, [], [], n.dispatched.length⟩ := by
  simp [Node.discovered, Node.attachFollowerTable, Node.addTable, hno, Node.proposeOn, Node.runTable,
    Table.handle, Table.proposeLocal, Table.new]

/-- Discovery adopts the first snapshot: when `DiscoverAndAttach` takes a snapshot from its waiter
    and attaches, over every run, the follower has the configuration and epoch of the first
    `SNAPSHOT` of its table that the dispatcher took after the discovery began; later ones are
    dropped. -/
theorem discovered_first_snapshot (h : n.Reachable rt) (ha : n.alive) {id : TableID} {ss : TableSnapshot}
    {k : Nat} (hw : n.pending id = some ⟨some ss, k⟩) (hno : n.tables id = none) (aid : String) :
    ∃ msg, (n.dispatched.drop k).find? (isSnapshotOf id) = some msg ∧ ∃ l,
      (n.step rt (.discovered id aid)).1.tables id = some l ∧
      msg.state.map (fun ss => (ss.cfg, ss.epoch)) = some (l.table.cfg, l.table.epoch) := by
  obtain ⟨msg, hf, hs⟩ := (Inv.of_reachable h).full id _ ss hw rfl
  have ht : (n.step rt (.discovered id aid)).1.tables id =
      some ⟨Table.new id n.self ss.cfg false ss.epoch, [], [], n.dispatched.length⟩ := by
    simp only [Node.step, ha, if_true, Node.step', hw]
    exact discovered_tables hno
  exact ⟨msg, hf, _, ht, by rw [hs]; rfl⟩

/-- A node discovers table `t`; two snapshots of `t`, of epochs 3 and 4, come in. -/
theorem discovered_first_snapshot_two :
    let rt : Runtime := ⟨fun _ => ⟨fun _ _ => 0, fun _ _ h => h⟩, fun _ => "#"⟩
    let ss (epoch : Nat) : TableSnapshot := ⟨⟨"t", 1000, 5, 10, 0, 0⟩, 7, epoch, "a", none⟩
    let snap (epoch : Nat) : NetMessage := ⟨"t", "a", .snapshot, epoch, 7, none, some (ss epoch)⟩
    let n := (init "n").run rt [.discover "t", .dispatch (snap 3), .dispatch (snap 4)]
    n.pending "t" = some ⟨some (ss 3), 0⟩ ∧
    ∃ msg, (n.dispatched.drop 0).find? (isSnapshotOf "t") = some msg ∧ ∃ l,
      (n.step rt (.discovered "t" "j")).1.tables "t" = some l ∧
      msg.state.map (fun ss => (ss.cfg, ss.epoch)) = some (l.table.cfg, l.table.epoch) :=
  ⟨rfl, discovered_first_snapshot ((Reachable.init "n").run _) (by rfl) (by rfl) (by rfl) "j"⟩

end Node

end P2Poker
