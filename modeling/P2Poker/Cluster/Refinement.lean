import P2Poker.Cluster.Mesh
import P2Poker.Cluster.Agreement
import P2Poker.Cluster.Sequence

/-! The cluster model of one table is what the nodes on the transport do with it.

    `Cluster` models a table `tid` as one replica per node and a FIFO channel per pair of nodes, with
    a replica taking a message only from the head of a channel. Here the same table lives inside the
    nodes of a `FullMesh`: every node made it first (`start`), the transport carries its messages among
    everything else the nodes send, and each node's dispatcher and router hand them to the replica's
    inbox. `project` reads a mesh as a cluster state: each node's replica of `tid`, and on the channel
    from `i` to `j` what `i` wrote for the table that `j`'s replica has not handled yet.

    Every mesh event is either invisible to the table or one step of the cluster model (`image`):
    a local proposal, a heartbeat tick or a takeover of a replica, the replica's handling of the
    oldest message of its inbox (a delivery from that message's sender), or a discovery query for
    the table (`project_step`). So every run of the mesh from `start` projects onto a run of the
    cluster model from `Cluster.init`, and whatever condition on the cluster events a theorem of the
    cluster model assumes carries over (`project_reach`). `P2Poker.Cluster.Tcp` carries all of
    this over to the nodes on `netx.TCP`. -/

namespace P2Poker

/-- What a node event does to one table of the node: a local input to its replica, the handling of
    the oldest message of the replica's inbox, or the query that starts a discovery of the table. -/
inductive TableAction
  | propose (a : Action)
  | heartbeat
  | takeover
  | next (msg : NetMessage)
  | query

namespace TableAction

/-- The table's local and the messages for the table after the action, at node `self` from `l`. -/
def apply (rt : Runtime) (self : NodeID) (l : Local) : TableAction → Local × List NetMessage
  | .propose a => (({ l with table := (l.table.handle rt (.propose a)).1 }), (l.table.handle rt (.propose a)).2)
  | .heartbeat => ({ l with table := (l.table.handle rt .heartbeat).1 }, (l.table.handle rt .heartbeat).2)
  | .takeover => ({ l with table := (l.table.handle rt .takeover).1 }, (l.table.handle rt .takeover).2)
  | .next msg =>
    ({ l with table := (l.table.handle rt (.net msg)).1, inbox := l.inbox.tail, handled := l.handled ++ [msg] },
      (l.table.handle rt (.net msg)).2)
  | .query => (l, [⟨l.table.id, self, .stateQuery, 0, 0, none, none⟩])

/-- The step of the cluster model that the action is, at node `i`. -/
def toEvent (i : NodeID) : TableAction → Event
  | .propose a => .propose i a
  | .heartbeat => .heartbeat i
  | .takeover => .takeover i
  | .next msg => .deliver msg.sender i
  | .query => .query i

section Lemmas
variable {rt : Runtime} {self : NodeID} {l : Local}

theorem apply_since (a : TableAction) : (a.apply rt self l).1.since = l.since := by
  cases a <;> rfl

theorem step_toEvent {c : Cluster} {i : NodeID} (hc : c.table i = l.table) (hp : l.table.panicked = false) :
    ∀ a : TableAction, (∀ msg, a ≠ .next msg) →
      c.step rt (a.toEvent i) = c.act i ((a.apply rt i l).1.table, (a.apply rt i l).2)
  | .propose a, _ => by simp only [toEvent, Cluster.step, hc]; rfl
  | .heartbeat, _ => by simp only [toEvent, Cluster.step, hc]; rfl
  | .takeover, _ => by simp only [toEvent, Cluster.step, hc]; rfl
  | .query, _ => by simp only [toEvent, Cluster.step, hc, hp]; rfl
  | .next msg, h => (h msg rfl).elim

end Lemmas

end TableAction

namespace Node

/-- What a node event does to table `tid`, if anything. -/
def tableAction (n : Node) (tid : TableID) : Event → Option TableAction
  | .input id (.propose a) => if id = tid then some (.propose a) else none
  | .input id .heartbeat => if id = tid then some .heartbeat else none
  | .input id .takeover => if id = tid then some .takeover else none
  | .handleNext id => if id = tid then ((n.tables tid).bind (·.inbox.head?)).map .next else none
  | .discover id => if id = tid ∧ (n.pending tid).isSome = false then some .query else none
  | _ => none

/-- Nothing changes for table `tid`: neither its local nor the node's messages for it. -/
def Quiet (tid : TableID) (n n' : Node) : Prop :=
  n'.tables tid = n.tables tid ∧ n'.out.filter (·.table = tid) = n.out.filter (·.table = tid)

section Quiet
variable {rt : Runtime} {tid : TableID} {n n₁ n₂ : Node}

theorem Quiet.refl : Quiet tid n n := ⟨rfl, rfl⟩

theorem Quiet.trans (h₁ : Quiet tid n n₁) (h₂ : Quiet tid n₁ n₂) : Quiet tid n n₂ :=
  ⟨h₂.1.trans h₁.1, h₂.2.trans h₁.2⟩

theorem Quiet.sendOut {new : List NetMessage} (hn : ∀ m ∈ new, m.table ≠ tid) :
    Quiet tid n { n with out := n.out ++ new } :=
  have h : new.filter (·.table = tid) = [] := List.filter_eq_nil_iff.2 fun m hm => by simpa using hn m hm
  ⟨rfl, by rw [List.filter_append, h, List.append_nil]⟩

theorem Quiet.addTable (hheld : (n.tables tid).isSome) (id : TableID) (cfg : TableConfig) (authority : Bool)
    (epoch : Nat) : Quiet tid n (n.addTable id cfg authority epoch).1 := by
  unfold Node.addTable
  split_ifs with h
  · exact .refl
  · have hid : tid ≠ id := fun e => h (e ▸ hheld)
    exact ⟨Function.update_noteq hid _ _, rfl⟩

theorem Quiet.runTable (hs : n.Owns) {id : TableID} {l : Local} (hl : n.tables id = some l) (hid : id ≠ tid)
    (i : Table.Input) (inbox handled : List NetMessage) : Quiet tid n (n.runTable rt id l i inbox handled) := by
  have hout : ∀ m ∈ (l.table.handle rt i).2, m.table = l.table.id ∧ m.sender = l.table.self :=
    (Table.addressed_handle i).2.2
  refine ⟨Function.update_noteq (Ne.symm hid) _ _, ?_⟩
  simp only [Node.runTable, List.filter_append, List.append_right_eq_self, List.filter_eq_nil_iff,
    decide_eq_true_eq]
  intro m hm
  rw [(hout m hm).1, (hs id l hl).1]
  exact hid

theorem Quiet.proposeOn (hs : n.Owns) {id : TableID} (hid : id ≠ tid) (a : Action) :
    Quiet tid n (n.proposeOn rt id a) := by
  unfold Node.proposeOn
  split
  · exact .runTable hs ‹_› hid _ _ _
  · exact .refl

theorem Quiet.addThen (hs : n.Owns) (hheld : (n.tables tid).isSome) {id : TableID} {cfg : TableConfig}
    {authority : Bool} {epoch : Nat} {k : Node → Node}
    (hk : id ≠ tid → ∀ n', n'.Owns → Quiet tid n' (k n')) :
    Quiet tid n (match n.addTable id cfg authority epoch with
      | (n', some e) => (n', some e)
      | (n', none) => (k n', none)).1 := by
  have h := Quiet.addTable hheld id cfg authority epoch
  have g := Grows.addTable hs id cfg authority epoch
  have hid : (n.addTable id cfg authority epoch).2 = none → id ≠ tid := by
    unfold Node.addTable
    split_ifs with h'
    · nofun
    · exact fun _ e => h' (e ▸ hheld)
  rcases hr : n.addTable id cfg authority epoch with ⟨n', _ | e⟩ <;> rw [hr] at h g hid
  · exact h.trans (hk (hid rfl) n' g.tables)
  · exact h

end Quiet

section Action
variable {rt : Runtime} {tid : TableID} {n : Node} {l : Local}

theorem tableAction_fromNet {e : Event} (he : e.fromNet = true) : n.tableAction tid e = none := by
  cases e <;> first | rfl | simp [Node.Event.fromNet] at he

theorem tableAction_next (hl : n.tables tid = some l) {e : Event} {msg : NetMessage}
    (h : n.tableAction tid e = some (.next msg)) : ∃ rest, l.inbox = msg :: rest := by
  cases e with
  | handleNext id =>
    simp only [tableAction, hl, Option.some_bind] at h
    split_ifs at h
    · cases hq : l.inbox with
      | nil => simp [hq] at h
      | cons x rest => simp only [hq, List.head?_cons, Option.map_some', Option.some.injEq, TableAction.next.injEq] at h; exact ⟨rest, h ▸ rfl⟩
  | input id i => cases i <;> simp [tableAction] at h
  | _ => simp [tableAction] at h

theorem handle_filter_table {id : TableID} (hs : n.Owns) (hl : n.tables id = some l) (i : Table.Input) :
    (l.table.handle rt i).2.filter (·.table = id) = (l.table.handle rt i).2 :=
  List.filter_eq_self.2 fun m hm => by simpa using ((Table.addressed_handle i).2.2 m hm).1.trans (hs id l hl).1

theorem step'_table (hs : n.Owns) (hl : n.tables tid = some l) :
    ∀ e : Event, e.fromNet = false →
      match n.tableAction tid e with
      | none => Quiet tid n (n.step' rt e).1
      | some a => (n.step' rt e).1.tables tid = some (a.apply rt n.self l).1 ∧
          (n.step' rt e).1.out.filter (·.table = tid) = n.out.filter (·.table = tid) ++ (a.apply rt n.self l).2
  | .createLocalAuthorityTable id cfg, _ => Quiet.addTable (by rw [hl]; rfl) id cfg true 0
  | .attachFollowerTable id cfg epoch, _ => Quiet.addTable (by rw [hl]; rfl) id cfg false epoch
  | .dispatch _, h => by simp [Node.Event.fromNet] at h
  | .createTable id cfg aid, _ => Quiet.addThen hs (by rw [hl]; rfl) fun hid _ h => .proposeOn h hid _
  | .joinTableRemote id epoch cfg aid, _ => Quiet.addThen hs (by rw [hl]; rfl) fun hid n' h =>
    (Quiet.sendOut (by simpa [Node.stateQuery] using hid)).trans
      (Quiet.proposeOn (n := { n' with out := n'.out ++ [n'.stateQuery id epoch] }) h hid _)
  | .handleNext id, _ => by
    by_cases hid : id = tid
    · subst hid
      simp only [Node.tableAction, if_true, Node.step', hl, Option.some_bind]
      cases hq : l.inbox with
      | nil => exact .refl
      | cons msg rest =>
        refine ⟨?_, ?_⟩
        · simp [Node.runTable, TableAction.apply, hq]
        · simp only [Node.runTable, TableAction.apply, List.filter_append, handle_filter_table hs hl]
    · simp only [Node.tableAction, hid, if_false, Node.step']
      split
      · split
        · exact .runTable hs ‹_› hid _ _ _
        · exact .refl
      · exact .refl
  | .input id i, _ => by
    by_cases hid : id = tid
    · subst hid
      have hown : (l.table.handle rt i).2.filter (·.table = id) = (l.table.handle rt i).2 :=
        handle_filter_table hs hl i
      cases i with
      | net m => simp only [Node.tableAction, Node.step']; exact .refl
      | _ =>
        simp only [Node.tableAction, if_true, Node.step', hl]
        exact ⟨by simp [Node.runTable, TableAction.apply], by simp [Node.runTable, TableAction.apply, List.filter_append, hown]⟩
    · have hnone : n.tableAction tid (.input id i) = none := by
        cases i <;> simp [Node.tableAction, hid]
      rw [hnone]
      simp only [Node.step']
      split
      · exact .refl
      · exact .runTable hs ‹_› hid _ _ _
      · exact .refl
  | .discover id, _ => by
    simp only [Node.tableAction, Node.step', Node.discover]
    by_cases hid : id = tid
    · subst hid
      by_cases hp : n.pending id = none
      · simp only [hp, and_self, if_true, Option.isSome_none, Bool.false_eq_true, if_false]
        refine ⟨hl, ?_⟩
        simp [List.filter_append, TableAction.apply, Node.stateQuery, (hs id l hl).1]
      · obtain ⟨w, hw⟩ := Option.ne_none_iff_exists'.1 hp
        simp only [hp, and_false, if_false, hw, Option.isSome_some, if_true]
        exact .refl
    · simp only [hid, false_and, if_false]
      split_ifs
      · exact .refl
      · exact ⟨rfl, by simp [List.filter_append, Node.stateQuery, hid]⟩
  | .discovered id aid, _ => by
    simp only [Node.tableAction, Node.step']
    split
    · exact Quiet.addThen (n := { n with pending := Function.update n.pending id none }) hs (by rw [hl]; rfl)
        fun hid _ h => .proposeOn h hid _
    · exact .refl
  | .timeout id, _ => by
    simp only [Node.tableAction, Node.step']
    split_ifs
    · exact ⟨rfl, rfl⟩
    · exact .refl

theorem dispatch_view (msg : NetMessage) :
    (∀ x ∈ (n.step rt (.dispatch msg)).1.dispatched, x ∈ n.dispatched ∨ x = msg) ∧
    ∀ id l, n.tables id = some l → ∃ l', (n.step rt (.dispatch msg)).1.tables id = some l' ∧
      l'.table = l.table ∧ l'.handled = l.handled ∧ l'.since = l.since := by
  have hkeep : ∀ n' : Node, n'.tables = n.tables → (∀ x ∈ n'.dispatched, x ∈ n.dispatched ∨ x = msg) →
      (∀ x ∈ n'.dispatched, x ∈ n.dispatched ∨ x = msg) ∧ ∀ id l, n.tables id = some l → ∃ l',
        n'.tables id = some l' ∧ l'.table = l.table ∧ l'.handled = l.handled ∧ l'.since = l.since :=
    fun n' ht hd => ⟨hd, fun id l hl => ⟨l, by rw [ht, hl], rfl, rfl, rfl⟩⟩
  have hsnoc : ∀ x ∈ n.dispatched ++ [msg], x ∈ n.dispatched ∨ x = msg := fun x hx => by simpa using hx
  unfold Node.step
  split_ifs with ha
  · simp only [Node.step', Node.dispatch, Node.route]
    by_cases hr : n.router msg.table = true
    · rw [if_pos hr]
      refine ⟨hsnoc, fun id l hl => ?_⟩
      by_cases e : id = msg.table
      · subst e
        exact ⟨{ l with inbox := l.inbox ++ [msg] }, by simp [hl], rfl, rfl, rfl⟩
      · exact ⟨l, by simp [Function.update_noteq e, hl], rfl, rfl, rfl⟩
    · rw [if_neg hr]
      show (∀ x ∈ (n.maybeDeliverDiscovery msg).1.dispatched, _) ∧ _
      unfold Node.maybeDeliverDiscovery
      split_ifs
      · exact hkeep _ rfl hsnoc
      · split
        · exact hkeep _ rfl hsnoc
        · exact hkeep _ rfl fun x hx => .inl hx
        · split
          · exact hkeep _ rfl hsnoc
          · exact hkeep _ rfl hsnoc
  · exact hkeep _ rfl fun x hx => .inl hx

end Action

end Node

namespace FullMesh

/-- Every node makes table `tid` before anything else happens: `auth` creates it as authority
    (`CreateLocalAuthorityTable`), every other node attaches a follower at epoch 0
    (`AttachFollowerTable`). -/
def start (rt : Runtime) (tid : TableID) (cfg : TableConfig) (auth : NodeID) : FullMesh :=
  ⟨fun i => ((Node.init i).step rt
      (if i = auth then .createLocalAuthorityTable tid cfg else .attachFollowerTable tid cfg 0)).1,
    fun _ => 0, fun _ _ => [], fun _ => []⟩

/-- How many of `i`'s messages the replica of `tid` at `j` has handled. -/
def handledFrom (m : FullMesh) (tid : TableID) (i j : NodeID) : Nat :=
  (((m.node j).tables tid).map fun l => (l.handled.filter (·.sender = i)).length).getD 0

/-- The mesh as the cluster model of table `tid` sees it: each node's replica, and on the channel
    from `i` to `j` the messages `i` wrote for the table that `j`'s replica has not handled yet. A
    node without a replica of `tid` (none has one in a run from `start`) shows the one it began
    with. -/
def project (m : FullMesh) (tid : TableID) (cfg : TableConfig) (auth : NodeID) : Cluster where
  table i := (((m.node i).tables tid).map Local.table).getD (Table.new tid i cfg (decide (i = auth)) 0)
  chan i j := if i = j then [] else ((m.node i).out.filter (·.table = tid)).drop (m.handledFrom tid i j)

/-- The step of the cluster model of `tid` that a mesh event is, if any. -/
def image (m : FullMesh) (tid : TableID) : Event → Option P2Poker.Event
  | .node i e => if (m.node i).alive then ((m.node i).tableAction tid e).map (·.toEvent i) else none
  | _ => none

/-- Every message on a connection is signed by the node at its sending end, and no node has in its
    inbox, or has dispatched, a message signed by itself. -/
structure Foreign (m : FullMesh) : Prop where
  wire : ∀ i j, ∀ msg ∈ m.wire i j, msg.sender = i
  inbox : ∀ j, ∀ msg ∈ m.inbox j, msg.sender ≠ j
  dispatched : ∀ j, ∀ msg ∈ (m.node j).dispatched, msg.sender ≠ j

/-- What a run from `start` keeps of table `tid`: every node holds it, made before any message, and
    each replica has handled and holds each peer's messages for it as a prefix of what the peer
    wrote for it. -/
structure View (tid : TableID) (m : FullMesh) : Prop where
  held : ∀ i, ∃ l, (m.node i).tables tid = some l ∧ l.since = 0
  ordered : ∀ i j l, i ≠ j → (m.node j).tables tid = some l →
    (l.handled ++ l.inbox).filter (·.sender = i) <+: (m.node i).out.filter (·.table = tid)

section Start
variable {rt : Runtime} {tid : TableID} {cfg : TableConfig} {auth : NodeID}

theorem start_node (i : NodeID) : (start rt tid cfg auth).node i =
    { Node.init i with
      tables := Function.update (fun _ => none) tid (some ⟨Table.new tid i cfg (decide (i = auth)) 0, [], [], 0⟩)
      router := Function.update (fun _ => false) tid true } := by
  by_cases h : i = auth <;>
    simp [start, h, Node.step, Node.init, Node.step', Node.createLocalAuthorityTable, Node.attachFollowerTable,
      Node.addTable]

theorem start_tables (i : NodeID) :
    ((start rt tid cfg auth).node i).tables tid = some ⟨Table.new tid i cfg (decide (i = auth)) 0, [], [], 0⟩ := by
  simp [start_node]

theorem inv_start : (start rt tid cfg auth).Inv := by
  have hn : ∀ i, ((start rt tid cfg auth).node i).Inv := fun i => by
    rw [start_node]; exact (Node.inv_init i).addTable tid cfg (decide (i = auth)) 0
  refine ⟨hn, fun i => by rw [start_node]; rfl, fun i id l hl => ?_, fun i => by rw [start_node]; exact List.forall_mem_nil _,
    fun _ => Nat.zero_le _, fun _ => rfl, fun i j _ _ => by rw [start_node]; rfl,
    fun i j _ => by rw [start_node]; exact List.nil_prefix⟩
  rw [start_node] at hl ⊢
  by_cases e : id = tid
  · subst e; simp at hl; simp [← hl, Table.new, Node.init]
  · simp [Function.update_noteq e, Node.init] at hl

theorem foreign_start : (start rt tid cfg auth).Foreign :=
  ⟨fun _ _ => List.forall_mem_nil _, fun _ => List.forall_mem_nil _,
    fun j => by rw [start_node]; exact List.forall_mem_nil _⟩

theorem view_start : (start rt tid cfg auth).View tid :=
  ⟨fun i => ⟨_, start_tables i, rfl⟩, fun i j l _ hl => by
    rw [start_tables] at hl
    cases hl
    exact List.nil_prefix⟩

theorem project_start : (start rt tid cfg auth).project tid cfg auth = Cluster.init tid cfg auth := by
  simp only [project, Cluster.init, start_tables, Option.map_some', Option.getD_some, handledFrom]
  congr
  funext i j
  split_ifs
  · rfl
  · simp [start_node, Node.init]

end Start

section Steps
variable {rt : Runtime} {tid : TableID} {m : FullMesh}

theorem step_node (e : Event) : (m.step rt e).node = m.node ∨
    (∃ i e', e'.fromNet = false ∧ (m.node i).alive = true ∧
      (m.step rt e).node = Function.update m.node i ((m.node i).step' rt e').1) ∨
    ∃ j msg, msg ∈ m.inbox j ∧
      (m.step rt e).node = Function.update m.node j ((m.node j).step rt (.dispatch msg)).1 := by
  cases e with
  | node i e =>
    cases he : e.fromNet
    · cases ha : (m.node i).alive
      · left
        simp only [FullMesh.step, he, Bool.false_eq_true, if_false, Node.step_of_stopped ha, Function.update_eq_self]
      · refine .inr (.inl ⟨i, e, he, ha, ?_⟩)
        simp only [FullMesh.step, he, Bool.false_eq_true, if_false]
        rw [Node.step, if_pos ha]
    · left; simp only [FullMesh.step, he, if_true]
  | broadcast i => left; simp only [FullMesh.step]; split <;> rfl
  | read i j => left; simp only [FullMesh.step]; split <;> rfl
  | dispatch j =>
    simp only [FullMesh.step]
    split
    · rename_i msg rest hq
      exact .inr (.inr ⟨j, msg, by simp [hq], rfl⟩)
    · exact .inl rfl

theorem dispatched_step (hi : m.Inv) (e : Event) (k : NodeID) :
    ∀ x ∈ ((m.step rt e).node k).dispatched, x ∈ (m.node k).dispatched ∨ x ∈ m.inbox k := by
  rcases @step_node rt m e with h | ⟨i, e', he, -, h⟩ | ⟨j, msg, hmsg, h⟩ <;> rw [h] <;> intro x hx
  · exact .inl hx
  · by_cases hk : k = i
    · subst hk
      rw [Function.update_same, (@Node.Grows.step' rt (m.node k) (hi.tables k) e' he).dispatched] at hx
      exact .inl hx
    · rw [Function.update_noteq hk] at hx
      exact .inl hx
  · by_cases hk : k = j
    · subst hk
      rw [Function.update_same] at hx
      exact ((Node.dispatch_view msg).1 x hx).imp_right fun h : x = msg => h ▸ hmsg
    · rw [Function.update_noteq hk] at hx
      exact .inl hx

theorem since_step (hi : m.Inv) (e : Event) {k : NodeID} {l : Local} (hl : (m.node k).tables tid = some l) :
    ∃ l', ((m.step rt e).node k).tables tid = some l' ∧ l'.since = l.since := by
  rcases @step_node rt m e with h | ⟨i, e', he, -, h⟩ | ⟨j, msg, -, h⟩ <;> rw [h]
  · exact ⟨l, hl, rfl⟩
  · by_cases hk : k = i
    · subst hk
      have ht := @Node.step'_table rt tid (m.node k) l (hi.tables k) hl e' he
      rw [Function.update_same]
      cases hact : (m.node k).tableAction tid e' <;> rw [hact] at ht
      · exact ⟨l, ht.1.trans hl, rfl⟩
      · exact ⟨_, ht.1, TableAction.apply_since _⟩
    · rw [Function.update_noteq hk]
      exact ⟨l, hl, rfl⟩
  · by_cases hk : k = j
    · subst hk
      obtain ⟨l', hl', -, -, hs⟩ := (Node.dispatch_view msg).2 tid l hl
      rw [Function.update_same]
      exact ⟨l', hl', hs⟩
    · rw [Function.update_noteq hk]
      exact ⟨l, hl, rfl⟩

theorem Foreign.step (hi : m.Inv) (hf : m.Foreign) (e : Event) : (m.step rt e).Foreign := by
  have hd : ∀ j, ∀ x ∈ ((m.step rt e).node j).dispatched, x.sender ≠ j := fun j x hx =>
    (dispatched_step hi e j x hx).elim (hf.dispatched j x) (hf.inbox j x)
  cases e with
  | node i e =>
    have hw : (m.step rt (.node i e)).wire = m.wire ∧ (m.step rt (.node i e)).inbox = m.inbox := by
      simp only [FullMesh.step]; split <;> exact ⟨rfl, rfl⟩
    exact ⟨hw.1 ▸ hf.wire, hw.2 ▸ hf.inbox, hd⟩
  | broadcast i =>
    refine ⟨?_, ?_, hd⟩ <;> simp only [FullMesh.step] <;> split
    · rename_i msg hmsg
      intro s d x hx
      dsimp only at hx
      split_ifs at hx with h
      · rcases List.mem_append.1 hx with hx | hx
        · exact hf.wire s d x hx
        · obtain ⟨hlt, hget⟩ := List.getElem?_eq_some_iff.1 hmsg
          rw [List.mem_singleton.1 hx, h.1, ← hget]
          exact hi.signed i _ (List.getElem_mem hlt)
      · exact hf.wire s d x hx
    all_goals first | exact hf.wire | exact hf.inbox
  | read i j =>
    refine ⟨?_, ?_, hd⟩ <;> simp only [FullMesh.step] <;> split
    · rename_i msg rest hw
      intro s d x hx
      dsimp only at hx
      split_ifs at hx with h
      · obtain ⟨rfl, rfl⟩ := h
        exact hf.wire s d x (by rw [hw]; exact List.mem_cons_of_mem _ hx)
      · exact hf.wire s d x hx
    · exact hf.wire
    · rename_i msg rest hw
      have hij : i ≠ j := fun h => by subst h; rw [hi.loop] at hw; cases hw
      intro k x hx
      dsimp only at hx
      by_cases hk : k = j
      · subst hk
        rw [Function.update_same] at hx
        rcases List.mem_append.1 hx with hx | hx
        · exact hf.inbox k x hx
        · rw [List.mem_singleton.1 hx, hf.wire i k msg (by rw [hw]; exact List.mem_cons_self _ _)]
          exact hij
      · rw [Function.update_noteq hk] at hx
        exact hf.inbox k x hx
    · exact hf.inbox
  | dispatch j =>
    refine ⟨?_, ?_, hd⟩ <;> simp only [FullMesh.step] <;> split
    · exact hf.wire
    · exact hf.wire
    · rename_i msg rest hq
      intro k x hx
      dsimp only at hx
      by_cases hk : k = j
      · subst hk
        rw [Function.update_same] at hx
        exact hf.inbox k x (by rw [hq]; exact List.mem_cons_of_mem _ hx)
      · rw [Function.update_noteq hk] at hx
        exact hf.inbox k x hx
    · exact hf.inbox

theorem View.step (hi : m.Inv) (hv : m.View tid) (e : Event) : (m.step rt e).View tid := by
  have held : ∀ k, ∃ l, ((m.step rt e).node k).tables tid = some l ∧ l.since = 0 := fun k => by
    obtain ⟨l, hl, h0⟩ := hv.held k
    obtain ⟨l', hl', hs⟩ := since_step hi e hl
    exact ⟨l', hl', hs.trans h0⟩
  refine ⟨held, fun i j l hij hl => ?_⟩
  obtain ⟨l', hl', h0⟩ := held j
  rw [hl] at hl'
  cases hl'
  exact (hi.step e).ordered hij hl h0

end Steps

section Project
variable {rt : Runtime} {tid : TableID} {cfg : TableConfig} {auth : NodeID} {m m' : FullMesh}

theorem cluster_ext {c c' : Cluster} (ht : ∀ k, c.table k = c'.table k) (hc : ∀ s d, c.chan s d = c'.chan s d) :
    c = c' := by
  cases c; cases c'
  simp only [Cluster.mk.injEq]
  exact ⟨funext ht, funext fun s => funext (hc s)⟩

theorem project_table {i : NodeID} {l : Local} (hl : (m.node i).tables tid = some l) :
    (m.project tid cfg auth).table i = l.table := by
  simp only [project, hl, Option.map_some', Option.getD_some]

theorem project_chan {i j : NodeID} {l : Local} (hij : i ≠ j) (hl : (m.node j).tables tid = some l) :
    (m.project tid cfg auth).chan i j =
      ((m.node i).out.filter (·.table = tid)).drop (l.handled.filter (·.sender = i)).length := by
  simp only [project, handledFrom, hij, if_false, hl, Option.map_some', Option.getD_some]

theorem project_diag (i : NodeID) : (m.project tid cfg auth).chan i i = [] := if_pos rfl

theorem View.handled_le (hv : m.View tid) {i j : NodeID} (hij : i ≠ j) {l : Local}
    (hl : (m.node j).tables tid = some l) :
    (l.handled.filter (·.sender = i)).length ≤ ((m.node i).out.filter (·.table = tid)).length :=
  calc (l.handled.filter (·.sender = i)).length
      ≤ ((l.handled ++ l.inbox).filter (·.sender = i)).length := by
        rw [List.filter_append, List.length_append]; exact Nat.le_add_right _ _
    _ ≤ _ := (hv.ordered i j l hij hl).length_le

theorem View.chan_head (hv : m.View tid) {j : NodeID} {l : Local} (hl : (m.node j).tables tid = some l)
    {msg : NetMessage} {rest : List NetMessage} (hq : l.inbox = msg :: rest) (hs : msg.sender ≠ j) :
    ∃ rest', (m.project tid cfg auth).chan msg.sender j = msg :: rest' := by
  obtain ⟨t, ht⟩ := hv.ordered msg.sender j l hs hl
  rw [project_chan hs hl, ← ht, hq, List.filter_append, List.filter_cons_of_pos (by simp), List.append_assoc,
    List.drop_left]
  exact ⟨_, rfl⟩

theorem project_update (hv : m.View tid) {i : NodeID} {n : Node} {l' : Local} {new : List NetMessage}
    (hn : m'.node = Function.update m.node i n) (hl' : n.tables tid = some l')
    (ho : n.out.filter (·.table = tid) = (m.node i).out.filter (·.table = tid) ++ new) :
    (∀ k, (m'.project tid cfg auth).table k = if k = i then l'.table else (m.project tid cfg auth).table k) ∧
    ∀ s d, s ≠ d → (m'.project tid cfg auth).chan s d =
      if s = i then (m.project tid cfg auth).chan s d ++ new
      else if d = i then ((m.node s).out.filter (·.table = tid)).drop (l'.handled.filter (·.sender = s)).length
      else (m.project tid cfg auth).chan s d := by
  refine ⟨fun k => ?_, fun s d hsd => ?_⟩
  · split_ifs with hk
    · subst hk
      exact project_table (by rw [hn, Function.update_same]; exact hl')
    · simp only [project, hn, Function.update_noteq hk]
  · obtain ⟨ld, hld, -⟩ := hv.held d
    split_ifs with hs hd
    · subst hs
      have hld' : (m'.node d).tables tid = some ld := by rw [hn, Function.update_noteq (Ne.symm hsd)]; exact hld
      rw [project_chan hsd hld', project_chan hsd hld, hn, Function.update_same, ho,
        List.drop_append_of_le_length (hv.handled_le hsd hld)]
    · subst hd
      rw [project_chan hsd (by rw [hn, Function.update_same]; exact hl'), hn, Function.update_noteq hs]
    · have hld' : (m'.node d).tables tid = some ld := by rw [hn, Function.update_noteq hd]; exact hld
      rw [project_chan hsd hld', project_chan hsd hld, hn, Function.update_noteq hs]

theorem project_quiet (hv : m.View tid) {i : NodeID} {n : Node} {l l' : Local}
    (hn : m'.node = Function.update m.node i n) (hl : (m.node i).tables tid = some l) (hl' : n.tables tid = some l')
    (ht : l'.table = l.table) (hh : l'.handled = l.handled)
    (ho : n.out.filter (·.table = tid) = (m.node i).out.filter (·.table = tid)) :
    m'.project tid cfg auth = m.project tid cfg auth := by
  obtain ⟨htab, hchan⟩ := project_update hv hn hl' (ho.trans (List.append_nil _).symm)
  refine cluster_ext (fun k => ?_) fun s d => ?_
  · rw [htab]
    split_ifs with hk
    · subst hk; rw [project_table hl, ht]
    · rfl
  · by_cases hsd : s = d
    · subst hsd; rw [project_diag, project_diag]
    rw [hchan s d hsd]
    split_ifs with hs hd
    · exact List.append_nil _
    · subst hd; rw [hh, project_chan hsd hl]
    · rfl

theorem project_act (hv : m.View tid) {i : NodeID} {n : Node} {l l' : Local} {new : List NetMessage}
    (hn : m'.node = Function.update m.node i n) (hl : (m.node i).tables tid = some l) (hl' : n.tables tid = some l')
    (hh : l'.handled = l.handled)
    (ho : n.out.filter (·.table = tid) = (m.node i).out.filter (·.table = tid) ++ new) :
    m'.project tid cfg auth = (m.project tid cfg auth).act i (l'.table, new) := by
  obtain ⟨htab, hchan⟩ := project_update hv hn hl' ho
  refine cluster_ext (fun k => htab k) fun s d => ?_
  by_cases hsd : s = d
  · subst hsd; rw [project_diag, Cluster.act_chan_diag, project_diag]
  rw [hchan s d hsd]
  split_ifs with hs hd
  · subst hs; rw [Cluster.act_chan_self (Ne.symm hsd)]
  · subst hd; rw [Cluster.act_chan_ne hs, hh, project_chan hsd hl]
  · rw [Cluster.act_chan_ne hs]

theorem project_deliver (hv : m.View tid) {i : NodeID} {n : Node} {l l' : Local} {new : List NetMessage}
    {msg : NetMessage} (hn : m'.node = Function.update m.node i n) (hl : (m.node i).tables tid = some l)
    (hl' : n.tables tid = some l') (hh : l'.handled = l.handled ++ [msg]) (hs : msg.sender ≠ i)
    (ho : n.out.filter (·.table = tid) = (m.node i).out.filter (·.table = tid) ++ new) :
    m'.project tid cfg auth = ((m.project tid cfg auth).pop msg.sender i).act i (l'.table, new) := by
  obtain ⟨htab, hchan⟩ := project_update hv hn hl' ho
  refine cluster_ext (fun k => htab k) fun s d => ?_
  by_cases hsd : s = d
  · subst hsd; rw [project_diag, Cluster.act_chan_diag, Cluster.pop_chan_nil (project_diag s)]
  rw [hchan s d hsd]
  split_ifs with hsi hd
  · subst hsi; rw [Cluster.act_chan_self (Ne.symm hsd), Cluster.pop_chan_ne (.inl (Ne.symm hs))]
  · subst hd
    rw [Cluster.act_chan_ne hsi, hh, List.filter_append]
    by_cases hms : msg.sender = s
    · subst hms
      rw [List.filter_cons_of_pos (by simp), List.filter_nil, List.length_append, List.length_singleton,
        ← List.tail_drop, Cluster.pop_chan_self, project_chan hsd hl]
    · rw [List.filter_cons_of_neg (by simpa using hms), List.filter_nil, List.append_nil,
        Cluster.pop_chan_ne (.inl (Ne.symm hms)), project_chan hsd hl]
  · rw [Cluster.act_chan_ne hsi, Cluster.pop_chan_ne (.inr hd)]

theorem project_node (hi : m.Inv) (hf : m.Foreign) (hv : m.View tid) (i : NodeID) (e : Node.Event) :
    (m.step rt (.node i e)).project tid cfg auth = match m.image tid (.node i e) with
      | some ce => (m.project tid cfg auth).step rt ce
      | none => m.project tid cfg auth := by
  obtain ⟨l, hl, -⟩ := hv.held i
  cases he : e.fromNet
  · cases ha : (m.node i).alive
    · simp only [FullMesh.step, he, Bool.false_eq_true, if_false, image, ha, Node.step_of_stopped ha,
        Function.update_eq_self]
    have hn : (m.step rt (.node i e)).node = Function.update m.node i ((m.node i).step' rt e).1 := by
      simp only [FullMesh.step, he, Bool.false_eq_true, if_false]
      rw [Node.step, if_pos ha]
    have h := @Node.step'_table rt tid (m.node i) l (hi.tables i) hl e he
    simp only [image, ha, if_true]
    cases hact : (m.node i).tableAction tid e with
    | none =>
      simp only [hact] at h
      exact project_quiet hv hn hl (h.1.trans hl) rfl rfl h.2
    | some a =>
      simp only [hact, hi.self i] at h
      obtain ⟨hl', ho⟩ := h
      simp only [Option.map_some']
      cases a with
      | next msg =>
        obtain ⟨rest, hq⟩ := Node.tableAction_next hl hact
        -- the message came through the dispatcher, so from another node
        have hs : msg.sender ≠ i := by
          have hmem : msg ∈ l.handled ++ l.inbox := by rw [hq]; simp
          rw [(hi.node i).fifo tid l hl] at hmem
          exact hf.dispatched i msg (List.mem_of_mem_drop (List.mem_of_mem_filter hmem))
        obtain ⟨rest', hc⟩ := (hv.chan_head hl hq hs : ∃ rest', (m.project tid cfg auth).chan msg.sender i = msg :: rest')
        rw [project_deliver hv hn hl hl' rfl hs ho]
        simp only [TableAction.toEvent, Cluster.step, hc, project_table hl]
        rfl
      | _ =>
        exact (project_act hv hn hl hl' rfl ho).trans
          (TableAction.step_toEvent (project_table hl) ((hi.node i).live ha tid l hl) _ (by intro _ h; cases h)).symm
  · simp only [FullMesh.step, he, if_true, image, Node.tableAction_fromNet he, Option.map_none', ite_self]

/-- Every mesh event is the step of the cluster model of `tid` that `image` names, or changes
    nothing the cluster model sees: the transport's broadcasts and reads, a dispatcher round, and
    the events of a stopped node are invisible to it. -/
theorem project_step (hi : m.Inv) (hf : m.Foreign) (hv : m.View tid) (e : Event) :
    (m.step rt e).project tid cfg auth = match m.image tid e with
      | some ce => (m.project tid cfg auth).step rt ce
      | none => m.project tid cfg auth := by
  cases e with
  | node i e => exact project_node hi hf hv i e
  | broadcast i => simp only [FullMesh.step, image]; split <;> rfl
  | read i j => simp only [FullMesh.step, image]; split <;> rfl
  | dispatch j =>
    simp only [FullMesh.step, image]
    split
    · rename_i msg rest hq
      obtain ⟨l, hl, -⟩ := hv.held j
      obtain ⟨l', hl', ht, hh, -⟩ := (@Node.dispatch_view rt (m.node j) msg).2 tid l hl
      exact project_quiet hv rfl hl hl' ht hh (by rw [(@Node.dispatch_cases rt (m.node j) (hi.tables j) msg).2.1])
    · rfl

end Project

/-- The runs of the mesh from `start` in which every event that is a step of the cluster model of
    `tid` is one that `ok` allows there. -/
inductive Reaches (rt : Runtime) (ok : Cluster → P2Poker.Event → Prop) (tid : TableID) (cfg : TableConfig)
    (auth : NodeID) : FullMesh → Prop
  | start : Reaches rt ok tid cfg auth (start rt tid cfg auth)
  | step {m : FullMesh} (e : Event) : Reaches rt ok tid cfg auth m →
      (∀ ce, m.image tid e = some ce → ok (m.project tid cfg auth) ce) → Reaches rt ok tid cfg auth (m.step rt e)

section Runs
variable {rt : Runtime} {ok : Cluster → P2Poker.Event → Prop} {tid : TableID} {cfg : TableConfig}
  {auth : NodeID} {m : FullMesh}

theorem Reaches.next (h : Reaches rt ok tid cfg auth m) (e : Event) {ce : P2Poker.Event}
    (hce : m.image tid e = some ce) (hok : ok (m.project tid cfg auth) ce) : Reaches rt ok tid cfg auth (m.step rt e) :=
  .step e h fun _ h' => Option.some.inj (hce.symm.trans h') ▸ hok

theorem Reaches.quiet (h : Reaches rt ok tid cfg auth m) (e : Event) (hce : m.image tid e = none) :
    Reaches rt ok tid cfg auth (m.step rt e) :=
  .step e h fun _ h' => nomatch hce.symm.trans h'

theorem Reaches.inv (h : Reaches rt ok tid cfg auth m) : m.Inv ∧ m.Foreign ∧ m.View tid := by
  induction h with
  | start => exact ⟨inv_start, foreign_start, view_start⟩
  | step e _ _ ih => exact ⟨ih.1.step e, ih.2.1.step ih.1 e, ih.2.2.step ih.1 e⟩

/-- The refinement: every run of the nodes from `start`, read through `project`, is a run of the
    cluster model of `tid` from `Cluster.init` whose events are the images of the mesh's. So
    whatever holds over the runs of the cluster model that `ok` allows holds on the nodes. -/
theorem project_reach (h : Reaches rt ok tid cfg auth m) :
    Cluster.Reach rt ok (Cluster.init tid cfg auth) (m.project tid cfg auth) := by
  induction h with
  | start => rw [project_start]; exact .init
  | @step m e hm hok ih =>
    obtain ⟨hi, hf, hv⟩ := hm.inv
    rw [project_step hi hf hv e]
    split
    · rename_i ce hce
      exact ih.step ce (hok ce hce)
    · exact ih

/-- In every run from `start` in which no takeover timer fires, `auth`'s replica of `tid` is the
    one authority, and no replica's sequence number is ahead of its. -/
theorem replicas_behind_authority (h : Reaches rt Cluster.NoTakeover tid cfg auth m) {k : NodeID}
    {lk la : Local} (hlk : (m.node k).tables tid = some lk) (hla : (m.node auth).tables tid = some la) :
    lk.table.authority = decide (k = auth) ∧ lk.table.seq ≤ la.table.seq := by
  have hc := Cluster.reach_seqInv (project_reach h)
  have hr := hc.role k
  have hb := hc.behind k
  rw [project_table hlk] at hr hb
  rw [project_table hla] at hb
  exact ⟨hr, hb⟩

/-- In such runs no event lowers the sequence number of any node's replica of `tid`. -/
theorem replica_seq_mono (h : Reaches rt Cluster.NoTakeover tid cfg auth m) (e : Event)
    (he : ∀ ce, m.image tid e = some ce → (m.project tid cfg auth).NoTakeover ce) {k : NodeID} {l l' : Local}
    (hl : (m.node k).tables tid = some l) (hl' : ((m.step rt e).node k).tables tid = some l') :
    l.table.seq ≤ l'.table.seq := by
  obtain ⟨hi, hf, hv⟩ := h.inv
  have hc := project_reach h
  rw [← (project_table hl : (m.project tid cfg auth).table k = _),
    ← (project_table hl' : ((m.step rt e).project tid cfg auth).table k = _), project_step hi hf hv e]
  split
  · rename_i ce hce
    exact ((Cluster.reach_seqInv hc).step (hc.chan_diag fun _ => rfl) ce (he ce hce)).2 k
  · exact le_rfl

end Runs

end FullMesh

end P2Poker
