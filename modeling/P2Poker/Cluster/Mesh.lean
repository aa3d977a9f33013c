import P2Poker.Cluster.Node

/-! Nodes on a transport that joins every pair of them by one connection.

    What the transport sees of a node: it keeps its tables and its id, and only appends to its
    outbox messages it signs (`Node.Grows`, from `Table.addressed_handle`).

    `FullMesh` is the transport as the cluster model needs it: every pair of nodes joined by one
    FIFO connection that exists before anything is sent. A node's outbox is read in order by one
    broadcast loop, which writes each message on the connection to every other node; a read loop
    moves the oldest message of a connection into the node's one inbox, which the dispatcher takes in
    order. `FullMesh` is an abstraction, not the code: `netx.TCP` writes only to the connections in
    its peers map, made by `AddPeer` and by its accept loop, and two dials between one pair make two
    connections. `P2Poker.Cluster.Tcp` models that transport and shows that it is a `FullMesh` when
    each pair of nodes is connected once, before the table exists, and nobody dials after.

    Across any interleaving of these loops and of the nodes' own events, what one node sent equals
    what the other dispatched, holds in its inbox and has yet to read off the wire (`Inv.conserve`),
    and each table handles a peer's messages for it as a stretch of what the peer wrote
    (`Inv.peer`), from the first one on when the table was made before any message came
    (`Inv.ordered`). -/

namespace P2Poker

namespace Table

section Addresses
variable {rt : Runtime} {t t' : Table}

/-- What a handler of a replica does, as the network sees it: the replica keeps its table and its
    node, and every message it writes names that table and is signed by that node. -/
def Addressed (t t' : Table) (out : List NetMessage) : Prop :=
  t'.id = t.id ∧ t'.self = t.self ∧ ∀ m ∈ out, m.table = t.id ∧ m.sender = t.self

theorem Addressed.quiet (hid : t'.id = t.id) (hself : t'.self = t.self) : Addressed t t' [] :=
  ⟨hid, hself, List.forall_mem_nil _⟩

theorem Addressed.envelope (type : MsgType) (seq : Nat) (action : Option Action) (state : Option TableSnapshot) :
    Addressed t t [t.envelope type seq action state] :=
  ⟨rfl, rfl, by simp [Table.envelope]⟩

theorem Addressed.panicIf {x : Table × List NetMessage} (h : Addressed t x.1 x.2) (p : Bool) :
    Addressed t (panicIf p x).1 (panicIf p x).2 := by
  cases p
  exacts [h, ⟨h.1, h.2.1, h.2.2⟩]

theorem Addressed.applyWith {c r : Table → Action → Table × List NetMessage}
    (hc : ∀ t b, Addressed t (c t b).1 (c t b).2) (hr : ∀ t b, Addressed t (r t b).1 (r t b).2) (t : Table) (a : Action) :
    Addressed t (applyWith rt c r t a).1 (applyWith rt c r t a).2 := by
  rcases @applyWith_cases rt t a c r with ⟨-, -, h⟩ | ⟨-, -, h⟩ | ⟨-, -, h | ⟨-, -, h⟩ | ⟨-, -, h⟩⟩ <;> rw [h]
  exacts [.quiet rfl rfl, hr _ _, by refine Addressed.panicIf ?_ _; exact .quiet rfl rfl, hc _ _,
    by refine Addressed.panicIf ?_ _; exact hc _ _]

theorem Addressed.commitWith {f : Table → Action → Table × List NetMessage}
    (hf : ∀ t b, Addressed t (f t b).1 (f t b).2) (t : Table) (a : Action) :
    Addressed t (commitWith f t a).1 (commitWith f t a).2 := by
  unfold Table.commitWith
  dsimp only
  split_ifs
  · exact .quiet rfl rfl
  · exact hf _ a
  · obtain ⟨hid, hself, hout⟩ := hf { t with seq := t.seq + 1 } a
    refine ⟨hid, hself, fun m hm => ?_⟩
    rcases List.mem_append.1 hm with hm | hm
    · exact hout m hm
    · rw [List.mem_singleton.1 hm]; exact ⟨hid, hself⟩

theorem addressed_apply (n : Nat) (t : Table) (a : Action) : Addressed t (apply rt n t a).1 (apply rt n t a).2 := by
  induction n generalizing t a with
  | zero => exact .applyWith (fun _ _ => .quiet rfl rfl) (fun _ _ => .quiet rfl rfl) t a
  | succ n ih => exact .applyWith (.commitWith ih) ih t a

theorem addressed_commitAndBroadcast (a : Action) :
    Addressed t (t.commitAndBroadcast rt a).1 (t.commitAndBroadcast rt a).2 :=
  .commitWith (addressed_apply 3) t a

theorem addressed_applyCommit (a : Action) (seq : Nat) :
    Addressed t (applyCommit rt t a seq).1 (applyCommit rt t a seq).2 := by
  rcases applyCommit_cases rt (t := t) a seq with h | h | ⟨-, -, h⟩ <;> rw [h]
  · exact .quiet rfl rfl
  · exact .envelope _ _ _ _
  · obtain ⟨hid, hself, hout⟩ := @addressed_apply rt 3 { t with seq := seq } a
    dsimp only
    split_ifs <;> exact ⟨hid, hself, hout⟩

theorem addressed_sendSnapshotTo (target : NodeID) : Addressed t t (t.sendSnapshotTo target) := by
  unfold sendSnapshotTo
  split
  · exact .envelope _ _ _ _
  · exact .quiet rfl rfl

theorem addressed_sendHeartbeat : Addressed t t t.sendHeartbeat := by
  unfold sendHeartbeat
  split
  · exact .envelope _ _ _ _
  · exact .quiet rfl rfl

theorem addressed_onNet (m : NetMessage) : Addressed t (t.onNet rt m).1 (t.onNet rt m).2 := by
  rcases onNet_cases rt (t := t) m with h | ⟨-, -, a, -, h⟩ | ⟨-, -, a, -, -, h⟩ | ⟨-, -, ss, -, h⟩ |
    ⟨-, -, h⟩ | ⟨-, h⟩ <;> rw [h]
  · exact .quiet rfl rfl
  · exact addressed_commitAndBroadcast a
  · obtain ⟨hid, hself, hout⟩ := @addressed_applyCommit rt t a m.seq
    dsimp only
    split_ifs <;> exact ⟨hid, hself, hout⟩
  · exact .quiet rfl rfl
  · exact .quiet rfl rfl
  · exact addressed_sendSnapshotTo m.sender

theorem addressed_proposeLocal (a : Action) : Addressed t (t.proposeLocal rt a).1 (t.proposeLocal rt a).2 := by
  rcases proposeLocal_cases rt (t := t) a with ⟨-, h⟩ | ⟨-, h⟩ <;> rw [h]
  exacts [addressed_commitAndBroadcast a, .envelope _ _ _ _]

theorem addressed_tryAuthorityTakeover : Addressed t t.tryAuthorityTakeover.1 t.tryAuthorityTakeover.2 := by
  rcases tryAuthorityTakeover_cases (t := t) with h | ⟨-, -, h⟩ <;> rw [h]
  · exact .quiet rfl rfl
  · refine ⟨rfl, rfl, fun m hm => ?_⟩
    rcases List.mem_append.1 hm with hm | hm
    exacts [(addressed_sendHeartbeat.2.2 m hm :), ((addressed_sendSnapshotTo _).2.2 m hm :)]

theorem addressed_handle (i : Input) : Addressed t (t.handle rt i).1 (t.handle rt i).2 := by
  cases hp : t.panicked
  case true => rw [handle_panicked hp]; exact .quiet rfl rfl
  cases i with
  | propose a => rw [handle_propose hp]; exact addressed_proposeLocal a
  | net m => rw [handle_net hp]; exact addressed_onNet m
  | heartbeat => rw [handle_heartbeat hp]; exact addressed_sendHeartbeat
  | takeover => rw [handle_takeover hp]; exact addressed_tryAuthorityTakeover

end Addresses

end Table

/-- The events of a node that the transport does not bring: all but a round of the dispatcher. -/
def Node.Event.fromNet : Node.Event → Bool
  | .dispatch _ => true
  | _ => false

namespace Node

/-- The node owns its tables: each is the table of its key and runs as the node. -/
def Owns (n : Node) : Prop := ∀ id l, n.tables id = some l → l.table.id = id ∧ l.table.self = n.self

/-- What an event other than a dispatcher round does, as the transport sees it: the node keeps its
    id and the messages it has dispatched, does not come back once stopped, runs its tables as
    itself, and only appends to its outbox, messages it signs. -/
structure Grows (n n' : Node) : Prop where
  self : n'.self = n.self
  dispatched : n'.dispatched = n.dispatched
  alive : n'.alive = true → n.alive = true
  out : ∃ new, n'.out = n.out ++ new ∧ ∀ m ∈ new, m.sender = n.self
  tables : n'.Owns

section Grows
variable {rt : Runtime} {n n₁ n₂ : Node}

theorem Grows.refl (hs : n.Owns) : Grows n n := ⟨rfl, rfl, id, ⟨[], by simp, List.forall_mem_nil _⟩, hs⟩

theorem Grows.trans (h₁ : Grows n n₁) (h₂ : Grows n₁ n₂) : Grows n n₂ := by
  obtain ⟨x, hx, hxs⟩ := h₁.out
  obtain ⟨y, hy, hys⟩ := h₂.out
  refine ⟨h₂.self.trans h₁.self, h₂.dispatched.trans h₁.dispatched, h₁.alive ∘ h₂.alive,
    ⟨x ++ y, by rw [hy, hx, List.append_assoc], fun m hm => ?_⟩, h₂.tables⟩
  rcases List.mem_append.1 hm with hm | hm
  exacts [hxs m hm, (hys m hm).trans h₁.self]

theorem Grows.then (h₁ : Grows n n₁) (h₂ : n₁.Owns → Grows n₁ n₂) : Grows n n₂ := h₁.trans (h₂ h₁.tables)

theorem Grows.send (hs : n.Owns) (p : TableID → Option Waiter) {new : List NetMessage}
    (hn : ∀ m ∈ new, m.sender = n.self) : Grows n { n with pending := p, out := n.out ++ new } :=
  ⟨rfl, rfl, id, ⟨new, rfl, hn⟩, hs⟩

theorem Grows.sendOut (hs : n.Owns) {new : List NetMessage} (hn : ∀ m ∈ new, m.sender = n.self) :
    Grows n { n with out := n.out ++ new } :=
  ⟨rfl, rfl, id, ⟨new, rfl, hn⟩, hs⟩

theorem Grows.setPending (hs : n.Owns) (p : TableID → Option Waiter) : Grows n { n with pending := p } :=
  ⟨rfl, rfl, id, ⟨[], by simp, List.forall_mem_nil _⟩, hs⟩

theorem Grows.addTable (hs : n.Owns) (id : TableID) (cfg : TableConfig) (authority : Bool) (epoch : Nat) :
    Grows n (n.addTable id cfg authority epoch).1 := by
  unfold Node.addTable
  split_ifs
  · exact .refl hs
  · refine ⟨rfl, rfl, fun h => h, ⟨[], by simp, List.forall_mem_nil _⟩, fun id' l hl => ?_⟩
    by_cases e : id' = id
    · subst e; simp at hl; simp [← hl, Table.new]
    · simp only [Function.update_noteq e] at hl; exact hs id' l hl

theorem Grows.runTable (hs : n.Owns) {id : TableID} {l : Local} (hl : n.tables id = some l) (i : Table.Input)
    (inbox handled : List NetMessage) : Grows n (n.runTable rt id l i inbox handled) := by
  obtain ⟨hid, hself, hout⟩ : Table.Addressed l.table (l.table.handle rt i).1 (l.table.handle rt i).2 :=
    Table.addressed_handle i
  refine ⟨rfl, rfl, fun h => ((Bool.and_eq_true _ _).mp h).1, ⟨_, rfl, fun m hm => (hout m hm).2.trans (hs id l hl).2⟩,
    fun id' l' hl' => ?_⟩
  by_cases e : id' = id
  · subst e
    simp only [Node.runTable, Function.update_same, Option.some.injEq] at hl'
    rw [← hl']
    exact ⟨hid.trans (hs id' l hl).1, hself.trans (hs id' l hl).2⟩
  · simp only [Node.runTable, Function.update_noteq e] at hl'; exact hs id' l' hl'

theorem Grows.proposeOn (hs : n.Owns) (id : TableID) (a : Action) : Grows n (n.proposeOn rt id a) := by
  unfold Node.proposeOn
  split
  · exact .runTable hs ‹_› _ _ _
  · exact .refl hs

theorem Grows.addThen (hs : n.Owns) {id : TableID} {cfg : TableConfig} {authority : Bool} {epoch : Nat}
    {k : Node → Node} (hk : ∀ n', n'.Owns → n'.self = n.self → Grows n' (k n')) :
    Grows n (match n.addTable id cfg authority epoch with
      | (n', some e) => (n', some e)
      | (n', none) => (k n', none)).1 := by
  have h := Grows.addTable hs id cfg authority epoch
  rcases hr : n.addTable id cfg authority epoch with ⟨n', _ | e⟩ <;> rw [hr] at h
  · exact h.trans (hk n' h.tables h.self)
  · exact h

theorem Grows.step' (hs : n.Owns) : ∀ e : Event, e.fromNet = false → Grows n (n.step' rt e).1
  | .createLocalAuthorityTable id cfg, _ => .addTable hs id cfg true 0
  | .attachFollowerTable id cfg epoch, _ => .addTable hs id cfg false epoch
  | .dispatch _, h => by simp [Node.Event.fromNet] at h
  | .createTable id cfg aid, _ => .addThen hs fun _ h _ => .proposeOn h id _
  | .joinTableRemote id epoch cfg aid, _ => .addThen hs fun _ h _ =>
    (Grows.sendOut h (by simp [Node.stateQuery])).then fun h' => .proposeOn h' id _
  | .handleNext id, _ => by
    simp only [Node.step']
    split
    · split
      · exact .runTable hs ‹_› _ _ _
      · exact .refl hs
    · exact .refl hs
  | .input id i, _ => by
    simp only [Node.step']
    split
    · exact .refl hs
    · exact .runTable hs ‹_› _ _ _
    · exact .refl hs
  | .discover id, _ => by
    simp only [Node.step', Node.discover]
    split_ifs
    · exact .refl hs
    · exact .send hs _ (by simp [Node.stateQuery])
  | .discovered id aid, _ => by
    simp only [Node.step']
    split
    · exact (Grows.setPending hs (Function.update n.pending id none)).then fun h =>
        .addThen h fun _ h' _ => .proposeOn h' id _
    · exact .refl hs
  | .timeout id, _ => by
    simp only [Node.step']
    split_ifs
    · exact Grows.setPending hs _
    · exact .refl hs

theorem Grows.step (hs : n.Owns) {e : Event} (he : e.fromNet = false) : Grows n (n.step rt e).1 := by
  unfold Node.step
  split_ifs
  · exact .step' hs e he
  · exact .refl hs

theorem alive_of_step {e : Event} (h : (n.step rt e).1.alive = true) : n.alive = true := by
  unfold Node.step at h
  split_ifs at h with ha
  exacts [ha, h]

theorem step_of_stopped (h : n.alive = false) (e : Event) : (n.step rt e).1 = n := by
  simp [Node.step, h]

theorem dispatch_cases (hs : n.Owns) (msg : NetMessage) :
    (n.step rt (.dispatch msg)).1.self = n.self ∧ (n.step rt (.dispatch msg)).1.out = n.out ∧
      (n.step rt (.dispatch msg)).1.Owns ∧
      ((n.step rt (.dispatch msg)).1.alive = true ∧ (n.step rt (.dispatch msg)).1.dispatched = n.dispatched ++ [msg] ∨
        (n.step rt (.dispatch msg)).1.alive = false ∧ (n.step rt (.dispatch msg)).1.dispatched = n.dispatched ∧
          (n.step rt (.dispatch msg)).1.tables = n.tables) := by
  unfold Node.step
  split_ifs with ha
  · simp only [Node.step', Node.dispatch, Node.route]
    by_cases hr : n.router msg.table = true
    · rw [if_pos hr]
      refine ⟨rfl, rfl, fun id l hl => ?_, .inl ⟨ha, rfl⟩⟩
      by_cases e : id = msg.table
      · subst e
        simp only [Function.update_same, Option.map_eq_some'] at hl
        obtain ⟨l₀, hl₀, rfl⟩ := hl
        exact hs _ l₀ hl₀
      · simp only [Function.update_noteq e] at hl
        exact hs id l hl
    · rw [if_neg hr]
      show ((n.maybeDeliverDiscovery msg).1.self = n.self ∧ _)
      unfold Node.maybeDeliverDiscovery
      split_ifs
      · exact ⟨rfl, rfl, hs, .inl ⟨ha, rfl⟩⟩
      · split
        · exact ⟨rfl, rfl, hs, .inl ⟨ha, rfl⟩⟩
        · exact ⟨rfl, rfl, hs, .inr ⟨rfl, rfl, rfl⟩⟩
        · split
          · exact ⟨rfl, rfl, hs, .inl ⟨ha, rfl⟩⟩
          · exact ⟨rfl, rfl, hs, .inl ⟨ha, rfl⟩⟩
  · exact ⟨rfl, rfl, hs, .inr ⟨by simpa using ha, rfl, rfl⟩⟩

end Grows

end Node

/-- Nodes joined pairwise by one connection each. `sent i` counts the messages of `i`'s outbox that
    the broadcast loop has taken, `wire i j` holds the messages on the connection from `i` to `j` that
    `j`'s read loop has not taken yet, and `inbox j` those that `j`'s dispatcher has not taken yet,
    oldest first. -/
structure FullMesh where
  node : NodeID → Node
  sent : NodeID → Nat
  wire : NodeID → NodeID → List NetMessage
  inbox : NodeID → List NetMessage

/-- What happens next: an event of a node other than a dispatcher round, the broadcast of the next
    message of a node's outbox, the read of the next frame of a connection, or a dispatcher round on
    the oldest message of a node's inbox. -/
inductive FullMesh.Event
  | node (i : NodeID) (e : Node.Event)
  | broadcast (i : NodeID)
  | read (i j : NodeID)
  | dispatch (j : NodeID)

namespace FullMesh

/-- One event. The dispatcher takes only what the transport brings; a broadcast with an empty
    outbox, or a read of an empty connection or a dispatcher round on an empty inbox, waits. -/
def step (rt : Runtime) (m : FullMesh) : Event → FullMesh
  | .node i e => if e.fromNet then m else { m with node := Function.update m.node i ((m.node i).step rt e).1 }
  | .broadcast i =>
    match (m.node i).out[m.sent i]? with
    | some msg =>
      { m with
        sent := Function.update m.sent i (m.sent i + 1)
        wire := fun s d => if s = i ∧ d ≠ i then m.wire s d ++ [msg] else m.wire s d }
    | none => m
  | .read i j =>
    match m.wire i j with
    | msg :: rest =>
      { m with
        wire := fun s d => if s = i ∧ d = j then rest else m.wire s d
        inbox := Function.update m.inbox j (m.inbox j ++ [msg]) }
    | [] => m
  | .dispatch j =>
    match m.inbox j with
    | msg :: rest =>
      { m with
        node := Function.update m.node j ((m.node j).step rt (.dispatch msg)).1
        inbox := Function.update m.inbox j rest }
    | [] => m

/-- What every reachable mesh keeps. Each node keeps its own invariant, is the node of its id, runs
    its tables as itself and signs what it sends. Nothing is on the wire from a node to itself. At a
    running node, what it dispatched from a peer, then what it holds from that peer in its inbox,
    then what is on the wire from that peer, is what the peer has broadcast, in order; and every
    node, running or stopped, has dispatched a peer's messages as a prefix of the peer's outbox. -/
structure Inv (m : FullMesh) : Prop where
  node : ∀ i, (m.node i).Inv
  self : ∀ i, (m.node i).self = i
  tables : ∀ i, (m.node i).Owns
  signed : ∀ i, ∀ msg ∈ (m.node i).out, msg.sender = i
  sent : ∀ i, m.sent i ≤ (m.node i).out.length
  loop : ∀ i, m.wire i i = []
  conserve : ∀ i j, i ≠ j → (m.node j).alive = true →
    (m.node j).dispatched.filter (·.sender = i) ++ (m.inbox j).filter (·.sender = i) ++ m.wire i j =
      (m.node i).out.take (m.sent i)
  heard : ∀ i j, i ≠ j → (m.node j).dispatched.filter (·.sender = i) <+: (m.node i).out

section Peer
variable {n : Node} {i : NodeID} {out : List NetMessage} {id : TableID} {l : Local}

theorem peer_of_prefix (hn : n.Inv) (hd : n.dispatched.filter (·.sender = i) <+: out) (hl : n.tables id = some l) :
    (l.handled ++ l.inbox).filter (·.sender = i) <:+: out.filter (·.table = id) := by
  rw [hn.fifo id l hl, List.filter_comm]
  exact ((((List.drop_suffix _ _).filter _).isInfix).trans hd.isInfix).filter _

theorem prefix_of_conserve {d r w : List NetMessage} {k : Nat} (h : d ++ r ++ w = out.take k) : d <+: out :=
  List.IsPrefix.trans ⟨r ++ w, by rw [← List.append_assoc, h]⟩ (List.take_prefix k out)

end Peer

section Tables
variable {m : FullMesh} {i j : NodeID} {id : TableID} {l : Local}

/-- Each table has handled and holds a peer's messages for it as a stretch of what the peer wrote for
    it, in order, none twice. -/
theorem Inv.peer (hi : m.Inv) (hij : i ≠ j) (hl : (m.node j).tables id = some l) :
    (l.handled ++ l.inbox).filter (·.sender = i) <:+: (m.node i).out.filter (·.table = id) :=
  peer_of_prefix (hi.node j) (hi.heard i j hij) hl

theorem Inv.ordered (hi : m.Inv) (hij : i ≠ j) (hl : (m.node j).tables id = some l) (h0 : l.since = 0) :
    (l.handled ++ l.inbox).filter (·.sender = i) <+: (m.node i).out.filter (·.table = id) := by
  rw [(hi.node j).fifo id l hl, h0, List.drop_zero, List.filter_comm]
  exact (hi.heard i j hij).filter _

end Tables

section Steps
variable {rt : Runtime} {m : FullMesh}

/-- Node `i` replaced by `n'`, which keeps the node invariant, its id and its tables and only
    appends messages it signs, keeps the mesh invariant once the channels into and out of `i` do. -/
theorem Inv.update_node (hi : m.Inv) {i : NodeID} {n' : Node} {new : List NetMessage} (box : NodeID → List NetMessage)
    (hinv : n'.Inv) (hself : n'.self = i) (htab : n'.Owns) (hout : n'.out = (m.node i).out ++ new)
    (hnew : ∀ msg ∈ new, msg.sender = i)
    (hconserve : ∀ a b, a ≠ b → (Function.update m.node i n' b).alive = true →
      (Function.update m.node i n' b).dispatched.filter (·.sender = a) ++ (box b).filter (·.sender = a) ++
        m.wire a b = (Function.update m.node i n' a).out.take (m.sent a))
    (hheard : ∀ a b, a ≠ b →
      (Function.update m.node i n' b).dispatched.filter (·.sender = a) <+: (Function.update m.node i n' a).out) :
    { m with node := Function.update m.node i n', inbox := box }.Inv := by
  refine ⟨(Function.forall_update_iff m.node fun _ n => n.Inv).2 ⟨hinv, fun k _ => hi.node k⟩,
    (Function.forall_update_iff m.node fun k n => n.self = k).2 ⟨hself, fun k _ => hi.self k⟩,
    (Function.forall_update_iff m.node fun _ n => n.Owns).2 ⟨htab, fun k _ => hi.tables k⟩,
    (Function.forall_update_iff m.node fun k n => ∀ msg ∈ n.out, msg.sender = k).2 ⟨fun msg hm => ?_,
      fun k _ => hi.signed k⟩,
    (Function.forall_update_iff m.node fun k n => m.sent k ≤ n.out.length).2 ⟨?_, fun k _ => hi.sent k⟩,
    hi.loop, hconserve, hheard⟩
  · rw [hout] at hm
    rcases List.mem_append.1 hm with hm | hm
    exacts [hi.signed i msg hm, hnew msg hm]
  · rw [hout, List.length_append]
    exact (hi.sent i).trans (Nat.le_add_right _ _)

theorem Inv.node_step (hi : m.Inv) (i : NodeID) (e : Node.Event) : (m.step rt (.node i e)).Inv := by
  cases he : e.fromNet
  · simp only [FullMesh.step, he, Bool.false_eq_true, if_false]
    have g : Node.Grows (m.node i) ((m.node i).step rt e).1 := .step (hi.tables i) he
    have hinv : ((m.node i).step rt e).1.Inv := (hi.node i).step e
    generalize ((m.node i).step rt e).1 = n' at g hinv
    obtain ⟨new, hout, hnew⟩ := g.out
    refine hi.update_node m.inbox hinv (g.self.trans (hi.self i)) g.tables hout
      (fun msg hm => (hnew msg hm).trans (hi.self i)) (fun a b hab ha => ?_) fun a b hab => ?_
    · by_cases hb : b = i
      · subst hb
        rw [Function.update_same] at ha
        rw [Function.update_same, Function.update_noteq hab, g.dispatched]
        exact hi.conserve a b hab (g.alive ha)
      · rw [Function.update_noteq hb] at ha ⊢
        by_cases hai : a = i
        · subst hai
          rw [Function.update_same, hout, List.take_append_of_le_length (hi.sent a)]
          exact hi.conserve a b hab ha
        · rw [Function.update_noteq hai]
          exact hi.conserve a b hab ha
    · by_cases hb : b = i
      · subst hb
        rw [Function.update_same, Function.update_noteq hab, g.dispatched]
        exact hi.heard a b hab
      · rw [Function.update_noteq hb]
        by_cases hai : a = i
        · subst hai
          rw [Function.update_same, hout]
          exact (hi.heard a b hab).trans (List.prefix_append _ _)
        · rw [Function.update_noteq hai]; exact hi.heard a b hab
  · simp only [FullMesh.step, he, if_true]
    exact hi

theorem Inv.broadcast_step (hi : m.Inv) (i : NodeID) : (m.step rt (.broadcast i)).Inv := by
  simp only [FullMesh.step]
  split
  · rename_i msg hmsg
    have hlt : m.sent i < (m.node i).out.length := (List.getElem?_eq_some_iff.1 hmsg).1
    have htake : (m.node i).out.take (m.sent i + 1) = (m.node i).out.take (m.sent i) ++ [msg] := by
      rw [List.take_succ, hmsg]; rfl
    refine ⟨hi.node, hi.self, hi.tables, hi.signed, fun k => ?_, fun k => ?_, fun a b hab ha => ?_, hi.heard⟩ <;>
      dsimp only at *
    · by_cases hk : k = i
      · subst hk; rw [Function.update_same]; omega
      · rw [Function.update_noteq hk]; exact hi.sent k
    · rw [if_neg fun h => h.2 h.1]; exact hi.loop k
    · by_cases hai : a = i
      · subst hai
        rw [if_pos ⟨rfl, Ne.symm hab⟩, Function.update_same, htake, ← hi.conserve a b hab ha]
        simp only [List.append_assoc]
      · rw [if_neg fun h => hai h.1, Function.update_noteq hai]; exact hi.conserve a b hab ha
  · exact hi

theorem Inv.read_step (hi : m.Inv) (i j : NodeID) : (m.step rt (.read i j)).Inv := by
  simp only [FullMesh.step]
  split
  · rename_i msg rest hw
    have hij : i ≠ j := fun h => by subst h; rw [hi.loop] at hw; cases hw
    refine ⟨hi.node, hi.self, hi.tables, hi.signed, hi.sent, fun k => ?_, fun a b hab ha => ?_, hi.heard⟩ <;>
      dsimp only at *
    · rw [if_neg fun h => hij (h.1.symm.trans h.2)]; exact hi.loop k
    · by_cases hb : b = j
      · subst hb
        have hs : msg.sender = i := by
          refine hi.signed i msg (List.mem_of_mem_take (l := (m.node i).out) (n := m.sent i) ?_)
          rw [← hi.conserve i b hij ha, hw]
          simp
        rw [Function.update_same]
        by_cases hai : a = i
        · subst hai
          rw [if_pos ⟨rfl, rfl⟩, ← hi.conserve a b hab ha, hw]
          simp [hs]
        · rw [if_neg fun h => hai h.1, ← hi.conserve a b hab ha]
          simp [hs, Ne.symm hai]
      · rw [Function.update_noteq hb, if_neg fun h => hb h.2]; exact hi.conserve a b hab ha
  · exact hi

theorem Inv.dispatch_step (hi : m.Inv) (j : NodeID) : (m.step rt (.dispatch j)).Inv := by
  simp only [FullMesh.step]
  split
  · rename_i msg rest hq
    obtain ⟨hself, hout, htab, hcase⟩ := @Node.dispatch_cases rt (m.node j) (hi.tables j) msg
    have hinv : ((m.node j).step rt (.dispatch msg)).1.Inv := (hi.node j).step _
    have hrun : ((m.node j).step rt (.dispatch msg)).1.alive = true → (m.node j).alive = true := Node.alive_of_step
    generalize ((m.node j).step rt (.dispatch msg)).1 = n' at hself hout htab hcase hinv hrun
    have hconserve : ∀ a b, a ≠ b → (Function.update m.node j n' b).alive = true →
        (Function.update m.node j n' b).dispatched.filter (·.sender = a) ++
          (Function.update m.inbox j rest b).filter (·.sender = a) ++ m.wire a b =
          (Function.update m.node j n' a).out.take (m.sent a) := by
      intro a b hab ha
      by_cases hb : b = j
      · subst hb
        rw [Function.update_same] at ha
        rw [Function.update_same, Function.update_same, Function.update_noteq hab]
        obtain ⟨-, hd⟩ := hcase.resolve_right fun h => by rw [h.1] at ha; cases ha
        rw [hd, ← hi.conserve a b hab (hrun ha), hq, List.filter_append]
        simp only [List.filter_cons, List.filter_nil, List.append_assoc]
        split <;> rfl
      · rw [Function.update_noteq hb] at ha ⊢
        rw [Function.update_noteq hb]
        by_cases haj : a = j
        · subst haj; rw [Function.update_same, hout]; exact hi.conserve a b hab ha
        · rw [Function.update_noteq haj]; exact hi.conserve a b hab ha
    refine hi.update_node _ hinv (hself.trans (hi.self j)) htab (hout.trans (List.append_nil _).symm)
      (List.forall_mem_nil _) hconserve fun a b hab => ?_
    by_cases hb : b = j
    · subst hb
      rcases hcase with ⟨ha, -⟩ | ⟨-, hd, -⟩
      · have hc := hconserve a b hab (by rw [Function.update_same]; exact ha)
        rw [Function.update_same, Function.update_noteq hab] at hc
        rw [Function.update_same, Function.update_noteq hab]
        exact prefix_of_conserve hc
      · rw [Function.update_same, Function.update_noteq hab, hd]; exact hi.heard a b hab
    · rw [Function.update_noteq hb]
      by_cases haj : a = j
      · subst haj; rw [Function.update_same, hout]; exact hi.heard a b hab
      · rw [Function.update_noteq haj]; exact hi.heard a b hab
  · exact hi

theorem Inv.step (hi : m.Inv) : ∀ e : Event, (m.step rt e).Inv
  | .node i e => hi.node_step i e
  | .broadcast i => hi.broadcast_step i
  | .read i j => hi.read_step i j
  | .dispatch j => hi.dispatch_step j

end Steps




end FullMesh

end P2Poker
