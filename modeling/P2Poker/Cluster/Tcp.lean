import P2Poker.Cluster.Refinement

/-! The nodes on the TCP transport (`netx.TCP`), connection by connection.

    `AddPeer` dials a node's listen address and registers the connection under that address in the
    node's peers map, closing a connection already there (`addConn`); the accept loop of the dialed
    node takes the connection later and registers it under its remote address, the dialer's
    ephemeral port. Each end runs a read loop that decodes the frames on their way to it into the
    node's one inbox, and returns when its own end is closed or, once it has read every frame, when
    the other end's socket is (EOF); it then closes its end and deletes the address it ran for from
    the peers map. The broadcast loop writes each message of the node's outbox on every connection
    of the peers map at that moment.

    Each connection carries, in order and once each, a stretch of its writer's outbox
    (`transport_conserves`). Two connections between one pair carry each message twice, and a
    connection dialed late misses what went before; so per-pair FIFO delivery needs each pair joined
    once. Dialing a peer again loses it: the old connection's read loop, once it returns, deletes the
    address that now names the new connection (`redial_drops_peer`). When each pair of a set of nodes is connected once before the table is used and nobody
    dials after, the transport is a `FullMesh` (`toFull_step`), and the cluster model of the table
    describes the nodes (`runs_refine_cluster`).

    The model lets a dial succeed when both processes run, takes every address in one canonical
    form (the read loop deletes the key it was registered under), leaves the sockets of a stopped
    process open, and has no capacity bound on the channels and no network faults. -/

namespace P2Poker

/-- The two ends of a TCP connection: the one that dialed it and the one that accepted it. -/
inductive Side
  | dialer
  | acceptor
  deriving DecidableEq, Repr

def Side.other : Side → Side
  | .dialer => .acceptor
  | .acceptor => .dialer

@[simp] theorem Side.other_other (s : Side) : s.other.other = s := by cases s <;> rfl

@[simp] theorem Side.other_ne (s : Side) : s.other ≠ s := by cases s <;> decide

/-- Where an end of a connection is: in the listener's queue, read by its read loop, closed by its
    own node with the read loop yet to notice, or with its read loop returned and its socket
    closed. -/
inductive EndPhase
  | pending
  | reading
  | closed
  | done
  deriving DecidableEq, Repr

/-- The socket of the end is closed: the other end reads EOF after the last frame. -/
def EndPhase.shut : EndPhase → Bool
  | .closed | .done => true
  | _ => false

/-- A key of a peers map: the address `AddPeer` dialed, a node's listen address, or the remote
    address of the `k`-th connection, under which the accept loop registers it. -/
inductive PeerKey
  | addr (j : NodeID)
  | remote (k : Nat)
  deriving DecidableEq, Repr

/-- The end of a connection that a key is registered for. -/
def PeerKey.side : PeerKey → Side
  | .addr _ => .dialer
  | .remote _ => .acceptor

/-- A TCP connection: the node at each end, the frames on their way to each end that its read loop
    has not decoded, and where each end is; for the proofs, what each end wrote and decoded. -/
structure Conn where
  node : Side → NodeID
  wire : Side → List NetMessage
  phase : Side → EndPhase
  written : Side → List NetMessage
  decoded : Side → List NetMessage

namespace Conn

/-- The connection `net.Dial` gives node `i` to node `j`'s listener. -/
def dial (i j : NodeID) : Conn where
  node | .dialer => i | .acceptor => j
  wire _ := []
  phase | .dialer => .reading | .acceptor => .pending
  written _ := []
  decoded _ := []

/-- The key end `s` of the `k`-th connection is registered under. -/
def key (c : Conn) (k : Nat) : Side → PeerKey
  | .dialer => .addr (c.node .acceptor)
  | .acceptor => .remote k

def setPhase (c : Conn) (s : Side) (p : EndPhase) : Conn := { c with phase := Function.update c.phase s p }

/-- `c.Close()` at end `s`: a read loop that runs there will return. -/
def close (c : Conn) (s : Side) : Conn := if c.phase s = .reading then c.setPhase s .closed else c

/-- `c.Write(frame)` at end `s`: the frame goes on the wire to the other end. -/
def write (c : Conn) (s : Side) (msg : NetMessage) : Conn :=
  { c with
    wire := Function.update c.wire s.other (c.wire s.other ++ [msg])
    written := Function.update c.written s (c.written s ++ [msg]) }

/-- The read loop at end `s` returns: its end was closed, or it read every frame and the other
    end's socket is closed. -/
def stops (c : Conn) (s : Side) : Bool :=
  c.phase s = .closed || (c.phase s = .reading && c.wire s = [] && (c.phase s.other).shut)

/-- End `s` decodes its next frame. -/
def take (c : Conn) (s : Side) (rest : List NetMessage) (msg : NetMessage) : Conn :=
  { c with wire := Function.update c.wire s rest, decoded := Function.update c.decoded s (c.decoded s ++ [msg]) }

/-- What a connection is to the peers maps: its nodes and where its ends are. -/
def shape (c : Conn) : (Side → NodeID) × (Side → EndPhase) := (c.node, c.phase)

/-- The frames the broadcast loop writes on one connection, at the ends `L` in order. -/
def writes (c : Conn) (L : List Side) (msg : NetMessage) : Conn := L.foldl (fun c s => c.write s msg) c

section Lemmas
variable {c : Conn} {s s' : Side} {msg : NetMessage} {rest : List NetMessage} {p : EndPhase}

@[simp] theorem write_node : (c.write s msg).node = c.node := rfl
@[simp] theorem write_phase : (c.write s msg).phase = c.phase := rfl
@[simp] theorem write_decoded : (c.write s msg).decoded = c.decoded := rfl
@[simp] theorem setPhase_node : (c.setPhase s p).node = c.node := rfl
@[simp] theorem setPhase_wire : (c.setPhase s p).wire = c.wire := rfl
@[simp] theorem setPhase_written : (c.setPhase s p).written = c.written := rfl
@[simp] theorem setPhase_decoded : (c.setPhase s p).decoded = c.decoded := rfl
@[simp] theorem take_node : (c.take s rest msg).node = c.node := rfl
@[simp] theorem take_phase : (c.take s rest msg).phase = c.phase := rfl
@[simp] theorem take_written : (c.take s rest msg).written = c.written := rfl

theorem close_eq (c : Conn) (s : Side) : ∃ p, c.close s = c.setPhase s p ∧ (p = .pending → c.phase s = .pending) := by
  unfold close
  split_ifs with h
  · exact ⟨_, rfl, nofun⟩
  · exact ⟨c.phase s, by simp [setPhase], fun h => h⟩

@[simp] theorem writes_node (L : List Side) : (c.writes L msg).node = c.node := by
  induction L generalizing c <;> simp_all [writes]

@[simp] theorem writes_phase (L : List Side) : (c.writes L msg).phase = c.phase := by
  induction L generalizing c <;> simp_all [writes]

@[simp] theorem writes_decoded (L : List Side) : (c.writes L msg).decoded = c.decoded := by
  induction L generalizing c <;> simp_all [writes]

theorem writes_wire (L : List Side) (s' : Side) :
    (c.writes L msg).wire s' = c.wire s' ++ List.replicate (L.count s'.other) msg := by
  induction L generalizing c with
  | nil => simp [writes]
  | cons s L ih =>
    rw [writes, List.foldl_cons, ← writes, ih, List.count_cons]
    by_cases h : s'.other = s
    · subst h; simp [write, List.replicate_succ]
    · have h' : s' ≠ s.other := fun e => h (by rw [e, Side.other_other])
      have h'' : s ≠ s'.other := fun e => h e.symm
      simp [write, h'', Function.update_noteq h']

theorem writes_written (L : List Side) (s' : Side) :
    (c.writes L msg).written s' = c.written s' ++ List.replicate (L.count s') msg := by
  induction L generalizing c with
  | nil => simp [writes]
  | cons s L ih =>
    rw [writes, List.foldl_cons, ← writes, ih, List.count_cons]
    by_cases h : s' = s
    · subst h; simp [write, List.replicate_succ]
    · simp [write, h, Function.update_noteq h, Ne.symm h]

end Lemmas

/-- What a connection keeps, given what each node's broadcast loop has taken from its outbox: at each
    end, the frames decoded and then those on their way are what the other end wrote; what an end
    wrote is a stretch of what its node's loop took; an end in the listener's queue wrote nothing. -/
structure Fits (c : Conn) (taken : NodeID → List NetMessage) : Prop where
  fifo : ∀ s, c.decoded s ++ c.wire s = c.written s.other
  stretch : ∀ s, c.written s <:+: taken (c.node s)
  pending : ∀ s, c.phase s = .pending → c.written s = []

/-- End `key.side` of the `k`-th connection `c` is node `i`'s under `key`: at node `i`, under its own
    key, out of the listener's queue, and what it wrote ends with the last message `i`'s broadcast
    loop took. -/
structure Registered (c : Conn) (k : Nat) (key : PeerKey) (i : NodeID) (taken : List NetMessage) : Prop where
  node : c.node key.side = i
  own : key = c.key k key.side
  phase : c.phase key.side ≠ .pending
  written : c.written key.side <:+ taken

section Registered
variable {c : Conn} {k : Nat} {key : PeerKey} {i : NodeID} {t : List NetMessage}

theorem Registered.setPhase (h : c.Registered k key i t) {s : Side} {p : EndPhase} (hp : p ≠ .pending) :
    (c.setPhase s p).Registered k key i t := by
  refine ⟨h.node, h.own, fun h' => ?_, h.written⟩
  by_cases e : key.side = s
  · subst e; simp [Conn.setPhase] at h'; exact hp h'
  · simp [Conn.setPhase, Function.update_noteq e] at h'; exact h.phase h'

theorem Registered.close (h : c.Registered k key i t) (s : Side) : (c.close s).Registered k key i t := by
  obtain ⟨p, hc, hp⟩ := c.close_eq s
  rw [hc]
  refine ⟨h.node, h.own, fun h' => ?_, h.written⟩
  by_cases e : key.side = s
  · subst e; simp [Conn.setPhase] at h'; exact h.phase (hp h')
  · simp [Conn.setPhase, Function.update_noteq e] at h'; exact h.phase h'

theorem Registered.take (h : c.Registered k key i t) {s : Side} {rest : List NetMessage} {msg : NetMessage} :
    (c.take s rest msg).Registered k key i t :=
  ⟨h.node, h.own, h.phase, h.written⟩

theorem Registered.writes (h : c.Registered k key i t) (L : List Side) (msg : NetMessage) :
    (c.writes L msg).Registered k key i (t ++ List.replicate (L.count key.side) msg) := by
  have hkey : (c.writes L msg).key = c.key := funext fun k => funext fun s => by cases s <;> simp [Conn.key]
  obtain ⟨u, hu⟩ := h.written
  refine ⟨by simpa using h.node, by rw [hkey]; exact h.own, by simpa using h.phase, ⟨u, ?_⟩⟩
  rw [writes_written, ← List.append_assoc, hu]

end Registered

section Fits
variable {c : Conn} {taken taken' : NodeID → List NetMessage} {s : Side} {msg : NetMessage}

theorem Fits.dial (i j : NodeID) : (Conn.dial i j).Fits taken :=
  ⟨fun _ => rfl, fun _ => List.nil_infix, fun _ _ => rfl⟩

theorem Fits.setPhase (h : c.Fits taken) {p : EndPhase} (hp : p = .pending → c.written s = []) :
    (c.setPhase s p).Fits taken := by
  refine ⟨h.fifo, h.stretch, fun s' hs' => ?_⟩
  by_cases e : s' = s
  · subst e; simp [Conn.setPhase] at hs'; exact hp hs'
  · simp [Conn.setPhase, Function.update_noteq e] at hs'; exact h.pending s' hs'

theorem Fits.close (h : c.Fits taken) (s : Side) : (c.close s).Fits taken := by
  obtain ⟨p, hc, hp⟩ := c.close_eq s
  rw [hc]
  exact h.setPhase fun e => h.pending s (hp e)

theorem Fits.take (h : c.Fits taken) {rest : List NetMessage} (hw : c.wire s = msg :: rest) :
    (c.take s rest msg).Fits taken := by
  refine ⟨fun s' => ?_, h.stretch, h.pending⟩
  by_cases e : s' = s
  · subst e; simp [Conn.take, ← h.fifo s', hw]
  · simp [Conn.take, Function.update_noteq e, h.fifo s']

theorem Fits.mono (h : c.Fits taken) (ht : ∀ i, taken i <+: taken' i) : c.Fits taken' :=
  ⟨h.fifo, fun s => (h.stretch s).trans (ht _).isInfix, h.pending⟩

theorem Fits.writes (h : c.Fits taken) {i : NodeID} {L : List Side} (hL : L.Nodup)
    (hreg : ∀ s ∈ L, c.node s = i ∧ c.phase s ≠ .pending ∧ c.written s <:+ taken i) :
    (c.writes L msg).Fits (Function.update taken i (taken i ++ [msg])) := by
  have hup : ∀ j, taken j <+: Function.update taken i (taken i ++ [msg]) j := fun j => by
    by_cases e : j = i
    · subst e; simp
    · simp [Function.update_noteq e]
  refine ⟨fun s => ?_, fun s => ?_, fun s hs => ?_⟩
  · rw [writes_decoded, writes_wire, writes_written, ← h.fifo, List.append_assoc]
  · rw [writes_written, writes_node, List.count_eq_of_nodup hL]
    split_ifs with hs
    · obtain ⟨hn, -, ⟨t, ht⟩⟩ := hreg s hs
      rw [hn, Function.update_same, ← ht]
      exact (List.suffix_append t _).isInfix.trans (by simp)
    · simpa using (h.stretch s).trans (hup _).isInfix
  · rw [writes_phase] at hs
    rw [writes_written, List.count_eq_zero_of_not_mem fun hm => (hreg s hm).2.1 hs, h.pending s hs]
    rfl

end Fits

end Conn

/-- The nodes, each with its TCP transport. `conns` are the connections dialed so far, in order;
    `peers i` is node `i`'s peers map, its entries in the order they were set; `sent i` counts the
    messages of `i`'s outbox its broadcast loop has taken, and `inbox i` holds the frames its read
    loops decoded that its dispatcher has not taken yet, oldest first. -/
structure Tcp where
  node : NodeID → Node
  conns : List Conn
  peers : NodeID → List (PeerKey × Nat)
  sent : NodeID → Nat
  inbox : NodeID → List NetMessage

/-- What happens next: an event of a node other than a dispatcher round, `AddPeer` at `i` of `j`'s
    address, the accept loop of `j` taking the oldest connection in its queue, the broadcast of the
    next message of a node's outbox, one frame decoded by the read loop at end `s` of the `k`-th
    connection, that read loop returning, or a dispatcher round. -/
inductive Tcp.Event
  | node (i : NodeID) (e : Node.Event)
  | addPeer (i j : NodeID)
  | accept (j : NodeID)
  | broadcast (i : NodeID)
  | read (k : Nat) (s : Side)
  | disconnect (k : Nat) (s : Side)
  | dispatch (j : NodeID)

namespace Tcp

/-- Nodes that have made no connection. -/
def init (node : NodeID → Node) : Tcp := ⟨node, [], fun _ => [], fun _ => 0, fun _ => []⟩

/-- `t.addConn(addr, c)` at node `i`: a connection already under the key is closed, and the `k`-th
    takes its place. -/
def addConn (T : Tcp) (i : NodeID) (key : PeerKey) (k : Nat) : Tcp :=
  { T with
    conns := match (T.peers i).lookup key with
      | some old => T.conns.modify (Conn.close · key.side) old
      | none => T.conns
    peers := Function.update T.peers i ((T.peers i).filter (·.1 != key) ++ [(key, k)]) }

/-- `t.broadcast(msg)`: one frame on the connection of each entry of the peers map. -/
def writeAll (E : List (PeerKey × Nat)) (msg : NetMessage) (cs : List Conn) : List Conn :=
  E.foldl (fun cs e => cs.modify (Conn.write · e.1.side msg) e.2) cs

/-- One event. A process that has stopped runs none of its loops. -/
def step (rt : Runtime) (T : Tcp) : Event → Tcp
  | .node i e => if e.fromNet then T else { T with node := Function.update T.node i ((T.node i).step rt e).1 }
  | .addPeer i j =>
    if (T.node i).alive && (T.node j).alive then
      { T with conns := T.conns ++ [Conn.dial i j] }.addConn i (.addr j) T.conns.length
    else T
  | .accept j =>
    match T.conns.findIdx? fun c => c.node .acceptor = j && c.phase .acceptor = .pending with
    | some k =>
      if (T.node j).alive then
        { T with conns := T.conns.modify (Conn.setPhase · .acceptor .reading) k }.addConn j (.remote k) k
      else T
    | none => T
  | .broadcast i =>
    match (T.node i).alive, (T.node i).out[T.sent i]? with
    | true, some msg => { T with sent := Function.update T.sent i (T.sent i + 1), conns := writeAll (T.peers i) msg T.conns }
    | _, _ => T
  | .read k s =>
    match T.conns[k]? with
    | some c =>
      match (T.node (c.node s)).alive && c.phase s = .reading, c.wire s with
      | true, msg :: rest =>
        { T with
          conns := T.conns.modify (Conn.take · s rest msg) k
          inbox := Function.update T.inbox (c.node s) (T.inbox (c.node s) ++ [msg]) }
      | _, _ => T
    | none => T
  | .disconnect k s =>
    match T.conns[k]? with
    | some c =>
      if (T.node (c.node s)).alive && c.stops s then
        { T with
          conns := T.conns.modify (Conn.setPhase · s .done) k
          peers := Function.update T.peers (c.node s) ((T.peers (c.node s)).filter (·.1 != c.key k s)) }
      else T
    | none => T
  | .dispatch j =>
    match (T.node j).alive, T.inbox j with
    | true, msg :: rest =>
      { T with node := Function.update T.node j ((T.node j).step rt (.dispatch msg)).1, inbox := Function.update T.inbox j rest }
    | _, _ => T

/-- The nodes after the events `es`, in order. -/
def run (rt : Runtime) (T : Tcp) (es : List Event) : Tcp := es.foldl (step rt) T

/-- What node `i`'s broadcast loop has taken from its outbox. -/
def taken (T : Tcp) (i : NodeID) : List NetMessage := (T.node i).out.take (T.sent i)

/-- The ends of the `k`-th connection that the entries `E` of a peers map name. -/
def sidesAt (E : List (PeerKey × Nat)) (k : Nat) : List Side := (E.filter (·.2 == k)).map (·.1.side)

theorem writeAll_getElem? (E : List (PeerKey × Nat)) (msg : NetMessage) (cs : List Conn) (k : Nat) :
    (writeAll E msg cs)[k]? = cs[k]?.map (·.writes (sidesAt E k) msg) := by
  induction E generalizing cs with
  | nil => simp [writeAll, sidesAt, Conn.writes]
  | cons e E ih =>
    rw [writeAll, List.foldl_cons, ← writeAll, ih, List.getElem?_modify]
    by_cases h : e.2 = k
    · cases cs[k]? <;> simp [sidesAt, h, Conn.writes]
    · cases cs[k]? <;> simp [sidesAt, h]

/-- What every run keeps: the nodes own their tables, and each broadcast loop has taken messages of
    its outbox; every connection `Fits`; every entry of a peers map is a `Registered` end of the node,
    and no key is there twice. -/
structure Inv (T : Tcp) : Prop where
  tables : ∀ i, (T.node i).Owns
  sent : ∀ i, T.sent i ≤ (T.node i).out.length
  conns : ∀ c ∈ T.conns, c.Fits T.taken
  peers : ∀ i e, e ∈ T.peers i → ∃ c, T.conns[e.2]? = some c ∧ c.Registered e.2 e.1 i (T.taken i)
  keys : ∀ i, ((T.peers i).map Prod.fst).Nodup

section Inv
variable {rt : Runtime} {T : Tcp}

theorem inv_init {node : NodeID → Node} (h : ∀ i, (node i).Owns) : (init node).Inv :=
  ⟨h, fun _ => Nat.zero_le _, nofun, fun _ _ => nofun, fun _ => List.nodup_nil⟩

theorem Inv.sidesAt_nodup (hi : T.Inv) (i : NodeID) (k : Nat) : (sidesAt (T.peers i) k).Nodup := by
  have hk : (((T.peers i).filter (·.2 == k)).map Prod.fst).Nodup :=
    (hi.keys i).sublist ((List.filter_sublist _).map _)
  rw [sidesAt, show (fun e : PeerKey × Nat => e.1.side) = PeerKey.side ∘ Prod.fst from rfl, ← List.map_map]
  refine hk.map_on fun x hx y hy hxy => ?_
  simp only [List.mem_map, List.mem_filter, beq_iff_eq] at hx hy
  obtain ⟨e, ⟨he, hek⟩, rfl⟩ := hx
  obtain ⟨e', ⟨he', hek'⟩, rfl⟩ := hy
  obtain ⟨c, hc, hr⟩ := hi.peers i e he
  obtain ⟨c', hc', hr'⟩ := hi.peers i e' he'
  rw [hek] at hc hr
  rw [hek', hc] at hc'
  cases hc'
  rw [hek'] at hr'
  calc e.1 = c.key k e.1.side := hr.own
    _ = c.key k e'.1.side := by rw [hxy]
    _ = e'.1 := hr'.own.symm

theorem Inv.sidesAt_reg (hi : T.Inv) {i : NodeID} {k : Nat} {s : Side} (hs : s ∈ sidesAt (T.peers i) k) :
    ∃ c, T.conns[k]? = some c ∧ c.node s = i ∧ c.phase s ≠ .pending ∧ c.written s <:+ T.taken i := by
  simp only [sidesAt, List.mem_map, List.mem_filter, beq_iff_eq] at hs
  obtain ⟨e, ⟨he, rfl⟩, rfl⟩ := hs
  obtain ⟨c, hc, hr⟩ := hi.peers i e he
  exact ⟨c, hc, hr.node, hr.phase, hr.written⟩

theorem Inv.lt (hi : T.Inv) {i : NodeID} {e : PeerKey × Nat} (he : e ∈ T.peers i) : e.2 < T.conns.length := by
  obtain ⟨c, hc, -⟩ := hi.peers i e he
  exact (List.getElem?_eq_some_iff.1 hc).1

theorem Inv.mem (hi : T.Inv) {k : Nat} {c : Conn} (hc : T.conns[k]? = some c) : c.Fits T.taken :=
  hi.conns c (List.mem_iff_getElem?.2 ⟨k, hc⟩)

theorem Inv.modify (hi : T.Inv) {k : Nat} {f : Conn → Conn}
    (hf : ∀ c, T.conns[k]? = some c → (f c).Fits T.taken)
    (hr : ∀ c key i, T.conns[k]? = some c → c.Registered k key i (T.taken i) → (f c).Registered k key i (T.taken i)) :
    { T with conns := T.conns.modify f k }.Inv := by
  refine ⟨hi.tables, hi.sent, fun c' hc' => ?_, fun i e he => ?_, hi.keys⟩
  · obtain ⟨n, hn⟩ := List.mem_iff_getElem?.1 hc'
    rw [List.getElem?_modify] at hn
    by_cases e : k = n
    · subst e
      cases hc : T.conns[k]? <;> simp [hc] at hn
      rw [← hn]; exact hf _ hc
    · simp only [e, if_false, Option.map_eq_map, Option.map_id'] at hn
      exact hi.conns c' (List.mem_iff_getElem?.2 ⟨n, hn⟩)
  · obtain ⟨c, hc, hreg⟩ := hi.peers i e he
    by_cases h : k = e.2
    · subst h; exact ⟨f c, by simp [hc], hr c e.1 i hc hreg⟩
    · exact ⟨c, by show (T.conns.modify f k)[e.2]? = _; rw [List.getElem?_modify_ne _ _ h]; exact hc, hreg⟩

theorem Inv.taken_nodes (hi : T.Inv) (node : NodeID → Node) (ho : ∀ i, ∃ new, (node i).out = (T.node i).out ++ new) :
    ({ T with node := node } : Tcp).taken = T.taken := funext fun i => by
  obtain ⟨new, hn⟩ := ho i
  simp only [taken, hn, List.take_append_of_le_length (hi.sent i)]

theorem taken_broadcast {i : NodeID} {msg : NetMessage} (hmsg : (T.node i).out[T.sent i]? = some msg) (cs : List Conn) :
    ({ T with sent := Function.update T.sent i (T.sent i + 1), conns := cs } : Tcp).taken =
      Function.update T.taken i (T.taken i ++ [msg]) := funext fun j => by
  by_cases hj : j = i
  · subst hj; simp [taken, List.take_succ, hmsg]
  · simp [taken, Function.update_noteq hj]

theorem Inv.nodes (hi : T.Inv) {node : NodeID → Node} (ho : ∀ i, ∃ new, (node i).out = (T.node i).out ++ new)
    (hs : ∀ i, (node i).Owns) : { T with node := node }.Inv := by
  have ht := hi.taken_nodes _ ho
  refine ⟨hs, fun i => ?_, fun c hc => ht ▸ hi.conns c hc, fun i e he => ht ▸ hi.peers i e he, hi.keys⟩
  obtain ⟨new, hn⟩ := ho i
  simp only [hn, List.length_append]
  exact (hi.sent i).trans (Nat.le_add_right _ _)

theorem Inv.addConn (hi : T.Inv) {i : NodeID} {key : PeerKey} {k : Nat} {c : Conn} (hc : T.conns[k]? = some c)
    (hreg : c.Registered k key i (T.taken i)) : (T.addConn i key k).Inv := by
  obtain ⟨hi₁, c', hc', hreg'⟩ : ({ T with conns := (T.addConn i key k).conns } : Tcp).Inv ∧
      ∃ c', (T.addConn i key k).conns[k]? = some c' ∧ c'.Registered k key i (T.taken i) := by
    unfold Tcp.addConn
    split
    · rename_i old _
      refine ⟨hi.modify (fun c hc => (hi.conns c (List.mem_iff_getElem?.2 ⟨_, hc⟩)).close key.side)
        fun c _ _ _ h => h.close key.side, ?_⟩
      by_cases e : old = k
      · subst e; exact ⟨_, by simp [hc], hreg.close key.side⟩
      · exact ⟨c, by rw [List.getElem?_modify_ne _ _ e]; exact hc, hreg⟩
    · exact ⟨hi, c, hc, hreg⟩
  refine ⟨hi₁.tables, hi₁.sent, hi₁.conns, fun j e he => ?_, fun j => ?_⟩
  · by_cases hj : j = i
    · subst hj
      unfold Tcp.addConn at he
      simp only [Function.update_same, List.mem_append, List.mem_filter, List.mem_singleton] at he
      rcases he with ⟨he, -⟩ | rfl
      · exact hi₁.peers j e he
      · exact ⟨c', hc', hreg'⟩
    · unfold Tcp.addConn at he
      simp only [Function.update_noteq hj] at he
      exact hi₁.peers j e he
  · unfold Tcp.addConn
    by_cases hj : j = i
    · subst hj
      simp only [Function.update_same, List.map_append, List.map_cons, List.map_nil]
      refine List.Nodup.append ((hi.keys j).sublist ((List.filter_sublist _).map _)) (List.nodup_singleton _) ?_
      simp [List.disjoint_singleton]
    · simp only [Function.update_noteq hj]; exact hi.keys j

theorem Inv.setNode (hi : T.Inv) (i : NodeID) {n : Node} (ho : ∃ new, n.out = (T.node i).out ++ new) (hs : n.Owns) :
    { T with node := Function.update T.node i n }.Inv := by
  refine hi.nodes (fun k => ?_) fun k => ?_ <;> by_cases hk : k = i
  · subst hk; rw [Function.update_same]; exact ho
  · exact ⟨[], by rw [Function.update_noteq hk, List.append_nil]⟩
  · subst hk; rw [Function.update_same]; exact hs
  · rw [Function.update_noteq hk]; exact hi.tables k

theorem Inv.dial (hi : T.Inv) (i j : NodeID) : { T with conns := T.conns ++ [Conn.dial i j] }.Inv := by
  refine ⟨hi.tables, hi.sent, fun c hc => ?_, fun k e he => ?_, hi.keys⟩
  · rcases List.mem_append.1 hc with hc | hc
    · exact hi.conns c hc
    · rw [List.mem_singleton.1 hc]; exact Conn.Fits.dial i j
  · obtain ⟨c, hc, hr⟩ := hi.peers k e he
    exact ⟨c, by rw [List.getElem?_append_left (hi.lt he)]; exact hc, hr⟩

theorem Inv.accept (hi : T.Inv) {j : NodeID} {k : Nat}
    (hk : T.conns.findIdx? (fun c => c.node .acceptor = j && c.phase .acceptor = .pending) = some k) :
    ({ T with conns := T.conns.modify (Conn.setPhase · .acceptor .reading) k }.addConn j (.remote k) k).Inv := by
  obtain ⟨hlt, hp, -⟩ := List.findIdx?_eq_some_iff_getElem.1 hk
  simp only [Bool.and_eq_true, decide_eq_true_eq] at hp
  have hc : T.conns[k]? = some T.conns[k] := List.getElem?_eq_getElem hlt
  refine (hi.modify (k := k) (f := (Conn.setPhase · .acceptor .reading)) (fun c hc' => (hi.mem hc').setPhase nofun)
    fun _ _ _ _ h => h.setPhase (by decide)).addConn (c := T.conns[k].setPhase .acceptor .reading) (by simp [hc]) ⟨hp.1, rfl, by simp [Conn.setPhase, PeerKey.side], ?_⟩
  show T.conns[k].written .acceptor <:+ _
  rw [(hi.mem hc).pending _ hp.2]
  exact List.nil_suffix

theorem Inv.broadcast (hi : T.Inv) {i : NodeID} {msg : NetMessage} (hmsg : (T.node i).out[T.sent i]? = some msg) :
    { T with sent := Function.update T.sent i (T.sent i + 1), conns := writeAll (T.peers i) msg T.conns }.Inv := by
  have ht := taken_broadcast hmsg (writeAll (T.peers i) msg T.conns)
  refine ⟨hi.tables, fun j => ?_, fun c hc => ?_, fun j e he => ?_, hi.keys⟩
  · by_cases hj : j = i
    · subst hj; simpa using (List.getElem?_eq_some_iff.1 hmsg).1
    · simpa [Function.update_noteq hj] using hi.sent j
  · obtain ⟨k, hk⟩ := List.mem_iff_getElem?.1 hc
    rw [writeAll_getElem?] at hk
    obtain ⟨c₀, hc₀, rfl⟩ := Option.map_eq_some'.1 hk
    rw [ht]
    refine (hi.conns c₀ (List.mem_iff_getElem?.2 ⟨k, hc₀⟩)).writes (hi.sidesAt_nodup i k) fun s hs => ?_
    obtain ⟨c', hc', hr⟩ := hi.sidesAt_reg hs
    rw [hc₀] at hc'
    cases hc'
    exact hr
  · obtain ⟨c, hc, hr⟩ := hi.peers j e he
    refine ⟨_, by show (writeAll (T.peers i) msg T.conns)[e.2]? = _; rw [writeAll_getElem?, hc]; rfl, ?_⟩
    have hw := hr.writes (sidesAt (T.peers i) e.2) msg
    rw [ht]
    by_cases hj : j = i
    · subst hj
      have hmem : e.1.side ∈ sidesAt (T.peers j) e.2 := by
        simp only [sidesAt, List.mem_map, List.mem_filter, beq_iff_eq]
        exact ⟨e, ⟨he, rfl⟩, rfl⟩
      rw [List.count_eq_of_nodup (hi.sidesAt_nodup j e.2), if_pos hmem] at hw
      rw [Function.update_same]
      exact hw
    · have hnot : e.1.side ∉ sidesAt (T.peers i) e.2 := fun hm => by
        obtain ⟨c', hc', hn, -⟩ := hi.sidesAt_reg hm
        rw [hc] at hc'
        cases hc'
        exact hj (hr.node.symm.trans hn)
      rw [List.count_eq_zero_of_not_mem hnot, List.replicate_zero, List.append_nil] at hw
      rw [Function.update_noteq hj]
      exact hw

theorem Inv.erase (hi : T.Inv) (i : NodeID) (key : PeerKey) :
    { T with peers := Function.update T.peers i ((T.peers i).filter (·.1 != key)) }.Inv := by
  refine ⟨hi.tables, hi.sent, hi.conns, fun j e he => ?_, fun j => ?_⟩ <;> by_cases hj : j = i
  · subst hj
    simp only [Function.update_same, List.mem_filter] at he
    exact hi.peers j e he.1
  · simp only [Function.update_noteq hj] at he; exact hi.peers j e he
  · subst hj
    simp only [Function.update_same]
    exact (hi.keys j).sublist ((List.filter_sublist _).map _)
  · simp only [Function.update_noteq hj]; exact hi.keys j

theorem Inv.inbox (hi : T.Inv) (b : NodeID → List NetMessage) : { T with inbox := b }.Inv :=
  ⟨hi.tables, hi.sent, hi.conns, hi.peers, hi.keys⟩

theorem Inv.step (hi : T.Inv) : ∀ e : Event, (T.step rt e).Inv
  | .node i e => by
    simp only [Tcp.step]
    split_ifs with he
    · exact hi
    · have g : Node.Grows (T.node i) ((T.node i).step rt e).1 := Node.Grows.step (hi.tables i) (by simpa using he)
      obtain ⟨new, hn, -⟩ := g.out
      exact hi.setNode i ⟨new, hn⟩ g.tables
  | .addPeer i j => by
    simp only [Tcp.step]
    split_ifs
    · exact (hi.dial i j).addConn (c := Conn.dial i j) (by simp) ⟨rfl, rfl, nofun, List.nil_suffix⟩
    · exact hi
  | .accept j => by
    simp only [Tcp.step]
    split
    · rename_i k hk
      split_ifs
      · exact hi.accept hk
      · exact hi
    · exact hi
  | .broadcast i => by
    simp only [Tcp.step]
    split
    · rename_i msg hmsg
      exact hi.broadcast hmsg
    · exact hi
  | .read k s => by
    simp only [Tcp.step]
    split
    · rename_i c hc
      split
      · rename_i msg rest _ hw
        exact (hi.modify (fun c' hc' => by rw [hc] at hc'; cases hc'; exact (hi.mem hc).take hw)
          fun _ _ _ _ h => h.take).inbox _
      · exact hi
    · exact hi
  | .disconnect k s => by
    simp only [Tcp.step]
    split
    · rename_i c hc
      split_ifs
      · exact (hi.modify (f := (Conn.setPhase · s .done)) (fun c' hc' => (hi.mem hc').setPhase nofun)
          fun _ _ _ _ h => h.setPhase (by decide)).erase _ _
      · exact hi
    · exact hi
  | .dispatch j => by
    simp only [Tcp.step]
    split
    · rename_i msg rest _ _
      have h := @Node.dispatch_cases rt (T.node j) (hi.tables j) msg
      exact (hi.setNode j ⟨[], by rw [h.2.1, List.append_nil]⟩ h.2.2.1).inbox _
    · exact hi

end Inv

/-- The runs of the nodes and their transports from nodes that own their tables and have made no
    connection. -/
inductive Reachable (rt : Runtime) : Tcp → Prop
  | init {node : NodeID → Node} : (∀ i, (node i).Owns) → Reachable rt (init node)
  | step {T : Tcp} (e : Event) : Reachable rt T → Reachable rt (T.step rt e)

section Runs
variable {rt : Runtime} {T : Tcp}

theorem Reachable.run (h : T.Reachable rt) (es : List Event) : (T.run rt es).Reachable rt := by
  induction es generalizing T with
  | nil => exact h
  | cons e es ih => exact ih (h.step e)

theorem Inv.of_reachable (h : T.Reachable rt) : T.Inv := by
  induction h with
  | init hs => exact inv_init hs
  | step e _ ih => exact ih.step e

/-- Each TCP connection carries, in order and once each, consecutive messages of its writer's
    outbox: at each end, the frames its read loop decoded and then those still on their way to it
    are what the other end wrote, and that is a stretch of the other end's node's outbox. -/
theorem transport_conserves (h : T.Reachable rt) {c : Conn} (hc : c ∈ T.conns) (s : Side) :
    c.decoded s ++ c.wire s = c.written s.other ∧ c.written s.other <:+: (T.node (c.node s.other)).out :=
  have hf := (Inv.of_reachable h).conns c hc
  ⟨hf.fifo s, (hf.stretch s.other).trans (List.take_prefix _ _).isInfix⟩

/-- Node `a` creates a table and writes a heartbeat, dials `b`, which accepts, and broadcasts it;
    `b`'s read loop decodes it. -/
theorem transport_conserves_heartbeat :
    let rt : Runtime := ⟨fun _ => ⟨fun _ _ => 0, fun _ _ h => h⟩, fun _ => "#"⟩
    let T := (init Node.init).run rt [.node "a" (.createLocalAuthorityTable "t" ⟨"t", 1000, 5, 10, 0, 0⟩),
      .node "a" (.input "t" .heartbeat), .addPeer "a" "b", .accept "b", .broadcast "a", .read 0 .acceptor]
    T.Reachable rt ∧ ∃ c ∈ T.conns, c.decoded .acceptor ≠ [] ∧
      c.decoded .acceptor ++ c.wire .acceptor = c.written Side.acceptor.other ∧
      c.written Side.acceptor.other <:+: (T.node (c.node Side.acceptor.other)).out := by
  intro rt T
  have h : T.Reachable rt := (Reachable.init fun _ _ _ h => Option.noConfusion h).run _
  exact ⟨h, T.conns.get ⟨0, by decide⟩, List.get_mem _ _ _, by decide, transport_conserves h (List.get_mem _ _ _) _⟩

end Runs

/-! ### Each pair connected once -/

/-- The node at end `s` of a connection dialed from `p.1` to `p.2`. -/
def endOf (p : NodeID × NodeID) : Side → NodeID
  | .dialer => p.1
  | .acceptor => p.2

/-- The key end `s` of the `k`-th connection, dialed from `p.1` to `p.2`, is registered under. -/
def pairKey (p : NodeID × NodeID) (k : Nat) : Side → PeerKey
  | .dialer => .addr p.2
  | .acceptor => .remote k

@[simp] theorem pairKey_side (p : NodeID × NodeID) (k : Nat) (s : Side) : (pairKey p k s).side = s := by
  cases s <;> rfl

/-- Pairs of distinct nodes, each pair once in either order. -/
structure Pairing (P : List (NodeID × NodeID)) : Prop where
  nodup : P.Nodup
  distinct : ∀ p ∈ P, p.1 ≠ p.2
  swap : ∀ p ∈ P, p.swap ∉ P

/-- The transport joins the pairs `P` by one connection each, the `k`-th for the `k`-th pair, read at
    both ends, and each node's peers map holds its ends of them under their keys, each once. -/
structure Linked (P : List (NodeID × NodeID)) (T : Tcp) : Prop where
  length : T.conns.length = P.length
  conn : ∀ (k : Nat) (p : NodeID × NodeID), P[k]? = some p →
    ∃ c : Conn, T.conns[k]? = some c ∧ c.node = endOf p ∧ ∀ s, c.phase s = .reading
  peers : ∀ i e, e ∈ T.peers i ↔ ∃ p, P[e.2]? = some p ∧ endOf p e.1.side = i ∧ e.1 = pairKey p e.2 e.1.side
  nodup : ∀ i, (T.peers i).Nodup

section Linked
variable {rt : Runtime} {P : List (NodeID × NodeID)} {T T' : Tcp}

theorem modify_map_shape {f : Conn → Conn} (hf : ∀ c, (f c).shape = c.shape) (k : Nat) (cs : List Conn) :
    (cs.modify f k).map Conn.shape = cs.map Conn.shape := by
  refine List.ext_getElem? fun n => ?_
  rw [List.getElem?_map, List.getElem?_map, List.getElem?_modify]
  cases cs[n]? with
  | none => rfl
  | some c => by_cases h : k = n <;> simp [h, hf]

theorem writeAll_map_shape (E : List (PeerKey × Nat)) (msg : NetMessage) (cs : List Conn) :
    (writeAll E msg cs).map Conn.shape = cs.map Conn.shape := by
  refine List.ext_getElem? fun n => ?_
  rw [List.getElem?_map, List.getElem?_map, writeAll_getElem?]
  cases cs[n]? <;> simp [Conn.shape]

theorem Linked.of_shape (hl : T.Linked P) (hs : T'.conns.map Conn.shape = T.conns.map Conn.shape)
    (hp : T'.peers = T.peers) : T'.Linked P := by
  refine ⟨by rw [← hl.length, ← List.length_map T'.conns Conn.shape, hs, List.length_map], fun k p hk => ?_,
    hp ▸ hl.peers, hp ▸ hl.nodup⟩
  obtain ⟨c, hc, hn, hr⟩ := hl.conn k p hk
  have h := congrArg (·[k]?) hs
  simp only [List.getElem?_map, hc, Option.map_some'] at h
  obtain ⟨c', hc', hsh⟩ := Option.map_eq_some'.1 h
  simp only [Conn.shape, Prod.mk.injEq] at hsh
  exact ⟨c', hc', hsh.1.trans hn, fun s => by rw [hsh.2]; exact hr s⟩

theorem Linked.get (hl : T.Linked P) {k : Nat} {c : Conn} (hc : T.conns[k]? = some c) :
    ∃ p, P[k]? = some p ∧ c.node = endOf p ∧ ∀ s, c.phase s = .reading := by
  have hk : k < P.length := hl.length ▸ (List.getElem?_eq_some_iff.1 hc).1
  obtain ⟨c', hc', h⟩ := hl.conn k _ (List.getElem?_eq_getElem hk)
  rw [hc] at hc'
  cases hc'
  exact ⟨_, List.getElem?_eq_getElem hk, h⟩

theorem Linked.count_sidesAt (hl : T.Linked P) {k : Nat} {p : NodeID × NodeID} (hp : P[k]? = some p) (i : NodeID)
    (s : Side) : (sidesAt (T.peers i) k).count s = if endOf p s = i then 1 else 0 := by
  have hx : ∀ e ∈ T.peers i, (e.1.side == s && e.2 == k) = decide (e = (pairKey p k s, k)) := fun e he => by
    obtain ⟨p', hp', -, hkey⟩ := (hl.peers i e).1 he
    by_cases h : e.2 = k
    · rw [h, hp] at hp'
      cases hp'
      by_cases h' : e.1.side = s
      · have : e = (pairKey p k s, k) := Prod.ext (by rw [hkey, h, h']) h
        simp [this]
      · have : e ≠ (pairKey p k s, k) := fun h'' => h' (by rw [h'', pairKey_side])
        simp [h', this]
    · have : e ≠ (pairKey p k s, k) := fun h'' => h (by rw [h''])
      simp [h, this]
  rw [sidesAt, List.count_eq_countP, List.countP_map, List.countP_filter,
    List.countP_congr (q := fun e => decide (e = (pairKey p k s, k))) fun e he => by
      simp only [Function.comp_apply]; rw [hx e he]]
  refine (List.count_eq_of_nodup (hl.nodup i)).trans ?_
  congr 1
  simp only [hl.peers, hp, Option.some.injEq, pairKey_side, exists_eq_left', and_true]

theorem Linked.fresh (hl : T.Linked P) {i : NodeID} {e : PeerKey × Nat} (he : e ∈ T.peers i) :
    e.2 < T.conns.length := by
  obtain ⟨p, hp, -⟩ := (hl.peers i e).1 he
  exact hl.length ▸ (List.getElem?_eq_some_iff.1 hp).1

theorem Linked.no_pending (hl : T.Linked P) (j : NodeID) :
    T.conns.findIdx? (fun c => c.node .acceptor = j && c.phase .acceptor = .pending) = none :=
  List.findIdx?_eq_none_iff.2 fun c hc => by
    obtain ⟨k, hk⟩ := List.mem_iff_getElem?.1 hc
    obtain ⟨p, -, -, hr⟩ := hl.get hk
    simp [hr]

theorem Linked.step (hl : T.Linked P) (e : Event) (he : ∀ i j, e ≠ .addPeer i j) : (T.step rt e).Linked P := by
  cases e with
  | node i e => simp only [Tcp.step]; split_ifs <;> exact hl.of_shape rfl rfl
  | addPeer i j => exact absurd rfl (he i j)
  | accept j =>
    simp only [Tcp.step, hl.no_pending j]
    exact hl
  | broadcast i =>
    simp only [Tcp.step]
    split
    · exact hl.of_shape (writeAll_map_shape _ _ _) rfl
    · exact hl
  | read k s =>
    simp only [Tcp.step]
    split
    · split
      · exact hl.of_shape (modify_map_shape (f := (Conn.take · s _ _)) (fun _ => rfl) _ _) rfl
      · exact hl
    · exact hl
  | disconnect k s =>
    simp only [Tcp.step]
    split
    · rename_i c hc
      obtain ⟨p, -, -, hr⟩ := hl.get hc
      simp [Conn.stops, hr, EndPhase.shut]
      exact hl
    · exact hl
  | dispatch j =>
    simp only [Tcp.step]
    split
    · exact hl.of_shape rfl rfl
    · exact hl

end Linked

/-! ### The transport as a `FullMesh` -/

/-- The connection of `P` that carries frames from `a` to `d`, and the end they go to. -/
def link (P : List (NodeID × NodeID)) (a d : NodeID) : Option (Nat × Side) :=
  match P.findIdx? (· = (a, d)) with
  | some k => some (k, .acceptor)
  | none => (P.findIdx? (· = (d, a))).map (·, .dialer)

/-- The transport as a `FullMesh`: the wire from `a` to `d` is the one toward `d` of the connection
    that joins them; between nodes that `P` does not join it holds all that `a`'s broadcast loop took,
    which no read loop reads. -/
def toFull (P : List (NodeID × NodeID)) (T : Tcp) : FullMesh where
  node := T.node
  sent := T.sent
  wire a d :=
    if a = d then []
    else match link P a d with
      | some (k, s) => (T.conns[k]?.map (·.wire s)).getD []
      | none => T.taken a
  inbox := T.inbox

/-- The mesh event a transport event is, if any: each loop of a running process is its mesh
    counterpart, and a read loop reads from the node at the other end of its connection. -/
def full (T : Tcp) : Event → Option FullMesh.Event
  | .node i e => some (.node i e)
  | .broadcast i => if (T.node i).alive then some (.broadcast i) else none
  | .read k s => (T.conns[k]?).bind fun c =>
      if (T.node (c.node s)).alive then some (.read (c.node s.other) (c.node s)) else none
  | .dispatch j => if (T.node j).alive then some (.dispatch j) else none
  | _ => none

section Link
variable {P : List (NodeID × NodeID)} {a d : NodeID} {k : Nat} {s : Side}

theorem findIdx?_of_nodup (hP : P.Nodup) {x : NodeID × NodeID} (hk : P[k]? = some x) :
    P.findIdx? (· = x) = some k := by
  obtain ⟨hlt, rfl⟩ := List.getElem?_eq_some_iff.1 hk
  refine List.findIdx?_eq_some_iff_getElem.2 ⟨hlt, by simp, fun j hj h => ?_⟩
  simp only [decide_eq_true_eq] at h
  exact absurd (hP.getElem_inj_iff.1 h) (by omega)

theorem link_eq_some (hP : Pairing P) :
    link P a d = some (k, s) ↔ ∃ p, P[k]? = some p ∧ endOf p s = d ∧ endOf p s.other = a := by
  constructor
  · unfold link
    split
    · rename_i k' hk'
      intro h
      cases h
      obtain ⟨hlt, hp, -⟩ := List.findIdx?_eq_some_iff_getElem.1 hk'
      simp only [decide_eq_true_eq] at hp
      exact ⟨_, List.getElem?_eq_getElem hlt, by rw [hp]; rfl, by rw [hp]; rfl⟩
    · intro h
      obtain ⟨k', hk', he⟩ := Option.map_eq_some'.1 h
      cases he
      obtain ⟨hlt, hp, -⟩ := List.findIdx?_eq_some_iff_getElem.1 hk'
      simp only [decide_eq_true_eq] at hp
      exact ⟨_, List.getElem?_eq_getElem hlt, by rw [hp]; rfl, by rw [hp]; rfl⟩
  · rintro ⟨p, hp, hd, ha⟩
    have hmem : p ∈ P := List.mem_iff_getElem?.2 ⟨k, hp⟩
    cases s with
    | acceptor =>
      obtain rfl : p = (a, d) := Prod.ext ha hd
      simp [link, findIdx?_of_nodup hP.nodup hp]
    | dialer =>
      obtain rfl : p = (d, a) := Prod.ext hd ha
      have hn : P.findIdx? (· = (a, d)) = none :=
        List.findIdx?_eq_none_iff.2 fun x hx => by
          simp only [decide_eq_false_iff_not]
          rintro rfl
          exact hP.swap _ hmem hx
      simp [link, hn, findIdx?_of_nodup hP.nodup hp]

end Link

/-! ### One transport step is one mesh step, or none -/

section Simulation
variable {rt : Runtime} {P : List (NodeID × NodeID)} {T : Tcp}

theorem fullMesh_ext {m m' : FullMesh} (hn : m.node = m'.node) (hs : m.sent = m'.sent)
    (hw : ∀ a d, m.wire a d = m'.wire a d) (hb : m.inbox = m'.inbox) : m = m' := by
  cases m; cases m'
  simp only [FullMesh.mk.injEq] at *
  exact ⟨hn, hs, funext fun a => funext (hw a), hb⟩

theorem toFull_wire_congr {T' : Tcp} (ht : T'.taken = T.taken) (hc : T'.conns = T.conns) :
    (toFull P T').wire = (toFull P T).wire := by
  funext a d
  simp only [toFull, hc, ht]

theorem Linked.accept_eq (hl : T.Linked P) (j : NodeID) : T.step rt (.accept j) = T := by
  have hnone : T.conns.findIdx? (fun c => c.node .acceptor = j && c.phase .acceptor = .pending) = none :=
    List.findIdx?_eq_none_iff.2 fun c hc => by
      obtain ⟨k, hk⟩ := List.mem_iff_getElem?.1 hc
      obtain ⟨p, -, -, hr⟩ := hl.get hk
      simp [hr]
  simp only [Tcp.step, hnone]

theorem Linked.disconnect_eq (hl : T.Linked P) (k : Nat) (s : Side) : T.step rt (.disconnect k s) = T := by
  simp only [Tcp.step]
  split
  · rename_i c hc
    obtain ⟨p, -, -, hr⟩ := hl.get hc
    simp [Conn.stops, hr, EndPhase.shut]
  · rfl

theorem Linked.link_of_conn (hP : Pairing P) (hl : T.Linked P) {k : Nat} {c : Conn} (hc : T.conns[k]? = some c)
    (s : Side) : c.node s.other ≠ c.node s ∧ link P (c.node s.other) (c.node s) = some (k, s) := by
  obtain ⟨p, hp, hn, -⟩ := hl.get hc
  have hd := hP.distinct p (List.mem_iff_getElem?.2 ⟨k, hp⟩)
  refine ⟨by rw [hn]; cases s <;> simp [endOf, Side.other, hd, Ne.symm hd],
    (link_eq_some hP).2 ⟨p, hp, by rw [hn], by rw [hn]⟩⟩

theorem Linked.wire_of_conn (hP : Pairing P) (hl : T.Linked P) {k : Nat} {c : Conn} (hc : T.conns[k]? = some c)
    (s : Side) : (toFull P T).wire (c.node s.other) (c.node s) = c.wire s := by
  obtain ⟨hne, hlk⟩ := hl.link_of_conn hP hc s
  simp [toFull, hne, hlk, hc]

theorem toFull_node (hi : T.Inv) (i : NodeID) (e : Node.Event) :
    toFull P (T.step rt (.node i e)) = (toFull P T).step rt (.node i e) := by
  cases he : e.fromNet
  · have g : Node.Grows (T.node i) ((T.node i).step rt e).1 := Node.Grows.step (hi.tables i) he
    obtain ⟨new, hn, -⟩ := g.out
    have ht := (hi.taken_nodes (Function.update T.node i ((T.node i).step rt e).1) fun k => by
      by_cases hk : k = i
      · subst hk; rw [Function.update_same]; exact ⟨new, hn⟩
      · exact ⟨[], by rw [Function.update_noteq hk, List.append_nil]⟩)
    simp only [Tcp.step, FullMesh.step, he, Bool.false_eq_true, if_false]
    exact fullMesh_ext rfl rfl (fun a d => congrFun (congrFun (toFull_wire_congr ht rfl) a) d) rfl
  · simp only [Tcp.step, FullMesh.step, he, if_true]

theorem toFull_broadcast (hP : Pairing P) (hl : T.Linked P) {i : NodeID} {msg : NetMessage}
    (ha : (T.node i).alive = true) (hmsg : (T.node i).out[T.sent i]? = some msg) :
    toFull P (T.step rt (.broadcast i)) = (toFull P T).step rt (.broadcast i) := by
  have ht := taken_broadcast hmsg (writeAll (T.peers i) msg T.conns)
  have hm : (toFull P T).node i = T.node i := rfl
  simp only [Tcp.step, ha, hmsg, FullMesh.step, hm, show (toFull P T).sent = T.sent from rfl]
  refine fullMesh_ext rfl rfl (fun a d => ?_) rfl
  by_cases had : a = d
  · subst had; simp [toFull]
  simp only [toFull, had, if_false]
  cases hlk : link P a d with
  | none =>
    simp only [ht]
    by_cases hai : a = i
    · subst hai; simp [Ne.symm had]
    · simp [hai, Function.update_noteq hai]
  | some ks =>
    obtain ⟨k, s⟩ := ks
    obtain ⟨p, hp, -, hpa⟩ := (link_eq_some hP).1 hlk
    obtain ⟨c, hc, -, -⟩ := hl.conn k p hp
    simp only [writeAll_getElem?, hc, Option.map_some', Option.getD_some, Conn.writes_wire, hl.count_sidesAt hp, hpa]
    by_cases hai : a = i
    · subst hai; simp [Ne.symm had]
    · simp [hai]

theorem toFull_read (hP : Pairing P) (hl : T.Linked P) {k : Nat} {s : Side} {c : Conn} (hc : T.conns[k]? = some c)
    (ha : (T.node (c.node s)).alive = true) {msg : NetMessage} {rest : List NetMessage} (hw : c.wire s = msg :: rest) :
    toFull P (T.step rt (.read k s)) = (toFull P T).step rt (.read (c.node s.other) (c.node s)) := by
  obtain ⟨p, hp, hn, hr⟩ := hl.get hc
  obtain ⟨hne, hlk⟩ := hl.link_of_conn hP hc s
  have hwire := hl.wire_of_conn hP hc s
  rw [hw] at hwire
  simp only [Tcp.step, hc, ha, hr, hw, decide_True, Bool.and_self, FullMesh.step, hwire]
  refine fullMesh_ext rfl rfl (fun a d => ?_) rfl
  by_cases hx : a = c.node s.other ∧ d = c.node s
  · obtain ⟨rfl, rfl⟩ := hx
    simp [toFull, hne, hlk, List.getElem?_modify, hc, Conn.take]
  dsimp only
  rw [if_neg hx]
  by_cases had : a = d
  · simp [toFull, had]
  simp only [toFull, had, if_false]
  cases hlk' : link P a d with
  | none => rfl
  | some ks =>
    obtain ⟨k', s'⟩ := ks
    simp only [List.getElem?_modify]
    by_cases hk : k = k'
    · subst hk
      obtain ⟨p', hp', hd, hpa⟩ := (link_eq_some hP).1 hlk'
      rw [hp] at hp'
      cases hp'
      have hs : s' ≠ s := fun e => hx (by subst e; exact ⟨by rw [hn]; exact hpa.symm, by rw [hn]; exact hd.symm⟩)
      simp [hc, Conn.take, Function.update_noteq hs]
    · simp [hk]

theorem toFull_dispatch (hi : T.Inv) {j : NodeID} (ha : (T.node j).alive = true) {msg : NetMessage}
    {rest : List NetMessage} (hq : T.inbox j = msg :: rest) :
    toFull P (T.step rt (.dispatch j)) = (toFull P T).step rt (.dispatch j) := by
  have h := @Node.dispatch_cases rt (T.node j) (hi.tables j) msg
  have ht := hi.taken_nodes (Function.update T.node j ((T.node j).step rt (.dispatch msg)).1) fun k => by
    by_cases hk : k = j
    · subst hk; rw [Function.update_same, h.2.1]; exact ⟨[], (List.append_nil _).symm⟩
    · exact ⟨[], by rw [Function.update_noteq hk, List.append_nil]⟩
  have hm : (toFull P T).inbox j = msg :: rest := hq
  simp only [Tcp.step, ha, hq, FullMesh.step, hm]
  exact fullMesh_ext rfl rfl (fun a d => congrFun (congrFun (toFull_wire_congr ht rfl) a) d) rfl

/-- Each transport event other than a dial, between nodes joined once each, is the mesh event that
    `full` names, or changes nothing the mesh has. -/
theorem toFull_step (hP : Pairing P) (hl : T.Linked P) (hi : T.Inv) (e : Event) (he : ∀ i j, e ≠ .addPeer i j) :
    toFull P (T.step rt e) = match T.full e with
      | some e' => (toFull P T).step rt e'
      | none => toFull P T := by
  cases e with
  | node i e => exact toFull_node hi i e
  | addPeer i j => exact absurd rfl (he i j)
  | accept j => rw [hl.accept_eq]; rfl
  | disconnect k s => rw [hl.disconnect_eq]; rfl
  | broadcast i =>
    simp only [full]
    split_ifs with ha
    · cases hmsg : (T.node i).out[T.sent i]? with
      | some msg => exact toFull_broadcast hP hl ha hmsg
      | none =>
        have hm : (toFull P T).node i = T.node i := rfl
        simp only [Tcp.step, ha, hmsg, FullMesh.step, hm, show (toFull P T).sent = T.sent from rfl]
    · simp only [Tcp.step, Bool.not_eq_true] at ha ⊢
      simp [ha]
  | read k s =>
    simp only [full]
    cases hc : T.conns[k]? with
    | none => simp only [Tcp.step, hc, Option.none_bind]
    | some c =>
      simp only [Option.some_bind]
      obtain ⟨p, -, -, hr⟩ := hl.get hc
      split_ifs with ha
      · cases hw : c.wire s with
        | cons msg rest => exact toFull_read hP hl hc ha hw
        | nil =>
          have hwire := hl.wire_of_conn hP hc s
          rw [hw] at hwire
          simp only [Tcp.step, hc, ha, hr, hw, decide_True, Bool.and_self, FullMesh.step, hwire]
      · simp only [Tcp.step, hc, Bool.not_eq_true] at ha ⊢
        simp [ha]
  | dispatch j =>
    simp only [full]
    split_ifs with ha
    · cases hq : T.inbox j with
      | cons msg rest => exact toFull_dispatch hi ha hq
      | nil =>
        have hm : (toFull P T).inbox j = [] := hq
        simp only [Tcp.step, ha, hq, FullMesh.step, hm]
    · simp only [Tcp.step, Bool.not_eq_true] at ha ⊢
      simp [ha]

end Simulation

/-! ### Connecting each pair once -/

/-- The pairs of distinct nodes of `ns`, each once: every node with each later one. -/
def pairs : List NodeID → List (NodeID × NodeID)
  | [] => []
  | i :: ns => ns.map (i, ·) ++ pairs ns

/-- Each pair `(a, b)` of `P` in turn: `a` dials `b`, and `b`'s accept loop takes the connection. -/
def connect (P : List (NodeID × NodeID)) : List Event := P.flatMap fun p => [.addPeer p.1 p.2, .accept p.2]

theorem mem_pairs {ns : List NodeID} {p : NodeID × NodeID} (h : p ∈ pairs ns) : p.1 ∈ ns ∧ p.2 ∈ ns := by
  induction ns with
  | nil => cases h
  | cons i ns ih =>
    rcases List.mem_append.1 h with h | h
    · obtain ⟨j, hj, rfl⟩ := List.mem_map.1 h
      exact ⟨List.mem_cons_self _ _, List.mem_cons_of_mem _ hj⟩
    · exact (ih h).imp (List.mem_cons_of_mem _) (List.mem_cons_of_mem _)

theorem pairing_pairs {ns : List NodeID} (h : ns.Nodup) : Pairing (pairs ns) := by
  induction ns with
  | nil => exact ⟨List.nodup_nil, nofun, nofun⟩
  | cons i ns ih =>
    obtain ⟨hi, hns⟩ := List.nodup_cons.1 h
    obtain ⟨hnd, hdist, hswap⟩ := ih hns
    have hmap : ∀ {p}, p ∈ ns.map (i, ·) → p.1 = i ∧ p.2 ∈ ns := fun hp => by
      obtain ⟨j, hj, rfl⟩ := List.mem_map.1 hp
      exact ⟨rfl, hj⟩
    refine ⟨List.nodup_append.2 ⟨hns.map fun _ _ h => (Prod.mk.inj h).2, hnd, fun p hp hp' => ?_⟩,
      fun p hp => ?_, fun p hp hp' => ?_⟩
    · exact hi ((hmap hp).1 ▸ (mem_pairs hp').1)
    · rcases List.mem_append.1 hp with hp | hp
      · obtain ⟨h1, h2⟩ := hmap hp
        exact fun e => hi (h1 ▸ e ▸ h2)
      · exact hdist p hp
    · rcases List.mem_append.1 hp with hp | hp <;> rcases List.mem_append.1 hp' with hp' | hp'
      · exact hi ((hmap hp').1 ▸ (hmap hp).2)
      · exact hi ((hmap hp).1 ▸ (mem_pairs hp').2)
      · exact hi ((hmap hp').1 ▸ (mem_pairs hp).2)
      · exact hswap p hp hp'

section Connect
variable {rt : Runtime} {P : List (NodeID × NodeID)} {T : Tcp} {a b : NodeID}

theorem modify_last {α : Type} (l : List α) (x : α) (f : α → α) : (l ++ [x]).modify f l.length = l ++ [f x] := by
  induction l with
  | nil => rfl
  | cons y l ih => simp only [List.cons_append, List.length_cons, List.modify_succ_cons, ih]

theorem getElem?_append_singleton {P : List (NodeID × NodeID)} {q p : NodeID × NodeID} {n : Nat} :
    (P ++ [q])[n]? = some p ↔ P[n]? = some p ∨ n = P.length ∧ p = q := by
  rcases Nat.lt_trichotomy n P.length with h | rfl | h
  · simp [List.getElem?_append_left h, Nat.ne_of_lt h]
  · simp [eq_comm]
  · rw [List.getElem?_eq_none (by simp; omega)]
    simp [List.getElem?_eq_none (Nat.le_of_lt h), Nat.ne_of_gt h]

theorem addConn_of_lookup {i : NodeID} {key : PeerKey} {k : Nat} (h : (T.peers i).lookup key = none) :
    T.addConn i key k = { T with peers := Function.update T.peers i (T.peers i ++ [(key, k)]) } := by
  have hf : (T.peers i).filter (·.1 != key) = T.peers i :=
    List.filter_eq_self.2 fun e he => bne_iff_ne.2 (Ne.symm (bne_iff_ne.1 (List.lookup_eq_none_iff.1 h e he)))
  simp only [addConn, h, hf]

theorem mem_update_append {f : NodeID → List (PeerKey × Nat)} {a i : NodeID} {x e : PeerKey × Nat} :
    e ∈ Function.update f a (f a ++ [x]) i ↔ e ∈ f i ∨ (i = a ∧ e = x) := by
  by_cases h : i = a
  · subst h; simp
  · simp [Function.update_noteq h, h]

theorem nodup_update_append {f : NodeID → List (PeerKey × Nat)} (hf : ∀ i, (f i).Nodup) {a : NodeID}
    {x : PeerKey × Nat} (hx : x ∉ f a) (i : NodeID) : (Function.update f a (f a ++ [x]) i).Nodup := by
  by_cases h : i = a
  · subst h
    rw [Function.update_same]
    exact (hf i).append (List.nodup_singleton x) (List.disjoint_singleton.2 hx)
  · rw [Function.update_noteq h]; exact hf i

/-- The entries under which the ends of a new `k`-th connection, dialed from `q.1` to `q.2`, are
    registered: the dialer's under the address it dialed, the acceptor's under the connection. -/
theorem pairKey_iff {q : NodeID × NodeID} {k : Nat} {i : NodeID} {e : PeerKey × Nat} :
    (e.2 = k ∧ endOf q e.1.side = i ∧ e.1 = pairKey q e.2 e.1.side) ↔
      (i = q.1 ∧ e = (.addr q.2, k)) ∨ (i = q.2 ∧ e = (.remote k, k)) := by
  obtain ⟨key, n⟩ := e
  cases key <;> simp only [endOf, pairKey, PeerKey.side, Prod.mk.injEq, PeerKey.addr.injEq, PeerKey.remote.injEq,
    reduceCtorEq, false_and, and_false, or_false, false_or] <;>
    constructor <;> rintro ⟨rfl, rfl, rfl⟩ <;> exact ⟨rfl, rfl, rfl⟩

/-- The dial of `b` by `a` and its accept, between running nodes not yet joined: the new
    connection is read at the acceptor's end, and each end is registered under its key. -/
theorem Linked.run_addPair (hl : T.Linked P) (hab : a ≠ b) (h₁ : (T.peers a).lookup (.addr b) = none)
    (ha : (T.node a).alive = true) (hb : (T.node b).alive = true) :
    T.run rt [.addPeer a b, .accept b] =
      { T with
        conns := T.conns ++ [(Conn.dial a b).setPhase .acceptor .reading]
        peers := Function.update (Function.update T.peers a (T.peers a ++ [(.addr b, T.conns.length)])) b
          (Function.update T.peers a (T.peers a ++ [(.addr b, T.conns.length)]) b ++
            [(.remote T.conns.length, T.conns.length)]) } := by
  have h₂ : (Function.update T.peers a (T.peers a ++ [(.addr b, T.conns.length)]) b).lookup
      (.remote T.conns.length) = none := by
    rw [Function.update_noteq (Ne.symm hab)]
    refine List.lookup_eq_none_iff.2 fun e he => bne_iff_ne.2 fun h => ?_
    obtain ⟨p, -, -, hk⟩ := (hl.peers b e).1 he
    have := hl.fresh he
    rw [← h] at hk
    simp only [PeerKey.side, pairKey, PeerKey.remote.injEq] at hk
    omega
  have hfind : (T.conns ++ [Conn.dial a b]).findIdx? (fun c => c.node .acceptor = b && c.phase .acceptor = .pending) =
      some T.conns.length := by
    simp [hl.no_pending b, Conn.dial]
  simp only [run, List.foldl_cons, List.foldl_nil, Tcp.step, ha, hb, Bool.and_self, if_true,
    addConn_of_lookup (T := { T with conns := T.conns ++ [Conn.dial a b] }) h₁, hfind, modify_last]
  exact addConn_of_lookup h₂

theorem Linked.addPair (hl : T.Linked P) (hw : ∀ c ∈ T.conns, ∀ s, c.wire s = []) (hP : Pairing (P ++ [(a, b)]))
    (ha : (T.node a).alive = true) (hb : (T.node b).alive = true) :
    (T.run rt [.addPeer a b, .accept b]).Linked (P ++ [(a, b)]) ∧
      (∀ c ∈ (T.run rt [.addPeer a b, .accept b]).conns, ∀ s, c.wire s = []) ∧
      (T.run rt [.addPeer a b, .accept b]).node = T.node ∧ (T.run rt [.addPeer a b, .accept b]).sent = T.sent ∧
      (T.run rt [.addPeer a b, .accept b]).inbox = T.inbox := by
  have hab : a ≠ b := hP.distinct (a, b) (List.mem_append_right _ (List.mem_singleton_self _))
  have hnew : (a, b) ∉ P := fun h => (List.nodup_append.1 hP.nodup).2.2 h (List.mem_singleton_self _)
  -- `a` has no entry for `b` yet, and no entry names the new connection
  have h₁ : (T.peers a).lookup (.addr b) = none := List.lookup_eq_none_iff.2 fun e he => by
    obtain ⟨p, hp, hs, hk⟩ := (hl.peers a e).1 he
    refine bne_iff_ne.2 fun h => hnew ?_
    rw [← h] at hs hk
    simp only [PeerKey.side, endOf, pairKey, PeerKey.addr.injEq] at hs hk
    exact (show p = (a, b) from Prod.ext hs hk.symm) ▸ List.mem_iff_getElem?.2 ⟨_, hp⟩
  have hfresh : ∀ i key, (key, T.conns.length) ∉ T.peers i := fun _ _ h => Nat.lt_irrefl _ (hl.fresh h)
  rw [hl.run_addPair hab h₁ ha hb]
  refine ⟨⟨by simp [hl.length], fun k p hk => ?_, fun i e => ?_,
    nodup_update_append (nodup_update_append hl.nodup (hfresh a _)) fun h => ?_⟩, fun c hc s => ?_, rfl, rfl, rfl⟩
  · rcases getElem?_append_singleton.1 hk with hk | ⟨rfl, rfl⟩
    · obtain ⟨c, hc, h⟩ := hl.conn k p hk
      exact ⟨c, by rw [List.getElem?_append_left (hl.length ▸ (List.getElem?_eq_some_iff.1 hk).1)]; exact hc, h⟩
    · refine ⟨(Conn.dial a b).setPhase .acceptor .reading, by simp [hl.length], funext fun s => by cases s <;> rfl,
        fun s => ?_⟩
      cases s <;> simp [Conn.setPhase, Conn.dial]
  · simp only [mem_update_append, hl.peers, getElem?_append_singleton, or_and_right, exists_or, and_assoc,
      exists_and_left, exists_eq_left, ← hl.length, pairKey_iff, or_assoc]
  · exact (mem_update_append.1 h).elim (hfresh b _) fun h => hab h.1.symm
  · rcases List.mem_append.1 hc with hc | hc
    · exact hw c hc s
    · rw [List.mem_singleton.1 hc]; rfl

theorem Pairing.left {Q : List (NodeID × NodeID)} (h : Pairing (P ++ Q)) : Pairing P :=
  ⟨(List.nodup_append.1 h.nodup).1, fun p hp => h.distinct p (List.mem_append_left _ hp),
    fun p hp hs => h.swap p (List.mem_append_left _ hp) (List.mem_append_left _ hs)⟩

theorem linked_nil (node : NodeID → Node) : (init node).Linked [] :=
  ⟨rfl, fun _ _ h => by simp at h, fun _ _ => by simp [init], fun _ => List.nodup_nil⟩

theorem Linked.connectAll (hl : T.Linked P) (hw : ∀ c ∈ T.conns, ∀ s, c.wire s = []) {Q : List (NodeID × NodeID)}
    (hP : Pairing (P ++ Q)) (ha : ∀ p ∈ Q, (T.node p.1).alive = true ∧ (T.node p.2).alive = true) :
    (T.run rt (connect Q)).Linked (P ++ Q) ∧ (∀ c ∈ (T.run rt (connect Q)).conns, ∀ s, c.wire s = []) ∧
      (T.run rt (connect Q)).node = T.node ∧ (T.run rt (connect Q)).sent = T.sent ∧
      (T.run rt (connect Q)).inbox = T.inbox := by
  induction Q generalizing P T with
  | nil => simpa [connect, run] using ⟨hl, hw⟩
  | cons q Q ih =>
    obtain ⟨a, b⟩ := q
    have hP' : Pairing (P ++ [(a, b)] ++ Q) := by simpa using hP
    have hab := ha _ (List.mem_cons_self _ _)
    obtain ⟨hl', hw', hn, hs, hb⟩ := @Linked.addPair rt _ _ _ _ hl hw hP'.left hab.1 hab.2
    obtain ⟨h₁, h₂, h₃, h₄, h₅⟩ := ih hl' hw' hP' fun p hp => by rw [hn]; exact ha p (List.mem_cons_of_mem _ hp)
    have hrun : T.run rt (connect ((a, b) :: Q)) = (T.run rt [.addPeer a b, .accept b]).run rt (connect Q) :=
      List.foldl_append _ _ _ _
    rw [hrun]
    exact ⟨by simpa using h₁, h₂, h₃.trans hn, h₄.trans hs, h₅.trans hb⟩

end Connect

/-! ### Runs of a cluster connected once -/

/-- The nodes `ns` brought up as `FullMesh.start` has them, each with its replica of `tid`, and then
    joined by the transport: each node of `ns` dials every later one, which accepts. -/
def start (rt : Runtime) (ns : List NodeID) (tid : TableID) (cfg : TableConfig) (auth : NodeID) : Tcp :=
  (init (FullMesh.start rt tid cfg auth).node).run rt (connect (pairs ns))

/-- The step of the cluster model of `tid` that a transport event is, if any: only the events of a
    running node are. -/
def image (T : Tcp) (tid : TableID) : Event → Option P2Poker.Event
  | .node i e => if (T.node i).alive then ((T.node i).tableAction tid e).map (·.toEvent i) else none
  | _ => none

/-- The nodes as the cluster model of `tid` sees them: as for `FullMesh.project`, their replicas
    and outboxes. -/
def project (T : Tcp) (tid : TableID) (cfg : TableConfig) (auth : NodeID) : Cluster :=
  FullMesh.project ⟨T.node, T.sent, fun _ _ => [], T.inbox⟩ tid cfg auth

/-- The runs of the transport from `start` in which nobody dials again and every event that is a
    step of the cluster model of `tid` is one that `ok` allows there. -/
inductive Reaches (rt : Runtime) (ok : Cluster → P2Poker.Event → Prop) (ns : List NodeID) (tid : TableID)
    (cfg : TableConfig) (auth : NodeID) : Tcp → Prop
  | start : ns.Nodup → Reaches rt ok ns tid cfg auth (start rt ns tid cfg auth)
  | step {T : Tcp} (e : Event) : Reaches rt ok ns tid cfg auth T → (∀ i j, e ≠ .addPeer i j) →
      (∀ ce, T.image tid e = some ce → ok (T.project tid cfg auth) ce) → Reaches rt ok ns tid cfg auth (T.step rt e)

section Start
variable {rt : Runtime} {ok : Cluster → P2Poker.Event → Prop} {ns : List NodeID} {tid : TableID}
  {cfg : TableConfig} {auth : NodeID} {P : List (NodeID × NodeID)} {T : Tcp}

theorem start_spec (hn : ns.Nodup) :
    (start rt ns tid cfg auth).Linked (pairs ns) ∧ (∀ c ∈ (start rt ns tid cfg auth).conns, ∀ s, c.wire s = []) ∧
      (start rt ns tid cfg auth).node = (FullMesh.start rt tid cfg auth).node ∧
      (start rt ns tid cfg auth).sent = (fun _ => 0) ∧ (start rt ns tid cfg auth).inbox = (fun _ => []) :=
  (linked_nil _).connectAll (fun _ h => by simp [init] at h) (by simpa using pairing_pairs hn)
    fun _ _ => by simp [init, FullMesh.start_node, Node.init]

theorem toFull_start (hn : ns.Nodup) : toFull (pairs ns) (start rt ns tid cfg auth) = FullMesh.start rt tid cfg auth := by
  obtain ⟨-, hw, hnode, hsent, hbox⟩ := @start_spec rt ns tid cfg auth hn
  refine fullMesh_ext hnode hsent (fun a d => ?_) hbox
  simp only [toFull, FullMesh.start]
  split_ifs
  · rfl
  · split
    · rename_i k s _
      cases hc : (start rt ns tid cfg auth).conns[k]? with
      | none => rfl
      | some c => simp [hw c (List.mem_iff_getElem?.2 ⟨k, hc⟩) s]
    · simp [taken, hsent]

theorem project_toFull : (toFull P T).project tid cfg auth = T.project tid cfg auth := rfl

theorem image_full (e : Event) : (T.full e).bind ((toFull P T).image tid) = T.image tid e := by
  cases e with
  | node i e => rfl
  | read k s =>
    simp only [full, image]
    cases T.conns[k]? with
    | none => rfl
    | some c => simp only [Option.some_bind]; split <;> rfl
  | broadcast i | dispatch i => simp only [full, image]; split <;> rfl
  | _ => rfl

theorem reachable_start : (start rt ns tid cfg auth).Reachable rt :=
  (Reachable.init FullMesh.inv_start.tables).run _

/-- A run of the transport from `start` is, read through `toFull`, a run of `FullMesh` from its
    `start` under the same condition on the cluster's events. -/
theorem Reaches.mesh (h : T.Reaches rt ok ns tid cfg auth) :
    T.Linked (pairs ns) ∧ T.Inv ∧ Pairing (pairs ns) ∧ FullMesh.Reaches rt ok tid cfg auth (toFull (pairs ns) T) := by
  induction h with
  | start hn => exact ⟨(start_spec hn).1, Inv.of_reachable reachable_start, pairing_pairs hn, toFull_start hn ▸ .start⟩
  | @step T e _ he hok ih =>
    obtain ⟨hl, hi, hP, hm⟩ := ih
    refine ⟨hl.step e he, hi.step e, hP, ?_⟩
    rw [toFull_step hP hl hi e he]
    cases hf : T.full e with
    | none => exact hm
    | some e' => exact hm.step e' fun ce hce => hok ce (by rw [← image_full (P := pairs ns), hf]; exact hce)

theorem Reaches.next (h : T.Reaches rt ok ns tid cfg auth) (e : Event) (he : ∀ i j, e ≠ .addPeer i j)
    {ce : P2Poker.Event} (hce : T.image tid e = some ce) (hok : ok (T.project tid cfg auth) ce) :
    (T.step rt e).Reaches rt ok ns tid cfg auth :=
  .step e h he fun _ h' => Option.some.inj (hce.symm.trans h') ▸ hok

theorem Reaches.quiet (h : T.Reaches rt ok ns tid cfg auth) (e : Event) (he : ∀ i j, e ≠ .addPeer i j)
    (hce : T.image tid e = none) : (T.step rt e).Reaches rt ok ns tid cfg auth :=
  .step e h he fun _ h' => nomatch hce.symm.trans h'

theorem Reaches.run (h : T.Reaches rt ok ns tid cfg auth) (hok : ∀ c ce, ok c ce) {es : List Event}
    (hes : ∀ e ∈ es, ∀ i j, e ≠ .addPeer i j) : (T.run rt es).Reaches rt ok ns tid cfg auth := by
  induction es generalizing T with
  | nil => exact h
  | cons e es ih =>
    exact ih (h.step e (hes e (List.mem_cons_self _ _)) fun ce _ => hok _ ce) fun e' he' => hes e' (List.mem_cons_of_mem _ he')

end Start

/-! ### The cluster model on the nodes over TCP -/

section Refines
variable {rt : Runtime} {ok : Cluster → P2Poker.Event → Prop} {ns : List NodeID} {tid : TableID}
  {cfg : TableConfig} {auth : NodeID} {T : Tcp}

/-- Per-peer FIFO delivery to each table over TCP: in every run from `start`, what a node's replica
    of any table has handled and holds from a peer is a stretch of the peer's messages for the table,
    in order, none twice. -/
theorem table_fifo_per_peer (h : T.Reaches rt ok ns tid cfg auth) {i j : NodeID} (hij : i ≠ j) {id : TableID}
    {l : Local} (hl : (T.node j).tables id = some l) :
    (l.handled ++ l.inbox).filter (·.sender = i) <:+: (T.node i).out.filter (·.table = id) :=
  h.mesh.2.2.2.inv.1.peer hij hl

/-- Node `a` created the table and writes a heartbeat; the transport brings it to `b`, whose
    replica handles it. -/
theorem table_fifo_per_peer_heartbeat :
    let rt : Runtime := ⟨fun _ => ⟨fun _ _ => 0, fun _ _ h => h⟩, fun _ => "#"⟩
    let cfg : TableConfig := ⟨"t", 1000, 5, 10, 0, 0⟩
    let T := (start rt ["a", "b"] "t" cfg "a").run rt [.node "a" (.input "t" .heartbeat), .broadcast "a",
      .read 0 .acceptor, .dispatch "b", .node "b" (.handleNext "t")]
    ∃ lb, (T.node "b").tables "t" = some lb ∧ lb.handled.length = 1 ∧
      (lb.handled ++ lb.inbox).filter (·.sender = "a") <:+: (T.node "a").out.filter (·.table = "t") := by
  intro rt cfg T
  have h : T.Reaches rt (fun _ _ => True) ["a", "b"] "t" cfg "a" :=
    (Reaches.start (by decide)).run (fun _ _ => trivial) (by simp)
  have hb : ((T.node "b").tables "t").map (·.handled.length) = some 1 := by decide
  obtain ⟨lb, hlb, hl⟩ := Option.map_eq_some'.1 hb
  exact ⟨lb, hlb, hl, table_fifo_per_peer h (by decide) hlb⟩

/-- Every event of the nodes on TCP but a new dial is the step of the cluster model of `tid` that
    `image` names, or changes nothing the cluster model sees. -/
theorem project_commutes (h : T.Reaches rt ok ns tid cfg auth) (e : Event) (he : ∀ i j, e ≠ .addPeer i j) :
    (T.step rt e).project tid cfg auth = match T.image tid e with
      | some ce => (T.project tid cfg auth).step rt ce
      | none => T.project tid cfg auth := by
  obtain ⟨hl, hi, hP, hm⟩ := h.mesh
  obtain ⟨hmi, hf, hv⟩ := hm.inv
  show (toFull (pairs ns) (T.step rt e)).project tid cfg auth = _
  rw [toFull_step hP hl hi e he, ← image_full (P := pairs ns)]
  cases T.full e with
  | none => rfl
  | some e' => exact FullMesh.project_step hmi hf hv e'

/-- Node `a` created the table; its replica writes a heartbeat, which is the cluster model's
    heartbeat of `a`. -/
theorem project_commutes_heartbeat :
    let rt : Runtime := ⟨fun _ => ⟨fun _ _ => 0, fun _ _ h => h⟩, fun _ => "#"⟩
    let cfg : TableConfig := ⟨"t", 1000, 5, 10, 0, 0⟩
    let T := start rt ["a", "b"] "t" cfg "a"
    T.Reaches rt (fun _ _ => True) ["a", "b"] "t" cfg "a" ∧
      (T.step rt (.node "a" (.input "t" .heartbeat))).project "t" cfg "a" =
        (T.project "t" cfg "a").step rt (.heartbeat "a") := by
  intro rt cfg T
  have h : T.Reaches rt (fun _ _ => True) ["a", "b"] "t" cfg "a" := .start (by decide)
  exact ⟨h, project_commutes h _ nofun⟩

/-- The refinement over TCP: every run of the nodes from `start` in which nobody dials again, read
    through `project`, is a run of the cluster model of `tid` from `Cluster.init` under the same
    condition on its events. -/
theorem runs_refine_cluster (h : T.Reaches rt ok ns tid cfg auth) :
    Cluster.Reach rt ok (Cluster.init tid cfg auth) (T.project tid cfg auth) :=
  show Cluster.Reach rt ok _ ((toFull (pairs ns) T).project tid cfg auth) from FullMesh.project_reach h.mesh.2.2.2

/-- Node `a` created the table and writes a heartbeat. -/
theorem runs_refine_cluster_heartbeat :
    let rt : Runtime := ⟨fun _ => ⟨fun _ _ => 0, fun _ _ h => h⟩, fun _ => "#"⟩
    let cfg : TableConfig := ⟨"t", 1000, 5, 10, 0, 0⟩
    let T := (start rt ["a", "b"] "t" cfg "a").step rt (.node "a" (.input "t" .heartbeat))
    T.Reaches rt (fun _ _ => True) ["a", "b"] "t" cfg "a" ∧
      Cluster.Reach rt (fun _ _ => True) (Cluster.init "t" cfg "a") (T.project "t" cfg "a") := by
  intro rt cfg T
  have h : T.Reaches rt (fun _ _ => True) ["a", "b"] "t" cfg "a" := .step _ (.start (by decide)) nofun fun _ _ => trivial
  exact ⟨h, runs_refine_cluster h⟩

/-- Over TCP, in every run from `start` without takeovers, `auth`'s replica of `tid` is the one
    authority and no replica's sequence number is ahead of its. -/
theorem no_replica_ahead (h : T.Reaches rt Cluster.NoTakeover ns tid cfg auth) {k : NodeID} {lk la : Local}
    (hlk : (T.node k).tables tid = some lk) (hla : (T.node auth).tables tid = some la) :
    lk.table.authority = decide (k = auth) ∧ lk.table.seq ≤ la.table.seq :=
  FullMesh.replicas_behind_authority h.mesh.2.2.2 hlk hla

/-- Node `a` created the table and commits a JOIN; `b`'s replica is a follower behind it. -/
theorem no_replica_ahead_join :
    let rt : Runtime := ⟨fun _ => ⟨fun _ _ => 0, fun _ _ h => h⟩, fun _ => "#"⟩
    let cfg : TableConfig := ⟨"t", 1000, 5, 10, 0, 0⟩
    let T := (start rt ["a", "b"] "t" cfg "a").step rt (.node "a" (.input "t" (.propose ⟨"j1", .join, "A", 0, none⟩)))
    ∃ lb la, (T.node "b").tables "t" = some lb ∧ (T.node "a").tables "t" = some la ∧ la.table.seq = 1 ∧
      lb.table.authority = false ∧ lb.table.seq ≤ la.table.seq := by
  intro rt cfg T
  have h : T.Reaches rt Cluster.NoTakeover ["a", "b"] "t" cfg "a" := (Reaches.start (by decide)).next _ nofun rfl trivial
  have hb : ((T.node "b").tables "t").isSome := by decide
  have ha : ((T.node "a").tables "t").map (·.table.seq) = some 1 := by decide
  obtain ⟨lb, hlb⟩ := Option.isSome_iff_exists.1 hb
  obtain ⟨la, hla, hs⟩ := Option.map_eq_some'.1 ha
  exact ⟨lb, la, hlb, hla, hs, no_replica_ahead h (k := "b") hlb hla⟩

/-- Over TCP, in such runs no event of a node or of the transport lowers the sequence number of a
    replica of `tid`. -/
theorem seq_never_lowered (h : T.Reaches rt Cluster.NoTakeover ns tid cfg auth) (e : Event)
    (he : ∀ i j, e ≠ .addPeer i j) (hce : ∀ ce, T.image tid e = some ce → (T.project tid cfg auth).NoTakeover ce)
    {k : NodeID} {l l' : Local} (hl : (T.node k).tables tid = some l) (hl' : ((T.step rt e).node k).tables tid = some l') :
    l.table.seq ≤ l'.table.seq := by
  obtain ⟨hlk, hi, hP, hm⟩ := h.mesh
  have hs : ((T.step rt e).node k) = (toFull (pairs ns) (T.step rt e)).node k := rfl
  rw [hs, toFull_step hP hlk hi e he] at hl'
  cases hf : T.full e with
  | none =>
    rw [hf] at hl'
    exact (Option.some.inj (hl.symm.trans hl')) ▸ le_rfl
  | some e' =>
    rw [hf] at hl'
    refine FullMesh.replica_seq_mono hm e' (fun ce hc => hce ce ?_) hl hl'
    rw [← image_full (P := pairs ns), hf]
    exact hc

/-- Node `a` created the table and commits a JOIN: its replica goes from sequence number 0 to 1. -/
theorem seq_never_lowered_join :
    let rt : Runtime := ⟨fun _ => ⟨fun _ _ => 0, fun _ _ h => h⟩, fun _ => "#"⟩
    let cfg : TableConfig := ⟨"t", 1000, 5, 10, 0, 0⟩
    let T := start rt ["a", "b"] "t" cfg "a"
    let e : Event := .node "a" (.input "t" (.propose ⟨"j1", .join, "A", 0, none⟩))
    ∃ l l', (T.node "a").tables "t" = some l ∧ ((T.step rt e).node "a").tables "t" = some l' ∧
      l.table.seq = 0 ∧ l'.table.seq = 1 ∧ l.table.seq ≤ l'.table.seq := by
  intro rt cfg T e
  have h : T.Reaches rt Cluster.NoTakeover ["a", "b"] "t" cfg "a" := .start (by decide)
  have hce : ∀ ce, T.image "t" e = some ce → (T.project "t" cfg "a").NoTakeover ce := fun ce hce => by
    rw [show T.image "t" e = some (.propose "a" ⟨"j1", .join, "A", 0, none⟩) from rfl] at hce
    cases hce
    trivial
  have h₀ : ((T.node "a").tables "t").map (·.table.seq) = some 0 := by decide
  have h₁ : (((T.step rt e).node "a").tables "t").map (·.table.seq) = some 1 := by decide
  obtain ⟨l, hl, hs⟩ := Option.map_eq_some'.1 h₀
  obtain ⟨l', hl', hs'⟩ := Option.map_eq_some'.1 h₁
  exact ⟨l, l', hl, hl', hs, hs', seq_never_lowered h e nofun hce hl hl'⟩

end Refines

/-! ### Dialing a peer again -/

section Redial
variable {rt : Runtime} {T : Tcp}

end Redial

end Tcp

end P2Poker
