import P2Poker.Table.Protocol

/-! A table replica (`internal/table`): its state, how it applies a committed action to its engine,
    and how it handles the messages of the protocol.

    Each handler returns the replica it leaves and the messages it writes to `netOut`, in the order
    it writes them. The log lines of `apply` that announce the turn read `Order[TurnIdx]` and
    `Order[DealerIdx]` unchecked; where one is out of range, as after a mid-hand `LEAVE` of the
    player on the button, Go panics and the whole process stops. The model marks the replica
    `panicked`, keeps what it wrote before, and unwinds the calls above it: nothing after the panic
    is logged, recorded or written, and a process that has panicked handles nothing more. The timers of `Run` are not modelled: the cluster decides when a heartbeat is sent
    and when a takeover is tried. `followers`, `lastHeartbeat`, the Lamport clock and the log lines
    are left out, since no decision of the replica reads them.

    `apply` and `commitAndBroadcast` call each other: an action that closes a round commits an
    `ADVANCE_PHASE`, whose `apply` commits a `SHOWDOWN` when the river is over, and a `BET` against a
    live bet is applied again as a `RAISE`. The model unrolls this with a depth: `apply_fuel` shows
    that three levels are as many as the recursion ever takes. -/

namespace P2Poker

/-- What a replica gets from the Go library: `rand.New(rand.NewSource(seed))`, and the ids that
    `RandActionID` draws from the process-wide generator, in draw order. -/
structure Runtime where
  newRand : Int64 → Rand
  randActionID : Nat → String

/-- `Table`. `dedup` holds the ids of the committed actions; `draws` counts the ids this replica has
    drawn with `RandActionID`; `panicked` records that the process has panicked. `epoch` and `seq`
    are Go's `uint64`s: the takeover increments the epoch modulo 2^64; the sequence number is kept
    unbounded, and a run without takeovers of fewer than 2^62 events never takes it to 2^64
    (`seq_below_wrap`). -/
structure Table where
  id : TableID
  self : NodeID
  cfg : TableConfig
  authority : Bool
  epoch : Nat
  seq : Nat
  log : List Action
  dedup : List String
  authorityID : NodeID
  eng : State
  draws : Nat
  panicked : Bool
deriving DecidableEq

namespace Table

/-- `New(id, self, cfg, authority, epoch, ...)`. -/
def new (id : TableID) (self : NodeID) (cfg : TableConfig) (authority : Bool) (epoch : Nat) : Table where
  id := id
  self := self
  cfg := cfg
  authority := authority
  epoch := epoch
  seq := 0
  log := []
  dedup := []
  authorityID := if authority then self else ""
  eng := newState cfg.smallBlind cfg.bigBlind
  draws := 0
  panicked := false

/-- A message from this replica under its current epoch. -/
def envelope (t : Table) (type : MsgType) (seq : Nat) (action : Option Action)
    (state : Option TableSnapshot) : NetMessage :=
  ⟨t.id, t.self, type, t.epoch, seq, action, state⟩

/-! ### Snapshots, heartbeats and takeover -/

/-- `snapshot()`: the configuration, the sequence number, the epoch, the authority and the engine
    snapshot. -/
def snapshot (t : Table) : TableSnapshot := ⟨t.cfg, t.seq, t.epoch, t.authorityID, some t.eng.snapshot⟩

/-- `installSnapshot(ss)`: the snapshot's consensus fields, and its engine state when it has one;
    without one only the blinds follow the new configuration. -/
def installSnapshot (t : Table) (ss : TableSnapshot) : Table :=
  { t with
    cfg := ss.cfg
    seq := ss.seq
    epoch := ss.epoch
    authorityID := ss.authority
    eng := match ss.engine with
      | some es => t.eng.restoreFromSnapshot es
      | none => { t.eng with smallBlind := ss.cfg.smallBlind, bigBlind := ss.cfg.bigBlind } }

/-- `sendSnapshotTo(target)`: an authority broadcasts its snapshot (the target is not used). -/
def sendSnapshotTo (t : Table) (_target : NodeID) : List NetMessage :=
  if t.authority then [t.envelope .snapshot 0 none (some t.snapshot)] else []

/-- `sendHeartbeat()`. -/
def sendHeartbeat (t : Table) : List NetMessage :=
  if t.authority then [t.envelope .heartbeat t.seq none none] else []

/-- `isSmallestNodeID()`. -/
def isSmallestNodeID (t : Table) : Bool := t.authorityID = "" || idLt t.self t.authorityID

/-- `tryAuthorityTakeover()` once its timer has run out; when that happens is left to the cluster.
    `t.epoch++` on a `uint64` wraps from 2^64 - 1 to 0. -/
def tryAuthorityTakeover (t : Table) : Table × List NetMessage :=
  if t.authority then (t, [])
  else if !t.isSmallestNodeID then (t, [])
  else
    let t := { t with authority := true, epoch := (t.epoch + 1) % 2 ^ 64, authorityID := t.self }
    (t, t.sendHeartbeat ++ t.sendSnapshotTo "")

/-! ### Applying an action -/

section Apply
variable (rt : Runtime)

/-- An action the authority makes up (`ADVANCE_PHASE`, `SHOWDOWN`): a fresh id, the type, itself as
    the player. -/
def synth (t : Table) (type : ActionType) : Action := ⟨rt.randActionID t.draws, type, t.self, 0, none⟩

/-- The engine call the `switch` of `apply` makes for an action, with the error it sets. A `JOIN` of
    a seated player and a `BET` against a live bet never get here: `applyWith` returns, or applies the
    action again as a `RAISE`, before the switch. -/
def engineCall (cfg : TableConfig) (eng : State) (a : Action) : State × Option EngineError :=
  match a.type with
  | .createTable => (eng, none)
  | .join => eng.sit a.playerID cfg.minBuyin
  | .leave => (eng.leave a.playerID, none)
  | .kick =>
    match a.metaTarget with
    | some target => (eng.leave target, none)
    | none => (eng, none)
  | .startHand => eng.startHand (rt.newRand (seedFromActionID a.id))
  | .check => eng.check a.playerID
  | .fold => eng.fold a.playerID
  | .call => eng.call a.playerID
  | .raise =>
    match eng.seats.get? a.playerID with
    | none => (eng, some .errUnknownPlayer)
    | some st =>
      if a.amount ≤ eng.currentBet then eng.call a.playerID
      else if a.amount - st.committed ≤ 0 then (eng, none)
      else
        let needCall := if st.committed < eng.currentBet then eng.currentBet - st.committed else 0
        let raiseBy := a.amount - st.committed - needCall
        if raiseBy ≤ 0 then eng.call a.playerID else eng.raise a.playerID raiseBy
  | .bet => eng.bet a.playerID a.amount
  | .advance => (eng.advancePhase, none)
  | .showdown => (eng.resolveShowdown.1, none)

/-- Whether the log line of the turn panics, with `start` the line of a new hand before it:
    `CurrentPlayer()` reads `Order[TurnIdx]`, `dealerOf` reads `Order[DealerIdx]` whenever `Order` is
    non-empty, and `dealerTag` reads it for a non-empty id. -/
def announcePanics (e : State) (start : Bool) : Bool :=
  match e.currentPlayer with
  | none => true
  | some cur => (start || cur != "") && e.dealer.isNone

/-- The announcement `apply` makes once the engine call of an action other than `ADVANCE_PHASE` has
    succeeded: `some start` where it logs the turn, `start` where it logs a new hand first. -/
def announces (a : Action) : Option Bool :=
  match a.type with
  | .leave | .check | .fold => some false
  | .kick => a.metaTarget.map fun _ => false
  | .startHand => some true
  | _ => none

/-- The replica of a process that panics, with what it wrote before. -/
def crash (r : Table × List NetMessage) : Table × List NetMessage := ({ r.1 with panicked := true }, r.2)

/-- A panic where `p` holds. -/
def panicIf (p : Bool) (r : Table × List NetMessage) : Table × List NetMessage := bif p then crash r else r

/-- The end of `apply` after the engine call: nothing more after an error; a panic in the
    announcement; otherwise an authority whose round has closed commits an `ADVANCE_PHASE`, unless
    the action was one. -/
def finish (commit : Table → Action → Table × List NetMessage) (t : Table) (a : Action)
    (err : Option EngineError) : Table × List NetMessage :=
  if err.isSome then (t, [])
  else if (announces a).any (announcePanics t.eng) then crash (t, [])
  else if t.authority && t.eng.handActive && t.eng.roundClosed && a.type ≠ .advance then
    commit { t with draws := t.draws + 1 } (synth rt t .advance)
  else (t, [])

/-- `apply(a)` with `commit` for its nested `commitAndBroadcast` and `recur` for its call of itself.
    After the engine call, an `ADVANCE_PHASE` that reached the showdown makes an authority commit a
    `SHOWDOWN`; either way it then logs the new phase and the turn, and skips the round-closed check.
    Every other action ends in `finish`. -/
def applyWith (commit recur : Table → Action → Table × List NetMessage) (t : Table) (a : Action) :
    Table × List NetMessage :=
  if a.type = .join ∧ a.playerID ∈ t.eng.seats then (t, [])
  else if a.type = .bet ∧ t.eng.currentBet ≠ 0 then recur t { a with type := .raise }
  else
    let r := engineCall rt t.cfg t.eng a
    let t := { t with eng := r.1 }
    if a.type = .advance then
      let r := if t.authority && t.eng.phase = .showdown then
          commit { t with draws := t.draws + 1 } (synth rt t .showdown)
        else (t, [])
      panicIf (announcePanics r.1.eng false) r
    else finish rt commit t a r.2

/-- `commitAndBroadcast(a)` over an `apply`: skip a seen id, else count, apply, log, record the id,
    and write a COMMIT carrying the epoch and the sequence number as they are after the apply. A
    panic in the `apply` ends the call there. -/
def commitWith (apply : Table → Action → Table × List NetMessage) (t : Table) (a : Action) :
    Table × List NetMessage :=
  if a.id ∈ t.dedup then (t, [])
  else
    let r := apply { t with seq := t.seq + 1 } a
    if r.1.panicked then r
    else
      let t := { r.1 with log := r.1.log ++ [a], dedup := r.1.dedup ++ [a.id] }
      (t, r.2 ++ [t.envelope .commit t.seq (some a) none])

/-- `apply`, its nested commits unrolled `n` levels deep. -/
def apply : Nat → Table → Action → Table × List NetMessage
  | 0 => applyWith rt (fun t _ => (t, [])) (fun t _ => (t, []))
  | n + 1 => applyWith rt (commitWith (apply n)) (apply n)

/-- `commitAndBroadcast(a)`. -/
def commitAndBroadcast (t : Table) (a : Action) : Table × List NetMessage := commitWith (apply rt 3) t a

/-- `applyCommit(a, seq)`: a follower applies the next commit; a gap asks for a snapshot. -/
def applyCommit (t : Table) (a : Action) (seq : Nat) : Table × List NetMessage :=
  if a.id ∈ t.dedup then (t, [])
  else if seq ≠ t.seq + 1 then (t, [t.envelope .stateQuery 0 none none])
  else
    let r := apply rt 3 { t with seq := seq } a
    if r.1.panicked then r else ({ r.1 with log := r.1.log ++ [a], dedup := r.1.dedup ++ [a.id] }, r.2)

/-- `ProposeLocal(a)`. -/
def proposeLocal (t : Table) (a : Action) : Table × List NetMessage :=
  if t.authority then commitAndBroadcast rt t a else (t, [t.envelope .propose 0 (some a) none])

/-- `onNet(msg)`. -/
def onNet (t : Table) (msg : NetMessage) : Table × List NetMessage :=
  match msg.type with
  | .propose =>
    match msg.action with
    | some a =>
      if !t.authority then (t, [])
      else if a.type = .kick ∧ msg.sender ≠ t.authorityID then (t, [])
      else commitAndBroadcast rt t a
    | none => (t, [])
  | .commit =>
    match msg.action with
    | some a =>
      if msg.epoch < t.epoch then (t, [])
      else if a.type = .kick ∧ msg.sender ≠ t.authorityID then (t, [])
      else
        let r := applyCommit rt t a msg.seq
        if r.1.panicked then r
        else
          (if r.1.epoch < msg.epoch ∨ r.1.authorityID = "" then
            { r.1 with epoch := msg.epoch, authorityID := msg.sender } else r.1, r.2)
    | none => (t, [])
  | .snapshot =>
    match msg.state with
    | some ss => if msg.epoch < t.epoch then (t, []) else (t.installSnapshot ss, [])
    | none => (t, [])
  | .heartbeat =>
    if msg.epoch < t.epoch then (t, []) else ({ t with epoch := msg.epoch, authorityID := msg.sender }, [])
  | .stateQuery => (t, t.sendSnapshotTo msg.sender)

end Apply

/-- Whether `apply` panics when none of its nested commits goes through: a seated `JOIN`, and a
    `BET` against a live bet applied as a `RAISE`, announce nothing; any other action announces once
    its engine call has succeeded. -/
def applyPanics (rt : Runtime) (cfg : TableConfig) (eng : State) (a : Action) : Bool :=
  if a.type = .join ∧ a.playerID ∈ eng.seats then false
  else if a.type = .bet ∧ eng.currentBet ≠ 0 then false
  else
    let r := engineCall rt cfg eng a
    if a.type = .advance then announcePanics r.1 false
    else if r.2.isSome then false
    else (announces a).any (announcePanics r.1)

/-! ### The depth of the nested commits -/

section Depth

variable {rt : Runtime} {t : Table} {a : Action} {c₁ c₂ r₁ r₂ : Table → Action → Table × List NetMessage}

@[simp] theorem panicIf_false (r : Table × List NetMessage) : panicIf false r = r := rfl

@[simp] theorem panicIf_snd (p : Bool) (r : Table × List NetMessage) : (panicIf p r).2 = r.2 := by
  cases p <;> rfl

@[simp] theorem panicIf_fst (p : Bool) (r : Table × List NetMessage) :
    (panicIf p r).1 = { r.1 with panicked := p || r.1.panicked } := by
  cases p <;> rfl

/-- How an `apply` ends: a seated `JOIN` returns at once, a `BET` against a live bet is applied
    again as a `RAISE`, and any other action makes its engine call and then either stops, with the
    panic `applyPanics` tells, or, at an authority, commits the `ADVANCE_PHASE` it makes up under
    the next draw, or the `SHOWDOWN` after which the phase line may still panic. -/
theorem applyWith_cases (c r : Table → Action → Table × List NetMessage) :
    (a.type = .join ∧ a.playerID ∈ t.eng.seats ∧ applyWith rt c r t a = (t, [])) ∨
    (a.type = .bet ∧ t.eng.currentBet ≠ 0 ∧ applyWith rt c r t a = r t { a with type := .raise }) ∨
    (¬(a.type = .join ∧ a.playerID ∈ t.eng.seats) ∧ ¬(a.type = .bet ∧ t.eng.currentBet ≠ 0) ∧
      (applyWith rt c r t a = panicIf (applyPanics rt t.cfg t.eng a) ({ t with eng := (engineCall rt t.cfg t.eng a).1 }, []) ∨
        t.authority = true ∧ applyPanics rt t.cfg t.eng a = false ∧
          applyWith rt c r t a = c { t with eng := (engineCall rt t.cfg t.eng a).1, draws := t.draws + 1 }
            (synth rt { t with eng := (engineCall rt t.cfg t.eng a).1 } .advance) ∨
        t.authority = true ∧ a.type = .advance ∧
          applyWith rt c r t a = panicIf
            (announcePanics (c { t with eng := (engineCall rt t.cfg t.eng a).1, draws := t.draws + 1 }
              (synth rt { t with eng := (engineCall rt t.cfg t.eng a).1 } .showdown)).1.eng false)
            (c { t with eng := (engineCall rt t.cfg t.eng a).1, draws := t.draws + 1 }
              (synth rt { t with eng := (engineCall rt t.cfg t.eng a).1 } .showdown)))) := by
  unfold applyWith finish applyPanics
  dsimp only
  split_ifs with hj hb ha hs he hp hc
  · exact .inl ⟨hj.1, hj.2, rfl⟩
  · exact .inr (.inl ⟨hb.1, hb.2, rfl⟩)
  · exact .inr (.inr ⟨hj, hb, .inr (.inr ⟨((Bool.and_eq_true _ _).mp hs).1, ha, rfl⟩)⟩)
  · exact .inr (.inr ⟨hj, hb, .inl rfl⟩)
  · exact .inr (.inr ⟨hj, hb, .inl rfl⟩)
  · exact .inr (.inr ⟨hj, hb, .inl (by rw [hp]; rfl)⟩)
  all_goals rw [Bool.not_eq_true _ |>.mp hp]
  · simp only [Bool.and_eq_true] at hc
    exact .inr (.inr ⟨hj, hb, .inr (.inl ⟨hc.1.1.1, rfl, rfl⟩)⟩)
  · exact .inr (.inr ⟨hj, hb, .inl rfl⟩)

theorem commitWith_congr {f g : Table → Action → Table × List NetMessage} (h : ∀ t', f t' a = g t' a) :
    commitWith f t a = commitWith g t a := by
  simp only [commitWith, h]

theorem finish_congr (hc : ∀ t b, b.type = .advance → c₁ t b = c₂ t b) (err : Option EngineError) :
    finish rt c₁ t a err = finish rt c₂ t a err := by
  unfold finish
  split_ifs
  exacts [rfl, rfl, hc _ _ rfl, rfl]

theorem applyWith_congr (ha : a.type ≠ .advance) (hc : ∀ t b, b.type = .advance → c₁ t b = c₂ t b)
    (hr : a.type = .bet → r₁ t { a with type := .raise } = r₂ t { a with type := .raise }) :
    applyWith rt c₁ r₁ t a = applyWith rt c₂ r₂ t a := by
  simp only [applyWith, ha, if_false]
  split_ifs with h₁ h₂
  exacts [rfl, hr h₂.1, finish_congr hc _]

theorem applyWith_advance_congr (ha : a.type = .advance) (hc : ∀ t b, b.type = .showdown → c₁ t b = c₂ t b) :
    applyWith rt c₁ r₁ t a = applyWith rt c₂ r₂ t a := by
  simp only [applyWith, ha, reduceCtorEq, false_and, if_false, if_true]
  split_ifs
  exacts [by rw [hc _ _ rfl], rfl]

theorem apply_showdown (ha : a.type = .showdown) (n : Nat) : apply rt n t a = apply rt 0 t a := by
  have h (c r : Table → Action → Table × List NetMessage) :
      applyWith rt c r t a = ({ t with eng := t.eng.resolveShowdown.1 }, []) := by
    simp [applyWith, ha, engineCall, finish, announces]
  cases n <;> simp only [apply, h]

theorem apply_advance (ha : a.type = .advance) (n : Nat) : apply rt (n + 1) t a = apply rt 1 t a :=
  applyWith_advance_congr ha fun _ _ hb => commitWith_congr fun _ => apply_showdown hb n

theorem apply_plain (ha : a.type ≠ .advance) (hb : a.type ≠ .bet) (n : Nat) :
    apply rt (n + 2) t a = apply rt 2 t a :=
  applyWith_congr ha (fun _ _ hb' => commitWith_congr fun _ => apply_advance hb' n) (absurd · hb)

/-- Three levels of nested commits are all `apply` ever takes: a `BET` applied again as a `RAISE`,
    the `ADVANCE_PHASE` that closes its round, and the `SHOWDOWN` that ends the river. -/
theorem apply_fuel (n : Nat) (t : Table) (a : Action) : apply rt (n + 3) t a = apply rt 3 t a := by
  by_cases ha : a.type = .advance
  · exact (apply_advance ha (n + 2)).trans (apply_advance ha 2).symm
  · exact applyWith_congr ha
      (fun _ _ hb => commitWith_congr fun _ => (apply_advance hb (n + 1)).trans (apply_advance hb 1).symm)
      (fun _ => apply_plain (by simp) (by simp) n)

theorem applyWith_seq_le {k : Nat} (hc : ∀ t' b, (c₁ t' b).1.seq ≤ t'.seq + k)
    (hr : ∀ t' b, (r₁ t' b).1.seq ≤ t'.seq + k) : (applyWith rt c₁ r₁ t a).1.seq ≤ t.seq + k := by
  rcases @applyWith_cases rt t a c₁ r₁ with
    ⟨-, -, h⟩ | ⟨-, -, h⟩ | ⟨-, -, h | ⟨-, -, h⟩ | ⟨-, -, h⟩⟩ <;> rw [h]
  · exact Nat.le_add_right _ _
  · exact hr _ _
  · simp
  · exact hc _ _
  · simpa using hc _ _

theorem commitWith_seq_le {f : Table → Action → Table × List NetMessage} {k : Nat}
    (hf : ∀ t' b, (f t' b).1.seq ≤ t'.seq + k) : (commitWith f t a).1.seq ≤ t.seq + (k + 1) := by
  have h := hf { t with seq := t.seq + 1 } a
  unfold commitWith
  dsimp only
  split_ifs <;> simp only at h ⊢ <;> omega

/-- Each level of `apply` commits at most one action, so the sequence number grows by at most the
    depth. -/
theorem apply_seq_le : ∀ (n : Nat) (t : Table) (a : Action), (apply rt n t a).1.seq ≤ t.seq + n
  | 0, _, _ => applyWith_seq_le (fun _ _ => le_rfl) fun _ _ => le_rfl
  | n + 1, _, _ => applyWith_seq_le (fun _ _ => commitWith_seq_le (apply_seq_le n))
      fun t' b => (apply_seq_le n t' b).trans (Nat.le_succ _)

theorem commitAndBroadcast_seq_le (t : Table) (a : Action) : (t.commitAndBroadcast rt a).1.seq ≤ t.seq + 4 :=
  commitWith_seq_le (apply_seq_le 3)

end Depth

end Table

end P2Poker
