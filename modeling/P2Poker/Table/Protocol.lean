import P2Poker.Engine.Step

/-! The wire types of the table protocol (`internal/protocol`, `pkg/types`): actions, messages, the
    table configuration and the table snapshot.

    Go's string-typed enums (`ActionType`, `MsgType`) are inductives with the values the code uses.
    The Lamport stamp of a message is left out: the clock orders log lines only, no decision of a
    table reads it. Sequence numbers and epochs are `uint64` counters that only grow by one, so they
    are natural numbers. -/

namespace P2Poker

abbrev NodeID := String
abbrev TableID := String

/-- `ActionType`. -/
inductive ActionType
  | createTable
  | join
  | leave
  | kick
  | startHand
  | bet
  | call
  | raise
  | check
  | fold
  | advance
  | showdown
deriving DecidableEq, Repr

/-- `Action`. Of `Meta` the model keeps the one entry `apply` reads: `target`, when it is a string. -/
structure Action where
  id : String
  type : ActionType
  playerID : String
  amount : Int64
  metaTarget : Option String
deriving DecidableEq

/-- `MsgType`. -/
inductive MsgType
  | propose
  | commit
  | snapshot
  | stateQuery
  | heartbeat
deriving DecidableEq, Repr

/-- `types.TableConfig`; the two durations are `time.Duration` nanosecond counts. -/
structure TableConfig where
  name : String
  minBuyin : Int64
  smallBlind : Int64
  bigBlind : Int64
  authorityTick : Int64
  followerTO : Int64
deriving DecidableEq

/-- `TableSnapshot`. `EngineJSON` is kept decoded: `none` is an empty payload, the one an older peer
    sends. -/
structure TableSnapshot where
  cfg : TableConfig
  seq : Nat
  epoch : Nat
  authority : NodeID
  engine : Option EngineSnapshot
deriving DecidableEq

/-- `NetMessage`, without its Lamport stamp; `sender` is the `From` field. -/
structure NetMessage where
  table : TableID
  sender : NodeID
  type : MsgType
  epoch : Nat
  seq : Nat
  action : Option Action
  state : Option TableSnapshot
deriving DecidableEq

/-- `seedFromActionID(id)`: the 64-bit FNV-1a hash of the id's UTF-8 bytes, read as an `int64`. -/
def seedFromActionID (id : String) : Int64 :=
  id.toUTF8.toList.foldl (fun (h : BitVec 64) b => (h ^^^ BitVec.ofNat 64 b.toNat) * BitVec.ofNat 64 1099511628211)
    (BitVec.ofNat 64 14695981039346656037)

end P2Poker
