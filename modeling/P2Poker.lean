import P2Poker.Engine.Types
import P2Poker.Engine.Eval
import P2Poker.Engine.Actions
import P2Poker.Engine.Step
import P2Poker.Engine.Conservation
import P2Poker.Engine.Showdown
import P2Poker.Engine.Snapshot
import P2Poker.Engine.Errors
import P2Poker.Engine.Turn
import P2Poker.Engine.Queue
import P2Poker.Engine.Round
import P2Poker.Engine.Betting
import P2Poker.Engine.Orderly
import P2Poker.Engine.Overflow
import P2Poker.Engine.SeatOrder
import P2Poker.Engine.Deck
import P2Poker.Engine.CardJson
import P2Poker.Engine.BestHand
import P2Poker.Table.Protocol
import P2Poker.Table.Replica
import P2Poker.Table.CommitStream
import P2Poker.Table.Handlers
import P2Poker.Table.RaiseTo
import P2Poker.Table.LastFold
import P2Poker.Table.Runs
import P2Poker.Cluster.Network
import P2Poker.Cluster.Authority
import P2Poker.Cluster.Sequence
import P2Poker.Cluster.Agreement
import P2Poker.Cluster.Lamport
import P2Poker.Cluster.Node
import P2Poker.Cluster.Mesh
import P2Poker.Cluster.Refinement
import P2Poker.Cluster.Tcp
import P2Poker.Net.Frame
