import P2Poker.Engine.Step

/-! Engine snapshots (`Snapshot`, `RestoreFromSnapshot`): what a restored engine takes from the
    snapshot and what it keeps of its own.

    A snapshot carries the blinds, the button, the order, the turn, the phase, the pot, the board and
    the seats. The deck, the hole cards and the round state (`CurrentBet`, `ActorsToAct`,
    `LastRaiseSize`, `HandActive`) are not in it, so the restored engine keeps its own values of
    them, whatever the snapshotted engine had. -/

namespace P2Poker
namespace State

/-- Restoring an engine from its own snapshot changes nothing. -/
theorem restoreFromSnapshot_self (e : State) : e.restoreFromSnapshot e.snapshot = e := rfl

end State

/-- A fresh engine restored from the snapshot of a hand in progress has no hand and no bet: the
    snapshotted engine has the hand active with the big blind to call. -/
theorem restore_loses_round_state : ∃ r : Rand,
    let e := (newState 5 10).run [.sit "A" 1000, .sit "B" 1000, .startHand r]
    Reachable e ∧ e.handActive = true ∧ e.currentBet = 10 ∧
      ((newState 5 10).restoreFromSnapshot e.snapshot).handActive = false ∧
      ((newState 5 10).restoreFromSnapshot e.snapshot).currentBet = 0 :=
  ⟨⟨fun _ _ => 0, fun _ _ h => h⟩, (Reachable.init 5 10).run _, by decide, by decide, rfl, rfl⟩

end P2Poker
