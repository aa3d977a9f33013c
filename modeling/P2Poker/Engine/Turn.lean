import P2Poker.Engine.Conservation

/-! The turn and the button as indices into `order`.

    Every operation keeps the turn index inside `order` (or at zero when `order` is empty):
    `StartHand` and the street reset take it modulo the number of seats, `advanceTurn` moves it
    modulo the same number, and `Leave` clamps it. `CurrentPlayer` therefore never indexes out of
    range. `Leave` does not clamp the button, and the street reset does not skip folded seats: the
    two runs at the end of the module show a button past the end of `order`, and a turn resting on a
    folded seat that is then allowed to check. -/

namespace P2Poker
namespace State

/-- The turn index points into `order`, or `order` is empty and the index is zero. -/
def TurnInRange (s : State) : Prop := s.turnIdx < s.order.length ∨ (s.order = [] ∧ s.turnIdx = 0)

instance (s : State) : Decidable s.TurnInRange := inferInstanceAs (Decidable (_ ∨ _))

section Steps
variable {s : State} {p : PlayerID}

theorem length_sortOrder (l : List PlayerID) : (sortOrder l).length = l.length :=
  (List.perm_insertionSort _ _).length_eq

theorem advanceTurnFrom_lt (k i : Nat) (hi : i < s.order.length) : s.advanceTurnFrom k i < s.order.length := by
  induction k generalizing i with
  | zero => exact hi
  | succ k ih =>
    have hj : (i + 1) % s.order.length < s.order.length := Nat.mod_lt _ (by omega)
    dsimp only [advanceTurnFrom]
    split
    exacts [hj, ih _ hj]

theorem TurnInRange.of_eq {t : State} (h : s.TurnInRange) (h₁ : t.order = s.order)
    (h₂ : t.turnIdx = s.turnIdx) : t.TurnInRange := by
  unfold TurnInRange
  rw [h₁, h₂]
  exact h

theorem TurnInRange.advanceTurn (h : s.TurnInRange) : s.advanceTurn.TurnInRange := by
  unfold State.advanceTurn
  split
  · exact h
  · rename_i hn
    exact .inl (advanceTurnFrom_lt _ _ (h.resolve_right fun h' => hn (by simp [h'.1])))

theorem turnInRange_sit (h : s.TurnInRange) (buyin : Int64) : (s.sit p buyin).1.TurnInRange := by
  unfold sit
  split
  · exact h
  · left
    show s.turnIdx < (sortOrder (s.order ++ [p])).length
    rw [length_sortOrder, List.length_append, List.length_singleton]
    rcases h with h | ⟨-, h⟩ <;> omega

theorem turnInRange_leave : (s.leave p).TurnInRange := by
  unfold leave TurnInRange
  dsimp only
  split
  · by_cases h0 : (s.order.filter (· ≠ p)).length = 0
    · exact .inr ⟨List.length_eq_zero.mp h0, rfl⟩
    · exact .inl (by omega)
  · exact .inl (by omega)

theorem dealHoles_frame (pids : List PlayerID) :
    (s.dealHoles pids).1.order = s.order ∧ (s.dealHoles pids).1.turnIdx = s.turnIdx := by
  induction pids generalizing s with
  | nil => exact ⟨rfl, rfl⟩
  | cons pid rest ih =>
    dsimp only [dealHoles]
    split
    · split
      exacts [ih, ⟨rfl, rfl⟩]
    · exact ih

theorem turnInRange_startHand (h : s.TurnInRange) (r : Rand) : (s.startHand r).1.TurnInRange := by
  unfold startHand
  split
  · exact h
  · rename_i hn
    have ho : s.resetForHand.postBlinds.order = s.order := by simp [postBlinds, resetForHand]
    obtain ⟨h₁, h₂⟩ := dealHoles_frame (s := { s.resetForHand.postBlinds.openPreflop with
      deck := newDeck r, board := [], holes := .empty }) s.resetForHand.postBlinds.openPreflop.order
    left
    rw [h₁, h₂]
    dsimp only [openPreflop]
    exact Nat.mod_lt _ (by rw [ho]; omega)

theorem turnInRange_advancePhase (h : s.TurnInRange) : s.advancePhase.TurnInRange := by
  have street (k : Nat) (ph : Phase) : (s.nextStreet k ph).TurnInRange := by
    dsimp only [nextStreet, resetCommittedAndSetTurnFromDealer]
    split
    · exact .inr ⟨List.length_eq_zero.mp ‹_›, rfl⟩
    · exact .inl (Nat.mod_lt _ (by omega))
  unfold advancePhase
  split
  iterate 3 exact street _ _
  iterate 2 exact h

theorem remainder_frame (W L : List PlayerID) (acc : State × Int64) :
    (L.foldl (remainderStep W) acc).1.order = acc.1.order ∧
      (L.foldl (remainderStep W) acc).1.turnIdx = acc.1.turnIdx := by
  induction L generalizing acc with
  | nil => exact ⟨rfl, rfl⟩
  | cons pid L ih =>
    rw [List.foldl_cons, (ih _).1, (ih _).2, remainderStep]
    split <;> exact ⟨rfl, rfl⟩

theorem payEach_turnIdx (ws : List ShowdownWinner) (per : Int64) : (s.payEach ws per).turnIdx = s.turnIdx := by
  induction ws generalizing s with
  | nil => rfl
  | cons w ws ih =>
    rw [payEach_cons, ih]
    split <;> rfl

theorem turnInRange_resolveShowdown (h : s.TurnInRange) : s.resolveShowdown.1.TurnInRange := by
  unfold resolveShowdown
  split
  · exact h
  · dsimp only
    refine h.of_eq ?_ ?_ <;> dsimp only <;> split_ifs <;>
      simp only [payRemainder, (remainder_frame _ _ _).1, (remainder_frame _ _ _).2, payEach_order, payEach_turnIdx]

end Steps

end State

/-- `Leave` of the seat at the button leaves the button past the end of `order`, where `Dealer`
    indexes out of range. -/
theorem leave_strands_dealer : ∃ r : Rand,
    let s := (newState 5 10).run [.sit "A" 1000, .sit "B" 1000, .startHand r, .leave "B"]
    Reachable s ∧ s.order = ["A"] ∧ s.dealerIdx = 1 ∧ s.dealer = none :=
  ⟨⟨fun _ _ => 0, fun _ _ h => h⟩, (Reachable.init 5 10).run _, by decide, by decide, by decide⟩

/-- Three seats: the button is `B`, the small blind `C` and the big blind `A`. `B` calls and `C`
    folds, which closes the preflop round; on the flop the turn is set to `C`, the seat after the
    button, although `C` has folded, and `C` may check. -/
theorem street_turn_on_folded_seat : ∃ r : Rand,
    let s := (newState 5 10).run [.sit "A" 1000, .sit "B" 1000, .sit "C" 1000, .startHand r, .call "B",
      .fold "C", .advancePhase]
    Reachable s ∧ s.handActive = true ∧ s.roundClosed = false ∧ s.currentPlayer = some "C" ∧
      s.eligible "C" = false ∧ (s.check "C").2 = none :=
  ⟨⟨fun _ _ => 0, fun _ _ h => h⟩, (Reachable.init 5 10).run _, by decide, by decide, by decide, by decide,
    by decide⟩

/-- `Sit` and `Leave` of a player who is neither at the turn nor on the button. Heads-up `A`, `C`
    after `A` has called: turn and button on `C`; `B` sits, sorts in before `C`, and the turn and the
    button, left at index 1, move to `B`. Three seats with turn and button on `B`: `A` leaves, the
    indices are kept, and both move to `C`. -/
theorem seating_shifts_turn_and_button : ∃ r : Rand,
    let s := (newState 5 10).run [.sit "A" 1000, .sit "C" 1000, .startHand r, .call "A"]
    let t := (newState 5 10).run [.sit "A" 1000, .sit "B" 1000, .sit "C" 1000, .startHand r]
    Reachable s ∧ s.currentPlayer = some "C" ∧ s.dealer = some "C" ∧ (s.sit "B" 1000).2 = none ∧
      (s.sit "B" 1000).1.currentPlayer = some "B" ∧ (s.sit "B" 1000).1.dealer = some "B" ∧
      Reachable t ∧ t.currentPlayer = some "B" ∧ t.dealer = some "B" ∧
      (t.leave "A").currentPlayer = some "C" ∧ (t.leave "A").dealer = some "C" :=
  ⟨⟨fun _ _ => 0, fun _ _ h => h⟩, (Reachable.init 5 10).run _, by decide, by decide, by decide, by decide,
    by decide, (Reachable.init 5 10).run _, by decide, by decide, by decide, by decide⟩

end P2Poker
