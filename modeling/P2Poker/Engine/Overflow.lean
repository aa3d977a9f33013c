import P2Poker.Engine.Step

/-! Int64 arithmetic of the betting actions. `Raise` adds the call part and the raise in an int64,
    `total := need + add`, and compares the stack with that sum before it pays. An `add` near `2^63`
    makes the sum wrap to a negative number, the comparison passes, and the full-raise path pays `add`:
    the stack, the committed amount, the pot and the new bet all wrap (`raise_total_wraps`). -/

namespace P2Poker

namespace Int64

/-- The word sum of `a` and `b` is not their sum as integers: Go's `a + b` wraps. -/
def AddWraps (a b : Int64) : Prop := (a + b).toInt ≠ a.toInt + b.toInt

instance (a b : Int64) : Decidable (AddWraps a b) := inferInstanceAs (Decidable (¬_ = _))

end Int64

namespace State

/-- The chip counts a betting action starts from: every stack and every committed amount, the pot and
    the bet nonnegative, and the stacks and the pot together within the int64 range. -/
def ChipsInRange (s : State) : Prop :=
  (∀ e ∈ s.seats.entries, 0 ≤ e.2.stack ∧ 0 ≤ e.2.committed) ∧ 0 ≤ s.pot ∧ 0 ≤ s.currentBet ∧
    (s.seats.entries.map fun e => e.2.stack.toInt).sum + s.pot.toInt ≤ 2 ^ 63 - 1

instance (s : State) : Decidable s.ChipsInRange := inferInstanceAs (Decidable (_ ∧ _ ∧ _ ∧ _))

end State

/-- Heads-up after the blinds, `A` (small blind, 995 behind, 5 committed) raises by `2^63 - 1`: the
    call part 5 and the raise wrap to a negative total, which the stack covers, and the full raise
    leaves `A`'s stack, `A`'s committed amount, the pot and the bet negative. -/
theorem raise_total_wraps : ∃ r : Rand,
    let s := (newState 5 10).run [.sit "A" 1000, .sit "B" 1000, .startHand r]
    let t := s.raise "A" 9223372036854775807
    Reachable s ∧ s.ChipsInRange ∧ Int64.AddWraps 5 9223372036854775807 ∧ t.2 = none ∧
      (t.1.seatOf "A").stack < 0 ∧ (t.1.seatOf "A").committed < 0 ∧ t.1.pot < 0 ∧ t.1.currentBet < 0 :=
  ⟨⟨fun _ _ => 0, fun _ _ h => h⟩, (Reachable.init 5 10).run _, by decide, by decide, by decide, by decide,
    by decide, by decide, by decide⟩

end P2Poker
