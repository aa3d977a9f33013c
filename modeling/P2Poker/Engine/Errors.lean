import P2Poker.Engine.Step

/-! Which failing engine operations leave the state as it was.

    `Sit`, `Bet`, `Check`, `Call` and `Fold` make all their checks before they change anything, so
    when they fail the state is unchanged. Two errors come after a change: `StartHand` runs out of
    cards while it deals the hole cards, after it has reset the seats and posted the blinds, and the
    short all-in path of `Raise` pays the call part before it finds nothing left to shove. -/

namespace P2Poker
namespace State

section Atomic
variable {s : State} {p : PlayerID}

theorem sit_atomic (buyin : Int64) : (s.sit p buyin).2 = none ∨ (s.sit p buyin).1 = s := by
  unfold sit
  split
  exacts [.inr rfl, .inl rfl]

theorem bet_atomic (amt : Int64) : (s.bet p amt).2 = none ∨ (s.bet p amt).1 = s :=
  (bet_cases s p amt).symm.imp And.left And.right

theorem check_atomic : (s.check p).2 = none ∨ (s.check p).1 = s :=
  (check_cases s p).symm.imp And.left And.right

theorem fold_atomic : (s.fold p).2 = none ∨ (s.fold p).1 = s :=
  (fold_cases s p).symm.imp And.left And.right

theorem call_atomic : (s.call p).2 = none ∨ (s.call p).1 = s :=
  (call_cases s p).symm.imp And.left And.right

theorem dealHoles_result (pids : List PlayerID) :
    (s.dealHoles pids).2 = none ∨ (s.dealHoles pids).2 = some .deckUnderflow := by
  induction pids generalizing s with
  | nil => exact .inl rfl
  | cons pid rest ih =>
    dsimp only [dealHoles]
    split
    · split
      exacts [ih, .inr rfl]
    · exact ih

theorem startHand_atomic (r : Rand) :
    (s.startHand r).2 = none ∨ (s.startHand r).1 = s ∨ (s.startHand r).2 = some .deckUnderflow := by
  unfold startHand
  split
  · exact .inr (.inl rfl)
  · exact (dealHoles_result _).elim .inl (.inr ∘ .inr)

theorem raiseFull_ok (need add : Int64) : (s.raiseFull p need add).2 = none := rfl

theorem raiseShort_error (st : Seat) (need : Int64) :
    (s.raiseShort p st need).2 = none ∨ (s.raiseShort p st need).2 = some .errInsufficient := by
  dsimp only [raiseShort]
  split
  exacts [.inr rfl, .inl rfl]

theorem raise_atomic (add : Int64) :
    (s.raise p add).2 = none ∨ (s.raise p add).1 = s ∨ (s.raise p add).2 = some .errInsufficient := by
  rcases raise_cases s p add with ⟨-, h⟩ | ⟨st, -, -, -, h | h⟩ <;> rw [h]
  · exact .inr (.inl rfl)
  · exact .inl (raiseFull_ok _ _)
  · exact (raiseShort_error _ _).elim .inl (.inr ∘ .inr)

end Atomic

/-- A failing operation leaves the state unchanged, unless it is a `StartHand` that ran out of cards
    or a `Raise` that failed for want of chips. -/
theorem exec_error_unchanged (s : State) (op : Op) (e : EngineError) (h : (s.exec op).2 = some e) :
    (s.exec op).1 = s ∨ (∃ r, op = .startHand r ∧ e = .deckUnderflow) ∨
      (∃ p add, op = .raise p add ∧ e = .errInsufficient) := by
  have none_ne : (none : Option EngineError) ≠ some e := nofun
  cases op with
  | sit p buyin => exact .inl ((sit_atomic buyin).resolve_left (h ▸ none_ne ∘ Eq.symm))
  | leave p => cases h
  | startHand r =>
    rcases startHand_atomic (s := s) r with h' | h' | h'
    · exact absurd (h'.symm.trans h) none_ne
    · exact .inl h'
    · exact .inr (.inl ⟨r, rfl, (Option.some.inj (h.symm.trans h'))⟩)
  | bet p amt => exact .inl ((bet_atomic amt).resolve_left (h ▸ none_ne ∘ Eq.symm))
  | check p => exact .inl (check_atomic.resolve_left (h ▸ none_ne ∘ Eq.symm))
  | call p => exact .inl (call_atomic.resolve_left (h ▸ none_ne ∘ Eq.symm))
  | raise p add =>
    rcases raise_atomic (s := s) (p := p) add with h' | h' | h'
    · exact absurd (h'.symm.trans h) none_ne
    · exact .inl h'
    · exact .inr (.inr ⟨p, add, rfl, (Option.some.inj (h.symm.trans h'))⟩)
  | fold p => exact .inl (fold_atomic.resolve_left (h ▸ none_ne ∘ Eq.symm))
  | advancePhase => cases h
  | resolveShowdown => cases h

theorem exec_error_unchanged_check : ((newState 5 10).exec (.check "A")).2 = some .errUnknownPlayer ∧
    (((newState 5 10).exec (.check "A")).1 = newState 5 10 ∨
      (∃ r, Op.check "A" = .startHand r ∧ EngineError.errUnknownPlayer = .deckUnderflow) ∨
      (∃ p add, Op.check "A" = .raise p add ∧ EngineError.errUnknownPlayer = .errInsufficient)) :=
  ⟨rfl, exec_error_unchanged _ _ _ rfl⟩

end State

/-- The short all-in path of `Raise` when the call part empties the stack: the seat pays its last
    three chips into the pot and `Raise` fails with `ErrInsufficient`. -/
theorem raise_short_pays_then_fails : ∃ r : Rand,
    let s := (newState 5 10).run [.sit "A" 8, .sit "B" 1000, .startHand r]
    Reachable s ∧ s.pot = 15 ∧ (s.seatOf "A").stack = 3 ∧
      (s.raise "A" 20).2 = some .errInsufficient ∧
      (s.raise "A" 20).1.pot = 18 ∧ ((s.raise "A" 20).1.seatOf "A").stack = 0 :=
  ⟨⟨fun _ _ => 0, fun _ _ h => h⟩, (Reachable.init 5 10).run _, by decide, by decide, by decide, by decide,
    by decide⟩

end P2Poker
