import P2Poker.Engine.Actions

/-! The engine as a state machine: one operation per exported method of `State`, and the states
    reachable from `NewState` through them. An operation that returns an error still leaves the state
    it has made, so that state is reachable too. -/

namespace P2Poker

/-- The exported operations of the engine, with their arguments. -/
inductive Op
  | sit (p : PlayerID) (buyin : Int64)
  | leave (p : PlayerID)
  | startHand (r : Rand)
  | bet (p : PlayerID) (amt : Int64)
  | check (p : PlayerID)
  | call (p : PlayerID)
  | raise (p : PlayerID) (add : Int64)
  | fold (p : PlayerID)
  | advancePhase
  | resolveShowdown

namespace State

/-- Run one operation: the state it leaves and the error it returns. -/
def exec (s : State) : Op → State × Option EngineError
  | .sit p buyin => s.sit p buyin
  | .leave p => (s.leave p, none)
  | .startHand r => s.startHand r
  | .bet p amt => s.bet p amt
  | .check p => s.check p
  | .call p => s.call p
  | .raise p add => s.raise p add
  | .fold p => s.fold p
  | .advancePhase => (s.advancePhase, none)
  | .resolveShowdown => (s.resolveShowdown.1, none)

/-- The state after the operations, run in turn. -/
def run (s : State) (ops : List Op) : State := ops.foldl (fun s op => (s.exec op).1) s

/-! ### What each betting action can do

A betting action either fails one of its checks and leaves the state as it was, or passes them all
and makes one of its paths. Every invariant of the betting actions is read off these lemmas. Only
the short all-in path of `Raise` can still fail, after it has paid. -/

section Cases
variable (s : State) (p : PlayerID)

theorem bet_cases (amt : Int64) :
    ((s.bet p amt).2 ≠ none ∧ (s.bet p amt).1 = s) ∨ (s.bet p amt).2 = none ∧ ∃ st, s.actor p = .ok st ∧
      ¬0 < s.currentBet ∧ ¬amt ≤ 0 ∧
      (s.bet p amt).1 = { s.pay p amt with
        currentBet := st.committed + amt, lastRaiseSize := amt
        actorsToAct := ({ s.pay p amt with currentBet := st.committed + amt, lastRaiseSize := amt }).countNeedToAct
        }.advanceTurn := by
  unfold bet
  split
  · exact .inl ⟨nofun, rfl⟩
  · rename_i st hst
    dsimp only
    split_ifs with h₁ _ h₃
    iterate 4 exact .inl ⟨nofun, rfl⟩
    exact .inr ⟨rfl, st, hst, h₁, h₃, rfl⟩

theorem check_cases :
    ((s.check p).2 ≠ none ∧ (s.check p).1 = s) ∨ (s.check p).2 = none ∧ ∃ st, s.actor p = .ok st ∧
      (s.currentBet = 0 ∨ st.committed = s.currentBet) ∧
      (s.check p).1 = { s with actorsToAct := s.actorsToAct - 1 }.advanceTurn := by
  unfold check
  split
  · exact .inl ⟨nofun, rfl⟩
  · rename_i st hst
    split_ifs with h₁ h₂
    · exact .inr ⟨rfl, st, hst, .inl h₁, rfl⟩
    · exact .inl ⟨nofun, rfl⟩
    · exact .inr ⟨rfl, st, hst, .inr (not_not.mp h₂), rfl⟩

theorem fold_cases :
    ((s.fold p).2 ≠ none ∧ (s.fold p).1 = s) ∨ (s.fold p).2 = none ∧ ∃ st, s.actor p = .ok st ∧
      (s.fold p).1 = { s with
        actorsToAct := if 0 < s.currentBet ∧ st.committed < s.currentBet then s.actorsToAct - 1 else s.actorsToAct
        seats := s.seats.modify p fun st => { st with folded := true, inHand := false } }.advanceTurn := by
  unfold fold
  split
  · exact .inl ⟨nofun, rfl⟩
  · rename_i st hst
    refine .inr ⟨rfl, st, hst, ?_⟩
    dsimp only
    split_ifs <;> rfl

theorem call_cases :
    ((s.call p).2 ≠ none ∧ (s.call p).1 = s) ∨ (s.call p).2 = none ∧ ∃ st, s.actor p = .ok st ∧
      s.currentBet ≠ 0 ∧
      ((s.call p).1 = { s.pay p (s.currentBet - st.committed) with actorsToAct := s.actorsToAct - 1 }.advanceTurn ∨
        (s.call p).1 = { s with
          seats := s.seats.modify p fun st' =>
            { st' with stack := 0, allIn := true, committed := st'.committed + st.stack }
          pot := s.pot + st.stack
          actorsToAct := s.actorsToAct - 1 }.advanceTurn) := by
  unfold call
  split
  · exact .inl ⟨nofun, rfl⟩
  · rename_i st hst
    dsimp only
    split_ifs with h₁
    iterate 2 exact .inl ⟨nofun, rfl⟩
    · exact .inr ⟨rfl, st, hst, h₁, .inl rfl⟩
    · exact .inl ⟨nofun, rfl⟩
    · exact .inr ⟨rfl, st, hst, h₁, .inr rfl⟩

theorem raise_cases (add : Int64) :
    ((s.raise p add).2 ≠ none ∧ (s.raise p add).1 = s) ∨ ∃ st, s.actor p = .ok st ∧ s.currentBet ≠ 0 ∧ ¬add ≤ 0 ∧
      (s.raise p add = s.raiseFull p (s.callNeed st) add ∨ s.raise p add = s.raiseShort p st (s.callNeed st)) := by
  unfold raise
  split
  · exact .inl ⟨nofun, rfl⟩
  · rename_i st hst
    dsimp only
    split_ifs with h₁ h₂
    iterate 2 exact .inl ⟨nofun, rfl⟩
    · exact .inr ⟨st, hst, h₁, h₂, .inl rfl⟩
    · exact .inr ⟨st, hst, h₁, h₂, .inr rfl⟩
    · exact .inl ⟨nofun, rfl⟩
    · exact .inr ⟨st, hst, h₁, h₂, .inl rfl⟩

end Cases

end State

/-- The engine states reachable from `NewState(sb, bb)` by the operations. -/
inductive Reachable : State → Prop
  | init (sb bb : Int64) : Reachable (newState sb bb)
  | step {s : State} (op : Op) : Reachable s → Reachable (s.exec op).1

/-- An invariant of every reachable state: it holds of `NewState` and every operation keeps it. -/
theorem Reachable.inv {P : State → Prop} (init : ∀ sb bb, P (newState sb bb))
    (step : ∀ s op, P s → P (s.exec op).1) {s : State} (h : Reachable s) : P s := by
  induction h with
  | init sb bb => exact init sb bb
  | step op _ ih => exact step _ op ih

theorem Reachable.run {s : State} (h : Reachable s) (ops : List Op) : Reachable (s.run ops) := by
  induction ops generalizing s with
  | nil => exact h
  | cons op ops ih => exact ih (h.step op)

end P2Poker
