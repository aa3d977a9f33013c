import P2Poker.Engine.Turn
import Mathlib.Data.List.Rotate

/-! The turn order of a betting round: the eligible seats of `order` read round the table from the
    seat at the turn (`queue`).

    `advanceTurn` passes over the seats after the turn that are not eligible, so the queue it leaves
    is the one read from the seat after the turn, and when some seat is eligible the turn lands on
    one. The round invariant of `Engine/Round.lean` is stated over this queue. -/

namespace P2Poker

section Rotate
variable {α : Type} {l rest : List α} {t : Nat} {x : α}

theorem rotate_succ_of_eq_cons (h : l.rotate t = x :: rest) : l.rotate (t + 1) = rest ++ [x] := by
  rw [← List.rotate_rotate, h, List.rotate_cons_succ, List.rotate_zero]

theorem rotate_eq_getD_cons (d : α) (h : t < l.length) : ∃ rest, l.rotate t = l.getD t d :: rest := by
  rw [List.rotate_eq_drop_append_take h.le, List.drop_eq_getElem_cons h, List.getD_eq_getElem?_getD,
    List.getElem?_eq_getElem h]
  exact ⟨_, rfl⟩

theorem filter_rotate_skip (f : α → Bool) (d : α) (ht : t < l.length) (hf : f (l.getD t d) = false) :
    (l.rotate (t + 1)).filter f = (l.rotate t).filter f := by
  obtain ⟨rest, h⟩ := rotate_eq_getD_cons d ht
  rw [rotate_succ_of_eq_cons h, h, List.filter_append, List.filter_cons_of_neg (by rw [hf]; decide)]
  simp only [List.filter, hf, List.append_nil]

end Rotate

namespace State

/-- The seat at the turn. -/
def turnSeat (s : State) : PlayerID := s.order.getD s.turnIdx ""

/-- The eligible seats in turn order, from the seat at the turn. -/
def queue (s : State) : List PlayerID := (s.order.rotate s.turnIdx).filter s.eligible

section Advance
variable {s : State}

theorem advanceTurn_eq (s : State) : s.advanceTurn =
    { s with turnIdx := if s.order.length = 0 then s.turnIdx else s.advanceTurnFrom s.order.length s.turnIdx } := by
  unfold advanceTurn
  split <;> rfl

@[simp] theorem advanceTurn_currentBet : s.advanceTurn.currentBet = s.currentBet := by rw [advanceTurn_eq]

@[simp] theorem advanceTurn_actorsToAct : s.advanceTurn.actorsToAct = s.actorsToAct := by rw [advanceTurn_eq]

@[simp] theorem advanceTurn_handActive : s.advanceTurn.handActive = s.handActive := by rw [advanceTurn_eq]

@[simp] theorem advanceTurn_smallBlind : s.advanceTurn.smallBlind = s.smallBlind := by rw [advanceTurn_eq]

@[simp] theorem advanceTurn_bigBlind : s.advanceTurn.bigBlind = s.bigBlind := by rw [advanceTurn_eq]

@[simp] theorem advanceTurn_lastRaiseSize : s.advanceTurn.lastRaiseSize = s.lastRaiseSize := by rw [advanceTurn_eq]

@[simp] theorem advanceTurn_eligible : s.advanceTurn.eligible = s.eligible := by rw [advanceTurn_eq]; rfl

@[simp] theorem advanceTurn_seatOf : s.advanceTurn.seatOf = s.seatOf := by rw [advanceTurn_eq]; rfl

@[simp] theorem advanceTurn_countNeedToAct : s.advanceTurn.countNeedToAct = s.countNeedToAct := by
  rw [advanceTurn_eq]; rfl

theorem filter_rotate_advanceTurnFrom (k : Nat) {i : Nat} (hi : i < s.order.length) :
    (s.order.rotate (s.advanceTurnFrom (k + 1) i)).filter s.eligible =
      (s.order.rotate (i + 1)).filter s.eligible := by
  have hj : (i + 1) % s.order.length < s.order.length := Nat.mod_lt _ (by omega)
  induction k generalizing i with
  | zero =>
    dsimp only [advanceTurnFrom]
    split <;> rw [List.rotate_mod]
  | succ k ih =>
    rw [advanceTurnFrom.eq_2]
    split
    · rw [List.rotate_mod]
    · rename_i hne
      rw [ih hj (Nat.mod_lt _ (by omega)), filter_rotate_skip _ _ hj (by simpa using hne), List.rotate_mod]

theorem advanceTurnFrom_eligible (k : Nat) {i : Nat} (hi : i < s.order.length) :
    s.eligible (s.order.getD (s.advanceTurnFrom (k + 1) i) "") = true ∨
      ∀ q ∈ (s.order.rotate (i + 1)).take (k + 1), s.eligible q = false := by
  have hj : (i + 1) % s.order.length < s.order.length := Nat.mod_lt _ (by omega)
  obtain ⟨rest, hr⟩ := rotate_eq_getD_cons "" hj
  induction k generalizing i rest with
  | zero =>
    dsimp only [advanceTurnFrom]
    split
    · exact .inl ‹_›
    · rename_i hne
      refine .inr fun q hq => ?_
      rw [← List.rotate_mod, hr, List.take_succ_cons, List.take_zero, List.mem_singleton] at hq
      rw [hq]
      simpa using hne
  | succ k ih =>
    rw [advanceTurnFrom.eq_2]
    split
    · exact .inl ‹_›
    · rename_i hne
      have hj' : ((i + 1) % s.order.length + 1) % s.order.length < s.order.length := Nat.mod_lt _ (by omega)
      obtain ⟨rest', hr'⟩ := rotate_eq_getD_cons "" hj'
      refine (ih hj hj' rest' hr').imp_right fun hall q hq => ?_
      rw [← List.rotate_mod, hr, List.take_succ_cons, List.mem_cons] at hq
      rcases hq with rfl | hq
      · simpa using hne
      · refine hall q ?_
        rw [rotate_succ_of_eq_cons hr, List.take_append_eq_append_take]
        exact List.mem_append_left _ hq

theorem queue_advanceTurn (ht : s.turnIdx < s.order.length) :
    s.advanceTurn.queue = (s.order.rotate (s.turnIdx + 1)).filter s.eligible := by
  obtain ⟨k, hk⟩ : ∃ k, s.order.length = k + 1 := ⟨s.order.length - 1, by omega⟩
  rw [queue, advanceTurn_eligible, advanceTurn_eq, if_neg (by omega)]
  dsimp only
  rw [hk, filter_rotate_advanceTurnFrom k (by omega)]

/-- When some seat is eligible, `advanceTurn` puts the turn on an eligible seat. -/
theorem eligible_turnSeat_advanceTurn (ht : s.turnIdx < s.order.length)
    (he : ∃ q ∈ s.order, s.eligible q = true) : s.eligible s.advanceTurn.turnSeat = true := by
  obtain ⟨k, hk⟩ : ∃ k, s.order.length = k + 1 := ⟨s.order.length - 1, by omega⟩
  rw [turnSeat, advanceTurn_eq, if_neg (by omega)]
  dsimp only
  rw [hk]
  refine (advanceTurnFrom_eligible k (by omega)).resolve_right fun hall => ?_
  obtain ⟨q, hq, hqe⟩ := he
  rw [List.take_of_length_le (by rw [List.length_rotate]; omega)] at hall
  exact Bool.noConfusion (hqe.symm.trans (hall q (List.mem_rotate.mpr hq)))

end Advance

end State
end P2Poker
