import P2Poker.Table.Replica
import P2Poker.Engine.Orderly

/-! RAISE amounts at the table. A RAISE carries the amount the player raises to; `apply` hands the
    engine's `Raise` the increment `X − Committed − need`, which is `X` less the bet (`raiseBy_eq`),
    and a BET against a live bet is applied again as a RAISE. When `Raise` takes its full-raise
    path the bet ends at `X` (`apply_raise_to`). At an authority that raise can close the betting
    round, when no other seat that can act is left behind `X`: `apply` then commits an
    `ADVANCE_PHASE`, which opens the next street with the bet back at zero
    (`raise_to_closes_round`). -/

namespace P2Poker

namespace Int64

theorem sub_pos_of_le {a b c : Int64} (hab : a < b) (hbc : b ≤ c) (hc : 0 < c - a) : 0 < b - a := by
  rw [lt_iff_toInt] at hab hc ⊢
  rw [le_iff_toInt] at hbc
  rw [toInt_zero] at hc ⊢
  have e₁ : (c - a).toInt = (c.toInt - a.toInt).bmod (2 ^ 64) := BitVec.toInt_sub
  have e₂ : (b - a).toInt = (b.toInt - a.toInt).bmod (2 ^ 64) := BitVec.toInt_sub
  have := toInt_range a
  have := toInt_range b
  have := toInt_range c
  rw [Int.bmod_def, Int.emod_eq_of_lt (by omega) (by omega)] at e₁ e₂
  split_ifs at e₁ e₂ <;> omega

theorem not_le_of_lt {a b : Int64} (h : a < b) : ¬b ≤ a := by
  rw [le_iff_toInt]
  exact Int.not_le.mpr (lt_iff_toInt.mp h)

end Int64

theorem two_le_countP {α : Type} [DecidableEq α] {l : List α} {f : α → Bool} {a b : α} (ha : a ∈ l)
    (hb : b ∈ l) (hba : b ≠ a) (hfa : f a = true) (hfb : f b = true) : 2 ≤ l.countP f := by
  rw [List.countP_eq_length_filter]
  have ha' : a ∈ l.filter f := List.mem_filter.mpr ⟨ha, hfa⟩
  have hb' : b ∈ (l.filter f).erase a := (List.mem_erase_of_ne hba).mpr (List.mem_filter.mpr ⟨hb, hfb⟩)
  have := List.length_erase_of_mem ha'
  have := List.length_pos_of_mem hb'
  omega

namespace State

theorem mem_of_currentPlayer {s : State} {p q : PlayerID} (hp : s.currentPlayer = some p) (hq : q ∈ s.order) :
    p ∈ s.order := by
  unfold currentPlayer at hp
  rw [if_neg (List.length_pos_of_mem hq).ne'] at hp
  exact List.getElem?_mem hp

theorem roundClosed_recount {s₂ : State} {p q : PlayerID} (hb : s₂.currentBet ≠ 0) (hp : p ∈ s₂.order)
    (hq : q ∈ s₂.order) (hqp : q ≠ p) (hpe : s₂.eligible p = true) (hqe : s₂.eligible q = true)
    (hqb : (s₂.seatOf q).committed < s₂.currentBet) :
    ({ s₂ with actorsToAct := s₂.countNeedToAct }.advanceTurn).roundClosed = false := by
  refine Bool.eq_false_iff.mpr fun h => ?_
  obtain ⟨-, h⟩ := roundClosed_iff.mp h
  simp only [advanceTurn_actorsToAct, advanceTurn_order, advanceTurn_eligible] at h
  have h₁ : 0 < s₂.owingCount := List.countP_pos_iff.mpr ⟨q, hq, by simp [owes, behind, hqe, hqb]⟩
  have h₂ : 2 ≤ s₂.order.countP s₂.eligible := two_le_countP hp hq hqp hpe hqe
  change s₂.countNeedToAct ≤ 0 ∨ s₂.order.countP s₂.eligible ≤ 1 at h
  rw [countNeedToAct_eq hb] at h
  omega

section RaiseTo
variable {s : State} {p : PlayerID} {st : Seat} {x : Int64}

theorem paid_callNeed (hle : st.committed ≤ s.currentBet) (hX : s.currentBet < x) (hc : 0 < x - st.committed) :
    (if 0 < s.callNeed st then s.callNeed st else 0) = s.currentBet - st.committed := by
  unfold callNeed
  by_cases h : st.committed < s.currentBet
  · rw [if_pos h, if_pos (Int64.sub_pos_of_le h (Int64.le_of_lt hX) hc)]
  · rw [if_neg h, Int64.eq_of_le_of_not_lt hle h, sub_self, if_neg (Int64.lt_irrefl 0)]

theorem raiseBy_eq (hle : st.committed ≤ s.currentBet) (x : Int64) :
    x - st.committed - s.callNeed st = x - s.currentBet := by
  unfold callNeed
  split_ifs with h
  · exact sub_sub_sub_cancel_right x s.currentBet st.committed
  · rw [Int64.eq_of_le_of_not_lt hle h, sub_zero]

theorem raise_to (hg : s.seats.get? p = some st) (hle : st.committed ≤ s.currentBet) (hX : s.currentBet < x)
    (hp : s.currentPlayer = some p) (hc₀ : 0 < s.currentBet)
    (hfull : s.lastRaiseSize ≤ x - s.currentBet ∧ x - st.committed ≤ st.stack) :
    s.raise p (x - s.currentBet) = s.raiseFull p (s.callNeed st) (x - s.currentBet) := by
  have hact : s.actor p = .ok st := by simp [actor, hg, hp]
  have hsum : s.callNeed st + (x - s.currentBet) = x - st.committed := by
    rw [← raiseBy_eq hle, add_sub_cancel]
  have hb : s.currentBet ≠ 0 := fun h => Int64.lt_irrefl 0 (h ▸ hc₀)
  simp only [raise, hact, if_neg hb, if_neg (Int64.not_le_of_lt (Int64.sub_pos (Int64.le_of_lt hc₀) hX)), hsum,
    if_pos hfull]

section Full
variable (hg : s.seats.get? p = some st) (hle : st.committed ≤ s.currentBet) (hX : s.currentBet < x)
  (hc : 0 < x - st.committed)
include hg hle hX hc

theorem seatOf_raiseTo :
    ((s.payIf p (s.callNeed st)).pay p (x - s.currentBet)).seatOf p =
      { st with stack := st.stack - (x - st.committed), committed := x } := by
  rw [seatOf_payIf_pay hg, paid_callNeed hle hX hc, sub_sub, sub_add_sub_cancel', add_sub_cancel, add_sub_cancel]

theorem raiseFull_to :
    let r := (s.raiseFull p (s.callNeed st) (x - s.currentBet)).1
    r.currentBet = x ∧ r.seatOf p = { st with stack := st.stack - (x - st.committed), committed := x } ∧
      r.lastRaiseSize = x - s.currentBet ∧ r.pot = s.pot + (x - st.committed) := by
  have hs := seatOf_raiseTo hg hle hX hc
  have hpot := pot_payIf_pay (s := s) (p := p) (s.callNeed st) (x - s.currentBet)
  simp only [raiseFull, advanceTurn_currentBet, advanceTurn_seatOf, advanceTurn_lastRaiseSize, advanceTurn_pot]
  generalize (s.payIf p (s.callNeed st)).pay p (x - s.currentBet) = s₁ at hs hpot ⊢
  refine ⟨by rw [hs], hs, trivial, ?_⟩
  rw [hpot, paid_callNeed hle hX hc, add_assoc, sub_add_sub_cancel']

theorem raiseFull_to_open (hc₀ : 0 < s.currentBet) (hpe : s.eligible p = true) (hp : s.currentPlayer = some p)
    (hopen : s.handActive = true →
      ∃ q ∈ s.order, q ≠ p ∧ s.eligible q = true ∧ (s.seatOf q).committed < x) :
    (s.raiseFull p (s.callNeed st) (x - s.currentBet)).1.roundClosed = false := by
  have hs := seatOf_raiseTo hg hle hX hc
  have hu := (seatUpdate_payIf (s := s) (p := p) (s.callNeed st)).trans (seatUpdate_pay (x - s.currentBet))
  have hel := eligible_payIf_pay (s := s) (p := p) (s.callNeed st) (x - s.currentBet)
  simp only [raiseFull]
  generalize (s.payIf p (s.callNeed st)).pay p (x - s.currentBet) = s₁ at hs hu hel ⊢
  cases hact : s.handActive
  case false => simp [roundClosed, hu.handActive, hact]
  case true =>
    obtain ⟨q, hq, hqp, hqe, hqx⟩ := hopen hact
    rw [hs]
    have hx₀ : x ≠ 0 := fun h => Int64.not_lt_of_le (Int64.le_of_lt hc₀) (h ▸ hX)
    refine @roundClosed_recount { s₁ with currentBet := x, lastRaiseSize := x - s.currentBet } p q hx₀
      (hu.order ▸ mem_of_currentPlayer hp hq) (hu.order ▸ hq) hqp (hel ▸ hpe) (hel ▸ hqe) ?_
    show (s₁.seatOf q).committed < x
    rw [seatOf_congr (hu.others q hqp)]
    exact hqx

end Full

end RaiseTo

end State

namespace Table

section RaiseTo
variable {rt : Runtime} {t : Table} {a : Action} {c r : Table → Action → Table × List NetMessage}

theorem engineCall_raise_to {cfg : TableConfig} {eng : State} {st : Seat} (ha : a.type = .raise)
    (hg : eng.seats.get? a.playerID = some st) (hc₀ : 0 < eng.currentBet) (hle : st.committed ≤ eng.currentBet)
    (hX : eng.currentBet < a.amount) (hc : 0 < a.amount - st.committed) :
    engineCall rt cfg eng a = eng.raise a.playerID (a.amount - eng.currentBet) := by
  have e : a.amount - st.committed - (if st.committed < eng.currentBet then eng.currentBet - st.committed else 0) =
      a.amount - eng.currentBet := State.raiseBy_eq hle _
  simp only [engineCall, ha, hg, if_neg (Int64.not_le_of_lt hX), if_neg (Int64.not_le_of_lt hc), e,
    if_neg (Int64.not_le_of_lt (Int64.sub_pos (Int64.le_of_lt hc₀) hX))]

theorem applyWith_raise_of_open (ha : a.type = .raise) (he : (engineCall rt t.cfg t.eng a).2 = none)
    (hopen : t.authority = true → (engineCall rt t.cfg t.eng a).1.roundClosed = false) :
    applyWith rt c r t a = ({ t with eng := (engineCall rt t.cfg t.eng a).1 }, []) := by
  cases hau : t.authority
  · simp [applyWith, ha, finish, he, hau, announces]
  · simp [applyWith, ha, finish, he, hau, hopen hau, announces]

section Hyps
variable {st : Seat} (hc : 0 < t.eng.currentBet) (hp : t.eng.currentPlayer = some a.playerID)
  (he : t.eng.eligible a.playerID = true) (hg : t.eng.seats.get? a.playerID = some st)
  (hle : st.committed ≤ t.eng.currentBet) (hX : t.eng.currentBet < a.amount) (hcall : 0 < a.amount - st.committed)
  (hfull : t.eng.lastRaiseSize ≤ a.amount - t.eng.currentBet ∧ a.amount - st.committed ≤ st.stack)
  (hopen : t.authority = true → t.eng.handActive = true →
    ∃ q ∈ t.eng.order, q ≠ a.playerID ∧ t.eng.eligible q = true ∧ (t.eng.seatOf q).committed < a.amount)
include hc hp he hg hle hX hcall hfull hopen

theorem applyWith_raise_to (ha : a.type = .raise) :
    (applyWith rt c r t a).1.eng =
      (t.eng.raiseFull a.playerID (t.eng.callNeed st) (a.amount - t.eng.currentBet)).1 := by
  have hcall' : engineCall rt t.cfg t.eng a =
      t.eng.raiseFull a.playerID (t.eng.callNeed st) (a.amount - t.eng.currentBet) := by
    rw [engineCall_raise_to ha hg hc hle hX hcall, State.raise_to hg hle hX hp hc hfull]
  rw [applyWith_raise_of_open ha (by rw [hcall']; rfl)
    (fun hau => by rw [hcall']; exact State.raiseFull_to_open hg hle hX hcall hc he hp (hopen hau)), hcall']

/-- A RAISE of the player at the turn to an amount `X` above the bet `c`, or a BET of `X` against
    it, leaves the bet at `X`, the player with `X` in and its stack down by what it took to get
    there, the pot up by as much, and the last raise at `X − c`, when `Raise` takes its full-raise
    path, and the round stays open at an authority. -/
theorem apply_raise_to (hty : a.type = .raise ∨ a.type = .bet) :
    let e := (apply rt 3 t a).1.eng
    e.currentBet = a.amount ∧
      e.seatOf a.playerID = { st with stack := st.stack - (a.amount - st.committed), committed := a.amount } ∧
      e.lastRaiseSize = a.amount - t.eng.currentBet ∧ e.pot = t.eng.pot + (a.amount - st.committed) := by
  have heng : (apply rt 3 t a).1.eng =
      (t.eng.raiseFull a.playerID (t.eng.callNeed st) (a.amount - t.eng.currentBet)).1 := by
    rcases hty with hty | hty
    · exact applyWith_raise_to hc hp he hg hle hX hcall hfull hopen hty
    · have hb : t.eng.currentBet ≠ 0 := fun h => Int64.lt_irrefl 0 (h ▸ hc)
      have hre : apply rt 3 t a = apply rt 2 t { a with type := .raise } := by simp [apply, applyWith, hty, hb]
      rw [hre]
      exact applyWith_raise_to (a := { a with type := .raise }) hc hp he hg hle hX hcall hfull hopen rfl
  dsimp only
  rw [heng]
  exact State.raiseFull_to hg hle hX hcall

end Hyps

/-- Heads-up after the blinds, the small blind raises to 30 at the authority; the big blind is
    behind 30 and keeps the round open. -/
theorem apply_raise_to_headsUp :
    let t : Table := { Table.new "t" "A" ⟨"t", 1000, 5, 10, 0, 0⟩ true 0 with
      eng := (newState 5 10).run [.sit "A" 1000, .sit "B" 1000, .startHand ⟨fun _ _ => 0, fun _ _ h => h⟩] }
    let e :=
      (apply ⟨fun _ => ⟨fun _ _ => 0, fun _ _ h => h⟩, fun _ => "adv"⟩ 3 t ⟨"r1", .raise, "A", 30, none⟩).1.eng
    t.authority = true ∧ t.eng.currentBet = 10 ∧ e.currentBet = 30 ∧
      e.seatOf "A" = ⟨"A", 995 - (30 - 5), 30, true, false, false⟩ ∧ e.lastRaiseSize = 30 - 10 ∧
      e.pot = t.eng.pot + (30 - 5) :=
  ⟨rfl, by decide, @apply_raise_to _ _ _ ⟨"A", 995, 5, true, false, false⟩ (by decide) (by decide) (by decide)
    (by decide) (by decide) (by decide) (by decide) (by decide)
    (fun _ _ => ⟨"B", by decide, by decide, by decide, by decide⟩) (.inl rfl)⟩

/-- The big blind is all in for 8 when the small blind raises to 30 at the authority. No seat that can
    act is left behind 30, the raise closes the preflop round, and the `ADVANCE_PHASE` the authority
    commits deals the flop with the bet and `A`'s committed amount back at zero. -/
theorem raise_to_closes_round :
    let s := (newState 5 10).run [.sit "A" 1000, .sit "B" 8, .startHand ⟨fun _ _ => 0, fun _ _ h => h⟩]
    let t : Table := { Table.new "t" "A" ⟨"t", 1000, 5, 10, 0, 0⟩ true 0 with eng := s }
    let e :=
      (apply ⟨fun _ => ⟨fun _ _ => 0, fun _ _ h => h⟩, fun _ => "adv"⟩ 3 t ⟨"r1", .raise, "A", 30, none⟩).1.eng
    Reachable s ∧ s.currentPlayer = some "A" ∧ s.eligible "A" = true ∧ s.currentBet = 10 ∧
      s.lastRaiseSize = 10 ∧ s.seats.get? "A" = some ⟨"A", 995, 5, true, false, false⟩ ∧
      e.currentBet = 0 ∧ (e.seatOf "A").committed = 0 ∧ e.phase = .flop ∧ (e.seatOf "A").stack = 970 ∧
      e.pot = 38 :=
  ⟨(Reachable.init 5 10).run _, by decide, by decide, by decide, by decide, by decide, by decide, by decide,
    by decide, by decide, by decide⟩

end RaiseTo

end Table
end P2Poker
