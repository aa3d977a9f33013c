import P2Poker.Engine.Queue

/-! The betting round: a round does not close while an eligible seat is behind the bet.

    `ActorsToAct` is recounted when a round starts and by a bet or a full raise (`countNeedToAct`),
    and otherwise only counted down: by a check, a call, a short all-in, and the fold of a seat behind
    a live bet. A count of zero means that every eligible seat has matched the bet only if no seat
    that has matched it can act, and be counted off, while another is still behind. `RoundInv` says
    why that does not happen: read in turn order from the seat at the turn (`queue`), the eligible
    seats behind the bet come before every eligible seat that has matched it, and `ActorsToAct` is at
    least the number of eligible seats behind.

    The counter is not the number of seats still to act: a fold on a street with no bet does not
    count the folder off (`fold_unopened_keeps_count` in `Engine/Orderly.lean`). -/

namespace P2Poker

/-! ### Words -/

namespace Int64

@[simp] theorem toInt_zero : (0 : Int64).toInt = 0 := rfl

theorem toInt_range (a : Int64) : -2 ^ 63 ≤ a.toInt ∧ a.toInt < 2 ^ 63 := by
  rw [toInt_eq]
  have := a.toBits.isLt
  split_ifs <;> omega

theorem lt_irrefl (a : Int64) : ¬a < a := by
  rw [lt_iff_toInt]
  exact Int.lt_irrefl _

theorem le_refl (a : Int64) : a ≤ a := le_iff_toInt.mpr (Int.le_refl _)

theorem le_of_lt {a b : Int64} (h : a < b) : a ≤ b := le_iff_toInt.mpr (Int.le_of_lt (lt_iff_toInt.mp h))

theorem not_lt_of_le {a b : Int64} (h : a ≤ b) : ¬b < a := by
  rw [lt_iff_toInt]
  exact Int.not_lt.mpr (le_iff_toInt.mp h)

theorem lt_of_le_of_lt {a b c : Int64} (h₁ : a ≤ b) (h₂ : b < c) : a < c :=
  lt_iff_toInt.mpr (Int.lt_of_le_of_lt (le_iff_toInt.mp h₁) (lt_iff_toInt.mp h₂))

theorem le_of_not_lt {a b : Int64} (h : ¬a < b) : b ≤ a := by
  rw [lt_iff_toInt] at h
  exact le_iff_toInt.mpr (Int.not_lt.mp h)

theorem eq_of_le_of_not_lt {a b : Int64} (h₁ : a ≤ b) (h₂ : ¬a < b) : a = b := by
  rw [le_iff_toInt] at h₁
  rw [lt_iff_toInt] at h₂
  exact BitVec.toInt_inj.mp (Int.le_antisymm h₁ (Int.not_lt.mp h₂))

theorem pos_of_not_le {a : Int64} (h : ¬a ≤ 0) : 0 < a := by
  rw [le_iff_toInt] at h
  rw [lt_iff_toInt]
  simp only [toInt_zero] at *
  omega

theorem lt_add {a b : Int64} (ha : 0 ≤ a) (hb : 0 < b) (hab : 0 ≤ a + b) : a < a + b := by
  rw [le_iff_toInt, toInt_zero] at ha hab
  rw [lt_iff_toInt, toInt_zero] at hb
  rw [lt_iff_toInt]
  have e : (a + b).toInt = (a.toInt + b.toInt).bmod (2 ^ 64) := BitVec.toInt_add a b
  have := toInt_range a
  have := toInt_range b
  rw [Int.bmod_def, Int.emod_eq_of_lt (by omega) (by omega)] at e
  split_ifs at e <;> omega

theorem sub_pos {b c : Int64} (hc : 0 ≤ c) (h : c < b) : 0 < b - c := by
  rw [le_iff_toInt, toInt_zero] at hc
  rw [lt_iff_toInt] at h
  rw [lt_iff_toInt, toInt_zero]
  have e : (b - c).toInt = (b.toInt - c.toInt).bmod (2 ^ 64) := BitVec.toInt_sub
  have := toInt_range b
  rw [Int.bmod_def, Int.emod_eq_of_lt (by omega) (by omega)] at e
  split_ifs at e <;> omega

end Int64

theorem countP_add_of_agree {α : Type} {l : List α} {p : α} {f g : α → Bool} (hn : l.Nodup) (hp : p ∈ l)
    (h : ∀ q ∈ l, q ≠ p → f q = g q) :
    l.countP f + (if g p then 1 else 0) = l.countP g + (if f p then 1 else 0) := by
  obtain ⟨l₁, l₂, rfl⟩ := List.append_of_mem hp
  have hn' := List.nodup_cons.mp (List.nodup_middle.mp hn)
  rw [List.mem_append, not_or] at hn'
  have h₁ : l₁.countP f = l₁.countP g := List.countP_congr fun q hq => by
    rw [h q (List.mem_append_left _ hq) fun e => hn'.1.1 (e ▸ hq)]
  have h₂ : l₂.countP f = l₂.countP g := List.countP_congr fun q hq => by
    rw [h q (List.mem_append_right _ (List.mem_cons_of_mem _ hq)) fun e => hn'.1.2 (e ▸ hq)]
  simp only [List.countP_append, List.countP_cons, h₁, h₂]
  omega

namespace State

/-! ### Seats behind the bet -/

/-- Seat `q` has committed less than the current bet. -/
def behind (s : State) (q : PlayerID) : Bool := decide ((s.seatOf q).committed < s.currentBet)

/-- Seat `q` can still act and is behind the bet. -/
def owes (s : State) (q : PlayerID) : Bool := s.eligible q && s.behind q

/-- The number of seats of `order` that can still act and are behind the bet. -/
def owingCount (s : State) : Nat := s.order.countP s.owes

/-- The round invariant, while a hand is on. -/
structure RoundInv (s : State) : Prop where
  /-- No eligible seat has committed more than the bet. -/
  capped : ∀ q ∈ s.order, s.eligible q = true → (s.seatOf q).committed ≤ s.currentBet
  /-- Before the first bet of a street no seat has committed anything. -/
  unopened : s.currentBet = 0 → ∀ q ∈ s.order, (s.seatOf q).committed = 0
  /-- In turn order the seats behind the bet come first. -/
  queued : s.queue.Pairwise fun a b => s.behind b = true → s.behind a = true
  /-- While some seat is behind, the turn is on an eligible seat. -/
  onTurn : 0 < s.owingCount → s.eligible s.turnSeat = true
  /-- `ActorsToAct` counts at least the seats behind. -/
  counted : 0 < s.owingCount → (s.owingCount : Int) ≤ s.actorsToAct

section Basics
variable {s t : State} {p q : PlayerID}

theorem eligible_congr (h : t.seats.get? q = s.seats.get? q) : t.eligible q = s.eligible q := by
  unfold eligible
  rw [h]

theorem seatOf_congr (h : t.seats.get? q = s.seats.get? q) : t.seatOf q = s.seatOf q := by
  unfold seatOf
  rw [h]

@[simp] theorem advanceTurn_behind : s.advanceTurn.behind = s.behind := by
  funext q
  simp only [behind, advanceTurn_seatOf, advanceTurn_currentBet]

@[simp] theorem advanceTurn_owes : s.advanceTurn.owes = s.owes := by
  funext q
  simp only [owes, advanceTurn_eligible, advanceTurn_behind]

@[simp] theorem advanceTurn_owingCount : s.advanceTurn.owingCount = s.owingCount := by
  simp only [owingCount, advanceTurn_order, advanceTurn_owes]

theorem turnSeat_mem (ht : s.turnIdx < s.order.length) : s.turnSeat ∈ s.order := by
  rw [turnSeat, List.getD_eq_getElem?_getD, List.getElem?_eq_getElem ht]
  exact List.getElem_mem ht

theorem exists_eligible (h : 0 < s.owingCount) : ∃ q ∈ s.order, s.eligible q = true := by
  obtain ⟨q, hq, hqo⟩ := List.countP_pos_iff.mp h
  exact ⟨q, hq, (Bool.and_eq_true _ _).mp hqo |>.1⟩

theorem countNeedToAct_eq (h : s.currentBet ≠ 0) : s.countNeedToAct = s.owingCount := by
  unfold countNeedToAct owingCount
  split
  · rename_i h0
    rw [List.length_eq_zero.mp h0]
    rfl
  · congr 1
    exact List.countP_congr fun q _ => by simp [owes, behind, h]

theorem RoundInv.owes_turnSeat (h : s.RoundInv) (ht : s.turnIdx < s.order.length) (hpos : 0 < s.owingCount) :
    s.owes s.turnSeat = true := by
  have he := h.onTurn hpos
  obtain ⟨rest, hr⟩ := rotate_eq_getD_cons "" ht
  rw [show s.order.getD s.turnIdx "" = s.turnSeat from rfl] at hr
  have hq := h.queued
  rw [queue, hr, List.filter_cons_of_pos he, List.pairwise_cons] at hq
  obtain ⟨q, hqm, hqo⟩ := List.countP_pos_iff.mp hpos
  obtain ⟨hqe, hqb⟩ := (Bool.and_eq_true _ _).mp hqo
  have hmem : q ∈ s.queue := List.mem_filter.mpr ⟨List.mem_rotate.mpr hqm, hqe⟩
  rw [queue, hr, List.filter_cons_of_pos he, List.mem_cons] at hmem
  rcases hmem with rfl | hmem
  · exact hqo
  · exact (Bool.and_eq_true _ _).mpr ⟨he, hq.1 q hmem hqb⟩

end Basics

/-! ### A move of the seat at the turn -/

/-- `s₁` differs from `s` at most in the seat of `p`, the pot, the bet, the last raise and
    `ActorsToAct`: what a betting action changes before it moves the turn on. -/
structure SeatUpdate (s s₁ : State) (p : PlayerID) : Prop where
  order : s₁.order = s.order
  turnIdx : s₁.turnIdx = s.turnIdx
  handActive : s₁.handActive = s.handActive
  smallBlind : s₁.smallBlind = s.smallBlind
  bigBlind : s₁.bigBlind = s.bigBlind
  mem : ∀ q, q ∈ s₁.seats ↔ q ∈ s.seats
  others : ∀ q, q ≠ p → s₁.seats.get? q = s.seats.get? q

section Turn
variable {s s₁ : State} {p : PlayerID}

theorem queue_after_move (ht : s.turnIdx < s.order.length) (hu : SeatUpdate s s₁ p) {rest : List PlayerID}
    (hr : s.order.rotate s.turnIdx = p :: rest) :
    s₁.advanceTurn.queue = rest.filter s₁.eligible ++ [p].filter s₁.eligible := by
  rw [queue_advanceTurn (by rwa [hu.order, hu.turnIdx]), hu.order, hu.turnIdx, rotate_succ_of_eq_cons hr,
    List.filter_append]

theorem pairwise_append_settled {l : List PlayerID} {x : Option PlayerID} {g : PlayerID → Bool}
    (hl : l.Pairwise fun a b => g b = true → g a = true) (hx : ∀ b ∈ x.toList, g b = false) :
    (l ++ x.toList).Pairwise fun a b => g b = true → g a = true := by
  refine List.pairwise_append.mpr ⟨hl, ?_, fun a _ b hb hgb => absurd hgb (by rw [hx b hb]; decide)⟩
  cases x <;> simp

theorem filter_singleton_eq (f : PlayerID → Bool) :
    [p].filter f = (if f p then some p else none).toList := by
  by_cases h : f p <;> simp [h]

theorem owingCount_settle (hn : s.order.Nodup) (hpm : p ∈ s.order) (hu : SeatUpdate s s₁ p)
    (hb : s₁.currentBet = s.currentBet) (hop : s₁.owes p = false) :
    s₁.owingCount + (if s.owes p then 1 else 0) = s.owingCount := by
  have hagree : ∀ q ∈ s.order, q ≠ p → s₁.owes q = s.owes q := fun q _ hqp => by
    simp only [owes, behind, eligible_congr (hu.others q hqp), seatOf_congr (hu.others q hqp), hb]
  have := countP_add_of_agree hn hpm hagree
  rw [hop, if_neg Bool.false_ne_true, Nat.add_zero] at this
  rw [owingCount, owingCount, hu.order]
  exact this

/-- A move of the seat at the turn that leaves it matched or out of the hand, the bet where it was
    and every other seat as it was, and counts it off if it was behind, keeps the round invariant
    once the turn moves on. -/
theorem RoundInv.settle (h : s.RoundInv) (hn : s.order.Nodup) (ht : s.turnIdx < s.order.length)
    (hp : s.turnSeat = p) (hu : SeatUpdate s s₁ p) (hb : s₁.currentBet = s.currentBet)
    (hpe : s₁.eligible p = true → s₁.behind p = false ∧ (s₁.seatOf p).committed ≤ s₁.currentBet)
    (hz : s.currentBet = 0 → (s₁.seatOf p).committed = 0)
    (hc : s.owes p = true → s.actorsToAct - 1 ≤ s₁.actorsToAct) : s₁.advanceTurn.RoundInv := by
  have hpm : p ∈ s.order := hp ▸ turnSeat_mem ht
  obtain ⟨rest, hr⟩ := rotate_eq_getD_cons "" ht
  rw [show s.order.getD s.turnIdx "" = p from hp] at hr
  have hnr : p ∉ rest := (List.nodup_cons.mp (hr ▸ List.nodup_rotate.mpr hn)).1
  have hel : ∀ q, q ≠ p → s₁.eligible q = s.eligible q := fun q hqp => eligible_congr (hu.others q hqp)
  have hse : ∀ q, q ≠ p → s₁.seatOf q = s.seatOf q := fun q hqp => seatOf_congr (hu.others q hqp)
  have hbe : ∀ q, q ≠ p → s₁.behind q = s.behind q := fun q hqp => by simp only [behind, hse q hqp, hb]
  have hop : s₁.owes p = false := by
    cases he : s₁.eligible p
    · simp only [owes, he, Bool.false_and]
    · simp only [owes, he, (hpe he).1, Bool.and_false]
  have hcount := owingCount_settle hn hpm hu hb hop
  constructor
  · intro q hqm hqe
    simp only [advanceTurn_order, advanceTurn_eligible, advanceTurn_seatOf, advanceTurn_currentBet] at hqm hqe ⊢
    by_cases hqp : q = p
    · exact hqp ▸ (hpe (hqp ▸ hqe)).2
    · rw [hse q hqp, hb]
      exact h.capped q (hu.order ▸ hqm) (hel q hqp ▸ hqe)
  · intro h0 q hqm
    simp only [advanceTurn_order, advanceTurn_seatOf, advanceTurn_currentBet] at h0 hqm ⊢
    rw [hb] at h0
    by_cases hqp : q = p
    · exact hqp ▸ hz h0
    · rw [hse q hqp]
      exact h.unopened h0 q (hu.order ▸ hqm)
  · have hq₀ := h.queued
    rw [queue, hr] at hq₀
    rw [queue_after_move ht hu hr, advanceTurn_behind, filter_singleton_eq,
      List.filter_congr fun q hqm => hel q fun e => hnr (e ▸ hqm)]
    refine pairwise_append_settled ?_ fun b hb' => ?_
    · refine (hq₀.sublist ((List.sublist_cons_self p rest).filter _)).imp_of_mem fun ha hb' hab hbb => ?_
      have hna : _ ≠ p := fun e => hnr (e ▸ (List.mem_filter.mp ha).1)
      have hnb : _ ≠ p := fun e => hnr (e ▸ (List.mem_filter.mp hb').1)
      rw [hbe _ hna]
      exact hab (hbe _ hnb ▸ hbb)
    · split at hb'
      · rw [Option.mem_toList, Option.mem_def, Option.some_inj] at hb'
        exact hb' ▸ (hpe ‹_›).1
      · exact absurd hb' (List.not_mem_nil _)
  · exact fun hpos => by
      rw [advanceTurn_eligible]
      exact eligible_turnSeat_advanceTurn (by rwa [hu.order, hu.turnIdx]) (exists_eligible (by simpa using hpos))
  · intro hpos
    rw [advanceTurn_owingCount] at hpos ⊢
    rw [advanceTurn_actorsToAct]
    have hpos' : 0 < s.owingCount := by omega
    have hpo := h.owes_turnSeat ht hpos'
    rw [hp] at hpo
    have := h.counted hpos'
    have := hc hpo
    rw [hpo, if_pos rfl] at hcount
    omega

/-- A bet or a full raise by the seat at the turn `p` puts every other eligible seat behind the new
    bet and recounts `ActorsToAct`; once the turn moves on the round invariant holds again, whatever
    held before. -/
theorem RoundInv.reopen (hn : s.order.Nodup) (ht : s.turnIdx < s.order.length) (hp : s.turnSeat = p)
    (hu : SeatUpdate s s₁ p)
    (hup : ∀ q ∈ s.order, q ≠ p → s.eligible q = true → (s.seatOf q).committed < s₁.currentBet)
    (hpc : (s₁.seatOf p).committed = s₁.currentBet) (hpos : 0 < s₁.currentBet)
    (hcnt : s₁.actorsToAct = s₁.countNeedToAct) : s₁.advanceTurn.RoundInv := by
  obtain ⟨rest, hr⟩ := rotate_eq_getD_cons "" ht
  rw [show s.order.getD s.turnIdx "" = p from hp] at hr
  have hnr : p ∉ rest := (List.nodup_cons.mp (hr ▸ List.nodup_rotate.mpr hn)).1
  have hmr : ∀ q ∈ rest, q ∈ s.order := fun q hqm => List.mem_rotate.mp (hr ▸ List.mem_cons_of_mem p hqm)
  have hel : ∀ q, q ≠ p → s₁.eligible q = s.eligible q := fun q hqp => eligible_congr (hu.others q hqp)
  have hse : ∀ q, q ≠ p → s₁.seatOf q = s.seatOf q := fun q hqp => seatOf_congr (hu.others q hqp)
  have hne : s₁.currentBet ≠ 0 := fun e => Int64.lt_irrefl _ (e ▸ hpos)
  constructor
  · intro q hqm hqe
    simp only [advanceTurn_order, advanceTurn_eligible, advanceTurn_seatOf, advanceTurn_currentBet] at hqm hqe ⊢
    by_cases hqp : q = p
    · exact hqp ▸ hpc ▸ Int64.le_refl _
    · rw [hse q hqp]
      exact Int64.le_of_lt (hup q (hu.order ▸ hqm) hqp (hel q hqp ▸ hqe))
  · exact fun h0 => absurd (by simpa using h0) hne
  · rw [queue_after_move ht hu hr, advanceTurn_behind, filter_singleton_eq]
    refine pairwise_append_settled ((List.pairwise_of_forall fun _ _ => trivial).imp_of_mem
      fun ha _ _ _ => ?_) fun b hb => ?_
    · obtain ⟨ham, hae⟩ := List.mem_filter.mp ha
      have hap : _ ≠ p := fun e => hnr (e ▸ ham)
      rw [hel _ hap] at hae
      simpa only [behind, hse _ hap, decide_eq_true_eq] using hup _ (hmr _ ham) hap hae
    · split at hb
      · rw [Option.mem_toList, Option.mem_def, Option.some_inj] at hb
        simp only [← hb, behind, hpc, Int64.lt_irrefl, decide_False]
      · exact absurd hb (List.not_mem_nil _)
  · exact fun hpos => by
      rw [advanceTurn_eligible]
      exact eligible_turnSeat_advanceTurn (by rwa [hu.order, hu.turnIdx]) (exists_eligible (by simpa using hpos))
  · intro _
    rw [advanceTurn_owingCount, advanceTurn_actorsToAct, hcnt, countNeedToAct_eq hne]

end Turn

end State
end P2Poker
