import P2Poker.Engine.Step
import Mathlib.Tactic.Ring
import Mathlib.Data.List.Rotate
import Mathlib.Data.List.GetD

/-! Chips on the table: the stacks of every seat and the pot, summed in `int64` arithmetic.

    Every betting action moves chips between one stack and the pot, so it keeps the sum, and so do
    the street and turn bookkeeping. `Sit` brings the buy-in, `Leave` takes the stack away,
    `StartHand` sets the pot to zero before it posts the blinds (a pot still live is dropped), and
    `ResolveShowdown` pays the whole pot out only when it is positive and has winners; otherwise it
    clears it. `total_exec` states all of this at once as `chipDelta`. -/

namespace P2Poker
namespace State

/-- The chips on the table. -/
def total (s : State) : Int64 := s.seats.sumBy (·.stack) + s.pot

section Moves
variable {s : State} {p : PlayerID}

theorem exists_get?_of_mem (h : p ∈ s.seats) : ∃ st, s.seats.get? p = some st :=
  Option.isSome_iff_exists.mp (PlayerMap.mem_iff_get?.mp h)

theorem seatOf_of_get? {st : Seat} (h : s.seats.get? p = some st) : s.seatOf p = st := by
  simp [seatOf, h]

theorem mem_of_not_stack_le (h : ¬(s.seatOf p).stack ≤ 0) : p ∈ s.seats := by
  by_contra hp
  rw [seatOf, PlayerMap.get?_eq_none.mpr hp] at h
  exact h (by decide)

theorem mem_of_get? {st : Seat} (h : s.seats.get? p = some st) : p ∈ s.seats :=
  PlayerMap.mem_iff_get?.mpr (by simp [h])

theorem actor_ok {st : Seat} (h : s.actor p = .ok st) :
    s.seats.get? p = some st ∧ s.currentPlayer = some p := by
  unfold actor at h
  split at h
  · cases h
  · rename_i st' hst
    split at h
    · cases h
    · cases h
      exact ⟨hst, by simpa using ‹¬s.currentPlayer ≠ some p›⟩

theorem total_modify {f : Seat → Seat} (hf : ∀ st, (f st).stack = st.stack) :
    ({ s with seats := s.seats.modify p f }).total = s.total := by
  by_cases h : p ∈ s.seats
  · obtain ⟨st, hst⟩ := exists_get?_of_mem h
    simp [total, PlayerMap.sumBy_modify _ _ hst, hf]
  · simp [total, PlayerMap.sumBy_modify_of_not_mem _ _ h]

theorem total_pay (h : p ∈ s.seats) (x : Int64) : (s.pay p x).total = s.total := by
  obtain ⟨st, hst⟩ := exists_get?_of_mem h
  simp only [total, pay, PlayerMap.sumBy_modify _ _ hst]
  ring

theorem total_payIf (h : p ∈ s.seats) (x : Int64) : (s.payIf p x).total = s.total := by
  unfold payIf
  split
  exacts [total_pay h x, rfl]

theorem mem_payIf (h : p ∈ s.seats) (q : PlayerID) (x : Int64) : p ∈ (s.payIf q x).seats := by
  unfold payIf
  split <;> simp [pay, h]

theorem total_shove {st : Seat} (h : s.seats.get? p = some st) :
    (s.shove p (s.seatOf p).stack).total = s.total := by
  simp only [total, shove, PlayerMap.sumBy_modify _ _ h, seatOf_of_get? h]
  ring

theorem total_markAllIn : (s.markAllIn p).total = s.total := total_modify fun _ => rfl

theorem total_advanceTurn : s.advanceTurn.total = s.total := by
  unfold advanceTurn
  split <;> rfl

theorem total_postBlind (amt : Int64) : (s.postBlind p amt).total = s.total := by
  dsimp only [postBlind]
  split
  · exact total_markAllIn
  · have hp := mem_of_not_stack_le ‹_›
    split
    · rw [total_pay ((PlayerMap.mem_modify _).mpr hp), total_markAllIn]
    · exact total_pay hp amt

theorem total_dealHoles (pids : List PlayerID) : (s.dealHoles pids).1.total = s.total := by
  induction pids generalizing s with
  | nil => rfl
  | cons pid rest ih =>
    dsimp only [dealHoles]
    split
    · split
      · rw [ih]
        rfl
      · rfl
    · exact ih

theorem total_resetForHand : s.resetForHand.total = s.total - s.pot := by
  simp [total, resetForHand, PlayerMap.sumBy_mapVal]

theorem total_postBlinds : s.postBlinds.total = s.total := by
  dsimp only [postBlinds]
  rw [total_postBlind, total_postBlind]
  rfl

end Moves

/-! ### The operations -/

section Operations
variable {s : State} {p : PlayerID}

theorem total_sit (buyin : Int64) :
    (s.sit p buyin).1.total = s.total + if p ∈ s.seats then 0 else buyin := by
  unfold sit
  split
  · simp [*]
  · simp only [total, PlayerMap.sumBy_set_of_not_mem _ _ ‹_›, if_neg ‹_›]
    ring

theorem total_leave : (s.leave p).total = s.total - (s.seatOf p).stack := by
  by_cases h : p ∈ s.seats
  · obtain ⟨st, hst⟩ := exists_get?_of_mem h
    simp only [total, leave, PlayerMap.sumBy_erase _ hst, seatOf_of_get? hst]
    ring
  · simp only [total, leave, PlayerMap.sumBy_erase_of_not_mem _ h, seatOf, PlayerMap.get?_eq_none.mpr h]
    exact (sub_zero _).symm

theorem total_startHand (r : Rand) :
    (s.startHand r).1.total = s.total - if s.order.length < 2 then 0 else s.pot := by
  unfold startHand
  split
  · simp [*]
  · have h₁ := total_postBlinds (s := s.resetForHand)
    have h₂ := total_resetForHand (s := s)
    simp only [total] at h₁ h₂
    dsimp only
    rw [total_dealHoles]
    simp only [total, openPreflop, h₁, h₂]

theorem total_bet (amt : Int64) : (s.bet p amt).1.total = s.total := by
  rcases bet_cases s p amt with ⟨-, h⟩ | ⟨-, st, hact, -, -, h⟩ <;> rw [h]
  simp only [total, advanceTurn_seats, advanceTurn_pot, pay, PlayerMap.sumBy_modify _ _ (actor_ok hact).1]
  ring

theorem total_check : (s.check p).1.total = s.total := by
  rcases check_cases s p with ⟨-, h⟩ | ⟨-, st, -, -, h⟩ <;> rw [h]
  exact total_advanceTurn

theorem total_fold : (s.fold p).1.total = s.total := by
  rcases fold_cases s p with ⟨-, h⟩ | ⟨-, st, -, h⟩ <;> rw [h]
  rw [total_advanceTurn]
  exact total_modify fun _ => rfl

theorem total_call : (s.call p).1.total = s.total := by
  rcases call_cases s p with ⟨-, h⟩ | ⟨-, st, hact, -, h | h⟩ <;> rw [h] <;>
    simp only [total, advanceTurn_seats, advanceTurn_pot, pay, PlayerMap.sumBy_modify _ _ (actor_ok hact).1] <;>
    ring

theorem total_raiseFull (h : p ∈ s.seats) (need add : Int64) :
    (s.raiseFull p need add).1.total = s.total := by
  have h₁ := total_pay (mem_payIf h p need) add
  have h₂ := total_payIf h need
  simp only [total] at h₁ h₂ ⊢
  simp only [raiseFull, advanceTurn_seats, advanceTurn_pot, h₁, h₂]

theorem total_raiseShort (h : p ∈ s.seats) (st : Seat) (need : Int64) :
    (s.raiseShort p st need).1.total = s.total := by
  have h₁ := total_payIf h (min64 st.stack need)
  obtain ⟨v, hv⟩ := exists_get?_of_mem (mem_payIf h p (min64 st.stack need))
  have h₂ := total_shove hv
  simp only [total] at h₁ h₂ ⊢
  dsimp only [raiseShort]
  split
  · exact h₁
  · split_ifs <;> simp only [advanceTurn_seats, advanceTurn_pot, h₂, h₁]

theorem total_raise (add : Int64) : (s.raise p add).1.total = s.total := by
  rcases raise_cases s p add with ⟨-, h⟩ | ⟨st, hact, -, -, h | h⟩ <;> rw [h]
  exacts [total_raiseFull (mem_of_get? (actor_ok hact).1) _ _, total_raiseShort (mem_of_get? (actor_ok hact).1) _ _]

theorem total_resetCommittedAndSetTurnFromDealer :
    s.resetCommittedAndSetTurnFromDealer.total = s.total := by
  dsimp only [resetCommittedAndSetTurnFromDealer]
  split <;> simp [total, PlayerMap.sumBy_mapVal]

theorem total_dealBoard (k : Nat) : (s.dealBoard k).total = s.total := by
  unfold dealBoard
  split <;> rfl

theorem total_nextStreet (k : Nat) (ph : Phase) : (s.nextStreet k ph).total = s.total :=
  (total_resetCommittedAndSetTurnFromDealer (s := s.dealBoard k)).trans (total_dealBoard k)

theorem total_advancePhase : s.advancePhase.total = s.total := by
  unfold advancePhase
  split
  iterate 3 exact total_nextStreet _ _
  iterate 2 rfl

end Operations

/-! ### The showdown payout -/

section Showdown
variable {s : State}

theorem sumBy_credit {m : PlayerMap Seat} {p : PlayerID} (h : p ∈ m) (x : Int64) :
    (m.modify p fun st => { st with stack := st.stack + x }).sumBy (·.stack) = m.sumBy (·.stack) + x := by
  obtain ⟨st, hst⟩ := Option.isSome_iff_exists.mp (PlayerMap.mem_iff_get?.mp h)
  rw [PlayerMap.sumBy_modify _ _ hst, add_sub_cancel_left]

theorem payEach_cons (w : ShowdownWinner) (ws : List ShowdownWinner) (per : Int64) :
    s.payEach (w :: ws) per = (if w.player ∈ s.seats then
      { s with seats := s.seats.modify w.player fun st => { st with stack := st.stack + per } }
      else s).payEach ws per := rfl

theorem payEach_order (ws : List ShowdownWinner) (per : Int64) : (s.payEach ws per).order = s.order := by
  induction ws generalizing s with
  | nil => rfl
  | cons w ws ih =>
    rw [payEach_cons, ih]
    split <;> rfl

theorem mem_payEach (ws : List ShowdownWinner) (per : Int64) (p : PlayerID) :
    p ∈ (s.payEach ws per).seats ↔ p ∈ s.seats := by
  induction ws generalizing s with
  | nil => rfl
  | cons w ws ih =>
    rw [payEach_cons, ih]
    split
    · exact PlayerMap.mem_modify _
    · rfl

theorem sumBy_payEach (per : Int64) (ws : List ShowdownWinner) (h : ∀ w ∈ ws, w.player ∈ s.seats) :
    (s.payEach ws per).seats.sumBy (·.stack) = s.seats.sumBy (·.stack) + Int64.ofNat ws.length * per := by
  induction ws generalizing s with
  | nil => simp [payEach, Int64.ofNat_zero]
  | cons w ws ih =>
    have hw := h w (List.mem_cons_self _ _)
    rw [payEach_cons, if_pos hw, ih fun v hv => (PlayerMap.mem_modify _).mpr (h v (List.mem_cons_of_mem _ hv)),
      sumBy_credit hw, List.length_cons, Int64.ofNat_succ]
    ring

theorem sumBy_foldl_remainderStep (W L : List PlayerID) (s : State) (n : Nat) (hn : n < 2 ^ 63)
    (hc : n ≤ L.countP fun pid => pid ∈ W ∧ pid ∈ s.seats) :
    (L.foldl (remainderStep W) (s, Int64.ofNat n)).1.seats.sumBy (·.stack) =
      s.seats.sumBy (·.stack) + Int64.ofNat n := by
  induction L generalizing s n with
  | nil =>
    obtain rfl : n = 0 := by simpa using hc
    simp [Int64.ofNat_zero]
  | cons pid L ih =>
    rw [List.foldl_cons]
    rw [List.countP_cons] at hc
    by_cases hw : pid ∈ W ∧ pid ∈ s.seats
    · rw [if_pos (by simpa using hw)] at hc
      rcases n with _ | m
      · rw [remainderStep, if_neg fun h => absurd h.1 (by decide : ¬(0 : Int64) < Int64.ofNat 0)]
        exact ih s 0 hn (Nat.zero_le _)
      · rw [remainderStep, if_pos ⟨Int64.ofNat_pos (by omega) hn, hw⟩]
        dsimp only
        rw [Int64.ofNat_succ, add_sub_cancel_right, ih _ m (by omega) (by simpa using hc),
          sumBy_credit hw.2]
        ring
    · rw [if_neg (by simpa using hw)] at hc
      rw [remainderStep, if_neg fun h => hw h.2]
      exact ih s n hn (by simpa using hc)

theorem visitFrom_eq_rotate (order : List PlayerID) (start : Nat) :
    visitFrom order start = order.rotate start := by
  apply List.ext_getElem (by simp [visitFrom])
  intro i h₁ _
  have hi : i < order.length := by simpa [visitFrom] using h₁
  simp only [visitFrom, List.getElem_map, List.getElem_range, List.getElem_rotate, Nat.add_comm start]
  exact List.getD_eq_getElem _ _ (Nat.mod_lt _ (by omega))

theorem sumBy_payRemainder {t : State} {W : List PlayerID} (start : Nat) {rem : Int64} (h0 : 0 ≤ rem)
    (hc : rem.toBits.toNat ≤ t.order.countP fun pid => pid ∈ W ∧ pid ∈ t.seats) :
    (if 0 < rem then t.payRemainder W start rem else t).seats.sumBy (·.stack) =
      t.seats.sumBy (·.stack) + rem := by
  have hn := Int64.nonneg_iff.mp h0
  split
  · have h := sumBy_foldl_remainderStep W (visitFrom t.order start) t rem.toBits.toNat hn
      (by rwa [visitFrom_eq_rotate, (List.rotate_perm _ _).countP_eq])
    rwa [Int64.ofNat_toBits] at h
  · rename_i hr
    have h : rem.toBits.toNat = 0 := by
      rw [Int64.pos_iff] at hr
      omega
    rw [← Int64.ofNat_toBits rem, h, Int64.ofNat_zero, add_zero]

theorem map_filterMap_sublist {α β : Type} (f : α → Option β) (g : β → α)
    (hf : ∀ a b, f a = some b → g b = a) (l : List α) : List.Sublist ((l.filterMap f).map g) l := by
  induction l with
  | nil => exact List.Sublist.slnil
  | cons a l ih =>
    rw [List.filterMap_cons]
    cases h : f a with
    | none => exact ih.cons a
    | some b =>
      rw [List.map_cons, hf a b h]
      exact ih.cons₂ a

theorem evals_sublist : List.Sublist (s.evals.map (·.player)) s.order := by
  refine map_filterMap_sublist _ _ (fun pid w h => ?_) s.order
  split at h
  · split at h
    · cases h
    · cases h
      rfl
  · cases h

theorem mem_seats_of_mem_evals {w : ShowdownWinner} (h : w ∈ s.evals) : w.player ∈ s.seats := by
  obtain ⟨pid, -, hf⟩ := List.mem_filterMap.mp h
  split at hf
  · rename_i st hst
    split at hf
    · cases hf
    · cases hf
      exact mem_of_get? hst
  · cases hf

theorem showdownWinners_sublist : List.Sublist s.showdownWinners s.evals := by
  unfold showdownWinners
  split
  · exact List.nil_sublist _
  · rename_i h
    rw [h]
    exact List.filter_sublist _

theorem length_showdownWinners_le :
    s.showdownWinners.length ≤
      s.order.countP fun pid => pid ∈ s.showdownWinners.map (·.player) ∧ pid ∈ s.seats := by
  have hsub : List.Sublist (s.showdownWinners.map (·.player)) s.order :=
    (showdownWinners_sublist.map _).trans evals_sublist
  calc s.showdownWinners.length
      = (s.showdownWinners.map (·.player)).countP
          (fun pid => pid ∈ s.showdownWinners.map (·.player) ∧ pid ∈ s.seats) := by
        rw [List.countP_eq_length.mpr, List.length_map]
        intro pid hp
        obtain ⟨w, hw, rfl⟩ := List.mem_map.mp hp
        simpa [hp] using mem_seats_of_mem_evals (showdownWinners_sublist.subset hw)
    _ ≤ _ := hsub.countP_le _

/-- `ResolveShowdown` pays the pot out to the winners when it is positive and there are winners;
    otherwise the pot is dropped. -/
theorem total_resolveShowdown : s.resolveShowdown.1.total =
    s.total - if 0 < s.pot ∧ 0 < Int64.ofNat s.showdownWinners.length then 0 else s.pot := by
  unfold resolveShowdown
  split
  · rename_i h
    have hw : s.showdownWinners = [] := by simp only [showdownWinners, h]
    rw [hw, if_neg fun h => absurd h.2 (by decide : ¬(0 : Int64) < Int64.ofNat 0)]
    simp [total]
  · have hW : ∀ w ∈ s.showdownWinners, w.player ∈ s.seats :=
      fun w hw => mem_seats_of_mem_evals (showdownWinners_sublist.subset hw)
    by_cases hp : 0 < s.pot ∧ 0 < Int64.ofNat s.showdownWinners.length
    · have hr := Int64.rem_lt (Int64.nonneg_of_pos hp.1) hp.2
      have hnw := Int64.pos_iff.mp hp.2
      have hc := length_showdownWinners_le (s := s)
      rw [Int64.toBits_ofNat] at hr hnw
      simp only [total, if_pos hp, add_zero]
      rw [sumBy_payRemainder _ (Int64.nonneg_iff.mpr (by omega)) (by simp only [payEach_order, mem_payEach]; omega),
        sumBy_payEach _ _ hW, add_assoc, Int64.mul_quot_add_rem (Int64.nonneg_of_pos hp.1) (Int64.nonneg_of_pos hp.2),
        sub_zero]
    · simp only [total, if_neg hp, add_zero]
      rw [sumBy_payRemainder _ (by decide) (Nat.zero_le _), sumBy_payEach _ _ hW]
      ring

end Showdown

/-! ### Every operation -/

/-- The chips an operation brings to the table; negative when it takes chips away. -/
def chipDelta (s : State) : Op → Int64
  | .sit p buyin => if p ∈ s.seats then 0 else buyin
  | .leave p => -(s.seatOf p).stack
  | .startHand _ => if s.order.length < 2 then 0 else -s.pot
  | .resolveShowdown => if 0 < s.pot ∧ 0 < Int64.ofNat s.showdownWinners.length then 0 else -s.pot
  | .bet .. | .check _ | .call _ | .raise .. | .fold _ | .advancePhase => 0

/-- Chip accounting for every operation from every state, whether it succeeds or fails. -/
theorem total_exec (s : State) (op : Op) : (s.exec op).1.total = s.total + s.chipDelta op := by
  cases op with
  | sit p buyin => exact total_sit buyin
  | leave p => exact total_leave.trans (sub_eq_add_neg _ _)
  | startHand r =>
    rw [exec, total_startHand, chipDelta]
    split <;> simp [sub_eq_add_neg]
  | bet p amt => exact total_bet amt |>.trans (add_zero _).symm
  | check p => exact total_check.trans (add_zero _).symm
  | call p => exact total_call.trans (add_zero _).symm
  | raise p add => exact total_raise add |>.trans (add_zero _).symm
  | fold p => exact total_fold.trans (add_zero _).symm
  | advancePhase => exact total_advancePhase.trans (add_zero _).symm
  | resolveShowdown =>
    rw [exec, total_resolveShowdown, chipDelta]
    split <;> simp [sub_eq_add_neg]

/-- A second `StartHand` while the pot of the first is live drops that pot: 2000 chips on the table
    become 1985. -/
theorem startHand_drops_live_pot : ∃ r : Rand,
    Reachable ((newState 5 10).run [.sit "A" 1000, .sit "B" 1000, .startHand r]) ∧
      ((newState 5 10).run [.sit "A" 1000, .sit "B" 1000, .startHand r]).total = 2000 ∧
      ((newState 5 10).run [.sit "A" 1000, .sit "B" 1000, .startHand r, .startHand r]).total = 1985 :=
  ⟨⟨fun _ _ => 0, fun _ _ h => h⟩, (Reachable.init 5 10).run _, by decide, by decide⟩

end State
end P2Poker
