import P2Poker.Engine.Round

/-! Orderly runs, and what the betting actions keep along them.

    An orderly run starts from `NewState(sb, bb)` with `0 < bb` and `sb ≤ bb`, and each of its steps
    succeeds, takes or leaves a seat only between hands, and leaves no chip count negative (no int64
    sum wraps). `Sound` is what such a run keeps: the order lists each seated id once, the turn is in
    range, and while a hand is on `RoundInv` holds. Each betting action keeps it, through the two moves
    of `Engine/Round.lean`: a check, a call, a fold or a short all-in settles the seat at the turn, a
    bet or a full raise reopens the round. The other operations, and whole runs, are in
    `Engine/Orderly.lean`. -/

namespace P2Poker

/-- `Sit` and `Leave`, the operations that change who is seated. -/
def Op.isSeating : Op → Bool
  | .sit _ _ | .leave _ => true
  | _ => false

namespace State

/-- No chip count of the round is negative: the bet, and what each seat of `order` has committed. -/
def ChipsNonneg (s : State) : Prop := 0 ≤ s.currentBet ∧ ∀ q ∈ s.order, 0 ≤ (s.seatOf q).committed

instance (s : State) : Decidable s.ChipsNonneg := inferInstanceAs (Decidable (_ ∧ _))

/-- A step of an orderly run: the operation succeeds, changes the seating only between hands, and
    leaves no chip count negative. -/
def Orderly (s : State) (op : Op) : Prop :=
  (s.exec op).2 = none ∧ (op.isSeating = true → s.handActive = false) ∧ (s.exec op).1.ChipsNonneg

instance (s : State) (op : Op) : Decidable (s.Orderly op) := inferInstanceAs (Decidable (_ ∧ _ ∧ _))

end State

/-- The engine states an orderly run reaches from `NewState(sb, bb)`, with `0 < bb` and `sb ≤ bb`. -/
inductive OrderlyReachable : State → Prop
  | init (sb bb : Int64) : 0 < bb → sb ≤ bb → OrderlyReachable (newState sb bb)
  | step {s : State} (op : Op) : OrderlyReachable s → s.Orderly op → OrderlyReachable (s.exec op).1

namespace State

/-- What an orderly run keeps. -/
structure Sound (s : State) : Prop where
  nodup : s.order.Nodup
  seated : ∀ q, q ∈ s.order ↔ q ∈ s.seats
  turn : s.TurnInRange
  blinds : 0 < s.bigBlind ∧ s.smallBlind ≤ s.bigBlind
  chips : s.ChipsNonneg
  round : s.handActive = true → s.RoundInv

/-! ### Seat updates -/

section Updates
variable {s s₁ s₂ : State} {p : PlayerID}

theorem SeatUpdate.rfl : SeatUpdate s s p :=
  ⟨Eq.refl _, Eq.refl _, Eq.refl _, Eq.refl _, Eq.refl _, fun _ => Iff.rfl, fun _ _ => Eq.refl _⟩

theorem SeatUpdate.trans (h₁ : SeatUpdate s s₁ p) (h₂ : SeatUpdate s₁ s₂ p) : SeatUpdate s s₂ p :=
  ⟨h₂.order.trans h₁.order, h₂.turnIdx.trans h₁.turnIdx, h₂.handActive.trans h₁.handActive,
    h₂.smallBlind.trans h₁.smallBlind, h₂.bigBlind.trans h₁.bigBlind, fun q => (h₂.mem q).trans (h₁.mem q),
    fun q hq => (h₂.others q hq).trans (h₁.others q hq)⟩

theorem SeatUpdate.count (h : SeatUpdate s s₁ p) (n : Int) : SeatUpdate s { s₁ with actorsToAct := n } p :=
  ⟨h.order, h.turnIdx, h.handActive, h.smallBlind, h.bigBlind, h.mem, h.others⟩

theorem SeatUpdate.reopen (h : SeatUpdate s s₁ p) (b r : Int64) (n : Int) :
    SeatUpdate s { s₁ with currentBet := b, lastRaiseSize := r, actorsToAct := n } p :=
  ⟨h.order, h.turnIdx, h.handActive, h.smallBlind, h.bigBlind, h.mem, h.others⟩

@[simp] theorem payIf_currentBet (x : Int64) : (s.payIf p x).currentBet = s.currentBet := by
  unfold payIf; split <;> rfl

@[simp] theorem payIf_actorsToAct (x : Int64) : (s.payIf p x).actorsToAct = s.actorsToAct := by
  unfold payIf; split <;> rfl

theorem seatUpdate_modify (f : Seat → Seat) (pot : Int64) :
    SeatUpdate s { s with seats := s.seats.modify p f, pot := pot } p :=
  ⟨rfl, rfl, rfl, rfl, rfl, fun _ => PlayerMap.mem_modify f, fun q hq => by simp [hq]⟩

theorem seatUpdate_pay (x : Int64) : SeatUpdate s (s.pay p x) p :=
  ⟨rfl, rfl, rfl, rfl, rfl, fun _ => PlayerMap.mem_modify _, fun q hq => by simp [pay, hq]⟩

theorem seatUpdate_payIf (x : Int64) : SeatUpdate s (s.payIf p x) p := by
  unfold payIf
  split
  exacts [seatUpdate_pay x, .rfl]

theorem seatUpdate_shove (x : Int64) : SeatUpdate s (s.shove p x) p :=
  ⟨rfl, rfl, rfl, rfl, rfl, fun _ => PlayerMap.mem_modify _, fun q hq => by simp [shove, hq]⟩

theorem pay_seatOf {st : Seat} (hg : s.seats.get? p = some st) (x : Int64) :
    (s.pay p x).seatOf p = { st with stack := st.stack - x, committed := st.committed + x } := by
  simp [pay, seatOf, hg]

theorem seatOf_modified {t : State} {f : Seat → Seat} {st : Seat} (ht : t.seats = s.seats.modify p f)
    (hg : s.seats.get? p = some st) : t.seatOf p = f st := by
  simp [seatOf, ht, hg]

theorem seatOf_payIf_pay {st : Seat} (hg : s.seats.get? p = some st) (x y : Int64) :
    ((s.payIf p x).pay p y).seatOf p = { st with
      stack := st.stack - (if 0 < x then x else 0) - y, committed := st.committed + (if 0 < x then x else 0) + y } := by
  unfold payIf
  split
  · simp [pay, seatOf, hg, add_assoc, sub_sub]
  · simp [pay, seatOf, hg]

theorem committed_payIf_pay {st : Seat} (hg : s.seats.get? p = some st) (x y : Int64) :
    (((s.payIf p x).pay p y).seatOf p).committed = st.committed + (if 0 < x then x else 0) + y := by
  rw [seatOf_payIf_pay hg]

theorem pot_payIf_pay (x y : Int64) : ((s.payIf p x).pay p y).pot = s.pot + (if 0 < x then x else 0) + y := by
  unfold payIf
  split
  · rfl
  · simp [pay]

theorem eligible_payIf_pay (x y : Int64) : ((s.payIf p x).pay p y).eligible = s.eligible := by
  funext q
  unfold payIf
  split <;> simp only [eligible, pay, PlayerMap.get?_modify] <;> split_ifs <;> subst_vars <;> cases s.seats.get? _ <;> rfl

theorem eligible_out {t : State} {f : Seat → Seat} (ht : t.seats = s.seats.modify p f)
    (hf : ∀ st, (f st).inHand = false ∨ (f st).allIn = true) : t.eligible p = false := by
  unfold eligible
  simp only [ht, PlayerMap.get?_modify, if_pos]
  cases s.seats.get? p with
  | none => rfl
  | some st => rcases hf st with h | h <;> simp [h]

end Updates

/-! ### The betting actions, inverted -/

section Invert
variable {s : State} {p : PlayerID}

theorem check_ok (hok : (s.check p).2 = none) : ∃ st, s.actor p = .ok st ∧
    (s.currentBet = 0 ∨ st.committed = s.currentBet) ∧
    (s.check p).1 = { s with actorsToAct := s.actorsToAct - 1 }.advanceTurn :=
  ((check_cases s p).resolve_left fun h => h.1 hok).2

theorem fold_ok (hok : (s.fold p).2 = none) : ∃ st, s.actor p = .ok st ∧
    (s.fold p).1 = { s with
      actorsToAct := if 0 < s.currentBet ∧ st.committed < s.currentBet then s.actorsToAct - 1 else s.actorsToAct
      seats := s.seats.modify p fun st => { st with folded := true, inHand := false } }.advanceTurn :=
  ((fold_cases s p).resolve_left fun h => h.1 hok).2

theorem call_ok (hok : (s.call p).2 = none) : ∃ st, s.actor p = .ok st ∧ s.currentBet ≠ 0 ∧
    ((s.call p).1 = { s.pay p (s.currentBet - st.committed) with actorsToAct := s.actorsToAct - 1 }.advanceTurn ∨
      (s.call p).1 = { s with
        seats := s.seats.modify p fun st' =>
          { st' with stack := 0, allIn := true, committed := st'.committed + st.stack }
        pot := s.pot + st.stack
        actorsToAct := s.actorsToAct - 1 }.advanceTurn) :=
  ((call_cases s p).resolve_left fun h => h.1 hok).2

theorem raise_ok {add : Int64} (hok : (s.raise p add).2 = none) : ∃ st, s.actor p = .ok st ∧
    s.currentBet ≠ 0 ∧ 0 < add ∧
    (s.raise p add = s.raiseFull p (s.callNeed st) add ∨ s.raise p add = s.raiseShort p st (s.callNeed st)) := by
  obtain ⟨st, hst, h₁, h₂, h⟩ := (raise_cases s p add).resolve_left fun h => h.1 hok
  exact ⟨st, hst, h₁, Int64.pos_of_not_le h₂, h⟩

theorem raiseShort_ok {st : Seat} {need : Int64} (hok : (s.raiseShort p st need).2 = none) :
    ∃ s₁, (s.raiseShort p st need).1 = s₁.advanceTurn ∧ SeatUpdate s s₁ p ∧
      s₁.currentBet = s.currentBet ∧ (s₁.eligible p = false ∨ p ∉ s.seats) ∧
      (0 < need → s₁.actorsToAct = s.actorsToAct - 1) := by
  dsimp only [raiseShort] at hok ⊢
  split at hok
  · cases hok
  · rename_i hpos
    have hu₀ : SeatUpdate s (s.payIf p (min64 st.stack need)) p := seatUpdate_payIf _
    have hcb : (s.payIf p (min64 st.stack need)).currentBet = s.currentBet := payIf_currentBet _
    have hat : (s.payIf p (min64 st.stack need)).actorsToAct = s.actorsToAct := payIf_actorsToAct _
    generalize s.payIf p (min64 st.stack need) = s₀ at hpos hu₀ hcb hat ⊢
    have hu : SeatUpdate s (s₀.shove p (s₀.seatOf p).stack) p := hu₀.trans (seatUpdate_shove _)
    have he : (s₀.shove p (s₀.seatOf p).stack).eligible p = false ∨ p ∉ s.seats := by
      by_cases hm : p ∈ s.seats
      · let f : Seat → Seat := fun st =>
          { st with stack := 0, allIn := true, committed := st.committed + (s₀.seatOf p).stack }
        exact .inl (eligible_out (f := f) rfl fun _ => .inr rfl)
      · exact .inr hm
    split_ifs with h₁ h₂
    · exact ⟨_, rfl, hu.count _, hcb, he, fun _ => congrArg (· - 1) hat⟩
    · exact ⟨_, rfl, hu.count _, hcb, he, fun _ => congrArg (· - 1) hat⟩
    · exact ⟨_, rfl, hu, hcb, he, fun h => absurd h h₂⟩

theorem bet_ok {amt : Int64} (hok : (s.bet p amt).2 = none) : ∃ st, s.actor p = .ok st ∧
    ¬0 < s.currentBet ∧ 0 < amt ∧
    (s.bet p amt).1 = { s.pay p amt with
      currentBet := st.committed + amt, lastRaiseSize := amt
      actorsToAct := ({ s.pay p amt with currentBet := st.committed + amt, lastRaiseSize := amt }).countNeedToAct
      }.advanceTurn := by
  obtain ⟨st, hst, h₁, h₂, h⟩ := ((bet_cases s p amt).resolve_left fun h => h.1 hok).2
  exact ⟨st, hst, h₁, Int64.pos_of_not_le h₂, h⟩

end Invert

/-! ### Each operation keeps `Sound` -/

/-- What the seating part of `Sound` reads of a state: the order, the seated ids and the blinds. -/
structure Frame (s t : State) : Prop where
  order : t.order = s.order
  seats : ∀ q, q ∈ t.seats ↔ q ∈ s.seats
  smallBlind : t.smallBlind = s.smallBlind
  bigBlind : t.bigBlind = s.bigBlind

section Steps
variable {s s₁ t : State} {p : PlayerID}

theorem SeatUpdate.frame (h : SeatUpdate s s₁ p) : Frame s s₁.advanceTurn :=
  ⟨by simp [h.order], fun q => by simp [h.mem], by simp [h.smallBlind], by simp [h.bigBlind]⟩

theorem Sound.next (h : s.Sound) (hf : Frame s t) (ht : t.TurnInRange) (hc : t.ChipsNonneg)
    (hr : t.handActive = true → t.RoundInv) : t.Sound :=
  ⟨hf.order ▸ h.nodup, fun q => by rw [hf.order, hf.seats]; exact h.seated q, ht,
    by rw [hf.smallBlind, hf.bigBlind]; exact h.blinds, hc, hr⟩

theorem actor_turn (hs : ∀ q, q ∈ s.order ↔ q ∈ s.seats) {st : Seat} (h : s.actor p = .ok st) :
    s.seats.get? p = some st ∧ s.turnIdx < s.order.length ∧ s.turnSeat = p := by
  obtain ⟨hg, hc⟩ := actor_ok h
  have hpm : p ∈ s.order := (hs p).mpr (mem_of_get? hg)
  unfold currentPlayer at hc
  split at hc
  · rename_i h0
    exact absurd (List.length_eq_zero.mp h0 ▸ hpm) (List.not_mem_nil _)
  · obtain ⟨hlt, he⟩ := List.getElem?_eq_some_iff.mp hc
    refine ⟨hg, hlt, ?_⟩
    rw [turnSeat, List.getD_eq_getElem?_getD, List.getElem?_eq_getElem hlt, he]
    rfl

theorem Sound.settle (h : s.Sound) {st : Seat} (hst : s.actor p = .ok st) (hu : SeatUpdate s s₁ p)
    (hb : s₁.currentBet = s.currentBet)
    (hpe : s.RoundInv → s₁.eligible p = true →
      s₁.behind p = false ∧ (s₁.seatOf p).committed ≤ s₁.currentBet)
    (hz : s.RoundInv → s.currentBet = 0 → (s₁.seatOf p).committed = 0)
    (hc : s.owes p = true → s.actorsToAct - 1 ≤ s₁.actorsToAct) (hch : s₁.advanceTurn.ChipsNonneg) :
    s₁.advanceTurn.Sound := by
  obtain ⟨-, ht, hp⟩ := actor_turn h.seated hst
  refine h.next hu.frame ((h.turn.of_eq hu.order hu.turnIdx).advanceTurn) hch fun ha => ?_
  have hr := h.round (by rwa [advanceTurn_handActive, hu.handActive] at ha)
  exact hr.settle h.nodup ht hp hu hb (hpe hr) (hz hr) hc

theorem Sound.reopen (h : s.Sound) {st : Seat} (hst : s.actor p = .ok st) (hu : SeatUpdate s s₁ p)
    (hup : s.RoundInv →
      (∀ q ∈ s.order, q ≠ p → s.eligible q = true → (s.seatOf q).committed < s₁.currentBet) ∧
      0 < s₁.currentBet)
    (hpc : (s₁.seatOf p).committed = s₁.currentBet) (hcnt : s₁.actorsToAct = s₁.countNeedToAct)
    (hch : s₁.advanceTurn.ChipsNonneg) : s₁.advanceTurn.Sound := by
  obtain ⟨-, ht, hp⟩ := actor_turn h.seated hst
  refine h.next hu.frame ((h.turn.of_eq hu.order hu.turnIdx).advanceTurn) hch fun ha => ?_
  have hr := hup (h.round (by rwa [advanceTurn_handActive, hu.handActive] at ha))
  exact RoundInv.reopen h.nodup ht hp hu hr.1 hpc hr.2 hcnt

theorem Sound.check (h : s.Sound) (hok : (s.check p).2 = none) (hch : (s.check p).1.ChipsNonneg) :
    (s.check p).1.Sound := by
  obtain ⟨st, hst, hcb, he⟩ := check_ok hok
  obtain ⟨hg, ht, hp⟩ := actor_turn h.seated hst
  have hpm : p ∈ s.order := hp ▸ turnSeat_mem ht
  have hc₀ : 0 ≤ st.committed := seatOf_of_get? hg ▸ h.chips.2 p hpm
  rw [he] at hch ⊢
  refine h.settle hst (SeatUpdate.rfl.count _) rfl (fun hr he' => ⟨?_, hr.capped p hpm he'⟩)
    (fun hr h0 => hr.unopened h0 p hpm) (fun _ => Int.le_refl _) hch
  show decide ((s.seatOf p).committed < s.currentBet) = false
  rw [decide_eq_false_iff_not, seatOf_of_get? hg]
  rcases hcb with h0 | h0
  · rw [h0]
    exact Int64.not_lt_of_le hc₀
  · rw [h0]
    exact Int64.lt_irrefl _

theorem Sound.fold (h : s.Sound) (hok : (s.fold p).2 = none) (hch : (s.fold p).1.ChipsNonneg) :
    (s.fold p).1.Sound := by
  obtain ⟨st, hst, he⟩ := fold_ok hok
  obtain ⟨hg, ht, hp⟩ := actor_turn h.seated hst
  let fold : Seat → Seat := fun st => { st with folded := true, inHand := false }
  have hpm : p ∈ s.order := hp ▸ turnSeat_mem ht
  have hc₀ : 0 ≤ st.committed := seatOf_of_get? hg ▸ h.chips.2 p hpm
  rw [he] at hch ⊢
  refine h.settle hst ((seatUpdate_modify (s := s) (p := p) fold s.pot).count _) rfl
    (fun _ he' => absurd he' (by rw [eligible_out (f := fold) rfl fun _ => .inl rfl]; decide))
    (fun hr h0 => by rw [seatOf_modified (f := fold) rfl hg, ← hr.unopened h0 p hpm, seatOf_of_get? hg])
    (fun ho => ?_) hch
  obtain ⟨-, hb⟩ := (Bool.and_eq_true _ _).mp ho
  rw [behind, decide_eq_true_eq, seatOf_of_get? hg] at hb
  show _ ≤ ite _ _ _
  rw [if_pos ⟨Int64.lt_of_le_of_lt hc₀ hb, hb⟩]

theorem Sound.call (h : s.Sound) (hok : (s.call p).2 = none) (hch : (s.call p).1.ChipsNonneg) :
    (s.call p).1.Sound := by
  obtain ⟨st, hst, hcb, he | he⟩ := call_ok hok
  all_goals
    obtain ⟨hg, ht, hp⟩ := actor_turn h.seated hst
    rw [he] at hch ⊢
  · refine h.settle hst ((seatUpdate_pay _).count _) rfl (fun _ _ => ?_) (fun _ h0 => absurd h0 hcb)
      (fun _ => Int.le_refl _) hch
    have hc : ((s.pay p (s.currentBet - st.committed)).seatOf p).committed = s.currentBet := by
      rw [pay_seatOf hg]
      exact add_sub_cancel _ _
    show decide (((s.pay p _).seatOf p).committed < s.currentBet) = false ∧
      ((s.pay p _).seatOf p).committed ≤ s.currentBet
    rw [hc]
    exact ⟨decide_eq_false (Int64.lt_irrefl _), Int64.le_refl _⟩
  · let f : Seat → Seat := fun st' => { st' with stack := 0, allIn := true, committed := st'.committed + st.stack }
    refine h.settle hst ((seatUpdate_modify (s := s) (p := p) f (s.pot + st.stack)).count _) rfl
      (fun _ he' => absurd he' (by rw [eligible_out (f := f) rfl fun _ => .inr rfl]; decide))
      (fun _ h0 => absurd h0 hcb) (fun _ => Int.le_refl _) hch

theorem Sound.raise (h : s.Sound) {add : Int64} (hok : (s.raise p add).2 = none)
    (hch : (s.raise p add).1.ChipsNonneg) : (s.raise p add).1.Sound := by
  obtain ⟨st, hst, hcb, hadd, he | he⟩ := raise_ok hok
  all_goals
    obtain ⟨hg, ht, hp⟩ := actor_turn h.seated hst
    have hpm : p ∈ s.order := hp ▸ turnSeat_mem ht
    have hc₀ : 0 ≤ st.committed := seatOf_of_get? hg ▸ h.chips.2 p hpm
    rw [he] at hch ⊢
  · dsimp only [raiseFull] at hch ⊢
    have hnn := hch.1
    rw [advanceTurn_currentBet] at hnn
    -- the new bet is above the old one: the call part brings `p` to it and the raise goes on top
    have hlt : s.currentBet < (((s.payIf p (s.callNeed st)).pay p add).seatOf p).committed := by
      rw [committed_payIf_pay hg] at hnn ⊢
      unfold callNeed at hnn ⊢
      by_cases hb : st.committed < s.currentBet
      · rw [if_pos hb, if_pos (Int64.sub_pos hc₀ hb), add_sub_cancel] at hnn ⊢
        exact Int64.lt_add h.chips.1 hadd hnn
      · rw [if_neg hb, if_neg (Int64.lt_irrefl _), add_zero] at hnn ⊢
        exact Int64.lt_of_le_of_lt (Int64.le_of_not_lt hb) (Int64.lt_add hc₀ hadd hnn)
    have hu := (seatUpdate_payIf (s := s) (p := p) (s.callNeed st)).trans (seatUpdate_pay add)
    generalize (s.payIf p (s.callNeed st)).pay p add = s₂ at hu hlt hch ⊢
    exact h.reopen hst (hu.reopen _ _ _)
      (fun hr => ⟨fun q hq _ hqe => Int64.lt_of_le_of_lt (hr.capped q hq hqe) hlt,
        Int64.lt_of_le_of_lt h.chips.1 hlt⟩) rfl rfl hch
  · rw [he] at hok
    obtain ⟨s₁, he₁, hu, hb, hel, hdec⟩ := raiseShort_ok hok
    rw [he₁] at hch ⊢
    have hout : s₁.eligible p = false := hel.resolve_right fun hm => hm (mem_of_get? hg)
    refine h.settle hst hu hb (fun _ he' => absurd he' (by rw [hout]; decide)) (fun _ h0 => absurd h0 hcb)
      (fun ho => ?_) hch
    obtain ⟨-, hbh⟩ := (Bool.and_eq_true _ _).mp ho
    rw [behind, decide_eq_true_eq, seatOf_of_get? hg] at hbh
    rw [hdec (by unfold callNeed; rw [if_pos hbh]; exact Int64.sub_pos hc₀ hbh)]

theorem Sound.bet (h : s.Sound) {amt : Int64} (hok : (s.bet p amt).2 = none)
    (hch : (s.bet p amt).1.ChipsNonneg) : (s.bet p amt).1.Sound := by
  obtain ⟨st, hst, hcb, hamt, he⟩ := bet_ok hok
  obtain ⟨hg, ht, hp⟩ := actor_turn h.seated hst
  have hpm : p ∈ s.order := hp ▸ turnSeat_mem ht
  have h0 : s.currentBet = 0 := (Int64.eq_of_le_of_not_lt h.chips.1 hcb).symm
  rw [he] at hch ⊢
  refine h.reopen hst ((seatUpdate_pay amt).reopen _ _ _) (fun hr => ?_)
    (by show ((s.pay p amt).seatOf p).committed = _; rw [pay_seatOf hg]) rfl hch
  -- before the first bet nothing is committed, so the bet is `amt` and everyone else is behind it
  have hz := hr.unopened h0
  have hst0 : st.committed = 0 := seatOf_of_get? hg ▸ hz p hpm
  show (∀ q ∈ s.order, q ≠ p → s.eligible q = true → (s.seatOf q).committed < st.committed + amt) ∧
    0 < st.committed + amt
  rw [hst0, zero_add]
  exact ⟨fun q hq _ _ => hz q hq ▸ hamt, hamt⟩

end Steps

end State
end P2Poker
