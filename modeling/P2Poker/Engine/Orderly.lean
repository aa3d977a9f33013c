import P2Poker.Engine.Betting

/-! Betting rounds over whole runs. Every state of an orderly run (`Engine/Betting.lean`) is `Sound`:
    besides the betting actions, `StartHand` opens the preflop round with the blinds posted,
    `AdvancePhase` opens a street with nothing committed, `ResolveShowdown` ends the hand, and `Sit`
    and `Leave` change the seating between hands. So when `RoundClosed()` holds with two seats or more
    still able to act, every one of them has matched the bet (`roundClosed_all_matched`).

    `ActorsToAct` is a count that the actions decrement and recount, not the set of seats that owe
    action. `owingStep` keeps that set as such: a fold on a street with no bet removes the folder from
    the set but leaves the count as it was, and the two part (`fold_unopened_keeps_count`). -/

namespace P2Poker
namespace State

/-! ### Frames -/

section Frames
variable {s t u : State}

theorem Frame.refl : Frame s s := ⟨Eq.refl _, fun _ => Iff.rfl, Eq.refl _, Eq.refl _⟩

theorem Frame.trans (h₁ : Frame s t) (h₂ : Frame t u) : Frame s u :=
  ⟨h₂.order.trans h₁.order, fun q => (h₂.seats q).trans (h₁.seats q), h₂.smallBlind.trans h₁.smallBlind,
    h₂.bigBlind.trans h₁.bigBlind⟩

theorem Frame.ite {c : Prop} [Decidable c] (h₁ : Frame s t) (h₂ : Frame s u) : Frame s (if c then t else u) := by
  split
  exacts [h₁, h₂]

theorem Frame.seats_of {m : PlayerMap Seat} (hm : ∀ q, q ∈ m ↔ q ∈ s.seats) : Frame s { s with seats := m } :=
  ⟨Eq.refl _, hm, Eq.refl _, Eq.refl _⟩

theorem Frame.cards {t u : State} (h : Frame t u) (d b : List Card) (hs : PlayerMap (List Card)) :
    Frame t { u with deck := d, board := b, holes := hs } :=
  ⟨h.1, h.2, h.3, h.4⟩

theorem RoundInv.cards {t : State} (h : t.RoundInv) (d b : List Card) (hs : PlayerMap (List Card)) :
    { t with deck := d, board := b, holes := hs }.RoundInv :=
  ⟨h.1, h.2, h.3, h.4, h.5⟩

end Frames

/-! ### The steps of a hand -/

section Hands
variable {s t : State} {p q : PlayerID}

theorem dealHoles_eq (pids : List PlayerID) : ∃ h d, (s.dealHoles pids).1 = { s with holes := h, deck := d } := by
  induction pids generalizing s with
  | nil => exact ⟨s.holes, s.deck, rfl⟩
  | cons pid rest ih =>
    dsimp only [dealHoles]
    split
    · split
      exacts [ih, ⟨s.holes, s.deck, rfl⟩]
    · exact ih

theorem startHand_eq (hn : 2 ≤ s.order.length) (r : Rand) : ∃ hs dk,
    (s.startHand r).1 = { { s.resetForHand.postBlinds.openPreflop with
      deck := newDeck r, board := [], holes := .empty } with holes := hs, deck := dk } := by
  unfold State.startHand
  rw [if_neg (by omega)]
  exact dealHoles_eq _

@[simp] theorem resetForHand_order : s.resetForHand.order = s.order := rfl

@[simp] theorem resetForHand_dealerIdx : s.resetForHand.dealerIdx = s.dealerIdx := rfl

@[simp] theorem resetForHand_smallBlind : s.resetForHand.smallBlind = s.smallBlind := rfl

@[simp] theorem resetForHand_bigBlind : s.resetForHand.bigBlind = s.bigBlind := rfl

theorem postBlind_eta (amt : Int64) :
    s.postBlind p amt = { s with seats := (s.postBlind p amt).seats, pot := (s.postBlind p amt).pot } := by
  dsimp only [postBlind]
  split_ifs <;> rfl

@[simp] theorem postBlind_dealerIdx (amt : Int64) : (s.postBlind p amt).dealerIdx = s.dealerIdx := by
  rw [postBlind_eta]

@[simp] theorem postBlind_bigBlind (amt : Int64) : (s.postBlind p amt).bigBlind = s.bigBlind := by
  rw [postBlind_eta]

@[simp] theorem postBlind_smallBlind (amt : Int64) : (s.postBlind p amt).smallBlind = s.smallBlind := by
  rw [postBlind_eta]

@[simp] theorem postBlind_handActive (amt : Int64) : (s.postBlind p amt).handActive = s.handActive := by
  rw [postBlind_eta]

theorem postBlind_get?_ne (amt : Int64) (hq : q ≠ p) : (s.postBlind p amt).seats.get? q = s.seats.get? q := by
  dsimp only [postBlind]
  split_ifs <;> simp [markAllIn, pay, hq]

theorem postBlind_mem (amt : Int64) : q ∈ (s.postBlind p amt).seats ↔ q ∈ s.seats := by
  dsimp only [postBlind]
  split_ifs <;> simp [markAllIn, pay]

theorem postBlind_eligible (amt : Int64) (h : (s.postBlind p amt).eligible p = true) :
    ((s.postBlind p amt).seatOf p).committed = (s.seatOf p).committed + amt := by
  revert h
  dsimp only [postBlind]
  cases hg : s.seats.get? p <;> split_ifs <;> simp [eligible, seatOf, markAllIn, pay, hg]

theorem postBlinds_eq : s.postBlinds =
    (({ s with dealerIdx := (s.dealerIdx + 1) % s.order.length }).postBlind
      (s.order.getD (((s.dealerIdx + 1) % s.order.length + 1) % s.order.length) "") s.smallBlind).postBlind
      (s.order.getD (((s.dealerIdx + 1) % s.order.length + 2) % s.order.length) "") s.bigBlind := by
  simp only [postBlinds, postBlind_order, postBlind_dealerIdx, postBlind_bigBlind]

@[simp] theorem postBlinds_order : s.postBlinds.order = s.order := by
  simp only [postBlinds_eq, postBlind_order]

@[simp] theorem postBlinds_dealerIdx : s.postBlinds.dealerIdx = (s.dealerIdx + 1) % s.order.length := by
  simp only [postBlinds_eq, postBlind_dealerIdx]

@[simp] theorem postBlinds_smallBlind : s.postBlinds.smallBlind = s.smallBlind := by
  simp only [postBlinds_eq, postBlind_smallBlind]

@[simp] theorem postBlinds_bigBlind : s.postBlinds.bigBlind = s.bigBlind := by
  simp only [postBlinds_eq, postBlind_bigBlind]

theorem mem_postBlinds : q ∈ s.postBlinds.seats ↔ q ∈ s.seats := by
  rw [postBlinds_eq, postBlind_mem, postBlind_mem]

@[simp] theorem openPreflop_order : s.openPreflop.order = s.order := rfl

@[simp] theorem openPreflop_seats : s.openPreflop.seats = s.seats := rfl

@[simp] theorem openPreflop_smallBlind : s.openPreflop.smallBlind = s.smallBlind := rfl

@[simp] theorem openPreflop_bigBlind : s.openPreflop.bigBlind = s.bigBlind := rfl

theorem rotate_blinds {l : List PlayerID} (hn : 2 ≤ l.length) (d : Nat) : ∃ mid,
    l.rotate (((d + 2) % l.length + 1) % l.length) =
      mid ++ [l.getD ((d + 1) % l.length) "", l.getD ((d + 2) % l.length) ""] := by
  have hpos : 0 < l.length := by omega
  obtain ⟨r₁, h₁⟩ := rotate_eq_getD_cons "" (Nat.mod_lt (d + 1) hpos)
  obtain ⟨r₂, h₂⟩ := rotate_eq_getD_cons "" (Nat.mod_lt (d + 2) hpos)
  have e : r₁ ++ [l.getD ((d + 1) % l.length) ""] = l.getD ((d + 2) % l.length) "" :: r₂ := by
    rw [← rotate_succ_of_eq_cons h₁, ← List.rotate_mod, Nat.mod_add_mod, ← h₂]
  have hl : r₁.length + 1 = l.length := by
    have := congrArg List.length h₁
    rwa [List.length_rotate, List.length_cons, eq_comm] at this
  cases r₁ with
  | nil => simp at hl; omega
  | cons y mid =>
    refine ⟨mid, ?_⟩
    rw [List.cons_append, List.cons.injEq] at e
    rw [List.rotate_mod, rotate_succ_of_eq_cons h₂, ← e.2, List.append_assoc]
    rfl

theorem blinds_ne {l : List PlayerID} (hn : 2 ≤ l.length) (hnd : l.Nodup) (d : Nat) :
    l.getD ((d + 1) % l.length) "" ≠ l.getD ((d + 2) % l.length) "" := by
  obtain ⟨mid, hr⟩ := rotate_blinds hn d
  have h : (mid ++ _).Nodup := hr ▸ List.nodup_rotate.mpr hnd
  simpa using (List.nodup_append.mp h).2.1

theorem committed_mapVal_zero {f : Seat → Seat} (hf : ∀ st, (f st).committed = 0)
    (ht : t.seats = s.seats.mapVal f) (q : PlayerID) : (t.seatOf q).committed = 0 := by
  rw [seatOf, ht, PlayerMap.get?_mapVal]
  cases s.seats.get? q
  exacts [rfl, hf _]

theorem resetForHand_postBlinds (hs : ∀ q, q ∈ s.order ↔ q ∈ s.seats) (hn : 2 ≤ s.order.length)
    (hnd : s.order.Nodup) : let b := s.resetForHand.postBlinds
    (∀ q ∈ b.order, q ≠ b.order.getD ((b.dealerIdx + 1) % b.order.length) "" →
      q ≠ b.order.getD ((b.dealerIdx + 2) % b.order.length) "" →
      b.eligible q = true ∧ (b.seatOf q).committed = 0) ∧
    (b.eligible (b.order.getD ((b.dealerIdx + 1) % b.order.length) "") = true →
      (b.seatOf (b.order.getD ((b.dealerIdx + 1) % b.order.length) "")).committed = s.smallBlind) ∧
    (b.eligible (b.order.getD ((b.dealerIdx + 2) % b.order.length) "") = true →
      (b.seatOf (b.order.getD ((b.dealerIdx + 2) % b.order.length) "")).committed = s.bigBlind) := by
  have hr : ∀ q ∈ s.order, s.resetForHand.eligible q = true ∧ (s.resetForHand.seatOf q).committed = 0 := by
    intro q hq
    obtain ⟨st, hg⟩ := exists_get?_of_mem ((hs q).mp hq)
    simp [eligible, seatOf, resetForHand, hg]
  have hz : ∀ q, (s.resetForHand.seatOf q).committed = 0 := committed_mapVal_zero (s := s) (t := s.resetForHand)
    (f := fun st => { st with committed := 0, inHand := true, folded := false, allIn := false }) (fun _ => rfl) rfl
  have hne := blinds_ne hn hnd ((s.dealerIdx + 1) % s.order.length)
  intro b
  simp only [b, postBlinds_order, postBlinds_dealerIdx, resetForHand_order, resetForHand_dealerIdx]
  rw [postBlinds_eq]
  simp only [resetForHand_order, resetForHand_dealerIdx, resetForHand_smallBlind, resetForHand_bigBlind]
  refine ⟨fun q hq h₁ h₂ => ?_, fun he => ?_, fun he => ?_⟩
  · rw [eligible_congr (postBlind_get?_ne _ h₂), seatOf_congr (postBlind_get?_ne _ h₂),
      eligible_congr (postBlind_get?_ne _ h₁), seatOf_congr (postBlind_get?_ne _ h₁)]
    exact hr q hq
  · rw [eligible_congr (postBlind_get?_ne _ hne)] at he
    rw [seatOf_congr (postBlind_get?_ne _ hne), postBlind_eligible _ he]
    exact (hz _).symm ▸ zero_add _
  · rw [postBlind_eligible _ he, seatOf_congr (postBlind_get?_ne _ (Ne.symm hne))]
    exact (hz _).symm ▸ zero_add _

theorem dealBoard_eq (k : Nat) : ∃ d b, s.dealBoard k = { s with deck := d, board := b } := by
  unfold dealBoard
  split
  exacts [⟨_, _, rfl⟩, ⟨s.deck, s.board, rfl⟩]

theorem resetCommittedAndSetTurnFromDealer_eq : ∃ ti n, s.resetCommittedAndSetTurnFromDealer =
    { s with
      seats := s.seats.mapVal fun st => { st with committed := 0 }, turnIdx := ti,
      currentBet := 0, lastRaiseSize := s.bigBlind, actorsToAct := n } := by
  dsimp only [resetCommittedAndSetTurnFromDealer]
  split
  exacts [⟨_, _, rfl⟩, ⟨_, _, rfl⟩]

theorem nextStreet_eq (k : Nat) (ph : Phase) : ∃ d b ti n, s.nextStreet k ph =
    { s with
      deck := d, board := b, seats := s.seats.mapVal fun st => { st with committed := 0 }, turnIdx := ti,
      currentBet := 0, lastRaiseSize := s.bigBlind, actorsToAct := n, phase := ph } := by
  obtain ⟨d, b, hd⟩ := dealBoard_eq (s := s) k
  obtain ⟨ti, n, hr⟩ := resetCommittedAndSetTurnFromDealer_eq (s := s.dealBoard k)
  rw [nextStreet, hr, hd]
  exact ⟨d, b, ti, n, rfl⟩

theorem frame_payEach (ws : List ShowdownWinner) (per : Int64) : Frame s (s.payEach ws per) := by
  induction ws generalizing s with
  | nil => exact .refl
  | cons w ws ih =>
    rw [payEach_cons]
    split
    · exact (Frame.seats_of fun _ => PlayerMap.mem_modify _).trans ih
    · exact ih

theorem frame_foldl_remainderStep (W L : List PlayerID) (acc : State × Int64) :
    Frame acc.1 (L.foldl (remainderStep W) acc).1 := by
  induction L generalizing acc with
  | nil => exact .refl
  | cons pid L ih =>
    refine Frame.trans ?_ (ih _)
    rw [remainderStep]
    split
    exacts [Frame.seats_of fun _ => PlayerMap.mem_modify _, .refl]

theorem frame_payRemainder (W : List PlayerID) (start : Nat) (rem : Int64) :
    Frame s (s.payRemainder W start rem) :=
  frame_foldl_remainderStep W _ (s, rem)

theorem frame_resolveShowdown : Frame s s.resolveShowdown.1 := by
  have hend {t : State} (h : Frame s t) : Frame s { t with pot := 0, handActive := false } := ⟨h.1, h.2, h.3, h.4⟩
  unfold resolveShowdown
  split
  · exact hend .refl
  · exact hend (Frame.ite ((frame_payEach _ _).trans (frame_payRemainder _ _ _)) (frame_payEach _ _))

end Hands

/-! ### Opening a round -/

section Open
variable {t : State}

theorem RoundInv.of_blinds {mid : List PlayerID} {sb bb : PlayerID} (ht : t.turnIdx < t.order.length)
    (hr : t.order.rotate t.turnIdx = mid ++ [sb, bb])
    (hmid : ∀ q ∈ mid, t.eligible q = true ∧ (t.seatOf q).committed = 0)
    (hsb : t.eligible sb = true → (t.seatOf sb).committed ≤ t.currentBet)
    (hbb : t.eligible bb = true → (t.seatOf bb).committed = t.currentBet)
    (hpos : 0 < t.currentBet) (hcnt : t.actorsToAct = t.countNeedToAct) : t.RoundInv := by
  have hne : t.currentBet ≠ 0 := fun e => Int64.lt_irrefl _ (e ▸ hpos)
  have hmem : ∀ q, q ∈ t.order ↔ q ∈ mid ++ [sb, bb] := fun q => by rw [← hr, List.mem_rotate]
  have hbeh : ∀ q ∈ mid, t.behind q = true := fun q hq => by
    simp only [behind, (hmid q hq).2, decide_eq_true_eq, hpos]
  have hbb' : t.eligible bb = true → t.behind bb = false := fun he => by
    simp only [behind, hbb he, Int64.lt_irrefl, decide_False]
  constructor
  · intro q hq he
    rcases List.mem_append.mp ((hmem q).mp hq) with hq | hq
    · rw [(hmid q hq).2]
      exact Int64.le_of_lt hpos
    · simp only [List.mem_cons, List.mem_singleton, List.not_mem_nil, or_false] at hq
      rcases hq with rfl | rfl
      · exact hsb he
      · exact hbb he ▸ Int64.le_refl _
  · exact fun h0 => absurd h0 hne
  · rw [queue, hr, List.filter_append, List.filter_eq_self.mpr fun q hq => (hmid q hq).1]
    refine List.pairwise_append.mpr ⟨(List.pairwise_of_forall fun _ _ => trivial).imp_of_mem
      fun ha _ _ _ => hbeh _ ha, ?_, fun a ha _ _ _ => hbeh a ha⟩
    cases he₁ : t.eligible sb <;> cases he₂ : t.eligible bb <;> simp [he₁, he₂, hbb']
  · intro hpos'
    obtain ⟨rest, hr'⟩ := rotate_eq_getD_cons "" ht
    rw [hr] at hr'
    cases mid with
    | cons x mid =>
      have hts : t.turnSeat = x := ((List.cons.inj hr').1).symm
      exact hts ▸ (hmid x (List.mem_cons_self _ _)).1
    | nil =>
      have hts : t.turnSeat = sb := ((List.cons.inj hr').1).symm
      obtain ⟨q, hq, hqo⟩ := List.countP_pos_iff.mp hpos'
      obtain ⟨hqe, hqb⟩ := (Bool.and_eq_true _ _).mp hqo
      simp only [hmem, List.nil_append, List.mem_cons, List.mem_singleton, List.not_mem_nil, or_false] at hq
      rcases hq with rfl | rfl
      · exact hts ▸ hqe
      · exact absurd hqb (by rw [hbb' hqe]; decide)
  · exact fun _ => by rw [hcnt, countNeedToAct_eq hne]

theorem RoundInv.of_reset (hcb : t.currentBet = 0) (hc : ∀ q, (t.seatOf q).committed = 0) : t.RoundInv := by
  have hb : ∀ q, t.behind q = false := fun q => by simp only [behind, hc, hcb, Int64.lt_irrefl, decide_False]
  have h0 : t.owingCount = 0 := List.countP_eq_zero.mpr fun q _ => by simp [owes, hb]
  refine ⟨fun q _ _ => by rw [hc, hcb]; exact Int64.le_refl _, fun _ q _ => hc q,
    List.pairwise_of_forall fun a b hb' => absurd hb' (by rw [hb]; decide), ?_, ?_⟩ <;>
  · intro hp
    omega

theorem RoundInv.openPreflop {b : State} (hn : 2 ≤ b.order.length) (hnd : b.order.Nodup)
    (hmid : ∀ q ∈ b.order, q ≠ b.order.getD ((b.dealerIdx + 1) % b.order.length) "" →
      q ≠ b.order.getD ((b.dealerIdx + 2) % b.order.length) "" →
      b.eligible q = true ∧ (b.seatOf q).committed = 0)
    (hsb : b.eligible (b.order.getD ((b.dealerIdx + 1) % b.order.length) "") = true →
      (b.seatOf (b.order.getD ((b.dealerIdx + 1) % b.order.length) "")).committed ≤ b.bigBlind)
    (hbb : b.eligible (b.order.getD ((b.dealerIdx + 2) % b.order.length) "") = true →
      (b.seatOf (b.order.getD ((b.dealerIdx + 2) % b.order.length) "")).committed = b.bigBlind)
    (hpos : 0 < b.bigBlind) : b.openPreflop.RoundInv := by
  obtain ⟨mid, hr⟩ := rotate_blinds hn b.dealerIdx
  have hnd' : (mid ++ _).Nodup := hr ▸ List.nodup_rotate.mpr hnd
  have hdis := (List.nodup_append.mp hnd').2.2
  refine RoundInv.of_blinds (t := b.openPreflop) (Nat.mod_lt _ (by omega)) hr
    (fun q hq => hmid q ?_ (fun e => hdis hq (e ▸ List.mem_cons_self _ _))
      (fun e => hdis hq (e ▸ List.mem_cons_of_mem _ (List.mem_singleton_self _)))) hsb hbb hpos rfl
  rw [← List.mem_rotate (n := ((b.dealerIdx + 2) % b.order.length + 1) % b.order.length), hr]
  exact List.mem_append_left _ hq

end Open

/-! ### Each operation keeps `Sound` -/

section Steps
variable {s : State}

theorem Sound.startHand (h : s.Sound) (r : Rand) (hok : (s.startHand r).2 = none)
    (hch : (s.startHand r).1.ChipsNonneg) : (s.startHand r).1.Sound := by
  have hn : 2 ≤ s.order.length := by
    by_contra hlt
    rw [State.startHand, if_pos (by omega)] at hok
    cases hok
  have ht := turnInRange_startHand h.turn r
  obtain ⟨hs, dk, he⟩ := startHand_eq hn r
  rw [he] at hch ht ⊢
  have ho : s.resetForHand.postBlinds.order = s.order := by simp
  obtain ⟨hmid, hsb, hbb⟩ := resetForHand_postBlinds h.seated hn h.nodup
  have hr := RoundInv.openPreflop (b := s.resetForHand.postBlinds) (by rw [ho]; exact hn)
    (by rw [ho]; exact h.nodup) hmid (fun he => (hsb he).trans_le (by simpa using h.blinds.2))
    (fun he => by simpa using hbb he) (by simpa using h.blinds.1)
  have hf : Frame s s.resetForHand.postBlinds.openPreflop := by
    refine ⟨openPreflop_order.trans ho, fun q => ?_, ?_, ?_⟩ <;>
      simp only [openPreflop_seats, mem_postBlinds, openPreflop_smallBlind, postBlinds_smallBlind,
        openPreflop_bigBlind, postBlinds_bigBlind, resetForHand_smallBlind, resetForHand_bigBlind]
    exact PlayerMap.mem_mapVal _
  exact h.next ((hf.cards _ _ _).cards _ _ _) ht hch fun _ => (hr.cards _ _ _).cards _ _ _

theorem Sound.advancePhase (h : s.Sound) (hch : s.advancePhase.ChipsNonneg) : s.advancePhase.Sound := by
  have ht := turnInRange_advancePhase h.turn
  have street (k : Nat) (ph : Phase) (ht : (s.nextStreet k ph).TurnInRange)
      (hch : (s.nextStreet k ph).ChipsNonneg) : (s.nextStreet k ph).Sound := by
    obtain ⟨d, b, ti, n, he⟩ := nextStreet_eq (s := s) k ph
    rw [he] at ht hch ⊢
    exact h.next ⟨rfl, fun _ => PlayerMap.mem_mapVal _, rfl, rfl⟩ ht hch fun _ => RoundInv.of_reset rfl
      (committed_mapVal_zero (s := s) (f := fun st => { st with committed := 0 }) (fun _ => rfl) rfl)
  cases hph : s.phase <;> simp only [State.advancePhase, hph] at ht hch ⊢
  iterate 3 exact street _ _ ht hch
  · exact h.next ⟨rfl, fun _ => Iff.rfl, rfl, rfl⟩ ht hch fun ha => absurd ha Bool.false_ne_true
  · exact h

theorem Sound.resolveShowdown (h : s.Sound) (hch : s.resolveShowdown.1.ChipsNonneg) : s.resolveShowdown.1.Sound :=
  h.next frame_resolveShowdown (turnInRange_resolveShowdown h.turn) hch fun ha =>
    absurd (ha ▸ (resolveShowdown_handActive s).symm) Bool.false_ne_true

theorem Sound.sit (h : s.Sound) {p : PlayerID} {buyin : Int64} (hok : (s.sit p buyin).2 = none)
    (hh : s.handActive = false) (hch : (s.sit p buyin).1.ChipsNonneg) : (s.sit p buyin).1.Sound := by
  have ht := turnInRange_sit h.turn (p := p) buyin
  by_cases hp : p ∈ s.seats
  · rw [State.sit, if_pos hp] at hok
    cases hok
  · rw [State.sit, if_neg hp] at ht hch ⊢
    have hperm := List.perm_insertionSort (fun a b => !idLt b a) (s.order ++ [p])
    refine ⟨hperm.nodup_iff.mpr (List.nodup_append.mpr ⟨h.nodup, List.nodup_singleton p, ?_⟩), fun q => ?_, ht,
      h.blinds, hch, fun ha => absurd (hh ▸ ha) Bool.false_ne_true⟩
    · exact fun q hq hq' => hp ((List.mem_singleton.mp hq') ▸ (h.seated q).mp hq)
    · show q ∈ sortOrder (s.order ++ [p]) ↔ _
      rw [sortOrder, hperm.mem_iff, PlayerMap.mem_set, List.mem_append, List.mem_singleton, h.seated, or_comm]

theorem Sound.leave (h : s.Sound) (p : PlayerID) (hh : s.handActive = false) (hch : (s.leave p).ChipsNonneg) :
    (s.leave p).Sound := by
  refine ⟨h.nodup.filter _, fun q => ?_, turnInRange_leave, h.blinds, hch,
    fun ha => absurd (hh ▸ ha) Bool.false_ne_true⟩
  show q ∈ s.order.filter (· ≠ p) ↔ q ∈ s.seats.erase p
  rw [List.mem_filter, PlayerMap.mem_erase, h.seated, decide_eq_true_iff, and_comm]

end Steps

/-- Every orderly step keeps `Sound`. -/
theorem Sound.exec {s : State} (h : s.Sound) : ∀ {op : Op}, s.Orderly op → (s.exec op).1.Sound
  | .sit _ _, ⟨hok, hh, hch⟩ => h.sit hok (hh rfl) hch
  | .leave p, ⟨_, hh, hch⟩ => h.leave p (hh rfl) hch
  | .startHand r, ⟨hok, _, hch⟩ => h.startHand r hok hch
  | .bet _ _, ⟨hok, _, hch⟩ => h.bet hok hch
  | .check _, ⟨hok, _, hch⟩ => h.check hok hch
  | .call _, ⟨hok, _, hch⟩ => h.call hok hch
  | .raise _ _, ⟨hok, _, hch⟩ => h.raise hok hch
  | .fold _, ⟨hok, _, hch⟩ => h.fold hok hch
  | .advancePhase, ⟨_, _, hch⟩ => h.advancePhase hch
  | .resolveShowdown, ⟨_, _, hch⟩ => h.resolveShowdown hch

theorem sound_newState {sb bb : Int64} (hbb : 0 < bb) (hsb : sb ≤ bb) : (newState sb bb).Sound :=
  ⟨List.nodup_nil,
    fun q => ⟨fun hq => absurd hq (List.not_mem_nil q),
      fun hq => absurd (PlayerMap.mem_iff_get?.mp hq) Bool.false_ne_true⟩,
    .inr ⟨rfl, rfl⟩, ⟨hbb, hsb⟩, ⟨Int64.le_refl 0, fun q hq => absurd hq (List.not_mem_nil q)⟩,
    fun ha => absurd ha Bool.false_ne_true⟩

/-- Every state of an orderly run is `Sound`. -/
theorem sound_of_orderlyReachable {s : State} (hs : OrderlyReachable s) : s.Sound := by
  induction hs with
  | init sb bb hbb hsb => exact sound_newState hbb hsb
  | step op _ ho ih => exact ih.exec ho

/-! ### Runs -/

/-- Every step of the run is orderly. -/
def OrderlyRun (s : State) : List Op → Prop
  | [] => True
  | op :: ops => s.Orderly op ∧ (s.exec op).1.OrderlyRun ops

instance decOrderlyRun : (s : State) → (ops : List Op) → Decidable (s.OrderlyRun ops)
  | _, [] => isTrue trivial
  | s, op :: ops =>
    haveI := decOrderlyRun (s.exec op).1 ops
    inferInstanceAs (Decidable (_ ∧ _))

end State

theorem OrderlyReachable.run {s : State} (hs : OrderlyReachable s) {ops : List Op} (h : s.OrderlyRun ops) :
    OrderlyReachable (s.run ops) := by
  induction ops generalizing s with
  | nil => exact hs
  | cons op ops ih => exact ih (hs.step op h.1) h.2

namespace State

theorem roundClosed_iff {s : State} : s.roundClosed = true ↔
    s.handActive = true ∧ (s.actorsToAct ≤ 0 ∨ s.order.countP s.eligible ≤ 1) := by
  unfold roundClosed
  cases s.handActive <;> simp

/-- With no actor left, every eligible seat matches the bet: none is behind, none is past it. -/
theorem RoundInv.matched {s : State} (h : s.RoundInv) (ha : s.actorsToAct ≤ 0) {q : PlayerID} (hq : q ∈ s.order)
    (he : s.eligible q = true) : (s.seatOf q).committed = s.currentBet := by
  have h0 : s.owingCount = 0 := Nat.eq_zero_of_not_pos fun hpos => by
    have := h.counted hpos
    omega
  have hb : s.behind q = false := by
    simpa [owes, he] using List.countP_eq_zero.mp h0 q hq
  exact Int64.eq_of_le_of_not_lt (h.capped q hq he) (by simpa [behind] using hb)

/-- In an orderly run, a round that closes with two seats or more still able to act has every one of
    them matching the bet: no round closes while an eligible seat is behind it. -/
theorem roundClosed_all_matched {s : State} (hs : OrderlyReachable s) (hc : s.roundClosed = true)
    (h2 : 1 < s.order.countP s.eligible) :
    ∀ q ∈ s.order, s.eligible q = true → (s.seatOf q).committed = s.currentBet := by
  obtain ⟨ha, hc⟩ := roundClosed_iff.mp hc
  exact fun q hq he => ((sound_of_orderlyReachable hs).round ha).matched (hc.resolve_right (by omega)) hq he

/-- Heads-up, `A` on the button posts the small blind and calls: the preflop round closes with both
    seats at the big blind. -/
theorem roundClosed_all_matched_headsUp :
    let s := (newState 5 10).run [.sit "A" 1000, .sit "B" 1000, .startHand ⟨fun _ _ => 0, fun _ _ h => h⟩,
      .call "A"]
    s.roundClosed = true ∧ 1 < s.order.countP s.eligible ∧
      ∀ q ∈ s.order, s.eligible q = true → (s.seatOf q).committed = s.currentBet :=
  ⟨by decide, by decide,
    roundClosed_all_matched ((OrderlyReachable.init 5 10 (by decide) (by decide)).run (by decide)) (by decide)
      (by decide)⟩

/-- While a hand is on in an orderly run, no seat that can still act has put in more than the bet. -/
theorem committed_le_currentBet {s : State} (hs : OrderlyReachable s) (ha : s.handActive = true) :
    ∀ q ∈ s.order, s.eligible q = true → (s.seatOf q).committed ≤ s.currentBet :=
  ((sound_of_orderlyReachable hs).round ha).capped

/-- After the blinds of a heads-up hand: the small blind is behind, the big blind at the bet. -/
theorem committed_le_currentBet_blinds :
    let s := (newState 5 10).run [.sit "A" 1000, .sit "B" 1000, .startHand ⟨fun _ _ => 0, fun _ _ h => h⟩]
    s.handActive = true ∧ ∀ q ∈ s.order, s.eligible q = true → (s.seatOf q).committed ≤ s.currentBet :=
  ⟨by decide, committed_le_currentBet ((OrderlyReachable.init 5 10 (by decide) (by decide)).run (by decide))
    (by decide)⟩

theorem currentPlayer_eq_turnSeat {s : State} (ht : s.turnIdx < s.order.length) :
    s.currentPlayer = some s.turnSeat := by
  unfold currentPlayer turnSeat
  rw [if_neg (by omega), List.getD_eq_getElem?_getD, List.getElem?_eq_getElem ht]
  rfl

/-- While a hand is on in an orderly run and some seat that can act is behind the bet, the turn is on
    a seat that can act: the hand never waits on a folded or all-in seat while a bet is unanswered. -/
theorem currentPlayer_eligible_of_behind {s : State} (hs : OrderlyReachable s) (ha : s.handActive = true)
    {q : PlayerID} (hq : q ∈ s.order) (he : s.eligible q = true) (hb : (s.seatOf q).committed < s.currentBet) :
    ∃ p, s.currentPlayer = some p ∧ s.eligible p = true := by
  have h := sound_of_orderlyReachable hs
  have hpos : 0 < s.owingCount :=
    List.countP_pos_iff.mpr ⟨q, hq, by simp only [owes, he, behind, hb, decide_True, Bool.and_self]⟩
  have ht : s.turnIdx < s.order.length := h.turn.resolve_right fun h' => by simp [h'.1] at hq
  exact ⟨s.turnSeat, currentPlayer_eq_turnSeat ht, (h.round ha).onTurn hpos⟩

/-- After the blinds of a heads-up hand the small blind `A` is behind, and the turn is on `A`. -/
theorem currentPlayer_eligible_of_behind_blinds :
    let s := (newState 5 10).run [.sit "A" 1000, .sit "B" 1000, .startHand ⟨fun _ _ => 0, fun _ _ h => h⟩]
    s.handActive = true ∧ "A" ∈ s.order ∧ s.eligible "A" = true ∧ (s.seatOf "A").committed < s.currentBet ∧
      ∃ p, s.currentPlayer = some p ∧ s.eligible p = true :=
  ⟨by decide, by decide, by decide, by decide,
    currentPlayer_eligible_of_behind ((OrderlyReachable.init 5 10 (by decide) (by decide)).run (by decide))
      (by decide) (q := "A") (by decide) (by decide) (by decide)⟩

/-! ### The seats that owe action, kept as a set -/

/-- The seats that owe action on the street, kept as a set: `StartHand`, a `Bet` and a full `Raise`
    set it to the eligible seats behind the bet, `AdvancePhase` into the flop, the turn or the river
    to every eligible seat, and a `Check`, `Call`, `Fold` or short all-in `Raise` of `p`, or
    `Leave(p)`, removes `p`. An operation that fails leaves it as it was. -/
def owingStep (s : State) (P : List PlayerID) (op : Op) : List PlayerID :=
  let t := (s.exec op).1
  if (s.exec op).2.isSome then P
  else match op with
    | .startHand _ | .bet _ _ => t.order.filter t.owes
    | .raise p _ => if t.currentBet = s.currentBet then P.erase p else t.order.filter t.owes
    | .advancePhase =>
      match s.phase with
      | .preflop | .flop | .turn => t.order.filter t.eligible
      | .river | .showdown => P
    | .check p | .call p | .fold p | .leave p => P.erase p
    | .sit _ _ | .resolveShowdown => P

/-- A run that keeps the owing set beside the state. -/
def runOwing (s : State) (P : List PlayerID) : List Op → State × List PlayerID
  | [] => (s, P)
  | op :: ops => (s.exec op).1.runOwing (s.owingStep P op) ops

theorem runOwing_fst (s : State) (P : List PlayerID) (ops : List Op) : (s.runOwing P ops).1 = s.run ops := by
  induction ops generalizing s P with
  | nil => rfl
  | cons op ops ih => exact ih _ _

/-- Three seats, the button on `B`: `B` and `C` call the big blind and the flop opens with all three
    to act. `C` folds on the unbet flop, which leaves `ActorsToAct` as it was, then `A` and `B` check:
    in an orderly run, no seat owes action any more, yet `ActorsToAct` is one and the round stays
    open. -/
theorem fold_unopened_keeps_count : ∃ r : Rand,
    let ops := [.sit "A" 1000, .sit "B" 1000, .sit "C" 1000, .startHand r, .call "B", .call "C", .advancePhase,
      .fold "C", .check "A", .check "B"]
    let x := (newState 5 10).runOwing [] ops
    (newState 5 10).OrderlyRun ops ∧ x.1.handActive = true ∧ x.2 = [] ∧ x.1.actorsToAct = 1 ∧
      x.1.roundClosed = false :=
  ⟨⟨fun _ _ => 0, fun _ _ h => h⟩, by decide, by decide, by decide, by decide, by decide⟩

end State
end P2Poker
