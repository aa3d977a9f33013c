import P2Poker.Engine.SeatOrder

/-! # No card is dealt twice

`NewDeck` builds the 52 cards and shuffles them with a Fisher-Yates loop of swaps, so it returns a
permutation of them for every generator (`newDeck_perm`). `StartHand` replaces the deck by a new one
and empties the board and the hole cards before it deals two cards to each seat of the order, and
`AdvancePhase` moves cards from the deck to the board: both only move cards, as long as no seat is
dealt twice, which the seat order rules out (`Engine/SeatOrder.lean`). `Leave` drops a hand, and the
other operations are moves of chips (`ChipMove`) that do not touch the cards.

So in every reachable state the cards of the deck, the board and the hands are distinct cards of
the 52 (`DealtOnce`), and right after a successful `StartHand` they are all 52. The board holds at
most as many cards as the street has dealt (`Phase.boardCap`). -/

namespace P2Poker

/-! ### The shuffle -/

namespace Card

/-- A card `NewDeck` makes: rank two to ace (2..14), suit clubs to spades (0..3). -/
def Valid (c : Card) : Prop := 2 ≤ c.rank.toNat ∧ c.rank.toNat ≤ 14 ∧ c.suit.toNat ≤ 3

instance : DecidablePred Valid := fun _ => inferInstanceAs (Decidable (_ ∧ _ ∧ _))

end Card

section Shuffle

theorem swap_perm {l : List Card} {i j : Nat} (hi : i < l.length) (hj : j < l.length) : (swap l i j).Perm l := by
  rw [List.perm_iff_count]
  intro c
  have hj' : j < (l.set i l[j]).length := by simpa using hj
  have hget : (l.set i l[j])[j] = l[j] := by
    rw [List.getElem_set]
    split <;> simp_all
  have h₁ := List.count_set l[j] c l i hi
  have h₂ := List.count_set l[i] c (l.set i l[j]) j hj'
  have hle : (if l[i] == c then 1 else 0) ≤ l.count c := by
    rw [List.count_eq_countP]
    exact List.boole_getElem_le_countP (· == c) l i hi
  simp only [swap, List.getD_eq_getElem _ _ hi, List.getD_eq_getElem _ _ hj, h₂, hget, h₁]
  omega

theorem fisherYates_perm (r : Rand) (n : Nat) : ∀ (i : Nat) (l : List Card), i < l.length → (fisherYates r n i l).Perm l
  | 0, _, _ => List.Perm.refl _
  | i + 1, l, hi => by
    have hj := r.intn_lt (n - 1 - (i + 1)) (i + 2) (by omega)
    have hs := swap_perm (l := l) hi (by omega : r.intn (n - 1 - (i + 1)) (i + 2) < l.length)
    exact (fisherYates_perm r n i _ (by rw [hs.length_eq]; omega)).trans hs

theorem newDeck_perm (r : Rand) : (newDeck r).Perm freshDeck :=
  fisherYates_perm r _ _ _ (by decide)

theorem length_freshDeck : freshDeck.length = 52 := rfl

theorem toNat_toUInt8 {n : Nat} (h : n < 256) : n.toUInt8.toNat = n := UInt8.toNat_ofNat_of_lt h

theorem nodup_freshDeck : freshDeck.Nodup := by
  have hinj {m n : Nat} (hm : m < 256) (hn : n < 256) (h : m.toUInt8 = n.toUInt8) : m = n := by
    rw [← toNat_toUInt8 hm, ← toNat_toUInt8 hn, h]
  refine List.nodup_flatMap.mpr ⟨fun _ _ => (List.nodup_range 13).map_on fun r hr r' hr' h => ?_,
    (List.nodup_range 4).imp_of_mem fun hs hs' hne => List.disjoint_left.mpr fun c hc hc' => ?_⟩
  · rw [List.mem_range] at hr hr'
    exact Nat.add_right_cancel (hinj (by omega) (by omega) (Card.mk.inj h).1)
  · rw [List.mem_range] at hs hs'
    rw [List.mem_map] at hc hc'
    obtain ⟨r, -, rfl⟩ := hc
    obtain ⟨r', -, h⟩ := hc'
    exact hne (hinj (by omega) (by omega) (Card.mk.inj h).2).symm

theorem mem_freshDeck {c : Card} : c ∈ freshDeck ↔ c.Valid := by
  simp only [freshDeck, List.mem_flatMap, List.mem_map, List.mem_range]
  constructor
  · rintro ⟨s, hs, r, hr, rfl⟩
    simp only [Card.Valid, toNat_toUInt8 (by omega : r + 2 < 256), toNat_toUInt8 (by omega : s < 256)]
    omega
  · rintro ⟨h₁, h₂, h₃⟩
    refine ⟨c.suit.toNat, by omega, c.rank.toNat - 2, by omega, ?_⟩
    rw [Card.mk.injEq]
    exact ⟨UInt8.toNat.inj (by rw [toNat_toUInt8 (by omega)]; omega), UInt8.toNat.inj (toNat_toUInt8 (by omega))⟩

end Shuffle

/-! ### The cards of a state -/

theorem PlayerMap.entries_set_of_not_mem {β : Type} {m : PlayerMap β} {p : PlayerID} (h : p ∉ m) (v : β) :
    (m.set p v).entries = m.entries ++ [(p, v)] := by
  unfold PlayerMap.set
  rw [dif_neg h]

/-- The most cards the board holds on a street: none before the flop, three on the flop, one more
    on the turn and on the river. -/
def Phase.boardCap : Phase → Nat
  | .preflop => 0
  | .flop => 3
  | .turn => 4
  | .river | .showdown => 5

theorem Phase.boardCap_le (ph : Phase) : ph.boardCap ≤ 5 := by cases ph <;> decide

namespace State

/-- The cards of the deck, the board and the hole cards. -/
def cards (s : State) : List Card := s.deck ++ s.board ++ s.holes.entries.flatMap Prod.snd

/-- The cards are dealt once: all distinct and valid, and the board within its street's count. -/
structure DealtOnce (s : State) : Prop where
  nodup : s.cards.Nodup
  valid : ∀ c ∈ s.cards, c.Valid
  board : s.board.length ≤ s.phase.boardCap

section Moves
variable {s t : State}

theorem DealtOnce.perm (h : s.DealtOnce) (hp : t.cards.Perm s.cards) (hb : t.board.length ≤ t.phase.boardCap) :
    t.DealtOnce :=
  ⟨hp.nodup_iff.mpr h.nodup, fun c hc => h.valid c (hp.subset hc), hb⟩

theorem DealtOnce.chipMove (h : s.DealtOnce) (hm : ChipMove s t) : t.DealtOnce := by
  have hc : t.cards = s.cards := by rw [cards, cards, hm.deck, hm.board, hm.holes]
  exact h.perm (hc ▸ List.Perm.refl _) (by rw [hm.board, hm.phase]; exact h.board)

theorem cards_sit (p : PlayerID) (buyin : Int64) : (s.sit p buyin).1.cards = s.cards := by
  unfold sit
  split <;> rfl

theorem flatMap_filter_sublist {α β : Type} (q : α → Bool) (f : α → List β) :
    ∀ l : List α, ((l.filter q).flatMap f).Sublist (l.flatMap f)
  | [] => List.Sublist.slnil
  | a :: l => by
    rw [List.filter_cons]
    split
    · exact (flatMap_filter_sublist q f l).append_left (f a)
    · exact (flatMap_filter_sublist q f l).trans (List.sublist_append_right _ _)

theorem cards_leave_sublist (p : PlayerID) : (s.leave p).cards.Sublist s.cards :=
  (flatMap_filter_sublist _ Prod.snd s.holes.entries).append_left (s.deck ++ s.board)

theorem DealtOnce.sit (h : s.DealtOnce) (p : PlayerID) (buyin : Int64) : (s.sit p buyin).1.DealtOnce := by
  unfold State.sit
  split
  exacts [h, ⟨h.nodup, h.valid, h.board⟩]

theorem DealtOnce.leave (h : s.DealtOnce) (p : PlayerID) : (s.leave p).DealtOnce :=
  have hs := cards_leave_sublist (s := s) p
  ⟨h.nodup.sublist hs, fun c hc => h.valid c (hs.subset hc), h.board⟩

end Moves

/-! ### Streets -/

section Streets
variable {s : State}

theorem cards_dealBoard_perm (k : Nat) : (s.dealBoard k).cards.Perm s.cards := by
  unfold dealBoard
  split
  · simp only [cards]
    refine List.Perm.append_right _ ?_
    rw [← List.append_assoc]
    refine List.perm_append_comm.trans ?_
    rw [← List.append_assoc, List.take_append_drop]
  · exact List.Perm.refl _

theorem length_board_dealBoard_le (k : Nat) : (s.dealBoard k).board.length ≤ s.board.length + k := by
  unfold dealBoard
  split
  · simp only [List.length_append, List.length_take]
    omega
  · omega

theorem nextStreet_cards (k : Nat) (ph : Phase) :
    (s.nextStreet k ph).cards = (s.dealBoard k).cards ∧ (s.nextStreet k ph).board = (s.dealBoard k).board ∧
      (s.nextStreet k ph).phase = ph := by
  obtain ⟨ti, n, he⟩ := resetCommittedAndSetTurnFromDealer_eq (s := s.dealBoard k)
  rw [nextStreet, he]
  exact ⟨rfl, rfl, rfl⟩

theorem DealtOnce.nextStreet (h : s.DealtOnce) {k : Nat} {ph : Phase} (hk : s.board.length + k ≤ ph.boardCap) :
    (s.nextStreet k ph).DealtOnce := by
  obtain ⟨hc, hb, hp⟩ := nextStreet_cards (s := s) k ph
  refine h.perm (hc ▸ cards_dealBoard_perm k) ?_
  rw [hb, hp]
  exact (length_board_dealBoard_le k).trans hk

theorem DealtOnce.advancePhase (h : s.DealtOnce) : s.advancePhase.DealtOnce := by
  have hb := h.board
  cases hph : s.phase <;> rw [hph] at hb <;> simp only [State.advancePhase, hph]
  iterate 3 exact h.nextStreet (by simp only [Phase.boardCap] at hb ⊢; omega)
  exacts [⟨h.nodup, h.valid, hb⟩, h]

end Streets

/-! ### A new hand -/

section Hands
variable {s : State}

theorem cards_dealHoles_perm : ∀ {s : State} {pids : List PlayerID}, pids.Nodup → (∀ q ∈ pids, q ∉ s.holes) →
    (s.dealHoles pids).1.cards.Perm s.cards
  | _, [], _, _ => List.Perm.refl _
  | s, pid :: rest, hn, hd => by
    have hrest (t : State) (ht : ∀ q ∈ rest, q ∉ t.holes) : (t.dealHoles rest).1.cards.Perm t.cards :=
      cards_dealHoles_perm (List.nodup_cons.mp hn).2 ht
    dsimp only [dealHoles]
    split
    · split
      · rename_i c₁ c₂ deck hdeck
        have hpid := hd pid (List.mem_cons_self _ _)
        refine (hrest _ fun q hq => ?_).trans ?_
        · rw [PlayerMap.mem_set, not_or]
          exact ⟨fun hq' => (List.nodup_cons.mp hn).1 (hq' ▸ hq), hd q (List.mem_cons_of_mem _ hq)⟩
        · have hc := @List.perm_append_comm _ (deck ++ s.board ++ s.holes.entries.flatMap Prod.snd) [c₁, c₂]
          simpa [cards, hdeck, PlayerMap.entries_set_of_not_mem hpid] using hc
      · exact List.Perm.refl _
    · exact hrest s fun q hq => hd q (List.mem_cons_of_mem _ hq)

theorem cards_startHand_perm (hnd : s.order.Nodup) (hn : ¬s.order.length < 2) (r : Rand) :
    (s.startHand r).1.cards.Perm freshDeck := by
  rw [startHand, if_neg hn]
  refine (cards_dealHoles_perm (by simpa using hnd) fun q _ hq => ?_).trans ?_
  · exact absurd (PlayerMap.mem_iff_get?.mp hq) (by simp)
  · simpa [cards, PlayerMap.empty] using newDeck_perm r

theorem DealtOnce.startHand (h : s.DealtOnce) (hs : s.SeatOrder) (r : Rand) : (s.startHand r).1.DealtOnce := by
  by_cases hn : s.order.length < 2
  · rw [State.startHand, if_pos hn]
    exact h
  · have hp := cards_startHand_perm hs.nodup hn r
    refine ⟨hp.nodup_iff.mpr nodup_freshDeck, fun c hc => mem_freshDeck.mp (hp.subset hc), ?_⟩
    obtain ⟨hh, dk, he⟩ := startHand_eq (s := s) (by omega) r
    rw [he]
    exact Nat.le_refl 0

end Hands

/-! ### Runs -/

theorem dealtOnce_newState (sb bb : Int64) : (newState sb bb).DealtOnce :=
  ⟨List.nodup_nil, fun _ hc => absurd hc (List.not_mem_nil _), Nat.le_refl 0⟩

/-- Every operation keeps the cards dealt once, from a state whose seat order is sound. -/
theorem DealtOnce.exec {s : State} (h : s.DealtOnce) (hs : s.SeatOrder) : ∀ op : Op, (s.exec op).1.DealtOnce
  | .sit p buyin => h.sit p buyin
  | .leave p => h.leave p
  | .startHand r => h.startHand hs r
  | .bet _ _ => h.chipMove (chipMove_bet _)
  | .check _ => h.chipMove chipMove_check
  | .call _ => h.chipMove chipMove_call
  | .raise _ _ => h.chipMove (chipMove_raise _)
  | .fold _ => h.chipMove chipMove_fold
  | .advancePhase => h.advancePhase
  | .resolveShowdown => h.chipMove chipMove_resolveShowdown

theorem DealtOnce.of_reachable {s : State} (h : Reachable s) : s.DealtOnce := by
  induction h with
  | init sb bb => exact dealtOnce_newState sb bb
  | step op hr ih => exact ih.exec (SeatOrder.of_restorable hr.restorable) op

end State

/-- In every reachable state the cards of the deck, the board and the hands are distinct valid cards
    and the board holds at most five; after a successful `StartHand` they are the 52 cards, which
    `NewDeck` returns in some order for every generator. -/
theorem cards_dealt_once {s : State} (hs : Reachable s) (r : Rand) :
    (s.cards.Nodup ∧ (∀ c ∈ s.cards, c.Valid) ∧ s.board.length ≤ 5) ∧
      ((s.startHand r).2 = none →
        (s.startHand r).1.cards.Perm freshDeck ∧ ∀ c, c ∈ (s.startHand r).1.cards ↔ c.Valid) ∧
      (newDeck r).Perm freshDeck := by
  have h := State.DealtOnce.of_reachable hs
  refine ⟨⟨h.nodup, h.valid, h.board.trans (Phase.boardCap_le _)⟩, fun hok => ?_, newDeck_perm r⟩
  have hn : ¬s.order.length < 2 := fun hlt => by
    rw [State.startHand, if_pos hlt] at hok
    cases hok
  have hp := State.cards_startHand_perm (State.SeatOrder.of_restorable hs.restorable).nodup hn r
  exact ⟨hp, fun c => hp.mem_iff.trans mem_freshDeck⟩

/-- Heads-up, the hand dealt from a deck the generator leaves in order: the 52 cards are all on the
    table, four in the hands. -/
theorem cards_dealt_once_headsUp :
    let s := (newState 5 10).run [.sit "A" 1000, .sit "B" 1000]
    let r : Rand := ⟨fun _ _ => 0, fun _ _ h => h⟩
    Reachable s ∧ (s.startHand r).2 = none ∧ (s.startHand r).1.deck.length = 48 ∧
      ((s.cards.Nodup ∧ (∀ c ∈ s.cards, c.Valid) ∧ s.board.length ≤ 5) ∧
        ((s.startHand r).2 = none →
          (s.startHand r).1.cards.Perm freshDeck ∧ ∀ c, c ∈ (s.startHand r).1.cards ↔ c.Valid) ∧
        (newDeck r).Perm freshDeck) :=
  ⟨(Reachable.init 5 10).run _, by decide, by decide, cards_dealt_once ((Reachable.init 5 10).run _) _⟩

end P2Poker
