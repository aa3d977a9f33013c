import P2Poker.Table.Replica
import P2Poker.Engine.Showdown
import P2Poker.Engine.Orderly

/-! The last fold of a hand, at the authority. A FOLD that leaves one seat in the hand closes the
    betting round (at most one eligible seat), so `apply` commits an `ADVANCE_PHASE`. But an
    `ADVANCE_PHASE` moves one street only, and its own `apply` skips the round-closed check, so
    before the river nothing more follows: the pot stays where it is, no stack changes and the hand
    goes on (`commitAndBroadcast_fold_keeps_chips`). Only on the river does the `ADVANCE_PHASE` reach
    the showdown, whose `SHOWDOWN` pays the pot out. -/

namespace P2Poker

namespace State

/-- `t` has the pot, the stacks and the hand state of `s`: no chips have been paid out. -/
def KeepsChips (s t : State) : Prop :=
  t.pot = s.pot ∧ t.handActive = s.handActive ∧ ∀ q, (t.seatOf q).stack = (s.seatOf q).stack

/-- The streets before the river. -/
def beforeRiver (ph : Phase) : Bool :=
  match ph with
  | .preflop | .flop | .turn => true
  | .river | .showdown => false

section Keeps
variable {s t u : State}

theorem KeepsChips.refl (s : State) : KeepsChips s s := ⟨rfl, rfl, fun _ => rfl⟩

theorem KeepsChips.trans (h₁ : KeepsChips s t) (h₂ : KeepsChips t u) : KeepsChips s u :=
  ⟨h₂.1.trans h₁.1, h₂.2.1.trans h₁.2.1, fun q => (h₂.2.2 q).trans (h₁.2.2 q)⟩

theorem stack_seatOf_modify {p : PlayerID} {f : Seat → Seat} (ht : t.seats = s.seats.modify p f)
    (hf : ∀ st, (f st).stack = st.stack) (q : PlayerID) : (t.seatOf q).stack = (s.seatOf q).stack := by
  rw [seatOf, seatOf, ht, PlayerMap.get?_modify]
  split_ifs with h
  · subst h
    cases s.seats.get? q
    exacts [rfl, hf _]
  · rfl

theorem keepsChips_fold (p : PlayerID) : KeepsChips s (s.fold p).1 := by
  rcases fold_cases s p with ⟨-, h⟩ | ⟨-, st, -, h⟩ <;> rw [h]
  · exact .refl s
  · exact ⟨by rw [advanceTurn_pot], by rw [advanceTurn_handActive], fun q => by
      rw [advanceTurn_seatOf]
      exact stack_seatOf_modify (s := s) (f := fun st => { st with folded := true, inHand := false }) rfl
        (fun _ => rfl) q⟩

theorem fold_phase (p : PlayerID) : (s.fold p).1.phase = s.phase := by
  rcases fold_cases s p with ⟨-, h⟩ | ⟨-, st, -, h⟩ <;> rw [h]
  simp only [advanceTurn_eq]

theorem keepsChips_nextStreet (k : Nat) (ph : Phase) : KeepsChips s (s.nextStreet k ph) := by
  obtain ⟨d, b, ti, n, he⟩ := nextStreet_eq (s := s) k ph
  rw [he]
  refine ⟨rfl, rfl, fun q => ?_⟩
  simp only [seatOf, PlayerMap.get?_mapVal]
  cases s.seats.get? q <;> rfl

theorem keepsChips_advancePhase (h : beforeRiver s.phase = true) :
    KeepsChips s s.advancePhase ∧ s.advancePhase.phase ≠ .showdown := by
  unfold advancePhase
  split <;> rename_i hph
  · exact ⟨keepsChips_nextStreet 3 .flop, by simp [nextStreet]⟩
  · exact ⟨keepsChips_nextStreet 1 .turn, by simp [nextStreet]⟩
  · exact ⟨keepsChips_nextStreet 1 .river, by simp [nextStreet]⟩
  all_goals simp [hph, beforeRiver] at h

end Keeps

end State

namespace Table

section LastFold
variable {rt : Runtime} {t : Table} {a : Action} {c r f : Table → Action → Table × List NetMessage}

theorem commitWith_keeps (hf : State.KeepsChips t.eng (f { t with seq := t.seq + 1 } a).1.eng) :
    State.KeepsChips t.eng (commitWith f t a).1.eng := by
  unfold commitWith
  dsimp only
  split_ifs
  · exact .refl _
  all_goals exact hf

theorem applyWith_advance_keeps (ha : a.type = .advance) (h : State.beforeRiver t.eng.phase = true) :
    State.KeepsChips t.eng (applyWith rt c r t a).1.eng := by
  obtain ⟨hk, hph⟩ := State.keepsChips_advancePhase h
  simpa [applyWith, ha, engineCall, hph, panicIf_fst] using hk

theorem applyWith_fold_keeps (ha : a.type = .fold) (h : State.beforeRiver t.eng.phase = true)
    (hc : ∀ t' b, b.type = .advance → State.beforeRiver t'.eng.phase = true →
      State.KeepsChips t'.eng (c t' b).1.eng) :
    State.KeepsChips t.eng (applyWith rt c r t a).1.eng := by
  have hk := State.keepsChips_fold (s := t.eng) a.playerID
  have hph := State.fold_phase (s := t.eng) a.playerID
  simp only [applyWith, ha, engineCall, finish, reduceCtorEq, false_and, if_false]
  split_ifs
  · exact hk
  · exact hk
  · exact hk.trans (hc _ _ rfl (by rw [hph]; exact h))
  · exact hk

/-- Before the river, a FOLD the authority commits pays nothing out and does not end the hand: the
    `ADVANCE_PHASE` it may trigger opens one street and stops there. -/
theorem commitAndBroadcast_fold_keeps_chips (ha : a.type = .fold) (h : State.beforeRiver t.eng.phase = true) :
    State.KeepsChips t.eng (commitAndBroadcast rt t a).1.eng :=
  commitWith_keeps (applyWith_fold_keeps (t := { t with seq := t.seq + 1 }) ha h
    fun t' _ hb h' => commitWith_keeps (applyWith_advance_keeps (t := { t' with seq := t'.seq + 1 }) hb h'))

/-- Heads-up after the blinds at the authority, the small blind folds preflop. -/
theorem commitAndBroadcast_fold_keeps_chips_headsUp :
    let t : Table := { Table.new "t" "A" ⟨"t", 1000, 5, 10, 0, 0⟩ true 0 with
      eng := (newState 5 10).run [.sit "A" 1000, .sit "B" 1000, .startHand ⟨fun _ _ => 0, fun _ _ h => h⟩] }
    State.beforeRiver t.eng.phase = true ∧ State.KeepsChips t.eng
      (commitAndBroadcast ⟨fun _ => ⟨fun _ _ => 0, fun _ _ h => h⟩, fun _ => "adv"⟩ t ⟨"f1", .fold, "A", 0, none⟩).1.eng :=
  ⟨by decide, commitAndBroadcast_fold_keeps_chips rfl (by decide)⟩

/-- Heads-up after the blinds at the authority, the small blind `A` folds and leaves `B` the only seat
    in the hand. The authority commits an `ADVANCE_PHASE`, which deals the flop; the hand goes on with
    the pot of 15 in the middle and `B`'s stack where the big blind left it. -/
theorem last_fold_leaves_hand_open :
    let t : Table := { Table.new "t" "A" ⟨"t", 1000, 5, 10, 0, 0⟩ true 0 with
      eng := (newState 5 10).run [.sit "A" 1000, .sit "B" 1000, .startHand ⟨fun _ _ => 0, fun _ _ h => h⟩] }
    let e := (commitAndBroadcast ⟨fun _ => ⟨fun _ _ => 0, fun _ _ h => h⟩, fun _ => "adv"⟩ t
      ⟨"f1", .fold, "A", 0, none⟩).1.eng
    t.authority = true ∧ t.eng.handActive = true ∧ t.eng.pot = 15 ∧
      (t.eng.fold "A").1.order.filter (t.eng.fold "A").1.contends = ["B"] ∧
      e.handActive = true ∧ e.phase = .flop ∧ e.pot = 15 ∧ (e.seatOf "B").stack = 990 :=
  ⟨rfl, by decide, by decide, by decide, by decide, by decide, by decide, by decide⟩

end LastFold

end Table

end P2Poker
