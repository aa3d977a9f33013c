import P2Poker.Engine.Orderly
import Mathlib.Data.List.Sort

/-! # The seat order

`Order` lists the seated players by id: `Sit` appends the new id and sorts (`sortOrder`), `Leave`
filters the id out in place, and `RestoreFromSnapshot` installs the order and the seats of a
snapshot. Over every run that mixes the operations with restores of snapshots of such runs
(`Restorable`), the order is strictly increasing in `idLt`, it lists exactly the seated ids, and the
seat under each id names that id (`SeatOrder`).

No operation but `Sit` and `Leave` touches the order, and none changes which ids are seated or the
player a seat names: the seats change only through `modify` and `mapVal` of their chips and flags.
`KeepsRoster` says so, and carries the invariant over every such operation. The betting actions and
the showdown move chips and nothing else: `ChipMove` adds that they leave the deck, the board, the
hole cards and the street alone, which `Engine.Deck` reads. -/

namespace P2Poker

/-! ### Player ids -/

section Ids

theorem charsLt_irrefl : ∀ l : List Char, charsLt l l = false
  | [] => rfl
  | c :: cs => by simp [charsLt, charsLt_irrefl cs]

theorem charsLt_trans : ∀ {a b c : List Char}, charsLt a b = true → charsLt b c = true → charsLt a c = true
  | [], _ :: _, _ :: _, _, _ => rfl
  | x :: xs, y :: ys, z :: zs, h₁, h₂ => by
    simp only [charsLt, Bool.or_eq_true, Bool.and_eq_true, decide_eq_true_eq] at h₁ h₂ ⊢
    rcases h₁ with h₁ | ⟨e₁, h₁⟩ <;> rcases h₂ with h₂ | ⟨e₂, h₂⟩
    · exact .inl (by omega)
    · exact .inl (by omega)
    · exact .inl (by omega)
    · exact .inr ⟨e₁.trans e₂, charsLt_trans h₁ h₂⟩

theorem charsLt_trichotomy : ∀ a b : List Char, charsLt a b = true ∨ a = b ∨ charsLt b a = true
  | [], [] => .inr (.inl rfl)
  | [], _ :: _ => .inl rfl
  | _ :: _, [] => .inr (.inr rfl)
  | c :: cs, d :: ds => by
    simp only [charsLt, Bool.or_eq_true, Bool.and_eq_true, decide_eq_true_eq, List.cons.injEq]
    rcases Nat.lt_trichotomy c.toNat d.toNat with h | h | h
    · exact .inl (.inl h)
    · have hc : c = d := by rw [← Char.ofNat_toNat c, h, Char.ofNat_toNat]
      rcases charsLt_trichotomy cs ds with h' | h' | h'
      exacts [.inl (.inr ⟨h, h'⟩), .inr (.inl ⟨hc, h'⟩), .inr (.inr (.inr ⟨h.symm, h'⟩))]
    · exact .inr (.inr (.inl h))

theorem idLt_irrefl (a : PlayerID) : idLt a a = false := charsLt_irrefl a.data

theorem idLt_trans {a b c : PlayerID} : idLt a b = true → idLt b c = true → idLt a c = true := charsLt_trans

theorem idLt_trichotomy (a b : PlayerID) : idLt a b = true ∨ a = b ∨ idLt b a = true := by
  rcases charsLt_trichotomy a.data b.data with h | h | h
  exacts [.inl h, .inr (.inl (String.ext h)), .inr (.inr h)]

theorem ne_of_idLt {a b : PlayerID} (h : idLt a b = true) : a ≠ b := by
  rintro rfl
  rw [idLt_irrefl] at h
  cases h

theorem idLt_asymm {a b : PlayerID} (h : idLt a b = true) : idLt b a = false :=
  Bool.eq_false_iff.mpr fun h' => by simpa [idLt_irrefl] using idLt_trans h h'

/-- The order `sortOrder` sorts by: `!(b < a)`. -/
def idLe (a b : PlayerID) : Prop := (!idLt b a) = true

instance : DecidableRel idLe := fun _ _ => inferInstanceAs (Decidable (_ = _))

theorem idLe_iff {a b : PlayerID} : idLe a b ↔ idLt b a = false := by simp [idLe]

theorem idLe_total (a b : PlayerID) : idLe a b ∨ idLe b a := by
  simp only [idLe_iff]
  rcases idLt_trichotomy a b with h | rfl | h
  exacts [.inl (idLt_asymm h), .inl (idLt_irrefl a), .inr (idLt_asymm h)]

theorem idLe_trans {a b c : PlayerID} : idLe a b → idLe b c → idLe a c := by
  simp only [idLe_iff, Bool.eq_false_iff]
  intro hba hcb hca
  rcases idLt_trichotomy a b with h | rfl | h
  exacts [hcb (idLt_trans hca h), hcb hca, hba h]

instance : IsTotal PlayerID idLe := ⟨idLe_total⟩

instance : IsTrans PlayerID idLe := ⟨fun _ _ _ => idLe_trans⟩

theorem pairwise_idLt_of_sorted {l : List PlayerID} (hs : l.Sorted idLe) (hn : l.Nodup) :
    l.Pairwise fun a b => idLt a b = true :=
  (hs.and hn).imp fun ⟨hle, hne⟩ => by
    rcases idLt_trichotomy _ _ with h | h | h
    exacts [h, absurd h hne, absurd (idLe_iff.mp hle) (by simp [h])]

theorem sorted_sortOrder (l : List PlayerID) : (State.sortOrder l).Sorted idLe := List.sorted_insertionSort idLe l

end Ids

/-! ### The roster -/

namespace PlayerMap
variable {m : PlayerMap Seat} {p : PlayerID} {f : Seat → Seat}

/-- The ids of a seat map, each with the player its seat names. -/
def roster (m : PlayerMap Seat) : List (PlayerID × PlayerID) := m.entries.map fun e => (e.1, e.2.player)

theorem mem_iff_roster : p ∈ m ↔ p ∈ m.roster.map Prod.fst := by
  show p ∈ m.entries.map Prod.fst ↔ _
  rw [roster, List.map_map]
  rfl

theorem mem_roster_of_get? {st : Seat} (h : m.get? p = some st) : (p, st.player) ∈ m.roster := by
  obtain ⟨l₁, l₂, hl, -⟩ := List.lookup_eq_some_iff.mp h
  exact List.mem_map_of_mem _ (hl ▸ List.mem_append_right l₁ (List.mem_cons_self _ _))

@[simp] theorem roster_modify (hf : ∀ st, (f st).player = st.player) : (m.modify p f).roster = m.roster := by
  simp only [roster, modify, List.map_map]
  refine List.map_congr_left fun e _ => ?_
  by_cases h : e.1 = p <;> simp [h, hf]

@[simp] theorem roster_mapVal (hf : ∀ st, (f st).player = st.player) : (m.mapVal f).roster = m.roster := by
  simp [roster, mapVal, hf]

theorem roster_erase : (m.erase p).roster = m.roster.filter fun e => e.1 ≠ p := by
  simp only [roster, erase, List.filter_map]
  rfl

theorem roster_set_of_not_mem (h : p ∉ m) (v : Seat) : (m.set p v).roster = m.roster ++ [(p, v.player)] := by
  simp [set, h, roster]

end PlayerMap

/-! ### Operations that keep the roster -/

namespace State

/-- What the seat-order invariant reads is kept from `s` to `t`: the order, and the roster of the
    seats. -/
structure KeepsRoster (s t : State) : Prop where
  order : t.order = s.order
  roster : t.seats.roster = s.seats.roster

section Keeps
variable {s t u : State} {p : PlayerID}

theorem KeepsRoster.rfl : KeepsRoster s s := ⟨Eq.refl _, Eq.refl _⟩

theorem KeepsRoster.trans (h₁ : KeepsRoster s t) (h₂ : KeepsRoster t u) : KeepsRoster s u :=
  ⟨h₂.order.trans h₁.order, h₂.roster.trans h₁.roster⟩

theorem KeepsRoster.ite {c : Prop} [Decidable c] (h₁ : KeepsRoster s t) (h₂ : KeepsRoster s u) :
    KeepsRoster s (if c then t else u) := by
  split
  exacts [h₁, h₂]

theorem keepsRoster_modify {f : Seat → Seat} (hf : ∀ st, (f st).player = st.player) :
    KeepsRoster s { s with seats := s.seats.modify p f } :=
  ⟨Eq.refl _, PlayerMap.roster_modify hf⟩

@[simp] theorem roster_pay (x : Int64) : (s.pay p x).seats.roster = s.seats.roster :=
  PlayerMap.roster_modify fun _ => Eq.refl _

@[simp] theorem roster_payIf (x : Int64) : (s.payIf p x).seats.roster = s.seats.roster := by
  unfold payIf
  split <;> simp

@[simp] theorem roster_markAllIn : (s.markAllIn p).seats.roster = s.seats.roster :=
  PlayerMap.roster_modify fun _ => Eq.refl _

@[simp] theorem roster_shove (x : Int64) : (s.shove p x).seats.roster = s.seats.roster :=
  PlayerMap.roster_modify fun _ => Eq.refl _

@[simp] theorem roster_postBlind (amt : Int64) : (s.postBlind p amt).seats.roster = s.seats.roster := by
  dsimp only [postBlind]
  split_ifs <;> simp

theorem keepsRoster_startHand (r : Rand) : KeepsRoster s (s.startHand r).1 := by
  by_cases hn : 2 ≤ s.order.length
  · obtain ⟨hs, dk, he⟩ := startHand_eq hn r
    rw [he]
    exact ⟨by simp, by simp [postBlinds_eq, resetForHand]⟩
  · rw [startHand, if_pos (by omega)]
    exact .rfl

theorem keepsRoster_nextStreet (k : Nat) (ph : Phase) : KeepsRoster s (s.nextStreet k ph) := by
  obtain ⟨d, b, ti, n, he⟩ := nextStreet_eq (s := s) k ph
  rw [he]
  exact ⟨Eq.refl _, by simp⟩

theorem keepsRoster_advancePhase : KeepsRoster s s.advancePhase := by
  unfold advancePhase
  split
  iterate 3 exact keepsRoster_nextStreet _ _
  exacts [⟨Eq.refl _, Eq.refl _⟩, .rfl]

/-! A move of chips, flags, the turn or the bet keeps the order, the roster, the cards and the
    street: every betting action and the showdown payout is one. -/

/-- The order, the roster, the cards and the street are kept from `s` to `t`. -/
structure ChipMove (s t : State) extends KeepsRoster s t : Prop where
  deck : t.deck = s.deck
  board : t.board = s.board
  holes : t.holes = s.holes
  phase : t.phase = s.phase

theorem ChipMove.rfl : ChipMove s s := ⟨.rfl, Eq.refl _, Eq.refl _, Eq.refl _, Eq.refl _⟩

theorem ChipMove.trans (h₁ : ChipMove s t) (h₂ : ChipMove t u) : ChipMove s u :=
  ⟨h₁.toKeepsRoster.trans h₂.toKeepsRoster, h₂.deck.trans h₁.deck, h₂.board.trans h₁.board,
    h₂.holes.trans h₁.holes, h₂.phase.trans h₁.phase⟩

theorem ChipMove.ite {c : Prop} [Decidable c] (h₁ : ChipMove s t) (h₂ : ChipMove s u) :
    ChipMove s (if c then t else u) := by
  split
  exacts [h₁, h₂]

theorem ChipMove.congr (h : ChipMove s t)
    (hu : (u.order, u.seats, u.deck, u.board, u.holes, u.phase) = (t.order, t.seats, t.deck, t.board, t.holes, t.phase)) :
    ChipMove s u := by
  simp only [Prod.mk.injEq] at hu
  obtain ⟨ho, hs, hd, hb, hh, hp⟩ := hu
  exact ⟨⟨ho.trans h.order, hs ▸ h.roster⟩, hd.trans h.deck, hb.trans h.board, hh.trans h.holes, hp.trans h.phase⟩

theorem ChipMove.count (h : ChipMove s t) (n : Int) : ChipMove s { t with actorsToAct := n } :=
  ⟨⟨h.order, h.roster⟩, h.deck, h.board, h.holes, h.phase⟩

theorem ChipMove.reopen (h : ChipMove s t) (b r : Int64) (n : Int) :
    ChipMove s { { t with currentBet := b, lastRaiseSize := r } with actorsToAct := n } :=
  ⟨⟨h.order, h.roster⟩, h.deck, h.board, h.holes, h.phase⟩

theorem ChipMove.advanceTurn (h : ChipMove s t) : ChipMove s t.advanceTurn := by
  rw [advanceTurn_eq]
  exact ⟨⟨h.order, h.roster⟩, h.deck, h.board, h.holes, h.phase⟩

theorem chipMove_modify {f : Seat → Seat} (hf : ∀ st, (f st).player = st.player) :
    ChipMove s { s with seats := s.seats.modify p f } :=
  ⟨keepsRoster_modify hf, Eq.refl _, Eq.refl _, Eq.refl _, Eq.refl _⟩

theorem chipMove_pay (x : Int64) : ChipMove s (s.pay p x) :=
  ⟨⟨Eq.refl _, roster_pay x⟩, Eq.refl _, Eq.refl _, Eq.refl _, Eq.refl _⟩

theorem chipMove_shove (x : Int64) : ChipMove s (s.shove p x) :=
  ⟨⟨Eq.refl _, roster_shove x⟩, Eq.refl _, Eq.refl _, Eq.refl _, Eq.refl _⟩

theorem chipMove_payIf (x : Int64) : ChipMove s (s.payIf p x) := by
  unfold payIf
  split
  exacts [chipMove_pay x, .rfl]

theorem chipMove_bet (amt : Int64) : ChipMove s (s.bet p amt).1 := by
  rcases bet_cases s p amt with ⟨-, h⟩ | ⟨-, st, -, -, -, h⟩ <;> rw [h]
  exacts [.rfl, .advanceTurn ((chipMove_pay amt).congr (Eq.refl _))]

theorem chipMove_check : ChipMove s (s.check p).1 := by
  rcases check_cases s p with ⟨-, h⟩ | ⟨-, st, -, -, h⟩ <;> rw [h]
  exacts [.rfl, .advanceTurn (ChipMove.rfl.count _)]

theorem chipMove_fold : ChipMove s (s.fold p).1 := by
  rcases fold_cases s p with ⟨-, h⟩ | ⟨-, st, -, h⟩ <;> rw [h]
  exacts [.rfl, .advanceTurn ((chipMove_modify (by intro; rfl)).congr (Eq.refl _))]

theorem chipMove_call : ChipMove s (s.call p).1 := by
  rcases call_cases s p with ⟨-, h⟩ | ⟨-, st, -, -, h | h⟩ <;> rw [h]
  exacts [.rfl, .advanceTurn ((chipMove_pay _).congr (Eq.refl _)),
    .advanceTurn ((chipMove_modify (by intro; rfl)).congr (Eq.refl _))]

theorem chipMove_raiseFull (need add : Int64) : ChipMove s (s.raiseFull p need add).1 :=
  .advanceTurn (((chipMove_payIf need).trans (chipMove_pay add)).reopen _ _ _)

theorem chipMove_raiseShort (st : Seat) (need : Int64) : ChipMove s (s.raiseShort p st need).1 := by
  have h := chipMove_payIf (s := s) (p := p) (min64 st.stack need)
  dsimp only [raiseShort]
  generalize s.payIf p (min64 st.stack need) = s₀ at h ⊢
  split_ifs
  · exact h
  · exact .advanceTurn ((h.trans (chipMove_shove _)).count _)
  · exact .advanceTurn ((h.trans (chipMove_shove _)).count _)
  · exact .advanceTurn (h.trans (chipMove_shove _))

theorem chipMove_raise (add : Int64) : ChipMove s (s.raise p add).1 := by
  rcases raise_cases s p add with ⟨-, h⟩ | ⟨st, -, -, -, h | h⟩ <;> rw [h]
  exacts [.rfl, chipMove_raiseFull _ _, chipMove_raiseShort _ _]

theorem chipMove_payEach (ws : List ShowdownWinner) (per : Int64) : ChipMove s (s.payEach ws per) := by
  induction ws generalizing s with
  | nil => exact .rfl
  | cons w ws ih =>
    rw [payEach_cons]
    split
    · exact (chipMove_modify (by intro; rfl)).trans ih
    · exact ih

theorem chipMove_foldl_remainderStep (W L : List PlayerID) (acc : State × Int64) :
    ChipMove acc.1 (L.foldl (remainderStep W) acc).1 := by
  induction L generalizing acc with
  | nil => exact .rfl
  | cons pid L ih =>
    refine .trans ?_ (ih _)
    rw [remainderStep]
    split
    exacts [chipMove_modify fun _ => Eq.refl _, .rfl]

theorem chipMove_payRemainder (W : List PlayerID) (start : Nat) (rem : Int64) :
    ChipMove s (s.payRemainder W start rem) :=
  chipMove_foldl_remainderStep W _ (s, rem)

theorem chipMove_resolveShowdown : ChipMove s s.resolveShowdown.1 := by
  have hend {t : State} (h : ChipMove s t) : ChipMove s { t with pot := 0, handActive := false } :=
    ⟨⟨h.order, h.roster⟩, h.deck, h.board, h.holes, h.phase⟩
  unfold resolveShowdown
  split
  · exact hend .rfl
  · exact hend (.ite ((chipMove_payEach _ _).trans (chipMove_payRemainder _ _ _)) (chipMove_payEach _ _))

end Keeps

/-! ### The invariant -/

/-- The seat-order representation invariant: the order is strictly increasing, it lists exactly the
    seated ids, and the seat under each id names that id. -/
structure SeatOrder (s : State) : Prop where
  sorted : s.order.Pairwise fun a b => idLt a b = true
  seated : ∀ q, q ∈ s.order ↔ q ∈ s.seats
  named : ∀ e ∈ s.seats.roster, e.2 = e.1

section Invariant
variable {s t : State}

theorem SeatOrder.nodup (h : s.SeatOrder) : s.order.Nodup := h.sorted.imp ne_of_idLt

theorem SeatOrder.player_eq (h : s.SeatOrder) {q : PlayerID} {st : Seat} (hg : s.seats.get? q = some st) :
    st.player = q :=
  h.named _ (PlayerMap.mem_roster_of_get? hg)

theorem SeatOrder.keeps (h : s.SeatOrder) (hk : KeepsRoster s t) : t.SeatOrder where
  sorted := hk.order ▸ h.sorted
  seated q := by rw [hk.order, PlayerMap.mem_iff_roster, hk.roster, ← PlayerMap.mem_iff_roster]; exact h.seated q
  named := hk.roster ▸ h.named

theorem seatOrder_newState (sb bb : Int64) : (newState sb bb).SeatOrder where
  sorted := List.Pairwise.nil
  seated q := ⟨fun hq => absurd hq (List.not_mem_nil q), fun hq => absurd (PlayerMap.mem_iff_get?.mp hq) Bool.false_ne_true⟩
  named _ he := absurd he (List.not_mem_nil _)

theorem SeatOrder.sit (h : s.SeatOrder) (p : PlayerID) (buyin : Int64) : (s.sit p buyin).1.SeatOrder := by
  unfold State.sit
  split
  · exact h
  · rename_i hp
    have hperm : (sortOrder (s.order ++ [p])).Perm (s.order ++ [p]) := List.perm_insertionSort _ _
    have hnd : (s.order ++ [p]).Nodup :=
      List.nodup_append.mpr ⟨h.nodup, List.nodup_singleton p, fun q hq hq' => hp (List.mem_singleton.mp hq' ▸ (h.seated q).mp hq)⟩
    refine ⟨pairwise_idLt_of_sorted (sorted_sortOrder _) (hperm.nodup_iff.mpr hnd), fun q => ?_, ?_⟩
    · show q ∈ sortOrder (s.order ++ [p]) ↔ _
      rw [hperm.mem_iff, PlayerMap.mem_set, List.mem_append, List.mem_singleton, h.seated, or_comm]
    · show ∀ e ∈ (s.seats.set p _).roster, _
      rw [PlayerMap.roster_set_of_not_mem hp]
      intro e he
      rcases List.mem_append.mp he with he | he
      · exact h.named e he
      · rw [List.mem_singleton.mp he]

theorem SeatOrder.leave (h : s.SeatOrder) (p : PlayerID) : (s.leave p).SeatOrder where
  sorted := h.sorted.filter _
  seated q := by
    show q ∈ s.order.filter (· ≠ p) ↔ q ∈ s.seats.erase p
    rw [List.mem_filter, PlayerMap.mem_erase, h.seated, decide_eq_true_iff, and_comm]
  named e he := h.named e (List.mem_filter.mp (PlayerMap.roster_erase ▸ he)).1

/-- Every operation keeps the invariant. -/
theorem SeatOrder.exec (h : s.SeatOrder) : ∀ op : Op, (s.exec op).1.SeatOrder
  | .sit p buyin => h.sit p buyin
  | .leave p => h.leave p
  | .startHand r => h.keeps (keepsRoster_startHand r)
  | .bet _ _ => h.keeps (chipMove_bet _).1
  | .check _ => h.keeps chipMove_check.1
  | .call _ => h.keeps chipMove_call.1
  | .raise _ _ => h.keeps (chipMove_raise _).1
  | .fold _ => h.keeps chipMove_fold.1
  | .advancePhase => h.keeps keepsRoster_advancePhase
  | .resolveShowdown => h.keeps chipMove_resolveShowdown.1

theorem SeatOrder.restore (h : t.SeatOrder) (s : State) : (s.restoreFromSnapshot t.snapshot).SeatOrder :=
  ⟨h.sorted, h.seated, h.named⟩

end Invariant

end State

/-- The engine states reachable from `NewState` by the operations and by `RestoreFromSnapshot`, into
    such a state, of a snapshot of such a state. -/
inductive Restorable : State → Prop
  | init (sb bb : Int64) : Restorable (newState sb bb)
  | step {s : State} (op : Op) : Restorable s → Restorable (s.exec op).1
  | restore {s t : State} : Restorable s → Restorable t → Restorable (s.restoreFromSnapshot t.snapshot)

theorem Reachable.restorable {s : State} (h : Reachable s) : Restorable s := by
  induction h with
  | init sb bb => exact .init sb bb
  | step op _ ih => exact ih.step op

theorem State.SeatOrder.of_restorable {s : State} (h : Restorable s) : s.SeatOrder := by
  induction h with
  | init sb bb => exact State.seatOrder_newState sb bb
  | step op _ ih => exact ih.exec op
  | restore _ _ _ iht => exact iht.restore _

/-- In every state reached by the operations and snapshot restores, the order is strictly increasing
    in the player id, it lists exactly the seated ids, and the seat under each id names that id. -/
theorem seatOrder_of_restorable {s : State} (h : Restorable s) :
    s.order.Pairwise (fun a b => idLt a b = true) ∧ s.order.Nodup ∧ (∀ q, q ∈ s.order ↔ q ∈ s.seats) ∧
      ∀ q st, s.seats.get? q = some st → st.player = q :=
  have hs := State.SeatOrder.of_restorable h
  ⟨hs.sorted, hs.nodup, hs.seated, fun _ _ => hs.player_eq⟩

/-- `B` then `A` sit, and the snapshot is restored into a new engine: the order is `[A, B]`. -/
theorem seatOrder_of_restorable_restored :
    let s := (newState 5 10).restoreFromSnapshot ((newState 5 10).run [.sit "B" 1000, .sit "A" 1000]).snapshot
    s.order = ["A", "B"] ∧ Restorable s ∧ (s.order.Pairwise (fun a b => idLt a b = true) ∧ s.order.Nodup ∧
      (∀ q, q ∈ s.order ↔ q ∈ s.seats) ∧ ∀ q st, s.seats.get? q = some st → st.player = q) :=
  have h := Restorable.restore (.init 5 10) ((Reachable.init 5 10).run [.sit "B" 1000, .sit "A" 1000]).restorable
  ⟨by decide, h, seatOrder_of_restorable h⟩

end P2Poker
