import P2Poker.Engine.Conservation
import Mathlib.Data.List.MinMax

/-! The showdown split (`ResolveShowdown`) against the rules. The rules' winners (`showdownSet`) are
    the seats of `order` in the hand and not folded whose `BestHand7` value no other such seat's
    beats under `HandValue.Less`; with `n` of them, each gets `Pot / n`, and the first `Pot mod n`
    met walking `order` round from the seat left of the dealer get a chip more (`showdownCredit`).

    `Less` compares the class and then the ranks in turn, which is the order of one number (`key`),
    so the running best of the code's loop is a largest value and its winners are the rules'
    (`showdownSet_eq`). The payments are then followed seat by seat (`stack_resolveShowdown`), and
    `resolveShowdown_split` puts the two together. -/

namespace P2Poker

/-! ### Hand values -/

theorem Category.toNat_lt (c : Category) : c.toNat < 9 := by cases c <;> decide

theorem Category.toNat_inj {c d : Category} (h : c.toNat = d.toNat) : c = d := by
  cases c <;> cases d <;> first | rfl | cases h

namespace HandValue

/-- The order `Less` reads, as one number: the class, then the five ranks as base-256 digits. -/
def key (hv : HandValue) : Nat :=
  hv.cat.toNat * 256 ^ 5 + (hv.ranks.getD 0 0).toNat * 256 ^ 4 + (hv.ranks.getD 1 0).toNat * 256 ^ 3 +
    (hv.ranks.getD 2 0).toNat * 256 ^ 2 + (hv.ranks.getD 3 0).toNat * 256 + (hv.ranks.getD 4 0).toNat

theorem less_iff_key {a b : HandValue} : a.less b = true ↔ a.key < b.key := by
  obtain ⟨ca, ra, hra⟩ := a
  obtain ⟨cb, rb, hrb⟩ := b
  match ra, rb, hra, hrb with
  | [a0, a1, a2, a3, a4], [b0, b1, b2, b3, b4], _, _ =>
    have hr : ∀ x : UInt8, x.toNat < 256 := fun x => x.toNat_lt_size
    have e : ∀ x y : UInt8, x = y ↔ x.toNat = y.toNat := fun x y => ⟨congrArg _, UInt8.toNat.inj⟩
    have ec : ca = cb ↔ ca.toNat = cb.toNat := ⟨congrArg _, Category.toNat_inj⟩
    have l : ∀ x y : UInt8, x < y ↔ x.toNat < y.toNat := fun _ _ => Iff.rfl
    have := ca.toNat_lt
    have := cb.toNat_lt
    have h₀ := hr a0; have h₁ := hr a1; have h₂ := hr a2; have h₃ := hr a3; have h₄ := hr a4
    have g₀ := hr b0; have g₁ := hr b1; have g₂ := hr b2; have g₃ := hr b3; have g₄ := hr b4
    simp only [less, key, show List.range 5 = [0, 1, 2, 3, 4] from rfl, List.find?_cons, List.find?_nil,
      List.getD_cons_zero, List.getD_cons_succ, ne_eq, e, ec]
    split_ifs with hc
    · by_cases d₀ : a0.toNat = b0.toNat
      swap
      · simp only [d₀, l, not_false_eq_true, decide_True, List.getD_cons_zero, decide_eq_true_eq]
        constructor <;> intro <;> omega
      by_cases d₁ : a1.toNat = b1.toNat
      swap
      · simp only [d₀, d₁, l, not_true_eq_false, not_false_eq_true, decide_True, decide_False, List.getD_cons_zero,
          List.getD_cons_succ, decide_eq_true_eq]
        constructor <;> intro <;> omega
      by_cases d₂ : a2.toNat = b2.toNat
      swap
      · simp only [d₀, d₁, d₂, l, not_true_eq_false, not_false_eq_true, decide_True, decide_False,
          List.getD_cons_zero, List.getD_cons_succ, decide_eq_true_eq]
        constructor <;> intro <;> omega
      by_cases d₃ : a3.toNat = b3.toNat
      swap
      · simp only [d₀, d₁, d₂, d₃, l, not_true_eq_false, not_false_eq_true, decide_True, decide_False,
          List.getD_cons_zero, List.getD_cons_succ, decide_eq_true_eq]
        constructor <;> intro <;> omega
      by_cases d₄ : a4.toNat = b4.toNat
      · simp only [d₀, d₁, d₂, d₃, d₄, not_true_eq_false, decide_False, Bool.false_eq_true, false_iff]
        omega
      · simp only [d₀, d₁, d₂, d₃, d₄, l, not_true_eq_false, not_false_eq_true, decide_True, decide_False,
          List.getD_cons_zero, List.getD_cons_succ, decide_eq_true_eq]
        constructor <;> intro <;> omega
    · simp only [decide_eq_true_eq]
      constructor <;> intro <;> omega

theorem not_less_eq (a b : HandValue) : (!a.less b) = decide (b.key ≤ a.key) := by
  rw [Bool.eq_iff_iff, Bool.not_eq_true', Bool.eq_false_iff, ne_eq, less_iff_key, decide_eq_true_eq, not_lt]

end HandValue

namespace State

/-! ### The split the rules prescribe -/

/-- A seat that goes to the showdown: seated, in the hand and not folded. -/
def contends (s : State) (q : PlayerID) : Bool :=
  match s.seats.get? q with
  | some st => st.inHand && !st.folded
  | none => false

/-- `BestHand7(Board, Holes[q])`. -/
def handValue (s : State) (q : PlayerID) : HandValue := (bestHand7 s.board ((s.holes.get? q).getD [])).1

/-- The winners the rules prescribe: the contenders of `order` whose hand no contender's beats. -/
def showdownSet (s : State) : List PlayerID :=
  let c := s.order.filter s.contends
  c.filter fun q => c.all fun q' => !(s.handValue q).less (s.handValue q')

/-- The winners the remainder goes to, a chip each: the first `Pot mod n` of them met walking `order`
    round from the seat left of the dealer. -/
def remainderSeats (s : State) : List PlayerID :=
  ((s.order.rotate ((s.dealerIdx + 1) % s.order.length)).filter (· ∈ s.showdownSet)).take
    (s.pot.toBits.toNat % s.showdownSet.length)

/-- What the rules credit a seat at the showdown: `Pot / n` to each of the `n` winners, and a chip of
    the remainder to the first winners met. -/
def showdownCredit (s : State) (q : PlayerID) : Nat :=
  if q ∈ s.showdownSet then
    s.pot.toBits.toNat / s.showdownSet.length + if q ∈ s.remainderSeats then 1 else 0
  else 0

section Showdown
variable {s : State}

/-! ### The winners -/

theorem evals_eq (s : State) : s.evals = (s.order.filter s.contends).map fun q =>
    ⟨q, s.handValue q, (bestHand7 s.board ((s.holes.get? q).getD [])).2⟩ := by
  unfold evals
  generalize s.order = l
  induction l with
  | nil => rfl
  | cons q l ih =>
    rw [List.filterMap_cons, List.filter_cons, ih]
    unfold contends
    cases s.seats.get? q with
    | none => rfl
    | some st => rcases st with ⟨_, _, _, _ | _, _, _ | _⟩ <;> rfl

theorem key_step (b v : HandValue) :
    b.key ≤ (if b.less v then v else b).key ∧ v.key ≤ (if b.less v then v else b).key ∧
      ((if b.less v then v else b).key = b.key ∨ (if b.less v then v else b).key = v.key) := by
  split_ifs with h
  · have := HandValue.less_iff_key.mp h
    omega
  · have := mt HandValue.less_iff_key.mpr h
    omega

theorem foldl_best (rest : List ShowdownWinner) (b : HandValue) :
    let r := rest.foldl (fun b e => if b.less e.value then e.value else b) b
    b.key ≤ r.key ∧ (∀ e ∈ rest, e.value.key ≤ r.key) ∧
      (r.key = b.key ∨ ∃ e ∈ rest, r.key = e.value.key) := by
  induction rest generalizing b with
  | nil => simp
  | cons e rest ih =>
    obtain ⟨h₁, h₂, h₃⟩ := ih (if b.less e.value then e.value else b)
    obtain ⟨hb, he, hm⟩ := key_step b e.value
    simp only [List.foldl_cons, List.mem_cons, forall_eq_or_imp, exists_eq_or_imp]
    refine ⟨hb.trans h₁, ⟨he.trans h₁, h₂⟩, ?_⟩
    rcases h₃ with h | h
    · rcases hm with h' | h'
      · exact .inl (h.trans h')
      · exact .inr (.inl (h.trans h'))
    · exact .inr (.inr h)

theorem showdownWinners_eq (h : s.evals ≠ []) :
    s.showdownWinners = s.evals.filter fun e => s.evals.all fun e' => e'.value.key ≤ e.value.key := by
  unfold showdownWinners
  split
  · contradiction
  · rename_i e₀ rest hev
    obtain ⟨h₁, h₂, h₃⟩ := foldl_best rest e₀.value
    rw [hev]
    dsimp only
    generalize List.foldl (fun b e => if b.less e.value then e.value else b) e₀.value rest = best at h₁ h₂ h₃
    have hle : ∀ e ∈ e₀ :: rest, e.value.key ≤ best.key := by
      simpa only [List.mem_cons, forall_eq_or_imp] using ⟨h₁, h₂⟩
    refine List.filter_congr fun e he => ?_
    rw [HandValue.not_less_eq, HandValue.not_less_eq, Bool.eq_iff_iff]
    simp only [Bool.and_eq_true, decide_eq_true_eq, List.all_eq_true]
    refine ⟨fun h e' he' => (hle e' he').trans h.2, fun h => ⟨hle e he, ?_⟩⟩
    rcases h₃ with hb | ⟨e', he', hb⟩
    · exact hb.trans_le (h e₀ (List.mem_cons_self _ _))
    · exact hb.trans_le (h e' (List.mem_cons_of_mem _ he'))

/-- The code's winners are the rules' winners, in the order of `order`. -/
theorem showdownSet_eq : s.showdownSet = s.showdownWinners.map (·.player) := by
  by_cases h : s.evals = []
  · have hc : s.order.filter s.contends = [] := by simpa [evals_eq] using h
    simp only [showdownSet, showdownWinners, h, hc, List.filter_nil, List.map_nil]
  · rw [showdownWinners_eq h, evals_eq, List.filter_map, List.map_map]
    show _ = List.map (fun q => q) _
    rw [List.map_id']
    refine List.filter_congr fun q _ => ?_
    rw [Function.comp_apply, Bool.eq_iff_iff, List.all_eq_true, List.all_eq_true, List.forall_mem_map]
    simp only [HandValue.not_less_eq, decide_eq_true_eq]

theorem showdownWinners_ne_nil (h : s.evals ≠ []) : s.showdownWinners ≠ [] := by
  let f := fun e : ShowdownWinner => e.value.key
  obtain ⟨m, hm⟩ := Option.ne_none_iff_exists'.mp (mt (List.argmax_eq_none (f := f)).mp h)
  rw [showdownWinners_eq h]
  exact List.ne_nil_of_mem (List.mem_filter.mpr ⟨List.argmax_mem hm,
    List.all_eq_true.mpr fun e he => decide_eq_true (List.le_of_mem_argmax (f := f) he hm)⟩)

/-! ### The payments -/

theorem stack_credit {m : PlayerMap Seat} {p : PlayerID} (h : p ∈ m) (x : Int64) (q : PlayerID) :
    (((m.modify p fun st => { st with stack := st.stack + x }).get? q).getD default).stack =
      ((m.get? q).getD default).stack + if q = p then x else 0 := by
  obtain ⟨st, hst⟩ := Option.isSome_iff_exists.mp (PlayerMap.mem_iff_get?.mp h)
  rw [PlayerMap.get?_modify]
  split_ifs with hq
  · subst hq
    simp [hst]
  · rw [add_zero]

theorem stack_payEach (ws : List ShowdownWinner) (per : Int64) (hn : (ws.map (·.player)).Nodup)
    (hw : ∀ w ∈ ws, w.player ∈ s.seats) (q : PlayerID) :
    ((s.payEach ws per).seatOf q).stack = (s.seatOf q).stack + if q ∈ ws.map (·.player) then per else 0 := by
  induction ws generalizing s with
  | nil => simp [payEach]
  | cons w ws ih =>
    rw [List.map_cons, List.nodup_cons] at hn
    have hw₀ := hw w (List.mem_cons_self _ _)
    rw [payEach_cons, if_pos hw₀, ih hn.2 fun v hv => (PlayerMap.mem_modify _).mpr (hw v (List.mem_cons_of_mem _ hv))]
    simp only [seatOf, stack_credit hw₀, List.map_cons, List.mem_cons]
    by_cases hq : q = w.player
    · subst hq
      simp [hn.1]
    · simp [hq]

theorem stack_foldl_remainderStep (W L : List PlayerID) (hL : L.Nodup) (hW : ∀ p ∈ W, p ∈ s.seats) (r : Nat)
    (hr : r < 2 ^ 63) (q : PlayerID) :
    ((L.foldl (remainderStep W) (s, Int64.ofNat r)).1.seatOf q).stack =
      (s.seatOf q).stack + if q ∈ (L.filter (· ∈ W)).take r then 1 else 0 := by
  induction L generalizing s r with
  | nil => simp
  | cons pid L ih =>
    rw [List.nodup_cons] at hL
    rw [List.foldl_cons]
    by_cases hp : pid ∈ W
    · rcases r with _ | m
      · rw [remainderStep, if_neg fun h => absurd h.1 (by decide : ¬(0 : Int64) < Int64.ofNat 0), ih hL.2 hW 0 hr]
        simp
      · have hpos : (0 : Int64) < Int64.ofNat (m + 1) := Int64.ofNat_pos (Nat.succ_pos m) hr
        rw [remainderStep, if_pos ⟨hpos, hp, hW pid hp⟩, Int64.ofNat_succ, add_sub_cancel_right,
          ih hL.2 (fun p hp => (PlayerMap.mem_modify _).mpr (hW p hp)) m (by omega)]
        simp only [seatOf, stack_credit (hW pid hp), List.filter_cons, hp, decide_True, if_true, List.take_succ_cons,
          List.mem_cons]
        by_cases hq : q = pid
        · subst hq
          have : q ∉ (L.filter (· ∈ W)).take m := fun h => hL.1 (List.mem_of_mem_filter (List.mem_of_mem_take h))
          simp [this]
        · simp [hq]
    · rw [remainderStep, if_neg fun h => hp h.2.1, ih hL.2 hW r hr,
        List.filter_cons_of_neg (by simpa using hp)]

theorem split_ofNat {x : Int64} (hx : 0 ≤ x) {n : Nat} (h₀ : 0 < n) (hn : n < 2 ^ 63) :
    (if 0 < x ∧ 0 < Int64.ofNat n then x.quot (Int64.ofNat n) else 0) = Int64.ofNat (x.toBits.toNat / n) ∧
      (if 0 < x ∧ 0 < Int64.ofNat n then x.rem (Int64.ofNat n) else 0) = Int64.ofNat (x.toBits.toNat % n) := by
  have hnw := Int64.ofNat_pos h₀ hn
  have hxb := Int64.nonneg_iff.mp hx
  by_cases hp : 0 < x
  · rw [if_pos ⟨hp, hnw⟩, if_pos ⟨hp, hnw⟩]
    have hn' : (Int64.ofNat n).toBits.toNat = n := by rw [Int64.toBits_ofNat]; omega
    have hq : x.toBits.toNat / n < 2 ^ 64 := by
      have := Nat.div_le_self x.toBits.toNat n
      omega
    have hr : x.toBits.toNat % n < 2 ^ 64 := by
      have := Nat.mod_lt x.toBits.toNat h₀
      omega
    constructor <;> apply BitVec.eq_of_toNat_eq
    · show (x.quot (Int64.ofNat n)).toBits.toNat = (Int64.ofNat (x.toBits.toNat / n)).toBits.toNat
      rw [Int64.quot_eq_udiv hx (Int64.nonneg_of_pos hnw), BitVec.toNat_udiv, hn', Int64.toBits_ofNat,
        Nat.mod_eq_of_lt hq]
    · show (x.rem (Int64.ofNat n)).toBits.toNat = (Int64.ofNat (x.toBits.toNat % n)).toBits.toNat
      rw [Int64.rem_eq_umod hx (Int64.nonneg_of_pos hnw), BitVec.toNat_umod, hn', Int64.toBits_ofNat,
        Nat.mod_eq_of_lt hr]
  · have h0 : x.toBits.toNat = 0 := by
      rw [Int64.pos_iff] at hp
      omega
    rw [if_neg fun h => hp h.1, if_neg fun h => hp h.1, h0, Nat.zero_div, Nat.zero_mod, Int64.ofNat_zero]
    exact ⟨rfl, rfl⟩

theorem countP_mem_take_filter {L : List PlayerID} (hL : L.Nodup) (p : PlayerID → Bool) (k : Nat) :
    L.countP (· ∈ (L.filter p).take k) = min k (L.countP p) := by
  induction L generalizing k with
  | nil => simp
  | cons x L ih =>
    rw [List.nodup_cons] at hL
    by_cases hx : p x
    · rw [List.filter_cons_of_pos hx]
      rcases k with _ | k
      · simp
      · have hc : L.countP (· ∈ x :: (L.filter p).take k) = L.countP (· ∈ (L.filter p).take k) :=
          List.countP_congr fun y hy => by simp [ne_of_mem_of_not_mem hy hL.1]
        rw [List.take_succ_cons, List.countP_cons, List.countP_cons, hc, ih hL.2 k]
        simp [hx]
        omega
    · have hx' : x ∉ (L.filter p).take k := fun h => hx (List.of_mem_filter (List.mem_of_mem_take h))
      rw [List.filter_cons_of_neg hx, List.countP_cons, List.countP_cons, ih hL.2 k]
      simp [hx, hx']

theorem sum_map_ite_mem (l A : List PlayerID) (c : Nat) :
    (l.map fun q => if q ∈ A then c else 0).sum = l.countP (· ∈ A) * c := by
  induction l with
  | nil => simp
  | cons q l ih =>
    by_cases h : q ∈ A <;> simp [h, ih, List.countP_cons, Nat.add_mul, Nat.add_comm]

theorem mem_showdownSet_of_remainderSeats {q : PlayerID} (h : q ∈ s.remainderSeats) : q ∈ s.showdownSet := by
  simpa using List.of_mem_filter (List.mem_of_mem_take h)

theorem showdownCredit_eq (q : PlayerID) : s.showdownCredit q =
    (if q ∈ s.showdownSet then s.pot.toBits.toNat / s.showdownSet.length else 0) +
      if q ∈ s.remainderSeats then 1 else 0 := by
  unfold showdownCredit
  by_cases h : q ∈ s.showdownSet
  · rw [if_pos h, if_pos h]
  · rw [if_neg h, if_neg h, if_neg (mt mem_showdownSet_of_remainderSeats h)]

theorem sum_showdownCredit (hn : s.order.Nodup) (hW : s.showdownSet ≠ []) :
    (s.order.map s.showdownCredit).sum = s.pot.toBits.toNat := by
  have hW₀ : 0 < s.showdownSet.length := List.length_pos.mpr hW
  -- the winners are a filter of `order`
  have hf : s.showdownSet = s.order.filter fun q =>
      s.contends q && (s.order.filter s.contends).all fun q' => !(s.handValue q).less (s.handValue q') := by
    rw [showdownSet, List.filter_filter]
    exact List.filter_congr fun q _ => Bool.and_comm _ _
  have hcW : s.order.countP (· ∈ s.showdownSet) = s.showdownSet.length := by
    conv_rhs => rw [hf]
    rw [← List.countP_eq_length_filter]
    exact List.countP_congr fun q hq => by rw [hf]; simp [hq]
  have hcR : s.order.countP (· ∈ s.remainderSeats) = s.pot.toBits.toNat % s.showdownSet.length := by
    have hperm := List.rotate_perm s.order ((s.dealerIdx + 1) % s.order.length)
    rw [← hperm.countP_eq, remainderSeats, countP_mem_take_filter (hperm.nodup_iff.mpr hn), hperm.countP_eq, hcW]
    exact min_eq_left (Nat.mod_lt _ hW₀).le
  rw [show s.showdownCredit = _ from funext showdownCredit_eq, List.sum_map_add, sum_map_ite_mem, sum_map_ite_mem,
    hcW, hcR, Nat.mul_one, Nat.mul_comm]
  exact Nat.div_add_mod' _ _

theorem seatOf_endHand (t : State) (q : PlayerID) :
    ({ t with pot := 0, handActive := false }).seatOf q = t.seatOf q := rfl

theorem add_ofNat_credit {b c : Prop} [Decidable b] [Decidable c] (h : c → b) (x : Int64) (a : Nat) :
    x + (if b then Int64.ofNat a else 0) + (if c then 1 else 0) =
      x + Int64.ofNat ((if b then a else 0) + if c then 1 else 0) := by
  by_cases hc : c
  · rw [if_pos (h hc), if_pos hc, if_pos (h hc), if_pos hc, Int64.ofNat_succ, add_assoc]
  · rw [if_neg hc, if_neg hc, add_zero, add_zero]
    split_ifs
    · rfl
    · rw [Int64.ofNat_zero, add_zero]

/-- What `ResolveShowdown` leaves in each stack: the stack before and the seat's credit. -/
theorem stack_resolveShowdown (hpot : 0 ≤ s.pot) (hn : s.order.Nodup) (hlen : s.order.length < 2 ^ 63)
    (hev : s.evals ≠ []) (q : PlayerID) :
    (s.resolveShowdown.1.seatOf q).stack = (s.seatOf q).stack + Int64.ofNat (s.showdownCredit q) := by
  have hset := showdownSet_eq (s := s)
  have hsub : (s.showdownWinners.map (·.player)).Sublist s.order :=
    (showdownWinners_sublist.map _).trans evals_sublist
  have hn₀ : 0 < s.showdownWinners.length := List.length_pos.mpr (showdownWinners_ne_nil hev)
  have hnl : s.showdownWinners.length < 2 ^ 63 := by
    have := hsub.length_le
    rw [List.length_map] at this
    omega
  have hseat : ∀ w ∈ s.showdownWinners, w.player ∈ s.seats :=
    fun w hw => mem_seats_of_mem_evals (showdownWinners_sublist.subset hw)
  obtain ⟨hper, hrem⟩ := split_ofNat hpot hn₀ hnl
  rw [showdownCredit_eq, hset, List.length_map]
  unfold resolveShowdown
  split
  · contradiction
  · dsimp only
    rw [hper, hrem, seatOf_endHand]
    have hR : s.remainderSeats = ((s.order.rotate ((s.dealerIdx + 1) % s.order.length)).filter
        (· ∈ s.showdownWinners.map (·.player))).take (s.pot.toBits.toNat % s.showdownWinners.length) := by
      rw [remainderSeats, hset, List.length_map]
    have hmod := Nat.mod_lt s.pot.toBits.toNat hn₀
    rw [hR, ← add_ofNat_credit fun h => by simpa using List.of_mem_filter (List.mem_of_mem_take h),
      ← stack_payEach _ _ (hsub.nodup hn) hseat]
    by_cases hr : 0 < Int64.ofNat (s.pot.toBits.toNat % s.showdownWinners.length)
    · rw [if_pos hr]
      have hseat' : ∀ p ∈ s.showdownWinners.map (·.player), p ∈ (s.payEach s.showdownWinners
          (Int64.ofNat (s.pot.toBits.toNat / s.showdownWinners.length))).seats := by
        intro p hp
        obtain ⟨w, hw, rfl⟩ := List.mem_map.mp hp
        exact (mem_payEach _ _ _).mpr (hseat w hw)
      rw [payRemainder, payEach_order, visitFrom_eq_rotate,
        stack_foldl_remainderStep _ _ ((List.rotate_perm _ _).nodup_iff.mpr hn) hseat' _ (by omega)]
    · have h0 : s.pot.toBits.toNat % s.showdownWinners.length = 0 :=
        Nat.eq_zero_of_not_pos fun h => hr (Int64.ofNat_pos h (by omega))
      rw [if_neg hr, h0, List.take_zero]
      simp

@[simp] theorem resolveShowdown_pot : s.resolveShowdown.1.pot = 0 := by
  unfold resolveShowdown
  split <;> rfl

end Showdown

/-- `ResolveShowdown` pays the split the rules prescribe. With a nonnegative pot, `order` without
    repeats and at least one seat of it in the hand and not folded, each seat's stack grows by its
    `showdownCredit`: `Pot / n` for each of the `n` best hands, a chip more for the first `Pot mod n`
    of them met walking `order` round from the seat left of the dealer, nothing for the others. The
    credits add up to the pot, the pot is emptied and the hand is over. (`len(s.Order)` is a Go
    `int`, below `2^63`, so the number of winners converts to `int64` exactly.) -/
theorem resolveShowdown_split {s : State} (hpot : 0 ≤ s.pot) (hn : s.order.Nodup)
    (hlen : s.order.length < 2 ^ 63) (hc : ∃ q ∈ s.order, s.contends q = true) :
    let t := s.resolveShowdown.1
    (∀ q, (t.seatOf q).stack = (s.seatOf q).stack + Int64.ofNat (s.showdownCredit q)) ∧
      (s.order.map s.showdownCredit).sum = s.pot.toBits.toNat ∧ t.pot = 0 ∧ t.handActive = false := by
  have hev : s.evals ≠ [] := by
    obtain ⟨q, hq, hcq⟩ := hc
    rw [evals_eq]
    exact List.ne_nil_of_mem (List.mem_map_of_mem _ (List.mem_filter.mpr ⟨hq, hcq⟩))
  have hW : s.showdownSet ≠ [] := by
    rw [showdownSet_eq]
    exact fun h => showdownWinners_ne_nil hev (List.map_eq_nil_iff.mp h)
  exact ⟨stack_resolveShowdown hpot hn hlen hev, sum_showdownCredit hn hW, resolveShowdown_pot,
    resolveShowdown_handActive s⟩

/-- Three players after the blinds at 5/10, everyone still in: the showdown pays the pot of 15 to
    the best hand. -/
theorem resolveShowdown_split_blinds :
    let s := (newState 5 10).run
      [.sit "A" 1000, .sit "B" 1000, .sit "C" 1000, .startHand ⟨fun _ _ => 0, fun _ _ h => h⟩]
    (0 ≤ s.pot ∧ s.order.Nodup ∧ s.order.length < 2 ^ 63 ∧ ∃ q ∈ s.order, s.contends q = true) ∧
      let t := s.resolveShowdown.1
      (∀ q, (t.seatOf q).stack = (s.seatOf q).stack + Int64.ofNat (s.showdownCredit q)) ∧
        (s.order.map s.showdownCredit).sum = s.pot.toBits.toNat ∧ t.pot = 0 ∧ t.handActive = false :=
  ⟨⟨by decide, by decide, by decide, ⟨"A", by decide, by decide⟩⟩,
    resolveShowdown_split (by decide) (by decide) (by decide) ⟨"A", by decide, by decide⟩⟩

end State

end P2Poker
