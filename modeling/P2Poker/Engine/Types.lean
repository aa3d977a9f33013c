import Mathlib.Data.BitVec
import Mathlib.Data.List.Sort
import Mathlib.Tactic.Abel

/-! The data of the poker engine (`internal/engine/types.go`, `card_json.go`): Go's `int64`, the
    player-keyed maps, cards and the deck, seats, and the engine `State` with its snapshot type.

    A Go `map[PlayerID]V` is a list of entries with distinct keys (`PlayerMap`). No function of the
    engine observes the iteration order of a map (they update every entry, or look one key up), so the
    entry order is whatever the operations build. -/

namespace P2Poker

/-! ### Machine integers -/

/-- Go's `int64`: two's-complement words of 64 bits, added and subtracted with wrap-around and
    compared as signed integers. -/
def Int64 := BitVec 64

namespace Int64

instance : CommRing Int64 := inferInstanceAs (CommRing (BitVec 64))
instance : AddCommGroup Int64 := Ring.toAddCommGroup
instance : DecidableEq Int64 := inferInstanceAs (DecidableEq (BitVec 64))
instance : Inhabited Int64 := ⟨0⟩
instance : LT Int64 := ⟨fun a b => BitVec.slt a b = true⟩
instance : LE Int64 := ⟨fun a b => BitVec.sle a b = true⟩
instance (a b : Int64) : Decidable (a < b) := inferInstanceAs (Decidable (BitVec.slt a b = true))
instance (a b : Int64) : Decidable (a ≤ b) := inferInstanceAs (Decidable (BitVec.sle a b = true))

/-- The value of a word as a mathematical integer. -/
def toInt (a : Int64) : Int := BitVec.toInt (a : BitVec 64)

theorem lt_iff_toInt {a b : Int64} : a < b ↔ a.toInt < b.toInt := decide_eq_true_iff

theorem le_iff_toInt {a b : Int64} : a ≤ b ↔ a.toInt ≤ b.toInt := decide_eq_true_iff

/-- `int64(n)` for a slice length `n`. -/
def ofNat (n : Nat) : Int64 := BitVec.ofNat 64 n

/-- Go's `/` on `int64`, truncating toward zero. -/
def quot (a b : Int64) : Int64 := BitVec.sdiv a b

/-- Go's `%` on `int64`, with the sign of the dividend. -/
def rem (a b : Int64) : Int64 := BitVec.srem a b

/-! #### Division of nonnegative words

    On nonnegative words Go's signed division is the unsigned one, which is what the payout split
    relies on. -/

/-- The bits of a word, read as an unsigned number by `toBits.toNat`. -/
def toBits (a : Int64) : BitVec 64 := a

theorem toInt_eq (a : Int64) : a.toInt =
    if 2 * a.toBits.toNat < 2 ^ 64 then (a.toBits.toNat : Int) else a.toBits.toNat - 2 ^ 64 :=
  BitVec.toInt_eq_toNat_cond _

theorem toBits_zero : (0 : Int64).toBits.toNat = 0 := rfl

theorem ofNat_zero : ofNat 0 = 0 := rfl

theorem toBits_ofNat (n : Nat) : (ofNat n).toBits.toNat = n % 2 ^ 64 := BitVec.toNat_ofNat _ _

theorem ofNat_toBits (a : Int64) : ofNat a.toBits.toNat = a := BitVec.ofNat_toNat _ _

theorem ofNat_succ (n : Nat) : ofNat (n + 1) = ofNat n + 1 := by
  show BitVec.ofNat 64 (n + 1) = BitVec.ofNat 64 n + 1
  rw [← BitVec.natCast_eq_ofNat, ← BitVec.natCast_eq_ofNat, Nat.cast_succ]

theorem nonneg_iff {a : Int64} : 0 ≤ a ↔ a.toBits.toNat < 2 ^ 63 := by
  rw [le_iff_toInt, toInt_eq, toInt_eq, toBits_zero]
  have := a.toBits.isLt
  split_ifs <;> omega

theorem pos_iff {a : Int64} : 0 < a ↔ 0 < a.toBits.toNat ∧ a.toBits.toNat < 2 ^ 63 := by
  rw [lt_iff_toInt, toInt_eq, toInt_eq, toBits_zero]
  have := a.toBits.isLt
  split_ifs <;> omega

theorem nonneg_of_pos {a : Int64} (h : 0 < a) : 0 ≤ a := nonneg_iff.mpr (pos_iff.mp h).2

theorem ofNat_pos {n : Nat} (h₀ : 0 < n) (h : n < 2 ^ 63) : 0 < ofNat n := by
  rw [pos_iff, toBits_ofNat]
  omega

theorem msb_of_nonneg {a : Int64} (h : 0 ≤ a) : BitVec.msb a.toBits = false := by
  rw [BitVec.msb_eq_decide]
  simpa using nonneg_iff.mp h

theorem rem_eq_umod {x y : Int64} (hx : 0 ≤ x) (hy : 0 ≤ y) :
    (x.rem y).toBits = x.toBits % y.toBits := by
  show BitVec.srem x.toBits y.toBits = _
  rw [BitVec.srem, msb_of_nonneg hx, msb_of_nonneg hy]
  rfl

theorem quot_eq_udiv {x y : Int64} (hx : 0 ≤ x) (hy : 0 ≤ y) :
    (x.quot y).toBits = x.toBits / y.toBits := by
  show BitVec.sdiv x.toBits y.toBits = _
  rw [BitVec.sdiv, msb_of_nonneg hx, msb_of_nonneg hy]
  rfl

theorem mul_quot_add_rem {x y : Int64} (hx : 0 ≤ x) (hy : 0 ≤ y) : y * x.quot y + x.rem y = x := by
  apply BitVec.eq_of_toNat_eq
  show (y.toBits * (x.quot y).toBits + (x.rem y).toBits).toNat = x.toBits.toNat
  rw [quot_eq_udiv hx hy, rem_eq_umod hx hy, BitVec.toNat_add, BitVec.toNat_mul, BitVec.toNat_udiv,
    BitVec.toNat_umod]
  have hlt := x.toBits.isLt
  have h₁ : y.toBits.toNat * (x.toBits.toNat / y.toBits.toNat) ≤ x.toBits.toNat := Nat.mul_div_le _ _
  have h₂ := Nat.div_add_mod x.toBits.toNat y.toBits.toNat
  rw [Nat.mod_eq_of_lt (by omega), Nat.mod_eq_of_lt (by omega), h₂]

theorem rem_lt {x y : Int64} (hx : 0 ≤ x) (hy : 0 < y) :
    (x.rem y).toBits.toNat < y.toBits.toNat := by
  rw [rem_eq_umod hx (nonneg_iff.mpr (pos_iff.mp hy).2), BitVec.toNat_umod]
  exact Nat.mod_lt _ (pos_iff.mp hy).1

end Int64

/-! ### Player-keyed maps -/

/-- `PlayerID` is a stable identifier (a node id string). -/
abbrev PlayerID := String

/-- Go's `<` on strings, character by character: on well-formed UTF-8 the order of the code points is
    the order of the bytes Go compares. -/
def charsLt : List Char → List Char → Bool
  | [], [] => false
  | [], _ :: _ => true
  | _ :: _, [] => false
  | c :: cs, d :: ds => decide (c.toNat < d.toNat) || (decide (c.toNat = d.toNat) && charsLt cs ds)

/-- `a < b` on Go strings (player and node ids). -/
def idLt (a b : String) : Bool := charsLt a.data b.data

/-- A Go `map[PlayerID]β`: its entries, with pairwise distinct keys. -/
structure PlayerMap (β : Type) where
  entries : List (PlayerID × β)
  nodup : (entries.map Prod.fst).Nodup
deriving DecidableEq

namespace PlayerMap
variable {β : Type}

/-- `make(map[PlayerID]β)`. -/
def empty : PlayerMap β := ⟨[], List.nodup_nil⟩

def keys (m : PlayerMap β) : List PlayerID := m.entries.map Prod.fst

/-- `v, ok := m[p]`. -/
def get? (m : PlayerMap β) (p : PlayerID) : Option β := m.entries.lookup p

instance : Membership PlayerID (PlayerMap β) := ⟨fun m p => p ∈ m.keys⟩

instance (p : PlayerID) (m : PlayerMap β) : Decidable (p ∈ m) :=
  inferInstanceAs (Decidable (p ∈ m.keys))

theorem nodup_of_map_fst {l : List (PlayerID × β)} {f : PlayerID × β → PlayerID × β}
    (hf : ∀ e, (f e).1 = e.1) (h : (l.map Prod.fst).Nodup) : ((l.map f).map Prod.fst).Nodup := by
  rwa [List.map_map, show Prod.fst ∘ f = Prod.fst from funext hf]

/-- Update the value of every entry (a loop `for _, v := range m` through pointers). -/
def mapVal (m : PlayerMap β) (f : β → β) : PlayerMap β :=
  ⟨m.entries.map fun e => (e.1, f e.2), nodup_of_map_fst (fun _ => rfl) m.nodup⟩

/-- Update the value under `p` in place, if there is one (a write through `st := m[p]`). -/
def modify (m : PlayerMap β) (p : PlayerID) (f : β → β) : PlayerMap β :=
  ⟨m.entries.map fun e => if e.1 = p then (e.1, f e.2) else e,
    nodup_of_map_fst (fun e => by split <;> rfl) m.nodup⟩

/-- `delete(m, p)`. -/
def erase (m : PlayerMap β) (p : PlayerID) : PlayerMap β :=
  ⟨m.entries.filter fun e => e.1 ≠ p, m.nodup.sublist ((List.filter_sublist _).map _)⟩

/-- `m[p] = v`: replaces the value under `p`, or adds the entry. -/
def set (m : PlayerMap β) (p : PlayerID) (v : β) : PlayerMap β :=
  if h : p ∈ m then m.modify p fun _ => v
  else ⟨m.entries ++ [(p, v)], by
    have h' : p ∉ m.entries.map Prod.fst := h
    simpa [List.map_append] using m.nodup.concat h'⟩

/-! #### Lookups -/

section Lookups

theorem lookup_cons_eq (k : PlayerID) (v : β) (l : List (PlayerID × β)) (q : PlayerID) :
    ((k, v) :: l).lookup q = if q = k then some v else l.lookup q := by
  rw [List.lookup_cons]
  by_cases h : q = k
  · simp [h]
  · have hb : (q == k) = false := by simpa using h
    simp [hb, h]

theorem lookup_map_modify (p q : PlayerID) (f : β → β) (l : List (PlayerID × β)) :
    (l.map fun e => if e.1 = p then (e.1, f e.2) else e).lookup q =
      if q = p then (l.lookup p).map f else l.lookup q := by
  induction l with
  | nil => split <;> rfl
  | cons e l ih =>
    obtain ⟨k, v⟩ := e
    by_cases hk : k = p
    · subst hk
      by_cases hq : q = k <;> simp [lookup_cons_eq, hq, ih]
    · by_cases hq : q = p
      · subst hq
        simp [lookup_cons_eq, hk, Ne.symm hk, ih]
      · simp [lookup_cons_eq, hk, hq, ih]

theorem lookup_map_val (q : PlayerID) (f : β → β) (l : List (PlayerID × β)) :
    (l.map fun e => (e.1, f e.2)).lookup q = (l.lookup q).map f := by
  induction l with
  | nil => rfl
  | cons e l ih =>
    obtain ⟨k, v⟩ := e
    by_cases hq : q = k <;> simp [lookup_cons_eq, hq, ih]

theorem lookup_filter_ne (p q : PlayerID) (l : List (PlayerID × β)) :
    (l.filter fun e => e.1 ≠ p).lookup q = if q = p then none else l.lookup q := by
  induction l with
  | nil => split <;> rfl
  | cons e l ih =>
    obtain ⟨k, v⟩ := e
    by_cases hk : k = p
    · subst hk
      rw [List.filter_cons_of_neg (by simp), ih]
      by_cases hq : q = k <;> simp [hq, lookup_cons_eq]
    · rw [List.filter_cons_of_pos (by simpa using hk), lookup_cons_eq, ih]
      by_cases hq : q = k
      · subst hq
        simp [hk, lookup_cons_eq]
      · by_cases hqp : q = p
        · subst hqp
          simp [hq, lookup_cons_eq]
        · simp [hq, hqp, lookup_cons_eq]

variable {m : PlayerMap β} {p q : PlayerID}

@[simp] theorem get?_empty : (empty : PlayerMap β).get? p = none := rfl

theorem mem_iff_get? : p ∈ m ↔ (m.get? p).isSome := by
  show p ∈ m.entries.map Prod.fst ↔ _
  simp only [List.mem_map, get?, List.lookup_isSome_iff, beq_iff_eq]
  exact ⟨fun ⟨e, he, h⟩ => ⟨e, he, h.symm⟩, fun ⟨e, he, h⟩ => ⟨e, he, h.symm⟩⟩

theorem get?_eq_none : m.get? p = none ↔ p ∉ m := by
  rw [mem_iff_get?, Option.not_isSome_iff_eq_none]

@[simp] theorem get?_modify (f : β → β) :
    (m.modify p f).get? q = if q = p then (m.get? p).map f else m.get? q :=
  lookup_map_modify p q f m.entries

@[simp] theorem get?_mapVal (f : β → β) : (m.mapVal f).get? q = (m.get? q).map f :=
  lookup_map_val q f m.entries

@[simp] theorem get?_erase : (m.erase p).get? q = if q = p then none else m.get? q :=
  lookup_filter_ne p q m.entries

@[simp] theorem get?_set (v : β) : (m.set p v).get? q = if q = p then some v else m.get? q := by
  unfold set
  split
  · rename_i h
    obtain ⟨w, hw⟩ := Option.isSome_iff_exists.mp (mem_iff_get?.mp h)
    rw [get?_modify, hw]
    split <;> rfl
  · rename_i h
    have hp : m.entries.lookup p = none := get?_eq_none.mpr h
    simp only [get?, List.lookup_append]
    by_cases hq : q = p
    · subst hq
      simp [hp, lookup_cons_eq]
    · simp [hq, lookup_cons_eq]

@[simp] theorem mem_modify (f : β → β) : q ∈ m.modify p f ↔ q ∈ m := by
  simp only [mem_iff_get?, get?_modify]
  split <;> simp [*]

@[simp] theorem mem_mapVal (f : β → β) : q ∈ m.mapVal f ↔ q ∈ m := by
  simp [mem_iff_get?]

@[simp] theorem mem_erase : q ∈ m.erase p ↔ q ≠ p ∧ q ∈ m := by
  simp only [mem_iff_get?, get?_erase]
  split <;> simp [*]

@[simp] theorem mem_set (v : β) : q ∈ m.set p v ↔ q = p ∨ q ∈ m := by
  simp only [mem_iff_get?, get?_set]
  split <;> simp [*]

end Lookups

/-! #### Sums over the values -/

section Sums
variable {γ : Type} [AddCommGroup γ] (g : β → γ) {p : PlayerID}

theorem sum_modify_of_not_mem (f : β → β) {l : List (PlayerID × β)} (h : p ∉ l.map Prod.fst) :
    ((l.map fun e => if e.1 = p then (e.1, f e.2) else e).map fun e => g e.2).sum =
      (l.map fun e => g e.2).sum := by
  induction l with
  | nil => rfl
  | cons e l ih =>
    simp only [List.map_cons, List.mem_cons, not_or] at h
    rw [List.map_cons, List.map_cons, List.sum_cons, ih h.2, if_neg (Ne.symm h.1)]
    rfl

theorem sum_modify (f : β → β) {v : β} {l : List (PlayerID × β)} (hl : (l.map Prod.fst).Nodup)
    (h : l.lookup p = some v) :
    ((l.map fun e => if e.1 = p then (e.1, f e.2) else e).map fun e => g e.2).sum =
      (l.map fun e => g e.2).sum + (g (f v) - g v) := by
  induction l with
  | nil => simp at h
  | cons e l ih =>
    obtain ⟨k, w⟩ := e
    simp only [List.map_cons, List.nodup_cons] at hl
    by_cases hk : k = p
    · subst hk
      simp only [lookup_cons_eq, if_true, Option.some.injEq] at h
      subst h
      simp only [List.map_cons, if_true, List.sum_cons, sum_modify_of_not_mem g f hl.1]
      abel
    · simp only [lookup_cons_eq, Ne.symm hk, if_false] at h
      simp only [List.map_cons, hk, if_false, List.sum_cons, ih hl.2 h]
      abel

theorem filter_ne_of_not_mem {l : List (PlayerID × β)} (h : p ∉ l.map Prod.fst) :
    l.filter (fun e => e.1 ≠ p) = l :=
  List.filter_eq_self.mpr fun e he => by
    have : e.1 ≠ p := fun hep => h (hep ▸ List.mem_map_of_mem Prod.fst he)
    simpa using this

theorem sum_filter_ne {v : β} {l : List (PlayerID × β)} (hl : (l.map Prod.fst).Nodup)
    (h : l.lookup p = some v) :
    ((l.filter fun e => e.1 ≠ p).map fun e => g e.2).sum = (l.map fun e => g e.2).sum - g v := by
  induction l with
  | nil => simp at h
  | cons e l ih =>
    obtain ⟨k, w⟩ := e
    simp only [List.map_cons, List.nodup_cons] at hl
    by_cases hk : k = p
    · subst hk
      simp only [lookup_cons_eq, if_true, Option.some.injEq] at h
      subst h
      rw [List.filter_cons_of_neg (by simp), filter_ne_of_not_mem hl.1]
      simp
    · simp only [lookup_cons_eq, Ne.symm hk, if_false] at h
      rw [List.filter_cons_of_pos (by simpa using hk)]
      simp only [List.map_cons, List.sum_cons, ih hl.2 h]
      abel

variable {m : PlayerMap β}

/-- The sum of `g` over the values of the map. -/
def sumBy (m : PlayerMap β) : γ := (m.entries.map fun e => g e.2).sum

theorem sumBy_mapVal {f : β → β} (hf : ∀ v, g (f v) = g v) : (m.mapVal f).sumBy g = m.sumBy g := by
  simp [sumBy, mapVal, Function.comp_def, hf]

theorem sumBy_modify_of_not_mem (f : β → β) (h : p ∉ m) : (m.modify p f).sumBy g = m.sumBy g :=
  sum_modify_of_not_mem g f h

theorem sumBy_modify (f : β → β) {v : β} (h : m.get? p = some v) :
    (m.modify p f).sumBy g = m.sumBy g + (g (f v) - g v) :=
  sum_modify g f m.nodup h

theorem sumBy_erase {v : β} (h : m.get? p = some v) : (m.erase p).sumBy g = m.sumBy g - g v :=
  sum_filter_ne g m.nodup h

theorem sumBy_erase_of_not_mem (h : p ∉ m) : (m.erase p).sumBy g = m.sumBy g := by
  simp only [sumBy, erase, filter_ne_of_not_mem h]

theorem sumBy_set_of_not_mem (v : β) (h : p ∉ m) : (m.set p v).sumBy g = m.sumBy g + g v := by
  simp [set, h, sumBy]

end Sums

end PlayerMap

/-! ### Cards -/

abbrev Rank := UInt8
abbrev Suit := UInt8

structure Card where
  rank : Rank
  suit : Suit
deriving DecidableEq, Repr, Inhabited

/-- A `*rand.Rand` as the engine uses it: `intn k n` is the value of the `k`-th call `r.Intn(n)`,
    which Go's library keeps in `[0, n)`. -/
structure Rand where
  intn : Nat → Nat → Nat
  intn_lt : ∀ k n, 0 < n → intn k n < n

/-- The 52 cards in the order `NewDeck` appends them: suit by suit, ranks two to ace. -/
def freshDeck : List Card :=
  (List.range 4).flatMap fun s => (List.range 13).map fun r => ⟨(r + 2).toUInt8, s.toUInt8⟩

/-- `deck[i], deck[j] = deck[j], deck[i]`. -/
def swap (deck : List Card) (i j : Nat) : List Card :=
  (deck.set i (deck.getD j default)).set j (deck.getD i default)

/-- The Fisher-Yates loop of `NewDeck` from index `i` down to `1`; the call `r.Intn(i+1)` at index `i`
    is the `(n-1-i)`-th call of the loop over `n` cards. -/
def fisherYates (r : Rand) (n : Nat) : Nat → List Card → List Card
  | 0, deck => deck
  | i + 1, deck => fisherYates r n i (swap deck (i + 1) (r.intn (n - 1 - (i + 1)) (i + 2)))

/-- `NewDeck(r)`: the fresh deck, Fisher-Yates shuffled with `r`. -/
def newDeck (r : Rand) : List Card :=
  fisherYates r freshDeck.length (freshDeck.length - 1) freshDeck

/-! ### Seats and the engine state -/

inductive Phase
  | preflop
  | flop
  | turn
  | river
  | showdown
deriving DecidableEq, Repr, Inhabited

structure Seat where
  player : PlayerID
  stack : Int64
  /-- Chips committed this betting round. -/
  committed : Int64
  inHand : Bool
  allIn : Bool
  folded : Bool
deriving DecidableEq, Inhabited

/-- The live engine state. `seats` holds the seats Go reaches through pointers; a write through a
    pointer is an update of the entry. -/
structure State where
  smallBlind : Int64
  bigBlind : Int64
  dealerIdx : Nat
  order : List PlayerID
  turnIdx : Nat
  phase : Phase
  pot : Int64
  seats : PlayerMap Seat
  deck : List Card
  board : List Card
  holes : PlayerMap (List Card)
  /-- Highest committed amount in this round. -/
  currentBet : Int64
  /-- Eligible players who still must act this street. -/
  actorsToAct : Int
  /-- Size of the last raise increment (the open counts as a raise from 0). -/
  lastRaiseSize : Int64
  /-- True between `StartHand` and the end of the hand. -/
  handActive : Bool
deriving DecidableEq

/-- `NewState(sb, bb)`. -/
def newState (sb bb : Int64) : State where
  smallBlind := sb
  bigBlind := bb
  dealerIdx := 0
  order := []
  turnIdx := 0
  phase := .preflop
  pot := 0
  seats := .empty
  deck := []
  board := []
  holes := .empty
  currentBet := 0
  actorsToAct := 0
  lastRaiseSize := 0
  handActive := false

/-- The serializable part of the engine state (`EngineSnapshot`). -/
structure EngineSnapshot where
  smallBlind : Int64
  bigBlind : Int64
  dealerIdx : Nat
  order : List PlayerID
  turnIdx : Nat
  phase : Phase
  pot : Int64
  board : List Card
  seats : PlayerMap Seat
deriving DecidableEq

namespace State

/-- `Snapshot()`: a copy of the serializable fields; the seats are copied by value. -/
def snapshot (s : State) : EngineSnapshot where
  smallBlind := s.smallBlind
  bigBlind := s.bigBlind
  dealerIdx := s.dealerIdx
  order := s.order
  turnIdx := s.turnIdx
  phase := s.phase
  pot := s.pot
  board := s.board
  seats := s.seats

/-- `RestoreFromSnapshot(ss)`: installs the snapshot's fields and rebuilds the seats from it; the
    fields the snapshot does not carry keep their values. -/
def restoreFromSnapshot (s : State) (ss : EngineSnapshot) : State :=
  { s with
    smallBlind := ss.smallBlind
    bigBlind := ss.bigBlind
    dealerIdx := ss.dealerIdx
    order := ss.order
    turnIdx := ss.turnIdx
    phase := ss.phase
    pot := ss.pot
    board := ss.board
    seats := ss.seats }

end State

end P2Poker
