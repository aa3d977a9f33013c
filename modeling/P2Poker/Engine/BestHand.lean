import P2Poker.Engine.Deck
import Mathlib.Data.List.Sublists

/-! # The best five-card hand

The standard value of five cards (`handValue5`), against which `BestHand7` is read: its value should
be the best one among the 21 five-card subsets of its seven cards.

`straightTop` looks for the wheel A-2-3-4-5 before it scans the ranks for a run, so seven cards that
hold the wheel and a higher straight, as A-2-3-4-5-6 does, are valued as the 5-high wheel although
the subset 2-3-4-5-6 is a 6-high straight (`bestHand7_wheel_below_six_high`). The straight flush
check reads the same `straightTop` on the ranks of the flush suit. -/

namespace P2Poker

/-- The standard value of five cards: the category first; for a straight or a straight flush its top
    rank, with A-2-3-4-5 as 5-high; otherwise the ranks of the rank groups, bigger groups first and
    higher ranks first, which ends in the kickers in descending order. -/
def handValue5 (five : List Card) : HandValue :=
  let count : Nat → Nat := fun r => five.countP (·.rank.toNat = r)
  let groups : List (List Nat) := [4, 3, 2, 1].map fun c => ranksDesc.filter (count · = c)
  let ranks := groups.flatten
  let shape := groups.map List.length
  let flush := five.all (·.suit = (five.headD default).suit)
  let wheel := decide (ranks = [14, 5, 4, 3, 2])
  let straight := decide (shape = [0, 0, 0, 5]) && (wheel || decide (ranks.headD 0 = ranks.getLastD 0 + 4))
  let top : Nat := if wheel then 5 else ranks.headD 0
  let cat : Category :=
    if straight && flush then .straightFlush
    else if shape = [1, 0, 0, 1] then .quads
    else if shape = [0, 1, 1, 0] then .fullHouse
    else if flush then .flush
    else if straight then .straight
    else if shape = [0, 1, 0, 2] then .trips
    else if shape = [0, 0, 2, 1] then .twoPair
    else if shape = [0, 0, 1, 3] then .onePair
    else .highCard
  HandValue.fill cat ((if straight then [top] else ranks).map Nat.toUInt8)

example : handValue5 [⟨14, 0⟩, ⟨2, 1⟩, ⟨3, 2⟩, ⟨4, 3⟩, ⟨5, 0⟩] = HandValue.fill .straight [5] := by decide

example : handValue5 [⟨9, 0⟩, ⟨9, 1⟩, ⟨4, 2⟩, ⟨4, 3⟩, ⟨13, 0⟩] = HandValue.fill .twoPair [9, 4, 13] := by decide

/-- Board 2-3-4-5-6 in mixed suits, holes ace and nine: `BestHand7` takes the wheel, a 5-high
    straight, and the board alone is a 6-high straight that beats it. -/
theorem bestHand7_wheel_below_six_high :
    let board : List Card := [⟨2, 0⟩, ⟨3, 1⟩, ⟨4, 2⟩, ⟨5, 3⟩, ⟨6, 0⟩]
    let holes : List Card := [⟨14, 1⟩, ⟨9, 2⟩]
    (board ++ holes).Nodup ∧ (∀ c ∈ board ++ holes, c.Valid) ∧ board ∈ (board ++ holes).sublistsLen 5 ∧
      (bestHand7 board holes).1 = HandValue.fill .straight [5] ∧ handValue5 board = HandValue.fill .straight [6] ∧
      (bestHand7 board holes).1.less (handValue5 board) = true := by
  decide

end P2Poker
