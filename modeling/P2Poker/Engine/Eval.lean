import P2Poker.Engine.Types

/-! Hand evaluation (`BestHand7` and its helpers): the value of the best five-card hand among the board
    and the hole cards, and the five cards that make it.

    The rank and suit counters of the source are arrays indexed by the card's rank and suit; the model
    counts through the card list, which agrees with them on valid cards (a rank above 14 or a suit
    above 3 makes Go index out of range). The rank bitset `present` is the predicate "some card has
    this rank". -/

namespace P2Poker

/-- The standard poker hand classes, weakest first. -/
inductive Category
  | highCard
  | onePair
  | twoPair
  | trips
  | straight
  | flush
  | fullHouse
  | quads
  | straightFlush
deriving DecidableEq, Repr

/-- The `int` a category stands for (`iota` order). -/
def Category.toNat : Category → Nat
  | .highCard => 0
  | .onePair => 1
  | .twoPair => 2
  | .trips => 3
  | .straight => 4
  | .flush => 5
  | .fullHouse => 6
  | .quads => 7
  | .straightFlush => 8

/-- A five-card hand for comparison: the class, then five tie-breaking ranks in decreasing priority. -/
structure HandValue where
  cat : Category
  ranks : List Rank
  length_ranks : ranks.length = 5
deriving DecidableEq

namespace HandValue

/-- `Less`: the class first, then the ranks from the first. -/
def less (hv other : HandValue) : Bool :=
  if hv.cat ≠ other.cat then hv.cat.toNat < other.cat.toNat
  else
    match (List.range 5).find? fun i => hv.ranks.getD i 0 ≠ other.ranks.getD i 0 with
    | some i => hv.ranks.getD i 0 < other.ranks.getD i 0
    | none => false

/-- `fill(cat, ks...)`: the given ranks, then zeros. -/
def fill (cat : Category) (ks : List Rank) : HandValue :=
  ⟨cat, (ks ++ List.replicate 5 0).take 5, by simp⟩

end HandValue

/-- The ranks from the ace down to the two, the order of every rank loop of the evaluator. -/
def ranksDesc : List Nat := (List.range 13).reverse.map (· + 2)

/-- The first `n` ranks, from the ace down, that some card has and `exclude` does not name, then
    zeros up to `n`. -/
def topRanks (rankCount : Nat → Nat) (n : Nat) (exclude : List Rank) : List Rank :=
  let out := ((ranksDesc.filter fun r => r.toUInt8 ∉ exclude ∧ 0 < rankCount r).map Nat.toUInt8).take n
  out ++ List.replicate (n - out.length) 0

/-- `highestExcept`. -/
def highestExcept (rankCount : Nat → Nat) (except : Rank) : Rank :=
  (topRanks rankCount 1 [except]).headD 0

/-- `topKicker`. -/
def topKicker (rankCount : Nat → Nat) (ex1 ex2 : Rank) : Rank :=
  (topRanks rankCount 1 [ex1, ex2]).headD 0

/-- `topKickers(rankCount, ex, n)`: the first two of the top ranks. -/
def topKickers (rankCount : Nat → Nat) (ex : Rank) (n : Nat) : Rank × Rank :=
  let out := topRanks rankCount n [ex]
  (out.getD 0 0, out.getD 1 0)

/-- `topKickers3`. -/
def topKickers3 (rankCount : Nat → Nat) (ex : Rank) : Rank × Rank × Rank :=
  let out := topRanks rankCount 3 [ex]
  (out.getD 0 0, out.getD 1 0, out.getD 2 0)

/-- `topNRanks`. -/
def topNRanks (rankCount : Nat → Nat) (n : Nat) (exclude : List Rank) : List Rank :=
  topRanks rankCount n exclude

/-- `collectOfRank(all, r, want)`: the first `want` cards of rank `r`, in a zeroed array of five. -/
def collectOfRank (all : List Card) (r : Rank) (want : Nat) : List Card :=
  let picked := (all.filter (·.rank = r)).take want
  picked ++ List.replicate (5 - picked.length) default

/-- `kickerCard(all, r)`: the card of rank `r` with the highest suit, the first on ties. -/
def kickerCard (all : List Card) (r : Rank) : Card :=
  ((all.filter (·.rank = r)).foldl
    (fun (best : Option Card) c => match best with
      | none => some c
      | some b => if b.suit < c.suit then some c else some b) none).getD default

/-- The rank scan of `straightTop` over `rs`, with `run` ranks present in a row before it. -/
def straightScan (bits : Nat → Bool) : List Nat → Nat → Rank
  | [], _ => 0
  | r :: rs, run =>
    if bits r then (if run + 1 = 5 then (r + 4).toUInt8 else straightScan bits rs (run + 1))
    else straightScan bits rs 0

/-- `straightTop(bits)`: the top rank of a straight in the rank set `bits`; the wheel A-5 is looked for
    first and counts as 5-high. -/
def straightTop (bits : Nat → Bool) : Rank :=
  if bits 14 && bits 5 && bits 4 && bits 3 && bits 2 then 5 else straightScan bits ranksDesc 0

/-- One round of `pickStraight`: among the unused cards of rank `want`, the one with the highest suit
    (the first on ties). -/
def pickBest (all : List Card) (used : List Nat) (want : Rank) : Option Nat :=
  (List.range all.length).foldl
    (fun (best : Option Nat) i =>
      if i ∈ used then best
      else if (all.getD i default).rank = want then
        match best with
        | none => some i
        | some b => if (all.getD b default).suit < (all.getD i default).suit then some i else some b
      else best) none

/-- `pickStraight(all, top)`: the cards of the straight with top rank `top`, one per rank. -/
def pickStraight (all : List Card) (top : Rank) : HandValue × List Card :=
  let need : List Rank := if top = 5 then [5, 4, 3, 2, 14] else [top, top - 1, top - 2, top - 3, top - 4]
  let (five, _, _) := need.foldl
    (fun (acc : List Card × List Nat × Nat) want =>
      let (five, used, idx) := acc
      match pickBest all used want with
      | some b => (five.set idx (all.getD b default), b :: used, idx + 1)
      | none => acc)
    (List.replicate 5 default, [], 0)
  (HandValue.fill .straight [top], five)

/-- A rank group of `BestHand7`: a rank and how many cards have it. -/
structure Group where
  rank : Rank
  cnt : Nat

/-- The order of `sort.SliceStable` on groups: more cards first, then the higher rank. -/
def Group.before (a b : Group) : Bool :=
  if a.cnt ≠ b.cnt then b.cnt < a.cnt else b.rank < a.rank

/-- `BestHand7(board, holes)`. -/
def bestHand7 (board holes : List Card) : HandValue × List Card :=
  let all := board ++ holes
  let rankCount : Nat → Nat := fun r => all.countP (·.rank.toNat = r)
  let suitCount : Nat → Nat := fun s => all.countP (·.suit.toNat = s)
  let bySuit : Nat → List Card := fun s => all.filter (·.suit.toNat = s)
  let present : Nat → Bool := fun r => all.any (·.rank.toNat = r)
  let groups := ((ranksDesc.filter (0 < rankCount ·)).map fun r => (⟨r.toUInt8, rankCount r⟩ : Group))
    |>.insertionSort fun a b => !b.before a
  let g0 := groups.getD 0 ⟨0, 0⟩
  let g1 := groups.getD 1 ⟨0, 0⟩
  match (List.range 4).find? (5 ≤ suitCount ·) with
  | some fs =>
    let suitBits : Nat → Bool := fun r => (bySuit fs).any (·.rank.toNat = r)
    let top := straightTop suitBits
    if top ≠ 0 then (HandValue.fill .straightFlush [top], (pickStraight (bySuit fs) top).2)
    else
      let five := ((bySuit fs).insertionSort fun a b => b.rank ≤ a.rank).take 5
      (HandValue.fill .flush (five.map (·.rank)), five)
  | none =>
    if 0 < groups.length ∧ g0.cnt = 4 then
      let kicker := highestExcept rankCount g0.rank
      ((HandValue.fill .quads [g0.rank, kicker]),
        (collectOfRank all g0.rank 4).set 4 (kickerCard all kicker))
    else
      let pairOrTrip := ((groups.drop 1).find? (2 ≤ ·.cnt)).elim 0 (·.rank)
      if 1 < groups.length ∧ g0.cnt = 3 ∧ pairOrTrip ≠ 0 then
        let two := collectOfRank all pairOrTrip 2
        (HandValue.fill .fullHouse [g0.rank, pairOrTrip],
          ((collectOfRank all g0.rank 3).set 3 (two.getD 0 default)).set 4 (two.getD 1 default))
      else if straightTop present ≠ 0 then
        (HandValue.fill .straight [straightTop present], (pickStraight all (straightTop present)).2)
      else if 0 < groups.length ∧ g0.cnt = 3 then
        let (k1, k2) := topKickers rankCount g0.rank 2
        (HandValue.fill .trips [g0.rank, k1, k2],
          ((collectOfRank all g0.rank 3).set 3 (kickerCard all k1)).set 4 (kickerCard all k2))
      else if 1 < groups.length ∧ g0.cnt = 2 ∧ g1.cnt = 2 then
        let k := topKicker rankCount g0.rank g1.rank
        let p2 := collectOfRank all g1.rank 2
        (HandValue.fill .twoPair [g0.rank, g1.rank, k],
          (((collectOfRank all g0.rank 2).set 2 (p2.getD 0 default)).set 3 (p2.getD 1 default)).set 4
            (kickerCard all k))
      else if 0 < groups.length ∧ g0.cnt = 2 then
        let (k1, k2, k3) := topKickers3 rankCount g0.rank
        (HandValue.fill .onePair [g0.rank, k1, k2, k3],
          (((collectOfRank all g0.rank 2).set 2 (kickerCard all k1)).set 3 (kickerCard all k2)).set 4
            (kickerCard all k3))
      else
        let hi := topNRanks rankCount 5 []
        (HandValue.fill .highCard hi, hi.map (kickerCard all))

end P2Poker
