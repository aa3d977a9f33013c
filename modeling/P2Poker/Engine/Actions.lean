import P2Poker.Engine.Eval

/-! The engine operations (`internal/engine/types.go`, showdown in `eval.go`): seating, dealing,
    the betting actions, phase progression and the showdown payout.

    Each operation returns the state it leaves and the error it returns. Like the source, some
    operations return an error after they have changed the state. A seat read through a `nil`
    pointer makes Go panic; the model reads the zero seat there (`seatOf`), and for every id of
    `order` a seat exists in every reachable state. -/

namespace P2Poker

/-- The errors of the engine, with the texts of the source. -/
inductive EngineError
  | errAlreadySeated
  | errUnknownPlayer
  | errInsufficient
  | errNotPlayersTurn
  | needTwoPlayers
  | deckUnderflow
  | betExists
  | betBelowBigBlind
  | betNotPositive
  | checkUnmatched
  | nothingToCall
  | alreadyMatched
  | nothingToRaise
  | raiseNotPositive
  | raiseBelowMin
deriving DecidableEq, Repr

def EngineError.message : EngineError → String
  | .errAlreadySeated => "already seated"
  | .errUnknownPlayer => "unknown player"
  | .errInsufficient => "insufficient chips"
  | .errNotPlayersTurn => "not player\x27s turn"
  | .needTwoPlayers => "need at least 2 players"
  | .deckUnderflow => "deck underflow dealing holes"
  | .betExists => "cannot bet; a bet already exists (use raise)"
  | .betBelowBigBlind => "bet must be at least the big blind"
  | .betNotPositive => "bet must be > 0"
  | .checkUnmatched => "cannot check; unmatched to current bet"
  | .nothingToCall => "nothing to call"
  | .alreadyMatched => "already matched"
  | .nothingToRaise => "nothing to raise (use bet)"
  | .raiseNotPositive => "raise must be > 0"
  | .raiseBelowMin => "raise too small (below min-raise)"

/-- `min64`. -/
def min64 (a b : Int64) : Int64 := if a < b then a else b

namespace State

/-! ### Seats -/

/-- `*s.Seats[p]`, the zero seat where Go would dereference `nil`. -/
def seatOf (s : State) (p : PlayerID) : Seat := (s.seats.get? p).getD default

/-- `sortOrder`: `order` sorted by player id (`sort.Slice` with `Order[i] < Order[j]`). -/
def sortOrder (order : List PlayerID) : List PlayerID := order.insertionSort fun a b => !idLt b a

/-- `Sit(p, buyin)`. -/
def sit (s : State) (p : PlayerID) (buyin : Int64) : State × Option EngineError :=
  if p ∈ s.seats then (s, some .errAlreadySeated)
  else
    ({ s with
        seats := s.seats.set p
          { player := p, stack := buyin, committed := 0, inHand := false, allIn := false, folded := false }
        order := sortOrder (s.order ++ [p]) }, none)

/-- `Leave(p)`: drops the seat, the hole cards and the order entry; the turn index is clamped. -/
def leave (s : State) (p : PlayerID) : State :=
  let order := s.order.filter (· ≠ p)
  { s with
    seats := s.seats.erase p
    holes := s.holes.erase p
    order := order
    turnIdx := if order.length ≤ s.turnIdx then 0 else s.turnIdx }

/-- `st.Stack -= x; st.Committed += x; s.Pot += x`: `p` moves `x` chips into the pot. -/
def pay (s : State) (p : PlayerID) (x : Int64) : State :=
  { s with
    seats := s.seats.modify p fun st => { st with stack := st.stack - x, committed := st.committed + x }
    pot := s.pot + x }

/-- `if x > 0 { pay x }`. -/
def payIf (s : State) (p : PlayerID) (x : Int64) : State := if 0 < x then s.pay p x else s

/-- Mark `p` all-in. -/
def markAllIn (s : State) (p : PlayerID) : State :=
  { s with seats := s.seats.modify p fun st => { st with allIn := true } }

/-- `postBlind(p, amt)`: a seat without chips is all-in; a short stack pays all it has. -/
def postBlind (s : State) (p : PlayerID) (amt : Int64) : State :=
  let seat := s.seatOf p
  if seat.stack ≤ 0 then s.markAllIn p
  else if seat.stack < amt then (s.markAllIn p).pay p seat.stack
  else s.pay p amt

/-! The moves of chips touch neither the order nor the turn. -/

@[simp] theorem postBlind_order (s : State) (p : PlayerID) (amt : Int64) : (s.postBlind p amt).order = s.order := by
  dsimp only [postBlind]; split_ifs <;> rfl

/-- `eligible(pid)`: seated, in the hand, not folded, not all-in. -/
def eligible (s : State) (pid : PlayerID) : Bool :=
  match s.seats.get? pid with
  | some st => st.inHand && !st.folded && !st.allIn
  | none => false

/-- `countNeedToAct()`: the eligible seats of `order` that are behind the current bet, or all of
    them when there is no bet. -/
def countNeedToAct (s : State) : Int :=
  if s.order.length = 0 then 0
  else s.order.countP fun pid =>
    s.eligible pid && (decide (s.currentBet = 0) || decide ((s.seatOf pid).committed < s.currentBet))

/-- `RoundClosed()`: no actor left, or at most one eligible seat. -/
def roundClosed (s : State) : Bool :=
  if !s.handActive then false
  else decide (s.actorsToAct ≤ 0) || decide (s.order.countP s.eligible ≤ 1)

/-! ### Turns -/

/-- `CurrentPlayer()`; `none` where Go indexes `Order` out of range and panics. -/
def currentPlayer (s : State) : Option PlayerID :=
  if s.order.length = 0 then some "" else s.order[s.turnIdx]?

/-- `Dealer()`; `none` where Go indexes `Order` out of range and panics. -/
def dealer (s : State) : Option PlayerID :=
  if s.order.length = 0 then some "" else s.order[s.dealerIdx]?

/-- The loop of `advanceTurn`: `k` more steps from index `i`. -/
def advanceTurnFrom (s : State) : Nat → Nat → Nat
  | 0, i => i
  | k + 1, i =>
    let j := (i + 1) % s.order.length
    if s.eligible (s.order.getD j "") then j else s.advanceTurnFrom k j

/-- `advanceTurn()`: the next eligible seat after the turn, at most one lap; the turn stays where the
    lap ends if there is none. -/
def advanceTurn (s : State) : State :=
  if s.order.length = 0 then s else { s with turnIdx := s.advanceTurnFrom s.order.length s.turnIdx }

@[simp] theorem advanceTurn_seats (s : State) : s.advanceTurn.seats = s.seats := by
  unfold advanceTurn; split <;> rfl

@[simp] theorem advanceTurn_pot (s : State) : s.advanceTurn.pot = s.pot := by
  unfold advanceTurn; split <;> rfl

@[simp] theorem advanceTurn_order (s : State) : s.advanceTurn.order = s.order := by
  unfold advanceTurn; split <;> rfl

/-- The checks every betting action starts with: `p` is seated (`ErrUnknownPlayer`) and it is `p`'s
    turn (`ensureTurn`). -/
def actor (s : State) (p : PlayerID) : Except EngineError Seat :=
  match s.seats.get? p with
  | none => .error .errUnknownPlayer
  | some st => if s.currentPlayer ≠ some p then .error .errNotPlayersTurn else .ok st

/-! ### Hands and streets -/

/-- The hole-card loop of `StartHand` over `pids`: two cards from the top of the deck to each seat
    in the hand. -/
def dealHoles (s : State) : List PlayerID → State × Option EngineError
  | [] => (s, none)
  | pid :: rest =>
    let st := s.seatOf pid
    if st.inHand && !st.folded then
      match s.deck with
      | c₁ :: c₂ :: deck => dealHoles { s with holes := s.holes.set pid [c₁, c₂], deck := deck } rest
      | _ => (s, some .deckUnderflow)
    else dealHoles s rest

/-- The top of `StartHand`: every seat back in the hand with nothing committed, an empty pot. -/
def resetForHand (s : State) : State :=
  { s with
    pot := 0
    seats := s.seats.mapVal fun st => { st with committed := 0, inHand := true, folded := false, allIn := false }
    handActive := true }

/-- `StartHand` moves the button one seat and posts the small and the big blind after it. -/
def postBlinds (s : State) : State :=
  let n := s.order.length
  let s := { s with dealerIdx := (s.dealerIdx + 1) % n }
  let s := s.postBlind (s.order.getD ((s.dealerIdx + 1) % n) "") s.smallBlind
  s.postBlind (s.order.getD ((s.dealerIdx + 2) % n) "") s.bigBlind

/-- `StartHand` opens the preflop round: turn to the seat after the big blind, the big blind as the
    bet and as the last raise. -/
def openPreflop (s : State) : State :=
  let n := s.order.length
  let s := { s with
    turnIdx := ((s.dealerIdx + 2) % n + 1) % n
    phase := .preflop
    currentBet := s.bigBlind
    lastRaiseSize := s.bigBlind }
  { s with actorsToAct := s.countNeedToAct }

/-- `StartHand(r)`: resets the seats and the pot, moves the button, posts the blinds, sets the
    preflop round, shuffles a new deck and deals the hole cards. -/
def startHand (s : State) (r : Rand) : State × Option EngineError :=
  if s.order.length < 2 then (s, some .needTwoPlayers)
  else
    let s := s.resetForHand.postBlinds.openPreflop
    { s with deck := newDeck r, board := [], holes := .empty }.dealHoles s.order

/-- `resetCommittedAndSetTurnFromDealer()`: a new betting round, first to act left of the dealer. -/
def resetCommittedAndSetTurnFromDealer (s : State) : State :=
  let s := { s with seats := s.seats.mapVal fun st => { st with committed := 0 } }
  if s.order.length = 0 then
    { s with turnIdx := 0, currentBet := 0, lastRaiseSize := s.bigBlind, actorsToAct := 0 }
  else
    let s := { s with
      turnIdx := (s.dealerIdx + 1) % s.order.length
      currentBet := 0
      lastRaiseSize := s.bigBlind }
    { s with actorsToAct := s.countNeedToAct }

/-- Move `k` cards from the deck to the board, if the deck has them. -/
def dealBoard (s : State) (k : Nat) : State :=
  if k ≤ s.deck.length then { s with board := s.board ++ s.deck.take k, deck := s.deck.drop k } else s

/-- The three street cases of `AdvancePhase`: deal `k` board cards, start a new round, enter `ph`. -/
def nextStreet (s : State) (k : Nat) (ph : Phase) : State :=
  { (s.dealBoard k).resetCommittedAndSetTurnFromDealer with phase := ph }

/-- `AdvancePhase()`. -/
def advancePhase (s : State) : State :=
  match s.phase with
  | .preflop => s.nextStreet 3 .flop
  | .flop => s.nextStreet 1 .turn
  | .turn => s.nextStreet 1 .river
  | .river => { s with phase := .showdown, handActive := false }
  | .showdown => s

/-! ### Betting -/

/-- `Bet(p, amt)`: opens the betting. -/
def bet (s : State) (p : PlayerID) (amt : Int64) : State × Option EngineError :=
  match s.actor p with
  | .error e => (s, some e)
  | .ok st =>
    if 0 < s.currentBet then (s, some .betExists)
    else if amt < s.bigBlind then (s, some .betBelowBigBlind)
    else if amt ≤ 0 then (s, some .betNotPositive)
    else if st.stack < amt then (s, some .errInsufficient)
    else
      let s := { s.pay p amt with currentBet := st.committed + amt, lastRaiseSize := amt }
      ({ s with actorsToAct := s.countNeedToAct }.advanceTurn, none)

/-- `Check(p)`. -/
def check (s : State) (p : PlayerID) : State × Option EngineError :=
  match s.actor p with
  | .error e => (s, some e)
  | .ok st =>
    if s.currentBet = 0 then ({ s with actorsToAct := s.actorsToAct - 1 }.advanceTurn, none)
    else if st.committed ≠ s.currentBet then (s, some .checkUnmatched)
    else ({ s with actorsToAct := s.actorsToAct - 1 }.advanceTurn, none)

/-- `Fold(p)`: one fewer to act only if `p` was behind a live bet. -/
def fold (s : State) (p : PlayerID) : State × Option EngineError :=
  match s.actor p with
  | .error e => (s, some e)
  | .ok st =>
    let s := if 0 < s.currentBet ∧ st.committed < s.currentBet then
      { s with actorsToAct := s.actorsToAct - 1 } else s
    ({ s with seats := s.seats.modify p fun st => { st with folded := true, inHand := false } }.advanceTurn,
      none)

/-- `Call(p)`: a full call, or a short all-in call that does not reopen the action. -/
def call (s : State) (p : PlayerID) : State × Option EngineError :=
  match s.actor p with
  | .error e => (s, some e)
  | .ok st =>
    if s.currentBet = 0 then (s, some .nothingToCall)
    else
      let need := s.currentBet - st.committed
      if need ≤ 0 then (s, some .alreadyMatched)
      else if need ≤ st.stack then ({ s.pay p need with actorsToAct := s.actorsToAct - 1 }.advanceTurn, none)
      else if st.stack ≤ 0 then (s, some .errInsufficient)
      else
        let s := { s with
          seats := s.seats.modify p fun st' =>
            { st' with stack := 0, allIn := true, committed := st'.committed + st.stack }
          pot := s.pot + st.stack }
        ({ s with actorsToAct := s.actorsToAct - 1 }.advanceTurn, none)

/-- The full-raise path of `Raise`: pay the call part and the raise, set the new bar, and everyone
    else must respond. -/
def raiseFull (s : State) (p : PlayerID) (need add : Int64) : State × Option EngineError :=
  let s := (s.payIf p need).pay p add
  let s := { s with currentBet := (s.seatOf p).committed, lastRaiseSize := add }
  ({ s with actorsToAct := s.countNeedToAct }.advanceTurn, none)

/-- The shove of the short all-in raise: the `remain`ing stack goes in and the seat is all-in. -/
def shove (s : State) (p : PlayerID) (remain : Int64) : State :=
  { s with
    seats := s.seats.modify p fun st => { st with stack := 0, allIn := true, committed := st.committed + remain }
    pot := s.pot + remain }

/-- The short all-in path of `Raise`: call what the stack allows, shove the rest; no reopening. -/
def raiseShort (s : State) (p : PlayerID) (st : Seat) (need : Int64) : State × Option EngineError :=
  let s := s.payIf p (min64 st.stack need)
  let remain := (s.seatOf p).stack
  if remain ≤ 0 then (s, some .errInsufficient)
  else
    let s := s.shove p remain
    let s := if (s.seatOf p).committed - remain < s.currentBet then { s with actorsToAct := s.actorsToAct - 1 }
      else if 0 < need then { s with actorsToAct := s.actorsToAct - 1 } else s
    (s.advanceTurn, none)

/-- How much `Raise` calls first: what the seat is behind the current bet. -/
def callNeed (s : State) (st : Seat) : Int64 :=
  if st.committed < s.currentBet then s.currentBet - st.committed else 0

/-- `Raise(p, add)`: `add` on top of the call. The last line of the source calls `Raise` again on the
    same state; its guards then select the full raise, which is what the model does there. -/
def raise (s : State) (p : PlayerID) (add : Int64) : State × Option EngineError :=
  match s.actor p with
  | .error e => (s, some e)
  | .ok st =>
    if s.currentBet = 0 then (s, some .nothingToRaise)
    else if add ≤ 0 then (s, some .raiseNotPositive)
    else
      let need := s.callNeed st
      if s.lastRaiseSize ≤ add ∧ need + add ≤ st.stack then s.raiseFull p need add
      else if st.stack < need + add then s.raiseShort p st need
      else if add < s.lastRaiseSize then (s, some .raiseBelowMin)
      else s.raiseFull p need add

/-! ### Showdown -/

structure ShowdownWinner where
  player : PlayerID
  value : HandValue
  cards : List Card

structure ShowdownSummary where
  winners : List ShowdownWinner
  payoutPer : Int64
  remainder : Int64
  totalPayout : Int64

/-- `posInOrder`. -/
def posInOrder (order : List PlayerID) (pid : PlayerID) : Nat :=
  (order.findIdx? (· = pid)).getD (1 <<< 30)

/-- The evaluated contenders of `ResolveShowdown`: the seats of `order` in the hand and not folded. -/
def evals (s : State) : List ShowdownWinner :=
  s.order.filterMap fun pid =>
    match s.seats.get? pid with
    | some st =>
      if !st.inHand || st.folded then none
      else
        let hv := bestHand7 s.board ((s.holes.get? pid).getD [])
        some ⟨pid, hv.1, hv.2⟩
    | none => none

/-- Every seat named in `winners` gets `per` chips. -/
def payEach (s : State) (winners : List ShowdownWinner) (per : Int64) : State :=
  winners.foldl (fun s w =>
    if w.player ∈ s.seats then { s with seats := s.seats.modify w.player fun st => { st with stack := st.stack + per } }
    else s) s

/-- The seats the remainder loop visits: all of `order`, from index `start` on, wrapping around. -/
def visitFrom (order : List PlayerID) (start : Nat) : List PlayerID :=
  (List.range order.length).map fun i => order.getD ((start + i) % order.length) ""

/-- One visit of the remainder loop: a chip to the visited seat if chips remain and it is a winner. -/
def remainderStep (winners : List PlayerID) (acc : State × Int64) (pid : PlayerID) : State × Int64 :=
  if 0 < acc.2 ∧ pid ∈ winners ∧ pid ∈ acc.1.seats then
    ({ acc.1 with seats := acc.1.seats.modify pid fun st => { st with stack := st.stack + 1 } }, acc.2 - 1)
  else acc

/-- The remainder loop: from `start`, one chip to each winner met in `order` while chips remain. -/
def payRemainder (s : State) (winners : List PlayerID) (start : Nat) (rem : Int64) : State :=
  ((visitFrom s.order start).foldl (remainderStep winners) (s, rem)).1

/-- The winners of `ResolveShowdown`: the contenders whose value is the best one, in `order`. -/
def showdownWinners (s : State) : List ShowdownWinner :=
  match s.evals with
  | [] => []
  | e₀ :: rest =>
    let best := rest.foldl (fun b e => if b.less e.value then e.value else b) e₀.value
    (e₀ :: rest).filter fun e => !best.less e.value && !e.value.less best

/-- `ResolveShowdown()`: the winners split the pot, the remainder going a chip at a time from the
    left of the dealer; the pot is cleared and the hand ends. -/
def resolveShowdown (s : State) : State × ShowdownSummary :=
  match s.evals with
  | [] => ({ s with pot := 0, handActive := false }, ⟨[], 0, s.pot, 0 + s.pot⟩)
  | _ :: _ =>
    let winners := s.showdownWinners
    let nw := Int64.ofNat winners.length
    let per : Int64 := if 0 < s.pot ∧ 0 < nw then s.pot.quot nw else 0
    let rem : Int64 := if 0 < s.pot ∧ 0 < nw then s.pot.rem nw else 0
    let t := s.payEach winners per
    let t := if 0 < rem then
      t.payRemainder (winners.map (·.player)) ((s.dealerIdx + 1) % s.order.length) rem else t
    ({ t with pot := 0, handActive := false },
      ⟨winners.insertionSort (fun a b => posInOrder s.order a.player ≤ posInOrder s.order b.player),
        per, 0, per * nw + (s.pot - per * nw)⟩)

@[simp] theorem resolveShowdown_handActive (s : State) : s.resolveShowdown.1.handActive = false := by
  unfold resolveShowdown
  split <;> rfl

end State

end P2Poker
