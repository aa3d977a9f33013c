import P2Poker.Engine.Deck

/-! The JSON codec of a card (`card_json.go`). `MarshalJSON` writes the two-character literal of a
    card, rank then suit ("As", "Th", "2c"); `UnmarshalJSON` trims the white space off a string and
    reads its two bytes back, each in either letter case.

    The literal is the part of the codec this file owns: `json.Marshal` puts it between double
    quotes, and `json.Unmarshal` of a JSON string gives the string back. Go indexes a string by
    bytes, so `len(s)`, `s[0]` and `s[1]` are read off the UTF-8 bytes of the trimmed string.

    A valid card has a literal, which reads back as the card; a string reads as a card exactly when
    it trims to the card's literal up to ASCII letter case (`unmarshalCard_eq_ok`); and the board of every reachable engine encodes
    and decodes back card for card (`board_roundTrip`), so the engine snapshot a table sends never
    loses its board to the card codec. -/

namespace P2Poker

/-- The errors of the card codec. Their messages: "invalid rank: %d", "invalid suit: %d",
    "invalid card literal %q (want 2 chars like As, Td)", "invalid rank char %q" and
    "invalid suit char %q (use c/d/h/s)". -/
inductive CardError
  | invalidRank (r : Rank)
  | invalidSuit (s : Suit)
  | invalidLiteral (s : String)
  | invalidRankChar (ch : UInt8)
  | invalidSuitChar (ch : UInt8)
  deriving DecidableEq, Repr

/-- A byte read as the character of the same code. -/
def byteChar (b : UInt8) : Char := Char.ofNat b.toNat

/-- `rankToChar`. -/
def rankToChar (r : Rank) : Option UInt8 :=
  match r.toNat with
  | 2 => some '2'.toUInt8
  | 3 => some '3'.toUInt8
  | 4 => some '4'.toUInt8
  | 5 => some '5'.toUInt8
  | 6 => some '6'.toUInt8
  | 7 => some '7'.toUInt8
  | 8 => some '8'.toUInt8
  | 9 => some '9'.toUInt8
  | 10 => some 'T'.toUInt8
  | 11 => some 'J'.toUInt8
  | 12 => some 'Q'.toUInt8
  | 13 => some 'K'.toUInt8
  | 14 => some 'A'.toUInt8
  | _ => none

/-- `charToRank`: a lower-case letter is first brought to upper case, then the byte is compared with
    the rank characters. -/
def charToRank (ch : UInt8) : Option Rank :=
  let u := if 'a'.toUInt8 ≤ ch ∧ ch ≤ 'z'.toUInt8 then ch - ('a'.toUInt8 - 'A'.toUInt8) else ch
  if u.toNat = '2'.toNat then some 2
  else if u.toNat = '3'.toNat then some 3
  else if u.toNat = '4'.toNat then some 4
  else if u.toNat = '5'.toNat then some 5
  else if u.toNat = '6'.toNat then some 6
  else if u.toNat = '7'.toNat then some 7
  else if u.toNat = '8'.toNat then some 8
  else if u.toNat = '9'.toNat then some 9
  else if u.toNat = 'T'.toNat then some 10
  else if u.toNat = 'J'.toNat then some 11
  else if u.toNat = 'Q'.toNat then some 12
  else if u.toNat = 'K'.toNat then some 13
  else if u.toNat = 'A'.toNat then some 14
  else none

/-- `suitToChar`. -/
def suitToChar (s : Suit) : Option UInt8 :=
  match s.toNat with
  | 0 => some 'c'.toUInt8
  | 1 => some 'd'.toUInt8
  | 2 => some 'h'.toUInt8
  | 3 => some 's'.toUInt8
  | _ => none

/-- The suit switch of `UnmarshalJSON`: an upper-case letter is first brought to lower case, then
    the byte is compared with the suit characters. -/
def charToSuit (sCh : UInt8) : Option Suit :=
  let u := if 'A'.toUInt8 ≤ sCh ∧ sCh ≤ 'Z'.toUInt8 then sCh + ('a'.toUInt8 - 'A'.toUInt8) else sCh
  if u.toNat = 'c'.toNat then some 0
  else if u.toNat = 'd'.toNat then some 1
  else if u.toNat = 'h'.toNat then some 2
  else if u.toNat = 's'.toNat then some 3
  else none

/-- `unicode.IsSpace`: the Latin-1 spaces, then the rest of the Unicode white space table. -/
def isSpace (c : Char) : Bool :=
  match c.toNat with
  | 0x09 | 0x0a | 0x0b | 0x0c | 0x0d | 0x20 | 0x85 | 0xa0 => true
  | 0x1680 | 0x2028 | 0x2029 | 0x202f | 0x205f | 0x3000 => true
  | n => 0x2000 ≤ n && n ≤ 0x200a

/-- `strings.TrimSpace`: the string without the white space at either end. -/
def trimSpace (s : String) : String :=
  ⟨((s.data.dropWhile isSpace).reverse.dropWhile isSpace).reverse⟩

/-- The string `Card.MarshalJSON` hands to `json.Marshal`: `string([]byte{r, s})`. -/
def cardLiteral (c : Card) : Except CardError String :=
  match rankToChar c.rank, suitToChar c.suit with
  | none, _ => .error (.invalidRank c.rank)
  | some _, none => .error (.invalidSuit c.suit)
  | some r, some s => .ok ⟨[byteChar r, byteChar s]⟩

/-- `Card.UnmarshalJSON`, on the string `json.Unmarshal` has read. -/
def unmarshalCard (s : String) : Except CardError Card :=
  let s := trimSpace s
  match s.toUTF8.data.toList with
  | [rCh, sCh] =>
    match charToRank rCh, charToSuit sCh with
    | none, _ => .error (.invalidRankChar rCh)
    | some _, none => .error (.invalidSuitChar sCh)
    | some r, some suit => .ok ⟨r, suit⟩
  | _ => .error (.invalidLiteral s)

/-! ### The character tables

Each table is a fact about the 256 byte values, decided once and read at any byte. -/

section Tables
set_option maxRecDepth 2000

theorem forall_byte {P : UInt8 → Prop} (h : ∀ n < 256, P n.toUInt8) (b : UInt8) : P b := by
  have hb := h b.toNat b.toNat_lt_size
  rwa [show b.toNat.toUInt8 = b from
    UInt8.eq_of_val_eq (Fin.ext (UInt8.toNat_ofNat_of_lt b.toNat_lt_size))] at hb

theorem rankToChar_spec (r : Rank) : ((rankToChar r).isSome ↔ 2 ≤ r.toNat ∧ r.toNat ≤ 14) ∧
    ∀ ch ∈ rankToChar r, ch.toNat < 128 ∧ isSpace (byteChar ch) = false ∧ charToRank ch = some r := by
  revert r; exact forall_byte (by decide)

theorem charToRank_spec (x : UInt8) :
    (∀ r ∈ charToRank x, x.toNat < 128 ∧ ∃ ch ∈ rankToChar r, (byteChar x).toLower = (byteChar ch).toLower) ∧
      (x.toNat < 128 → charToRank (byteChar x).toLower.toNat.toUInt8 = charToRank x) := by
  revert x; exact forall_byte (by decide)

theorem suitToChar_spec (s : Suit) : ((suitToChar s).isSome ↔ s.toNat ≤ 3) ∧
    ∀ ch ∈ suitToChar s, ch.toNat < 128 ∧ isSpace (byteChar ch) = false ∧ charToSuit ch = some s := by
  revert s; exact forall_byte (by decide)

theorem charToSuit_spec (y : UInt8) :
    (∀ s ∈ charToSuit y, y.toNat < 128 ∧ ∃ ch ∈ suitToChar s, (byteChar y).toLower = (byteChar ch).toLower) ∧
      (y.toNat < 128 → charToSuit (byteChar y).toLower.toNat.toUInt8 = charToSuit y) := by
  revert y; exact forall_byte (by decide)

theorem le_or_lead (a : UInt8) :
    0xc0 ≤ (a ||| 0xc0).toNat ∧ 0xc0 ≤ (a ||| 0xe0).toNat ∧ 0xc0 ≤ (a ||| 0xf0).toNat := by
  revert a; exact forall_byte (by decide)

theorem utf8EncodeChar_byteChar (x : UInt8) (hx : x.toNat < 128) : String.utf8EncodeChar (byteChar x) = [x] := by
  revert x; exact forall_byte (by decide)

end Tables

/-! ### Bytes and characters -/

theorem eq_byteChar_of_utf8EncodeChar {c : Char} {x : UInt8} {t : List UInt8}
    (h : String.utf8EncodeChar c = x :: t) (hx : x.toNat < 128) : c = byteChar x ∧ t = [] := by
  dsimp only [String.utf8EncodeChar] at h
  split_ifs at h with h₁ <;> simp only [List.cons.injEq] at h <;> obtain ⟨rfl, rfl⟩ := h
  · have hc : c.val.toNat ≤ 127 := UInt32.toNat_le_of_le (by decide) h₁
    refine ⟨?_, rfl⟩
    show c = Char.ofNat (UInt8.ofNat c.val.toNat).toNat
    rw [UInt8.toNat_ofNat_of_lt (show c.val.toNat < 256 by omega)]
    exact (Char.ofNat_toNat c).symm
  · have := (le_or_lead ((c.val >>> 6).toUInt8 &&& 0x1f)).1; omega
  · have := (le_or_lead ((c.val >>> 12).toUInt8 &&& 0x0f)).2.1; omega
  · have := (le_or_lead ((c.val >>> 18).toUInt8 &&& 0x07)).2.2; omega

theorem eq_map_byteChar_of_flatMap {l : List Char} {bs : List UInt8}
    (h : l.flatMap String.utf8EncodeChar = bs) (hbs : ∀ b ∈ bs, b.toNat < 128) : l = bs.map byteChar := by
  induction l generalizing bs with
  | nil => simp [← h]
  | cons a l ih =>
    obtain ⟨x, t, hxt⟩ := List.exists_cons_of_length_pos
      ((String.length_utf8EncodeChar a).symm ▸ a.utf8Size_pos)
    rw [List.flatMap_cons, hxt, List.cons_append] at h
    subst h
    obtain ⟨rfl, rfl⟩ := eq_byteChar_of_utf8EncodeChar hxt (hbs x (List.mem_cons_self _ _))
    exact congrArg (byteChar x :: ·) (ih (List.nil_append _).symm fun b hb => hbs b (List.mem_cons_of_mem _ hb))

theorem trimSpace_pair {a b : Char} (ha : isSpace a = false) (hb : isSpace b = false) :
    trimSpace ⟨[a, b]⟩ = ⟨[a, b]⟩ := by
  simp [trimSpace, List.dropWhile, ha, hb]

theorem toNat_lt_of_toLower_eq {a b : Char} (hb : b.toNat < 128) (h : a.toLower = b.toLower) :
    a.toNat < 128 := by
  dsimp only [Char.toLower] at h
  split_ifs at h with h₁ h₂
  · omega
  · omega
  · rw [h, Char.ofNat, dif_pos (Or.inl (by omega))]
    show b.toNat + 32 < 128
    omega
  · rw [h]; exact hb

/-! ### What the codec does -/

theorem cardLiteral_eq_ok {c : Card} {lit : String} :
    cardLiteral c = .ok lit ↔
      ∃ rc ∈ rankToChar c.rank, ∃ sc ∈ suitToChar c.suit, lit = ⟨[byteChar rc, byteChar sc]⟩ := by
  cases hr : rankToChar c.rank <;> cases hs : suitToChar c.suit <;> simp [cardLiteral, hr, hs, eq_comm]

theorem unmarshalCard_eq_ok_iff {s : String} {c : Card} :
    unmarshalCard s = .ok c ↔ ∃ x y, (trimSpace s).toUTF8.data.toList = [x, y] ∧
      charToRank x = some c.rank ∧ charToSuit y = some c.suit := by
  obtain ⟨cr, cs⟩ := c
  dsimp only [unmarshalCard]
  split
  · rename_i rCh sCh hb
    rw [hb]
    constructor
    · intro h
      refine ⟨rCh, sCh, rfl, ?_⟩
      revert h
      cases charToRank rCh <;> cases charToSuit sCh <;> simp
    · rintro ⟨x, y, hxy, hx, hy⟩
      obtain ⟨rfl, rfl⟩ : rCh = x ∧ sCh = y := by simpa using hxy
      simp [hx, hy]
  · rename_i hb
    exact ⟨nofun, fun ⟨x, y, h, _⟩ => (hb x y h).elim⟩

@[simp] theorem toNat_byteChar (x : UInt8) : (byteChar x).toNat = x.toNat := by
  rw [byteChar, Char.ofNat, dif_pos (Or.inl (by have := x.toNat_lt_size; simp only [UInt8.size] at this; omega))]
  rfl

theorem byteChar_toUInt8 {a : Char} (h : a.toNat < 128) : byteChar a.toNat.toUInt8 = a := by
  rw [byteChar, UInt8.toNat_ofNat_of_lt (show a.toNat < 256 by omega), Char.ofNat_toNat]

theorem charToRank_of_toLower_eq {r : Rank} {rc x : UInt8} (hr : rankToChar r = some rc)
    (hx : x.toNat < 128) (h : (byteChar x).toLower = (byteChar rc).toLower) : charToRank x = some r := by
  obtain ⟨hrc, -, hrr⟩ := (rankToChar_spec r).2 rc hr
  calc charToRank x = charToRank (byteChar x).toLower.toNat.toUInt8 := ((charToRank_spec x).2 hx).symm
    _ = charToRank (byteChar rc).toLower.toNat.toUInt8 := by rw [h]
    _ = some r := by rw [(charToRank_spec rc).2 hrc, hrr]

theorem charToSuit_of_toLower_eq {s : Suit} {sc y : UInt8} (hs : suitToChar s = some sc)
    (hy : y.toNat < 128) (h : (byteChar y).toLower = (byteChar sc).toLower) : charToSuit y = some s := by
  obtain ⟨hsc, -, hss⟩ := (suitToChar_spec s).2 sc hs
  calc charToSuit y = charToSuit (byteChar y).toLower.toNat.toUInt8 := ((charToSuit_spec y).2 hy).symm
    _ = charToSuit (byteChar sc).toLower.toNat.toUInt8 := by rw [h]
    _ = some s := by rw [(charToSuit_spec sc).2 hsc, hss]

theorem unmarshalCard_literal {c : Card} {rc sc : UInt8} (hr : rankToChar c.rank = some rc)
    (hs : suitToChar c.suit = some sc) : unmarshalCard ⟨[byteChar rc, byteChar sc]⟩ = .ok c := by
  obtain ⟨hrc, hrs, hrr⟩ := (rankToChar_spec c.rank).2 rc hr
  obtain ⟨hsc, hss, hsr⟩ := (suitToChar_spec c.suit).2 sc hs
  refine unmarshalCard_eq_ok_iff.2 ⟨rc, sc, ?_, hrr, hsr⟩
  rw [trimSpace_pair hrs hss]
  show [byteChar rc, byteChar sc].flatMap String.utf8EncodeChar = _
  simp [utf8EncodeChar_byteChar rc hrc, utf8EncodeChar_byteChar sc hsc]

theorem exists_literal_of_valid {c : Card} (h : c.Valid) :
    ∃ lit, cardLiteral c = .ok lit ∧ unmarshalCard lit = .ok c := by
  obtain ⟨rc, hr⟩ := Option.isSome_iff_exists.1 ((rankToChar_spec c.rank).1.2 ⟨h.1, h.2.1⟩)
  obtain ⟨sc, hs⟩ := Option.isSome_iff_exists.1 ((suitToChar_spec c.suit).1.2 h.2.2)
  exact ⟨_, cardLiteral_eq_ok.2 ⟨rc, hr, sc, hs, rfl⟩, unmarshalCard_literal hr hs⟩

/-- `UnmarshalJSON` accepts a string exactly when it trims to the literal of the card it reads, up to
    ASCII letter case. -/
theorem unmarshalCard_eq_ok (s : String) (c : Card) :
    unmarshalCard s = .ok c ↔
      ∃ lit, cardLiteral c = .ok lit ∧ (trimSpace s).data.map Char.toLower = lit.data.map Char.toLower := by
  rw [unmarshalCard_eq_ok_iff]
  constructor
  · rintro ⟨x, y, hb, hx, hy⟩
    obtain ⟨hx', rc, hrc, hlx⟩ := (charToRank_spec x).1 _ hx
    obtain ⟨hy', sc, hsc, hly⟩ := (charToSuit_spec y).1 _ hy
    have hd := eq_map_byteChar_of_flatMap hb (by simp [hx', hy'])
    refine ⟨_, cardLiteral_eq_ok.2 ⟨rc, hrc, sc, hsc, rfl⟩, ?_⟩
    rw [hd]
    simp [hlx, hly]
  · rintro ⟨lit, hlit, hl⟩
    obtain ⟨rc, hrc, sc, hsc, rfl⟩ := cardLiteral_eq_ok.1 hlit
    simp only [List.map_cons, List.map_nil, List.map_eq_cons_iff, List.map_eq_nil_iff] at hl
    obtain ⟨a, _, hd, ha, b, _, rfl, hb, rfl⟩ := hl
    have ha' := toNat_lt_of_toLower_eq (by simpa using ((rankToChar_spec c.rank).2 rc hrc).1) ha
    have hb' := toNat_lt_of_toLower_eq (by simpa using ((suitToChar_spec c.suit).2 sc hsc).1) hb
    have hx : a.toNat.toUInt8.toNat < 128 := by rw [toNat_toUInt8 (by omega)]; exact ha'
    have hy : b.toNat.toUInt8.toNat < 128 := by rw [toNat_toUInt8 (by omega)]; exact hb'
    refine ⟨_, _, ?_, charToRank_of_toLower_eq hrc hx (by rw [byteChar_toUInt8 ha', ha]),
      charToSuit_of_toLower_eq hsc hy (by rw [byteChar_toUInt8 hb', hb])⟩
    show (trimSpace s).data.flatMap String.utf8EncodeChar = _
    rw [hd]
    conv_lhs => rw [← byteChar_toUInt8 ha', ← byteChar_toUInt8 hb']
    simp [utf8EncodeChar_byteChar _ hx, utf8EncodeChar_byteChar _ hy]

example : unmarshalCard " tH\n" = .ok ⟨10, 2⟩ := rfl

/-! ### The board of an engine snapshot -/

/-- `json.Marshal` of a slice of valid cards writes each card's literal, and `json.Unmarshal` reads
    the literals back as the slice. -/
theorem mapM_roundTrip : ∀ {l : List Card}, (∀ c ∈ l, c.Valid) →
    ∃ lits, l.mapM cardLiteral = .ok lits ∧ lits.mapM unmarshalCard = .ok l
  | [], _ => ⟨[], rfl, rfl⟩
  | c :: l, h => by
    obtain ⟨lit, hc, hu⟩ := exists_literal_of_valid (h c (List.mem_cons_self _ _))
    obtain ⟨lits, hl, hv⟩ := mapM_roundTrip fun c' hc' => h c' (List.mem_cons_of_mem _ hc')
    refine ⟨lit :: lits, ?_, ?_⟩
    · rw [List.mapM_cons, hc, hl]; rfl
    · rw [List.mapM_cons, hu, hv]; rfl

/-- The board of every reachable engine, which its snapshot carries, has a literal for each card,
    and the literals read back as the board. -/
theorem board_roundTrip {s : State} (hs : Reachable s) :
    ∃ lits, s.board.mapM cardLiteral = .ok lits ∧ lits.mapM unmarshalCard = .ok s.board :=
  mapM_roundTrip fun c hc => (State.DealtOnce.of_reachable hs).valid c (by simp [State.cards, hc])

theorem board_roundTrip_flop :
    let e := (newState 5 10).run
      [.sit "A" 1000, .sit "B" 1000, .startHand ⟨fun _ _ => 0, fun _ _ h => h⟩, .advancePhase]
    ∃ lits, e.board.mapM cardLiteral = .ok lits ∧ lits.mapM unmarshalCard = .ok e.board :=
  board_roundTrip ((Reachable.init 5 10).run _)

end P2Poker
