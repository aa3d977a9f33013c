import Mathlib.Data.List.Infix
import Mathlib.Data.List.Forall2
import Mathlib.Algebra.Group.Nat.Basic

/-! # The wire format of the TCP transport

`Encode` writes a message as a frame: the length of its JSON as a big-endian `uint32`, then the
JSON. `Decode` reads one frame off a connection: four bytes of length, a refusal above 10 MiB, that
many bytes, and the JSON decoding. `readLoop` decodes frame after frame off a connection and
delivers each message to the inbox, until a read fails.

The JSON codec is the Go library's, so it is a parameter here (`marshal`, `unmarshal`); the results
assume of it only what they name. A stream made of frames is received as its messages, in order,
and the loop ends with `EOF` when the stream does (`receive_frames`). A stream cut anywhere
delivers an initial segment of them and nothing else (`receive_truncated`). `Encode` does not check the
cap that `Decode` enforces: a message whose JSON is above 10 MiB goes out, the reader refuses it and
stops, and nothing after it on that connection is delivered (`receive_oversized`). -/

namespace P2Poker
namespace Frame

/-- The largest frame `Decode` reads: `10*1024*1024` bytes. -/
def maxFrame : Nat := 10 * 1024 * 1024

/-- `binary.Write(&buf, binary.BigEndian, uint32(n))`: the four bytes of `n` modulo `2^32`, the most
    significant first. -/
def be32 (n : Nat) : List UInt8 :=
  [(n / 2 ^ 24 % 256).toUInt8, (n / 2 ^ 16 % 256).toUInt8, (n / 2 ^ 8 % 256).toUInt8, (n % 256).toUInt8]

/-- `binary.Read(r, binary.BigEndian, &n)` of the four bytes it read. -/
def readBE32 : List UInt8 → Nat
  | [b₀, b₁, b₂, b₃] => b₀.toNat * 2 ^ 24 + b₁.toNat * 2 ^ 16 + b₂.toNat * 2 ^ 8 + b₃.toNat
  | _ => 0

/-- The frame around a payload: its length, then the payload. -/
def frame (b : List UInt8) : List UInt8 := be32 b.length ++ b

/-- `Encode(msg)`: the JSON of the message, framed, or the marshalling error. -/
def encode {α : Type} (marshal : α → Except String (List UInt8)) (msg : α) : Except String (List UInt8) :=
  (marshal msg).map frame

/-- The errors of a read: `io.EOF`, `io.ErrUnexpectedEOF`, `frame too large: n`, and the JSON error. -/
inductive ReadError
  | eof
  | unexpectedEOF
  | frameTooLarge (n : Nat)
  | json (e : String)
deriving DecidableEq, Repr

/-- `io.ReadFull(r, buf)` with `len(buf) = n`: the first `n` bytes and the rest of the stream;
    `EOF` if the stream ends before the first byte, `ErrUnexpectedEOF` if it ends within them. -/
def readFull (n : Nat) (r : List UInt8) : Except ReadError (List UInt8 × List UInt8) :=
  if n ≤ r.length then .ok (r.take n, r.drop n)
  else if r = [] then .error .eof
  else .error .unexpectedEOF

/-- `Decode(r)`: the message of the next frame and the rest of the stream. -/
def decode {α : Type} (unmarshal : List UInt8 → Except String α) (r : List UInt8) :
    Except ReadError (α × List UInt8) :=
  match readFull 4 r with
  | .error e => .error e
  | .ok (hdr, r) =>
    let n := readBE32 hdr
    if maxFrame < n then .error (.frameTooLarge n)
    else
      match readFull n r with
      | .error e => .error e
      | .ok (buf, r) =>
        match unmarshal buf with
        | .ok msg => .ok (msg, r)
        | .error e => .error (.json e)

/-- `readLoop` on a connection whose bytes are `r`, for `fuel` rounds: the messages it delivers to
    the inbox, in order, and the error that ends it (`EOF` closes quietly, any other is logged).
    Cancellation and read timeouts are left out: a byte stream has no timeouts, and cancellation
    only stops the loop sooner. -/
def readLoop {α : Type} (unmarshal : List UInt8 → Except String α) : Nat → List UInt8 → List α × ReadError
  | 0, _ => ([], .eof)
  | fuel + 1, r =>
    match decode unmarshal r with
    | .ok (msg, r') => (msg :: (readLoop unmarshal fuel r').1, (readLoop unmarshal fuel r').2)
    | .error e => ([], e)

/-- What a connection delivers: one round per byte, more than the loop can take, since every frame
    is four bytes or more. -/
def receive {α : Type} (unmarshal : List UInt8 → Except String α) (r : List UInt8) : List α × ReadError :=
  readLoop unmarshal (r.length + 1) r

/-! ### One frame -/

theorem readBE32_be32 (n : Nat) : readBE32 (be32 n) = n % 2 ^ 32 := by
  have h (x : Nat) : (x % 256).toUInt8.toNat = x % 256 := UInt8.toNat_ofNat_of_lt (Nat.mod_lt _ (by decide))
  simp only [be32, readBE32, h]
  omega

@[simp] theorem length_be32 (n : Nat) : (be32 n).length = 4 := rfl

@[simp] theorem length_frame (b : List UInt8) : (frame b).length = b.length + 4 := by
  simp [frame, Nat.add_comm]

theorem readFull_append {n : Nat} {b : List UInt8} (h : b.length = n) (r : List UInt8) :
    readFull n (b ++ r) = .ok (b, r) := by
  simp [readFull, ← h]

theorem readFull_short {n : Nat} {r : List UInt8} (h : r.length < n) :
    readFull n r = .error (if r = [] then .eof else .unexpectedEOF) := by
  unfold readFull
  rw [if_neg (by omega)]
  split_ifs <;> rfl

theorem decode_frame {α : Type} {unmarshal : List UInt8 → Except String α} {b : List UInt8} (hb : b.length ≤ maxFrame)
    (r : List UInt8) :
    decode unmarshal (frame b ++ r) =
      match unmarshal b with
      | .ok msg => .ok (msg, r)
      | .error e => .error (.json e) := by
  have hlen : b.length % 2 ^ 32 = b.length := Nat.mod_eq_of_lt (by unfold maxFrame at hb; omega)
  simp only [decode, frame, List.append_assoc, readFull_append (length_be32 _), readBE32_be32, hlen,
    if_neg (Nat.not_lt.mpr hb), readFull_append rfl]

theorem readFull_eq_ok {n : Nat} {r b r' : List UInt8} (h : readFull n r = .ok (b, r')) :
    b.length = n ∧ r = b ++ r' := by
  unfold readFull at h
  split_ifs at h with h₁
  cases h
  exact ⟨List.length_take_of_le h₁, (List.take_append_drop n r).symm⟩

/-- What a decoded frame was: a header of four bytes whose length is within the cap, that many bytes
    of payload that the JSON decoder takes, then the rest of the stream. -/
theorem decode_eq_ok {α : Type} {unmarshal : List UInt8 → Except String α} {r r' : List UInt8} {msg : α}
    (h : decode unmarshal r = .ok (msg, r')) :
    ∃ hdr buf, r = hdr ++ buf ++ r' ∧ hdr.length = 4 ∧ readBE32 hdr ≤ maxFrame ∧ buf.length = readBE32 hdr ∧
      unmarshal buf = .ok msg := by
  unfold decode at h
  split at h
  · cases h
  · rename_i hdr r₁ h₁
    dsimp only at h
    split_ifs at h with hn
    split at h
    · cases h
    · rename_i buf r₂ h₂
      split at h
      · rename_i hm
        cases h
        obtain ⟨hl₁, rfl⟩ := readFull_eq_ok h₁
        obtain ⟨hl₂, rfl⟩ := readFull_eq_ok h₂
        exact ⟨hdr, buf, List.append_assoc _ _ _ ▸ rfl, hl₁, Nat.not_lt.mp hn, hl₂, hm⟩
      · cases h

theorem encode_eq_ok {α : Type} {marshal : α → Except String (List UInt8)} {msg : α} {f : List UInt8}
    (h : encode marshal msg = .ok f) : ∃ b, marshal msg = .ok b ∧ f = frame b := by
  unfold encode at h
  cases hm : marshal msg <;> rw [hm] at h <;> cases h
  exact ⟨_, rfl, rfl⟩

theorem decode_oversized {α : Type} {unmarshal : List UInt8 → Except String α} {b : List UInt8}
    (hb : maxFrame < b.length) (hb' : b.length < 2 ^ 32) (r : List UInt8) :
    decode unmarshal (frame b ++ r) = .error (.frameTooLarge b.length) := by
  simp only [decode, frame, List.append_assoc, readFull_append (length_be32 _), readBE32_be32,
    Nat.mod_eq_of_lt hb', if_pos hb]

theorem mod_length {b : List UInt8} (hb : b.length ≤ maxFrame) : b.length % 2 ^ 32 = b.length :=
  Nat.mod_eq_of_lt (by unfold maxFrame at hb; omega)

theorem decode_cut {α : Type} {unmarshal : List UInt8 → Except String α} {b p : List UInt8} (hb : b.length ≤ maxFrame)
    (hp : p <+: frame b) (hlt : p.length < (frame b).length) :
    decode unmarshal p = .error .eof ∨ decode unmarshal p = .error .unexpectedEOF := by
  by_cases h4 : p.length < 4
  · rw [decode, readFull_short h4]
    split_ifs <;> simp
  · have hp' : p = be32 b.length ++ b.take (p.length - 4) := by
      rw [List.prefix_iff_eq_take.mp hp, frame, List.take_append_eq_append_take,
        List.take_of_length_le (by simp; omega), length_be32]
      simp
    have hq : (b.take (p.length - 4)).length < b.length := by
      simp only [length_frame] at hlt
      simp only [List.length_take]
      omega
    rw [hp']
    simp only [decode, readFull_append (length_be32 _), readBE32_be32, mod_length hb, if_neg (Nat.not_lt.mpr hb),
      readFull_short hq]
    split_ifs <;> simp

/-! ### Streams of frames -/

section Stream
variable {α : Type} {unmarshal : List UInt8 → Except String α}

theorem readLoop_nil (fuel : Nat) : readLoop unmarshal fuel [] = ([], .eof) := by
  cases fuel <;> rfl

theorem readLoop_frame {b : List UInt8} {msg : α} (hb : b.length ≤ maxFrame) (hm : unmarshal b = .ok msg)
    (fuel : Nat) (r : List UInt8) :
    readLoop unmarshal (fuel + 1) (frame b ++ r) =
      (msg :: (readLoop unmarshal fuel r).1, (readLoop unmarshal fuel r).2) := by
  rw [readLoop, decode_frame hb, hm]

theorem carries_of_encode {marshal : α → Except String (List UInt8)}
    (hrt : ∀ msg b, marshal msg = .ok b → unmarshal b = .ok msg) {msg : α} {f : List UInt8}
    (h : encode marshal msg = .ok f ∧ f.length ≤ maxFrame + 4) :
    ∃ b, f = frame b ∧ b.length ≤ maxFrame ∧ unmarshal b = .ok msg := by
  obtain ⟨b, hm, rfl⟩ := encode_eq_ok h.1
  exact ⟨b, rfl, by simpa using h.2, hrt _ _ hm⟩

theorem readLoop_frames {ms : List α} {fs : List (List UInt8)}
    (h : List.Forall₂ (fun msg f => ∃ b, f = frame b ∧ b.length ≤ maxFrame ∧ unmarshal b = .ok msg) ms fs)
    (r : List UInt8) {fuel : Nat} (hf : (fs.flatten ++ r).length < fuel) :
    ∃ fuel', r.length < fuel' ∧ readLoop unmarshal fuel (fs.flatten ++ r) =
      (ms ++ (readLoop unmarshal fuel' r).1, (readLoop unmarshal fuel' r).2) := by
  induction h generalizing fuel with
  | nil => exact ⟨fuel, hf, by simp⟩
  | cons hf₀ _ ih =>
    obtain ⟨b, rfl, hb, hm⟩ := hf₀
    simp only [List.flatten_cons, List.append_assoc, List.length_append, length_frame] at hf ⊢
    obtain ⟨fuel, rfl⟩ : ∃ k, fuel = k + 1 := ⟨fuel - 1, by omega⟩
    obtain ⟨fuel', hr, he⟩ := @ih fuel (by simp only [List.length_append]; omega)
    refine ⟨fuel', hr, ?_⟩
    rw [readLoop_frame hb hm, he]
    rfl

/-- A connection that carries, one after the other, the frames `Encode` wrote for `ms`, each within
    the cap, delivers `ms` in order and ends with `EOF` where the stream ends, as long as the JSON
    decoder reads back what the encoder wrote. -/
theorem receive_frames {marshal : α → Except String (List UInt8)}
    (hrt : ∀ msg b, marshal msg = .ok b → unmarshal b = .ok msg) {ms : List α} {fs : List (List UInt8)}
    (henc : List.Forall₂ (fun msg f => encode marshal msg = .ok f ∧ f.length ≤ maxFrame + 4) ms fs) :
    receive unmarshal fs.flatten = (ms, .eof) := by
  have hc := List.Forall₂.imp (fun _ _ h => carries_of_encode hrt h) henc
  obtain ⟨fuel, -, he⟩ := readLoop_frames hc [] (Nat.lt_add_one _)
  rw [List.append_nil] at he
  rw [receive, he, readLoop_nil, List.append_nil]

/-- Two messages of one byte each, under a codec that writes a message as its byte. -/
theorem receive_frames_bytes :
    receive (fun b => match b with | [x] => .ok x | _ => .error "want one byte") (frame [5] ++ frame [6]) =
      ([5, 6], .eof) :=
  @receive_frames UInt8 _ (fun x => .ok [x]) (fun _ _ h => by cases h; rfl) [5, 6] [frame [5], frame [6]]
    (.cons ⟨rfl, by decide⟩ (.cons ⟨rfl, by decide⟩ .nil))

/-- A message whose JSON is above the cap, and below `2^32` bytes, after frames that carry `ms`: the
    reader delivers `ms`, refuses the frame and stops, whatever follows. -/
theorem receive_oversized {marshal : α → Except String (List UInt8)}
    (hrt : ∀ msg b, marshal msg = .ok b → unmarshal b = .ok msg) {ms : List α} {fs : List (List UInt8)}
    (henc : List.Forall₂ (fun msg f => encode marshal msg = .ok f ∧ f.length ≤ maxFrame + 4) ms fs)
    {big : α} {f : List UInt8} (hbig : encode marshal big = .ok f) (hf : maxFrame + 4 < f.length)
    (hf' : f.length < 2 ^ 32 + 4) (r : List UInt8) :
    receive unmarshal (fs.flatten ++ f ++ r) = (ms, .frameTooLarge (f.length - 4)) := by
  obtain ⟨b, -, rfl⟩ := encode_eq_ok hbig
  simp only [length_frame] at hf hf' ⊢
  have hc := List.Forall₂.imp (fun _ _ h => carries_of_encode hrt h) henc
  rw [receive, List.append_assoc]
  obtain ⟨fuel, hr, he⟩ := readLoop_frames hc (frame b ++ r) (Nat.lt_add_one _)
  obtain ⟨k, rfl⟩ : ∃ k, fuel = k + 1 := ⟨fuel - 1, by simp at hr; omega⟩
  rw [he, readLoop, decode_oversized (by omega) (by omega)]
  simp

/-- A message of one byte, then one of `10*1024*1024 + 1` zero bytes, then another of one byte: the
    reader delivers the first and stops at the second; the third is lost. -/
theorem receive_oversized_tenMiB :
    receive (fun b => .ok b) ([frame [7]].flatten ++ frame (List.replicate (maxFrame + 1) 0) ++ frame [8]) =
      ([[7]], .frameTooLarge ((frame (List.replicate (maxFrame + 1) 0)).length - 4)) :=
  @receive_oversized (List UInt8) _ (fun b => .ok b) (fun _ _ h => h.symm) [[7]] [frame [7]]
    (.cons ⟨rfl, by decide⟩ .nil) (List.replicate (maxFrame + 1) 0) _ rfl
    (by rw [length_frame, List.length_replicate]; omega)
    (by rw [length_frame, List.length_replicate]; unfold maxFrame; omega) (frame [8])

/-- A stream cut anywhere in frames that carry `ms`: the loop delivers the messages of the frames that
    arrived whole, and stops at the cut with `EOF` or `ErrUnexpectedEOF`. -/
theorem readLoop_truncated {ms : List α} {fs : List (List UInt8)}
    (h : List.Forall₂ (fun msg f => ∃ b, f = frame b ∧ b.length ≤ maxFrame ∧ unmarshal b = .ok msg) ms fs)
    {p : List UInt8} (hp : p <+: fs.flatten) {fuel : Nat} (hf : p.length < fuel) :
    (readLoop unmarshal fuel p).1 <+: ms ∧
      ((readLoop unmarshal fuel p).2 = .eof ∨ (readLoop unmarshal fuel p).2 = .unexpectedEOF) := by
  induction h generalizing p fuel with
  | nil =>
    rw [List.flatten_nil, List.prefix_nil] at hp
    subst hp
    rw [readLoop_nil]
    exact ⟨List.nil_prefix, .inl rfl⟩
  | cons hc _ ih =>
    obtain ⟨b, rfl, hb, hm⟩ := hc
    obtain ⟨fuel, rfl⟩ : ∃ k, fuel = k + 1 := ⟨fuel - 1, by omega⟩
    obtain ⟨t, ht⟩ := hp
    rw [List.flatten_cons] at ht
    rcases List.append_eq_append_iff.mp ht with ⟨a', hfa, -⟩ | ⟨c', rfl, hrest⟩
    · by_cases ha : a' = []
      · rw [ha, List.append_nil] at hfa
        subst hfa
        have hn := @ih [] List.nil_prefix fuel (by simp at hf ⊢; omega)
        rw [← List.append_nil (frame b), readLoop_frame hb hm]
        exact ⟨(List.prefix_cons_inj _).mpr hn.1, hn.2⟩
      · have hlt : p.length < (frame b).length := by
          rw [hfa, List.length_append]
          have := List.length_pos.mpr ha
          omega
        rcases @decode_cut _ unmarshal _ _ hb ⟨a', hfa.symm⟩ hlt with hd | hd <;>
          simp [readLoop, hd]
    · have hn := @ih _ ⟨t, hrest.symm⟩ fuel (by simp only [List.length_append, length_frame] at hf; omega)
      rw [readLoop_frame hb hm]
      exact ⟨(List.prefix_cons_inj _).mpr hn.1, hn.2⟩

/-- A connection that breaks anywhere while it carries the frames `Encode` wrote for `ms`, each within
    the cap: the reader delivers the messages of the frames that arrived whole, an initial segment of
    `ms` with nothing in between and nothing cut, and stops with `EOF` or `ErrUnexpectedEOF`. -/
theorem receive_truncated {marshal : α → Except String (List UInt8)}
    (hrt : ∀ msg b, marshal msg = .ok b → unmarshal b = .ok msg) {ms : List α} {fs : List (List UInt8)}
    (henc : List.Forall₂ (fun msg f => encode marshal msg = .ok f ∧ f.length ≤ maxFrame + 4) ms fs)
    {p : List UInt8} (hp : p <+: fs.flatten) :
    (receive unmarshal p).1 <+: ms ∧ ((receive unmarshal p).2 = .eof ∨ (receive unmarshal p).2 = .unexpectedEOF) :=
  readLoop_truncated (List.Forall₂.imp (fun _ _ h => carries_of_encode hrt h) henc) hp (Nat.lt_succ_self _)

/-- Two one-byte messages, cut two bytes into the second frame: the first is delivered, and the
    read of the second header ends early. -/
theorem receive_truncated_cut :
    let dec : List UInt8 → Except String UInt8 := fun b => match b with | [x] => .ok x | _ => .error "want one byte"
    (receive dec ((frame [5] ++ frame [6]).take 7)).1 <+: [5, 6] ∧
      ((receive dec ((frame [5] ++ frame [6]).take 7)).2 = .eof ∨
        (receive dec ((frame [5] ++ frame [6]).take 7)).2 = .unexpectedEOF) :=
  @receive_truncated UInt8 _ (fun x => .ok [x]) (fun _ _ h => by cases h; rfl) [5, 6] [frame [5], frame [6]]
    (.cons ⟨rfl, by decide⟩ (.cons ⟨rfl, by decide⟩ .nil)) _ (List.take_prefix _ _)

end Stream

end Frame
end P2Poker
