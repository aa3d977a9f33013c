import P2Poker.Table.Replica

/-! The COMMIT stream of an authority: what one `commitAndBroadcast` writes.

    Every committed action gets one COMMIT, and the log and the dedup set grow by the committed
    actions in the order of their COMMITs. The sequence numbers do not follow that order. The nested
    `commitAndBroadcast` of a synthesized `ADVANCE_PHASE` (and of the `SHOWDOWN` after it) runs inside
    the `apply` of the action that triggered it, after that action's increment and before its COMMIT
    is written, and a COMMIT reads `t.seq` only once its `apply` has returned. All COMMITs of one call
    therefore carry the same number, the last one, and the triggering action comes last in the stream
    and in the log although it was applied first. A panic cuts the stream short: the COMMITs written
    before it stand, and the action whose `apply` panicked has been counted but not logged. -/

namespace P2Poker
namespace Table

/-- What a call of `commitAndBroadcast`, or the commits nested in an `apply`, do to the replica's
    bookkeeping (`t` before, `t'` after) with the messages `out` they write: COMMITs only, from the
    replica under its epoch, each stamped with the sequence number the call leaves and carrying no
    snapshot; the sequence number grows by their count, and by the action that panicked if one did;
    the log and the dedup set grow by their actions in message order; the replica's identity,
    configuration, role and epoch stay as they were, and a panic is never undone. -/
structure CommitStream (t t' : Table) (out : List NetMessage) : Prop where
  commit : ∀ m ∈ out, m.type = .commit ∧ m.sender = t.self ∧ m.epoch = t.epoch ∧ m.seq = t'.seq ∧
    m.state = none
  seq : t.seq + out.length ≤ t'.seq
  seq_eq : t'.panicked = false → t'.seq = t.seq + out.length
  log : t'.log = t.log ++ out.filterMap NetMessage.action
  dedup : t'.dedup = t.dedup ++ (out.filterMap NetMessage.action).map Action.id
  panicked : t.panicked = true → t'.panicked = true
  frame : t'.id = t.id ∧ t'.self = t.self ∧ t'.cfg = t.cfg ∧ t'.authority = t.authority ∧
    t'.epoch = t.epoch ∧ t'.authorityID = t.authorityID

section Stream
variable {rt : Runtime} {t : Table} {c r f : Table → Action → Table × List NetMessage}

theorem CommitStream.nil (e : State) (d : Nat) : CommitStream t { t with eng := e, draws := d } [] where
  commit _ h := absurd h (List.not_mem_nil _)
  seq := le_rfl
  seq_eq _ := rfl
  log := (List.append_nil _).symm
  dedup := (List.append_nil _).symm
  panicked h := h
  frame := ⟨rfl, rfl, rfl, rfl, rfl, rfl⟩

theorem CommitStream.of_eng {e : State} {d : Nat} {t' : Table} {out : List NetMessage}
    (h : CommitStream { t with eng := e, draws := d } t' out) : CommitStream t t' out :=
  ⟨h.commit, h.seq, h.seq_eq, h.log, h.dedup, h.panicked, h.frame⟩

theorem CommitStream.panicIf {x : Table × List NetMessage} (h : CommitStream t x.1 x.2) (p : Bool) :
    CommitStream t (panicIf p x).1 (panicIf p x).2 := by
  cases p
  · exact h
  · exact ⟨h.commit, h.seq, (nomatch ·), h.log, h.dedup, fun _ => rfl, h.frame⟩

theorem CommitStream.applyWith (hc : ∀ t b, CommitStream t (c t b).1 (c t b).2)
    (hr : ∀ t b, CommitStream t (r t b).1 (r t b).2) (t : Table) (a : Action) :
    CommitStream t (applyWith rt c r t a).1 (applyWith rt c r t a).2 := by
  rcases @applyWith_cases rt t a c r with ⟨-, -, h⟩ | ⟨-, -, h⟩ | ⟨-, -, h | ⟨-, -, h⟩ | ⟨-, -, h⟩⟩ <;>
    rw [h]
  exacts [.nil _ _, hr _ _, CommitStream.panicIf (x := (_, [])) (.nil _ _) _, (hc _ _).of_eng,
    (hc _ _).of_eng.panicIf _]

theorem CommitStream.commitWith (hf : ∀ t b, CommitStream t (f t b).1 (f t b).2) (t : Table) (a : Action) :
    CommitStream t (commitWith f t a).1 (commitWith f t a).2 := by
  unfold Table.commitWith
  obtain ⟨hm, hs, hse, hl, hd, hp, hid, hself, hcfg, hauth, hep, haid⟩ := hf { t with seq := t.seq + 1 } a
  generalize f { t with seq := t.seq + 1 } a = r at hm hs hse hl hd hp hid hself hcfg hauth hep haid
  dsimp only
  split_ifs with _ hr
  · exact .nil _ _
  · exact ⟨hm, by dsimp only at hs; omega, fun h => absurd (h ▸ hr) Bool.false_ne_true, hl, hd, fun _ => hr,
      hid, hself, hcfg, hauth, hep, haid⟩
  · have hse := hse (Bool.not_eq_true _ |>.mp hr)
    refine ⟨?_, ?_, ?_, ?_, ?_, hp, hid, hself, hcfg, hauth, hep, haid⟩
    · intro m hm'
      rcases List.mem_append.mp hm' with hm' | hm'
      · exact hm m hm'
      · rw [List.mem_singleton.mp hm']
        exact ⟨rfl, hself, hep, rfl, rfl⟩
    · simp only [hse, List.length_append, List.length_singleton]
      omega
    · intro _
      simp only [hse, List.length_append, List.length_singleton]
      omega
    · simp [hl, envelope]
    · simp [hd, envelope]

theorem commitStream_apply (n : Nat) (t : Table) (a : Action) :
    CommitStream t (apply rt n t a).1 (apply rt n t a).2 := by
  induction n generalizing t a with
  | zero => exact .applyWith (fun _ _ => .nil _ _) (fun _ _ => .nil _ _) t a
  | succ n ih => exact .applyWith (.commitWith ih) ih t a

end Stream

/-- One `commitAndBroadcast` writes one COMMIT per action it commits, in the order the log records
    them, and stamps every one of them with the sequence number it leaves. -/
theorem commitAndBroadcast_stream (rt : Runtime) (t : Table) (a : Action) :
    CommitStream t (t.commitAndBroadcast rt a).1 (t.commitAndBroadcast rt a).2 :=
  .commitWith (commitStream_apply 3) t a

/-! ### An `apply` that writes nothing -/

/-- The engine an `apply` leaves when none of its nested commits goes through: a seated `JOIN`
    keeps the engine, a `BET` against a live bet makes the engine call of a `RAISE`, and any other
    action makes its own. -/
def applyEngine (rt : Runtime) (cfg : TableConfig) (eng : State) (a : Action) : State :=
  if a.type = .join ∧ a.playerID ∈ eng.seats then eng
  else if a.type = .bet ∧ eng.currentBet ≠ 0 then (engineCall rt cfg eng { a with type := .raise }).1
  else (engineCall rt cfg eng a).1

theorem applyEngine_of_ne (rt : Runtime) (cfg : TableConfig) (eng : State) {a : Action}
    (hj : a.type ≠ .join) (hb : a.type ≠ .bet) : applyEngine rt cfg eng a = (engineCall rt cfg eng a).1 := by
  simp only [applyEngine, hj, hb, false_and, if_false]

theorem applyEngine_of_not {rt : Runtime} {cfg : TableConfig} {eng : State} {a : Action}
    (hj : ¬(a.type = .join ∧ a.playerID ∈ eng.seats)) (hb : ¬(a.type = .bet ∧ eng.currentBet ≠ 0)) :
    applyEngine rt cfg eng a = (engineCall rt cfg eng a).1 := by
  simp only [applyEngine, hj, hb, if_false]

/-- A nested commit that writes nothing and does not panic leaves the replica as it was. -/
def QuietCommit (c : Table → Action → Table × List NetMessage) : Prop :=
  ∀ t b, (c t b).2 = [] → (c t b).1.panicked = false → (c t b).1 = t

theorem quietCommit_commitWith (f : Table → Action → Table × List NetMessage) : QuietCommit (commitWith f) := by
  intro t b h hp
  unfold Table.commitWith at h hp ⊢
  dsimp only at h hp ⊢
  split_ifs at h hp ⊢ with _ hr
  · rfl
  · exact absurd (hp.symm.trans hr) Bool.false_ne_true
  · exact absurd h (List.append_ne_nil_of_right_ne_nil _ (List.cons_ne_nil _ _))

section Quiet
variable {rt : Runtime} {t : Table} {a : Action} {c r : Table → Action → Table × List NetMessage}

theorem applyWith_quiet (hc : QuietCommit c)
    (hr : a.type = .bet → t.eng.currentBet ≠ 0 → (r t { a with type := .raise }).2 = [] →
      (r t { a with type := .raise }).1.panicked = false →
      (r t { a with type := .raise }).1.eng = (engineCall rt t.cfg t.eng { a with type := .raise }).1)
    (h : (applyWith rt c r t a).2 = []) (hp : (applyWith rt c r t a).1.panicked = false) :
    (applyWith rt c r t a).1.eng = applyEngine rt t.cfg t.eng a ∧ applyPanics rt t.cfg t.eng a = false := by
  rcases @applyWith_cases rt t a c r with ⟨hj, hm, ha⟩ | ⟨hb, hbet, ha⟩ | ⟨hj, hb, ha | ⟨-, hq, ha⟩ | ⟨-, hadv, ha⟩⟩ <;>
    rw [ha] at h hp ⊢
  · exact ⟨(if_pos ⟨hj, hm⟩).symm, if_pos ⟨hj, hm⟩⟩
  · refine ⟨(hr hb hbet h hp).trans ((if_neg (by simp [hb])).trans (if_pos ⟨hb, hbet⟩)).symm, ?_⟩
    simp [applyPanics, hb, hbet]
  · simp only [panicIf_fst, Bool.or_eq_false_iff] at hp
    rw [hp.1, panicIf_false]
    exact ⟨(applyEngine_of_not hj hb).symm, rfl⟩
  · rw [hc _ _ h hp]
    exact ⟨(applyEngine_of_not hj hb).symm, hq⟩
  · simp only [panicIf_fst, Bool.or_eq_false_iff, panicIf_snd] at hp h
    obtain ⟨hq, hs⟩ := hp
    have e := hc _ _ h hs
    rw [e] at hq
    rw [e, hq, panicIf_false, e]
    exact ⟨(applyEngine_of_not hj hb).symm, by simpa [applyPanics, hj, hb, hadv] using hq⟩

theorem apply_quiet_of_ne_bet (hb : a.type ≠ .bet) (n : Nat) (h : (apply rt n t a).2 = [])
    (hp : (apply rt n t a).1.panicked = false) :
    (apply rt n t a).1.eng = applyEngine rt t.cfg t.eng a ∧ applyPanics rt t.cfg t.eng a = false := by
  cases n with
  | zero => exact applyWith_quiet (fun _ _ _ _ => rfl) (absurd · hb) h hp
  | succ n => exact applyWith_quiet (quietCommit_commitWith _) (absurd · hb) h hp

theorem apply_quiet (n : Nat) (h : (apply rt (n + 1) t a).2 = []) (hp : (apply rt (n + 1) t a).1.panicked = false) :
    (apply rt (n + 1) t a).1.eng = applyEngine rt t.cfg t.eng a ∧ applyPanics rt t.cfg t.eng a = false :=
  applyWith_quiet (quietCommit_commitWith _)
    (fun _ _ h' hp' => (apply_quiet_of_ne_bet (by simp) n h' hp').1.trans
      (applyEngine_of_ne _ _ _ (by simp) (by simp))) h hp

theorem apply_quiet_eq (n : Nat) (h : (apply rt (n + 1) t a).2 = []) (hp : (apply rt (n + 1) t a).1.panicked = false) :
    (apply rt (n + 1) t a).1 =
      { t with eng := applyEngine rt t.cfg t.eng a, draws := (apply rt (n + 1) t a).1.draws } := by
  have hs : CommitStream t (apply rt (n + 1) t a).1 (apply rt (n + 1) t a).2 := commitStream_apply _ t a
  have he := (apply_quiet n h hp).1
  have hseq := hs.seq_eq hp
  have htp : t.panicked = false := Bool.not_eq_true _ |>.mp fun h' => absurd (hs.panicked h') (by simp [hp])
  rw [h] at hs hseq
  obtain ⟨-, -, -, hlog, hded, -, hid, hself, hcfg, hauth, hep, haid⟩ := hs
  generalize (apply rt (n + 1) t a).1 = t' at *
  cases t'
  simp only [List.length_nil, add_zero, List.filterMap_nil, List.append_nil, List.map_nil] at *
  subst_vars
  rw [htp]

theorem applyWith_follower (ha : t.authority = false)
    (hr : a.type = .bet → t.eng.currentBet ≠ 0 →
      r t { a with type := .raise } = ({ t with eng := (engineCall rt t.cfg t.eng { a with type := .raise }).1 }, [])) :
    applyWith rt c r t a = panicIf (applyPanics rt t.cfg t.eng a) ({ t with eng := applyEngine rt t.cfg t.eng a }, []) := by
  rcases @applyWith_cases rt t a c r with ⟨hj, hm, h⟩ | ⟨hb, hbet, h⟩ | ⟨hj, hb, h | ⟨hau, -⟩ | ⟨hau, -⟩⟩
  · simp [h, applyPanics, applyEngine, hj, hm]
  · simp [h, applyPanics, applyEngine, hb, hbet, hr hb hbet]
  · rw [h, applyEngine_of_not hj hb]
  all_goals exact absurd (ha.symm.trans hau) Bool.false_ne_true

theorem apply_follower (ha : t.authority = false) (n : Nat) :
    apply rt (n + 1) t a = panicIf (applyPanics rt t.cfg t.eng a) ({ t with eng := applyEngine rt t.cfg t.eng a }, []) := by
  refine applyWith_follower ha fun _ _ => ?_
  have hraise : ∀ c r : Table → Action → Table × List NetMessage, applyWith rt c r t { a with type := .raise } =
      ({ t with eng := (engineCall rt t.cfg t.eng { a with type := .raise }).1 }, []) := fun c r => by
    rw [applyWith_follower ha fun h => absurd h (by simp)]
    simp [applyPanics, applyEngine, announces]
  cases n <;> exact hraise _ _

end Quiet

/-- Heads-up at blinds 5/10, after the two `JOIN`s and the `START_HAND` (sequence numbers 1 to 3),
    the small blind's `CALL` closes the preflop round. The authority applies the `CALL`, then commits
    the `ADVANCE_PHASE` it synthesizes: two COMMITs, the `ADVANCE_PHASE` first, both stamped 5, none
    stamped 4. The log has the `ADVANCE_PHASE` before the `CALL`; replayed in that order, the `CALL`
    meets a flop with nothing to call and fails. -/
theorem commit_stamps_after_nested : ∃ rt : Runtime,
    let t := Table.new "t" "n1" ⟨"t", 1000, 5, 10, 0, 0⟩ true 0
    let t := (t.commitAndBroadcast rt ⟨"j1", .join, "A", 0, none⟩).1
    let t := (t.commitAndBroadcast rt ⟨"j2", .join, "B", 0, none⟩).1
    let t := (t.commitAndBroadcast rt ⟨"s1", .startHand, "A", 0, none⟩).1
    let r := t.commitAndBroadcast rt ⟨"c1", .call, "A", 0, none⟩
    t.seq = 3 ∧ r.2.map NetMessage.seq = [5, 5] ∧
      r.2.map (fun m => m.action.map Action.type) = [some .advance, some .call] ∧
      r.1.log.map Action.type = [.join, .join, .startHand, .advance, .call] ∧
      r.1.eng = (t.eng.call "A").1.advancePhase ∧ (t.eng.advancePhase.call "A").2 = some .nothingToCall :=
  ⟨⟨fun _ => ⟨fun _ _ => 0, fun _ _ h => h⟩, fun _ => "adv"⟩, by decide, by decide, by decide, by decide,
    by decide, by decide⟩

end Table
end P2Poker
