import P2Poker.Cluster.Sequence
import P2Poker.Engine.Snapshot

/-! Agreement of the followers with the authority.

    A follower applies the authority's COMMITs in the order they were written, each only when its
    `Seq` is the next one. A call that closes a betting round breaks this: the authority writes the
    synthesized ADVANCE_PHASE and the action that closed the round under one number, one past the
    next, so the follower sees a gap, drops both, and asks for a snapshot. The snapshot brings the
    sequence number and the public state, but not the round state or the cards: the follower then has
    the authority's sequence number and a different engine.

    When every commit of the authority goes out alone (no KICK, no action that closes a round or
    reaches the showdown), no commit makes the authority panic, and nobody takes over, a follower
    replaying what the authority has sent it lands exactly on the authority's state; once it has
    taken all of it, it has the authority's sequence number, log and engine. -/

namespace P2Poker

namespace Table

/-- `f` after it has taken the messages `ms` in order. -/
def replay (rt : Runtime) (f : Table) (ms : List NetMessage) : Table := ms.foldl (fun t m => (t.handle rt (.net m)).1) f

@[simp] theorem replay_nil (rt : Runtime) (f : Table) : f.replay rt [] = f := rfl

@[simp] theorem replay_cons (rt : Runtime) (f : Table) (m : NetMessage) (ms : List NetMessage) :
    f.replay rt (m :: ms) = (f.handle rt (.net m)).1.replay rt ms := rfl

theorem replay_append (rt : Runtime) (f : Table) (ms ms' : List NetMessage) :
    f.replay rt (ms ++ ms') = (f.replay rt ms).replay rt ms' := List.foldl_append _ _ _ _

theorem replay_panicked (rt : Runtime) {f : Table} (h : f.panicked = true) (ms : List NetMessage) :
    f.replay rt ms = f := by
  induction ms with
  | nil => rfl
  | cons m ms ih => rw [replay_cons, handle_panicked h, ih]

/-- A follower's replica agrees with the authority's on the sequence number, the engine, the
    configuration, the epoch, the log and the dedup set, and its process runs. -/
structure Agree (y t : Table) : Prop where
  seq : y.seq = t.seq
  eng : y.eng = t.eng
  cfg : y.cfg = t.cfg
  epoch : y.epoch = t.epoch
  log : y.log = t.log
  dedup : y.dedup = t.dedup
  follower : y.authority = false
  live : y.panicked = false

theorem Agree.adopt {y t : Table} {c : Prop} [Decidable c] {e : Nat} {s : NodeID} (h : Agree y t)
    (he : e = t.epoch) : Agree (if c then { y with epoch := e, authorityID := s } else y) t := by
  split_ifs
  exacts [⟨h.seq, h.eng, h.cfg, he, h.log, h.dedup, h.follower, h.live⟩, h]

/-- What the authority `t` leaves as `t'` and writes as `out`: a follower that agreed with `t`
    agrees with `t'` once it has taken `out`. -/
def Replays (rt : Runtime) (t t' : Table) (out : List NetMessage) : Prop :=
  ∀ y, Agree y t → Agree (y.replay rt out) t'

section Replays
variable {rt : Runtime} {t : Table}

/-- A commit of the authority that goes out alone: not a KICK, no commit nested in it, and no
    panic. -/
def Plain (rt : Runtime) (t : Table) (a : Action) : Prop :=
  a.type ≠ .kick ∧ (t.commitAndBroadcast rt a).2.length ≤ 1 ∧ (t.commitAndBroadcast rt a).1.panicked = false

theorem replays_commitAndBroadcast {a : Action} (hp : Plain rt t a) :
    Replays rt t (t.commitAndBroadcast rt a).1 (t.commitAndBroadcast rt a).2 := by
  intro y hy
  obtain ⟨hk, hl, hpan⟩ := hp
  unfold commitAndBroadcast commitWith at hl hpan ⊢
  dsimp only at hl hpan ⊢
  split_ifs at hl hpan ⊢ with hd hr
  · exact hy
  · exact absurd (hr.symm.trans hpan) (by decide)
  · have hq : (apply rt 3 { t with seq := t.seq + 1 } a).2 = [] := by
      rw [List.length_append, List.length_singleton] at hl
      exact List.length_eq_zero.mp (by omega)
    have hr := Bool.not_eq_true _ |>.mp hr
    have hap : applyPanics rt y.cfg y.eng a = false := hy.cfg ▸ hy.eng ▸ (apply_quiet 2 hq hr).2
    rw [hq, apply_quiet_eq 2 hq hr, List.nil_append, replay_cons, replay_nil, handle_net hy.live,
      onNet_commit rfl rfl (Nat.le_of_eq hy.epoch) fun h => hk h.1,
      applyCommit_next (hy.dedup ▸ hd) (by rw [hy.seq]; rfl)]
    dsimp only [envelope]
    rw [apply_follower (t := { y with seq := t.seq + 1 }) hy.follower 2]
    simp only [hap, panicIf_false, hy.live, if_false, Bool.false_eq_true]
    refine Agree.adopt ?_ rfl
    refine ⟨rfl, ?_, hy.cfg, hy.epoch, by rw [hy.log], by rw [hy.dedup], hy.follower, rfl⟩
    show applyEngine rt y.cfg y.eng a = applyEngine rt t.cfg t.eng a
    rw [hy.cfg, hy.eng]

theorem replays_sendSnapshotTo (target : NodeID) : Replays rt t t (t.sendSnapshotTo target) := by
  intro y hy
  unfold sendSnapshotTo
  split
  · rw [replay_cons, replay_nil, handle_net hy.live, onNet_snapshot rfl rfl (Nat.le_of_eq hy.epoch)]
    refine ⟨hy.seq ▸ rfl, ?_, rfl, rfl, hy.log, hy.dedup, hy.follower, hy.live⟩
    show y.eng.restoreFromSnapshot t.eng.snapshot = t.eng
    rw [hy.eng, State.restoreFromSnapshot_self]
  · exact hy

theorem replays_sendHeartbeat : Replays rt t t t.sendHeartbeat := by
  intro y hy
  unfold sendHeartbeat
  split
  · rw [replay_cons, replay_nil, handle_net hy.live, onNet_heartbeat rfl (Nat.le_of_eq hy.epoch)]
    exact ⟨hy.seq, hy.eng, hy.cfg, rfl, hy.log, hy.dedup, hy.follower, hy.live⟩
  · exact hy

theorem replays_onNet_request (m : NetMessage) (hm : m.type = .propose ∨ m.type = .stateQuery)
    (hp : m.type = .propose → ∀ a ∈ m.action, Plain rt t a) :
    Replays rt t (t.onNet rt m).1 (t.onNet rt m).2 := by
  rcases onNet_cases rt (t := t) m with h | ⟨ht, -, a, ha, h⟩ | ⟨hc, -⟩ | ⟨hc, -⟩ | ⟨hc, -⟩ | ⟨-, h⟩
  · rw [h]
    exact fun y hy => hy
  · rw [h]
    exact replays_commitAndBroadcast (hp ht a ha)
  all_goals try (rw [hc] at hm; simp at hm)
  · rw [h]
    exact replays_sendSnapshotTo m.sender

theorem replays_stateQuery (m : NetMessage) (hm : m.type = .stateQuery) : Replays rt t t [m] := by
  intro y hy
  rw [replay_cons, replay_nil, handle_net hy.live, onNet_follower_request hy.follower m (.inr hm)]
  exact hy

end Replays

end Table

namespace Cluster

/-- The runs of the agreement statement for the table created by `auth`: nobody takes over, and
    every action `auth` commits, proposed locally or by another node, goes out alone. -/
def SingleCommits (rt : Runtime) (auth : NodeID) (c : Cluster) : Event → Prop
  | .propose i a => i = auth → Table.Plain rt (c.table auth) a
  | .deliver i j => j = auth → ∀ m ∈ (c.chan i j).head?, m.type = .propose → ∀ a ∈ m.action,
      Table.Plain rt (c.table auth) a
  | .takeover _ => False
  | _ => True

/-- The invariant of such runs: `auth` is the only authority, the other nodes have only PROPOSEs and
    STATE_QUERYs in flight, and every follower that takes what `auth` has sent it lands in agreement
    with `auth`. -/
structure AgreeInv (rt : Runtime) (auth : NodeID) (c : Cluster) : Prop where
  role : ∀ k, (c.table k).authority = decide (k = auth)
  requests : ∀ s, s ≠ auth → ∀ d, ∀ m ∈ c.chan s d, m.type = .propose ∨ m.type = .stateQuery
  agree : ∀ f, f ≠ auth → Table.Agree ((c.table f).replay rt (c.chan auth f)) (c.table auth)

section Steps
variable {rt : Runtime} {auth : NodeID} {c : Cluster} {r : Table × List NetMessage}

theorem AgreeInv.follower (h : c.AgreeInv rt auth) {f : NodeID} (hf : f ≠ auth) :
    (c.table f).authority = false := by
  simpa [hf] using h.role f

theorem AgreeInv.authority (h : c.AgreeInv rt auth) : (c.table auth).authority = true := by
  simpa using h.role auth

theorem AgreeInv.act_auth (h : c.AgreeInv rt auth) (hr : Table.Replays rt (c.table auth) r.1 r.2)
    (hrole : r.1.authority = true) : (c.act auth r).AgreeInv rt auth := by
  refine ⟨fun k => ?_, fun s hs d m hm => ?_, fun f hf => ?_⟩
  · by_cases hk : k = auth
    · subst hk
      simpa using hrole
    · rw [act_table_ne hk]
      exact h.role k
  · rw [act_chan_ne hs] at hm
    exact h.requests s hs d m hm
  · rw [act_table_ne hf, act_table_self, act_chan_self hf, Table.replay_append]
    exact hr _ (h.agree f hf)

theorem AgreeInv.act_follower (h : c.AgreeInv rt auth) (c' : Cluster) {f : NodeID} (hf : f ≠ auth)
    (htab : c'.table = c.table) (hchan : ∀ s d, s ≠ f → d ≠ f → c'.chan s d = c.chan s d)
    (hreq : ∀ s, s ≠ auth → ∀ d, ∀ m ∈ c'.chan s d, m.type = .propose ∨ m.type = .stateQuery)
    (hrole : r.1.authority = false) (hout : ∀ m ∈ r.2, m.type = .propose ∨ m.type = .stateQuery)
    (hy : r.1.replay rt (c'.chan auth f) = (c.table f).replay rt (c.chan auth f)) :
    (c'.act f r).AgreeInv rt auth := by
  have hauth : (c'.act f r).table auth = c.table auth := by rw [act_table_ne (Ne.symm hf), htab]
  refine ⟨fun k => ?_, fun s hs d m hm => ?_, fun g hg => ?_⟩
  · by_cases hk : k = f
    · subst hk
      simpa [hf] using hrole
    · rw [act_table_ne hk, htab]
      exact h.role k
  · by_cases hsf : s = f
    · subst hsf
      by_cases hdf : d = s
      · subst hdf
        rw [act_chan_diag] at hm
        exact hreq _ hs _ m hm
      · rw [act_chan_self hdf] at hm
        rcases List.mem_append.mp hm with hm | hm
        exacts [hreq _ hs d m hm, hout m hm]
    · rw [act_chan_ne hsf] at hm
      exact hreq s hs d m hm
  · rw [hauth, act_chan_ne (Ne.symm hf)]
    by_cases hgf : g = f
    · subst hgf
      rw [act_table_self, hy]
      exact h.agree g hg
    · rw [act_table_ne hgf, htab, hchan auth g (Ne.symm hf) hgf]
      exact h.agree g hg

theorem AgreeInv.pop_requests (h : c.AgreeInv rt auth) (i j : NodeID) :
    ∀ s, s ≠ auth → ∀ d, ∀ m ∈ (c.pop i j).chan s d, m.type = .propose ∨ m.type = .stateQuery := by
  intro s hs d m hm
  by_cases hsd : s = i ∧ d = j
  · rw [show (c.pop i j).chan s d = (c.chan s d).tail from if_pos hsd] at hm
    exact h.requests s hs d m (List.mem_of_mem_tail hm)
  · rw [show (c.pop i j).chan s d = c.chan s d from if_neg hsd] at hm
    exact h.requests s hs d m hm

theorem AgreeInv.pop (h : c.AgreeInv rt auth) {i : NodeID} (hi : i ≠ auth) (j : NodeID) :
    (c.pop i j).AgreeInv rt auth :=
  ⟨h.role, h.pop_requests i j, fun f hf => by rw [pop_table, pop_chan_ne (.inl (Ne.symm hi))]; exact h.agree f hf⟩

theorem AgreeInv.deliver (h : c.AgreeInv rt auth) (hd : ∀ i, c.chan i i = []) (s d : NodeID)
    (he : c.SingleCommits rt auth (.deliver s d)) : (c.step rt (.deliver s d)).AgreeInv rt auth := by
  simp only [Cluster.step]
  split
  · exact h
  · rename_i m rest hch
    by_cases hsd : s = d
    · subst hsd
      rw [hd s] at hch
      cases hch
    have hm : m ∈ c.chan s d := by
      rw [hch]
      exact .head _
    obtain hpan | hpan := Bool.eq_false_or_eq_true (c.table d).panicked
    · rw [act_panicked (c := c.pop s d) (t := c.table d) rfl hpan]
      by_cases hda : d = auth
      · exact h.pop (hda ▸ hsd) d
      · have hl := (h.agree d hda).live
        rw [Table.replay_panicked rt hpan] at hl
        exact absurd (hpan.symm.trans hl) (by decide)
    rw [Table.handle_net hpan]
    by_cases hda : d = auth
    · subst hda
      refine (h.pop hsd d).act_auth (Table.replays_onNet_request m (h.requests s hsd _ m hm) ?_)
        ((Table.onNet_authority rt m).trans h.authority)
      exact he rfl m (by rw [hch]; rfl)
    by_cases hsa : s = auth
    · subst hsa
      refine h.act_follower (c.pop s d) hda rfl (fun _ _ _ hd' => pop_chan_ne (.inr hd'))
        (h.pop_requests s d) ((Table.onNet_authority rt m).trans (h.follower hda))
        (fun m' hm' => .inr ((Table.onNet_follower rt (h.follower hda) m).2 m' hm')) ?_
      rw [pop_chan_self, hch, List.tail_cons, Table.replay_cons, Table.handle_net hpan]
    · rw [Table.onNet_follower_request (h.follower hda) m (h.requests s hsa d m hm)]
      exact h.act_follower (c.pop s d) hda rfl (fun _ _ _ hd' => pop_chan_ne (.inr hd'))
        (h.pop_requests s d) (h.follower hda) (List.forall_mem_nil _) (by rw [pop_chan_ne (.inl (Ne.symm hsa))])

theorem AgreeInv.step (h : c.AgreeInv rt auth) (hd : ∀ i, c.chan i i = []) (e : Event)
    (he : c.SingleCommits rt auth e) : (c.step rt e).AgreeInv rt auth := by
  cases e with
  | propose i a =>
    simp only [Cluster.step]
    cases hpan : (c.table i).panicked
    case true => rwa [act_panicked rfl hpan]
    rw [Table.handle_propose hpan]
    by_cases hi : i = auth
    · subst hi
      rcases Table.proposeLocal_cases rt (t := c.table i) a with ⟨-, hp⟩ | ⟨hp, -⟩
      · rw [hp]
        exact h.act_auth (Table.replays_commitAndBroadcast (he rfl))
          ((Table.commitAndBroadcast_stream rt _ a).frame.2.2.2.1.trans h.authority)
      · exact Bool.noConfusion (h.authority.symm.trans hp)
    · rcases Table.proposeLocal_cases rt (t := c.table i) a with ⟨hp, -⟩ | ⟨-, hp⟩
      · exact absurd ((h.follower hi).symm.trans hp) Bool.false_ne_true
      · rw [hp]
        refine h.act_follower c hi rfl (fun _ _ _ _ => rfl) h.requests (h.follower hi) (fun m hm => .inl ?_) rfl
        rw [List.mem_singleton.mp hm]
        rfl
  | deliver s d => exact h.deliver hd s d he
  | heartbeat i =>
    simp only [Cluster.step]
    cases hpan : (c.table i).panicked
    case true => rwa [act_panicked rfl hpan]
    rw [Table.handle_heartbeat hpan]
    by_cases hi : i = auth
    · subst hi
      exact h.act_auth Table.replays_sendHeartbeat h.authority
    · refine h.act_follower c hi rfl (fun _ _ _ _ => rfl) h.requests (h.follower hi) (fun m hm => ?_) rfl
      simp [Table.sendHeartbeat, h.follower hi] at hm
  | takeover i => exact he.elim
  | query i =>
    simp only [Cluster.step]
    cases hpan : (c.table i).panicked
    case true => rwa [if_pos rfl, act_stay]
    rw [if_neg Bool.false_ne_true]
    by_cases hi : i = auth
    · subst hi
      exact h.act_auth (Table.replays_stateQuery _ rfl) h.authority
    · refine h.act_follower c hi rfl (fun _ _ _ _ => rfl) h.requests (h.follower hi) (fun m hm => .inr ?_) rfl
      rw [List.mem_singleton.mp hm]

end Steps

/-- Heads-up, blinds 5/10: node `a` creates the table and commits two JOINs and a START_HAND, which
    the follower `b` applies. The small blind's CALL closes the preflop round: `a` writes the
    ADVANCE_PHASE and the CALL both under sequence number 5, `b` (at 3) drops both as a gap and asks
    for a snapshot, and installs it. `b` has then taken every message from `a` and has `a`'s sequence
    number, but still the preflop bet to call, where `a` is on the flop with no bet. -/
theorem snapshot_recovery_keeps_stale_round : ∃ rt : Runtime,
    let c₀ := init "t" ⟨"t", 1000, 5, 10, 0, 0⟩ "a"
    let c := c₀.run rt [.propose "a" ⟨"j1", .join, "A", 0, none⟩, .propose "a" ⟨"j2", .join, "B", 0, none⟩,
      .propose "a" ⟨"s1", .startHand, "A", 0, none⟩, .deliver "a" "b", .deliver "a" "b", .deliver "a" "b",
      .propose "a" ⟨"c1", .call, "A", 0, none⟩, .deliver "a" "b", .deliver "a" "b", .deliver "b" "a",
      .deliver "a" "b"]
    Reach rt (fun _ _ => True) c₀ c ∧ c.chan "a" "b" = [] ∧ (c.table "b").seq = (c.table "a").seq ∧
      (c.table "b").eng.currentBet = 10 ∧ (c.table "a").eng.currentBet = 0 :=
  ⟨⟨fun _ => ⟨fun _ _ => 0, fun _ _ h => h⟩, fun _ => "adv"⟩, Reach.init.run (fun _ _ => trivial) _, by decide,
    by decide, by decide, by decide⟩


end Cluster
end P2Poker
