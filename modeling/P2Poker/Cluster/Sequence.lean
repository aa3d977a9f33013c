import P2Poker.Cluster.Authority

/-! Sequence numbers along a run.

    A replica's sequence number moves in two ways: a COMMIT it applies sets it to the COMMIT's `Seq`,
    one more than before, and a SNAPSHOT it installs sets it to the snapshot's, whatever that is. A
    snapshot is accepted on its epoch alone. After a takeover by a follower that had not caught up,
    the new authority's heartbeat and snapshot reach the old authority under a newer epoch, and the
    old authority goes back to the new one's sequence number.

    Without takeovers the node that created the table stays the only authority, and its messages
    reach every follower in the order it wrote them, each stamped with its sequence number at the
    time. A follower is never ahead of a stamp still on its way to it, so no replica's sequence
    number ever goes down. -/

namespace P2Poker

/-- The sequence number a replica that takes the message is set to: a COMMIT's `Seq`, a SNAPSHOT's
    own; other messages set none. -/
def NetMessage.setsSeq (m : NetMessage) : Option Nat :=
  match m.type with
  | .commit => some m.seq
  | .snapshot => m.state.map TableSnapshot.seq
  | _ => none

namespace Table

section Seq
variable {rt : Runtime} {t : Table}

/-- What an authority leaves and writes: its sequence number does not go down, and every message
    that sets one carries the number it leaves. -/
def Stamped (t t' : Table) (out : List NetMessage) : Prop :=
  t.seq ≤ t'.seq ∧ ∀ m ∈ out, ∀ s, m.setsSeq = some s → s = t'.seq

theorem stamped_commitAndBroadcast (rt : Runtime) (a : Action) :
    Stamped t (t.commitAndBroadcast rt a).1 (t.commitAndBroadcast rt a).2 := by
  have h := commitAndBroadcast_stream rt t a
  refine ⟨(Nat.le_add_right _ _).trans h.seq, fun m hm s hs => ?_⟩
  obtain ⟨htype, -, -, hseq, -⟩ := h.commit m hm
  simp only [NetMessage.setsSeq, htype, Option.some.injEq] at hs
  exact hs ▸ hseq

theorem stamped_silent (out : List NetMessage) (h : ∀ m ∈ out, m.setsSeq = none) : Stamped t t out :=
  ⟨le_rfl, fun m hm _ hs => nomatch (h m hm).symm.trans hs⟩

theorem stamped_sendSnapshotTo (target : NodeID) : Stamped t t (t.sendSnapshotTo target) := by
  refine ⟨le_rfl, fun m hm s hs => ?_⟩
  unfold sendSnapshotTo at hm
  split at hm
  · rw [List.mem_singleton.mp hm] at hs
    exact (Option.some.inj hs).symm
  · cases hm

theorem stamped_onNet_request (rt : Runtime) (m : NetMessage) (hm : m.type = .propose ∨ m.type = .stateQuery) :
    Stamped t (t.onNet rt m).1 (t.onNet rt m).2 := by
  rcases onNet_cases rt (t := t) m with h | ⟨-, -, a, -, h⟩ | ⟨hc, -⟩ | ⟨hc, -⟩ | ⟨hc, -⟩ | ⟨-, h⟩
  · rw [h]
    exact stamped_silent [] (List.forall_mem_nil _)
  · rw [h]
    exact stamped_commitAndBroadcast rt a
  all_goals try (rw [hc] at hm; simp at hm)
  · rw [h]
    exact stamped_sendSnapshotTo m.sender

theorem onNet_request_seq_le (rt : Runtime) {m : NetMessage} (hm : m.type = .propose ∨ m.type = .stateQuery) :
    (t.onNet rt m).1.seq ≤ t.seq + 4 := by
  rcases onNet_cases rt (t := t) m with h | ⟨-, -, a, -, h⟩ | ⟨hc, -⟩ | ⟨hc, -⟩ | ⟨hc, -⟩ | ⟨-, h⟩
  · rw [h]
    exact Nat.le_add_right _ _
  · rw [h]
    exact commitAndBroadcast_seq_le t a
  all_goals try (rw [hc] at hm; simp at hm)
  · rw [h]
    exact Nat.le_add_right _ _

/-- Handling anything but a takeover, with only requests from the network, raises the sequence
    number by at most four: only the commit of a proposal moves it. -/
theorem handle_seq_le (rt : Runtime) {inp : Input} (hinp : inp ≠ .takeover)
    (hnet : ∀ m, inp = .net m → m.type = .propose ∨ m.type = .stateQuery) :
    (t.handle rt inp).1.seq ≤ t.seq + 4 := by
  cases hp : t.panicked
  · cases inp with
    | propose a =>
      rw [handle_propose hp]
      rcases proposeLocal_cases rt (t := t) a with ⟨-, hq⟩ | ⟨-, hq⟩ <;> rw [hq]
      · exact commitAndBroadcast_seq_le t a
      · exact Nat.le_add_right _ _
    | net m => rw [handle_net hp]; exact onNet_request_seq_le rt (hnet m rfl)
    | heartbeat => rw [handle_heartbeat hp]; exact Nat.le_add_right _ _
    | takeover => exact absurd rfl hinp
  · rw [handle_panicked hp]; exact Nat.le_add_right _ _

theorem applyCommit_follower (rt : Runtime) (ha : t.authority = false) (a : Action) (seq : Nat) :
    ((applyCommit rt t a seq).1.seq = t.seq ∨ (applyCommit rt t a seq).1.seq = seq) ∧
      ∀ m ∈ (applyCommit rt t a seq).2, m.type = .stateQuery := by
  rcases applyCommit_cases rt (t := t) a seq with h | h | ⟨-, -, h⟩ <;> rw [h]
  · exact ⟨.inl rfl, List.forall_mem_nil _⟩
  · exact ⟨.inl rfl, fun m hm => by rw [List.mem_singleton.mp hm]; rfl⟩
  · rw [apply_follower (t := { t with seq := seq }) ha 2]
    dsimp only
    split_ifs <;> exact ⟨.inr (by simp), fun _ hm => by simp at hm⟩

theorem onNet_follower (rt : Runtime) (ha : t.authority = false) (m : NetMessage) :
    ((t.onNet rt m).1.seq = t.seq ∨ m.setsSeq = some (t.onNet rt m).1.seq) ∧
      ∀ m' ∈ (t.onNet rt m).2, m'.type = .stateQuery := by
  rcases onNet_cases rt (t := t) m with h | ⟨-, ha', -⟩ | ⟨hc, -, a, -, -, h⟩ | ⟨hs, -, ss, hss, h⟩ |
    ⟨-, -, h⟩ | ⟨-, h⟩
  · rw [h]
    exact ⟨.inl rfl, List.forall_mem_nil _⟩
  · exact absurd (ha.symm.trans ha') Bool.false_ne_true
  · rw [h]
    obtain ⟨hseq, hout⟩ := applyCommit_follower rt ha a m.seq
    generalize applyCommit rt t a m.seq = r at hseq hout
    replace hseq : r.1.seq = t.seq ∨ m.setsSeq = some r.1.seq :=
      hseq.imp_right fun h => by simp only [NetMessage.setsSeq, hc, h]
    dsimp only
    split_ifs <;> exact ⟨hseq, hout⟩
  · rw [h]
    exact ⟨.inr (by simp only [NetMessage.setsSeq, hs, hss, Option.map_some']; rfl), List.forall_mem_nil _⟩
  · rw [h]
    exact ⟨.inl rfl, List.forall_mem_nil _⟩
  · rw [h]
    refine ⟨.inl rfl, fun m' hm' => ?_⟩
    simp [sendSnapshotTo, ha] at hm'

theorem onNet_follower_request (ha : t.authority = false) (m : NetMessage)
    (hm : m.type = .propose ∨ m.type = .stateQuery) : t.onNet rt m = (t, []) := by
  rcases onNet_cases rt (t := t) m with h | ⟨-, ha', -⟩ | ⟨hc, -⟩ | ⟨hc, -⟩ | ⟨hc, -⟩ | ⟨-, h⟩
  · exact h
  · exact absurd (ha.symm.trans ha') Bool.false_ne_true
  all_goals try (rw [hc] at hm; simp at hm)
  · rw [h]
    simp [sendSnapshotTo, ha]

end Seq

end Table

namespace Cluster

/-- The runs without a takeover. -/
def NoTakeover (_ : Cluster) : Event → Prop
  | .takeover _ => False
  | _ => True

/-- The invariant of a run without takeovers from a table created by `auth`: `auth` is the only
    authority; the other nodes have only PROPOSEs and STATE_QUERYs in flight; on the way from `auth`
    to a follower the sequence numbers set by COMMITs and SNAPSHOTs never go down, are never below the
    follower's, and never above `auth`'s, which is ahead of every follower's. -/
structure SeqInv (auth : NodeID) (c : Cluster) : Prop where
  role : ∀ k, (c.table k).authority = decide (k = auth)
  requests : ∀ s, s ≠ auth → ∀ d, ∀ m ∈ c.chan s d, m.type = .propose ∨ m.type = .stateQuery
  sorted : ∀ d, ((c.chan auth d).filterMap NetMessage.setsSeq).Pairwise (· ≤ ·)
  between : ∀ d, d ≠ auth → ∀ s ∈ (c.chan auth d).filterMap NetMessage.setsSeq,
    (c.table d).seq ≤ s ∧ s ≤ (c.table auth).seq
  behind : ∀ d, (c.table d).seq ≤ (c.table auth).seq

section Steps
variable {rt : Runtime} {auth : NodeID} {c : Cluster} {r : Table × List NetMessage}

theorem SeqInv.pop (h : c.SeqInv auth) (i j : NodeID) : (c.pop i j).SeqInv auth := by
  have sub : ∀ s d, List.Sublist ((c.pop i j).chan s d) (c.chan s d) := by
    intro s d
    show List.Sublist (if s = i ∧ d = j then (c.chan s d).tail else c.chan s d) _
    split
    exacts [List.tail_sublist _, List.Sublist.refl _]
  exact ⟨h.role, fun s hs d m hm => h.requests s hs d m ((sub s d).subset hm),
    fun d => (h.sorted d).sublist ((sub auth d).filterMap _),
    fun d hd s hs => h.between d hd s (((sub auth d).filterMap _).subset hs), h.behind⟩

theorem SeqInv.act_auth (h : c.SeqInv auth) (hr : Table.Stamped (c.table auth) r.1 r.2)
    (hrole : r.1.authority = true) : (c.act auth r).SeqInv auth := by
  obtain ⟨hle, hout⟩ := hr
  have new : ∀ s ∈ r.2.filterMap NetMessage.setsSeq, s = r.1.seq := by
    intro s hs
    obtain ⟨m, hm, hms⟩ := List.mem_filterMap.mp hs
    exact hout m hm s hms
  refine ⟨fun k => ?_, fun s hs d m hm => ?_, fun d => ?_, fun d hd s hs => ?_, fun d => ?_⟩
  · by_cases hk : k = auth
    · subst hk
      simpa using hrole
    · rw [act_table_ne hk]
      exact h.role k
  · rw [act_chan_ne hs] at hm
    exact h.requests s hs d m hm
  · by_cases hd : d = auth
    · subst hd
      rw [act_chan_diag]
      exact h.sorted d
    · rw [act_chan_self hd, List.filterMap_append, List.pairwise_append]
      refine ⟨h.sorted d, List.pairwise_of_forall_mem_list fun a ha b hb => (new a ha).trans (new b hb).symm ▸ le_rfl,
        fun a ha b hb => (new b hb).symm ▸ ((h.between d hd a ha).2.trans hle)⟩
  · rw [act_chan_self hd, List.filterMap_append] at hs
    rw [act_table_ne hd, act_table_self]
    rcases List.mem_append.mp hs with hs | hs
    · exact ⟨(h.between d hd s hs).1, (h.between d hd s hs).2.trans hle⟩
    · exact (new s hs).symm ▸ ⟨(h.behind d).trans hle, le_rfl⟩
  · rw [act_table_self]
    by_cases hd : d = auth
    · subst hd
      rw [act_table_self]
    · rw [act_table_ne hd]
      exact (h.behind d).trans hle

theorem SeqInv.act_follower (h : c.SeqInv auth) {f : NodeID} (hf : f ≠ auth) (hrole : r.1.authority = false)
    (hout : ∀ m ∈ r.2, m.type = .propose ∨ m.type = .stateQuery) (hq : r.1.seq ≤ (c.table auth).seq)
    (hq' : ∀ s ∈ (c.chan auth f).filterMap NetMessage.setsSeq, r.1.seq ≤ s) : (c.act f r).SeqInv auth := by
  have hauth : (c.act f r).table auth = c.table auth := act_table_ne (Ne.symm hf)
  refine ⟨fun k => ?_, fun s hs d m hm => ?_, fun d => ?_, fun d hd s hs => ?_, fun d => ?_⟩
  · by_cases hk : k = f
    · subst hk
      simpa [hf] using hrole
    · rw [act_table_ne hk]
      exact h.role k
  · by_cases hsf : s = f
    · subst hsf
      by_cases hdf : d = s
      · subst hdf
        rw [act_chan_diag] at hm
        exact h.requests _ hs _ m hm
      · rw [act_chan_self hdf] at hm
        rcases List.mem_append.mp hm with hm | hm
        exacts [h.requests _ hs d m hm, hout m hm]
    · rw [act_chan_ne hsf] at hm
      exact h.requests s hs d m hm
  · rw [act_chan_ne (Ne.symm hf)]
    exact h.sorted d
  · rw [act_chan_ne (Ne.symm hf)] at hs
    rw [hauth]
    by_cases hdf : d = f
    · subst hdf
      rw [act_table_self]
      exact ⟨hq' s hs, (h.between d hd s hs).2⟩
    · rw [act_table_ne hdf]
      exact h.between d hd s hs
  · rw [hauth]
    by_cases hdf : d = f
    · subst hdf
      rw [act_table_self]
      exact hq
    · rw [act_table_ne hdf]
      exact h.behind d

theorem SeqInv.act_follower_same (h : c.SeqInv auth) {f : NodeID} (hf : f ≠ auth)
    (hrole : r.1.authority = false) (hout : ∀ m ∈ r.2, m.type = .propose ∨ m.type = .stateQuery)
    (hseq : r.1.seq = (c.table f).seq) : (c.act f r).SeqInv auth :=
  h.act_follower hf hrole hout (hseq ▸ h.behind f) fun s hs => hseq ▸ (h.between f hf s hs).1

theorem SeqInv.follower (h : c.SeqInv auth) {f : NodeID} (hf : f ≠ auth) : (c.table f).authority = false := by
  simpa [hf] using h.role f

theorem SeqInv.authority (h : c.SeqInv auth) : (c.table auth).authority = true := by
  simpa using h.role auth

theorem seq_le_act {j : NodeID} {c' : Cluster} (hc' : c'.table = c.table) (hj : (c'.table j).seq ≤ r.1.seq)
    (k : NodeID) : (c.table k).seq ≤ ((c'.act j r).table k).seq := by
  by_cases hk : k = j
  · subst hk
    rw [act_table_self, ← hc']
    exact hj
  · rw [act_table_ne hk, hc']

theorem SeqInv.deliver (h : c.SeqInv auth) (hd : ∀ i, c.chan i i = []) (s d : NodeID) :
    (c.step rt (.deliver s d)).SeqInv auth ∧ ∀ k, (c.table k).seq ≤ ((c.step rt (.deliver s d)).table k).seq := by
  simp only [Cluster.step]
  split
  · exact ⟨h, fun _ => le_rfl⟩
  · rename_i m rest hch
    have hp := h.pop s d
    cases hpan : (c.table d).panicked
    case true => rw [act_panicked (c := c.pop s d) (t := c.table d) rfl hpan]; exact ⟨hp, fun _ => le_rfl⟩
    rw [Table.handle_net hpan]
    by_cases hsd : s = d
    · subst hsd
      rw [hd s] at hch
      cases hch
    by_cases hda : d = auth
    · subst hda
      have hm := h.requests s hsd d m (by rw [hch]; exact .head _)
      have hs := Table.stamped_onNet_request rt (t := c.table d) m hm
      exact ⟨hp.act_auth hs ((Table.onNet_authority rt m).trans h.authority), seq_le_act rfl hs.1⟩
    obtain ⟨hseq, hout⟩ := Table.onNet_follower rt (h.follower hda) m
    have hrole := (Table.onNet_authority rt (t := c.table d) m).trans (h.follower hda)
    have hout' : ∀ m' ∈ ((c.table d).onNet rt m).2, m'.type = .propose ∨ m'.type = .stateQuery :=
      fun m' hm' => .inr (hout m' hm')
    by_cases hsa : s = auth
    · subst hsa
      -- a snapshot or commit from the authority: its number is the head of what is in flight
      have hhead : ∀ hs : m.setsSeq = some ((c.table d).onNet rt m).1.seq,
          ((c.table d).onNet rt m).1.seq ∈ (c.chan s d).filterMap NetMessage.setsSeq := fun hs => by
        rw [hch]
        exact List.mem_filterMap.mpr ⟨m, .head _, hs⟩
      rcases hseq with hseq | hseq
      · exact ⟨hp.act_follower_same hda hrole hout' hseq, seq_le_act rfl hseq.ge⟩
      · refine ⟨hp.act_follower hda hrole hout' (h.between d hda _ (hhead hseq)).2 fun x hx => ?_,
          seq_le_act rfl (h.between d hda _ (hhead hseq)).1⟩
        have hs := h.sorted d
        rw [hch, List.filterMap_cons, hseq] at hs
        rw [pop_chan_self, hch, List.tail_cons] at hx
        exact List.rel_of_pairwise_cons hs hx
    · have hreq := h.requests s hsa d m (by rw [hch]; exact .head _)
      rw [Table.onNet_follower_request (h.follower hda) m hreq]
      exact ⟨hp.act_follower_same hda (h.follower hda) (List.forall_mem_nil _) rfl, seq_le_act rfl le_rfl⟩

/-- One event of a run without takeovers keeps the invariant and lowers no replica's sequence
    number. -/
theorem SeqInv.step (h : c.SeqInv auth) (hd : ∀ i, c.chan i i = []) (e : Event) (he : c.NoTakeover e) :
    (c.step rt e).SeqInv auth ∧ ∀ k, (c.table k).seq ≤ ((c.step rt e).table k).seq := by
  cases e with
  | propose i a =>
    simp only [Cluster.step]
    cases hpan : (c.table i).panicked
    case true => rw [act_panicked rfl hpan]; exact ⟨h, fun _ => le_rfl⟩
    rw [Table.handle_propose hpan]
    by_cases hi : i = auth
    · subst hi
      rcases Table.proposeLocal_cases rt (t := c.table i) a with ⟨-, hp⟩ | ⟨hp, -⟩
      · rw [hp]
        have hs := Table.stamped_commitAndBroadcast rt (t := c.table i) a
        exact ⟨h.act_auth hs ((Table.commitAndBroadcast_stream rt _ a).frame.2.2.2.1.trans h.authority),
          seq_le_act rfl hs.1⟩
      · exact Bool.noConfusion (h.authority.symm.trans hp)
    · rcases Table.proposeLocal_cases rt (t := c.table i) a with ⟨hp, -⟩ | ⟨-, hp⟩
      · exact absurd (h.follower hi |>.symm.trans hp) Bool.false_ne_true
      · rw [hp]
        refine ⟨h.act_follower_same hi (h.follower hi) (fun m hm => .inl ?_) rfl, seq_le_act rfl le_rfl⟩
        rw [List.mem_singleton.mp hm]
        rfl
  | deliver s d => exact h.deliver hd s d
  | heartbeat i =>
    simp only [Cluster.step]
    cases hpan : (c.table i).panicked
    case true => rw [act_panicked rfl hpan]; exact ⟨h, fun _ => le_rfl⟩
    rw [Table.handle_heartbeat hpan]
    by_cases hi : i = auth
    · subst hi
      refine ⟨h.act_auth (Table.stamped_silent _ fun m hm => ?_) h.authority, seq_le_act rfl le_rfl⟩
      unfold Table.sendHeartbeat at hm
      split at hm
      · rw [List.mem_singleton.mp hm]
        rfl
      · cases hm
    · refine ⟨h.act_follower_same hi (h.follower hi) (fun m hm => ?_) rfl, seq_le_act rfl le_rfl⟩
      simp [Table.sendHeartbeat, h.follower hi] at hm
  | takeover i => exact he.elim
  | query i =>
    simp only [Cluster.step]
    cases hpan : (c.table i).panicked
    case true => rw [if_pos rfl, act_stay]; exact ⟨h, fun _ => le_rfl⟩
    rw [if_neg Bool.false_ne_true]
    by_cases hi : i = auth
    · subst hi
      refine ⟨h.act_auth (Table.stamped_silent _ fun m hm => ?_) h.authority, seq_le_act rfl le_rfl⟩
      rw [List.mem_singleton.mp hm]
      rfl
    · refine ⟨h.act_follower_same hi (h.follower hi) (fun m hm => .inr ?_) rfl, seq_le_act rfl le_rfl⟩
      rw [List.mem_singleton.mp hm]

theorem SeqInv.auth_seq_le (h : c.SeqInv auth) (hd : ∀ i, c.chan i i = []) (e : Event) (he : c.NoTakeover e) :
    ((c.step rt e).table auth).seq ≤ (c.table auth).seq + 4 := by
  have stay : ∀ {c' : Cluster} {i : NodeID} {r : Table × List NetMessage}, c'.table = c.table →
      (auth = i → r.1.seq ≤ (c.table auth).seq + 4) → ((c'.act i r).table auth).seq ≤ (c.table auth).seq + 4 := by
    intro c' i r hc' hr
    by_cases hi : auth = i
    · subst hi
      rw [act_table_self]
      exact hr rfl
    · rw [act_table_ne hi, hc']
      exact Nat.le_add_right _ _
  cases e with
  | propose i a =>
    refine stay rfl fun hi => ?_
    subst hi
    exact Table.handle_seq_le rt (by simp) (by simp)
  | deliver s d =>
    simp only [Cluster.step]
    split
    · exact Nat.le_add_right _ _
    · rename_i m rest hch
      refine stay rfl fun hda => ?_
      subst hda
      have hs : s ≠ auth := fun hs => by rw [hs, hd] at hch; cases hch
      exact Table.handle_seq_le rt (by simp) fun _ hm => by
        cases hm; exact h.requests s hs auth m (by rw [hch]; exact .head _)
  | heartbeat i =>
    refine stay rfl fun hi => ?_
    subst hi
    exact Table.handle_seq_le rt (by simp) (by simp)
  | takeover i => exact he.elim
  | query i => exact stay rfl fun hi => by subst hi; exact Nat.le_add_right _ _

theorem reach_seqInv {tid : TableID} {cfg : TableConfig} (hc : Reach rt NoTakeover (init tid cfg auth) c) :
    c.SeqInv auth := by
  induction hc with
  | init =>
    exact ⟨fun k => rfl, fun _ _ _ _ hm => (nomatch hm), fun _ => .nil, fun _ _ _ hs => (nomatch hs),
      fun _ => le_rfl⟩
  | step e hr he ih => exact (ih.step (hr.chan_diag (fun _ => rfl)) e he).1

/-- Along events without takeovers, no replica's sequence number passes `auth`'s, and each event
    raises that by at most four. -/
theorem seq_le_run {tid : TableID} {cfg : TableConfig} (hc : Reach rt NoTakeover (init tid cfg auth) c)
    {es : List Event} (hes : ∀ e ∈ es, ∀ i, e ≠ .takeover i) (k : NodeID) :
    ((c.run rt es).table k).seq ≤ (c.table auth).seq + 4 * es.length := by
  induction es generalizing c with
  | nil => exact (reach_seqInv hc).behind k
  | cons e es ih =>
    have he : c.NoTakeover e := by
      cases e <;> first | trivial | exact hes _ (List.mem_cons_self _ _) _ rfl
    have hstep : ((c.step rt e).table auth).seq ≤ (c.table auth).seq + 4 :=
      (reach_seqInv hc).auth_seq_le (hc.chan_diag fun _ => rfl) e he
    have hrun : (((c.step rt e).run rt es).table k).seq ≤ ((c.step rt e).table auth).seq + 4 * es.length :=
      ih (hc.step e he) fun e' he' => hes e' (List.mem_cons_of_mem _ he')
    rw [List.length_cons]
    exact hrun.trans (by omega)

end Steps

/-- Go's sequence numbers are `uint64`s. In a run without takeovers of fewer than 2^62 events from
    the table's creation, no replica's sequence number reaches 2^64: none wraps, and the model's
    numbers are Go's. -/
theorem seq_below_wrap (rt : Runtime) (tid : TableID) (cfg : TableConfig) (auth : NodeID) {es : List Event}
    (hes : ∀ e ∈ es, ∀ i, e ≠ .takeover i) (hn : es.length < 2 ^ 62) (k : NodeID) :
    (((init tid cfg auth).run rt es).table k).seq < 2 ^ 64 := by
  have h : (((init tid cfg auth).run rt es).table k).seq ≤ ((init tid cfg auth).table auth).seq + 4 * es.length :=
    seq_le_run .init hes k
  have h0 : ((init tid cfg auth).table auth).seq = 0 := rfl
  omega

/-- The authority's first commit. -/
theorem seq_below_wrap_join :
    let rt : Runtime := ⟨fun _ => ⟨fun _ _ => 0, fun _ _ h => h⟩, fun _ => "x"⟩
    let es : List Event := [.propose "a" ⟨"j1", .join, "A", 0, none⟩]
    (((init "t" ⟨"t", 1000, 5, 10, 0, 0⟩ "a").run rt es).table "a").seq = 1 ∧
      (((init "t" ⟨"t", 1000, 5, 10, 0, 0⟩ "a").run rt es).table "a").seq < 2 ^ 64 :=
  ⟨by decide, seq_below_wrap _ _ _ _ (by simp) (by decide) _⟩

/-- In a run without takeovers, no event lowers the sequence number of any replica. -/
theorem seq_never_decreases {rt : Runtime} {tid : TableID} {cfg : TableConfig} {auth : NodeID} {c : Cluster}
    (hc : Reach rt NoTakeover (init tid cfg auth) c) (e : Event) (he : c.NoTakeover e) (k : NodeID) :
    (c.table k).seq ≤ ((c.step rt e).table k).seq :=
  ((reach_seqInv hc).step (hc.chan_diag fun _ => rfl) e he).2 k

/-- The authority's first commit, at the authority and at a follower. -/
theorem seq_never_decreases_join :
    let rt : Runtime := ⟨fun _ => ⟨fun _ _ => 0, fun _ _ h => h⟩, fun _ => "x"⟩
    let c := init "t" ⟨"t", 1000, 5, 10, 0, 0⟩ "a"
    Reach rt NoTakeover c c ∧ c.NoTakeover (.propose "a" ⟨"j1", .join, "A", 0, none⟩) ∧
      (c.table "a").seq ≤ ((c.step rt (.propose "a" ⟨"j1", .join, "A", 0, none⟩)).table "a").seq :=
  ⟨.init, trivial, seq_never_decreases .init (.propose "a" ⟨"j1", .join, "A", 0, none⟩) trivial "a"⟩

/-- Node `a` creates the table and commits a JOIN (sequence number 1). Node `b` has heard nothing
    and takes over under epoch 1, sending its heartbeat and its snapshot at sequence number 0. Once
    `a` has taken the heartbeat, the snapshot sets `a` back to 0. -/
theorem takeover_snapshot_rolls_back_seq : ∃ rt : Runtime,
    let c₀ := init "t" ⟨"t", 1000, 5, 10, 0, 0⟩ "a"
    let c := c₀.run rt [.propose "a" ⟨"j1", .join, "A", 0, none⟩, .takeover "b", .deliver "b" "a"]
    Reach rt (fun _ _ => True) c₀ c ∧ (c.table "a").seq = 1 ∧ ((c.step rt (.deliver "b" "a")).table "a").seq = 0 :=
  ⟨⟨fun _ => ⟨fun _ _ => 0, fun _ _ h => h⟩, fun _ => "x"⟩, Reach.init.run (fun _ _ => trivial) _, by decide,
    by decide⟩

end Cluster
end P2Poker
