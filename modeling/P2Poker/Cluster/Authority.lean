import P2Poker.Cluster.Network
import P2Poker.Table.Runs

/-! # Authorities and epochs

A follower whose timer runs out takes over when it is the smallest node id it knows of, under its
own epoch plus one. No handler ever clears `authority`: a HEARTBEAT of a newer epoch makes an
authority adopt the epoch and the sender as its authority, and it goes on as an authority under the
new epoch, next to the node that took over (`heartbeat_keeps_old_authority`).

Four handlers and the takeover write a replica's epoch. A COMMIT or a HEARTBEAT of an older epoch is
dropped and one of a newer epoch is adopted. A SNAPSHOT of an older epoch is dropped too, but one
that passes installs the epoch of its payload, not of the message: the check holds only because
every snapshot an honest node writes carries the same epoch in both places (`handle_tagged`). The
takeover adds one modulo 2^64, as Go's `uint64` does: a takeover at the last epoch wraps it to 0
(`takeover_wraps_epoch`). Below that, for messages as honest nodes write them, in any order and
number, a replica's epoch never decreases (`epoch_never_decreases`). -/

namespace P2Poker

/-- A SNAPSHOT carries the same epoch on the message and in the state. -/
def NetMessage.SnapshotTagged (m : NetMessage) : Prop := ∀ ss, m.state = some ss → ss.epoch = m.epoch

namespace Table

section Tagged
variable {rt : Runtime} {t : Table}

theorem snapshotTagged_of_state (m : NetMessage) (h : m.state = none) : m.SnapshotTagged := by
  intro ss hs
  rw [h] at hs
  cases hs

theorem sendSnapshotTo_tagged (target : NodeID) : ∀ m ∈ t.sendSnapshotTo target, m.SnapshotTagged := by
  unfold sendSnapshotTo
  split
  · intro m hm ss hs
    rw [List.mem_singleton.mp hm] at hs ⊢
    cases hs
    rfl
  · intro m hm
    cases hm

theorem commitAndBroadcast_tagged (a : Action) : ∀ m ∈ (t.commitAndBroadcast rt a).2, m.SnapshotTagged :=
  fun m hm => snapshotTagged_of_state m ((commitAndBroadcast_stream rt t a).commit m hm).2.2.2.2

theorem applyCommit_tagged (a : Action) (seq : Nat) : ∀ m ∈ (applyCommit rt t a seq).2, m.SnapshotTagged := by
  rcases applyCommit_cases rt (t := t) a seq with h | h | ⟨-, -, h⟩ <;> rw [h]
  · intro m hm
    cases hm
  · intro m hm
    exact snapshotTagged_of_state m (by rw [List.mem_singleton.mp hm]; rfl)
  · dsimp only
    split_ifs <;> exact fun m hm => snapshotTagged_of_state m ((commitStream_apply 3 _ a).commit m hm).2.2.2.2

theorem onNet_tagged (m : NetMessage) : ∀ m' ∈ (t.onNet rt m).2, m'.SnapshotTagged := by
  rcases onNet_cases rt (t := t) m with h | ⟨-, -, a, -, h⟩ | ⟨-, -, a, -, -, h⟩ | ⟨-, -, ss, -, h⟩ |
    ⟨-, -, h⟩ | ⟨-, h⟩ <;> rw [h]
  · intro m' hm'
    cases hm'
  · exact commitAndBroadcast_tagged a
  · dsimp only
    split_ifs <;> exact applyCommit_tagged a m.seq
  · intro m' hm'
    cases hm'
  · intro m' hm'
    cases hm'
  · exact sendSnapshotTo_tagged m.sender

theorem proposeLocal_tagged (a : Action) : ∀ m ∈ (t.proposeLocal rt a).2, m.SnapshotTagged := by
  rcases proposeLocal_cases rt (t := t) a with ⟨-, h⟩ | ⟨-, h⟩ <;> rw [h]
  · exact commitAndBroadcast_tagged a
  · intro m hm
    exact snapshotTagged_of_state m (by rw [List.mem_singleton.mp hm]; rfl)

theorem sendHeartbeat_tagged : ∀ m ∈ t.sendHeartbeat, m.SnapshotTagged := by
  intro m hm
  unfold sendHeartbeat at hm
  split at hm
  · exact snapshotTagged_of_state m (by rw [List.mem_singleton.mp hm]; rfl)
  · cases hm

theorem tryAuthorityTakeover_tagged : ∀ m ∈ t.tryAuthorityTakeover.2, m.SnapshotTagged := by
  rcases tryAuthorityTakeover_cases (t := t) with h | ⟨-, -, h⟩ <;> rw [h]
  · intro m hm
    cases hm
  · intro m hm
    rcases List.mem_append.mp hm with hm | hm
    exacts [sendHeartbeat_tagged m hm, sendSnapshotTo_tagged _ m hm]

theorem handle_tagged (i : Input) : ∀ m ∈ (t.handle rt i).2, m.SnapshotTagged := by
  cases hp : t.panicked
  case true => rw [handle_panicked hp]; exact List.forall_mem_nil _
  cases i with
  | propose a => rw [handle_propose hp]; exact proposeLocal_tagged a
  | net m => rw [handle_net hp]; exact onNet_tagged m
  | heartbeat => rw [handle_heartbeat hp]; exact sendHeartbeat_tagged
  | takeover => rw [handle_takeover hp]; exact tryAuthorityTakeover_tagged

end Tagged

/-- The messages honest nodes write: what a replica's handlers write, and the `STATE_QUERY` without
    action or state that `DiscoverAndAttach` (under epoch 0) and `JoinTableRemote` (under the epoch it
    joins at) send. -/
inductive Honest : NetMessage → Prop
  | handler (rt : Runtime) (t : Table) (i : Input) {m : NetMessage} : m ∈ (t.handle rt i).2 → Honest m
  | query (tid : TableID) (sender : NodeID) (epoch : Nat) : Honest ⟨tid, sender, .stateQuery, epoch, 0, none, none⟩

/-- An input whose message, if it has one, an honest node wrote. -/
def HonestInput (_ : Table) : Input → Prop
  | .net m => Honest m
  | _ => True

/-- An honest input that is not a takeover at the last epoch. -/
def BelowWrap (t : Table) (i : Input) : Prop := HonestInput t i ∧ (i = .takeover → t.epoch + 1 < 2 ^ 64)

theorem Honest.tagged {m : NetMessage} (h : Honest m) : m.SnapshotTagged := by
  cases h with
  | handler rt t i hm => exact handle_tagged i m hm
  | query => exact snapshotTagged_of_state _ rfl

section Epoch
variable {rt : Runtime} {t : Table}

theorem epoch_le_onNet {m : NetMessage} (ht : m.SnapshotTagged) : t.epoch ≤ (t.onNet rt m).1.epoch := by
  rcases onNet_cases rt (t := t) m with h | ⟨-, -, a, -, h⟩ | ⟨-, hle, a, -, -, h⟩ | ⟨-, hle, ss, hss, h⟩ |
    ⟨-, hle, h⟩ | ⟨-, h⟩ <;> rw [h]
  · exact (commitAndBroadcast_stream rt t a).frame.2.2.2.2.1.ge
  · dsimp only
    split_ifs
    exacts [(applyCommit_frame a _).2.1.ge, hle, (applyCommit_frame a _).2.1.ge]
  · exact hle.trans_eq (ht ss hss).symm
  · exact hle

theorem epoch_le_handle (i : Input) (hi : BelowWrap t i) : t.epoch ≤ (t.handle rt i).1.epoch := by
  cases hp : t.panicked
  case true => rw [handle_panicked hp]
  cases i with
  | propose a =>
    rcases proposeLocal_cases rt (t := t) a with ⟨-, h⟩ | ⟨-, h⟩ <;> rw [handle_propose hp, h]
    exact (commitAndBroadcast_stream rt t a).frame.2.2.2.2.1.ge
  | net m => exact (handle_net hp m).symm ▸ epoch_le_onNet hi.1.tagged
  | heartbeat => rw [handle_heartbeat hp]
  | takeover =>
    rcases tryAuthorityTakeover_cases (t := t) with h | ⟨-, -, h⟩ <;> rw [handle_takeover hp, h]
    show t.epoch ≤ (t.epoch + 1) % 2 ^ 64
    rw [Nat.mod_eq_of_lt (hi.2 rfl)]
    exact Nat.le_succ _

end Epoch

/-- From any replica, along any run of local proposals, heartbeat ticks, messages as honest nodes
    write them, delivered in any order, and takeovers below the last epoch, the epoch never
    decreases. -/
theorem epoch_never_decreases {rt : Runtime} {t₀ t : Table} (h : Runs rt BelowWrap t₀ t) : t₀.epoch ≤ t.epoch := by
  induction h with
  | init => exact Nat.le_refl _
  | step i _ hi ih => exact ih.trans (epoch_le_handle i hi)

/-- Follower `n2` takes over under epoch 1; the snapshot that authority `n1` wrote under epoch 0, in
    answer to `n2`'s query, arrives after that and is dropped. -/
theorem epoch_never_decreases_lateSnapshot :
    let rt : Runtime := ⟨fun _ => ⟨fun _ _ => 0, fun _ _ h => h⟩, fun _ => "adv"⟩
    let cfg : TableConfig := ⟨"t", 1000, 5, 10, 0, 0⟩
    let q : NetMessage := ⟨"t", "n2", .stateQuery, 0, 0, none, none⟩
    let m := (((Table.new "t" "n1" cfg true 0).handle rt (.net q)).2).headD q
    let t₀ := Table.new "t" "n2" cfg false 0
    let t := (((t₀.handle rt .takeover).1).handle rt (.net m)).1
    m.type = .snapshot ∧ t.epoch = 1 ∧ Runs rt BelowWrap t₀ t ∧ t₀.epoch ≤ t.epoch := by
  intro rt cfg q m t₀ t
  have hrun : Runs rt BelowWrap t₀ t := Runs.step _ (Runs.step _ Runs.init ⟨trivial, fun _ => by decide⟩)
    ⟨Honest.handler rt (Table.new "t" "n1" cfg true 0) (.net q) (List.mem_singleton.mpr rfl), fun h => nomatch h⟩
  exact ⟨rfl, by decide, hrun, epoch_never_decreases hrun⟩

/-- A follower at the last epoch, 2^64 - 1, takes over and its epoch wraps to 0. -/
theorem takeover_wraps_epoch (rt : Runtime) :
    let t₀ := Table.new "t" "n2" ⟨"t", 1000, 5, 10, 0, 0⟩ false (2 ^ 64 - 1)
    let t := (t₀.handle rt .takeover).1
    Runs rt HonestInput t₀ t ∧ t₀.epoch = 2 ^ 64 - 1 ∧ t.authority = true ∧ t.epoch = 0 :=
  ⟨.step _ .init trivial, rfl, rfl, rfl⟩

end Table

namespace Cluster

/-- Node `a` creates the table. Follower `b`, which has heard of no authority yet, takes over under
    epoch 1 and sends its heartbeat; `a` adopts epoch 1 and names `b` its authority, but stays an
    authority: two replicas hold authority under epoch 1. -/
theorem heartbeat_keeps_old_authority : ∃ rt : Runtime,
    let c₀ := init "t" ⟨"t", 1000, 5, 10, 0, 0⟩ "a"
    let c := c₀.run rt [.takeover "b", .deliver "b" "a"]
    Reach rt (fun _ _ => True) c₀ c ∧ (c.table "a").authority = true ∧ (c.table "b").authority = true ∧
      (c.table "a").epoch = 1 ∧ (c.table "b").epoch = 1 ∧ (c.table "a").authorityID = "b" :=
  ⟨⟨fun _ => ⟨fun _ _ => 0, fun _ _ h => h⟩, fun _ => "x"⟩, Reach.init.run (fun _ _ => trivial) _, by decide,
    by decide, by decide, by decide, by decide⟩

end Cluster
end P2Poker
