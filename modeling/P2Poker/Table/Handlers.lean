import P2Poker.Table.CommitStream

/-! What each handler of a replica can do, one inversion lemma per handler: the invariants of the
    cluster cite these and never unfold a handler. -/

namespace P2Poker
namespace Table

/-- What a replica is handed. -/
inductive Input
  | propose (a : Action)
  | net (m : NetMessage)
  | heartbeat
  | takeover

/-- The action an input carries. -/
def Input.action : Input → Option Action
  | .propose a => some a
  | .net m => m.action
  | _ => none

/-- A replica handles one input: the replica it leaves and the messages it writes. Once its process
    has panicked it handles nothing. -/
def handle (rt : Runtime) (t : Table) (i : Input) : Table × List NetMessage :=
  if t.panicked then (t, [])
  else
    match i with
    | .propose a => t.proposeLocal rt a
    | .net m => t.onNet rt m
    | .heartbeat => (t, t.sendHeartbeat)
    | .takeover => t.tryAuthorityTakeover

section Handlers
variable {rt : Runtime} {t : Table}

@[simp] theorem handle_panicked (h : t.panicked = true) (i : Input) : t.handle rt i = (t, []) := if_pos h

theorem handle_propose (h : t.panicked = false) (a : Action) : t.handle rt (.propose a) = t.proposeLocal rt a :=
  if_neg (by simp [h])

theorem handle_net (h : t.panicked = false) (m : NetMessage) : t.handle rt (.net m) = t.onNet rt m :=
  if_neg (by simp [h])

theorem handle_heartbeat (h : t.panicked = false) : t.handle rt .heartbeat = (t, t.sendHeartbeat) :=
  if_neg (by simp [h])

theorem handle_takeover (h : t.panicked = false) : t.handle rt .takeover = t.tryAuthorityTakeover :=
  if_neg (by simp [h])

theorem applyCommit_cases (rt : Runtime) (a : Action) (seq : Nat) :
    applyCommit rt t a seq = (t, []) ∨ applyCommit rt t a seq = (t, [t.envelope .stateQuery 0 none none]) ∨
      (a.id ∉ t.dedup ∧ seq = t.seq + 1 ∧
        applyCommit rt t a seq =
          let r := apply rt 3 { t with seq := seq } a
          if r.1.panicked then r else ({ r.1 with log := r.1.log ++ [a], dedup := r.1.dedup ++ [a.id] }, r.2)) := by
  unfold applyCommit
  split_ifs with h₁ h₂
  · exact .inl rfl
  · exact .inr (.inl rfl)
  · exact .inr (.inr ⟨h₁, not_not.mp h₂, rfl⟩)

theorem applyCommit_frame (a : Action) (seq : Nat) :
    (applyCommit rt t a seq).1.authority = t.authority ∧ (applyCommit rt t a seq).1.epoch = t.epoch ∧
      (applyCommit rt t a seq).1.authorityID = t.authorityID ∧ (applyCommit rt t a seq).1.cfg = t.cfg := by
  rcases applyCommit_cases rt (t := t) a seq with h | h | ⟨-, -, h⟩ <;> rw [h]
  · exact ⟨rfl, rfl, rfl, rfl⟩
  · exact ⟨rfl, rfl, rfl, rfl⟩
  · have hs : CommitStream { t with seq := seq } (apply rt 3 { t with seq := seq } a).1 _ :=
      commitStream_apply 3 _ a
    replace hs := hs.frame
    dsimp only
    split_ifs <;> exact ⟨hs.2.2.2.1, hs.2.2.2.2.1, hs.2.2.2.2.2, hs.2.2.1⟩

/-- What `onNet` does with each kind of message: a message it drops leaves the replica as it was. -/
theorem onNet_cases (rt : Runtime) (m : NetMessage) :
    t.onNet rt m = (t, []) ∨
    (m.type = .propose ∧ t.authority = true ∧ ∃ a, m.action = some a ∧
      t.onNet rt m = t.commitAndBroadcast rt a) ∨
    (m.type = .commit ∧ t.epoch ≤ m.epoch ∧ ∃ a, m.action = some a ∧ ¬(a.type = .kick ∧ m.sender ≠ t.authorityID) ∧
      t.onNet rt m =
        let r := applyCommit rt t a m.seq
        if r.1.panicked then r
        else (if r.1.epoch < m.epoch ∨ r.1.authorityID = "" then { r.1 with epoch := m.epoch, authorityID := m.sender }
          else r.1, r.2)) ∨
    (m.type = .snapshot ∧ t.epoch ≤ m.epoch ∧ ∃ ss, m.state = some ss ∧ t.onNet rt m = (t.installSnapshot ss, [])) ∨
    (m.type = .heartbeat ∧ t.epoch ≤ m.epoch ∧
      t.onNet rt m = ({ t with epoch := m.epoch, authorityID := m.sender }, [])) ∨
    (m.type = .stateQuery ∧ t.onNet rt m = (t, t.sendSnapshotTo m.sender)) := by
  obtain ⟨tid, sender, type, epoch, seq, action, state⟩ := m
  cases type with
  | propose =>
    cases action with
    | none => exact .inl rfl
    | some a =>
      by_cases h₁ : t.authority = true
      · by_cases h₂ : a.type = .kick ∧ sender ≠ t.authorityID
        · exact .inl (by simp [onNet, h₁, h₂])
        · exact .inr (.inl ⟨rfl, h₁, a, rfl, by simp [onNet, h₁, h₂]⟩)
      · exact .inl (by simp [onNet, h₁])
  | commit =>
    cases action with
    | none => exact .inl rfl
    | some a =>
      by_cases h₁ : epoch < t.epoch
      · exact .inl (by simp [onNet, h₁])
      · by_cases h₂ : a.type = .kick ∧ sender ≠ t.authorityID
        · exact .inl (by simp [onNet, h₁, h₂])
        · exact .inr (.inr (.inl ⟨rfl, Nat.le_of_not_lt h₁, a, rfl, h₂, by simp only [onNet, h₁, h₂, if_false]⟩))
  | snapshot =>
    cases state with
    | none => exact .inl rfl
    | some ss =>
      by_cases h₁ : epoch < t.epoch
      · exact .inl (by simp [onNet, h₁])
      · exact .inr (.inr (.inr (.inl ⟨rfl, Nat.le_of_not_lt h₁, ss, rfl, by simp [onNet, h₁]⟩)))
  | heartbeat =>
    by_cases h₁ : epoch < t.epoch
    · exact .inl (by simp [onNet, h₁])
    · exact .inr (.inr (.inr (.inr (.inl ⟨rfl, Nat.le_of_not_lt h₁, by simp [onNet, h₁]⟩))))
  | stateQuery => exact .inr (.inr (.inr (.inr (.inr ⟨rfl, rfl⟩))))

theorem applyCommit_next {a : Action} {seq : Nat} (hd : a.id ∉ t.dedup) (hs : seq = t.seq + 1) :
    applyCommit rt t a seq =
      let r := apply rt 3 { t with seq := seq } a
      if r.1.panicked then r else ({ r.1 with log := r.1.log ++ [a], dedup := r.1.dedup ++ [a.id] }, r.2) := by
  unfold applyCommit
  rw [if_neg hd, if_neg (not_not.mpr hs)]

theorem onNet_commit {m : NetMessage} {a : Action} (ht : m.type = .commit) (ha : m.action = some a)
    (he : t.epoch ≤ m.epoch) (hk : ¬(a.type = .kick ∧ m.sender ≠ t.authorityID)) :
    t.onNet rt m =
      let r := applyCommit rt t a m.seq
      if r.1.panicked then r
      else (if r.1.epoch < m.epoch ∨ r.1.authorityID = "" then { r.1 with epoch := m.epoch, authorityID := m.sender }
        else r.1, r.2) := by
  obtain ⟨tid, sender, type, epoch, seq, action, state⟩ := m
  cases ht
  cases ha
  simp only [onNet, Nat.not_lt.mpr he, hk, if_false]

theorem onNet_snapshot {m : NetMessage} {ss : TableSnapshot} (ht : m.type = .snapshot) (hs : m.state = some ss)
    (he : t.epoch ≤ m.epoch) : t.onNet rt m = (t.installSnapshot ss, []) := by
  obtain ⟨tid, sender, type, epoch, seq, action, state⟩ := m
  cases ht
  cases hs
  simp only [onNet, Nat.not_lt.mpr he, if_false]

theorem onNet_heartbeat {m : NetMessage} (ht : m.type = .heartbeat) (he : t.epoch ≤ m.epoch) :
    t.onNet rt m = ({ t with epoch := m.epoch, authorityID := m.sender }, []) := by
  obtain ⟨tid, sender, type, epoch, seq, action, state⟩ := m
  cases ht
  simp only [onNet, Nat.not_lt.mpr he, if_false]

theorem onNet_stateQuery {m : NetMessage} (ht : m.type = .stateQuery) :
    t.onNet rt m = (t, t.sendSnapshotTo m.sender) := by
  obtain ⟨tid, sender, type, epoch, seq, action, state⟩ := m
  cases ht
  rfl

theorem onNet_authority (rt : Runtime) (m : NetMessage) : (t.onNet rt m).1.authority = t.authority := by
  rcases onNet_cases rt (t := t) m with h | ⟨-, -, a, -, h⟩ | ⟨-, -, a, -, -, h⟩ | ⟨-, -, ss, -, h⟩ |
    ⟨-, -, h⟩ | ⟨-, h⟩ <;> rw [h]
  · exact (commitAndBroadcast_stream rt t a).frame.2.2.2.1
  · dsimp only
    split_ifs <;> exact (applyCommit_frame a _).1
  all_goals rfl

theorem tryAuthorityTakeover_cases :
    t.tryAuthorityTakeover = (t, []) ∨
      (t.authority = false ∧ t.isSmallestNodeID = true ∧
        let t' := { t with authority := true, epoch := (t.epoch + 1) % 2 ^ 64, authorityID := t.self }
        t.tryAuthorityTakeover = (t', t'.sendHeartbeat ++ t'.sendSnapshotTo "")) := by
  unfold tryAuthorityTakeover
  split_ifs with h₁ h₂
  · exact .inl rfl
  · exact .inl rfl
  · exact .inr ⟨by simpa using h₁, by simpa using h₂, rfl⟩

theorem proposeLocal_cases (rt : Runtime) (a : Action) :
    (t.authority = true ∧ t.proposeLocal rt a = t.commitAndBroadcast rt a) ∨
      (t.authority = false ∧ t.proposeLocal rt a = (t, [t.envelope .propose 0 (some a) none])) := by
  unfold proposeLocal
  cases t.authority
  · exact .inr ⟨rfl, rfl⟩
  · exact .inl ⟨rfl, rfl⟩

end Handlers

end Table
end P2Poker
