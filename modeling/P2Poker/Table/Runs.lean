import P2Poker.Table.Handlers

/-! # A replica's runs, and actions applied at most once

A replica is handed local proposals (`ProposeLocal`), messages from the network in any order and
number (`onNet`), the ticks of its heartbeat and the expiry of its follower timer: `Input` names
them and `Runs` the replicas they reach.

The log records every execution of `apply`: `commitAndBroadcast` and `applyCommit` append the action
right after its `apply`, and nothing else calls `apply` but `apply` itself, whose second call for a
`BET` against a live bet is the same execution of the same action as a `RAISE`. The dedup set lists
exactly the logged ids (`DedupInv`), so an id is applied at most once when the log lists it once.

That rests on the ids the replica draws for the actions it makes up (`ADVANCE_PHASE`, `SHOWDOWN`):
an id enters the dedup set only once its `apply` has returned, and the commits nested in that
`apply` check their drawn ids against the dedup set as it is then. As long as the drawn ids are
distinct and none is the id of an action the replica is handed (`FreshInput`), every call commits
unseen, distinct ids (`FreshCommits`). A drawn id equal to the id of the action being applied makes
the replica apply that id twice (`drawn_id_applied_twice`). -/

namespace P2Poker
namespace Table

/-- The replicas reached from `t₀` by inputs that `ok` allows. -/
inductive Runs (rt : Runtime) (ok : Table → Input → Prop) (t₀ : Table) : Table → Prop
  | init : Runs rt ok t₀ t₀
  | step {t : Table} (i : Input) : Runs rt ok t₀ t → ok t i → Runs rt ok t₀ (t.handle rt i).1

/-- The ids of the actions that the messages `out` commit. -/
def committedIDs (out : List NetMessage) : List String := (out.filterMap NetMessage.action).map Action.id

/-- No action handed to the replica carries an id the replica has yet to draw. -/
def FreshInput (rt : Runtime) (t : Table) (i : Input) : Prop :=
  ∀ a, i.action = some a → ∀ d, t.draws ≤ d → rt.randActionID d ≠ a.id

/-! ### The commits of one call -/

/-- The commits of a call from `t` to `t'` that wrote `out`: distinct ids, none in `t`'s dedup set,
    each one of `own` or drawn by the call. -/
structure FreshCommits (rt : Runtime) (own : List String) (t t' : Table) (out : List NetMessage) : Prop where
  draws : t.draws ≤ t'.draws
  nodup : (committedIDs out).Nodup
  unseen : ∀ x ∈ committedIDs out, x ∉ t.dedup
  drawn : ∀ x ∈ committedIDs out, x ∈ own ∨ ∃ d, t.draws ≤ d ∧ d < t'.draws ∧ rt.randActionID d = x

section Fresh
variable {rt : Runtime} {own : List String} {t t' : Table} {c r f : Table → Action → Table × List NetMessage}

theorem FreshCommits.nil (h : t.draws ≤ t'.draws) : FreshCommits rt own t t' [] :=
  ⟨h, List.nodup_nil, fun _ hx => absurd hx (List.not_mem_nil _), fun _ hx => absurd hx (List.not_mem_nil _)⟩

theorem FreshCommits.of_eng {e : State} {out : List NetMessage} (h : FreshCommits rt own { t with eng := e } t' out) :
    FreshCommits rt own t t' out :=
  ⟨h.1, h.2, h.3, h.4⟩

theorem FreshCommits.panicIf {x : Table × List NetMessage} (h : FreshCommits rt own t x.1 x.2) (p : Bool) :
    FreshCommits rt own t (panicIf p x).1 (panicIf p x).2 := by
  cases p
  exacts [h, ⟨h.1, h.2, h.3, h.4⟩]

theorem FreshCommits.synth (hinj : Function.Injective rt.randActionID)
    (hc : ∀ t b, (∀ d, t.draws ≤ d → rt.randActionID d ≠ b.id) → FreshCommits rt [b.id] t (c t b).1 (c t b).2)
    {t₁ : Table} {b : Action} (hd : t₁.draws = t.draws + 1) (hdd : t₁.dedup = t.dedup)
    (hb : b.id = rt.randActionID t.draws) : FreshCommits rt [] t (c t₁ b).1 (c t₁ b).2 := by
  obtain ⟨hdr, hnd, hun, hdn⟩ := hc t₁ b fun d hd' h => absurd (hinj (h.trans hb)) (by omega)
  refine ⟨by omega, hnd, hdd ▸ hun, fun x hx => .inr ?_⟩
  rcases hdn x hx with hx | ⟨d, hd', hlt, rfl⟩
  · exact ⟨t.draws, Nat.le_refl _, by omega, ((List.mem_singleton.mp hx).trans hb).symm⟩
  · exact ⟨d, by omega, hlt, rfl⟩

theorem FreshCommits.applyWith (hinj : Function.Injective rt.randActionID)
    (hc : ∀ t b, (∀ d, t.draws ≤ d → rt.randActionID d ≠ b.id) → FreshCommits rt [b.id] t (c t b).1 (c t b).2)
    (hr : ∀ t b, FreshCommits rt [] t (r t b).1 (r t b).2) (t : Table) (a : Action) :
    FreshCommits rt [] t (applyWith rt c r t a).1 (applyWith rt c r t a).2 := by
  rcases @applyWith_cases rt t a c r with ⟨-, -, h⟩ | ⟨-, -, h⟩ | ⟨-, -, h | ⟨-, -, h⟩ | ⟨-, -, h⟩⟩ <;> rw [h]
  exacts [.nil (Nat.le_refl _), hr t _, by refine FreshCommits.panicIf ?_ _; exact .nil le_rfl,
    .synth hinj hc rfl rfl rfl, by refine FreshCommits.panicIf ?_ _; exact .synth hinj hc rfl rfl rfl]

theorem FreshCommits.snoc {t₁ t₂ t₃ : Table} {out : List NetMessage} {m : NetMessage} {a : Action}
    (h : FreshCommits rt [] t₁ t₂ out) (hd : t₁.draws = t.draws) (hdd : t₁.dedup = t.dedup)
    (hd₃ : t₃.draws = t₂.draws) (hm : m.action = some a) (hseen : a.id ∉ t.dedup)
    (ha : ∀ d, t.draws ≤ d → rt.randActionID d ≠ a.id) : FreshCommits rt [a.id] t t₃ (out ++ [m]) := by
  have hids : committedIDs (out ++ [m]) = committedIDs out ++ [a.id] := by simp [committedIDs, hm]
  have hnot : a.id ∉ committedIDs out := fun hx => by
    rcases h.drawn _ hx with hx | ⟨d, hd', -, hx⟩
    exacts [absurd hx (List.not_mem_nil _), ha d (hd ▸ hd') hx]
  refine ⟨hd₃ ▸ hd ▸ h.draws, ?_, fun x hx => ?_, fun x hx => ?_⟩ <;> rw [hids] at *
  · exact List.nodup_append.mpr ⟨h.nodup, List.nodup_singleton _, fun x hx hx' => hnot (List.mem_singleton.mp hx' ▸ hx)⟩
  · rcases List.mem_append.mp hx with hx | hx
    exacts [hdd ▸ h.unseen x hx, List.mem_singleton.mp hx ▸ hseen]
  · rcases List.mem_append.mp hx with hx | hx
    · rcases h.drawn x hx with hx | ⟨d, hd', hlt, hx⟩
      exacts [absurd hx (List.not_mem_nil _), .inr ⟨d, hd ▸ hd', hd₃ ▸ hlt, hx⟩]
    · exact .inl hx

theorem FreshCommits.commitWith (hf : ∀ t b, FreshCommits rt [] t (f t b).1 (f t b).2) (t : Table) (a : Action)
    (ha : ∀ d, t.draws ≤ d → rt.randActionID d ≠ a.id) :
    FreshCommits rt [a.id] t (commitWith f t a).1 (commitWith f t a).2 := by
  unfold Table.commitWith
  dsimp only
  split_ifs with hseen
  · exact .nil (Nat.le_refl _)
  · have h := hf { t with seq := t.seq + 1 } a
    exact ⟨h.draws, h.nodup, h.unseen, fun x hx => .inr ((h.drawn x hx).resolve_left (List.not_mem_nil _))⟩
  · exact .snoc (hf _ a) rfl rfl rfl rfl hseen ha

theorem freshCommits_apply (hinj : Function.Injective rt.randActionID) (n : Nat) (t : Table) (a : Action) :
    FreshCommits rt [] t (apply rt n t a).1 (apply rt n t a).2 := by
  induction n generalizing t a with
  | zero => exact .applyWith hinj (fun _ _ _ => .nil (Nat.le_refl _)) (fun _ _ => .nil (Nat.le_refl _)) t a
  | succ n ih => exact .applyWith hinj (fun t b hb => .commitWith ih t b hb) ih t a

theorem freshCommits_commitAndBroadcast (hinj : Function.Injective rt.randActionID) (t : Table) (a : Action)
    (ha : ∀ d, t.draws ≤ d → rt.randActionID d ≠ a.id) :
    FreshCommits rt [a.id] t (t.commitAndBroadcast rt a).1 (t.commitAndBroadcast rt a).2 :=
  .commitWith (freshCommits_apply hinj 3) t a ha

end Fresh

/-! ### The log and the dedup set -/

/-- The dedup set lists the logged ids, and the log lists each id once. -/
structure DedupInv (t : Table) : Prop where
  dedup : t.dedup = t.log.map Action.id
  nodup : (t.log.map Action.id).Nodup

section Dedup
variable {rt : Runtime} {t t' : Table}

theorem DedupInv.commits (h : t.DedupInv) {own : List String} {out : List NetMessage} (hs : CommitStream t t' out)
    (hf : FreshCommits rt own t t' out) : t'.DedupInv where
  dedup := by rw [hs.dedup, hs.log, h.dedup, List.map_append]
  nodup := by
    rw [hs.log, List.map_append]
    exact List.nodup_append.mpr ⟨h.nodup, hf.nodup, fun x hx hx' => hf.unseen x hx' (h.dedup ▸ hx)⟩

theorem DedupInv.snoc (h : t.DedupInv) {a : Action} (ha : a.id ∉ t.dedup) :
    { t with log := t.log ++ [a], dedup := t.dedup ++ [a.id] }.DedupInv where
  dedup := by simp [h.dedup]
  nodup := by
    rw [List.map_append]
    exact List.nodup_append.mpr ⟨h.nodup, List.nodup_singleton _,
      fun x hx hx' => ha (List.mem_singleton.mp hx' ▸ h.dedup ▸ hx)⟩

theorem DedupInv.applyCommit (hinj : Function.Injective rt.randActionID) (h : t.DedupInv) {a : Action} (seq : Nat)
    (ha : ∀ d, t.draws ≤ d → rt.randActionID d ≠ a.id) : (applyCommit rt t a seq).1.DedupInv := by
  rcases applyCommit_cases rt (t := t) a seq with hc | hc | ⟨hseen, -, hc⟩ <;> rw [hc]
  · exact h
  · exact h
  · have hs := @commitStream_apply rt 3 { t with seq := seq } a
    have hf := freshCommits_apply hinj 3 { t with seq := seq } a
    have hc := DedupInv.commits (t := { t with seq := seq }) ⟨h.1, h.2⟩ hs hf
    dsimp only
    split_ifs
    · exact hc
    refine hc.snoc fun hd => ?_
    rcases List.mem_append.mp (hs.dedup ▸ hd) with hd | hd
    · exact hseen hd
    · rcases hf.drawn _ hd with h' | ⟨d, hd', -, hx⟩
      exacts [absurd h' (List.not_mem_nil _), ha d hd' hx]

/-- Every input keeps the invariant. -/
theorem DedupInv.handle (hinj : Function.Injective rt.randActionID) (h : t.DedupInv) (i : Input)
    (hi : FreshInput rt t i) : (t.handle rt i).1.DedupInv := by
  cases hp : t.panicked
  case true => rwa [handle_panicked hp]
  cases i with
  | propose a =>
    rcases proposeLocal_cases rt (t := t) a with ⟨-, hpr⟩ | ⟨-, hpr⟩ <;> rw [handle_propose hp, hpr]
    · exact h.commits (commitAndBroadcast_stream rt t a) (freshCommits_commitAndBroadcast hinj t a (hi a rfl))
    · exact h
  | net m =>
    rcases onNet_cases rt (t := t) m with hn | ⟨-, -, a, hm, hn⟩ | ⟨-, -, a, hm, -, hn⟩ | ⟨-, -, ss, -, hn⟩ |
      ⟨-, -, hn⟩ | ⟨-, hn⟩ <;> rw [handle_net hp, hn]
    · exact h
    · exact h.commits (commitAndBroadcast_stream rt t a) (freshCommits_commitAndBroadcast hinj t a (hi a hm))
    · have hc := h.applyCommit hinj m.seq (hi a hm)
      dsimp only
      split_ifs
      exacts [hc, ⟨hc.1, hc.2⟩, hc]
    · exact ⟨h.1, h.2⟩
    · exact ⟨h.1, h.2⟩
    · exact h
  | heartbeat => rwa [handle_heartbeat hp]
  | takeover =>
    rcases tryAuthorityTakeover_cases (t := t) with ht | ⟨-, -, ht⟩ <;> rw [handle_takeover hp, ht]
    exacts [h, ⟨h.1, h.2⟩]

end Dedup

/-- Along every run of a replica whose drawn ids are distinct and never the id of an action it is
    handed, the log, which records each execution of `apply`, lists each action id at most once,
    and the dedup set lists exactly the logged ids. -/
theorem applied_at_most_once {rt : Runtime} (hinj : Function.Injective rt.randActionID) {id : TableID}
    {self : NodeID} {cfg : TableConfig} {authority : Bool} {epoch : Nat} {t : Table}
    (h : Runs rt (FreshInput rt) (Table.new id self cfg authority epoch) t) :
    (t.log.map Action.id).Nodup ∧ t.dedup = t.log.map Action.id := by
  suffices hd : t.DedupInv from ⟨hd.nodup, hd.dedup⟩
  induction h with
  | init => exact ⟨rfl, List.nodup_nil⟩
  | step i _ hi ih => exact ih.handle hinj i hi

/-- Heads-up at blinds 5/10, with drawn ids `#`, `#1`, `#11`, ...: the authority commits the two
    `JOIN`s, the `START_HAND`, and the `CALL` that closes the preflop round, after the
    `ADVANCE_PHASE` it draws `#` for; the log lists five distinct ids. -/
theorem applied_at_most_once_headsUp :
    let rt : Runtime := ⟨fun _ => ⟨fun _ _ => 0, fun _ _ h => h⟩, fun d => ⟨'#' :: List.replicate d '1'⟩⟩
    let t₀ := Table.new "t" "n1" ⟨"t", 1000, 5, 10, 0, 0⟩ true 0
    let t := ((((t₀.handle rt (.propose ⟨"j1", .join, "A", 0, none⟩)).1.handle rt
      (.propose ⟨"j2", .join, "B", 0, none⟩)).1.handle rt (.propose ⟨"s1", .startHand, "A", 0, none⟩)).1.handle rt
      (.propose ⟨"c1", .call, "A", 0, none⟩)).1
    t.log.map Action.id = ["j1", "j2", "s1", "#", "c1"] ∧ Function.Injective rt.randActionID ∧
      Runs rt (FreshInput rt) t₀ t ∧ ((t.log.map Action.id).Nodup ∧ t.dedup = t.log.map Action.id) :=
  have hinj : Function.Injective fun d => String.mk ('#' :: List.replicate d '1') := fun _ _ h => by
    simpa using congrArg String.length h
  have hfresh (x : String) (hx : x.data.head? ≠ some '#') (d : Nat) : String.mk ('#' :: List.replicate d '1') ≠ x :=
    fun h => hx (h ▸ rfl)
  have hrun := Runs.step _ (Runs.step _ (Runs.step _ (Runs.step _ Runs.init
    fun _ ha d _ => by cases ha; exact hfresh _ (by decide) d) fun _ ha d _ => by cases ha; exact hfresh _ (by decide) d)
    fun _ ha d _ => by cases ha; exact hfresh _ (by decide) d) fun _ ha d _ => by cases ha; exact hfresh _ (by decide) d
  ⟨by decide, hinj, hrun, applied_at_most_once hinj hrun⟩

/-- A `CALL` whose id is the id the authority draws next: the `CALL` closes the preflop round, the
    `ADVANCE_PHASE` it makes up is committed under the same id before the `CALL`'s id is recorded,
    and the replica applies that id twice. The drawn ids are distinct. -/
theorem drawn_id_applied_twice : ∃ rt : Runtime, Function.Injective rt.randActionID ∧
    let t := Table.new "t" "n1" ⟨"t", 1000, 5, 10, 0, 0⟩ true 0
    let t := (t.commitAndBroadcast rt ⟨"j1", .join, "A", 0, none⟩).1
    let t := (t.commitAndBroadcast rt ⟨"j2", .join, "B", 0, none⟩).1
    let t := (t.commitAndBroadcast rt ⟨"s1", .startHand, "A", 0, none⟩).1
    let t := (t.commitAndBroadcast rt ⟨"#", .call, "A", 0, none⟩).1
    t.log.map Action.id = ["j1", "j2", "s1", "#", "#"] ∧ t.log.map Action.type = [.join, .join, .startHand, .advance, .call] :=
  ⟨⟨fun _ => ⟨fun _ _ => 0, fun _ _ h => h⟩, fun d => ⟨'#' :: List.replicate d '1'⟩⟩,
    fun _ _ h => by simpa using congrArg String.length h, by decide, by decide⟩

end Table
end P2Poker
