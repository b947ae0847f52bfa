import BitTorrentBits.Swarm.Ownership
import Mathlib

/-!
# Leaving the loop

`is_done` answers that every piece is taken, not that every piece is stored. A worker that
leaves on this answer while another one still holds a piece does not come back when that
piece is given up.
-/

namespace BitTorrentBits.Swarm

variable {W : Nat}

/-- The loop test finds the pool done only while nobody holds a piece. -/
def LeavesIdle (tf : TorrentFile) (s : Swarm W) : Fin W × Action → Prop
  | (_, .isDone) =>
    s.pool.isDone = some true → ∀ w, ∀ i < tf.numPieces, ¬ s.Holds w i
  | _ => True

/-- A worker in the loop has attempts left, and one that left without finding the pool
done has used them up. -/
def AttemptsFit : Worker → Prop
  | ⟨.isDone, k⟩ => k ≤ PEER_MAX_FAILS
  | ⟨.left true, _⟩ => True
  | ⟨.left false, k⟩ => k = PEER_MAX_FAILS
  | ⟨_, k⟩ => k < PEER_MAX_FAILS

variable {fresh : Nat → UInt8} {tf : TorrentFile} {s s' : Swarm W} {L : Ledger Nat (Fin W)}

private theorem attempts_update {x : Worker} (w : Fin W)
    (h : ∀ v, AttemptsFit (s.workers v)) (hx : AttemptsFit x) (v : Fin W) :
    AttemptsFit (Function.update s.workers w x v) := by
  by_cases hv : v = w
  · subst hv
    simpa using hx
  · simpa [hv] using h v

theorem attempts_step {label : Fin W × Action} (h : ∀ v, AttemptsFit (s.workers v))
    (hs : step fresh s label = some s') : ∀ v, AttemptsFit (s'.workers v) := by
  obtain ⟨w, action⟩ := label
  have hw := h w
  cases hm : s.workers w with
  | mk pc k =>
    rw [hm] at hw
    have hk : (s.workers w).failedAttempts = k := by rw [hm]
    have hpc' : (s.workers w).pc = pc := by rw [hm]
    cases moves_of_step hs with
    | isDone d hpc _ =>
      apply attempts_update w h
      rw [hpc'] at hpc
      subst hpc
      rw [hk, loopTest]
      have hle : k ≤ PEER_MAX_FAILS := hw
      split_ifs with hd hlt
      · trivial
      · exact hlt
      · exact Nat.le_antisymm hle (Nat.le_of_not_lt hlt)
    | hasPiece i answer hpc =>
      apply attempts_update w h
      rw [hpc'] at hpc
      subst hpc
      rw [hk]
      cases answer <;> exact hw
    | getPieceIndex _ _ hpc _ | downloaded _ hpc _ | notDownloaded _ hpc =>
      apply attempts_update w h
      rw [hpc'] at hpc
      subst hpc
      rw [hk]
      exact hw
    | addPiece p df hpc _ =>
      apply attempts_update w h
      rw [hpc'] at hpc
      subst hpc
      rw [hk]
      exact Nat.le_of_lt hw
    | markAsUndone i pool hpc _ =>
      apply attempts_update w h
      rw [hpc'] at hpc
      subst hpc
      rw [hk]
      exact hw

theorem stored_iff_idle (hL : Consistent tf s L) (hd : s.pool.isDone = some true) :
    (∀ i < tf.numPieces, s.df.Stored i) ↔ ∀ w, ∀ i < tf.numPieces, ¬ s.Holds w i := by
  have htaken := (hL.isDone_iff.mp hd).2
  constructor
  · intro hst w i hi hw
    exact hL.not_stored_of_holds hw (hst i hi)
  · intro hidle i hi
    exact (hL.taken_iff_stored hi fun w => hidle w i hi).mp (htaken i hi)

private def LeftWhole (tf : TorrentFile) (s : Swarm W) : Prop :=
  ∀ w, (s.workers w).pc = .left true → ∀ i < tf.numPieces, s.df.Stored i

private theorem leftWhole_step (hL : Consistent tf s L) {label : Fin W × Action}
    (h : LeftWhole tf s) (hg : LeavesIdle tf s label) (hs : step fresh s label = some s') :
    LeftWhole tf s' := by
  intro v hv i hi
  apply stored_of_step hs
  revert i hi
  obtain ⟨w, action⟩ := label
  by_cases hvw : v = w
  · subst hvw
    cases moves_of_step hs with
    | isDone d hpc hd =>
      have htrue : d = true := by
        simp only [goto, Function.update_self, loopTest] at hv
        split_ifs at hv with hd'
        · exact hd'
        · simp at hv
      subst htrue
      exact (stored_iff_idle hL hd).mpr (hg hd)
    | hasPiece i answer _ =>
      cases answer <;> simp [goto] at hv
    | getPieceIndex _ _ _ _ | downloaded _ _ _ | notDownloaded _ _ | addPiece _ _ _ _ =>
      simp [goto] at hv
    | markAsUndone _ _ _ _ => simp [fail] at hv
  · apply h v
    cases moves_of_step hs <;> simpa [goto, fail, hvw] using hv

private theorem leaving_run {as : List (Fin W × Action)}
    (h : (downloadLoops fresh W tf).run (initSwarm W tf) as = some s)
    (hm : (downloadLoops fresh W tf).Meets (LeavesIdle tf) (initSwarm W tf) as) :
    LeftWhole tf s ∧ ∀ v, AttemptsFit (s.workers v) := by
  have hinv := Machine.run_invariant_of_meets
    (P := fun s => (∃ L, Consistent tf s L) ∧ LeftWhole tf s ∧ ∀ v, AttemptsFit (s.workers v))
    ?_ ?_ hm h
  · exact hinv.2
  · rintro t ⟨w, action⟩ t' ⟨⟨L, hL⟩, hleft, hfit⟩ hg hs
    change step fresh t (w, action) = some t' at hs
    obtain ⟨L', -, hL'⟩ := hL.step hs
    exact ⟨⟨L', hL'⟩, leftWhole_step hL hleft hg hs, attempts_step hfit hs⟩
  · refine ⟨⟨_, consistent_init W tf⟩, ?_, fun v => Nat.zero_le _⟩
    intro w hw
    simp [initSwarm] at hw

/-- A loop test that finds the pool done finds every piece stored exactly when nobody holds
a piece. In a run whose loop tests are all of that kind, whoever has left on a done pool
has left a whole file; and if all have left and a piece is missing, every worker has used
up its attempts. -/
theorem attempts_used_up_of_missing (fresh : Nat → UInt8) (W : Nat) (tf : TorrentFile) :
    (∀ s : Swarm W, (downloadLoops fresh W tf).Reachable s → s.pool.isDone = some true →
      ((∀ i < tf.numPieces, s.df.Stored i) ↔ ∀ w, ∀ i < tf.numPieces, ¬ s.Holds w i)) ∧
    (∀ as (s : Swarm W), (downloadLoops fresh W tf).run (initSwarm W tf) as = some s →
      (downloadLoops fresh W tf).Meets (LeavesIdle tf) (initSwarm W tf) as →
      (∀ w, (s.workers w).pc = .left true → ∀ i < tf.numPieces, s.df.Stored i) ∧
      ((∀ w, s.Ended w) → (∃ i < tf.numPieces, ¬ s.df.Stored i) →
        ∀ w, (s.workers w).failedAttempts = PEER_MAX_FAILS)) := by
  constructor
  · intro s h hd
    obtain ⟨L, hL⟩ := reachable_consistent h
    exact stored_iff_idle hL hd
  · intro as s h hm
    obtain ⟨hleft, hfit⟩ := leaving_run h hm
    refine ⟨hleft, ?_⟩
    rintro hend ⟨i, hi, hmissing⟩ w
    obtain ⟨d, hd⟩ := hend w
    cases d with
    | true => exact (hmissing (hleft w hd i hi)).elim
    | false =>
      have hw := hfit w
      cases hwk : s.workers w with
      | mk pc k =>
        rw [hwk] at hw hd
        subst hd
        exact hw

private def failedAttempt (w : Fin W) : List (Fin W × Action) :=
  [(w, .isDone), (w, .getPieceIndex), (w, .hasPiece true), (w, .downloadPiece none),
    (w, .markAsUndone)]

/-- One piece and two workers: the second one leaves while the first holds the piece, and
the first fails it eight times. -/
theorem missing_piece_with_attempts_left :
    ¬ ∀ (fresh : Nat → UInt8) (W : Nat) (tf : TorrentFile) (as : List (Fin W × Action))
      (s : Swarm W), (downloadLoops fresh W tf).run (initSwarm W tf) as = some s →
      (∀ w, s.Ended w) → (∃ i < tf.numPieces, ¬ s.df.Stored i) →
      ∀ w, (s.workers w).failedAttempts = PEER_MAX_FAILS := by
  intro h
  have hall := h (fun _ => 0) 2 { initTorrentFile with numPieces := 1 }
    ((0, .isDone) :: (0, .getPieceIndex) :: (1, .isDone) :: (failedAttempt 0).drop 2 ++
      (List.replicate 7 (failedAttempt 0)).flatten ++ [(0, .isDone)]) _ rfl ?_
      ⟨0, by decide, by decide⟩ 1
  · contradiction
  · intro w
    fin_cases w
    · exact ⟨false, rfl⟩
    · exact ⟨true, rfl⟩

private theorem leavesIdle_alone (s : Swarm 1) (label : Fin 1 × Action) (s' : Swarm 1)
    (h : step fresh s label = some s') : LeavesIdle tf s label := by
  obtain ⟨w, action⟩ := label
  cases moves_of_step h with
  | isDone d hpc _ =>
    intro _ v i _ hv
    rw [Subsingleton.elim v w, Holds, hpc] at hv
    contradiction
  | _ => trivial

/-- A worker alone that fails the only piece eight times leaves it missing, with its
attempts used up. -/
theorem attempts_used_up_of_missing_alone :
    ∃ s, (downloadLoops (fun _ => 0) 1 { initTorrentFile with numPieces := 1 }).run
        (initSwarm 1 { initTorrentFile with numPieces := 1 })
        ((List.replicate 8 (failedAttempt 0)).flatten ++ [(0, .isDone)]) = some s ∧
      ¬ s.df.Stored 0 ∧ (s.workers 0).failedAttempts = PEER_MAX_FAILS := by
  have hleft := (attempts_used_up_of_missing (fun _ => 0) 1
    { initTorrentFile with numPieces := 1 }).2
    ((List.replicate 8 (failedAttempt 0)).flatten ++ [(0, .isDone)]) _ rfl
    (Machine.meets_of_run leavesIdle_alone rfl)
  refine ⟨_, rfl, by decide, hleft.2 ?_ ⟨0, by decide, by decide⟩ 0⟩
  intro w
  fin_cases w
  exact ⟨false, rfl⟩

end BitTorrentBits.Swarm
