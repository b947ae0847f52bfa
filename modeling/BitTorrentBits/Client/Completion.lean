import BitTorrentBits.Client.SetUp
import BitTorrentBits.Swarm.GivenBack
import BitTorrentBits.Swarm.Iterations

/-!
# The end of a download

Every step of a thread leads it on to its return, or its worker through the loop. So a download
ends, whatever the peers do.
-/

namespace BitTorrentBits

open PieceProgress

/-- The steps that a thread has left outside its loop, if it comes to its end. -/
def Stage.stepsLeft : Stage → Nat
  | .initConn => 6
  | .handshake _ => 5
  | .bitfield _ => 4
  | .interested _ _ => 3
  | .state _ _ => 2
  | .downloading _ _ => 1
  | .returned _ => 0

variable {fresh : Stale} {tf : TorrentFile}

theorem stepsLeft_of_setUp {network : Network} {p : TrackerResponse.Peer} {stage stage' : Stage}
    (h : setUp fresh network tf p stage = some stage') : stage'.stepsLeft < stage.stepsLeft := by
  cases moves_of_setUp h <;> simp [Stage.stepsLeft]

namespace Client

variable {W : Nat} {network : Fin W → Network} {peers : Fin W → TrackerResponse.Peer}
  {s s' : Client W} {w : Fin W}

/-- A bound on the steps that are still to come: those of the loops and those outside them. -/
def stepsLeft (s : Client W) : Nat :=
  Swarm.toCome 5 Swarm.callsLeft s.swarm + ∑ w, (s.threads w).stage.stepsLeft

theorem stepsLeft_init (tf : TorrentFile) (peers : Fin W → TrackerResponse.Peer) :
    (initClient tf peers).stepsLeft = 5 * (tf.numPieces + PEER_MAX_FAILS * W) + 7 * W := by
  have hcalls : Swarm.callsLeft ⟨.isDone, 0⟩ = 5 * PEER_MAX_FAILS + 1 := rfl
  simp only [stepsLeft, initClient, Swarm.toCome, Swarm.initSwarm, Swarm.numMissing_init, hcalls,
    Stage.stepsLeft, Finset.sum_const, Finset.card_univ, Fintype.card_fin, smul_eq_mul]
  ring

theorem sum_enter (f : Stage → Nat) (s : Client W) (w : Fin W) (stage : Stage) :
    (∑ v, f ((s.enter w stage).threads v).stage) + f (s.threads w).stage =
      (∑ v, f (s.threads v).stage) + f stage :=
  sum_update_add (fun t : ThreadData => f t.stage) s.threads w _

theorem sum_succeed (f : Stage → Nat) (s : Client W) (w : Fin W) (c : Link) :
    (∑ v, f ((s.succeed w c).threads v).stage) + f (s.threads w).stage =
      (∑ v, f (s.threads v).stage) + f (.returned (some c)) :=
  sum_update_add (fun t : ThreadData => f t.stage) s.threads w _

theorem stepsLeft_lt {L : Ledger Nat (Fin W)} (hL : Swarm.Consistent tf s.swarm L)
    (hfit : ∀ v, Swarm.AttemptsFit (s.swarm.workers v)) (hm : Moves fresh network tf s w s') :
    s'.stepsLeft < s.stepsLeft := by
  cases hm with
  | @setUp stage hsetUp =>
    have hlt := stepsLeft_of_setUp hsetUp
    have hsum := s.sum_enter Stage.stepsLeft w stage
    change Swarm.toCome 5 Swarm.callsLeft s.swarm + _ < Swarm.toCome 5 Swarm.callsLeft s.swarm + _
    omega
  | @call c c' peerBf _ swarm hstage _ hcalled =>
    have hlt := Swarm.toCome_lt_of_step hL hfit hcalled
    have hsum := s.sum_enter Stage.stepsLeft w (.downloading c' peerBf)
    have hsame : (s.threads w).stage.stepsLeft = (Stage.downloading c' peerBf).stepsLeft := by
      rw [hstage]
      rfl
    change Swarm.toCome 5 Swarm.callsLeft swarm +
      ∑ v, ((s.enter w (.downloading c' peerBf)).threads v).stage.stepsLeft <
        Swarm.toCome 5 Swarm.callsLeft s.swarm + _
    omega
  | @succeed c peerBf _ hstage _ =>
    have hsum := s.sum_succeed Stage.stepsLeft w c
    have hzero : (Stage.returned (some c)).stepsLeft = 0 := rfl
    have hone : (s.threads w).stage.stepsLeft = 1 := by
      rw [hstage]
      rfl
    change Swarm.toCome 5 Swarm.callsLeft s.swarm + _ < Swarm.toCome 5 Swarm.callsLeft s.swarm + _
    omega

theorem reachable_attemptsFit (h : (client network tf peers).Reachable s) (w : Fin W) :
    Swarm.AttemptsFit (s.swarm.workers w) :=
  Swarm.reachable_attemptsFit (reachable_swarm (fun _ => 0) h) w

theorem stepsLeft_lt_of_step (h : (client network tf peers).Reachable s)
    (hstep : step fresh network tf s w = some s') : s'.stepsLeft < s.stepsLeft := by
  obtain ⟨L, hL⟩ := exists_consistent h
  exact stepsLeft_lt hL (reachable_attemptsFit h) (moves_of_step hstep)

/-- Every run has as many steps at most, and goes on to a state in which no thread takes one. -/
theorem exists_run_to_rest {as : List (Fin W × Stale)}
    (h : (client network tf peers).run (initClient tf peers) as = some s) :
    as.length ≤ (initClient tf peers).stepsLeft ∧
    ∃ bs t, (client network tf peers).run s bs = some t ∧
      ∀ label, (client network tf peers).step t label = none :=
  Machine.exists_run_to_rest (P := (client network tf peers).Reachable) (μ := stepsLeft)
    (fun _ _ _ hs hstep => ⟨hs.step hstep, stepsLeft_lt_of_step hs hstep⟩) ⟨[], rfl⟩ h

/-- Whatever the peers send and in whatever order the threads run, all threads together take at
most five steps for each piece and for each attempt that may fail, and seven more each. Every run
goes on to an end, where each thread has returned or its next step would end the process. -/
theorem every_run_ends {as : List (Fin W × Stale)}
    (h : (client network tf peers).run (initClient tf peers) as = some s) :
    as.length ≤ 5 * (tf.numPieces + PEER_MAX_FAILS * W) + 7 * W ∧
    ∃ bs t, (client network tf peers).run s bs = some t ∧
      ∀ label, (client network tf peers).step t label = none := by
  have hend := exists_run_to_rest h
  rw [stepsLeft_init] at hend
  exact hend

theorem every_run_ends_one : ∃ s, oneByteSteps 12 = some s ∧
    (List.replicate 12 ((0, fun _ _ => 0) : Fin 1 × Stale)).length ≤
      5 * (1 + PEER_MAX_FAILS * 1) + 7 * 1 := by
  obtain ⟨s, hs⟩ : ∃ s, oneByteSteps 12 = some s := Option.isSome_iff_exists.mp (by decide +kernel)
  exact ⟨s, hs, (every_run_ends hs).1⟩

end Client

end BitTorrentBits
