import BitTorrentBits.Client.Threads
import BitTorrentBits.Swarm.GivenBack

/-!
# Downloads that end with pieces missing

A thread that never comes to its loop takes nothing with it. Once one has come through, a piece
can only be missing because a peer has failed as often as it may.
-/

namespace BitTorrentBits

namespace Client

variable {W : Nat} {fresh : Stale} {tf : TorrentFile} {network : Fin W → Network}
  {peers : Fin W → TrackerResponse.Peer} {s : Client W} {w : Fin W}

theorem left_or_fresh (h : (client network tf peers).Reachable s) (hreturned : s.Returned w) :
    if (s.threads w).ok then ∃ d, (s.swarm.workers w).pc = .left d
    else s.swarm.workers w = ⟨.isDone, 0⟩ := by
  have hstep := reachable_inStep h w
  unfold ThreadData.InStep at hstep
  unfold Returned at hreturned
  cases hstage : (s.threads w).stage with
  | returned c =>
    rw [hstage] at hstep
    exact hstep
  | _ =>
    rw [hstage] at hreturned
    cases hreturned

/-- However the peers behave and in whatever order the threads run: when all threads have
returned and one of them has come through its loop, either every piece is stored, or one of those
that came through has failed `PEER_MAX_FAILS` times. -/
theorem missing_only_after_failures (h : (client network tf peers).Reachable s)
    (hall : ∀ w, s.Returned w) (hok : ∃ w, (s.threads w).ok = true) :
    s.swarm.df.hasAllPieces = true ∨ ∃ w, (s.threads w).ok = true ∧
      (s.swarm.workers w).failedAttempts = PEER_MAX_FAILS := by
  obtain ⟨L, hL⟩ := exists_consistent h
  have hloop (v : Fin W) := left_or_fresh h (hall v)
  have hend (v : Fin W) : s.swarm.Ended v ∨ s.swarm.workers v = ⟨.isDone, 0⟩ := by
    have hv := hloop v
    split_ifs at hv
    · exact Or.inl hv
    · exact Or.inr hv
  obtain ⟨w, hw⟩ := hok
  have hleft := hloop w
  rw [if_pos hw] at hleft
  rw [hL.hasAllPieces_iff]
  refine (Swarm.stored_or_used_up (reachable_swarm (fun _ => 0) h) hend hleft).imp_right ?_
  rintro ⟨v, ⟨d, hd⟩, hfailed⟩
  refine ⟨v, ?_, hfailed⟩
  by_contra hnot
  have hv := hloop v
  rw [if_neg hnot] at hv
  rw [hv] at hfailed
  cases hfailed

def emptyNetwork : Network := fun _ _ =>
  some (⟨[19 :: ascii "BitTorrent protocol" ++ List.replicate 48 0,
    [0, 0, 0, 2, 5, 0, 0, 0, 0, 1, 1]]⟩, List.replicate 2 ⟨HANDSHAKE_LEN, true, false⟩)

theorem missing_only_after_failures_empty : ∃ s : Client 1,
    (client (fun _ => emptyNetwork) oneByteTorrent
      fun _ => ⟨6881, ⟨[127, 0, 0, 1], rfl⟩⟩).Reachable s ∧ (∀ w, s.Returned w) ∧
    s.swarm.df.hasAllPieces = false ∧ (s.swarm.workers 0).failedAttempts = PEER_MAX_FAILS := by
  have hrun : ∃ s, (client (fun _ : Fin 1 => emptyNetwork) oneByteTorrent
      fun _ => ⟨6881, ⟨[127, 0, 0, 1], rfl⟩⟩).run (initClient oneByteTorrent
        fun _ => ⟨6881, ⟨[127, 0, 0, 1], rfl⟩⟩) (List.replicate 39 (0, fun _ _ => 0)) = some s ∧
      decide ((∀ w, s.Returned w) ∧ (s.threads 0).ok = true ∧
        s.swarm.df.hasAllPieces = false) = true :=
    (Option.any_eq_true _ _).mp (by decide +kernel)
  obtain ⟨s, hs, hend⟩ := hrun
  obtain ⟨hall, hok, hmissing⟩ := of_decide_eq_true hend
  refine ⟨s, ⟨_, hs⟩, hall, hmissing, ?_⟩
  rcases missing_only_after_failures ⟨_, hs⟩ hall ⟨0, hok⟩ with hwhole | ⟨w, -, hfailed⟩
  · rw [hmissing] at hwhole
    cases hwhole
  · rwa [Subsingleton.elim w 0] at hfailed

end Client

end BitTorrentBits
