import BitTorrentBits.Swarm.BitfieldReads
import BitTorrentBits.Swarm.Leaving

/-!
# Pieces that are given back

A worker that finds the pool done may leave pieces to others that fail them. They are not lost:
whoever gives a piece back stays in its loop until it has stored the piece, found the pool done
in its turn, or used up its attempts.
-/

namespace BitTorrentBits.Swarm

variable {W : Nat} {fresh : Nat → UInt8} {tf : TorrentFile} {s s' : Swarm W}
  {L : Ledger Nat (Fin W)} {v w : Fin W} {action : Action} {i : Nat}

/-- The worker has failed, and has not left on a done pool. -/
def Retries (x : Worker) : Prop := 0 < x.failedAttempts ∧ x.pc ≠ .left true

/-- A piece is stored, or somebody is still to take care of it. -/
def InHand (s : Swarm W) (i : Nat) : Prop :=
  s.df.Stored i ∨ (∃ v, s.Holds v i) ∨ ∃ v, Retries (s.workers v)

/-- Once a worker has left on a done pool, every piece is in hand. -/
def NothingLost (tf : TorrentFile) (s : Swarm W) : Prop :=
  ∀ w, (s.workers w).pc = .left true → ∀ i < tf.numPieces, s.InHand i

theorem exists_markAsUndone (hn : tf.numPieces + 1 < 2 ^ 34)
    (h : (downloadLoops fresh W tf).Reachable s) (hpc : (s.workers w).pc = .markAsUndone i) :
    ∃ pool, s.pool.markAsUndone i = some pool := by
  obtain ⟨L, hL⟩ := reachable_consistent h
  have hpos : tf.numPieces ≠ 0 := by
    intro hzero
    rcases (nothingTaken_of_reachable hzero h).2 w with hw | hw <;> rw [hpc] at hw <;> cases hw
  have hi := hL.pastEnd w i (by rw [Holds, hpc]; rfl)
  have hlength := s.pool.length_eq.trans hL.numPieces
  rw [← Option.isSome_iff_exists, PiecesPool.markAsUndone, PiecesPool.unsetPiece,
    PiecesPool.update_isSome, Bitfield.hasPiece_isSome_iff _ (by omega), hlength]
  omega

theorem stored_or_held (hL : Consistent tf s L) (hd : s.pool.isDone = some true)
    (hi : i < tf.numPieces) : s.df.Stored i ∨ ∃ v, s.Holds v i := by
  rcases (hL.taken_iff_xor hi).mp ((hL.isDone_iff.mp hd).2 i hi) with ⟨⟨v, hv, -⟩, -⟩ | ⟨hstored, -⟩
  · exact Or.inr ⟨v, hv⟩
  · exact Or.inl hstored

theorem Moves.leaves (hm : Moves fresh s w action s') (hleft : (s'.workers w).pc = .left true) :
    s.pool.isDone = some true ∧ s'.df = s.df ∧ ∀ v i, s.Holds v i → s'.Holds v i := by
  cases hm with
  | isDone d hpc hd =>
    rw [goto_self] at hleft
    have hdone : d = true := by
      dsimp only [loopTest] at hleft
      split_ifs at hleft with htrue
      · exact htrue
      · cases hleft
    subst hdone
    refine ⟨hd, rfl, fun v i hv => ?_⟩
    rw [holds_goto, if_neg]
    · exact hv
    · rintro rfl
      rw [Holds, hpc] at hv
      cases hv
  | hasPiece i answer _ =>
    rw [goto_self] at hleft
    cases answer <;> cases hleft
  | downloaded _ _ _ | notDownloaded _ _ =>
    rw [goto_self] at hleft
    cases hleft
  | getPieceIndex i _ _ _ =>
    change ((s.goto w (.hasPiece i)).workers w).pc = _ at hleft
    rw [goto_self] at hleft
    cases hleft
  | addPiece _ _ _ _ =>
    change ((s.goto w .isDone).workers w).pc = _ at hleft
    rw [goto_self] at hleft
    cases hleft
  | markAsUndone _ _ _ _ =>
    change ((s.fail w).workers w).pc = _ at hleft
    rw [fail_self] at hleft
    cases hleft

theorem Moves.held_next (hm : Moves fresh s w action s') (hw : s.Holds w i) :
    s'.df.Stored i ∨ s'.Holds w i ∨
      (s.workers w).pc = .markAsUndone i ∧ Retries (s'.workers w) := by
  cases hm with
  | isDone _ hpc _ | getPieceIndex _ _ hpc _ =>
    rw [Holds, hpc] at hw
    cases hw
  | hasPiece j answer hpc =>
    rw [Holds, hpc] at hw
    refine Or.inr (Or.inl ?_)
    rw [holds_goto, if_pos rfl]
    cases answer <;> exact hw
  | downloaded p hpc _ | notDownloaded j hpc =>
    rw [Holds, hpc] at hw
    refine Or.inr (Or.inl ?_)
    rw [holds_goto, if_pos rfl]
    exact hw
  | addPiece p df hpc hadd =>
    rw [Holds, hpc] at hw
    exact Or.inl ((DownloadedFile.stored_addPiece hadd i).mpr (Or.inl (Option.some.inj hw).symm))
  | markAsUndone j pool hpc _ =>
    rw [Holds, hpc] at hw
    refine Or.inr (Or.inr ⟨hpc.trans (congrArg _ (Option.some.inj hw)), ?_⟩)
    change Retries ((s.fail w).workers w)
    rw [fail_self]
    refine ⟨Nat.succ_pos _, ?_⟩
    intro hleft
    cases hleft

theorem Moves.failedAttempts_le (hm : Moves fresh s w action s') (v : Fin W) :
    (s.workers v).failedAttempts ≤ (s'.workers v).failedAttempts := by
  by_cases hv : v = w
  · subst hv
    cases hm <;> simp [goto, fail]
  · rw [hm.workers_of_ne hv]

theorem InHand.step (h : s.InHand i) (hm : Moves fresh s w action s')
    (hin : (s'.workers w).pc ≠ .left true) : s'.InHand i := by
  rcases h with hstored | ⟨v, hv⟩ | ⟨v, hfailed, hpc⟩
  · exact Or.inl (stored_of_step (step_of_moves hm) hstored)
  · by_cases hvw : v = w
    · subst hvw
      rcases hm.held_next hv with hstored | hheld | ⟨-, hretries⟩
      · exact Or.inl hstored
      · exact Or.inr (Or.inl ⟨v, hheld⟩)
      · exact Or.inr (Or.inr ⟨v, hretries⟩)
    · refine Or.inr (Or.inl ⟨v, ?_⟩)
      rw [Holds, hm.workers_of_ne hvw]
      exact hv
  · refine Or.inr (Or.inr ⟨v, hfailed.trans_le (hm.failedAttempts_le v), ?_⟩)
    by_cases hvw : v = w
    · subst hvw
      exact hin
    · rw [hm.workers_of_ne hvw]
      exact hpc

theorem NothingLost.step (h : NothingLost tf s) (hL : Consistent tf s L)
    (hm : Moves fresh s w action s') : NothingLost tf s' := by
  intro v hv i hi
  by_cases hleft : (s'.workers w).pc = .left true
  · obtain ⟨hd, hdf, hheld⟩ := hm.leaves hleft
    rcases stored_or_held hL hd hi with hstored | ⟨u, hu⟩
    · exact Or.inl (hdf ▸ hstored)
    · exact Or.inr (Or.inl ⟨u, hheld u i hu⟩)
  · have hvw : v ≠ w := by
      rintro rfl
      exact hleft hv
    rw [hm.workers_of_ne hvw] at hv
    exact (h v hv i hi).step hm hleft

theorem reachable_nothingLost (h : (downloadLoops fresh W tf).Reachable s) : NothingLost tf s := by
  have hall := h.invariant
    (P := fun s => (∃ L, Consistent tf s L) ∧ NothingLost tf s)
    ⟨⟨_, consistent_init W tf⟩, fun w hw => by cases hw⟩
    fun s label s' ⟨⟨L, hL⟩, hs⟩ hstep => by
      obtain ⟨w, action⟩ := label
      obtain ⟨L', -, hL'⟩ := hL.step hstep
      exact ⟨⟨L', hL'⟩, hs.step hL (moves_of_step hstep)⟩
  exact hall.2

theorem reachable_attemptsFit (h : (downloadLoops fresh W tf).Reachable s) (v : Fin W) :
    AttemptsFit (s.workers v) := by
  have hall := h.invariant (P := fun s => ∀ v, AttemptsFit (s.workers v))
    (fun _ => Nat.zero_le _) fun _ _ _ hfit hs => attempts_step hfit hs
  exact hall v

theorem used_up_of_left (h : AttemptsFit (s.workers w)) (hleft : (s.workers w).pc = .left false) :
    (s.workers w).failedAttempts = PEER_MAX_FAILS := by
  cases hx : s.workers w with
  | mk pc k =>
    rw [hx] at h hleft
    cases hleft
    exact h

/-- When whoever has begun has left, and somebody has, every piece is stored or somebody has
failed as often as it may. -/
theorem stored_or_used_up (h : (downloadLoops fresh W tf).Reachable s)
    (hend : ∀ v, s.Ended v ∨ s.workers v = ⟨.isDone, 0⟩) (hw : s.Ended w) :
    (∀ i < tf.numPieces, s.df.Stored i) ∨
      ∃ v, s.Ended v ∧ (s.workers v).failedAttempts = PEER_MAX_FAILS := by
  rw [or_iff_not_imp_right]
  intro hnone i hi
  have hleft (v : Fin W) (hv : s.Ended v) : (s.workers v).pc = .left true := by
    obtain ⟨d, hd⟩ := id hv
    cases d with
    | false => exact (hnone ⟨v, hv, used_up_of_left (reachable_attemptsFit h v) hd⟩).elim
    | true => exact hd
  rcases reachable_nothingLost h w (hleft w hw) i hi with hstored | ⟨v, hv⟩ | ⟨v, hfailed, hpc⟩
  · exact hstored
  · rcases hend v with ⟨d, hd⟩ | hfresh
    · rw [Holds, hd] at hv
      cases hv
    · rw [Holds, hfresh] at hv
      cases hv
  · rcases hend v with hv | hfresh
    · exact (hpc (hleft v hv)).elim
    · rw [hfresh] at hfailed
      cases hfailed

end BitTorrentBits.Swarm
