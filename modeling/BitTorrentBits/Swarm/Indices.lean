import BitTorrentBits.Swarm.Ownership

/-!
# Indices that reach the file

`get_piece_index` answers with a value past the end when no piece is free, and the loop
does not compare it with the number of pieces: only the test of the peer's bitfield stands
between it and the slots of the file. The test of `is_done` before is another critical
section, so the last piece can be taken in between.
-/

namespace BitTorrentBits.Swarm

variable {W : Nat}

/-- The index that worker `w` has passed to `init_piece_progress`, and passes on to
`add_piece`. -/
def PassesIndex (s : Swarm W) (w : Fin W) (i : Nat) : Prop :=
  (s.workers w).pc = .downloadPiece i ∨ ∃ p, (s.workers w).pc = .addPiece p ∧ p.index = i

/-- The answer to `has_piece` is the bit of the peer's bitfield. -/
def FollowsBitfield (bf : Fin W → Bitfield) (s : Swarm W) : Fin W × Action → Prop
  | (w, .hasPiece answer) =>
    ∀ i, (s.workers w).pc = .hasPiece i → (bf w).hasPiece i = some answer
  | _ => True

/-- The answer to `has_piece` is the bit of the peer's bitfield, or a bit of whatever lies behind
its bytes. -/
def FollowsMemory (bf : Fin W → Bitfield) (s : Swarm W) : Fin W × Action → Prop
  | (w, .hasPiece answer) =>
    ∀ i bit, (s.workers w).pc = .hasPiece i → (bf w).hasPiece i = some bit → answer = bit
  | _ => True

/-- An index is taken only while one is free, or by a worker whose peer's bitfield has the value
past the end, and does not set it. -/
def TakesInRange (tf : TorrentFile) (bf : Fin W → Bitfield) (s : Swarm W) :
    Fin W × Action → Prop
  | (w, .getPieceIndex) =>
    s.pool.isDone = some false ∨ (bf w).hasPiece (tf.numPieces + 1) = some false
  | _ => True

private def InRange (tf : TorrentFile) (bf : Bitfield) : Pc → Prop
  | .hasPiece i => i < tf.numPieces ∨ bf.hasPiece i = some false
  | .downloadPiece i => i < tf.numPieces
  | .addPiece p => p.index < tf.numPieces
  | _ => True

variable {fresh : Nat → UInt8} {tf : TorrentFile} {bf : Fin W → Bitfield}

private theorem inRange_goto {s : Swarm W} {w : Fin W} {pc : Pc}
    (h : ∀ v, InRange tf (bf v) (s.workers v).pc) (hpc : InRange tf (bf w) pc) (v : Fin W) :
    InRange tf (bf v) ((s.goto w pc).workers v).pc := by
  unfold goto
  by_cases hv : v = w
  · subst hv
    simpa using hpc
  · simpa [hv] using h v

private theorem inRange_step {s s' : Swarm W} {label : Fin W × Action}
    {L : Ledger Nat (Fin W)} (hL : Consistent tf s L)
    (h : ∀ v, InRange tf (bf v) (s.workers v).pc)
    (hg : FollowsMemory bf s label ∧ TakesInRange tf bf s label)
    (hs : step fresh s label = some s') : ∀ v, InRange tf (bf v) (s'.workers v).pc := by
  obtain ⟨w, action⟩ := label
  have hm := moves_of_step hs
  have hx := hL.exact_of_moves hm
  have hw := h w
  cases hm with
  | isDone d _ _ =>
    apply inRange_goto h
    rw [loopTest]
    split_ifs <;> trivial
  | getPieceIndex i pool _ hget =>
    apply inRange_goto h
    obtain ⟨r, pool', hget', hcase⟩ := PiecesPool.getPieceIndex_spec hx
    rw [hget] at hget'
    cases hget'
    rw [hL.numPieces] at hcase
    rcases hcase with ⟨hi, -⟩ | ⟨hall, hr, -⟩
    · exact Or.inl hi
    · have hbound : tf.numPieces ≤ 2 ^ 34 := hL.numPieces ▸ hx
      have hi : i = tf.numPieces + 1 := hr.trans (toULong_succ (by omega))
      rcases hg.2 with hfree | hbit
      · rw [hL.isDone_iff.mpr ⟨hx, hall⟩] at hfree
        contradiction
      · rw [hi]
        exact Or.inr hbit
  | hasPiece i answer hpc =>
    apply inRange_goto h
    rw [hpc] at hw
    cases answer with
    | false => trivial
    | true =>
      rcases hw with hi | hbit
      · exact hi
      · cases hg.1 i false hpc hbit
  | downloaded p hpc _ =>
    apply inRange_goto h
    rw [hpc] at hw
    exact hw
  | notDownloaded i hpc =>
    apply inRange_goto h
    trivial
  | addPiece p df _ _ =>
    apply inRange_goto h
    trivial
  | markAsUndone i pool _ _ =>
    intro v
    change InRange tf (bf v) ((s.fail w).workers v).pc
    unfold fail
    by_cases hv : v = w
    · subst hv
      simp [InRange]
    · simpa [hv] using h v

private theorem inRange_run {as : List (Fin W × Action)} {s : Swarm W}
    (h : (downloadLoops fresh W tf).run (initSwarm W tf) as = some s)
    (hm : (downloadLoops fresh W tf).Meets
      (fun s label => FollowsMemory bf s label ∧ TakesInRange tf bf s label)
      (initSwarm W tf) as) :
    ∀ v, InRange tf (bf v) (s.workers v).pc := by
  have hinv := Machine.run_invariant_of_meets
    (P := fun s => (∃ L, Consistent tf s L) ∧ ∀ v, InRange tf (bf v) (s.workers v).pc)
    ?_ ?_ hm h
  · exact hinv.2
  · rintro t ⟨w, action⟩ t' ⟨⟨L, hL⟩, hin⟩ hg hs
    obtain ⟨L', -, hL'⟩ := hL.step hs
    exact ⟨⟨L', hL'⟩, inRange_step hL hin hg hs⟩
  · refine ⟨⟨_, consistent_init W tf⟩, ?_⟩
    intro v
    trivial

private theorem takes_pastEnd {s : Swarm W} {L : Ledger Nat (Fin W)} (hL : Consistent tf s L)
    {w : Fin W} (hpc : (s.workers w).pc = .getPieceIndex)
    (hnot : ¬ TakesInRange tf bf s (w, .getPieceIndex)) :
    ∃ s₁ s₂, step fresh s (w, .getPieceIndex) = some s₁ ∧
      step fresh s₁ (w, .hasPiece true) = some s₂ ∧
      FollowsMemory bf s₁ (w, .hasPiece true) ∧ s₂.PassesIndex w (tf.numPieces + 1) := by
  have hx := hL.exact_of_pc (w := w) (by simp [hpc])
  simp only [TakesInRange, not_or] at hnot
  obtain ⟨hfull, hbit⟩ := hnot
  have hall : ∀ i < s.pool.numPieces, s.pool.Taken i := by
    rw [PiecesPool.isDone_eq hx] at hfull
    simpa using hfull
  have hbound : tf.numPieces ≤ 2 ^ 34 := hL.numPieces ▸ hx
  obtain ⟨r, pool, hget, hcase⟩ := PiecesPool.getPieceIndex_spec hx
  rcases hcase with ⟨hr, -, hfree, -⟩ | ⟨-, hr, -⟩
  · exact (hfree (hall r hr)).elim
  · rw [hL.numPieces, toULong_succ (by omega)] at hr
    subst hr
    have hat : (({ s.goto w (.hasPiece (tf.numPieces + 1)) with pool := pool }
        : Swarm W).workers w).pc = .hasPiece (tf.numPieces + 1) := by
      simp [goto]
    refine ⟨_, _, step_of_moves (.getPieceIndex _ pool hpc hget),
      step_of_moves (.hasPiece _ true hat), ?_, ?_⟩
    · intro i bit hi hread
      rw [hat] at hi
      cases hi
      cases bit with
      | true => rfl
      | false => exact (hbit hread).elim
    · left
      simp [goto]

/-- In a run in which every index is taken in range, every index passed to
`init_piece_progress` and `add_piece` is below `num_pieces`, whatever is read behind a short
bitfield; and wherever a worker can take one out of range, it can go on to start the piece past
the end. -/
theorem passed_index_lt_numPieces (fresh : Nat → UInt8) (tf : TorrentFile)
    (bf : Fin W → Bitfield) :
    (∀ as s, (downloadLoops fresh W tf).run (initSwarm W tf) as = some s →
      (downloadLoops fresh W tf).Meets
        (fun s label => FollowsMemory bf s label ∧ TakesInRange tf bf s label)
        (initSwarm W tf) as →
      ∀ w i, s.PassesIndex w i → i < tf.numPieces) ∧
    (∀ s w, (downloadLoops fresh W tf).Reachable s → (s.workers w).pc = .getPieceIndex →
      ¬ TakesInRange tf bf s (w, .getPieceIndex) →
      ∃ s₁ s₂, step fresh s (w, .getPieceIndex) = some s₁ ∧
        step fresh s₁ (w, .hasPiece true) = some s₂ ∧
        FollowsMemory bf s₁ (w, .hasPiece true) ∧ s₂.PassesIndex w (tf.numPieces + 1)) := by
  constructor
  · intro as s h hm w i hpass
    have hin := inRange_run h hm w
    rcases hpass with hpc | ⟨p, hpc, rfl⟩
    · rw [hpc] at hin
      exact hin
    · rw [hpc] at hin
      exact hin
  · intro s w h hpc hnot
    obtain ⟨L, hL⟩ := reachable_consistent h
    exact takes_pastEnd hL hpc hnot

/-- One piece and two workers whose peers show the spare bits. Both pass the loop test,
the first takes the piece, and the second one downloads the piece past the end. -/
theorem passed_index_pastEnd :
    ¬ ∀ (fresh : Nat → UInt8) (W : Nat) (tf : TorrentFile) (bf : Fin W → Bitfield)
      (as : List (Fin W × Action)) (s : Swarm W),
      (downloadLoops fresh W tf).run (initSwarm W tf) as = some s →
      (downloadLoops fresh W tf).Meets (FollowsMemory bf) (initSwarm W tf) as →
      ∀ w i, s.PassesIndex w i → i < tf.numPieces := by
  intro h
  have hin := h (fun _ => 0) 2 { initTorrentFile with numPieces := 1, pieceLength := 1 }
    (fun _ => ⟨[0xE0]⟩)
    [(0, .isDone), (1, .isDone), (0, .getPieceIndex), (1, .getPieceIndex), (1, .hasPiece true),
      (1, .downloadPiece (some ⟨2, [0], 1⟩))] _ rfl ?_ 1 2 (Or.inr ⟨_, rfl, rfl⟩)
  · contradiction
  · refine Machine.meets_cons trivial rfl (Machine.meets_cons trivial rfl
      (Machine.meets_cons trivial rfl (Machine.meets_cons trivial rfl
        (Machine.meets_cons ?_ rfl (Machine.meets_cons trivial rfl trivial)))))
    intro i bit hi hread
    have h2 : i = 2 := (Pc.hasPiece.inj hi).symm
    subst h2
    cases hread
    rfl

/-- A worker that finds the only piece free starts it, in range. -/
theorem passed_index_lt_numPieces_first :
    ∃ s, (downloadLoops (fun _ => 0) 1 { initTorrentFile with numPieces := 1 }).run
        (initSwarm 1 { initTorrentFile with numPieces := 1 })
        [(0, .isDone), (0, .getPieceIndex), (0, .hasPiece true)] = some s ∧
      s.PassesIndex 0 0 ∧ 0 < 1 := by
  refine ⟨_, rfl, Or.inl rfl, ?_⟩
  have hrange := (passed_index_lt_numPieces (fun _ => 0)
    { initTorrentFile with numPieces := 1 } (fun _ : Fin 1 => ⟨[0xE0]⟩)).1
    [(0, .isDone), (0, .getPieceIndex), (0, .hasPiece true)] _ rfl
  refine hrange ?_ 0 0 (Or.inl rfl)
  refine Machine.meets_cons ⟨trivial, trivial⟩ rfl (Machine.meets_cons ⟨trivial, Or.inl rfl⟩ rfl
    (Machine.meets_cons ⟨?_, trivial⟩ rfl trivial))
  intro i bit hi hread
  have h0 : i = 0 := (Pc.hasPiece.inj hi).symm
  subst h0
  cases hread
  rfl

end BitTorrentBits.Swarm
