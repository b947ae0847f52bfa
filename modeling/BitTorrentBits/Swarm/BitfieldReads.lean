import BitTorrentBits.Swarm.Indices

/-!
# Reading the peer's bitfield

The bitfield has as many bytes as the peer sent, and the index that is tested comes from the
pool. Nothing compares the two: the largest index is the value past the end, which a worker
gets when the others have taken all pieces since its test of `is_done`.
-/

namespace BitTorrentBits.Swarm

variable {W : Nat}

/-- In every run of any number of workers, a worker that is about to test its peer's bitfield,
which holds `payload`, reads one of its bytes. -/
def ReadsInside (fresh : Nat → UInt8) (tf : TorrentFile) (payload : List UInt8) : Prop :=
  ∀ (W : Nat) (bf : Fin W → Bitfield) (w : Fin W),
    Bitfield.initBitfield payload payload.length = some (bf w) →
    ∀ s, (downloadLoops fresh W tf).ReachableBy (FollowsBitfield bf) s →
      ∀ i, (s.workers w).pc = .hasPiece i → ((bf w).hasPiece i).isSome

/-- There is no piece to take, or the bitfield has the byte of the value past the end and
that byte has an index. -/
def CoversPastEnd (numPieces length : Nat) : Prop :=
  numPieces = 0 ∨ 2 ^ 34 < numPieces ∨
    (numPieces + 1 < 2 ^ 34 ∧ numPieces + 1 < 8 * length)

theorem initBitfield_all (payload : List UInt8) :
    Bitfield.initBitfield payload payload.length = some ⟨payload⟩ := by
  rw [Bitfield.initBitfield, readAt_of_le (by omega)]
  simp

variable (fresh : Nat → UInt8) {tf : TorrentFile} {n : Nat}

private structure Passed (n k : Nat) (s : Swarm (n + 1)) : Prop where
  pool : s.pool = PiecesPool.initPiecesPool n
  worker : ∀ v, (s.workers v).pc = if v.val < k then .getPieceIndex else .isDone
  failedAttempts : ∀ v, (s.workers v).failedAttempts = 0

private structure TookFirst (n k : Nat) (s : Swarm (n + 1)) : Prop where
  numPieces : s.pool.numPieces = n
  taken : ∀ i < n, s.pool.Taken i ↔ i < k
  worker : ∀ v, k ≤ v.val → (s.workers v).pc = .getPieceIndex

private theorem passed_step {s : Swarm (n + 1)} {k : Nat} (hk : k < n + 1) (hn : n ≤ 2 ^ 34)
    (hpos : 0 < n) (h : Passed n k s) :
    ∃ s', step fresh s (⟨k, hk⟩, .isDone) = some s' ∧ Passed n (k + 1) s' := by
  have hpc : (s.workers ⟨k, hk⟩).pc = .isDone := by simp [h.worker]
  have hdone : s.pool.isDone = some false := by
    have hx : (PiecesPool.initPiecesPool n).Exact := hn
    rw [h.pool, PiecesPool.isDone_eq hx]
    have hnot : ¬ ∀ i < (PiecesPool.initPiecesPool n).numPieces,
        (PiecesPool.initPiecesPool n).Taken i :=
      fun hall => PiecesPool.initPiecesPool_not_taken n 0 (hall 0 hpos)
    rw [decide_eq_false hnot]
  have htest : loopTest false (s.workers ⟨k, hk⟩).failedAttempts = .getPieceIndex := by
    rw [h.failedAttempts]
    rfl
  refine ⟨_, step_of_moves (.isDone false hpc hdone), ?_⟩
  rw [htest]
  refine ⟨h.pool, fun v => ?_, fun v => ?_⟩
  · by_cases hv : v = ⟨k, hk⟩
    · rw [hv, goto_self]
      simp
    · have hne : v.val ≠ k := fun hval => hv (Fin.ext hval)
      have hiff : v.val < k + 1 ↔ v.val < k := by omega
      simp [goto, hv, h.worker, hiff]
  · by_cases hv : v = ⟨k, hk⟩
    · rw [hv, goto_self]
      exact h.failedAttempts _
    · simp [goto, hv, h.failedAttempts]

private theorem tookFirst_step {s : Swarm (n + 1)} {k : Nat} (hk : k < n) (hn : n ≤ 2 ^ 34)
    (h : TookFirst n k s) :
    ∃ s', step fresh s (⟨k, by omega⟩, .getPieceIndex) = some s' ∧ TookFirst n (k + 1) s' := by
  have hx : s.pool.Exact := h.numPieces.trans_le hn
  obtain ⟨r, pool, hget, hcase⟩ := PiecesPool.getPieceIndex_spec hx
  rw [h.numPieces] at hcase
  rcases hcase with ⟨hr, hbefore, hfree, hset⟩ | ⟨hall, -, -⟩
  · have hle : r ≤ k := by
      by_contra hlt
      have hkk := (h.taken k hk).mp (hbefore k (by omega))
      omega
    have hge : k ≤ r := Nat.le_of_not_lt fun hlt => hfree ((h.taken r hr).mpr hlt)
    have hrk : r = k := Nat.le_antisymm hle hge
    subst hrk
    have hpc : (s.workers ⟨r, by omega⟩).pc = .getPieceIndex := h.worker _ (Nat.le_refl _)
    refine ⟨_, step_of_moves (.getPieceIndex r pool hpc hget), ?_, ?_, ?_⟩
    · exact (PiecesPool.update_bitfield hset).2.trans h.numPieces
    · intro i hi
      change pool.Taken i ↔ _
      have hread := hx.hasPiece (h.numPieces ▸ hi)
      rw [PiecesPool.taken_setPiece (by omega) (by omega) hset (by rw [hread]; rfl), h.taken i hi]
      omega
    · intro v hv
      have hne : v ≠ ⟨r, by omega⟩ := by
        intro hvr
        rw [hvr] at hv
        exact Nat.not_succ_le_self r hv
      simpa [goto, hne] using h.worker v (by omega)
  · have hkk := (h.taken k hk).mp (hall k hk)
    omega

variable (bf : Fin (n + 1) → Bitfield)

private theorem reachable_passed (htf : tf.numPieces = n) (hn : n ≤ 2 ^ 34) (hpos : 0 < n)
    {k : Nat} (hk : k ≤ n + 1) :
    ∃ s, (downloadLoops fresh (n + 1) tf).ReachableBy (FollowsBitfield bf) s ∧ Passed n k s := by
  induction k with
  | zero =>
    refine ⟨initSwarm (n + 1) tf, Machine.ReachableBy.init, ?_, fun v => ?_, fun v => rfl⟩
    · rw [← htf]
      rfl
    · simp [initSwarm]
  | succ k ih =>
    obtain ⟨s, hs, hp⟩ := ih (by omega)
    obtain ⟨s', hstep, hp'⟩ := passed_step fresh (by omega) hn hpos hp
    exact ⟨s', hs.step (a := (⟨k, by omega⟩, .isDone)) trivial hstep, hp'⟩

private theorem reachable_tookFirst (htf : tf.numPieces = n) (hn : n ≤ 2 ^ 34) (hpos : 0 < n)
    {k : Nat} (hk : k ≤ n) :
    ∃ s, (downloadLoops fresh (n + 1) tf).ReachableBy (FollowsBitfield bf) s ∧
      TookFirst n k s := by
  induction k with
  | zero =>
    obtain ⟨s, hs, hp⟩ := reachable_passed fresh bf htf hn hpos (Nat.le_refl _)
    refine ⟨s, hs, ?_, fun i _ => ?_, fun v _ => ?_⟩
    · rw [hp.pool]
      rfl
    · rw [hp.pool]
      simp [PiecesPool.initPiecesPool_not_taken]
    · simp [hp.worker, v.isLt]
  | succ k ih =>
    obtain ⟨s, hs, ht⟩ := ih (by omega)
    obtain ⟨s', hstep, ht'⟩ := tookFirst_step fresh (by omega) hn ht
    exact ⟨s', hs.step (a := (⟨k, by omega⟩, .getPieceIndex)) trivial hstep, ht'⟩

private theorem reachable_pastEnd (htf : tf.numPieces = n) (hn : n ≤ 2 ^ 34) (hpos : 0 < n) :
    ∃ s, (downloadLoops fresh (n + 1) tf).ReachableBy (FollowsBitfield bf) s ∧
      (s.workers (Fin.last n)).pc = .hasPiece (n + 1) := by
  obtain ⟨s, hs, ht⟩ :=
    reachable_tookFirst fresh bf htf hn hpos (Nat.le_refl n)
  have hx : s.pool.Exact := ht.numPieces.trans_le hn
  obtain ⟨r, pool, hget, hcase⟩ := PiecesPool.getPieceIndex_spec hx
  rw [ht.numPieces] at hcase
  have hpc := ht.worker (Fin.last n) (Nat.le_refl n)
  rcases hcase with ⟨hr, -, hfree, -⟩ | ⟨-, hr, -⟩
  · exact (hfree ((ht.taken r hr).mpr hr)).elim
  · rw [toULong_succ (by omega)] at hr
    subst hr
    refine ⟨_, hs.step (a := (Fin.last n, .getPieceIndex)) trivial
      (step_of_moves (.getPieceIndex _ pool hpc hget)), ?_⟩
    simp [goto]

variable {fresh}

/-- With no piece to take every worker leaves at the loop test. -/
def NothingTaken (s : Swarm W) : Prop :=
  s.pool.numPieces = 0 ∧ ∀ v, (s.workers v).pc = .isDone ∨ (s.workers v).pc = .left true

theorem nothingTaken_of_reachable {s : Swarm W} (htf : tf.numPieces = 0)
    (h : (downloadLoops fresh W tf).Reachable s) : NothingTaken s := by
  apply h.invariant (P := NothingTaken)
  · exact ⟨htf, fun v => Or.inl rfl⟩
  · rintro t ⟨w, action⟩ t' ⟨hzero, hpcs⟩ hs
    cases moves_of_step hs with
    | isDone d hpc hd =>
      have hx : t.pool.Exact := PiecesPool.exact_of_isDone hd
      have hall : ∀ i < t.pool.numPieces, t.pool.Taken i := by
        intro i hi
        omega
      rw [PiecesPool.isDone_eq hx, decide_eq_true hall] at hd
      cases hd
      refine ⟨hzero, fun v => ?_⟩
      by_cases hv : v = w
      · rw [hv, goto_self]
        exact Or.inr rfl
      · simpa [goto, hv] using hpcs v
    | getPieceIndex _ _ hpc _ | hasPiece _ _ hpc | downloaded _ hpc _ | notDownloaded _ hpc
    | addPiece _ _ hpc _ | markAsUndone _ _ hpc _ =>
      rcases hpcs w with hw | hw <;> rw [hpc] at hw <;> contradiction

private theorem index_of_hasPiece {s : Swarm W} (h : (downloadLoops fresh W tf).Reachable s)
    {w : Fin W} {i : Nat} (hpc : (s.workers w).pc = .hasPiece i) :
    0 < tf.numPieces ∧ tf.numPieces ≤ 2 ^ 34 ∧ i ≤ tf.numPieces + 1 := by
  obtain ⟨L, hL⟩ := reachable_consistent h
  have hx := hL.exact_of_pc (w := w) (by simp [hpc])
  have hholds : s.Holds w i := by
    rw [Holds, hpc]
    rfl
  refine ⟨Nat.pos_of_ne_zero fun hzero => ?_, hL.numPieces ▸ hx, ?_⟩
  · rcases (nothingTaken_of_reachable hzero h).2 w with hw | hw <;>
      rw [hpc] at hw <;> contradiction
  · have hcases := hL.pastEnd w i hholds
    omega

/-- The test of the peer's bitfield reads inside it, in every run, exactly when the bitfield
covers the value past the end. -/
theorem readsInside_iff_coversPastEnd (fresh : Nat → UInt8) (tf : TorrentFile)
    (payload : List UInt8) :
    ReadsInside fresh tf payload ↔ CoversPastEnd tf.numPieces payload.length := by
  constructor
  · intro h
    by_contra hnot
    unfold CoversPastEnd at hnot
    have hn : tf.numPieces ≤ 2 ^ 34 := by omega
    obtain ⟨s, hs, hpc⟩ := reachable_pastEnd fresh (fun _ => ⟨payload⟩) rfl hn
      (by omega)
    have hin := h _ _ (Fin.last _) (initBitfield_all payload) s hs _ hpc
    by_cases hsmall : tf.numPieces + 1 < 2 ^ 34
    · have hbyte := (Bitfield.hasPiece_isSome_iff _ hsmall).mp hin
      change (tf.numPieces + 1) / 8 < payload.length at hbyte
      omega
    · rw [Bitfield.hasPiece_eq_none _ (by omega) (by omega)] at hin
      contradiction
  · intro hcovers W bf w hbf s hs i hpc
    obtain ⟨hpos, hn, hi⟩ := index_of_hasPiece hs.reachable hpc
    rw [initBitfield_all] at hbf
    rcases hcovers with hzero | hlarge | ⟨hexact, hlen⟩
    · omega
    · omega
    · rw [← Option.some.inj hbf]
      apply (Bitfield.hasPiece_isSome_iff _ (by omega)).mpr
      change i / 8 < payload.length
      omega

/-- One piece and an empty `Bitfield` message: the byte of piece 0 is read from nothing. -/
theorem hasPiece_reads_outside :
    ¬ ∀ (fresh : Nat → UInt8) (tf : TorrentFile) (payload : List UInt8),
      ReadsInside fresh tf payload := by
  intro h
  have hin := h (fun _ => 0) { initTorrentFile with numPieces := 1 } [] 1 (fun _ => ⟨[]⟩) 0 rfl _
    ⟨[(0, .isDone), (0, .getPieceIndex)], rfl,
      Machine.meets_cons trivial rfl (Machine.meets_cons trivial rfl trivial)⟩ 0 rfl
  contradiction

end BitTorrentBits.Swarm
