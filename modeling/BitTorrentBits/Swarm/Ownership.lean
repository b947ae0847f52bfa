import BitTorrentBits.Foundation.Ledger
import BitTorrentBits.Swarm.Workers

/-!
# Who has each piece

The pool, the file and the workers' local indices together carry one ledger: a piece is
free, held by one worker, or stored. A set bit of the pool means that the piece is not
free, whichever of the other two it is. Every step of every worker leaves the ledger
alone or makes one transfer of it, so the reading survives all interleavings.
-/

namespace BitTorrentBits.Swarm

variable {W : Nat}

/-- The state carries the ledger `L`. An index that no piece has is the value past the
end. A pool too large for `int` byte indices is one no worker has got anything from. -/
structure Consistent (tf : TorrentFile) (s : Swarm W) (L : Ledger Nat (Fin W)) : Prop where
  numPieces : s.pool.numPieces = tf.numPieces
  torrent : s.df.tf = tf
  taken : ∀ i < tf.numPieces, s.pool.Taken i ↔ L i ≠ .free
  stored : ∀ i < tf.numPieces, s.df.Stored i ↔ L i = .settled
  holds : ∀ i < tf.numPieces, ∀ w, s.Holds w i ↔ L i = .held w
  pastEnd : ∀ w i, s.Holds w i → i < tf.numPieces ∨ i = tf.numPieces + 1
  exact : s.pool.Exact ∨ s = initSwarm W tf

theorem holds_goto (s : Swarm W) (w v : Fin W) (pc : Pc) (i : Nat) :
    (s.goto w pc).Holds v i ↔ if v = w then pc.held = some i else s.Holds v i := by
  unfold Holds goto
  by_cases hv : v = w
  · subst hv
    simp
  · simp [hv]

theorem holds_fail (s : Swarm W) (w v : Fin W) (i : Nat) :
    (s.fail w).Holds v i ↔ v ≠ w ∧ s.Holds v i := by
  unfold Holds fail
  by_cases hv : v = w
  · subst hv
    simp [Pc.held]
  · simp [hv]

theorem consistent_init (W : Nat) (tf : TorrentFile) :
    Consistent tf (initSwarm W tf) fun _ => .free := by
  refine ⟨rfl, rfl, ?_, ?_, ?_, ?_, Or.inr rfl⟩
  · intro i _
    simp [initSwarm, PiecesPool.initPiecesPool_not_taken]
  · intro i _
    simp [initSwarm, DownloadedFile.not_stored_init]
  · intro i _ w
    simp [Holds, initSwarm, Pc.held]
  · intro w i h
    simp [Holds, initSwarm, Pc.held] at h

namespace Consistent

variable {fresh : Nat → UInt8} {tf : TorrentFile} {s s' : Swarm W} {L : Ledger Nat (Fin W)}
  {w : Fin W} {action : Action}

theorem exact_of_moves (h : Consistent tf s L) (hm : Moves fresh s w action s') :
    s.pool.Exact := by
  rcases h.exact with hx | hinit
  · exact hx
  · have hpc : (s.workers w).pc = .isDone := by rw [hinit]; rfl
    cases hm with
    | isDone d _ hd => exact PiecesPool.exact_of_isDone hd
    | getPieceIndex _ _ hpc' _ | hasPiece _ _ hpc' | downloaded _ hpc' _
    | notDownloaded _ hpc' | addPiece _ _ hpc' _ | markAsUndone _ _ hpc' _ =>
      rw [hpc] at hpc'
      contradiction

theorem exact_of_pc (h : Consistent tf s L) (hpc : (s.workers w).pc ≠ .isDone) :
    s.pool.Exact := by
  rcases h.exact with hx | hinit
  · exact hx
  · rw [hinit] at hpc
    exact (hpc rfl).elim

private theorem local_step (h : Consistent tf s L) (hx : s.pool.Exact) {pc : Pc}
    (hpc : pc.held = (s.workers w).pc.held) : Consistent tf (s.goto w pc) L := by
  have hsame (v : Fin W) (i : Nat) : (s.goto w pc).Holds v i ↔ s.Holds v i := by
    rw [holds_goto]
    split
    · rename_i hv
      rw [hv, hpc]
      rfl
    · rfl
  refine ⟨h.numPieces, h.torrent, h.taken, h.stored, ?_, ?_, Or.inl hx⟩
  · intro i hi v
    rw [hsame, h.holds i hi v]
  · intro v i hv
    exact h.pastEnd v i ((hsame v i).mp hv)

private theorem index_lt (hx : s.pool.Exact) (h : Consistent tf s L) {i : Nat}
    (hi : i < tf.numPieces) : i < 2 ^ 34 := by
  unfold PiecesPool.Exact at hx
  rw [h.numPieces] at hx
  omega

private theorem take_step (h : Consistent tf s L) (hx : s.pool.Exact) {i : Nat}
    {pool : PiecesPool} (hfree : (s.workers w).pc.held = none) (hi : i < tf.numPieces)
    (hnot : ¬ s.pool.Taken i) (hset : s.pool.setPiece i = some pool) :
    Consistent tf { s.goto w (.hasPiece i) with pool := pool }
      (Function.update L i (.held w)) := by
  have hLi : L i = .free := by
    by_contra hne
    exact hnot ((h.taken i hi).mpr hne)
  have hnum := (PiecesPool.update_bitfield hset).2
  refine ⟨hnum.trans h.numPieces, h.torrent, ?_, ?_, ?_, ?_, Or.inl (hx.update hset)⟩
  · intro j hj
    have hread := hx.hasPiece (h.numPieces ▸ hj)
    rw [PiecesPool.taken_setPiece (index_lt hx h hi) (index_lt hx h hj) hset (by rw [hread]; rfl)]
    by_cases hij : j = i
    · subst hij
      simp
    · simp [hij, h.taken j hj]
  · intro j hj
    change s.df.Stored j ↔ _
    rw [h.stored j hj]
    by_cases hij : j = i
    · subst hij
      simp [hLi]
    · simp [hij]
  · intro j hj v
    change (s.goto w (.hasPiece i)).Holds v j ↔ _
    rw [holds_goto]
    by_cases hij : j = i
    · subst hij
      by_cases hv : v = w
      · simp [hv, Pc.held]
      · simp [hv, Ne.symm hv, h.holds j hj v, hLi]
    · have hown := h.holds j hj v
      by_cases hv : v = w
      · subst hv
        simp [Holds, hfree] at hown
        simp [Pc.held, hij, Ne.symm hij, hown]
      · simp [hv, hij, hown]
  · intro v j hv
    change (s.goto w (.hasPiece i)).Holds v j at hv
    rw [holds_goto] at hv
    split at hv
    · have hji : i = j := by simpa [Pc.held] using hv
      exact Or.inl (hji ▸ hi)
    · exact h.pastEnd v j hv

private theorem take_pastEnd_step (h : Consistent tf s L) (hx : s.pool.Exact)
    (hfree : (s.workers w).pc.held = none) :
    Consistent tf (s.goto w (.hasPiece (tf.numPieces + 1))) L := by
  refine ⟨h.numPieces, h.torrent, h.taken, h.stored, ?_, ?_, Or.inl hx⟩
  · intro j hj v
    rw [holds_goto]
    by_cases hv : v = w
    · subst hv
      have hown := h.holds j hj v
      have hne : tf.numPieces + 1 ≠ j := by omega
      simp only [Holds, hfree, reduceCtorEq, false_iff] at hown
      simp [Pc.held, hne, hown]
    · simp [hv, h.holds j hj v]
  · intro v j hv
    rw [holds_goto] at hv
    split at hv
    · exact Or.inr (Option.some.inj hv).symm
    · exact h.pastEnd v j hv

private theorem settle_step (h : Consistent tf s L) (hx : s.pool.Exact) {p : PieceProgress}
    {df : DownloadedFile} (hpc : (s.workers w).pc = .addPiece p)
    (hadd : s.df.addPiece fresh p = some (true, df)) :
    L p.index = .held w ∧
      Consistent tf { s.goto w .isDone with df := df } (Function.update L p.index .settled) := by
  obtain ⟨-, hi, -, htf, -⟩ := DownloadedFile.addPiece_eq_some hadd
  rw [h.torrent] at hi
  have hw : s.Holds w p.index := by
    rw [Holds, hpc]
    rfl
  have hL : L p.index = .held w := (h.holds _ hi w).mp hw
  refine ⟨hL, h.numPieces, htf.trans h.torrent, ?_, ?_, ?_, ?_, Or.inl hx⟩
  · intro j hj
    change s.pool.Taken j ↔ _
    rw [h.taken j hj]
    by_cases hij : j = p.index
    · rw [hij, hL]
      simp
    · simp [hij]
  · intro j hj
    change df.Stored j ↔ _
    rw [DownloadedFile.stored_addPiece hadd]
    by_cases hij : j = p.index
    · simp [hij]
    · simp [hij, h.stored j hj]
  · intro j hj v
    change (s.goto w .isDone).Holds v j ↔ _
    rw [holds_goto]
    have hown := h.holds j hj v
    by_cases hij : j = p.index
    · rw [hij, hL] at hown
      by_cases hv : v = w
      · simp [hv, hij, Pc.held]
      · simp [hv, hij, hown, Ne.symm hv]
    · by_cases hv : v = w
      · subst hv
        rw [Holds, hpc] at hown
        simp [Pc.held, Ne.symm hij] at hown
        simp [Pc.held, hij, hown]
      · simp [hv, hij, hown]
  · intro v j hv
    change (s.goto w .isDone).Holds v j at hv
    rw [holds_goto] at hv
    split at hv
    · simp [Pc.held] at hv
    · exact h.pastEnd v j hv

private theorem giveBack_step (h : Consistent tf s L) (hx : s.pool.Exact) {i : Nat}
    {pool : PiecesPool} (hpc : (s.workers w).pc = .markAsUndone i)
    (hmark : s.pool.markAsUndone i = some pool) (hi : i < tf.numPieces) :
    L i = .held w ∧ Consistent tf { s.fail w with pool := pool } (Function.update L i .free) := by
  have hw : s.Holds w i := by
    rw [Holds, hpc]
    rfl
  have hL : L i = .held w := (h.holds i hi w).mp hw
  have hnum := (PiecesPool.update_bitfield hmark).2
  refine ⟨hL, hnum.trans h.numPieces, h.torrent, ?_, ?_, ?_, ?_, Or.inl (hx.update hmark)⟩
  · intro j hj
    change pool.Taken j ↔ _
    rw [PiecesPool.taken_unsetPiece (index_lt hx h hi) (index_lt hx h hj) hmark, h.taken j hj]
    by_cases hij : j = i
    · simp [hij]
    · simp [hij]
  · intro j hj
    change s.df.Stored j ↔ _
    rw [h.stored j hj]
    by_cases hij : j = i
    · simp [hij, hL]
    · simp [hij]
  · intro j hj v
    change (s.fail w).Holds v j ↔ _
    rw [holds_fail, h.holds j hj v]
    by_cases hij : j = i
    · simp [hij, hL, eq_comm]
    · have hne : L j ≠ .held w := by
        intro hLj
        have hwj := (h.holds j hj w).mpr hLj
        rw [Holds, hpc] at hwj
        exact hij (Option.some.inj hwj).symm
      by_cases hv : v = w
      · simp [hv, hij, hne]
      · simp [hv, hij]
  · intro v j hv
    exact h.pastEnd v j ((holds_fail s w v j).mp hv).2

private theorem giveBack_pastEnd_step (h : Consistent tf s L) (hx : s.pool.Exact)
    {pool : PiecesPool} (hpc : (s.workers w).pc = .markAsUndone (tf.numPieces + 1))
    (hmark : s.pool.markAsUndone (tf.numPieces + 1) = some pool) :
    Consistent tf { s.fail w with pool := pool } L := by
  obtain ⟨hbit, hnum⟩ := PiecesPool.update_bitfield hmark
  have hbound : tf.numPieces ≤ 2 ^ 34 := h.numPieces ▸ hx
  have hpast := Bitfield.index_lt_of_updateByte hbit (by omega)
  refine ⟨hnum.trans h.numPieces, h.torrent, ?_, h.stored, ?_, ?_, Or.inl (hx.update hmark)⟩
  · intro j hj
    change pool.Taken j ↔ _
    rw [PiecesPool.taken_unsetPiece hpast (index_lt hx h hj) hmark, h.taken j hj]
    have hne : j ≠ tf.numPieces + 1 := by omega
    simp [hne]
  · intro j hj v
    change (s.fail w).Holds v j ↔ _
    rw [holds_fail, h.holds j hj v]
    have hne : L j ≠ .held w := by
      intro hLj
      have hwj := (h.holds j hj w).mpr hLj
      rw [Holds, hpc] at hwj
      have hji : tf.numPieces + 1 = j := Option.some.inj hwj
      omega
    by_cases hv : v = w
    · simp [hv, hne]
    · simp [hv]
  · intro v j hv
    exact h.pastEnd v j ((holds_fail s w v j).mp hv).2

theorem step (h : Consistent tf s L) (hs : Swarm.step fresh s (w, action) = some s') :
    ∃ L', (L' = L ∨ L.Transfer L') ∧ Consistent tf s' L' := by
  have hm := moves_of_step hs
  have hx := h.exact_of_moves hm
  cases hm with
  | isDone d hpc _ =>
    refine ⟨L, Or.inl rfl, h.local_step hx ?_⟩
    rw [hpc, loopTest]
    split_ifs <;> rfl
  | hasPiece i answer hpc =>
    refine ⟨L, Or.inl rfl, h.local_step hx ?_⟩
    rw [hpc]
    cases answer <;> rfl
  | downloaded p hpc _ =>
    refine ⟨L, Or.inl rfl, h.local_step hx ?_⟩
    rw [hpc]
    rfl
  | notDownloaded i hpc =>
    refine ⟨L, Or.inl rfl, h.local_step hx ?_⟩
    rw [hpc]
    rfl
  | getPieceIndex i pool hpc hget =>
    have hfree : (s.workers w).pc.held = none := by
      rw [hpc]
      rfl
    obtain ⟨r, pool', hget', hcase⟩ := PiecesPool.getPieceIndex_spec hx
    rw [hget] at hget'
    cases hget'
    rw [h.numPieces] at hcase
    rcases hcase with ⟨hi, -, hnot, hset⟩ | ⟨-, hr, rfl⟩
    · have hLi : L i = .free := by
        by_contra hne
        exact hnot ((h.taken i hi).mpr hne)
      exact ⟨_, Or.inr (.take i w hLi), h.take_step hx hfree hi hnot hset⟩
    · have hbound : tf.numPieces ≤ 2 ^ 34 := h.numPieces ▸ hx
      have hi : i = tf.numPieces + 1 := hr.trans (toULong_succ (by omega))
      subst hi
      exact ⟨L, Or.inl rfl, h.take_pastEnd_step hx hfree⟩
  | addPiece p df hpc hadd =>
    obtain ⟨hL, hc⟩ := h.settle_step hx hpc hadd
    exact ⟨_, Or.inr (.settle _ w hL), hc⟩
  | markAsUndone i pool hpc hmark =>
    have hw : s.Holds w i := by
      rw [Holds, hpc]
      rfl
    rcases h.pastEnd w i hw with hi | rfl
    · obtain ⟨hL, hc⟩ := h.giveBack_step hx hpc hmark hi
      exact ⟨_, Or.inr (.giveBack i w hL), hc⟩
    · exact ⟨L, Or.inl rfl, h.giveBack_pastEnd_step hx hpc hmark⟩

end Consistent

variable {fresh : Nat → UInt8} {tf : TorrentFile} {s : Swarm W}

theorem reachable_consistent (h : (downloadLoops fresh W tf).Reachable s) :
    ∃ L, Consistent tf s L := by
  apply h.invariant (P := fun s => ∃ L, Consistent tf s L)
  · exact ⟨_, consistent_init W tf⟩
  · rintro t ⟨w, action⟩ t' ⟨L, hL⟩ hs
    obtain ⟨L', -, hL'⟩ := hL.step hs
    exact ⟨L', hL'⟩

namespace Consistent

variable {L : Ledger Nat (Fin W)}

theorem taken_iff_xor (h : Consistent tf s L) {i : Nat} (hi : i < tf.numPieces) :
    s.pool.Taken i ↔ Xor (∃! w, s.Holds w i) (s.df.Stored i) := by
  have hholds := h.holds i hi
  rw [h.taken i hi, h.stored i hi]
  cases hL : L i with
  | free => simp [hholds, hL, Xor]
  | settled => simp [hholds, hL, Xor]
  | held w => simp [hholds, hL, Xor]

theorem holder_unique (h : Consistent tf s L) {i : Nat} (hi : i < tf.numPieces) {v w : Fin W}
    (hv : s.Holds v i) (hw : s.Holds w i) : v = w := by
  rw [h.holds i hi] at hv hw
  rw [hv] at hw
  exact Owner.held.inj hw

theorem lt_of_stored (h : Consistent tf s L) {i : Nat} (hi : s.df.Stored i) :
    i < tf.numPieces := by
  obtain ⟨buf, hbuf⟩ := hi
  have hlt := (List.getElem?_eq_some_iff.mp hbuf).1
  rwa [s.df.length_eq, h.torrent] at hlt

theorem not_stored_of_holds (h : Consistent tf s L) {w : Fin W} {i : Nat} (hw : s.Holds w i) :
    ¬ s.df.Stored i := by
  intro hst
  have hi := h.lt_of_stored hst
  have hheld := (h.holds i hi w).mp hw
  rw [(h.stored i hi).mp hst] at hheld
  contradiction

theorem taken_iff_stored (h : Consistent tf s L) {i : Nat} (hi : i < tf.numPieces)
    (hnone : ∀ w, ¬ s.Holds w i) : s.pool.Taken i ↔ s.df.Stored i := by
  rw [h.taken i hi, h.stored i hi]
  cases hL : L i with
  | free => simp
  | settled => simp
  | held w => exact (hnone w ((h.holds i hi w).mpr hL)).elim

theorem isDone_iff (h : Consistent tf s L) :
    s.pool.isDone = some true ↔ s.pool.Exact ∧ ∀ i < tf.numPieces, s.pool.Taken i := by
  constructor
  · intro hd
    have hx := PiecesPool.exact_of_isDone hd
    rw [PiecesPool.isDone_eq hx, h.numPieces] at hd
    exact ⟨hx, of_decide_eq_true (Option.some.inj hd)⟩
  · rintro ⟨hx, hall⟩
    rw [PiecesPool.isDone_eq hx, h.numPieces, decide_eq_true hall]

theorem hasAllPieces_iff (h : Consistent tf s L) :
    s.df.hasAllPieces = true ↔ ∀ i < tf.numPieces, s.df.Stored i := by
  rw [DownloadedFile.hasAllPieces_iff, h.torrent]

/-- Once nobody holds a piece, the pool is done exactly when the file is whole. -/
theorem isDone_iff_hasAllPieces (h : Consistent tf s L) (hnone : ∀ w i, ¬ s.Holds w i) :
    s.pool.isDone = some true ↔ s.df.hasAllPieces = true := by
  rw [h.isDone_iff, h.hasAllPieces_iff]
  constructor
  · rintro ⟨-, hall⟩ i hi
    exact (h.taken_iff_stored hi fun w => hnone w i).mp (hall i hi)
  · intro hall
    refine ⟨?_, fun i hi => (h.taken_iff_stored hi fun w => hnone w i).mpr (hall i hi)⟩
    rcases h.exact with hx | hinit
    · exact hx
    · subst hinit
      have hzero : ¬ 0 < tf.numPieces := by
        intro hpos
        exact DownloadedFile.not_stored_init tf 0 (hall 0 hpos)
      unfold PiecesPool.Exact
      rw [h.numPieces]
      omega

theorem getNumUndonePieces_eq (h : Consistent tf s L) (hnone : ∀ w i, ¬ s.Holds w i)
    (hx : s.pool.Exact) : s.pool.getNumUndonePieces = some s.df.numMissing := by
  rw [PiecesPool.getNumUndonePieces_eq hx, DownloadedFile.numMissing, h.numPieces, h.torrent]
  congr 1
  apply List.countP_congr
  intro i hi
  have hlt := List.mem_range.mp hi
  simp [h.taken_iff_stored hlt fun w => hnone w i]

end Consistent

theorem not_holds_of_ended (h : ∀ w, s.Ended w) (w : Fin W) (i : Nat) : ¬ s.Holds w i := by
  obtain ⟨d, hd⟩ := h w
  rw [Holds, hd]
  simp [Pc.held]

/-- In every reachable state a bit of the pool is set exactly when either one worker holds
that piece or the piece is stored. So two workers never share a piece, and a stored piece
is neither handed out nor added again; once all workers have ended, pool and file agree on
what is missing. The counters answer for every pool with exact byte indices. -/
theorem pool_bit_iff_held_xor_stored (h : (downloadLoops fresh W tf).Reachable s) :
    (∀ i < tf.numPieces, s.pool.Taken i ↔ Xor (∃! w, s.Holds w i) (s.df.Stored i)) ∧
    (∀ i < tf.numPieces, ∀ v w, s.Holds v i → s.Holds w i → v = w) ∧
    (∀ w s' i, step fresh s (w, .getPieceIndex) = some s' → s'.Holds w i → ¬ s.df.Stored i) ∧
    (∀ w s' p, step fresh s (w, .addPiece) = some s' → (s.workers w).pc = .addPiece p →
      ¬ s.df.Stored p.index) ∧
    ((∀ w, s.Ended w) →
      (s.pool.isDone = some true ↔ s.df.hasAllPieces = true) ∧
      (tf.numPieces ≤ 2 ^ 34 → s.pool.getNumUndonePieces = some s.df.numMissing) ∧
      ∀ k, s.pool.getNumUndonePieces = some k → k = s.df.numMissing) := by
  obtain ⟨L, hL⟩ := reachable_consistent h
  refine ⟨fun i hi => hL.taken_iff_xor hi, fun i hi v w => hL.holder_unique hi, ?_, ?_, ?_⟩
  · intro w s' i hs hw
    obtain ⟨L', -, hL'⟩ := hL.step hs
    have hdf : s'.df = s.df := by
      cases moves_of_step hs
      rfl
    rw [← hdf]
    exact hL'.not_stored_of_holds hw
  · intro w s' p _ hpc
    apply hL.not_stored_of_holds (w := w)
    rw [Holds, hpc]
    rfl
  · intro hend
    have hnone := not_holds_of_ended hend
    refine ⟨hL.isDone_iff_hasAllPieces hnone, ?_, ?_⟩
    · intro hn
      exact hL.getNumUndonePieces_eq hnone (hL.numPieces.trans_le hn)
    · intro k hk
      have hx := PiecesPool.exact_of_getNumUndonePieces hk
      rw [hL.getNumUndonePieces_eq hnone hx] at hk
      exact (Option.some.inj hk).symm

theorem pool_bit_iff_held_xor_stored_taken :
    ∃ s, (downloadLoops (fun _ => 0) 2 { initTorrentFile with numPieces := 1 }).run
        (initSwarm 2 { initTorrentFile with numPieces := 1 })
        [(0, .isDone), (0, .getPieceIndex)] = some s ∧
      Xor (∃! w, s.Holds w 0) (s.df.Stored 0) := by
  refine ⟨_, rfl, ?_⟩
  have hrun : (downloadLoops (fun _ => 0) 2 { initTorrentFile with numPieces := 1 }).Reachable _ :=
    ⟨[(0, .isDone), (0, .getPieceIndex)], rfl⟩
  exact ((pool_bit_iff_held_xor_stored hrun).1 0 (by decide)).mp (by decide)

end BitTorrentBits.Swarm
