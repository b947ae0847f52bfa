import BitTorrentBits.Swarm.Indices
import BitTorrentBits.Swarm.Iterations

/-!
# A worker alone

A piece that is given back is the least free one again, so the next iteration takes it once
more. A worker whose peer lacks that piece spends all its attempts on it, and what the peer
has behind it is not asked for.
-/

namespace BitTorrentBits.Swarm

/-- One worker before its first loop test, over a file of which some pieces are stored and no
others are taken, with a peer whose bitfield has a bit for every piece. -/
structure Alone (tf : TorrentFile) (bf : Bitfield) (s : Swarm 1) : Prop where
  numPieces : s.pool.numPieces = tf.numPieces
  torrent : s.df.tf = tf
  taken : ∀ i < tf.numPieces, s.pool.Taken i ↔ s.df.Stored i
  worker : s.workers 0 = ⟨.isDone, 0⟩
  covers : tf.numPieces ≤ 8 * bf.length

/-- The peer shows its bitfield, and `download_piece` returns true for what it has. -/
def ServedBy (bf : Bitfield) (s : Swarm 1) (label : Fin 1 × Action) : Prop :=
  FollowsBitfield (fun _ => bf) s label ∧ label ≠ (0, .downloadPiece none)

def GotAll (tf : TorrentFile) (bf : Bitfield) (s : Swarm 1) : Prop :=
  ∀ i < tf.numPieces, bf.hasPiece i = some true → s.df.Stored i

/-- When the worker has left, every piece the peer has is stored. When a piece the peer
lacks is offered again, no later piece that the peer has is undone. -/
def GetsWhatPeerHas (fresh : Nat → UInt8) (tf : TorrentFile) (bf : Bitfield) (s₀ : Swarm 1) :
    Prop :=
  (∀ as s, (downloadLoops fresh 1 tf).run s₀ as = some s →
    (downloadLoops fresh 1 tf).Meets (ServedBy bf) s₀ as → s.Ended 0 → GotAll tf bf s) ∧
  (∀ as bs s t i, (downloadLoops fresh 1 tf).run s₀ as = some s → bs ≠ [] →
    (downloadLoops fresh 1 tf).run s bs = some t →
    (downloadLoops fresh 1 tf).Meets (ServedBy bf) s₀ (as ++ bs) →
    (s.workers 0).pc = .hasPiece i → (t.workers 0).pc = .hasPiece i →
    bf.hasPiece i = some false →
    ∀ j < tf.numPieces, i < j → bf.hasPiece j = some true → t.pool.Taken j)

/-- Of the pieces that are missing, those the peer lacks come after those it has. -/
def LacksLast (tf : TorrentFile) (bf : Bitfield) (s : Swarm 1) : Prop :=
  ∀ i < tf.numPieces, ∀ j < tf.numPieces, ¬ s.df.Stored i → ¬ s.df.Stored j →
    bf.hasPiece i = some false → bf.hasPiece j = some true → j < i

private def Calm (bf : Bitfield) : Worker → Prop
  | ⟨.hasPiece i, k⟩ => bf.hasPiece i = some true ∧ k = 0
  | ⟨.markAsUndone _, _⟩ | ⟨.left _, _⟩ => False
  | ⟨_, k⟩ => k = 0

private structure OnCourse (tf : TorrentFile) (bf : Bitfield) (s : Swarm 1) : Prop where
  ledger : ∃ L, Consistent tf s L
  last : LacksLast tf bf s
  calm : Calm bf (s.workers 0) ∨ GotAll tf bf s

variable {fresh : Nat → UInt8} {tf : TorrentFile} {bf : Bitfield} {s s' : Swarm 1}
  {L : Ledger Nat (Fin 1)} {i j : Nat}

theorem Alone.consistent (h : Alone tf bf s) (hn : tf.numPieces ≤ 2 ^ 34) :
    ∃ L, Consistent tf s L := by
  have hnone (w : Fin 1) (i : Nat) : ¬ s.Holds w i := by
    rw [Subsingleton.elim w 0, Holds, h.worker]
    simp [Pc.held]
  refine ⟨fun i => if s.df.Stored i then .settled else .free, h.numPieces, h.torrent, ?_, ?_, ?_,
    fun w i hw => (hnone w i hw).elim, Or.inl (h.numPieces.trans_le hn)⟩
  · intro i hi
    rw [h.taken i hi]
    split_ifs <;> simp_all
  · intro i _
    split_ifs <;> simp_all
  · intro i _ w
    split_ifs <;> simp [hnone w i]

theorem not_holds_of_held (h : (s.workers 0).pc.held = none) (w : Fin 1) (i : Nat) :
    ¬ s.Holds w i := by
  rw [Subsingleton.elim w 0, Holds, h]
  simp

theorem least_missing (hL : Consistent tf s L) {pool : PiecesPool}
    (hpc : (s.workers 0).pc = .getPieceIndex) (hget : s.pool.getPieceIndex = some (i, pool)) :
    (∀ j < tf.numPieces, s.df.Stored j) ∨
      i < tf.numPieces ∧ (∀ j < i, s.df.Stored j) ∧ ¬ s.df.Stored i := by
  have hx := hL.exact_of_pc (w := 0) (by simp [hpc])
  have hstored (j : Nat) (hj : j < tf.numPieces) : s.pool.Taken j ↔ s.df.Stored j :=
    hL.taken_iff_stored hj fun w => not_holds_of_held (by rw [hpc]; rfl) w j
  obtain ⟨r, pool', hget', hcase⟩ := PiecesPool.getPieceIndex_spec hx
  rw [hget] at hget'
  cases hget'
  rw [hL.numPieces] at hcase
  rcases hcase with ⟨hi, hbefore, hfree, -⟩ | ⟨hall, -⟩
  · right
    exact ⟨hi, fun j hj => (hstored j (hj.trans hi)).mp (hbefore j hj),
      fun hst => hfree ((hstored i hi).mpr hst)⟩
  · left
    exact fun j hj => (hstored j hj).mp (hall j hj)

private theorem calm_step {action : Action} (hL : Consistent tf s L) (hlast : LacksLast tf bf s)
    (hcover : tf.numPieces ≤ 8 * bf.length) (hcalm : Calm bf (s.workers 0))
    (hg : ServedBy bf s (0, action)) (hs : step fresh s (0, action) = some s') :
    Calm bf (s'.workers 0) ∨ GotAll tf bf s' := by
  have hm := moves_of_step hs
  have hx := hL.exact_of_moves hm
  cases hw : s.workers 0 with
  | mk pc k =>
    rw [hw] at hcalm
    have hk : (s.workers 0).failedAttempts = k := by rw [hw]
    have hpc' : (s.workers 0).pc = pc := by rw [hw]
    cases hm with
    | isDone d hpc hd =>
      rw [goto_self, hk, loopTest]
      rw [hpc'] at hpc
      subst hpc
      have hzero : k = 0 := hcalm
      subst hzero
      cases d with
      | false => exact Or.inl rfl
      | true =>
        right
        intro i hi _
        exact (hL.taken_iff_stored hi fun w => not_holds_of_held (by rw [hpc']; rfl) w i).mp
          ((hL.isDone_iff.mp hd).2 i hi)
    | getPieceIndex i pool hpc hget =>
      rcases least_missing hL hpc hget with hall | ⟨hi, hbefore, hmissing⟩
      · right
        intro j hj _
        exact hall j hj
      · have hbound : tf.numPieces ≤ 2 ^ 34 := hL.numPieces ▸ hx
        obtain ⟨x, hbit⟩ := bf.exists_hasPiece (i := i) (by omega) (by omega)
        rw [hpc'] at hpc
        subst hpc
        have hzero : k = 0 := hcalm
        cases x with
        | true =>
          left
          change Calm bf ((s.goto 0 (.hasPiece i)).workers 0)
          rw [goto_self, hk]
          exact ⟨hbit, hzero⟩
        | false =>
          right
          intro j hj hjbit
          by_contra hjmissing
          exact hjmissing (hbefore j (hlast i hi j hj hmissing hjmissing hbit hjbit))
    | hasPiece i answer hpc =>
      have hanswer := hg.1 i hpc
      rw [hpc'] at hpc
      subst hpc
      rw [hcalm.1] at hanswer
      rw [goto_self, hk, ← Option.some.inj hanswer]
      exact Or.inl hcalm.2
    | downloaded p hpc _ =>
      rw [hpc'] at hpc
      subst hpc
      rw [goto_self, hk]
      exact Or.inl hcalm
    | notDownloaded i hpc => exact (hg.2 rfl).elim
    | addPiece p df hpc _ =>
      rw [hpc'] at hpc
      subst hpc
      change Calm bf ((s.goto 0 .isDone).workers 0) ∨ _
      rw [goto_self, hk]
      exact Or.inl hcalm
    | markAsUndone i pool hpc _ =>
      rw [hpc'] at hpc
      subst hpc
      exact hcalm.elim

private theorem onCourse_step {label : Fin 1 × Action}
    (hcover : tf.numPieces ≤ 8 * bf.length) (h : OnCourse tf bf s)
    (hg : ServedBy bf s label) (hs : step fresh s label = some s') : OnCourse tf bf s' := by
  obtain ⟨w, action⟩ := label
  obtain ⟨L, hL⟩ := h.ledger
  obtain ⟨L', -, hL'⟩ := hL.step hs
  obtain rfl : w = 0 := Subsingleton.elim w 0
  refine ⟨⟨L', hL'⟩, ?_, ?_⟩
  · intro i hi j hj hsi hsj
    exact h.last i hi j hj (fun hst => hsi (stored_of_step hs hst))
      fun hst => hsj (stored_of_step hs hst)
  · rcases h.calm with hcalm | hgot
    · exact calm_step hL h.last hcover hcalm hg hs
    · right
      intro i hi hbit
      exact stored_of_step hs (hgot i hi hbit)

private def Before (tf : TorrentFile) (i : Nat) : Pc → Prop
  | .hasPiece k | .markAsUndone k => k ≤ i
  | .downloadPiece k => k < i
  | .addPiece p => p.index < i ∧ p.size = tf.pieceLength
  | _ => True

private structure HeldUp (tf : TorrentFile) (i j : Nat) (s : Swarm 1) : Prop where
  ledger : ∃ L, Consistent tf s L
  fit : ∀ v, AttemptsFit (s.workers v)
  lacking : ¬ s.df.Stored i
  waiting : ¬ s.df.Stored j
  place : Before tf i (s.workers 0).pc

private theorem HeldUp.next {action : Action} (h : HeldUp tf i j s) (hij : i ≤ j)
    (hm : Moves fresh s 0 action s') (hg : ServedBy bf s (0, action))
    (hplace : Before tf i (s'.workers 0).pc)
    (hdf : ∀ k, i ≤ k → s'.df.Stored k → s.df.Stored k) :
    ∃ label t, ServedBy bf s label ∧ step fresh s label = some t ∧ HeldUp tf i j t ∧
      toCome 5 callsLeft t < toCome 5 callsLeft s := by
  obtain ⟨L, hL⟩ := h.ledger
  have hs := step_of_moves hm
  obtain ⟨L', -, hL'⟩ := hL.step hs
  exact ⟨_, s', hg, hs, ⟨⟨L', hL'⟩, attempts_step h.fit hs,
    fun hst => h.lacking (hdf i (Nat.le_refl i) hst), fun hst => h.waiting (hdf j hij hst),
    hplace⟩, toCome_lt_of_step hL h.fit hs⟩

private theorem heldUp_progress (hn : tf.numPieces ≤ 2 ^ 34)
    (hcover : tf.numPieces ≤ 8 * bf.length) (hi : i < tf.numPieces)
    (hij : i ≤ j) (hbit : bf.hasPiece i = some false) (h : HeldUp tf i j s) (hin : ¬ s.Ended 0) :
    ∃ label t, ServedBy bf s label ∧ step fresh s label = some t ∧ HeldUp tf i j t ∧
      toCome 5 callsLeft t < toCome 5 callsLeft s := by
  obtain ⟨L, hL⟩ := h.ledger
  have hx : s.pool.Exact := hL.numPieces.trans_le hn
  have hplace := h.place
  have hany (action : Action) (hnot : ∀ b, action ≠ .hasPiece b)
      (hdown : action ≠ .downloadPiece none) : ServedBy bf s (0, action) := by
    constructor
    · cases action with
      | hasPiece b => exact (hnot b rfl).elim
      | _ => trivial
    · intro heq
      exact hdown (congrArg Prod.snd heq)
  cases hpc : (s.workers 0).pc with
  | isDone =>
    apply h.next hij (.isDone _ hpc (PiecesPool.isDone_eq hx)) (hany _ (by simp) (by simp))
    · rw [goto_self, loopTest]
      split_ifs <;> trivial
    · exact fun k _ hst => hst
  | getPieceIndex =>
    obtain ⟨r, pool, hget, -⟩ := PiecesPool.getPieceIndex_spec hx
    apply h.next hij (.getPieceIndex r pool hpc hget) (hany _ (by simp) (by simp))
    · change Before tf i ((s.goto 0 (.hasPiece r)).workers 0).pc
      rw [goto_self]
      rcases least_missing hL hpc hget with hall | ⟨-, hbefore, -⟩
      · exact (h.lacking (hall i hi)).elim
      · exact Nat.le_of_not_lt fun hlt => h.lacking (hbefore i hlt)
    · exact fun k _ hst => hst
  | hasPiece k =>
    rw [hpc] at hplace
    have hk : k ≤ i := hplace
    obtain ⟨x, hx⟩ := bf.exists_hasPiece (i := k) (by omega) (by omega)
    apply h.next hij (.hasPiece k x hpc)
    · refine ⟨?_, by simp⟩
      intro k' hk'
      rw [hpc] at hk'
      cases hk'
      exact hx
    · rw [goto_self]
      cases x with
      | false => exact hk
      | true =>
        refine Nat.lt_of_le_of_ne hk ?_
        rintro rfl
        rw [hbit] at hx
        cases hx
    · exact fun k _ hst => hst
  | downloadPiece k =>
    rw [hpc] at hplace
    apply h.next hij (.downloaded ⟨k, List.replicate s.df.tf.pieceLength 0, 0⟩ hpc
      List.length_replicate) (hany _ (by simp) (by simp))
    · rw [goto_self, hL.torrent]
      exact ⟨hplace, List.length_replicate⟩
    · exact fun k _ hst => hst
  | addPiece p =>
    rw [hpc] at hplace
    obtain ⟨hindex, hsize⟩ := hplace
    have hslot : p.index < s.df.tf.numPieces := by
      rw [hL.torrent]
      omega
    have hroom : p.size ≤ s.df.tf.pieceLength := by rw [hL.torrent, hsize]
    obtain ⟨df, hadd⟩ := DownloadedFile.addPiece_isSome fresh hslot hroom
    apply h.next hij (.addPiece p df hpc hadd) (hany _ (by simp) (by simp))
    · change Before tf i ((s.goto 0 .isDone).workers 0).pc
      rw [goto_self]
      trivial
    · intro k hk hst
      rcases (DownloadedFile.stored_addPiece hadd k).mp hst with rfl | hst'
      · omega
      · exact hst'
  | markAsUndone k =>
    rw [hpc] at hplace
    have hk : k < s.pool.numPieces := hL.numPieces ▸ Nat.lt_of_le_of_lt hplace hi
    obtain ⟨pool, hmark⟩ := hx.exists_markAsUndone hk
    apply h.next hij (.markAsUndone k pool hpc hmark) (hany _ (by simp) (by simp))
    · simp [fail, Before]
    · exact fun k _ hst => hst
  | left d => exact (hin ⟨d, hpc⟩).elim

private theorem exists_run_heldUp (fresh : Nat → UInt8) (hn : tf.numPieces ≤ 2 ^ 34) (hi : i < tf.numPieces)
    (hij : i ≤ j) (hsi : ¬ s.df.Stored i) (hsj : ¬ s.df.Stored j)
    (hbit : bf.hasPiece i = some false) (h : Alone tf bf s) :
    ∃ as t, (downloadLoops fresh 1 tf).run s as = some t ∧
      (downloadLoops fresh 1 tf).Meets (ServedBy bf) s as ∧ t.Ended 0 ∧ ¬ t.df.Stored j := by
  have hfit (v : Fin 1) : AttemptsFit (s.workers v) := by
    rw [Subsingleton.elim v 0, h.worker]
    exact Nat.zero_le _
  have hplace : Before tf i (s.workers 0).pc := by
    rw [h.worker]
    trivial
  obtain ⟨as, t, hrun, hmeets, hheld, hend⟩ := Machine.exists_run_of_progress
    (M := downloadLoops fresh 1 tf) (G := ServedBy bf) (P := HeldUp tf i j)
    (fun t ht hin => heldUp_progress hn h.covers hi hij hbit ht hin)
    (s := s) ⟨h.consistent hn, hfit, hsi, hsj, hplace⟩
  exact ⟨as, t, hrun, hmeets, hend, hheld.waiting⟩

private theorem not_getsWhatPeerHas (hn : tf.numPieces ≤ 2 ^ 34) (h : Alone tf bf s)
    (hlast : ¬ LacksLast tf bf s) : ¬ GetsWhatPeerHas fresh tf bf s := by
  simp only [LacksLast, not_forall, Nat.not_lt] at hlast
  obtain ⟨i, hi, j, hj, hsi, hsj, hbiti, hbitj, hij⟩ := hlast
  intro hgets
  obtain ⟨as, t, hrun, hmeets, hend, hmissing⟩ :=
    exists_run_heldUp fresh hn hi hij hsi hsj hbiti h
  exact hmissing (hgets.1 as t hrun hmeets hend j hj hbitj)

private theorem onCourse_run {as : List (Fin 1 × Action)} (hn : tf.numPieces ≤ 2 ^ 34)
    (h : Alone tf bf s) (hlast : LacksLast tf bf s)
    (hrun : (downloadLoops fresh 1 tf).run s as = some s')
    (hmeets : (downloadLoops fresh 1 tf).Meets (ServedBy bf) s as) : OnCourse tf bf s' := by
  refine Machine.run_invariant_of_meets (P := OnCourse tf bf) ?_ ?_ hmeets hrun
  · intro t label t' ht hg hs
    exact onCourse_step h.covers ht hg hs
  · refine ⟨h.consistent hn, hlast, Or.inl ?_⟩
    rw [h.worker]
    rfl

private theorem run_of_large {as : List (Fin 1 × Action)} (hn : 2 ^ 34 < tf.numPieces)
    (h : Alone tf bf s) (hrun : (downloadLoops fresh 1 tf).run s as = some s') : s' = s := by
  cases as with
  | nil =>
    cases hrun
    rfl
  | cons label as =>
    obtain ⟨t, ht, -⟩ := Machine.run_cons hrun
    obtain ⟨w, action⟩ := label
    have hpc : (s.workers w).pc = .isDone := by rw [Subsingleton.elim w 0, h.worker]
    cases moves_of_step ht with
    | isDone d _ hd =>
      have hx := PiecesPool.exact_of_isDone hd
      unfold PiecesPool.Exact at hx
      rw [h.numPieces] at hx
      omega
    | getPieceIndex _ _ hpc' _ | hasPiece _ _ hpc' | downloaded _ hpc' _
    | notDownloaded _ hpc' | addPiece _ _ hpc' _ | markAsUndone _ _ hpc' _ =>
      rw [hpc] at hpc'
      contradiction

/-- Whatever is stored already, a worker alone gets every piece its peer has, and is not held
up by one it lacks, exactly when the peer lacks only pieces behind all missing ones that it
has. More than `2 ^ 34` pieces are the one exception: with them nobody gets past the first
loop test. -/
theorem getsWhatPeerHas_iff (fresh : Nat → UInt8) (tf : TorrentFile) (bf : Bitfield)
    (s : Swarm 1) (h : Alone tf bf s) :
    GetsWhatPeerHas fresh tf bf s ↔ LacksLast tf bf s ∨ 2 ^ 34 < tf.numPieces := by
  by_cases hn : 2 ^ 34 < tf.numPieces
  · refine iff_of_true ⟨?_, ?_⟩ (Or.inr hn)
    · intro as t hrun _ hend
      obtain ⟨d, hd⟩ := hend
      rw [run_of_large hn h hrun, h.worker] at hd
      cases hd
    · intro as bs t u i hrun _ _ _ hpc
      rw [run_of_large hn h hrun, h.worker] at hpc
      cases hpc
  · rw [or_iff_left hn]
    rw [Nat.not_lt] at hn
    constructor
    · intro hgets
      by_contra hlast
      exact not_getsWhatPeerHas hn h hlast hgets
    · intro hlast
      constructor
      · intro as t hrun hmeets hend
        obtain ⟨d, hd⟩ := hend
        rcases (onCourse_run hn h hlast hrun hmeets).calm with hcalm | hgot
        · cases hw : t.workers 0 with
          | mk pc k =>
            rw [hw] at hcalm hd
            subst hd
            exact hcalm.elim
        · exact hgot
      · intro as bs t u i hrun _ hrun' hmeets _ hpc hbit j hj _ hbitj
        have hwhole : (downloadLoops fresh 1 tf).run s (as ++ bs) = some u :=
          (Machine.run_append bs hrun).trans hrun'
        have hcourse := onCourse_run hn h hlast hwhole hmeets
        obtain ⟨L, hL⟩ := hcourse.ledger
        have hstored : u.df.Stored j := by
          rcases hcourse.calm with hcalm | hgot
          · cases hw : u.workers 0 with
            | mk pc k =>
              rw [hw] at hcalm hpc
              subst hpc
              rw [hcalm.1] at hbit
              cases hbit
          · exact hgot j hj hbitj
        rw [hL.taken j hj, (hL.stored j hj).mp hstored]
        simp

/-- Two pieces, of which the peer has only the second: it is offered the first one eight
times, and leaves with the second one missing. -/
theorem not_getsWhatPeerHas_second :
    ¬ ∀ (fresh : Nat → UInt8) (tf : TorrentFile) (bf : Bitfield) (s : Swarm 1),
      Alone tf bf s → GetsWhatPeerHas fresh tf bf s := by
  intro hall
  have halone : Alone { initTorrentFile with numPieces := 2 } ⟨[0x40]⟩
      (initSwarm 1 { initTorrentFile with numPieces := 2 }) :=
    ⟨rfl, rfl, by decide, rfl, by decide⟩
  refine not_getsWhatPeerHas (by decide) halone ?_ (hall (fun _ => 0) _ _ _ halone)
  intro hlast
  have hbefore := hlast 0 (by decide) 1 (by decide) (by decide) (by decide) rfl rfl
  contradiction

/-- Two pieces, of which the peer has only the first: it is stored before the second fails. -/
theorem getsWhatPeerHas_iff_first :
    GetsWhatPeerHas (fun _ => 0) { initTorrentFile with numPieces := 2 } ⟨[0x80]⟩
      (initSwarm 1 { initTorrentFile with numPieces := 2 }) := by
  have halone : Alone { initTorrentFile with numPieces := 2 } ⟨[0x80]⟩
      (initSwarm 1 { initTorrentFile with numPieces := 2 }) :=
    ⟨rfl, rfl, by decide, rfl, by decide⟩
  refine (getsWhatPeerHas_iff _ _ _ _ halone).mpr (Or.inl ?_)
  intro i _ j hj _ _ hbiti hbitj
  have hj2 : j < 2 := hj
  have hi : i ≠ 0 := by
    rintro rfl
    cases hbiti
  have hj : j ≠ 1 := by
    rintro rfl
    cases hbitj
  omega

end BitTorrentBits.Swarm
