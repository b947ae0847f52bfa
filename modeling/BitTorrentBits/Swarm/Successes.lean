import BitTorrentBits.Swarm.GivenBack
import BitTorrentBits.Swarm.Iterations

/-!
# Workers whose attempts succeed

Any number of workers over peers that have every piece and send it. No piece is ever given back,
so a worker fails at most once, when it gets the value past the end while others still hold the
last pieces.
-/

namespace BitTorrentBits.Swarm

open PieceProgress

variable {W : Nat} {fresh : Nat → UInt8} {tf : TorrentFile} {content : Nat → List UInt8}
  {s s' : Swarm W} {L : Ledger Nat (Fin W)} {w : Fin W} {action : Action} {i : Nat}

/-- The peer shows exactly the pieces of the torrent, and an attempt gives the content of its
piece. -/
def Succeeds (tf : TorrentFile) (content : Nat → List UInt8) (s : Swarm W) :
    Fin W × Action → Prop
  | (w, .hasPiece answer) => ∀ i, (s.workers w).pc = .hasPiece i → (answer = true ↔ i < tf.numPieces)
  | (_, .downloadPiece result) => ∃ p, result = some p ∧ p.buf = content p.index
  | _ => True

def AllTaken (tf : TorrentFile) (s : Swarm W) : Prop := ∀ i < tf.numPieces, s.pool.Taken i

/-- A worker that has failed, or is about to, has got the value past the end. -/
def Smooth (tf : TorrentFile) (content : Nat → List UInt8) (allTaken : Prop) : Worker → Prop
  | ⟨.isDone, k⟩ => k = 0 ∨ k = 1 ∧ allTaken
  | ⟨.getPieceIndex, k⟩ => k = 0
  | ⟨.hasPiece i, k⟩ => k = 0 ∧ (i < tf.numPieces ∨ allTaken)
  | ⟨.downloadPiece i, k⟩ => k = 0 ∧ i < tf.numPieces
  | ⟨.addPiece p, k⟩ => k = 0 ∧ p.index < tf.numPieces ∧ p.size = tf.pieceLength ∧
      p.buf = content p.index
  | ⟨.markAsUndone i, k⟩ => k = 0 ∧ i = tf.numPieces + 1 ∧ allTaken
  | ⟨.left d, k⟩ => d = true ∧ k ≤ 1

def HoldsContent (content : Nat → List UInt8) (df : DownloadedFile) : Prop :=
  ∀ i buf, df.piecesBuf[i]? = some (some buf) → buf = content i

theorem Smooth.mono {p q : Prop} {x : Worker} (h : Smooth tf content p x) (hpq : p → q) :
    Smooth tf content q x := by
  obtain ⟨pc, k⟩ := x
  cases pc with
  | isDone => exact h.imp_right (And.imp_right hpq)
  | hasPiece i => exact ⟨h.1, h.2.imp_right hpq⟩
  | markAsUndone i => exact ⟨h.1, h.2.1, hpq h.2.2⟩
  | _ => exact h

theorem Smooth.failedAttempts_le {p : Prop} {x : Worker} (h : Smooth tf content p x) :
    x.failedAttempts ≤ 1 := by
  obtain ⟨pc, k⟩ := x
  cases pc with
  | isDone =>
    rcases h with hk | ⟨hk, -⟩ <;> exact hk.le.trans (by decide)
  | getPieceIndex => exact (Nat.le_of_eq h).trans (by decide)
  | left d => exact h.2
  | _ => exact h.1.le.trans (by decide)

theorem AllTaken.step (h : AllTaken tf s) (hL : Consistent tf s L) {L' : Ledger Nat (Fin W)}
    (hL' : Consistent tf s' L') (hm : Moves fresh s w action s')
    (hback : ∀ i < tf.numPieces, (s.workers w).pc ≠ .markAsUndone i) : AllTaken tf s' := by
  intro i hi
  have hkept : s'.df.Stored i ∨ ∃ v, s'.Holds v i := by
    rcases (hL.taken_iff_xor hi).mp (h i hi) with ⟨⟨v, hv, -⟩, -⟩ | ⟨hstored, -⟩
    · by_cases hvw : v = w
      · subst hvw
        rcases hm.held_next hv with hstored | hheld | ⟨hpc, -⟩
        · exact Or.inl hstored
        · exact Or.inr ⟨v, hheld⟩
        · exact (hback i hi hpc).elim
      · refine Or.inr ⟨v, ?_⟩
        rw [Holds, hm.workers_of_ne hvw]
        exact hv
    · exact Or.inl (stored_of_step (step_of_moves hm) hstored)
  rw [hL'.taken i hi]
  rcases hkept with hstored | ⟨v, hv⟩
  · rw [(hL'.stored i hi).mp hstored]
    intro hfree
    cases hfree
  · rw [(hL'.holds i hi v).mp hv]
    intro hfree
    cases hfree

theorem Smooth.not_given_back {p : Prop} {x : Worker} (h : Smooth tf content p x)
    (hi : i < tf.numPieces) : x.pc ≠ .markAsUndone i := by
  obtain ⟨pc, k⟩ := x
  rintro rfl
  have hindex : i = tf.numPieces + 1 := h.2.1
  omega

theorem Smooth.step (h : Smooth tf content (AllTaken tf s) (s.workers w)) (hL : Consistent tf s L)
    {L' : Ledger Nat (Fin W)} (hL' : Consistent tf s' L') (hm : Moves fresh s w action s')
    (hg : Succeeds tf content s (w, action)) :
    Smooth tf content (AllTaken tf s') (s'.workers w) := by
  have hkeep : AllTaken tf s → AllTaken tf s' := fun hall =>
    hall.step hL hL' hm fun _ hi => h.not_given_back hi
  have hx := hL.exact_of_moves hm
  cases hw : s.workers w with
  | mk pc k =>
    rw [hw] at h
    have hk : (s.workers w).failedAttempts = k := by rw [hw]
    have hpc' : (s.workers w).pc = pc := by rw [hw]
    cases hm with
    | isDone d hpc hd =>
      rw [hpc'] at hpc
      subst hpc
      rw [goto_self, hk, loopTest]
      cases d with
      | true => exact ⟨rfl, h.failedAttempts_le⟩
      | false =>
        rcases h with rfl | ⟨-, hall⟩
        · rfl
        · rw [hL.isDone_iff.mpr ⟨hx, hall⟩] at hd
          cases hd
    | getPieceIndex i pool hpc hget =>
      rw [hpc'] at hpc
      subst hpc
      obtain ⟨r, pool', hget', hcase⟩ := PiecesPool.getPieceIndex_spec hx
      rw [hget] at hget'
      cases hget'
      rw [hL.numPieces] at hcase
      change Smooth _ _ _ ((s.goto w (.hasPiece i)).workers w)
      rw [goto_self, hk]
      exact ⟨h, hcase.imp And.left fun hpast => hkeep hpast.1⟩
    | hasPiece i answer hpc =>
      have hanswer := hg i hpc
      have hpast := hL.pastEnd w i (by rw [Holds, hpc]; rfl)
      rw [hpc'] at hpc
      subst hpc
      rw [goto_self, hk]
      cases answer with
      | true => exact ⟨h.1, hanswer.mp rfl⟩
      | false =>
        have hnot : ¬ i < tf.numPieces := fun hi => Bool.false_ne_true (hanswer.mpr hi)
        exact ⟨h.1, hpast.resolve_left hnot, hkeep (h.2.resolve_left hnot)⟩
    | downloaded p hpc hsize =>
      rw [hpc'] at hpc
      subst hpc
      obtain ⟨q, hq, hbuf⟩ := hg
      cases hq
      rw [goto_self, hk]
      exact ⟨h.1, h.2, hsize.trans (congrArg _ hL.torrent), hbuf⟩
    | notDownloaded i _ =>
      obtain ⟨q, hq, -⟩ := hg
      cases hq
    | addPiece p df hpc _ =>
      rw [hpc'] at hpc
      subst hpc
      change Smooth _ _ _ ((s.goto w .isDone).workers w)
      rw [goto_self, hk]
      exact Or.inl h.1
    | markAsUndone i pool hpc _ =>
      rw [hpc'] at hpc
      subst hpc
      change Smooth _ _ _ ((s.fail w).workers w)
      rw [fail_self, hk, h.1]
      exact Or.inr ⟨rfl, hkeep h.2.2⟩

structure Flows (fresh : Nat → UInt8) (tf : TorrentFile) (content : Nat → List UInt8)
    (s : Swarm W) : Prop where
  reachable : (downloadLoops fresh W tf).Reachable s
  smooth : ∀ w, Smooth tf content (AllTaken tf s) (s.workers w)
  holds : HoldsContent content s.df

theorem HoldsContent.step (h : HoldsContent content s.df) (htf : s.df.tf = tf)
    (hw : Smooth tf content (AllTaken tf s) (s.workers w)) (hm : Moves fresh s w action s') :
    HoldsContent content s'.df := by
  cases hm with
  | addPiece p df hpc hadd =>
    cases hx : s.workers w with
    | mk pc k =>
      rw [hx] at hw hpc
      subst hpc
      obtain ⟨-, -, hsize, hbuf⟩ := hw
      obtain ⟨-, -, -, -, hslots⟩ := DownloadedFile.addPiece_eq_some hadd
      have hfull : DownloadedFile.copied fresh s.df.tf.pieceLength p.buf = p.buf := by
        rw [htf, ← hsize]
        exact DownloadedFile.copied_full fresh p.buf
      intro i buf hi
      change df.piecesBuf[i]? = _ at hi
      rw [hslots, hfull, List.getElem?_set] at hi
      split_ifs at hi with hindex hlt
      · rw [← hindex, ← hbuf]
        exact (Option.some.inj (Option.some.inj hi)).symm
      · exact h i buf hi
  | _ => exact h

theorem Flows.step (h : Flows fresh tf content s) {label : Fin W × Action}
    (hg : Succeeds tf content s label) (hs : step fresh s label = some s') :
    Flows fresh tf content s' := by
  obtain ⟨w, action⟩ := label
  have hm := moves_of_step hs
  obtain ⟨L, hL⟩ := reachable_consistent h.reachable
  obtain ⟨L', -, hL'⟩ := hL.step hs
  refine ⟨h.reachable.step (a := (w, action)) hs, fun v => ?_, h.holds.step hL.torrent (h.smooth w) hm⟩
  by_cases hvw : v = w
  · subst hvw
    exact (h.smooth v).step hL hL' hm hg
  · rw [hm.workers_of_ne hvw]
    exact (h.smooth v).mono fun hall => hall.step hL hL' hm fun _ hi => (h.smooth w).not_given_back hi

theorem Flows.progress (h : Flows fresh tf content s) (hn : tf.numPieces + 1 < 2 ^ 34)
    (hcontent : ∀ i < tf.numPieces, (content i).length = tf.pieceLength) (hin : ¬ s.Ended w) :
    ∃ action s', Succeeds tf content s (w, action) ∧ Moves fresh s w action s' := by
  obtain ⟨L, hL⟩ := reachable_consistent h.reachable
  have hx : s.pool.Exact := by
    rw [PiecesPool.Exact, hL.numPieces]
    omega
  have hw := h.smooth w
  cases hk : s.workers w with
  | mk pc k =>
    rw [hk] at hw
    have hpc : (s.workers w).pc = pc := by rw [hk]
    cases pc with
    | isDone => exact ⟨.isDone, _, trivial, .isDone _ hpc (PiecesPool.isDone_eq hx)⟩
    | getPieceIndex =>
      obtain ⟨i, pool, hget, -⟩ := PiecesPool.getPieceIndex_spec hx
      exact ⟨.getPieceIndex, _, trivial, .getPieceIndex i pool hpc hget⟩
    | hasPiece i =>
      refine ⟨.hasPiece (decide (i < tf.numPieces)), _, fun j hj => ?_, .hasPiece i _ hpc⟩
      rw [hpc] at hj
      cases hj
      exact decide_eq_true_iff
    | downloadPiece i =>
      refine ⟨.downloadPiece (some ⟨i, content i, 0⟩), _, ⟨_, rfl, rfl⟩, .downloaded _ hpc ?_⟩
      rw [hL.torrent]
      exact hcontent i hw.2
    | addPiece p =>
      obtain ⟨-, hi, hsize, -⟩ := hw
      obtain ⟨df, hadd⟩ : ∃ df, s.df.addPiece fresh p = some (true, df) :=
        DownloadedFile.addPiece_isSome fresh (hL.torrent ▸ hi) (hL.torrent ▸ hsize.le)
      exact ⟨.addPiece, _, trivial, .addPiece p df hpc hadd⟩
    | markAsUndone i =>
      obtain ⟨pool, hmark⟩ := exists_markAsUndone hn h.reachable hpc
      exact ⟨.markAsUndone, _, trivial, .markAsUndone i pool hpc hmark⟩
    | left d => exact (hin ⟨d, hpc⟩).elim

theorem Flows.exists_run_to_end (h : Flows fresh tf content s) (hn : tf.numPieces + 1 < 2 ^ 34)
    (hcontent : ∀ i < tf.numPieces, (content i).length = tf.pieceLength) :
    ∃ bs t, (downloadLoops fresh W tf).run s bs = some t ∧
      (downloadLoops fresh W tf).Meets (Succeeds tf content) s bs ∧ ∀ w, t.Ended w := by
  have hprogress (s : Swarm W) (hs : Flows fresh tf content s) (hin : ¬ ∀ w, s.Ended w) :
      ∃ label s', Succeeds tf content s label ∧ (downloadLoops fresh W tf).step s label = some s' ∧
        Flows fresh tf content s' ∧ toCome 5 callsLeft s' < toCome 5 callsLeft s := by
    obtain ⟨w, hw⟩ := not_forall.mp hin
    obtain ⟨action, s', hg, hm⟩ := hs.progress hn hcontent hw
    obtain ⟨L, hL⟩ := reachable_consistent hs.reachable
    exact ⟨(w, action), s', hg, step_of_moves hm, hs.step hg (step_of_moves hm),
      toCome_lt_of_step hL (reachable_attemptsFit hs.reachable) (step_of_moves hm)⟩
  obtain ⟨bs, t, hrun, hmeets, -, hend⟩ := Machine.exists_run_of_progress hprogress h
  exact ⟨bs, t, hrun, hmeets, hend⟩

end BitTorrentBits.Swarm
