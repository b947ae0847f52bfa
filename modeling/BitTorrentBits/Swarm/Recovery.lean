import BitTorrentBits.Swarm.Attempts
import BitTorrentBits.Swarm.SingleWorker

/-!
# Failed attempts on one connection

A worker alone over a peer that has every piece and answers every request. After a failed
attempt the worker asks for a piece from its first block on, while the replies to what it
has asked before are still to come: it recovers only where those happen to be the blocks
that it asks for now.
-/

namespace BitTorrentBits.Swarm

open PieceProgress

structure Dialogue where
  swarm : Swarm 1
  peer : Peer

/-- The next call of the worker, and the peer after it. -/
def turn (fresh : Nat → UInt8) (bf : Bitfield) (content : Nat → List UInt8) (d : Dialogue)
    (w : Fin 1) : Option (Action × Peer) :=
  match (d.swarm.workers w).pc with
  | .isDone => some (.isDone, d.peer)
  | .getPieceIndex => some (.getPieceIndex, d.peer)
  | .hasPiece i => do
    let answer ← bf.hasPiece i
    return (.hasPiece answer, d.peer)
  | .downloadPiece i => do
    let (ok, p, peer) ← attempt content fresh i d.swarm.df.tf.pieceLength d.peer
    return (.downloadPiece (if ok then some p else none), peer)
  | .addPiece _ => some (.addPiece, d.peer)
  | .markAsUndone _ => some (.markAsUndone, d.peer)
  | .left _ => none

def nextCall (fresh : Nat → UInt8) (bf : Bitfield) (content : Nat → List UInt8) (d : Dialogue)
    (w : Fin 1) : Option Dialogue := do
  let (action, peer) ← turn fresh bf content d w
  let s ← step fresh d.swarm (w, action)
  return ⟨s, peer⟩

/-- The loop of one worker over a peer with this plan. The state alone decides what is called
next, so there is one run of each length. -/
def dialogue (fresh : Nat → UInt8) (bf : Bitfield) (content : Nat → List UInt8)
    (tf : TorrentFile) (plan : List (Option OtherMessage)) : Machine Dialogue (Fin 1) where
  init := ⟨initSwarm 1 tf, ⟨[], plan⟩⟩
  step := nextCall fresh bf content

/-- Pieces of whole blocks, and a peer that has them all. -/
structure HasEverything (tf : TorrentFile) (bf : Bitfield) (content : Nat → List UInt8) :
    Prop where
  blocks : BLOCK_SIZE ∣ tf.pieceLength
  pos : 0 < tf.pieceLength
  size : tf.pieceLength < 2 ^ 64
  covers : tf.numPieces ≤ 8 * bf.length
  bits : ∀ i < tf.numPieces, bf.hasPiece i ≠ some false
  whole : ∀ i < tf.numPieces, (content i).length = tf.pieceLength

/-- The worker leaves with every piece stored as it is, after no more failed attempts than
other messages were sent to it. -/
def Recovers (fresh : Nat → UInt8) (bf : Bitfield) (content : Nat → List UInt8)
    (tf : TorrentFile) (plan : List (Option OtherMessage)) : Prop :=
  ∃ as d, (dialogue fresh bf content tf plan).run (dialogue fresh bf content tf plan).init as =
      some d ∧ (∀ w, d.swarm.Ended w) ∧
    (∀ i < tf.numPieces, d.swarm.df.piecesBuf[i]? = some (some (content i))) ∧
    ∀ w, (d.swarm.workers w).failedAttempts + otherMessages d.peer.plan ≤ otherMessages plan

/-- Before each attempt, the replies up to the first other message are going to be those to
the requests of this attempt. -/
def StaysInStep (fresh : Nat → UInt8) (bf : Bitfield) (content : Nat → List UInt8)
    (tf : TorrentFile) (plan : List (Option OtherMessage)) : Prop :=
  ∀ d w i, (dialogue fresh bf content tf plan).Reachable d →
    (d.swarm.workers w).pc = .downloadPiece i →
    d.peer.InStep content (requestsFrom i 0 (numBlocks tf.pieceLength))

/-- All indices and all ends of blocks fit the numbers that `big_endian_to_lu` reads. -/
def Numbered (tf : TorrentFile) : Prop :=
  ∀ i < tf.numPieces, i < 2 ^ 31 ∧ tf.pieceLength ≤ 2 ^ 31

/-- One for an attempt that has failed and is not counted yet. -/
def pending : Pc → Nat
  | .markAsUndone _ => 1
  | _ => 0

/-- The failed attempts and the other messages to come. -/
def excess (d : Dialogue) (w : Fin 1) : Nat :=
  (d.swarm.workers w).failedAttempts + pending (d.swarm.workers w).pc + otherMessages d.peer.plan

/-- The index in the worker's hands is one of a piece, and what it adds is the piece. -/
def Place (n : Nat) (content : Nat → List UInt8) (df : DownloadedFile) : Pc → Prop
  | .getPieceIndex => ∃ i < n, ¬ df.Stored i
  | .hasPiece i | .downloadPiece i | .markAsUndone i => i < n
  | .addPiece p => p.index < n ∧ p.buf = content p.index
  | .left true => ∀ i < n, df.Stored i
  | _ => True

/-- What holds of a worker alone over a peer that sends right blocks only. -/
structure Sound (tf : TorrentFile) (content : Nat → List UInt8) (d : Dialogue) :
    Prop where
  ledger : ∃ L, Consistent tf d.swarm L
  fit : ∀ v, AttemptsFit (d.swarm.workers v)
  right : ∀ i buf, d.swarm.df.piecesBuf[i]? = some (some buf) → buf = content i
  readable : ∀ r ∈ d.peer.unanswered, Readable r
  place : Place tf.numPieces content d.swarm.df (d.swarm.workers 0).pc

variable {fresh : Nat → UInt8} {bf : Bitfield} {content : Nat → List UInt8} {tf : TorrentFile}
  {plan : List (Option OtherMessage)} {d d' : Dialogue} {s : Swarm 1} {peer : Peer}
  {action : Action}

theorem nextCall_of_moves (hturn : turn fresh bf content d 0 = some (action, peer))
    (hm : Moves fresh d.swarm 0 action s) : nextCall fresh bf content d 0 = some ⟨s, peer⟩ := by
  rw [nextCall, hturn]
  simp only [Option.bind_eq_bind, Option.bind_some, step_of_moves hm]
  rfl

theorem moves_of_nextCall {w : Fin 1} (h : nextCall fresh bf content d w = some d') :
    ∃ action, turn fresh bf content d w = some (action, d'.peer) ∧
      Moves fresh d.swarm w action d'.swarm := by
  obtain ⟨⟨action, peer⟩, hturn, hrest⟩ := Option.bind_eq_some_iff.mp h
  obtain ⟨s, hs, heq⟩ := Option.bind_eq_some_iff.mp hrest
  cases heq
  exact ⟨action, hturn, moves_of_step hs⟩

private theorem Sound.next (h : Sound tf content d)
    (hturn : turn fresh bf content d 0 = some (action, peer))
    (hm : Moves fresh d.swarm 0 action s)
    (hright : ∀ i buf, s.df.piecesBuf[i]? = some (some buf) → buf = content i)
    (hread : ∀ r ∈ peer.unanswered, Readable r)
    (hplace : Place tf.numPieces content s.df (s.workers 0).pc) :
    nextCall fresh bf content d 0 = some ⟨s, peer⟩ ∧ Sound tf content ⟨s, peer⟩ ∧
      toCome 5 callsLeft s < toCome 5 callsLeft d.swarm := by
  obtain ⟨L, hL⟩ := h.ledger
  obtain ⟨L', -, hL'⟩ := hL.step (step_of_moves hm)
  exact ⟨nextCall_of_moves hturn hm,
    ⟨⟨L', hL'⟩, attempts_step h.fit (step_of_moves hm), hright, hread, hplace⟩,
    toCome_lt_of_step hL h.fit (step_of_moves hm)⟩

/-- The attempt about to be made, if there is one, is in step. -/
def InStepAt (tf : TorrentFile) (content : Nat → List UInt8) (d : Dialogue)
    (w : Fin 1) : Prop :=
  ∀ i, (d.swarm.workers w).pc = .downloadPiece i →
    d.peer.InStep content (requestsFrom i 0 (numBlocks tf.pieceLength))

theorem numPieces_le (hnum : Numbered tf) : tf.numPieces ≤ 2 ^ 31 := by
  by_contra hlarge
  have hindex := (hnum (2 ^ 31) (Nat.lt_of_not_le hlarge)).1
  exact Nat.lt_irrefl _ hindex

private def Advances (fresh : Nat → UInt8) (bf : Bitfield) (content : Nat → List UInt8)
    (tf : TorrentFile) (d : Dialogue) (w : Fin 1) : Prop :=
  ∃ d', nextCall fresh bf content d w = some d' ∧ Sound tf content d' ∧
    toCome 5 callsLeft d'.swarm < toCome 5 callsLeft d.swarm ∧
    ((InStepAt tf content d w ∧ excess d' w = excess d w) ∨
      (¬ InStepAt tf content d w ∧ excess d' w = excess d w + 1))

private theorem Sound.calm (h : Sound tf content d)
    (hdown : ∀ i, (d.swarm.workers 0).pc ≠ .downloadPiece i)
    (hturn : turn fresh bf content d 0 = some (action, d.peer))
    (hm : Moves fresh d.swarm 0 action s)
    (hright : ∀ i buf, s.df.piecesBuf[i]? = some (some buf) → buf = content i)
    (hplace : Place tf.numPieces content s.df (s.workers 0).pc)
    (hcount : (s.workers 0).failedAttempts + pending (s.workers 0).pc =
      (d.swarm.workers 0).failedAttempts + pending (d.swarm.workers 0).pc) :
    Advances fresh bf content tf d 0 := by
  obtain ⟨hcall, hsound, hless⟩ := h.next hturn hm hright h.readable hplace
  refine ⟨_, hcall, hsound, hless, Or.inl ⟨fun i hi => (hdown i hi).elim, ?_⟩⟩
  rw [excess, excess, hcount]

private theorem HasEverything.bit (hall : HasEverything tf bf content)
    (hn : tf.numPieces ≤ 2 ^ 31) {i : Nat} (hi : i < tf.numPieces) :
    bf.hasPiece i = some true := by
  have hlen := hall.covers
  obtain ⟨x, hx⟩ := bf.exists_hasPiece (i := i) (by omega) (by omega)
  cases x with
  | true => exact hx
  | false => exact (hall.bits i hi hx).elim

theorem Sound.exists_attempt (fresh : Nat → UInt8) (bf : Bitfield) (h : Sound tf content d)
    (hnum : Numbered tf) (hall : HasEverything tf bf content) {i : Nat}
    (hpc : (d.swarm.workers 0).pc = .downloadPiece i) :
    ∃ ok p peer, turn fresh bf content d 0 =
        some (.downloadPiece (if ok then some p else none), peer) ∧
      Outcome content i (requestsFrom i 0 (numBlocks tf.pieceLength)) d.peer ok p peer ∧
      ∀ r ∈ peer.unanswered, Readable r := by
  obtain ⟨L, hL⟩ := h.ledger
  have hplace := h.place
  rw [hpc] at hplace
  have hwhole := hall.whole i hplace
  obtain ⟨hindex, hbound⟩ := hnum i hplace
  rw [← hL.torrent] at hwhole hbound
  obtain ⟨ok, p, peer, hattempt, hout, hread⟩ := attempt_spec fresh hindex hbound
    (by rw [hL.torrent]; exact hall.blocks) hwhole h.readable
  rw [hL.torrent] at hout
  exact ⟨ok, p, peer, by simp [turn, hpc, hattempt], hout, hread⟩

section Step

variable (hnum : Numbered tf) (h : Sound tf content d)

include hnum h

private theorem exact_pool : d.swarm.pool.Exact := by
  obtain ⟨L, hL⟩ := h.ledger
  exact hL.numPieces.trans_le ((numPieces_le hnum).trans (by decide))

private theorem advances_isDone (fresh : Nat → UInt8) (bf : Bitfield)
    (hpc : (d.swarm.workers 0).pc = .isDone) : Advances fresh bf content tf d 0 := by
  obtain ⟨L, hL⟩ := h.ledger
  have hturn : turn fresh bf content d 0 = some (.isDone, d.peer) := by rw [turn, hpc]
  have hdone := PiecesPool.isDone_eq (exact_pool hnum h)
  apply h.calm (by simp [hpc]) hturn (.isDone _ hpc hdone) h.right
  · have hstored (i : Nat) (hi : i < tf.numPieces) :
        d.swarm.pool.Taken i ↔ d.swarm.df.Stored i :=
      hL.taken_iff_stored hi fun w => not_holds_of_held (by rw [hpc]; rfl) w i
    have hall : (∀ i < d.swarm.pool.numPieces, d.swarm.pool.Taken i) ↔
        ∀ i < tf.numPieces, d.swarm.df.Stored i := by
      rw [hL.numPieces]
      exact forall₂_congr hstored
    rw [goto_self, loopTest]
    simp only [hall, decide_eq_true_eq]
    split_ifs with hwhole hleft
    · exact hwhole
    · simp only [not_forall] at hwhole
      obtain ⟨i, hi, hmissing⟩ := hwhole
      exact ⟨i, hi, hmissing⟩
    · trivial
  · rw [goto_self, hpc, loopTest]
    split_ifs <;> rfl

private theorem advances_getPieceIndex (fresh : Nat → UInt8) (bf : Bitfield)
    (hpc : (d.swarm.workers 0).pc = .getPieceIndex) : Advances fresh bf content tf d 0 := by
  obtain ⟨L, hL⟩ := h.ledger
  have hplace := h.place
  rw [hpc] at hplace
  have hturn : turn fresh bf content d 0 = some (.getPieceIndex, d.peer) := by rw [turn, hpc]
  obtain ⟨i, pool, hget, -⟩ := PiecesPool.getPieceIndex_spec (exact_pool hnum h)
  apply h.calm (by simp [hpc]) hturn (.getPieceIndex i pool hpc hget) h.right
  · change Place _ _ _ ((d.swarm.goto 0 (.hasPiece i)).workers 0).pc
    rw [goto_self]
    obtain ⟨j, hj, hmissing⟩ := hplace
    rcases least_missing hL hpc hget with hwhole | ⟨hi, -⟩
    · exact (hmissing (hwhole j hj)).elim
    · exact hi
  · change ((d.swarm.goto 0 (.hasPiece i)).workers 0).failedAttempts +
      pending ((d.swarm.goto 0 (.hasPiece i)).workers 0).pc = _
    rw [goto_self, hpc]
    rfl

private theorem advances_hasPiece (fresh : Nat → UInt8) (hall : HasEverything tf bf content)
    {i : Nat} (hpc : (d.swarm.workers 0).pc = .hasPiece i) : Advances fresh bf content tf d 0 := by
  have hplace := h.place
  rw [hpc] at hplace
  have hturn : turn fresh bf content d 0 = some (.hasPiece true, d.peer) := by
    simp [turn, hpc, hall.bit (numPieces_le hnum) hplace]
  apply h.calm (by simp [hpc]) hturn (.hasPiece i true hpc) h.right
  · rw [goto_self]
    exact hplace
  · rw [goto_self, hpc]
    rfl

private theorem advances_downloadPiece (fresh : Nat → UInt8) (hall : HasEverything tf bf content)
    {i : Nat} (hpc : (d.swarm.workers 0).pc = .downloadPiece i) :
    Advances fresh bf content tf d 0 := by
  obtain ⟨L, hL⟩ := h.ledger
  have hplace := h.place
  rw [hpc] at hplace
  obtain ⟨ok, p, peer, hturn, hout, hread⟩ := h.exists_attempt fresh bf hnum hall hpc
  have hstep : InStepAt tf content d 0 ↔
      d.peer.InStep content (requestsFrom i 0 (numBlocks tf.pieceLength)) := by
    constructor
    · exact fun hat => hat i hpc
    · intro hat j hj
      rw [hpc] at hj
      cases hj
      exact hat
  have hspent := hout.otherMessages_eq
  cases hout with
  | stored hat _ hpi hbuf _ =>
    have hmoves : Moves fresh d.swarm 0 (.downloadPiece (some p)) (d.swarm.goto 0 (.addPiece p)) := by
      apply Moves.downloaded p (hpi ▸ hpc)
      rw [PieceProgress.size, hbuf, hall.whole i hplace, hL.torrent]
    obtain ⟨hcall, hsound, hless⟩ := h.next hturn hmoves h.right hread (by
      rw [goto_self]
      exact ⟨hpi ▸ hplace, hpi ▸ hbuf⟩)
    refine ⟨_, hcall, hsound, hless, Or.inl ⟨hstep.mpr hat, ?_⟩⟩
    rw [excess, excess, goto_self, hpc, ← hspent hat]
    rfl
  | interrupted _ hat _ _ _ _ =>
    obtain ⟨hcall, hsound, hless⟩ := h.next hturn (.notDownloaded i hpc) h.right hread (by
      rw [goto_self]
      exact hplace)
    refine ⟨_, hcall, hsound, hless, Or.inl ⟨hstep.mpr hat, ?_⟩⟩
    rw [excess, excess, goto_self, hpc, ← hspent hat]
    simp only [pending, Bool.false_eq_true, if_false]
    omega
  | outOfStep hat hplan =>
    obtain ⟨hcall, hsound, hless⟩ := h.next hturn (.notDownloaded i hpc) h.right hread (by
      rw [goto_self]
      exact hplace)
    refine ⟨_, hcall, hsound, hless, Or.inr ⟨mt hstep.mp hat, ?_⟩⟩
    rw [excess, excess, goto_self, hpc, hplan]
    simp only [pending]
    omega

omit hnum in
private theorem advances_addPiece (fresh : Nat → UInt8) (hall : HasEverything tf bf content)
    {p : PieceProgress} (hpc : (d.swarm.workers 0).pc = .addPiece p) :
    Advances fresh bf content tf d 0 := by
  obtain ⟨L, hL⟩ := h.ledger
  have hplace := h.place
  rw [hpc] at hplace
  obtain ⟨hindex, hbuf⟩ := hplace
  have hsize : p.buf.length = d.swarm.df.tf.pieceLength := by
    rw [hbuf, hall.whole _ hindex, hL.torrent]
  have hslot : p.index < d.swarm.df.tf.numPieces := by rwa [hL.torrent]
  obtain ⟨df, hadd⟩ := DownloadedFile.addPiece_isSome fresh hslot (Nat.le_of_eq hsize)
  have hturn : turn fresh bf content d 0 = some (.addPiece, d.peer) := by rw [turn, hpc]
  apply h.calm (by simp [hpc]) hturn (.addPiece p df hpc hadd)
  · obtain ⟨-, -, -, -, hslots⟩ := DownloadedFile.addPiece_eq_some hadd
    intro j buf hj
    change df.piecesBuf[j]? = _ at hj
    rw [hslots, ← hsize, DownloadedFile.copied_full, hbuf, List.getElem?_set] at hj
    split_ifs at hj with hsame
    · rw [hsame] at hj
      exact (Option.some.inj (Option.some.inj hj)).symm
    · exact h.right j buf hj
  · change Place _ _ _ ((d.swarm.goto 0 .isDone).workers 0).pc
    rw [goto_self]
    trivial
  · change ((d.swarm.goto 0 .isDone).workers 0).failedAttempts +
      pending ((d.swarm.goto 0 .isDone).workers 0).pc = _
    rw [goto_self, hpc]
    rfl

private theorem advances_markAsUndone (fresh : Nat → UInt8) (bf : Bitfield) {i : Nat}
    (hpc : (d.swarm.workers 0).pc = .markAsUndone i) : Advances fresh bf content tf d 0 := by
  obtain ⟨L, hL⟩ := h.ledger
  have hplace := h.place
  rw [hpc] at hplace
  have hi : i < d.swarm.pool.numPieces := hL.numPieces ▸ hplace
  obtain ⟨pool, hmark⟩ := (exact_pool hnum h).exists_markAsUndone hi
  have hturn : turn fresh bf content d 0 = some (.markAsUndone, d.peer) := by rw [turn, hpc]
  apply h.calm (by simp [hpc]) hturn (.markAsUndone i pool hpc hmark) h.right
  · change Place _ _ _ ((d.swarm.fail 0).workers 0).pc
    rw [fail_self]
    trivial
  · change ((d.swarm.fail 0).workers 0).failedAttempts +
      pending ((d.swarm.fail 0).workers 0).pc = _
    rw [fail_self, hpc]
    rfl

private theorem sound_step (fresh : Nat → UInt8) (hall : HasEverything tf bf content)
    (hin : ¬ d.swarm.Ended 0) : Advances fresh bf content tf d 0 := by
  cases hpc : (d.swarm.workers 0).pc with
  | isDone => exact advances_isDone hnum h fresh bf hpc
  | getPieceIndex => exact advances_getPieceIndex hnum h fresh bf hpc
  | hasPiece i => exact advances_hasPiece hnum h fresh hall hpc
  | downloadPiece i => exact advances_downloadPiece hnum h fresh hall hpc
  | addPiece p => exact advances_addPiece h fresh hall hpc
  | markAsUndone i => exact advances_markAsUndone hnum h fresh bf hpc
  | left b => exact (hin ⟨b, hpc⟩).elim

end Step

theorem sound_init (tf : TorrentFile) (content : Nat → List UInt8)
    (plan : List (Option OtherMessage)) : Sound tf content ⟨initSwarm 1 tf, ⟨[], plan⟩⟩ := by
  refine ⟨⟨_, consistent_init 1 tf⟩, fun _ => Nat.zero_le _, ?_, by simp, trivial⟩
  intro i buf hbuf
  exact (DownloadedFile.not_stored_init tf i ⟨buf, hbuf⟩).elim

private theorem slots_of_stored (h : Sound tf content d)
    (hst : ∀ i < tf.numPieces, d.swarm.df.Stored i) :
    ∀ i < tf.numPieces, d.swarm.df.piecesBuf[i]? = some (some (content i)) := by
  intro i hi
  obtain ⟨buf, hbuf⟩ := hst i hi
  rw [hbuf, h.right i buf hbuf]

private theorem recovers_of_staysInStep (hall : HasEverything tf bf content)
    (hplan : otherMessages plan < PEER_MAX_FAILS) (hnum : Numbered tf)
    (hstep : StaysInStep fresh bf content tf plan) : Recovers fresh bf content tf plan := by
  have hprogress (d : Dialogue) (h : Sound tf content d ∧ excess d 0 = otherMessages plan ∧
      (dialogue fresh bf content tf plan).Reachable d) (hin : ¬ d.swarm.Ended 0) :
      ∃ (w : Fin 1) (d' : Dialogue), True ∧ nextCall fresh bf content d w = some d' ∧
        (Sound tf content d' ∧ excess d' 0 = otherMessages plan ∧
          (dialogue fresh bf content tf plan).Reachable d') ∧
        toCome 5 callsLeft d'.swarm < toCome 5 callsLeft d.swarm := by
    obtain ⟨hsound, hexcess, hreach⟩ := h
    obtain ⟨d', hcall, hsound', hless, hcase⟩ := sound_step hnum hsound fresh hall hin
    refine ⟨0, d', trivial, hcall, ⟨hsound', ?_, hreach.step hcall⟩, hless⟩
    rcases hcase with ⟨-, hsame⟩ | ⟨hnot, -⟩
    · exact hsame.trans hexcess
    · exact (hnot fun i hi => hstep d 0 i hreach hi).elim
  obtain ⟨as, d, hrun, -, ⟨hsound, hexcess, -⟩, b, hpc⟩ := Machine.exists_run_of_progress
    (M := dialogue fresh bf content tf plan) (G := fun _ _ => True)
    (μ := fun d => toCome 5 callsLeft d.swarm) hprogress
    ⟨sound_init tf content plan, Nat.zero_add _, [], rfl⟩
  refine ⟨as, d, hrun, ?_, slots_of_stored hsound ?_, ?_⟩
  · intro w
    rw [Subsingleton.elim w 0]
    exact ⟨b, hpc⟩
  · have hfit := hsound.fit 0
    have hplace := hsound.place
    rw [excess, hpc] at hexcess
    rw [hpc] at hplace
    cases b with
    | true => exact hplace
    | false =>
      cases hw : d.swarm.workers 0 with
      | mk pc k =>
        rw [hw] at hfit hpc hexcess
        subst hpc
        have hk : k = PEER_MAX_FAILS := hfit
        simp only [pending] at hexcess
        omega
  · intro w
    rw [Subsingleton.elim w 0]
    rw [excess, hpc] at hexcess
    exact Nat.le_of_eq hexcess

theorem nextCall_of_ended (h : ∀ w, d.swarm.Ended w) (w : Fin 1) :
    nextCall fresh bf content d w = none := by
  obtain ⟨b, hb⟩ := h w
  rw [nextCall, turn, hb]
  rfl

private theorem not_ended_of_nextCall (h : nextCall fresh bf content d 0 = some d') :
    ¬ d.swarm.Ended 0 := by
  rintro ⟨b, hb⟩
  rw [nextCall, turn, hb] at h
  cases h

theorem sound_call (hnum : Numbered tf) (hall : HasEverything tf bf content)
    (h : Sound tf content d) (hcall : nextCall fresh bf content d 0 = some d') :
    Sound tf content d' ∧ ((InStepAt tf content d 0 ∧ excess d' 0 = excess d 0) ∨
      (¬ InStepAt tf content d 0 ∧ excess d' 0 = excess d 0 + 1)) := by
  obtain ⟨d'', hcall', hsound, -, hcase⟩ :=
    sound_step hnum h fresh hall (not_ended_of_nextCall hcall)
  rw [hcall] at hcall'
  cases hcall'
  exact ⟨hsound, hcase⟩

private theorem excess_le (hnum : Numbered tf) (hall : HasEverything tf bf content)
    (h : Sound tf content d) {as : List (Fin 1)}
    (hrun : (dialogue fresh bf content tf plan).run d as = some d') :
    Sound tf content d' ∧ excess d 0 ≤ excess d' 0 := by
  refine Machine.run_invariant (P := fun t => Sound tf content t ∧ excess d 0 ≤ excess t 0) ?_
    ⟨h, Nat.le_refl _⟩ hrun
  rintro t w t' ⟨ht, hle⟩ hcall
  obtain rfl : w = 0 := Subsingleton.elim w 0
  obtain ⟨ht', hcase⟩ := sound_call hnum hall ht hcall
  exact ⟨ht', by omega⟩

theorem staysInStep_of_recovers (hnum : Numbered tf) (hall : HasEverything tf bf content)
    (h : Recovers fresh bf content tf plan) : StaysInStep fresh bf content tf plan := by
  intro d w i hreach hpc
  obtain rfl : w = 0 := Subsingleton.elim w 0
  by_contra hnot
  obtain ⟨as, has⟩ := hreach
  obtain ⟨es, e, hrun, hend, -, hfew⟩ := h
  obtain ⟨hsound, hfirst⟩ := excess_le hnum hall (sound_init tf content plan) has
  have hlast : ∀ w, nextCall fresh bf content e w = none := nextCall_of_ended hend
  obtain ⟨b, hb⟩ := hend 0
  obtain ⟨cs, hcs⟩ := Machine.exists_run_to_end hlast has hrun
  cases cs with
  | nil =>
    cases hcs
    rw [hpc] at hb
    cases hb
  | cons c cs =>
    obtain ⟨d', hcall, hrest⟩ := Machine.run_cons hcs
    obtain rfl : c = 0 := Subsingleton.elim c 0
    obtain ⟨hsound', ⟨hat, -⟩ | ⟨-, hmore⟩⟩ := sound_call hnum hall hsound hcall
    · exact hnot (hat i hpc)
    · have hle := (excess_le hnum hall hsound' hrest).2
      have hstart : excess ⟨initSwarm 1 tf, ⟨[], plan⟩⟩ 0 = otherMessages plan := Nat.zero_add _
      have hfinal : excess e 0 =
          (e.swarm.workers 0).failedAttempts + otherMessages e.peer.plan := by
        rw [excess, hb]
        rfl
      have hbudget := hfew 0
      omega

private def Small (tf : TorrentFile) (i : Nat) : Prop := i < 2 ^ 31 ∧ tf.pieceLength ≤ 2 ^ 31

theorem HasEverything.numBlocks_mul (hall : HasEverything tf bf content) :
    numBlocks tf.pieceLength * BLOCK_SIZE = tf.pieceLength := by
  rw [numBlocks_eq hall.size, Nat.mod_eq_zero_of_dvd hall.blocks, Nat.add_zero,
    Nat.div_mul_cancel hall.blocks]

theorem HasEverything.numBlocks_pos (hall : HasEverything tf bf content) :
    0 < numBlocks tf.pieceLength := by
  apply Nat.pos_of_mul_pos_right (b := BLOCK_SIZE)
  rw [hall.numBlocks_mul]
  exact hall.pos

private structure StoresSmall (tf : TorrentFile) (d : Dialogue) : Prop where
  ledger : ∃ L, Consistent tf d.swarm L
  stored : ∀ i, d.swarm.df.Stored i → Small tf i
  adding : ∀ p, (d.swarm.workers 0).pc = .addPiece p → Small tf p.index

private theorem small_of_downloaded (hall : HasEverything tf bf content)
    {L : Ledger Nat (Fin 1)} (hL : Consistent tf d.swarm L) {p : PieceProgress}
    (hx : d.swarm.pool.Exact) (hpc : (d.swarm.workers 0).pc = .downloadPiece p.index)
    (hturn : turn fresh bf content d 0 = some (.downloadPiece (some p), peer)) :
    Small tf p.index := by
  have hindex : p.index < 2 ^ 63 := by
    have hheld : d.swarm.Holds 0 p.index := by
      rw [Holds, hpc]
      rfl
    unfold PiecesPool.Exact at hx
    rw [hL.numPieces] at hx
    rcases hL.pastEnd 0 p.index hheld with hlt | heq <;> omega
  simp only [turn, hpc] at hturn
  obtain ⟨⟨ok, q, peer'⟩, hattempt, heq⟩ := Option.bind_eq_some_iff.mp hturn
  cases ok with
  | false => cases heq
  | true =>
    cases heq
    rw [hL.torrent] at hattempt
    obtain ⟨-, hlt, hle⟩ := attempt_eq_true hindex hall.numBlocks_pos hattempt
    refine ⟨hlt, ?_⟩
    rw [← hall.numBlocks_mul]
    exact (Nat.mul_le_mul_right BLOCK_SIZE hle).trans (by decide)

private theorem storesSmall_call {w : Fin 1} (hall : HasEverything tf bf content)
    (h : StoresSmall tf d) (hcall : nextCall fresh bf content d w = some d') :
    StoresSmall tf d' := by
  obtain rfl : w = 0 := Subsingleton.elim w 0
  obtain ⟨L, hL⟩ := h.ledger
  obtain ⟨action, hturn, hm⟩ := moves_of_nextCall hcall
  obtain ⟨L', -, hL'⟩ := hL.step (step_of_moves hm)
  have hx := hL.exact_of_moves hm
  obtain ⟨s, peer⟩ := d'
  change Moves fresh d.swarm 0 action s at hm
  refine ⟨⟨L', hL'⟩, ?_, ?_⟩
  · intro i hi
    cases hm with
    | addPiece p df hpc hadd =>
      rcases (DownloadedFile.stored_addPiece hadd i).mp hi with rfl | hold
      · exact h.adding p hpc
      · exact h.stored i hold
    | _ => exact h.stored i hi
  · intro q hq
    obtain ⟨rfl, hpc⟩ := hm.downloaded_of_pc hq
    exact small_of_downloaded hall hL hx hpc hturn

theorem numbered_of_recovers (hall : HasEverything tf bf content)
    (h : Recovers fresh bf content tf plan) : Numbered tf := by
  obtain ⟨as, d, hrun, -, hwhole, -⟩ := h
  have hsmall := Machine.run_invariant (P := StoresSmall tf)
    (fun t _ t' ht hcall => storesSmall_call hall ht hcall) ?_ hrun
  · intro i hi
    exact hsmall.stored i ⟨content i, hwhole i hi⟩
  · refine ⟨⟨_, consistent_init 1 tf⟩, ?_, ?_⟩
    · intro i hi
      exact (DownloadedFile.not_stored_init tf i hi).elim
    · intro p hp
      cases hp

theorem peer_of_turn {w : Fin 1} (hdown : ∀ i, (d.swarm.workers w).pc ≠ .downloadPiece i)
    (h : turn fresh bf content d w = some (action, peer)) : peer = d.peer := by
  cases hpc : (d.swarm.workers w).pc with
  | downloadPiece i => exact (hdown i hpc).elim
  | hasPiece i =>
    simp only [turn, hpc] at h
    obtain ⟨answer, -, heq⟩ := Option.bind_eq_some_iff.mp h
    cases heq
    rfl
  | isDone | getPieceIndex | addPiece p | markAsUndone i =>
    simp only [turn, hpc] at h
    cases h
    rfl
  | left b =>
    simp only [turn, hpc] at h
    cases h

theorem exists_after_of_nextCall {w : Fin 1}
    (h : nextCall fresh bf content d w = some d') :
    ∃ requests, d'.peer = d.peer.after content requests := by
  obtain ⟨action, hturn, -⟩ := moves_of_nextCall h
  by_cases hdown : ∃ i, (d.swarm.workers w).pc = .downloadPiece i
  · obtain ⟨i, hpc⟩ := hdown
    simp only [turn, hpc] at hturn
    obtain ⟨⟨ok, p, peer⟩, hattempt, heq⟩ := Option.bind_eq_some_iff.mp hturn
    cases heq
    exact exists_after_of_attempt hattempt
  · exact ⟨[], peer_of_turn (not_exists.mp hdown) hturn⟩

/-- Whatever a peer that has everything sends between its replies, a worker alone stores all
pieces at the cost of one failed attempt for each such message exactly when all its attempts
are in step, and the numbers of the pieces can be read back. -/
theorem recovers_iff_staysInStep (fresh : Nat → UInt8) (bf : Bitfield)
    (content : Nat → List UInt8) (tf : TorrentFile) (plan : List (Option OtherMessage))
    (hall : HasEverything tf bf content) (hplan : otherMessages plan < PEER_MAX_FAILS) :
    Recovers fresh bf content tf plan ↔
      Numbered tf ∧ StaysInStep fresh bf content tf plan := by
  constructor
  · intro h
    have hnum := numbered_of_recovers hall h
    exact ⟨hnum, staysInStep_of_recovers hnum hall h⟩
  · rintro ⟨hnum, hstep⟩
    exact recovers_of_staysInStep hall hplan hnum hstep

end BitTorrentBits.Swarm
