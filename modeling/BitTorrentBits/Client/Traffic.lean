import BitTorrentBits.Client.Completion
import BitTorrentBits.Client.Conversation

/-!
# What a download sends

Every thread introduces itself once, and each attempt for a piece asks for each of its blocks
once. Attempts that succeed use up a missing piece and the others a failure, so all threads
together send no more than so many bytes.
-/

namespace BitTorrentBits

open Bencode PieceProgress Message

/-- The bytes of an `Interested` message on the wire. -/
def INTERESTED_LEN : Nat := 5

def Link.bytesSent (l : Link) : Nat := l.sent.flatten.length

def Stage.bytesSent (stage : Stage) : Nat := stage.link.elim 0 Link.bytesSent

/-- The bytes that a thread has still to send before its loop. -/
def Stage.toSend : Stage → Nat
  | .initConn | .handshake _ => HANDSHAKE_LEN + INTERESTED_LEN
  | .bitfield _ | .interested _ _ => INTERESTED_LEN
  | .state _ _ | .downloading _ _ | .returned _ => 0

/-- The bytes of the requests for the blocks of a piece. -/
def attemptBytes (tf : TorrentFile) : Nat := Link.REQUEST_LEN * numBlocks tf.pieceLength

variable {fresh : Stale} {junk junk' : Nat → UInt8} {network : Network} {tf : TorrentFile}
  {p : TrackerResponse.Peer}
  {c c' : Link} {peerBf : Bitfield} {stage stage' : Stage} {pc : Pc} {ok : Bool}

theorem Link.bytesSent_sendData {buf : List UInt8} (h : c.sendData buf = some (ok, c')) :
    c'.bytesSent ≤ c.bytesSent + buf.length := by
  rcases Link.sendData_cases h with ⟨-, rfl, -⟩ | ⟨o, -, -, -, -, hsent⟩
  · exact Nat.le_add_right _ _
  · rw [bytesSent, hsent, List.flatten_append, List.flatten_singleton, List.length_append]
    exact Nat.add_le_add_left (List.take_prefix _ _).length_le _

theorem length_flatten_le_of_prefixes {chunks texts : List (List UInt8)}
    (h : List.Forall₂ (· <+: ·) chunks texts) : chunks.flatten.length ≤ texts.flatten.length := by
  induction h with
  | nil => exact Nat.le_refl _
  | cons hprefix _ ih =>
    rw [List.flatten_cons, List.flatten_cons, List.length_append, List.length_append]
    exact Nat.add_le_add hprefix.length_le ih

theorem length_requests (index k count : Nat) :
    ((requestsFrom index k count).map wire).flatten.length = Link.REQUEST_LEN * count := by
  induction count generalizing k with
  | zero => rfl
  | succ count ih =>
    rw [requestsFrom_succ, List.map_cons, List.flatten_cons, List.length_append, ih (k + 1),
      Link.requestMsg_wire_length, Nat.mul_succ, Nat.add_comm]

theorem Link.bytesSent_downloadPiece {i : Nat} {q : PieceProgress}
    (h : c.downloadPiece junk' (initPieceProgress i tf.pieceLength junk) = some (ok, q, c')) :
    c'.bytesSent ≤ c.bytesSent + attemptBytes tf := by
  rw [Link.downloadPiece, initPieceProgress_size] at h
  obtain ⟨replies, chunks, _, hplayed, hlen, -⟩ := Link.exists_played h
  have hbytes := length_flatten_le_of_prefixes hplayed.requests
  rw [length_requests] at hbytes
  rw [bytesSent, hplayed.sent, List.flatten_append, List.length_append]
  have hall : Link.REQUEST_LEN * chunks.length ≤ attemptBytes tf :=
    Nat.mul_le_mul_left _ (hlen.trans (Nat.sub_le _ _))
  exact Nat.add_le_add_left (hbytes.trans hall) _

theorem bytesSent_setUp (h : setUp fresh network tf p stage = some stage') :
    stage'.bytesSent + stage'.toSend ≤ stage.bytesSent + stage.toSend := by
  cases moves_of_setUp h with
  | notConnected _ => exact Nat.zero_le _
  | connected _ => exact Nat.le_refl _
  | @notShaken c c₁ infoHash _ _ _ hsend _ =>
    have hbytes := Link.bytesSent_sendData hsend
    rw [Conn.sent_length] at hbytes
    change c₁.bytesSent + 0 ≤ c.bytesSent + (HANDSHAKE_LEN + INTERESTED_LEN)
    omega
  | @shaken c c₁ infoHash _ _ hsend _ =>
    have hbytes := Link.bytesSent_sendData hsend
    rw [Conn.sent_length] at hbytes
    change c₁.bytesSent + INTERESTED_LEN ≤ c.bytesSent + (HANDSHAKE_LEN + INTERESTED_LEN)
    omega
  | notShown _ _ => exact Nat.add_le_add_left (Nat.zero_le _) _
  | shown _ _ => exact Nat.le_refl _
  | notInterested hsend | interested hsend =>
    have hbytes := Link.bytesSent_sendData hsend
    rw [wire_length] at hbytes
    exact hbytes
  | notUnchoked _ _ | unchoked _ _ => exact Nat.le_refl _

/-- Only an attempt for a piece sends anything in the loop. -/
def Pc.attempts : Pc → Nat
  | .downloadPiece _ => 1
  | _ => 0

theorem Link.bytesSent_loopCall {action : Action}
    (h : loopCall fresh tf c peerBf pc = some (action, c')) :
    c'.bytesSent ≤ c.bytesSent + attemptBytes tf * pc.attempts := by
  cases pc with
  | downloadPiece i =>
    obtain ⟨⟨ok, q, c₁⟩, hdown, h⟩ := Option.bind_eq_some_iff.mp h
    cases h
    rw [Pc.attempts, Nat.mul_one]
    exact Link.bytesSent_downloadPiece hdown
  | hasPiece i =>
    obtain ⟨answer, _, h⟩ := Option.bind_eq_some_iff.mp h
    cases h
    exact Nat.le_refl _
  | left d => contradiction
  | _ =>
    cases h
    exact Nat.le_refl _

namespace Swarm

variable {W : Nat} {s s' : Swarm W} {L : Ledger Nat (Fin W)} {w : Fin W} {action : Action}

def attemptsLeft (x : Worker) : Nat :=
  match x.pc with
  | .addPiece _ | .markAsUndone _ => PEER_MAX_FAILS - x.failedAttempts - 1
  | _ => PEER_MAX_FAILS - x.failedAttempts

theorem Moves.spends (hL : Consistent tf s L) (hfit : ∀ v, AttemptsFit (s.workers v))
    (hm : Moves junk s w action s') : ∃ y stored, s'.workers = Function.update s.workers w y ∧
      attemptsLeft y + (s.workers w).pc.attempts ≤ attemptsLeft (s.workers w) + stored ∧
      s'.df.numMissing + stored = s.df.numMissing := by
  have hw := hfit w
  cases hx : s.workers w with
  | mk pc k =>
    rw [hx] at hw
    have hk : (s.workers w).failedAttempts = k := by rw [hx]
    have hpc' : (s.workers w).pc = pc := by rw [hx]
    cases hm with
    | isDone d hpc _ =>
      rw [hpc'] at hpc
      subst hpc
      refine ⟨_, 0, rfl, ?_, rfl⟩
      rw [hk, loopTest]
      split_ifs <;> exact Nat.le_refl _
    | getPieceIndex _ _ hpc _ =>
      rw [hpc'] at hpc
      subst hpc
      refine ⟨_, 0, rfl, ?_, rfl⟩
      rw [hk]
      exact Nat.le_refl _
    | hasPiece i answer hpc =>
      rw [hpc'] at hpc
      subst hpc
      refine ⟨_, 0, rfl, ?_, rfl⟩
      rw [hk]
      cases answer with
      | false => exact Nat.sub_le _ 1
      | true => exact Nat.le_refl _
    | downloaded _ hpc _ | notDownloaded _ hpc =>
      rw [hpc'] at hpc
      subst hpc
      refine ⟨_, 0, rfl, ?_, rfl⟩
      rw [hk]
      exact Nat.le_of_eq (Nat.sub_add_cancel (Nat.sub_pos_of_lt hw))
    | addPiece q df hpc hadd =>
      have hmissing : ¬ s.df.Stored q.index := by
        apply hL.not_stored_of_holds (w := w)
        rw [Holds, hpc]
        rfl
      rw [hpc'] at hpc
      subst hpc
      refine ⟨_, 1, rfl, ?_, numMissing_addPiece hadd hmissing⟩
      rw [hk]
      exact Nat.le_of_eq (Nat.sub_add_cancel (Nat.sub_pos_of_lt hw)).symm
    | markAsUndone i pool hpc _ =>
      rw [hpc'] at hpc
      subst hpc
      refine ⟨_, 0, rfl, ?_, rfl⟩
      rw [hk]
      exact Nat.le_refl _

theorem attempts_add_toCome_le (hL : Consistent tf s L) (hfit : ∀ v, AttemptsFit (s.workers v))
    (hm : Moves junk s w action s') :
    toCome 1 attemptsLeft s' + (s.workers w).pc.attempts ≤ toCome 1 attemptsLeft s := by
  obtain ⟨y, stored, hworkers, hspends, hmissing⟩ := hm.spends hL hfit
  have hsum := sum_update_add attemptsLeft s.workers w y
  rw [toCome, toCome, hworkers, ← hmissing]
  omega

theorem toCome_init (W : Nat) (tf : TorrentFile) :
    toCome 1 attemptsLeft (initSwarm W tf) = tf.numPieces + PEER_MAX_FAILS * W := by
  have hfirst : attemptsLeft ⟨.isDone, 0⟩ = PEER_MAX_FAILS := rfl
  simp only [toCome, initSwarm, numMissing_init, hfirst, Finset.sum_const, Finset.card_univ,
    Fintype.card_fin, smul_eq_mul, Nat.one_mul]
  rw [Nat.mul_comm]

end Swarm

namespace Client

variable {W : Nat} {network : Fin W → Network} {peers : Fin W → TrackerResponse.Peer}
  {s s' : Client W} {w : Fin W}

def bytesSent (s : Client W) : Nat := ∑ w, (s.threads w).stage.bytesSent

/-- The bytes that all threads have sent, with a bound on those that are still to come. -/
def bytesBound (tf : TorrentFile) (s : Client W) : Nat :=
  ∑ w, ((s.threads w).stage.bytesSent + (s.threads w).stage.toSend) +
    attemptBytes tf * Swarm.toCome 1 Swarm.attemptsLeft s.swarm

theorem bytesBound_init (tf : TorrentFile) (peers : Fin W → TrackerResponse.Peer) :
    bytesBound tf (initClient tf peers) = (HANDSHAKE_LEN + INTERESTED_LEN) * W +
      attemptBytes tf * (tf.numPieces + PEER_MAX_FAILS * W) := by
  have hfirst : Stage.initConn.bytesSent + Stage.initConn.toSend = HANDSHAKE_LEN + INTERESTED_LEN :=
    rfl
  simp only [bytesBound, initClient, hfirst, Swarm.toCome_init, Finset.sum_const, Finset.card_univ,
    Fintype.card_fin, smul_eq_mul]
  rw [Nat.mul_comm W]

theorem bytesBound_le {L : Ledger Nat (Fin W)} (hL : Swarm.Consistent tf s.swarm L)
    (hfit : ∀ v, Swarm.AttemptsFit (s.swarm.workers v)) (hm : Moves fresh network tf s w s') :
    bytesBound tf s' ≤ bytesBound tf s := by
  unfold bytesBound
  cases hm with
  | @setUp stage hsetUp =>
    have hstage := bytesSent_setUp hsetUp
    have hsum := s.sum_enter (fun stage => stage.bytesSent + stage.toSend) w stage
    change _ + attemptBytes tf * Swarm.toCome 1 Swarm.attemptsLeft s.swarm ≤ _
    omega
  | @call c c' peerBf action swarm hstage hcall hcalled =>
    have hbytes := Link.bytesSent_loopCall hcall
    have hcome := Swarm.attempts_add_toCome_le hL hfit (Swarm.moves_of_step hcalled)
    have hscaled := Nat.mul_le_mul_left (attemptBytes tf) hcome
    rw [Nat.mul_add] at hscaled
    have hsum := s.sum_enter (fun stage => stage.bytesSent + stage.toSend) w (.downloading c' peerBf)
    have hbefore : (s.threads w).stage.bytesSent + (s.threads w).stage.toSend = c.bytesSent := by
      rw [hstage]
      rfl
    have hafter : (Stage.downloading c' peerBf).bytesSent + (Stage.downloading c' peerBf).toSend =
      c'.bytesSent := rfl
    change (∑ v, (((s.enter w (.downloading c' peerBf)).threads v).stage.bytesSent +
      ((s.enter w (.downloading c' peerBf)).threads v).stage.toSend)) +
        attemptBytes tf * Swarm.toCome 1 Swarm.attemptsLeft swarm ≤ _
    omega
  | @succeed c peerBf d hstage hpc =>
    have hsum := s.sum_succeed (fun stage => stage.bytesSent + stage.toSend) w c
    have hbefore : (s.threads w).stage.bytesSent + (s.threads w).stage.toSend = c.bytesSent := by
      rw [hstage]
      rfl
    have hafter : (Stage.returned (some c)).bytesSent + (Stage.returned (some c)).toSend =
      c.bytesSent := rfl
    change _ + attemptBytes tf * Swarm.toCome 1 Swarm.attemptsLeft s.swarm ≤ _
    omega

/-- Whatever the peers send and in whatever order the threads run: all threads together send no
more bytes than an introduction for each of them, and the requests for the blocks of a piece for
each piece and for each attempt that may fail. -/
theorem bytesSent_le (h : (client network tf peers).Reachable s) :
    s.bytesSent ≤ (HANDSHAKE_LEN + INTERESTED_LEN) * W +
      attemptBytes tf * (tf.numPieces + PEER_MAX_FAILS * W) := by
  have hall := h.invariant
    (P := fun s => (client network tf peers).Reachable s ∧
      bytesBound tf s ≤ bytesBound tf (initClient tf peers))
    ⟨⟨[], rfl⟩, Nat.le_refl _⟩ fun s label s' ⟨hreach, hs⟩ hstep => by
      obtain ⟨L, hL⟩ := exists_consistent hreach
      exact ⟨hreach.step hstep,
        (bytesBound_le hL (reachable_attemptsFit hreach)
          (moves_of_step hstep)).trans hs⟩
  have hbound := hall.2
  rw [bytesBound_init] at hbound
  have hsent : s.bytesSent ≤ bytesBound tf s :=
    (Finset.sum_le_sum fun w _ => Nat.le_add_right _ _).trans (Nat.le_add_right _ _)
  exact hsent.trans hbound

theorem bytesSent_le_one : ∃ s, oneByteSteps 12 = some s ∧ s.bytesSent = 90 ∧
    s.bytesSent ≤ (HANDSHAKE_LEN + INTERESTED_LEN) * 1 +
      attemptBytes oneByteTorrent * (1 + PEER_MAX_FAILS * 1) := by
  obtain ⟨s, hs, hend⟩ : ∃ s, oneByteSteps 12 = some s ∧ decide (s.bytesSent = 90) = true :=
    (Option.any_eq_true _ _).mp (by decide +kernel)
  exact ⟨s, hs, of_decide_eq_true hend, bytesSent_le ⟨_, hs⟩⟩

end Client

end BitTorrentBits
