import BitTorrentBits.Client.Provenance
import BitTorrentBits.Pieces.Crashes
import BitTorrentBits.Swarm.GivenBack

/-!
# Where a thread ends the process

A send on a closed connection raises SIGPIPE. A reply to the handshake whose first byte is 68 or
more, a bitfield without the bit that is looked at, a block that does not fit its piece and a piece
past the end lead a thread outside the memory it is given. Besides a torrent without an info hash
nothing else does.
-/

namespace BitTorrentBits

open Bencode PieceProgress Message

/-- The next call of the loop is an access outside the memory, or comes to a send that raises
SIGPIPE. -/
def CallCrashes (tf : TorrentFile) (c : Link) (peerBf : Bitfield) : Pc → Prop
  | .hasPiece i => peerBf.length ≤ i / 8
  | .downloadPiece i => c.Crashes i tf.pieceLength (numBlocks tf.pieceLength) 0
  | .addPiece q => q.index = tf.numPieces + 1
  | _ => False

/-- The next part of the function is an access outside the memory, or a send that raises SIGPIPE. -/
def Crashes (tf : TorrentFile) (pc : Pc) : Stage → Prop
  | .handshake c => infoHashOf tf = none ∨ c.Breaks ∨
      (∃ o, c.sends.head? = some o ∧ o.sendsAll HANDSHAKE_LEN = true) ∧
        ∃ b, c.conn.pending.head?.bind List.head? = some b ∧ HANDSHAKE_LEN ≤ b.toNat
  | .interested c _ => c.Breaks
  | .downloading c peerBf => CallCrashes tf c peerBf pc
  | _ => False

variable {fresh : Stale} {network : Network} {tf : TorrentFile} {p : TrackerResponse.Peer}
  {peerBf : Bitfield} {c c' : Link} {stage stage' : Stage} {pc : Pc} {i : Nat}

private theorem exists_handshake {infoHash : List.Vector UInt8 BT_HASH_LENGTH}
    (hhash : infoHashOf tf = some infoHash) (hnot : ¬ Crashes tf pc (.handshake c)) :
    ∃ stage', SetUpMoves fresh network tf p (.handshake c) stage' := by
  cases hsend : c.sendData (HandshakeMsg.initHandshakeMsg infoHash MY_PEER_ID).encodeHandshakeMsg with
  | none => exact (hnot (Or.inr (Or.inl (Link.sendData_eq_none.mp hsend)))).elim
  | some r =>
    obtain ⟨sent, c₁⟩ := r
    cases hperform : performHandshake (fresh 0) (fresh 1) infoHash sent c₁.conn with
    | none =>
      obtain ⟨rfl, hlong⟩ :=
        (performHandshake_eq_none_iff (fresh 0) (fresh 1) infoHash sent c₁.conn).mp hperform
      rcases Link.sendData_cases hsend with ⟨hfalse, -⟩ | ⟨o, hsends, -, ho, hconn, -⟩
      · cases hfalse
      · rw [Conn.sent_length] at ho
        rw [hconn] at hlong
        have hhead : c.sends.head? = some o := by rw [hsends, List.head?_cons]
        exact (hnot (Or.inr (Or.inr ⟨⟨o, hhead, ho⟩, hlong⟩))).elim
    | some r =>
      obtain ⟨ok, conn⟩ := r
      cases ok with
      | false => exact ⟨_, .notShaken hhash hsend hperform⟩
      | true =>
        cases sent with
        | false => cases hperform
        | true => exact ⟨_, .shaken hhash hsend hperform⟩

theorem exists_setUp (hnot : ¬ Crashes tf pc stage) (hin : stage.hasReturned = false)
    (hout : ∀ c peerBf, stage ≠ .downloading c peerBf) :
    ∃ stage', SetUpMoves fresh network tf p stage stage' := by
  cases stage with
  | initConn =>
    cases hstart : network p.addrText (decimal p.port.toNat) with
    | none => exact ⟨_, .notConnected hstart⟩
    | some r => exact ⟨_, .connected hstart⟩
  | handshake c =>
    obtain ⟨infoHash, hhash⟩ := Option.ne_none_iff_exists'.mp fun hnone => hnot (Or.inl hnone)
    exact exists_handshake hhash hnot
  | bitfield c =>
    obtain ⟨reply, conn, hread⟩ := exists_read c.conn
    by_cases hid : ∃ m, reply = some m ∧ m.id = MSG_ID_BITFIELD
    · obtain ⟨m, rfl, hid⟩ := hid
      exact ⟨_, .shown (hread _) hid⟩
    · exact ⟨_, .notShown (hread _) fun m hm hbitfield => hid ⟨m, hm, hbitfield⟩⟩
  | interested c peerBf =>
    cases hsend : c.sendData (wire ⟨MSG_ID_INTERESTED, []⟩) with
    | none => exact (hnot (Link.sendData_eq_none.mp hsend)).elim
    | some r =>
      obtain ⟨ok, c₁⟩ := r
      cases ok with
      | false => exact ⟨_, .notInterested hsend⟩
      | true => exact ⟨_, .interested hsend⟩
  | state c peerBf =>
    obtain ⟨reply, conn, hread⟩ := exists_read c.conn
    by_cases hid : ∃ m, reply = some m ∧ m.id = MSG_ID_UNCHOKE
    · obtain ⟨m, rfl, hid⟩ := hid
      exact ⟨_, .unchoked (hread _) hid⟩
    · exact ⟨_, .notUnchoked (hread _) fun m hm hunchoke => hid ⟨m, hm, hunchoke⟩⟩
  | downloading c peerBf => exact (hout c peerBf rfl).elim
  | returned c => cases hin

private theorem not_crashes_of_handshake {c₁ : Link} {infoHash : List.Vector UInt8 BT_HASH_LENGTH}
    {sent ok : Bool} {conn : Conn} (hhash : infoHashOf tf = some infoHash)
    (hsend : c.sendData (HandshakeMsg.initHandshakeMsg infoHash MY_PEER_ID).encodeHandshakeMsg =
      some (sent, c₁))
    (hperform : performHandshake (fresh 0) (fresh 1) infoHash sent c₁.conn = some (ok, conn)) :
    ¬ Crashes tf pc (.handshake c) := by
  rintro (hnone | hbreaks | ⟨⟨o, hhead, ho⟩, hlong⟩)
  · rw [hnone] at hhash
    cases hhash
  · rw [Link.sendData_eq_none.mpr hbreaks] at hsend
    cases hsend
  · rcases Link.sendData_cases hsend with ⟨-, -, hnil⟩ | ⟨o', hsends, -, hsent, hconn, -⟩
    · rw [hnil] at hhead
      cases hhead
    · rw [hsends, List.head?_cons, Option.some.injEq] at hhead
      rw [Conn.sent_length, hhead, ho] at hsent
      rw [← hconn] at hlong
      rw [(performHandshake_eq_none_iff (fresh 0) (fresh 1) infoHash sent c₁.conn).mpr
        ⟨hsent.symm, hlong⟩] at hperform
      cases hperform

theorem not_crashes_of_setUp (h : SetUpMoves fresh network tf p stage stage') :
    ¬ Crashes tf pc stage := by
  cases h with
  | notShaken hhash hsend hperform | shaken hhash hsend hperform =>
    exact not_crashes_of_handshake hhash hsend hperform
  | notInterested hsend | interested hsend =>
    intro hbreaks
    rw [Link.sendData_eq_none.mpr hbreaks] at hsend
    cases hsend
  | _ => exact id

namespace Client

variable {W : Nat} {network : Fin W → Network} {peers : Fin W → TrackerResponse.Peer}
  {s s' : Client W} {w : Fin W}

theorem exact_of_reachable (hn : tf.numPieces + 1 < 2 ^ 34)
    (h : (client network tf peers).Reachable s) : s.swarm.pool.Exact := by
  obtain ⟨L, hL⟩ := exists_consistent h
  rw [PiecesPool.Exact, hL.numPieces]
  omega

theorem index_of_holds (h : (client network tf peers).Reachable s)
    (hholds : s.swarm.Holds w i) : i < tf.numPieces ∨ i = tf.numPieces + 1 := by
  obtain ⟨L, hL⟩ := exists_consistent h
  exact hL.pastEnd w i hholds

theorem hasPiece_isSome_iff (hn : tf.numPieces + 1 < 2 ^ 34)
    (h : (client network tf peers).Reachable s)
    (hpc : (s.swarm.workers w).pc = .hasPiece i) (peerBf : Bitfield) :
    (peerBf.hasPiece i).isSome ↔ i / 8 < peerBf.length := by
  have hi := index_of_holds h (w := w) (i := i) (by rw [Swarm.Holds, hpc]; rfl)
  exact peerBf.hasPiece_isSome_iff (by omega)

private theorem exists_downloaded (h : (client network tf peers).Reachable s)
    (htalks : Talks (network w) tf (peers w) peerBf c)
    (hpc : (s.swarm.workers w).pc = .downloadPiece i) (hbit : peerBf.hasPiece i = some true)
    (hnot : ¬ CallCrashes tf c peerBf (.downloadPiece i)) : ∃ action c' swarm,
      loopCall fresh tf c peerBf (.downloadPiece i) = some (action, c') ∧
        Swarm.Moves (fresh 0) s.swarm w action swarm := by
  obtain ⟨L, hL⟩ := exists_consistent h
  rw [CallCrashes, ← Link.downloadPiece_eq_none_iff (fresh 0)] at hnot
  obtain ⟨⟨ok, q, c'⟩, hdown⟩ := Option.ne_none_iff_exists'.mp hnot
  have hcall : loopCall fresh tf c peerBf (.downloadPiece i) =
      some (.downloadPiece (if ok then some q else none), c') := by
    rw [loopCall, hdown]
    rfl
  cases ok with
  | false => exact ⟨_, c', _, hcall, .notDownloaded i hpc⟩
  | true =>
    have hsent := (talks_downloadPiece htalks hbit hdown).2 rfl
    obtain ⟨_, _, _, _, _, rfl⟩ := Link.exists_answers hdown
    exact ⟨_, c', _, hcall, .downloaded q hpc (hsent.length.trans (congrArg _ hL.torrent.symm))⟩

private theorem exists_call (hn : tf.numPieces + 1 < 2 ^ 34)
    (h : (client network tf peers).Reachable s)
    (hstage : (s.threads w).stage = .downloading c peerBf) (hin : ¬ s.swarm.Ended w)
    (hnot : ¬ CallCrashes tf c peerBf (s.swarm.workers w).pc) :
    ∃ action c' swarm, loopCall fresh tf c peerBf (s.swarm.workers w).pc = some (action, c') ∧
      Swarm.Moves (fresh 0) s.swarm w action swarm := by
  have hstands := (reachable_settled h w).2
  rw [hstage] at hstands
  obtain ⟨htalks, hat⟩ := hstands
  have hx := exact_of_reachable hn h
  cases hpc : (s.swarm.workers w).pc with
  | isDone => exact ⟨_, _, _, rfl, .isDone _ hpc (PiecesPool.isDone_eq hx)⟩
  | getPieceIndex =>
    obtain ⟨i, pool, hget, -⟩ := PiecesPool.getPieceIndex_spec hx
    exact ⟨_, _, _, rfl, .getPieceIndex i pool hpc hget⟩
  | hasPiece i =>
    rw [hpc, CallCrashes, Nat.not_le, ← hasPiece_isSome_iff hn h hpc, Option.isSome_iff_exists] at hnot
    obtain ⟨answer, hanswer⟩ := hnot
    exact ⟨_, _, _, by rw [loopCall, hanswer]; rfl, .hasPiece i answer hpc⟩
  | downloadPiece i =>
    rw [hpc] at hat hnot
    exact exists_downloaded h htalks hpc hat hnot
  | addPiece q =>
    rw [hpc] at hat hnot
    obtain ⟨L, hL⟩ := exists_consistent h
    have hi : q.index < tf.numPieces :=
      (index_of_holds h (by rw [Swarm.Holds, hpc]; rfl)).resolve_right hnot
    obtain ⟨df, hadd⟩ : ∃ df, s.swarm.df.addPiece (fresh 0) q = some (true, df) :=
      DownloadedFile.addPiece_isSome (fresh 0) (hL.torrent ▸ hi) (hL.torrent ▸ hat.length.le)
    exact ⟨_, _, _, rfl, .addPiece q df hpc hadd⟩
  | markAsUndone i =>
    obtain ⟨pool, hmark⟩ := Swarm.exists_markAsUndone hn (reachable_swarm (fun _ => 0) h) hpc
    exact ⟨_, _, _, rfl, .markAsUndone i pool hpc hmark⟩
  | left d => exact (hin ⟨d, hpc⟩).elim

private theorem not_crashes_of_call {action : Action} {swarm : Swarm W}
    (hn : tf.numPieces + 1 < 2 ^ 34) (h : (client network tf peers).Reachable s)
    (hcall : loopCall fresh tf c peerBf (s.swarm.workers w).pc = some (action, c'))
    (hm : Swarm.Moves (fresh 0) s.swarm w action swarm) :
    ¬ CallCrashes tf c peerBf (s.swarm.workers w).pc := by
  cases hpc : (s.swarm.workers w).pc with
  | hasPiece i =>
    rw [hpc] at hcall
    obtain ⟨answer, hanswer, -⟩ := Option.bind_eq_some_iff.mp hcall
    rw [CallCrashes, Nat.not_le, ← hasPiece_isSome_iff hn h hpc, hanswer]
    rfl
  | downloadPiece i =>
    rw [hpc] at hcall
    obtain ⟨r, hdown, -⟩ := Option.bind_eq_some_iff.mp hcall
    rw [CallCrashes, ← Link.downloadPiece_eq_none_iff (fresh 0), hdown]
    exact Option.some_ne_none r
  | addPiece q =>
    rw [hpc] at hcall
    cases hcall
    obtain ⟨L, hL⟩ := exists_consistent h
    cases hm with
    | addPiece q' df hpc' hadd =>
      rw [hpc] at hpc'
      cases hpc'
      obtain ⟨-, hi, -⟩ := DownloadedFile.addPiece_eq_some hadd
      rw [hL.torrent] at hi
      intro hpast
      rw [CallCrashes] at hpast
      omega
  | _ => exact id

/-- A thread that has not returned takes its next step, unless that ends the process. -/
theorem exists_step (hn : tf.numPieces + 1 < 2 ^ 34)
    (h : (client network tf peers).Reachable s) (hin : ¬ s.Returned w)
    (hnot : ¬ Crashes tf (s.swarm.workers w).pc (s.threads w).stage) (fresh : Stale) :
    ∃ s', step fresh network tf s w = some s' := by
  by_cases hstage : ∃ c peerBf, (s.threads w).stage = .downloading c peerBf
  · obtain ⟨c, peerBf, hstage⟩ := hstage
    by_cases hended : s.swarm.Ended w
    · obtain ⟨d, hpc⟩ := hended
      exact ⟨_, step_of_moves (.succeed hstage hpc)⟩
    · rw [hstage] at hnot
      obtain ⟨action, c', swarm, hcall, hmoves⟩ := exists_call hn h hstage hended hnot
      exact ⟨_, step_of_moves (.call hstage (hcall : loopCall fresh tf c peerBf _ = _)
        (Swarm.step_of_moves hmoves))⟩
  · obtain ⟨stage, hsetUp⟩ := exists_setUp hnot (Bool.eq_false_iff.mpr hin) fun c peerBf heq =>
      hstage ⟨c, peerBf, heq⟩
    exact ⟨_, step_of_moves (.setUp (setUp_of_moves hsetUp))⟩

theorem not_crashes_of_step (hn : tf.numPieces + 1 < 2 ^ 34)
    (h : (client network tf peers).Reachable s) (hstep : step fresh network tf s w = some s') :
    ¬ Crashes tf (s.swarm.workers w).pc (s.threads w).stage := by
  cases moves_of_step hstep with
  | setUp hsetUp => exact not_crashes_of_setUp (moves_of_setUp hsetUp)
  | call hstage hcall hcalled =>
    rw [hstage]
    exact not_crashes_of_call hn h hcall (Swarm.moves_of_step hcalled)
  | succeed hstage hpc =>
    rw [hstage, hpc]
    exact id

/-- In every interleaving, whatever the peers send and whatever the buffers of its step hold: the
next step of a thread that has not returned ends the process exactly when its torrent has no info
hash, when it is a send that raises SIGPIPE, when the reply to its handshake begins with 68 or more,
when its peer's bitfield has no bit for the index it holds, when one of the requests for the blocks
raises SIGPIPE or is answered by a block that does not fit, or when it adds the piece past the
end. -/
theorem stuck_iff_crashes (hn : tf.numPieces + 1 < 2 ^ 34)
    (h : (client network tf peers).Reachable s) (hin : ¬ s.Returned w) (fresh : Stale) :
    step fresh network tf s w = none ↔ Crashes tf (s.swarm.workers w).pc (s.threads w).stage := by
  constructor
  · intro hnone
    by_contra hnot
    obtain ⟨s', hstep⟩ := exists_step hn h hin hnot fresh
    rw [hnone] at hstep
    cases hstep
  · intro hcrash
    rw [Option.eq_none_iff_forall_ne_some]
    intro s' hstep
    exact not_crashes_of_step hn h hstep hcrash

/-- A peer whose first byte is the length of a handshake. -/
def longNetwork : Network := fun _ _ => some (⟨[[68]]⟩, [⟨HANDSHAKE_LEN, true, false⟩])

theorem stuck_iff_crashes_long : ∃ s,
    (client (fun _ : Fin 1 => longNetwork) oneByteTorrent
      fun _ => ⟨6881, ⟨[127, 0, 0, 1], rfl⟩⟩).Reachable s ∧
    ∀ fresh, step fresh (fun _ : Fin 1 => longNetwork) oneByteTorrent s 0 = none := by
  have hconnected : step (fun _ _ => 0) (fun _ : Fin 1 => longNetwork) oneByteTorrent
      (initClient oneByteTorrent fun _ => ⟨6881, ⟨[127, 0, 0, 1], rfl⟩⟩) 0 = some _ :=
    step_of_moves (.setUp (setUp_of_moves (.connected rfl)))
  have hreach : (client (fun _ : Fin 1 => longNetwork) oneByteTorrent
      fun _ => ⟨6881, ⟨[127, 0, 0, 1], rfl⟩⟩).Reachable _ :=
    Machine.Reachable.step (a := (0, fun _ _ => 0)) ⟨[], rfl⟩ hconnected
  exact ⟨_, hreach, fun fresh => (stuck_iff_crashes (w := 0) (by decide) hreach Bool.false_ne_true
    fresh).mpr (Or.inr (Or.inr ⟨⟨_, rfl, by decide⟩, _, rfl, by decide⟩))⟩

end Client

end BitTorrentBits
