import BitTorrentBits.Foundation.Refinement
import BitTorrentBits.Pieces.PieceOverLink
import BitTorrentBits.Swarm.Ownership
import BitTorrentBits.Tracker.PeerAddress
import BitTorrentBits.Wire.PerformHandshake

/-!
# The threads of a download

`download_torrent_thread_fun` from its first call to its return, run by one thread for each
peer. Up to the loop a thread works on its own connection; in the loop it is a worker of the
swarm whose labels are answered by the bytes of that connection. What `connect` gives each
thread for an address and a port is fixed in advance, so that a run is the order in which the
threads take their steps, with what the new buffers of each step happen to hold.
-/

namespace BitTorrentBits

def MSG_ID_UNCHOKE : UInt8 := 1

def MSG_ID_INTERESTED : UInt8 := 2

def MSG_ID_BITFIELD : UInt8 := 5

/-- What `connect` gives for the text of an address and that of a port: the receiving side of a
connection and the outcomes of the sends on it. -/
abbrev Network := List UInt8 → List UInt8 → Option (Conn × List SendOutcome)

/-- What the new buffers of a step happen to hold, by their number in the step. -/
abbrev Stale := Nat → Nat → UInt8

/-- `init_conn`; the outer `none` is an access outside the texts. -/
def initConn (fresh : Nat → UInt8) (network : Network) (peerAddr : List UInt8)
    (p : TrackerResponse.Peer) : Option (Option Link) := do
  let portRepr ← p.portRepr fresh
  return (network (← cString peerAddr) (← cString portRepr)).map fun r => ⟨r.1, r.2, []⟩

/-- Where a thread is in `download_torrent_thread_fun`, with its connection and the bitfield of
its peer once it has them. -/
inductive Stage where
  | initConn
  | handshake (c : Link)
  | bitfield (c : Link)
  | interested (c : Link) (peerBf : Bitfield)
  | state (c : Link) (peerBf : Bitfield)
  | downloading (c : Link) (peerBf : Bitfield)
  | returned (c : Option Link)
  deriving DecidableEq

def Stage.hasReturned : Stage → Bool
  | .returned _ => true
  | _ => false

/-- `thread_data` without the pointers to what the threads share. -/
structure ThreadData where
  p : TrackerResponse.Peer
  ok : Bool
  stage : Stage

/-- One part of the function before its loop; `none` is an access outside the memory, or a send on a
closed connection, which ends the process. -/
def setUp (fresh : Stale) (network : Network) (tf : TorrentFile)
    (p : TrackerResponse.Peer) : Stage → Option Stage
  | .initConn => do
    let peerAddr ← p.peerAddr (fresh 0)
    match ← initConn (fresh 1) network peerAddr p with
    | none => return .returned none
    | some c => return .handshake c
  | .handshake c => do
    let infoHash ← readArray (← tf.infoHash) 0 BT_HASH_LENGTH
    let (sent, c) ← c.sendData (HandshakeMsg.initHandshakeMsg infoHash MY_PEER_ID).encodeHandshakeMsg
    let (ok, conn) ← performHandshake (fresh 0) (fresh 1) infoHash sent c.conn
    return if ok then .bitfield { c with conn := conn } else .returned (some { c with conn := conn })
  | .bitfield c => do
    match ← c.readMessageFromConn (fresh 0) with
    | (none, c) => return .returned (some c)
    | (some bitfieldMsg, c) =>
      if bitfieldMsg.id ≠ MSG_ID_BITFIELD then return .returned (some c)
      let peerBf ← Bitfield.initBitfield bitfieldMsg.payload bitfieldMsg.payloadLen
      return .interested c peerBf
  | .interested c peerBf => do
    let interestedMsg ← Message.initMessage MSG_ID_INTERESTED 0 []
    let (ok, c) ← c.sendMessageToConn interestedMsg
    return if ok then .state c peerBf else .returned (some c)
  | .state c peerBf => do
    match ← c.readMessageFromConn (fresh 0) with
    | (none, c) => return .returned (some c)
    | (some recvMsg, c) =>
      return if recvMsg.id = MSG_ID_UNCHOKE then .downloading c peerBf else .returned (some c)
  | .downloading _ _ | .returned _ => none

/-- The call that the loop makes next, as a label of the swarm, and the connection after it. -/
def loopCall (fresh : Stale) (tf : TorrentFile) (c : Link) (peerBf : Bitfield) :
    Pc → Option (Action × Link)
  | .isDone => some (.isDone, c)
  | .getPieceIndex => some (.getPieceIndex, c)
  | .hasPiece pieceIndex => do return (.hasPiece (← peerBf.hasPiece pieceIndex), c)
  | .downloadPiece pieceIndex => do
    let (ok, pProg, c) ←
      c.downloadPiece (fresh 1) (initPieceProgress pieceIndex tf.pieceLength (fresh 0))
    return (.downloadPiece (if ok then some pProg else none), c)
  | .addPiece _ => some (.addPiece, c)
  | .markAsUndone _ => some (.markAsUndone, c)
  | .left _ => none

/-- The pool and the file with the workers' loops, and the threads they are run by. -/
structure Client (W : Nat) where
  swarm : Swarm W
  threads : Fin W → ThreadData

/-- A thread and its worker stand at the same place of the function. -/
def ThreadData.InStep (t : ThreadData) (x : Worker) : Prop :=
  match t.stage with
  | .downloading _ _ => t.ok = false
  | .returned _ => if t.ok then ∃ d, x.pc = .left d else x = ⟨.isDone, 0⟩
  | _ => t.ok = false ∧ x = ⟨.isDone, 0⟩

namespace Client

variable {W : Nat}

def enter (s : Client W) (w : Fin W) (stage : Stage) : Client W :=
  { s with threads := Function.update s.threads w { s.threads w with stage := stage } }

def succeed (s : Client W) (w : Fin W) (c : Link) : Client W :=
  { s with threads :=
      Function.update s.threads w { s.threads w with ok := true, stage := .returned (some c) } }

/-- The next step of thread `w`. -/
def step (fresh : Stale) (network : Fin W → Network) (tf : TorrentFile) (s : Client W)
    (w : Fin W) : Option (Client W) :=
  match (s.threads w).stage with
  | .downloading c peerBf =>
    match (s.swarm.workers w).pc with
    | .left _ => some (s.succeed w c)
    | pc => do
      let (action, c) ← loopCall fresh tf c peerBf pc
      let swarm ← s.swarm.step (fresh 0) (w, action)
      return { s.enter w (.downloading c peerBf) with swarm := swarm }
  | stage => do return s.enter w (← setUp fresh (network w) tf (s.threads w).p stage)

/-- A thread for each peer before its first call. -/
def initClient (tf : TorrentFile) (peers : Fin W → TrackerResponse.Peer) : Client W where
  swarm := Swarm.initSwarm W tf
  threads := fun w => ⟨peers w, false, .initConn⟩

/-- The threads of `download_torrent` as a machine; a label says which one moves, and what its new
buffers hold. -/
def client (network : Fin W → Network) (tf : TorrentFile) (peers : Fin W → TrackerResponse.Peer) :
    Machine (Client W) (Fin W × Stale) where
  init := initClient tf peers
  step := fun s label => step label.2 network tf s label.1

/-- What a step of thread `w` does: a part of the function before the loop, a call of the loop,
or the end after it. -/
inductive Moves (fresh : Stale) (network : Fin W → Network) (tf : TorrentFile) (s : Client W)
    (w : Fin W) : Client W → Prop where
  | setUp {stage : Stage} (h : setUp fresh (network w) tf (s.threads w).p (s.threads w).stage =
      some stage) : Moves fresh network tf s w (s.enter w stage)
  | call {c c' : Link} {peerBf : Bitfield} {action : Action} {swarm : Swarm W}
      (hstage : (s.threads w).stage = .downloading c peerBf)
      (hcall : loopCall fresh tf c peerBf (s.swarm.workers w).pc = some (action, c'))
      (hstep : s.swarm.step (fresh 0) (w, action) = some swarm) :
      Moves fresh network tf s w { s.enter w (.downloading c' peerBf) with swarm := swarm }
  | succeed {c : Link} {peerBf : Bitfield} {d : Bool}
      (hstage : (s.threads w).stage = .downloading c peerBf)
      (hpc : (s.swarm.workers w).pc = .left d) :
      Moves fresh network tf s w (s.succeed w c)

def Returned (s : Client W) (w : Fin W) : Prop := (s.threads w).stage.hasReturned = true

instance (s : Client W) (w : Fin W) : Decidable (s.Returned w) := inferInstanceAs (Decidable (_ = _))

variable {network : Fin W → Network} {tf : TorrentFile} {peers : Fin W → TrackerResponse.Peer}
  {s s' : Client W} {w : Fin W} {fresh : Stale}

theorem moves_of_step (h : step fresh network tf s w = some s') :
    Moves fresh network tf s w s' := by
  unfold step at h
  split at h
  · rename_i c peerBf hstage
    split at h
    · rename_i d hpc
      cases h
      exact .succeed hstage hpc
    · obtain ⟨⟨action, c'⟩, hcall, h⟩ := Option.bind_eq_some_iff.mp h
      obtain ⟨swarm, hstep, h⟩ := Option.bind_eq_some_iff.mp h
      cases h
      exact .call hstage hcall hstep
  · obtain ⟨stage, hsetUp, h⟩ := Option.bind_eq_some_iff.mp h
    cases h
    exact .setUp hsetUp

theorem step_of_moves (h : Moves fresh network tf s w s') :
    step fresh network tf s w = some s' := by
  cases h with
  | setUp h =>
    unfold step
    split
    · rename_i c peerBf hstage
      rw [hstage] at h
      contradiction
    · rw [h]
      rfl
  | call hstage hcall hstep =>
    unfold step
    split
    · rename_i c peerBf hstage'
      rw [hstage] at hstage'
      cases hstage'
      split
      · rename_i d hpc
        rw [hpc] at hcall
        contradiction
      · rw [hcall]
        simp [hstep]
    · rename_i hnot
      exact (hnot _ _ hstage).elim
  | succeed hstage hpc =>
    unfold step
    rw [hstage]
    simp only [hpc]

theorem reachable_addsWhole (h : (client network tf peers).Reachable s) : s.swarm.AddsWhole := by
  refine h.invariant (P := fun s => s.swarm.AddsWhole) (Swarm.addsWhole_init W tf) ?_
  rintro s ⟨w, fresh⟩ s' hs hstep
  cases moves_of_step hstep with
  | setUp _ | succeed _ _ => exact hs
  | call _ _ hcalled => exact (Swarm.moves_of_step hcalled).addsWhole hs

/-- The loops of the threads are those of the swarm, whatever the buffers of its steps hold. -/
def refinesDownloadLoops (fresh : Nat → UInt8) (network : Fin W → Network) (tf : TorrentFile)
    (peers : Fin W → TrackerResponse.Peer) :
    Refinement (client network tf peers) (Swarm.downloadLoops fresh W tf) where
  proj := swarm
  init := rfl
  step := by
    rintro s ⟨w, stale⟩ s' hreach h
    cases moves_of_step h with
    | setUp _ | succeed _ _ => exact Or.inl rfl
    | @call _ _ _ action _ _ _ hstep =>
      refine Or.inr ⟨(w, action), ?_⟩
      rw [(reachable_addsWhole hreach).step_fresh (stale 0) fresh] at hstep
      exact hstep

theorem reachable_swarm (fresh : Nat → UInt8) (h : (client network tf peers).Reachable s) :
    (Swarm.downloadLoops fresh W tf).Reachable s.swarm :=
  (refinesDownloadLoops fresh network tf peers).reachable h

theorem exists_consistent (h : (client network tf peers).Reachable s) :
    ∃ L, Swarm.Consistent tf s.swarm L :=
  Swarm.reachable_consistent (reachable_swarm (fun _ => 0) h)

theorem enter_self (s : Client W) (w : Fin W) (stage : Stage) :
    (s.enter w stage).threads w = { s.threads w with stage := stage } := by simp [enter]

theorem enter_of_ne (s : Client W) {v w : Fin W} (hv : v ≠ w) (stage : Stage) :
    (s.enter w stage).threads v = s.threads v := by simp [enter, hv]

theorem succeed_self (s : Client W) (w : Fin W) (c : Link) :
    (s.succeed w c).threads w = { s.threads w with ok := true, stage := .returned (some c) } := by
  simp [succeed]

theorem Moves.of_ne (h : Moves fresh network tf s w s') {v : Fin W} (hv : v ≠ w) :
    s'.threads v = s.threads v ∧ s'.swarm.workers v = s.swarm.workers v := by
  cases h with
  | setUp _ => exact ⟨s.enter_of_ne hv _, rfl⟩
  | call _ _ hstep => exact ⟨s.enter_of_ne hv _, (Swarm.moves_of_step hstep).workers_of_ne hv⟩
  | succeed _ _ => exact ⟨by simp [Client.succeed, hv], rfl⟩

theorem begun_of_setUp {t : ThreadData} {x : Worker} {stage : Stage} (h : t.InStep x)
    (hstage : setUp fresh (network w) tf t.p t.stage = some stage) :
    t.ok = false ∧ x = ⟨.isDone, 0⟩ := by
  unfold ThreadData.InStep at h
  split at h
  · rename_i hdown
    rw [hdown] at hstage
    contradiction
  · rename_i hreturned
    rw [hreturned] at hstage
    contradiction
  · exact h

theorem inStep_of_fresh {t : ThreadData} {x : Worker} (hok : t.ok = false)
    (hx : x = ⟨.isDone, 0⟩) : t.InStep x := by
  unfold ThreadData.InStep
  split
  · exact hok
  · rw [hok]
    exact hx
  · exact ⟨hok, hx⟩

theorem inStep_of_moves (h : ∀ v, (s.threads v).InStep (s.swarm.workers v))
    (hm : Moves fresh network tf s w s') (v : Fin W) :
    (s'.threads v).InStep (s'.swarm.workers v) := by
  by_cases hv : v = w
  · subst hv
    have hself := h v
    cases hm with
    | setUp hsetUp =>
      obtain ⟨hok, hx⟩ := begun_of_setUp hself hsetUp
      rw [enter_self]
      exact inStep_of_fresh hok hx
    | call hstage _ _ =>
      change ((s.enter v _).threads v).InStep _
      rw [enter_self]
      rw [ThreadData.InStep, hstage] at hself
      exact hself
    | succeed hstage hpc =>
      rw [succeed_self]
      exact ⟨_, hpc⟩
  · obtain ⟨hthread, hworker⟩ := hm.of_ne hv
    rw [hthread, hworker]
    exact h v

theorem reachable_inStep (h : (client network tf peers).Reachable s) (w : Fin W) :
    (s.threads w).InStep (s.swarm.workers w) := by
  have hall := h.invariant (P := fun s => ∀ w, (s.threads w).InStep (s.swarm.workers w))
    (fun w => ⟨rfl, rfl⟩) fun s label s' hs hstep => inStep_of_moves hs (moves_of_step hstep)
  exact hall w

theorem downloading_of_holds {i : Nat} (h : (s.threads w).InStep (s.swarm.workers w))
    (hw : s.swarm.Holds w i) : ∃ c peerBf, (s.threads w).stage = .downloading c peerBf := by
  unfold ThreadData.InStep at h
  split at h
  · rename_i c peerBf hstage
    exact ⟨c, peerBf, hstage⟩
  · split at h
    · obtain ⟨d, hd⟩ := h
      rw [Swarm.Holds, hd] at hw
      contradiction
    · rw [Swarm.Holds, h] at hw
      contradiction
  · rw [Swarm.Holds, h.2] at hw
    contradiction

theorem not_holds_of_returned (h : (client network tf peers).Reachable s)
    (hall : ∀ w, s.Returned w) (w : Fin W) (i : Nat) : ¬ s.swarm.Holds w i := by
  intro hw
  obtain ⟨c, peerBf, hstage⟩ := downloading_of_holds (reachable_inStep h w) hw
  have hreturned := hall w
  rw [Returned, hstage] at hreturned
  contradiction

theorem isDone_iff_of_returned (h : (client network tf peers).Reachable s)
    (hall : ∀ w, s.Returned w) :
    s.swarm.pool.isDone = some true ↔ s.swarm.df.hasAllPieces = true := by
  obtain ⟨L, hL⟩ := exists_consistent h
  exact hL.isDone_iff_hasAllPieces (not_holds_of_returned h hall)

/-- Whatever connections the threads have and in whatever order they run, a bit of the pool is
set exactly when one thread, which is in its loop then, holds the piece or the piece is stored.
So when all threads have returned, those that never came to their loop included, `is_done` tells
whether the file has all pieces, and the number of undone pieces is that of the missing ones. -/
theorem pool_and_file_agree (h : (client network tf peers).Reachable s) :
    (∀ i < tf.numPieces, s.swarm.pool.Taken i ↔
      Xor (∃! w, s.swarm.Holds w i) (s.swarm.df.Stored i)) ∧
    (∀ w i, s.swarm.Holds w i → ∃ c peerBf, (s.threads w).stage = .downloading c peerBf) ∧
    ((∀ w, s.Returned w) →
      (s.swarm.pool.isDone = some true ↔ s.swarm.df.hasAllPieces = true) ∧
      ∀ k, s.swarm.pool.getNumUndonePieces = some k → k = s.swarm.df.numMissing) := by
  obtain ⟨L, hL⟩ := exists_consistent h
  refine ⟨fun i hi => hL.taken_iff_xor hi, fun w i hw => ?_, fun hall => ?_⟩
  · exact downloading_of_holds (reachable_inStep h w) hw
  · refine ⟨isDone_iff_of_returned h hall, fun k hk => ?_⟩
    have hexact := PiecesPool.exact_of_getNumUndonePieces hk
    rw [hL.getNumUndonePieces_eq (not_holds_of_returned h hall) hexact] at hk
    exact (Option.some.inj hk).symm

def oneByteTorrent : TorrentFile where
  announce := some (literal "a")
  comment := none
  infoHash := some (List.replicate BT_HASH_LENGTH 0)
  pieceLength := 1
  numPieces := 1
  pieceHashes := some [List.replicate BT_HASH_LENGTH 7]
  length := 1
  name := some (literal "one")

/-- A peer that has it, which sends a handshake, then its bitfield and an unchoke, then the
block. -/
def oneByteNetwork : Network := fun _ _ =>
  some (⟨[19 :: ascii "BitTorrent protocol" ++ List.replicate 48 0,
    [0, 0, 0, 2, 5, 128, 0, 0, 0, 1, 1], [0, 0, 0, 10, 7, 0, 0, 0, 0, 0, 0, 0, 0, 9]]⟩,
    List.replicate 3 ⟨HANDSHAKE_LEN, true, false⟩)

/-- The one thread of the download of `oneByteTorrent` after some of its steps. -/
def oneByteSteps (n : Nat) : Option (Client 1) :=
  let M := client (fun _ : Fin 1 => oneByteNetwork) oneByteTorrent
    fun _ => ⟨6881, ⟨[127, 0, 0, 1], rfl⟩⟩
  M.run M.init (List.replicate n (Fin.last 0, fun _ _ => 0))

theorem pool_and_file_agree_one : ∃ s, oneByteSteps 12 = some s ∧ (s.threads 0).ok = true ∧
    s.swarm.df.hasAllPieces = true := by
  obtain ⟨s, hs, hend⟩ : ∃ s, oneByteSteps 12 = some s ∧ decide ((∀ w, s.Returned w) ∧
      (s.threads 0).ok = true ∧ s.swarm.pool.isDone = some true) = true :=
    (Option.any_eq_true _ _).mp (by decide +kernel)
  obtain ⟨hall, hok, hdone⟩ := of_decide_eq_true hend
  obtain ⟨-, -, hagree⟩ := pool_and_file_agree ⟨_, hs⟩
  exact ⟨s, hs, hok, (hagree hall).1.mp hdone⟩

end Client

end BitTorrentBits
