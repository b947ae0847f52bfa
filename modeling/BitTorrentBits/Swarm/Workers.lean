import BitTorrentBits.Foundation.Machine
import BitTorrentBits.Pieces.DownloadedFile
import BitTorrentBits.Pieces.PiecesPool
import Mathlib

/-!
# The workers of a download

The loop of `download_torrent_thread_fun` after the peer has unchoked, run by any number
of threads over one pool and one downloaded file. A thread moves from one call to the
next; every call that takes a mutex is one step, and the threads interleave freely. What
the peer decides, the bit it shows and the outcome of `download_piece`, is in the label.
A call that would leave the memory it is given cannot be taken.
-/

namespace BitTorrentBits

def PEER_MAX_FAILS : Nat := 8

/-- The call a worker makes next, with its local `piece_index` or `p_prog`. From
`downloadPiece` on, `init_piece_progress` has been called with the index. -/
inductive Pc where
  | isDone
  | getPieceIndex
  | hasPiece (pieceIndex : Nat)
  | downloadPiece (pieceIndex : Nat)
  | addPiece (pProg : PieceProgress)
  | markAsUndone (pieceIndex : Nat)
  | left (poolDone : Bool)
  deriving DecidableEq

/-- The index a worker holds, from `get_piece_index` until it is stored or given back. -/
def Pc.held : Pc → Option Nat
  | .hasPiece i | .downloadPiece i | .markAsUndone i => some i
  | .addPiece p => some p.index
  | .isDone | .getPieceIndex | .left _ => none

structure Worker where
  pc : Pc
  failedAttempts : Nat
  deriving DecidableEq

/-- The pool and the file shared by `W` workers, and the workers' own states. -/
structure Swarm (W : Nat) where
  pool : PiecesPool
  df : DownloadedFile
  workers : Fin W → Worker

/-- The call made, with the answer of the peer where one decides. A successful
`download_piece` returns the piece it was given, filled. -/
inductive Action where
  | isDone
  | getPieceIndex
  | hasPiece (answer : Bool)
  | downloadPiece (result : Option PieceProgress)
  | addPiece
  | markAsUndone

namespace Swarm

variable {W : Nat}

def goto (s : Swarm W) (w : Fin W) (pc : Pc) : Swarm W :=
  { s with workers := Function.update s.workers w ⟨pc, (s.workers w).failedAttempts⟩ }

/-- Worker `w` has failed to get its piece and goes back to the loop test. -/
def fail (s : Swarm W) (w : Fin W) : Swarm W :=
  { s with workers := Function.update s.workers w ⟨.isDone, (s.workers w).failedAttempts + 1⟩ }

/-- Where the loop test `!is_done(pool) && failed_attempts < PEER_MAX_FAILS` leads. -/
def loopTest (poolDone : Bool) (failedAttempts : Nat) : Pc :=
  if poolDone then .left true
  else if failedAttempts < PEER_MAX_FAILS then .getPieceIndex
  else .left false

/-- One call of one worker. `fresh` is what its new buffers happen to hold. -/
def step (fresh : Nat → UInt8) (s : Swarm W) : Fin W × Action → Option (Swarm W)
  | (w, action) =>
    match (s.workers w).pc, action with
    | .isDone, .isDone => do
      let poolDone ← s.pool.isDone
      return s.goto w (loopTest poolDone (s.workers w).failedAttempts)
    | .getPieceIndex, .getPieceIndex => do
      let (pieceIndex, pool) ← s.pool.getPieceIndex
      return { s.goto w (.hasPiece pieceIndex) with pool := pool }
    | .hasPiece pieceIndex, .hasPiece answer =>
      some (s.goto w (if answer then .downloadPiece pieceIndex else .markAsUndone pieceIndex))
    | .downloadPiece pieceIndex, .downloadPiece (some pProg) =>
      if pProg.index = pieceIndex ∧ pProg.size = s.df.tf.pieceLength then
        some (s.goto w (.addPiece pProg))
      else none
    | .downloadPiece pieceIndex, .downloadPiece none =>
      some (s.goto w (.markAsUndone pieceIndex))
    | .addPiece pProg, .addPiece => do
      let (_, df) ← s.df.addPiece fresh pProg
      return { s.goto w .isDone with df := df }
    | .markAsUndone pieceIndex, .markAsUndone => do
      let pool ← s.pool.markAsUndone pieceIndex
      return { s.fail w with pool := pool }
    | _, _ => none

/-- All workers stand before the loop; nothing is handed out and nothing is stored. -/
def initSwarm (W : Nat) (tf : TorrentFile) : Swarm W where
  pool := PiecesPool.initPiecesPool tf.numPieces
  df := DownloadedFile.initDownloadedFile tf
  workers := fun _ => ⟨.isDone, 0⟩

/-- The workers of `download_torrent` as a machine. -/
def downloadLoops (fresh : Nat → UInt8) (W : Nat) (tf : TorrentFile) :
    Machine (Swarm W) (Fin W × Action) where
  init := initSwarm W tf
  step := step fresh

/-- What a step does, one case for each call that can be made. -/
inductive Moves (fresh : Nat → UInt8) (s : Swarm W) (w : Fin W) : Action → Swarm W → Prop where
  | isDone (d : Bool) (hpc : (s.workers w).pc = .isDone) (hd : s.pool.isDone = some d) :
      Moves fresh s w .isDone (s.goto w (loopTest d (s.workers w).failedAttempts))
  | getPieceIndex (i : Nat) (pool : PiecesPool) (hpc : (s.workers w).pc = .getPieceIndex)
      (hget : s.pool.getPieceIndex = some (i, pool)) :
      Moves fresh s w .getPieceIndex { s.goto w (.hasPiece i) with pool := pool }
  | hasPiece (i : Nat) (answer : Bool) (hpc : (s.workers w).pc = .hasPiece i) :
      Moves fresh s w (.hasPiece answer)
        (s.goto w (if answer then .downloadPiece i else .markAsUndone i))
  | downloaded (p : PieceProgress) (hpc : (s.workers w).pc = .downloadPiece p.index)
      (hsize : p.size = s.df.tf.pieceLength) :
      Moves fresh s w (.downloadPiece (some p)) (s.goto w (.addPiece p))
  | notDownloaded (i : Nat) (hpc : (s.workers w).pc = .downloadPiece i) :
      Moves fresh s w (.downloadPiece none) (s.goto w (.markAsUndone i))
  | addPiece (p : PieceProgress) (df : DownloadedFile) (hpc : (s.workers w).pc = .addPiece p)
      (hadd : s.df.addPiece fresh p = some (true, df)) :
      Moves fresh s w .addPiece { s.goto w .isDone with df := df }
  | markAsUndone (i : Nat) (pool : PiecesPool) (hpc : (s.workers w).pc = .markAsUndone i)
      (hmark : s.pool.markAsUndone i = some pool) :
      Moves fresh s w .markAsUndone { s.fail w with pool := pool }

theorem moves_of_step {fresh : Nat → UInt8} {s s' : Swarm W} {w : Fin W} {action : Action}
    (h : step fresh s (w, action) = some s') : Moves fresh s w action s' := by
  unfold step at h
  cases hpc : (s.workers w).pc <;> cases action <;> simp only [hpc] at h
  all_goals try contradiction
  case isDone.isDone =>
    obtain ⟨d, hd, hs⟩ := Option.bind_eq_some_iff.mp h
    cases hs
    exact .isDone d hpc hd
  case getPieceIndex.getPieceIndex =>
    obtain ⟨⟨i, pool⟩, hget, hs⟩ := Option.bind_eq_some_iff.mp h
    cases hs
    exact .getPieceIndex i pool hpc hget
  case hasPiece.hasPiece i answer =>
    cases h
    exact .hasPiece i answer hpc
  case downloadPiece.downloadPiece i result =>
    cases result with
    | none =>
      cases h
      exact .notDownloaded i hpc
    | some p =>
      simp only [Option.ite_none_right_eq_some, Option.some.injEq] at h
      obtain ⟨⟨rfl, hsize⟩, rfl⟩ := h
      exact .downloaded p hpc hsize
  case addPiece.addPiece p =>
    obtain ⟨⟨ok, df⟩, hadd, hs⟩ := Option.bind_eq_some_iff.mp h
    cases hs
    obtain ⟨rfl, -⟩ := DownloadedFile.addPiece_eq_some hadd
    exact .addPiece p df hpc hadd
  case markAsUndone.markAsUndone i =>
    obtain ⟨pool, hmark, hs⟩ := Option.bind_eq_some_iff.mp h
    cases hs
    exact .markAsUndone i pool hpc hmark

theorem step_of_moves {fresh : Nat → UInt8} {s s' : Swarm W} {w : Fin W} {action : Action}
    (h : Moves fresh s w action s') : step fresh s (w, action) = some s' := by
  cases h <;> simp_all [step]

theorem goto_self (s : Swarm W) (w : Fin W) (pc : Pc) :
    (s.goto w pc).workers w = ⟨pc, (s.workers w).failedAttempts⟩ := by simp [goto]

theorem fail_self (s : Swarm W) (w : Fin W) :
    (s.fail w).workers w = ⟨.isDone, (s.workers w).failedAttempts + 1⟩ := by simp [fail]

theorem Moves.workers_of_ne {fresh : Nat → UInt8} {s s' : Swarm W} {v w : Fin W}
    {action : Action} (h : Moves fresh s w action s') (hv : v ≠ w) :
    s'.workers v = s.workers v := by
  cases h <;> simp [goto, fail, hv]

theorem Moves.downloaded_of_pc {fresh : Nat → UInt8} {s s' : Swarm W} {w : Fin W}
    {action : Action} {p : PieceProgress} (h : Moves fresh s w action s')
    (hpc : (s'.workers w).pc = .addPiece p) :
    action = .downloadPiece (some p) ∧ (s.workers w).pc = .downloadPiece p.index := by
  cases h with
  | downloaded q hq _ =>
    rw [goto_self] at hpc
    cases hpc
    exact ⟨rfl, hq⟩
  | isDone d _ _ =>
    rw [goto_self, loopTest] at hpc
    split_ifs at hpc
  | hasPiece i answer _ =>
    rw [goto_self] at hpc
    cases answer <;> cases hpc
  | notDownloaded i _ =>
    rw [goto_self] at hpc
    cases hpc
  | getPieceIndex i _ _ _ =>
    change ((s.goto w (.hasPiece i)).workers w).pc = _ at hpc
    rw [goto_self] at hpc
    cases hpc
  | addPiece q _ _ _ =>
    change ((s.goto w .isDone).workers w).pc = _ at hpc
    rw [goto_self] at hpc
    cases hpc
  | markAsUndone i _ _ _ =>
    change ((s.fail w).workers w).pc = _ at hpc
    rw [fail_self] at hpc
    cases hpc

/-- What is about to be added fills a slot. -/
def AddsWhole (s : Swarm W) : Prop :=
  ∀ w p, (s.workers w).pc = .addPiece p → p.size = s.df.tf.pieceLength

theorem addsWhole_init (W : Nat) (tf : TorrentFile) : AddsWhole (initSwarm W tf) := by
  intro w p hpc
  cases hpc

theorem Moves.torrent {fresh : Nat → UInt8} {s s' : Swarm W} {w : Fin W} {action : Action}
    (h : Moves fresh s w action s') : s'.df.tf = s.df.tf := by
  cases h with
  | addPiece p df _ hadd =>
    obtain ⟨-, -, -, htf, -⟩ := DownloadedFile.addPiece_eq_some hadd
    exact htf
  | _ => rfl

theorem Moves.addsWhole {fresh : Nat → UInt8} {s s' : Swarm W} {w : Fin W} {action : Action}
    (h : Moves fresh s w action s') (hs : s.AddsWhole) : s'.AddsWhole := by
  intro v p hpc
  rw [h.torrent]
  by_cases hv : v = w
  · subst hv
    obtain ⟨rfl, -⟩ := h.downloaded_of_pc hpc
    cases h with
    | downloaded _ _ hsize => exact hsize
  · rw [h.workers_of_ne hv] at hpc
    exact hs v p hpc

theorem AddsWhole.step_fresh {s : Swarm W} (h : s.AddsWhole) (fresh fresh' : Nat → UInt8)
    (label : Fin W × Action) : step fresh s label = step fresh' s label := by
  obtain ⟨w, action⟩ := label
  cases hpc : (s.workers w).pc <;> cases action <;> simp only [step, hpc]
  case downloadPiece.downloadPiece i result => cases result <;> rfl
  case addPiece.addPiece p => rw [DownloadedFile.addPiece_fresh fresh fresh' (h w p hpc)]

/-- The workers where each step finds bytes of its own in its new buffer. -/
def staleLoops (W : Nat) (tf : TorrentFile) :
    Machine (Swarm W) ((Fin W × Action) × (Nat → UInt8)) where
  init := initSwarm W tf
  step := fun s label => step label.2 s label.1

/-- What new buffers hold makes no difference to a run, so one `fresh` for all of its steps is no
restriction. -/
theorem run_fresh (fresh : Nat → UInt8) {s : Swarm W} (h : s.AddsWhole) (tf : TorrentFile)
    (as : List ((Fin W × Action) × (Nat → UInt8))) :
    (staleLoops W tf).run s as = (downloadLoops fresh W tf).run s (as.map Prod.fst) := by
  induction as generalizing s with
  | nil => rfl
  | cons a as ih =>
    have hsame : (staleLoops W tf).step s a = (downloadLoops fresh W tf).step s a.1 :=
      h.step_fresh a.2 fresh a.1
    rw [List.map_cons, Machine.run, Machine.run, hsame]
    cases hs : (downloadLoops fresh W tf).step s a.1 with
    | none => rfl
    | some t => exact ih ((moves_of_step hs).addsWhole h)

theorem stored_of_step {fresh : Nat → UInt8} {s s' : Swarm W} {label : Fin W × Action}
    (hs : step fresh s label = some s') {i : Nat} (h : s.df.Stored i) : s'.df.Stored i := by
  obtain ⟨w, action⟩ := label
  cases moves_of_step hs with
  | addPiece p df _ hadd => exact (DownloadedFile.stored_addPiece hadd i).mpr (Or.inr h)
  | _ => exact h

/-- Worker `w` currently works on index `i`. -/
def Holds (s : Swarm W) (w : Fin W) (i : Nat) : Prop := (s.workers w).pc.held = some i

def Ended (s : Swarm W) (w : Fin W) : Prop := ∃ d, (s.workers w).pc = .left d

end Swarm

end BitTorrentBits
