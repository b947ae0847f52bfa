import BitTorrentBits.Foundation.Ledger
import BitTorrentBits.Swarm.Leaving

/-!
# The number of iterations

A worker that enters the body of the loop comes back with a piece stored or with one more
failed attempt. A stored piece is never handed out again and the attempts of a worker are
bounded, so all workers together enter the body only so many times, whoever takes and gives
back which piece.
-/

namespace BitTorrentBits.Swarm

variable {W : Nat}

/-- One for a loop test that leads into the body. -/
def entersBody (s : Swarm W) : Fin W × Action → Nat
  | (w, .isDone) =>
    if s.pool.isDone = some false ∧ (s.workers w).failedAttempts < PEER_MAX_FAILS then 1 else 0
  | _ => 0

/-- The iterations of the download loops of all workers in a run. -/
def iterations (fresh : Nat → UInt8) (tf : TorrentFile) (as : List (Fin W × Action)) : Nat :=
  (downloadLoops fresh W tf).cost entersBody (initSwarm W tf) as

/-- The place of a call in the body of the loop, which the test opens and `left` is after. -/
def place : Pc → Nat
  | .isDone => 0
  | .getPieceIndex => 1
  | .hasPiece _ => 2
  | .downloadPiece _ => 3
  | .addPiece _ | .markAsUndone _ => 4
  | .left _ => 5

@[simp] private theorem place_isDone : place .isDone = 0 := rfl

@[simp] private theorem place_getPieceIndex : place .getPieceIndex = 1 := rfl

@[simp] private theorem place_hasPiece (i : Nat) : place (.hasPiece i) = 2 := rfl

@[simp] private theorem place_downloadPiece (i : Nat) : place (.downloadPiece i) = 3 := rfl

@[simp] private theorem place_addPiece (p : PieceProgress) : place (.addPiece p) = 4 := rfl

@[simp] private theorem place_markAsUndone (i : Nat) : place (.markAsUndone i) = 4 := rfl

@[simp] private theorem place_left (d : Bool) : place (.left d) = 5 := rfl

private inductive Turn : Worker → Worker → Nat → Nat → Prop
  | leave (d : Bool) (k : Nat) : Turn ⟨.isDone, k⟩ ⟨.left d, k⟩ 0 0
  | enter {k : Nat} (hk : k < PEER_MAX_FAILS) : Turn ⟨.isDone, k⟩ ⟨.getPieceIndex, k⟩ 0 1
  | inside {pc pc' : Pc} {k : Nat} (hk : k < PEER_MAX_FAILS) (hfirst : 1 ≤ place pc)
      (hlast : place pc' ≤ 4) (hon : place pc < place pc') : Turn ⟨pc, k⟩ ⟨pc', k⟩ 0 0
  | store {p : PieceProgress} {k : Nat} (hk : k < PEER_MAX_FAILS) :
      Turn ⟨.addPiece p, k⟩ ⟨.isDone, k⟩ 1 0
  | fail {i k : Nat} (hk : k < PEER_MAX_FAILS) :
      Turn ⟨.markAsUndone i, k⟩ ⟨.isDone, k + 1⟩ 0 0

private def failsLeft (x : Worker) : Nat :=
  PEER_MAX_FAILS - x.failedAttempts - if 1 ≤ place x.pc ∧ place x.pc ≤ 4 then 1 else 0

/-- The calls a worker has left in this iteration, in those that it can still fail, and to
leave. -/
def callsLeft (x : Worker) : Nat :=
  5 * (PEER_MAX_FAILS - x.failedAttempts) + 1 - if place x.pc ≤ 4 then place x.pc else 1

/-- A bound on what is still to come: `c` for each missing piece, and `f` of each worker. -/
def toCome (c : Nat) (f : Worker → Nat) (s : Swarm W) : Nat :=
  c * s.df.numMissing + ∑ w, f (s.workers w)

variable {fresh : Nat → UInt8} {tf : TorrentFile} {s s' : Swarm W} {L : Ledger Nat (Fin W)}
  {w : Fin W} {action : Action}

private theorem Turn.failsLeft {x y : Worker} {stored entered : Nat} (h : Turn x y stored entered) :
    failsLeft y + entered ≤ failsLeft x + stored := by
  cases h with
  | inside hk hfirst hlast hon =>
    simp only [Swarm.failsLeft]
    split_ifs <;> omega
  | leave _ _ => simp [Swarm.failsLeft]
  | enter hk | store hk | fail hk =>
    simp [Swarm.failsLeft]
    omega

private theorem Turn.callsLeft {x y : Worker} {stored entered : Nat} (h : Turn x y stored entered) :
    callsLeft y + 1 ≤ callsLeft x + 5 * stored := by
  cases h with
  | inside hk hfirst hlast hon =>
    simp only [Swarm.callsLeft]
    split_ifs <;> omega
  | leave _ _ | enter hk => simp [Swarm.callsLeft]
  | store hk | fail hk =>
    simp [Swarm.callsLeft]
    omega

theorem numMissing_addPiece {df df' : DownloadedFile} {p : PieceProgress}
    (hadd : df.addPiece fresh p = some (true, df')) (hmissing : ¬ df.Stored p.index) :
    df'.numMissing + 1 = df.numMissing := by
  obtain ⟨-, hi, -, htf, -⟩ := DownloadedFile.addPiece_eq_some hadd
  rw [DownloadedFile.numMissing, DownloadedFile.numMissing, htf]
  have hstored := DownloadedFile.stored_addPiece hadd
  apply countP_range_succ hi
  · simpa using hmissing
  · simpa using (hstored p.index).mpr (Or.inl rfl)
  · intro j _ hj
    simp [hstored j, hj]

private theorem turn_of_step (hL : Consistent tf s L) (hfit : ∀ v, AttemptsFit (s.workers v))
    (hs : step fresh s (w, action) = some s') :
    ∃ y stored, s'.workers = Function.update s.workers w y ∧
      Turn (s.workers w) y stored (entersBody s (w, action)) ∧
      s'.df.numMissing + stored = s.df.numMissing := by
  have hw := hfit w
  cases hm : s.workers w with
  | mk pc k =>
    rw [hm] at hw
    have hk : (s.workers w).failedAttempts = k := by rw [hm]
    have hpc' : (s.workers w).pc = pc := by rw [hm]
    cases moves_of_step hs with
    | isDone d hpc hd =>
      rw [hpc'] at hpc
      subst hpc
      refine ⟨_, 0, rfl, ?_, rfl⟩
      rw [hk, entersBody, hd, hk, loopTest]
      cases d with
      | true => exact .leave true k
      | false =>
        by_cases hlt : k < PEER_MAX_FAILS
        · simpa [hlt] using Turn.enter hlt
        · simpa [hlt] using Turn.leave false k
    | hasPiece i answer hpc =>
      rw [hpc'] at hpc
      subst hpc
      refine ⟨_, 0, rfl, ?_, rfl⟩
      rw [hk]
      cases answer <;> exact .inside hw (by simp) (by simp) (by simp)
    | getPieceIndex _ _ hpc _ | downloaded _ hpc _ | notDownloaded _ hpc =>
      rw [hpc'] at hpc
      subst hpc
      refine ⟨_, 0, rfl, ?_, rfl⟩
      rw [hk]
      exact .inside hw (by simp) (by simp) (by simp)
    | addPiece p df hpc hadd =>
      have hmissing : ¬ s.df.Stored p.index := by
        apply hL.not_stored_of_holds (w := w)
        rw [Holds, hpc]
        rfl
      rw [hpc'] at hpc
      subst hpc
      refine ⟨_, 1, rfl, ?_, numMissing_addPiece hadd hmissing⟩
      rw [hk]
      exact .store hw
    | markAsUndone i pool hpc _ =>
      rw [hpc'] at hpc
      subst hpc
      refine ⟨_, 0, rfl, ?_, rfl⟩
      rw [hk]
      exact .fail hw

private theorem toCome_step {c : Nat} {f : Worker → Nat} {cost : Swarm W → Fin W × Action → Nat}
    (hturn : ∀ x y stored, Turn x y stored (entersBody s (w, action)) →
      f y + cost s (w, action) ≤ f x + c * stored)
    (hL : Consistent tf s L) (hfit : ∀ v, AttemptsFit (s.workers v))
    (hs : step fresh s (w, action) = some s') :
    toCome c f s' + cost s (w, action) ≤ toCome c f s := by
  obtain ⟨y, stored, hworkers, hmove, hmissing⟩ := turn_of_step hL hfit hs
  have hlocal := hturn _ _ _ hmove
  have hsum := sum_update_add f s.workers w y
  rw [toCome, toCome, hworkers, ← hmissing, Nat.mul_add]
  omega

theorem toCome_lt_of_step {label : Fin W × Action} (hL : Consistent tf s L)
    (hfit : ∀ v, AttemptsFit (s.workers v)) (hs : step fresh s label = some s') :
    toCome 5 callsLeft s' < toCome 5 callsLeft s := by
  obtain ⟨w, action⟩ := label
  exact @toCome_step W fresh tf s s' L w action 5 callsLeft (fun _ _ => 1)
    (fun _ _ _ hturn => hturn.callsLeft) hL hfit hs

theorem numMissing_init (tf : TorrentFile) :
    (DownloadedFile.initDownloadedFile tf).numMissing = tf.numPieces := by
  rw [DownloadedFile.numMissing, List.countP_eq_length.mpr]
  · exact List.length_range
  · intro i _
    simpa using DownloadedFile.not_stored_init tf i

private theorem cost_le (c : Nat) (f : Worker → Nat) (cost : Swarm W → Fin W × Action → Nat)
    (hturn : ∀ s w action x y stored, Turn x y stored (entersBody s (w, action)) →
      f y + cost s (w, action) ≤ f x + c * stored) {as : List (Fin W × Action)}
    (h : (downloadLoops fresh W tf).run (initSwarm W tf) as = some s) :
    (downloadLoops fresh W tf).cost cost (initSwarm W tf) as ≤
      c * tf.numPieces + W * f ⟨.isDone, 0⟩ := by
  have hbound := Machine.cost_le_of_measure (M := downloadLoops fresh W tf) (c := cost)
    (P := fun s => (∃ L, Consistent tf s L) ∧ ∀ v, AttemptsFit (s.workers v)) ?_ ?_ ?_ h
      (μ := toCome c f)
  · have hinit : toCome c f (initSwarm W tf) = c * tf.numPieces + W * f ⟨.isDone, 0⟩ := by
      rw [toCome, initSwarm, numMissing_init]
      simp
    omega
  · rintro t ⟨w, action⟩ t' ⟨⟨L, hL⟩, hfit⟩ hs
    change step fresh t (w, action) = some t' at hs
    obtain ⟨L', -, hL'⟩ := hL.step hs
    exact ⟨⟨L', hL'⟩, attempts_step hfit hs⟩
  · rintro t ⟨w, action⟩ t' ⟨⟨L, hL⟩, hfit⟩ hs
    exact toCome_step (hturn t w action) hL hfit hs
  · exact ⟨⟨_, consistent_init W tf⟩, fun _ => Nat.zero_le _⟩

/-- In every run of any number of workers, with any answers of their peers, the loops have
at most one iteration for each piece and `PEER_MAX_FAILS` more for each worker. So no run
is longer than the five calls of these iterations and a last loop test for each worker. -/
theorem iterations_le (fresh : Nat → UInt8) (W : Nat) (tf : TorrentFile)
    (as : List (Fin W × Action)) (s : Swarm W)
    (h : (downloadLoops fresh W tf).run (initSwarm W tf) as = some s) :
    iterations fresh tf as ≤ tf.numPieces + PEER_MAX_FAILS * W ∧
      as.length ≤ 5 * (tf.numPieces + PEER_MAX_FAILS * W) + W := by
  constructor
  · have hcost := cost_le 1 failsLeft entersBody
      (fun _ _ _ _ _ _ hturn => by have hle := hturn.failsLeft; omega) h
    have hfirst : failsLeft ⟨.isDone, 0⟩ = PEER_MAX_FAILS := rfl
    rw [hfirst, Nat.one_mul, Nat.mul_comm W] at hcost
    exact hcost
  · have hcost := cost_le 5 callsLeft (fun _ _ => 1)
      (fun _ _ _ _ _ _ hturn => hturn.callsLeft) h
    have hfirst : callsLeft ⟨.isDone, 0⟩ = 5 * PEER_MAX_FAILS + 1 := rfl
    rw [Machine.cost_one h, hfirst] at hcost
    unfold PEER_MAX_FAILS at hcost ⊢
    omega

theorem iterations_le_alone :
    ∃ s, (downloadLoops (fun _ => 0) 1
        { initTorrentFile with numPieces := 1, pieceLength := 1 }).run
        (initSwarm 1 { initTorrentFile with numPieces := 1, pieceLength := 1 })
        [(0, .isDone), (0, .getPieceIndex), (0, .hasPiece true),
          (0, .downloadPiece (some ⟨0, [7], 1⟩)), (0, .addPiece), (0, .isDone)] = some s ∧
      s.Ended 0 ∧
      iterations (fun _ => 0) { initTorrentFile with numPieces := 1, pieceLength := 1 }
        [((0 : Fin 1), .isDone), (0, .getPieceIndex), (0, .hasPiece true),
          (0, .downloadPiece (some ⟨0, [7], 1⟩)), (0, .addPiece), (0, .isDone)] ≤
        1 + PEER_MAX_FAILS * 1 :=
  ⟨_, rfl, ⟨true, rfl⟩, (iterations_le (fun _ => 0) 1
    { initTorrentFile with numPieces := 1, pieceLength := 1 } _ _ rfl).1⟩

end BitTorrentBits.Swarm
