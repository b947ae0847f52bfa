import BitTorrentBits.Swarm.Courses
import BitTorrentBits.Swarm.Recovery

/-!
# Messages between the replies

A worker alone gets the pieces in order, so its attempts follow a course. It recovers from the
other messages of a plan exactly when the plan is harmless.
-/

namespace BitTorrentBits.Swarm

open PieceProgress

/-- The pieces before `i` are stored, and no other one. -/
def StoredBelow (n : Nat) (df : DownloadedFile) (i : Nat) : Prop :=
  i ≤ n ∧ ∀ j < n, df.Stored j ↔ j < i

/-- The worker is about to get piece `i`, or has got the piece before it. -/
def At (n : Nat) (df : DownloadedFile) (i : Nat) : Pc → Prop
  | .isDone | .getPieceIndex | .left _ => StoredBelow n df i
  | .hasPiece j | .downloadPiece j | .markAsUndone j => j = i ∧ StoredBelow n df i
  | .addPiece p => p.index + 1 = i ∧ StoredBelow n df p.index

variable {fresh : Nat → UInt8} {bf : Bitfield} {content : Nat → List UInt8} {tf : TorrentFile}
  {plan : List (Option OtherMessage)} {d d' : Dialogue}
  {df df' : DownloadedFile} {p : PieceProgress} {n i : Nat}

private theorem StoredBelow.missing (h : StoredBelow n df i) {j : Nat} (hj : j < n)
    (hbefore : ∀ k < j, df.Stored k) (hmissing : ¬ df.Stored j) : j = i := by
  have hge : i ≤ j := Nat.le_of_not_lt (mt (h.2 j hj).mpr hmissing)
  apply Nat.le_antisymm _ hge
  by_contra hlt
  have hi : i < j := Nat.lt_of_not_le hlt
  exact Nat.lt_irrefl i ((h.2 i (hi.trans hj)).mp (hbefore i hi))

private theorem StoredBelow.addPiece (h : StoredBelow n df p.index) (hi : p.index < n)
    (hadd : df.addPiece fresh p = some (true, df')) : StoredBelow n df' (p.index + 1) := by
  refine ⟨hi, fun j hj => ?_⟩
  rw [DownloadedFile.stored_addPiece hadd, h.2 j hj]
  omega

private theorem outcome_of_turn (hnum : Numbered tf) (hall : HasEverything tf bf content)
    (h : Sound tf content d) (hpc : (d.swarm.workers 0).pc = .downloadPiece i)
    {result : Option PieceProgress} {peer : Peer}
    (hturn : turn fresh bf content d 0 = some (.downloadPiece result, peer)) :
    ∃ ok p, result = (if ok then some p else none) ∧
      Outcome content i (requestsFrom i 0 (numBlocks tf.pieceLength)) d.peer ok p peer := by
  obtain ⟨ok, p, peer', hturn', hout, -⟩ := h.exists_attempt fresh bf hnum hall hpc
  rw [hturn'] at hturn
  cases hturn
  exact ⟨ok, p, rfl, hout⟩

private theorem at_call (hnum : Numbered tf) (hall : HasEverything tf bf content)
    (h : Sound tf content d) (hat : At tf.numPieces d.swarm.df i (d.swarm.workers 0).pc)
    (hcall : nextCall fresh bf content d 0 = some d') :
    ((∀ j, (d.swarm.workers 0).pc ≠ .downloadPiece j) ∧ d'.peer = d.peer ∧
      At tf.numPieces d'.swarm.df i (d'.swarm.workers 0).pc) ∨
    ((d.swarm.workers 0).pc = .downloadPiece i ∧ i < tf.numPieces ∧ ∃ ok p,
      Outcome content i (requestsFrom i 0 (numBlocks tf.pieceLength)) d.peer ok p d'.peer ∧
      At tf.numPieces d'.swarm.df (if ok then i + 1 else i) (d'.swarm.workers 0).pc) := by
  obtain ⟨L, hL⟩ := h.ledger
  obtain ⟨action, hturn, hm⟩ := moves_of_nextCall hcall
  have hplace := h.place
  obtain ⟨s, peer⟩ := d'
  change Moves fresh d.swarm 0 action s at hm
  cases hm with
  | isDone b hpc _ =>
    have hdown : ∀ j, (d.swarm.workers 0).pc ≠ .downloadPiece j := by simp [hpc]
    rw [hpc] at hat
    refine Or.inl ⟨hdown, peer_of_turn hdown hturn, ?_⟩
    change At _ _ _ ((d.swarm.goto 0 _).workers 0).pc
    rw [goto_self, loopTest]
    split_ifs <;> exact hat
  | getPieceIndex j pool hpc hget =>
    have hdown : ∀ j, (d.swarm.workers 0).pc ≠ .downloadPiece j := by simp [hpc]
    rw [hpc] at hat hplace
    refine Or.inl ⟨hdown, peer_of_turn hdown hturn, ?_⟩
    change At _ _ _ ((d.swarm.goto 0 (.hasPiece j)).workers 0).pc
    rw [goto_self]
    obtain ⟨k, hk, hmissing⟩ := hplace
    rcases least_missing hL hpc hget with hwhole | ⟨hj, hbefore, hfree⟩
    · exact (hmissing (hwhole k hk)).elim
    · exact ⟨StoredBelow.missing hat hj hbefore hfree, hat⟩
  | hasPiece j answer hpc =>
    have hdown : ∀ j, (d.swarm.workers 0).pc ≠ .downloadPiece j := by simp [hpc]
    rw [hpc] at hat
    refine Or.inl ⟨hdown, peer_of_turn hdown hturn, ?_⟩
    change At _ _ _ ((d.swarm.goto 0 _).workers 0).pc
    rw [goto_self]
    cases answer <;> exact hat
  | downloaded p hpc hsize =>
    obtain ⟨ok, q, hq, hout⟩ := outcome_of_turn hnum hall h hpc hturn
    rw [hpc] at hat hplace
    obtain ⟨hi, hbelow⟩ := hat
    subst hi
    refine Or.inr ⟨hpc, hplace, ok, q, hout, ?_⟩
    change At _ _ _ ((d.swarm.goto 0 _).workers 0).pc
    rw [goto_self]
    cases ok with
    | false => cases hq
    | true => exact ⟨rfl, hbelow⟩
  | notDownloaded j hpc =>
    obtain ⟨ok, q, hq, hout⟩ := outcome_of_turn hnum hall h hpc hturn
    rw [hpc] at hat hplace
    obtain ⟨hi, hbelow⟩ := hat
    subst hi
    refine Or.inr ⟨hpc, hplace, ok, q, hout, ?_⟩
    change At _ _ _ ((d.swarm.goto 0 _).workers 0).pc
    rw [goto_self]
    cases ok with
    | false => exact ⟨rfl, hbelow⟩
    | true => cases hq
  | addPiece p df hpc hadd =>
    have hdown : ∀ j, (d.swarm.workers 0).pc ≠ .downloadPiece j := by simp [hpc]
    rw [hpc] at hat hplace
    obtain ⟨hi, hbelow⟩ := hat
    refine Or.inl ⟨hdown, peer_of_turn hdown hturn, ?_⟩
    change At _ _ _ ((d.swarm.goto 0 .isDone).workers 0).pc
    rw [goto_self, ← hi]
    exact hbelow.addPiece hplace.1 hadd
  | markAsUndone j pool hpc _ =>
    have hdown : ∀ j, (d.swarm.workers 0).pc ≠ .downloadPiece j := by simp [hpc]
    rw [hpc] at hat
    refine Or.inl ⟨hdown, peer_of_turn hdown hturn, ?_⟩
    change At _ _ _ ((d.swarm.fail 0).workers 0).pc
    rw [fail_self]
    exact hat.2

private theorem at_init (tf : TorrentFile) :
    At tf.numPieces (initSwarm 1 tf).df 0 ((initSwarm 1 tf).workers 0).pc :=
  ⟨Nat.zero_le _, fun j _ =>
    iff_of_false (DownloadedFile.not_stored_init tf j) (Nat.not_lt_zero j)⟩

private theorem staysInStep_of_course (hnum : Numbered tf) (hall : HasEverything tf bf content)
    (h : Course content tf.numPieces (numBlocks tf.pieceLength) 0 ⟨[], plan⟩) :
    StaysInStep fresh bf content tf plan := by
  intro d w i hreach hpc
  obtain rfl : w = 0 := Subsingleton.elim w 0
  have hcourse := hreach.invariant (P := fun d => Sound tf content d ∧ ∃ i,
    At tf.numPieces d.swarm.df i (d.swarm.workers 0).pc ∧
      Course content tf.numPieces (numBlocks tf.pieceLength) i d.peer)
    ⟨sound_init tf content plan, 0, at_init tf, h⟩ ?_
  · obtain ⟨hsound, j, hat, hj⟩ := hcourse
    have hi := hsound.place
    rw [hpc] at hat hi
    obtain ⟨rfl, -⟩ := hat
    exact hj.inStep hi
  · rintro t w t' ⟨hsound, j, hat, hj⟩ hcall
    obtain rfl : w = 0 := Subsingleton.elim w 0
    refine ⟨(sound_call hnum hall hsound hcall).1, ?_⟩
    rcases at_call hnum hall hsound hat hcall with ⟨-, hpeer, hat'⟩ | ⟨-, hlt, ok, p, hout, hat'⟩
    · exact ⟨j, hat', hpeer ▸ hj⟩
    · exact ⟨_, hat', ((course_iff_of_outcome hlt hout).mp hj).2⟩

private theorem course_of_run (hnum : Numbered tf) (hall : HasEverything tf bf content)
    (hstep : StaysInStep fresh bf content tf plan) {es : List (Fin 1)} {e : Dialogue}
    (hrun : (dialogue fresh bf content tf plan).run d es = some e)
    (hreach : (dialogue fresh bf content tf plan).Reachable d) (h : Sound tf content d)
    (hat : At tf.numPieces d.swarm.df i (d.swarm.workers 0).pc) (hend : e.swarm.Ended 0)
    (hwhole : ∀ j < tf.numPieces, e.swarm.df.Stored j) :
    Course content tf.numPieces (numBlocks tf.pieceLength) i d.peer := by
  induction es generalizing d i with
  | nil =>
    cases hrun
    obtain ⟨b, hb⟩ := hend
    rw [hb] at hat
    obtain ⟨hle, hbelow⟩ := hat
    rcases Nat.lt_or_eq_of_le hle with hlt | rfl
    · exact (Nat.lt_irrefl i ((hbelow i hlt).mp (hwhole i hlt))).elim
    · exact .done
  | cons c es ih =>
    obtain ⟨d', hcall, hrest⟩ := Machine.run_cons hrun
    obtain rfl : c = 0 := Subsingleton.elim c 0
    have hsound := (sound_call hnum hall h hcall).1
    rcases at_call hnum hall h hat hcall with ⟨-, hpeer, hat'⟩ | ⟨hpc, hlt, ok, p, hout, hat'⟩
    · rw [← hpeer]
      exact ih hrest (hreach.step hcall) hsound hat'
    · exact (course_iff_of_outcome hlt hout).mpr
        ⟨hstep d 0 i hreach hpc, ih hrest (hreach.step hcall) hsound hat'⟩

private theorem course_of_recovers (hnum : Numbered tf) (hall : HasEverything tf bf content)
    (h : Recovers fresh bf content tf plan) :
    Course content tf.numPieces (numBlocks tf.pieceLength) 0 ⟨[], plan⟩ := by
  have hstep := staysInStep_of_recovers hnum hall h
  obtain ⟨es, e, hrun, hend, hwhole, -⟩ := h
  exact course_of_run hnum hall hstep hrun ⟨[], rfl⟩ (sound_init tf content plan) (at_init tf)
    (hend 0) fun j hj => ⟨content j, hwhole j hj⟩

private theorem course_iff (hnum : Numbered tf) (hall : HasEverything tf bf content) :
    Course content tf.numPieces (numBlocks tf.pieceLength) 0 ⟨[], plan⟩ ↔
      Harmless tf.numPieces (numBlocks tf.pieceLength) plan := by
  apply course_iff_harmless hall.numBlocks_pos (numPieces_le hnum)
  intro hpos
  rw [hall.numBlocks_mul]
  exact (hnum 0 hpos).2

private theorem harmless_of_recovers (hall : HasEverything tf bf content)
    (h : Recovers fresh bf content tf plan) :
    Numbered tf ∧ Harmless tf.numPieces (numBlocks tf.pieceLength) plan := by
  have hnum := numbered_of_recovers hall h
  exact ⟨hnum, (course_iff hnum hall).mp (course_of_recovers hnum hall h)⟩

/-- A worker alone over a peer that has everything stores all pieces, at the cost of one failed
attempt for each other message that it reads, exactly when the numbers of the pieces can be
read back and the plan is harmless. -/
theorem recovers_iff_harmless (fresh : Nat → UInt8) (bf : Bitfield)
    (content : Nat → List UInt8) (tf : TorrentFile) (plan : List (Option OtherMessage))
    (hall : HasEverything tf bf content) (hplan : otherMessages plan < PEER_MAX_FAILS) :
    Recovers fresh bf content tf plan ↔
      Numbered tf ∧ Harmless tf.numPieces (numBlocks tf.pieceLength) plan := by
  constructor
  · exact harmless_of_recovers hall
  · rintro ⟨hnum, hharmless⟩
    have hcourse := (course_iff hnum hall).mpr hharmless
    exact (recovers_iff_staysInStep fresh bf content tf plan hall hplan).mpr
      ⟨hnum, staysInStep_of_course hnum hall hcourse⟩

private def onePiece (blocks : Nat) : TorrentFile :=
  { initTorrentFile with numPieces := 1, pieceLength := blocks * BLOCK_SIZE }

private def zeros (blocks _ : Nat) : List UInt8 := List.replicate (blocks * BLOCK_SIZE) 0

private theorem hasEverything_onePiece {blocks : Nat} (hpos : 0 < blocks) (hle : blocks ≤ 2) :
    HasEverything (onePiece blocks) ⟨[0x80]⟩ (zeros blocks) where
  blocks := ⟨blocks, Nat.mul_comm _ _⟩
  pos := Nat.mul_pos hpos (by decide)
  size := (Nat.mul_le_mul_right BLOCK_SIZE hle).trans_lt (by decide)
  covers := show 1 ≤ 8 by decide
  bits := by
    intro i hi
    obtain rfl : i = 0 := Nat.lt_one_iff.mp hi
    decide
  whole := fun _ _ => List.length_replicate

private theorem numbered_onePiece {blocks : Nat} (hle : blocks ≤ 2) :
    Numbered (onePiece blocks) := by
  intro i hi
  obtain rfl : i = 0 := Nat.lt_one_iff.mp hi
  exact ⟨by decide, (Nat.mul_le_mul_right BLOCK_SIZE hle).trans (by decide)⟩

private def haveMsg : OtherMessage := ⟨⟨4, [0, 0, 0, 0]⟩, by decide, by decide⟩

/-- A `Have` message before the only reply: the second attempt asks for the same block again, so
the reply to the first request serves it. -/
theorem recovers_iff_harmless_haveMsg :
    Recovers (fun _ => 0) ⟨[0x80]⟩ (zeros 1) (onePiece 1) [some haveMsg] :=
  (recovers_iff_harmless _ _ _ _ _ (hasEverything_onePiece Nat.one_pos (Nat.le_succ 1))
    (by decide)).mpr ⟨numbered_onePiece (Nat.le_succ 1), by decide⟩

private theorem exists_firstAttempt :
    ∃ df workers, (dialogue (fun _ => 0) ⟨[0x80]⟩ (zeros 2) (onePiece 2) [some haveMsg]).run
        ⟨initSwarm 1 (onePiece 2), ⟨[], [some haveMsg]⟩⟩ (List.replicate 3 0) =
        some ⟨⟨⟨⟨[0x80]⟩, 1, rfl⟩, df, workers⟩, ⟨[], [some haveMsg]⟩⟩ ∧
      df.tf = onePiece 2 ∧ workers 0 = ⟨.downloadPiece 0, 0⟩ :=
  ⟨_, _, rfl, rfl, rfl⟩

private theorem exists_plan_nil :
    ∃ d, (dialogue (fun _ => 0) ⟨[0x80]⟩ (zeros 2) (onePiece 2) [some haveMsg]).run
        ⟨initSwarm 1 (onePiece 2), ⟨[], [some haveMsg]⟩⟩ (List.replicate 4 0) = some d ∧
      d.peer.plan = [] := by
  obtain ⟨df, workers, hrun, htf, hworker⟩ := exists_firstAttempt
  have hblocks : 0 < numBlocks df.tf.pieceLength := by
    rw [htf]
    decide
  have hattempt : attempt (zeros 2) (fun _ => 0) 0 df.tf.pieceLength ⟨[], [some haveMsg]⟩ = _ :=
    attempt_of_some (fun _ => 0) hblocks rfl
  have hpc : (workers 0).pc = .downloadPiece 0 := by rw [hworker]
  have hturn : turn (fun _ => 0) ⟨[0x80]⟩ (zeros 2)
      ⟨⟨⟨⟨[0x80]⟩, 1, rfl⟩, df, workers⟩, ⟨[], [some haveMsg]⟩⟩ 0 =
        some (.downloadPiece none, ⟨[requestMsg 0 (blockOffset 0)], []⟩) := by
    simp [turn, hpc, hattempt]
  obtain ⟨d, hcall, hplan⟩ : ∃ d, nextCall (fun _ => 0) ⟨[0x80]⟩ (zeros 2)
      ⟨⟨⟨⟨[0x80]⟩, 1, rfl⟩, df, workers⟩, ⟨[], [some haveMsg]⟩⟩ 0 = some d ∧ d.peer.plan = [] :=
    ⟨_, nextCall_of_moves hturn (.notDownloaded 0 hpc), rfl⟩
  refine ⟨d, (Machine.run_append [0] hrun).trans ?_, hplan⟩
  change (nextCall _ _ _ _ 0).bind _ = _
  rw [hcall]
  rfl

/-- One `Have` message before the first of two replies. The second attempt reads the reply to
the request of the first one, then another reply for the same block; so the worker fails again,
with no other message left to fail for. -/
theorem not_recovers_haveMsg :
    ¬ ∀ (fresh : Nat → UInt8) (bf : Bitfield) (content : Nat → List UInt8) (tf : TorrentFile)
      (plan : List (Option OtherMessage)), HasEverything tf bf content →
      otherMessages plan < PEER_MAX_FAILS →
      ∃ as d, (dialogue fresh bf content tf plan).run (dialogue fresh bf content tf plan).init as =
          some d ∧ (∀ w, d.swarm.Ended w) ∧
        (∀ i < tf.numPieces, d.swarm.df.piecesBuf[i]? = some (some (content i))) ∧
        ∀ w, (d.swarm.workers w).failedAttempts ≤ otherMessages plan := by
  intro h
  have hall := hasEverything_onePiece Nat.two_pos (Nat.le_refl 2)
  obtain ⟨es, e, hrun, hend, hwhole, hfew⟩ := h (fun _ => 0) _ _ _ [some haveMsg] hall (by decide)
  obtain ⟨d, hd, hpeer⟩ := exists_plan_nil
  have hlast : ∀ w, nextCall (fun _ => 0) ⟨[0x80]⟩ (zeros 2) e w = none := nextCall_of_ended hend
  obtain ⟨cs, hcs⟩ := Machine.exists_run_to_end hlast hd hrun
  have hplan : e.peer.plan = [] := by
    refine Machine.run_invariant (P := fun t => t.peer.plan = []) ?_ hpeer hcs
    intro t _ t' ht hcall
    obtain ⟨requests, hafter⟩ := exists_after_of_nextCall hcall
    rw [hafter, Peer.after_plan, ht, List.drop_nil]
  have hrecovers : Recovers (fun _ => 0) ⟨[0x80]⟩ (zeros 2) (onePiece 2) [some haveMsg] := by
    refine ⟨es, e, hrun, hend, hwhole, ?_⟩
    rw [hplan]
    exact hfew
  have hnot : ¬ Harmless 1 2 [some haveMsg] := by decide
  exact hnot (harmless_of_recovers hall hrecovers).2

end BitTorrentBits.Swarm
