import BitTorrentBits.Pieces.PieceOverLink

/-!
# A piece that ends the process

What leads `download_piece` outside its memory on a link, or to SIGPIPE: after the answers to the
requests for the first blocks, a message that does not fit the next one, or a closed connection.
-/

namespace BitTorrentBits.Link

open PieceProgress Message

/-- After `sent` requests, with `c` to be read next, a send raises SIGPIPE or is answered by a
message that does not fit block `k`. -/
inductive CrashesAt (index size k sent : Nat) (l : Link) (c : Conn) : Prop
  | sigpipe {o : SendOutcome} (ho : l.sends[sent]? = some o) (hpipe : o.sigpipe = true)
  | misfit {m : Message} {c' : Conn} (hsends : l.SendsRequests (sent + 1))
      (hread : ReadsOff c [some m] c') (hnot : ¬ BlockFits index size k m)

/-- From block `k` on, requests for some blocks are sent and answered, and then the loop over `n`
blocks crashes. -/
def Crashes (index size n k : Nat) (l : Link) : Prop :=
  ∃ ms c, k + ms.length < n ∧ l.SendsRequests ms.length ∧ ReadsOff l.conn (ms.map some) c ∧
    AnswersFrom index k ms ∧ CrashesAt index size (k + ms.length) ms.length l c

variable {fresh : Nat → UInt8} {p : PieceProgress} {l l₁ : Link} {m : Message} {c : Conn}
  {index size offset n k count fuel : Nat} {ok : Bool}

theorem sendsRequests_succ (h : l.sendData (requestMsg index offset).wire = some (ok, l₁)) :
    l.SendsRequests (count + 1) ↔ ok = true ∧ l₁.SendsRequests count := by
  rcases sendData_cases h with ⟨rfl, -, hnil⟩ | ⟨o, hsends, -, ho, -, -⟩
  · rw [SendsRequests, requestsGoThrough, hnil, List.map_nil, List.replicate_succ, List.prefix_nil]
    constructor
    · intro h
      cases h
    · rintro ⟨h, -⟩
      cases h
  · rw [requestMsg_wire_length] at ho
    rw [SendsRequests, requestsGoThrough, hsends, List.map_cons, ho, List.replicate_succ,
      List.cons_prefix_cons, eq_comm]
    rfl

theorem conn_of_request (h : l.sendData (requestMsg index offset).wire = some (true, l₁)) :
    l₁.conn = l.conn :=
  (sendData_whole (by
    rw [requestMsg_wire_length]
    decide) h).1

private theorem sends_of_request (h : l.sendData (requestMsg index offset).wire = some (true, l₁)) :
    ∃ o, l.sends = o :: l₁.sends := by
  rcases sendData_cases h with ⟨hfalse, -, -⟩ | ⟨o, hsends, -, -, -, -⟩
  · cases hfalse
  · exact ⟨o, hsends⟩

private theorem sigpipe_of_sent {buf : List UInt8} {o : SendOutcome}
    (h : l.sendData buf = some (ok, l₁)) (ho : l.sends[0]? = some o) : o.sigpipe = false := by
  rw [← List.head?_eq_getElem?] at ho
  by_contra hpipe
  rw [sendData_eq_none.mpr ⟨o, ho, Bool.not_eq_false _ ▸ hpipe⟩] at h
  cases h

private theorem crashesAt_succ {sent : Nat} {c' : Conn}
    (h : l.sendData (requestMsg index offset).wire = some (true, l₁)) :
    CrashesAt index size k (sent + 1) l c ↔ CrashesAt index size k sent { l₁ with conn := c' } c := by
  obtain ⟨o₁, hsends⟩ := sends_of_request h
  have hsucc : l.sends[sent + 1]? = l₁.sends[sent]? := by rw [hsends, List.getElem?_cons_succ]
  constructor
  · intro hcrash
    cases hcrash with
    | sigpipe ho hpipe => exact .sigpipe (hsucc ▸ ho) hpipe
    | misfit hmore hread hnot => exact .misfit ((sendsRequests_succ h).mp hmore).2 hread hnot
  · intro hcrash
    cases hcrash with
    | sigpipe ho hpipe => exact .sigpipe (hsucc.trans ho) hpipe
    | misfit hmore hread hnot => exact .misfit ((sendsRequests_succ h).mpr ⟨rfl, hmore⟩) hread hnot

theorem crashes_of_breaks (h : l.Breaks) : l.Crashes index size n k ↔ k < n := by
  constructor
  · rintro ⟨ms, c, hlt, -⟩
    omega
  · intro hlt
    obtain ⟨o, ho, hpipe⟩ := h
    rw [List.head?_eq_getElem?] at ho
    exact ⟨[], l.conn, hlt, List.nil_prefix, .nil _, trivial, .sigpipe ho hpipe⟩

private theorem not_crashes_of_refused
    (h : l.sendData (requestMsg index offset).wire = some (false, l₁)) :
    ¬ l.Crashes p.index size n k := by
  rintro ⟨ms, c, -, hsends, -, -, hcrash⟩
  have hnone : ∀ count, ¬ l.SendsRequests (count + 1) := fun count hsends =>
    Bool.false_ne_true ((sendsRequests_succ h).mp hsends).1
  cases ms with
  | cons m ms => exact hnone _ hsends
  | nil =>
    cases hcrash with
    | misfit hsends _ _ => exact hnone _ hsends
    | sigpipe ho hpipe => exact Bool.false_ne_true ((sigpipe_of_sent h ho).symm.trans hpipe)

theorem crashes_iff (h : l.sendData (requestMsg index offset).wire = some (true, l₁))
    (hread : Message.readMessageFromConn fresh l₁.conn = some (some m, c)) :
    l.Crashes index size n k ↔ k < n ∧ (¬ BlockFits index size k m ∨
      Answers index k m ∧ Crashes index size n (k + 1) { l₁ with conn := c }) := by
  rw [conn_of_request h] at hread
  constructor
  · rintro ⟨ms, c', hlt, hsends, hreads, hans, hcrash⟩
    cases ms with
    | nil =>
      refine ⟨hlt, Or.inl ?_⟩
      cases hreads
      cases hcrash with
      | sigpipe ho hpipe => exact (Bool.false_ne_true ((sigpipe_of_sent h ho).symm.trans hpipe)).elim
      | misfit _ hnext hnot =>
        obtain ⟨hsame, -⟩ := hnext.of_read hread
        cases hsame
        exact hnot
    | cons m₁ ms =>
      obtain ⟨hsame, hrest⟩ := hreads.of_read hread
      cases hsame
      have hk : k + (m :: ms).length = k + 1 + ms.length := by
        rw [List.length_cons]
        omega
      rw [hk] at hlt hcrash
      exact ⟨by omega, Or.inr ⟨hans.1, ms, c', hlt, ((sendsRequests_succ h).mp hsends).2, hrest,
        hans.2, (crashesAt_succ h).mp hcrash⟩⟩
  · rintro ⟨hlt, hnot | ⟨hans, ms, c', hmore, hsends, hreads, hrest, hcrash⟩⟩
    · exact ⟨[], l.conn, hlt, List.nil_prefix, .nil _, trivial,
        .misfit ((sendsRequests_succ h).mpr ⟨rfl, List.nil_prefix⟩) (.cons hread (.nil c)) hnot⟩
    · have hk : k + 1 + ms.length = k + (m :: ms).length := by
        rw [List.length_cons]
        omega
      rw [hk] at hmore hcrash
      exact ⟨m :: ms, c', hmore, (sendsRequests_succ h).mpr ⟨rfl, hsends⟩, .cons hread hreads,
        ⟨hans, hrest⟩, (crashesAt_succ h).mpr hcrash⟩

private theorem not_crashes_of_silent
    (h : l.sendData (requestMsg index offset).wire = some (true, l₁))
    (hread : Message.readMessageFromConn fresh l₁.conn = some (none, c)) :
    ¬ l.Crashes index size n k := by
  rw [conn_of_request h] at hread
  rintro ⟨ms, c', -, -, hreads, -, hcrash⟩
  cases ms with
  | nil =>
    cases hreads
    cases hcrash with
    | sigpipe ho hpipe => exact Bool.false_ne_true ((sigpipe_of_sent h ho).symm.trans hpipe)
    | misfit _ hnext _ =>
      obtain ⟨hsame, -⟩ := hnext.of_read hread
      cases hsame
  | cons m ms =>
    obtain ⟨hsame, -⟩ := hreads.of_read hread
    cases hsame

theorem requestBlock_eq_none
    (h : l.sendData (requestMsg p.index (blockOffset p.downloaded)).wire = some (true, l₁))
    (hread : Message.readMessageFromConn fresh l₁.conn = some (some m, c))
    (hreceive : receiveBlock p (blockOffset p.downloaded) m = none) :
    requestBlock fresh p l = none := by
  rw [Option.eq_none_iff_forall_ne_some]
  rintro ⟨ok, p', l'⟩ hround
  cases round_of_requestBlock hround with
  | refused hsend =>
    rw [h] at hsend
    cases hsend
  | silent hsend hnone =>
    rw [h] at hsend
    cases hsend
    rw [hread] at hnone
    cases hnone
  | answered hsend hsome hreceived =>
    rw [h] at hsend
    cases hsend
    rw [hread] at hsome
    cases hsome
    rw [hreceive] at hreceived
    cases hreceived

private theorem requestBlock_of_breaks (h : l.Breaks) : requestBlock fresh p l = none := by
  rw [Option.eq_none_iff_forall_ne_some]
  rintro ⟨ok, p', l'⟩ hround
  cases round_of_requestBlock hround with
  | refused hsend | silent hsend _ | answered hsend _ _ =>
    rw [sendData_eq_none.mpr h] at hsend
    cases hsend

private theorem requestBlocks_of_answer (hlt : p.downloaded < n)
    (hsend : l.sendData (requestMsg p.index (blockOffset p.downloaded)).wire = some (true, l₁))
    (hread : Message.readMessageFromConn fresh l₁.conn = some (some m, c))
    (hnext : ∀ p' : PieceProgress, p'.downloaded = p.downloaded + 1 →
      (requestBlocks fresh n fuel p' { l₁ with conn := c } = none ↔
        Crashes p'.index p'.size n p'.downloaded { l₁ with conn := c })) :
    requestBlocks fresh n (fuel + 1) p l = none ↔ l.Crashes p.index p.size n p.downloaded := by
  rw [requestBlocks, if_pos hlt, crashes_iff hsend hread]
  rcases receiveBlock_cases p ((payloadLen_of_read hread).trans (by decide)) p.downloaded with
    ⟨hrecv, hfits, hnot⟩ | ⟨hrecv, hmisfit⟩ | ⟨p', hrecv, hindex, hsize, hdown, hfits, hans⟩
  · rw [requestBlock_of_round (.answered hsend hread hrecv)]
    refine iff_of_false (Option.some_ne_none _) ?_
    rintro ⟨-, hmisfit | ⟨hans, -⟩⟩
    · exact hmisfit hfits
    · exact hnot hans
  · rw [requestBlock_eq_none hsend hread hrecv]
    exact iff_of_true rfl ⟨hlt, Or.inl hmisfit⟩
  · rw [requestBlock_of_round (.answered hsend hread hrecv)]
    have hrest := hnext p' hdown
    rw [hindex, hsize, hdown] at hrest
    refine hrest.trans ⟨fun h => ⟨hlt, Or.inr ⟨hans, h⟩⟩, ?_⟩
    rintro ⟨-, hmisfit | ⟨-, h⟩⟩
    · exact (hmisfit hfits).elim
    · exact h

/-- The loop over the blocks ends the process where it crashes, and nowhere else. -/
theorem requestBlocks_eq_none_iff (hle : p.downloaded ≤ n) (hfuel : n < p.downloaded + fuel) :
    requestBlocks fresh n fuel p l = none ↔ l.Crashes p.index p.size n p.downloaded := by
  induction fuel generalizing p l with
  | zero => omega
  | succ fuel ih =>
    by_cases hlt : p.downloaded < n
    · cases hsend : l.sendData (requestMsg p.index (blockOffset p.downloaded)).wire with
      | none =>
        have hbreaks := sendData_eq_none.mp hsend
        rw [requestBlocks, if_pos hlt, requestBlock_of_breaks hbreaks]
        exact iff_of_true rfl ((crashes_of_breaks hbreaks).mpr hlt)
      | some r =>
        obtain ⟨sent, l₁⟩ := r
        cases sent with
        | false =>
          rw [requestBlocks, if_pos hlt, requestBlock_of_round (.refused hsend)]
          exact iff_of_false (Option.some_ne_none _) (not_crashes_of_refused hsend)
        | true =>
          obtain ⟨reply, c, hread⟩ := exists_read l₁.conn
          specialize hread fresh
          cases reply with
          | none =>
            rw [requestBlocks, if_pos hlt, requestBlock_of_round (.silent hsend hread)]
            exact iff_of_false (Option.some_ne_none _) (not_crashes_of_silent hsend hread)
          | some m =>
            exact requestBlocks_of_answer hlt hsend hread fun p' hdown =>
              ih (by omega) (by omega)
    · rw [requestBlocks, if_neg hlt]
      refine iff_of_false (Option.some_ne_none _) ?_
      rintro ⟨ms, c, hmore, -⟩
      omega

theorem downloadPiece_eq_none_iff (junk : Nat → UInt8) :
    l.downloadPiece fresh (initPieceProgress index size junk) = none ↔
      l.Crashes index size (numBlocks size) 0 := by
  have hfuel : numBlocks size < 0 + (numBlocks size + 1) := by omega
  have h : requestBlocks fresh (numBlocks size) _ (initPieceProgress index size junk) l = none ↔ _ :=
    requestBlocks_eq_none_iff (Nat.zero_le _) hfuel
  rw [initPieceProgress_size] at h
  rw [downloadPiece, initPieceProgress_size]
  exact h

end BitTorrentBits.Link
