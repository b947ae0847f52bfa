import BitTorrentBits.Pieces.BlockTiling

/-!
# Attempts over one connection

A peer that answers every request once and in order, on a connection that outlives the
attempts at single pieces. What it sends between its replies ends the attempt under way; the
reply that was due then is still to come, and a later attempt reads it.
-/

namespace BitTorrentBits

open PieceProgress

/-- A message that a peer may send between its replies. -/
def OtherMessage : Type := { m : Message // m.id ≠ MSG_ID_PIECE ∧ m.payloadLen < 2 ^ 64 }

/-- The requests not answered yet, the oldest first, and what is sent next: another message,
or a reply. Behind the end of the plan there are replies only. -/
structure Peer where
  unanswered : List Message
  plan : List (Option OtherMessage)

def otherMessages (plan : List (Option OtherMessage)) : Nat := plan.countP Option.isSome

/-- The number of bytes that a `Request` asks for. -/
def lengthField (m : Message) : Nat :=
  bigEndianValue ((m.payload.drop (PIECE_INDEX_BYTES + BLOCK_OFFSET_BYTES)).take BLOCK_LENGTH_BYTES)

/-- The right block for a `Request`, under the two numbers it came with. -/
def replyTo (content : Nat → List UInt8) (request : Message) : Message :=
  ⟨MSG_ID_PIECE, request.payload.take (PIECE_INDEX_BYTES + BLOCK_OFFSET_BYTES) ++
    ((content (indexField request)).drop (offsetField request)).take (lengthField request)⟩

namespace Peer

/-- What the peer sends after `request` has arrived. -/
def deliver (content : Nat → List UInt8) (peer : Peer) (request : Message) : Message × Peer :=
  match peer.plan.headD none with
  | some m => (m.1, ⟨peer.unanswered ++ [request], peer.plan.tail⟩)
  | none =>
    (replyTo content (peer.unanswered.headD request),
      ⟨(peer.unanswered ++ [request]).tail, peer.plan.tail⟩)

/-- What the peer sends for one request after the other. -/
def deliveries (content : Nat → List UInt8) : Peer → List Message → List Message
  | _, [] => []
  | peer, request :: requests =>
    (peer.deliver content request).1 :: deliveries content (peer.deliver content request).2 requests

def after (content : Nat → List UInt8) : Peer → List Message → Peer
  | peer, [] => peer
  | peer, request :: requests => after content (peer.deliver content request).2 requests

/-- Up to the first other message each reply is to the request just made. -/
def InStep (content : Nat → List UInt8) : Peer → List Message → Prop
  | _, [] => True
  | peer, request :: requests => peer.plan.headD none = none →
    peer.unanswered.headD request = request ∧
      InStep content (peer.deliver content request).2 requests

end Peer

/-- `download_piece` for a piece freshly begun. The requests of an attempt are for the blocks
in order, so what the peer sends for them is known as far as the attempt goes on. -/
def attempt (content : Nat → List UInt8) (fresh : Nat → UInt8) (index size : Nat) (peer : Peer) :
    Option (Bool × PieceProgress × Peer) := do
  let messages := peer.deliveries content (requestsFrom index 0 (numBlocks size))
  let (ok, p, s) ← downloadPiece (initPieceProgress index size fresh)
    ⟨List.replicate (numBlocks size) true, messages.map some, []⟩
  return (ok, p, peer.after content s.sent)

/-- A request whose two numbers are read back as they are. -/
def Readable (request : Message) : Prop :=
  ∃ i k, i < 2 ^ 31 ∧ k * BLOCK_SIZE < 2 ^ 31 ∧ requestMsg i (blockOffset k) = request

/-- What an attempt for the blocks of `requests` comes to: the piece, or a failure for the
other message that comes after `d` replies, or a failure without one. -/
inductive Outcome (content : Nat → List UInt8) (index : Nat) (requests : List Message)
    (peer : Peer) : Bool → PieceProgress → Peer → Prop
  | stored {p : PieceProgress} {peer' : Peer} (hstep : peer.InStep content requests)
      (hquiet : otherMessages (peer.plan.take requests.length) = 0) (hindex : p.index = index)
      (hbuf : p.buf = content index) (hpeer : peer' = peer.after content requests) :
      Outcome content index requests peer true p peer'
  | interrupted {p : PieceProgress} {peer' : Peer} (d : Nat)
      (hstep : peer.InStep content requests) (hd : d < requests.length)
      (hquiet : otherMessages (peer.plan.take d) = 0)
      (hother : otherMessages (peer.plan.take (d + 1)) = 1)
      (hpeer : peer' = peer.after content (requests.take (d + 1))) :
      Outcome content index requests peer false p peer'
  | outOfStep {p : PieceProgress} {peer' : Peer} (hstep : ¬ peer.InStep content requests)
      (hplan : otherMessages peer'.plan = otherMessages peer.plan) :
      Outcome content index requests peer false p peer'

variable {content : Nat → List UInt8} {peer : Peer} {request : Message} {requests : List Message}
  {index k : Nat}

namespace Peer

theorem deliver_of_some {m : OtherMessage} (h : peer.plan.headD none = some m) :
    peer.deliver content request = (m.1, ⟨peer.unanswered ++ [request], peer.plan.tail⟩) := by
  rw [deliver, h]

theorem deliver_of_none (h : peer.plan.headD none = none) :
    peer.deliver content request = (replyTo content (peer.unanswered.headD request),
      ⟨(peer.unanswered ++ [request]).tail, peer.plan.tail⟩) := by
  rw [deliver, h]

theorem deliver_plan : (peer.deliver content request).2.plan = peer.plan.tail := by
  cases h : peer.plan.headD none with
  | some m => rw [deliver_of_some h]
  | none => rw [deliver_of_none h]

theorem mem_deliver {r : Message} (h : r ∈ (peer.deliver content request).2.unanswered) :
    r ∈ peer.unanswered ++ [request] := by
  cases hplan : peer.plan.headD none with
  | some m =>
    rw [deliver_of_some hplan] at h
    exact h
  | none =>
    rw [deliver_of_none hplan] at h
    exact List.mem_of_mem_tail h

theorem after_plan (peer : Peer) (requests : List Message) :
    (peer.after content requests).plan = peer.plan.drop requests.length := by
  induction requests generalizing peer with
  | nil => rfl
  | cons request requests ih =>
    rw [after, ih, deliver_plan, List.length_cons, ← List.drop_one, List.drop_drop, Nat.add_comm]

theorem mem_after {r : Message} (h : r ∈ (peer.after content requests).unanswered) :
    r ∈ peer.unanswered ++ requests := by
  induction requests generalizing peer with
  | nil => simpa [after] using h
  | cons request requests ih =>
    have hrest := ih h
    simp only [List.mem_append, List.mem_cons] at hrest ⊢
    rcases hrest with hold | hnew
    · have hmem := mem_deliver hold
      simp only [List.mem_append, List.mem_cons, List.not_mem_nil, or_false] at hmem
      tauto
    · tauto

end Peer

theorem otherMessages_take_add_drop (plan : List (Option OtherMessage)) (n : Nat) :
    otherMessages (plan.take n) + otherMessages (plan.drop n) = otherMessages plan := by
  rw [otherMessages, otherMessages, ← List.countP_append, List.take_append_drop]
  rfl

theorem otherMessages_take_of_some {plan : List (Option OtherMessage)} {m : OtherMessage}
    (h : plan.headD none = some m) (n : Nat) :
    otherMessages (plan.take (n + 1)) = otherMessages (plan.tail.take n) + 1 := by
  cases plan with
  | nil => cases h
  | cons x plan =>
    have hx : x = some m := h
    simp [otherMessages, hx]

theorem otherMessages_take_of_none {plan : List (Option OtherMessage)}
    (h : plan.headD none = none) (n : Nat) :
    otherMessages (plan.take (n + 1)) = otherMessages (plan.tail.take n) := by
  cases plan with
  | nil => simp
  | cons x plan =>
    have hx : x = none := h
    simp [otherMessages, hx]

theorem otherMessages_tail_of_none {plan : List (Option OtherMessage)}
    (h : plan.headD none = none) : otherMessages plan.tail = otherMessages plan := by
  have hsplit := otherMessages_take_add_drop plan 1
  have hfirst := otherMessages_take_of_none h 0
  rw [List.take_zero] at hfirst
  rw [hfirst, List.drop_one] at hsplit
  rw [← hsplit]
  exact (Nat.zero_add _).symm

private theorem field_of_lu {v : Nat} (hv : v < 2 ^ 32) (rest : List UInt8) :
    bigEndianValue (((luToBigEndian v 4).2 ++ rest).take 4) = v := by
  rw [List.take_left' (luToBigEndian_length v 4), bigEndianValue_luToBigEndian]
  exact Nat.mod_eq_of_lt hv

private theorem drop_lu (v : Nat) (rest : List UInt8) : ((luToBigEndian v 4).2 ++ rest).drop 4 = rest :=
  List.drop_left' (luToBigEndian_length v 4)

theorem indexField_requestMsg {i : Nat} (hi : i < 2 ^ 32) (offset : Nat) :
    indexField (requestMsg i offset) = i := by
  rw [indexField, requestMsg_payload]
  exact field_of_lu hi _

theorem offsetField_requestMsg (i : Nat) (hk : k * BLOCK_SIZE < 2 ^ 32) :
    offsetField (requestMsg i (blockOffset k)) = k * BLOCK_SIZE := by
  rw [offsetField, requestMsg_payload, PIECE_INDEX_BYTES, drop_lu,
    blockOffset_of_lt (hk.trans (by decide))]
  exact field_of_lu hk _

theorem replyTo_requestMsg (content : Nat → List UInt8) {i : Nat} (hi : i < 2 ^ 32)
    (hk : k * BLOCK_SIZE < 2 ^ 32) :
    replyTo content (requestMsg i (blockOffset k)) =
      pieceMsg i k (((content i).drop (k * BLOCK_SIZE)).take BLOCK_SIZE) := by
  have hlengthField : lengthField (requestMsg i (blockOffset k)) = BLOCK_SIZE := by
    rw [lengthField, requestMsg_payload, PIECE_INDEX_BYTES, BLOCK_OFFSET_BYTES, ← List.drop_drop,
      drop_lu, drop_lu, ← List.append_nil (luToBigEndian BLOCK_SIZE 4).2]
    exact field_of_lu (by decide) []
  have htake : (requestMsg i (blockOffset k)).payload.take (4 + 4) =
      (luToBigEndian i 4).2 ++ (luToBigEndian (blockOffset k) 4).2 := by
    rw [requestMsg_payload, ← List.append_assoc]
    exact List.take_left' (by rw [List.length_append, luToBigEndian_length, luToBigEndian_length])
  rw [replyTo, indexField_requestMsg hi, offsetField_requestMsg i hk, hlengthField]
  change Message.mk MSG_ID_PIECE (List.take (4 + 4) _ ++ _) = _
  rw [htake, List.append_assoc]
  rfl

theorem answers_replyTo (content : Nat → List UInt8) (hr : Readable request) (hindex : index < 2 ^ 31)
    (hk : k * BLOCK_SIZE < 2 ^ 31) :
    Answers index k (replyTo content request) ↔ request = requestMsg index (blockOffset k) := by
  have hlarge : (2 : Nat) ^ 31 < 2 ^ 32 := by decide
  have hoffset {l : Nat} (h : l * BLOCK_SIZE < 2 ^ 31) : blockOffset l < 2 ^ 31 := by
    rw [blockOffset_of_lt (h.trans (by decide))]
    exact h
  constructor
  · obtain ⟨i, j, hi, hj, rfl⟩ := hr
    rintro ⟨-, hi', hj'⟩
    have hown := answers_pieceMsg (k := j) hi (hoffset hj)
      (((content i).drop (j * BLOCK_SIZE)).take BLOCK_SIZE)
    rw [replyTo_requestMsg content (hi.trans hlarge) (hj.trans hlarge)] at hi' hj'
    rw [hown.2.1, Option.some.injEq] at hi'
    rw [hown.2.2, Option.some.injEq] at hj'
    rw [hi', hj']
  · intro heq
    rw [heq, replyTo_requestMsg content (hindex.trans hlarge) (hk.trans hlarge)]
    exact answers_pieceMsg hindex (hoffset hk) _

private theorem exists_writeAt_next {whole buf : List UInt8} {start n : Nat}
    (hlen : buf.length = whole.length) (hfill : buf.take start = whole.take start)
    (hroom : start + n ≤ whole.length) :
    ∃ buf', writeAt buf start ((whole.drop start).take n) = some buf' ∧
      buf'.length = whole.length ∧ buf'.take (start + n) = whole.take (start + n) := by
  have hblock : ((whole.drop start).take n).length = n := by
    rw [List.length_take, List.length_drop]
    omega
  have hfit : start + ((whole.drop start).take n).length ≤ buf.length := by
    rw [hblock, hlen]
    exact hroom
  have hwrite := writeAt_of_le hfit
  refine ⟨_, hwrite, (writeAt_length hwrite).trans hlen, ?_⟩
  have hfront : (buf.take start ++ (whole.drop start).take n).length = start + n := by
    rw [List.length_append, hblock, List.length_take_of_le (by omega)]
  rw [List.take_left' hfront, hfill, ← List.take_add]

private theorem length_replyTo (content : Nat → List UInt8) (hr : Readable request) :
    PIECE_INDEX_BYTES + BLOCK_OFFSET_BYTES ≤ (replyTo content request).payloadLen ∧
      (replyTo content request).payloadLen < 2 ^ 64 := by
  obtain ⟨i, j, hi, hj, rfl⟩ := hr
  have hlen : (pieceMsg i j (((content i).drop (j * BLOCK_SIZE)).take BLOCK_SIZE)).payloadLen =
      4 + (4 + (((content i).drop (j * BLOCK_SIZE)).take BLOCK_SIZE).length) := by
    simp [pieceMsg, Message.payloadLen, PIECE_INDEX_BYTES, BLOCK_OFFSET_BYTES]
  have hblock : (((content i).drop (j * BLOCK_SIZE)).take BLOCK_SIZE).length ≤ BLOCK_SIZE :=
    List.length_take_le _ _
  rw [replyTo_requestMsg content (hi.trans (by decide)) (hj.trans (by decide)), hlen]
  unfold BLOCK_SIZE PIECE_INDEX_BYTES BLOCK_OFFSET_BYTES at *
  omega

private theorem Outcome.cons {ok : Bool} {p : PieceProgress} {peer' : Peer}
    (hplan : peer.plan.headD none = none) (hhead : peer.unanswered.headD request = request)
    (h : Outcome content index requests (peer.deliver content request).2 ok p peer') :
    Outcome content index (request :: requests) peer ok p peer' := by
  have htail : (peer.deliver content request).2.plan = peer.plan.tail := Peer.deliver_plan
  have hiff : peer.InStep content (request :: requests) ↔
      (peer.deliver content request).2.InStep content requests :=
    ⟨fun hstep => (hstep hplan).2, fun hstep _ => ⟨hhead, hstep⟩⟩
  cases h with
  | stored hstep hquiet hindex hbuf hpeer =>
    rw [htail, ← otherMessages_take_of_none hplan] at hquiet
    exact .stored (hiff.mpr hstep) hquiet hindex hbuf hpeer
  | interrupted d hstep hd hquiet hother hpeer =>
    rw [htail, ← otherMessages_take_of_none hplan] at hquiet hother
    exact .interrupted (d + 1) (hiff.mpr hstep) (Nat.succ_lt_succ hd) hquiet hother hpeer
  | outOfStep hstep hleft =>
    rw [htail, otherMessages_tail_of_none hplan] at hleft
    exact .outOfStep (mt hiff.mp hstep) hleft

private theorem receiveBlock_ownReply {p : PieceProgress} (hindex : p.index < 2 ^ 31)
    (hoffset : p.downloaded * BLOCK_SIZE < 2 ^ 31)
    (hroom : p.downloaded * BLOCK_SIZE + BLOCK_SIZE ≤ (content p.index).length)
    (hlen : p.buf.length = (content p.index).length)
    (hfill : p.buf.take (p.downloaded * BLOCK_SIZE) =
      (content p.index).take (p.downloaded * BLOCK_SIZE)) :
    ∃ buf, receiveBlock p (blockOffset p.downloaded)
          (replyTo content (requestMsg p.index (blockOffset p.downloaded))) =
        some (true, ⟨p.index, buf, p.downloaded + 1⟩) ∧
      buf.length = (content p.index).length ∧
      buf.take ((p.downloaded + 1) * BLOCK_SIZE) =
        (content p.index).take ((p.downloaded + 1) * BLOCK_SIZE) := by
  have hself : Readable (requestMsg p.index (blockOffset p.downloaded)) :=
    ⟨p.index, p.downloaded, hindex, hoffset, rfl⟩
  have hans : Answers p.index p.downloaded
      (replyTo content (requestMsg p.index (blockOffset p.downloaded))) :=
    (answers_replyTo content hself hindex hoffset).mpr rfl
  have hblock : blockOf (replyTo content (requestMsg p.index (blockOffset p.downloaded))) =
      ((content p.index).drop (p.downloaded * BLOCK_SIZE)).take BLOCK_SIZE := by
    rw [replyTo_requestMsg content (hindex.trans (by decide)) (hoffset.trans (by decide)),
      blockOf_pieceMsg]
  obtain ⟨buf, hwrite, hlen', hfill'⟩ := exists_writeAt_next hlen hfill hroom
  refine ⟨buf, ?_, hlen', ?_⟩
  · rw [receiveBlock_of_answers hans (length_replyTo content hself).2, hblock,
      blockOffset_of_lt (hoffset.trans (by decide)), hwrite]
    rfl
  · rwa [Nat.succ_mul]

private theorem readable_after (hread : ∀ r ∈ peer.unanswered, Readable r)
    (hsent : ∀ r ∈ requests, Readable r) :
    ∀ r ∈ (peer.after content requests).unanswered, Readable r := by
  intro r hr
  rcases List.mem_append.mp (Peer.mem_after hr) with hold | hnew
  · exact hread r hold
  · exact hsent r hnew

private theorem readable_headD (hread : ∀ r ∈ peer.unanswered, Readable r)
    (hself : Readable request) : Readable (peer.unanswered.headD request) := by
  cases hqueue : peer.unanswered with
  | nil => exact hself
  | cons r rest => exact hread r (by simp [hqueue])

private theorem rounds_spec (c : Nat) {p : PieceProgress} {n : Nat} (hp : p.downloaded + c = n)
    (hindex : p.index < 2 ^ 31) (hbound : n * BLOCK_SIZE ≤ 2 ^ 31)
    (hwhole : (content p.index).length = n * BLOCK_SIZE)
    (hlen : p.buf.length = (content p.index).length)
    (hfill : p.buf.take (p.downloaded * BLOCK_SIZE) =
      (content p.index).take (p.downloaded * BLOCK_SIZE))
    (hread : ∀ r ∈ peer.unanswered, Readable r) (sent : List Message) :
    ∃ ok p' t, (requestBlocks n (c + 1) p ⟨List.replicate c true,
        (peer.deliveries content (requestsFrom p.index p.downloaded c)).map some, sent⟩).map
          (fun r => (r.1, r.2.1, r.2.2.sent)) =
        some (ok, p', sent ++ requestsFrom p.index p.downloaded t) ∧ t ≤ c ∧
      Outcome content p.index (requestsFrom p.index p.downloaded c) peer ok p'
        (peer.after content (requestsFrom p.index p.downloaded t)) := by
  induction c generalizing p peer sent with
  | zero =>
    refine ⟨true, p, 0, ?_, Nat.le_refl 0, ?_⟩
    · rw [requestBlocks, if_neg (by omega), requestsFrom, List.range'_zero, List.map_nil,
        List.append_nil]
      rfl
    · refine .stored trivial rfl rfl ?_ rfl
      have hall : p.downloaded * BLOCK_SIZE = (content p.index).length := by
        rw [hwhole, ← hp, Nat.add_zero]
      rwa [hall, List.take_length, ← hlen, List.take_length] at hfill
  | succ c ih =>
    have hlt : p.downloaded < n := by omega
    have hnext : (p.downloaded + 1) * BLOCK_SIZE ≤ n * BLOCK_SIZE := Nat.mul_le_mul_right _ hlt
    rw [Nat.succ_mul] at hnext
    have hoffset : p.downloaded * BLOCK_SIZE < 2 ^ 31 := by
      unfold BLOCK_SIZE at *
      omega
    have hself : Readable (requestMsg p.index (blockOffset p.downloaded)) :=
      ⟨p.index, p.downloaded, hindex, hoffset, rfl⟩
    rw [requestsFrom_succ, Peer.deliveries, List.replicate_succ, List.map_cons,
      requestBlocks_succ hlt, requestBlock_eq]
    cases hplan : peer.plan.headD none with
    | some m =>
      refine ⟨false, p, 1, ?_, by omega, .interrupted 0 ?_ (Nat.succ_pos _) rfl ?_ rfl⟩
      · rw [Peer.deliver_of_some hplan, receiveBlock_of_id_ne m.2.1]
        rfl
      · intro hnone
        rw [hplan] at hnone
        cases hnone
      · rw [otherMessages_take_of_some hplan, List.take_zero]
        rfl
    | none =>
      have hhead := readable_headD hread hself
      obtain ⟨hshort, hlong⟩ := length_replyTo content hhead
      by_cases hsame : peer.unanswered.headD (requestMsg p.index (blockOffset p.downloaded)) =
          requestMsg p.index (blockOffset p.downloaded)
      · rw [← hwhole] at hnext
        obtain ⟨buf, hrecv, hlen', hfill'⟩ :=
          receiveBlock_ownReply hindex hoffset hnext hlen hfill
        have hwaiting : ∀ r ∈ (peer.deliver content
            (requestMsg p.index (blockOffset p.downloaded))).2.unanswered, Readable r :=
          readable_after hread (List.forall_mem_singleton.mpr hself)
        obtain ⟨ok, p', t, hrun, ht, hout⟩ := ih (p := ⟨p.index, buf, p.downloaded + 1⟩)
          (by simp only; omega) hindex hwhole hlen' hfill' hwaiting
          (sent ++ [requestMsg p.index (blockOffset p.downloaded)])
        refine ⟨ok, p', t + 1, ?_, by omega, ?_⟩
        · have hreply : (peer.deliver content (requestMsg p.index (blockOffset p.downloaded))).1 =
              replyTo content (requestMsg p.index (blockOffset p.downloaded)) := by
            rw [Peer.deliver_of_none hplan, hsame]
          rw [hreply, hrecv, requestsFrom_succ p.index p.downloaded t,
            List.append_cons sent _ (requestsFrom p.index (p.downloaded + 1) t)]
          exact hrun
        · rw [requestsFrom_succ]
          exact hout.cons hplan hsame
      · have hnot := mt (answers_replyTo content hhead hindex hoffset).mp hsame
        refine ⟨false, p, 1, ?_, by omega, .outOfStep ?_ ?_⟩
        · rw [Peer.deliver_of_none hplan, receiveBlock_of_not_answers hnot hlong fun _ => hshort]
          rfl
        · exact fun hstep => hsame (hstep hplan).1
        · rw [requestsFrom_succ, Peer.after, requestsFrom, List.range'_zero, List.map_nil,
            Peer.after, Peer.deliver_plan, otherMessages_tail_of_none hplan]

private theorem mem_requestsFrom_readable {count : Nat} (hindex : index < 2 ^ 31)
    (hbound : count * BLOCK_SIZE ≤ 2 ^ 31) :
    ∀ r ∈ requestsFrom index 0 count, Readable r := by
  intro r hr
  rw [requestsFrom, List.mem_map] at hr
  obtain ⟨k, hk, rfl⟩ := hr
  rw [List.mem_range'_1] at hk
  refine ⟨index, k, hindex, ?_, rfl⟩
  unfold BLOCK_SIZE at *
  omega

/-- An attempt always comes to an end, and leaves readable requests only behind. -/
theorem attempt_spec (fresh : Nat → UInt8) {size : Nat} (hindex : index < 2 ^ 31)
    (hbound : size ≤ 2 ^ 31) (hdvd : BLOCK_SIZE ∣ size) (hwhole : (content index).length = size)
    (hread : ∀ r ∈ peer.unanswered, Readable r) :
    ∃ ok p peer', attempt content fresh index size peer = some (ok, p, peer') ∧
      Outcome content index (requestsFrom index 0 (numBlocks size)) peer ok p peer' ∧
      ∀ r ∈ peer'.unanswered, Readable r := by
  have hblocks : numBlocks size * BLOCK_SIZE = size := by
    rw [numBlocks_eq (hbound.trans_lt (by decide)), Nat.mod_eq_zero_of_dvd hdvd, Nat.add_zero,
      Nat.div_mul_cancel hdvd]
  have hlen : (initPieceProgress index size fresh).buf.length = (content index).length :=
    (initPieceProgress_size index size fresh).trans hwhole.symm
  have hall : (content index).length = numBlocks size * BLOCK_SIZE := hwhole.trans hblocks.symm
  have hsent (t : Nat) (ht : t ≤ numBlocks size) :
      ∀ r ∈ requestsFrom index 0 t, Readable r := by
    apply mem_requestsFrom_readable hindex
    have hle := Nat.mul_le_mul_right BLOCK_SIZE ht
    omega
  rw [← hblocks] at hbound
  obtain ⟨ok, p, t, hrun, ht, hout⟩ := rounds_spec (numBlocks size) (p := initPieceProgress index
    size fresh) (Nat.zero_add _) hindex hbound hall hlen (by simp [initPieceProgress]) hread []
  obtain ⟨⟨ok', p', s'⟩, hs, heq⟩ := Option.map_eq_some_iff.mp hrun
  simp only [Prod.mk.injEq, List.nil_append] at heq
  obtain ⟨rfl, rfl, hs'⟩ := heq
  change s'.sent = requestsFrom index 0 t at hs'
  refine ⟨ok', p', peer.after content (requestsFrom index 0 t), ?_, hout, ?_⟩
  · have hdown : downloadPiece (initPieceProgress index size fresh)
        ⟨List.replicate (numBlocks size) true,
          (peer.deliveries content (requestsFrom index 0 (numBlocks size))).map some, []⟩ =
        some (ok', p', s') := by
      rw [downloadPiece, initPieceProgress_size]
      exact hs
    rw [attempt, hdown, ← hs']
    rfl
  · exact readable_after hread (hsent t ht)

private theorem payloadLen_deliver :
    (peer.deliver content request).1.payloadLen < 2 ^ 64 := by
  cases hplan : peer.plan.headD none with
  | some m =>
    rw [Peer.deliver_of_some hplan]
    exact m.2.2
  | none =>
    have hlength (r : Message) : lengthField r < 2 ^ 32 := bigEndianValue_take_lt _
    rw [Peer.deliver_of_none hplan]
    generalize peer.unanswered.headD request = r
    have hlen : (replyTo content r).payloadLen ≤ 8 + lengthField r := by
      unfold replyTo Message.payloadLen
      rw [List.length_append]
      exact Nat.add_le_add (List.length_take_le _ _) (List.length_take_le _ _)
    exact hlen.trans_lt ((Nat.add_lt_add_left (hlength r) 8).trans (by decide))

private theorem payloadLen_deliveries :
    ∀ m ∈ peer.deliveries content requests, m.payloadLen < 2 ^ 64 := by
  induction requests generalizing peer with
  | nil => simp [Peer.deliveries]
  | cons request requests ih =>
    rw [Peer.deliveries]
    intro m hm
    rcases List.mem_cons.mp hm with rfl | hrest
    · exact payloadLen_deliver
    · exact ih m hrest

theorem attempt_eq_true {fresh : Nat → UInt8} {size : Nat} {p : PieceProgress} {peer' : Peer}
    (hindex : index < 2 ^ 63) (hpos : 0 < numBlocks size)
    (h : attempt content fresh index size peer = some (true, p, peer')) :
    p.index = index ∧ index < 2 ^ 31 ∧ numBlocks size ≤ 2 ^ 17 := by
  obtain ⟨⟨ok, q, s⟩, hdown, hrest⟩ := Option.bind_eq_some_iff.mp h
  cases hrest
  rw [downloadPiece_eq_downloadInto] at hdown
  obtain ⟨ms, hms⟩ := exists_completes (Nat.zero_le _) (by
    intro m hm
    obtain ⟨m', hm', heq⟩ := List.mem_map.mp hm
    cases heq
    exact payloadLen_deliveries m hm') hdown
  have hcount : ms.length = numBlocks size := by
    have hcount := hms.count
    rwa [Nat.zero_add] at hcount
  have hanswers : AnswersFrom index 0 ms := hms.answers
  refine ⟨hms.index, ?_, hcount ▸ length_of_answersFrom hanswers⟩
  cases ms with
  | nil =>
    rw [← hcount] at hpos
    exact (Nat.lt_irrefl 0 hpos).elim
  | cons m ms =>
    have hmatch := (answers_iff_matches (p := ⟨index, [], 0⟩) hindex (by simp)
      fun _ => length_of_answers hanswers.1).mp hanswers.1
    exact hmatch.2.1

theorem attempt_of_some (fresh : Nat → UInt8) {size : Nat} {m : OtherMessage}
    (hpos : 0 < numBlocks size) (h : peer.plan.headD none = some m) :
    attempt content fresh index size peer = some (false, initPieceProgress index size fresh,
      ⟨peer.unanswered ++ [requestMsg index (blockOffset 0)], peer.plan.tail⟩) := by
  obtain ⟨c, hc⟩ := Nat.exists_eq_succ_of_ne_zero (Nat.ne_of_gt hpos)
  have hlt : (initPieceProgress index size fresh).downloaded < c + 1 := Nat.succ_pos c
  rw [attempt, downloadPiece, initPieceProgress_size, hc, requestsFrom_succ, Peer.deliveries, List.replicate_succ,
    List.map_cons, requestBlocks_succ hlt, requestBlock_eq, Peer.deliver_of_some h,
    receiveBlock_of_id_ne m.2.1]
  change some (_, _, peer.after content [requestMsg index (blockOffset 0)]) = _
  rw [Peer.after, Peer.after, Peer.deliver_of_some h]

theorem Outcome.otherMessages_eq {ok : Bool} {p : PieceProgress} {peer' : Peer}
    (h : Outcome content index requests peer ok p peer')
    (hstep : peer.InStep content requests) :
    otherMessages peer'.plan + (if ok then 0 else 1) = otherMessages peer.plan := by
  cases h with
  | stored _ hquiet _ _ hpeer =>
    have hsplit := otherMessages_take_add_drop peer.plan requests.length
    rw [hpeer, Peer.after_plan, ← hsplit, hquiet, if_pos rfl]
    omega
  | interrupted d _ hd _ hother hpeer =>
    have hsplit := otherMessages_take_add_drop peer.plan (d + 1)
    rw [hpeer, Peer.after_plan, List.length_take_of_le hd, ← hsplit, hother]
    exact Nat.add_comm _ 1
  | outOfStep hnot _ => exact (hnot hstep).elim

theorem exists_after_of_attempt {fresh : Nat → UInt8} {size : Nat} {ok : Bool}
    {p : PieceProgress} {peer' : Peer}
    (h : attempt content fresh index size peer = some (ok, p, peer')) :
    ∃ requests, peer' = peer.after content requests := by
  obtain ⟨⟨ok', q, s⟩, -, hrest⟩ := Option.bind_eq_some_iff.mp h
  cases hrest
  exact ⟨s.sent, rfl⟩

end BitTorrentBits
