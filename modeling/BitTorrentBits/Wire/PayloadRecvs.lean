import BitTorrentBits.Wire.Message

/-!
# The payload loop

However the connection answers the calls of the payload loop, each of them is given the rest
of the payload buffer, and the message is what they bring together.
-/

namespace BitTorrentBits.Message

/-- The calls of `receive_data` that the payload loop makes. -/
def payloadRecvs (payloadLen : Nat) : Nat → Conn → Int → List PayloadRecv
  | 0, _, _ => []
  | fuel + 1, c, bytesReceived =>
    if toULong bytesReceived < payloadLen then
      let (received, got, c') := c.receiveData (toULong (payloadLen - bytesReceived))
      ⟨bytesReceived, toULong (payloadLen - bytesReceived), received, got⟩ ::
        if received ≤ 0 then []
        else
          match addInt bytesReceived received with
          | none => []
          | some bytesReceived' => payloadRecvs payloadLen fuel c' bytesReceived'
    else []

/-- A call that follows the calls `before` is given the rest of the payload buffer, right
after the bytes they brought, and fails or brings some of it. -/
structure InPlace (payloadLen : Nat) (before : List PayloadRecv) (call : PayloadRecv) : Prop where
  offset : call.offset = (bytesOf before).length
  inside : call.offset + call.size = payloadLen
  wanted : 0 < call.size
  received : call.received ≤ 0 ∨ call.received = call.got.length ∧ call.got.length ≤ call.size

variable {offset want : Nat} {c c' : Conn} {calls : List PayloadRecv} {all : Bool}

theorem payloadRecvs_of_receives (h : Receives offset want c calls all c') {fuel : Nat}
    (hmax : offset + want < 2 ^ 31) (hfuel : want < fuel) :
    payloadRecvs (offset + want) fuel c offset = calls := by
  induction h generalizing fuel with
  | whole offset c =>
    obtain ⟨n, rfl⟩ : ∃ n, fuel = n + 1 := ⟨fuel - 1, by omega⟩
    rw [payloadRecvs, toULong_natCast (by omega), if_neg (by omega)]
  | fails hwant hrecv hfail =>
    obtain ⟨n, rfl⟩ : ∃ n, fuel = n + 1 := ⟨fuel - 1, by omega⟩
    rw [payloadRecvs, toULong_natCast (by omega), if_pos (by omega), toULong_missing hmax, hrecv]
    dsimp only
    rw [if_pos hfail]
  | @chunk offset left c c' c'' got calls all hpos hrecv _ ih =>
    obtain ⟨n, rfl⟩ : ∃ n, fuel = n + 1 := ⟨fuel - 1, by omega⟩
    have hadd : addInt offset got.length = some ((offset + got.length : Nat) : Int) := by
      rw [addInt, if_pos (by omega), Int.natCast_add]
    have hsome : ¬ (got.length : Int) ≤ 0 := by omega
    have hrest := ih (show offset + got.length + left < 2 ^ 31 by omega) (show left < n by omega)
    rw [payloadRecvs, toULong_natCast (by omega), if_pos (by omega), toULong_missing hmax, hrecv]
    dsimp only
    rw [if_neg hsome, hadd]
    dsimp only
    rw [← Nat.add_assoc, hrest]

theorem Receives.inPlace (h : Receives offset want c calls all c') {before after : List PayloadRecv}
    {call : PayloadRecv} (hcalls : calls = before ++ call :: after) :
    call.offset = offset + (bytesOf before).length ∧ call.offset + call.size = offset + want ∧
      0 < call.size ∧
      (call.received ≤ 0 ∨ call.received = call.got.length ∧ call.got.length ≤ call.size) := by
  induction h generalizing before with
  | whole => simp at hcalls
  | fails hwant _ hfail =>
    obtain ⟨rfl, hcons⟩ | ⟨_, rfl, h⟩ := List.cons_eq_append_iff.mp hcalls
    · cases hcons
      exact ⟨by simp, by simp, hwant, Or.inl hfail⟩
    · simp at h
  | chunk hpos _ _ ih =>
    obtain ⟨rfl, hcons⟩ | ⟨before, rfl, h⟩ := List.cons_eq_append_iff.mp hcalls
    · cases hcons
      exact ⟨by simp, by simp, Nat.add_pos_left hpos _, Or.inr ⟨rfl, Nat.le_add_right _ _⟩⟩
    · obtain ⟨hoffset, hinside, hwanted, hreceived⟩ := ih h
      refine ⟨?_, ?_, hwanted, hreceived⟩
      · rw [hoffset, bytesOf_cons, List.length_append]
        push_cast
        omega
      · rw [hinside]
        push_cast
        omega

theorem Receives.all_iff (h : Receives offset want c calls all c') :
    all = false ↔ ∃ call ∈ calls, call.received ≤ 0 := by
  induction h with
  | whole => simp
  | fails _ _ hfail => simp [hfail]
  | chunk hpos _ _ ih => simp [ih, List.ne_nil_of_length_pos hpos]

theorem Receives.flatten (h : Receives offset want c calls all c') :
    c.pending.flatten = bytesOf calls ++ c'.pending.flatten := by
  induction h with
  | whole => rfl
  | fails _ hrecv _ => simpa using Conn.receiveData_flatten hrecv
  | chunk _ hrecv _ ih => rw [Conn.receiveData_flatten hrecv, ih, bytesOf_cons, List.append_assoc]

private theorem receiveData_first {segment : List UInt8} {segments : List (List UInt8)}
    (hne : [] ∉ segment :: segments) (hfit : (segment :: segments).flatten.length ≤ want)
    (hmax : want < 2 ^ 31) (pending : List (List UInt8)) :
    Conn.receiveData ⟨segment :: segments ++ pending⟩ want =
      ((segment.length : Int), segment, ⟨segments ++ pending⟩) := by
  rw [List.flatten_cons, List.length_append] at hfit
  simp only [List.mem_cons, not_or] at hne
  exact Conn.receiveData_segment (Ne.symm hne.1) (by omega) hmax

theorem Receives.segments (h : Receives offset want c calls all c')
    {segments pending : List (List UInt8)} (hc : c = ⟨segments ++ pending⟩) (hne : [] ∉ segments)
    (hfit : segments.flatten.length ≤ want) (hmax : want < 2 ^ 31) :
    segments <+: calls.map PayloadRecv.got := by
  induction h generalizing segments with
  | whole =>
    cases segments with
    | nil => exact List.nil_prefix
    | cons segment segments => simp_all
  | fails _ hrecv hfail =>
    cases segments with
    | nil => exact List.nil_prefix
    | cons segment segments =>
      rw [hc, receiveData_first hne hfit hmax, Prod.mk.injEq] at hrecv
      rw [← hrecv.1] at hfail
      have hnil : segment = [] := List.eq_nil_of_length_eq_zero (by omega)
      simp [hnil] at hne
  | chunk _ hrecv _ ih =>
    cases segments with
    | nil => exact List.nil_prefix
    | cons segment segments =>
      rw [hc, receiveData_first hne hfit hmax, Prod.mk.injEq, Prod.mk.injEq] at hrecv
      obtain ⟨-, rfl, rfl⟩ := hrecv
      rw [List.flatten_cons, List.length_append] at hfit
      have hrest := ih rfl (List.not_mem_of_not_mem_cons hne) (by omega) (by omega)
      exact List.cons_prefix_cons.mpr ⟨rfl, hrest⟩

private theorem header_fields_of_receiveData {header : List UInt8} {payloadLen : Nat}
    (hrecv : c.receiveData 5 = (5, header, c'))
    (hlen : bigEndianValue (header.take 4) = payloadLen + 1) (hmax : payloadLen + 1 < 2 ^ 31) :
    bigEndianToLu header MSG_LEN_BYTES = some (payloadLen + 1) ∧
      ∃ msgId, header[MSG_LEN_BYTES]? = some msgId := by
  obtain ⟨received, got, d, hcall, hcase⟩ := c.receiveData_cases (show 0 < 5 by decide) (by decide)
  rw [hrecv] at hcall
  cases hcall
  have hfive : header.length = 5 := by omega
  constructor
  · have hread : bigEndianToLu header 4 = _ := bigEndianToLu_take (by omega)
    rw [hlen, toULong_toInt_of_lt hmax] at hread
    exact hread
  · exact ⟨_, List.getElem?_eq_getElem (by rw [hfive]; decide)⟩

/-- After a complete header, and however the connection answers: the payload loop ends, each
of its calls is given the rest of the payload buffer, the reader returns NULL exactly when
one of them fails, and otherwise the message of the bytes they bring, which are as many as
the header says and all that has been taken. -/
theorem readMessageFromConn_payload (fresh : Nat → UInt8) {c c' : Conn} {header : List UInt8}
    {payloadLen : Nat} (hrecv : c.receiveData 5 = (5, header, c'))
    (hlen : bigEndianValue (header.take 4) = payloadLen + 1) (hmax : payloadLen ≤ 2 ^ 31 - 2) :
    (∀ before call after, payloadRecvs payloadLen (payloadLen + 1) c' 0 = before ++ call :: after →
      InPlace payloadLen before call) ∧
    (∀ segments pending, c' = ⟨segments ++ pending⟩ → [] ∉ segments →
      segments.flatten.length ≤ payloadLen →
      segments <+: (payloadRecvs payloadLen (payloadLen + 1) c' 0).map PayloadRecv.got) ∧
    ∃ result c'', readMessageFromConn fresh c = some (result, c'') ∧
      (result = none ↔
        ∃ call ∈ payloadRecvs payloadLen (payloadLen + 1) c' 0, call.received ≤ 0) ∧
      ∀ m, result = some m → header[MSG_LEN_BYTES]? = some m.id ∧
        m.payload = bytesOf (payloadRecvs payloadLen (payloadLen + 1) c' 0) ∧
        m.payload.length = payloadLen ∧
        c'.pending.flatten = m.payload ++ c''.pending.flatten := by
  obtain ⟨calls, all, c'', hcalls⟩ := exists_receives 0 c' (show payloadLen < 2 ^ 31 by omega)
  have hrecvs := payloadRecvs_of_receives hcalls (by omega) (Nat.lt_succ_self payloadLen)
  have hcall : payloadRecvs payloadLen (payloadLen + 1) c' 0 = calls := by
    rw [Nat.zero_add] at hrecvs
    exact hrecvs
  obtain ⟨hnum, msgId, hid⟩ := header_fields_of_receiveData hrecv hlen (by omega)
  have hloop := receivePayload_fresh fresh hcalls (by omega)
  have hsize : ∀ bytes, (if all then some (bytesOf calls) else none) = some bytes →
      bytes.length = payloadLen := by
    intro bytes hbytes
    cases all with
    | false => simp at hbytes
    | true =>
      rw [← Option.some.inj hbytes]
      exact hcalls.length
  have hread := readMessageFromConn_of_header fresh hrecv hnum hid (by omega) hloop hsize
  rw [hcall]
  refine ⟨?_, fun _ _ hc hne hfit => hcalls.segments hc hne hfit (by omega), ?_⟩
  · intro before call after hsplit
    obtain ⟨hoffset, hinside, hwanted, hreceived⟩ := hcalls.inPlace hsplit
    refine ⟨?_, ?_, hwanted, hreceived⟩
    · simpa using hoffset
    · simpa using hinside
  · refine ⟨_, c'', hread, ?_, ?_⟩
    · rw [← hcalls.all_iff]
      cases all <;> simp
    · intro m hm
      cases all with
      | false => simp at hm
      | true =>
        cases hm
        exact ⟨hid, rfl, hcalls.length, hcalls.flatten⟩

/-- A payload of two bytes in two chunks, with one byte after it. -/
theorem readMessageFromConn_payload_two_chunks :
    ∃ m d, readMessageFromConn (fun _ => 0) ⟨[[0, 0, 0, 3, 7], [1], [2, 9]]⟩ = some (some m, d) ∧
      m.payload = [1, 2] ∧ d.pending.flatten = [9] := by
  have hrecv : Conn.receiveData ⟨[[0, 0, 0, 3, 7], [1], [2, 9]]⟩ 5 =
      (5, [0, 0, 0, 3, 7], ⟨[[1], [2, 9]]⟩) := rfl
  have hlen : bigEndianValue ([0, 0, 0, 3, 7].take 4) = 2 + 1 := rfl
  obtain ⟨-, -, result, d, hread, hnull, hm⟩ :=
    readMessageFromConn_payload (fun _ => 0) hrecv hlen (by decide)
  cases result with
  | none => exact absurd (hnull.mp rfl) (by decide)
  | some m =>
    obtain ⟨-, hpayload, -, hrest⟩ := hm m rfl
    have hbytes : m.payload = [1, 2] := hpayload
    rw [hbytes] at hrest
    have hnine : [1, 2] ++ [9] = [1, 2] ++ d.pending.flatten := hrest
    exact ⟨m, d, hread, hbytes, (List.append_cancel_left hnine).symm⟩

end BitTorrentBits.Message
