import BitTorrentBits.Wire.Message

/-!
# Frames on a connection

Over a transport that delivers what is asked for, each call of `read_message_from_conn`
should take one frame: the length in four bytes, and as many bytes after it. The call asks
for the id together with the length, and a frame without a body has no id.
-/

namespace BitTorrentBits.Message

/-- The length of `body` in four bytes, and `body`. -/
def frame (body : List UInt8) : List UInt8 := (luToBigEndian body.length MSG_LEN_BYTES).2 ++ body

/-- A connection on which all of `stream` has arrived. -/
def arrived (stream : List UInt8) : Conn := ⟨if stream = [] then [] else [stream]⟩

/-- The connection after `k` calls of `read_message_from_conn`. -/
def connAfter (fresh : Nat → UInt8) : Nat → Conn → Option Conn
  | 0, c => some c
  | k + 1, c => do
    let (_, c') ← readMessageFromConn fresh c
    connAfter fresh k c'

/-- After any number of calls, as many frames have been taken off the stream. -/
def StaysAligned (fresh : Nat → UInt8) (bodies : List (List UInt8)) (rest : List UInt8) : Prop :=
  ∀ k ≤ bodies.length, ∃ c, connAfter fresh k (arrived (bodies.flatMap frame ++ rest)) = some c ∧
    c.pending.flatten = (bodies.drop k).flatMap frame ++ rest

variable {fresh : Nat → UInt8} {more rest : List UInt8} {bodies : List (List UInt8)}

theorem arrived_flatten (stream : List UInt8) : (arrived stream).pending.flatten = stream := by
  unfold arrived
  split <;> simp_all

theorem receiveData_arrived {taken : List UInt8} (hpos : taken ≠ []) (hmax : taken.length < 2 ^ 31)
    (more : List UInt8) :
    (arrived (taken ++ more)).receiveData taken.length =
      ((taken.length : Int), taken, arrived more) := by
  have hne : taken ++ more ≠ [] := by simp [hpos]
  rw [arrived, if_neg hne,
    Conn.receiveData_cons hne (List.length_pos_iff.mpr hpos) hmax, List.take_left, List.drop_left]
  congr 2
  by_cases hmore : more = []
  · simp [arrived, hmore]
  · have hlen : 0 < more.length := List.length_pos_iff.mpr hmore
    rw [if_neg (by rw [List.length_append]; omega), arrived, if_neg hmore]

private theorem receive_frame_header (length : Nat) (hmax : length < 2 ^ 31) (first : UInt8)
    (more : List UInt8) :
    ∃ buf, (arrived ((luToBigEndian length 4).2 ++ first :: more)).receiveData 5 =
        (5, buf, arrived more) ∧
      bigEndianToLu buf MSG_LEN_BYTES = some length ∧ buf[MSG_LEN_BYTES]? = some first := by
  have hlen : ((luToBigEndian length 4).2 ++ [first]).length = 5 := by simp
  refine ⟨(luToBigEndian length 4).2 ++ [first], ?_, ?_, ?_⟩
  · have hne : (luToBigEndian length 4).2 ++ [first] ≠ [] := by simp
    have hrecv := receiveData_arrived hne (by omega) more
    rwa [hlen, List.append_assoc] at hrecv
  · exact bigEndianToLu_luToBigEndian [first] (Nat.le_refl 4) hmax (by omega)
  · rw [List.getElem?_append_right (by simp [MSG_LEN_BYTES]), luToBigEndian_length]
    rfl

private theorem exists_receives_arrived {payload : List UInt8} (hmax : payload.length < 2 ^ 31)
    (more : List UInt8) :
    ∃ calls, Receives 0 payload.length (arrived (payload ++ more)) calls true (arrived more) ∧
      bytesOf calls = payload := by
  by_cases hnil : payload = []
  · subst hnil
    exact ⟨[], .whole 0 _, rfl⟩
  · have hpos : 0 < payload.length := List.length_pos_iff.mpr hnil
    have hcalls : Receives 0 (payload.length + 0) (arrived (payload ++ more)) _ true (arrived more) :=
      .chunk hpos (receiveData_arrived hnil hmax more) (.whole _ _)
    exact ⟨_, hcalls, List.append_nil _⟩

private theorem receivePayload_arrived {payload : List UInt8} (hmax : payload.length < 2 ^ 31)
    (more : List UInt8) :
    receivePayload payload.length (payload.length + 1) (arrived (payload ++ more)) 0
      ((List.range payload.length).map fresh) = some (some payload, arrived more) := by
  obtain ⟨calls, hcalls, hbytes⟩ := exists_receives_arrived hmax more
  have hloop := receivePayload_fresh fresh hcalls hmax
  rwa [if_pos rfl, hbytes] at hloop

theorem readMessageFromConn_frame (first : UInt8) {payload : List UInt8}
    (hmax : payload.length + 1 < 2 ^ 31) (more : List UInt8) :
    readMessageFromConn fresh (arrived (frame (first :: payload) ++ more)) =
      some (some ⟨first, payload⟩, arrived more) := by
  obtain ⟨buf, hrecv, hnum, hid⟩ := receive_frame_header _ hmax first (payload ++ more)
  have hstream : frame (first :: payload) ++ more =
      (luToBigEndian (payload.length + 1) 4).2 ++ first :: (payload ++ more) := by
    simp [frame, MSG_LEN_BYTES]
  rw [hstream]
  apply readMessageFromConn_of_header fresh hrecv hnum hid hmax
    (receivePayload_arrived (by omega) more)
  intro bytes hbytes
  rw [Option.some.inj hbytes]

theorem readMessageFromConn_keepAlive (first : UInt8) (more : List UInt8) :
    readMessageFromConn fresh (arrived (frame [] ++ first :: more)) =
      some (none, arrived more) := by
  obtain ⟨buf, hrecv, hnum, hid⟩ := receive_frame_header 0 (by decide) first more
  have hstream : frame [] ++ first :: more = (luToBigEndian 0 4).2 ++ first :: more := by
    simp [frame, MSG_LEN_BYTES]
  rw [readMessageFromConn, hstream, show MSG_LEN_BYTES + MSG_ID_BYTES = 5 from rfl, hrecv]
  simp only [hnum, show ¬ (5 : Int) ≤ 0 by decide, show toULong 5 = 5 from rfl, ne_eq,
    not_true_eq_false, if_false, Option.bind_eq_bind, Option.bind_some, if_true]
  rfl

theorem connAfter_add (j k : Nat) (c : Conn) :
    connAfter fresh (j + k) c = (connAfter fresh j c).bind (connAfter fresh k) := by
  induction j generalizing c with
  | zero => simp [connAfter]
  | succ j ih =>
    rw [Nat.add_right_comm, connAfter, connAfter]
    cases readMessageFromConn fresh c with
    | none => rfl
    | some r => exact ih r.2

theorem connAfter_frames (fresh : Nat → UInt8) (hbodies : [] ∉ bodies)
    (hmax : ∀ body ∈ bodies, body.length < 2 ^ 31) (rest : List UInt8) :
    connAfter fresh bodies.length (arrived (bodies.flatMap frame ++ rest)) =
      some (arrived rest) := by
  induction bodies with
  | nil => rfl
  | cons body bodies ih =>
    rw [List.mem_cons, not_or] at hbodies
    cases body with
    | nil => exact (hbodies.1 rfl).elim
    | cons first payload =>
      rw [List.flatMap_cons, List.append_assoc, List.length_cons, connAfter,
        readMessageFromConn_frame first (hmax _ List.mem_cons_self)]
      exact ih hbodies.2 fun body hbody => hmax body (List.mem_cons_of_mem _ hbody)

private theorem staysAligned_of_bodies (hbodies : [] ∉ bodies)
    (hmax : ∀ body ∈ bodies, body.length < 2 ^ 31) : StaysAligned fresh bodies rest := by
  intro k hk
  have hsplit : bodies.flatMap frame ++ rest =
      (bodies.take k).flatMap frame ++ ((bodies.drop k).flatMap frame ++ rest) := by
    rw [← List.append_assoc, ← List.flatMap_append, List.take_append_drop]
  have htake : [] ∉ bodies.take k := fun h => hbodies (List.mem_of_mem_take h)
  have hframes := connAfter_frames fresh htake (fun body h => hmax body (List.mem_of_mem_take h))
    ((bodies.drop k).flatMap frame ++ rest)
  rw [List.length_take_of_le hk, ← hsplit] at hframes
  exact ⟨_, hframes, arrived_flatten _⟩

/-- For frames with more on the stream after them, every call of `read_message_from_conn`
takes exactly one frame exactly when none of them has length 0. -/
theorem staysAligned_iff (fresh : Nat → UInt8) (bodies : List (List UInt8)) (rest : List UInt8)
    (hmax : ∀ body ∈ bodies, body.length < 2 ^ 31) (hrest : rest ≠ []) :
    StaysAligned fresh bodies rest ↔ ∀ body ∈ bodies, body.length ≠ 0 := by
  constructor
  · intro h body hbody hzero
    have hnil : [] ∈ bodies := List.eq_nil_of_length_eq_zero hzero ▸ hbody
    obtain ⟨before, after, rfl, hbefore⟩ := List.eq_append_cons_of_mem hnil
    obtain ⟨first, more, hmore⟩ := List.exists_cons_of_ne_nil
      (show after.flatMap frame ++ rest ≠ [] by simp [hrest])
    have hframes := connAfter_frames fresh hbefore
      (fun body hb => hmax body (List.mem_append_left _ hb)) (frame [] ++ first :: more)
    have hstream : (before ++ [] :: after).flatMap frame ++ rest =
        before.flatMap frame ++ (frame [] ++ first :: more) := by
      simp [← hmore]
    obtain ⟨c, hc, hleft⟩ := h (before.length + 1) (by simp)
    rw [hstream, connAfter_add, hframes, Option.bind_some, connAfter,
      readMessageFromConn_keepAlive] at hc
    cases hc
    have hdrop : (before ++ [] :: after).drop (before.length + 1) = after := by simp
    rw [arrived_flatten, hdrop, hmore] at hleft
    have hlen := congrArg List.length hleft
    rw [List.length_cons] at hlen
    omega
  · intro h
    apply staysAligned_of_bodies _ hmax
    intro hnil
    exact h [] hnil rfl

/-- A keep-alive and then a `Choke` message: the call takes the keep-alive and the first byte
of the `Choke`. -/
theorem not_staysAligned_keepAlive :
    ¬ ∀ (fresh : Nat → UInt8) (bodies : List (List UInt8)) (rest : List UInt8),
      (∀ body ∈ bodies, body.length < 2 ^ 31) → rest ≠ [] → StaysAligned fresh bodies rest := by
  intro h
  obtain ⟨c, hc, hleft⟩ := h (fun _ => 0) [[]] (frame [0]) (by simp) (by decide) 1 (by decide)
  have hstream : [[]].flatMap frame ++ frame [0] = frame [] ++ 0 :: [0, 0, 1, 0] := by decide
  rw [hstream, connAfter, readMessageFromConn_keepAlive] at hc
  cases hc
  rw [arrived_flatten] at hleft
  have hlen := congrArg List.length hleft
  contradiction

theorem staysAligned_iff_choke : StaysAligned (fun _ => 0) [[0]] (frame [0]) :=
  (staysAligned_iff (fun _ => 0) [[0]] (frame [0]) (by simp) (by decide)).mpr (by simp)

end BitTorrentBits.Message
