import BitTorrentBits.Wire.Message

/-!
# Decoding a message

`decode_message` of `message.c`. It reads the length of the message, and then its id, at
fixed places of the buffer; the only thing it compares with `buf_length` is the length it
has read, after a sign extension and the addition of four.
-/

namespace BitTorrentBits.Message

/-- The message, or NULL; the outer `none` is a read outside the buffer. -/
def decodeMessage (buf : List UInt8) (bufLength : Nat) : Option (Option Message) := do
  let messageLength ← bigEndianToLu buf MSG_LEN_BYTES
  if toULong (messageLength + MSG_LEN_BYTES) ≠ bufLength then return none
  let msgId ← buf[MSG_LEN_BYTES]?
  return some (← initMessage msgId (toULong (messageLength - MSG_ID_BYTES))
    (buf.drop (MSG_LEN_BYTES + MSG_ID_BYTES)))

def lengthField (buf : List UInt8) : Nat := bigEndianValue (buf.take MSG_LEN_BYTES)

/-- A length from 1 on in four bytes, and as many bytes after them. -/
def WellFramed (buf : List UInt8) : Prop :=
  1 ≤ lengthField buf ∧ buf.length = MSG_LEN_BYTES + lengthField buf

/-- `decode_message` reads only inside the buffer. It returns the message of a well framed
buffer, which encodes to that buffer again, and NULL for every other buffer. -/
def DecodesRight (buf : List UInt8) : Prop :=
  ∃ result, decodeMessage buf buf.length = some result ∧
    (WellFramed buf → ∃ m, result = some m ∧ buf[MSG_LEN_BYTES]? = some m.id ∧
      m.payloadLen = lengthField buf - 1 ∧ m.payload = buf.drop (MSG_LEN_BYTES + MSG_ID_BYTES) ∧
      m.encodeMessage = some buf) ∧
    (¬ WellFramed buf → result = none)

/-- The buffer has the four bytes of the length, and more than these if they are zero. A
length with its top bit set is not that of the buffer, whether it is read without or with
a sign. -/
def LengthReadable (buf : List UInt8) : Prop :=
  MSG_LEN_BYTES ≤ buf.length ∧ (lengthField buf = 0 → buf.length ≠ MSG_LEN_BYTES) ∧
    (2 ^ 31 ≤ lengthField buf → buf.length ≠ MSG_LEN_BYTES + lengthField buf ∧
      buf.length ≠ MSG_LEN_BYTES + lengthField buf + (2 ^ 64 - 2 ^ 32))

variable {buf : List UInt8}

theorem lengthField_lt (buf : List UInt8) : lengthField buf < 2 ^ 32 := bigEndianValue_take_lt buf

theorem bigEndianToLu_lengthField (h : MSG_LEN_BYTES ≤ buf.length) :
    bigEndianToLu buf MSG_LEN_BYTES = some (toULong (toInt (lengthField buf))) :=
  bigEndianToLu_take h

private theorem decodeMessage_eq (h : MSG_LEN_BYTES ≤ buf.length) :
    decodeMessage buf buf.length =
      if toULong (toULong (toInt (lengthField buf)) + MSG_LEN_BYTES) ≠ buf.length then some none
      else buf[MSG_LEN_BYTES]?.bind fun msgId =>
        (initMessage msgId (toULong (toULong (toInt (lengthField buf)) - MSG_ID_BYTES))
          (buf.drop (MSG_LEN_BYTES + MSG_ID_BYTES))).map some := by
  rw [decodeMessage, bigEndianToLu_lengthField h]
  simp only [Option.bind_eq_bind, Option.bind_some, Option.pure_def]
  split
  · rfl
  · cases buf[MSG_LEN_BYTES]? with
    | none => rfl
    | some msgId => simp [Option.map_eq_bind]

private theorem decoded (h : WellFramed buf) :
    ∃ msgId, buf[MSG_LEN_BYTES]? = some msgId ∧
      initMessage msgId (lengthField buf - 1) (buf.drop (MSG_LEN_BYTES + MSG_ID_BYTES)) =
        some ⟨msgId, buf.drop (MSG_LEN_BYTES + MSG_ID_BYTES)⟩ ∧
      (Message.mk msgId (buf.drop (MSG_LEN_BYTES + MSG_ID_BYTES))).payloadLen =
        lengthField buf - 1 ∧
      (Message.mk msgId (buf.drop (MSG_LEN_BYTES + MSG_ID_BYTES))).encodeMessage = some buf := by
  obtain ⟨hpos, hlen⟩ := h
  change buf.length = 4 + lengthField buf at hlen
  have hid : 4 < buf.length := by omega
  have hdrop : (buf.drop 5).length = lengthField buf - 1 := by
    rw [List.length_drop]
    omega
  refine ⟨buf[4], List.getElem?_eq_getElem hid, ?_, hdrop, ?_⟩
  · have hread : readAt (buf.drop 5) 0 (lengthField buf - 1) = some (((buf.drop 5).drop 0).take _) :=
      readAt_of_le (by omega)
    change (readAt (buf.drop 5) 0 (lengthField buf - 1)).map _ = _
    rw [hread, List.drop_zero, ← hdrop, List.take_length]
    rfl
  · have htake : (buf.take 4).length = 4 := List.length_take_of_le (by omega)
    have hfield := luToBigEndian_bigEndianValue (buf.take 4)
    rw [htake] at hfield
    have hone : (buf.drop 5).length + 1 = bigEndianValue (buf.take 4) := by
      change _ = lengthField buf
      omega
    rw [encodeMessage_eq]
    change some ((luToBigEndian ((buf.drop 5).length + 1) 4).2 ++ buf[4] :: buf.drop 5) = _
    rw [hone, hfield, ← List.drop_eq_getElem_cons hid, List.take_append_drop]

private theorem decodesRight_of_readable (h : LengthReadable buf) : DecodesRight buf := by
  obtain ⟨hfour, hzero, htop⟩ := h
  unfold DecodesRight
  rw [decodeMessage_eq hfour]
  change 4 ≤ buf.length at hfour
  change _ → buf.length ≠ 4 at hzero
  change _ → buf.length ≠ 4 + _ ∧ buf.length ≠ 4 + _ + _ at htop
  rcases toULong_toInt_cases (lengthField_lt buf) with ⟨hlow, hread⟩ | ⟨hhigh, hread⟩
  · have hsum : toULong ((lengthField buf : Int) + MSG_LEN_BYTES) = lengthField buf + 4 :=
      toULong_add (a := lengthField buf) (b := 4) (by omega)
    rw [hread, hsum]
    by_cases hlen : lengthField buf + 4 = buf.length
    · have hpos : 1 ≤ lengthField buf := by
        by_contra hnot
        exact hzero (by omega) (by omega)
      have hframed : WellFramed buf := ⟨hpos, by unfold MSG_LEN_BYTES; omega⟩
      obtain ⟨msgId, hid, hinit, hpayload, hencode⟩ := decoded hframed
      have hsub : toULong ((lengthField buf : Int) - MSG_ID_BYTES) = lengthField buf - 1 :=
        toULong_sub (a := lengthField buf) (b := 1) hpos (by omega)
      rw [if_neg (not_not.mpr hlen), hsub, hid, Option.bind_some, hinit]
      exact ⟨_, rfl, fun _ => ⟨_, rfl, rfl, hpayload, rfl, hencode⟩, fun hnot => (hnot hframed).elim⟩
    · rw [if_pos hlen]
      refine ⟨none, rfl, fun hframed => ?_, fun _ => rfl⟩
      have hsame : buf.length = 4 + lengthField buf := hframed.2
      omega
  · have hlt := lengthField_lt buf
    have hne : toULong (((lengthField buf + (2 ^ 64 - 2 ^ 32) : Nat) : Int) + MSG_LEN_BYTES) ≠
        buf.length := by
      unfold toULong MSG_LEN_BYTES
      have hlarge := (htop hhigh).2
      omega
    rw [hread, if_pos hne]
    exact ⟨none, rfl, fun hframed => ((htop hhigh).1 hframed.2).elim, fun _ => rfl⟩

private theorem readable_of_decodesRight (hmax : buf.length < 2 ^ 64) (h : DecodesRight buf) :
    LengthReadable buf := by
  obtain ⟨result, hresult, hframed, hnot⟩ := h
  have hfour : MSG_LEN_BYTES ≤ buf.length := by
    by_contra hshort
    rw [decodeMessage, bigEndianToLu_eq_none (Nat.lt_of_not_le hshort)] at hresult
    contradiction
  rw [decodeMessage_eq hfour] at hresult
  refine ⟨hfour, ?_, ?_⟩
  · intro hzero hlen
    have hid : buf[MSG_LEN_BYTES]? = none := List.getElem?_eq_none (Nat.le_of_eq hlen)
    rw [hzero, hlen, hid] at hresult
    contradiction
  · intro hhigh
    rcases toULong_toInt_cases (lengthField_lt buf) with ⟨hlow, -⟩ | ⟨-, hread⟩
    · omega
    have hlt := lengthField_lt buf
    rw [hread] at hresult
    constructor
    · intro hlen
      have hne : toULong (((lengthField buf + (2 ^ 64 - 2 ^ 32) : Nat) : Int) + MSG_LEN_BYTES) ≠
          buf.length := by
        rw [hlen]
        unfold toULong MSG_LEN_BYTES
        omega
      rw [if_pos hne] at hresult
      obtain ⟨m, hm, -⟩ := hframed ⟨by omega, hlen⟩
      rw [hm] at hresult
      cases hresult
    · intro hlen
      have hsame : toULong (((lengthField buf + (2 ^ 64 - 2 ^ 32) : Nat) : Int) + MSG_LEN_BYTES) =
          buf.length := by
        rw [hlen]
        unfold MSG_LEN_BYTES at hlen ⊢
        unfold toULong
        omega
      have hwrong : ¬ WellFramed buf := by
        intro hframed
        have hsize := hframed.2
        unfold MSG_LEN_BYTES at hlen hsize
        omega
      rw [if_neg (not_not.mpr hsame), hnot hwrong] at hresult
      obtain ⟨msgId, -, hsome⟩ := Option.bind_eq_some_iff.mp hresult
      obtain ⟨m, -, hm⟩ := Option.map_eq_some_iff.mp hsome
      cases hm

/-- `decode_message` does what it should for a buffer exactly when the length in it can be
read: it is there, and it is neither 0 in a buffer without an id nor negative as an `int`
in a buffer of that length. -/
theorem decodesRight_iff_lengthReadable (buf : List UInt8) (hmax : buf.length < 2 ^ 64) :
    DecodesRight buf ↔ LengthReadable buf :=
  ⟨readable_of_decodesRight hmax, decodesRight_of_readable⟩

/-- The empty buffer is read at its first four bytes. -/
theorem decodeMessage_reads_outside :
    ¬ ∀ buf : List UInt8, buf.length < 2 ^ 64 → DecodesRight buf := by
  intro h
  obtain ⟨result, hresult, -⟩ := h [] (by decide)
  contradiction

theorem decodesRight_iff_lengthReadable_have : DecodesRight [0, 0, 0, 5, 4, 0, 0, 0, 9] := by
  apply (decodesRight_iff_lengthReadable _ (by decide)).mpr
  exact ⟨by decide, by decide, by decide⟩

end BitTorrentBits.Message
