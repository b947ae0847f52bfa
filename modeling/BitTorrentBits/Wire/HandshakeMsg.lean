import BitTorrentBits.Foundation.CInt
import BitTorrentBits.Foundation.CString
import BitTorrentBits.Torrent.ParseTorrentFile

/-!
# Handshake messages

`handshake_msg.c`. The decoder takes the length of the protocol string from a plain `char`
and compares the buffer with sums of `size_t`; it copies the string with `strncpy`, where the
encoder uses `memcpy`.
-/

namespace BitTorrentBits

def PEER_ID_LENGTH : Nat := 20

/-- `HANDSHAKE_RESERVED_LEN`, the reserved bytes of a handshake. -/
def HANDSHAKE_RESERVED_LEN : Nat := 8

/-- `pstr` has room for a NUL after the protocol string. -/
structure HandshakeMsg where
  pstrlen : Nat
  pstr : List.Vector UInt8 (pstrlen + 1)
  reserved : List.Vector UInt8 HANDSHAKE_RESERVED_LEN
  infoHash : List.Vector UInt8 BT_HASH_LENGTH
  peerId : List.Vector UInt8 PEER_ID_LENGTH
  deriving DecidableEq

namespace HandshakeMsg

def initHandshakeMsg (infoHash : List.Vector UInt8 BT_HASH_LENGTH)
    (peerId : List.Vector UInt8 PEER_ID_LENGTH) : HandshakeMsg where
  pstrlen := 19
  pstr := ⟨ascii "BitTorrent protocol" ++ [0], rfl⟩
  reserved := List.Vector.replicate HANDSHAKE_RESERVED_LEN 0
  infoHash := infoHash
  peerId := peerId

def text (hm : HandshakeMsg) : List UInt8 := hm.pstr.toList.take hm.pstrlen

def encodeHandshakeMsg (hm : HandshakeMsg) : List UInt8 :=
  UInt8.ofNat hm.pstrlen ::
    (hm.text ++ (hm.reserved.toList ++ (hm.infoHash.toList ++ hm.peerId.toList)))

/-- The decoder once it knows the length of the protocol string. -/
def decodeFields (fresh : Nat → UInt8) (buf : List UInt8) (bufLength pstrlen : Nat) :
    Option (Option HandshakeMsg) :=
  let last := 1
  -- a string that is cut off is reported with the `pstrlen` of the message just freed
  if bufLength < toULong (last + pstrlen : Nat) then none
  else do
    let pstr ← malloc fresh (toULong (pstrlen + 1 : Nat))
    let pstr ← strncpy pstr (buf.drop last) pstrlen
    let pstr ← writeAt pstr pstrlen [0]
    let last := last + pstrlen
    if bufLength < toULong (last + HANDSHAKE_RESERVED_LEN : Nat) then return none
    let reserved ← readArray buf last HANDSHAKE_RESERVED_LEN
    let last := last + HANDSHAKE_RESERVED_LEN
    if bufLength < toULong (last + BT_HASH_LENGTH : Nat) then return none
    let infoHash ← readArray buf last BT_HASH_LENGTH
    let last := last + BT_HASH_LENGTH
    if bufLength < toULong (last + PEER_ID_LENGTH : Nat) then return none
    let peerId ← readArray buf last PEER_ID_LENGTH
    return some ⟨pstrlen, ← readArray pstr 0 (pstrlen + 1), reserved, infoHash, peerId⟩

/-- The message, or NULL; the outer `none` is an access outside `buf` or the memory of the
message, or to that memory after it has been freed. `fresh` is what the new `pstr` happens to
hold. -/
def decodeHandshakeMsg (fresh : Nat → UInt8) (buf : List UInt8) (bufLength : Nat) :
    Option (Option HandshakeMsg) := do
  if bufLength = 0 then return none
  let first ← buf[0]?
  decodeFields fresh buf bufLength (toULong (charValue first))

/-- The bytes of a handshake around its protocol string. -/
def FIXED_LEN : Nat := 1 + HANDSHAKE_RESERVED_LEN + BT_HASH_LENGTH + PEER_ID_LENGTH

def Terminated (hm : HandshakeMsg) : Prop := hm.pstr.toList = hm.text ++ [0]

/-- The message with its protocol string as `strncpy` copies it. -/
def clip (hm : HandshakeMsg) : HandshakeMsg where
  pstrlen := hm.pstrlen
  pstr := ⟨clipped hm.text ++ [0], by simp [text]⟩
  reserved := hm.reserved
  infoHash := hm.infoHash
  peerId := hm.peerId

variable {hm : HandshakeMsg}

@[simp] theorem text_length (hm : HandshakeMsg) : hm.text.length = hm.pstrlen := by
  simp [text]

@[simp] theorem encodeHandshakeMsg_length (hm : HandshakeMsg) :
    hm.encodeHandshakeMsg.length = FIXED_LEN + hm.pstrlen := by
  simp only [encodeHandshakeMsg, FIXED_LEN, List.length_cons, List.length_append, text_length,
    List.Vector.toList_length]
  omega

@[simp] theorem text_clip (hm : HandshakeMsg) : hm.clip.text = clipped hm.text := by
  change (clipped hm.text ++ [0]).take hm.pstrlen = _
  exact List.take_left' (by simp)

theorem clip_eq_self (h : hm.Terminated) (hc : clipped hm.text = hm.text) : hm.clip = hm := by
  obtain ⟨pstrlen, pstr, reserved, infoHash, peerId⟩ := hm
  have hpstr : (⟨clipped (text ⟨pstrlen, pstr, reserved, infoHash, peerId⟩) ++ [0], by simp⟩ :
      List.Vector UInt8 (pstrlen + 1)) = pstr := by
    apply Subtype.ext
    exact (congrArg (· ++ [0]) hc).trans h.symm
  exact congrArg (HandshakeMsg.mk pstrlen · reserved infoHash peerId) hpstr

end HandshakeMsg

end BitTorrentBits
