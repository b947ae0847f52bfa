import BitTorrentBits.Wire.HandshakeMsg

/-!
# Decoding a handshake

What `decode_handshake_msg` makes of the bytes a peer sent: for which first bytes and lengths
it stays inside its memory, and which protocol strings it keeps.
-/

namespace BitTorrentBits.HandshakeMsg

variable (fresh : Nat → UInt8) {hm : HandshakeMsg} {buf rest : List UInt8}

private theorem toNat_ofNat_of_lt {n : Nat} (h : n < 128) : (UInt8.ofNat n).toNat = n := by
  simp only [UInt8.toNat_ofNat']
  omega

private theorem exists_pstr {t : List UInt8} (h : t.length < 128) (rest : List UInt8) :
    ∃ pstr pstr', malloc fresh (toULong (t.length + 1 : Nat)) = some pstr ∧
      strncpy pstr (t ++ rest) t.length = some pstr' ∧
      writeAt pstr' t.length [0] = some (clipped t ++ [0]) := by
  obtain ⟨pstr, hmalloc, hroom⟩ := exists_malloc fresh (n := t.length + 1) (by omega)
  refine ⟨pstr, clipped t ++ pstr.drop t.length, ?_, strncpy_eq rest (by omega), ?_⟩
  · rw [toULong_natCast (by omega)]
    exact hmalloc
  · have hle : t.length + [0].length ≤ (clipped t ++ pstr.drop t.length).length := by
      simp only [List.length_append, clipped_length, List.length_drop, List.length_singleton]
      omega
    have hdrop : (pstr.drop t.length).drop 1 = [] := by
      rw [List.drop_drop]
      exact List.drop_eq_nil_of_le (by omega)
    have hclip : (clipped t).length = t.length := clipped_length t
    rw [writeAt_of_le hle, List.take_left' hclip, ← List.drop_drop, List.drop_left' hclip]
    simp [hdrop]

private theorem decodeFields_short {b : UInt8} {tail : List UInt8} {n : Nat} (hn : n < 128)
    (hstr : 1 + n ≤ (b :: tail).length) (h : (b :: tail).length < FIXED_LEN + n) :
    decodeFields fresh (b :: tail) (b :: tail).length n = some none := by
  have hlen : (b :: tail).length = tail.length + 1 := rfl
  have hread : ∀ i k, i + k ≤ (b :: tail).length → ∃ v, readArray (b :: tail) i k = some v :=
    fun i k hle => Option.ne_none_iff_exists'.mp fun hnone =>
      Nat.not_lt_of_le hle (readArray_eq_none.mp hnone)
  change (b :: tail).length < 49 + n at h
  rw [hlen] at h hstr
  have hsum : ∀ k, k < 256 → toULong (k : Nat) = k := fun k hk => toULong_natCast (by omega)
  unfold decodeFields
  simp only [hlen, HANDSHAKE_RESERVED_LEN, BT_HASH_LENGTH, PEER_ID_LENGTH]
  rw [hsum (1 + n) (by omega), hsum (1 + n + 8) (by omega), hsum (1 + n + 8 + 20) (by omega),
    hsum (1 + n + 8 + 20 + 20) (by omega), if_neg (by omega)]
  obtain ⟨text, after, htail, htext⟩ : ∃ text after, tail = text ++ after ∧ text.length = n :=
    ⟨tail.take n, tail.drop n, (List.take_append_drop n tail).symm,
      List.length_take_of_le (by omega)⟩
  subst htail
  subst htext
  obtain ⟨pstr, pstr', hmalloc, hcopy, hend⟩ := exists_pstr fresh hn after
  simp only [hmalloc, List.drop_succ_cons, List.drop_zero, hcopy, hend, Option.bind_eq_bind,
    Option.bind_some]
  split
  · rfl
  obtain ⟨reserved, hreserved⟩ := hread (1 + text.length) 8 (by rw [hlen]; omega)
  simp only [hreserved, Option.bind_some]
  split
  · rfl
  obtain ⟨infoHash, hhash⟩ := hread (1 + text.length + 8) 20 (by rw [hlen]; omega)
  simp only [hhash, Option.bind_some]
  rw [if_pos (by omega)]
  rfl

/-- A buffer that begins with an encoded message decodes to that message, its protocol
string as `strncpy` copies it. -/
theorem decodeHandshakeMsg_encode (h : hm.pstrlen < 128) (rest : List UInt8) :
    decodeHandshakeMsg fresh (hm.encodeHandshakeMsg ++ rest)
      (hm.encodeHandshakeMsg ++ rest).length = some (some hm.clip) := by
  have hlen : (hm.encodeHandshakeMsg ++ rest).length = 49 + hm.pstrlen + rest.length := by
    rw [List.length_append, encodeHandshakeMsg_length]
    rfl
  have hpstrlen : toULong (charValue (UInt8.ofNat hm.pstrlen)) = hm.pstrlen := by
    rw [toULong_charValue_of_lt (by rw [toNat_ofNat_of_lt h]; exact h), toNat_ofNat_of_lt h]
  have hbuf : hm.encodeHandshakeMsg ++ rest = UInt8.ofNat hm.pstrlen :: (hm.text ++
      (hm.reserved.toList ++ (hm.infoHash.toList ++ (hm.peerId.toList ++ rest)))) := by
    simp [encodeHandshakeMsg]
  obtain ⟨pstr, pstr', hmalloc, hcopy, hend⟩ := exists_pstr fresh (t := hm.text)
    (by rwa [text_length]) (hm.reserved.toList ++ (hm.infoHash.toList ++ (hm.peerId.toList ++ rest)))
  rw [text_length] at hmalloc hcopy hend
  have hres : readArray (hm.encodeHandshakeMsg ++ rest) (1 + hm.pstrlen) HANDSHAKE_RESERVED_LEN =
      some hm.reserved := by
    rw [hbuf, ← List.cons_append]
    exact readArray_middle _ _ (by simp [Nat.add_comm])
  have hhash : readArray (hm.encodeHandshakeMsg ++ rest) (1 + hm.pstrlen + HANDSHAKE_RESERVED_LEN)
      BT_HASH_LENGTH = some hm.infoHash := by
    rw [hbuf, ← List.cons_append, ← List.append_assoc]
    exact readArray_middle _ _ (by simp; omega)
  have hpeer : readArray (hm.encodeHandshakeMsg ++ rest) (1 + hm.pstrlen + HANDSHAKE_RESERVED_LEN +
      BT_HASH_LENGTH) PEER_ID_LENGTH = some hm.peerId := by
    rw [hbuf, ← List.cons_append, ← List.append_assoc, ← List.append_assoc]
    exact readArray_middle _ _ (by simp; omega)
  have hview : readArray (clipped hm.text ++ [0]) 0 (hm.pstrlen + 1) = some hm.clip.pstr := by
    have hmid : readArray ([] ++ (hm.clip.pstr.toList ++ [])) 0 (hm.pstrlen + 1) =
        some hm.clip.pstr := readArray_middle hm.clip.pstr [] rfl
    rw [List.append_nil] at hmid
    exact hmid
  have hfits : ∀ k, k ≤ 49 + hm.pstrlen →
      ¬ 49 + hm.pstrlen + rest.length < toULong (k : Nat) := by
    intro k hk
    rw [toULong_natCast (by omega)]
    omega
  unfold decodeHandshakeMsg
  rw [if_neg (by omega), hbuf]
  change decodeFields _ _ _ (toULong (charValue _)) = _
  rw [← hbuf, hpstrlen]
  unfold decodeFields
  simp only [hres, hhash, hpeer, hmalloc, Option.bind_eq_bind, Option.bind_some]
  rw [hbuf]
  simp only [List.drop_succ_cons, List.drop_zero, hcopy, hend, Option.bind_some, hview]
  rw [← hbuf, hlen]
  rw [if_neg (hfits _ (by omega)), if_neg (hfits _ (by unfold HANDSHAKE_RESERVED_LEN; omega)),
    if_neg (hfits _ (by unfold HANDSHAKE_RESERVED_LEN BT_HASH_LENGTH; omega)),
    if_neg (hfits _ (by unfold HANDSHAKE_RESERVED_LEN BT_HASH_LENGTH PEER_ID_LENGTH; omega))]
  rfl

theorem short_or_encoded {b : UInt8} (tail : List UInt8) (_ : b.toNat < 128) :
    (b :: tail).length < FIXED_LEN + b.toNat ∨ ∃ (hm : HandshakeMsg) (rest : List UInt8),
      hm.Terminated ∧ hm.pstrlen = b.toNat ∧ b :: tail = hm.encodeHandshakeMsg ++ rest := by
  by_cases h : (b :: tail).length < FIXED_LEN + b.toNat
  · exact Or.inl h
  refine Or.inr ?_
  change ¬ tail.length + 1 < 49 + b.toNat at h
  let tail₁ := tail.drop b.toNat
  let tail₂ := tail₁.drop HANDSHAKE_RESERVED_LEN
  let tail₃ := tail₂.drop BT_HASH_LENGTH
  have hlen₁ : tail₁.length = tail.length - b.toNat := List.length_drop
  have hlen₂ : tail₂.length = tail₁.length - 8 := List.length_drop
  have hlen₃ : tail₃.length = tail₂.length - 20 := List.length_drop
  have htext : (tail.take b.toNat).length = b.toNat := List.length_take_of_le (by omega)
  let hm : HandshakeMsg :=
    { pstrlen := b.toNat
      pstr := ⟨tail.take b.toNat ++ [0], by simp [htext]⟩
      reserved := ⟨tail₁.take HANDSHAKE_RESERVED_LEN, List.length_take_of_le (by
        unfold HANDSHAKE_RESERVED_LEN; omega)⟩
      infoHash := ⟨tail₂.take BT_HASH_LENGTH, List.length_take_of_le (by
        unfold BT_HASH_LENGTH; omega)⟩
      peerId := ⟨tail₃.take PEER_ID_LENGTH, List.length_take_of_le (by
        unfold PEER_ID_LENGTH; omega)⟩ }
  have hmtext : hm.text = tail.take b.toNat := by
    change (tail.take b.toNat ++ [0]).take b.toNat = _
    exact List.take_left' htext
  refine ⟨hm, tail₃.drop PEER_ID_LENGTH, ?_, rfl, ?_⟩
  · rw [Terminated, hmtext]
    rfl
  · rw [encodeHandshakeMsg, hmtext, UInt8.ofNat_toNat]
    change b :: tail = b :: (tail.take b.toNat ++ (tail₁.take HANDSHAKE_RESERVED_LEN ++
      (tail₂.take BT_HASH_LENGTH ++ tail₃.take PEER_ID_LENGTH))) ++ tail₃.drop PEER_ID_LENGTH
    simp only [List.cons_append, List.append_assoc, List.take_append_drop]
    rw [show tail₂.take BT_HASH_LENGTH ++ tail₃ = tail₂ from List.take_append_drop _ _,
      show tail₁.take HANDSHAKE_RESERVED_LEN ++ tail₂ = tail₁ from List.take_append_drop _ _,
      show tail.take b.toNat ++ tail₁ = tail from List.take_append_drop _ _]

/-- `decode_handshake_msg` makes no access outside its memory, and answers NULL exactly for a
buffer that is empty or too short for a protocol string of the length it begins with. -/
def DecodesSafely (buf : List UInt8) : Prop :=
  ∃ result, decodeHandshakeMsg fresh buf buf.length = some result ∧
    (result = none ↔
      buf.length = 0 ∨ ∃ b, buf.head? = some b ∧ buf.length < FIXED_LEN + b.toNat)

/-- The length byte is no negative `char`, and the buffer has the protocol string. -/
def LengthByteSafe (buf : List UInt8) : Prop :=
  ∀ b, buf.head? = some b → b.toNat < 128 ∧ 1 + b.toNat ≤ buf.length

private theorem decodeHandshakeMsg_cons (b : UInt8) (tail : List UInt8) :
    decodeHandshakeMsg fresh (b :: tail) (b :: tail).length =
      decodeFields fresh (b :: tail) (b :: tail).length (toULong (charValue b)) := rfl

private theorem decodeFields_cut (buf : List UInt8) {n : Nat} (hn : n < 2 ^ 64 - 1)
    (h : buf.length < 1 + n) : decodeFields fresh buf buf.length n = none := by
  have hsum : toULong ((1 + n : Nat) : Int) = 1 + n := toULong_natCast (by omega)
  unfold decodeFields
  simp only [hsum, if_pos h]

private theorem decodeFields_max (buf : List UInt8) {n : Nat} (hn : n = 2 ^ 64 - 1) :
    decodeFields fresh buf buf.length n = none := by
  have hwrap : ∀ k : Nat, k = n + 1 → toULong (k : Int) = 0 := by
    intro k hk
    unfold toULong
    omega
  have hcopy : ∀ src, strncpy [] src n = none := fun src =>
    strncpy_eq_none src (by rw [List.length_nil]; omega)
  have hmalloc : malloc fresh 0 = some [] := rfl
  unfold decodeFields
  simp only [hwrap _ rfl, hwrap _ (Nat.add_comm 1 n), hmalloc, Option.bind_eq_bind,
    Option.bind_some, hcopy, Option.bind_none]
  rw [if_neg (Nat.not_lt_zero _)]

private theorem decodeFields_negative (buf : List UInt8) {n : Nat} (hn : 2 ^ 64 - 128 ≤ n)
    (hn' : n < 2 ^ 64) : decodeFields fresh buf buf.length n = none := by
  by_cases hmax : n = 2 ^ 64 - 1
  · exact decodeFields_max fresh buf hmax
  by_cases hcut : buf.length < 1 + n
  · exact decodeFields_cut fresh buf (by omega) hcut
  have hmalloc : malloc fresh (n + 1) = none := if_neg (by omega)
  have hsum : toULong ((1 + n : Nat) : Int) = 1 + n := toULong_natCast (by omega)
  have hroom : toULong ((n + 1 : Nat) : Int) = n + 1 := toULong_natCast (by omega)
  unfold decodeFields
  simp only [hsum, hroom, hmalloc, Option.bind_eq_bind, Option.bind_none]
  rw [if_neg hcut]

theorem decodeHandshakeMsg_eq_none {b : UInt8} {tail : List UInt8}
    (h : 128 ≤ b.toNat ∨ (b :: tail).length < 1 + b.toNat) :
    decodeHandshakeMsg fresh (b :: tail) (b :: tail).length = none := by
  have hlt := b.toNat_lt
  rw [decodeHandshakeMsg_cons]
  by_cases hb : b.toNat < 128
  · rw [toULong_charValue_of_lt hb]
    exact decodeFields_cut fresh _ (by omega) (by omega)
  · rw [toULong_charValue_of_le (by omega)]
    exact decodeFields_negative fresh _ (by omega) (by omega)

theorem decodesSafely_of_safe {b : UInt8} {tail : List UInt8} (hb : b.toNat < 128)
    (hstr : 1 + b.toNat ≤ (b :: tail).length) : DecodesSafely fresh (b :: tail) := by
  rcases short_or_encoded tail hb with hshort | ⟨hm, rest, -, hlen, hbuf⟩
  · refine ⟨none, ?_, fun _ => Or.inr ⟨b, rfl, hshort⟩, fun _ => rfl⟩
    rw [decodeHandshakeMsg_cons, toULong_charValue_of_lt hb]
    exact decodeFields_short fresh hb hstr hshort
  · refine ⟨some hm.clip, ?_, nofun, ?_⟩
    · rw [hbuf]
      exact decodeHandshakeMsg_encode fresh (by omega) rest
    · rintro (hzero | ⟨b', hhead, hlt⟩)
      · contradiction
      · cases hhead
        rw [hbuf, List.length_append, encodeHandshakeMsg_length] at hlt
        omega

/-- Over all buffers, `decode_handshake_msg` stays inside its memory and refuses what is too
short, and nothing else, exactly when the length byte is safe. -/
theorem decodesSafely_iff_lengthByteSafe (buf : List UInt8) :
    DecodesSafely fresh buf ↔ LengthByteSafe buf := by
  cases buf with
  | nil => exact ⟨fun _ => nofun, fun _ => ⟨none, rfl, fun _ => Or.inl rfl, fun _ => rfl⟩⟩
  | cons b tail =>
    constructor
    · rintro ⟨result, hresult, -⟩ b' hhead
      cases hhead
      by_contra hunsafe
      rw [decodeHandshakeMsg_eq_none fresh (by omega)] at hresult
      contradiction
    · intro h
      obtain ⟨hb, hstr⟩ := h b rfl
      exact decodesSafely_of_safe fresh hb hstr

/-- One byte 255 is a length that makes the copy write past the allocated string. -/
theorem decodeHandshakeMsg_writes_outside :
    ¬ ∀ (fresh : Nat → UInt8) (buf : List UInt8), DecodesSafely fresh buf := by
  intro h
  obtain ⟨result, hresult, -⟩ := h (fun _ => 0) [255]
  rw [decodeHandshakeMsg_cons, decodeFields_max _ _ (by decide)] at hresult
  contradiction

/-- The buffer begins with a handshake the length byte of which is a number as a `char`. -/
def HoldsHandshake (buf : List UInt8) : Prop :=
  ∃ b, buf.head? = some b ∧ b.toNat ≤ 127 ∧ FIXED_LEN + b.toNat ≤ buf.length

/-- The length byte, the protocol string and all that follows it. -/
def handshakeBytes (buf : List UInt8) : List UInt8 :=
  buf.take (FIXED_LEN + (buf.headD 0).toNat)

def protocolString (buf : List UInt8) : List UInt8 :=
  (buf.drop 1).take (buf.headD 0).toNat

/-- The decoder accepts the buffer and the encoder gives its bytes back; no buffer with other
bytes decodes to the same message; and a message that encodes to these bytes is decoded
from them. -/
def RoundTrips (buf : List UInt8) : Prop :=
  ∃ hm, decodeHandshakeMsg fresh buf buf.length = some (some hm) ∧
    hm.encodeHandshakeMsg = handshakeBytes buf ∧
    (∀ buf', HoldsHandshake buf' →
      decodeHandshakeMsg fresh buf' buf'.length = some (some hm) →
      handshakeBytes buf' = handshakeBytes buf) ∧
    ∀ hm' : HandshakeMsg, hm'.Terminated → hm'.encodeHandshakeMsg = handshakeBytes buf →
      decodeHandshakeMsg fresh (handshakeBytes buf) (handshakeBytes buf).length = some (some hm')

private theorem HoldsHandshake.exists_encoded (h : HoldsHandshake buf) :
    ∃ (hm : HandshakeMsg) (rest : List UInt8), hm.Terminated ∧ hm.pstrlen < 128 ∧
      buf = hm.encodeHandshakeMsg ++ rest := by
  obtain ⟨b, hhead, hb, hlen⟩ := h
  cases buf with
  | nil => contradiction
  | cons b' tail =>
    cases hhead
    have hpos : b.toNat < 128 := by omega
    rcases short_or_encoded tail hpos with hshort | ⟨hm, rest, hterm, hn, hbuf⟩
    · omega
    · exact ⟨hm, rest, hterm, by omega, hbuf⟩

private theorem holdsHandshake_encode (h : hm.pstrlen < 128) (rest : List UInt8) :
    HoldsHandshake (hm.encodeHandshakeMsg ++ rest) := by
  refine ⟨UInt8.ofNat hm.pstrlen, rfl, ?_, ?_⟩
  · rw [toNat_ofNat_of_lt h]
    omega
  · rw [toNat_ofNat_of_lt h, List.length_append, encodeHandshakeMsg_length]
    omega

private theorem headD_encode (h : hm.pstrlen < 128) (rest : List UInt8) :
    ((hm.encodeHandshakeMsg ++ rest).headD 0).toNat = hm.pstrlen :=
  toNat_ofNat_of_lt h

private theorem handshakeBytes_encode (h : hm.pstrlen < 128) (rest : List UInt8) :
    handshakeBytes (hm.encodeHandshakeMsg ++ rest) = hm.encodeHandshakeMsg := by
  rw [handshakeBytes, headD_encode h, List.take_left' (encodeHandshakeMsg_length hm)]

private theorem protocolString_encode (h : hm.pstrlen < 128) (rest : List UInt8) :
    protocolString (hm.encodeHandshakeMsg ++ rest) = hm.text := by
  rw [protocolString, headD_encode h]
  simp only [encodeHandshakeMsg, List.cons_append, List.drop_succ_cons, List.drop_zero,
    List.append_assoc]
  exact List.take_left' (text_length hm)

private theorem text_of_encode_eq {hm hm' : HandshakeMsg}
    (h : hm.encodeHandshakeMsg = hm'.encodeHandshakeMsg) : hm.text = hm'.text := by
  have hlen := congrArg List.length h
  rw [encodeHandshakeMsg_length, encodeHandshakeMsg_length] at hlen
  have hn : hm.pstrlen = hm'.pstrlen := by omega
  have htail := (List.cons.inj h).2
  have htake := congrArg (List.take hm.pstrlen) htail
  rw [List.take_left' (text_length hm), hn, List.take_left' (text_length hm')] at htake
  exact htake

private theorem exists_withText (hm : HandshakeMsg) {t : List UInt8} (h : t.length = hm.pstrlen) :
    ∃ hm' : HandshakeMsg, hm'.pstrlen = hm.pstrlen ∧ hm'.text = t ∧
      (clipped t = clipped hm.text → hm'.clip = hm.clip) := by
  let hm' : HandshakeMsg := { hm with pstr := ⟨t ++ [0], by simp [h]⟩ }
  have htext : hm'.text = t := List.take_left' h
  refine ⟨hm', rfl, htext, fun hclip => ?_⟩
  have hpstr : hm'.clip.pstr = hm.clip.pstr :=
    Subtype.ext (congrArg (· ++ [0]) ((congrArg clipped htext).trans hclip))
  exact congrArg (HandshakeMsg.mk hm.pstrlen · hm.reserved hm.infoHash hm.peerId) hpstr

private theorem noNul_of_roundTrips (h : HoldsHandshake buf) (hr : RoundTrips fresh buf) :
    0 ∉ (protocolString buf).dropLast := by
  obtain ⟨hm, rest, -, hlt, rfl⟩ := h.exists_encoded
  rw [protocolString_encode hlt]
  intro hmem
  obtain ⟨t, hne, hlen, hclip⟩ := exists_clipped_eq hmem
  obtain ⟨hm', hn, htext, hsame⟩ := exists_withText hm (hlen.trans (text_length hm))
  obtain ⟨decoded, hdec, -, hinj, -⟩ := hr
  rw [decodeHandshakeMsg_encode fresh hlt] at hdec
  have hlt' : hm'.pstrlen < 128 := by omega
  have hdec' := decodeHandshakeMsg_encode fresh hlt' []
  rw [hsame hclip, hdec] at hdec'
  have hbytes := hinj _ (holdsHandshake_encode hlt' []) hdec'
  rw [handshakeBytes_encode hlt', handshakeBytes_encode hlt] at hbytes
  exact hne (htext.symm.trans (text_of_encode_eq hbytes))

private theorem roundTrips_of_noNul (h : HoldsHandshake buf)
    (hnul : 0 ∉ (protocolString buf).dropLast) : RoundTrips fresh buf := by
  obtain ⟨hm, rest, hterm, hlt, rfl⟩ := h.exists_encoded
  rw [protocolString_encode hlt] at hnul
  have hself : hm.clip = hm := clip_eq_self hterm (clipped_of_dropLast hnul)
  have hwhole := handshakeBytes_encode hlt rest
  refine ⟨hm, ?_, hwhole.symm, ?_, ?_⟩
  · rw [decodeHandshakeMsg_encode fresh hlt, hself]
  · intro buf' h' hdec
    obtain ⟨hm', rest', hterm', hlt', rfl⟩ := h'.exists_encoded
    rw [decodeHandshakeMsg_encode fresh hlt'] at hdec
    have hclip : hm'.clip = hm := Option.some.inj (Option.some.inj hdec)
    have htext : clipped hm'.text = hm.text := by rw [← text_clip, hclip]
    have hkept : hm'.clip = hm' :=
      clip_eq_self hterm' (htext.trans (eq_of_clipped_eq htext hnul).symm)
    rw [handshakeBytes_encode hlt', hwhole, ← hclip, hkept]
  · intro hm' hterm' henc
    rw [hwhole] at henc ⊢
    have htext := text_of_encode_eq henc
    have hn : hm'.pstrlen = hm.pstrlen := by rw [← text_length, htext, text_length]
    have hlt' : hm'.pstrlen < 128 := by omega
    have hdec := decodeHandshakeMsg_encode fresh hlt' []
    have hkept : hm'.clip = hm' :=
      clip_eq_self hterm' (clipped_of_dropLast (htext ▸ hnul))
    rw [List.append_nil, henc, hkept] at hdec
    exact hdec

/-- A handshake that begins a buffer keeps all its bytes through decoding and encoding, and
is told from every other one, exactly when its protocol string has no NUL before its last
byte. -/
theorem roundTrips_iff_noNul (buf : List UInt8) (h : HoldsHandshake buf) :
    RoundTrips fresh buf ↔ 0 ∉ (protocolString buf).dropLast :=
  ⟨noNul_of_roundTrips fresh h, roundTrips_of_noNul fresh h⟩

/-- A NUL and a line feed for a protocol string come back as two NULs. -/
theorem encodeHandshakeMsg_loses_bytes :
    ¬ ∀ (fresh : Nat → UInt8) (buf : List UInt8), HoldsHandshake buf → RoundTrips fresh buf := by
  intro h
  have hholds : HoldsHandshake (2 :: 0 :: 10 :: List.replicate 48 7) :=
    ⟨2, rfl, by decide, by decide⟩
  have hnul := noNul_of_roundTrips (fun _ => 0) hholds (h _ _ hholds)
  exact hnul (by decide)

/-- The protocol string of a handshake is "a", and the buffer holds more than it. -/
theorem roundTrips_iff_noNul_one :
    RoundTrips (fun _ => 0) (1 :: 97 :: List.replicate 50 7) :=
  (roundTrips_iff_noNul _ _ ⟨1, rfl, by decide, by decide⟩).mpr (by decide)

end BitTorrentBits.HandshakeMsg
