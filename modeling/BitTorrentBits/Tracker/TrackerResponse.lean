import BitTorrentBits.Bencode.TokenSequence
import BitTorrentBits.Foundation.CString
import BitTorrentBits.Wire.BigEndian

/-!
# Parsing the response

`peer.c`, and the part of `contact_tracker` that parses the body of the response: a script of
ten calls of `next`. `none` is a read outside the data, a token or a literal.
-/

namespace BitTorrentBits

open Bencode Tokenizer

def PEER_ADDR_SIZE : Nat := 4

def PEER_PORT_SIZE : Nat := 2

def PEER_BLOB_SIZE : Nat := PEER_ADDR_SIZE + PEER_PORT_SIZE

structure TrackerResponse.Peer where
  port : UInt16
  address : List.Vector UInt8 PEER_ADDR_SIZE
  deriving DecidableEq

def TrackerResponse.initPeer (peerRepr : List.Vector UInt8 PEER_BLOB_SIZE) :
    Option TrackerResponse.Peer := do
  let address ← readArray peerRepr.toList 0 PEER_ADDR_SIZE
  let port ← bigEndianToLu (peerRepr.toList.drop PEER_ADDR_SIZE) PEER_PORT_SIZE
  return { port := .ofNat port, address := address }

/-- `tracker_response`; `peers` is `none` for NULL. -/
structure TrackerResponse where
  interval : Int
  peers : Option (List TrackerResponse.Peer)
  numPeers : Nat
  deriving DecidableEq

def initTrackerResponse : TrackerResponse := ⟨0, none, 0⟩

namespace TrackerResponse

/-- The peer that the bytes from block `k` of the string on stand for. -/
structure Peer.StandsAt (p : Peer) (bytes : List UInt8) (k : Nat) : Prop where
  address : ∀ i < PEER_ADDR_SIZE, p.address.toList[i]? = bytes[PEER_BLOB_SIZE * k + i]?
  port : ∃ high low, bytes[PEER_BLOB_SIZE * k + PEER_ADDR_SIZE]? = some high ∧
    bytes[PEER_BLOB_SIZE * k + PEER_ADDR_SIZE + 1]? = some low ∧
    p.port.toNat = 256 * high.toNat + low.toNat

/-- `err = next(tk)`, and on with `k` if it is `TOKENIZER_OK`. -/
def nextOk (r : TrackerResponse) (tk : Tokenizer)
    (k : Tokenizer → Option (Bool × TrackerResponse)) : Option (Bool × TrackerResponse) := do
  let (err, tk) ← tk.next
  if err ≠ .TOKENIZER_OK then some (false, r) else k tk

/-- On with `k` if `memcmp(token, text, token_size)` is 0. -/
def expect (r : TrackerResponse) (token text : List UInt8)
    (k : Option (Bool × TrackerResponse)) : Option (Bool × TrackerResponse) := do
  let bytes ← readAt text 0 token.length
  if token ≠ bytes then some (false, r) else k

def readPeers (token : List UInt8) (numPeers : Nat) : Option (List Peer) :=
  (List.range numPeers).mapM fun i => do
    let peerRepr ← readArray token (PEER_BLOB_SIZE * i) PEER_BLOB_SIZE
    initPeer peerRepr

def parseBody (r : TrackerResponse) (data : List UInt8) : Option (Bool × TrackerResponse) :=
  r.nextOk (initTokenizer data) fun tk =>
  r.nextOk tk fun tk =>
  r.nextOk tk fun tk =>
  r.expect tk.token (literal "interval") <|
  r.nextOk tk fun tk =>
  r.nextOk tk fun tk => do
  let (interval, _) ← strtol (tk.token ++ [0])
  let r := { r with interval := interval }
  r.nextOk tk fun tk =>
  r.nextOk tk fun tk =>
  r.nextOk tk fun tk =>
  r.expect tk.token (literal "peers") <|
  r.nextOk tk fun tk =>
  r.nextOk tk fun tk => do
  let numPeers := tk.token.length / PEER_BLOB_SIZE
  let peers ← readPeers tk.token numPeers
  return (true, { r with numPeers := numPeers, peers := some peers })

def withToken (r : TrackerResponse) (cut : Bool) (toks : List (List UInt8))
    (k : List UInt8 → List (List UInt8) → Option (Bool × TrackerResponse)) :
    Option (Bool × TrackerResponse) :=
  match toks with
  | [] => if cut then none else some (false, r)
  | token :: toks => k token toks

/-- The end of the script, at the key of the peers. -/
def peersOfTokens (r : TrackerResponse) (cut : Bool) (toks : List (List UInt8)) :
    Option (Bool × TrackerResponse) :=
  r.withToken cut toks fun name toks =>
  r.expect name (literal "peers") <|
  r.withToken cut toks fun _ toks =>
  r.withToken cut toks fun token _ => do
  let numPeers := token.length / PEER_BLOB_SIZE
  let peers ← readPeers token numPeers
  return (true, { r with numPeers := numPeers, peers := some peers })

/-- What the script makes of the tokens of a text. -/
def parseTokens (r : TrackerResponse) (cut : Bool) (toks : List (List UInt8)) :
    Option (Bool × TrackerResponse) :=
  r.withToken cut toks fun _ toks =>
  r.withToken cut toks fun _ toks =>
  r.withToken cut toks fun key toks =>
  r.expect key (literal "interval") <|
  r.withToken cut toks fun _ toks =>
  r.withToken cut toks fun value toks => do
  let (interval, _) ← strtol (value ++ [0])
  let r := { r with interval := interval }
  r.withToken cut toks fun _ toks =>
  r.withToken cut toks fun _ toks =>
  r.peersOfTokens cut toks

variable (r : TrackerResponse) {cut : Bool} {toks : List (List UInt8)}

theorem nextOk_eq {tk : Tokenizer} {k : Tokenizer → Option (Bool × TrackerResponse)}
    {k' : List UInt8 → List (List UInt8) → Option (Bool × TrackerResponse)}
    (h : Reports tk toks cut) (hk : ∀ u toks, Reports u toks cut → k u = k' u.token toks) :
    r.nextOk tk k = r.withToken cut toks k' := by
  cases h with
  | fails hnext herr => simp [nextOk, hnext, herr, withToken]
  | leaves hnext => simp [nextOk, hnext, withToken]
  | @ok _ u toks _ hnext hrest =>
    simp only [nextOk, hnext, Option.bind_eq_bind, Option.bind_some, ne_eq, not_true_eq_false,
      if_false]
    exact hk u toks hrest

theorem parseBody_eq {data : List UInt8} (h : Reports (initTokenizer data) toks cut) :
    r.parseBody data = r.parseTokens cut toks := by
  apply nextOk_eq r h
  intro tk toks h
  apply nextOk_eq r h
  intro tk toks h
  apply nextOk_eq r h
  intro tk toks h
  apply congrArg (r.expect tk.token (literal "interval"))
  apply nextOk_eq r h
  intro tk toks h
  apply nextOk_eq r h
  intro tk toks h
  apply congrArg (Option.bind (strtol (tk.token ++ [0])))
  funext num
  apply nextOk_eq _ h
  intro tk toks h
  apply nextOk_eq _ h
  intro tk toks h
  apply nextOk_eq _ h
  intro tk toks h
  apply congrArg (expect _ tk.token (literal "peers"))
  apply nextOk_eq _ h
  intro tk toks h
  apply nextOk_eq _ h
  intro tk toks h
  rfl

variable {token text : List UInt8} {k : Option (Bool × TrackerResponse)}

theorem expect_of_begins (h : token <+: text) : r.expect token text k = k := by
  have hread : readAt text 0 token.length = some token := by
    rw [readAt_of_le (by simpa using h.length_le), List.drop_zero, ← List.prefix_iff_eq_take.mp h]
  simp [expect, hread]

theorem expect_of_not_begins (hlen : token.length ≤ text.length) (h : ¬ token <+: text) :
    r.expect token text k = some (false, r) := by
  have hne : token ≠ text.take token.length := fun heq => h (heq ▸ List.take_prefix _ _)
  rw [expect, readAt_of_le (by simpa using hlen), List.drop_zero]
  simp [hne]

theorem expect_of_long (h : text.length < token.length) : r.expect token text k = none := by
  rw [expect, readAt_eq_none.mpr (by omega)]
  rfl

theorem initPeer_eq_some (peerRepr : List.Vector UInt8 PEER_BLOB_SIZE) :
    ∃ p high low, initPeer peerRepr = some p ∧
      p.address.toList = peerRepr.toList.take PEER_ADDR_SIZE ∧
      peerRepr.toList.drop PEER_ADDR_SIZE = [high, low] ∧
      p.port.toNat = 256 * high.toNat + low.toNat := by
  have hlen : peerRepr.toList.length = 6 := peerRepr.toList_length
  obtain ⟨high, low, hport⟩ : ∃ high low, peerRepr.toList.drop PEER_ADDR_SIZE = [high, low] := by
    rw [← List.length_eq_two, List.length_drop, hlen]
    rfl
  have hvalue : bigEndianValue [high, low] = 256 * high.toNat + low.toNat := by
    simp only [bigEndianValue, List.length_cons, List.length_nil]
    omega
  have hhigh := high.toNat_lt
  have hlow := low.toNat_lt
  have hread : bigEndianToLu [high, low] PEER_PORT_SIZE = some (256 * high.toNat + low.toNat) := by
    have happ : bigEndianToLu ([high, low] ++ []) 2 =
        some (toULong (toInt (bigEndianValue [high, low]))) :=
      bigEndianToLu_append [] (by simp)
    rwa [hvalue, toULong_toInt_of_lt (by omega), List.append_nil] at happ
  have hroom : 0 + PEER_ADDR_SIZE ≤ peerRepr.toList.length := by
    rw [hlen]
    decide
  obtain ⟨address, haddress, hbytes⟩ := exists_readArray hroom
  refine ⟨⟨.ofNat (256 * high.toNat + low.toNat), address⟩, high, low, ?_, hbytes, hport, ?_⟩
  · rw [initPeer, haddress, hport, hread]
    rfl
  · exact UInt16.toNat_ofNat_of_lt (by unfold UInt16.size; omega)

private theorem exists_peer {i : Nat} (h : PEER_BLOB_SIZE * i + PEER_BLOB_SIZE ≤ token.length) :
    ∃ p, ((readArray token (PEER_BLOB_SIZE * i) PEER_BLOB_SIZE).bind initPeer) = some p ∧
      p.StandsAt token i := by
  obtain ⟨peerRepr, hread, hbytes⟩ := exists_readArray h
  have hget (j : Nat) (hj : j < PEER_BLOB_SIZE) :
      token[PEER_BLOB_SIZE * i + j]? = peerRepr.toList[j]? := by
    rw [hbytes, List.getElem?_take_of_lt hj, List.getElem?_drop]
  obtain ⟨p, high, low, hp, haddress, hport, hvalue⟩ := initPeer_eq_some peerRepr
  have hbyte (j : Nat) : peerRepr.toList[PEER_ADDR_SIZE + j]? = [high, low][j]? := by
    rw [← hport, List.getElem?_drop]
  refine ⟨p, by rw [hread]; exact hp, ?_, high, low, ?_, ?_, hvalue⟩
  · intro j hj
    rw [haddress, List.getElem?_take_of_lt hj, hget j (by unfold PEER_BLOB_SIZE; omega)]
  · rw [hget _ (by decide)]
    exact hbyte 0
  · rw [Nat.add_assoc, hget _ (by decide)]
    exact hbyte 1

theorem readPeers_eq_some (token : List UInt8) {n : Nat} (h : PEER_BLOB_SIZE * n ≤ token.length) :
    ∃ peers, readPeers token n = some peers ∧ peers.length = n ∧
      ∀ i < n, ∃ p, peers[i]? = some p ∧ p.StandsAt token i := by
  induction n with
  | zero => exact ⟨[], rfl, rfl, nofun⟩
  | succ n ih =>
    have hroom : PEER_BLOB_SIZE * n + PEER_BLOB_SIZE ≤ token.length := h
    obtain ⟨peers, hpeers, hlen, hall⟩ := ih (by omega)
    obtain ⟨p, hp, hstands⟩ := exists_peer hroom
    refine ⟨peers ++ [p], ?_, by simp [hlen], ?_⟩
    · rw [readPeers, List.range_succ, List.mapM_append]
      change (readPeers token n).bind _ = _
      rw [hpeers]
      simp [hp]
    · intro i hi
      rcases Nat.lt_succ_iff_lt_or_eq.mp hi with hlt | rfl
      · obtain ⟨q, hq, hqstands⟩ := hall i hlt
        exact ⟨q, by rw [List.getElem?_append_left (by omega), hq], hqstands⟩
      · exact ⟨p, by simp [← hlen], hstands⟩

end TrackerResponse

end BitTorrentBits
