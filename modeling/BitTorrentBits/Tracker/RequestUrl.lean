import BitTorrentBits.Foundation.Query
import BitTorrentBits.Tracker.Request

/-!
# The URL of the request

What the tracker reads in the URL that it gets: the parameters of the download, with the bytes
of the info hash behind their escapes.
-/

namespace BitTorrentBits

open Bencode

/-- The parameters, with the info hash as it is escaped. -/
def requestParams (length : Nat) (escaped : List UInt8) : List Query.Param :=
  [(ascii "peer_id", MY_PEER_ID.toList), (ascii "port", ascii "6881"),
    (ascii "uploaded", ascii "0"), (ascii "downloaded", ascii "0"), (ascii "compact", ascii "1"),
    (ascii "left", decimal length), (ascii "info_hash", escaped)]

/-- The URL for an announce and an info hash that are stored as they are. -/
def requestUrl (curlEasyEscape : List UInt8 → List UInt8) (announce infoHash : List UInt8)
    (length : Nat) : List UInt8 :=
  beforeNul announce ++ Query.questionMark ::
    Query.writeParams (requestParams length (beforeNul (curlEasyEscape infoHash)))

/-- The function returns a string in which the bytes are escaped. -/
def EscapesBytes (curlEasyEscape : List UInt8 → List UInt8) : Prop :=
  ∀ bytes, ∃ text, IsString (curlEasyEscape bytes) text ∧ Query.Escapes bytes text

variable {curlEasyEscape : List UInt8 → List UInt8} {fresh : Nat → UInt8} {tf : TorrentFile}
  {announce infoHash : List UInt8}

private theorem texts_flatten (announce escaped : List UInt8) (length : Nat) :
    (texts announce (ascii "&left=" ++ decimal length) escaped).flatten =
      announce ++ Query.questionMark :: Query.writeParams (requestParams length escaped) := by
  have hparts : ascii "?" = [Query.questionMark] ∧
      ascii "&peer_id=" = Query.ampersand :: (ascii "peer_id" ++ [Query.equals]) ∧
      ascii "&port=6881" = Query.ampersand :: (ascii "port" ++ Query.equals :: ascii "6881") ∧
      ascii "&uploaded=0" = Query.ampersand :: (ascii "uploaded" ++ Query.equals :: ascii "0") ∧
      ascii "&downloaded=0" = Query.ampersand :: (ascii "downloaded" ++ Query.equals :: ascii "0") ∧
      ascii "&compact=1" = Query.ampersand :: (ascii "compact" ++ Query.equals :: ascii "1") ∧
      ascii "&left=" = Query.ampersand :: (ascii "left" ++ [Query.equals]) ∧
      ascii "&info_hash=" = Query.ampersand :: (ascii "info_hash" ++ [Query.equals]) := by decide
  simp only [texts, hparts, requestParams, Query.writeParams, List.flatten_cons, List.flatten_nil,
    List.flatMap_cons, List.flatMap_nil, List.append_assoc, List.cons_append, List.nil_append]

private theorem requestParams_separate {escaped : List UInt8} (length : Nat)
    (hescaped : Query.ampersand ∉ escaped) : ∀ p ∈ requestParams length escaped,
      Query.ampersand ∉ p.1 ∧ Query.equals ∉ p.1 ∧ Query.ampersand ∉ p.2 := by
  have hdigits : Query.ampersand ∉ decimal length := not_mem_decimal (by decide) length
  simp only [requestParams, List.forall_mem_cons, hescaped, hdigits, List.not_mem_nil,
    not_false_eq_true, false_implies, implies_true, and_true]
  decide

theorem exists_getRequest (fresh : Nat → UInt8) (hannounce : tf.announce = some announce)
    (hnul : 0 ∈ announce) (hhash : tf.infoHash = some infoHash)
    (hsize : infoHash.length = BT_HASH_LENGTH) (hlength : tf.length < 2 ^ 64)
    (hescape : 0 ∈ curlEasyEscape infoHash)
    (hshort : RequestShort curlEasyEscape announce infoHash tf.length) :
    ∃ request, getRequest curlEasyEscape fresh tf = some request ∧
      cString request = some (requestUrl curlEasyEscape announce infoHash tf.length) := by
  obtain ⟨leftParam, hleft, hstring⟩ := exists_leftParam fresh hlength
  have hbuf : IsString (List.replicate GET_REQUEST_SIZE 0) [] :=
    ⟨List.not_mem_nil, List.replicate 2047 0, rfl⟩
  obtain ⟨request, hrequest, htext, rest, rfl⟩ := hbuf.exists_foldlM
    (isString_sources hnul hstring hescape) (by
      rw [length_texts, List.length_replicate, List.length_nil, Nat.zero_add]
      exact hshort)
  refine ⟨_, (getRequest_eq hannounce hleft hhash hsize).trans hrequest, ?_⟩
  rw [cString_of_split htext, List.nil_append, texts_flatten]
  rfl

/-- For every file that the parser accepts, a request that fits its array holds a URL in which the
tracker finds the announce and the parameters of the download, with the bytes of the info hash
behind their escapes. -/
theorem request_reads_back {sha1 : List UInt8 → List UInt8}
    (hsha1 : ∀ bytes, (sha1 bytes).length = BT_HASH_LENGTH) (hescape : EscapesBytes curlEasyEscape)
    (fresh : Nat → UInt8) {data : List UInt8}
    (hparse : parseTorrentFile sha1 initTorrentFile (some data) = some (true, tf))
    (hannounce : tf.announce = some announce) (hhash : tf.infoHash = some infoHash)
    (hmark : Query.questionMark ∉ beforeNul announce)
    (hshort : RequestShort curlEasyEscape announce infoHash tf.length) :
    ∃ request url escaped, getRequest curlEasyEscape fresh tf = some request ∧
      cString request = some url ∧
      Query.readUrl url = (beforeNul announce, requestParams tf.length escaped) ∧
      Query.unescape escaped = some infoHash := by
  have hstores := parseTorrentFile_stores hparse
  have hstored := hstores.stored stored_init
  have hnul : 0 ∈ announce := by
    obtain ⟨text, rfl⟩ := hstored.announce announce hannounce
    simp
  obtain ⟨text, ⟨htext, rest, hsplit⟩, hescapes⟩ := hescape infoHash
  have hbefore : beforeNul (curlEasyEscape infoHash) = text := by
    rw [hsplit, beforeNul_append_nul htext]
  obtain ⟨request, hrequest, hurl⟩ := exists_getRequest fresh hannounce hnul hhash
    (hstores.infoHash_length hsha1 hhash) hstored.length (by rw [hsplit]; simp) hshort
  refine ⟨request, _, text, hrequest, hurl, ?_, hescapes.unescape_eq⟩
  have hamp : Query.ampersand ∉ text := hescapes.not_mem (by decide) (by decide) (by decide)
  rw [requestUrl, hbefore, Query.readUrl_writeParams hmark (requestParams_separate _ hamp)]

theorem escapesBytes_escape : EscapesBytes fun bytes => Query.escape bytes ++ [0] := by
  intro bytes
  have hescapes := Query.escapes_escape bytes
  exact ⟨_, ⟨hescapes.not_mem (by decide) (by decide) (by decide), [], rfl⟩, hescapes⟩

theorem request_reads_back_short : ∃ request url escaped,
    getRequest (fun bytes => Query.escape bytes ++ [0]) (fun _ => 0) { initTorrentFile with
      announce := some (ascii "http://t" ++ [0])
      infoHash := some (List.replicate BT_HASH_LENGTH 7) } = some request ∧
    cString request = some url ∧
    Query.readUrl url = (ascii "http://t", requestParams 0 escaped) ∧
    Query.unescape escaped = some (List.replicate BT_HASH_LENGTH 7) := by
  have hsevens : ∀ bytes, (sevens bytes).length = BT_HASH_LENGTH := fun _ => rfl
  have hshort : RequestShort (fun bytes => Query.escape bytes ++ [0]) (ascii "http://t" ++ [0])
      (List.replicate BT_HASH_LENGTH 7) 0 := by
    unfold RequestShort
    decide
  exact request_reads_back hsevens escapesBytes_escape _ (parse_announceFile (by decide)) rfl rfl
    (by decide) hshort

end BitTorrentBits
