import BitTorrentBits.Client.DownloadTorrent
import BitTorrentBits.Torrent.ParsedRight
import BitTorrentBits.Tracker.ParsedResponse
import BitTorrentBits.Tracker.RequestUrl

/-!
# From the torrent file to the threads

A torrent is published by its file and by a tracker that knows it under the hash of its info
dictionary. The download reads the one, asks the other and makes a thread for each peer of the
answer.
-/

namespace BitTorrentBits

open Bencode TrackerResponse

/-- The body of an answer whose first two keys are those that are read. -/
def responseBody (interval : Int) (blob : List UInt8) (rest : List (List UInt8 × Value)) : List UInt8 :=
  (Value.dict ((ascii "interval", .int interval) :: (ascii "peers", .str blob) :: rest)).encode

/-- The URL that the tracker of the torrent is asked under. -/
def Metainfo.requestUrl (m : Metainfo) (world : World) : List UInt8 :=
  BitTorrentBits.requestUrl world.curl.easyEscape (m.announce ++ [0])
    (world.sha1 (Value.dict m.info).encode) m.length

/-- The file is that of the torrent, and the tracker answers the request for it, in one piece,
with these peers. -/
structure Publishes (world : World) (m : Metainfo) (blob : List UInt8) : Prop where
  file : readFile world.torrent = some m.file
  strayFree : m.StrayFree
  hash : ∀ bytes, (world.sha1 bytes).length = BT_HASH_LENGTH
  handle : world.curl.easyInit = true
  escapes : EscapesBytes world.curl.easyEscape
  short : RequestShort world.curl.easyEscape (m.announce ++ [0])
    (world.sha1 (Value.dict m.info).encode) m.length
  answers : ∃ interval rest, (responseBody interval blob rest).length ≤ LONG_MAX ∧
    world.curl.easyPerform (m.requestUrl world) = some [responseBody interval blob rest]
  blocks : PEER_BLOB_SIZE ∣ blob.length

variable {fresh : Nat → UInt8} {curl : Curl} {world : World} {tf : TorrentFile} {m : Metainfo}
  {blob : List UInt8}

theorem contactTracker_of_reply {request url body : List UInt8} (r : TrackerResponse)
    (hinit : curl.easyInit = true) (hrequest : getRequest curl.easyEscape fresh tf = some request)
    (hurl : cString request = some url) (hreply : curl.easyPerform url = some [body])
    (hsize : body.length < 2 ^ 64) : contactTracker curl fresh r tf = r.parseBody body := by
  have htransfer : ResponseData.transfer ([] ++ [body]) ⟨[], 0⟩ =
      some (true, ⟨body, body.length⟩) :=
    ResponseData.transfer_last (by simpa using hsize) _
  rw [List.nil_append] at htransfer
  have hread : readAt body 0 body.length = some body := by
    rw [readAt_of_le (by omega), List.drop_zero, List.take_length]
  simp only [contactTracker, hinit, hrequest, hurl, hreply, htransfer, hread, Bool.not_true,
    Bool.false_eq_true, if_false, Option.bind_eq_bind, Option.bind_some]

theorem threadPeers_eq {tr : TrackerResponse} {ps : List TrackerResponse.Peer}
    (hpeers : tr.peers = some ps) (hlen : ps.length = tr.numPeers) : threadPeers tr = some ps := by
  have htake : ∀ n ≤ ps.length, (List.range n).mapM (fun i => do (← tr.peers)[i]?) =
      some (ps.take n) := by
    intro n hn
    induction n with
    | zero => rfl
    | succ n ih =>
      rw [List.range_succ, List.mapM_append, ih (by omega), List.take_add_one]
      simp [hpeers, List.getElem?_eq_getElem (show n < ps.length by omega)]
  rw [threadPeers, ← hlen, htake _ (Nat.le_refl _), List.take_length]

theorem Publishes.exists_threadPeers (h : Publishes world m blob) (fresh : Nat → UInt8)
    (hrecorded : m.Recorded world.sha1 tf) : ∃ tr peers,
    contactTracker world.curl fresh initTrackerResponse tf = some (true, tr) ∧
      threadPeers tr = some peers ∧ peers.length = blob.length / PEER_BLOB_SIZE ∧
      ∀ k < peers.length, ∃ p, peers[k]? = some p ∧ p.StandsAt blob k := by
  obtain ⟨interval, rest, hsize, hreply⟩ := h.answers
  have hescape : 0 ∈ world.curl.easyEscape (world.sha1 (Value.dict m.info).encode) := by
    obtain ⟨text, ⟨-, rest, hsplit⟩, -⟩ := h.escapes (world.sha1 (Value.dict m.info).encode)
    rw [hsplit]
    simp
  obtain ⟨request, hrequest, hurl⟩ := exists_getRequest fresh hrecorded.announce (by simp)
    hrecorded.infoHash (h.hash _) (hrecorded.length ▸ m.length_le.trans_lt (by decide)) hescape
    (hrecorded.length ▸ h.short)
  rw [hrecorded.length] at hurl
  obtain ⟨tr, hbody, hholds⟩ := parseBody_of_first_keys initTrackerResponse hsize h.blocks
  obtain ⟨ps, hpeers, hlen, hall⟩ := hholds.peers
  have hcontact : contactTracker world.curl fresh initTrackerResponse tf = some (true, tr) :=
    (contactTracker_of_reply _ h.handle hrequest hurl hreply
      (hsize.trans_lt (by decide))).trans hbody
  exact ⟨tr, ps, hcontact, threadPeers_eq hpeers hlen, hlen.trans hholds.numPeers,
    fun k hk => hall k (hlen ▸ hk)⟩

/-- For every torrent without stray names and every answer of its tracker, the download records
the values of the torrent's keys, asks for what the tracker knows, and has a thread for each peer
of the answer, with its address and its port. -/
theorem exists_prepares (h : Publishes world m blob) (fresh : Nat → UInt8) :
    ∃ tf peers, Prepares fresh world tf peers ∧ m.Recorded world.sha1 tf ∧
      peers.length = blob.length / PEER_BLOB_SIZE ∧
      ∀ k < peers.length, ∃ p, peers[k]? = some p ∧ p.StandsAt blob k := by
  obtain ⟨tf, hparse, hrecorded⟩ := h.strayFree.readRight.parsedRight world.sha1
  obtain ⟨tr, peers, hcontact, hpeers, hlen, hall⟩ := h.exists_threadPeers fresh hrecorded
  exact ⟨tf, peers, ⟨h.file ▸ hparse, tr, hcontact, hpeers⟩, hrecorded, hlen, hall⟩

/-- A small torrent, and a tracker that knows one peer of it. -/
def smallWorld : World where
  torrent := .opened Metainfo.small.file.length Metainfo.small.size_le Metainfo.small.file
  sha1 := fun _ => List.replicate BT_HASH_LENGTH 0
  curl := ⟨true, fun bytes => Query.escape bytes ++ [0], fun url =>
    if url = requestUrl (fun bytes => Query.escape bytes ++ [0]) (ascii "u" ++ [0])
        (List.replicate BT_HASH_LENGTH 0) 1 then
      some [responseBody 9 [127, 0, 0, 1, 26, 225] []]
    else none⟩
  network := fun _ => Client.oneByteNetwork
  disk := ⟨true, true, fun _ => 1, id⟩
  files := fun _ => none

theorem publishes_small : Publishes smallWorld Metainfo.small [127, 0, 0, 1, 26, 225] where
  file := by simp [smallWorld, readFile]
  strayFree := Metainfo.strayFree_small
  hash := fun _ => rfl
  handle := rfl
  escapes := escapesBytes_escape
  short := by
    unfold RequestShort
    decide
  answers := by
    refine ⟨9, [], by decide, ?_⟩
    simp [smallWorld, Metainfo.requestUrl, Metainfo.small]
  blocks := by decide

theorem exists_prepares_small : ∃ tf peers, Prepares (fun _ => 0) smallWorld tf peers ∧
    tf.name = some (ascii "f" ++ [0]) ∧ peers.length = 1 := by
  obtain ⟨tf, peers, hprepares, hrecorded, hlen, -⟩ := exists_prepares publishes_small fun _ => 0
  exact ⟨tf, peers, hprepares, hrecorded.name, hlen⟩

end BitTorrentBits
