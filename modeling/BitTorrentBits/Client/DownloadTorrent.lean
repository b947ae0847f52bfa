import BitTorrentBits.Client.Provenance
import BitTorrentBits.Pieces.OutputFile
import BitTorrentBits.Tracker.Request

/-!
# Downloading a torrent

`download_torrent` from the name of a torrent file to the output file. What the threads do is a
run of the client, in which they take their steps in an order that is given, with what new buffers
happen to hold.
-/

namespace BitTorrentBits

open PieceProgress

abbrev Files := List UInt8 → Option (List UInt8)

/-- What a download depends on besides the order of the threads. -/
structure World where
  torrent : FileRead
  sha1 : List UInt8 → List UInt8
  curl : Curl
  network : Nat → Network
  disk : DownloadedFile.Disk
  files : Files

/-- The order in which as many threads take their steps, with what the buffers of each step hold. -/
abbrev Schedule := (numThreads : Nat) → List (Fin numThreads × Stale)

def threadPeers (tr : TrackerResponse) : Option (List TrackerResponse.Peer) :=
  (List.range tr.numPeers).mapM fun i => do (← tr.peers)[i]?

/-- The threads from their creation until all have been joined. -/
def joinThreads (world : World) (schedule : Schedule) (tf : TorrentFile)
    (peers : List TrackerResponse.Peer) : Option (Client peers.length) := do
  let M := Client.client (fun i : Fin peers.length => world.network i) tf peers.get
  let s ← M.run M.init (schedule peers.length)
  if ∀ i, s.Returned i then some s else none

/-- The end of the function, with the pool and the file that the threads have left. -/
def finishDownload {W : Nat} (world : World) (tf : TorrentFile) (swarm : Swarm W) :
    Option (Bool × Files) := do
  if !(← swarm.pool.isDone) then
    let _ ← swarm.pool.getNumUndonePieces
    return (false, world.files)
  let name ← cString (← tf.name)
  let (ok, out) ← swarm.df.writeToFile world.disk (world.files name)
  return (ok, Function.update world.files name out)

/-- The result and the files after it; `none` is an access outside the memory, SIGPIPE, or an order
in which not all threads return. `fresh` is what the array for a part of the request holds. -/
def downloadTorrent (fresh : Nat → UInt8) (world : World) (schedule : Schedule) :
    Option (Bool × Files) := do
  let (ok, tf) ← parseTorrentFile world.sha1 initTorrentFile (readFile world.torrent)
  if !ok then return (false, world.files)
  let (ok, tr) ← contactTracker world.curl fresh initTrackerResponse tf
  if !ok then return (false, world.files)
  let s ← joinThreads world schedule tf (← threadPeers tr)
  finishDownload world tf s.swarm

/-- What the download goes on with once the tracker has answered. -/
structure Prepares (fresh : Nat → UInt8) (world : World) (tf : TorrentFile)
    (peers : List TrackerResponse.Peer) : Prop where
  parsed : parseTorrentFile world.sha1 initTorrentFile (readFile world.torrent) = some (true, tf)
  contacted : ∃ tr, contactTracker world.curl fresh initTrackerResponse tf = some (true, tr) ∧
    threadPeers tr = some peers

/-- The pieces, each of them from the answers of one of the peers. -/
structure Gathers (world : World) (tf : TorrentFile)
    (peers : List TrackerResponse.Peer) (pieces : List (List UInt8)) : Prop where
  count : pieces.length = tf.numPieces
  sent : ∀ i piece, pieces[i]? = some piece → ∃ w : Fin peers.length,
    SentBy (world.network w) tf (peers.get w) i piece

variable {fresh : Nat → UInt8} {world : World} {schedule : Schedule} {tf : TorrentFile}
  {peers : List TrackerResponse.Peer} {ok : Bool} {files : Files}

/-- What is done with the pool and the file in the end. -/
inductive Finishes {W : Nat} (world : World) (tf : TorrentFile) (swarm : Swarm W) :
    Bool → Files → Prop
  | undone (hundone : swarm.pool.isDone = some false) : Finishes world tf swarm false world.files
  | done {name : List UInt8} {ok : Bool} {out : Option (List UInt8)}
      (hdone : swarm.pool.isDone = some true) (hname : tf.name.bind cString = some name)
      (hwrite : swarm.df.writeToFile world.disk (world.files name) = some (ok, out)) :
      Finishes world tf swarm ok (Function.update world.files name out)

theorem finishes_of_finishDownload {W : Nat} {swarm : Swarm W}
    (h : finishDownload world tf swarm = some (ok, files)) : Finishes world tf swarm ok files := by
  obtain ⟨done, hdone, h⟩ := Option.bind_eq_some_iff.mp h
  cases done with
  | false =>
    obtain ⟨_, _, h⟩ := Option.bind_eq_some_iff.mp h
    cases h
    exact .undone hdone
  | true =>
    obtain ⟨stored, hstored, h⟩ := Option.bind_eq_some_iff.mp h
    obtain ⟨name, hname, h⟩ := Option.bind_eq_some_iff.mp h
    obtain ⟨⟨ok', out⟩, hwrite, h⟩ := Option.bind_eq_some_iff.mp h
    cases h
    refine .done hdone ?_ hwrite
    rw [hstored]
    exact hname

theorem joinThreads_eq_some {s : Client peers.length}
    (h : joinThreads world schedule tf peers = some s) :
    (Client.client (fun i : Fin peers.length => world.network i) tf peers.get).Reachable s ∧
      ∀ i, s.Returned i := by
  obtain ⟨s', hrun, h⟩ := Option.bind_eq_some_iff.mp h
  split_ifs at h with hall
  cases h
  exact ⟨⟨_, hrun⟩, hall⟩

theorem downloadTorrent_cases (h : downloadTorrent fresh world schedule = some (ok, files)) :
    (ok = false ∧ files = world.files) ∨ ∃ tf peers, Prepares fresh world tf peers ∧
      ∃ s, joinThreads world schedule tf peers = some s ∧ Finishes world tf s.swarm ok files := by
  obtain ⟨⟨parsed, tf⟩, hparse, h⟩ := Option.bind_eq_some_iff.mp h
  cases parsed with
  | false =>
    cases h
    exact Or.inl ⟨rfl, rfl⟩
  | true =>
    obtain ⟨⟨contacted, tr⟩, hcontact, h⟩ := Option.bind_eq_some_iff.mp h
    cases contacted with
    | false =>
      cases h
      exact Or.inl ⟨rfl, rfl⟩
    | true =>
      obtain ⟨peers, hpeers, h⟩ := Option.bind_eq_some_iff.mp h
      obtain ⟨s, hjoin, h⟩ := Option.bind_eq_some_iff.mp h
      exact Or.inr ⟨tf, peers, ⟨hparse, tr, hcontact, hpeers⟩, s, hjoin, finishes_of_finishDownload h⟩

theorem exists_gathers {s : Client peers.length}
    (hjoin : joinThreads world schedule tf peers = some s)
    (hdone : s.swarm.pool.isDone = some true) : ∃ pieces, Gathers world tf peers pieces ∧
      s.swarm.df.tf = tf ∧ s.swarm.df.piecesBuf = pieces.map some := by
  obtain ⟨hreach, hall⟩ := joinThreads_eq_some hjoin
  obtain ⟨L, hL⟩ := Client.exists_consistent hreach
  obtain ⟨pieces, hpieces, -⟩ := DownloadedFile.pieces_of_hasAllPieces
    ((Client.isDone_iff_of_returned hreach hall).mp hdone)
  refine ⟨pieces, ⟨?_, fun i piece hi => ?_⟩, hL.torrent, hpieces⟩
  · rw [← hL.torrent, ← s.swarm.df.length_eq, hpieces, List.length_map]
  · apply Client.reachable_sourced hreach
    rw [hpieces, List.getElem?_map, hi]
    rfl

/-- Whatever the torrent file, the tracker and the peers say and in whatever order the threads
run: the only file that may change is the output file, and it changes only when every piece has
been stored. Then it is what `remove` has left, or that with a beginning of the pieces behind it,
and a true result means all of them that the system still puts out when the file is closed. -/
theorem downloadTorrent_outcome (h : downloadTorrent fresh world schedule = some (ok, files)) :
    (ok = false ∧ files = world.files) ∨ ∃ tf peers pieces name out,
      Prepares fresh world tf peers ∧ Gathers world tf peers pieces ∧
      tf.name.bind cString = some name ∧ files = Function.update world.files name out ∧
      (tf.pieceLength < 2 ^ 31 →
        (ok = false ∧ out = world.disk.removed (world.files name)) ∨ ∃ written,
          out = some ((world.disk.removed (world.files name)).getD [] ++ written) ∧
          written <+: pieces.flatten ∧
          (ok = true → written = pieces.flatten.take (world.disk.flushes pieces.flatten.length))) := by
  rcases downloadTorrent_cases h with hearly | ⟨tf, peers, hprepares, s, hjoin, hfinishes⟩
  · exact Or.inl hearly
  · cases hfinishes with
    | undone => exact Or.inl ⟨rfl, rfl⟩
    | @done name ok out hdone hname hwrite =>
      obtain ⟨pieces, hgathers, htf, hpieces⟩ := exists_gathers hjoin hdone
      refine Or.inr ⟨tf, peers, pieces, name, out, hprepares, hgathers, hname, rfl, fun hpl => ?_⟩
      exact DownloadedFile.writeToFile_of_hasAllPieces (htf ▸ hpl) hpieces hwrite

/-- The torrent file of one byte, its tracker and its peer. -/
def oneByteWorld : World where
  torrent := .opened 94 (by decide)
    (ascii "d8:announce1:a4:infod6:lengthi1e4:name3:one12:piece lengthi1e6:pieces20:" ++
      List.replicate BT_HASH_LENGTH 7 ++ ascii "ee")
  sha1 := fun _ => List.replicate BT_HASH_LENGTH 0
  curl := ⟨true, fun _ => literal "%00", fun _ => some
    [ascii "d8:intervali9e5:peers6:" ++ [127, 0, 0, 1, 26, 225] ++ ascii "e"]⟩
  network := fun _ => Client.oneByteNetwork
  disk := ⟨true, true, fun _ => 1, id⟩
  files := fun _ => none

/-- Every thread takes twelve steps in its turns. -/
def inTurns : Schedule := fun numThreads =>
  (List.range 12).flatMap fun _ => (List.finRange numThreads).map fun w => (w, fun _ _ => 0)

private theorem downloadTorrent_oneByte : ∃ files,
    downloadTorrent (fun _ => 0) oneByteWorld inTurns = some (true, files) := by
  obtain ⟨⟨ok, files⟩, hrun, hok⟩ : ∃ r, downloadTorrent (fun _ => 0) oneByteWorld inTurns = some r ∧
      r.1 = true := (Option.any_eq_true Prod.fst _).mp (by decide +kernel)
  cases hok
  exact ⟨files, hrun⟩

private theorem parse_oneByte : parseTorrentFile oneByteWorld.sha1 initTorrentFile
    (readFile oneByteWorld.torrent) = some (true, Client.oneByteTorrent) := by decide +kernel

private theorem name_oneByte : Client.oneByteTorrent.name.bind cString = some (ascii "one") := by
  decide

theorem downloadTorrent_outcome_one : ∃ files bytes tf peers,
    downloadTorrent (fun _ => 0) oneByteWorld inTurns = some (true, files) ∧
    Gathers oneByteWorld tf peers [bytes] ∧ files (ascii "one") = some bytes := by
  obtain ⟨files, hrun⟩ := downloadTorrent_oneByte
  rcases downloadTorrent_outcome hrun with ⟨hfalse, -⟩ |
    ⟨tf, peers, pieces, name, out, hprepares, hgathers, hname, hfiles, hout⟩
  · cases hfalse
  · obtain rfl : Client.oneByteTorrent = tf :=
      (Prod.mk.inj (Option.some.inj (parse_oneByte.symm.trans hprepares.parsed))).2
    obtain ⟨bytes, rfl⟩ := List.length_eq_one_iff.mp hgathers.count
    obtain rfl : ascii "one" = name := Option.some.inj (name_oneByte.symm.trans hname)
    rcases hout (by decide) with ⟨hfalse, -⟩ | ⟨written, rfl, -, hwhole⟩
    · cases hfalse
    · refine ⟨files, bytes, _, peers, hrun, hgathers, ?_⟩
      have hclosed : written = bytes := by
        rw [hwhole rfl, List.flatten_singleton]
        exact List.take_length
      rw [hfiles, hclosed, Function.update_self]
      rfl

theorem Prepares.unique {tf' : TorrentFile} {peers' : List TrackerResponse.Peer}
    (h : Prepares fresh world tf peers) (h' : Prepares fresh world tf' peers') :
    tf = tf' ∧ peers = peers' := by
  have htf := h.parsed.symm.trans h'.parsed
  cases htf
  obtain ⟨tr, hcontact, hpeers⟩ := h.contacted
  obtain ⟨tr', hcontact', hpeers'⟩ := h'.contacted
  cases hcontact.symm.trans hcontact'
  exact ⟨rfl, Option.some.inj (hpeers.symm.trans hpeers')⟩

/-- A download that returns true has written the torrent's content if its peers are genuine and the
disk is reliable, however many peers there are and in whatever order the threads run. -/
theorem downloadTorrent_writes_content (hprepares : Prepares fresh world tf peers)
    (hpl : tf.pieceLength < 2 ^ 31) (hdisk : world.disk.Reliable) {content : Nat → List UInt8}
    (hlen : ∀ i < tf.numPieces, (content i).length = tf.pieceLength)
    (hgenuine : ∀ (w : Fin peers.length), ∀ i < tf.numPieces,
      Genuine (world.network w) tf (peers.get w) i (content i))
    (h : downloadTorrent fresh world schedule = some (true, files)) :
    ∃ name, tf.name.bind cString = some name ∧ files = Function.update world.files name
      (some ((List.range tf.numPieces).map content).flatten) := by
  rcases downloadTorrent_cases h with ⟨hfalse, -⟩ | ⟨tf', peers', hprepares', s, hjoin, hfinishes⟩
  · contradiction
  · obtain ⟨rfl, rfl⟩ := hprepares.unique hprepares'
    cases hfinishes with
    | @done name _ out hdone hname hwrite =>
      obtain ⟨pieces, hgathers, htf, hpieces⟩ := exists_gathers hjoin hdone
      have hcontent : pieces = (List.range tf.numPieces).map content := by
        apply List.ext_getElem (by simp [hgathers.count])
        intro i hi _
        obtain ⟨w, hsent⟩ := hgathers.sent i pieces[i] (List.getElem?_eq_getElem hi)
        have hlt : i < tf.numPieces := hgathers.count ▸ hi
        rw [List.getElem_map, List.getElem_range]
        exact hsent.eq_of_genuine (hpl.trans (by decide)) (hlen i hlt) (hgenuine w i hlt)
      rcases DownloadedFile.writeToFile_of_hasAllPieces (htf ▸ hpl) hpieces hwrite with
        ⟨hfalse, -⟩ | ⟨written, rfl, -, hwhole⟩
      · contradiction
      · refine ⟨name, hname, ?_⟩
        rw [hwhole rfl, List.take_of_length_le (hdisk.flushes _), hdisk.removed_eq, hcontent]
        rfl

theorem prepares_oneByte : Prepares (fun _ => 0) oneByteWorld Client.oneByteTorrent
    [⟨6881, ⟨[127, 0, 0, 1], rfl⟩⟩] where
  parsed := parse_oneByte
  contacted := ⟨⟨9, some [⟨6881, ⟨[127, 0, 0, 1], rfl⟩⟩], 1⟩, by decide +kernel, rfl⟩

theorem downloadTorrent_writes_content_one : ∃ files,
    downloadTorrent (fun _ => 0) oneByteWorld inTurns = some (true, files) ∧
    files (ascii "one") = some [9] := by
  obtain ⟨files, hrun⟩ := downloadTorrent_oneByte
  refine ⟨files, hrun, ?_⟩
  have hlen : ∀ i < Client.oneByteTorrent.numPieces,
      ((fun _ => [9] : Nat → List UInt8) i).length = Client.oneByteTorrent.pieceLength :=
    fun _ _ => rfl
  have hdisk : oneByteWorld.disk.Reliable := ⟨rfl, fun n => Nat.le_refl n⟩
  obtain ⟨name, hname, hfiles⟩ := downloadTorrent_writes_content prepares_oneByte (by decide) hdisk hlen
    (fun _ i hi => Nat.lt_one_iff.mp hi ▸ Client.genuine_oneByte _) hrun
  obtain rfl : ascii "one" = name := Option.some.inj (name_oneByte.symm.trans hname)
  rw [hfiles, Function.update_self]
  rfl

end BitTorrentBits
