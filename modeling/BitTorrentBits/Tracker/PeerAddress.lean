import BitTorrentBits.Bencode.Scanning
import BitTorrentBits.Tracker.TrackerResponse

/-!
# The address of a peer as text

A thread writes the address of its peer with `sprintf` into an array of sixteen bytes, and
`init_conn` of `conn.c` the port into one of six. Both are handed to `getaddrinfo`.
-/

namespace BitTorrentBits.TrackerResponse.Peer

open Bencode

def PEER_ADDR_TEXT_SIZE : Nat := 15 + 1

def PORT_REPR_SIZE : Nat := 6

def octet (p : Peer) (i : Fin 4) : List UInt8 := decimal (p.address.get i).toNat

def addrText (p : Peer) : List UInt8 :=
  p.octet 0 ++ ascii "." ++ p.octet 1 ++ ascii "." ++ p.octet 2 ++ ascii "." ++ p.octet 3

/-- `peer_addr`; `none` is a write outside the array. -/
def peerAddr (fresh : Nat → UInt8) (p : Peer) : Option (List UInt8) :=
  writeAt ((List.range PEER_ADDR_TEXT_SIZE).map fresh) 0 (p.addrText ++ [0])

/-- `port_repr`; `none` is a write outside the array. -/
def portRepr (fresh : Nat → UInt8) (p : Peer) : Option (List UInt8) :=
  writeAt ((List.range PORT_REPR_SIZE).map fresh) 0 (decimal p.port.toNat ++ [0])

private theorem sprintf_eq_some (fresh : Nat → UInt8) {size : Nat} {text : List UInt8}
    (hnul : 0 ∉ text) (hroom : text.length < size) :
    ∃ buf, writeAt ((List.range size).map fresh) 0 (text ++ [0]) = some buf ∧
      cString buf = some text := by
  have hle : 0 + (text ++ [0]).length ≤ ((List.range size).map fresh).length := by
    simp only [List.length_append, List.length_singleton, List.length_map, List.length_range]
    omega
  refine ⟨_, writeAt_of_le hle, ?_⟩
  rw [List.take_zero, List.nil_append, List.append_assoc]
  exact cString_of_split hnul

theorem octets (p : Peer) : [p.octet 0, p.octet 1, p.octet 2, p.octet 3] =
    p.address.toList.map fun b => decimal b.toNat := by
  obtain ⟨port, ⟨bytes, hlen⟩⟩ := p
  match bytes, hlen with
  | [_, _, _, _], _ => rfl

theorem octet_length_le (p : Peer) (i : Fin 4) : (p.octet i).length ≤ 3 :=
  decimal_length_le (by decide) ((p.address.get i).toNat_lt.trans (by decide))

private theorem addrText_length_lt (p : Peer) : p.addrText.length < PEER_ADDR_TEXT_SIZE := by
  have h0 := p.octet_length_le 0
  have h1 := p.octet_length_le 1
  have h2 := p.octet_length_le 2
  have h3 := p.octet_length_le 3
  have hdot : (ascii ".").length = 1 := rfl
  simp only [addrText, List.length_append, hdot, PEER_ADDR_TEXT_SIZE]
  omega

private theorem nul_not_mem_addrText (p : Peer) : 0 ∉ p.addrText := by
  have hoctet (i : Fin 4) : 0 ∉ p.octet i := not_mem_decimal (by decide) _
  have hdot : 0 ∉ ascii "." := by decide
  simp only [addrText, List.mem_append, hoctet, hdot, or_self, not_false_eq_true]

theorem exists_peerAddr (fresh : Nat → UInt8) (p : Peer) :
    ∃ buf, p.peerAddr fresh = some buf ∧ cString buf = some p.addrText :=
  sprintf_eq_some fresh p.nul_not_mem_addrText p.addrText_length_lt

theorem exists_portRepr (fresh : Nat → UInt8) (p : Peer) :
    ∃ buf, p.portRepr fresh = some buf ∧ cString buf = some (decimal p.port.toNat) := by
  have hdigits : (decimal p.port.toNat).length ≤ 5 :=
    decimal_length_le (by decide) (p.port.toNat_lt.trans (by decide))
  exact sprintf_eq_some fresh (not_mem_decimal (by decide) p.port.toNat)
    (by unfold PORT_REPR_SIZE; omega)

theorem splitOn_addrText (p : Peer) :
    (p.addrText.splitOn 46).map decimalValue = p.address.toList.map UInt8.toNat := by
  have htext : p.addrText = [46].intercalate [p.octet 0, p.octet 1, p.octet 2, p.octet 3] := by
    have hdot : ascii "." = [46] := rfl
    simp [addrText, List.intercalate, hdot]
  rw [htext, octets, List.splitOn_intercalate, List.map_map]
  · exact List.map_congr_left fun b _ => decimalValue_decimal b.toNat
  · intro text htext
    obtain ⟨b, -, rfl⟩ := List.mem_map.mp htext
    exact not_mem_decimal (by decide) _
  · rw [← octets]
    exact List.cons_ne_nil _ _

/-- For every six bytes of the tracker's answer the two texts stay inside their arrays, and are
strings from which the four bytes of the address and the port can be read back. -/
theorem peer_text_reads_back (fresh : Nat → UInt8) (peerRepr : List.Vector UInt8 PEER_BLOB_SIZE) :
    ∃ p addr port addrBuf portBuf, initPeer peerRepr = some p ∧
      p.peerAddr fresh = some addrBuf ∧ cString addrBuf = some addr ∧
      p.portRepr fresh = some portBuf ∧ cString portBuf = some port ∧
      (addr.splitOn 46).map decimalValue = (peerRepr.toList.take PEER_ADDR_SIZE).map UInt8.toNat ∧
      decimalValue port = bigEndianValue (peerRepr.toList.drop PEER_ADDR_SIZE) := by
  obtain ⟨p, high, low, hinit, haddress, hbytes, hport⟩ := initPeer_eq_some peerRepr
  obtain ⟨addrBuf, haddrBuf, haddr⟩ := p.exists_peerAddr fresh
  obtain ⟨portBuf, hportBuf, hportText⟩ := p.exists_portRepr fresh
  refine ⟨p, p.addrText, decimal p.port.toNat, addrBuf, portBuf, hinit, haddrBuf, haddr, hportBuf,
    hportText, ?_, ?_⟩
  · rw [splitOn_addrText, haddress]
  · rw [decimalValue_decimal, hport, hbytes]
    simp only [bigEndianValue, List.length_cons, List.length_nil]
    omega

end BitTorrentBits.TrackerResponse.Peer
