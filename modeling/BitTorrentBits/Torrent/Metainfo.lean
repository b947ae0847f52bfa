import BitTorrentBits.Torrent.FlatRuns

/-!
# Metainfo dictionaries

What a torrent file means, what the parser should record of it, and which flat readings make
it record that.
-/

namespace BitTorrentBits

open Bencode

/-- The dictionary of a torrent file, with the values of its keys. -/
structure Metainfo where
  entries : List (List UInt8 × Value)
  info : List (List UInt8 × Value)
  announce : List UInt8
  comment : Option (List UInt8)
  name : List UInt8
  length : Nat
  pieceLength : Nat
  pieces : List UInt8
  nodup_entries : (entries.map Prod.fst).Nodup
  nodup_info : (info.map Prod.fst).Nodup
  announce_mem : (ascii "announce", .str announce) ∈ entries
  comment_mem : ∀ v, (ascii "comment", v) ∈ entries ↔ ∃ s, comment = some s ∧ v = .str s
  info_mem : (ascii "info", .dict info) ∈ entries
  name_mem : (ascii "name", .str name) ∈ info
  length_mem : (ascii "length", .int length) ∈ info
  pieceLength_mem : (ascii "piece length", .int pieceLength) ∈ info
  pieces_mem : (ascii "pieces", .str pieces) ∈ info
  length_le : length ≤ LONG_MAX
  pieceLength_le : pieceLength ≤ LONG_MAX
  pieces_blocks : BT_HASH_LENGTH ∣ pieces.length
  size_le : (Value.dict entries).encode.length ≤ LONG_MAX

namespace Metainfo

def file (m : Metainfo) : List UInt8 := (Value.dict m.entries).encode

/-- The record holds the values of the keys. -/
structure Recorded (m : Metainfo) (sha1 : List UInt8 → List UInt8) (tr : TorrentFile) : Prop where
  announce : tr.announce = some (m.announce ++ [0])
  comment : tr.comment = m.comment.map (· ++ [0])
  name : tr.name = some (m.name ++ [0])
  length : tr.length = m.length
  pieceLength : tr.pieceLength = m.pieceLength
  pieceHashes : ∃ hashes, tr.pieceHashes = some hashes ∧ hashes.length = tr.numPieces ∧
    (∀ hash ∈ hashes, hash.length = BT_HASH_LENGTH) ∧ hashes.flatten = m.pieces
  infoHash : tr.infoHash = some (sha1 (Value.dict m.info).encode)

/-- Whatever the hash function, the parser succeeds and records the values of the keys. -/
def ParsedRight (m : Metainfo) : Prop :=
  ∀ sha1, ∃ tr, parseTorrentFile sha1 initTorrentFile (some m.file) = some (true, tr) ∧
    m.Recorded sha1 tr

end Metainfo

namespace Taken

def str? (key : StrKey) : Taken → Option (List UInt8)
  | .str key' s => if key' = key then some s else none
  | _ => none

def int? (key : IntKey) : Taken → Option Int
  | .int key' n => if key' = key then some n else none
  | _ => none

def info? : Taken → Option (List UInt8)
  | .info bytes => some bytes
  | _ => none

end Taken

def lastTaken {α : Type} (kind : Taken → Option α) (ts : List Taken) : Option α :=
  (ts.filterMap kind).getLast?

/-- What is taken last for each key is the value of the key; of the string taken for `pieces`
a rest of less than a block does not count. -/
structure Metainfo.LastTaken (m : Metainfo) (ts : List Taken) : Prop where
  announce : lastTaken (Taken.str? .announce) ts = some m.announce
  comment : lastTaken (Taken.str? .comment) ts = m.comment
  name : lastTaken (Taken.str? .name) ts = some m.name
  length : (lastTaken (Taken.int? .length) ts).elim 0 storedNumber = m.length
  pieceLength : (lastTaken (Taken.int? .pieceLength) ts).elim 0 storedNumber = m.pieceLength
  pieces : ∃ s, lastTaken (Taken.str? .pieces) ts = some s ∧
    s.take (BT_HASH_LENGTH * (s.length / BT_HASH_LENGTH)) = m.pieces
  info : lastTaken Taken.info? ts = some (Value.dict m.info).encode

/-- The strings that a reader takes for keys wherever they stand are followed by values of
their kinds, and the last of them by the values that the keys have. -/
def Metainfo.ReadRight (m : Metainfo) : Prop :=
  ∃ ts, flatReading .unseen 0 (Value.dict m.entries).lexemes = some ts ∧ m.LastTaken ts

section Storing

variable {α β : Type} {kind : Taken → Option β} {f : β → α} {g : TorrentFile → α}
  (sha1 : List UInt8 → List UInt8) (ts : List Taken)

theorem storeAll_field (hg : ∀ t tr, g (Taken.store sha1 t tr) = ((kind t).map f).getD (g tr))
    (tr : TorrentFile) :
    g (Taken.storeAll sha1 ts tr) = ((lastTaken kind ts).map f).getD (g tr) := by
  induction ts generalizing tr with
  | nil => rfl
  | cons t ts ih =>
    have hrest := ih (t.store sha1 tr)
    rw [hg] at hrest
    show g (Taken.storeAll sha1 ts (t.store sha1 tr)) = _
    rw [hrest]
    cases hkind : kind t with
    | none => simp [lastTaken, hkind]
    | some b =>
      rw [lastTaken, lastTaken, List.filterMap_cons_some hkind, List.getLast?_cons]
      cases (ts.filterMap kind).getLast? <;> rfl

private theorem storeAll_option {g : TorrentFile → Option α}
    (hg : ∀ t tr, g (Taken.store sha1 t tr) = ((kind t).map fun b => some (f b)).getD (g tr))
    (hinit : g initTorrentFile = none) :
    g (Taken.storeAll sha1 ts initTorrentFile) = (lastTaken kind ts).map f := by
  rw [storeAll_field sha1 ts hg, hinit]
  cases lastTaken kind ts <;> rfl

private theorem storeAll_nat {f : β → Nat} {g : TorrentFile → Nat}
    (hg : ∀ t tr, g (Taken.store sha1 t tr) = ((kind t).map f).getD (g tr))
    (hinit : g initTorrentFile = 0) :
    g (Taken.storeAll sha1 ts initTorrentFile) = (lastTaken kind ts).elim 0 f := by
  rw [storeAll_field sha1 ts hg, hinit]
  cases lastTaken kind ts <;> rfl

theorem storeAll_announce : (Taken.storeAll sha1 ts initTorrentFile).announce =
    (lastTaken (Taken.str? .announce) ts).map (· ++ [0]) := by
  apply storeAll_option (g := TorrentFile.announce) sha1 ts _ rfl
  rintro ((_ | _ | _ | _) | (_ | _) | _) tr <;> rfl

theorem storeAll_comment : (Taken.storeAll sha1 ts initTorrentFile).comment =
    (lastTaken (Taken.str? .comment) ts).map (· ++ [0]) := by
  apply storeAll_option (g := TorrentFile.comment) sha1 ts _ rfl
  rintro ((_ | _ | _ | _) | (_ | _) | _) tr <;> rfl

theorem storeAll_name : (Taken.storeAll sha1 ts initTorrentFile).name =
    (lastTaken (Taken.str? .name) ts).map (· ++ [0]) := by
  apply storeAll_option (g := TorrentFile.name) sha1 ts _ rfl
  rintro ((_ | _ | _ | _) | (_ | _) | _) tr <;> rfl

theorem storeAll_pieceHashes : (Taken.storeAll sha1 ts initTorrentFile).pieceHashes =
    (lastTaken (Taken.str? .pieces) ts).map ParseState.hashBlocks := by
  apply storeAll_option (g := TorrentFile.pieceHashes) sha1 ts _ rfl
  rintro ((_ | _ | _ | _) | (_ | _) | _) tr <;> rfl

theorem storeAll_infoHash : (Taken.storeAll sha1 ts initTorrentFile).infoHash =
    (lastTaken Taken.info? ts).map sha1 := by
  apply storeAll_option (g := TorrentFile.infoHash) sha1 ts _ rfl
  rintro ((_ | _ | _ | _) | (_ | _) | _) tr <;> rfl

theorem storeAll_numPieces : (Taken.storeAll sha1 ts initTorrentFile).numPieces =
    (lastTaken (Taken.str? .pieces) ts).elim 0 fun s => s.length / BT_HASH_LENGTH := by
  apply storeAll_nat (g := TorrentFile.numPieces) sha1 ts _ rfl
  rintro ((_ | _ | _ | _) | (_ | _) | _) tr <;> rfl

theorem storeAll_length : (Taken.storeAll sha1 ts initTorrentFile).length =
    (lastTaken (Taken.int? .length) ts).elim 0 storedNumber := by
  apply storeAll_nat (g := TorrentFile.length) sha1 ts _ rfl
  rintro ((_ | _ | _ | _) | (_ | _) | _) tr <;> rfl

theorem storeAll_pieceLength : (Taken.storeAll sha1 ts initTorrentFile).pieceLength =
    (lastTaken (Taken.int? .pieceLength) ts).elim 0 storedNumber := by
  apply storeAll_nat (g := TorrentFile.pieceLength) sha1 ts _ rfl
  rintro ((_ | _ | _ | _) | (_ | _) | _) tr <;> rfl

end Storing

namespace ParseState

theorem length_hashBlocks (s : List UInt8) : (hashBlocks s).length = s.length / BT_HASH_LENGTH := by
  rw [hashBlocks, List.length_map, List.length_range]

theorem length_of_mem_hashBlocks {s hash : List UInt8} (h : hash ∈ hashBlocks s) :
    hash.length = BT_HASH_LENGTH := by
  obtain ⟨i, hi, rfl⟩ := List.mem_map.mp h
  have hlt : i < s.length / BT_HASH_LENGTH := List.mem_range.mp hi
  have hle : BT_HASH_LENGTH * (i + 1) ≤ s.length :=
    Nat.le_trans (Nat.mul_le_mul_left _ hlt) (Nat.mul_div_le _ _)
  rw [Nat.mul_add_one] at hle
  rw [List.length_take, List.length_drop]
  omega

theorem flatten_hashBlocks (s : List UInt8) :
    (hashBlocks s).flatten = s.take (BT_HASH_LENGTH * (s.length / BT_HASH_LENGTH)) := by
  have hblocks : ∀ n, ((List.range n).map fun i =>
      (s.drop (BT_HASH_LENGTH * i)).take BT_HASH_LENGTH).flatten = s.take (BT_HASH_LENGTH * n) := by
    intro n
    induction n with
    | zero => rfl
    | succ n ih =>
      rw [List.range_succ, List.map_append, List.flatten_append, ih, Nat.mul_add_one, List.take_add]
      simp
  exact hblocks _

end ParseState

namespace Metainfo

variable {m : Metainfo} {ts : List Taken}

theorem LastTaken.recorded (h : m.LastTaken ts) (sha1 : List UInt8 → List UInt8) :
    m.Recorded sha1 (Taken.storeAll sha1 ts initTorrentFile) := by
  obtain ⟨s, hs, hpieces⟩ := h.pieces
  constructor
  · rw [storeAll_announce, h.announce]
    rfl
  · rw [storeAll_comment, h.comment]
  · rw [storeAll_name, h.name]
    rfl
  · rw [storeAll_length, h.length]
  · rw [storeAll_pieceLength, h.pieceLength]
  · refine ⟨ParseState.hashBlocks s, ?_, ?_, fun _ => ParseState.length_of_mem_hashBlocks, ?_⟩
    · rw [storeAll_pieceHashes, hs]
      rfl
    · rw [storeAll_numPieces, hs]
      exact ParseState.length_hashBlocks s
    · rw [ParseState.flatten_hashBlocks, hpieces]
  · rw [storeAll_infoHash, h.info]
    rfl

theorem Recorded.lastTaken (h : m.Recorded id (Taken.storeAll id ts initTorrentFile)) :
    m.LastTaken ts := by
  have hinj : Function.Injective (Option.map fun s : List UInt8 => s ++ [0]) :=
    Option.map_injective (List.append_left_injective [0])
  constructor
  · apply hinj
    rw [← storeAll_announce id, h.announce]
    rfl
  · apply hinj
    rw [← storeAll_comment id, h.comment]
  · apply hinj
    rw [← storeAll_name id, h.name]
    rfl
  · rw [← storeAll_length id, h.length]
  · rw [← storeAll_pieceLength id, h.pieceLength]
  · obtain ⟨hashes, hhashes, -, -, hflatten⟩ := h.pieceHashes
    rw [storeAll_pieceHashes, Option.map_eq_some_iff] at hhashes
    obtain ⟨s, hs, rfl⟩ := hhashes
    exact ⟨s, hs, by rw [← ParseState.flatten_hashBlocks, hflatten]⟩
  · have hinfo := h.infoHash
    rw [storeAll_infoHash, Option.map_id] at hinfo
    exact hinfo

/-- The parser answers as the flat reading of the file does. -/
theorem parseTorrentFile_file (m : Metainfo) (sha1 : List UInt8 → List UInt8) :
    ParseState.Answers sha1 (flatReading .unseen 0 (Value.dict m.entries).lexemes) initTorrentFile
      (parseTorrentFile sha1 initTorrentFile (some m.file)) :=
  ParseState.parseTorrentFile_encode (.dict m.entries) m.size_le

theorem ParsedRight.readRight (h : m.ParsedRight) : m.ReadRight := by
  obtain ⟨tr, htr, hrecorded⟩ := h id
  have hanswers := m.parseTorrentFile_file id
  rw [htr] at hanswers
  cases hreading : flatReading .unseen 0 (Value.dict m.entries).lexemes with
  | none =>
    rw [hreading] at hanswers
    obtain ⟨tr', hfail⟩ := hanswers
    cases hfail
  | some ts =>
    rw [hreading] at hanswers
    cases hanswers
    exact ⟨ts, hreading, hrecorded.lastTaken⟩

theorem ReadRight.parsedRight (h : m.ReadRight) : m.ParsedRight := by
  obtain ⟨ts, hreading, hlast⟩ := h
  intro sha1
  have hanswers := m.parseTorrentFile_file sha1
  rw [hreading] at hanswers
  exact ⟨_, hanswers, hlast.recorded sha1⟩

end Metainfo

end BitTorrentBits
