import BitTorrentBits.Torrent.StoredNumbers

/-!
# Outcomes of parsing

Every outcome of reading a file: what the download relies on when the parser reports success,
and the files of which it may.
-/

namespace BitTorrentBits

open Bencode ParseState

/-- The numbers come from the file: they do not depend on what the record held before. -/
def GivesNumbers (sha1 : List UInt8 → List UInt8) (file : FileRead) (tr : TorrentFile) : Prop :=
  ∀ (length pieceLength : Nat) (tr' : TorrentFile),
    parseTorrentFile sha1
        { initTorrentFile with length := length, pieceLength := pieceLength } (readFile file) =
      some (true, tr') → ∀ key, tr'.number key = tr.number key

/-- What the download uses of the record. -/
structure FieldsSet (sha1 : List UInt8 → List UInt8) (file : FileRead) (tr : TorrentFile) :
    Prop where
  announce : tr.announce ≠ none
  infoHash : tr.infoHash ≠ none
  name : tr.name ≠ none
  pieceHashes : ∃ hashes, tr.pieceHashes = some hashes ∧ tr.numPieces = hashes.length
  numbers : GivesNumbers sha1 file tr

/-- The parser returns without dereferencing NULL or reading outside its data, and it reports
success only if every field has been set from the file. -/
def ReportsRight (sha1 : List UInt8 → List UInt8) (file : FileRead) : Prop :=
  ∃ ok tr, parseTorrentFile sha1 initTorrentFile (readFile file) = some (ok, tr) ∧
    (ok = true → FieldsSet sha1 file tr)

structure FindsFields (found : List Found) : Prop where
  announce : ∃ s, .str .announce s ∈ found
  info : ∃ bytes, .info bytes ∈ found
  name : ∃ s, .str .name s ∈ found
  pieces : ∃ s, .str .pieces s ∈ found
  numbers : ∀ key, ∃ negative digits, .int key negative digits ∈ found

/-- The file is read in full, it does not end inside a lexeme that the parser comes to, and
every field is found if it can be read to its end. -/
def ReadsWhole (file : FileRead) : Prop :=
  ∃ data, readFile file = some data ∧ ∀ ps blanks t found r, CutInto LONG_MAX data ps blanks t →
    Reader.init.readAll ps = (found, some r) →
      (Cut LONG_MAX t → r.StopsBefore t) ∧ (t = [] → r.ends = true → FindsFields found)

section Fields

variable {sha1 : List UInt8 → List UInt8} {found : List Found}

private theorem lastTaken_ne_none {α : Type} {kind : Taken → Option α} :
    lastTaken kind (found.map Found.taken) ≠ none ↔ ∃ f ∈ found, kind f.taken ≠ none := by
  simp [lastTaken]

private theorem lastTaken_str_ne_none {key : StrKey} :
    lastTaken (Taken.str? key) (found.map Found.taken) ≠ none ↔ ∃ s, .str key s ∈ found := by
  rw [lastTaken_ne_none]
  constructor
  · rintro ⟨⟨key', s⟩ | _ | _, hf, hkind⟩
    · have hkey : key' = key := by
        by_contra hne
        exact hkind (if_neg hne)
      exact ⟨s, hkey ▸ hf⟩
    · exact (hkind rfl).elim
    · exact (hkind rfl).elim
  · rintro ⟨s, hs⟩
    exact ⟨_, hs, by simp [Found.taken, Taken.str?]⟩

private theorem lastTaken_int_ne_none {key : IntKey} :
    lastTaken (Taken.int? key) (found.map Found.taken) ≠ none ↔
      ∃ negative digits, .int key negative digits ∈ found := by
  rw [lastTaken_ne_none]
  constructor
  · rintro ⟨_ | ⟨key', negative, digits⟩ | _, hf, hkind⟩
    · exact (hkind rfl).elim
    · have hkey : key' = key := by
        by_contra hne
        exact hkind (if_neg hne)
      exact ⟨negative, digits, hkey ▸ hf⟩
    · exact (hkind rfl).elim
  · rintro ⟨negative, digits, hs⟩
    exact ⟨_, hs, by simp [Found.taken, Taken.int?]⟩

private theorem lastTaken_info_ne_none :
    lastTaken Taken.info? (found.map Found.taken) ≠ none ↔ ∃ bytes, .info bytes ∈ found := by
  rw [lastTaken_ne_none]
  constructor
  · rintro ⟨_ | _ | bytes, hf, hkind⟩
    · exact (hkind rfl).elim
    · exact (hkind rfl).elim
    · exact ⟨bytes, hf⟩
  · rintro ⟨bytes, hs⟩
    exact ⟨_, hs, nofun⟩

private theorem announce_ne_none :
    (Found.storeAll sha1 found initTorrentFile).announce ≠ none ↔ ∃ s, .str .announce s ∈ found := by
  rw [Found.storeAll, storeAll_announce, ne_eq, Option.map_eq_none_iff]
  exact lastTaken_str_ne_none

private theorem name_ne_none :
    (Found.storeAll sha1 found initTorrentFile).name ≠ none ↔ ∃ s, .str .name s ∈ found := by
  rw [Found.storeAll, storeAll_name, ne_eq, Option.map_eq_none_iff]
  exact lastTaken_str_ne_none

private theorem infoHash_ne_none :
    (Found.storeAll sha1 found initTorrentFile).infoHash ≠ none ↔ ∃ bytes, .info bytes ∈ found := by
  rw [Found.storeAll, storeAll_infoHash, ne_eq, Option.map_eq_none_iff]
  exact lastTaken_info_ne_none

private theorem pieceHashes_iff :
    (∃ hashes, (Found.storeAll sha1 found initTorrentFile).pieceHashes = some hashes ∧
      (Found.storeAll sha1 found initTorrentFile).numPieces = hashes.length) ↔
      ∃ s, .str .pieces s ∈ found := by
  rw [Found.storeAll, storeAll_pieceHashes, storeAll_numPieces, ← lastTaken_str_ne_none]
  cases lastTaken (Taken.str? .pieces) (found.map Found.taken) <;> simp [length_hashBlocks]

private theorem fieldsSet_iff {file : FileRead}
    (hparse : ∀ tr, parseTorrentFile sha1 tr (readFile file) =
      some (true, Found.storeAll sha1 found tr)) :
    FieldsSet sha1 file (Found.storeAll sha1 found initTorrentFile) ↔ FindsFields found := by
  constructor
  · intro h
    refine ⟨announce_ne_none.mp h.announce, infoHash_ne_none.mp h.infoHash,
      name_ne_none.mp h.name, pieceHashes_iff.mp h.pieceHashes, ?_⟩
    intro key
    rw [← lastTaken_int_ne_none]
    intro hnone
    have hnumber := h.numbers 1 1 _ (hparse _) key
    rw [number_storeAll, number_storeAll, hnone] at hnumber
    cases key <;> contradiction
  · intro h
    refine ⟨announce_ne_none.mpr h.announce, infoHash_ne_none.mpr h.info,
      name_ne_none.mpr h.name, pieceHashes_iff.mpr h.pieces, ?_⟩
    intro length pieceLength tr' htr' key
    rw [hparse] at htr'
    cases htr'
    obtain ⟨n, hn⟩ := Option.ne_none_iff_exists'.mp (lastTaken_int_ne_none.mpr (h.numbers key))
    rw [number_storeAll, number_storeAll, hn]
    rfl

end Fields

private theorem reportsRight_of_false {sha1 : List UInt8 → List UInt8} {file : FileRead}
    {tr : TorrentFile}
    (h : parseTorrentFile sha1 initTorrentFile (readFile file) = some (false, tr)) :
    ReportsRight sha1 file :=
  ⟨false, tr, h, nofun⟩

/-- What the parser reports is right exactly of the files that it reads whole. -/
theorem reportsRight_iff_readsWhole (sha1 : List UInt8 → List UInt8) (file : FileRead) :
    ReportsRight sha1 file ↔ ReadsWhole file := by
  constructor
  · rintro ⟨ok, tr, hparse, hright⟩
    cases hfile : readFile file with
    | none =>
      rw [hfile] at hparse
      contradiction
    | some data =>
      have hsize := readFile_length hfile
      refine ⟨data, hfile, ?_⟩
      intro ps blanks t found r hcut hread
      constructor
      · intro ht
        by_contra hstops
        have hnone := parseTorrentFile_cut sha1 initTorrentFile hsize hcut ht hstops hread
        rw [← hfile, hparse] at hnone
        contradiction
      · rintro rfl hends
        have hended : ∀ tr, parseTorrentFile sha1 tr (readFile file) =
            some (true, Found.storeAll sha1 found tr) := by
          intro tr
          rw [hfile, ← hends]
          exact parseTorrentFile_ended sha1 tr hsize hcut hread
        rw [hended] at hparse
        cases hparse
        exact (fieldsSet_iff hended).mp (hright rfl)
  · rintro ⟨data, hfile, hall⟩
    have hsize := readFile_length hfile
    obtain ⟨ps, blanks, t, hcut⟩ := exists_cutInto LONG_MAX data
    rcases hread : Reader.init.readAll ps with ⟨found, _ | r⟩
    · have hfalse := parseTorrentFile_stopped sha1 initTorrentFile hsize hcut hread
      rw [← hfile] at hfalse
      exact reportsRight_of_false hfalse
    · obtain ⟨hstops, hfinds⟩ := hall ps blanks t found r hcut hread
      rcases hcut.tail with rfl | ht | ht
      · have hended (tr : TorrentFile) := parseTorrentFile_ended sha1 tr hsize hcut hread
        rw [← hfile] at hended
        refine ⟨r.ends, _, hended _, ?_⟩
        intro hends
        rw [hends] at hended
        exact (fieldsSet_iff hended).mpr (hfinds rfl hends)
      · obtain ⟨tr, hfalse⟩ := parseTorrentFile_stray sha1 initTorrentFile hsize hcut ht hread
        rw [← hfile] at hfalse
        exact reportsRight_of_false hfalse
      · have hfalse :=
          parseTorrentFile_stopsBefore sha1 initTorrentFile hsize hcut (hstops ht) hread
        rw [← hfile] at hfalse
        exact reportsRight_of_false hfalse

/-- An empty file is accepted. -/
theorem not_reportsRight_empty :
    ¬ ∀ (sha1 : List UInt8 → List UInt8) (file : FileRead), ReportsRight sha1 file := by
  intro h
  obtain ⟨ok, tr, hparse, hright⟩ := h id (.opened 0 (by decide) [])
  cases hparse
  exact (hright rfl).announce rfl

end BitTorrentBits
