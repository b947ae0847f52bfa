import BitTorrentBits.Torrent.RunEnds

/-!
# Runs over lexemes

Over the bytes of valid lexemes the parser stores exactly what is taken from them in a flat
reading, and it fails where the reading does.
-/

namespace BitTorrentBits

open Bencode

namespace Reader

/-- The flat reading that a reader has done, if it may end here. -/
def reading : List Found × Option Reader → Option (List Taken)
  | (found, some ⟨_, _, .lexeme⟩) => some (found.map Found.taken)
  | _ => none

variable {info : InfoRead} {depth : Int} {l : Lexeme} {p : Spaced} {ps : List Spaced}

private theorem reading_cons (f : Found) (x : List Found × Option Reader) :
    reading (f :: x.1, x.2) = (reading x).map (f.taken :: ·) := by
  obtain ⟨found, _ | ⟨info, depth, _ | _ | _⟩⟩ := x <;> rfl

private theorem readAll_tight (l : Lexeme) (ps : List Spaced) :
    readAll ⟨info, depth, .lexeme⟩ (Spaced.tight l :: ps) =
      readAll (afterLexeme info depth l) ps := by
  have hnil : info.read [] = info := by cases info <;> simp
  simp [readAll, read, Spaced.tight, hnil]

private theorem readAll_more (bytes : List UInt8) (p : Spaced) (ps : List Spaced) :
    readAll ⟨info, depth, .more bytes⟩ (p :: ps) =
      (.info bytes :: (readAll ⟨info, depth, .lexeme⟩ (p :: ps)).1,
        (readAll ⟨info, depth, .lexeme⟩ (p :: ps)).2) := by
  simp [readAll, read]

private theorem afterLexeme_str {digits payload : List UInt8} {key : Key}
    (hkey : Key.named payload = some key) :
    afterLexeme info depth (.str digits payload) =
      ⟨info.read (Lexeme.str digits payload).bytes, depth, .value key⟩ := by
  simp [afterLexeme, hkey]

private theorem afterLexeme_infoEnd {bytes : List UInt8}
    (hclosing : info.closing (depth - 1) = some bytes) :
    afterLexeme info depth .closer = ⟨.closed, depth - 1, .more bytes⟩ := by
  simp [afterLexeme, hclosing]

private theorem readAll_stop {key : Key} (h : ∀ p ∈ ps.head?, p.lexeme.mark ≠ key.mark) :
    reading (readAll ⟨info, depth, .value key⟩ ps) = none := by
  cases ps with
  | nil => rfl
  | cons p ps =>
    have hvalue := readValue_of_mark_ne (r := ⟨info, depth, .value key⟩) (h p rfl)
    simp only [readAll, read, hvalue]
    rfl

theorem flatReading_eq (info : InfoRead) (depth : Int) (ls : List Lexeme) :
    flatReading info depth ls =
      reading (readAll ⟨info, depth, .lexeme⟩ (ls.map Spaced.tight)) := by
  induction info, depth, ls using flatReading.induct with
  | case1 info depth => rfl
  | case2 info depth negative digits ls ih =>
    rw [flatReading, ih, List.map_cons, readAll_tight]
    simp [afterLexeme, Lexeme.depth]
  | case3 info depth dict ls ih =>
    rw [flatReading, ih, List.map_cons, readAll_tight]
    simp [afterLexeme, Lexeme.depth]
  | case4 info depth ls hclosing ih =>
    rw [List.map_cons, readAll_tight]
    simp only [flatReading, afterLexeme, hclosing, ih]
  | case5 info depth bytes hclosing =>
    simp only [flatReading, hclosing, List.map_cons, readAll_tight, afterLexeme]
    rfl
  | case6 info depth ls bytes hclosing hne ih =>
    obtain ⟨l, ls, rfl⟩ := List.exists_cons_of_ne_nil hne
    rw [flatReading_infoEnd hclosing hne, ih]
    show _ = reading (readAll _ (Spaced.tight .closer :: Spaced.tight l :: ls.map Spaced.tight))
    rw [readAll_tight, afterLexeme_infoEnd hclosing, readAll_more, reading_cons]
    rfl
  | case7 info depth digits payload ls hkey ih =>
    rw [List.map_cons, readAll_tight]
    simp only [flatReading, afterLexeme, hkey, ih]
    rfl
  | case8 info depth digits payload key digits' x ls hkey ih =>
    rw [flatReading_strKey hkey, ih, List.map_cons, readAll_tight, afterLexeme_str hkey]
    exact (reading_cons (.str key x) _).symm
  | case9 info depth digits payload key negative digits' ls hkey ih =>
    rw [flatReading_intKey hkey, ih, List.map_cons, readAll_tight, afterLexeme_str hkey]
    exact (reading_cons (.int key negative digits') _).symm
  | case10 info depth digits payload ls hkey ih =>
    rw [flatReading_infoKey hkey, ih, List.map_cons, readAll_tight, afterLexeme_str hkey,
      ← InfoRead.start_read]
    rfl
  | case11 info depth digits payload ls key hkey hstr hint hinfo =>
    have hne : ∀ l ls', ls = l :: ls' → l.mark ≠ key.mark := by
      intro l ls' hsplit hmark
      have hlexeme := Key.lexeme_of_mark hmark
      cases key with
      | str key =>
        obtain ⟨digits', x, rfl⟩ := hlexeme
        exact hstr key digits' x ls' rfl hsplit
      | int key =>
        obtain ⟨negative, digits', rfl⟩ := hlexeme
        exact hint key negative digits' ls' rfl hsplit
      | info =>
        obtain rfl : l = .opener true := hlexeme
        exact hinfo ls' rfl hsplit
    rw [flatReading_stop hkey hne, List.map_cons, readAll_tight, afterLexeme_str hkey,
      readAll_stop]
    intro p hp
    cases ls with
    | nil => contradiction
    | cons l ls =>
      cases hp
      exact hne l ls rfl

end Reader

namespace ParseState

variable {sha1 : List UInt8 → List UInt8} {ls : List Lexeme} {tr : TorrentFile}

/-- The parser's answer with this reading ahead of it. -/
def Answers (sha1 : List UInt8 → List UInt8) (reading : Option (List Taken)) (tr : TorrentFile)
    (result : Option (Bool × TorrentFile)) : Prop :=
  match reading with
  | some ts => result = some (true, Taken.storeAll sha1 ts tr)
  | none => ∃ tr', result = some (false, tr')

theorem parseTorrentFile_flatReading (hls : ∀ l ∈ ls, l.Valid LONG_MAX)
    (hsize : (ls.flatMap Lexeme.bytes).length ≤ LONG_MAX) (hend : height ls ≤ 0) :
    Answers sha1 (flatReading .unseen 0 ls) tr
      (parseTorrentFile sha1 tr (some (ls.flatMap Lexeme.bytes))) := by
  have hcut := cutInto_tight hls
  rw [Reader.flatReading_eq]
  show Answers sha1 (Reader.reading (Reader.init.readAll _)) tr _
  rcases hread : Reader.init.readAll (ls.map Spaced.tight) with ⟨found, _ | ⟨info, depth, awaits⟩⟩
  · exact ⟨_, parseTorrentFile_stopped sha1 tr hsize hcut hread⟩
  · have hended := parseTorrentFile_ended sha1 tr hsize hcut hread
    cases awaits with
    | lexeme =>
      have hlexemes : (ls.map Spaced.tight).map Spaced.lexeme = ls := by simp [Function.comp_def]
      have hdepth := Reader.readAll_depth hread
      rw [hlexemes] at hdepth
      change depth = 0 + height ls at hdepth
      have hends : Reader.ends ⟨info, depth, .lexeme⟩ = true := by
        simp only [Reader.ends, decide_eq_true_eq]
        omega
      rw [hends] at hended
      exact hended
    | value key => exact ⟨_, hended⟩
    | more bytes => exact ⟨_, hended⟩

theorem parseTorrentFile_encode (v : Value) (hsize : v.encode.length ≤ LONG_MAX) :
    Answers sha1 (flatReading .unseen 0 v.lexemes) tr
      (parseTorrentFile sha1 tr (some v.encode)) := by
  have hheight := v.balanced.2
  rw [Int.zero_add] at hheight
  exact parseTorrentFile_flatReading (Value.valid_lexemes (Value.stringsWithin hsize)) hsize
    (Int.le_of_eq hheight)

end ParseState

end BitTorrentBits
