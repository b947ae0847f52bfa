import BitTorrentBits.Bencode.Subvalues
import BitTorrentBits.Torrent.HashCalls
import BitTorrentBits.Torrent.Metainfo

/-!
# Spans of the info dictionary

A reader takes for the info dictionary the lexemes from an opener that follows the string
`info` to the closer that matches it, at any depth and however often the string occurs.
-/

namespace BitTorrentBits

open Bencode ParseState

/-- These lexemes end inside a dictionary at depth `d` that follows the string `info`; `bytes`
are those of the dictionary so far. -/
def InsideInfo (done : List Lexeme) (d depth : Int) (bytes : List UInt8) : Prop :=
  ∃ pre digits mid, done = pre ++ .str digits Key.info.text :: .opener true :: mid ∧
    bytes = dictMark :: mid.flatMap Lexeme.bytes ∧ depth = d + 1 + height mid ∧
    ClosersMatched 0 mid

/-- Among these lexemes the string `info` is followed by a dictionary, which is closed; `bytes`
are those of the dictionary. -/
def ClosedInfo (done : List Lexeme) (bytes : List UInt8) : Prop :=
  ∃ pre digits mid post,
    done = pre ++ .str digits Key.info.text :: .opener true :: (mid ++ .closer :: post) ∧
    bytes = dictMark :: mid.flatMap Lexeme.bytes ++ [endMark] ∧ Balanced 0 mid

/-- What a reader knows of the lexemes it has read. -/
structure Reader.Spans (r : Reader) (done : List Lexeme) : Prop where
  inside : ∀ d bytes, r.info = .inside d bytes → InsideInfo done d r.depth bytes
  value : r.awaits = .value .info → ∃ pre digits, done = pre ++ [.str digits Key.info.text]
  more : ∀ bytes, r.awaits = .more bytes → ClosedInfo done bytes

variable {done ls : List Lexeme} {l : Lexeme} {d depth : Int} {bytes : List UInt8}

theorem InsideInfo.concat (h : InsideInfo done d depth bytes)
    (hl : l = .closer → d ≠ depth - 1) :
    InsideInfo (done ++ [l]) d (depth + l.depth) (bytes ++ l.bytes) := by
  obtain ⟨pre, digits, mid, rfl, rfl, rfl, hmid⟩ := h
  have hopen := hmid.height_nonneg (Int.le_refl 0)
  refine ⟨pre, digits, mid ++ [l], by simp, by simp, ?_, ?_⟩
  · rw [height_append, height_cons, height_nil]
    omega
  · rw [closersMatched_concat]
    refine ⟨hmid, ?_⟩
    intro hcloser
    have hne := hl hcloser
    omega

theorem InsideInfo.close (h : InsideInfo done d depth bytes) (hd : d = depth - 1) :
    ClosedInfo (done ++ [.closer]) (bytes ++ [endMark]) := by
  obtain ⟨pre, digits, mid, rfl, rfl, rfl, hmid⟩ := h
  refine ⟨pre, digits, mid, [], by simp, rfl, hmid, ?_⟩
  omega

theorem ClosedInfo.append (h : ClosedInfo done bytes) (ls : List Lexeme) :
    ClosedInfo (done ++ ls) bytes := by
  obtain ⟨pre, digits, mid, post, rfl, hbytes, hmid⟩ := h
  exact ⟨pre, digits, mid, post ++ ls, by simp, hbytes, hmid⟩

namespace Reader

variable {r r' : Reader} {found : List Found} {info : InfoRead} {out : Option Reader}

private theorem inside_read (l : Lexeme)
    (h : ∀ d bytes, info = .inside d bytes → InsideInfo done d depth bytes)
    (hl : l = .closer → info.closing (depth - 1) = none) :
    ∀ d bytes, info.read l.bytes = .inside d bytes →
      InsideInfo (done ++ [l]) d (depth + l.depth) bytes := by
  intro d bytes hread
  cases info with
  | unseen => cases hread
  | closed => cases hread
  | inside d' seen =>
    cases hread
    apply (h d seen rfl).concat
    rintro hcloser rfl
    have hopen := hl hcloser
    simp [InfoRead.closing] at hopen

private theorem spans_lexeme
    (h : ∀ d bytes, info = .inside d bytes → InsideInfo done d depth bytes) :
    Spans ⟨info, depth, .lexeme⟩ done := by
  refine ⟨h, ?_, ?_⟩
  · intro hawaits
    cases hawaits
  · intro bytes hawaits
    cases hawaits

private theorem spans_afterLexeme (l : Lexeme)
    (h : ∀ d bytes, info = .inside d bytes → InsideInfo done d depth bytes) :
    (afterLexeme info depth l).Spans (done ++ [l]) := by
  cases l with
  | int negative digits => exact spans_lexeme (inside_read _ h (by simp))
  | opener dict => exact spans_lexeme (inside_read _ h (by simp))
  | str digits payload =>
    refine ⟨?_, ?_, ?_⟩
    · have hread := inside_read (.str digits payload) h (by simp)
      simpa [afterLexeme, Lexeme.depth] using hread
    · intro hawaits
      refine ⟨done, digits, ?_⟩
      cases hnamed : Key.named payload with
      | none => simp [afterLexeme, hnamed] at hawaits
      | some key =>
        have hkey : key = .info := by simpa [afterLexeme, hnamed] using hawaits
        rw [Key.text_of_named hnamed, hkey]
    · intro bytes hawaits
      cases hnamed : Key.named payload <;> simp [afterLexeme, hnamed] at hawaits
  | closer =>
    cases hclosing : info.closing (depth - 1) with
    | none =>
      simp only [afterLexeme, hclosing]
      exact spans_lexeme (inside_read .closer h fun _ => hclosing)
    | some bytes =>
      obtain ⟨seen, rfl, rfl⟩ := InfoRead.closing_eq_some hclosing
      simp only [afterLexeme, hclosing]
      refine ⟨?_, ?_, ?_⟩
      · intro d bytes hinside
        cases hinside
      · intro hawaits
        cases hawaits
      · intro bytes hawaits
        cases hawaits
        exact (h (depth - 1) seen rfl).close rfl

private theorem spans_readValue (h : r.Spans done) {key : Key} (hawaits : r.awaits = .value key)
    (hread : r.readValue (.tight l) key = (found, some r')) : r'.Spans (done ++ [l]) := by
  unfold readValue at hread
  split at hread
  · rename_i key digits s hl
    cases hread
    obtain rfl : l = .str digits s := hl
    apply spans_lexeme
    have hinside := inside_read (.str digits s) h.inside (by simp)
    simpa [Lexeme.depth] using hinside
  · rename_i key negative digits hl
    cases hread
    obtain rfl : l = .int negative digits := hl
    apply spans_lexeme
    have hinside := inside_read (.int negative digits) h.inside (by simp)
    simpa [Lexeme.depth] using hinside
  · rename_i hl
    cases hread
    obtain rfl : l = .opener true := hl
    apply spans_lexeme
    intro d bytes hinside
    obtain ⟨pre, digits, rfl⟩ := h.value hawaits
    have henter : r.info.enter r.depth = .inside d bytes := (r.info.start_read r.depth).symm.trans hinside
    refine ⟨pre, digits, [], by simp, ?_⟩
    cases hinfo : r.info <;> rw [hinfo] at henter <;> cases henter
    all_goals exact ⟨rfl, by simp, balanced_nil.1⟩
  · cases hread

private theorem spans_read (h : r.Spans done) (hread : r.read (.tight l) = (found, some r')) :
    r'.Spans (done ++ [l]) := by
  have hinside : ∀ d bytes, r.info.read [] = .inside d bytes → InsideInfo done d r.depth bytes := by
    intro d bytes hinfo
    apply h.inside
    rw [← hinfo]
    cases r.info <;> simp
  unfold read at hread
  split at hread
  · cases hread
    exact spans_afterLexeme l hinside
  · rename_i key hawaits
    exact spans_readValue h hawaits hread
  · cases hread
    exact spans_afterLexeme l hinside

private theorem closedInfo_of_read (h : r.Spans done) (hread : r.read (.tight l) = (found, out))
    (hfound : .info bytes ∈ found) : ClosedInfo done bytes := by
  unfold read at hread
  split at hread
  · cases hread
    simp at hfound
  · rename_i key hawaits
    unfold readValue at hread
    split at hread <;> cases hread <;> simp at hfound
  · rename_i bytes' hawaits
    cases hread
    obtain rfl : bytes = bytes' := by simpa using hfound
    exact h.more _ hawaits

theorem spans_init : init.Spans [] := ⟨nofun, nofun, nofun⟩

theorem Spans.closedInfo_of_readAll (h : r.Spans done)
    (hread : r.readAll (ls.map Spaced.tight) = (found, out)) (hfound : .info bytes ∈ found) :
    ClosedInfo (done ++ ls) bytes := by
  induction ls generalizing r done found with
  | nil =>
    cases hread
    contradiction
  | cons l ls ih =>
    rcases hfirst : r.read (.tight l) with ⟨found', _ | r'⟩
    · have hsame : found' = found := by
        simp only [List.map_cons, readAll, hfirst] at hread
        exact (Prod.mk.inj hread).1
      subst hsame
      exact (closedInfo_of_read h hfirst hfound).append _
    · obtain ⟨found'', rfl, hrest⟩ := readAll_cons hread hfirst
      rcases List.mem_append.mp hfound with hfound | hfound
      · exact (closedInfo_of_read h hfirst hfound).append _
      · rw [List.append_cons]
        exact ih (spans_read h hfirst) hrest hfound

end Reader

/-- In the encoding of these entries the string `info` is followed by this dictionary. -/
def InfoFollowedBy (entries inner : List (List UInt8 × Value)) : Prop :=
  ∃ pre post, (Value.dict entries).lexemes =
    pre ++ strLexeme (ascii "info") :: ((Value.dict inner).lexemes ++ post)

theorem ClosedInfo.exists_dict {entries : List (List UInt8 × Value)}
    (h : ClosedInfo (Value.dict entries).lexemes bytes) :
    ∃ inner, InfoFollowedBy entries inner ∧ bytes = (Value.dict inner).encode := by
  obtain ⟨pre, digits, mid, post, hlexemes, rfl, hmid⟩ := h
  have hopens : OpensDicts (Value.dict entries).lexemes := by
    rw [← List.append_nil (Value.dict entries).lexemes]
    exact (Value.dict entries).opensDicts trivial
  rw [hlexemes, List.append_cons] at hopens
  obtain ⟨inner, rfl⟩ := hopens.exists_dict hmid
  have hname : Lexeme.str digits Key.info.text = strLexeme (ascii "info") := by
    apply Value.eq_strLexeme_of_mem (v := .dict entries)
    simp [hlexemes]
  refine ⟨inner, ⟨pre, post, ?_⟩, ?_⟩
  · rw [hlexemes, hname]
    simp [Value.lexemes]
  · simp [Value.encode, Value.lexemes, Lexeme.bytes]

private theorem exists_of_lastTaken {α : Type} {kind : Taken → Option α} {ts : List Taken} {x : α}
    (h : lastTaken kind ts = some x) : ∃ t ∈ ts, kind t = some x :=
  List.mem_filterMap.mp (List.mem_of_getLast? h)

private theorem info_mem_of_lastTaken {found : List Found}
    (h : lastTaken Taken.info? (found.map Found.taken) = some bytes) : .info bytes ∈ found := by
  obtain ⟨t, ht, hbytes⟩ := exists_of_lastTaken h
  obtain ⟨f, hf, rfl⟩ := List.mem_map.mp ht
  cases f with
  | str key s => cases hbytes
  | int key negative digits => cases hbytes
  | info bytes' =>
    cases hbytes
    exact hf

private theorem exists_found {v : Value} (hsize : v.encode.length ≤ LONG_MAX) :
    ∃ found out ok, Reader.init.readAll (v.lexemes.map Spaced.tight) = (found, out) ∧
      ∀ sha1, parseTorrentFile sha1 initTorrentFile (some v.encode) =
        some (ok, Found.storeAll sha1 found initTorrentFile) := by
  have hcut := cutInto_tight (v.valid_lexemes (Value.stringsWithin hsize))
  rcases hread : Reader.init.readAll (v.lexemes.map Spaced.tight) with ⟨found, _ | r⟩
  · refine ⟨found, none, false, rfl, ?_⟩
    intro sha1
    exact parseTorrentFile_stopped sha1 initTorrentFile hsize hcut hread
  · refine ⟨found, some r, r.ends, rfl, ?_⟩
    intro sha1
    exact parseTorrentFile_ended sha1 initTorrentFile hsize hcut hread

/-- Of an encoded dictionary at most one span is hashed, and it is the encoding of a dictionary
that directly follows the string `info`. -/
theorem hashes_dict_after_info (sha1 : List UInt8 → List UInt8) {file : FileRead}
    {entries : List (List UInt8 × Value)} (h : readFile file = some (Value.dict entries).encode) :
    ∃ ok tr, parseTorrentFile sha1 initTorrentFile (readFile file) = some (ok, tr) ∧
      (hashCalls sha1 initTorrentFile (readFile file)).length ≤ 1 ∧
      (tr.infoHash ≠ none → ∃ inner, InfoFollowedBy entries inner ∧
        hashCalls sha1 initTorrentFile (readFile file) = [(Value.dict inner).encode] ∧
        tr.infoHash = some (sha1 (Value.dict inner).encode)) := by
  obtain ⟨found, out, ok, hread, hparse⟩ := exists_found (readFile_length h)
  have hcases := hashCalls_of_parseTorrentFile (hparse id)
  rw [h, hashCalls_eq_id sha1]
  refine ⟨ok, _, hparse sha1, ?_, ?_⟩
  · rcases hcases with ⟨hnone, -⟩ | ⟨bytes, hone, -⟩
    · exact hnone.symm ▸ Nat.zero_le 1
    · exact hone.symm ▸ Nat.le_refl 1
  · intro hset
    rw [Found.storeAll, storeAll_infoHash] at hset hcases ⊢
    cases hlast : lastTaken Taken.info? (found.map Found.taken) with
    | none => simp [hlast] at hset
    | some bytes =>
      rw [hlast] at hcases
      rcases hcases with ⟨-, hnone⟩ | ⟨bytes', hone, hsome⟩
      · cases hnone
      · cases hsome
        have hclosed := Reader.spans_init.closedInfo_of_readAll hread (info_mem_of_lastTaken hlast)
        obtain ⟨inner, hfollowed, rfl⟩ := hclosed.exists_dict
        exact ⟨inner, hfollowed, hone, rfl⟩

/-- An info dictionary in a list, and with the name `info` for its own key. -/
def listedInfo : List (List UInt8 × Value) :=
  [(ascii "a", .list [.str (ascii "info"), .dict [(ascii "info", .dict [])]])]

theorem hashes_dict_after_info_listedInfo :
    ∃ inner, InfoFollowedBy listedInfo inner ∧
      hashCalls id initTorrentFile (some (Value.dict listedInfo).encode) =
        [(Value.dict inner).encode] := by
  have hfile : readFile (.opened 23 (by decide) (Value.dict listedInfo).encode) =
      some (Value.dict listedInfo).encode := by
    decide
  have hset : (parseTorrentFile id initTorrentFile (some (Value.dict listedInfo).encode)).all
      fun result => result.2.infoHash.isSome := by
    decide
  obtain ⟨ok, tr, hparse, -, hspan⟩ := hashes_dict_after_info id hfile
  rw [hfile] at hparse hspan
  rw [hparse] at hset
  obtain ⟨inner, hfollowed, hcalls, -⟩ := hspan (Option.isSome_iff_ne_none.mp hset)
  exact ⟨inner, hfollowed, hcalls⟩

end BitTorrentBits
