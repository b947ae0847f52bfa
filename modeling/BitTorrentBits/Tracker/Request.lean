import BitTorrentBits.Torrent.FlatRuns
import BitTorrentBits.Torrent.StoredValues
import BitTorrentBits.Tracker.ResponseData
import BitTorrentBits.Tracker.TrackerResponse
import BitTorrentBits.Wire.PerformHandshake

/-!
# The request to the tracker

`contact_tracker`: the request, its transfer, and the parsing of what the transfer leaves. The
first part puts the URL together with `strcat` in an array of fixed size. What libcurl does is a
parameter.
-/

namespace BitTorrentBits

open Bencode

def GET_REQUEST_SIZE : Nat := 2048

def LEFT_PARAM_SIZE : Nat := 64

/-- What `get_request` holds in the end; `none` is a dereferenced NULL pointer or an access
outside an array. `fresh` is what `left_param` happens to hold at first. -/
def getRequest (curlEasyEscape : List UInt8 → List UInt8) (fresh : Nat → UInt8)
    (tf : TorrentFile) : Option (List UInt8) := do
  let request := List.replicate GET_REQUEST_SIZE 0
  let request ← strcat request (← tf.announce)
  let request ← strcat request (literal "?")
  let request ← strcat request (literal "&peer_id=")
  let request ← strcat request (MY_PEER_ID.toList ++ [0])
  let request ← strcat request (literal "&port=6881")
  let request ← strcat request (literal "&uploaded=0")
  let request ← strcat request (literal "&downloaded=0")
  let request ← strcat request (literal "&compact=1")
  let leftParam := (List.range LEFT_PARAM_SIZE).map fresh
  let leftParam ← writeAt leftParam 0 (ascii "&left=" ++ decimal tf.length ++ [0])
  let request ← strcat request leftParam
  let request ← strcat request (literal "&info_hash=")
  let infoHash ← readAt (← tf.infoHash) 0 BT_HASH_LENGTH
  strcat request (curlEasyEscape infoHash)

/-- libcurl: whether there is a handle, the escaping of a string, and the chunks of the body that
a URL gives, `none` where `curl_easy_perform` fails. -/
structure Curl where
  easyInit : Bool
  easyEscape : List UInt8 → List UInt8
  easyPerform : List UInt8 → Option (List (List UInt8))

/-- `none` is an access outside the memory; where there is no chunk nothing has been written to
the struct that is read then. -/
def contactTracker (curl : Curl) (fresh : Nat → UInt8) (r : TrackerResponse) (tf : TorrentFile) :
    Option (Bool × TrackerResponse) := do
  if !curl.easyInit then return (false, r)
  let url ← cString (← getRequest curl.easyEscape fresh tf)
  match curl.easyPerform url with
  | none => return (false, r)
  | some [] => none
  | some chunks =>
    let (ok, response) ← ResponseData.transfer chunks ⟨[], 0⟩
    if !ok then return (false, r)
    r.parseBody (← readAt response.data 0 response.len)

/-- The function returns a string of at most three characters for each byte. -/
def Escapes (curlEasyEscape : List UInt8 → List UInt8) : Prop :=
  ∀ bytes, ∃ text, IsString (curlEasyEscape bytes) text ∧ text.length ≤ 3 * bytes.length

/-- The bytes of the request that are the same for every torrent. -/
def FIXED_REQUEST_LEN : Nat := 91

/-- The URL, without the final NUL, is shorter than the array. -/
def RequestShort (curlEasyEscape : List UInt8 → List UInt8) (announce infoHash : List UInt8)
    (length : Nat) : Prop :=
  (beforeNul announce).length + (decimal length).length +
    (beforeNul (curlEasyEscape infoHash)).length + FIXED_REQUEST_LEN < GET_REQUEST_SIZE

variable {curlEasyEscape : List UInt8 → List UInt8} {fresh : Nat → UInt8} {tf : TorrentFile}
  {announce infoHash : List UInt8}

private theorem isString_literal {s : String} (h : 0 ∉ ascii s) : IsString (literal s) (ascii s) :=
  ⟨h, [], rfl⟩

theorem exists_leftParam (fresh : Nat → UInt8) (h : tf.length < 2 ^ 64) :
    ∃ leftParam, writeAt ((List.range LEFT_PARAM_SIZE).map fresh) 0
        (ascii "&left=" ++ decimal tf.length ++ [0]) = some leftParam ∧
      IsString leftParam (ascii "&left=" ++ decimal tf.length) := by
  have hdigits : (decimal tf.length).length ≤ 20 := by
    rw [decimal, List.length_map]
    exact Nat.toDigits_length 10 tf.length 20 (by decide) (by omega)
  have hnul : 0 ∉ ascii "&left=" ++ decimal tf.length := by
    rw [List.mem_append, not_or]
    refine ⟨by decide, fun hmem => ?_⟩
    exact absurd (decimal_digits _ _ hmem) (by decide)
  have hleft : (ascii "&left=").length = 6 := rfl
  have hsize : ((List.range LEFT_PARAM_SIZE).map fresh).length = 64 := by simp [LEFT_PARAM_SIZE]
  have hle : 0 + (ascii "&left=" ++ decimal tf.length ++ [0]).length ≤
      ((List.range LEFT_PARAM_SIZE).map fresh).length := by
    simp only [List.length_append, List.length_singleton, hleft, hsize]
    omega
  refine ⟨_, writeAt_of_le hle, hnul,
    ((List.range LEFT_PARAM_SIZE).map fresh).drop
      (0 + (ascii "&left=" ++ decimal tf.length ++ [0]).length), ?_⟩
  simp only [List.take_zero, List.nil_append, List.append_assoc, List.singleton_append]

/-- The strings that are put together, with `left_param`. -/
def sources (announce leftParam escaped : List UInt8) : List (List UInt8) :=
  [announce, literal "?", literal "&peer_id=", MY_PEER_ID.toList ++ [0], literal "&port=6881",
    literal "&uploaded=0", literal "&downloaded=0", literal "&compact=1", leftParam,
    literal "&info_hash=", escaped]

def texts (announce left escaped : List UInt8) : List (List UInt8) :=
  [announce, ascii "?", ascii "&peer_id=", MY_PEER_ID.toList, ascii "&port=6881",
    ascii "&uploaded=0", ascii "&downloaded=0", ascii "&compact=1", left, ascii "&info_hash=",
    escaped]

theorem getRequest_eq {leftParam : List UInt8} (hannounce : tf.announce = some announce)
    (hleft : writeAt ((List.range LEFT_PARAM_SIZE).map fresh) 0
      (ascii "&left=" ++ decimal tf.length ++ [0]) = some leftParam)
    (hhash : tf.infoHash = some infoHash) (hsize : infoHash.length = BT_HASH_LENGTH) :
    getRequest curlEasyEscape fresh tf =
      (sources announce leftParam (curlEasyEscape infoHash)).foldlM strcat
        (List.replicate GET_REQUEST_SIZE 0) := by
  have hread : readAt infoHash 0 BT_HASH_LENGTH = some infoHash := by
    rw [readAt_of_le (by omega), List.drop_zero, ← hsize, List.take_length]
  simp only [getRequest, sources, hannounce, hleft, hhash, hread, Option.bind_eq_bind,
    Option.bind_some, List.foldlM_cons, List.foldlM_nil, Option.pure_def, Option.bind_fun_some]

theorem isString_sources {leftParam left escaped : List UInt8} (hannounce : 0 ∈ announce)
    (hleft : IsString leftParam left) (hescaped : 0 ∈ escaped) :
    List.Forall₂ IsString (sources announce leftParam escaped)
      (texts (beforeNul announce) left (beforeNul escaped)) := by
  refine .cons (isString_beforeNul hannounce) (.cons (isString_literal (by decide))
    (.cons (isString_literal (by decide)) (.cons ⟨by decide, [], rfl⟩
      (.cons (isString_literal (by decide)) (.cons (isString_literal (by decide))
        (.cons (isString_literal (by decide)) (.cons (isString_literal (by decide))
          (.cons hleft (.cons (isString_literal (by decide))
            (.cons (isString_beforeNul hescaped) .nil))))))))))

theorem length_texts (announce digits escaped : List UInt8) :
    (texts announce (ascii "&left=" ++ digits) escaped).flatten.length =
      announce.length + digits.length + escaped.length + FIXED_REQUEST_LEN := by
  have hparts : (ascii "?").length = 1 ∧ (ascii "&peer_id=").length = 9 ∧
      MY_PEER_ID.toList.length = 20 ∧ (ascii "&port=6881").length = 10 ∧
      (ascii "&uploaded=0").length = 11 ∧ (ascii "&downloaded=0").length = 13 ∧
      (ascii "&compact=1").length = 10 ∧ (ascii "&left=").length = 6 ∧
      (ascii "&info_hash=").length = 11 := by decide
  simp only [texts, List.flatten_cons, List.flatten_nil, List.length_append, List.length_nil,
    hparts, FIXED_REQUEST_LEN]
  omega

private theorem isSome_iff_requestShort (fresh : Nat → UInt8) (hnul : 0 ∈ announce)
    (hsize : infoHash.length = BT_HASH_LENGTH) (hlength : tf.length < 2 ^ 64)
    (hescape : Escapes curlEasyEscape) (hannounce : tf.announce = some announce)
    (hhash : tf.infoHash = some infoHash) :
    (getRequest curlEasyEscape fresh tf).isSome ↔
      RequestShort curlEasyEscape announce infoHash tf.length := by
  obtain ⟨leftParam, hleft, hstring⟩ := exists_leftParam fresh hlength
  obtain ⟨text, hescaped, -⟩ := hescape infoHash
  have hzero : 0 ∈ curlEasyEscape infoHash := by
    obtain ⟨-, rest, hsplit⟩ := hescaped
    rw [hsplit]
    simp
  have hbuf : IsString (List.replicate GET_REQUEST_SIZE 0) [] :=
    ⟨List.not_mem_nil, List.replicate 2047 0, rfl⟩
  rw [getRequest_eq hannounce hleft hhash hsize,
    hbuf.foldlM_isSome (isString_sources hnul hstring hzero), length_texts, List.length_replicate,
    List.length_nil, Nat.zero_add]
  rfl

/-- For a torrent file that the parser accepts with an announce and an info hash, the request
and its parameters stay inside their arrays exactly when the request is short enough. -/
theorem getRequest_isSome_iff {sha1 : List UInt8 → List UInt8}
    (hsha1 : ∀ bytes, (sha1 bytes).length = BT_HASH_LENGTH) (hescape : Escapes curlEasyEscape)
    (fresh : Nat → UInt8) {data : List UInt8}
    (hparse : parseTorrentFile sha1 initTorrentFile (some data) = some (true, tf))
    (hannounce : tf.announce = some announce) (hhash : tf.infoHash = some infoHash) :
    (getRequest curlEasyEscape fresh tf).isSome ↔
      RequestShort curlEasyEscape announce infoHash tf.length := by
  have hstores := parseTorrentFile_stores hparse
  have hstored := hstores.stored stored_init
  have hnul : 0 ∈ announce := by
    obtain ⟨text, rfl⟩ := hstored.announce announce hannounce
    simp
  exact isSome_iff_requestShort fresh hnul (hstores.infoHash_length hsha1 hhash) hstored.length
    hescape hannounce hhash

/-- A torrent file with an announce and an empty info dictionary. -/
def announceFile (announce : List UInt8) : Value :=
  .dict [(ascii "announce", .str announce), (ascii "info", .dict [])]

def sevens (_ : List UInt8) : List UInt8 := List.replicate BT_HASH_LENGTH 7

def percentSevens (bytes : List UInt8) : List UInt8 :=
  bytes.flatMap (fun _ => ascii "%07") ++ [0]

private theorem escapes_percentSevens : Escapes percentSevens := by
  intro bytes
  refine ⟨_, ⟨?_, [], rfl⟩, ?_⟩
  · simp only [List.mem_flatMap, not_exists, not_and]
    exact fun _ _ => by decide
  · rw [List.length_flatMap]
    simp [ascii]
    omega

theorem parse_announceFile {announce : List UInt8}
    (hsize : (announceFile announce).encode.length ≤ LONG_MAX) :
    parseTorrentFile sevens initTorrentFile (some (announceFile announce).encode) =
      some (true, { initTorrentFile with
        announce := some (announce ++ [0])
        infoHash := some (List.replicate BT_HASH_LENGTH 7) }) := by
  have hanswers : ParseState.Answers sevens (flatReading .unseen 0 (announceFile announce).lexemes)
      initTorrentFile _ := ParseState.parseTorrentFile_encode (announceFile announce) hsize
  have hannounce (info : InfoRead) (depth : Int) (ls : List Lexeme) :
      flatReading info depth (strLexeme (ascii "announce") :: strLexeme announce :: ls) = _ :=
    flatReading_strKey (Key.named_text (.str .announce))
  have hinfo (info : InfoRead) (depth : Int) (ls : List Lexeme) :
      flatReading info depth (strLexeme (ascii "info") :: .opener true :: ls) = _ :=
    flatReading_infoKey (Key.named_text .info)
  have hreading : flatReading .unseen 0 (announceFile announce).lexemes =
      some [.str .announce announce, .info [dictMark, endMark]] := by
    show flatReading .unseen 0 [.opener true, strLexeme (ascii "announce"), strLexeme announce,
      strLexeme (ascii "info"), .opener true, .closer, .closer] = _
    rw [flatReading_plain (l := .opener true) rfl nofun, hannounce, hinfo]
    rfl
  rw [hreading] at hanswers
  exact hanswers

/-- An announce of two thousand bytes. -/
theorem getRequest_overflows : ¬ ∀ (sha1 curlEasyEscape : List UInt8 → List UInt8)
    (fresh : Nat → UInt8) (data announce infoHash : List UInt8) (tf : TorrentFile),
    (∀ bytes, (sha1 bytes).length = BT_HASH_LENGTH) → Escapes curlEasyEscape →
      parseTorrentFile sha1 initTorrentFile (some data) = some (true, tf) →
        tf.announce = some announce → tf.infoHash = some infoHash →
          (getRequest curlEasyEscape fresh tf).isSome := by
  intro h
  let announce : List UInt8 := List.replicate 2000 97
  have hsize : (announceFile announce).encode.length ≤ LONG_MAX := by decide +kernel
  have hsome := h sevens percentSevens (fun _ => 0) _ _ _ _ (fun _ => rfl) escapes_percentSevens
    (parse_announceFile hsize) rfl rfl
  rw [isSome_iff_requestShort _ (by simp) rfl (by decide) escapes_percentSevens rfl rfl] at hsome
  have hannounce : (beforeNul (announce ++ [0])).length = 2000 := by decide +kernel
  rw [RequestShort, hannounce] at hsome
  unfold FIXED_REQUEST_LEN GET_REQUEST_SIZE at hsome
  have hescaped : (beforeNul (percentSevens (List.replicate BT_HASH_LENGTH 7))).length = 60 := by
    decide
  omega

theorem getRequest_isSome_iff_short :
    (getRequest percentSevens (fun _ => 0) { initTorrentFile with
      announce := some (ascii "http://t" ++ [0])
      infoHash := some (List.replicate BT_HASH_LENGTH 7) }).isSome ↔
    RequestShort percentSevens (ascii "http://t" ++ [0]) (List.replicate BT_HASH_LENGTH 7) 0 :=
  have hsevens : ∀ bytes, (sevens bytes).length = BT_HASH_LENGTH := fun _ => rfl
  getRequest_isSome_iff hsevens escapes_percentSevens _ (parse_announceFile (by decide)) rfl rfl

end BitTorrentBits
