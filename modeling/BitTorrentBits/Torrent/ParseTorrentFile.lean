import BitTorrentBits.Bencode.Tokenizer
import BitTorrentBits.Foundation.CInt
import BitTorrentBits.Foundation.CString

/-!
# Parsing a torrent file

The record of `torrent_file.h`, `parse_torrent_file` and the `read_file` it begins with. A
pointer field is `none` while it is NULL; the strings are kept with the NUL byte the parser puts
after them. For the parser `none` is a dereferenced NULL pointer, a read outside the data, or a
loop that runs longer than its fuel. `perform_hash` is the parameter `sha1`.
-/

namespace BitTorrentBits

def BT_HASH_LENGTH : Nat := 20

structure TorrentFile where
  announce : Option (List UInt8)
  comment : Option (List UInt8)
  infoHash : Option (List UInt8)
  pieceLength : Nat
  numPieces : Nat
  pieceHashes : Option (List (List UInt8))
  length : Nat
  name : Option (List UInt8)
  deriving DecidableEq

def initTorrentFile : TorrentFile where
  announce := none
  comment := none
  infoHash := none
  pieceLength := 0
  numPieces := 0
  pieceHashes := none
  length := 0
  name := none

/-- What comes of opening a file and of reading as many bytes of it as `ftell` says. -/
inductive FileRead where
  | notOpened
  | opened (length : Nat) (hlength : length ≤ LONG_MAX) (bytes : List UInt8)

/-- `read_file`; `none` is NULL. -/
def readFile : FileRead → Option (List UInt8)
  | .notOpened => none
  | .opened length _ bytes => if bytes.length ≠ length then none else some bytes

theorem readFile_length {file : FileRead} {data : List UInt8} (h : readFile file = some data) :
    data.length ≤ LONG_MAX := by
  cases file with
  | notOpened => contradiction
  | opened length hlength bytes =>
    simp only [readFile, ne_eq, ite_not, Option.ite_none_right_eq_some, Option.some.injEq] at h
    obtain ⟨hlen, rfl⟩ := h
    omega

/-- The variables of the parsing loop; the pointers into the data are offsets. -/
structure ParseState where
  tk : Tokenizer
  tr : TorrentFile
  infoStart : Option Nat
  infoStartStackValue : Int
  infoEnd : Option Nat

/-- How a turn of the loop ends: with the next one, or with the result of the parser. -/
inductive Turn where
  | again (st : ParseState)
  | stop (ok : Bool) (tr : TorrentFile)

namespace ParseState

/-- `err = next(tk)`, and on with `k` if it is `TOKENIZER_OK`. -/
def nextOk (st : ParseState) (k : ParseState → Option Turn) : Option Turn := do
  let (err, tk) ← st.tk.next
  if err ≠ .TOKENIZER_OK then some (.stop false st.tr) else k { st with tk := tk }

/-- `memcmp(tk->token, text, tk->token_size) == 0`, which reads as many bytes of `text`. -/
def tokenMatches (st : ParseState) (text : List UInt8) : Option Bool := do
  let bytes ← readAt (text ++ [0]) 0 st.tk.token.length
  some (decide (st.tk.token = bytes))

def expect (st : ParseState) (mark : List UInt8) (k : ParseState → Option Turn) : Option Turn :=
  st.nextOk fun st => do
    if (← st.tokenMatches mark) then k st else some (.stop false st.tr)

/-- A branch that records the token after `mark`. -/
def parseValue (st : ParseState) (mark : List UInt8)
    (record : List UInt8 → TorrentFile → Option TorrentFile) : Option Turn :=
  st.expect mark fun st => st.nextOk fun st => do
    let tr ← record st.tk.token st.tr
    some (.again { st with tr := tr })

def parseAnnounce (st : ParseState) : Option Turn :=
  st.parseValue (ascii "s") fun token tr => some { tr with announce := some (token ++ [0]) }

def parseComment (st : ParseState) : Option Turn :=
  st.parseValue (ascii "s") fun token tr => some { tr with comment := some (token ++ [0]) }

def parseName (st : ParseState) : Option Turn :=
  st.parseValue (ascii "s") fun token tr => some { tr with name := some (token ++ [0]) }

def parseLength (st : ParseState) : Option Turn :=
  st.parseValue (ascii "i") fun token tr => do
    let (num, _) ← strtol (token ++ [0])
    some { tr with length := toULong num }

def parsePieceLength (st : ParseState) : Option Turn :=
  st.parseValue (ascii "i") fun token tr => do
    let (num, _) ← strtol (token ++ [0])
    some { tr with pieceLength := toULong num }

/-- The whole blocks of `BT_HASH_LENGTH` bytes a string begins with. -/
def hashBlocks (token : List UInt8) : List (List UInt8) :=
  (List.range (token.length / BT_HASH_LENGTH)).map fun i =>
    (token.drop (BT_HASH_LENGTH * i)).take BT_HASH_LENGTH

def parsePieces (st : ParseState) : Option Turn :=
  st.parseValue (ascii "s") fun token tr =>
    some { tr with
      numPieces := token.length / BT_HASH_LENGTH
      pieceHashes := some (hashBlocks token) }

def parseInfo (st : ParseState) : Option Turn :=
  expect { st with
      infoStart := some st.tk.current
      infoStartStackValue := st.tk.listDictStack }
    (ascii "d") fun st => some (.again st)

/-- The token is the `e` that brings the depth back to what it was at the key `info`. -/
def atInfoEnd (st : ParseState) : Bool :=
  st.infoStart.isSome && st.infoEnd.isNone &&
    decide (st.infoStartStackValue = st.tk.listDictStack) && decide (st.tk.token = ascii "e")

def parseInfoEnd (sha1 : List UInt8 → List UInt8) (st : ParseState) : Option Turn := do
  let start ← st.infoStart
  let stop := st.tk.current - 1
  nextOk { st with infoEnd := some stop } fun st => do
    let info ← readAt st.tk.data start (toULong ((stop : Int) - start + 1))
    some (.again { st with tr := { st.tr with infoHash := some (sha1 info) } })

/-- The branches on the token of a successful call of `next`. -/
def parseToken (sha1 : List UInt8 → List UInt8) (st : ParseState) : Option Turn :=
  if st.tk.token = ascii "announce" then st.parseAnnounce
  else if st.tk.token = ascii "comment" then st.parseComment
  else if st.tk.token = ascii "info" then st.parseInfo
  else if st.atInfoEnd then st.parseInfoEnd sha1
  else if st.tk.token = ascii "name" then st.parseName
  else if st.tk.token = ascii "length" then st.parseLength
  else if st.tk.token = ascii "piece length" then st.parsePieceLength
  else if st.tk.token = ascii "pieces" then st.parsePieces
  else some (.again st)

def parseLoop (sha1 : List UInt8 → List UInt8) : Nat → ParseState → Option (Bool × TorrentFile)
  | 0, _ => none
  | fuel + 1, st => do
    let (err, tk) ← st.tk.next
    match err with
    | .TOKENIZER_END => some (true, st.tr)
    | .TOKENIZER_MALFORMED_STRING => some (false, st.tr)
    | .TOKENIZER_OK =>
      match ← parseToken sha1 { st with tk := tk } with
      | .stop ok tr => some (ok, tr)
      | .again st => parseLoop sha1 fuel st

end ParseState

/-- What the parser returns and leaves in `tr`. `buf` is the content of the file, `none`
where `read_file` fails; no byte of it makes more than two tokens. -/
def parseTorrentFile (sha1 : List UInt8 → List UInt8) (tr : TorrentFile)
    (buf : Option (List UInt8)) : Option (Bool × TorrentFile) := do
  let data ← buf
  ParseState.parseLoop sha1 (2 * data.length + 2) {
    tk := Tokenizer.initTokenizer data
    tr := tr
    infoStart := none
    infoStartStackValue := 0
    infoEnd := none }

end BitTorrentBits
