import BitTorrentBits.Bencode.Spaced
import BitTorrentBits.Torrent.FlatReading

/-!
# A reader of torrent files

The flat reading one lexeme at a time: what is found at each spaced lexeme, and what the reader
needs next. Unlike a flat reading it may stop anywhere, so it tells what was found before the
end of a text that is cut short.
-/

namespace BitTorrentBits

open Bencode

/-- The value after the name of a key, or the bytes of the info dictionary. -/
inductive Found where
  | str (key : StrKey) (s : List UInt8)
  | int (key : IntKey) (negative : Bool) (digits : List UInt8)
  | info (bytes : List UInt8)

def Found.taken : Found → Taken
  | .str key s => .str key s
  | .int key negative digits => .int key (signedValue negative digits)
  | .info bytes => .info bytes

namespace Found

def storeAll (sha1 : List UInt8 → List UInt8) (found : List Found) (tr : TorrentFile) :
    TorrentFile :=
  Taken.storeAll sha1 (found.map taken) tr

variable (sha1 : List UInt8 → List UInt8) (found found' : List Found) (tr : TorrentFile)

theorem storeAll_append :
    storeAll sha1 (found ++ found') tr = storeAll sha1 found' (storeAll sha1 found tr) := by
  simp [storeAll, Taken.storeAll]

end Found

/-- What a reader needs next: any lexeme, a value of this key, or any lexeme after the info
dictionary. -/
inductive Awaits where
  | lexeme
  | value (key : Key)
  | more (info : List UInt8)

namespace InfoRead

/-- What follows is taken for the info dictionary, unless one has been closed. -/
def start (depth : Int) : InfoRead → InfoRead
  | .closed => .closed
  | _ => .inside depth []

theorem start_read (info : InfoRead) (depth : Int) :
    (info.start depth).read [dictMark] = info.enter depth := by
  cases info <;> rfl

end InfoRead

structure Reader where
  info : InfoRead
  depth : Int
  awaits : Awaits

namespace Reader

def init : Reader := ⟨.unseen, 0, .lexeme⟩

def afterLexeme (info : InfoRead) (depth : Int) (l : Lexeme) : Reader :=
  match l with
  | .str _ payload =>
    ⟨info.read l.bytes, depth, (Key.named payload).elim .lexeme .value⟩
  | .closer =>
    match info.closing (depth - 1) with
    | some bytes => ⟨.closed, depth - 1, .more bytes⟩
    | none => ⟨info.read l.bytes, depth - 1, .lexeme⟩
  | .int _ _ | .opener _ => ⟨info.read l.bytes, depth + l.depth, .lexeme⟩

/-- At the value of a key; `none` where it is not of the key's kind. -/
def readValue (r : Reader) (p : Spaced) (key : Key) : List Found × Option Reader :=
  match key, p.lexeme with
  | .str key, .str _ s => ([.str key s], some ⟨r.info.read p.bytes, r.depth, .lexeme⟩)
  | .int key, .int negative digits =>
    ([.int key negative digits], some ⟨r.info.read p.bytes, r.depth, .lexeme⟩)
  | .info, .opener true =>
    ([], some ⟨(r.info.start r.depth).read p.bytes, r.depth + 1, .lexeme⟩)
  | _, _ => ([], none)

theorem readValue_of_mark_ne {r : Reader} {p : Spaced} {key : Key}
    (h : p.lexeme.mark ≠ key.mark) : r.readValue p key = ([], none) := by
  unfold readValue
  split
  case h_4 => rfl
  all_goals
    rename_i hl
    exact (h (by rw [hl]; rfl)).elim

def read (r : Reader) (p : Spaced) : List Found × Option Reader :=
  match r.awaits with
  | .lexeme => ([], some (afterLexeme (r.info.read p.blanks) r.depth p.lexeme))
  | .value key => r.readValue p key
  | .more bytes =>
    ([.info bytes], some (afterLexeme (r.info.read p.blanks) r.depth p.lexeme))

/-- What is found in these lexemes, and the reader after them if it reads them all. -/
def readAll : Reader → List Spaced → List Found × Option Reader
  | r, [] => ([], some r)
  | r, p :: ps =>
    match r.read p with
    | (found, none) => (found, none)
    | (found, some r) => (found ++ (readAll r ps).1, (readAll r ps).2)

variable {r r' : Reader} {p : Spaced} {ps : List Spaced} {found : List Found}

theorem afterLexeme_depth (info : InfoRead) (depth : Int) (l : Lexeme) :
    (afterLexeme info depth l).depth = depth + l.depth := by
  cases l with
  | int _ _ | opener _ => rfl
  | str _ _ => simp [afterLexeme, Lexeme.depth]
  | closer => cases hclosing : info.closing (depth - 1) <;> simp [afterLexeme, hclosing] <;> rfl

theorem readValue_depth {key : Key} (h : r.readValue p key = (found, some r')) :
    r'.depth = r.depth + p.lexeme.depth := by
  unfold readValue at h
  split at h <;> rename_i hl <;> cases h <;> simp [hl, Lexeme.depth]

theorem read_depth (h : r.read p = (found, some r')) :
    r'.depth = r.depth + p.lexeme.depth := by
  unfold read at h
  split at h
  · cases h
    exact afterLexeme_depth _ _ _
  · exact readValue_depth h
  · cases h
    exact afterLexeme_depth _ _ _

theorem readAll_cons {r' : Reader} {found' : List Found} {out : Option Reader}
    (h : r.readAll (p :: ps) = (found, out)) (hread : r.read p = (found', some r')) :
    ∃ found'', found = found' ++ found'' ∧ r'.readAll ps = (found'', out) := by
  simp only [readAll, hread] at h
  cases h
  exact ⟨_, rfl, rfl⟩

theorem readAll_depth (h : r.readAll ps = (found, some r')) :
    r'.depth = r.depth + height (ps.map Spaced.lexeme) := by
  induction ps generalizing r found with
  | nil =>
    cases h
    simp
  | cons p ps ih =>
    rcases hread : r.read p with ⟨found', _ | r''⟩
    · simp only [readAll, hread] at h
      cases h
    · obtain ⟨found'', -, hrest⟩ := readAll_cons h hread
      rw [ih hrest, read_depth hread, List.map_cons, height_cons, Int.add_assoc]

end Reader

end BitTorrentBits
