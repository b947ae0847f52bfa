import BitTorrentBits.Bencode.Balance
import BitTorrentBits.Torrent.ParseTorrentFile

/-!
# Flat readings

What is taken from the lexemes of a torrent file by a reader that has no notion of keys and
values: a string that equals the name of a key is taken for it wherever it stands, unless
it is itself taken for a value. The info dictionary is the first one taken to be closed.
-/

namespace BitTorrentBits

open Bencode

inductive StrKey where
  | announce
  | comment
  | name
  | pieces
  deriving DecidableEq

/-- The keys with an integer for a value. -/
inductive IntKey where
  | length
  | pieceLength
  deriving DecidableEq

inductive Key where
  | str (key : StrKey)
  | int (key : IntKey)
  | info
  deriving DecidableEq

namespace Key

def text : Key → List UInt8
  | .str .announce => ascii "announce"
  | .str .comment => ascii "comment"
  | .str .name => ascii "name"
  | .str .pieces => ascii "pieces"
  | .int .length => ascii "length"
  | .int .pieceLength => ascii "piece length"
  | .info => ascii "info"

def all : List Key :=
  [.str .announce, .str .comment, .str .name, .str .pieces, .int .length, .int .pieceLength, .info]

def mark : Key → UInt8
  | .str _ => strMark
  | .int _ => intMark
  | .info => dictMark

def named (text : List UInt8) : Option Key := all.find? fun key => key.text = text

@[simp] theorem named_text (key : Key) : named key.text = some key := by
  rcases key with (_ | _ | _ | _) | (_ | _) | _ <;> decide

theorem text_of_named {text : List UInt8} {key : Key} (h : named text = some key) :
    text = key.text := by
  have htext := List.find?_some h
  exact (of_decide_eq_true htext).symm

theorem named_byte (b : UInt8) : named [b] = none := by
  cases hkey : named [b] with
  | none => rfl
  | some key =>
    have hlen : key.text.length = 1 := (congrArg List.length (text_of_named hkey)).symm
    rcases key with (_ | _ | _ | _) | (_ | _) | _ <;> exact absurd hlen (by decide)

theorem ne_text_of_named {text : List UInt8} (h : named text = none) (key : Key) :
    text ≠ key.text := by
  rintro rfl
  rw [named_text] at h
  contradiction

end Key

theorem Key.lexeme_of_mark {key : Key} {l : Lexeme} (h : l.mark = key.mark) :
    match key with
    | .str _ => ∃ digits s, l = .str digits s
    | .int _ => ∃ negative digits, l = .int negative digits
    | .info => l = .opener true := by
  rcases key with _ | _ | _ <;> rcases l with _ | _ | (_ | _) | _ <;>
    first
    | exact ⟨_, _, rfl⟩
    | rfl
    | simp +decide [Lexeme.mark, Key.mark] at h

/-- A value taken for the value of a key, or the bytes of the info dictionary. -/
inductive Taken where
  | str (key : StrKey) (s : List UInt8)
  | int (key : IntKey) (n : Int)
  | info (bytes : List UInt8)

/-- A number as `strtoll` reads it and a `size_t` stores it. -/
def storedNumber (n : Int) : Nat := toULong (max (-2 ^ 63) (min n LONG_MAX))

namespace Taken

variable (sha1 : List UInt8 → List UInt8)

def store : Taken → TorrentFile → TorrentFile
  | .str .announce s, tr => { tr with announce := some (s ++ [0]) }
  | .str .comment s, tr => { tr with comment := some (s ++ [0]) }
  | .str .name s, tr => { tr with name := some (s ++ [0]) }
  | .str .pieces s, tr =>
    { tr with
      numPieces := s.length / BT_HASH_LENGTH
      pieceHashes := some (ParseState.hashBlocks s) }
  | .int .length n, tr => { tr with length := storedNumber n }
  | .int .pieceLength n, tr => { tr with pieceLength := storedNumber n }
  | .info bytes, tr => { tr with infoHash := some (sha1 bytes) }

def storeAll (ts : List Taken) (tr : TorrentFile) : TorrentFile :=
  ts.foldl (fun tr t => t.store sha1 tr) tr

end Taken

/-- How far the info dictionary has been read: the depth it lies at and its bytes so far. -/
inductive InfoRead where
  | unseen
  | inside (depth : Int) (bytes : List UInt8)
  | closed

namespace InfoRead

def read (bytes : List UInt8) : InfoRead → InfoRead
  | .inside depth seen => .inside depth (seen ++ bytes)
  | info => info

@[simp] theorem read_unseen (bytes : List UInt8) : unseen.read bytes = unseen := rfl

@[simp] theorem read_closed (bytes : List UInt8) : closed.read bytes = closed := rfl

@[simp] theorem read_inside (depth : Int) (seen bytes : List UInt8) :
    (inside depth seen).read bytes = inside depth (seen ++ bytes) := rfl

theorem read_read (info : InfoRead) (bytes bytes' : List UInt8) :
    (info.read bytes).read bytes' = info.read (bytes ++ bytes') := by
  cases info <;> simp

/-- A dictionary taken for the info dictionary begins. -/
def enter (depth : Int) : InfoRead → InfoRead
  | .closed => .closed
  | _ => .inside depth [dictMark]

/-- The bytes of the info dictionary, if a closer that leads back to this depth closes it. -/
def closing (depth : Int) : InfoRead → Option (List UInt8)
  | .inside d seen => if d = depth then some (seen ++ [endMark]) else none
  | _ => none

theorem closing_eq_some {info : InfoRead} {depth : Int} {bytes : List UInt8}
    (h : info.closing depth = some bytes) :
    ∃ seen, info = .inside depth seen ∧ bytes = seen ++ [endMark] := by
  cases info with
  | unseen => contradiction
  | closed => contradiction
  | inside d seen =>
    simp only [closing, Option.ite_none_right_eq_some, Option.some.injEq] at h
    obtain ⟨rfl, rfl⟩ := h
    exact ⟨seen, rfl, rfl⟩

end InfoRead

def signedValue (negative : Bool) (digits : List UInt8) : Int :=
  if negative then -decimalValue digits else decimalValue digits

/-- What is taken from these lexemes in order; `none` where a key is not followed by a value
of its kind, or nothing follows the info dictionary. -/
def flatReading (info : InfoRead) (depth : Int) : List Lexeme → Option (List Taken)
  | [] => some []
  | .int negative digits :: ls =>
    flatReading (info.read (Lexeme.int negative digits).bytes) depth ls
  | .opener dict :: ls => flatReading (info.read (Lexeme.opener dict).bytes) (depth + 1) ls
  | .closer :: ls =>
    match info.closing (depth - 1) with
    | none => flatReading (info.read Lexeme.closer.bytes) (depth - 1) ls
    | some bytes =>
      if ls = [] then none else (flatReading .closed (depth - 1) ls).map (.info bytes :: ·)
  | .str digits payload :: ls =>
    match Key.named payload with
    | none => flatReading (info.read (Lexeme.str digits payload).bytes) depth ls
    | some key =>
      match key, ls with
      | .str key, .str digits' s :: ls =>
        (flatReading ((info.read (Lexeme.str digits payload).bytes).read
          (Lexeme.str digits' s).bytes) depth ls).map (.str key s :: ·)
      | .int key, .int negative digits' :: ls =>
        (flatReading ((info.read (Lexeme.str digits payload).bytes).read
          (Lexeme.int negative digits').bytes) depth ls).map
            (.int key (signedValue negative digits') :: ·)
      | .info, .opener true :: ls =>
        flatReading ((info.read (Lexeme.str digits payload).bytes).enter depth) (depth + 1) ls
      | _, _ => none

section Equations

variable {info : InfoRead} {depth : Int} {ls : List Lexeme} {digits payload : List UInt8}

theorem flatReading_plain {l : Lexeme} (hclosing : info.closing (depth + l.depth) = none)
    (hkey : ∀ digits payload, l = .str digits payload → Key.named payload = none) :
    flatReading info depth (l :: ls) = flatReading (info.read l.bytes) (depth + l.depth) ls := by
  cases l with
  | int negative digits => rw [flatReading, Lexeme.depth, Int.add_zero]
  | opener dict => rw [flatReading, Lexeme.depth]
  | closer =>
    have hnone : info.closing (depth - 1) = none := hclosing
    simp only [flatReading, hnone]
    rfl
  | str digits payload =>
    simp only [flatReading, hkey digits payload rfl]
    rw [Lexeme.depth, Int.add_zero]

theorem flatReading_infoEnd {bytes : List UInt8} (hclosing : info.closing (depth - 1) = some bytes)
    (hne : ls ≠ []) :
    flatReading info depth (.closer :: ls) =
      (flatReading .closed (depth - 1) ls).map (.info bytes :: ·) := by
  simp only [flatReading, hclosing, if_neg hne]

theorem flatReading_strKey {key : StrKey} {digits' s : List UInt8} 
    (hkey : Key.named payload = some (.str key)) :
    flatReading info depth (.str digits payload :: .str digits' s :: ls) =
      (flatReading ((info.read (Lexeme.str digits payload).bytes).read
        (Lexeme.str digits' s).bytes) depth ls).map (.str key s :: ·) := by
  simp only [flatReading, hkey]

theorem flatReading_intKey {key : IntKey} {negative : Bool} {digits' : List UInt8} 
    (hkey : Key.named payload = some (.int key)) :
    flatReading info depth (.str digits payload :: .int negative digits' :: ls) =
      (flatReading ((info.read (Lexeme.str digits payload).bytes).read
        (Lexeme.int negative digits').bytes) depth ls).map
          (.int key (signedValue negative digits') :: ·) := by
  simp only [flatReading, hkey]

theorem flatReading_infoKey (hkey : Key.named payload = some .info) :
    flatReading info depth (.str digits payload :: .opener true :: ls) =
      flatReading ((info.read (Lexeme.str digits payload).bytes).enter depth) (depth + 1) ls := by
  simp only [flatReading, hkey]

theorem flatReading_stop {key : Key} (hkey : Key.named payload = some key)
    (hne : ∀ l ls', ls = l :: ls' → l.mark ≠ key.mark) :
    flatReading info depth (.str digits payload :: ls) = none := by
  simp only [flatReading, hkey]
  split
  · exact absurd rfl (hne _ _ rfl)
  · exact absurd rfl (hne _ _ rfl)
  · exact absurd rfl (hne _ _ rfl)
  · rfl

end Equations

end BitTorrentBits
