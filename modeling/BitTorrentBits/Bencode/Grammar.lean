import Mathlib

/-!
# Bencode

Bencode as a language of bytes: the lexemes, what a scanner that skips white space finds in
a text, the well-formed texts, and the values with their canonical encoding. A scanner
keeps the length of a string in a number of limited size; `limit` is its largest value.
-/

namespace BitTorrentBits.Bencode

def intMark : UInt8 := 'i'.toUInt8
def strMark : UInt8 := 's'.toUInt8
def listMark : UInt8 := 'l'.toUInt8
def dictMark : UInt8 := 'd'.toUInt8
def endMark : UInt8 := 'e'.toUInt8
def colon : UInt8 := ':'.toUInt8
def minus : UInt8 := '-'.toUInt8

def isDigit (b : UInt8) : Bool := decide (48 ≤ b.toNat ∧ b.toNat ≤ 57)

/-- Space, and tab to carriage return. -/
def isSpace (b : UInt8) : Bool := decide (b.toNat = 32 ∨ 9 ≤ b.toNat ∧ b.toNat ≤ 13)

def decimalValue (digits : List UInt8) : Nat :=
  Nat.ofDigitChars 10 (digits.map fun b => Char.ofNat b.toNat) 0

def decimal (n : Nat) : List UInt8 := (Nat.toDigits 10 n).map Char.toUInt8

inductive Lexeme where
  | int (negative : Bool) (digits : List UInt8)
  | str (digits payload : List UInt8)
  | opener (dict : Bool)
  | closer
  deriving DecidableEq

def signed (negative : Bool) (digits : List UInt8) : List UInt8 :=
  if negative then minus :: digits else digits

namespace Lexeme

def bytes : Lexeme → List UInt8
  | .int negative digits => intMark :: (signed negative digits ++ [endMark])
  | .str digits payload => digits ++ colon :: payload
  | .opener dict => [if dict then dictMark else listMark]
  | .closer => [endMark]

def tokens : Lexeme → List (List UInt8)
  | .int negative digits => [[intMark], signed negative digits, [endMark]]
  | .str _ payload => [[strMark], payload]
  | .opener dict => [[if dict then dictMark else listMark]]
  | .closer => [[endMark]]

def mark : Lexeme → UInt8
  | .int _ _ => intMark
  | .str _ _ => strMark
  | .opener dict => if dict then dictMark else listMark
  | .closer => endMark

/-- A lexeme as a scanner accepts it: an integer may lack digits, and the length of a
string saturates. -/
def Valid (limit : Nat) : Lexeme → Prop
  | .int _ digits => ∀ b ∈ digits, isDigit b
  | .str digits payload =>
    digits ≠ [] ∧ (∀ b ∈ digits, isDigit b) ∧ payload.length = min (decimalValue digits) limit
  | .opener _ | .closer => True

/-- An integer with a digit, a string of the length it is written with. -/
def Exact : Lexeme → Prop
  | .int _ digits => digits ≠ []
  | .str digits payload => payload.length = decimalValue digits
  | .opener _ | .closer => True

/-- What a lexeme adds to the number of open containers. -/
def depth : Lexeme → Int
  | .opener _ => 1
  | .closer => -1
  | .int _ _ | .str _ _ => 0

end Lexeme

/-- The text is made of these lexemes, with white space anywhere between them. -/
inductive Scans (limit : Nat) : List Lexeme → List UInt8 → Prop
  | nil : Scans limit [] []
  | space {b : UInt8} {ls : List Lexeme} {bs : List UInt8} (hb : isSpace b)
      (h : Scans limit ls bs) : Scans limit ls (b :: bs)
  | cons {l : Lexeme} {ls : List Lexeme} {bs : List UInt8} (hl : l.Valid limit)
      (h : Scans limit ls bs) : Scans limit (l :: ls) (l.bytes ++ bs)

/-- A text that ends inside an integer or a string that begins it. -/
inductive Cut (limit : Nat) : List UInt8 → Prop
  | int (negative : Bool) {digits : List UInt8} (hd : ∀ b ∈ digits, isDigit b) :
      Cut limit (intMark :: signed negative digits)
  | length {digits : List UInt8} (hne : digits ≠ []) (hd : ∀ b ∈ digits, isDigit b) :
      Cut limit digits
  | payload {digits payload : List UInt8} (hne : digits ≠ []) (hd : ∀ b ∈ digits, isDigit b)
      (hlen : payload.length < min (decimalValue digits) limit) :
      Cut limit (digits ++ colon :: payload)

/-- A text that ends inside an integer, or inside a string after its length; `mark` is the
token that it begins with. -/
inductive CutAfter (limit : Nat) : UInt8 → List UInt8 → Prop
  | int (negative : Bool) {digits : List UInt8} (hd : ∀ b ∈ digits, isDigit b) :
      CutAfter limit intMark (intMark :: signed negative digits)
  | payload {digits payload : List UInt8} (hne : digits ≠ []) (hd : ∀ b ∈ digits, isDigit b)
      (hlen : payload.length < min (decimalValue digits) limit) :
      CutAfter limit strMark (digits ++ colon :: payload)

/-- A text that begins with no lexeme: a byte out of place, at its start, in an integer or
after the length of a string. -/
inductive Stray : List UInt8 → Prop
  | start {b : UInt8} {bs : List UInt8} (hspace : ¬ isSpace b) (hdigit : ¬ isDigit b)
      (hmark : b ∉ [intMark, listMark, dictMark, endMark]) : Stray (b :: bs)
  | int (negative : Bool) {digits : List UInt8} {b : UInt8} {bs : List UInt8}
      (hd : ∀ d ∈ digits, isDigit d) (hdigit : ¬ isDigit b)
      (hminus : signed negative digits = [] → b ≠ minus) (hend : b ≠ endMark) :
      Stray (intMark :: (signed negative digits ++ b :: bs))
  | length {digits : List UInt8} {b : UInt8} {bs : List UInt8} (hne : digits ≠ [])
      (hd : ∀ d ∈ digits, isDigit d) (hdigit : ¬ isDigit b) (hcolon : b ≠ colon) :
      Stray (digits ++ b :: bs)

/-- A concatenation of well-formed values with white space between them. -/
inductive WellFormed : List UInt8 → Prop
  | nil : WellFormed []
  | space {b : UInt8} {bs : List UInt8} (hb : isSpace b) (h : WellFormed bs) :
      WellFormed (b :: bs)
  | int (negative : Bool) {digits bs : List UInt8} (hne : digits ≠ [])
      (hd : ∀ b ∈ digits, isDigit b) (h : WellFormed bs) :
      WellFormed (intMark :: (signed negative digits ++ endMark :: bs))
  | str {digits payload bs : List UInt8} (hne : digits ≠ []) (hd : ∀ b ∈ digits, isDigit b)
      (hlen : payload.length = decimalValue digits) (h : WellFormed bs) :
      WellFormed (digits ++ colon :: (payload ++ bs))
  | container (dict : Bool) {elements bs : List UInt8} (he : WellFormed elements)
      (h : WellFormed bs) :
      WellFormed ((if dict then dictMark else listMark) :: (elements ++ endMark :: bs))

inductive Value where
  | int (n : Int)
  | str (s : List UInt8)
  | list (values : List Value)
  | dict (entries : List (List UInt8 × Value))

def strLexeme (s : List UInt8) : Lexeme := .str (decimal s.length) s

mutual

def Value.lexemes : Value → List Lexeme
  | .int n => [.int (decide (n < 0)) (decimal n.natAbs)]
  | .str s => [strLexeme s]
  | .list values => .opener false :: (lexemesList values ++ [.closer])
  | .dict entries => .opener true :: (lexemesEntries entries ++ [.closer])

def lexemesList : List Value → List Lexeme
  | [] => []
  | value :: values => value.lexemes ++ lexemesList values

def lexemesEntries : List (List UInt8 × Value) → List Lexeme
  | [] => []
  | (key, value) :: entries => strLexeme key :: (value.lexemes ++ lexemesEntries entries)

end

def Value.encode (v : Value) : List UInt8 := v.lexemes.flatMap Lexeme.bytes

def Value.tokens (v : Value) : List (List UInt8) := v.lexemes.flatMap Lexeme.tokens

/-- Every string of the value, keys included, is at most `limit` bytes long. -/
def Value.StringsWithin (limit : Nat) (v : Value) : Prop :=
  ∀ digits payload, Lexeme.str digits payload ∈ v.lexemes → payload.length ≤ limit

end BitTorrentBits.Bencode
