import BitTorrentBits.Bencode.Grammar
import BitTorrentBits.Foundation.Memory

/-!
# The tokenizer

`tokenizer.c`. The status function a tokenizer points to is a value of `Status`; every call
of `next` runs it. `none` is a read outside the data, or a copy of a negative length.
-/

namespace BitTorrentBits

open Bencode

def LONG_MAX : Nat := 2 ^ 63 - 1

def plus : UInt8 := '+'.toUInt8

/-- The sign at the start of a number, and its length. -/
def strtolSign : List UInt8 → Int × Nat
  | b :: _ => if b = minus then (-1, 1) else if b = plus then (1, 1) else (1, 0)
  | [] => (1, 0)

/-- `strtol` in base ten on the bytes from a pointer on: the number, clamped to `long`, and
how many bytes it takes. The digits end at a byte that is none; a scan that finds no such
byte leaves the memory. -/
def strtol (s : List UInt8) : Option (Int × Nat) :=
  let blanks := s.takeWhile isSpace
  let (sign, signLen) := strtolSign (s.drop blanks.length)
  let body := s.drop (blanks.length + signLen)
  let digits := body.takeWhile isDigit
  if digits.length = body.length then none
  else if digits = [] then some (0, 0)
  else some (max (-2 ^ 63) (min (sign * decimalValue digits) LONG_MAX),
    blanks.length + signLen + digits.length)

inductive Code where
  | TOKENIZER_OK
  | TOKENIZER_END
  | TOKENIZER_MALFORMED_STRING
  deriving DecidableEq

/-- The functions `_status_fn` points to. -/
inductive Status where
  | tokenizeStart
  | tokenizeEnd
  | tokenizeError
  | tokenizeIntStart
  | tokenizeIntParse
  | tokenizeIntEnd
  | tokenizeStrStart
  | tokenizeStrParse
  | tokenizeListDictStart
  | tokenizeListDictEnd
  deriving DecidableEq

/-- `current` is an offset into `data`; a NULL token is empty. -/
structure Tokenizer where
  data : List UInt8
  current : Nat
  token : List UInt8
  statusFn : Status
  strlen : Int
  listDictStack : Int
  deriving DecidableEq

namespace Tokenizer

def initTokenizer (data : List UInt8) : Tokenizer where
  data := data
  current := 0
  token := []
  statusFn := .tokenizeStart
  strlen := 0
  listDictStack := 0

def rest (t : Tokenizer) : List UInt8 := t.data.drop t.current

def tokenizeEnd (t : Tokenizer) : Option (Code × Tokenizer) :=
  some (.TOKENIZER_END, { t with token := [] })

def tokenizeError (t : Tokenizer) : Option (Code × Tokenizer) :=
  some (.TOKENIZER_MALFORMED_STRING, { t with token := [] })

/-- Set the status to `tokenize_error` and run it. -/
def malformed (t : Tokenizer) : Option (Code × Tokenizer) :=
  tokenizeError { t with statusFn := .tokenizeError }

def tokenizeIntStart (t : Tokenizer) : Option (Code × Tokenizer) := do
  let b ← t.data[t.current]?
  if b = intMark then
    some (.TOKENIZER_OK,
      { t with token := [b], current := t.current + 1, statusFn := .tokenizeIntParse })
  else t.malformed

/-- A digit or a minus sign, and the digits after it. -/
def intBody : List UInt8 → List UInt8
  | b :: bs => if isDigit b ∨ b = minus then b :: bs.takeWhile isDigit else []
  | [] => []

/-- The scan reads the byte after the digits. -/
def tokenizeIntParse (t : Tokenizer) : Option (Code × Tokenizer) :=
  let body := intBody t.rest
  if body.length < t.rest.length then
    some (.TOKENIZER_OK,
      { t with token := body, current := t.current + body.length, statusFn := .tokenizeIntEnd })
  else none

def tokenizeIntEnd (t : Tokenizer) : Option (Code × Tokenizer) := do
  let b ← t.data[t.current]?
  if b = endMark then
    some (.TOKENIZER_OK,
      { t with token := [b], current := t.current + 1, statusFn := .tokenizeStart })
  else t.malformed

def tokenizeStrStart (t : Tokenizer) : Option (Code × Tokenizer) := do
  let (strlen, n) ← strtol t.rest
  let t' : Tokenizer := { t with strlen := strlen, current := t.current + n }
  let b ← t'.data[t'.current]?
  if b ≠ colon then t'.malformed
  else
    some (.TOKENIZER_OK,
      { t' with token := [strMark], current := t'.current + 1, statusFn := .tokenizeStrParse })

def tokenizeStrParse (t : Tokenizer) : Option (Code × Tokenizer) := do
  if t.strlen < 0 then none
  else
    let token ← readAt t.data t.current t.strlen.toNat
    some (.TOKENIZER_OK,
      { t with token := token, current := t.current + t.strlen.toNat, statusFn := .tokenizeStart })

def tokenizeListDictStart (t : Tokenizer) : Option (Code × Tokenizer) := do
  let b ← t.data[t.current]?
  if b = listMark ∨ b = dictMark then
    some (.TOKENIZER_OK,
      { t with
        token := [b]
        current := t.current + 1
        listDictStack := t.listDictStack + 1
        statusFn := .tokenizeStart })
  else t.malformed

/-- The status set for a negative depth is overwritten when the byte is an `e`. -/
def tokenizeListDictEnd (t : Tokenizer) : Option (Code × Tokenizer) := do
  let t' : Tokenizer := if t.listDictStack < 0 then { t with statusFn := .tokenizeError } else t
  let b ← t'.data[t'.current]?
  if b = endMark then
    some (.TOKENIZER_OK,
      { t' with
        token := [b]
        current := t'.current + 1
        listDictStack := t'.listDictStack - 1
        statusFn := .tokenizeStart })
  else t'.malformed

/-- The dispatch of `tokenize_start` on the bytes from the cursor on; white space moves the
cursor and runs it again. -/
def dispatch : List UInt8 → Tokenizer → Option (Code × Tokenizer)
  | [], t =>
    if t.current = t.data.length then
      if t.listDictStack > 0 then t.malformed
      else tokenizeEnd { t with statusFn := .tokenizeEnd }
    else none
  | b :: bs, t =>
    if b = intMark then tokenizeIntStart { t with statusFn := .tokenizeIntStart }
    else if isDigit b then tokenizeStrStart { t with statusFn := .tokenizeStrStart }
    else if b = listMark ∨ b = dictMark then
      tokenizeListDictStart { t with statusFn := .tokenizeListDictStart }
    else if b = endMark then tokenizeListDictEnd { t with statusFn := .tokenizeListDictEnd }
    else if isSpace b then dispatch bs { t with current := t.current + 1 }
    else t.malformed

def tokenizeStart (t : Tokenizer) : Option (Code × Tokenizer) := dispatch t.rest t

def next (t : Tokenizer) : Option (Code × Tokenizer) :=
  match t.statusFn with
  | .tokenizeStart => t.tokenizeStart
  | .tokenizeEnd => t.tokenizeEnd
  | .tokenizeError => t.tokenizeError
  | .tokenizeIntStart => t.tokenizeIntStart
  | .tokenizeIntParse => t.tokenizeIntParse
  | .tokenizeIntEnd => t.tokenizeIntEnd
  | .tokenizeStrStart => t.tokenizeStrStart
  | .tokenizeStrParse => t.tokenizeStrParse
  | .tokenizeListDictStart => t.tokenizeListDictStart
  | .tokenizeListDictEnd => t.tokenizeListDictEnd

/-- The result of the call of `next` that follows `k` others. -/
def nextAfter : Nat → Tokenizer → Option (Code × Tokenizer)
  | 0, t => t.next
  | k + 1, t => do
    let (_, u) ← t.next
    nextAfter k u

end Tokenizer

end BitTorrentBits
