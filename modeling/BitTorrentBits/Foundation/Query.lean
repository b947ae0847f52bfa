import Mathlib

/-!
# Query strings

A URL as it is read by the side that gets it: what stands before the question mark, and the
parameters after it. A byte of a value may be written as a percent sign and two digits.
-/

namespace BitTorrentBits.Query

def questionMark : UInt8 := '?'.toUInt8
def ampersand : UInt8 := '&'.toUInt8
def equals : UInt8 := '='.toUInt8
def percent : UInt8 := '%'.toUInt8

abbrev Param := List UInt8 × List UInt8

def readParam (text : List UInt8) : Param :=
  (text.takeWhile (· ≠ equals), (text.dropWhile (· ≠ equals)).tail)

/-- Between two separators there may be nothing. -/
def readParams (query : List UInt8) : List Param :=
  ((query.splitOn ampersand).filter (· ≠ [])).map readParam

def readUrl (url : List UInt8) : List UInt8 × List Param :=
  (url.takeWhile (· ≠ questionMark), readParams (url.dropWhile (· ≠ questionMark)).tail)

/-- The parameters as they are written, a separator before each. -/
def writeParams (params : List Param) : List UInt8 :=
  params.flatMap fun p => ampersand :: (p.1 ++ equals :: p.2)

/-- Letters, digits and the four signs that stand for themselves. -/
def isUnreserved (b : UInt8) : Bool :=
  decide (48 ≤ b.toNat ∧ b.toNat ≤ 57 ∨ 65 ≤ b.toNat ∧ b.toNat ≤ 90 ∨
    97 ≤ b.toNat ∧ b.toNat ≤ 122 ∨ b.toNat = 45 ∨ b.toNat = 46 ∨ b.toNat = 95 ∨ b.toNat = 126)

/-- The value of a hexadecimal digit of either case. -/
def hexValue (b : UInt8) : Option Nat :=
  if 48 ≤ b.toNat ∧ b.toNat ≤ 57 then some (b.toNat - 48)
  else if 65 ≤ b.toNat ∧ b.toNat ≤ 70 then some (b.toNat - 55)
  else if 97 ≤ b.toNat ∧ b.toNat ≤ 102 then some (b.toNat - 87)
  else none

def hexDigit (n : Nat) : UInt8 := if n < 10 then .ofNat (48 + n) else .ofNat (55 + n)

def escape (bytes : List UInt8) : List UInt8 :=
  bytes.flatMap fun b => if isUnreserved b then [b]
    else [percent, hexDigit (b.toNat / 16), hexDigit (b.toNat % 16)]

inductive Escapes : List UInt8 → List UInt8 → Prop
  | nil : Escapes [] []
  | plain {b : UInt8} {bytes text : List UInt8} (hb : isUnreserved b = true)
      (hrest : Escapes bytes text) : Escapes (b :: bytes) (b :: text)
  | hex {b high low : UInt8} {h l : Nat} {bytes text : List UInt8} (hhigh : hexValue high = some h)
      (hlow : hexValue low = some l) (hb : b.toNat = 16 * h + l) (hrest : Escapes bytes text) :
      Escapes (b :: bytes) (percent :: high :: low :: text)

def unescape : List UInt8 → Option (List UInt8)
  | b :: high :: low :: text =>
    if b = percent then do
      let h ← hexValue high
      let l ← hexValue low
      return UInt8.ofNat (16 * h + l) :: (← unescape text)
    else do return b :: (← unescape (high :: low :: text))
  | text => if percent ∈ text then none else some text

variable {b : UInt8} {bytes text front rest : List UInt8}

theorem unescape_cons (hb : b ≠ percent) : unescape (b :: text) = (unescape text).map (b :: ·) := by
  match text with
  | [] => simp [unescape, Ne.symm hb]
  | [c] =>
    by_cases hc : percent = c <;> simp [unescape, Ne.symm hb, hc]
  | high :: low :: text =>
    rw [unescape, if_neg hb]
    cases unescape (high :: low :: text) <;> rfl

theorem hexValue_hexDigit {n : Nat} (h : n < 16) : hexValue (hexDigit n) = some n := by
  interval_cases n <;> rfl

theorem escapes_escape (bytes : List UInt8) : Escapes bytes (escape bytes) := by
  induction bytes with
  | nil => exact .nil
  | cons b bytes ih =>
    rw [escape, List.flatMap_cons]
    split_ifs with hb
    · exact .plain hb ih
    · have hlt := b.toNat_lt
      exact .hex (hexValue_hexDigit (by omega)) (hexValue_hexDigit (by omega)) (by omega) ih

theorem Escapes.unescape_eq (h : Escapes bytes text) : unescape text = some bytes := by
  induction h with
  | nil => simp [unescape]
  | @plain b _ _ hb _ ih =>
    have hne : b ≠ percent := by
      rintro rfl
      cases hb
    rw [unescape_cons hne, ih]
    rfl
  | @hex b high low h l bytes text hhigh hlow hb _ ih =>
    have hvalue : UInt8.ofNat (16 * h + l) = b := by rw [← hb, UInt8.ofNat_toNat]
    rw [unescape, if_pos rfl, hhigh, hlow, ih]
    simp only [Option.bind_eq_bind, Option.bind_some, Option.pure_def, hvalue]

theorem Escapes.not_mem (h : Escapes bytes text) (hb : isUnreserved b = false) (hne : b ≠ percent)
    (hhex : hexValue b = none) : b ∉ text := by
  induction h with
  | nil => exact List.not_mem_nil
  | plain hc _ ih =>
    rw [List.mem_cons, not_or]
    refine ⟨?_, ih⟩
    rintro rfl
    rw [hb] at hc
    cases hc
  | hex hhigh hlow _ _ ih =>
    simp only [List.mem_cons, not_or]
    refine ⟨hne, ?_, ?_, ih⟩
    · rintro rfl
      rw [hhex] at hhigh
      cases hhigh
    · rintro rfl
      rw [hhex] at hlow
      cases hlow

theorem takeWhile_dropWhile_mark (rest : List UInt8) (h : b ∉ front) :
    (front ++ b :: rest).takeWhile (· ≠ b) = front ∧
      (front ++ b :: rest).dropWhile (· ≠ b) = b :: rest := by
  have hall : ∀ c ∈ front, decide (c ≠ b) = true := fun c hc => by
    rw [decide_eq_true_eq]
    rintro rfl
    exact h hc
  rw [List.takeWhile_append_of_pos hall, List.dropWhile_append_of_pos hall]
  simp

theorem readParam_eq {name value : List UInt8} (h : equals ∉ name) :
    readParam (name ++ equals :: value) = (name, value) := by
  obtain ⟨hname, hvalue⟩ := takeWhile_dropWhile_mark value h
  rw [readParam, hname, hvalue, List.tail_cons]

private theorem intercalate_cons_eq (sep : UInt8) (text : List UInt8) (texts : List (List UInt8)) :
    [sep].intercalate (text :: texts) = text ++ texts.flatMap (sep :: ·) := by
  induction texts generalizing text with
  | nil => simp
  | cons next texts ih =>
    rw [List.intercalate_cons_cons, ih, List.flatMap_cons]
    simp

theorem readParams_writeParams {params : List Param}
    (h : ∀ p ∈ params, ampersand ∉ p.1 ∧ equals ∉ p.1 ∧ ampersand ∉ p.2) :
    readParams (writeParams params) = params := by
  have hjoin : writeParams params =
      [ampersand].intercalate ([] :: params.map fun p => p.1 ++ equals :: p.2) := by
    rw [intercalate_cons_eq, List.flatMap_map, List.nil_append]
    rfl
  have htexts : ∀ text ∈ [] :: params.map (fun p : Param => p.1 ++ equals :: p.2),
      ampersand ∉ text := by
    rw [List.forall_mem_cons, List.forall_mem_map]
    refine ⟨List.not_mem_nil, fun p hp => ?_⟩
    obtain ⟨hname, -, hvalue⟩ := h p hp
    have hne : ampersand ≠ equals := by decide
    simp only [List.mem_append, List.mem_cons, hname, hvalue, hne, or_self, not_false_eq_true]
  have hfull : (params.map fun p : Param => p.1 ++ equals :: p.2).filter (· ≠ []) =
      params.map fun p => p.1 ++ equals :: p.2 := by
    rw [List.filter_eq_self, List.forall_mem_map]
    exact fun p _ => by simp
  rw [readParams, hjoin, List.splitOn_intercalate _ htexts (List.cons_ne_nil _ _),
    List.filter_cons_of_neg (by simp), hfull, List.map_map]
  calc
    _ = params.map id := List.map_congr_left fun p hp => readParam_eq (h p hp).2.1
    _ = params := List.map_id params

/-- A URL that ends in written parameters is read as what it was made of. -/
theorem readUrl_writeParams {params : List Param} (hfront : questionMark ∉ front)
    (h : ∀ p ∈ params, ampersand ∉ p.1 ∧ equals ∉ p.1 ∧ ampersand ∉ p.2) :
    readUrl (front ++ questionMark :: writeParams params) = (front, params) := by
  obtain ⟨htake, hdrop⟩ := takeWhile_dropWhile_mark (writeParams params) hfront
  rw [readUrl, htake, hdrop, List.tail_cons, readParams_writeParams h]

end BitTorrentBits.Query
