import BitTorrentBits.Bencode.Scanning
import BitTorrentBits.Bencode.Tokenizer

/-!
# Calls of the tokenizer

What one call of `next` does, by status and by the bytes from the cursor on.
-/

namespace BitTorrentBits.Tokenizer

open Bencode

variable {t u : Tokenizer}

theorem getElem?_current {b : UInt8} {bs : List UInt8} (h : t.rest = b :: bs) :
    t.data[t.current]? = some b := by
  have hhead : t.rest[0]? = some b := by rw [h, List.getElem?_cons_zero]
  rwa [rest, List.getElem?_drop, Nat.add_zero] at hhead

theorem rest_of_current {p bs : List UInt8} (h : t.rest = p ++ bs) (hdata : u.data = t.data)
    (hcurrent : u.current = t.current + p.length) : u.rest = bs := by
  rw [rest, hdata, hcurrent, ← List.drop_drop]
  change t.rest.drop p.length = bs
  rw [h, List.drop_left]

theorem intBody_signed (negative : Bool) {digits tail : List UInt8}
    (hd : ∀ b ∈ digits, isDigit b)
    (htail : ∀ b bs, tail = b :: bs → ¬ isDigit b ∧ (signed negative digits = [] → b ≠ minus)) :
    intBody (signed negative digits ++ tail) = signed negative digits := by
  have hdigits := takeWhile_isDigit hd fun b bs h => (htail b bs h).1
  cases negative with
  | true =>
    change intBody (minus :: (digits ++ tail)) = minus :: digits
    rw [intBody, if_pos (Or.inr rfl), hdigits]
  | false =>
    change intBody (digits ++ tail) = digits
    cases digits with
    | nil =>
      cases tail with
      | nil => rfl
      | cons b bs =>
        obtain ⟨hdigit, hminus⟩ := htail b bs rfl
        rw [List.nil_append, intBody, if_neg]
        exact not_or.mpr ⟨hdigit, hminus rfl⟩
    | cons d digits =>
      have hdd : isDigit d := hd d List.mem_cons_self
      rw [List.cons_append, List.takeWhile_cons_of_pos hdd] at hdigits
      rw [List.cons_append, intBody, if_pos (Or.inl hdd), hdigits]

private theorem digit_not_blank {b : UInt8} (h : isDigit b) :
    ¬ isSpace b ∧ b ≠ minus ∧ b ≠ plus := by
  have hb : 48 ≤ b.toNat ∧ b.toNat ≤ 57 := by simpa [isDigit] using h
  refine ⟨?_, ?_, ?_⟩
  · simp only [isSpace, decide_eq_true_eq]
    omega
  · rintro rfl
    exact absurd hb (by decide)
  · rintro rfl
    exact absurd hb (by decide)

private theorem strtol_of_digit {b : UInt8} {bs : List UInt8} (h : isDigit b) :
    strtol (b :: bs) =
      if ((b :: bs).takeWhile isDigit).length = (b :: bs).length then none
      else some (max (-2 ^ 63) (min (decimalValue ((b :: bs).takeWhile isDigit) : Int) LONG_MAX),
        ((b :: bs).takeWhile isDigit).length) := by
  obtain ⟨hspace, hminus, hplus⟩ := digit_not_blank h
  have hsign : strtolSign (b :: bs) = (1, 0) := by
    rw [strtolSign, if_neg hminus, if_neg hplus]
  have hne : (b :: bs).takeWhile isDigit ≠ [] := by
    rw [List.takeWhile_cons_of_pos h]
    exact List.cons_ne_nil _ _
  simp only [strtol, List.takeWhile_cons_of_neg hspace, List.length_nil, List.drop_zero, hsign,
    Nat.add_zero, Nat.zero_add, Int.one_mul, if_neg hne]

theorem strtol_digits {digits bs : List UInt8} {b : UInt8} (hne : digits ≠ [])
    (hd : ∀ d ∈ digits, isDigit d) (hb : ¬ isDigit b) :
    strtol (digits ++ b :: bs) =
      some (((min (decimalValue digits) LONG_MAX : Nat) : Int), digits.length) := by
  have htake : (digits ++ b :: bs).takeWhile isDigit = digits := by
    apply takeWhile_isDigit hd
    rintro _ _ h
    cases h
    exact hb
  cases digits with
  | nil => contradiction
  | cons d digits =>
    rw [List.cons_append] at htake ⊢
    rw [strtol_of_digit (hd d List.mem_cons_self), htake, if_neg]
    · congr 2
      omega
    · simp

theorem strtol_cut {digits : List UInt8} (hne : digits ≠ []) (hd : ∀ d ∈ digits, isDigit d) :
    strtol digits = none := by
  have htake : digits.takeWhile isDigit = digits := by
    have happ : (digits ++ []).takeWhile isDigit = digits := takeWhile_isDigit hd nofun
    rwa [List.append_nil] at happ
  cases digits with
  | nil => contradiction
  | cons d digits => rw [strtol_of_digit (hd d List.mem_cons_self), htake, if_pos rfl]

private theorem takeWhile_append_nul_length_le {p : UInt8 → Bool} (hp : p 0 = false)
    (bytes : List UInt8) : ((bytes ++ [0]).takeWhile p).length ≤ bytes.length := by
  rw [List.takeWhile_append]
  split
  · simp [hp]
  · exact (List.takeWhile_prefix p).length_le

private theorem strtolSign_nul (bytes : List UInt8) :
    (strtolSign (bytes ++ [0])).2 ≤ bytes.length := by
  cases bytes with
  | nil => decide
  | cons b bytes =>
    rw [List.cons_append, strtolSign]
    split_ifs <;> simp

theorem strtol_append_nul (bytes : List UInt8) : ∃ n len, strtol (bytes ++ [0]) = some (n, len) := by
  have hblanks := takeWhile_append_nul_length_le (p := isSpace) (by decide) bytes
  unfold strtol
  dsimp only
  generalize ((bytes ++ [0]).takeWhile isSpace).length = m at hblanks
  have hsign := strtolSign_nul (bytes.drop m)
  rw [List.length_drop] at hsign
  rw [List.drop_append_of_le_length hblanks, List.drop_append_of_le_length (by omega)]
  generalize bytes.drop (m + _) = body
  have hdigits := takeWhile_append_nul_length_le (p := isDigit) (by decide) body
  rw [if_neg (by simp; omega)]
  split_ifs
  · exact ⟨0, 0, rfl⟩
  · exact ⟨_, _, rfl⟩

variable {bs : List UInt8}

theorem next_start (hs : t.statusFn = .tokenizeStart) : t.next = dispatch t.rest t := by
  rw [next, hs]
  rfl

theorem next_space {b : UInt8} (hs : t.statusFn = .tokenizeStart)
    (h : t.rest = b :: bs) (hb : isSpace b) :
    t.next = next { t with current := t.current + 1 } := by
  have hmarks : b ≠ intMark ∧ ¬ isDigit b ∧ ¬ (b = listMark ∨ b = dictMark) ∧ b ≠ endMark := by
    have hrange : b.toNat = 32 ∨ 9 ≤ b.toNat ∧ b.toNat ≤ 13 := by simpa [isSpace] using hb
    refine ⟨?_, ?_, ?_, ?_⟩
    · rintro rfl
      exact absurd hrange (by decide)
    · simp only [isDigit, decide_eq_true_eq]
      omega
    · rintro (rfl | rfl) <;> exact absurd hrange (by decide)
    · rintro rfl
      exact absurd hrange (by decide)
  have hrest : rest { t with current := t.current + 1 } = bs := rest_of_current (p := [b]) h rfl rfl
  have hs' : statusFn { t with current := t.current + 1 } = .tokenizeStart := hs
  rw [next_start hs, next_start hs', hrest, h, dispatch, if_neg hmarks.1, if_neg hmarks.2.1,
    if_neg hmarks.2.2.1, if_neg hmarks.2.2.2, if_pos hb]

theorem next_intStart (hs : t.statusFn = .tokenizeStart) (h : t.rest = intMark :: bs) :
    t.next = some (.TOKENIZER_OK,
      { t with token := [intMark], current := t.current + 1, statusFn := .tokenizeIntParse }) := by
  rw [next_start hs, h, dispatch, if_pos rfl, tokenizeIntStart]
  simp only [getElem?_current h]
  rfl

theorem next_intParse {body : List UInt8} {b : UInt8} (hs : t.statusFn = .tokenizeIntParse)
    (h : t.rest = body ++ b :: bs) (hbody : intBody (body ++ b :: bs) = body) :
    t.next = some (.TOKENIZER_OK, { t with
      token := body
      current := t.current + body.length
      statusFn := .tokenizeIntEnd }) := by
  have hlt : body.length < t.rest.length := by
    rw [h, List.length_append, List.length_cons]
    omega
  rw [next, hs]
  simp only [tokenizeIntParse, h, hbody] at hlt ⊢
  rw [if_pos hlt]

theorem next_intParse_cut (hs : t.statusFn = .tokenizeIntParse)
    (h : intBody t.rest = t.rest) : t.next = none := by
  rw [next, hs]
  simp only [tokenizeIntParse, h]
  rw [if_neg (Nat.lt_irrefl _)]

theorem next_intEnd (hs : t.statusFn = .tokenizeIntEnd) (h : t.rest = endMark :: bs) :
    t.next = some (.TOKENIZER_OK,
      { t with token := [endMark], current := t.current + 1, statusFn := .tokenizeStart }) := by
  rw [next, hs]
  simp only [tokenizeIntEnd, getElem?_current h]
  rfl

theorem next_intEnd_stray {b : UInt8} (hs : t.statusFn = .tokenizeIntEnd)
    (h : t.rest = b :: bs) (hb : b ≠ endMark) : t.next = t.malformed := by
  rw [next, hs]
  simp only [tokenizeIntEnd, getElem?_current h]
  exact if_neg hb

private theorem next_digits {digits : List UInt8} (hs : t.statusFn = .tokenizeStart)
    (hne : digits ≠ []) (hd : ∀ d ∈ digits, isDigit d) (h : t.rest = digits ++ bs) :
    t.next = tokenizeStrStart { t with statusFn := .tokenizeStrStart } := by
  cases digits with
  | nil => contradiction
  | cons d digits =>
    have hdd : isDigit d := hd d List.mem_cons_self
    have hmark : d ≠ intMark := by
      rintro rfl
      exact absurd hdd (by decide)
    rw [next_start hs, h, List.cons_append, dispatch, if_neg hmark, if_pos hdd]

theorem next_strStart {digits : List UInt8} (hs : t.statusFn = .tokenizeStart)
    (hne : digits ≠ []) (hd : ∀ d ∈ digits, isDigit d) (h : t.rest = digits ++ colon :: bs) :
    t.next = some (.TOKENIZER_OK, { t with
      strlen := ((min (decimalValue digits) LONG_MAX : Nat) : Int)
      current := t.current + digits.length + 1
      token := [strMark]
      statusFn := .tokenizeStrParse }) := by
  have hget : t.data[t.current + digits.length]? = some colon :=
    getElem?_current (t := { t with current := t.current + digits.length }) (rest_of_current h rfl rfl)
  rw [next_digits hs hne hd h, tokenizeStrStart]
  change (strtol t.rest).bind _ = _
  rw [h, strtol_digits hne hd (by decide), Option.bind_some]
  simp only [hget]
  rfl

theorem next_strStart_stray {digits : List UInt8} {b : UInt8}
    (hs : t.statusFn = .tokenizeStart) (hne : digits ≠ []) (hd : ∀ d ∈ digits, isDigit d)
    (h : t.rest = digits ++ b :: bs) (hdigit : ¬ isDigit b) (hb : b ≠ colon) :
    ∃ v, t.next = malformed v := by
  have hget : t.data[t.current + digits.length]? = some b :=
    getElem?_current (t := { t with current := t.current + digits.length }) (rest_of_current h rfl rfl)
  rw [next_digits hs hne hd h, tokenizeStrStart]
  change ∃ v, (strtol t.rest).bind _ = malformed v
  rw [h, strtol_digits hne hd hdigit, Option.bind_some]
  simp only [hget]
  exact ⟨_, if_pos hb⟩

theorem next_strStart_cut {digits : List UInt8} (hs : t.statusFn = .tokenizeStart)
    (hne : digits ≠ []) (hd : ∀ d ∈ digits, isDigit d) (h : t.rest = digits) : t.next = none := by
  have hrest : t.rest = digits ++ [] := by rw [h, List.append_nil]
  rw [next_digits hs hne hd hrest, tokenizeStrStart]
  change (strtol t.rest).bind _ = _
  rw [h, strtol_cut hne hd]
  rfl

theorem next_strParse {payload : List UInt8} (hs : t.statusFn = .tokenizeStrParse)
    (hin : t.current ≤ t.data.length) (hlen : t.strlen = payload.length)
    (h : t.rest = payload ++ bs) :
    t.next = some (.TOKENIZER_OK, { t with
      token := payload
      current := t.current + payload.length
      statusFn := .tokenizeStart }) := by
  have hlength := congrArg List.length h
  rw [rest, List.length_drop, List.length_append] at hlength
  have hread : readAt t.data t.current payload.length = some payload := by
    rw [readAt_of_le (by omega)]
    change some (t.rest.take payload.length) = some payload
    rw [h, List.take_left]
  rw [next, hs]
  simp only [tokenizeStrParse, hlen, Int.toNat_natCast, hread]
  rw [if_neg (by omega)]
  rfl

theorem next_strParse_cut {n : Nat} (hs : t.statusFn = .tokenizeStrParse)
    (hlen : t.strlen = n) (h : t.rest.length < n) : t.next = none := by
  rw [rest, List.length_drop] at h
  have hread : readAt t.data t.current n = none := by
    rw [readAt_eq_none]
    omega
  rw [next, hs]
  simp only [tokenizeStrParse, hlen, Int.toNat_natCast, hread]
  rw [if_neg (by omega)]
  rfl

theorem next_opener (dict : Bool) (hs : t.statusFn = .tokenizeStart)
    (h : t.rest = (if dict then dictMark else listMark) :: bs) :
    t.next = some (.TOKENIZER_OK, { t with
      token := [if dict then dictMark else listMark]
      current := t.current + 1
      listDictStack := t.listDictStack + 1
      statusFn := .tokenizeStart }) := by
  have hget := getElem?_current h
  rw [next_start hs, h]
  cases dict <;>
    rw [dispatch, if_neg (by decide), if_neg (by decide), if_pos (by decide), tokenizeListDictStart] <;>
    simp only [hget] <;> rfl

theorem next_closer (hs : t.statusFn = .tokenizeStart) (h : t.rest = endMark :: bs) :
    t.next = some (.TOKENIZER_OK, { t with
      token := [endMark]
      current := t.current + 1
      listDictStack := t.listDictStack - 1
      statusFn := .tokenizeStart }) := by
  have hget := getElem?_current h
  rw [next_start hs, h, dispatch, if_neg (by decide), if_neg (by decide), if_neg (by decide),
    if_pos rfl, tokenizeListDictEnd]
  by_cases hneg : t.listDictStack < 0
  · simp only [hneg, if_true, hget]
    rfl
  · simp only [hneg, if_false, hget]
    rfl

theorem next_stray {b : UInt8} (hs : t.statusFn = .tokenizeStart) (h : t.rest = b :: bs)
    (hspace : ¬ isSpace b) (hdigit : ¬ isDigit b)
    (hmark : b ∉ [intMark, listMark, dictMark, endMark]) : t.next = t.malformed := by
  simp only [List.mem_cons, List.not_mem_nil, or_false, not_or] at hmark
  rw [next_start hs, h, dispatch, if_neg hmark.1, if_neg hdigit,
    if_neg (not_or.mpr ⟨hmark.2.1, hmark.2.2.1⟩), if_neg hmark.2.2.2, if_neg hspace]

theorem next_of_rest_nil (hs : t.statusFn = .tokenizeStart) (h : t.current = t.data.length) :
    t.next = if 0 < t.listDictStack then t.malformed
      else tokenizeEnd { t with statusFn := .tokenizeEnd } := by
  have hrest : t.rest = [] := List.drop_eq_nil_of_le (Nat.le_of_eq h.symm)
  rw [next_start hs, hrest, dispatch, if_pos h]

end BitTorrentBits.Tokenizer
