import BitTorrentBits.Bencode.Grammar

/-!
# Scanning

What a text begins with, and how a whole text is scanned: up to its end, to a byte out of
place, or to an integer or string cut short.
-/

namespace BitTorrentBits.Bencode

variable {limit : Nat}

private theorem digit_char {c : Char} (h : c.isDigit = true) :
    isDigit c.toUInt8 = true ∧ Char.ofNat c.toUInt8.toNat = c := by
  have hc : 48 ≤ c.toNat ∧ c.toNat ≤ 57 := by
    simpa [Char.isDigit, UInt32.le_iff_toNat_le] using h
  have hnat : c.toUInt8.toNat = c.toNat := by
    have hmod : c.toUInt8.toNat = c.toNat % 2 ^ 8 := UInt32.toNat_toUInt8 c.val
    omega
  constructor
  · rw [isDigit, hnat]
    exact decide_eq_true hc
  · rw [hnat, Char.ofNat_toNat]

theorem decimal_digits (n : Nat) : ∀ b ∈ decimal n, isDigit b := by
  intro b hb
  obtain ⟨c, hc, rfl⟩ := List.mem_map.mp hb
  exact (digit_char (Nat.isDigit_of_mem_toDigits (by decide) (by decide) hc)).1

theorem decimal_ne_nil (n : Nat) : decimal n ≠ [] := by
  simp [decimal]

theorem decimal_length_le {n digits : Nat} (hpos : 0 < digits) (h : n < 10 ^ digits) :
    (decimal n).length ≤ digits := by
  rw [decimal, List.length_map]
  exact Nat.toDigits_length 10 n digits hpos h

theorem not_mem_decimal {b : UInt8} (h : isDigit b = false) (n : Nat) : b ∉ decimal n := by
  intro hb
  rw [decimal_digits n b hb] at h
  contradiction

@[simp] theorem decimalValue_decimal (n : Nat) : decimalValue (decimal n) = n := by
  have hchars : (decimal n).map (fun b => Char.ofNat b.toNat) = Nat.toDigits 10 n := by
    rw [decimal, List.map_map]
    refine (List.map_congr_left ?_).trans (List.map_id _)
    intro c hc
    exact (digit_char (Nat.isDigit_of_mem_toDigits (by decide) (by decide) hc)).2
  rw [decimalValue, hchars, Nat.ofDigitChars_ten_toDigits]

theorem Cut.cutAfter_or_digits {s : List UInt8} (h : Cut limit s) :
    (∃ mark, CutAfter limit mark s) ∨ s ≠ [] ∧ ∀ b ∈ s, isDigit b := by
  cases h with
  | int negative hd => exact Or.inl ⟨_, .int negative hd⟩
  | length hne hd => exact Or.inr ⟨hne, hd⟩
  | payload hne hd hlen => exact Or.inl ⟨_, .payload hne hd hlen⟩

theorem Scans.append {ls ls' : List Lexeme} {p q : List UInt8} (hp : Scans limit ls p)
    (hq : Scans limit ls' q) : Scans limit (ls ++ ls') (p ++ q) := by
  induction hp with
  | nil => exact hq
  | space hb _ ih => exact .space hb ih
  | cons hl _ ih =>
    rw [List.append_assoc]
    exact .cons hl ih

theorem scans_flatMap {ls : List Lexeme} (h : ∀ l ∈ ls, l.Valid limit) :
    Scans limit ls (ls.flatMap Lexeme.bytes) := by
  induction ls with
  | nil => exact .nil
  | cons l ls ih =>
    rw [List.flatMap_cons]
    exact .cons (h l List.mem_cons_self) (ih fun l hl => h l (List.mem_cons_of_mem _ hl))

theorem Lexeme.bytes_ne_nil {l : Lexeme} : l.bytes ≠ [] := by
  cases l <;> simp [Lexeme.bytes]

theorem takeWhile_isDigit {digits tail : List UInt8} (hd : ∀ b ∈ digits, isDigit b)
    (htail : ∀ b bs, tail = b :: bs → ¬ isDigit b) :
    (digits ++ tail).takeWhile isDigit = digits := by
  rw [List.takeWhile_append_of_pos hd]
  cases tail with
  | nil => simp
  | cons b bs => rw [List.takeWhile_cons_of_neg (htail b bs rfl), List.append_nil]

private theorem exists_digits (bs : List UInt8) :
    ∃ digits rest, bs = digits ++ rest ∧ (∀ b ∈ digits, isDigit b) ∧
      ∀ b rest', rest = b :: rest' → ¬ isDigit b := by
  refine ⟨bs.takeWhile isDigit, bs.dropWhile isDigit, List.takeWhile_append_dropWhile.symm, ?_, ?_⟩
  · exact List.all_eq_true.mp List.all_takeWhile
  · intro b rest' hrest
    have hhead := List.head?_dropWhile_not isDigit bs
    rw [hrest] at hhead
    simpa using hhead

private theorem exists_signed (bs : List UInt8) :
    ∃ negative digits rest, bs = signed negative digits ++ rest ∧ (∀ b ∈ digits, isDigit b) ∧
      ∀ b rest', rest = b :: rest' →
        ¬ isDigit b ∧ (signed negative digits = [] → b ≠ minus) := by
  by_cases hminus : ∃ bs', bs = minus :: bs'
  · obtain ⟨bs', rfl⟩ := hminus
    obtain ⟨digits, rest, rfl, hd, hrest⟩ := exists_digits bs'
    refine ⟨true, digits, rest, rfl, hd, ?_⟩
    intro b rest' h
    exact ⟨hrest b rest' h, fun hnil => by simp [signed] at hnil⟩
  · obtain ⟨digits, rest, rfl, hd, hrest⟩ := exists_digits bs
    refine ⟨false, digits, rest, rfl, hd, ?_⟩
    intro b rest' h
    refine ⟨hrest b rest' h, ?_⟩
    intro hnil hb
    change digits = [] at hnil
    subst hnil hb h
    exact hminus ⟨rest', rfl⟩

private def Begins (limit : Nat) (bs : List UInt8) : Prop :=
  (∃ (l : Lexeme) (rest : List UInt8), l.Valid limit ∧ bs = l.bytes ++ rest) ∨ Stray bs ∨
    Cut limit bs

private theorem begins_int (limit : Nat) (bs : List UInt8) : Begins limit (intMark :: bs) := by
  obtain ⟨negative, digits, rest, rfl, hd, hrest⟩ := exists_signed bs
  cases rest with
  | nil =>
    right
    right
    rw [List.append_nil]
    exact .int negative hd
  | cons b rest =>
    obtain ⟨hdigit, hminus⟩ := hrest b rest rfl
    by_cases hend : b = endMark
    · subst hend
      left
      refine ⟨.int negative digits, rest, hd, ?_⟩
      simp [Lexeme.bytes]
    · right
      left
      exact .int negative hd hdigit hminus hend

private theorem begins_digits (limit : Nat) {bs : List UInt8} {b : UInt8} (hb : isDigit b) :
    Begins limit (b :: bs) := by
  obtain ⟨digits, rest, hsplit, hd, hrest⟩ := exists_digits (b :: bs)
  have hne : digits ≠ [] := by
    intro hnil
    subst hnil
    exact hrest b bs hsplit.symm hb
  rw [hsplit]
  cases rest with
  | nil =>
    right
    right
    rw [List.append_nil]
    exact .length hne hd
  | cons c rest =>
    by_cases hcolon : c = colon
    · subst hcolon
      by_cases hlen : rest.length < min (decimalValue digits) limit
      · exact Or.inr (Or.inr (.payload hne hd hlen))
      · left
        let n := min (decimalValue digits) limit
        refine ⟨.str digits (rest.take n), rest.drop n, ⟨hne, hd, ?_⟩, ?_⟩
        · rw [List.length_take]
          exact Nat.min_eq_left (Nat.le_of_not_lt hlen)
        · simp [Lexeme.bytes]
    · exact Or.inr (Or.inl (.length hne hd (hrest c rest rfl) hcolon))

private theorem begins_of_not_isSpace (limit : Nat) {b : UInt8} (bs : List UInt8)
    (hb : ¬ isSpace b) : Begins limit (b :: bs) := by
  by_cases hdigit : isDigit b
  · exact begins_digits limit hdigit
  · by_cases hmark : b ∈ [intMark, listMark, dictMark, endMark]
    · simp only [List.mem_cons, List.not_mem_nil, or_false] at hmark
      rcases hmark with rfl | rfl | rfl | rfl
      · exact begins_int limit bs
      · exact Or.inl ⟨.opener false, bs, trivial, rfl⟩
      · exact Or.inl ⟨.opener true, bs, trivial, rfl⟩
      · exact Or.inl ⟨.closer, bs, trivial, rfl⟩
    · exact Or.inr (Or.inl (.start hb hdigit hmark))

/-- Every text is scanned up to its end, to a byte out of place or to a piece cut short. -/
theorem scans_cases (limit : Nat) (bs : List UInt8) :
    ∃ ls p t, bs = p ++ t ∧ Scans limit ls p ∧ (t = [] ∨ Stray t ∨ Cut limit t) := by
  induction hn : bs.length using Nat.strongRecOn generalizing bs with
  | ind n ih =>
    cases bs with
    | nil => exact ⟨[], [], [], rfl, .nil, Or.inl rfl⟩
    | cons b bs =>
      rw [List.length_cons] at hn
      by_cases hb : isSpace b
      · obtain ⟨ls, p, t, rfl, hp, ht⟩ := ih bs.length (by omega) bs rfl
        exact ⟨ls, b :: p, t, rfl, .space hb hp, ht⟩
      · rcases begins_of_not_isSpace limit bs hb with ⟨l, rest, hl, hsplit⟩ | hstop
        · have hlen := congrArg List.length hsplit
          have hpos := List.length_pos_iff.mpr (l.bytes_ne_nil)
          rw [List.length_append, List.length_cons] at hlen
          obtain ⟨ls, p, t, rfl, hp, ht⟩ := ih rest.length (by omega) rest rfl
          exact ⟨l :: ls, l.bytes ++ p, t, by rw [hsplit, List.append_assoc], .cons hl hp, ht⟩
        · exact ⟨[], [], b :: bs, rfl, .nil, Or.inr hstop⟩

theorem digits_unique {digits digits' rest rest' : List UInt8} {b b' : UInt8}
    (hd : ∀ d ∈ digits, isDigit d) (hd' : ∀ d ∈ digits', isDigit d) (hb : ¬ isDigit b)
    (hb' : ¬ isDigit b') (h : digits ++ b :: rest = digits' ++ b' :: rest') :
    digits = digits' ∧ b :: rest = b' :: rest' := by
  have htake : digits = digits' := by
    rw [← takeWhile_isDigit hd fun _ _ heq => (List.cons.inj heq).1 ▸ hb,
      ← takeWhile_isDigit hd' fun _ _ heq => (List.cons.inj heq).1 ▸ hb', h]
  subst htake
  exact ⟨rfl, List.append_cancel_left h⟩

private theorem int_unique {negative negative' : Bool} {digits digits' rest rest' : List UInt8}
    (hd : ∀ d ∈ digits, isDigit d) (hd' : ∀ d ∈ digits', isDigit d)
    (h : signed negative digits ++ endMark :: rest = signed negative' digits' ++ endMark :: rest') :
    negative = negative' ∧ digits = digits' ∧ rest = rest' := by
  have hsame : ∀ {ds ds' : List UInt8}, (∀ d ∈ ds, isDigit d) → (∀ d ∈ ds', isDigit d) →
      ds ++ endMark :: rest = ds' ++ endMark :: rest' → ds = ds' ∧ rest = rest' := by
    intro ds ds' hds hds' heq
    obtain ⟨hdigits, htail⟩ := digits_unique hds hds' (by decide) (by decide) heq
    exact ⟨hdigits, (List.cons.inj htail).2⟩
  have hminus : ∀ {ds tail tail' : List UInt8}, (∀ d ∈ ds, isDigit d) →
      minus :: tail ≠ ds ++ endMark :: tail' := by
    intro ds tail tail' hds heq
    cases ds with
    | nil => exact absurd (List.cons.inj heq).1 (by decide)
    | cons d ds =>
      have hdd : isDigit d := hds d List.mem_cons_self
      rw [← (List.cons.inj heq).1] at hdd
      exact absurd hdd (by decide)
  cases negative <;> cases negative'
  · exact ⟨rfl, hsame hd hd' h⟩
  · exact (hminus hd h.symm).elim
  · exact (hminus hd' h).elim
  · exact ⟨rfl, hsame hd hd' (List.cons.inj h).2⟩

private theorem digits_ne_cons {digits tail tail' : List UInt8} {b : UInt8} (hne : digits ≠ [])
    (hd : ∀ d ∈ digits, isDigit d) (hb : ¬ isDigit b) : digits ++ tail ≠ b :: tail' := by
  cases digits with
  | nil => contradiction
  | cons d digits =>
    intro h
    rw [← (List.cons.inj h).1] at hb
    exact hb (hd d List.mem_cons_self)

theorem Lexeme.bytes_unique {l l' : Lexeme} {x x' : List UInt8} (hl : l.Valid limit)
    (hl' : l'.Valid limit) (h : l.bytes ++ x = l'.bytes ++ x') : l = l' ∧ x = x' := by
  cases l with
  | int negative digits =>
    cases l' with
    | int negative' digits' =>
      simp only [Lexeme.bytes, List.cons_append, List.append_assoc, List.nil_append] at h
      obtain ⟨rfl, rfl, hx⟩ := int_unique hl hl' (List.cons.inj h).2
      exact ⟨rfl, hx⟩
    | str digits' payload' =>
      rw [Lexeme.bytes, Lexeme.bytes, List.append_assoc] at h
      exact (digits_ne_cons hl'.1 hl'.2.1 (by decide) h.symm).elim
    | opener dict => cases dict <;> exact absurd (List.cons.inj h).1 (by decide)
    | closer => exact absurd (List.cons.inj h).1 (by decide)
  | str digits payload =>
    rw [Lexeme.bytes, List.append_assoc] at h
    cases l' with
    | str digits' payload' =>
      rw [Lexeme.bytes, List.append_assoc] at h
      obtain ⟨rfl, htail⟩ := digits_unique hl.2.1 hl'.2.1 (by decide) (by decide) h
      have hlen : payload.length = payload'.length := hl.2.2.trans hl'.2.2.symm
      obtain ⟨rfl, hx⟩ := List.append_inj (List.cons.inj htail).2 hlen
      exact ⟨rfl, hx⟩
    | int negative' digits' => exact (digits_ne_cons hl.1 hl.2.1 (by decide) h).elim
    | opener dict => cases dict <;> exact (digits_ne_cons hl.1 hl.2.1 (by decide) h).elim
    | closer => exact (digits_ne_cons hl.1 hl.2.1 (by decide) h).elim
  | opener dict =>
    cases l' with
    | opener dict' =>
      cases dict <;> cases dict'
      · exact ⟨rfl, (List.cons.inj h).2⟩
      · exact absurd (List.cons.inj h).1 (by decide)
      · exact absurd (List.cons.inj h).1 (by decide)
      · exact ⟨rfl, (List.cons.inj h).2⟩
    | int negative' digits' => cases dict <;> exact absurd (List.cons.inj h).1 (by decide)
    | str digits' payload' =>
      rw [Lexeme.bytes, Lexeme.bytes, List.append_assoc] at h
      cases dict <;> exact (digits_ne_cons hl'.1 hl'.2.1 (by decide) h.symm).elim
    | closer => cases dict <;> exact absurd (List.cons.inj h).1 (by decide)
  | closer =>
    cases l' with
    | closer => exact ⟨rfl, (List.cons.inj h).2⟩
    | int negative' digits' => exact absurd (List.cons.inj h).1 (by decide)
    | str digits' payload' =>
      rw [Lexeme.bytes, Lexeme.bytes, List.append_assoc] at h
      exact (digits_ne_cons hl'.1 hl'.2.1 (by decide) h.symm).elim
    | opener dict => cases dict <;> exact absurd (List.cons.inj h).1 (by decide)

private theorem bytes_ne_space {l : Lexeme} {x bs : List UInt8} {b : UInt8}
    (hl : l.Valid limit) (hb : isSpace b) : l.bytes ++ x ≠ b :: bs := by
  intro h
  cases l with
  | int negative digits =>
    rw [← (List.cons.inj h).1] at hb
    exact absurd hb (by decide)
  | str digits payload =>
    have hdigit : ¬ isDigit b := by
      have hrange : b.toNat = 32 ∨ 9 ≤ b.toNat ∧ b.toNat ≤ 13 := by simpa [isSpace] using hb
      simp only [isDigit, decide_eq_true_eq]
      omega
    rw [Lexeme.bytes, List.append_assoc] at h
    exact digits_ne_cons hl.1 hl.2.1 hdigit h
  | opener dict =>
    rw [← (List.cons.inj h).1] at hb
    cases dict <;> exact absurd hb (by decide)
  | closer =>
    rw [← (List.cons.inj h).1] at hb
    exact absurd hb (by decide)

/-- A text is scanned in one way only. -/
theorem Scans.unique {ls ls' : List Lexeme} {bs : List UInt8} (h : Scans limit ls bs)
    (h' : Scans limit ls' bs) : ls = ls' := by
  induction h generalizing ls' with
  | nil =>
    generalize hnil : ([] : List UInt8) = text at h'
    cases h' with
    | nil => rfl
    | space _ _ => contradiction
    | cons _ _ => exact (Lexeme.bytes_ne_nil (List.append_eq_nil_iff.mp hnil.symm).1).elim
  | @space b ls bs hb _ ih =>
    generalize htext : b :: bs = text at h'
    cases h' with
    | nil => contradiction
    | space _ hrest =>
      cases htext
      exact ih hrest
    | cons hl _ => exact (bytes_ne_space hl hb htext.symm).elim
  | @cons l ls bs hl _ ih =>
    generalize htext : l.bytes ++ bs = text at h'
    cases h' with
    | nil => exact (Lexeme.bytes_ne_nil (List.append_eq_nil_iff.mp htext).1).elim
    | space hb _ => exact (bytes_ne_space hl hb htext).elim
    | cons hl' hrest =>
      obtain ⟨rfl, rfl⟩ := Lexeme.bytes_unique hl hl' htext
      rw [ih hrest]

end BitTorrentBits.Bencode
