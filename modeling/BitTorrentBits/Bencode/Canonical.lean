import BitTorrentBits.Bencode.TokenizerRuns

/-!
# Canonical encodings

The lexemes of a value are balanced and valid, so a tokenizer over the encodings of values
reports their canonical tokens and then ends.
-/

namespace BitTorrentBits

namespace Bencode

mutual

theorem Value.balanced (v : Value) : Balanced 0 v.lexemes := by
  cases v with
  | int n => exact (balanced_cons _ _ _).mpr ⟨nofun, balanced_nil⟩
  | str s => exact (balanced_cons _ _ _).mpr ⟨nofun, balanced_nil⟩
  | list values => exact (balanced_lexemesList values).container false balanced_nil
  | dict entries => exact (balanced_lexemesEntries entries).container true balanced_nil

theorem balanced_lexemesList (values : List Value) : Balanced 0 (lexemesList values) := by
  cases values with
  | nil => exact balanced_nil
  | cons v values => exact v.balanced.append (Int.le_refl 0) (balanced_lexemesList values)

theorem balanced_lexemesEntries (entries : List (List UInt8 × Value)) :
    Balanced 0 (lexemesEntries entries) := by
  cases entries with
  | nil => exact balanced_nil
  | cons entry entries =>
    have hrest := entry.2.balanced.append (Int.le_refl 0) (balanced_lexemesEntries entries)
    exact (balanced_cons _ _ _).mpr ⟨nofun, hrest⟩

end

private def Canonical : Lexeme → Prop
  | .int _ digits => ∃ n, digits = decimal n
  | .str digits payload => digits = decimal payload.length
  | .opener _ | .closer => True

mutual

private theorem canonical_lexemes (v : Value) : ∀ l ∈ v.lexemes, Canonical l := by
  cases v with
  | int n =>
    intro l hl
    rw [List.mem_singleton.mp hl]
    exact ⟨_, rfl⟩
  | str s =>
    intro l hl
    rw [List.mem_singleton.mp hl]
    rfl
  | list values =>
    rw [Value.lexemes, List.forall_mem_cons, List.forall_mem_append, List.forall_mem_singleton]
    exact ⟨trivial, canonical_lexemesList values, trivial⟩
  | dict entries =>
    rw [Value.lexemes, List.forall_mem_cons, List.forall_mem_append, List.forall_mem_singleton]
    exact ⟨trivial, canonical_lexemesEntries entries, trivial⟩

private theorem canonical_lexemesList (values : List Value) :
    ∀ l ∈ lexemesList values, Canonical l := by
  cases values with
  | nil => exact fun _ hl => nomatch hl
  | cons v values =>
    rw [lexemesList, List.forall_mem_append]
    exact ⟨canonical_lexemes v, canonical_lexemesList values⟩

private theorem canonical_lexemesEntries (entries : List (List UInt8 × Value)) :
    ∀ l ∈ lexemesEntries entries, Canonical l := by
  cases entries with
  | nil => exact fun _ hl => nomatch hl
  | cons entry entries =>
    rw [lexemesEntries, List.forall_mem_cons, List.forall_mem_append]
    exact ⟨rfl, canonical_lexemes entry.2, canonical_lexemesEntries entries⟩

end

theorem Value.eq_strLexeme_of_mem {v : Value} {digits payload : List UInt8}
    (h : .str digits payload ∈ v.lexemes) : .str digits payload = strLexeme payload := by
  have hdigits : digits = decimal payload.length := canonical_lexemes v _ h
  rw [hdigits, strLexeme]

theorem Value.stringsWithin {limit : Nat} {v : Value} (h : v.encode.length ≤ limit) :
    v.StringsWithin limit := by
  intro digits payload hl
  obtain ⟨before, after, hsplit⟩ := List.append_of_mem hl
  rw [Value.encode, hsplit, List.flatMap_append, List.flatMap_cons, List.length_append,
    List.length_append, Lexeme.bytes, List.length_append, List.length_cons] at h
  omega

theorem Value.valid_lexemes {limit : Nat} {v : Value} (h : v.StringsWithin limit) :
    ∀ l ∈ v.lexemes, l.Valid limit := by
  intro l hl
  have hcanonical := canonical_lexemes v l hl
  cases l with
  | int negative digits =>
    obtain ⟨n, rfl⟩ := hcanonical
    exact decimal_digits n
  | str digits payload =>
    have hlen := h digits payload hl
    have hdigits : digits = decimal payload.length := hcanonical
    subst hdigits
    refine ⟨decimal_ne_nil _, decimal_digits _, ?_⟩
    rw [decimalValue_decimal, Nat.min_eq_left hlen]
  | opener dict => trivial
  | closer => trivial

end Bencode

namespace Tokenizer

open Bencode

/-- Over the encodings of values, with strings of less than `2 ^ 63` bytes, the calls of
`next` report the canonical tokens in order, and then `TOKENIZER_END` for ever. -/
theorem next_encode (values : List Value) (h : ∀ v ∈ values, v.StringsWithin LONG_MAX) (k : Nat) :
    (k < (values.flatMap Value.tokens).length →
      ∃ u, nextAfter k (initTokenizer (values.flatMap Value.encode)) = some (.TOKENIZER_OK, u) ∧
        (values.flatMap Value.tokens)[k]? = some u.token) ∧
    ((values.flatMap Value.tokens).length ≤ k →
      ∃ u, nextAfter k (initTokenizer (values.flatMap Value.encode)) =
        some (.TOKENIZER_END, u)) := by
  have hvalid : ∀ l ∈ values.flatMap Value.lexemes, l.Valid LONG_MAX := by
    intro l hl
    obtain ⟨v, hv, hlv⟩ := List.mem_flatMap.mp hl
    exact v.valid_lexemes (h v hv) l hlv
  have hencode : values.flatMap Value.encode =
      (values.flatMap Value.lexemes).flatMap Lexeme.bytes := List.flatMap_assoc.symm
  have htokens : values.flatMap Value.tokens =
      (values.flatMap Value.lexemes).flatMap Lexeme.tokens := List.flatMap_assoc.symm
  have hheight : height (values.flatMap Value.lexemes) ≤ 0 := by
    clear h hvalid hencode htokens
    induction values with
    | nil => exact Int.le_refl 0
    | cons v values ih =>
      have hv := v.balanced.2
      rw [List.flatMap_cons, height_append]
      omega
  obtain ⟨w, us, hus, hok, hend⟩ := endsIn_end (scans_flatMap hvalid) hheight
  rw [hencode, htokens, ← hus, List.length_map]
  constructor
  · intro hk
    refine ⟨us[k], hok k hk, ?_⟩
    rw [List.getElem?_map, List.getElem?_eq_getElem hk]
    rfl
  · intro hk
    refine ⟨w, ?_⟩
    rw [← hend (k - us.length), Nat.add_sub_cancel' hk]

/-- A list of an integer and an empty string, and what its fifth call reports. -/
theorem next_encode_list :
    ∃ u, nextAfter 4 (initTokenizer ([.list [.int (-7), .str []]].flatMap Value.encode)) =
      some (.TOKENIZER_OK, u) ∧ u.token = [strMark] := by
  have hwithin : ∀ v ∈ [Value.list [.int (-7), .str []]], v.StringsWithin LONG_MAX := by
    intro v hv digits payload hl
    rw [List.mem_singleton.mp hv] at hl
    have hempty : digits = decimal 0 ∧ payload = [] := by
      simpa [Value.lexemes, lexemesList, strLexeme] using hl
    rw [hempty.2]
    exact Nat.zero_le _
  obtain ⟨u, hu, htoken⟩ := (next_encode [.list [.int (-7), .str []]] hwithin 4).1 (by decide)
  exact ⟨u, hu, (Option.some.inj htoken).symm⟩

end Tokenizer

end BitTorrentBits
