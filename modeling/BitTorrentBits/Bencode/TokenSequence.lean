import BitTorrentBits.Bencode.Canonical

/-!
# Token sequences

The tokens that any text begins with: those of its lexemes, and of what is left after them.
The calls of `next` report these and then fail, or read outside the data of a text that is
cut short.
-/

namespace BitTorrentBits

namespace Bencode

/-- The tokens of a text that begins with no lexeme, and whether it is cut short. -/
inductive Leftover (limit : Nat) : List UInt8 → List (List UInt8) → Bool → Prop
  | nil : Leftover limit [] [] false
  | start {b : UInt8} {bs : List UInt8} (hspace : ¬ isSpace b) (hdigit : ¬ isDigit b)
      (hmark : b ∉ [intMark, listMark, dictMark, endMark]) : Leftover limit (b :: bs) [] false
  | strayInt (negative : Bool) {digits : List UInt8} {b : UInt8} {bs : List UInt8}
      (hd : ∀ d ∈ digits, isDigit d) (hdigit : ¬ isDigit b)
      (hminus : signed negative digits = [] → b ≠ minus) (hend : b ≠ endMark) :
      Leftover limit (intMark :: (signed negative digits ++ b :: bs))
        [[intMark], signed negative digits] false
  | strayLength {digits : List UInt8} {b : UInt8} {bs : List UInt8} (hne : digits ≠ [])
      (hd : ∀ d ∈ digits, isDigit d) (hdigit : ¬ isDigit b) (hcolon : b ≠ colon) :
      Leftover limit (digits ++ b :: bs) [] false
  | cutAfter {mark : UInt8} {t : List UInt8} (h : CutAfter limit mark t) :
      Leftover limit t [[mark]] true
  | cutLength {digits : List UInt8} (hne : digits ≠ []) (hd : ∀ d ∈ digits, isDigit d) :
      Leftover limit digits [] true

/-- The text begins with these tokens, after which it is cut short, or it ends or has a byte
out of place. -/
def BeginsWith (limit : Nat) (bs : List UInt8) (toks : List (List UInt8)) (cut : Bool) : Prop :=
  ∃ ls p t rest, bs = p ++ t ∧ Scans limit ls p ∧ Leftover limit t rest cut ∧
    toks = ls.flatMap Lexeme.tokens ++ rest

variable {limit : Nat}

private theorem exists_leftover {t : List UInt8} (h : t = [] ∨ Stray t ∨ Cut limit t) :
    ∃ toks cut, Leftover limit t toks cut := by
  rcases h with rfl | h | h
  · exact ⟨_, _, .nil⟩
  · cases h with
    | start hspace hdigit hmark => exact ⟨_, _, .start hspace hdigit hmark⟩
    | int negative hd hdigit hminus hend => exact ⟨_, _, .strayInt negative hd hdigit hminus hend⟩
    | length hne hd hdigit hcolon => exact ⟨_, _, .strayLength hne hd hdigit hcolon⟩
  · rcases h.cutAfter_or_digits with ⟨mark, hcut⟩ | ⟨hne, hd⟩
    · exact ⟨_, _, .cutAfter hcut⟩
    · exact ⟨_, _, .cutLength hne hd⟩

theorem exists_beginsWith (limit : Nat) (bs : List UInt8) :
    ∃ toks cut, BeginsWith limit bs toks cut := by
  obtain ⟨ls, p, t, hsplit, hp, ht⟩ := scans_cases limit bs
  obtain ⟨rest, cut, hrest⟩ := exists_leftover ht
  exact ⟨_, cut, ls, p, t, rest, hsplit, hp, hrest, rfl⟩

theorem Value.beginsWith {v : Value} (h : v.encode.length ≤ limit) :
    BeginsWith limit v.encode v.tokens false := by
  refine ⟨v.lexemes, v.encode, [], [], (List.append_nil _).symm, ?_, .nil,
    (List.append_nil _).symm⟩
  exact scans_flatMap (v.valid_lexemes (Value.stringsWithin h))

end Bencode

namespace Tokenizer

open Bencode

/-- The calls of `next` report these tokens; the one after them fails, or leaves the data. -/
inductive Reports : Tokenizer → List (List UInt8) → Bool → Prop
  | fails {t u : Tokenizer} {err : Code} (h : t.next = some (err, u))
      (herr : err ≠ .TOKENIZER_OK) : Reports t [] false
  | leaves {t : Tokenizer} (h : t.next = none) : Reports t [] true
  | ok {t u : Tokenizer} {toks : List (List UInt8)} {cut : Bool}
      (h : t.next = some (.TOKENIZER_OK, u)) (hrest : Reports u toks cut) :
      Reports t (u.token :: toks) cut

variable {t u v : Tokenizer} {us : List Tokenizer} {toks : List (List UInt8)} {cut : Bool}

theorem Reports.congr (h : t.next = u.next) (hu : Reports u toks cut) : Reports t toks cut := by
  cases hu with
  | fails hnext herr => exact .fails (h.trans hnext) herr
  | leaves hnext => exact .leaves (h.trans hnext)
  | ok hnext hrest => exact .ok (h.trans hnext) hrest

theorem Leads.reports (h : Leads t us u) (hu : Reports u toks cut) :
    Reports t (us.map token ++ toks) cut := by
  induction h with
  | refl t => exact hu
  | skip hnext _ ih => exact (ih hu).congr hnext
  | ok hnext _ ih => exact .ok hnext (ih hu)

private theorem reports_malformed (h : t.next = malformed v) : Reports t [] false :=
  .fails h nofun

private theorem reports_leftover {text : List UInt8} (hs : t.statusFn = .tokenizeStart)
    (hcurrent : text = [] → t.current = t.data.length) (hrest : t.rest = text)
    (h : Leftover LONG_MAX text toks cut) : Reports t toks cut := by
  cases h with
  | nil =>
    have hnext := next_of_rest_nil hs (hcurrent rfl)
    split_ifs at hnext
    · exact reports_malformed hnext
    · exact .fails hnext nofun
  | start hspace hdigit hmark => exact reports_malformed (next_stray hs hrest hspace hdigit hmark)
  | strayInt negative hd hdigit hminus hend =>
    obtain ⟨v, w, x, h₁, hv, h₂, hw, hnext⟩ := next_of_strayInt hs hd hdigit hminus hend hrest
    rw [← hv, ← hw]
    exact .ok h₁ (.ok h₂ (reports_malformed hnext))
  | strayLength hne hd hdigit hcolon =>
    obtain ⟨v, hnext⟩ := next_strStart_stray hs hne hd hrest hdigit hcolon
    exact reports_malformed hnext
  | cutAfter hcut =>
    obtain ⟨v, hnext, hv, hnone⟩ := next_of_cutAfter hs (hrest ▸ hcut)
    rw [← hv]
    exact .ok hnext (.leaves hnone)
  | cutLength hne hd => exact .leaves (next_strStart_cut hs hne hd hrest)

theorem reports_of_beginsWith {data : List UInt8} (h : BeginsWith LONG_MAX data toks cut) :
    Reports (initTokenizer data) toks cut := by
  obtain ⟨ls, p, t, rest, hsplit, hp, hrest, rfl⟩ := h
  obtain ⟨us, u, hleads, htokens, hu⟩ := leads_scans (t := initTokenizer data) hp rfl hsplit
  have htext : u.rest = t := rest_of_current (t := initTokenizer data) hsplit hu.data hu.current
  rw [← htokens]
  apply hleads.reports
  apply reports_leftover hu.statusFn _ htext hrest
  rintro rfl
  rw [hu.current, hu.data]
  show 0 + p.length = data.length
  rw [hsplit]
  simp

end Tokenizer

end BitTorrentBits
