import BitTorrentBits.Bencode.Bounds

/-!
# What the tokenizer accepts

Which texts end in `TOKENIZER_END`, which in `TOKENIZER_MALFORMED_STRING`, and how this
compares with the well-formed ones. The tokenizer passes an integer without digits and a
closer without a container, and it gives no verdict on data that are cut short.
-/

namespace BitTorrentBits.Tokenizer

open Bencode

/-- Every call succeeds until one returns `TOKENIZER_END`. -/
def Accepts (data : List UInt8) : Prop :=
  ∃ n, (∀ k < n, ∃ u, nextAfter k (initTokenizer data) = some (.TOKENIZER_OK, u)) ∧
    ∃ u, nextAfter n (initTokenizer data) = some (.TOKENIZER_END, u)

def Rejects (data : List UInt8) : Prop :=
  ∃ k u, nextAfter k (initTokenizer data) = some (.TOKENIZER_MALFORMED_STRING, u)

/-- What is accepted is well formed, and everything else is rejected. -/
def Decides (data : List UInt8) : Prop :=
  (Accepts data → WellFormed data) ∧ (¬ WellFormed data → Rejects data)

/-- Data that are lexemes up to their end, and close every container, have a digit in every
integer and a container for every closer. -/
def LexemesFit (data : List UInt8) : Prop :=
  ∀ ls, Scans LONG_MAX ls data → height ls ≤ 0 →
    (∀ negative, .int negative [] ∉ ls) ∧ ClosersMatched 0 ls

variable {data : List UInt8} {ls : List Lexeme} {toks : List (List UInt8)} {v : Tokenizer}

private theorem EndsIn.code_unique {c c' : Code} {toks' : List (List UInt8)} {v' : Tokenizer}
    (h : EndsIn data toks (some (c, v))) (h' : EndsIn data toks' (some (c', v')))
    (hc : c ≠ .TOKENIZER_OK) (hc' : c' ≠ .TOKENIZER_OK) : c = c' := by
  have hboth := h.unique h' (fun u hu => by cases hu; exact hc rfl)
    (fun u hu => by cases hu; exact hc' rfl)
  cases hboth.2
  rfl

private theorem EndsIn.ne_none {c : Code} {toks' : List (List UInt8)}
    (h : EndsIn data toks (some (c, v))) (hc : c ≠ .TOKENIZER_OK) : ¬ EndsIn data toks' none := by
  intro h'
  have hboth := h.unique h' (fun u hu => by cases hu; exact hc rfl) nofun
  cases hboth.2

private theorem accepts_of_endsIn (h : EndsIn data toks (some (.TOKENIZER_END, v))) :
    Accepts data := by
  obtain ⟨us, -, hok, hend⟩ := h
  exact ⟨us.length, fun k hk => ⟨_, hok k hk⟩, v, hend 0⟩

private theorem rejects_of_endsIn
    (h : EndsIn data toks (some (.TOKENIZER_MALFORMED_STRING, v))) : Rejects data := by
  obtain ⟨us, -, -, hend⟩ := h
  exact ⟨_, v, hend 0⟩

private theorem EndsIn.code_cases {r : Option (Code × Tokenizer)} (h : EndsIn data toks r)
    {k : Nat} {c : Code} {u : Tokenizer} (hk : nextAfter k (initTokenizer data) = some (c, u)) :
    c = .TOKENIZER_OK ∨ r = some (c, u) := by
  obtain ⟨us, -, hok, hend⟩ := h
  by_cases hlt : k < us.length
  · left
    rw [hok k hlt] at hk
    cases hk
    rfl
  · right
    have hlast := hend (k - us.length)
    rw [Nat.add_sub_cancel' (Nat.le_of_not_lt hlt), hk] at hlast
    exact hlast.symm

private theorem not_rejects {r : Option (Code × Tokenizer)} (h : EndsIn data toks r)
    (hr : ∀ u, r ≠ some (.TOKENIZER_MALFORMED_STRING, u)) : ¬ Rejects data := by
  rintro ⟨k, u, hk⟩
  rcases h.code_cases hk with hc | hc
  · contradiction
  · exact hr u hc

private theorem not_accepts {r : Option (Code × Tokenizer)} (h : EndsIn data toks r)
    (hr : ∀ u, r ≠ some (.TOKENIZER_END, u)) : ¬ Accepts data := by
  rintro ⟨k, -, u, hk⟩
  rcases h.code_cases hk with hc | hc
  · contradiction
  · exact hr u hc

private theorem exact_of_scans (h : Scans LONG_MAX ls data) (hlen : data.length < 2 ^ 63)
    (hdigits : ∀ negative, .int negative [] ∉ ls) : ∀ l ∈ ls, l.Exact := by
  induction h with
  | nil => exact fun _ hl => nomatch hl
  | space hb _ ih =>
    rw [List.length_cons] at hlen
    exact ih (by omega) hdigits
  | @cons l ls bs hl _ ih =>
    rw [List.length_append] at hlen
    rw [List.forall_mem_cons]
    refine ⟨?_, ih (by omega) fun negative hmem => hdigits negative (List.mem_cons_of_mem _ hmem)⟩
    cases l with
    | int negative digits =>
      intro hnil
      exact hdigits negative (hnil ▸ List.mem_cons_self)
    | str digits payload =>
      have hpayload := hl.2.2
      simp only [Lexeme.bytes, List.length_append, List.length_cons] at hlen
      unfold LONG_MAX at hpayload
      change payload.length = decimalValue digits
      omega
    | opener dict => trivial
    | closer => trivial

private theorem wellFormed_iff (h : Scans LONG_MAX ls data) (hlen : data.length < 2 ^ 63)
    (hh : height ls ≤ 0) :
    WellFormed data ↔ (∀ negative, .int negative [] ∉ ls) ∧ ClosersMatched 0 ls := by
  constructor
  · intro hw
    have hle : data.length ≤ LONG_MAX := Nat.le_pred_of_lt hlen
    obtain ⟨ls', hs, hexact, hbal⟩ := hw.exists_balanced hle
    have hls : ls' = ls := hs.unique h
    subst hls
    exact ⟨fun negative hmem => hexact _ hmem rfl, hbal.1⟩
  · rintro ⟨hdigits, hmatched⟩
    refine wellFormed_of_balanced h (exact_of_scans h hlen hdigits) ⟨hmatched, ?_⟩
    have hnonneg := hmatched.height_nonneg (Int.le_refl 0)
    omega

private theorem decides_of_rejects (h : EndsIn data toks (some (.TOKENIZER_MALFORMED_STRING, v))) :
    Decides data :=
  ⟨fun ha => (not_accepts h (fun u hu => by cases hu) ha).elim, fun _ => rejects_of_endsIn h⟩

private theorem not_endsCut {c : Code} (h : EndsIn data toks (some (c, v)))
    (hc : c ≠ .TOKENIZER_OK) : ¬ EndsCut data := by
  rintro ⟨ls, p, s, hsplit, hp, hs⟩
  obtain ⟨toks', hnone⟩ := endsIn_none_of_cut hsplit hp hs
  exact h.ne_none hc hnone

/-- The tokenizer decides well-formedness of the data exactly when these do not end inside an
integer or a string, and their lexemes fit. -/
theorem decides_iff (data : List UInt8) (hlen : data.length < 2 ^ 63) :
    Decides data ↔ ¬ EndsCut data ∧ LexemesFit data := by
  obtain ⟨ls, p, s, hsplit, hp, hcase⟩ := scans_cases LONG_MAX data
  rcases hcase with rfl | hstray | hcut
  · rw [List.append_nil] at hsplit
    subst hsplit
    by_cases hh : height ls ≤ 0
    · obtain ⟨v, hv⟩ := endsIn_end hp hh
      have hdecides : Decides data ↔ WellFormed data := by
        constructor
        · exact fun h => h.1 (accepts_of_endsIn hv)
        · exact fun h => ⟨fun _ => h, fun hnot => (hnot h).elim⟩
      rw [hdecides, wellFormed_iff hp hlen hh]
      constructor
      · intro h
        refine ⟨not_endsCut hv nofun, ?_⟩
        intro ls' hs _
        rwa [hs.unique hp]
      · intro h
        exact h.2 ls hp hh
    · obtain ⟨toks, v, hv⟩ := endsIn_malformed_of_open hp (Int.lt_of_not_ge hh)
      apply iff_of_true (decides_of_rejects hv)
      refine ⟨not_endsCut hv nofun, ?_⟩
      intro ls' hs hh'
      rw [hs.unique hp] at hh'
      exact (hh hh').elim
  · obtain ⟨toks, v, hv⟩ := endsIn_malformed_of_stray hsplit hp hstray
    apply iff_of_true (decides_of_rejects hv)
    refine ⟨not_endsCut hv nofun, ?_⟩
    intro ls' hs hh'
    obtain ⟨v', hv'⟩ := endsIn_end hs hh'
    exact absurd (hv.code_unique hv' nofun nofun) nofun
  · obtain ⟨toks, hnone⟩ := endsIn_none_of_cut hsplit hp hcut
    apply iff_of_false
    · intro h
      have hnot : ¬ WellFormed data := by
        intro hw
        obtain ⟨ls', hs, -, hbal⟩ := hw.exists_balanced (Nat.le_pred_of_lt hlen)
        have hh : height ls' ≤ 0 := by
          have hzero := hbal.2
          omega
        obtain ⟨v, hv⟩ := endsIn_end hs hh
        exact hv.ne_none nofun hnone
      exact not_rejects hnone nofun (h.2 hnot)
    · exact fun h => h.1 ⟨ls, p, s, hsplit, hp, hcut⟩

/-- A closer alone is accepted. -/
theorem not_decides_closer : ¬ ∀ data : List UInt8, data.length < 2 ^ 63 → Decides data := by
  intro h
  have haccepts : Accepts [endMark] := by
    refine ⟨1, ?_, _, rfl⟩
    intro k hk
    have hzero : k = 0 := by omega
    subst hzero
    exact ⟨_, rfl⟩
  have hwell := (h [endMark] (by decide)).1 haccepts
  obtain ⟨ls, hs, -, hbal⟩ := hwell.exists_balanced (Nat.le_refl 1)
  have hscan : Scans 1 [.closer] [endMark] := .cons (l := .closer) trivial .nil
  rw [hs.unique hscan] at hbal
  exact absurd (((balanced_cons _ _ _).mp hbal).1 rfl) (by decide)

theorem decides_iff_int : Decides [intMark, 48, endMark] := by
  have hdigit : ∀ b ∈ ([48] : List UInt8), isDigit b := by
    intro b hb
    rw [List.mem_singleton.mp hb]
    decide
  have hscan : Scans LONG_MAX [.int false [48]] [intMark, 48, endMark] :=
    .cons (l := .int false [48]) hdigit .nil
  obtain ⟨v, hv⟩ := endsIn_end hscan (by decide)
  apply (decides_iff [intMark, 48, endMark] (by decide)).mpr
  refine ⟨not_endsCut hv nofun, ?_⟩
  intro ls hs _
  rw [hs.unique hscan]
  constructor
  · intro negative hmem
    have hint := List.mem_singleton.mp hmem
    cases hint
  · exact (closersMatched_cons _ _ _).mpr ⟨nofun, balanced_nil.1⟩

end BitTorrentBits.Tokenizer
