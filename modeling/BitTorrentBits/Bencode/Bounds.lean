import BitTorrentBits.Bencode.CallsLeft

/-!
# Reads of the tokenizer

A tokenizer reads past its data exactly when the data end inside an integer or a string.
-/

namespace BitTorrentBits.Tokenizer

open Bencode

/-- Every call reads inside the data only, and leaves the cursor inside or at their end. -/
def StaysInside (data : List UInt8) : Prop :=
  ∀ k, ∃ c u, nextAfter k (initTokenizer data) = some (c, u) ∧ u.current ≤ data.length

/-- Past some lexemes, the data end inside an integer or a string. -/
def EndsCut (data : List UInt8) : Prop :=
  ∃ ls p s, data = p ++ s ∧ Scans LONG_MAX ls p ∧ Cut LONG_MAX s

variable {t u : Tokenizer} {c : Code}

theorem next_data (h : t.next = some (c, u)) : u.data = t.data := by
  cases next_result h with
  | ok hdata _ _ => exact hdata
  | fails hdata _ _ _ => exact hdata

private theorem next_inside (h : t.next = some (c, u)) (hin : t.current ≤ t.data.length) :
    u.current ≤ t.data.length := by
  cases next_result h with
  | ok _ hcurrent _ => exact hcurrent
  | fails _ hcurrent _ _ => exact hcurrent hin

private theorem nextAfter_inside {k : Nat} (h : nextAfter k t = some (c, u))
    (hin : t.current ≤ t.data.length) : u.current ≤ t.data.length := by
  induction k generalizing t with
  | zero => exact next_inside h hin
  | succ k ih =>
    obtain ⟨⟨c', v⟩, hv, hrest⟩ := Option.bind_eq_some_iff.mp h
    have hinside := next_inside hv hin
    rw [← next_data hv] at hinside ⊢
    exact ih hrest hinside

theorem EndsIn.exists_result {data : List UInt8} {toks : List (List UInt8)} {v : Tokenizer}
    (h : EndsIn data toks (some (c, v))) (k : Nat) :
    ∃ c' u, nextAfter k (initTokenizer data) = some (c', u) := by
  obtain ⟨us, -, hok, hend⟩ := h
  by_cases hk : k < us.length
  · exact ⟨_, _, hok k hk⟩
  · have hlast := hend (k - us.length)
    rw [Nat.add_sub_cancel' (Nat.le_of_not_lt hk)] at hlast
    exact ⟨_, _, hlast⟩

/-- The tokenizer stays inside its data exactly when the data do not end inside an integer
or a string. -/
theorem staysInside_iff_not_endsCut (data : List UInt8) : StaysInside data ↔ ¬ EndsCut data := by
  constructor
  · rintro h ⟨ls, p, s, hsplit, hp, hs⟩
    obtain ⟨toks, us, -, -, hend⟩ := endsIn_none_of_cut hsplit hp hs
    obtain ⟨c, u, hu, -⟩ := h (us.length + 0)
    rw [hend 0] at hu
    contradiction
  · intro h k
    have hresult : ∃ c u, nextAfter k (initTokenizer data) = some (c, u) := by
      obtain ⟨ls, p, s, hsplit, hp, hcase⟩ := scans_cases LONG_MAX data
      rcases hcase with rfl | hstray | hcut
      · rw [List.append_nil] at hsplit
        subst hsplit
        by_cases hh : height ls ≤ 0
        · obtain ⟨v, hv⟩ := endsIn_end hp hh
          exact hv.exists_result k
        · obtain ⟨toks, v, hv⟩ := endsIn_malformed_of_open hp (Int.lt_of_not_ge hh)
          exact hv.exists_result k
      · obtain ⟨toks, v, hv⟩ := endsIn_malformed_of_stray hsplit hp hstray
        exact hv.exists_result k
      · exact (h ⟨ls, p, s, hsplit, hp, hcut⟩).elim
    obtain ⟨c, u, hu⟩ := hresult
    exact ⟨c, u, hu, nextAfter_inside hu (Nat.zero_le _)⟩

/-- After an `i` alone the integer scan reads past the data. -/
theorem not_staysInside_int : ¬ ∀ data, StaysInside data := by
  intro h
  obtain ⟨c, u, hu, -⟩ := h [intMark] 1
  contradiction

end BitTorrentBits.Tokenizer
