import BitTorrentBits.Bencode.Canonical

/-!
# Values inside a value

In the encoding of a value the lexemes from an opener to the closer that matches it are the
encoding of one of its containers.
-/

namespace BitTorrentBits.Bencode

/-- Wherever one of these lexemes opens a dictionary, the encoding of one follows. -/
def OpensDicts : List Lexeme → Prop
  | [] => True
  | l :: ls =>
    (l = .opener true → ∃ entries post, l :: ls = (Value.dict entries).lexemes ++ post) ∧
      OpensDicts ls

variable {ls ls' : List Lexeme} {l : Lexeme}

theorem OpensDicts.cons (hl : l ≠ .opener true) (h : OpensDicts ls) : OpensDicts (l :: ls) :=
  ⟨fun heq => (hl heq).elim, h⟩

theorem OpensDicts.of_append {pre : List Lexeme} (h : OpensDicts (pre ++ ls)) :
    OpensDicts ls := by
  induction pre with
  | nil => exact h
  | cons l pre ih => exact ih h.2

mutual

theorem Value.opensDicts (v : Value) {rest : List Lexeme} (h : OpensDicts rest) :
    OpensDicts (v.lexemes ++ rest) := by
  cases v with
  | int n => exact h.cons nofun
  | str s => exact h.cons nofun
  | list values =>
    have hrest := opensDicts_lexemesList values (h.cons (l := .closer) nofun)
    rw [Value.lexemes, List.cons_append, List.append_assoc]
    exact hrest.cons (by simp)
  | dict entries =>
    have hrest := opensDicts_lexemesEntries entries (h.cons (l := .closer) nofun)
    refine ⟨fun _ => ⟨entries, rest, rfl⟩, ?_⟩
    show OpensDicts (lexemesEntries entries ++ [.closer] ++ rest)
    rw [List.append_assoc]
    exact hrest

theorem opensDicts_lexemesList (values : List Value) {rest : List Lexeme} (h : OpensDicts rest) :
    OpensDicts (lexemesList values ++ rest) := by
  cases values with
  | nil => exact h
  | cons v values =>
    rw [lexemesList, List.append_assoc]
    exact v.opensDicts (opensDicts_lexemesList values h)

theorem opensDicts_lexemesEntries (entries : List (List UInt8 × Value)) {rest : List Lexeme}
    (h : OpensDicts rest) :
    OpensDicts (lexemesEntries entries ++ rest) := by
  cases entries with
  | nil => exact h
  | cons entry entries =>
    have hvalue := entry.2.opensDicts (opensDicts_lexemesEntries entries h)
    rw [lexemesEntries, List.cons_append, List.append_assoc]
    exact hvalue.cons nofun

end

theorem closersMatched_concat (n : Int) :
    ClosersMatched n (ls ++ [l]) ↔ ClosersMatched n ls ∧ (l = .closer → 0 < n + height ls) := by
  constructor
  · intro h
    refine ⟨fun p hp => h p (hp.trans (List.prefix_append ls [l])), ?_⟩
    rintro rfl
    exact h ls (List.prefix_refl _)
  · rintro ⟨hls, hl⟩ p hp
    rcases List.prefix_concat_iff.mp hp with heq | hp
    · obtain ⟨rfl, hcloser⟩ := List.append_inj' heq rfl
      exact hl (List.singleton_inj.mp hcloser).symm
    · exact hls p hp

theorem Balanced.unique {x x' : List Lexeme} (h : Balanced 0 ls) (h' : Balanced 0 ls')
    (heq : ls ++ .closer :: x = ls' ++ .closer :: x') : ls = ls' ∧ x = x' := by
  have hnot {ks ks' : List Lexeme} (hk : Balanced 0 ks) (hk' : Balanced 0 ks') :
      ¬ ks ++ [.closer] <+: ks' := by
    intro hprefix
    have hpos := hk'.1 ks hprefix
    rw [hk.2] at hpos
    contradiction
  rcases List.append_eq_append_iff.mp heq with ⟨mid, rfl, hmid⟩ | ⟨mid, rfl, hmid⟩
  · cases mid with
    | nil =>
      rw [List.append_nil]
      exact ⟨rfl, (List.cons.inj hmid).2⟩
    | cons l mid =>
      rw [← (List.cons.inj hmid).1] at h'
      refine (hnot h h' ⟨mid, ?_⟩).elim
      simp
  · cases mid with
    | nil =>
      rw [List.append_nil]
      exact ⟨rfl, (List.cons.inj hmid).2.symm⟩
    | cons l mid =>
      rw [← (List.cons.inj hmid).1] at h
      refine (hnot h' h ⟨mid, ?_⟩).elim
      simp

theorem OpensDicts.exists_dict {pre mid post : List Lexeme}
    (h : OpensDicts (pre ++ .opener true :: (mid ++ .closer :: post))) (hmid : Balanced 0 mid) :
    ∃ entries, mid = lexemesEntries entries := by
  obtain ⟨entries, post', heq⟩ := h.of_append.1 rfl
  rw [Value.lexemes, List.cons_append, List.append_assoc] at heq
  have hsplit := (List.cons.inj heq).2
  exact ⟨entries, (hmid.unique (balanced_lexemesEntries entries) hsplit).1⟩

end BitTorrentBits.Bencode
