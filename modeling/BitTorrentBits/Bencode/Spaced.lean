import BitTorrentBits.Bencode.Scanning

/-!
# Spaced lexemes

A text cut into lexemes, each with the white space before it. What is left at the end is white
space and then nothing, a byte out of place, or an integer or string cut short.
-/

namespace BitTorrentBits.Bencode

/-- A lexeme with the white space before it. -/
structure Spaced where
  blanks : List UInt8
  lexeme : Lexeme

namespace Spaced

def bytes (p : Spaced) : List UInt8 := p.blanks ++ p.lexeme.bytes

def Valid (limit : Nat) (p : Spaced) : Prop :=
  (∀ b ∈ p.blanks, isSpace b) ∧ p.lexeme.Valid limit

def tight (l : Lexeme) : Spaced := ⟨[], l⟩

@[simp] theorem tight_bytes (l : Lexeme) : (tight l).bytes = l.bytes := rfl

@[simp] theorem tight_lexeme (l : Lexeme) : (tight l).lexeme = l := rfl

theorem flatMap_tight (ls : List Lexeme) :
    (ls.map tight).flatMap bytes = ls.flatMap Lexeme.bytes := by
  simp [List.flatMap_map]

end Spaced

variable {limit : Nat}

/-- The text is made of these spaced lexemes, white space and `t`, which begins with no lexeme. -/
structure CutInto (limit : Nat) (bs : List UInt8) (ps : List Spaced) (blanks t : List UInt8) :
    Prop where
  eq : bs = ps.flatMap Spaced.bytes ++ (blanks ++ t)
  valid : ∀ p ∈ ps, p.Valid limit
  blanks : ∀ b ∈ blanks, isSpace b
  tail : t = [] ∨ Stray t ∨ Cut limit t

theorem cutInto_tight {ls : List Lexeme} (h : ∀ l ∈ ls, l.Valid limit) :
    CutInto limit (ls.flatMap Lexeme.bytes) (ls.map Spaced.tight) [] [] := by
  refine ⟨by simp [Spaced.flatMap_tight], ?_, by simp, Or.inl rfl⟩
  intro p hp
  obtain ⟨l, hl, rfl⟩ := List.mem_map.mp hp
  exact ⟨by simp [Spaced.tight], h l hl⟩

private theorem CutInto.space {b : UInt8} {bs : List UInt8} {ps : List Spaced}
    {blanks t : List UInt8} (hb : isSpace b) (h : CutInto limit bs ps blanks t) :
    ∃ ps' blanks', CutInto limit (b :: bs) ps' blanks' t := by
  cases ps with
  | nil =>
    refine ⟨[], b :: blanks, ?_, h.valid, ?_, h.tail⟩
    · simp [h.eq]
    · simpa [hb] using h.blanks
  | cons p ps =>
    obtain ⟨⟨hblanks, hl⟩, hps⟩ := List.forall_mem_cons.mp h.valid
    refine ⟨⟨b :: p.blanks, p.lexeme⟩ :: ps, blanks, ?_, ?_, h.blanks, h.tail⟩
    · simp [h.eq, Spaced.bytes]
    · rw [List.forall_mem_cons]
      exact ⟨⟨by simpa [hb] using hblanks, hl⟩, hps⟩

theorem exists_cutInto (limit : Nat) (bs : List UInt8) :
    ∃ ps blanks t, CutInto limit bs ps blanks t := by
  obtain ⟨ls, p, t, rfl, hscans, ht⟩ := scans_cases limit bs
  induction hscans with
  | nil => exact ⟨[], [], t, by simp, by simp, by simp, ht⟩
  | space hb _ ih =>
    obtain ⟨ps, blanks, t', h⟩ := ih
    obtain ⟨ps', blanks', h'⟩ := h.space hb
    exact ⟨ps', blanks', t', h'⟩
  | @cons l ls p hl _ ih =>
    obtain ⟨ps, blanks, t', h⟩ := ih
    refine ⟨Spaced.tight l :: ps, blanks, t', ?_, ?_, h.blanks, h.tail⟩
    · rw [List.append_assoc, h.eq]
      simp
    · rw [List.forall_mem_cons]
      exact ⟨⟨by simp [Spaced.tight], hl⟩, h.valid⟩

end BitTorrentBits.Bencode
