import BitTorrentBits.Bencode.Scanning

/-!
# Balanced lexemes

A text is well formed exactly when its lexemes are exact and its containers balanced: no
closer comes without an open container, and none is open at the end.
-/

namespace BitTorrentBits.Bencode

def height (ls : List Lexeme) : Int := (ls.map Lexeme.depth).sum

/-- With `n` containers open before them, every closer has a container to close. -/
def ClosersMatched (n : Int) (ls : List Lexeme) : Prop :=
  ∀ p, p ++ [.closer] <+: ls → 0 < n + height p

/-- With `n` containers open before them, these lexemes close exactly these `n`. -/
def Balanced (n : Int) (ls : List Lexeme) : Prop := ClosersMatched n ls ∧ n + height ls = 0

@[simp] theorem height_nil : height [] = 0 := rfl

@[simp] theorem height_cons (l : Lexeme) (ls : List Lexeme) :
    height (l :: ls) = l.depth + height ls := rfl

@[simp] theorem height_append (ls ls' : List Lexeme) :
    height (ls ++ ls') = height ls + height ls' := by
  simp [height]

theorem closersMatched_cons (n : Int) (l : Lexeme) (ls : List Lexeme) :
    ClosersMatched n (l :: ls) ↔ (l = .closer → 0 < n) ∧ ClosersMatched (n + l.depth) ls := by
  constructor
  · intro h
    constructor
    · rintro rfl
      have hfirst := h [] (by simp)
      simpa using hfirst
    · intro p hp
      have hlater := h (l :: p) (List.cons_prefix_cons.mpr ⟨rfl, hp⟩)
      rw [height_cons] at hlater
      omega
  · rintro ⟨hfirst, hlater⟩ p hp
    cases p with
    | nil =>
      have hl : Lexeme.closer = l := (List.cons_prefix_cons.mp hp).1
      have hpos := hfirst hl.symm
      rw [height_nil]
      omega
    | cons l' p =>
      obtain ⟨rfl, hp'⟩ := List.cons_prefix_cons.mp hp
      have hpos := hlater p hp'
      rw [height_cons]
      omega

theorem ClosersMatched.height_nonneg {n : Int} (hn : 0 ≤ n) {ls : List Lexeme}
    (h : ClosersMatched n ls) : 0 ≤ n + height ls := by
  induction ls generalizing n with
  | nil => simpa using hn
  | cons l ls ih =>
    obtain ⟨hfirst, hlater⟩ := (closersMatched_cons n l ls).mp h
    rw [height_cons, ← Int.add_assoc]
    apply ih _ hlater
    cases l with
    | closer =>
      have hpos := hfirst rfl
      simp only [Lexeme.depth]
      omega
    | int _ _ | str _ _ | opener _ =>
      simp only [Lexeme.depth]
      omega

theorem balanced_nil : Balanced 0 [] := by
  refine ⟨?_, rfl⟩
  intro p hp
  simp at hp

theorem balanced_cons (n : Int) (l : Lexeme) (ls : List Lexeme) :
    Balanced n (l :: ls) ↔ (l = .closer → 0 < n) ∧ Balanced (n + l.depth) ls := by
  rw [Balanced, Balanced, closersMatched_cons, height_cons, and_assoc, Int.add_assoc]

theorem Balanced.append {m n : Int} (hn : 0 ≤ n) {ls ls' : List Lexeme} (h : Balanced m ls)
    (h' : Balanced n ls') : Balanced (m + n) (ls ++ ls') := by
  induction ls generalizing m with
  | nil =>
    have hm : m = 0 := by simpa using h.2
    rw [hm, Int.zero_add]
    exact h'
  | cons l ls ih =>
    obtain ⟨hfirst, hlater⟩ := (balanced_cons m l ls).mp h
    rw [List.cons_append, balanced_cons]
    constructor
    · intro hl
      have hpos := hfirst hl
      omega
    · rw [Int.add_right_comm]
      exact ih hlater

theorem Balanced.container (dict : Bool) {ls ls' : List Lexeme} (h : Balanced 0 ls)
    (h' : Balanced 0 ls') : Balanced 0 (.opener dict :: (ls ++ .closer :: ls')) := by
  have hone : (0 : Int) ≤ 1 := by decide
  have hclose : Balanced 1 (.closer :: ls') :=
    (balanced_cons _ _ _).mpr ⟨fun _ => by decide, h'⟩
  exact (balanced_cons _ _ _).mpr ⟨nofun, h.append hone hclose⟩

private inductive Closes : Nat → List UInt8 → Prop
  | done {bs : List UInt8} (h : WellFormed bs) : Closes 0 bs
  | close {n : Nat} {elements bs : List UInt8} (he : WellFormed elements) (h : Closes n bs) :
      Closes (n + 1) (elements ++ endMark :: bs)

private theorem Closes.prepend {n : Nat} {item bs : List UInt8}
    (hitem : ∀ bs, WellFormed bs → WellFormed (item ++ bs)) (h : Closes n bs) :
    Closes n (item ++ bs) := by
  cases h with
  | done h => exact .done (hitem _ h)
  | close he h =>
    rw [← List.append_assoc]
    exact .close (hitem _ he) h

private theorem Closes.opener {n : Nat} (dict : Bool) {bs : List UInt8} (h : Closes (n + 1) bs) :
    Closes n ((if dict then dictMark else listMark) :: bs) := by
  cases h with
  | @close _ elements bs he h =>
    have hitem : ∀ bs, WellFormed bs →
        WellFormed (((if dict then dictMark else listMark) :: (elements ++ [endMark])) ++ bs) := by
      intro bs hbs
      simpa using WellFormed.container dict he hbs
    simpa using h.prepend hitem

private theorem Closes.lexeme {limit n : Nat} {l : Lexeme} {bs : List UInt8}
    (hl : l.Valid limit) (hexact : l.Exact) (hdepth : l.depth = 0) (h : Closes n bs) :
    Closes n (l.bytes ++ bs) := by
  apply h.prepend
  intro bs hbs
  cases l with
  | int negative digits => simpa [Lexeme.bytes] using WellFormed.int negative hexact hl hbs
  | str digits payload =>
    obtain ⟨hne, hd, -⟩ := hl
    simpa [Lexeme.bytes] using WellFormed.str hne hd hexact hbs
  | opener dict => cases hdepth
  | closer => cases hdepth

private theorem closes_of_balanced {limit n : Nat} {ls : List Lexeme} {bs : List UInt8}
    (h : Scans limit ls bs) (hexact : ∀ l ∈ ls, l.Exact) (hb : Balanced n ls) : Closes n bs := by
  induction h generalizing n with
  | nil =>
    have hn : n = 0 := by simpa using hb.2
    subst hn
    exact .done .nil
  | @space b ls bs hspace _ ih =>
    change Closes n ([b] ++ bs)
    exact (ih hexact hb).prepend fun _ => .space hspace
  | @cons l ls bs hl _ ih =>
    obtain ⟨hfirst, hlater⟩ := (balanced_cons n l ls).mp hb
    have hls : ∀ l ∈ ls, l.Exact := fun l hl => hexact l (List.mem_cons_of_mem _ hl)
    cases l with
    | int _ _ | str _ _ =>
      have hrest : Balanced n ls := by simpa [Lexeme.depth] using hlater
      exact (ih hls hrest).lexeme hl (hexact _ List.mem_cons_self) rfl
    | opener dict => exact (ih hls (n := n + 1) hlater).opener dict
    | closer =>
      have hpos := hfirst rfl
      obtain ⟨m, rfl⟩ : ∃ m, n = m + 1 := ⟨n - 1, by omega⟩
      have hm : Balanced (m : Int) ls := by
        have hsub : ((m + 1 : Nat) : Int) + Lexeme.closer.depth = m := by
          simp only [Lexeme.depth]
          omega
        rwa [hsub] at hlater
      exact .close .nil (ih hls hm)

theorem wellFormed_of_balanced {limit : Nat} {ls : List Lexeme} {bs : List UInt8}
    (h : Scans limit ls bs) (hexact : ∀ l ∈ ls, l.Exact) (hb : Balanced 0 ls) :
    WellFormed bs := by
  cases closes_of_balanced (n := 0) h hexact hb with
  | done h => exact h

theorem WellFormed.exists_balanced {limit : Nat} {bs : List UInt8} (h : WellFormed bs)
    (hlen : bs.length ≤ limit) :
    ∃ ls, Scans limit ls bs ∧ (∀ l ∈ ls, l.Exact) ∧ Balanced 0 ls := by
  induction h with
  | nil => exact ⟨[], .nil, by simp, balanced_nil⟩
  | space hb _ ih =>
    rw [List.length_cons] at hlen
    obtain ⟨ls, hs, hexact, hbal⟩ := ih (by omega)
    exact ⟨ls, .space hb hs, hexact, hbal⟩
  | @int negative digits bs hne hd _ ih =>
    simp only [List.length_cons, List.length_append] at hlen
    obtain ⟨ls, hs, hexact, hbal⟩ := ih (by omega)
    refine ⟨.int negative digits :: ls, ?_, ?_, ?_⟩
    · have hscan := Scans.cons (l := .int negative digits) hd hs
      simpa [Lexeme.bytes] using hscan
    · exact List.forall_mem_cons.mpr ⟨hne, hexact⟩
    · exact (balanced_cons _ _ _).mpr ⟨by simp, hbal⟩
  | @str digits payload bs hne hd hpayload _ ih =>
    simp only [List.length_cons, List.length_append] at hlen
    obtain ⟨ls, hs, hexact, hbal⟩ := ih (by omega)
    refine ⟨.str digits payload :: ls, ?_, ?_, ?_⟩
    · have hscan := Scans.cons (l := .str digits payload) ⟨hne, hd, by omega⟩ hs
      simpa [Lexeme.bytes] using hscan
    · exact List.forall_mem_cons.mpr ⟨hpayload, hexact⟩
    · exact (balanced_cons _ _ _).mpr ⟨by simp, hbal⟩
  | @container dict elements bs _ _ ihe ih =>
    simp only [List.length_cons, List.length_append] at hlen
    obtain ⟨ls, hs, hexact, hbal⟩ := ihe (by omega)
    obtain ⟨ls', hs', hexact', hbal'⟩ := ih (by omega)
    refine ⟨.opener dict :: (ls ++ .closer :: ls'), ?_, ?_, ?_⟩
    · have hscan := Scans.cons (l := .opener dict) trivial
        (hs.append (Scans.cons (l := .closer) trivial hs'))
      simpa [Lexeme.bytes] using hscan
    · rw [List.forall_mem_cons, List.forall_mem_append, List.forall_mem_cons]
      exact ⟨trivial, hexact, trivial, hexact'⟩
    · exact hbal.container dict hbal'

end BitTorrentBits.Bencode
