import BitTorrentBits.Bencode.Canonical
import BitTorrentBits.Torrent.ParseTurns
import BitTorrentBits.Torrent.Reader

/-!
# Places in a run of the parser

Where the pointers of the parser stand between two lexemes, and how its calls of `next` move
them on.
-/

namespace BitTorrentBits.ParseState

open Bencode Tokenizer

/-- The pointers stand where a flat reading has the info dictionary. -/
def InfoAt (s : ParseState) (depth : Int) : InfoRead → Prop
  | .unseen => s.infoStart = none ∧ s.infoEnd = none
  | .inside d bytes =>
    s.infoEnd = none ∧ s.infoStartStackValue = d ∧ d < depth ∧
      ∃ before, s.infoStart = some before.length ∧ s.tk.data = before ++ (bytes ++ s.tk.rest)
  | .closed => s.infoEnd ≠ none

/-- Before a lexeme, with the bytes `bs` left and a flat reading at `info` and `depth`. -/
structure Reads (s : ParseState) (info : InfoRead) (depth : Int) (bs : List UInt8) : Prop where
  statusFn : s.tk.statusFn = .tokenizeStart
  size : s.tk.data.length ≤ LONG_MAX
  current : s.tk.current ≤ s.tk.data.length
  listDictStack : s.tk.listDictStack = depth
  rest : s.tk.rest = bs
  info : InfoAt s depth info

variable (sha1 : List UInt8 → List UInt8) {s s' : ParseState} {info : InfoRead} {depth : Int}
  {bs : List UInt8} {l : Lexeme} {u v : Tokenizer}

theorem InfoAt.closing_eq_none (h : InfoAt s depth info) {d : Int} (hd : depth ≤ d) :
    info.closing d = none := by
  cases info with
  | inside d' bytes =>
    obtain ⟨-, -, hlt, -⟩ := h
    rw [InfoRead.closing, if_neg (by omega)]
  | unseen => rfl
  | closed => rfl

theorem InfoAt.atInfoEnd_eq_false (h : InfoAt s depth info)
    (hclosing : info.closing v.listDictStack = none) : atInfoEnd { s with tk := v } = false := by
  cases info with
  | unseen => simp [atInfoEnd, h.1]
  | inside d bytes =>
    obtain ⟨-, hstack, -⟩ := h
    have hne : d ≠ v.listDictStack := by
      intro heq
      rw [InfoRead.closing, if_pos heq] at hclosing
      contradiction
    simp [atInfoEnd, hstack, hne]
  | closed =>
    obtain ⟨stop, hstop⟩ := Option.ne_none_iff_exists'.mp h
    simp [atInfoEnd, hstop]

theorem InfoAt.atInfoEnd_eq_true (h : InfoAt s depth info) {bytes : List UInt8}
    (hclosing : info.closing v.listDictStack = some bytes) (hv : v.token = [endMark]) :
    atInfoEnd { s with tk := v } = true := by
  obtain ⟨seen, rfl, -⟩ := InfoRead.closing_eq_some hclosing
  obtain ⟨hend, hstack, -, before, hstart, -⟩ := h
  have hascii : v.token = ascii "e" := hv
  simp [atInfoEnd, hstart, hend, hstack, hascii]

theorem InfoAt.read (h : InfoAt s depth info) {bytes : List UInt8} {d : Int}
    (hdata : u.data = s.tk.data) (hrest : s.tk.rest = bytes ++ u.rest)
    (hclosing : info.closing (depth + d) = none) (hd : -1 ≤ d) :
    InfoAt { s with tk := u } (depth + d) (info.read bytes) := by
  cases info with
  | unseen => exact h
  | closed => exact h
  | inside d' seen =>
    obtain ⟨hend, hstack, hlt, before, hstart, hsplit⟩ := h
    have hne : d' ≠ depth + d := by
      intro heq
      rw [InfoRead.closing, if_pos heq] at hclosing
      contradiction
    refine ⟨hend, hstack, by omega, before, hstart, ?_⟩
    change u.data = _
    rw [hdata, hsplit, hrest, List.append_assoc]

theorem Reads.advance {bytes : List UInt8} (h : Reads s info depth (bytes ++ bs)) {d : Int}
    (hu : StartsAfter s.tk u bytes.length d) (hclosing : info.closing (depth + d) = none)
    (hd : -1 ≤ d) : Reads { s with tk := u } (info.read bytes) (depth + d) bs := by
  have hrest : u.rest = bs := rest_of_current h.rest hu.data hu.current
  have hlen := congrArg List.length h.rest
  rw [Tokenizer.rest, List.length_drop, List.length_append] at hlen
  have hle := h.current
  refine ⟨hu.statusFn, hu.data ▸ h.size, ?_, ?_, hrest, ?_⟩
  · change u.current ≤ u.data.length
    rw [hu.current, hu.data]
    omega
  · change u.listDictStack = _
    rw [hu.listDictStack, h.listDictStack]
  · exact h.info.read hu.data (by rw [hrest, h.rest]) hclosing hd

theorem Reads.store (h : Reads s info depth bs) (tr : TorrentFile) :
    Reads { s with tr := tr } info depth bs := by
  refine ⟨h.statusFn, h.size, h.current, h.listDictStack, h.rest, ?_⟩
  have hinfo := h.info
  cases info <;> exact hinfo

/-- At most `2 * n` turns lead from `s` to `s'`, which has a turn left. -/
def Loops (sha1 : List UInt8 → List UInt8) (s : ParseState) (n : Nat) (s' : ParseState) : Prop :=
  ∃ k ≤ 2 * n, ∀ fuel, parseLoop sha1 (k + (fuel + 1)) s = parseLoop sha1 (fuel + 1) s'

private theorem tokens_length_le (l : Lexeme) : l.tokens.length ≤ 2 * l.bytes.length := by
  cases l <;> simp [Lexeme.tokens, Lexeme.bytes] <;> omega

theorem named_signed (negative : Bool) {digits : List UInt8}
    (hd : ∀ b ∈ digits, isDigit b) : Key.named (signed negative digits) = none := by
  cases hkey : Key.named (signed negative digits) with
  | none => rfl
  | some key =>
    have hchar : ∀ b ∈ key.text, isDigit b ∨ b = minus := by
      rw [← Key.text_of_named hkey]
      intro b hb
      cases negative with
      | true =>
        rcases List.mem_cons.mp hb with rfl | hb
        · exact Or.inr rfl
        · exact Or.inl (hd b hb)
      | false => exact Or.inl (hd b hb)
    revert hchar
    rcases key with (_ | _ | _ | _) | (_ | _) | _ <;> decide

theorem named_tokens (hl : l.Valid LONG_MAX)
    (hkey : ∀ digits payload, l = .str digits payload → Key.named payload = none) :
    ∀ token ∈ l.tokens, Key.named token = none := by
  cases l with
  | int negative digits =>
    simp only [Lexeme.tokens, List.forall_mem_cons, List.not_mem_nil, false_implies, implies_true,
      and_true]
    exact ⟨Key.named_byte _, named_signed negative hl, Key.named_byte _⟩
  | str digits payload =>
    simp only [Lexeme.tokens, List.forall_mem_cons, List.not_mem_nil, false_implies, implies_true,
      and_true]
    exact ⟨Key.named_byte _, hkey digits payload rfl⟩
  | opener dict =>
    rw [Lexeme.tokens, List.forall_mem_singleton]
    exact Key.named_byte _
  | closer =>
    rw [Lexeme.tokens, List.forall_mem_singleton]
    exact Key.named_byte _

theorem loops_plain (h : Reads s info depth (l.bytes ++ bs)) (hl : l.Valid LONG_MAX)
    (hclosing : info.closing (depth + l.depth) = none)
    (hkey : ∀ digits payload, l = .str digits payload → Key.named payload = none) :
    ∃ u, Loops sha1 s l.bytes.length { s with tk := u } ∧
      Reads { s with tk := u } (info.read l.bytes) (depth + l.depth) bs := by
  obtain ⟨us, u, hleads, htokens, hdepth, -, hu⟩ := leads_lexeme h.statusFn hl h.rest
  have hagain : ∀ v ∈ us,
      parseToken sha1 { s with tk := v } = some (.again { s with tk := v }) := by
    intro v hv
    have hnamed : Key.named v.token = none := by
      apply named_tokens hl hkey
      rw [← htokens]
      exact List.mem_map_of_mem hv
    have hend : atInfoEnd { s with tk := v } = false := by
      apply h.info.atInfoEnd_eq_false
      rw [hdepth v hv, h.listDictStack]
      exact hclosing
    exact parseToken_again sha1 hnamed hend
  refine ⟨u, ⟨us.length, ?_, fun fuel => parseLoop_leads hleads hagain (fuel + 1)⟩, ?_⟩
  · rw [← List.length_map (f := Tokenizer.token), htokens]
    exact tokens_length_le l
  · apply h.advance hu hclosing
    cases l <;> simp [Lexeme.depth]

theorem exists_key {digits payload : List UInt8}
    (h : Reads s info depth ((Lexeme.str digits payload).bytes ++ bs))
    (hl : (Lexeme.str digits payload).Valid LONG_MAX) :
    ∃ v u, (∀ fuel, parseLoop sha1 (fuel + 1) s = parseLoop sha1 fuel { s with tk := v }) ∧
      v.next = some (.TOKENIZER_OK, u) ∧ u.token = payload ∧
      Reads { s with tk := u } (info.read (Lexeme.str digits payload).bytes) depth bs := by
  obtain ⟨v, u, hnext, hv, hnext', hu, hstarts⟩ := next_str h.statusFn hl h.rest
  have hagain : parseToken sha1 { s with tk := v } = some (.again { s with tk := v }) := by
    have hnamed : Key.named v.token = none := by
      rw [hv]
      exact Key.named_byte _
    have hend : atInfoEnd { s with tk := v } = false := by
      have hne : v.token ≠ ascii "e" := by
        rw [hv]
        decide
      simp [atInfoEnd, hne]
    exact parseToken_again sha1 hnamed hend
  have hreads := h.advance hstarts (h.info.closing_eq_none (by omega)) (by decide)
  rw [Int.add_zero] at hreads
  exact ⟨v, u, parseLoop_again hnext hagain, hnext', hu, hreads⟩

theorem Reads.enter {bytes : List UInt8} (h : Reads s info depth (bytes ++ bs))
    (hu : StartsAfter s.tk u bytes.length 1) :
    Reads { s with
        tk := u
        infoStart := some s.tk.current
        infoStartStackValue := s.tk.listDictStack }
      ((info.start depth).read bytes) (depth + 1) bs := by
  have hrest : u.rest = bs := rest_of_current h.rest hu.data hu.current
  have hlen := congrArg List.length h.rest
  rw [Tokenizer.rest, List.length_drop, List.length_append] at hlen
  have hcurrent := h.current
  have hsplit : u.data = s.tk.data.take s.tk.current ++ (bytes ++ u.rest) := by
    rw [hu.data, hrest, ← h.rest, Tokenizer.rest, List.take_append_drop]
  have hbefore : (s.tk.data.take s.tk.current).length = s.tk.current :=
    List.length_take_of_le h.current
  refine ⟨hu.statusFn, hu.data ▸ h.size, ?_, ?_, hrest, ?_⟩
  · change u.current ≤ u.data.length
    rw [hu.current, hu.data]
    omega
  · change u.listDictStack = _
    rw [hu.listDictStack, h.listDictStack]
  · have hinside : s.infoEnd = none → InfoAt { s with
          tk := u
          infoStart := some s.tk.current
          infoStartStackValue := s.tk.listDictStack } (depth + 1) (.inside depth bytes) := by
      intro hend
      exact ⟨hend, h.listDictStack, by omega, _, congrArg some hbefore.symm, hsplit⟩
    have hinfo := h.info
    cases info with
    | unseen => exact hinside hinfo.2
    | inside d bytes => exact hinside hinfo.1
    | closed => exact hinfo

theorem exists_infoEnd {bytes : List UInt8}
    (h : Reads s info depth (Lexeme.closer.bytes ++ bs))
    (hclosing : info.closing (depth - 1) = some bytes) :
    ∃ u, s.tk.next = some (.TOKENIZER_OK, u) ∧ u.token = [endMark] ∧
      atInfoEnd { s with tk := u } = true ∧
      (∃ before, s.infoStart = some before.length ∧ u.data = before ++ (bytes ++ bs) ∧
        u.current = before.length + bytes.length) ∧
      ∀ stop tr, Reads { s with tk := u, tr := tr, infoEnd := some stop } .closed (depth - 1) bs := by
  let u : Tokenizer := { s.tk with
    token := [endMark]
    current := s.tk.current + 1
    listDictStack := s.tk.listDictStack - 1
    statusFn := .tokenizeStart }
  have hnext : s.tk.next = some (.TOKENIZER_OK, u) := next_closer h.statusFn h.rest
  have hrest : u.rest = bs := rest_of_current (p := [endMark]) h.rest rfl rfl
  have hdepth : u.listDictStack = depth - 1 := congrArg (· - 1) h.listDictStack
  have hlen := congrArg List.length h.rest
  rw [Tokenizer.rest, List.length_drop, List.length_append] at hlen
  have hclose : Lexeme.closer.bytes.length = 1 := rfl
  refine ⟨u, hnext, rfl, h.info.atInfoEnd_eq_true (hdepth ▸ hclosing) rfl, ?_, ?_⟩
  · obtain ⟨seen, rfl, rfl⟩ := InfoRead.closing_eq_some hclosing
    obtain ⟨-, -, -, before, hstart, hsplit⟩ := h.info
    have hlen' := congrArg List.length hsplit
    rw [List.length_append, List.length_append, Tokenizer.rest, List.length_drop] at hlen'
    refine ⟨before, hstart, ?_, ?_⟩
    · show s.tk.data = _
      rw [hsplit, h.rest, List.append_assoc]
      rfl
    · show s.tk.current + 1 = _
      rw [List.length_append, List.length_singleton]
      omega
  · intro stop tr
    refine ⟨rfl, h.size, ?_, hdepth, hrest, Option.some_ne_none stop⟩
    show s.tk.current + 1 ≤ s.tk.data.length
    omega

theorem Reads.skip {blanks : List UInt8} (h : Reads s info depth (blanks ++ bs))
    (hblanks : ∀ b ∈ blanks, isSpace b) :
    ∃ t, s.tk.next = t.next ∧ StartsAfter s.tk t blanks.length 0 ∧
      Reads { s with tk := t } (info.read blanks) depth bs := by
  obtain ⟨t, hnext, ht⟩ := exists_skip h.statusFn hblanks h.rest
  have hreads := h.advance ht (h.info.closing_eq_none (by omega)) (by decide)
  rw [Int.add_zero] at hreads
  exact ⟨t, hnext, ht, hreads⟩

theorem Reads.current_eq (h : Reads s info depth []) : s.tk.current = s.tk.data.length := by
  have hle : s.tk.data.length ≤ s.tk.current := List.drop_eq_nil_iff.mp h.rest
  have hge := h.current
  omega

end BitTorrentBits.ParseState
