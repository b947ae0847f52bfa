import BitTorrentBits.Torrent.ParseRuns

/-!
# Runs of the parser

The parser follows a reader of its data: over spaced lexemes it stores what the reader finds,
and it stops where the reader does.
-/

namespace BitTorrentBits.ParseState

open Bencode Tokenizer

def afterTurn (sha1 : List UInt8 → List UInt8) (fuel : Nat) :
    Option Turn → Option (Bool × TorrentFile)
  | none => none
  | some (.stop ok tr) => some (ok, tr)
  | some (.again st) => parseLoop sha1 fuel st

/-- The rest of the run. At the name of a key and at the closer of the info dictionary the
token has been read and its turn is still to be taken. -/
def resume (sha1 : List UInt8 → List UInt8) (fuel : Nat) (s : ParseState) :
    Awaits → Option (Bool × TorrentFile)
  | .lexeme => parseLoop sha1 (fuel + 1) s
  | .value _ | .more _ => afterTurn sha1 fuel (parseToken sha1 s)

/-- The parser stands where the reader does, with the bytes `bs` left. -/
def At (s : ParseState) (r : Reader) (bs : List UInt8) : Prop :=
  match r.awaits with
  | .lexeme => Reads s r.info r.depth bs
  | .value key => s.tk.token = key.text ∧ Reads s r.info r.depth bs
  | .more bytes =>
    s.tk.token = [endMark] ∧ atInfoEnd s = true ∧ bytes ≠ [] ∧
      (∃ before, s.infoStart = some before.length ∧ s.tk.data = before ++ (bytes ++ bs) ∧
        s.tk.current = before.length + bytes.length) ∧
      ∀ stop tr, Reads { s with tr := tr, infoEnd := some stop } r.info r.depth bs

/-- At most `2 * n` turns lead from one place to the other. -/
def Resumes (sha1 : List UInt8 → List UInt8) (s : ParseState) (a : Awaits) (n : Nat)
    (s' : ParseState) (a' : Awaits) : Prop :=
  ∃ k ≤ 2 * n, ∀ fuel, resume sha1 (k + fuel) s a = resume sha1 fuel s' a'

variable (sha1 : List UInt8 → List UInt8) {s s' : ParseState} {info : InfoRead} {depth : Int}
  {bs : List UInt8} {l : Lexeme} {u v : Tokenizer} {p : Spaced}

theorem parseLoop_eq_afterTurn (h : s.tk.next = some (.TOKENIZER_OK, u)) (fuel : Nat) :
    parseLoop sha1 (fuel + 1) s = afterTurn sha1 fuel (parseToken sha1 { s with tk := u }) := by
  simp only [parseLoop, h, Option.bind_eq_bind, Option.bind_some]
  cases parseToken sha1 { s with tk := u } with
  | none => rfl
  | some turn => cases turn <;> rfl

private theorem resumes_plain (h : Reads s info depth (l.bytes ++ bs)) (hl : l.Valid LONG_MAX)
    (hclosing : info.closing (depth + l.depth) = none)
    (hkey : ∀ digits payload, l = .str digits payload → Key.named payload = none) :
    ∃ s', Reads s' (info.read l.bytes) (depth + l.depth) bs ∧ s'.tr = s.tr ∧
      Resumes sha1 s .lexeme l.bytes.length s' .lexeme := by
  obtain ⟨u, ⟨k, hk, hrun⟩, hreads⟩ := loops_plain sha1 h hl hclosing hkey
  exact ⟨_, hreads, rfl, k, hk, hrun⟩

theorem exists_afterLexeme (h : Reads s info depth (l.bytes ++ bs)) (hl : l.Valid LONG_MAX) :
    ∃ s', At s' (Reader.afterLexeme info depth l) bs ∧ s'.tr = s.tr ∧
      Resumes sha1 s .lexeme l.bytes.length s' (Reader.afterLexeme info depth l).awaits := by
  cases l with
  | int negative digits =>
    exact resumes_plain sha1 h hl (h.info.closing_eq_none (by simp [Lexeme.depth])) (by simp)
  | opener dict =>
    exact resumes_plain sha1 h hl (h.info.closing_eq_none (by simp [Lexeme.depth])) (by simp)
  | closer =>
    cases hclosing : info.closing (depth - 1) with
    | none =>
      obtain ⟨s', hreads, htr, hresumes⟩ := resumes_plain sha1 h hl hclosing (by simp)
      simp only [Reader.afterLexeme, hclosing]
      exact ⟨s', hreads, htr, hresumes⟩
    | some bytes =>
      obtain ⟨u, hnext, hu, hend, hbefore, hreads⟩ := exists_infoEnd h hclosing
      have hne : bytes ≠ [] := by
        obtain ⟨seen, -, rfl⟩ := InfoRead.closing_eq_some hclosing
        simp
      simp only [Reader.afterLexeme, hclosing]
      refine ⟨{ s with tk := u }, ⟨hu, hend, hne, hbefore, hreads⟩, rfl, 0, Nat.zero_le _, ?_⟩
      intro fuel
      rw [Nat.zero_add]
      exact parseLoop_eq_afterTurn sha1 hnext fuel
  | str digits payload =>
    cases hkey : Key.named payload with
    | none =>
      have hplain : ∀ digits' payload', Lexeme.str digits payload = .str digits' payload' →
          Key.named payload' = none := by
        intro _ _ heq
        cases heq
        exact hkey
      obtain ⟨s', hreads, htr, hresumes⟩ :=
        resumes_plain sha1 h hl (h.info.closing_eq_none (by simp [Lexeme.depth])) hplain
      rw [Lexeme.depth, Int.add_zero] at hreads
      simp only [Reader.afterLexeme, hkey, Option.elim_none]
      exact ⟨s', hreads, htr, hresumes⟩
    | some key =>
      obtain ⟨v, u, hloop, hnext, hu, hreads⟩ := exists_key sha1 h hl
      simp only [Reader.afterLexeme, hkey, Option.elim_some]
      refine ⟨{ s with tk := u }, ⟨hu.trans (Key.text_of_named hkey), hreads⟩, rfl, 1, ?_, ?_⟩
      · simp only [Lexeme.bytes, List.length_append, List.length_cons]
        omega
      · intro fuel
        rw [Nat.add_comm 1]
        exact (hloop (fuel + 1)).trans (parseLoop_eq_afterTurn sha1 hnext fuel)

/-- What the parser does while a reader gets this far: it stores what is found, and then it is
where the reader is, or it has stopped. -/
def Follows (sha1 : List UInt8 → List UInt8) (s : ParseState) (a : Awaits) (n : Nat)
    (bs : List UInt8) : List Found × Option Reader → Prop
  | (found, some r) =>
    ∃ s', At s' r bs ∧ s'.tr = Found.storeAll sha1 found s.tr ∧ Resumes sha1 s a n s' r.awaits
  | (found, none) =>
    ∀ fuel, 2 * n ≤ fuel → resume sha1 fuel s a = some (false, Found.storeAll sha1 found s.tr)

theorem resume_value_stop {key : Key} {err : Code} {u : Tokenizer} (hname : s.tk.token = key.text)
    (hnext : s.tk.next = some (err, u))
    (hu : err = .TOKENIZER_OK → ∃ b, u.token = [b] ∧ b ≠ key.mark) (fuel : Nat) :
    resume sha1 fuel s (.value key) = some (false, s.tr) := by
  obtain ⟨s', k, hturn, htk, htr⟩ := parseToken_key sha1 hname
  rw [expect_stop (htk ▸ hnext) hu, htr] at hturn
  simp only [resume, hturn]
  rfl

private theorem follows_wrongValue {key : Key} (hname : s.tk.token = key.text)
    (h : Reads s info depth (p.bytes ++ bs)) (hp : p.Valid LONG_MAX)
    (hmark : p.lexeme.mark ≠ key.mark) :
    Follows sha1 s (.value key) p.bytes.length bs ([], none) := by
  intro fuel _
  rw [Spaced.bytes, List.append_assoc] at h
  obtain ⟨t, hnext, -, hreads⟩ := h.skip hp.1
  obtain ⟨v, hnext', hv⟩ := next_lexeme hreads.statusFn hp.2 hreads.rest
  exact resume_value_stop sha1 hname (hnext.trans hnext') (fun _ => ⟨_, hv, hmark⟩) fuel

private theorem follows_strValue {key : StrKey} {digits x : List UInt8}
    (hname : s.tk.token = (Key.str key).text) (h : Reads s info depth (p.bytes ++ bs))
    (hp : p.Valid LONG_MAX) (hl : p.lexeme = .str digits x) :
    Follows sha1 s (.value (.str key)) p.bytes.length bs
      ([.str key x], some ⟨info.read p.bytes, depth, .lexeme⟩) := by
  have hpos := List.length_pos_iff.mpr p.lexeme.bytes_ne_nil
  have hsize : p.bytes.length = p.blanks.length + p.lexeme.bytes.length := List.length_append
  rw [Spaced.bytes, List.append_assoc] at h
  obtain ⟨t, hnext, -, hreads⟩ := h.skip hp.1
  have hvalid := hp.2
  rw [hl] at hvalid hreads
  obtain ⟨v, u, hnext₁, hv, hnext₂, hu, hstarts⟩ := next_str hreads.statusFn hvalid hreads.rest
  have hturn := parseToken_strKey sha1 key hname
  rw [parseValue_of_ok (hnext.trans hnext₁) hv hnext₂, hu] at hturn
  have hreads' := hreads.advance hstarts (hreads.info.closing_eq_none (by omega)) (by decide)
  rw [Int.add_zero, InfoRead.read_read, ← hl] at hreads'
  refine ⟨_, hreads'.store ((Taken.str key x).store sha1 s.tr), rfl, 1, by omega, ?_⟩
  intro fuel
  rw [Nat.add_comm 1]
  simp only [resume, hturn]
  rfl

private theorem follows_intValue {key : IntKey} {negative : Bool} {digits : List UInt8}
    (hname : s.tk.token = (Key.int key).text) (h : Reads s info depth (p.bytes ++ bs))
    (hp : p.Valid LONG_MAX) (hl : p.lexeme = .int negative digits) :
    Follows sha1 s (.value (.int key)) p.bytes.length bs
      ([.int key negative digits], some ⟨info.read p.bytes, depth, .lexeme⟩) := by
  have hsize : p.bytes.length = p.blanks.length + p.lexeme.bytes.length := List.length_append
  rw [Spaced.bytes, List.append_assoc] at h
  obtain ⟨t, hnext, -, hreads⟩ := h.skip hp.1
  have hvalid := hp.2
  rw [hl] at hvalid hreads hsize
  obtain ⟨v, w, u, hnext₁, hv, hnext₂, hw, hnext₃, hu, hstarts⟩ :=
    next_int hreads.statusFn hvalid hreads.rest
  let tr := (Taken.int key (signedValue negative digits)).store sha1 s.tr
  have hturn : parseToken sha1 s = some (.again { s with tk := w, tr := tr }) := by
    obtain ⟨record, hparse, hrecord⟩ := parseToken_intKey sha1 key hname
    rw [hparse, parseValue_of_ok (hnext.trans hnext₁) hv hnext₂, hw,
      hrecord negative digits s.tr hvalid]
    rfl
  have hreads' := hreads.advance hstarts (hreads.info.closing_eq_none (by omega)) (by decide)
  rw [Int.add_zero, InfoRead.read_read, ← hl] at hreads'
  have hagain : parseToken sha1 { s with tk := u, tr := tr } =
      some (.again { s with tk := u, tr := tr }) := by
    have hnamed : Key.named u.token = none := by
      rw [hu]
      exact Key.named_byte _
    have hend : atInfoEnd { s with tk := u, tr := tr } = false := by
      apply (hreads.store tr).info.atInfoEnd_eq_false
      rw [hreads'.listDictStack]
      exact hreads.info.closing_eq_none (Int.le_refl depth)
    exact parseToken_again sha1 hnamed hend
  refine ⟨_, hreads'.store tr, rfl, 2, ?_, ?_⟩
  · simp only [Lexeme.bytes, List.length_cons, List.length_append, List.length_nil] at hsize
    omega
  · intro fuel
    rw [Nat.add_comm 2]
    simp only [resume, hturn]
    exact parseLoop_again (s := { s with tk := w, tr := tr }) hnext₃ hagain (fuel + 1)

private theorem follows_infoValue (hname : s.tk.token = Key.info.text)
    (h : Reads s info depth (p.bytes ++ bs)) (hp : p.Valid LONG_MAX)
    (hl : p.lexeme = .opener true) :
    Follows sha1 s (.value .info) p.bytes.length bs
      ([], some ⟨(info.start depth).read p.bytes, depth + 1, .lexeme⟩) := by
  have hbytes : p.bytes = p.blanks ++ [dictMark] := by rw [Spaced.bytes, hl]; rfl
  have hrest := h
  rw [Spaced.bytes, List.append_assoc] at hrest
  obtain ⟨t, hnext, ht, hreads⟩ := hrest.skip hp.1
  rw [hl] at hreads
  let w : Tokenizer := { t with
    token := [dictMark]
    current := t.current + 1
    listDictStack := t.listDictStack + 1
    statusFn := .tokenizeStart }
  have hnext' : t.next = some (.TOKENIZER_OK, w) := next_opener true hreads.statusFn hreads.rest
  have hturn := parseToken_info_dict sha1 hname (hnext.trans hnext') rfl
  have hstarts : StartsAfter s.tk w p.bytes.length 1 := by
    have hw : StartsAfter t w 1 1 := ⟨rfl, rfl, rfl, rfl⟩
    simpa [hbytes] using ht.trans hw
  refine ⟨_, h.enter hstarts, rfl, 1, ?_, ?_⟩
  · simp [hbytes]
    omega
  · intro fuel
    rw [Nat.add_comm 1]
    simp only [resume, hturn]
    rfl

theorem follows_readValue {key : Key} {r : Reader} (hname : s.tk.token = key.text)
    (h : Reads s r.info r.depth (p.bytes ++ bs)) (hp : p.Valid LONG_MAX) :
    Follows sha1 s (.value key) p.bytes.length bs (r.readValue p key) := by
  by_cases hmark : p.lexeme.mark = key.mark
  · have hlexeme := Key.lexeme_of_mark hmark
    cases key with
    | str key =>
      obtain ⟨digits, x, hl⟩ := hlexeme
      simp only [Reader.readValue, hl]
      exact follows_strValue sha1 hname h hp hl
    | int key =>
      obtain ⟨negative, digits, hl⟩ := hlexeme
      simp only [Reader.readValue, hl]
      exact follows_intValue sha1 hname h hp hl
    | info =>
      have hl : p.lexeme = .opener true := hlexeme
      simp only [Reader.readValue, hl]
      exact follows_infoValue sha1 hname h hp hl
  · rw [Reader.readValue_of_mark_ne hmark]
    exact follows_wrongValue sha1 hname h hp hmark

variable {sha1}

theorem Resumes.trans {m n : Nat} {a a' a'' : Awaits} {s'' : ParseState}
    (h : Resumes sha1 s a m s' a') (h' : Resumes sha1 s' a' n s'' a'') :
    Resumes sha1 s a (m + n) s'' a'' := by
  obtain ⟨k, hk, hrun⟩ := h
  obtain ⟨k', hk', hrun'⟩ := h'
  refine ⟨k + k', by omega, ?_⟩
  intro fuel
  rw [Nat.add_assoc, hrun, hrun']

variable (sha1)

private theorem resumes_skip {blanks : List UInt8} (h : Reads s info depth (blanks ++ bs))
    (hblanks : ∀ b ∈ blanks, isSpace b) :
    ∃ s', Reads s' (info.read blanks) depth bs ∧ s'.tr = s.tr ∧
      Resumes sha1 s .lexeme blanks.length s' .lexeme := by
  obtain ⟨t, hnext, -, hreads⟩ := h.skip hblanks
  refine ⟨_, hreads, rfl, 0, Nat.zero_le _, ?_⟩
  intro fuel
  rw [Nat.zero_add]
  exact parseLoop_congr hnext (fuel + 1)

private theorem resumes_infoEnd {r : Reader} {bytes blanks : List UInt8}
    (hawaits : r.awaits = .more bytes) (h : At s r (blanks ++ (l.bytes ++ bs)))
    (hblanks : ∀ b ∈ blanks, isSpace b) (hl : l.Valid LONG_MAX) :
    ∃ s', Reads s' (r.info.read blanks) r.depth (l.bytes ++ bs) ∧
      s'.tr = (Taken.info bytes).store sha1 s.tr ∧
      Resumes sha1 s (.more bytes) blanks.length s' .lexeme := by
  rw [At, hawaits] at h
  obtain ⟨htoken, hend, hne, ⟨before, hstart, hdata, hcurrent⟩, hreads⟩ := h
  let tr := (Taken.info bytes).store sha1 s.tr
  have hclosed := hreads (s.tk.current - 1) tr
  obtain ⟨t, hnext, -, hskipped⟩ := hclosed.skip hblanks
  obtain ⟨v, hnext', hv⟩ := next_lexeme hskipped.statusFn hl hskipped.rest
  have hturn := parseToken_infoEnd sha1 htoken hend hstart hdata hclosed.size hne hcurrent
    (hnext.trans hnext')
  have hagain : parseToken sha1 { s with tk := v, tr := tr, infoEnd := some (s.tk.current - 1) } =
      some (.again { s with tk := v, tr := tr, infoEnd := some (s.tk.current - 1) }) := by
    have hnamed : Key.named v.token = none := by
      rw [hv]
      exact Key.named_byte _
    exact parseToken_again sha1 hnamed (by simp [atInfoEnd])
  refine ⟨_, hskipped, rfl, 0, Nat.zero_le _, ?_⟩
  intro fuel
  rw [Nat.zero_add]
  simp only [resume, hturn]
  rw [parseLoop_again (s := { s with tk := t, tr := tr, infoEnd := some (s.tk.current - 1) })
    hnext' hagain]
  rfl

theorem follows_read {r : Reader} (h : At s r (p.bytes ++ bs)) (hp : p.Valid LONG_MAX) :
    Follows sha1 s r.awaits p.bytes.length bs (r.read p) := by
  have hsize : p.bytes.length = p.blanks.length + p.lexeme.bytes.length := List.length_append
  rw [hsize]
  cases hawaits : r.awaits with
  | lexeme =>
    rw [At, hawaits, Spaced.bytes, List.append_assoc] at h
    obtain ⟨s', hreads, htr, hresumes⟩ := resumes_skip sha1 h hp.1
    obtain ⟨s'', hat, htr', hresumes'⟩ := exists_afterLexeme sha1 hreads hp.2
    simp only [Reader.read, hawaits]
    exact ⟨s'', hat, htr'.trans htr, hresumes.trans hresumes'⟩
  | value key =>
    rw [At, hawaits] at h
    simp only [Reader.read, hawaits]
    rw [← hsize]
    exact follows_readValue sha1 h.1 h.2 hp
  | more bytes =>
    rw [Spaced.bytes, List.append_assoc] at h
    obtain ⟨s', hreads, htr, hresumes⟩ := resumes_infoEnd sha1 hawaits h hp.1 hp.2
    obtain ⟨s'', hat, htr', hresumes'⟩ := exists_afterLexeme sha1 hreads hp.2
    simp only [Reader.read, hawaits]
    exact ⟨s'', hat, htr'.trans htr, hresumes.trans hresumes'⟩

variable {sha1}

private theorem Follows.cons {a : Awaits} {m n : Nat} {bs' : List UInt8} {r : Reader}
    {found : List Found} {rest : List Found × Option Reader}
    (h : Follows sha1 s a m bs' (found, some r))
    (hrest : ∀ s', At s' r bs' → Follows sha1 s' r.awaits n bs rest) :
    Follows sha1 s a (m + n) bs (found ++ rest.1, rest.2) := by
  obtain ⟨s', hat, htr, k, hk, hrun⟩ := h
  have hfollows := hrest s' hat
  obtain ⟨found', r' | r'⟩ := rest
  · intro fuel hfuel
    obtain ⟨fuel', rfl⟩ := Nat.exists_eq_add_of_le (show k ≤ fuel by omega)
    rw [hrun, hfollows fuel' (by omega), htr, Found.storeAll_append]
  · obtain ⟨s'', hat', htr', hresumes⟩ := hfollows
    refine ⟨s'', hat', ?_, Resumes.trans ⟨k, hk, hrun⟩ hresumes⟩
    rw [htr', htr, Found.storeAll_append]

variable (sha1)

/-- Spaced lexemes in a row. -/
theorem follows_readAll {r : Reader} {ps : List Spaced}
    (h : At s r (ps.flatMap Spaced.bytes ++ bs)) (hps : ∀ p ∈ ps, p.Valid LONG_MAX) :
    Follows sha1 s r.awaits (ps.flatMap Spaced.bytes).length bs (r.readAll ps) := by
  induction ps generalizing s r with
  | nil => exact ⟨s, h, rfl, 0, Nat.zero_le _, fun fuel => by rw [Nat.zero_add]⟩
  | cons p ps ih =>
    obtain ⟨hp, hps⟩ := List.forall_mem_cons.mp hps
    rw [List.flatMap_cons, List.append_assoc] at h
    have hfirst := follows_read sha1 h hp
    rw [List.flatMap_cons, List.length_append, Reader.readAll]
    rcases hread : r.read p with ⟨found, r' | r'⟩ <;> rw [hread] at hfirst
    · intro fuel hfuel
      exact hfirst fuel (by omega)
    · exact hfirst.cons fun s' hat => ih hat hps

end BitTorrentBits.ParseState
