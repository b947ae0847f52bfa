import BitTorrentBits.Bencode.Bounds
import BitTorrentBits.Torrent.FlatReading

/-!
# Turns of the parser

What one turn of the parsing loop does, by the token it begins with.
-/

namespace BitTorrentBits

open Bencode Tokenizer

theorem strtol_signed (negative : Bool) {digits : List UInt8} (hd : ∀ b ∈ digits, isDigit b) :
    ∃ n, strtol (signed negative digits ++ [0]) =
      some (max (-2 ^ 63) (min (signedValue negative digits) LONG_MAX), n) := by
  have htake : (digits ++ [0]).takeWhile isDigit = digits := by
    apply takeWhile_isDigit hd
    rintro _ _ h
    cases h
    decide
  have hlen : digits.length ≠ (digits ++ [(0 : UInt8)]).length := by simp
  cases negative with
  | true =>
    have hblank : ¬ isSpace minus := by decide
    change ∃ n, strtol (minus :: (digits ++ [0])) = _
    simp only [strtol, List.takeWhile_cons_of_neg hblank, List.length_nil, List.drop_zero,
      strtolSign, if_true, Nat.zero_add, List.drop_succ_cons, htake, if_neg hlen]
    by_cases hne : digits = []
    · subst hne
      exact ⟨0, rfl⟩
    · rw [if_neg hne]
      refine ⟨1 + digits.length, ?_⟩
      rw [Int.neg_one_mul]
      rfl
  | false =>
    by_cases hne : digits = []
    · subst hne
      exact ⟨0, by decide⟩
    · refine ⟨digits.length, ?_⟩
      change strtol (digits ++ [0]) = some (max _ (min (decimalValue digits : Int) _), _)
      rw [strtol_digits hne hd (by decide)]
      congr 2
      omega

namespace ParseState

variable (sha1 : List UInt8 → List UInt8) {s s' : ParseState} {t u v : Tokenizer}
  {b c : UInt8} {tr : TorrentFile}

theorem nextOk_of_ok (h : s.tk.next = some (.TOKENIZER_OK, u)) (k : ParseState → Option Turn) :
    s.nextOk k = k { s with tk := u } := by
  simp only [nextOk, h]
  rfl

theorem tokenMatches_byte (h : s.tk.token = [b]) :
    s.tokenMatches [c] = some (decide (b = c)) := by
  simp [tokenMatches, readAt, h]

theorem expect_of_ok (h : s.tk.next = some (.TOKENIZER_OK, u)) (hu : u.token = [b])
    (k : ParseState → Option Turn) :
    s.expect [c] k = if b = c then k { s with tk := u } else some (.stop false s.tr) := by
  have hmatches : tokenMatches { s with tk := u } [c] = some (decide (b = c)) :=
    tokenMatches_byte hu
  rw [expect, nextOk_of_ok h]
  simp only [hmatches]
  by_cases hbc : b = c
  · simp [hbc]
  · simp [hbc]

theorem nextOk_of_not_ok {err : Code} (h : s.tk.next = some (err, u)) (herr : err ≠ .TOKENIZER_OK)
    (k : ParseState → Option Turn) : s.nextOk k = some (.stop false s.tr) := by
  simp only [nextOk, h]
  exact if_pos herr

theorem expect_stop {err : Code} (h : s.tk.next = some (err, u))
    (hu : err = .TOKENIZER_OK → ∃ b, u.token = [b] ∧ b ≠ c) (k : ParseState → Option Turn) :
    s.expect [c] k = some (.stop false s.tr) := by
  by_cases herr : err = .TOKENIZER_OK
  · obtain ⟨b, hb, hbc⟩ := hu herr
    subst herr
    rw [expect_of_ok h hb, if_neg hbc]
  · rw [expect, nextOk_of_not_ok h herr]

theorem parseValue_of_ok {record : List UInt8 → TorrentFile → Option TorrentFile}
    (h : s.tk.next = some (.TOKENIZER_OK, v)) (hv : v.token = [b])
    (hv' : v.next = some (.TOKENIZER_OK, u)) :
    s.parseValue [b] record =
      (record u.token s.tr).map fun tr => .again { s with tk := u, tr := tr } := by
  rw [parseValue, expect_of_ok h hv, if_pos rfl, nextOk_of_ok hv']
  cases record u.token s.tr <;> rfl

section Rules

variable {P : Turn → Prop} {k : ParseState → Option Turn} {turn : Turn}

theorem nextOk_rule (h : s.nextOk k = some turn) (hstop : P (.stop false s.tr))
    (hk : ∀ tk, s.tk.next = some (.TOKENIZER_OK, tk) → k { s with tk := tk } = some turn →
      P turn) : P turn := by
  obtain ⟨⟨err, tk⟩, hnext, hturn⟩ := Option.bind_eq_some_iff.mp h
  dsimp only at hturn
  split_ifs at hturn with herr
  · cases hturn
    exact hstop
  · rw [ne_eq, not_not] at herr
    exact hk tk (herr ▸ hnext) hturn

theorem expect_rule {mark : List UInt8} (h : s.expect mark k = some turn)
    (hstop : P (.stop false s.tr))
    (hk : ∀ tk, s.tk.next = some (.TOKENIZER_OK, tk) → k { s with tk := tk } = some turn →
      P turn) : P turn := by
  apply nextOk_rule h hstop
  intro tk hnext hturn
  obtain ⟨found, -, hturn⟩ := Option.bind_eq_some_iff.mp hturn
  dsimp only at hturn
  split_ifs at hturn
  · exact hk tk hnext hturn
  · cases hturn
    exact hstop

theorem parseValue_rule {mark : List UInt8}
    {record : List UInt8 → TorrentFile → Option TorrentFile}
    (h : s.parseValue mark record = some turn) (hstop : P (.stop false s.tr))
    (hrecord : ∀ v tk tr, s.tk.next = some (.TOKENIZER_OK, v) → v.next = some (.TOKENIZER_OK, tk) →
      record tk.token s.tr = some tr → P (.again { s with tk := tk, tr := tr })) : P turn := by
  apply expect_rule h hstop
  intro v hnext hturn
  apply nextOk_rule (s := { s with tk := v }) hturn hstop
  intro tk hnext' hturn'
  obtain ⟨tr, htr, hagain⟩ := Option.bind_eq_some_iff.mp hturn'
  cases hagain
  exact hrecord v tk tr hnext hnext' htr

end Rules

private theorem atInfoEnd_of_key {key : Key} (h : s.tk.token = key.text) :
    s.atInfoEnd = false := by
  have hne : key.text ≠ ascii "e" := by
    rcases key with (_ | _ | _ | _) | (_ | _) | _ <;> decide
  rw [atInfoEnd, h, decide_eq_false hne, Bool.and_false]

theorem parseToken_strKey (key : StrKey) (h : s.tk.token = (Key.str key).text) :
    parseToken sha1 s = s.parseValue [strMark] fun token tr =>
      some ((Taken.str key token).store sha1 tr) := by
  have hend := atInfoEnd_of_key h
  cases key <;>
    simp +decide only [parseToken, hend, h, Key.text, if_true, if_false] <;> rfl

theorem parseToken_intKey (key : IntKey) (h : s.tk.token = (Key.int key).text) :
    ∃ record, parseToken sha1 s = s.parseValue [intMark] record ∧
      ∀ (negative : Bool) (digits : List UInt8) (tr : TorrentFile), (∀ b ∈ digits, isDigit b) →
        record (signed negative digits) tr =
          some ((Taken.int key (signedValue negative digits)).store sha1 tr) := by
  have hend := atInfoEnd_of_key h
  have hturn : parseToken sha1 s = match key with
      | .length => s.parseLength
      | .pieceLength => s.parsePieceLength := by
    cases key <;> simp +decide only [parseToken, hend, h, Key.text, if_true, if_false]
  rw [hturn]
  cases key <;>
    refine ⟨_, rfl, ?_⟩ <;>
    intro negative digits tr hd <;>
    obtain ⟨n, hn⟩ := strtol_signed negative hd <;>
    simp only [hn] <;>
    rfl

theorem parseToken_info (h : s.tk.token = Key.info.text) :
    parseToken sha1 s = s.parseInfo := by
  simp +decide only [parseToken, h, Key.text, if_true, if_false]

theorem parseToken_info_dict (h : s.tk.token = Key.info.text)
    (hnext : s.tk.next = some (.TOKENIZER_OK, u)) (hu : u.token = [dictMark]) :
    parseToken sha1 s = some (.again { s with
      tk := u
      infoStart := some s.tk.current
      infoStartStackValue := s.tk.listDictStack }) := by
  rw [parseToken_info sha1 h]
  have hexpect := expect_of_ok (s := { s with
    infoStart := some s.tk.current
    infoStartStackValue := s.tk.listDictStack }) (c := dictMark) hnext hu fun s => some (.again s)
  rw [if_pos rfl] at hexpect
  exact hexpect

theorem parseToken_key {key : Key} (h : s.tk.token = key.text) :
    ∃ (s' : ParseState) (k : ParseState → Option Turn),
      parseToken sha1 s = s'.expect [key.mark] k ∧ s'.tk = s.tk ∧ s'.tr = s.tr := by
  cases key with
  | str key => exact ⟨s, _, parseToken_strKey sha1 key h, rfl, rfl⟩
  | int key =>
    obtain ⟨record, hturn, -⟩ := parseToken_intKey sha1 key h
    exact ⟨s, _, hturn, rfl, rfl⟩
  | info => exact ⟨_, _, parseToken_info sha1 h, rfl, rfl⟩

theorem parseToken_unnamed (hkey : Key.named s.tk.token = none) :
    parseToken sha1 s = if s.atInfoEnd then s.parseInfoEnd sha1 else some (.again s) := by
  have hne := Key.ne_text_of_named hkey
  have hannounce : ¬ s.tk.token = ascii "announce" := hne (.str .announce)
  have hcomment : ¬ s.tk.token = ascii "comment" := hne (.str .comment)
  have hinfo : ¬ s.tk.token = ascii "info" := hne .info
  have hname : ¬ s.tk.token = ascii "name" := hne (.str .name)
  have hlength : ¬ s.tk.token = ascii "length" := hne (.int .length)
  have hpieceLength : ¬ s.tk.token = ascii "piece length" := hne (.int .pieceLength)
  have hpieces : ¬ s.tk.token = ascii "pieces" := hne (.str .pieces)
  simp only [parseToken, hannounce, hcomment, hinfo, hname, hlength, hpieceLength, hpieces, if_false]

theorem parseToken_again (hkey : Key.named s.tk.token = none) (hend : s.atInfoEnd = false) :
    parseToken sha1 s = some (.again s) := by
  rw [parseToken_unnamed sha1 hkey, hend]
  rfl

theorem parseToken_infoEnd {before info after : List UInt8} (htoken : s.tk.token = [endMark])
    (hend : s.atInfoEnd = true) (hstart : s.infoStart = some before.length)
    (hdata : s.tk.data = before ++ (info ++ after)) (hsize : s.tk.data.length ≤ LONG_MAX)
    (hne : info ≠ []) (hcurrent : s.tk.current = before.length + info.length)
    (hnext : s.tk.next = some (.TOKENIZER_OK, v)) :
    parseToken sha1 s = some (.again { s with
      tk := v
      tr := (Taken.info info).store sha1 s.tr
      infoEnd := some (s.tk.current - 1) }) := by
  have hnamed : Key.named s.tk.token = none := by
    rw [htoken]
    exact Key.named_byte _
  have hpos := List.length_pos_iff.mpr hne
  have hlen := congrArg List.length hdata
  rw [List.length_append, List.length_append] at hlen
  have hcount : toULong ((s.tk.current - 1 : Nat) - before.length + 1 : Int) = info.length := by
    have hsub : ((s.tk.current - 1 : Nat) - before.length + 1 : Int) = info.length := by omega
    rw [hsub]
    apply toULong_natCast
    have hmax : LONG_MAX = 2 ^ 63 - 1 := rfl
    omega
  have hread : readAt v.data before.length info.length = some info := by
    rw [next_data hnext, hdata, ← List.append_assoc]
    exact readAt_middle before info after
  rw [parseToken_unnamed sha1 hnamed, if_pos hend]
  simp only [parseInfoEnd, nextOk, hstart, hnext, hcount, hread, Option.bind_eq_bind,
    Option.bind_some]
  rfl

theorem parseToken_infoEnd_stop {err : Code} (htoken : s.tk.token = [endMark])
    (hend : s.atInfoEnd = true) (hnext : s.tk.next = some (err, v)) (herr : err ≠ .TOKENIZER_OK) :
    parseToken sha1 s = some (.stop false s.tr) := by
  have hnamed : Key.named s.tk.token = none := by
    rw [htoken]
    exact Key.named_byte _
  have hstart : s.infoStart.isSome := by
    simp only [atInfoEnd, Bool.and_eq_true] at hend
    exact hend.1.1.1
  obtain ⟨start, hstart⟩ := Option.isSome_iff_exists.mp hstart
  rw [parseToken_unnamed sha1 hnamed, if_pos hend]
  simp only [parseInfoEnd, nextOk, hstart, hnext, Option.bind_eq_bind, Option.bind_some]
  exact if_pos herr

variable {sha1}

theorem parseLoop_again (h : s.tk.next = some (.TOKENIZER_OK, u))
    (hturn : parseToken sha1 { s with tk := u } = some (.again s')) (fuel : Nat) :
    parseLoop sha1 (fuel + 1) s = parseLoop sha1 fuel s' := by
  simp only [parseLoop, h, Option.bind_eq_bind, Option.bind_some, hturn]

theorem parseLoop_congr (h : t.next = u.next) (fuel : Nat) :
    parseLoop sha1 fuel { s with tk := t } = parseLoop sha1 fuel { s with tk := u } := by
  cases fuel with
  | zero => rfl
  | succ fuel => simp only [parseLoop, h]

theorem parseLoop_leads {us : List Tokenizer} (h : Leads t us u)
    (hagain : ∀ v ∈ us, parseToken sha1 { s with tk := v } = some (.again { s with tk := v }))
    (fuel : Nat) :
    parseLoop sha1 (us.length + fuel) { s with tk := t } =
      parseLoop sha1 fuel { s with tk := u } := by
  induction h with
  | refl t => rw [List.length_nil, Nat.zero_add]
  | skip hnext _ ih => rw [parseLoop_congr hnext, ih hagain]
  | @ok t t' u us hnext _ ih =>
    obtain ⟨hfirst, hrest⟩ := List.forall_mem_cons.mp hagain
    rw [List.length_cons, Nat.add_right_comm, parseLoop_again (s := { s with tk := t }) hnext hfirst,
      ih hrest]

end ParseState

end BitTorrentBits
