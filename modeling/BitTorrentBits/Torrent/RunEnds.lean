import BitTorrentBits.Torrent.ReaderRuns

/-!
# How a run ends

What the parser does at the end of its data, at a byte out of place and in a lexeme that is cut
short, by where a reader is then.
-/

namespace BitTorrentBits

open Bencode Tokenizer

namespace Reader

def ends (r : Reader) : Bool :=
  match r.awaits with
  | .lexeme => decide (r.depth ≤ 0)
  | .value _ | .more _ => false

/-- A value is awaited, and the text that is cut short begins as a value of another kind. -/
def StopsBefore (r : Reader) (t : List UInt8) : Prop :=
  ∃ key mark, r.awaits = .value key ∧ CutAfter LONG_MAX mark t ∧ mark ≠ key.mark

end Reader

namespace ParseState

variable (sha1 : List UInt8 → List UInt8) {s : ParseState} {r : Reader} {bs blanks t : List UInt8}
  {u v w x : Tokenizer} {key : Key} {err : Code}

private theorem again_of_ne (hkey : Key.named s.tk.token = none) (he : s.tk.token ≠ ascii "e") :
    parseToken sha1 s = some (.again s) :=
  parseToken_again sha1 hkey (by simp [atInfoEnd, he])

private theorem again_of_signed {negative : Bool} {digits : List UInt8}
    (hw : w.token = signed negative digits) (hd : ∀ d ∈ digits, isDigit d) :
    parseToken sha1 { s with tk := w } = some (.again { s with tk := w }) := by
  have hkey : Key.named w.token = none := hw ▸ named_signed negative hd
  apply again_of_ne sha1 hkey
  intro he
  have hchars : endMark ∈ signed negative digits := by
    rw [← hw, he]
    decide
  cases negative with
  | true =>
    rcases List.mem_cons.mp hchars with heq | hmem
    · exact absurd heq (by decide)
    · exact absurd (hd _ hmem) (by decide)
  | false => exact absurd (hd _ hchars) (by decide)

private theorem again_of_mark {mark : UInt8} {text : List UInt8}
    (hmark : CutAfter LONG_MAX mark text) (hv : v.token = [mark]) :
    parseToken sha1 { s with tk := v } = some (.again { s with tk := v }) := by
  have hkey : Key.named v.token = none := by
    rw [hv]
    exact Key.named_byte mark
  apply again_of_ne sha1 hkey
  rw [hv]
  cases hmark <;> decide

private theorem parseLoop_of_not_ok (h : s.tk.next = some (.TOKENIZER_MALFORMED_STRING, u))
    (fuel : Nat) : parseLoop sha1 (fuel + 1) s = some (false, s.tr) := by
  simp only [parseLoop, h]
  rfl

private theorem parseLoop_of_none (h : s.tk.next = none) (fuel : Nat) :
    parseLoop sha1 fuel s = none := by
  cases fuel with
  | zero => rfl
  | succ fuel => simp only [parseLoop, h]; rfl

private theorem resume_more_stop {bytes : List UInt8} (htoken : s.tk.token = [endMark])
    (hend : atInfoEnd s = true) (hnext : s.tk.next = some (err, u)) (herr : err ≠ .TOKENIZER_OK)
    (fuel : Nat) : resume sha1 fuel s (.more bytes) = some (false, s.tr) := by
  have hturn := parseToken_infoEnd_stop sha1 htoken hend hnext herr
  simp only [resume, hturn]
  rfl

private theorem At.exists_next (h : At s r (blanks ++ t)) (hblanks : ∀ b ∈ blanks, isSpace b) :
    ∃ u : Tokenizer, s.tk.next = u.next ∧ u.statusFn = .tokenizeStart ∧ u.rest = t ∧
      u.listDictStack = r.depth ∧ (t = [] → u.current = u.data.length) := by
  have hplace : ∃ s', s'.tk = s.tk ∧ Reads s' r.info r.depth (blanks ++ t) := by
    unfold At at h
    split at h
    · exact ⟨s, rfl, h⟩
    · exact ⟨s, rfl, h.2⟩
    · exact ⟨{ s with infoEnd := some 0 }, rfl, h.2.2.2.2 0 s.tr⟩
  obtain ⟨s', htk, hreads⟩ := hplace
  obtain ⟨u, hnext, -, hskipped⟩ := hreads.skip hblanks
  refine ⟨u, htk ▸ hnext, hskipped.statusFn, hskipped.rest, hskipped.listDictStack, ?_⟩
  rintro rfl
  exact hskipped.current_eq

theorem resume_end (h : At s r (blanks ++ [])) (hblanks : ∀ b ∈ blanks, isSpace b) (fuel : Nat) :
    resume sha1 fuel s r.awaits = some (r.ends, s.tr) := by
  obtain ⟨u, hskip, hstatus, hrest, hdepth, hcurrent⟩ := h.exists_next hblanks
  have hnext := next_of_rest_nil hstatus (hcurrent rfl)
  rw [← hskip, hdepth] at hnext
  have hstop : ∃ err v, s.tk.next = some (err, v) ∧ err ≠ .TOKENIZER_OK := by
    split_ifs at hnext
    · exact ⟨_, _, hnext, nofun⟩
    · exact ⟨_, _, hnext, nofun⟩
  obtain ⟨err, v, hv, herr⟩ := hstop
  cases hawaits : r.awaits with
  | lexeme =>
    by_cases hopen : 0 < r.depth
    · rw [if_pos hopen] at hnext
      have hends : r.ends = false := by simp [Reader.ends, hawaits, hopen]
      rw [hends]
      exact parseLoop_of_not_ok sha1 hnext fuel
    · rw [if_neg hopen] at hnext
      have hends : r.ends = true := by
        simp only [Reader.ends, hawaits, decide_eq_true_eq]
        omega
      rw [hends]
      simp only [resume, parseLoop, hnext]
      rfl
  | value key =>
    rw [At, hawaits] at h
    have hends : r.ends = false := by simp [Reader.ends, hawaits]
    rw [hends]
    exact resume_value_stop sha1 h.1 hv (fun hok => (herr hok).elim) fuel
  | more bytes =>
    rw [At, hawaits] at h
    have hends : r.ends = false := by simp [Reader.ends, hawaits]
    rw [hends]
    exact resume_more_stop sha1 h.1 h.2.1 hv herr fuel

private theorem At.exists_infoEnd_turn {bytes : List UInt8} (hawaits : r.awaits = .more bytes)
    (h : At s r bs) (hnext : s.tk.next = some (.TOKENIZER_OK, v)) :
    ∃ s', s'.tk = v ∧ parseToken sha1 s = some (.again s') := by
  rw [At, hawaits] at h
  obtain ⟨htoken, hend, hne, ⟨before, hstart, hdata, hcurrent⟩, hreads⟩ := h
  have hsize := (hreads 0 s.tr).size
  exact ⟨_, rfl, parseToken_infoEnd sha1 htoken hend hstart hdata hsize hne hcurrent hnext⟩

private theorem exists_intKey (h : intMark = key.mark) : ∃ k, key = .int k := by
  cases key with
  | str k =>
    have hmark : intMark = strMark := h
    contradiction
  | int k => exact ⟨k, rfl⟩
  | info =>
    have hmark : intMark = dictMark := h
    contradiction

private theorem parseLoop_strayInt {negative : Bool} {digits : List UInt8}
    (hnext : s.tk.next = some (.TOKENIZER_OK, w)) (hw : w.token = signed negative digits)
    (hd : ∀ d ∈ digits, isDigit d) (hx : w.next = malformed x) (fuel : Nat) :
    parseLoop sha1 (fuel + 2) s = some (false, s.tr) := by
  rw [parseLoop_again hnext (again_of_signed sha1 hw hd)]
  exact parseLoop_of_not_ok sha1 (s := { s with tk := w }) hx fuel

theorem resume_stray (h : At s r (blanks ++ t)) (hblanks : ∀ b ∈ blanks, isSpace b)
    (ht : Stray t) (fuel : Nat) : ∃ tr, resume sha1 (fuel + 2) s r.awaits = some (false, tr) := by
  obtain ⟨u, hskip, hstatus, hrest, -, -⟩ := h.exists_next hblanks
  have hcalls := next_of_stray hstatus (hrest ▸ ht)
  rw [← hskip] at hcalls
  rcases hcalls with ⟨x, hnext⟩ | ⟨v, w, x, negative, digits, hnext, hv, hnext', hw, hd, hx⟩
  · have herr : Code.TOKENIZER_MALFORMED_STRING ≠ .TOKENIZER_OK := nofun
    cases hawaits : r.awaits with
    | lexeme => exact ⟨s.tr, parseLoop_of_not_ok sha1 hnext _⟩
    | value key =>
      rw [At, hawaits] at h
      exact ⟨s.tr, resume_value_stop sha1 h.1 hnext (fun hok => (herr hok).elim) _⟩
    | more bytes =>
      rw [At, hawaits] at h
      exact ⟨s.tr, resume_more_stop sha1 h.1 h.2.1 hnext herr _⟩
  · have hmark : CutAfter LONG_MAX intMark _ := .int negative hd
    cases hawaits : r.awaits with
    | lexeme =>
      refine ⟨s.tr, ?_⟩
      rw [resume, parseLoop_again hnext (again_of_mark sha1 hmark hv)]
      exact parseLoop_strayInt sha1 (s := { s with tk := v }) hnext' hw hd hx fuel
    | value key =>
      rw [At, hawaits] at h
      by_cases hkey : intMark = key.mark
      · obtain ⟨k, rfl⟩ := exists_intKey hkey
        obtain ⟨record, hparse, hrecord⟩ := parseToken_intKey sha1 k h.1
        rw [parseValue_of_ok hnext hv hnext', hw, hrecord negative digits s.tr hd] at hparse
        let tr := (Taken.int k (signedValue negative digits)).store sha1 s.tr
        refine ⟨tr, ?_⟩
        simp only [resume, hparse]
        exact parseLoop_of_not_ok sha1 (s := { s with tk := w, tr := tr }) hx (fuel + 1)
      · exact ⟨s.tr, resume_value_stop sha1 h.1 hnext (fun _ => ⟨intMark, hv, hkey⟩) _⟩
    | more bytes =>
      obtain ⟨s', htk, hturn⟩ := h.exists_infoEnd_turn sha1 hawaits hnext
      subst htk
      refine ⟨s'.tr, ?_⟩
      simp only [resume, hturn]
      exact parseLoop_strayInt sha1 hnext' hw hd hx fuel

theorem resume_stopsBefore (h : At s r (blanks ++ t)) (hblanks : ∀ b ∈ blanks, isSpace b)
    (ht : r.StopsBefore t) (fuel : Nat) : resume sha1 fuel s r.awaits = some (false, s.tr) := by
  obtain ⟨key, mark, hawaits, hcut, hmark⟩ := ht
  obtain ⟨u, hskip, hstatus, hrest, -, -⟩ := h.exists_next hblanks
  obtain ⟨v, hnext, hv, -⟩ := next_of_cutAfter hstatus (hrest ▸ hcut)
  rw [← hskip] at hnext
  rw [At, hawaits] at h
  rw [hawaits]
  exact resume_value_stop sha1 h.1 hnext (fun _ => ⟨mark, hv, hmark⟩) fuel

private theorem nextOk_of_none {k : ParseState → Option Turn} (h : s.tk.next = none) :
    s.nextOk k = none := by
  simp only [nextOk, h]
  rfl

private theorem parseValue_of_cut {b : UInt8}
    {record : List UInt8 → TorrentFile → Option TorrentFile}
    (hnext : s.tk.next = some (.TOKENIZER_OK, v)) (hv : v.token = [b]) (hnone : v.next = none) :
    s.parseValue [b] record = none := by
  rw [parseValue, expect_of_ok hnext hv, if_pos rfl]
  exact nextOk_of_none (s := { s with tk := v }) hnone

private theorem parseToken_value_cut (hname : s.tk.token = key.text)
    (hnext : s.tk.next = some (.TOKENIZER_OK, v)) (hv : v.token = [key.mark])
    (hne : key ≠ .info) (hnone : v.next = none) : parseToken sha1 s = none := by
  cases key with
  | str k =>
    rw [parseToken_strKey sha1 k hname]
    exact parseValue_of_cut hnext hv hnone
  | int k =>
    obtain ⟨record, hparse, -⟩ := parseToken_intKey sha1 k hname
    rw [hparse]
    exact parseValue_of_cut hnext hv hnone
  | info => contradiction

private theorem resume_of_none (h : At s r bs) (hnext : s.tk.next = none) (fuel : Nat) :
    resume sha1 fuel s r.awaits = none := by
  cases hawaits : r.awaits with
  | lexeme => exact parseLoop_of_none sha1 hnext _
  | value key =>
    rw [At, hawaits] at h
    obtain ⟨s', k, hturn, htk, -⟩ := parseToken_key sha1 h.1
    rw [expect, nextOk_of_none (htk ▸ hnext)] at hturn
    simp only [resume, hturn]
    rfl
  | more bytes =>
    rw [At, hawaits] at h
    obtain ⟨htoken, hend, -, ⟨before, hstart, -⟩, -⟩ := h
    have hnamed : Key.named s.tk.token = none := by
      rw [htoken]
      exact Key.named_byte _
    have hturn : parseToken sha1 s = none := by
      rw [parseToken_unnamed sha1 hnamed, if_pos hend]
      simp only [parseInfoEnd, hstart, nextOk, hnext]
      rfl
    simp only [resume, hturn]
    rfl

theorem resume_cut (h : At s r (blanks ++ t)) (hblanks : ∀ b ∈ blanks, isSpace b)
    (ht : Cut LONG_MAX t) (hstops : ¬ r.StopsBefore t) (fuel : Nat) :
    resume sha1 fuel s r.awaits = none := by
  obtain ⟨u, hskip, hstatus, hrest, -, -⟩ := h.exists_next hblanks
  rcases ht.cutAfter_or_digits with ⟨mark, hcut⟩ | ⟨hne, hd⟩
  · obtain ⟨v, hnext, hv, hnone⟩ := next_of_cutAfter hstatus (hrest ▸ hcut)
    rw [← hskip] at hnext
    cases hawaits : r.awaits with
    | lexeme =>
      rw [resume, parseLoop_again hnext (again_of_mark sha1 hcut hv)]
      exact parseLoop_of_none sha1 hnone fuel
    | value key =>
      have hmark : mark = key.mark := by
        by_contra hne
        exact hstops ⟨key, mark, hawaits, hcut, hne⟩
      have hne : key ≠ .info := by
        rintro rfl
        cases hcut with
        | int _ _ => contradiction
        | payload _ _ _ => contradiction
      rw [At, hawaits] at h
      rw [hmark] at hv
      simp only [resume, parseToken_value_cut sha1 h.1 hnext hv hne hnone]
      rfl
    | more bytes =>
      obtain ⟨s', htk, hturn⟩ := h.exists_infoEnd_turn sha1 hawaits hnext
      subst htk
      simp only [resume, hturn]
      exact parseLoop_of_none sha1 hnone fuel
  · have hnone := next_strStart_cut hstatus hne hd hrest
    rw [← hskip] at hnone
    exact resume_of_none sha1 h hnone fuel

variable {data : List UInt8} {ps : List Spaced} {found : List Found} (tr : TorrentFile)

private theorem follows_file (hsize : data.length ≤ LONG_MAX)
    (hcut : CutInto LONG_MAX data ps blanks t) :
    ∃ s, s.tr = tr ∧
      parseTorrentFile sha1 tr (some data) = resume sha1 (2 * data.length + 1) s .lexeme ∧
      Follows sha1 s .lexeme (ps.flatMap Spaced.bytes).length (blanks ++ t)
        (Reader.init.readAll ps) := by
  let s : ParseState := {
    tk := initTokenizer data
    tr := tr
    infoStart := none
    infoStartStackValue := 0
    infoEnd := none }
  have hat : At s Reader.init (ps.flatMap Spaced.bytes ++ (blanks ++ t)) :=
    ⟨rfl, hsize, Nat.zero_le _, rfl, hcut.eq, rfl, rfl⟩
  exact ⟨s, rfl, rfl, follows_readAll sha1 hat hcut.valid⟩

private theorem exists_place (hsize : data.length ≤ LONG_MAX) (hcut : CutInto LONG_MAX data ps blanks t)
    (hread : Reader.init.readAll ps = (found, some r)) :
    ∃ s fuel, At s r (blanks ++ t) ∧ s.tr = Found.storeAll sha1 found tr ∧ 2 * t.length ≤ fuel ∧
      parseTorrentFile sha1 tr (some data) = resume sha1 fuel s r.awaits := by
  obtain ⟨s, rfl, hparse, hfollows⟩ := follows_file sha1 tr hsize hcut
  rw [hread] at hfollows
  obtain ⟨s', hat, htr, k, hk, hrun⟩ := hfollows
  have hlen := congrArg List.length hcut.eq
  simp only [List.length_append] at hlen
  refine ⟨s', 2 * data.length + 1 - k, hat, htr, by omega, ?_⟩
  rw [hparse, ← hrun, Nat.add_sub_cancel' (by omega)]

theorem parseTorrentFile_stopped (hsize : data.length ≤ LONG_MAX)
    (hcut : CutInto LONG_MAX data ps blanks t) (hread : Reader.init.readAll ps = (found, none)) :
    parseTorrentFile sha1 tr (some data) = some (false, Found.storeAll sha1 found tr) := by
  obtain ⟨s, rfl, hparse, hfollows⟩ := follows_file sha1 tr hsize hcut
  rw [hread] at hfollows
  have hlen := congrArg List.length hcut.eq
  simp only [List.length_append] at hlen
  rw [hparse]
  exact hfollows _ (by omega)

theorem parseTorrentFile_ended (hsize : data.length ≤ LONG_MAX)
    (hcut : CutInto LONG_MAX data ps blanks [])
    (hread : Reader.init.readAll ps = (found, some r)) :
    parseTorrentFile sha1 tr (some data) = some (r.ends, Found.storeAll sha1 found tr) := by
  obtain ⟨s, fuel, hat, htr, -, hparse⟩ := exists_place sha1 tr hsize hcut hread
  rw [hparse, resume_end sha1 hat hcut.blanks, htr]

theorem parseTorrentFile_stray (hsize : data.length ≤ LONG_MAX)
    (hcut : CutInto LONG_MAX data ps blanks t) (ht : Stray t)
    (hread : Reader.init.readAll ps = (found, some r)) :
    ∃ tr', parseTorrentFile sha1 tr (some data) = some (false, tr') := by
  obtain ⟨s, fuel, hat, -, hfuel, hparse⟩ := exists_place sha1 tr hsize hcut hread
  have hpos : 0 < t.length := by
    cases ht <;> simp
  obtain ⟨fuel, rfl⟩ := Nat.exists_eq_add_of_le' (show 2 ≤ fuel by omega)
  rw [hparse]
  exact resume_stray sha1 hat hcut.blanks ht fuel

theorem parseTorrentFile_stopsBefore (hsize : data.length ≤ LONG_MAX)
    (hcut : CutInto LONG_MAX data ps blanks t) (ht : r.StopsBefore t)
    (hread : Reader.init.readAll ps = (found, some r)) :
    parseTorrentFile sha1 tr (some data) = some (false, Found.storeAll sha1 found tr) := by
  obtain ⟨s, fuel, hat, htr, -, hparse⟩ := exists_place sha1 tr hsize hcut hread
  rw [hparse, resume_stopsBefore sha1 hat hcut.blanks ht, htr]

theorem parseTorrentFile_cut (hsize : data.length ≤ LONG_MAX)
    (hcut : CutInto LONG_MAX data ps blanks t) (ht : Cut LONG_MAX t) (hstops : ¬ r.StopsBefore t)
    (hread : Reader.init.readAll ps = (found, some r)) :
    parseTorrentFile sha1 tr (some data) = none := by
  obtain ⟨s, fuel, hat, -, -, hparse⟩ := exists_place sha1 tr hsize hcut hread
  rw [hparse, resume_cut sha1 hat hcut.blanks ht hstops]

theorem exists_of_parseTorrentFile_true {tr' : TorrentFile} (hsize : data.length ≤ LONG_MAX)
    (hcut : CutInto LONG_MAX data ps blanks t)
    (h : parseTorrentFile sha1 tr (some data) = some (true, tr')) :
    t = [] ∧ ∃ found r, Reader.init.readAll ps = (found, some r) ∧ r.ends = true ∧
      tr' = Found.storeAll sha1 found tr := by
  rcases hread : Reader.init.readAll ps with ⟨found, _ | r⟩
  · rw [parseTorrentFile_stopped sha1 tr hsize hcut hread] at h
    cases h
  · rcases hcut.tail with rfl | ht | ht
    · rw [parseTorrentFile_ended sha1 tr hsize hcut hread] at h
      have hboth := Prod.mk.inj (Option.some.inj h)
      exact ⟨rfl, found, r, rfl, hboth.1, hboth.2.symm⟩
    · obtain ⟨tr'', hfalse⟩ := parseTorrentFile_stray sha1 tr hsize hcut ht hread
      rw [hfalse] at h
      cases h
    · by_cases hstops : r.StopsBefore t
      · rw [parseTorrentFile_stopsBefore sha1 tr hsize hcut hstops hread] at h
        cases h
      · rw [parseTorrentFile_cut sha1 tr hsize hcut ht hstops hread] at h
        cases h

end ParseState

end BitTorrentBits
