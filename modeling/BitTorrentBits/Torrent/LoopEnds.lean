import BitTorrentBits.Torrent.ParseTurns

/-!
# The end of the parsing loop

Every turn of the parsing loop but the last one takes a token, so the loop ends as the calls
of the tokenizer do.
-/

namespace BitTorrentBits.ParseState

open LoopTurn Tokenizer

variable (sha1 : List UInt8 → List UInt8) {s s' : ParseState} {t : Turn}

def turn (st : ParseState) : Option (LoopTurn ParseState (Bool × TorrentFile)) := do
  let (err, tk) ← st.tk.next
  match err with
  | .TOKENIZER_END => some (.leave (true, st.tr))
  | .TOKENIZER_MALFORMED_STRING => some (.leave (false, st.tr))
  | .TOKENIZER_OK =>
    match ← parseToken sha1 { st with tk := tk } with
    | .stop ok tr => some (.leave (ok, tr))
    | .again st => some (.again st)

theorem parseLoop_eq_loop (fuel : Nat) (s : ParseState) :
    parseLoop sha1 fuel s = (loop (turn sha1) fuel s).join := by
  induction fuel generalizing s with
  | zero => rfl
  | succ fuel ih =>
    rw [parseLoop, loop, turn]
    cases hnext : s.tk.next with
    | none => rfl
    | some r =>
      obtain ⟨err, tk⟩ := r
      cases err with
      | TOKENIZER_END => rfl
      | TOKENIZER_MALFORMED_STRING => rfl
      | TOKENIZER_OK =>
        cases hturn : parseToken sha1 { s with tk := tk } with
        | none => simp [hturn]
        | some t =>
          cases t with
          | stop ok tr => simp [hturn]
          | again s' => simp [hturn, ih]

private def Spends (s : ParseState) (t : Turn) : Prop :=
  ∀ s', t = .again s' → s'.tk.callsLeft ≤ s.tk.callsLeft

private theorem spends_stop (s : ParseState) (ok : Bool) (tr : TorrentFile) :
    Spends s (.stop ok tr) := by
  intro s' h
  cases h

private theorem spends_again (h : s'.tk.callsLeft ≤ s.tk.callsLeft) : Spends s (.again s') := by
  intro s'' heq
  cases heq
  exact h

private theorem spends_parseValue {mark : List UInt8}
    {record : List UInt8 → TorrentFile → Option TorrentFile}
    (h : s.parseValue mark record = some t) : Spends s t := by
  apply parseValue_rule (P := Spends s) h (spends_stop s false s.tr)
  intro v tk tr hnext hnext' _
  have hfirst := callsLeft_lt hnext
  have hsecond := callsLeft_lt hnext'
  apply spends_again
  change tk.callsLeft ≤ s.tk.callsLeft
  omega

private theorem spends_parseInfo (h : s.parseInfo = some t) : Spends s t := by
  apply expect_rule (P := Spends s) h (spends_stop s false s.tr)
  intro tk hnext hturn
  cases hturn
  exact spends_again (Nat.le_of_lt (callsLeft_lt hnext))

private theorem spends_parseInfoEnd (h : s.parseInfoEnd sha1 = some t) : Spends s t := by
  obtain ⟨start, -, h⟩ := Option.bind_eq_some_iff.mp h
  apply nextOk_rule (P := Spends s) h (spends_stop s false s.tr)
  intro tk hnext hturn
  obtain ⟨info, -, hagain⟩ := Option.bind_eq_some_iff.mp hturn
  cases hagain
  exact spends_again (Nat.le_of_lt (callsLeft_lt hnext))

private theorem spends_parseToken (h : parseToken sha1 s = some t) : Spends s t := by
  unfold parseToken at h
  split_ifs at h
  · exact spends_parseValue h
  · exact spends_parseValue h
  · exact spends_parseInfo h
  · exact spends_parseInfoEnd sha1 h
  · exact spends_parseValue h
  · exact spends_parseValue h
  · exact spends_parseValue h
  · exact spends_parseValue h
  · cases h
    exact spends_again (Nat.le_refl _)

theorem turn_falls : Falls (turn sha1) fun s => s.tk.callsLeft := by
  intro s s' h
  obtain ⟨⟨err, tk⟩, hnext, h⟩ := Option.bind_eq_some_iff.mp h
  cases err with
  | TOKENIZER_END => simp at h
  | TOKENIZER_MALFORMED_STRING => simp at h
  | TOKENIZER_OK =>
    obtain ⟨t, ht, h⟩ := Option.bind_eq_some_iff.mp h
    cases t with
    | stop ok tr => simp at h
    | again s'' =>
      cases h
      have hle : s'.tk.callsLeft ≤ tk.callsLeft := spends_parseToken sha1 ht s' rfl
      exact hle.trans_lt (callsLeft_lt hnext)

/-- On every byte string: at most two calls of `next` for each byte are successful, and what
fails after them fails for ever; each call ends, whatever the state; and so does the loop of
the parser. -/
theorem calls_end (data : List UInt8) :
    (∃ n ≤ 2 * data.length,
      (∀ k < n, ∃ u, nextAfter k (initTokenizer data) = some (.TOKENIZER_OK, u)) ∧
      (nextAfter n (initTokenizer data) = none ∨
        ∃ c u, c ≠ .TOKENIZER_OK ∧ ∀ k, nextAfter (n + k) (initTokenizer data) = some (c, u))) ∧
    (∀ (t : Tokenizer) (fuel : Nat), t.rest.length + 2 ≤ fuel →
      loop statusTurn fuel t = some t.next) ∧
    ∀ (tr : TorrentFile) (fuel : Nat), 2 * data.length + 1 ≤ fuel →
      loop (turn sha1) fuel ⟨initTokenizer data, tr, none, 0, none⟩ =
        some (parseTorrentFile sha1 tr (some data)) := by
  refine ⟨exists_lastCall (initTokenizer data), fun t fuel => loop_statusTurn t, ?_⟩
  intro tr fuel hfuel
  obtain ⟨r, hr⟩ : ∃ r, loop (turn sha1) (2 * data.length + 1)
      ⟨initTokenizer data, tr, none, 0, none⟩ = some r :=
    exists_loop_of_falls (turn_falls sha1) (Nat.lt_succ_self _)
  have hparse : parseTorrentFile sha1 tr (some data) = r := by
    change parseLoop sha1 _ _ = r
    rw [parseLoop_eq_loop, loop_mono hr (Nat.le_succ _), Option.join_some]
  rw [loop_mono hr hfuel, hparse]

end BitTorrentBits.ParseState
