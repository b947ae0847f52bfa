import BitTorrentBits.Torrent.StoredValues

/-!
# Calls of `perform_hash`

What the parser hands to `perform_hash`, in order. It makes at most one call, which sets the
info hash, and what the hash function returns does not change its course.
-/

namespace BitTorrentBits

open Bencode Tokenizer

namespace ParseState

/-- What the turn at this token hands to `perform_hash`. -/
def hashedBy (st : ParseState) : List (List UInt8) :=
  if st.atInfoEnd then
    Option.toList do
      let start ← st.infoStart
      let (err, tk) ← st.tk.next
      if err ≠ .TOKENIZER_OK then none
      else readAt tk.data start (toULong (((st.tk.current - 1 : Nat) : Int) - start + 1))
  else []

def hashCalls (sha1 : List UInt8 → List UInt8) : Nat → ParseState → List (List UInt8)
  | 0, _ => []
  | fuel + 1, st =>
    match st.tk.next with
    | some (.TOKENIZER_OK, tk) =>
      hashedBy { st with tk := tk } ++
        match parseToken sha1 { st with tk := tk } with
        | some (.again st) => hashCalls sha1 fuel st
        | _ => []
    | _ => []

end ParseState

/-- What `parseTorrentFile` hands to `perform_hash`. -/
def hashCalls (sha1 : List UInt8 → List UInt8) (tr : TorrentFile) (buf : Option (List UInt8)) :
    List (List UInt8) :=
  buf.elim [] fun data =>
    ParseState.hashCalls sha1 (2 * data.length + 2) {
      tk := Tokenizer.initTokenizer data
      tr := tr
      infoStart := none
      infoStartStackValue := 0
      infoEnd := none }

def TorrentFile.mapHash (f : List UInt8 → List UInt8) (tr : TorrentFile) : TorrentFile :=
  { tr with infoHash := tr.infoHash.map f }

namespace ParseState

def mapHash (f : List UInt8 → List UInt8) (st : ParseState) : ParseState :=
  { st with tr := st.tr.mapHash f }

end ParseState

def Turn.mapHash (f : List UInt8 → List UInt8) : Turn → Turn
  | .again st => .again (st.mapHash f)
  | .stop ok tr => .stop ok (tr.mapHash f)

namespace ParseState

variable {f : List UInt8 → List UInt8} {s s' : ParseState} {k k' : ParseState → Option Turn}

private theorem nextOk_mapHash (hk : ∀ s, k' (mapHash f s) = (k s).map (Turn.mapHash f))
    (s : ParseState) : (s.mapHash f).nextOk k' = (s.nextOk k).map (Turn.mapHash f) := by
  have htk : (s.mapHash f).tk = s.tk := rfl
  simp only [nextOk, htk]
  cases s.tk.next with
  | none => rfl
  | some result =>
    obtain ⟨err, tk⟩ := result
    by_cases herr : err = .TOKENIZER_OK
    · simp only [herr, ne_eq, not_true, if_false, Option.bind_eq_bind, Option.bind_some]
      exact hk { s with tk := tk }
    · simp [herr]
      rfl

private theorem expect_mapHash (hk : ∀ s, k' (mapHash f s) = (k s).map (Turn.mapHash f))
    (mark : List UInt8) (s : ParseState) :
    (s.mapHash f).expect mark k' = (s.expect mark k).map (Turn.mapHash f) := by
  apply nextOk_mapHash
  intro s
  have htk : (s.mapHash f).tokenMatches mark = s.tokenMatches mark := rfl
  simp only [htk]
  cases s.tokenMatches mark with
  | none => rfl
  | some found =>
    cases found with
    | false => rfl
    | true => exact hk s

private theorem parseValue_mapHash {record : List UInt8 → TorrentFile → Option TorrentFile}
    (hrecord : ∀ token tr, record token (tr.mapHash f) = (record token tr).map (·.mapHash f))
    (mark : List UInt8) (s : ParseState) :
    (s.mapHash f).parseValue mark record = (s.parseValue mark record).map (Turn.mapHash f) := by
  apply expect_mapHash
  intro s
  apply nextOk_mapHash
  intro s
  have hsame : record s.tk.token (s.mapHash f).tr = (record s.tk.token s.tr).map (·.mapHash f) :=
    hrecord _ _
  show ((record s.tk.token (s.mapHash f).tr).bind _) = _
  rw [hsame]
  cases record s.tk.token s.tr <;> rfl

private def storeHash (f : List UInt8 → List UInt8) (start stop : Nat) (st : ParseState) :
    Option Turn :=
  (readAt st.tk.data start (toULong ((stop : Int) - start + 1))).map fun info =>
    .again { st with tr := { st.tr with infoHash := some (f info) } }

private theorem parseInfoEnd_eq (f : List UInt8 → List UInt8) {start : Nat}
    (h : s.infoStart = some start) :
    s.parseInfoEnd f = nextOk { s with infoEnd := some (s.tk.current - 1) }
      (storeHash f start (s.tk.current - 1)) := by
  have hstore : ∀ st : ParseState, ((readAt st.tk.data start
      (toULong (((s.tk.current - 1 : Nat) : Int) - start + 1))).bind fun info =>
        some (Turn.again { st with tr := { st.tr with infoHash := some (f info) } })) =
      storeHash f start (s.tk.current - 1) st := by
    intro st
    rw [storeHash, Option.map_eq_bind]
    rfl
  simp only [parseInfoEnd, h, Option.bind_eq_bind, Option.bind_some, hstore]

private theorem parseInfoEnd_mapHash (s : ParseState) :
    (s.mapHash f).parseInfoEnd f = (s.parseInfoEnd id).map (Turn.mapHash f) := by
  cases hstart : s.infoStart with
  | none =>
    have hstart' : (s.mapHash f).infoStart = none := hstart
    simp [parseInfoEnd, hstart, hstart']
  | some start =>
    have hstart' : (s.mapHash f).infoStart = some start := hstart
    rw [parseInfoEnd_eq f hstart', parseInfoEnd_eq id hstart]
    apply nextOk_mapHash _ { s with infoEnd := some (s.tk.current - 1) }
    intro st
    have hdata : (st.mapHash f).tk.data = st.tk.data := rfl
    simp only [storeHash, hdata, Option.map_map]
    rfl

private theorem number_mapHash (record : Nat → TorrentFile → TorrentFile)
    (hrecord : ∀ n tr, record n (tr.mapHash f) = (record n tr).mapHash f) (token : List UInt8)
    (tr : TorrentFile) :
    (do
      let (num, _) ← strtol (token ++ [0])
      some (record (toULong num) (tr.mapHash f))) =
    Option.map (TorrentFile.mapHash f) (do
      let (num, _) ← strtol (token ++ [0])
      some (record (toULong num) tr)) := by
  cases strtol (token ++ [0]) with
  | none => rfl
  | some num => exact congrArg some (hrecord _ _)

theorem parseToken_mapHash (s : ParseState) :
    parseToken f (s.mapHash f) = (parseToken id s).map (Turn.mapHash f) := by
  have htk : (s.mapHash f).tk = s.tk := rfl
  have hend : (s.mapHash f).atInfoEnd = s.atInfoEnd := rfl
  simp only [parseToken, htk, hend]
  split_ifs
  · exact parseValue_mapHash (fun _ _ => rfl) _ s
  · exact parseValue_mapHash (fun _ _ => rfl) _ s
  · exact expect_mapHash (k := fun s => some (.again s)) (fun _ => rfl) _ { s with
      infoStart := some s.tk.current
      infoStartStackValue := s.tk.listDictStack }
  · exact parseInfoEnd_mapHash s
  · exact parseValue_mapHash (fun _ _ => rfl) _ s
  · exact parseValue_mapHash (number_mapHash (fun n tr => { tr with length := n }) fun _ _ => rfl) _ s
  · exact parseValue_mapHash
      (number_mapHash (fun n tr => { tr with pieceLength := n }) fun _ _ => rfl) _ s
  · exact parseValue_mapHash (fun _ _ => rfl) _ s
  · rfl

theorem hashCalls_mapHash (fuel : Nat) (s : ParseState) :
    hashCalls f fuel (s.mapHash f) = hashCalls id fuel s := by
  induction fuel generalizing s with
  | zero => rfl
  | succ fuel ih =>
    have htk : (s.mapHash f).tk = s.tk := rfl
    simp only [hashCalls, htk]
    rcases s.tk.next with _ | ⟨_ | _ | _, tk⟩
    · rfl
    · have hturn : parseToken f { s.mapHash f with tk := tk } =
          (parseToken id { s with tk := tk }).map (Turn.mapHash f) :=
        parseToken_mapHash { s with tk := tk }
      have hhashed : hashedBy { s.mapHash f with tk := tk } = hashedBy { s with tk := tk } := rfl
      simp only [hturn, hhashed]
      rcases parseToken id { s with tk := tk } with _ | st | ⟨ok, tr⟩
      · rfl
      · exact congrArg _ (ih st)
      · rfl
    · rfl
    · rfl

variable {sha1 : List UInt8 → List UInt8} {turn : Turn} {fuel : Nat} {ok : Bool} {tr : TorrentFile}

private def Unhashed (s : ParseState) (turn : Turn) : Prop :=
  turn.record.infoHash = s.tr.infoHash ∧ ∀ s', turn = .again s' → s'.infoEnd = s.infoEnd

private theorem unhashed_stop (s : ParseState) (ok : Bool) : Unhashed s (.stop ok s.tr) := by
  refine ⟨rfl, ?_⟩
  intro s' hagain
  cases hagain

private theorem unhashed_value {mark : List UInt8}
    {record : List UInt8 → TorrentFile → Option TorrentFile}
    (hrecord : ∀ token tr tr', record token tr = some tr' → tr'.infoHash = tr.infoHash)
    (h : s.parseValue mark record = some turn) : Unhashed s turn := by
  apply parseValue_rule (P := Unhashed s) h (unhashed_stop s false)
  intro v tk tr _ _ htr
  refine ⟨hrecord _ _ _ htr, ?_⟩
  intro s' hagain
  cases hagain
  rfl

private theorem number_unhashed (record : Nat → TorrentFile → TorrentFile)
    (hrecord : ∀ n tr, (record n tr).infoHash = tr.infoHash) (token : List UInt8)
    (tr tr' : TorrentFile)
    (h : (do
      let (num, _) ← strtol (token ++ [0])
      some (record (toULong num) tr)) = some tr') : tr'.infoHash = tr.infoHash := by
  obtain ⟨num, -, hsome⟩ := Option.bind_eq_some_iff.mp h
  cases hsome
  exact hrecord _ _

private theorem parseToken_unhashed (hend : s.atInfoEnd = false)
    (h : parseToken sha1 s = some turn) : Unhashed s turn := by
  unfold parseToken at h
  rw [hend] at h
  split_ifs at h
  · exact unhashed_value (fun _ _ _ heq => by cases heq; rfl) h
  · exact unhashed_value (fun _ _ _ heq => by cases heq; rfl) h
  · apply expect_rule (P := Unhashed s) h (unhashed_stop s false)
    intro tk _ hturn
    cases hturn
    refine ⟨rfl, ?_⟩
    intro s' hagain
    cases hagain
    rfl
  · contradiction
  · exact unhashed_value (fun _ _ _ heq => by cases heq; rfl) h
  · exact unhashed_value (number_unhashed (fun n tr => { tr with length := n }) fun _ _ => rfl) h
  · exact unhashed_value (number_unhashed (fun n tr => { tr with pieceLength := n }) fun _ _ => rfl) h
  · exact unhashed_value (fun _ _ _ heq => by cases heq; rfl) h
  · cases h
    refine ⟨rfl, ?_⟩
    intro s' hagain
    cases hagain
    rfl

private theorem parseToken_hashed (h : parseToken sha1 s = some turn) :
    hashedBy s = [] ∧ Unhashed s turn ∨
      ∃ b s', hashedBy s = [b] ∧ s.infoEnd = none ∧ turn = .again s' ∧ s'.infoEnd ≠ none ∧
        s'.tr.infoHash = some (sha1 b) := by
  cases hend : s.atInfoEnd with
  | false => exact Or.inl ⟨by simp [hashedBy, hend], parseToken_unhashed hend h⟩
  | true =>
    have hparts := hend
    simp only [atInfoEnd, Bool.and_eq_true, decide_eq_true_eq] at hparts
    obtain ⟨⟨⟨hstart, hopen⟩, -⟩, htoken⟩ := hparts
    obtain ⟨start, hstart⟩ := Option.isSome_iff_exists.mp hstart
    have hnamed : Key.named s.tk.token = none := by
      rw [htoken]
      exact Key.named_byte _
    rw [parseToken_unnamed sha1 hnamed, if_pos hend, parseInfoEnd_eq sha1 hstart] at h
    rcases hnext : s.tk.next with _ | ⟨err, tk⟩
    · simp [nextOk, hnext] at h
    · by_cases herr : err = .TOKENIZER_OK
      · subst herr
        rw [nextOk_of_ok (s := { s with infoEnd := some (s.tk.current - 1) }) hnext] at h
        obtain ⟨b, hread, rfl⟩ := Option.map_eq_some_iff.mp h
        refine Or.inr ⟨b, _, ?_, Option.isNone_iff_eq_none.mp hopen, rfl, Option.some_ne_none _, rfl⟩
        have hread' : readAt tk.data start
            (toULong (((s.tk.current - 1 : Nat) : Int) - start + 1)) = some b := hread
        simp [hashedBy, hend, hstart, hnext, hread']
      · rw [nextOk_of_not_ok (s := { s with infoEnd := some (s.tk.current - 1) }) hnext herr] at h
        cases h
        refine Or.inl ⟨?_, unhashed_stop s false⟩
        simp [hashedBy, hend, hstart, hnext, herr]

theorem hashCalls_cases (h : parseLoop sha1 fuel s = some (ok, tr)) :
    hashCalls sha1 fuel s = [] ∧ tr.infoHash = s.tr.infoHash ∨
      ∃ b, hashCalls sha1 fuel s = [b] ∧ s.infoEnd = none ∧ tr.infoHash = some (sha1 b) := by
  induction fuel generalizing s with
  | zero => contradiction
  | succ fuel ih =>
    obtain ⟨⟨err, tk⟩, hnext, hcode⟩ := Option.bind_eq_some_iff.mp h
    cases err with
    | TOKENIZER_END =>
      cases hcode
      exact Or.inl ⟨by simp only [hashCalls, hnext], rfl⟩
    | TOKENIZER_MALFORMED_STRING =>
      cases hcode
      exact Or.inl ⟨by simp only [hashCalls, hnext], rfl⟩
    | TOKENIZER_OK =>
      obtain ⟨turn, hturn, hrest⟩ := Option.bind_eq_some_iff.mp hcode
      simp only [hashCalls, hnext, hturn]
      rcases parseToken_hashed hturn with ⟨hnone, hrecord, hend⟩ | ⟨b, s', hb, hopen, rfl, hclosed, hhash⟩
      · rw [hnone, List.nil_append]
        cases turn with
        | stop ok' tr' =>
          cases hrest
          exact Or.inl ⟨rfl, hrecord⟩
        | again s' =>
          rcases ih hrest with ⟨hcalls, hsame⟩ | ⟨b, hcalls, hopen, hhash⟩
          · exact Or.inl ⟨hcalls, hsame.trans hrecord⟩
          · exact Or.inr ⟨b, hcalls, (hend s' rfl).symm.trans hopen, hhash⟩
      · right
        rcases ih hrest with ⟨hcalls, hsame⟩ | ⟨b', -, hopen', -⟩
        · exact ⟨b, by simp [hb, hcalls], hopen, hsame.trans hhash⟩
        · exact (hclosed hopen').elim

end ParseState

theorem hashCalls_eq_id (sha1 : List UInt8 → List UInt8) (buf : Option (List UInt8)) :
    hashCalls sha1 initTorrentFile buf = hashCalls id initTorrentFile buf := by
  cases buf with
  | none => rfl
  | some data =>
    have hmap := ParseState.hashCalls_mapHash (f := sha1) (2 * data.length + 2) {
      tk := Tokenizer.initTokenizer data
      tr := initTorrentFile
      infoStart := none
      infoStartStackValue := 0
      infoEnd := none }
    exact hmap

theorem hashCalls_of_parseTorrentFile {sha1 : List UInt8 → List UInt8} {buf : Option (List UInt8)}
    {ok : Bool} {tr : TorrentFile} (h : parseTorrentFile sha1 initTorrentFile buf = some (ok, tr)) :
    hashCalls sha1 initTorrentFile buf = [] ∧ tr.infoHash = none ∨
      ∃ b, hashCalls sha1 initTorrentFile buf = [b] ∧ tr.infoHash = some (sha1 b) := by
  cases buf with
  | none => contradiction
  | some data =>
    rcases ParseState.hashCalls_cases h with hnone | ⟨b, hone, -, hhash⟩
    · exact Or.inl hnone
    · exact Or.inr ⟨b, hone, hhash⟩

end BitTorrentBits
