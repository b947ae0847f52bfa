import BitTorrentBits.Torrent.ParseTurns

/-!
# Stored values

Whatever the data, a turn of the parser changes the record by storing one value in it, so the
record it leaves is made of stored values.
-/

namespace BitTorrentBits

open Bencode Tokenizer

/-- Values stored one after the other lead from `tr` to `tr'`. -/
def Stores (sha1 : List UInt8 → List UInt8) (tr tr' : TorrentFile) : Prop :=
  ∃ ts, tr' = Taken.storeAll sha1 ts tr

variable {sha1 : List UInt8 → List UInt8} {tr tr' tr'' : TorrentFile}

theorem Stores.refl (tr : TorrentFile) : Stores sha1 tr tr := ⟨[], rfl⟩

theorem Stores.one (t : Taken) (tr : TorrentFile) : Stores sha1 tr (t.store sha1 tr) := ⟨[t], rfl⟩

theorem Stores.trans (h : Stores sha1 tr tr') (h' : Stores sha1 tr' tr'') :
    Stores sha1 tr tr'' := by
  obtain ⟨ts, rfl⟩ := h
  obtain ⟨ts', rfl⟩ := h'
  exact ⟨ts ++ ts', (List.foldl_append ..).symm⟩

theorem Stores.invariant {P : TorrentFile → Prop}
    (hstore : ∀ t tr, P tr → P (Taken.store sha1 t tr)) (h : Stores sha1 tr tr') (htr : P tr) :
    P tr' := by
  obtain ⟨ts, rfl⟩ := h
  induction ts generalizing tr with
  | nil => exact htr
  | cons t ts ih => exact ih (hstore t tr htr)

def Turn.record : Turn → TorrentFile
  | .again st => st.tr
  | .stop _ tr => tr

namespace ParseState

variable {s s' : ParseState} {turn : Turn}

private theorem parseValue_stores {mark : List UInt8}
    {record : List UInt8 → TorrentFile → Option TorrentFile}
    (hrecord : ∀ token tr, record token s.tr = some tr → Stores sha1 s.tr tr)
    (h : s.parseValue mark record = some turn) : Stores sha1 s.tr turn.record :=
  parseValue_rule (P := fun turn => Stores sha1 s.tr turn.record) h (.refl _)
    fun _ _ tr _ _ htr => hrecord _ tr htr

private theorem strtol_range {bs : List UInt8} {num : Int} {n : Nat}
    (h : strtol bs = some (num, n)) : -2 ^ 63 ≤ num ∧ num ≤ LONG_MAX := by
  unfold strtol at h
  dsimp only at h
  unfold LONG_MAX at h ⊢
  split_ifs at h
  · cases h
    omega
  · cases h
    omega

private theorem storedNumber_of_range {num : Int} (h : -2 ^ 63 ≤ num ∧ num ≤ LONG_MAX) :
    storedNumber num = toULong num := by
  rw [storedNumber, min_eq_left h.2, max_eq_right h.1]

private theorem number_stores (key : IntKey) (record : Nat → TorrentFile → TorrentFile)
    {token : List UInt8}
    (hrecord : ∀ n tr, record (storedNumber n) tr = (Taken.int key n).store sha1 tr)
    {tr tr' : TorrentFile}
    (h : (do
      let (num, _) ← strtol (token ++ [0])
      some (record (toULong num) tr)) = some tr') : Stores sha1 tr tr' := by
  obtain ⟨⟨num, n⟩, hnum, hsome⟩ := Option.bind_eq_some_iff.mp h
  cases hsome
  rw [← storedNumber_of_range (strtol_range hnum), hrecord]
  exact .one _ _

private theorem parseInfoEnd_stores (h : s.parseInfoEnd sha1 = some turn) :
    Stores sha1 s.tr turn.record := by
  obtain ⟨start, -, hturn⟩ := Option.bind_eq_some_iff.mp h
  apply nextOk_rule (P := fun turn => Stores sha1 s.tr turn.record) hturn (.refl _)
  intro tk _ hturn'
  obtain ⟨info, -, hagain⟩ := Option.bind_eq_some_iff.mp hturn'
  cases hagain
  exact .one (.info info) _

theorem parseToken_stores (h : parseToken sha1 s = some turn) : Stores sha1 s.tr turn.record := by
  unfold parseToken at h
  split_ifs at h
  · exact parseValue_stores (fun token tr htr => by cases htr; exact .one (.str .announce token) _) h
  · exact parseValue_stores (fun token tr htr => by cases htr; exact .one (.str .comment token) _) h
  · apply expect_rule (P := fun turn => Stores sha1 s.tr turn.record) h (.refl _)
    intro tk _ hturn
    cases hturn
    exact .refl _
  · exact parseInfoEnd_stores h
  · exact parseValue_stores (fun token tr htr => by cases htr; exact .one (.str .name token) _) h
  · exact parseValue_stores (fun token tr htr =>
      number_stores .length (fun n tr => { tr with length := n }) (fun _ _ => rfl) htr) h
  · exact parseValue_stores (fun token tr htr =>
      number_stores .pieceLength (fun n tr => { tr with pieceLength := n }) (fun _ _ => rfl) htr) h
  · exact parseValue_stores (fun token tr htr => by cases htr; exact .one (.str .pieces token) _) h
  · cases h
    exact .refl _

theorem parseLoop_stores {ok : Bool} {fuel : Nat}
    (h : parseLoop sha1 fuel s = some (ok, tr')) : Stores sha1 s.tr tr' := by
  induction fuel generalizing s with
  | zero => contradiction
  | succ fuel ih =>
    obtain ⟨⟨err, tk⟩, -, hcode⟩ := Option.bind_eq_some_iff.mp h
    cases err with
    | TOKENIZER_END =>
      cases hcode
      exact .refl _
    | TOKENIZER_MALFORMED_STRING =>
      cases hcode
      exact .refl _
    | TOKENIZER_OK =>
      obtain ⟨turn, hturn, hrest⟩ := Option.bind_eq_some_iff.mp hcode
      have hstores := parseToken_stores hturn
      cases turn with
      | stop ok' tr =>
        cases hrest
        exact hstores
      | again st => exact hstores.trans (ih hrest)

end ParseState

/-- Whatever the parser returns, the record is made of values stored one after the other. -/
theorem parseTorrentFile_stores {buf : Option (List UInt8)} {ok : Bool}
    (h : parseTorrentFile sha1 tr buf = some (ok, tr')) : Stores sha1 tr tr' := by
  obtain ⟨data, -, hloop⟩ := Option.bind_eq_some_iff.mp h
  exact ParseState.parseLoop_stores hloop

/-- What holds of the record before and after every run of the parser. -/
structure TorrentFile.Stored (tr : TorrentFile) : Prop where
  announce : ∀ s, tr.announce = some s → ∃ text, s = text ++ [0]
  length : tr.length < 2 ^ 64
  numPieces : tr.numPieces = (tr.pieceHashes.getD []).length

theorem stored_init : initTorrentFile.Stored := by
  constructor <;> simp [initTorrentFile]

theorem toULong_lt (z : Int) : toULong z < 2 ^ 64 := by
  unfold toULong
  omega

theorem Stores.stored (h : Stores sha1 tr tr') (htr : tr.Stored) : tr'.Stored := by
  apply h.invariant _ htr
  intro t tr htr
  obtain ⟨hannounce, hlength, hpieces⟩ := htr
  rcases t with ⟨_ | _ | _ | _, s⟩ | ⟨_ | _, n⟩ | bytes
  · refine ⟨fun s' hs' => ?_, hlength, hpieces⟩
    cases hs'
    exact ⟨s, rfl⟩
  · exact ⟨hannounce, hlength, hpieces⟩
  · exact ⟨hannounce, hlength, hpieces⟩
  · refine ⟨hannounce, hlength, ?_⟩
    change s.length / BT_HASH_LENGTH = (ParseState.hashBlocks s).length
    simp [ParseState.hashBlocks]
  · exact ⟨hannounce, toULong_lt _, hpieces⟩
  · exact ⟨hannounce, hlength, hpieces⟩
  · exact ⟨hannounce, hlength, hpieces⟩

theorem Stores.infoHash_length {n : Nat} (hsha1 : ∀ bytes, (sha1 bytes).length = n)
    (h : Stores sha1 initTorrentFile tr) {infoHash : List UInt8}
    (hhash : tr.infoHash = some infoHash) : infoHash.length = n := by
  revert infoHash
  apply h.invariant (P := fun tr => ∀ {infoHash}, tr.infoHash = some infoHash → infoHash.length = n)
  · intro t tr htr infoHash hhash
    rcases t with ⟨_ | _ | _ | _, s⟩ | ⟨_ | _, n⟩ | bytes
    case info =>
      cases hhash
      exact hsha1 bytes
    all_goals exact htr hhash
  · intro infoHash hhash
    contradiction

end BitTorrentBits
