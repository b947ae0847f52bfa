import BitTorrentBits.Pieces.DownloadedFile

/-!
# The output file

What `write_to_file` leaves behind when it answers true. It writes `piece_length` bytes for
every piece, the last one included, and keeps the count of `fwrite` in an `int`.
-/

namespace BitTorrentBits.DownloadedFile

def lastAdded : List PieceProgress → Nat → Option (List UInt8)
  | [], _ => none
  | pp :: pps, i => (lastAdded pps i).or (if pp.index = i then some pp.buf else none)

/-- Whenever `write_to_file` answers true after any run of additions of full pieces, over a disk
that removes and closes files as it should, the output file is the torrent's file: its length and
every byte of it. -/
def WritesWholeFile (tf : TorrentFile) : Prop :=
  ∀ fresh pps df (disk : Disk) old out, disk.Reliable →
    addPieces fresh (initDownloadedFile tf) pps = some df →
    (∀ pp ∈ pps, pp.size = tf.pieceLength) → df.writeToFile disk old = some (true, out) →
    ∃ bytes, out = some bytes ∧ bytes.length = tf.length ∧
      ∀ k < tf.length, bytes[k]? =
        (lastAdded pps (k / tf.pieceLength)).bind fun piece => piece[k % tf.pieceLength]?

/-- The file has no bytes, or full pieces make it up exactly and an `int` holds the count of
one, or no count converted to `int` and back equals `piece_length`. -/
def PiecesFill (tf : TorrentFile) : Prop :=
  tf.length = 0 ∨ (tf.pieceLength < 2 ^ 31 ∧ tf.pieceLength ∣ tf.length) ∨
    (2 ^ 31 ≤ tf.pieceLength ∧ tf.pieceLength < 2 ^ 64 - 2 ^ 31)

variable {fresh : Nat → UInt8} {df df' : DownloadedFile} {pps : List PieceProgress}

theorem addPieces_cons {pp : PieceProgress} (h : addPieces fresh df (pp :: pps) = some df') :
    ∃ df₁, df.addPiece fresh pp = some (true, df₁) ∧ addPieces fresh df₁ pps = some df' := by
  obtain ⟨⟨ok, df₁⟩, hadd, hrest⟩ := Option.bind_eq_some_iff.mp h
  obtain ⟨rfl, -⟩ := addPiece_eq_some hadd
  exact ⟨df₁, hadd, hrest⟩

theorem addPieces_tf (h : addPieces fresh df pps = some df') : df'.tf = df.tf := by
  induction pps generalizing df with
  | nil =>
    cases h
    rfl
  | cons pp pps ih =>
    obtain ⟨df₁, hadd, hrest⟩ := addPieces_cons h
    rw [ih hrest]
    exact (addPiece_eq_some hadd).2.2.2.1

theorem stored_addPieces (h : addPieces fresh df pps = some df') (j : Nat) :
    df'.Stored j ↔ (∃ pp ∈ pps, pp.index = j) ∨ df.Stored j := by
  induction pps generalizing df with
  | nil =>
    cases h
    simp
  | cons pp pps ih =>
    obtain ⟨df₁, hadd, hrest⟩ := addPieces_cons h
    rw [ih hrest, stored_addPiece hadd, List.exists_mem_cons_iff, eq_comm (a := j), ← or_assoc]
    exact or_congr_left or_comm

theorem addPieces_slot (h : addPieces fresh df pps = some df')
    (hsize : ∀ pp ∈ pps, pp.size = df.tf.pieceLength) {i : Nat} {slot : Option (List UInt8)}
    (hi : df.piecesBuf[i]? = some slot) :
    df'.piecesBuf[i]? = some ((lastAdded pps i).or slot) := by
  induction pps generalizing df slot with
  | nil =>
    cases h
    exact hi
  | cons pp pps ih =>
    obtain ⟨df₁, hadd, hrest⟩ := addPieces_cons h
    obtain ⟨-, hlt, -, htf, hbuf⟩ := addPiece_eq_some hadd
    have hpp : pp.buf.length = df.tf.pieceLength := hsize pp List.mem_cons_self
    have hfull : copied fresh df.tf.pieceLength pp.buf = pp.buf := hpp ▸ copied_full fresh pp.buf
    have hin : i < df.piecesBuf.length := (List.getElem?_eq_some_iff.mp hi).1
    have hslot : df₁.piecesBuf[i]? = some ((if pp.index = i then some pp.buf else none).or slot) := by
      rw [hbuf, hfull, List.getElem?_set]
      split_ifs <;> simp_all
    rw [ih hrest (htf ▸ fun q hq => hsize q (List.mem_cons_of_mem _ hq)) hslot, lastAdded,
      Option.or_assoc]

theorem addPieces_isSome (hfit : ∀ pp ∈ pps, pp.index < df.tf.numPieces ∧
    pp.size ≤ df.tf.pieceLength) : ∃ df', addPieces fresh df pps = some df' := by
  induction pps generalizing df with
  | nil => exact ⟨df, rfl⟩
  | cons pp pps ih =>
    obtain ⟨hi, hs⟩ := hfit pp List.mem_cons_self
    obtain ⟨df₁, hadd⟩ := addPiece_isSome fresh hi hs
    have htf := (addPiece_eq_some hadd).2.2.2.1
    have hrest : ∀ pp ∈ pps, pp.index < df₁.tf.numPieces ∧ pp.size ≤ df₁.tf.pieceLength := by
      rw [htf]
      exact fun q hq => hfit q (List.mem_cons_of_mem _ hq)
    obtain ⟨df', hrest⟩ := ih hrest
    refine ⟨df', ?_⟩
    rw [addPieces, hadd]
    exact hrest

theorem pieces_of_hasAllPieces (h : df.hasAllPieces = true) :
    ∃ pieces : List (List UInt8), df.piecesBuf = pieces.map some ∧
      ∀ piece ∈ pieces, piece.length = df.tf.pieceLength := by
  have hall : ∀ slots : List (Option (List UInt8)), slots.all Option.isSome = true →
      ∃ pieces : List (List UInt8), slots = pieces.map some := by
    intro slots hslots
    induction slots with
    | nil => exact ⟨[], rfl⟩
    | cons slot slots ih =>
      rw [List.all_cons, Bool.and_eq_true] at hslots
      obtain ⟨piece, rfl⟩ := Option.isSome_iff_exists.mp hslots.1
      obtain ⟨pieces, rfl⟩ := ih hslots.2
      exact ⟨piece :: pieces, rfl⟩
  obtain ⟨pieces, hpieces⟩ := hall _ h
  refine ⟨pieces, hpieces, ?_⟩
  intro piece hmem
  apply df.size_eq
  rw [hpieces]
  exact List.mem_map_of_mem hmem

variable {disk : Disk} {pieces : List (List UInt8)} {pl i : Nat} {out out' : List UInt8}

theorem writePieces_prefix (hpl : pl < 2 ^ 31) (hlen : ∀ piece ∈ pieces, piece.length = pl)
    {ok : Bool} (h : writePieces disk pl i (pieces.map some) out = some (ok, out')) :
    ∃ written, out' = out ++ written ∧ written <+: pieces.flatten ∧
      (ok = true → written = pieces.flatten) := by
  induction pieces generalizing i out with
  | nil =>
    cases h
    exact ⟨[], (List.append_nil _).symm, List.nil_prefix, fun _ => rfl⟩
  | cons piece pieces ih =>
    have hpiece : piece.length = pl := hlen piece List.mem_cons_self
    rw [List.map_cons, writePieces] at h
    split at h
    · cases h
      refine ⟨_, rfl, (List.take_prefix _ _).trans ?_, nofun⟩
      rw [List.flatten_cons]
      exact List.prefix_append _ _
    · rename_i hcount
      rw [toULong_toInt_of_lt (by simp only [List.length_take]; omega), not_not] at hcount
      have hwritten : piece.take (disk.writes i) = piece := by
        apply (List.take_sublist _ _).eq_of_length
        rw [hcount, hpiece]
      rw [hwritten] at h
      obtain ⟨written, hout, hprefix, hwhole⟩ :=
        ih (fun q hq => hlen q (List.mem_cons_of_mem _ hq)) h
      refine ⟨piece ++ written, ?_, ?_, fun hok => ?_⟩
      · rw [hout, List.append_assoc]
      · rw [List.flatten_cons]
        exact (List.prefix_append_right_inj piece).mpr hprefix
      · rw [hwhole hok, List.flatten_cons]

private theorem writePieces_flatten (hpl : pl < 2 ^ 31) (hlen : ∀ piece ∈ pieces, piece.length = pl)
    (h : writePieces disk pl i (pieces.map some) out = some (true, out')) :
    out' = out ++ pieces.flatten := by
  obtain ⟨written, hout, -, hwhole⟩ := writePieces_prefix hpl hlen h
  rw [hout, hwhole rfl]

theorem writePieces_of_count {m : Nat} (hm : ∀ j, min (disk.writes j) pl = m)
    (hcount : toULong (toInt m) = pl) (hlen : ∀ piece ∈ pieces, piece.length = pl) :
    writePieces disk pl i (pieces.map some) out =
      some (true, out ++ (pieces.map fun piece => piece.take m).flatten) := by
  induction pieces generalizing i out with
  | nil => simp [writePieces]
  | cons piece pieces ih =>
    have hpiece : piece.length = pl := hlen piece List.mem_cons_self
    have hwritten : piece.take (disk.writes i) = piece.take m := by
      rw [← hm i, ← hpiece, ← List.take_take, List.take_length]
    have hlength : (piece.take m).length = m := by
      have hle : m ≤ pl := hm i ▸ Nat.min_le_right _ _
      rw [List.length_take_of_le (by omega)]
    rw [List.map_cons, writePieces]
    simp only [hwritten, hlength, hcount, ne_eq, not_true_eq_false, if_false]
    rw [ih fun q hq => hlen q (List.mem_cons_of_mem _ hq)]
    simp

private theorem writePieces_never (h : 2 ^ 31 ≤ pl) (h' : pl < 2 ^ 64 - 2 ^ 31)
    (hne : pieces ≠ []) : writePieces disk pl i (pieces.map some) out ≠ some (true, out') := by
  cases pieces with
  | nil => contradiction
  | cons piece pieces =>
    rw [List.map_cons, writePieces, if_pos (toULong_toInt_ne h h' _)]
    simp

theorem Disk.Reliable.removed_eq (h : disk.Reliable) (old : Option (List UInt8)) :
    disk.removed old = none := by
  rw [removed, h.removes]
  rfl

theorem writeToFile_eq_true {old out : Option (List UInt8)} (hdisk : disk.Reliable)
    (h : df.writeToFile disk old = some (true, out)) :
    df.hasAllPieces = true ∧ ∃ bytes, out = some bytes ∧
      writePieces disk df.tf.pieceLength 0 df.piecesBuf [] = some (true, bytes) := by
  unfold writeToFile at h
  split_ifs at h with hall hopens
  · cases h
  · cases h
  · obtain ⟨⟨ok, bytes⟩, hwrite, hout⟩ := Option.map_eq_some_iff.mp h
    cases hout
    refine ⟨by simpa using hall, bytes, ?_, hwrite⟩
    rw [hdisk.removed_eq, List.take_of_length_le (hdisk.flushes bytes.length)]
    rfl

/-- What a call leaves of a file that has all its pieces: what `remove` has left, or that with a
beginning of the pieces behind it. -/
theorem writeToFile_of_hasAllPieces {old out : Option (List UInt8)} {ok : Bool}
    (hpl : df.tf.pieceLength < 2 ^ 31) (hpieces : df.piecesBuf = pieces.map some)
    (h : df.writeToFile disk old = some (ok, out)) :
    (ok = false ∧ out = disk.removed old) ∨ ∃ written,
      out = some ((disk.removed old).getD [] ++ written) ∧ written <+: pieces.flatten ∧
      (ok = true → written = pieces.flatten.take (disk.flushes pieces.flatten.length)) := by
  have hall : df.hasAllPieces = true := by
    rw [hasAllPieces, hpieces]
    simp
  have hlen : ∀ piece ∈ pieces, piece.length = df.tf.pieceLength := by
    intro piece hpiece
    apply df.size_eq
    rw [hpieces]
    exact List.mem_map_of_mem hpiece
  rw [writeToFile, hall] at h
  split_ifs at h with _ hopens
  · contradiction
  · cases h
    exact Or.inl ⟨rfl, rfl⟩
  · obtain ⟨⟨ok', bytes⟩, hwrite, hout⟩ := Option.map_eq_some_iff.mp h
    cases hout
    rw [hpieces] at hwrite
    obtain ⟨written, rfl, hprefix, hwhole⟩ := writePieces_prefix hpl hlen hwrite
    refine Or.inr ⟨_, rfl, (List.take_prefix _ _).trans hprefix, fun hok => ?_⟩
    rw [hwhole hok]

private theorem length_of_writesWholeFile {tf : TorrentFile} (h : WritesWholeFile tf) {m : Nat}
    (hm : m ≤ tf.pieceLength) (hcount : toULong (toInt m) = tf.pieceLength) :
    tf.length = tf.numPieces * m := by
  have hrun : ∃ df, addPieces (fun _ => 0) (initDownloadedFile tf)
      ((List.range tf.numPieces).map fun i =>
        ⟨i, List.replicate tf.pieceLength 0, tf.pieceLength⟩) = some df := by
    apply addPieces_isSome
    simp [PieceProgress.size, initDownloadedFile]
  obtain ⟨df, hdf⟩ := hrun
  have htf : df.tf = tf := addPieces_tf hdf
  have hall : df.hasAllPieces = true := by
    rw [hasAllPieces_iff, htf]
    intro i hi
    rw [stored_addPieces hdf]
    left
    simpa using hi
  obtain ⟨pieces, hpieces, hlen⟩ := pieces_of_hasAllPieces hall
  rw [htf] at hlen
  have hwrite : df.writeToFile ⟨true, true, fun _ => m, id⟩ none =
      some (true, some (pieces.map fun piece => piece.take m).flatten) := by
    rw [writeToFile, hall, hpieces, htf, writePieces_of_count (fun _ => Nat.min_eq_left hm) hcount hlen]
    simp [Disk.removed]
  obtain ⟨bytes, hbytes, hlength, -⟩ :=
    h _ _ df _ none _ ⟨rfl, Nat.le_refl⟩ hdf (by simp [PieceProgress.size]) hwrite
  cases hbytes
  have hnum : pieces.length = tf.numPieces := by
    rw [← htf, ← df.length_eq, hpieces, List.length_map]
  rw [← hlength, ← hnum, ← List.length_map fun piece : List UInt8 => piece.take m]
  apply length_flatten_blocks
  intro block hblock
  obtain ⟨piece, hpiece, rfl⟩ := List.mem_map.mp hblock
  rw [List.length_take, hlen piece hpiece, Nat.min_eq_left hm]

private theorem pieces_eq_lastAdded {tf : TorrentFile}
    (hrun : addPieces fresh (initDownloadedFile tf) pps = some df)
    (hsize : ∀ pp ∈ pps, pp.size = tf.pieceLength) (hpieces : df.piecesBuf = pieces.map some)
    {j : Nat} (hj : j < tf.numPieces) : pieces[j]? = lastAdded pps j := by
  have hinit : (initDownloadedFile tf).piecesBuf[j]? = some none := by
    simp [initDownloadedFile, hj]
  have hslot := addPieces_slot hrun hsize hinit
  rw [hpieces, List.getElem?_map, Option.or_none] at hslot
  obtain ⟨piece, hpiece, hsome⟩ := Option.map_eq_some_iff.mp hslot
  rw [hpiece, hsome]

private theorem numPieces_eq_zero {length pl : Nat} (hpl : 1 ≤ pl) :
    (length + pl - 1) / pl = 0 ↔ length = 0 := by
  rw [Nat.div_eq_zero_iff]
  omega

private theorem numPieces_mul {length pl : Nat} (hpl : 1 ≤ pl) (h : pl ∣ length) :
    (length + pl - 1) / pl * pl = length := by
  obtain ⟨c, rfl⟩ := h
  rw [Nat.add_sub_assoc hpl, Nat.mul_add_div hpl, Nat.div_eq_of_lt (by omega), Nat.add_zero,
    Nat.mul_comm]

private theorem writesWholeFile_of_dvd {tf : TorrentFile} (hpos : 1 ≤ tf.pieceLength)
    (hn : tf.numPieces = (tf.length + tf.pieceLength - 1) / tf.pieceLength)
    (hpl : tf.pieceLength < 2 ^ 31) (hdvd : tf.pieceLength ∣ tf.length) :
    WritesWholeFile tf := by
  intro fresh pps df disk old out hdisk hrun hsize hwrite
  obtain ⟨hall, bytes, hout, hbytes⟩ := writeToFile_eq_true hdisk hwrite
  obtain ⟨pieces, hpieces, hlen⟩ := pieces_of_hasAllPieces hall
  have htf : df.tf = tf := addPieces_tf hrun
  rw [htf] at hlen hbytes
  rw [hpieces] at hbytes
  have hflat : bytes = pieces.flatten := by simpa using writePieces_flatten hpl hlen hbytes
  have hmul : tf.numPieces * tf.pieceLength = tf.length := hn ▸ numPieces_mul hpos hdvd
  have hnum : pieces.length = tf.numPieces := by
    rw [← htf, ← df.length_eq, hpieces, List.length_map]
  refine ⟨bytes, hout, ?_, ?_⟩
  · rw [hflat, length_flatten_blocks hlen, hnum, hmul]
  · intro k hk
    have hj : k / tf.pieceLength < tf.numPieces := by
      rwa [Nat.div_lt_iff_lt_mul hpos, hmul]
    rw [hflat, getElem?_flatten_blocks hpos hlen, pieces_eq_lastAdded hrun hsize hpieces hj]

private theorem writesWholeFile_of_no_count {tf : TorrentFile}
    (h : tf.numPieces = 0 ∧ tf.length = 0 ∨
      2 ^ 31 ≤ tf.pieceLength ∧ tf.pieceLength < 2 ^ 64 - 2 ^ 31 ∧ tf.numPieces ≠ 0) :
    WritesWholeFile tf := by
  intro fresh pps df disk old out hdisk hrun hsize hwrite
  obtain ⟨hall, bytes, hout, hbytes⟩ := writeToFile_eq_true hdisk hwrite
  obtain ⟨pieces, hpieces, hlen⟩ := pieces_of_hasAllPieces hall
  have htf : df.tf = tf := addPieces_tf hrun
  have hnum : pieces.length = tf.numPieces := by
    rw [← htf, ← df.length_eq, hpieces, List.length_map]
  rw [hpieces, htf] at hbytes
  rcases h with ⟨hzero, hlength⟩ | ⟨hlow, hhigh, hsome⟩
  · rw [hzero, List.length_eq_zero_iff] at hnum
    subst hnum
    cases hbytes
    refine ⟨[], hout, hlength.symm, ?_⟩
    intro k hk
    omega
  · have hne : pieces ≠ [] := by
      intro hnil
      rw [hnil] at hnum
      exact hsome hnum.symm
    exact (writePieces_never hlow hhigh hne hbytes).elim

/-- For a torrent with as many pieces as its length needs, a true answer of `write_to_file`
always leaves the torrent's file exactly when the pieces fill it. -/
theorem writesWholeFile_iff_piecesFill (tf : TorrentFile) (hpos : 1 ≤ tf.pieceLength)
    (hmax : tf.pieceLength < 2 ^ 64)
    (hn : tf.numPieces = (tf.length + tf.pieceLength - 1) / tf.pieceLength) :
    WritesWholeFile tf ↔ PiecesFill tf := by
  have hzero : tf.numPieces = 0 ↔ tf.length = 0 := hn ▸ numPieces_eq_zero hpos
  constructor
  · intro h
    by_cases hlength : tf.length = 0
    · exact Or.inl hlength
    right
    by_cases hlow : tf.pieceLength < 2 ^ 31
    · left
      have hfull := length_of_writesWholeFile h (Nat.le_refl _) (toULong_toInt_of_lt hlow)
      exact ⟨hlow, tf.numPieces, hfull.trans (Nat.mul_comm _ _)⟩
    · right
      refine ⟨Nat.le_of_not_lt hlow, ?_⟩
      by_contra hhigh
      have hwrap : 2 ^ 64 - 2 ^ 31 ≤ tf.pieceLength := Nat.le_of_not_lt hhigh
      have hfull := length_of_writesWholeFile h (Nat.le_refl _)
        (toULong_toInt_of_mod_eq hwrap hmax rfl)
      have hshort := length_of_writesWholeFile h (Nat.sub_le tf.pieceLength (2 ^ 32))
        (toULong_toInt_of_mod_eq hwrap hmax (by omega))
      have heq := Nat.eq_of_mul_eq_mul_left (Nat.pos_of_ne_zero (hlength ∘ hzero.mp))
        (hfull.symm.trans hshort)
      omega
  · intro h
    by_cases hlength : tf.length = 0
    · exact writesWholeFile_of_no_count (Or.inl ⟨hzero.mpr hlength, hlength⟩)
    rcases h with h | ⟨hlow, hdvd⟩ | ⟨hlow, hhigh⟩
    · contradiction
    · exact writesWholeFile_of_dvd hpos hn hlow hdvd
    · exact writesWholeFile_of_no_count (Or.inr ⟨hlow, hhigh, hlength ∘ hzero.mp⟩)

/-- One byte in one piece of two: the file gets both bytes of the piece. -/
theorem writesWholeFile_short_last_piece :
    ¬ ∀ tf : TorrentFile, 1 ≤ tf.pieceLength → tf.pieceLength < 2 ^ 64 →
      tf.numPieces = (tf.length + tf.pieceLength - 1) / tf.pieceLength → WritesWholeFile tf := by
  intro h
  have hwhole := h { initTorrentFile with pieceLength := 2, numPieces := 1, length := 1 }
    (by decide) (by decide) (by decide)
  obtain ⟨bytes, hout, hlength, -⟩ := hwhole (fun _ => 0) [⟨0, [7, 7], 2⟩] _
    ⟨true, true, fun _ => 2, id⟩ none _ ⟨rfl, Nat.le_refl⟩ rfl (by decide) rfl
  cases hout
  contradiction

theorem writesWholeFile_iff_piecesFill_even :
    WritesWholeFile { initTorrentFile with pieceLength := 2, numPieces := 2, length := 4 } := by
  apply (writesWholeFile_iff_piecesFill _ (by decide) (by decide) (by decide)).mpr
  exact Or.inr (Or.inl ⟨by decide, by decide⟩)

end BitTorrentBits.DownloadedFile
