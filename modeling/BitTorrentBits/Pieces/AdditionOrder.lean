import BitTorrentBits.Pieces.OutputFile

/-!
# The order of the additions

The workers add their pieces in any order. The downloaded file depends on which pieces have
been added and on nothing else, and so does the file that is written.
-/

namespace BitTorrentBits.DownloadedFile

/-- The slots of `n` pieces when those of `indices` have been added. -/
def slotsOf (content : Nat → List UInt8) (indices : List Nat) (n : Nat) :
    List (Option (List UInt8)) :=
  (List.range n).map fun i => if i ∈ indices then some (content i) else none

variable {tf : TorrentFile} {content : Nat → List UInt8} {fresh : Nat → UInt8}
  {pps : List PieceProgress} {df df' : DownloadedFile} {indices : List Nat} {n i : Nat}

private theorem eq_of_slots (htf : df.tf = df'.tf) (h : df.piecesBuf = df'.piecesBuf) : df = df' := by
  cases df
  cases df'
  cases htf
  cases h
  rfl

theorem lastAdded_of_content (h : ∀ pp ∈ pps, pp.buf = content pp.index) (i : Nat) :
    lastAdded pps i = if i ∈ pps.map PieceProgress.index then some (content i) else none := by
  induction pps with
  | nil => rfl
  | cons pp pps ih =>
    have hpp : pp.buf = content pp.index := h pp List.mem_cons_self
    rw [lastAdded, ih fun q hq => h q (List.mem_cons_of_mem _ hq), hpp]
    by_cases hi : pp.index = i
    · subst hi
      by_cases hmem : pp.index ∈ pps.map PieceProgress.index <;> simp [hmem]
    · by_cases hmem : i ∈ pps.map PieceProgress.index
      · have hmem' : i ∈ (pp :: pps).map PieceProgress.index := List.mem_cons_of_mem _ hmem
        rw [if_pos hmem, if_pos hmem']
        rfl
      · have hmem' : i ∉ (pp :: pps).map PieceProgress.index := by
          rw [List.map_cons, List.mem_cons, not_or]
          exact ⟨Ne.symm hi, hmem⟩
        rw [if_neg hmem, if_neg hmem', if_neg hi]
        rfl

theorem piecesBuf_of_content (hrun : addPieces fresh (initDownloadedFile tf) pps = some df)
    (hsize : ∀ i, (content i).length = tf.pieceLength)
    (hcontent : ∀ pp ∈ pps, pp.buf = content pp.index) :
    df.piecesBuf = slotsOf content (pps.map PieceProgress.index) tf.numPieces := by
  have htf : df.tf = tf := addPieces_tf hrun
  have hfull : ∀ pp ∈ pps, pp.size = (initDownloadedFile tf).tf.pieceLength := by
    intro pp hpp
    rw [PieceProgress.size, hcontent pp hpp]
    exact hsize pp.index
  apply List.ext_getElem?
  intro i
  rw [slotsOf, List.getElem?_map]
  by_cases hi : i < tf.numPieces
  · have hinit : (initDownloadedFile tf).piecesBuf[i]? = some none := by
      simp [initDownloadedFile, hi]
    rw [addPieces_slot hrun hfull hinit, Option.or_none, lastAdded_of_content hcontent,
      List.getElem?_range hi]
    rfl
  · have hlen : df.piecesBuf.length = tf.numPieces := by rw [df.length_eq, htf]
    rw [List.getElem?_eq_none (by omega), List.getElem?_eq_none (by rw [List.length_range]; omega)]
    rfl

theorem slotsOf_all (h : ∀ i < n, i ∈ indices) :
    slotsOf content indices n = ((List.range n).map content).map some := by
  rw [slotsOf, List.map_map]
  apply List.map_congr_left
  intro i hi
  rw [if_pos (h i (List.mem_range.mp hi))]
  rfl

theorem slotsOf_all_isSome :
    (slotsOf content indices n).all Option.isSome = true ↔ ∀ i < n, i ∈ indices := by
  simp [slotsOf, List.all_eq_true, Option.isSome_ite]

theorem writeToFile_whole {disk : Disk} {pieces : List (List UInt8)}
    {old : Option (List UInt8)} (hdisk : disk.Reliable) (hopens : disk.opens = true)
    (hwrites : ∀ i, df.tf.pieceLength ≤ disk.writes i) (hmax : df.tf.pieceLength < 2 ^ 31)
    (hpieces : df.piecesBuf = pieces.map some) :
    df.writeToFile disk old = some (true, some pieces.flatten) := by
  have hall : df.hasAllPieces = true := by
    rw [hasAllPieces, hpieces]
    simp
  have hlen : ∀ piece ∈ pieces, piece.length = df.tf.pieceLength := by
    intro piece hpiece
    apply df.size_eq
    rw [hpieces]
    exact List.mem_map_of_mem hpiece
  have htake : (pieces.map fun piece => piece.take df.tf.pieceLength) = pieces := by
    rw [List.map_congr_left fun piece hpiece => List.take_of_length_le (hlen piece hpiece).le]
    exact List.map_id' pieces
  rw [writeToFile, hall, hopens, hpieces,
    writePieces_of_count (fun i => Nat.min_eq_right (hwrites i)) (toULong_toInt_of_lt hmax) hlen,
    htake, hdisk.removed_eq]
  simp [List.take_of_length_le (hdisk.flushes _)]

private theorem writeToFile_partial {disk : Disk} {old : Option (List UInt8)}
    (h : df.hasAllPieces ≠ true) : df.writeToFile disk old = some (false, old) := by
  rw [writeToFile, if_pos (by simpa using h)]

/-- However the pieces of a set of indices are added, the downloaded file is the same. If
the set has every index, `write_to_file` replaces the output file with the contents in
ascending order; if not, it answers false and leaves the output file as it was. -/
theorem addPieces_any_order (tf : TorrentFile) (hmax : tf.pieceLength < 2 ^ 31)
    (content : Nat → List UInt8) (hsize : ∀ i, (content i).length = tf.pieceLength)
    (indices : List Nat) (hindices : ∀ i ∈ indices, i < tf.numPieces) :
    ∃ df, (∀ fresh pps, (pps.map PieceProgress.index).Perm indices →
        (∀ pp ∈ pps, pp.buf = content pp.index) →
        addPieces fresh (initDownloadedFile tf) pps = some df) ∧
      ∀ (disk : Disk) old, disk.Reliable → disk.opens = true → (∀ i, tf.pieceLength ≤ disk.writes i) →
        ((∀ i < tf.numPieces, i ∈ indices) →
          df.writeToFile disk old = some (true, some ((List.range tf.numPieces).flatMap content))) ∧
        ((∃ i < tf.numPieces, i ∉ indices) → df.writeToFile disk old = some (false, old)) := by
  have hrun : ∀ fresh pps, (pps.map PieceProgress.index).Perm indices →
      (∀ pp ∈ pps, pp.buf = content pp.index) →
      ∃ df, addPieces fresh (initDownloadedFile tf) pps = some df ∧ df.tf = tf ∧
        df.piecesBuf = slotsOf content indices tf.numPieces := by
    intro fresh pps hperm hcontent
    have hfit : ∀ pp ∈ pps, pp.index < (initDownloadedFile tf).tf.numPieces ∧
        pp.size ≤ (initDownloadedFile tf).tf.pieceLength := by
      intro pp hpp
      refine ⟨hindices _ (hperm.mem_iff.mp (List.mem_map_of_mem hpp)), ?_⟩
      rw [PieceProgress.size, hcontent pp hpp]
      exact (hsize pp.index).le
    obtain ⟨df, hdf⟩ : ∃ df, addPieces fresh (initDownloadedFile tf) pps = some df :=
      addPieces_isSome hfit
    refine ⟨df, hdf, addPieces_tf hdf, ?_⟩
    rw [piecesBuf_of_content hdf hsize hcontent, slotsOf, slotsOf]
    simp only [hperm.mem_iff]
  obtain ⟨df, -, htf, hslots⟩ := hrun (fun _ => 0) (indices.map fun i => ⟨i, content i, 0⟩)
    (by simp [Function.comp_def]) (by simp)
  refine ⟨df, ?_, ?_⟩
  · intro fresh pps hperm hcontent
    obtain ⟨df', hdf', htf', hslots'⟩ := hrun fresh pps hperm hcontent
    rw [hdf', eq_of_slots (htf'.trans htf.symm) (hslots'.trans hslots.symm)]
  · intro disk old hdisk hopens hwrites
    constructor
    · intro hall
      rw [writeToFile_whole hdisk hopens (htf.symm ▸ hwrites) (htf.symm ▸ hmax)
        (hslots.trans (slotsOf_all hall))]
      rfl
    · intro hmissing
      obtain ⟨i, hi, hnot⟩ := hmissing
      apply writeToFile_partial
      rw [hasAllPieces, hslots, ne_eq, slotsOf_all_isSome]
      intro hall
      exact hnot (hall i hi)

theorem addPieces_any_order_two :
    ∃ df, addPieces (fun _ => 0)
        (initDownloadedFile { initTorrentFile with pieceLength := 1, numPieces := 2 })
        [⟨1, [8], 1⟩, ⟨0, [7], 1⟩] = some df ∧
      df.writeToFile ⟨true, true, fun _ => 1, id⟩ (some [5, 5, 5]) = some (true, some [7, 8]) := by
  obtain ⟨df, hrun, hwrite⟩ := addPieces_any_order
    { initTorrentFile with pieceLength := 1, numPieces := 2 } (by decide)
    (fun i => [UInt8.ofNat (i + 7)]) (fun _ => rfl) [0, 1] (by decide)
  exact ⟨df, hrun _ _ (List.Perm.swap _ _ _) (by simp),
    (hwrite _ _ ⟨rfl, Nat.le_refl⟩ rfl fun _ => Nat.le_refl 1).1 (by decide)⟩

end BitTorrentBits.DownloadedFile
