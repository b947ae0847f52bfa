import BitTorrentBits.Torrent.Metainfo

/-!
# Stored numbers

The numbers of a torrent file pass through `strtoll`, which clamps them and makes zero of no
digits, and then through a conversion to an unsigned type.
-/

namespace BitTorrentBits

open Bencode ParseState

def TorrentFile.number (tr : TorrentFile) : IntKey → Nat
  | .length => tr.length
  | .pieceLength => tr.pieceLength

/-- The sign and the digits of an integer found for this key. -/
def Found.int? (key : IntKey) : Found → Option (Bool × List UInt8)
  | .int key' negative digits => if key' = key then some (negative, digits) else none
  | _ => none

/-- The last one in the file, cut into `ps`, that a reader matches with this key. -/
def lastInt (key : IntKey) (ps : List Spaced) : Option (Bool × List UInt8) :=
  ((Reader.init.readAll ps).1.filterMap (Found.int? key)).getLast?

/-- Whenever the parser accepts the file, the fields are the numbers written after the last
names of their keys, which have digits. -/
def StoresNumbers (sha1 : List UInt8 → List UInt8) (file : FileRead) : Prop :=
  ∀ tr, parseTorrentFile sha1 initTorrentFile (readFile file) = some (true, tr) →
    ∀ data ps blanks t, readFile file = some data → CutInto LONG_MAX data ps blanks t →
      ∀ key negative digits, lastInt key ps = some (negative, digits) →
        digits ≠ [] ∧ tr.number key = signedValue negative digits

/-- If the file can be read to its end, the last number after each key has a digit and is
neither negative nor greater than `LONG_MAX`. -/
def NumbersFit (file : FileRead) : Prop :=
  ∀ data ps blanks found r, readFile file = some data → CutInto LONG_MAX data ps blanks [] →
    Reader.init.readAll ps = (found, some r) → r.ends = true →
      ∀ key negative digits, lastInt key ps = some (negative, digits) →
        digits ≠ [] ∧ 0 ≤ signedValue negative digits ∧ signedValue negative digits ≤ LONG_MAX

theorem storedNumber_eq_iff (n : Int) : (storedNumber n : Int) = n ↔ 0 ≤ n ∧ n ≤ LONG_MAX := by
  unfold storedNumber LONG_MAX
  constructor
  · intro h
    have hnonneg : (0 : Int) ≤ toULong (max (-2 ^ 63) (min n (2 ^ 63 - 1 : Nat))) := Int.natCast_nonneg _
    refine ⟨by omega, ?_⟩
    by_contra hlarge
    have hclamp : max (-2 ^ 63) (min n (2 ^ 63 - 1 : Nat)) = ((2 ^ 63 - 1 : Nat) : Int) := by omega
    rw [hclamp, toULong_natCast (by decide)] at h
    omega
  · intro h
    obtain ⟨m, rfl⟩ := Int.eq_ofNat_of_zero_le h.1
    have hclamp : max (-2 ^ 63) (min (m : Int) (2 ^ 63 - 1 : Nat)) = m := by omega
    rw [hclamp, toULong_natCast (by omega)]

private theorem lastTaken_int (key : IntKey) (found : List Found) :
    lastTaken (Taken.int? key) (found.map Found.taken) =
      ((found.filterMap (Found.int? key)).getLast?).map fun n => signedValue n.1 n.2 := by
  have hkind : ∀ f, (Found.int? key f).map (fun n => signedValue n.1 n.2) =
      Taken.int? key (Found.taken f) := by
    rintro (_ | ⟨key', negative, digits⟩ | _)
    · rfl
    · by_cases hkey : key' = key <;> simp [Found.int?, Found.taken, Taken.int?, hkey]
    · rfl
  rw [lastTaken, List.filterMap_map, ← List.getLast?_map, List.map_filterMap]
  simp only [hkind]
  rfl

theorem number_storeAll (sha1 : List UInt8 → List UInt8) (found : List Found) (key : IntKey)
    (tr : TorrentFile) :
    (Found.storeAll sha1 found tr).number key =
      ((lastTaken (Taken.int? key) (found.map Found.taken)).map storedNumber).getD
        (tr.number key) := by
  have hfield : ∀ t tr, TorrentFile.number (Taken.store sha1 t tr) key =
      ((Taken.int? key t).map storedNumber).getD (tr.number key) := by
    rintro ((_ | _ | _ | _) | (_ | _) | _) tr <;> cases key <;> rfl
  exact storeAll_field (g := fun tr => tr.number key) sha1 (found.map Found.taken) hfield tr

theorem number_of_lastInt (sha1 : List UInt8 → List UInt8) {found : List Found} {key : IntKey}
    {negative : Bool} {digits : List UInt8}
    (h : (found.filterMap (Found.int? key)).getLast? = some (negative, digits)) :
    (Found.storeAll sha1 found initTorrentFile).number key =
      storedNumber (signedValue negative digits) := by
  rw [number_storeAll, lastTaken_int, h]
  rfl

/-- The parser stores the numbers of a file exactly when they fit. -/
theorem storesNumbers_iff_numbersFit (sha1 : List UInt8 → List UInt8) (file : FileRead) :
    StoresNumbers sha1 file ↔ NumbersFit file := by
  constructor
  · intro h data ps blanks found r hfile hcut hread hends key negative digits hlast
    have hparse := parseTorrentFile_ended sha1 initTorrentFile (readFile_length hfile) hcut hread
    rw [hends, ← hfile] at hparse
    obtain ⟨hdigits, hnumber⟩ := h _ hparse data ps blanks [] hfile hcut key negative digits hlast
    rw [lastInt, hread] at hlast
    rw [number_of_lastInt sha1 hlast] at hnumber
    exact ⟨hdigits, (storedNumber_eq_iff _).mp hnumber⟩
  · intro h tr hparse data ps blanks t hfile hcut key negative digits hlast
    rw [hfile] at hparse
    obtain ⟨rfl, found, r, hread, hends, rfl⟩ :=
      exists_of_parseTorrentFile_true sha1 initTorrentFile (readFile_length hfile) hcut hparse
    obtain ⟨hdigits, hfits⟩ := h data ps blanks found r hfile hcut hread hends key negative digits hlast
    rw [lastInt, hread] at hlast
    rw [number_of_lastInt sha1 hlast]
    exact ⟨hdigits, (storedNumber_eq_iff _).mpr hfits⟩

/-- A length of minus one is stored as the largest number. -/
theorem not_storesNumbers_negative :
    ¬ ∀ (sha1 : List UInt8 → List UInt8) (file : FileRead), StoresNumbers sha1 file := by
  intro h
  let v : Value := .dict [(ascii "length", .int (-1))]
  have hsize : v.encode.length ≤ LONG_MAX := by decide
  let file : FileRead := .opened v.encode.length hsize v.encode
  have hfile : readFile file = some v.encode := by simp [file, readFile]
  have hcut := cutInto_tight (Value.valid_lexemes (Value.stringsWithin hsize))
  have hread : Reader.init.readAll (v.lexemes.map Spaced.tight) =
      ([.int .length true (decimal 1)], some ⟨.unseen, 0, .lexeme⟩) := rfl
  have hlast : lastInt .length (v.lexemes.map Spaced.tight) = some (true, decimal 1) := by
    rw [lastInt, hread]
    rfl
  have hparse := parseTorrentFile_ended id initTorrentFile hsize hcut hread
  rw [← hfile] at hparse
  have hnumber := (h id file _ hparse _ _ _ _ hfile hcut .length _ _ hlast).2
  have hvalue : signedValue true (decimal 1) = -1 := by simp [signedValue]
  rw [hvalue] at hnumber
  omega

end BitTorrentBits
