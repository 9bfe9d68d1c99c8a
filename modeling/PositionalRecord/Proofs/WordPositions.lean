import PositionalRecord.Record.Words
import PositionalRecord.Proofs.Projections
import PositionalRecord.Proofs.Reached

/-!
# Positions stay within machine words

A machine computes positions in words, and on words a sum may be too large and a difference may be
below zero. Here they never are, at any position a caller can write down: neither buffer of a record
is as long as half of what a word can count, so their lengths add up; a position is subtracted only
where it was compared before; and a position counted from the other end of a buffer is a place of
that buffer. So computing by words is computing with numbers, and a call is refused for a position
past the end and for nothing else.
-/

namespace PositionalRecord

variable {α : Type}

/-! ## Checked arithmetic -/

namespace Word

theorem toNat_ofLength {length : Nat} (h : length < storageLimit) :
    (ofLength length).toNat = length := by
  have hsize : length < UInt64.size := Nat.lt_trans h (by decide)
  exact UInt64.toNat_ofNat_of_lt hsize

theorem sum_of_lt {left right : Word} (h : left.toNat + right.toNat < UInt64.size) :
    ∃ total, sum left right = .ok total ∧ total.toNat = left.toNat + right.toNat := by
  refine ⟨left + right, if_pos h, ?_⟩
  rw [UInt64.toNat_add]
  exact Nat.mod_eq_of_lt h

/-- The lengths of two buffers that an allocator can make add up to a word. -/
theorem sum_ofLength {first second : Nat} (hfirst : first < storageLimit)
    (hsecond : second < storageLimit) :
    ∃ total, sum (ofLength first) (ofLength second) = .ok total ∧
      total.toNat = first + second := by
  have htotal : first + second < UInt64.size := calc
    first + second < storageLimit + storageLimit := Nat.add_lt_add hfirst hsecond
    _ = UInt64.size := rfl
  rw [← toNat_ofLength hfirst, ← toNat_ofLength hsecond] at htotal
  obtain ⟨total, hsum, htotalNat⟩ := sum_of_lt htotal
  rw [toNat_ofLength hfirst, toNat_ofLength hsecond] at htotalNat
  exact ⟨total, hsum, htotalNat⟩

theorem difference_of_le {left right : Word} (h : right.toNat ≤ left.toNat) :
    ∃ rest, difference left right = .ok rest ∧ rest.toNat = left.toNat - right.toNat := by
  have hle : right ≤ left := UInt64.le_iff_toNat_le.mpr h
  exact ⟨left - right, if_pos hle, UInt64.toNat_sub_of_le left right hle⟩

theorem fetch_of_lt {buffer : Array α} {place : Word} (h : place.toNat < buffer.size) :
    fetch buffer place = .ok buffer[place.toNat] := by
  rw [fetch, Array.getElem?_eq_getElem h]

theorem store_of_lt {buffer : Array α} {place : Word} (h : place.toNat < buffer.size) (field : α) :
    store buffer place field = .ok (buffer.set place.toNat field h) :=
  dif_pos h

theorem map_toNat_below (length : Word) :
    (below length).map UInt64.toNat = List.range length.toNat := by
  rw [below, List.map_map]
  refine (List.map_congr_left ?_).trans (List.map_id _)
  intro index hindex
  have hlength := length.toNat_lt_size
  exact UInt64.toNat_ofNat_of_lt (Nat.lt_trans (List.mem_range.mp hindex) hlength)

theorem lt_of_mem_below {length index : Word} (h : index ∈ below length) : index < length := by
  have hmem : index.toNat ∈ (below length).map UInt64.toNat := List.mem_map_of_mem h
  rw [map_toNat_below, List.mem_range] at hmem
  exact UInt64.lt_iff_toNat_lt.mpr hmem

end Word

/-! ## Traps -/

namespace Trap

theorem ofExcept_eq_error_iff {outcome : Except Violation α} {trap : Trap} :
    ofExcept outcome = .error trap ↔ ∃ broken, outcome = .error broken ∧ trap = .violation broken := by
  cases outcome with
  | ok answer => simp [ofExcept, Except.mapError]
  | error broken => simp [ofExcept, Except.mapError, eq_comm]

/-- Reading several positions by words is reading them, if each of them is. -/
theorem mapM_ofExcept {byWord : Word → Except Trap α} {read : Nat → Except Violation α}
    {indices : List Word}
    (h : ∀ index ∈ indices, byWord index = ofExcept (read index.toNat)) :
    indices.mapM byWord = ofExcept ((indices.map UInt64.toNat).mapM read) := by
  induction indices with
  | nil => rfl
  | cons index rest ih =>
    obtain ⟨hindex, hrest⟩ := List.forall_mem_cons.mp h
    rw [List.mapM_cons, List.map_cons, List.mapM_cons, hindex, ih hrest]
    cases read index.toNat with
    | error broken => rfl
    | ok field => cases (rest.map UInt64.toNat).mapM read <;> rfl

end Trap

/-! ## Pending changes -/

theorem Row.length_of_overwrite {row made : Row α} {updates : List (Nat × α)}
    (h : row.overwrite updates = .ok made) : made.length = row.length := by
  rw [overwrite_eq] at h
  cases hpast : (updates.map Prod.fst).find? (row.length ≤ ·) with
  | some index =>
    rw [hpast] at h
    cases h
  | none =>
    rw [hpast] at h
    cases h
    exact length_ofList_written row updates

namespace Pending

variable {pending : Pending α}

theorem toNat_prependedWord (h : pending.prepended < storageLimit) :
    pending.prependedWord.toNat = pending.prepended :=
  Word.toNat_ofLength h

theorem lt_prependedWord_iff (h : pending.prepended < storageLimit) {index : Word} :
    index < pending.prependedWord ↔ index.toNat < pending.prepended := by
  rw [UInt64.lt_iff_toNat_lt, toNat_prependedWord h]

/-- Counted from the other end, the position of a prepended field is a place of the buffer. -/
theorem mirror_of_lt (h : pending.prepended < storageLimit) {index : Word}
    (hindex : index.toNat < pending.prepended) :
    ∃ place, pending.mirror index = .ok place ∧
      place.toNat = pending.prepended - 1 - index.toNat ∧ place.toNat < pending.buffer.size := by
  have hone : (1 : Word).toNat = 1 := rfl
  have hprepended := toNat_prependedWord h
  -- A position below the number of prepended fields shows that this number is not zero.
  have hfirst : (1 : Word).toNat ≤ pending.prependedWord.toNat := by omega
  obtain ⟨last, hlast, hlastNat⟩ := Word.difference_of_le hfirst
  have hsecond : index.toNat ≤ last.toNat := by omega
  obtain ⟨place, hplace, hplaceNat⟩ := Word.difference_of_le hsecond
  have hmirror : place.toNat = pending.prepended - 1 - index.toNat := calc
    place.toNat = last.toNat - index.toNat := hplaceNat
    _ = pending.prependedWord.toNat - 1 - index.toNat := by rw [hlastNat, hone]
    _ = pending.prepended - 1 - index.toNat := by rw [hprepended]
  refine ⟨place, ?_, hmirror, ?_⟩
  · rw [mirror, hlast]
    exact hplace
  · rw [hmirror]
    exact mirror_lt hindex

theorem key_of_le (h : pending.prepended < storageLimit) {index : Word}
    (hindex : pending.prepended ≤ index.toNat) :
    ∃ key, Word.difference index pending.prependedWord = .ok key ∧
      key.toNat = index.toNat - pending.prepended := by
  rw [← toNat_prependedWord h] at hindex ⊢
  exact Word.difference_of_le hindex

theorem getByWord_eq (h : pending.prepended < storageLimit) (row : Row α) (index : Word) :
    pending.getByWord row index = Trap.ofExcept (pending.get row index.toNat) := by
  by_cases hindex : index.toNat < pending.buffer.size
  · obtain ⟨place, hplace, hplaceNat, hbound⟩ := mirror_of_lt h hindex
    have hfield : pending.get row index.toNat = .ok pending.buffer[place.toNat] := by
      rw [get, dif_pos hindex]
      exact congrArg Except.ok (getElem_congr rfl hplaceNat.symm _)
    rw [getByWord, if_pos ((lt_prependedWord_iff h).mpr hindex), hplace, hfield]
    exact Word.fetch_of_lt hbound
  · obtain ⟨key, hkey, hkeyNat⟩ := key_of_le h (Nat.le_of_not_lt hindex)
    rw [getByWord, if_neg (mt (lt_prependedWord_iff h).mp hindex), hkey,
      get_of_le (Nat.le_of_not_lt hindex), ← hkeyNat]
    cases hfind : pending.overwrites.find? key.toNat with
    | some field => simp only [bind, Except.bind, hfind]; rfl
    | none => simp only [bind, Except.bind, hfind]

theorem setByWord_eq (h : pending.prepended < storageLimit) (index : Word) (field : α) :
    pending.setByWord index field = .ok (pending.set index.toNat field) := by
  by_cases hindex : index.toNat < pending.buffer.size
  · obtain ⟨place, hplace, hplaceNat, hbound⟩ := mirror_of_lt h hindex
    have hset : pending.set index.toNat field =
        { pending with buffer := pending.buffer.set place.toNat field hbound } := by
      rw [set, dif_pos hindex]
      simp only [hplaceNat]
      rfl
    rw [setByWord, if_pos ((lt_prependedWord_iff h).mpr hindex), hplace, hset]
    simp only [bind, Except.bind, Word.store_of_lt hbound]
    rfl
  · obtain ⟨key, hkey, hkeyNat⟩ := key_of_le h (Nat.le_of_not_lt hindex)
    rw [setByWord, if_neg (mt (lt_prependedWord_iff h).mp hindex), hkey,
      set_of_le (Nat.le_of_not_lt hindex), ← hkeyNat]
    rfl

theorem applyByWords_eq (h : pending.prepended < storageLimit) {row : Row α}
    (hrow : row.length < storageLimit) :
    pending.applyByWords row = Trap.ofExcept (pending.apply row) := by
  cases hoverwrite : row.overwrite pending.overwrites.entries with
  | error broken =>
    rw [applyByWords, apply, hoverwrite]
    rfl
  | ok overwritten =>
    have hlength : overwritten.length < storageLimit := by
      rwa [Row.length_of_overwrite hoverwrite]
    obtain ⟨total, hsum, -⟩ := Word.sum_ofLength h hlength
    have hboth : Word.sum pending.prependedWord (.ofLength overwritten.length) = .ok total := hsum
    rw [applyByWords, apply, hoverwrite]
    simp only [Trap.ofExcept, Except.mapError, bind, Except.bind, hboth]
    rfl

end Pending

/-! ## Records -/

namespace Record

variable {record : Record α}

/-- Both buffers of the record are such as an allocator can make. -/
structure InStorage (record : Record α) : Prop where
  row_lt : record.row.length < storageLimit
  buffer_lt : record.pending.prepended < storageLimit

theorem InStorage.lengthWord_eq (h : record.InStorage) :
    ∃ length, record.lengthWord = .ok length ∧ length.toNat = record.length ∧
      ∀ index, index < length ↔ index.toNat < record.length := by
  obtain ⟨length, hlength, hlengthNat⟩ := Word.sum_ofLength h.row_lt h.buffer_lt
  refine ⟨length, hlength, hlengthNat, fun index ↦ ?_⟩
  rw [UInt64.lt_iff_toNat_lt, hlengthNat]
  rfl

theorem InStorage.handOn_eq (h : record.InStorage) {length index : Word} (hindex : index < length) :
    record.handOn length index =
      Trap.ofExcept (record.pending.get record.row index.toNat) := by
  rw [handOn, if_pos hindex, Pending.getByWord_eq h.buffer_lt]

theorem InStorage.getByWord_eq (h : record.InStorage) (index : Word) :
    record.getByWord index = Trap.ofExcept (record.get index.toNat) := by
  obtain ⟨length, hlength, hlengthNat, hlt⟩ := h.lengthWord_eq
  rw [getByWord, hlength, get]
  by_cases hindex : index < length
  · rw [if_pos ((hlt index).mp hindex), ← h.handOn_eq hindex]
    exact if_pos hindex
  · rw [if_neg (mt (hlt index).mpr hindex), ← hlengthNat]
    exact if_neg hindex

theorem InStorage.setByWord_eq (h : record.InStorage) (index : Word) (field : α) :
    record.setByWord index field = Trap.ofExcept (record.set index.toNat field) := by
  obtain ⟨length, hlength, hlengthNat, hlt⟩ := h.lengthWord_eq
  rw [setByWord, hlength, set, Pending.setByWord_eq h.buffer_lt]
  by_cases hindex : index < length
  · rw [if_pos ((hlt index).mp hindex)]
    exact if_pos hindex
  · rw [if_neg (mt (hlt index).mpr hindex), ← hlengthNat]
    exact if_neg hindex

theorem InStorage.scanByWords_eq (h : record.InStorage) :
    record.scanByWords = Trap.ofExcept record.scan := by
  obtain ⟨length, hlength, hlengthNat, -⟩ := h.lengthWord_eq
  -- Only positions below the length are handed on, so no hand-over traps.
  have hread : ∀ index ∈ Word.below length, record.handOn length index =
      Trap.ofExcept (record.pending.get record.row index.toNat) :=
    fun index hindex ↦ h.handOn_eq (Word.lt_of_mem_below hindex)
  have hscan : (Word.below length).mapM (record.handOn length) = Trap.ofExcept record.scan := by
    rw [Trap.mapM_ofExcept hread, Word.map_toNat_below, hlengthNat, scan]
  rw [scanByWords, hlength]
  exact hscan

theorem InStorage.projectByWords_eq (h : record.InStorage) (indices : List Word) :
    record.projectByWords indices =
      Trap.ofExcept (record.project (indices.map UInt64.toNat)) := by
  rw [projectByWords, project]
  split
  · rw [Trap.mapM_ofExcept fun index _ ↦ h.getByWord_eq index]
    cases (indices.map UInt64.toNat).mapM record.get <;> rfl
  · rfl

theorem InStorage.toRowByWords_eq (h : record.InStorage) :
    record.toRowByWords = Trap.ofExcept record.toRow := by
  rw [toRowByWords, toRow]
  split
  · exact Pending.applyByWords_eq h.buffer_lt h.row_lt
  · rfl

theorem Sound.toRowByWords_eq (hsound : record.Sound) (h : record.InStorage) :
    record.toRowByWords = .ok (.ofList record.toList) := by
  rw [h.toRowByWords_eq, hsound.toRow_eq]
  rfl

theorem get_eq_error_iff {index : Nat} {broken : Violation} :
    record.get index = .error broken ↔
      record.length ≤ index ∧ broken = .outOfBounds .get index record.length := by
  by_cases hindex : record.length ≤ index
  · simp [get_of_le hindex, hindex, eq_comm]
  · have hbound : index < record.toList.length := by
      rw [length_toList]
      exact Nat.lt_of_not_le hindex
    simp [get_of_some (List.getElem?_eq_getElem hbound), hindex]

theorem set_eq_error_iff {index : Nat} {field : α} {broken : Violation} :
    record.set index field = .error broken ↔
      record.length ≤ index ∧ broken = .outOfBounds .set index record.length := by
  by_cases hindex : record.length ≤ index
  · simp [set_of_le hindex, hindex, eq_comm]
  · obtain ⟨changed, hchanged, -⟩ := set_of_lt (Nat.lt_of_not_le hindex) field
    simp [hchanged, hindex]

end Record

/-! ## Nothing leaves the words -/

/-- Reading and overwriting through pending changes by words answers as by numbers, at every
position: no difference is below zero, and no place is past the end of the buffer. -/
structure Pending.FitsWords (pending : Pending α) (row : Row α) : Prop where
  get_eq (index : Word) : pending.getByWord row index = Trap.ofExcept (pending.get row index.toNat)
  set_eq (index : Word) (field : α) :
    pending.setByWord index field = .ok (pending.set index.toNat field)

theorem Pending.fitsWords {pending : Pending α} (h : pending.prepended < storageLimit)
    (row : Row α) : pending.FitsWords row where
  get_eq := getByWord_eq h row
  set_eq := setByWord_eq h

namespace Record

/-- The calls on a record by words answer as by numbers. The length is a word. Reading and
overwriting a field traps for a position past the end, and projecting for the first such position,
as a violation that names it; reading all fields and making the changes never traps. -/
structure FitsWords (record : Record α) : Prop where
  length_eq : ∃ length, record.lengthWord = .ok length ∧ length.toNat = record.length
  get_eq (index : Word) : record.getByWord index = Trap.ofExcept (record.get index.toNat)
  get_trap_iff (index : Word) (trap : Trap) :
    record.getByWord index = .error trap ↔
      record.length ≤ index.toNat ∧
        trap = .violation (.outOfBounds .get index.toNat record.length)
  set_eq (index : Word) (field : α) :
    record.setByWord index field = Trap.ofExcept (record.set index.toNat field)
  set_trap_iff (index : Word) (field : α) (trap : Trap) :
    record.setByWord index field = .error trap ↔
      record.length ≤ index.toNat ∧
        trap = .violation (.outOfBounds .set index.toNat record.length)
  scan_eq : record.scanByWords = .ok record.toList
  project_eq (indices : List Word) :
    record.projectByWords indices = Trap.ofExcept (record.project (indices.map UInt64.toNat))
  project_trap_iff (indices : List Word) (trap : Trap) :
    record.projectByWords indices = .error trap ↔
      ∃ index, Row.FirstPast record.length (indices.map UInt64.toNat) index ∧
        trap = .violation
          (.outOfBounds (if record.isDirty then .get else .project) index record.length)
  toRow_eq : record.toRowByWords = .ok (.ofList record.toList) ∧
    record.toRow = .ok (.ofList record.toList)
  settle_eq : ∃ flushed, record.settleByWords = .ok flushed ∧ ∀ {ν σ : Type}
    (journal : Journal ν σ), record.settle journal = .ok flushed (record.reported journal)

theorem Sound.fitsWords {record : Record α} (hsound : record.Sound) (h : record.InStorage) :
    record.FitsWords where
  length_eq := by
    obtain ⟨length, hlength, hlengthNat, -⟩ := h.lengthWord_eq
    exact ⟨length, hlength, hlengthNat⟩
  get_eq := h.getByWord_eq
  get_trap_iff index trap := by
    rw [h.getByWord_eq, Trap.ofExcept_eq_error_iff]
    simp [get_eq_error_iff, and_assoc]
  set_eq := h.setByWord_eq
  set_trap_iff index field trap := by
    rw [h.setByWord_eq, Trap.ofExcept_eq_error_iff]
    simp [set_eq_error_iff, and_assoc]
  scan_eq := by
    rw [h.scanByWords_eq, scan_eq]
    rfl
  project_eq := h.projectByWords_eq
  project_trap_iff indices trap := by
    rw [h.projectByWords_eq, Trap.ofExcept_eq_error_iff]
    simp only [picksShown.project_eq_error_iff]
    constructor
    · rintro ⟨_, ⟨index, hindex, rfl⟩, rfl⟩
      exact ⟨index, hindex, rfl⟩
    · rintro ⟨index, hindex, rfl⟩
      exact ⟨_, ⟨index, hindex, rfl⟩, rfl⟩
  toRow_eq := ⟨hsound.toRowByWords_eq h, hsound.toRow_eq⟩
  settle_eq := by
    refine ⟨_, ?_, hsound.settle_eq⟩
    rw [settleByWords, hsound.toRowByWords_eq h]
    rfl

end Record

/-- If no buffer is longer than an allocator can make it, computing by words never leaves them,
at any position a word can hold: neither in a record that a caller can reach, whatever is pending
on it, nor in any pending changes. -/
theorem reached_fitsWords {written : Bool} {record : Record α} {β : Type} {pending : Pending β}
    (hrecord : Record.Reached written record) (hrow : record.row.length < storageLimit)
    (hbuffer : record.pending.prepended < storageLimit)
    (hpending : pending.prepended < storageLimit) (row : Row β) :
    record.FitsWords ∧ pending.FitsWords row :=
  ⟨hrecord.sound.fitsWords ⟨hrow, hbuffer⟩, Pending.fitsWords hpending row⟩

/-- A record with two prepended fields and a written one, asked for the first position, for the
first one past the prepended fields, and for the last position that a word can hold. Its pending
changes alone are asked for the last position too. -/
theorem reached_fitsWords_up_to_last :
    let last : Word := 0xFFFFFFFFFFFFFFFF
    let record : Record Nat := ⟨.ofList [1, 2, 3], ⟨⟨[(0, 6)]⟩, #[5, 4]⟩⟩
    Record.Reached true record ∧ record.row.length < storageLimit ∧
      record.pending.prepended < storageLimit ∧
      record.getByWord 0 = .ok 4 ∧ record.getByWord 2 = .ok 6 ∧
      record.getByWord last = .error (.violation (.outOfBounds .get 18446744073709551615 5)) ∧
      record.scanByWords = .ok [4, 5, 6, 2, 3] ∧
      record.projectByWords [1, last, 5] =
        .error (.violation (.outOfBounds .get 18446744073709551615 5)) ∧
      record.toRowByWords = .ok (.ofList [4, 5, 6, 2, 3]) ∧
      record.pending.getByWord record.row last =
        .error (.violation (.outOfBounds .get 18446744073709551613 3)) ∧
      record.pending.setByWord last 9 =
        .ok ⟨⟨[(0, 6), (18446744073709551613, 9)]⟩, #[5, 4]⟩ := by
  intro last record
  have hprepended : Record.Reached true ((Record.ofList [1, 2, 3]).prepend [4, 5]) :=
    (Record.Reached.ofList [1, 2, 3]).prepend [4, 5]
  have hrecord : Record.Reached true record :=
    hprepended.set (show Record.set _ 2 6 = .ok record from rfl)
  have hrow : record.row.length < storageLimit := by decide
  have hbuffer : record.pending.prepended < storageLimit := by decide
  obtain ⟨hfits, hpending⟩ := reached_fitsWords hrecord hrow hbuffer hbuffer record.row
  refine ⟨hrecord, hrow, hbuffer, hfits.get_eq 0, hfits.get_eq 2, ?_, hfits.scan_eq, ?_,
    hfits.toRow_eq.1, hpending.get_eq last, hpending.set_eq last 9⟩
  · exact (hfits.get_trap_iff last _).mpr ⟨by decide, rfl⟩
  · exact (hfits.project_trap_iff _ _).mpr
      ⟨last.toNat, ⟨[1], [5], rfl, by decide, by decide⟩, rfl⟩

end PositionalRecord
