import FieldCircuit.Proofs.AssignmentText
import FieldCircuit.Proofs.Flattening
import FieldCircuit.Proofs.Lowering
import FieldCircuit.WireDump

/-!
# Dumps are read back as assignments

A dump asks for the wires in ascending order, so that it fails at the smallest one without a value.
Its lines are pairs of plain words, a wire and its value, and no two have the same wire: it is read
as an assignment of exactly the values that were written (`Table.parse_of_dump`).
-/

namespace FieldCircuit

open Text

variable {p : Nat} [Nonzero p] {t : Table p}

namespace Table

/-- The words on the line of a wire. -/
def entryWords (t : Table p) (w : Wire) : List (List Char) :=
  [(toString w).toList, (t.getD w 0).hex.toList]

theorem plain_entryWords (t : Table p) (w : Wire) : ∀ word ∈ t.entryWords w, Plain word := by
  simp [entryWords, plain_word, Residue.hex, plain_hex]

/-- The lines of the wires below `n`. -/
def dumpLines (t : Table p) (n : UInt64) : List (List Char) :=
  (Program.wiresFrom 0 n).map fun w => unwords (t.entryWords w)

/-- The wires below `n` with their values. -/
def dumpEntries (t : Table p) (n : UInt64) : List (Wire × Residue p) :=
  (Program.wiresFrom 0 n).map fun w => (w, t.getD w 0)

/-! ## Writing -/

theorem exists_dumpFrom (start count : Nat) (hsize : start + count ≤ UInt64.size)
    (h : ∀ n, start ≤ n → n < start + count → n.toUInt64 ∈ t) :
    ∃ text, t.dumpFrom start count = .ok text ∧ text.toList =
      ((List.range' start count).map fun n => unwords (t.entryWords n.toUInt64)).flatMap
        (· ++ ['\n']) := by
  induction count generalizing start with
  | zero => exact ⟨"", rfl, rfl⟩
  | succ count ih =>
    obtain ⟨rest, hrest, htext⟩ :=
      ih (start + 1) (by omega) fun n h1 h2 => h n (by omega) (by omega)
    have hvalue := Table.demand_of_mem (h start (Nat.le_refl _) (by omega))
    have hto : start.toUInt64.toNat = start := UInt64.toNat_ofNat_of_lt' (by omega)
    have hword : (toString start).toList = (toString start.toUInt64).toList := by
      rw [toList_word, hto]
      exact Nat.toList_repr
    refine ⟨s!"{start} " ++ (t.getD start.toUInt64 0).hex ++ "\n" ++ rest, ?_, ?_⟩
    · rw [dumpFrom, hvalue, hrest]
      rfl
    · have hid : ∀ s : String, toString s = s := fun _ => rfl
      simp [List.range'_succ, htext, entryWords, unwords, hid, ← hword]

theorem exists_dump {n : UInt64} (h : ∀ w, w < n → w ∈ t) :
    ∃ text, t.dump n = .ok text ∧ text.toList = (t.dumpLines n).flatMap (· ++ ['\n']) := by
  have hn := n.toNat_lt_size
  obtain ⟨text, hdump, htext⟩ := exists_dumpFrom (t := t) 0 n.toNat (by omega) fun m _ hm => by
    refine h _ ?_
    rw [UInt64.lt_iff_toNat_lt, UInt64.toNat_ofNat']
    exact Nat.lt_of_le_of_lt (Nat.mod_le _ _) (by omega)
  refine ⟨text, hdump, htext.trans ?_⟩
  simp [dumpLines, Program.wiresFrom, Function.comp_def]

omit [Nonzero p] in
theorem dumpFrom_eq_error {fault : Fault} {start count : Nat}
    (h : ((List.range' start count).map Nat.toUInt64).mapM t.demand = .error fault) :
    t.dumpFrom start count = .error fault := by
  induction count generalizing start with
  | zero => cases h
  | succ count ih =>
    rw [List.range'_succ, List.map_cons, List.mapM_cons] at h
    unfold dumpFrom
    rcases error_or_of_except_bind h with hx | ⟨x, hx, h⟩
    · rw [hx]
      rfl
    · rcases error_or_of_except_bind h with hrest | ⟨_, -, h⟩
      · rw [hx, except_bind_of_ok rfl, ih hrest]
        rfl
      · cases h

theorem exists_dump_error {n : UInt64} (h : ¬∀ w, w < n → w ∈ t) :
    ∃ w, IsLeast {v | v < n ∧ v ∉ t} w ∧ t.dump n = .error (.incompleteTable w) := by
  have hmem : ∀ {w}, w ∈ Program.wiresFrom 0 n ↔ w < n := by simp [Program.mem_wiresFrom]
  have hmissing : ∃ w ∈ Program.wiresFrom 0 n, w ∉ t := by simpa [hmem] using h
  obtain ⟨w, hw, hwt, hmin, hrun⟩ := exists_least_missing (Program.pairwise_wiresFrom 0 n) hmissing
  refine ⟨w, ⟨⟨hmem.1 hw, hwt⟩, fun v hv => ?_⟩, dumpFrom_eq_error hrun⟩
  exact UInt64.not_lt.1 fun hlt => hv.2 (hmin v (hmem.2 hv.1) hlt)

/-! ## Reading -/

theorem readEntry?_entryWords (t : Table p) (w : Wire) :
    Assignment.readEntry? (uncomment (unwords (t.entryWords w))) = .ok (some (w, t.getD w 0)) := by
  have hplain := t.plain_entryWords w
  unfold Assignment.readEntry?
  rw [uncomment_unwords hplain, words_unwords hplain]
  simp only [entryWords, readWord_toString, Residue.ofHex?_hex]
  rfl

theorem newline_not_mem_dumpLines (t : Table p) (n : UInt64) : ∀ l ∈ t.dumpLines n, '\n' ∉ l := by
  intro l hl
  obtain ⟨w, -, rfl⟩ := List.mem_map.1 hl
  exact newline_not_mem_unwords (t.plain_entryWords w)

theorem declaredBy_dumpEntries {n : UInt64} (ht : ∀ w, w < n → w ∈ t) :
    Assignment.DeclaredBy (t.filter fun w _ => w < n) (t.dumpEntries n) where
  distinct := by
    have hwires : (t.dumpEntries n).map Prod.fst = Program.wiresFrom 0 n := by
      simp [dumpEntries, Function.comp_def]
    rw [hwires]
    exact Program.nodup_wiresFrom 0 n
  lookup w x := by
    have hmem : (w, x) ∈ t.dumpEntries n ↔ w < n ∧ t.getD w 0 = x := by
      simp [dumpEntries, Program.mem_wiresFrom]
    rw [hmem, Std.ExtTreeMap.getElem?_filter']
    by_cases hw : w < n
    · obtain ⟨y, hy⟩ := mem_iff_exists_getElem?.1 (ht w hw)
      simp [hw, hy, Std.ExtTreeMap.getD_eq_getD_getElem?, Option.filter]
    · cases hy : t[w]? <;> simp [hw]

/-- The lines of a dump, and the empty text behind the last of them, give the values below the
bound. -/
theorem denotes_dumpLines {n : UInt64} (ht : ∀ w, w < n → w ∈ t) :
    Assignment.Denotes (t.dumpLines n ++ [[]]) (t.filter fun w _ => w < n) := by
  have hentries : ((t.dumpEntries n).map some ++ [none]).reduceOption = t.dumpEntries n := by
    simp [List.reduceOption]
  refine ⟨(t.dumpEntries n).map some ++ [none], List.rel_append ?_ (.cons ?_ .nil), ?_⟩
  · rw [dumpLines, dumpEntries, List.map_map, List.forall₂_map_left_iff, List.forall₂_map_right_iff,
      List.forall₂_same]
    exact fun w _ => Assignment.readEntry?_uncomment_eq_ok_iff.1 (t.readEntry?_entryWords w)
  · exact Assignment.readEntry?_uncomment_eq_ok_iff.1 rfl
  · rw [hentries]
    exact declaredBy_dumpEntries ht

/-- A dump reads as an assignment of the values that the table has below the bound. -/
theorem parse_of_dump {n : UInt64} (ht : ∀ w, w < n → w ∈ t) {text : String}
    (h : t.dump n = .ok text) :
    Assignment.parse text = .ok (t.filter fun w _ => w < n) := by
  obtain ⟨text', hdump, htext⟩ := exists_dump ht
  cases h.symm.trans hdump
  unfold Assignment.parse
  rw [htext, lines_flatMap (t.newline_not_mem_dumpLines n), Assignment.enterLines_eq_ok_iff_denotes]
  exact denotes_dumpLines ht

/-! ## Both ways -/

theorem exists_dump_iff {n : UInt64} : (∃ text, t.dump n = .ok text) ↔ ∀ w, w < n → w ∈ t := by
  refine ⟨?_, fun h => ?_⟩
  · rintro ⟨text, hdump⟩
    by_contra h
    obtain ⟨w, -, herror⟩ := exists_dump_error h
    cases hdump.symm.trans herror
  · obtain ⟨text, hdump, -⟩ := exists_dump h
    exact ⟨text, hdump⟩

theorem dump_eq_error_iff {n : UInt64} {fault : Fault} : t.dump n = .error fault ↔
    ∃ w, IsLeast {v | v < n ∧ v ∉ t} w ∧ fault = .incompleteTable w := by
  constructor
  · intro hdump
    obtain ⟨w, hw, herror⟩ := exists_dump_error (t := t) (n := n) fun h => by
      obtain ⟨text, hok, -⟩ := exists_dump h
      cases hdump.symm.trans hok
    cases hdump.symm.trans herror
    exact ⟨w, hw, rfl⟩
  · rintro ⟨w, hw, rfl⟩
    obtain ⟨v, hv, herror⟩ := exists_dump_error (t := t) (n := n) fun h => hw.1.2 (h w hw.1.1)
    rw [herror, UInt64.le_antisymm (hv.2 hw.1) (hw.2 hv.1)]

/-- The wires below `n` can be dumped exactly when each of them has a value, the smallest one
without being the fault otherwise, and the dump is read as the part of the table that it shows. -/
theorem dump_decides_and_reads_back (t : Table p) (n : UInt64) :
    ((∃ text, t.dump n = .ok text) ↔ ∀ w, w < n → w ∈ t) ∧
    (∀ fault, t.dump n = .error fault ↔
      ∃ w, IsLeast {v | v < n ∧ v ∉ t} w ∧ fault = .incompleteTable w) ∧
    ∀ text, t.dump n = .ok text → Assignment.parse text = .ok (t.filter fun w _ => w < n) :=
  ⟨exists_dump_iff, fun _ => dump_eq_error_iff,
    fun _ h => parse_of_dump (exists_dump_iff.1 ⟨_, h⟩) h⟩

/-- Zero, the largest residue, and behind a gap one more. -/
def gappedTable : Table scalarModulus :=
  .ofList ([(0, .ofNat 0), (1, .ofNat (scalarModulus - 1)), (5, .ofNat 3)] :
    List (Wire × Residue scalarModulus))

theorem mem_gappedTable {w : Wire} : w ∈ gappedTable ↔ w.toNat = 0 ∨ w.toNat = 1 ∨ w.toNat = 5 := by
  rw [gappedTable, Std.ExtTreeMap.mem_ofList]
  simp [← UInt64.toNat_inj]

theorem dump_gappedTable :
    (∃ text, gappedTable.dump 2 = .ok text ∧
      Assignment.parse text = .ok (gappedTable.filter fun w _ => w < 2)) ∧
    gappedTable.dump 6 = .error (.incompleteTable 2) := by
  constructor
  · have hmem : ∀ w : Wire, w < 2 → w ∈ gappedTable := by
      intro w hw
      have hw : w.toNat < 2 := UInt64.lt_iff_toNat_lt.1 hw
      rw [mem_gappedTable]
      omega
    obtain ⟨text, htext⟩ := (dump_decides_and_reads_back gappedTable 2).1.2 hmem
    exact ⟨text, htext, (dump_decides_and_reads_back gappedTable 2).2.2 text htext⟩
  · have hgap : IsLeast {w | w < 6 ∧ w ∉ gappedTable} 2 := by
      refine ⟨⟨by decide, by simp [mem_gappedTable]⟩, fun w hw => ?_⟩
      obtain ⟨-, hw⟩ := hw
      rw [mem_gappedTable] at hw
      exact UInt64.le_iff_toNat_le.2 (show 2 ≤ w.toNat by omega)
    exact ((dump_decides_and_reads_back gappedTable 6).2.1 _).2 ⟨2, hgap, rfl⟩

end Table

end FieldCircuit
