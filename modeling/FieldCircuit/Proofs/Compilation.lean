import FieldCircuit.Command.Compilation
import FieldCircuit.Proofs.Ascent
import FieldCircuit.Proofs.CircuitText
import FieldCircuit.Proofs.InputDependence
import FieldCircuit.Proofs.Rebuilding
import FieldCircuit.Proofs.WireDump

/-!
# Artifacts replay the compilation

A compilation succeeds exactly when both texts are read, the circuit has a solution for the inputs
among the assigned wires, and the program and the values can be written
(`Command.exists_compile_iff`). The program is read back as a circuit with the same solutions, and
the values as an assignment; a solution is one for its own values, so that the circuit read back
evaluates to the values from which it starts.
-/

namespace FieldCircuit

/-! ## Solutions of the circuit read back -/

namespace Circuit

variable {p : Nat} [Nonzero p] {c : Circuit} {s : Program p} {a : Assignment p} {t : Table p}

/-- The circuit of a solved circuit's program has its inputs. Given all values of the solution, or
only those of the inputs, it evaluates to the solution. -/
theorem Solution.exists_replay (ht : c.Solution a t) (hn : c.total ≤ Program.maxWires)
    (h : Program.ofCircuit c = .ok s) :
    ∃ c', ofProgramText p s.text = .ok c' ∧ c'.total = c.total ∧
      (∀ w, Gate.input w ∈ c'.gates ↔ Gate.input w ∈ c.gates) ∧ c'.evaluate t = .ok t ∧
      c'.evaluate (Assignment.restrict t c') = .ok t := by
  obtain ⟨htotal, -, hflat⟩ := Program.flattens_of_ofCircuit h
  obtain ⟨c', hc'⟩ := Program.exists_toCircuit_of_ofCircuit hn h
  obtain ⟨htotal', hgates, -⟩ := Program.of_toCircuit hc'
  rw [htotal] at htotal'
  have heval : c'.evaluate t = .ok t := by
    rw [evaluate_eq_ok_iff]
    exact (solution_iff_of_flattens htotal hflat htotal' hgates).1 ht.self
  have hrestrict : c'.evaluate (Assignment.restrict t c') = c'.evaluate t := by
    unfold evaluate
    rw [(agreeOnInputs_restrict t).solve_eq]
  refine ⟨c', (ofProgramText_text s).trans hc', htotal', fun w => ?_, heval, hrestrict.trans heval⟩
  rw [← Array.mem_toList_iff, hgates]
  exact Program.input_mem_gates_iff htotal hflat

theorem Solution.parse_of_dump (ht : c.Solution a t) {text : String}
    (h : t.dump c.total = .ok text) :
    Assignment.parse text = .ok t := by
  rw [Table.parse_of_dump (fun w hw => (ht.mem_iff w).2 hw) h, Except.ok.injEq]
  apply Std.ExtTreeMap.ext_getElem?
  intro w
  rw [Std.ExtTreeMap.getElem?_filter']
  cases hx : t[w]? with
  | none => rfl
  | some x =>
    have hw : w < c.total := (ht.mem_iff w).1 (mem_iff_exists_getElem?.2 ⟨x, hx⟩)
    simp [hw, Option.filter]

theorem exists_load_iff {text : String} {journal : Journal} :
    (∃ journal', load text journal = .ok c journal') ↔ parse text = .ok c :=
  exists_report_iff validated

end Circuit

theorem Assignment.exists_load_iff {p : Nat} [Nonzero p] {text : String} {a : Assignment p}
    {journal : Journal} : (∃ journal', load text journal = .ok a journal') ↔ parse text = .ok a :=
  exists_report_iff fun a : Assignment p => .readAssignment a.size

/-! ## Compilations -/

namespace Command

theorem Artifact.ofText_inj {name name' text text' : String} :
    Artifact.ofText name text = .ofText name' text' ↔ name = name' ∧ text = text' := by
  simp only [ofText, Artifact.mk.injEq, Array.toList_inj, ← ByteArray.ext_iff,
    String.toUTF8_eq_toByteArray, String.toByteArray_inj]

variable {circuit inputs : String} {k : Compilation}

/-- When a compilation succeeds, and with what. -/
theorem exists_compile_iff (journal : Journal) :
    (∃ journal', compile circuit inputs journal = .ok k journal') ↔
      ∃ (a : Assignment scalarModulus) (s : Program scalarModulus) (dump : String),
        Circuit.parse circuit = .ok k.circuit ∧ Assignment.parse inputs = .ok a ∧
        k.circuit.Solution (a.restrict k.circuit) k.table ∧ Program.ofCircuit k.circuit = .ok s ∧
        k.table.dump k.circuit.total = .ok dump ∧
        k.artifacts = [.ofText "arith_converted" s.text, .ofText "arith_wires" dump] := by
  constructor
  · rintro ⟨journal', h⟩
    obtain ⟨c, j₁, hload, h⟩ := exists_ok_of_bind h
    obtain ⟨a, j₂, hassign, h⟩ := exists_ok_of_bind h
    obtain ⟨_, j₃, hretain, h⟩ := exists_ok_of_bind h
    obtain ⟨t, j₄, hsolve, h⟩ := exists_ok_of_bind h
    obtain ⟨s, j₅, hflatten, h⟩ := exists_ok_of_bind h
    obtain ⟨dump, j₆, hdump, hreturn⟩ := exists_ok_of_bind h
    cases hretain
    cases hreturn
    have hc : Circuit.parse circuit = .ok c :=
      Circuit.exists_load_iff.1 ⟨j₁, eq_ok_of_adaptExcept hload⟩
    exact ⟨a, s, dump, hc, Assignment.exists_load_iff.1 ⟨j₂, eq_ok_of_adaptExcept hassign⟩,
      Circuit.solution_of_solve (eq_ok_of_adaptExcept hsolve),
      Circuit.ofCircuit_of_flatten (eq_ok_of_adaptExcept hflatten),
      mapError_eq_ok_iff.1 (liftExcept_eq_ok_iff.1 hdump).1, rfl⟩
  · rintro ⟨a, s, dump, hc, ha, ht, hs, hdump, hartifacts⟩
    obtain ⟨c, t, artifacts⟩ := k
    cases hartifacts
    obtain ⟨j₁, hload⟩ : ∃ j₁, Circuit.load circuit journal = .ok c j₁ :=
      Circuit.exists_load_iff.2 hc
    obtain ⟨j₂, hassign⟩ : ∃ j₂, Assignment.load inputs j₁ = .ok a j₂ :=
      Assignment.exists_load_iff.2 ha
    obtain ⟨j₃, hretain⟩ : ∃ j₃, (a.retain c : Journaled Failure _) j₂ = .ok (a.restrict c) j₃ :=
      ⟨_, rfl⟩
    obtain ⟨j₄, hsolve⟩ := ht.exists_solve j₃
    obtain ⟨j₅, hflatten⟩ : ∃ j₅, c.flatten j₄ = .ok s j₅ := Circuit.exists_flatten_iff.2 hs
    unfold compile during
    rw [bind_of_ok (adaptExcept_of_ok hload), bind_of_ok (adaptExcept_of_ok hassign),
      bind_of_ok hretain, bind_of_ok (adaptExcept_of_ok hsolve),
      bind_of_ok (adaptExcept_of_ok hflatten),
      bind_of_ok (liftExcept_eq_ok_iff.2 ⟨mapError_eq_ok_iff.2 hdump, rfl⟩)]
    exact ⟨_, rfl⟩

/-- The two artifacts of a compilation are a program and an assignment. The program's circuit has
the wires and the inputs of the compiled one. It evaluates to the values that were compiled from the
assignment, which has values for all wires, and also from the values of its inputs alone. -/
theorem compile_artifacts_replay {journal journal' : Journal}
    (h : compile circuit inputs journal = .ok k journal')
    (hn : k.circuit.total ≤ Program.maxWires) :
    ∃ program wires c',
      k.artifacts = [.ofText "arith_converted" program, .ofText "arith_wires" wires] ∧
      Assignment.parse wires = .ok k.table ∧ Circuit.ofProgramText scalarModulus program = .ok c' ∧
      c'.total = k.circuit.total ∧
      (∀ w, Gate.input w ∈ c'.gates ↔ Gate.input w ∈ k.circuit.gates) ∧
      (∀ w, w ∈ k.table ↔ w < c'.total) ∧ c'.evaluate k.table = .ok k.table ∧
      c'.evaluate (Assignment.restrict k.table c') = .ok k.table := by
  obtain ⟨a, s, dump, hc, -, ht, hs, hdump, hartifacts⟩ :=
    (exists_compile_iff journal).1 ⟨journal', h⟩
  obtain ⟨c', hc', htotal, hinputs, heval, hrestrict⟩ := ht.exists_replay hn hs
  exact ⟨s.text, dump, c', hartifacts, ht.parse_of_dump hdump, hc', htotal, hinputs,
    htotal ▸ ht.mem_iff, heval, hrestrict⟩

/-- The quotient of two inputs, tested for zero and divided by minus two. -/
def quotientSource : String :=
  "total 6\nzerop in 1 <2> out 2 <3 4>\ndiv in 2 <0 1> out 1 <2>\n" ++
  "const-div-neg-2 in 1 <2> out 1 <5> # by minus two\ninput 0\ninput 1\noutput 3\noutput 5\n"

theorem parse_quotientSource : Circuit.parse quotientSource = .ok Circuit.quotientTest := by
  have hread : (Text.lines quotientSource.toList).mapM
      (fun l => Statement.read? (Text.uncomment l)) =
      .ok (Circuit.quotientTest.statements.map some ++ [none]) := by decide +kernel
  have hlines := (mapM_eq_ok_iff.1 hread).imp fun l r => Statement.read?_uncomment_eq_ok_iff.1
  have hstatements : (Circuit.quotientTest.statements.map some ++ [none]).reduceOption =
      Circuit.quotientTest.statements := by simp [List.reduceOption]
  refine Circuit.parse_eq_ok_iff_exists.2 ⟨_, hlines, ?_⟩
  rw [hstatements]
  exact Circuit.quotientTest.declaredBy_statements

/-- Six, written beyond the modulus, and three. Wire 3 is not an input. -/
def quotientEntries : String :=
  "0 0x30644e72e131a029b85045b68181585d2833e84879b9709143e1f593f0000007\n1 0x3\n3 0x1\n"

def readEntries : Assignment scalarModulus :=
  .ofList ([(0, .ofNat 6), (1, .ofNat 3), (3, 1)] : List (Wire × Residue scalarModulus))

def half : Residue scalarModulus := .ofNat ((scalarModulus + 1) / 2)

def solvedTable : Table scalarModulus :=
  .ofList ([(0, .ofNat 6), (1, .ofNat 3), (2, .ofNat 2), (3, 0), (4, half), (5, -1)] :
    List (Wire × Residue scalarModulus))

theorem solution_solvedTable :
    Circuit.quotientTest.Solution (readEntries.restrict Circuit.quotientTest) solvedTable :=
  Circuit.ascend_eq_ok_iff.1 (by decide +kernel)

/-- Minus a half, by which the quotient is multiplied, stands as it is reduced. -/
def quotientConverted : String :=
  "input 6\nout_start 3\nzerop 2 3 4\ndiv 2 1 0\n" ++
  "constmul 2 0x183227397098d014dc2822db40c0ac2e9419f4243cdcb848a1f0fac9f8000000 5\n"

def quotientWires : String :=
  "0 0x6\n1 0x3\n2 0x2\n3 0x0\n" ++
  "4 0x183227397098d014dc2822db40c0ac2e9419f4243cdcb848a1f0fac9f8000001\n" ++
  "5 0x30644e72e131a029b85045b68181585d2833e84879b9709143e1f593f0000000\n"

/-- Six over three is compiled to these texts, though the indicator is assigned wrongly. From the
second text, and from six and three alone, the circuit of the first has the values of the
compilation. -/
theorem compile_quotientSource :
    (∃ journal', compile quotientSource quotientEntries [] =
      .ok ⟨Circuit.quotientTest, solvedTable, [.ofText "arith_converted" quotientConverted,
        .ofText "arith_wires" quotientWires]⟩ journal') ∧
    Circuit.quotientTest.total ≤ Program.maxWires ∧
    Assignment.parse quotientWires = .ok solvedTable ∧
    ∃ c', Circuit.ofProgramText scalarModulus quotientConverted = .ok c' ∧
      (∀ w, Gate.input w ∈ c'.gates ↔ w = 0 ∨ w = 1) ∧
      c'.evaluate solvedTable = .ok solvedTable ∧
      c'.evaluate (Assignment.restrict solvedTable c') = .ok solvedTable := by
  have ha : Assignment.parse quotientEntries = .ok readEntries := by decide +kernel
  have hs : Program.ofCircuit Circuit.quotientTest =
      .ok ⟨6, 3, [.zeroTest 2 3 4, .div 0 1 2, .constMul (-half) 2 5]⟩ := by
    rw [Program.ofCircuit, Circuit.firstOutput?_quotientTest, Circuit.gates_quotientTest]
    decide +kernel
  have hprogram : (⟨6, 3, [.zeroTest 2 3 4, .div 0 1 2, .constMul (-half) 2 5]⟩ :
      Program scalarModulus).text = quotientConverted := by decide +kernel
  have hdump : solvedTable.dump Circuit.quotientTest.total = .ok quotientWires := by decide +kernel
  have hn : Circuit.quotientTest.total ≤ Program.maxWires := by decide
  obtain ⟨journal', hk⟩ := (exists_compile_iff (k := ⟨Circuit.quotientTest, solvedTable, _⟩) []).2
    ⟨readEntries, _, quotientWires, parse_quotientSource, ha, solution_solvedTable, hs, hdump, rfl⟩
  rw [hprogram] at hk
  obtain ⟨program, wires, c', hartifacts, hwires, hc', -, hinputs, -, heval, hrestrict⟩ :=
    compile_artifacts_replay hk hn
  simp only [List.cons.injEq, Artifact.ofText_inj, true_and, and_true] at hartifacts
  obtain ⟨rfl, rfl⟩ := hartifacts
  refine ⟨⟨journal', hk⟩, hn, hwires, c', hc', fun w => (hinputs w).trans ?_, heval, hrestrict⟩
  simp [Circuit.gates_quotientTest]

end Command

end FieldCircuit
