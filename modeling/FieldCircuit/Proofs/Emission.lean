import FieldCircuit.Proofs.Compilation

/-!
# What is evaluated can be written

A circuit has no program exactly when a gate divides by a constant that is zero as a residue
(`Program.ofCircuit_eq_error_iff`). An evaluation comes to every gate, so it fails there too: once
it has succeeded, both the program and the values of the wires can be written. Hence a compilation
fails only where one of the texts cannot be read or the circuit not evaluated (`Command.Refused`).
-/

namespace FieldCircuit

/-! ## Programs that cannot be written -/

section

variable {p : Nat} [Nonzero p]

/-- The gate divides by a constant that is zero as a residue. -/
def Gate.DividesByZero (p : Nat) [Nonzero p] (g : Gate) : Prop :=
  ∃ k a w, g = .constDiv k a w ∧ (.ofInt k : Residue p) = 0

theorem Operation.ofGate?_eq_error_iff {g : Gate} {fault : Fault} :
    (ofGate? g : Except Fault (Option (Operation p))) = .error fault ↔
      ∃ k a w, g = .constDiv k a w ∧ (.ofInt k : Residue p) = 0 ∧ fault = .divisionByZero w := by
  cases g with
  | constDiv k a w =>
    simp only [ofGate?]
    cases hx : (Residue.ofInt k : Residue p).inverse? with
    | some x =>
      have hk : (Residue.ofInt k : Residue p) ≠ 0 := fun hk => by
        cases hx.symm.trans (Residue.inverse?_eq_none_iff.2 hk)
      simp [hk]
    | none => simp [Residue.inverse?_eq_none_iff.1 hx, eq_comm]
  | _ => simp [ofGate?]

theorem Operation.exists_ofGate?_iff {g : Gate} :
    (∃ o : Option (Operation p), ofGate? g = .ok o) ↔ ¬g.DividesByZero p := by
  cases h : (ofGate? g : Except Fault (Option (Operation p))) with
  | ok o =>
    refine iff_of_true ⟨o, rfl⟩ ?_
    rintro ⟨k, a, w, rfl, hk⟩
    cases h.symm.trans (ofGate?_eq_error_iff.2 ⟨k, a, w, rfl, hk, rfl⟩)
  | error fault =>
    obtain ⟨k, a, w, hg, hk, -⟩ := ofGate?_eq_error_iff.1 h
    exact iff_of_false (fun ⟨o, ho⟩ => by cases ho) fun hn => hn ⟨k, a, w, hg, hk⟩

namespace Program

variable {c : Circuit}

/-- The first gate that divides by zero is to blame. -/
theorem ofCircuit_eq_error_iff {fault : Fault} :
    (ofCircuit c : Except Fault (Program p)) = .error fault ↔
      ∃ before k a w after, c.gates.toList = before ++ .constDiv k a w :: after ∧
        (∀ g ∈ before, ¬g.DividesByZero p) ∧ (.ofInt k : Residue p) = 0 ∧
          fault = .divisionByZero w := by
  have hmap : (ofCircuit c : Except Fault (Program p)) = .error fault ↔
      c.gates.toList.mapM (Operation.ofGate? : _ → Except Fault (Option (Operation p))) =
        .error fault := by
    unfold ofCircuit
    cases c.gates.toList.mapM (Operation.ofGate? : _ → Except Fault (Option (Operation p))) with
    | ok os => exact iff_of_false (fun h => by cases h) fun h => by cases h
    | error fault' => exact ⟨fun h => by cases h; rfl, fun h => by cases h; rfl⟩
  rw [hmap, mapM_eq_error_iff]
  simp only [Operation.exists_ofGate?_iff, Operation.ofGate?_eq_error_iff]
  constructor
  · rintro ⟨before, _, after, hgates, hbefore, k, a, w, rfl, hk, hfault⟩
    exact ⟨before, k, a, w, after, hgates, hbefore, hk, hfault⟩
  · rintro ⟨before, k, a, w, after, hgates, hbefore, hk, hfault⟩
    exact ⟨before, _, after, hgates, hbefore, k, a, w, rfl, hk, hfault⟩

theorem exists_ofCircuit_iff :
    (∃ s : Program p, ofCircuit c = .ok s) ↔ ∀ g ∈ c.gates, ¬g.DividesByZero p := by
  constructor
  · rintro ⟨s, hs⟩ g hg
    obtain ⟨os, hos, -⟩ := exists_ok_of_except_bind hs
    obtain ⟨o, -, ho⟩ := exists_of_mem_left (mapM_eq_ok_iff.1 hos) (Array.mem_toList_iff.2 hg)
    exact Operation.exists_ofGate?_iff.1 ⟨o, ho⟩
  · intro h
    obtain ⟨os, hos⟩ := exists_mapM fun g hg =>
      Operation.exists_ofGate?_iff.2 (h g (Array.mem_toList_iff.1 hg))
    exact ⟨_, except_bind_of_ok hos⟩

theorem exists_error_iff :
    (∃ fault, (ofCircuit c : Except Fault (Program p)) = .error fault) ↔
      ∃ g ∈ c.gates, g.DividesByZero p := by
  have hok := exists_ofCircuit_iff (p := p) (c := c)
  cases h : (ofCircuit c : Except Fault (Program p)) with
  | ok s => simpa [h] using hok
  | error fault => simpa [h] using hok

end Program

namespace Circuit

variable {c : Circuit} {a : Assignment p} {t : Table p}

theorem outcome_flatten (journal : Journal) :
    outcome (c.flatten : Journaled Fault (Program p)) journal = Program.ofCircuit c :=
  outcome_report _ (fun s : Program p => .flattened s.operations.length s.outStart) journal

/-- A solved circuit divides by no constant that is zero: the quotient would have no value. -/
theorem Solution.not_dividesByZero (h : c.Solution a t) : ∀ g ∈ c.gates, ¬g.DividesByZero p := by
  rintro g hg ⟨k, v, w, rfl, hk⟩
  obtain ⟨xs, hx, -⟩ := h.explains _ hg
  simp only [Evaluator.gateValues, Gate.evaluate, Residue.inverse?_eq_none_iff.2 hk] at hx
  cases hx

theorem evaluate_eq_outcome (a : Assignment p) : c.evaluate a = outcome (c.solve a) [] := by
  unfold evaluate outcome
  cases c.solve a [] <;> rfl

/-- Whatever was reported before, an evaluation has one outcome. -/
theorem outcome_solve (a : Assignment p) (journal : Journal) :
    outcome (c.solve a) journal = c.evaluate a := by
  rw [evaluate_eq_outcome]
  cases he : Evaluator.create c a with
  | error fault =>
    unfold outcome solve
    rw [he]
  | ok e =>
    obtain rfl := Evaluator.eq_of_create he
    have hrun : ∀ j, outcome (c.solve a) j = (outcome (Evaluator.evaluate ⟨c, a⟩) ⟨∅, j⟩).map
        fun _ => (stateAfter (Evaluator.evaluate ⟨c, a⟩) ⟨∅, j⟩).table := by
      intro j
      unfold outcome stateAfter solve
      rw [he]
      dsimp only
      cases Evaluator.evaluate ⟨c, a⟩ ⟨∅, j⟩ <;> rfl
    -- the two runs start with the same empty table
    have halike := Evaluator.alike_evaluate (e := ⟨c, a⟩)
    have hbelow : Evaluator.Below ⟨c, a⟩ ⟨∅, []⟩ ⟨∅, journal⟩ :=
      Evaluator.below_empty Evaluator.consistent_empty
    have htable : (stateAfter (Evaluator.evaluate ⟨c, a⟩) ⟨∅, []⟩).table =
        (stateAfter (Evaluator.evaluate ⟨c, a⟩) ⟨∅, journal⟩).table := by
      refine (halike.below hbelow).within.antisymm fun u hu => ?_
      simpa using (halike.mem_iff _ _ hbelow u).1 hu
    rw [hrun, hrun, ← halike.outcome_eq _ _ hbelow, htable]

end Circuit

end

/-! ## Compilations that fail -/

namespace Command

variable {circuit inputs : String}

/-- The first step that fails gives the failure: reading the circuit, reading the inputs, or
evaluating the circuit on those assigned values that are inputs. -/
inductive Refused (circuit inputs : String) : Failure → Prop where
  | circuit {fault : Fault} : Circuit.parse circuit = .error fault →
      Refused circuit inputs ⟨some "failed to parse circuit", .circuit fault⟩
  | inputs {c : Circuit} {fault : Fault} : Circuit.parse circuit = .ok c →
      (Assignment.parse inputs : Except Fault (Assignment scalarModulus)) = .error fault →
      Refused circuit inputs ⟨some "failed to parse inputs", .circuit fault⟩
  | evaluation {c : Circuit} {a : Assignment scalarModulus} {fault : Fault} :
      Circuit.parse circuit = .ok c → Assignment.parse inputs = .ok a →
      c.evaluate (a.restrict c) = .error fault →
      Refused circuit inputs ⟨some "failed to evaluate circuit", .circuit fault⟩

theorem Refused.outcome_compile {failure : Failure} (h : Refused circuit inputs failure)
    (journal : Journal) :
    outcome (compile circuit inputs) journal = .error failure := by
  unfold compile during
  cases h with
  | circuit hc =>
    have hload := eq_of_outcome_error ((outcome_report _ Circuit.validated journal).trans hc)
    exact outcome_of_error (bind_of_error (adaptExcept_of_error hload))
  | inputs hc ha =>
    obtain ⟨j₁, hload⟩ := Circuit.exists_load_iff.2 hc
    have hassign := eq_of_outcome_error ((outcome_report _
      (fun a : Assignment scalarModulus => .readAssignment a.size) j₁).trans ha)
    rw [outcome_bind_of_ok (adaptExcept_of_ok hload)]
    exact outcome_of_error (bind_of_error (adaptExcept_of_error hassign))
  | @evaluation c a fault hc ha he =>
    obtain ⟨j₁, hload⟩ := Circuit.exists_load_iff.2 hc
    obtain ⟨j₂, hassign⟩ := Assignment.exists_load_iff.2 ha
    obtain ⟨j₃, hretain⟩ : ∃ j₃, (a.retain c : Journaled Failure _) j₂ = .ok (a.restrict c) j₃ :=
      ⟨_, rfl⟩
    have hsolve := eq_of_outcome_error
      ((Circuit.outcome_solve (a.restrict c) j₃).trans he)
    rw [outcome_bind_of_ok (adaptExcept_of_ok hload),
      outcome_bind_of_ok (adaptExcept_of_ok hassign), outcome_bind_of_ok hretain]
    exact outcome_of_error (bind_of_error (adaptExcept_of_error hsolve))

/-- After an evaluation nothing is left that can fail. -/
theorem exists_compile_of_solution {c : Circuit} {a : Assignment scalarModulus}
    {t : Table scalarModulus} (hc : Circuit.parse circuit = .ok c)
    (ha : Assignment.parse inputs = .ok a) (ht : c.Solution (a.restrict c) t) (journal : Journal) :
    ∃ k journal', compile circuit inputs journal = .ok k journal' := by
  obtain ⟨s, hs⟩ := Program.exists_ofCircuit_iff.2 ht.not_dividesByZero
  obtain ⟨dump, hdump, -⟩ := Table.exists_dump fun w hw => (ht.mem_iff w).2 hw
  exact ⟨⟨c, t, _⟩, (exists_compile_iff journal).2 ⟨a, s, dump, hc, ha, ht, hs, hdump, rfl⟩⟩

theorem compiles_or_refused (circuit inputs : String) (journal : Journal) :
    (∃ k, outcome (compile circuit inputs) journal = .ok k) ∨
      ∃ failure, Refused circuit inputs failure := by
  cases hc : Circuit.parse circuit with
  | error fault => exact .inr ⟨_, .circuit hc⟩
  | ok c =>
    cases ha : (Assignment.parse inputs : Except Fault (Assignment scalarModulus)) with
    | error fault => exact .inr ⟨_, .inputs hc ha⟩
    | ok a =>
      cases he : c.evaluate (a.restrict c) with
      | error fault => exact .inr ⟨_, .evaluation hc ha he⟩
      | ok t =>
        have ht := Circuit.evaluate_eq_ok_iff.1 he
        obtain ⟨k, _, hk⟩ := exists_compile_of_solution hc ha ht journal
        exact .inl ⟨k, outcome_of_ok hk⟩

/-- What is evaluated can be written, as a program and as values; so compiling two texts fails
exactly where one cannot be read or the circuit not evaluated, the first of these giving the
failure. Evaluated or not, a circuit has no program exactly when it divides by a constant that is
zero, and the first such gate is named. -/
theorem emission_follows_evaluation :
    (∀ (p : Nat) [Nonzero p] (c : Circuit) (a : Assignment p) (t : Table p)
      (journal : Journal), c.evaluate a = .ok t →
      (∃ s : Program p, outcome c.flatten journal = .ok s) ∧ ∃ text, t.dump c.total = .ok text) ∧
    (∀ (circuit inputs : String) (journal : Journal) (failure : Failure),
      outcome (compile circuit inputs) journal = .error failure ↔ Refused circuit inputs failure) ∧
    ∀ (p : Nat) [Nonzero p] (c : Circuit) (journal : Journal),
      ((∃ fault, outcome (c.flatten : Journaled Fault (Program p)) journal = .error fault) ↔
        ∃ g ∈ c.gates, g.DividesByZero p) ∧
      ∀ fault, outcome (c.flatten : Journaled Fault (Program p)) journal = .error fault ↔
        ∃ before k a w after, c.gates.toList = before ++ .constDiv k a w :: after ∧
          (∀ g ∈ before, ¬g.DividesByZero p) ∧ (.ofInt k : Residue p) = 0 ∧
            fault = .divisionByZero w := by
  refine ⟨fun p _ c a t journal he => ?_, fun circuit inputs journal failure => ⟨fun h => ?_, ?_⟩,
    fun p _ c journal => ?_⟩
  · have ht := Circuit.evaluate_eq_ok_iff.1 he
    obtain ⟨s, hs⟩ := Program.exists_ofCircuit_iff.2 ht.not_dividesByZero
    obtain ⟨text, htext, -⟩ := Table.exists_dump fun w hw => (ht.mem_iff w).2 hw
    exact ⟨⟨s, (Circuit.outcome_flatten journal).trans hs⟩, text, htext⟩
  · rcases compiles_or_refused circuit inputs journal with ⟨k, hk⟩ | ⟨failure', hr⟩
    · cases h.symm.trans hk
    · cases h.symm.trans (hr.outcome_compile journal)
      exact hr
  · exact fun hr => hr.outcome_compile journal
  · rw [Circuit.outcome_flatten]
    exact ⟨Program.exists_error_iff, fun fault => Program.ofCircuit_eq_error_iff⟩

/-- Six over three is written. Modulo two the divisor minus two is zero, and the circuit has no
program. -/
theorem emission_quotientTest :
    Circuit.quotientTest.evaluate (Circuit.quotientInputs 6 3) =
        .ok (Circuit.quotientTable 6 3 2 0 4 6) ∧
      outcome Circuit.quotientTest.flatten [] = .ok Circuit.quotientProgram ∧
      (Circuit.quotientTable 6 3 2 0 4 6).dump Circuit.quotientTest.total =
        .ok "0 0x6\n1 0x3\n2 0x2\n3 0x0\n4 0x4\n5 0x6\n" ∧
      outcome (compile quotientSource "0 x") [] =
        .error ⟨some "failed to parse inputs", .circuit (.parse 1 "0 x" (.invalidInteger "x"))⟩ ∧
      outcome (Circuit.quotientTest.flatten : Journaled Fault (Program 2)) [] =
        .error (.divisionByZero 5) := by
  have he := Circuit.evaluate_quotientByThree
  have hs := outcome_of_ok Circuit.flatten_quotientTest
  have hd : (Circuit.quotientTable 6 3 2 0 4 6).dump Circuit.quotientTest.total =
      .ok "0 0x6\n1 0x3\n2 0x2\n3 0x0\n4 0x4\n5 0x6\n" := by decide +kernel
  obtain ⟨hwritten, hcompile, hflatten⟩ := emission_follows_evaluation
  obtain ⟨⟨s, hs'⟩, text, htext⟩ := hwritten 7 _ _ _ [] he
  cases hs.symm.trans hs'
  cases hd.symm.trans htext
  refine ⟨he, hs', htext, ?_, ?_⟩
  · exact (hcompile _ _ _ _).2 (.inputs parse_quotientSource (by decide +kernel))
  · refine ((hflatten 2 _ []).2 _).2
      ⟨[.zeroTest 2 3 4, .div 0 1 2], -2, 2, 5, [.input 0, .input 1], rfl, ?_, ?_, rfl⟩
    · simp [Gate.DividesByZero]
    · decide

end Command

end FieldCircuit
