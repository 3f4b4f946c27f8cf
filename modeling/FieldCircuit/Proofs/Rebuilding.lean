import FieldCircuit.Proofs.Declarations
import FieldCircuit.Proofs.Flattening

/-!
# Programs and the circuits made of them

The circuit of a program shows the program again, but for the place where outputs start: beyond the
last wire it makes no difference, and is normalized (`Program.ofCircuit_of_toCircuit`). So one
reading and writing brings every text to a normal form that further ones keep.
-/

namespace FieldCircuit

variable {p : Nat}

/-! ## The circuit of a program -/

namespace Builder

variable {b b' : Builder}

theorem of_forM_push {gs : List Gate} (h : gs.forM push b = .ok () b') :
    b'.total = b.total ∧ b'.outputs = b.outputs ∧ b'.gates.toList = b.gates.toList ++ gs := by
  induction gs generalizing b with
  | nil =>
    cases h
    exact ⟨rfl, rfl, by simp⟩
  | cons g gs ih =>
    obtain ⟨⟨⟩, b₁, hpush, hrest⟩ := exists_ok_of_bind (x := push g) (f := fun _ => gs.forM push) h
    obtain ⟨htotal, houtputs, hgates⟩ := ih hrest
    obtain ⟨-, htotal₁, hgates₁, houtputs₁⟩ := of_push hpush
    exact ⟨htotal.trans htotal₁, houtputs.trans houtputs₁, by simp [hgates, hgates₁]⟩

end Builder

namespace Program

variable {s : Program p} {c : Circuit}

theorem build_of_toCircuit (h : s.toCircuit = .ok c) : toCircuit.build s = .ok c := by
  unfold toCircuit at h
  split at h
  · cases h
  · split at h
    · split at h
      · cases h
      · exact h
    · exact h

/-- What the circuit of a program is made of. -/
theorem of_toCircuit (h : s.toCircuit = .ok c) :
    c.total = s.total ∧ c.gates.toList = s.gates ∧
      ∀ w, w ∈ c.outputs ↔ s.outStart ≤ w ∧ w < s.total := by
  replace h := build_of_toCircuit h
  unfold toCircuit.build at h
  split at h
  · next u b hrun =>
    obtain ⟨⟨⟩, b₁, hpush, hdeclare⟩ := exists_ok_of_bind hrun
    obtain ⟨htotal₁, houtputs₁, hgates₁⟩ := Builder.of_forM_push hpush
    obtain ⟨b₂, hrun₂, htotal, hgates, -, hmem⟩ :=
      Builder.exists_forM_declareOutput (b := b₁) (wiresFrom s.outStart s.total)
    cases hrun₂.symm.trans hdeclare
    obtain ⟨n, hn, rfl⟩ := Builder.of_finish h
    have htotal : some n = some s.total := hn.total.symm.trans (htotal.trans htotal₁)
    refine ⟨Option.some.inj htotal, ?_, fun w => ?_⟩
    · simp [Builder.circuit, hgates, hgates₁, Builder.withTotal, Builder.empty]
    · change w ∈ b.outputs ↔ _
      rw [hmem, houtputs₁, mem_wiresFrom]
      simp [Builder.withTotal, Builder.empty]
  · cases h

/-! ## Normal form -/

/-- Where outputs start if those beyond the last wire start right behind it. -/
def clampStart (start total : UInt64) : UInt64 := if start < total then start else total

def normalize (s : Program p) : Program p := { s with outStart := clampStart s.outStart s.total }

theorem wiresFrom_clampStart (start stop : UInt64) :
    wiresFrom (clampStart start stop) stop = wiresFrom start stop := by
  unfold clampStart
  split
  · rfl
  · next h =>
    have hempty : stop.toNat - start.toNat = 0 :=
      Nat.sub_eq_zero_of_le (UInt64.le_iff_toNat_le.1 (UInt64.not_lt.1 h))
    simp [wiresFrom, hempty]

theorem toCircuit_normalize (s : Program p) : s.normalize.toCircuit = s.toCircuit := by
  have hdeclare : s.normalize.declareAll = s.declareAll := by
    unfold declareAll normalize
    rw [wiresFrom_clampStart]
    rfl
  have hbuild : toCircuit.build s.normalize = toCircuit.build s := by
    unfold toCircuit.build
    rw [hdeclare]
    rfl
  unfold toCircuit
  rw [hbuild]
  rfl

theorem getD_firstOutput? {start : Wire} (h : ∀ w, w ∈ c.outputs ↔ start ≤ w ∧ w < c.total) :
    c.firstOutput?.getD c.total = clampStart start c.total := by
  unfold clampStart
  split
  · next hlt =>
    have hfirst : c.firstOutput? = some start := by
      rw [Circuit.firstOutput?, Std.ExtTreeSet.min?_eq_some_iff_mem_and_forall]
      exact ⟨(h start).2 ⟨UInt64.le_refl _, hlt⟩, fun w hw => Std.isLE_compare.2 ((h w).1 hw).1⟩
    rw [hfirst]
    rfl
  · next hge =>
    have hnone : c.firstOutput? = none := by
      rw [Circuit.firstOutput?, Std.ExtTreeSet.min?_eq_none_iff,
        Std.ExtTreeSet.eq_empty_iff_forall_not_mem]
      intro w hw
      obtain ⟨hle, hlt⟩ := (h w).1 hw
      exact hge (UInt64.lt_of_le_of_lt hle hlt)
    rw [hnone]
    rfl

variable [Nonzero p]

theorem ofGate?_toGate (op : Operation p) : Operation.ofGate? op.toGate = .ok (some op) := by
  cases op with
  | constMul x a w =>
    have hfold : Residue.ofInt x.val = x := Residue.ofNat_val x
    simp only [Operation.toGate, Operation.ofGate?, hfold]
  | _ => rfl

/-- The gates of a program show its operations, and nothing else, in order. -/
theorem exists_mapM_gates (s : Program p) :
    ∃ os, s.gates.mapM Operation.ofGate? = .ok os ∧ os.filterMap id = s.operations := by
  refine ⟨((wiresFrom 0 s.total).filter (· ∉ s.produced)).map (fun _ => none) ++
    s.operations.map some, ?_, ?_⟩
  · rw [mapM_eq_ok_iff]
    refine List.rel_append ?_ ?_
    · rw [List.forall₂_map_left_iff, List.forall₂_map_right_iff, List.forall₂_same]
      exact fun w _ => rfl
    · rw [List.forall₂_map_left_iff, List.forall₂_map_right_iff, List.forall₂_same]
      exact fun op _ => ofGate?_toGate op
  · simp

/-- The circuit of a program has the normal form of the program as its program. -/
theorem ofCircuit_of_toCircuit (h : s.toCircuit = .ok c) : ofCircuit c = .ok s.normalize := by
  obtain ⟨htotal, hgates, houtputs⟩ := of_toCircuit h
  obtain ⟨os, hos, hops⟩ := exists_mapM_gates s
  unfold ofCircuit
  rw [hgates, except_bind_of_ok hos, hops, getD_firstOutput? (htotal ▸ houtputs), htotal]
  rfl

theorem normalize_of_ofCircuit (h : ofCircuit c = .ok s) : s.normalize = s := by
  obtain ⟨htotal, hstart, -⟩ := flattens_of_ofCircuit h
  have hclamp : clampStart s.outStart s.total = s.outStart := by
    unfold clampStart
    split
    · rfl
    · next hge =>
      rw [hstart, htotal] at hge ⊢
      cases hm : c.firstOutput? with
      | none => rfl
      | some w =>
        rw [hm] at hge
        exact absurd (Circuit.outputs_lt _ w (Std.ExtTreeSet.min?_mem hm)) hge
  unfold normalize
  rw [hclamp]

/-- Gates that produce each wire once make operations that do. -/
theorem exists_toCircuit_of_ofCircuit (hn : c.total ≤ maxWires)
    (h : ofCircuit c = .ok s) : ∃ c', s.toCircuit = .ok c' := by
  obtain ⟨htotal, -, hflat⟩ := flattens_of_ofCircuit h
  obtain ⟨c', hc', -⟩ := exists_toCircuit (htotal ▸ hn)
    ((Circuit.nodup_flatMap_outputs _).sublist hflat.outputs_sublist) fun w hw => by
      obtain ⟨g, -, hg, hw, -⟩ := exists_gate_of_mem_produced hflat (mem_produced.2 hw)
      exact htotal ▸ Circuit.output_lt hg hw
  exact ⟨c', hc'⟩

end Program

namespace Circuit

variable [Nonzero p]

/-- A circuit that is read from a program's text is written as a text that reads as the same
circuit, and a program's text that is written for a circuit is written again for the circuit that it
reads as. -/
theorem ofProgramText_flatten_inverse :
    (∀ (text : String) (c : Circuit), ofProgramText p text = .ok c → ∀ journal, ∃ s journal',
      (c.flatten : Journaled Fault (Program p)) journal = .ok s journal' ∧
        ofProgramText p s.text = .ok c) ∧
    ∀ (c : Circuit) (s : Program p) (journal journal' : Journal),
      c.total ≤ Program.maxWires → c.flatten journal = .ok s journal' →
      ∃ c', ofProgramText p s.text = .ok c' ∧ ∀ journal₂, ∃ s' journal₂',
        (c'.flatten : Journaled Fault (Program p)) journal₂ = .ok s' journal₂' ∧
        s'.text = s.text := by
  constructor
  · intro text c h journal
    obtain ⟨s, -, hs⟩ := exists_ok_of_except_bind h
    obtain ⟨journal', hflatten⟩ := exists_flatten_iff.2 (Program.ofCircuit_of_toCircuit hs)
    refine ⟨s.normalize, journal', hflatten, ?_⟩
    rw [ofProgramText_text, Program.toCircuit_normalize, hs]
  · intro c s journal journal' hn h
    have hs := ofCircuit_of_flatten h
    obtain ⟨c', hc'⟩ := Program.exists_toCircuit_of_ofCircuit hn hs
    refine ⟨c', (ofProgramText_text s).trans hc', fun journal₂ => ?_⟩
    have hs' := Program.ofCircuit_of_toCircuit hc'
    rw [Program.normalize_of_ofCircuit hs] at hs'
    obtain ⟨journal₂', hflatten⟩ := exists_flatten_iff.2 hs'
    exact ⟨s, journal₂', hflatten, rfl⟩

/-- The headers stand last, the outputs start beyond the last wire, and the constant is not
reduced. -/
def looseText : String := "constmul 0 0x1E 2 # thirty\n\tout_start 9\n\ninput +3\n"

def looseProgram : Program 7 := ⟨3, 9, [.constMul ⟨2, by decide⟩ 0 2]⟩

theorem parse_looseText :
    (Program.parse looseText : Except Fault (Program 7)) = .ok looseProgram := by
  decide +kernel

theorem ofProgramText_looseText_inverse :
    (∃ c s journal', ofProgramText 7 looseText = .ok c ∧
      (c.flatten : Journaled Fault (Program 7)) [] = .ok s journal' ∧
      ofProgramText 7 s.text = .ok c) ∧
    ∃ c' s' journal', ofProgramText 7 quotientProgram.text = .ok c' ∧
      (c'.flatten : Journaled Fault (Program 7)) [] = .ok s' journal' ∧
      s'.text = quotientProgram.text := by
  constructor
  · have hlt : ∀ w ∈ looseProgram.operations.flatMap Operation.outputs, w < looseProgram.total := by
      intro w hw
      obtain rfl : w = 2 := by simpa [looseProgram, Operation.outputs] using hw
      decide
    obtain ⟨c, hc, -⟩ := Program.exists_toCircuit (s := looseProgram) (by decide) (by decide) hlt
    have hread : ofProgramText 7 looseText = .ok c := (except_bind_of_ok parse_looseText).trans hc
    obtain ⟨s, journal', hflatten, hback⟩ := ofProgramText_flatten_inverse.1 looseText c hread []
    exact ⟨c, s, journal', hread, hflatten, hback⟩
  · obtain ⟨c', hread, hback⟩ := ofProgramText_flatten_inverse.2 quotientTest quotientProgram [] _
      (by decide) flatten_quotientTest
    obtain ⟨s', journal', hflatten, htext⟩ := hback []
    exact ⟨c', s', journal', hread, hflatten, htext⟩

end Circuit

end FieldCircuit
