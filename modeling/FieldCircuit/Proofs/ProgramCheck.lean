import FieldCircuit.Proofs.FinalCheck
import FieldCircuit.Proofs.Rebuilding

/-!
# Which programs make circuits

A program is rejected for its header, then for its largest wire, then for the first wire that it
produces a second time (`Program.Rejects`). Every wire below the total that no operation produces
becomes an input, so that nothing is left for the final check of the builder to find.
-/

namespace FieldCircuit

/-! ## Repeats -/

/-- The first wire of a list that stands in the list before. -/
def FirstRepeat (ws : List Wire) (w : Wire) : Prop :=
  ∃ before after, ws = before ++ w :: after ∧ before.Nodup ∧ w ∈ before

namespace FirstRepeat

variable {vs ws : List Wire} {v w : Wire}

theorem not_nodup (h : FirstRepeat ws w) : ¬ws.Nodup := by
  obtain ⟨before, after, rfl, -, hw⟩ := h
  rw [List.nodup_append]
  exact fun hd => hd.2.2 w hw w List.mem_cons_self rfl

theorem eq_of_append {before after before' after' : List Wire}
    (h : before ++ v :: after = before' ++ w :: after') (hle : before.length ≤ before'.length)
    (hv : v ∈ before) (hd : before'.Nodup) : v = w := by
  obtain ⟨mid, rfl⟩ : before <+: before' :=
    List.prefix_of_prefix_length_le (List.prefix_append before (v :: after))
      (h ▸ List.prefix_append before' _) hle
  rw [List.append_assoc, List.append_cancel_left_eq] at h
  cases mid with
  | nil => exact (List.cons.inj h).1
  | cons u mid =>
    -- the longer part would hold the shorter one and its repeat
    obtain rfl : v = u := (List.cons.inj h).1
    exact absurd hd (not_nodup ⟨before, mid, rfl, (List.nodup_append.1 hd).1, hv⟩)

theorem unique (hv : FirstRepeat ws v) (hw : FirstRepeat ws w) : v = w := by
  obtain ⟨before, after, rfl, hd, hv⟩ := hv
  obtain ⟨before', after', h, hd', hw⟩ := hw
  rcases Nat.le_total before.length before'.length with hle | hle
  · exact eq_of_append h hle hv hd'
  · exact (eq_of_append h.symm hle hw hd).symm

/-- Wires in front that are all different, and none of them behind, repeat nothing. -/
theorem of_append (hd : vs.Nodup) (hne : ∀ v ∈ vs, v ∉ ws) (h : FirstRepeat (vs ++ ws) w) :
    FirstRepeat ws w := by
  obtain ⟨before, after, h, hd', hw⟩ := h
  rcases List.append_eq_append_iff.1 h with ⟨mid, rfl, rfl⟩ | ⟨mid, rfl, hmid⟩
  · refine ⟨mid, after, rfl, (List.nodup_append.1 hd').2.1, ?_⟩
    exact (List.mem_append.1 hw).resolve_left fun hv => hne w hv (by simp)
  · cases mid with
    | nil =>
      rw [List.nil_append] at hmid
      exact absurd (hmid ▸ List.mem_cons_self) (hne w (by simpa using hw))
    | cons u mid =>
      obtain rfl : w = u := (List.cons.inj hmid).1
      exact absurd hd (not_nodup ⟨before, mid, rfl, hd', hw⟩)

end FirstRepeat

namespace Builder

variable {b b' : Builder} {ps ps' : Std.ExtTreeMap Wire Producer} {ws vs : List Wire} {w : Wire}

theorem firstClash_empty_iff : FirstClash ∅ ws w ↔ FirstRepeat ws w := by
  simp [FirstClash, FirstRepeat]

theorem FirstClash.append_right (h : FirstClash ps ws w) (vs : List Wire) :
    FirstClash ps (ws ++ vs) w := by
  obtain ⟨before, after, rfl, hbefore⟩ := h
  exact ⟨before, after ++ vs, by simp, hbefore⟩

/-- Wires that are all entered put off the first clash to those behind. -/
theorem FirstClash.append_left (hd : ws.Nodup) (hf : ∀ v ∈ ws, v ∉ ps)
    (hps : ∀ v, v ∈ ps' ↔ v ∈ ps ∨ v ∈ ws) (h : FirstClash ps' vs w) :
    FirstClash ps (ws ++ vs) w := by
  obtain ⟨before, after, rfl, hd', hf', hw⟩ := h
  simp only [hps, not_or] at hf' hw
  refine ⟨ws ++ before, after, by simp, ?_, ?_, ?_⟩
  · rw [List.nodup_append]
    exact ⟨hd, hd', fun u hu v hv he => (hf' v hv).2 (he ▸ hu)⟩
  · intro v hv
    rcases List.mem_append.1 hv with hv | hv
    · exact hf v hv
    · exact (hf' v hv).1
  · rw [List.mem_append, ← or_assoc]
    exact hw

/-- Gates taken in turn are refused for the first clash among all their outputs. -/
theorem firstClash_of_forM_push {gs : List Gate} {fault : Fault}
    (h : gs.forM push b = .error fault b') :
    ∃ w, FirstClash b.producers (gs.flatMap Gate.outputs) w ∧ fault = .duplicateWire w := by
  induction gs generalizing b with
  | nil => cases h
  | cons g gs ih =>
    rw [List.flatMap_cons]
    rcases error_or_of_bind (x := push g) (f := fun _ => gs.forM push) h with hg | ⟨_, b₁, hg, h⟩
    · obtain ⟨-, w, hw, rfl⟩ := of_push_error hg
      exact ⟨w, hw.append_right _, rfl⟩
    · obtain ⟨⟨hd, hf⟩, -⟩ := of_push hg
      obtain ⟨b₂, hpush, -, -, -, hps⟩ := exists_push hd hf
      cases hpush.symm.trans hg
      obtain ⟨w, hw, rfl⟩ := ih h
      exact ⟨w, hw.append_left hd hf hps, rfl⟩

end Builder

namespace Program

variable {p : Nat} {s : Program p} {c : Circuit} {fault : Fault}

/-! ## Rejected programs -/

/-- What keeps a program from being a circuit, in the order in which it is looked for: too large a
total, a wire beyond the total, a wire produced twice. -/
inductive Rejects (s : Program p) : Fault → Prop where
  | total : maxWires < s.total → Rejects s (.tooManyWires s.total maxWires)
  | extent {w : Wire} : s.total ≤ maxWires →
      IsGreatest {v | v ∈ s.operations.flatMap Operation.outputs} w →
      s.total ≤ w → Rejects s (.wireCountMismatch s.total (Builder.saturate (w.toNat + 1)))
  | repeated {w : Wire} : s.total ≤ maxWires →
      (∀ v ∈ s.operations.flatMap Operation.outputs, v < s.total) →
      FirstRepeat (s.operations.flatMap Operation.outputs) w → Rejects s (.duplicateWire w)

theorem Rejects.not_accepted (h : s.Rejects fault) : ¬(s.total ≤ maxWires ∧
    (∀ w ∈ s.operations.flatMap Operation.outputs, w < s.total) ∧
      (s.operations.flatMap Operation.outputs).Nodup) := by
  rintro ⟨hn, hlt, hd⟩
  cases h with
  | total hgt => exact UInt64.not_lt.2 hn hgt
  | extent _ hw hge => exact UInt64.not_le.2 (hlt _ hw.1) hge
  | repeated _ _ hw => exact hw.not_nodup hd

theorem Rejects.unique {fault' : Fault} (h : s.Rejects fault) (h' : s.Rejects fault') :
    fault = fault' := by
  cases h with
  | total hgt =>
    cases h' with
    | total => rfl
    | extent hn | repeated hn => exact absurd hgt (UInt64.not_lt.2 hn)
  | extent hn hw hge =>
    cases h' with
    | total hgt => exact absurd hgt (UInt64.not_lt.2 hn)
    | extent _ hw' => rw [UInt64.le_antisymm (hw'.2 hw.1) (hw.2 hw'.1)]
    | repeated _ hlt => exact absurd hge (UInt64.not_le.2 (hlt _ hw.1))
  | repeated hn hlt hw =>
    cases h' with
    | total hgt => exact absurd hgt (UInt64.not_lt.2 hn)
    | extent _ hw' hge => exact absurd hge (UInt64.not_le.2 (hlt _ hw'.1))
    | repeated _ _ hw' => rw [hw.unique hw']

theorem max?_produced_eq_some_iff {w : Wire} :
    s.produced.max? = some w ↔ IsGreatest {v | v ∈ s.operations.flatMap Operation.outputs} w := by
  rw [Std.ExtTreeSet.max?_eq_some_iff_mem_and_forall]
  simp only [mem_produced, Std.isLE_compare]
  rfl

theorem exists_repeat_of_build (hn : s.total ≤ maxWires)
    (hlt : ∀ w ∈ s.operations.flatMap Operation.outputs, w < s.total)
    (h : toCircuit.build s = .error fault) :
    ∃ w, FirstRepeat (s.operations.flatMap Operation.outputs) w ∧ fault = .duplicateWire w := by
  cases hpush : s.gates.forM Builder.push (Builder.withTotal s.total) with
  | error fault' b =>
    have hrun : s.declareAll (Builder.withTotal s.total) = .error fault' b := bind_of_error hpush
    unfold toCircuit.build at h
    rw [EStateM.run, hrun] at h
    cases h
    obtain ⟨w, hw, rfl⟩ := Builder.firstClash_of_forM_push hpush
    refine ⟨w, ?_, rfl⟩
    rw [flatMap_outputs_gates] at hw
    refine FirstRepeat.of_append ((nodup_wiresFrom 0 s.total).filter _) (fun v hv => ?_)
      (Builder.firstClash_empty_iff.1 hw)
    simpa [mem_produced] using (List.mem_filter.1 hv).2
  | ok u b =>
    -- gates that are all taken are those of a circuit
    obtain ⟨-, -, hgates⟩ := Builder.of_forM_push hpush
    have hd := b.indexed.nodup_flatMap_outputs
    simp only [hgates, Builder.withTotal, Builder.empty, List.nil_append,
      flatMap_outputs_gates] at hd
    obtain ⟨c, hc, -⟩ := exists_toCircuit hn (List.nodup_append.1 hd).2.1 hlt
    cases h.symm.trans (build_of_toCircuit hc)

theorem rejects_of_toCircuit (h : s.toCircuit = .error fault) : s.Rejects fault := by
  unfold toCircuit at h
  split at h
  · next hgt =>
    cases h
    exact .total hgt
  · next hle =>
    have hn : s.total ≤ maxWires := UInt64.not_lt.1 hle
    have hbuild (hlt : ∀ w ∈ s.operations.flatMap Operation.outputs, w < s.total)
        (h : toCircuit.build s = .error fault) : s.Rejects fault := by
      obtain ⟨w, hw, rfl⟩ := exists_repeat_of_build hn hlt h
      exact .repeated hn hlt hw
    split at h
    · next w hmax =>
      have hw := max?_produced_eq_some_iff.1 hmax
      split at h
      · next hge =>
        cases h
        rw [Builder.next_eq_saturate]
        exact .extent hn hw hge
      · next hlt =>
          exact hbuild (fun v hv => UInt64.lt_of_le_of_lt (hw.2 hv) (UInt64.not_le.1 hlt)) h
    · next hmax =>
      refine hbuild (fun v hv => ?_) h
      rw [Std.ExtTreeSet.max?_eq_none_iff, Std.ExtTreeSet.eq_empty_iff_forall_not_mem] at hmax
      exact absurd (mem_produced.2 hv) (hmax v)

/-! ## Accepted programs -/

theorem total_le_of_toCircuit (h : s.toCircuit = .ok c) : s.total ≤ maxWires := by
  unfold toCircuit at h
  split at h
  · cases h
  · next hle => exact UInt64.not_lt.1 hle

theorem exists_toCircuit_iff : (∃ c, s.toCircuit = .ok c) ↔ s.total ≤ maxWires ∧
    (∀ w ∈ s.operations.flatMap Operation.outputs, w < s.total) ∧
      (s.operations.flatMap Operation.outputs).Nodup := by
  constructor
  · rintro ⟨c, h⟩
    obtain ⟨htotal, hgates, -⟩ := of_toCircuit h
    refine ⟨total_le_of_toCircuit h, fun w hw => ?_, ?_⟩
    · obtain ⟨op, hop, hw⟩ := List.mem_flatMap.1 hw
      have hg : op.toGate ∈ c.gates.toList := by
        rw [hgates, gates]
        exact List.mem_append_right _ (List.mem_map_of_mem hop)
      rw [← htotal]
      exact Circuit.output_lt (Array.mem_toList_iff.1 hg) (op.outputs_toGate ▸ hw)
    · have hd := c.nodup_flatMap_outputs
      rw [hgates, flatMap_outputs_gates] at hd
      exact (List.nodup_append.1 hd).2.1
  · rintro ⟨hn, hlt, hd⟩
    obtain ⟨c, hc, -⟩ := exists_toCircuit hn hd hlt
    exact ⟨c, hc⟩

theorem toCircuit_eq_error_iff : s.toCircuit = .error fault ↔ s.Rejects fault := by
  refine ⟨rejects_of_toCircuit, fun h => ?_⟩
  cases hs : s.toCircuit with
  | ok c => exact absurd (exists_toCircuit_iff.1 ⟨c, hs⟩) h.not_accepted
  | error fault' => rw [h.unique (rejects_of_toCircuit hs)]

theorem inputWires_of_toCircuit (h : s.toCircuit = .ok c) :
    c.inputWires = (wiresFrom 0 s.total).filter (· ∉ s.produced) := by
  obtain ⟨-, hgates, -⟩ := of_toCircuit h
  unfold Circuit.inputWires
  -- an operation is no input, so that the second part of the gates adds nothing
  rw [hgates, gates, List.filterMap_append, List.filterMap_map, List.filterMap_map,
    List.filterMap_eq_nil_iff.2 fun (op : Operation p) _ => by cases op <;> rfl, List.append_nil]
  exact List.filterMap_some

/-- A program makes a circuit exactly when its total is within the bound and its operations produce
wires below the total, none of them twice; any other program is rejected for the first of these that
fails. In the circuit, inputs for the wires that no operation produces stand before the
operations. -/
theorem toCircuit_decides_and_completes (s : Program p) :
    ((∃ c, s.toCircuit = .ok c) ↔ s.total ≤ maxWires ∧
      (∀ w ∈ s.operations.flatMap Operation.outputs, w < s.total) ∧
        (s.operations.flatMap Operation.outputs).Nodup) ∧
    (∀ fault, s.toCircuit = .error fault ↔ s.Rejects fault) ∧
    ∀ c, s.toCircuit = .ok c → c.total = s.total ∧ c.inputWires.Pairwise (· < ·) ∧
      (∀ w, w ∈ c.inputWires ↔ w < s.total ∧ w ∉ s.operations.flatMap Operation.outputs) ∧
      c.gates.toList = c.inputWires.map .input ++ s.operations.map Operation.toGate ∧
      ∀ w, w ∈ c.outputs ↔ s.outStart ≤ w ∧ w < s.total := by
  refine ⟨exists_toCircuit_iff, fun _ => toCircuit_eq_error_iff, fun c h => ?_⟩
  obtain ⟨htotal, hgates, houtputs⟩ := of_toCircuit h
  rw [inputWires_of_toCircuit h]
  refine ⟨htotal, (pairwise_wiresFrom 0 s.total).filter _, fun w => ?_, hgates, houtputs⟩
  simp [mem_wiresFrom, mem_produced]

/-- Half of the wires are produced, and the outputs start beyond all of them. -/
def sparseProgram : Program scalarModulus := ⟨4, 18446744073709551615, [.zeroTest 3 0 2]⟩

/-- A zero test produces one wire in both its slots, after a division into the last wire. -/
def stutterProgram : Program scalarModulus := ⟨4, 0, [.div 0 1 3, .zeroTest 3 2 2]⟩

theorem toCircuit_sparseProgram :
    (∃ c, sparseProgram.toCircuit = .ok c ∧ c.inputWires.Pairwise (· < ·) ∧
      (∀ w, w ∈ c.inputWires ↔ w < 4 ∧ w ∉ [0, 2]) ∧
      c.gates.toList = c.inputWires.map .input ++ [.zeroTest 3 0 2] ∧ ∀ w, w ∉ c.outputs) ∧
    stutterProgram.toCircuit = .error (.duplicateWire 2) := by
  constructor
  · have hlt : ∀ w ∈ ([0, 2] : List Wire), w < 4 := by simp
    obtain ⟨c, hc⟩ :=
      (toCircuit_decides_and_completes sparseProgram).1.2 ⟨by decide, hlt, by decide⟩
    obtain ⟨-, hsorted, hinputs, hgates, houtputs⟩ :=
      (toCircuit_decides_and_completes sparseProgram).2.2 c hc
    refine ⟨c, hc, hsorted, hinputs, hgates, fun w hw => ?_⟩
    obtain ⟨hle, hlt⟩ := (houtputs w).1 hw
    exact absurd (UInt64.lt_of_le_of_lt hle hlt) (by decide)
  · have hlt : ∀ w ∈ ([3, 2, 2] : List Wire), w < 4 := by simp
    have hrepeat : FirstRepeat [3, 2, 2] 2 := ⟨[3, 2], [], rfl, by decide, by decide⟩
    exact ((toCircuit_decides_and_completes stutterProgram).2.1 _).2
      (.repeated (by decide) hlt hrepeat)

end Program

end FieldCircuit
