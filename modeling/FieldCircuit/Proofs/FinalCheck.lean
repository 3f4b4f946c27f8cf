import FieldCircuit.Proofs.Assembly
import Mathlib.Order.Bounds.Basic

/-!
# The final check of a builder

`finish` accepts a builder exactly when the wires its gates produce are the wires below the declared
total and the outputs are among them. `Builder.Rejects` says which fault it reports otherwise. In
the circuit of an accepted builder the producers are read by position, and what is read is the entry
of the builder's index (`Builder.producer?_circuit`).
-/

namespace FieldCircuit

namespace Builder

variable {b : Builder} {ps : Std.ExtTreeMap Wire Producer} {n : UInt64} {P : Set Wire}

/-- The wires that the stored gates produce. -/
def produced (b : Builder) : Set Wire := {w | ∃ g ∈ b.gates, w ∈ g.outputs}

theorem mem_producers_iff_produced (w : Wire) : w ∈ b.producers ↔ w ∈ b.produced := by
  rw [mem_producers_iff, List.mem_flatMap]
  simp only [Array.mem_toList_iff]
  rfl

/-! ## Searches in ascending lists -/

theorem find?_eq_some_iff_isLeast {q : Wire → Bool} {ws : List Wire} (hs : ws.Pairwise (· < ·))
    {w : Wire} :
    ws.find? q = some w ↔ IsLeast {v | v ∈ ws ∧ q v = true} w := by
  have hleast : ∀ {w}, ws.find? q = some w → IsLeast {v | v ∈ ws ∧ q v = true} w := by
    intro w h
    obtain ⟨hq, before, after, rfl, hbefore⟩ := List.find?_eq_some_iff_append.1 h
    obtain ⟨-, hafter, -⟩ := List.pairwise_append.1 hs
    refine ⟨⟨by simp, hq⟩, fun v ⟨hv, hqv⟩ => ?_⟩
    rcases List.mem_append.1 hv with hv | hv
    · have hnot : q v = false := by simpa using hbefore v hv
      exact absurd hqv (by simp [hnot])
    · rcases List.mem_cons.1 hv with rfl | hv
      · exact UInt64.le_refl _
      · exact UInt64.le_of_lt ((List.pairwise_cons.1 hafter).1 v hv)
  refine ⟨hleast, fun h => ?_⟩
  cases hf : ws.find? q with
  | none => exact absurd h.1.2 (List.find?_eq_none.1 hf w h.1.1)
  | some v =>
    have hv := hleast hf
    rw [UInt64.le_antisymm (hv.2 h.1) (h.2 hv.1)]

/-- The search for a gap gives the least number that is missing below some element. -/
theorem firstGap?_eq_some_iff {k : Nat} {ws : List Wire} (hs : ws.Pairwise (· < ·))
    (hk : ∀ w ∈ ws, k ≤ w.toNat) {v : Wire} :
    firstGap? k ws = some v ↔ IsLeast {u : Wire | k ≤ u.toNat ∧ u ∉ ws ∧ ∃ w ∈ ws, u < w} v := by
  induction ws generalizing k with
  | nil => simp [firstGap?, IsLeast]
  | cons w ws ih =>
    obtain ⟨hw, hs⟩ := List.pairwise_cons.1 hs
    simp only [UInt64.lt_iff_toNat_lt] at hw
    by_cases he : w.toNat = k
    · rw [firstGap?, if_pos he, ih hs fun u hu => by have := hw u hu; omega]
      have hset : {u : Wire | k + 1 ≤ u.toNat ∧ u ∉ ws ∧ ∃ x ∈ ws, u < x} =
          {u : Wire | k ≤ u.toNat ∧ u ∉ w :: ws ∧ ∃ x ∈ w :: ws, u < x} := by
        ext u
        simp only [Set.mem_ofPred_eq, List.mem_cons, not_or, UInt64.lt_iff_toNat_lt,
          ← UInt64.toNat_inj]
        constructor
        · rintro ⟨hu, hmem, x, hx, hlt⟩
          exact ⟨by omega, ⟨by omega, hmem⟩, x, .inr hx, hlt⟩
        · rintro ⟨hu, ⟨hne, hmem⟩, x, hx | hx, hlt⟩
          · omega
          · exact ⟨by omega, hmem, x, hx, hlt⟩
      rw [hset]
    · -- `k` itself is missing, and nothing before it counts
      have hlt : k < w.toNat := by have := hk w List.mem_cons_self; omega
      have hto : k.toUInt64.toNat = k :=
        UInt64.toNat_ofNat_of_lt' (Nat.lt_trans hlt w.toNat_lt_size)
      have hgap : k.toUInt64 ∈ {u : Wire | k ≤ u.toNat ∧ u ∉ w :: ws ∧ ∃ x ∈ w :: ws, u < x} := by
        refine ⟨by omega, fun hmem => ?_, w, List.mem_cons_self,
          by rw [UInt64.lt_iff_toNat_lt]; omega⟩
        rcases List.mem_cons.1 hmem with rfl | hmem
        · omega
        · have := hw _ hmem
          omega
      rw [firstGap?, if_neg he, Option.some.injEq]
      constructor
      · rintro rfl
        refine ⟨hgap, fun u hu => ?_⟩
        rw [UInt64.le_iff_toNat_le, hto]
        exact hu.1
      · intro h
        have hle := UInt64.le_iff_toNat_le.1 (h.2 hgap)
        have hge := h.1.1
        exact UInt64.toNat_inj.1 (by omega)

/-! ## The number of wires -/

/-- One more than the largest wire of a set, as a number, and zero for the empty set. -/
inductive Spans (P : Set Wire) : Nat → Prop where
  | empty : (∀ w, w ∉ P) → Spans P 0
  | upTo {w : Wire} : IsGreatest P w → Spans P (w.toNat + 1)

/-- The word of a number, or the last word if the number is too large. -/
def saturate (k : Nat) : UInt64 := if k < UInt64.size then k.toUInt64 else lastWire

theorem maxKey?_eq_some_iff_isGreatest (hP : ∀ w, w ∈ ps ↔ w ∈ P) {w : Wire} :
    ps.maxKey? = some w ↔ IsGreatest P w := by
  rw [Std.ExtTreeMap.maxKey?_eq_some_iff_mem_and_forall]
  simp only [hP, Std.isLE_compare]
  rfl

theorem maxKey?_eq_none_iff_forall (hP : ∀ w, w ∈ ps ↔ w ∈ P) : ps.maxKey? = none ↔ ∀ w, w ∉ P := by
  rw [Std.ExtTreeMap.maxKey?_eq_none_iff, Std.ExtTreeMap.eq_empty_iff_forall_not_mem]
  simp only [hP]

theorem exists_spans (hP : ∀ w, w ∈ ps ↔ w ∈ P) : ∃ k, Spans P k := by
  cases hm : ps.maxKey? with
  | none => exact ⟨0, .empty ((maxKey?_eq_none_iff_forall hP).1 hm)⟩
  | some w => exact ⟨_, .upTo ((maxKey?_eq_some_iff_isGreatest hP).1 hm)⟩

theorem toNat_lastWire : lastWire.toNat + 1 = UInt64.size := rfl

theorem toNat_saturate (k : Nat) :
    (saturate k).toNat = if k < UInt64.size then k else lastWire.toNat := by
  unfold saturate
  split
  · next h => exact UInt64.toNat_ofNat_of_lt' h
  · rfl

theorem next_eq_saturate (w : Wire) : next w = saturate (w.toNat + 1) := by
  have hw := w.toNat_lt_size
  have hlast := toNat_lastWire
  apply UInt64.toNat_inj.1
  rw [toNat_saturate]
  by_cases hl : w = lastWire
  · subst hl
    rfl
  · have hne : w.toNat ≠ lastWire.toNat := fun he => hl (UInt64.toNat_inj.1 he)
    rw [toNat_next hl, if_pos (by omega)]

theorem extent_eq_saturate (hP : ∀ w, w ∈ ps ↔ w ∈ P) {k : Nat} (hk : Spans P k) :
    extent ps = saturate k := by
  unfold extent
  cases hk with
  | empty h =>
    rw [(maxKey?_eq_none_iff_forall hP).2 h]
    rfl
  | @upTo w h =>
    rw [(maxKey?_eq_some_iff_isGreatest hP).2 h]
    exact next_eq_saturate w

/-- Only when the last word is produced do the wires number more than a word can say. -/
theorem Spans.eq_size_iff {k : Nat} (hk : Spans P k) : k = UInt64.size ↔ lastWire ∈ P := by
  have hlast := toNat_lastWire
  cases hk with
  | empty h => simp [h]
  | @upTo w h =>
    have hw := w.toNat_lt_size
    constructor
    · intro he
      obtain rfl : w = lastWire := UInt64.toNat_inj.1 (by omega)
      exact h.1
    · intro hl
      have := UInt64.le_iff_toNat_le.1 (h.2 hl)
      omega

theorem Spans.le_size {k : Nat} (hk : Spans P k) : k ≤ UInt64.size := by
  cases hk with
  | empty => exact Nat.zero_le _
  | @upTo w => exact w.toNat_lt_size

/-- The comparison of words, with the last word apart, is the one of numbers. -/
theorem extent_ne_or_iff (hP : ∀ w, w ∈ ps ↔ w ∈ P) {k : Nat} (hk : Spans P k) :
    (extent ps ≠ n || ps.contains lastWire) = true ↔ k ≠ n.toNat := by
  have hn := n.toNat_lt_size
  have hle := hk.le_size
  rw [Bool.or_eq_true, decide_eq_true_iff, ← Std.ExtTreeMap.mem_iff_contains, hP, ← hk.eq_size_iff,
    extent_eq_saturate hP hk, ne_eq, ← UInt64.toNat_inj, toNat_saturate]
  split <;> omega

/-- Among wires that span `n` numbers, the gap that is found is the least wire below `n` left
out. -/
theorem firstGap?_keys_eq_some_iff (hP : ∀ w, w ∈ ps ↔ w ∈ P) (hn : Spans P n.toNat) {v : Wire} :
    firstGap? 0 ps.keys = some v ↔ IsLeast {w | w < n ∧ w ∉ P} v := by
  have hs : ps.keys.Pairwise (· < ·) := Std.ExtTreeMap.ordered_keys.imp Std.compare_eq_lt.1
  have hset : {u : Wire | 0 ≤ u.toNat ∧ u ∉ ps.keys ∧ ∃ w ∈ ps.keys, u < w} =
      {w | w < n ∧ w ∉ P} := by
    ext u
    simp only [Set.mem_ofPred_eq, Nat.zero_le, true_and, Std.ExtTreeMap.mem_keys, hP,
      UInt64.lt_iff_toNat_lt]
    rw [and_comm, and_congr_left_iff]
    intro hu
    generalize hk : n.toNat = k at hn
    cases hn with
    | empty h => simp [h]
    | @upTo m h =>
      constructor
      · rintro ⟨w, hw, hlt⟩
        have := UInt64.le_iff_toNat_le.1 (h.2 hw)
        omega
      · intro hlt
        refine ⟨m, h.1, ?_⟩
        have hne : u.toNat ≠ m.toNat := fun he => hu (UInt64.toNat_inj.1 he ▸ h.1)
        omega
  rw [firstGap?_eq_some_iff hs fun _ _ => Nat.zero_le _, hset]

/-! ## What is accepted and what is rejected -/

/-- What the final check reports, in the order in which it looks: the least output that is not
produced, no total, a total other than the number up to the largest wire, the least wire left out
below the total. -/
inductive Rejects (b : Builder) : Fault → Prop where
  | output {w : Wire} : IsLeast {w | w ∈ b.outputs ∧ w ∉ b.produced} w → Rejects b (.missingWire w)
  | total : (∀ w ∈ b.outputs, w ∈ b.produced) → b.total = none → Rejects b .undeclaredTotal
  | count {n : UInt64} {k : Nat} : (∀ w ∈ b.outputs, w ∈ b.produced) → b.total = some n →
      Spans b.produced k → k ≠ n.toNat → Rejects b (.wireCountMismatch n (saturate k))
  | gap {n : UInt64} {w : Wire} : (∀ w ∈ b.outputs, w ∈ b.produced) → b.total = some n →
      Spans b.produced n.toNat → IsLeast {w | w < n ∧ w ∉ b.produced} w → Rejects b (.missingWire w)

theorem find?_outputs_eq_some_iff {w : Wire} :
    b.outputs.toList.find? (!b.producers.contains ·) = some w ↔
      IsLeast {w | w ∈ b.outputs ∧ w ∉ b.produced} w := by
  have hs : b.outputs.toList.Pairwise (· < ·) :=
    Std.ExtTreeSet.ordered_toList.imp Std.compare_eq_lt.1
  rw [find?_eq_some_iff_isLeast hs]
  simp only [Std.ExtTreeSet.mem_toList, Bool.not_eq_true', ← mem_producers_iff_produced,
    Std.ExtTreeMap.mem_iff_contains, Bool.not_eq_true]

theorem find?_outputs_eq_none_iff :
    b.outputs.toList.find? (!b.producers.contains ·) = none ↔ ∀ w ∈ b.outputs, w ∈ b.produced := by
  simp [← mem_producers_iff_produced]

theorem check_eq_error_iff {fault : Fault} : b.check = .error fault ↔ b.Rejects fault := by
  have hP : ∀ w, w ∈ b.producers ↔ w ∈ b.produced := mem_producers_iff_produced
  constructor
  · intro h
    unfold check at h
    split at h
    · next w ho =>
      cases h
      exact .output (find?_outputs_eq_some_iff.1 ho)
    · next ho =>
      have ho := find?_outputs_eq_none_iff.1 ho
      split at h
      · next ht =>
        cases h
        exact .total ho ht
      · next n ht =>
        obtain ⟨k, hk⟩ := exists_spans hP
        split at h
        · next hx =>
          cases h
          rw [extent_eq_saturate hP hk]
          exact .count ho ht hk ((extent_ne_or_iff hP hk).1 hx)
        · next hx =>
          obtain rfl : k = n.toNat := not_not.1 fun hne => hx ((extent_ne_or_iff hP hk).2 hne)
          split at h
          · next w hg =>
            cases h
            exact .gap ho ht hk ((firstGap?_keys_eq_some_iff hP hk).1 hg)
          · cases h
  · intro h
    cases h with
    | output hw => simp only [check, find?_outputs_eq_some_iff.2 hw]
    | total ho ht => simp only [check, find?_outputs_eq_none_iff.2 ho, ht]
    | count ho ht hk hne =>
      simp only [check, find?_outputs_eq_none_iff.2 ho, ht]
      rw [if_pos ((extent_ne_or_iff hP hk).2 hne), extent_eq_saturate hP hk]
    | @gap n w ho ht hk hw =>
      simp only [check, find?_outputs_eq_none_iff.2 ho, ht, (firstGap?_keys_eq_some_iff hP hk).2 hw]
      rw [if_neg fun hx => (extent_ne_or_iff hP hk).1 hx rfl]

theorem finish_eq_error_iff {fault : Fault} : b.finish = .error fault ↔ b.Rejects fault := by
  rw [← check_eq_error_iff]
  constructor
  · intro h
    cases hc : b.check with
    | ok n => cases (finish_of_checked (checked_of_check hc)).symm.trans h
    | error fault' =>
      cases (finish_of_check_error hc).symm.trans h
      rfl
  · exact finish_of_check_error

theorem exists_finish_iff :
    (∃ c, b.finish = .ok c) ↔
      ∃ n, b.total = some n ∧ (∀ w, w ∈ b.produced ↔ w < n) ∧ ∀ w ∈ b.outputs, w ∈ b.produced := by
  simp only [← mem_producers_iff_produced]
  constructor
  · rintro ⟨c, h⟩
    obtain ⟨n, hn, -⟩ := of_finish h
    exact ⟨n, hn.total, hn.mem_producers, fun w hw => (hn.mem_producers w).2 (hn.outputs_lt w hw)⟩
  · rintro ⟨n, ht, hmem, hout⟩
    exact ⟨_, finish_of_checked (checked_of_mem ht hmem fun w hw => (hmem w).1 (hout w hw))⟩

/-! ## The index by position -/

/-- No wire below the total is left out, so that the place of a wire is its number. -/
theorem producer?_circuit (h : b.Checked n) (w : Wire) :
    (b.circuit n h).producer? w = b.producers[w]? :=
  getElem?_inOrder h.noGap w

/-- The final check accepts exactly the builders whose gates produce the wires below the total, the
outputs among them, and reports the first thing that is wrong with any other. In the circuit it
gives, the list of producers read at a wire names a slot of a gate, and that slot is the wire. -/
theorem finish_decides_and_locates (b : Builder) :
    ((∃ c, b.finish = .ok c) ↔
      ∃ n, b.total = some n ∧ (∀ w, w ∈ b.produced ↔ w < n) ∧ ∀ w ∈ b.outputs, w ∈ b.produced) ∧
    (∀ fault, b.finish = .error fault ↔ b.Rejects fault) ∧
    ∀ c, b.finish = .ok c →
      b.total = some c.total ∧ c.gates = b.gates ∧ c.outputs = b.outputs ∧
      (∀ w, c.producer? w = b.producers[w]?) ∧
      (∀ w, w < c.total → ∃ i s, c.producer? w = some ⟨i, s⟩ ∧ ∃ _ : i < c.gates.size,
        c.gates[i].outputs[s]? = some w ∧ c.gate? w = some c.gates[i]) ∧
      ∀ w, c.total ≤ w → c.producer? w = none ∧ c.gate? w = none := by
  refine ⟨exists_finish_iff, fun _ => finish_eq_error_iff, fun c h => ?_⟩
  obtain ⟨n, hn, rfl⟩ := of_finish h
  refine ⟨hn.total, rfl, rfl, producer?_circuit hn, fun w => Circuit.exists_producer,
    fun w hw => ⟨?_, Circuit.gate?_eq_none_iff.2 hw⟩⟩
  rw [producer?_circuit hn]
  exact Std.ExtTreeMap.getElem?_eq_none fun hmem =>
    UInt64.not_lt.2 hw ((hn.mem_producers w).1 hmem)

/-- The last word is the only wire, and the total. -/
def lastWireBuilder : Builder := stateAfter (push (.input lastWire)) (withTotal lastWire)

theorem finish_lastWireBuilder :
    lastWireBuilder.finish = .error (.wireCountMismatch lastWire lastWire) := by
  have hgates : lastWireBuilder.gates = #[.input lastWire] := by decide +kernel
  have hproduced : ∀ w, w ∈ lastWireBuilder.produced ↔ w = lastWire := by
    intro w
    show (∃ g ∈ lastWireBuilder.gates, w ∈ g.outputs) ↔ _
    simp [hgates, Gate.outputs]
  have hspans : Spans lastWireBuilder.produced (lastWire.toNat + 1) := by
    refine .upTo ⟨(hproduced _).2 rfl, fun w hw => ?_⟩
    rw [(hproduced w).1 hw]
    exact UInt64.le_refl _
  have houtputs : ∀ w ∈ lastWireBuilder.outputs, w ∈ lastWireBuilder.produced := fun w hw =>
    absurd hw Std.ExtTreeSet.not_mem_empty
  have hrejects : lastWireBuilder.Rejects (.wireCountMismatch lastWire lastWire) :=
    .count houtputs rfl hspans (by decide)
  exact ((finish_decides_and_locates lastWireBuilder).2.1 _).2 hrejects

end Builder

end FieldCircuit
