import FieldCircuit.Circuit.Builder
import FieldCircuit.Proofs.Computation
import Mathlib.Data.List.Nodup

/-!
# The wires of a circuit and their gates

`Builder.push_cases` is what a gate does to a builder, and `Builder.of_finish` what the final check
gives. The index of a circuit holds exactly the slots of its gates, one for each wire below the
total, so that each wire has one gate (`Circuit.exists_gate`, `Circuit.eq_of_mem_outputs`).
-/

namespace FieldCircuit

theorem mem_iff_exists_getElem? {α β : Type} {cmp : α → α → Ordering} [Std.TransCmp cmp]
    {m : Std.ExtTreeMap α β cmp} {k : α} : k ∈ m ↔ ∃ x, m[k]? = some x := by
  rw [Std.ExtTreeMap.mem_iff_isSome_getElem?, Option.isSome_iff_exists]

/-- A gate that is stored does not repeat an output. -/
theorem Indexed.outputs_nodup {gates : Array Gate} {index : Wire → Option Producer}
    (hi : Indexed gates index) {g : Gate} (hg : g ∈ gates) : g.outputs.Nodup := by
  obtain ⟨i, hgi⟩ := Array.mem_iff_getElem?.1 hg
  rw [List.nodup_iff_getElem?_ne_getElem?]
  intro s s' hs hs' he
  obtain ⟨w, hw⟩ : ∃ w, g.outputs[s']? = some w := ⟨_, List.getElem?_eq_getElem hs'⟩
  have h := (hi w ⟨i, s⟩).2 ⟨g, hgi, he.trans hw⟩
  rw [(hi w ⟨i, s'⟩).2 ⟨g, hgi, hw⟩] at h
  simp only [Option.some.injEq, Producer.mk.injEq, true_and] at h
  omega

namespace Builder

variable {b : Builder} {g : Gate} {ps : Std.ExtTreeMap Wire Producer} {fault : Fault}

theorem push_of_claim (h : claim b.gates.size [] g.outputs b.producers = .ok () ps) :
    push g b = .ok () { b with
      gates := b.gates.push g, producers := ps, indexed := indexed_of_claim b.indexed h } := by
  unfold push
  split
  · next h' =>
    cases h.symm.trans h'
    rfl
  · next h' => cases h.symm.trans h'

/-- A gate that is refused leaves the builder as it was. -/
theorem push_of_claim_error (h : claim b.gates.size [] g.outputs b.producers = .error fault ps) :
    push g b = .error fault b := by
  obtain rfl : ps = b.producers := eq_release_of_claim h
  unfold push
  split
  · next h' => cases h.symm.trans h'
  · next h' =>
    cases h.symm.trans h'
    rfl

theorem push_cases (g : Gate) (b : Builder) :
    (∃ b', push g b = .ok () b' ∧
        claim b.gates.size [] g.outputs b.producers = .ok () b'.producers ∧
        b'.total = b.total ∧ b'.gates = b.gates.push g ∧ b'.outputs = b.outputs) ∨
      ∃ fault ps, push g b = .error fault b ∧
        claim b.gates.size [] g.outputs b.producers = .error fault ps := by
  cases hc : claim b.gates.size [] g.outputs b.producers with
  | ok u ps => exact .inl ⟨_, push_of_claim hc, rfl, rfl, rfl, rfl⟩
  | error fault ps => exact .inr ⟨fault, ps, push_of_claim_error hc, rfl⟩

/-- What the final check gives. -/
theorem of_finish {c : Circuit} (h : b.finish = .ok c) :
    ∃ n, ∃ hn : b.Checked n, c = b.circuit n hn := by
  unfold finish at h
  split at h
  · cases h
  · next n hn =>
    cases h
    exact ⟨n, checked_of_check hn, rfl⟩

end Builder

/-! ## The gate of a wire -/

namespace Circuit

variable {c : Circuit} {g g' : Gate} {w v : Wire}

theorem output_lt (hg : g ∈ c.gates) (hw : w ∈ g.outputs) : w < c.total :=
  lt_of_gate? (gate?_eq_some_iff.2 ⟨hg, hw⟩)

theorem exists_producer (hw : w < c.total) :
    ∃ i s, c.producer? w = some ⟨i, s⟩ ∧ ∃ _ : i < c.gates.size,
      c.gates[i].outputs[s]? = some w ∧ c.gate? w = some c.gates[i] := by
  have hlt : w.toNat < c.producers.size := by
    rw [c.size_producers]
    exact UInt64.lt_iff_toNat_lt.1 hw
  obtain ⟨⟨i, s⟩, hq⟩ : ∃ q, c.producer? w = some q := ⟨_, Array.getElem?_eq_getElem hlt⟩
  obtain ⟨g, hg, hs⟩ := (c.indexed w ⟨i, s⟩).1 hq
  obtain ⟨hi, rfl⟩ := Array.getElem?_eq_some_iff.1 hg
  exact ⟨i, s, hq, hi, hs, gate?_eq_some_iff.2 ⟨Array.getElem_mem hi, List.mem_of_getElem? hs⟩⟩

theorem exists_gate (hw : w < c.total) : ∃ g ∈ c.gates, w ∈ g.outputs := by
  obtain ⟨i, s, -, hi, hs, -⟩ := exists_producer hw
  exact ⟨_, Array.getElem_mem hi, List.mem_of_getElem? hs⟩

theorem gate?_eq_none_iff : c.gate? w = none ↔ c.total ≤ w := by
  rw [← UInt64.not_lt]
  constructor
  · intro h hw
    obtain ⟨g, hg, hwg⟩ := exists_gate hw
    cases (gate?_eq_some_iff.2 ⟨hg, hwg⟩).symm.trans h
  · intro hw
    exact Option.eq_none_iff_forall_ne_some.2 fun g hg => hw (lt_of_gate? hg)

theorem eq_of_mem_outputs (hg : g ∈ c.gates) (hg' : g' ∈ c.gates) (hw : w ∈ g.outputs)
    (hw' : w ∈ g'.outputs) : g = g' := by
  have h := gate?_eq_some_iff.2 ⟨hg, hw⟩
  rw [gate?_eq_some_iff.2 ⟨hg', hw'⟩] at h
  exact (Option.some.inj h).symm

theorem outputs_nodup (hg : g ∈ c.gates) : g.outputs.Nodup := c.indexed.outputs_nodup hg

theorem isInput_iff : c.isInput w ↔ Gate.input w ∈ c.gates := by
  unfold isInput
  rw [Option.any_eq_true]
  constructor
  · rintro ⟨g, hg, hi⟩
    obtain ⟨hg, hw⟩ := gate?_eq_some_iff.1 hg
    cases g with
    | input v =>
      obtain rfl : w = v := by simpa [Gate.outputs] using hw
      exact hg
    | _ => cases hi
  · intro hg
    exact ⟨.input w, gate?_eq_some_iff.2 ⟨hg, by simp [Gate.outputs]⟩, rfl⟩

theorem pairwise_map_toUInt64 {ns : List Nat} (hs : ns.Pairwise (· < ·))
    (h : ∀ n ∈ ns, n < UInt64.size) : (ns.map Nat.toUInt64).Pairwise (· < ·) := by
  rw [List.pairwise_map]
  refine hs.imp_of_mem fun {m n} hm hn hlt => ?_
  rw [UInt64.lt_iff_toNat_lt, UInt64.toNat_ofNat_of_lt' (h m hm),
    UInt64.toNat_ofNat_of_lt' (h n hn)]
  exact hlt

theorem pairwise_range_toUInt64 (n : UInt64) :
    ((List.range n.toNat).map Nat.toUInt64).Pairwise (· < ·) :=
  pairwise_map_toUInt64 List.pairwise_lt_range fun _ hn =>
    Nat.lt_trans (List.mem_range.1 hn) n.toNat_lt_size

theorem pairwise_wires (c : Circuit) : c.wires.Pairwise (· < ·) := pairwise_range_toUInt64 c.total

theorem mem_inputWires {c : Circuit} {w : Wire} : w ∈ c.inputWires ↔ Gate.input w ∈ c.gates := by
  simp only [inputWires, List.mem_filterMap, Array.mem_toList_iff]
  constructor
  · rintro ⟨g, hg, hw⟩
    cases g with
    | input v =>
      obtain rfl : v = w := by simpa using hw
      exact hg
    | _ => cases hw
  · intro hg
    exact ⟨.input w, hg, rfl⟩

/-! ## A circuit with quotients and a zero test -/

open Builder in
/-- A zero test of a quotient stands before the quotient, and that before its operands. -/
def quotientBuilder : Builder :=
  let b := stateAfter (push (.zeroTest 2 3 4)) (withTotal 6)
  let b := stateAfter (push (.div 0 1 2)) b
  let b := stateAfter (push (.constDiv (-2) 2 5)) b
  let b := stateAfter (push (.input 1)) (stateAfter (push (.input 0)) b)
  (b.declareOutput 3).declareOutput 5

theorem checked_quotientBuilder : quotientBuilder.Checked 6 := by
  apply Builder.checked_of_check
  rw [Builder.check, Builder.extent, Std.ExtTreeMap.maxKey?_eq_getLast?_keys]
  decide +kernel

def quotientTest : Circuit := quotientBuilder.circuit 6 checked_quotientBuilder

theorem gates_quotientTest : quotientTest.gates =
    #[.zeroTest 2 3 4, .div 0 1 2, .constDiv (-2) 2 5, .input 0, .input 1] := rfl

def quotientInputs (x y : Residue 7) : Table 7 :=
  .ofList ([(0, x), (1, y)] : List (Wire × Residue 7))

/-- The operands, their quotient, the indicator and witness of its zero test, and the quotient by
the constant. -/
def quotientTable (x y q i w h : Residue 7) : Table 7 :=
  .ofList ([(0, x), (1, y), (2, q), (3, i), (4, w), (5, h)] : List (Wire × Residue 7))

theorem mem_quotientTable {x y q i w h : Residue 7} (v : Wire) :
    v ∈ quotientTable x y q i w h ↔ v < quotientTest.total := by
  have htotal : quotientTest.total = 6 := rfl
  rw [htotal, quotientTable, Std.ExtTreeMap.mem_ofList]
  simp only [List.map_cons, List.map_nil, List.contains_iff_mem, List.mem_cons,
    List.not_mem_nil, or_false, UInt64.lt_iff_toNat_lt, ← UInt64.toNat_inj, UInt64.reduceToNat]
  omega

end Circuit

end FieldCircuit
