import FieldCircuit.Event
import FieldCircuit.Gate
import Std.Data.ExtTreeSet

/-!
# Circuits

A circuit numbers its wires from zero and has exactly one gate slot producing each of them; gates
stand in any order. `Builder` makes circuits and checks that.
-/

namespace FieldCircuit

/-- The slot of the gate that produces a wire. -/
structure Producer where
  gate : Nat
  slot : Nat
deriving DecidableEq, Repr

/-- The index names exactly the slots of the gates. -/
def Indexed (gates : Array Gate) (index : Wire → Option Producer) : Prop :=
  ∀ (w : Wire) (q : Producer), index w = some q ↔
    ∃ g : Gate, gates[q.gate]? = some g ∧ g.outputs[q.slot]? = some w

structure Circuit where
  total : UInt64
  gates : Array Gate
  /-- The producers of the wires, in the order of the wires. -/
  producers : Array Producer
  outputs : Std.ExtTreeSet Wire
  size_producers : producers.size = total.toNat
  indexed : Indexed gates fun w => producers[w.toNat]?
  outputs_lt : ∀ w ∈ outputs, w < total
deriving DecidableEq

namespace Circuit

def producer? (c : Circuit) (w : Wire) : Option Producer := c.producers[w.toNat]?

def gate? (c : Circuit) (w : Wire) : Option Gate := do
  let q ← c.producer? w
  c.gates[q.gate]?

theorem gate?_eq_some_iff {c : Circuit} {w : Wire} {g : Gate} :
    c.gate? w = some g ↔ g ∈ c.gates ∧ w ∈ g.outputs := by
  simp only [gate?, Option.bind_eq_bind, Option.bind_eq_some_iff, Array.mem_iff_getElem?,
    List.mem_iff_getElem?]
  constructor
  · rintro ⟨q, hq, hg⟩
    obtain ⟨g', hg', hs⟩ := (c.indexed w q).1 hq
    cases hg.symm.trans hg'
    exact ⟨⟨q.gate, hg⟩, q.slot, hs⟩
  · rintro ⟨⟨i, hg⟩, s, hs⟩
    exact ⟨⟨i, s⟩, (c.indexed w ⟨i, s⟩).2 ⟨g, hg, hs⟩, hg⟩

theorem lt_of_gate? {c : Circuit} {w : Wire} {g : Gate} (h : c.gate? w = some g) : w < c.total := by
  simp only [gate?, producer?, Option.bind_eq_bind, Option.bind_eq_some_iff] at h
  obtain ⟨q, hq, -⟩ := h
  rw [UInt64.lt_iff_toNat_lt, ← c.size_producers]
  exact (Array.getElem?_eq_some_iff.1 hq).1

/-- The wire belongs to an input gate. -/
def isInput (c : Circuit) (w : Wire) : Bool := (c.gate? w).any Gate.isInput

/-- The smallest declared output. -/
def firstOutput? (c : Circuit) : Option Wire := c.outputs.min?

/-- The wires of input gates, in gate order. -/
def inputWires (c : Circuit) : List Wire :=
  c.gates.toList.filterMap fun
    | .input w => some w
    | _ => none

/-- The wires `0, …, total - 1`. -/
def wires (c : Circuit) : List Wire := (List.range c.total.toNat).map Nat.toUInt64

theorem mem_range_toUInt64 {n w : UInt64} :
    w ∈ (List.range n.toNat).map Nat.toUInt64 ↔ w < n := by
  simp only [List.mem_map, List.mem_range]
  constructor
  · rintro ⟨k, hk, rfl⟩
    have := n.toNat_lt
    rw [UInt64.lt_iff_toNat_lt]
    simpa [Nat.mod_eq_of_lt (Nat.lt_trans hk this)] using hk
  · intro h
    exact ⟨w.toNat, UInt64.lt_iff_toNat_lt.1 h, by simp⟩

theorem mem_wires {c : Circuit} {w : Wire} : w ∈ c.wires ↔ w < c.total := mem_range_toUInt64

def validated (c : Circuit) : Event := .validated c.total c.gates.size c.outputs.size

end Circuit

end FieldCircuit
