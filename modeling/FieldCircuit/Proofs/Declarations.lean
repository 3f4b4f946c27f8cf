import FieldCircuit.Proofs.Assembly

/-!
# Declarations to a builder

A gate is refused when one of its outputs is produced already, by another gate or by an earlier slot
of its own, and the fault names the first such output. A declaration that is refused leaves the
builder as it was, although the outputs before the clash have been entered into the index by then.
`Lawful` is what holds of every builder.
-/

namespace FieldCircuit

namespace Builder

variable {b : Builder} {ps : Std.ExtTreeMap Wire Producer}

/-! ## Clashes -/

/-- The first wire of a list that is produced already or stands in the list before. -/
def FirstClash (ps : Std.ExtTreeMap Wire Producer) (ws : List Wire) (w : Wire) : Prop :=
  ∃ before after, ws = before ++ w :: after ∧ before.Nodup ∧ (∀ v ∈ before, v ∉ ps) ∧
    (w ∈ ps ∨ w ∈ before)

theorem FirstClash.cons {q : Producer} {v w : Wire} {ws : List Wire} (hv : v ∉ ps)
    (h : FirstClash (ps.insert v q) ws w) : FirstClash ps (v :: ws) w := by
  obtain ⟨before, after, rfl, hd, hf, hw⟩ := h
  have hins : ∀ u, u ∈ ps.insert v q ↔ v = u ∨ u ∈ ps := fun u => by
    rw [Std.ExtTreeMap.mem_insert, Std.compare_eq_iff_eq]
  refine ⟨v :: before, after, rfl, ?_, ?_, ?_⟩
  · rw [List.nodup_cons]
    exact ⟨fun hmem => hf v hmem ((hins v).2 (.inl rfl)), hd⟩
  · intro u hu
    rcases List.mem_cons.1 hu with rfl | hu
    · exact hv
    · exact fun hmem => hf u hu ((hins u).2 (.inr hmem))
  · rcases hw with hw | hw
    · rcases (hins w).1 hw with rfl | hw
      · exact .inr List.mem_cons_self
      · exact .inl hw
    · exact .inr (List.mem_cons_of_mem v hw)

theorem FirstClash.not_fresh {w : Wire} {ws : List Wire} (h : FirstClash ps ws w) :
    (∃ v ∈ ws, v ∈ ps) ∨ ¬ws.Nodup := by
  obtain ⟨before, after, rfl, -, -, hw | hw⟩ := h
  · exact .inl ⟨w, by simp, hw⟩
  · right
    rw [List.nodup_append]
    exact fun hd => hd.2.2 w hw w List.mem_cons_self rfl

theorem firstClash_of_claim {index : Nat} {entered ws : List Wire}
    {ps' : Std.ExtTreeMap Wire Producer} {fault : Fault}
    (h : claim index entered ws ps = .error fault ps') :
    ∃ w, FirstClash ps ws w ∧ fault = .duplicateWire w := by
  induction ws generalizing entered ps with
  | nil => cases h
  | cons v ws ih =>
    simp only [claim] at h
    split at h
    · next hv =>
      cases h
      exact ⟨v, ⟨[], ws, rfl, .nil, by simp, .inl (Std.ExtTreeMap.mem_iff_contains.2 hv)⟩, rfl⟩
    · next hv =>
      obtain ⟨w, hw, rfl⟩ := ih h
      exact ⟨w, hw.cons (by simpa using hv), rfl⟩

theorem fresh_of_claim {index : Nat} {entered ws : List Wire} {ps' : Std.ExtTreeMap Wire Producer}
    (h : claim index entered ws ps = .ok () ps') : ws.Nodup ∧ ∀ w ∈ ws, w ∉ ps := by
  induction ws generalizing entered ps with
  | nil => exact ⟨.nil, by simp⟩
  | cons v ws ih =>
    simp only [claim] at h
    split at h
    · cases h
    · next hv =>
      obtain ⟨hd, hf⟩ := ih h
      have hne : ∀ w ∈ ws, v ≠ w ∧ w ∉ ps := fun w hw => by
        have := hf w hw
        rwa [Std.ExtTreeMap.mem_insert, Std.compare_eq_iff_eq, not_or] at this
      refine ⟨List.nodup_cons.2 ⟨fun hmem => (hne v hmem).1 rfl, hd⟩, fun w hw => ?_⟩
      rcases List.mem_cons.1 hw with rfl | hw
      · simpa using hv
      · exact (hne w hw).2

/-! ## Single declarations -/

theorem of_push {b' : Builder} {g : Gate} (h : push g b = .ok () b') :
    (g.outputs.Nodup ∧ ∀ w ∈ g.outputs, w ∉ b.producers) ∧
      b'.total = b.total ∧ b'.gates = b.gates.push g ∧ b'.outputs = b.outputs := by
  rcases push_cases g b with ⟨b₁, hs, hc, hfields⟩ | ⟨fault, ps, hs, -⟩
  · cases hs.symm.trans h
    exact ⟨fresh_of_claim hc, hfields⟩
  · cases hs.symm.trans h

/-- A gate that is added enters its slots into the index and nothing else. -/
theorem getElem?_of_push {b' : Builder} {g : Gate} (h : push g b = .ok () b') (w : Wire)
    (q : Producer) : b'.producers[w]? = some q ↔
      b.producers[w]? = some q ∨ ∃ s, g.outputs[s]? = some w ∧ q = ⟨b.gates.size, s⟩ := by
  rcases push_cases g b with ⟨b₁, hs, hc, -⟩ | ⟨fault, ps, hs, -⟩
  · cases hs.symm.trans h
    simpa using getElem?_claim hc w q
  · cases hs.symm.trans h

theorem of_push_error {b' : Builder} {g : Gate} {fault : Fault} (h : push g b = .error fault b') :
    b' = b ∧ ∃ w, FirstClash b.producers g.outputs w ∧ fault = .duplicateWire w := by
  rcases push_cases g b with ⟨b₁, hs, -⟩ | ⟨fault, ps, hs, hc⟩
  · cases hs.symm.trans h
  · cases hs.symm.trans h
    exact ⟨rfl, firstClash_of_claim hc⟩

theorem exists_push_error_iff {g : Gate} :
    (∃ fault b', push g b = .error fault b') ↔
      (∃ w ∈ g.outputs, w ∈ b.producers) ∨ ¬g.outputs.Nodup := by
  constructor
  · rintro ⟨fault, b', h⟩
    obtain ⟨-, w, hw, -⟩ := of_push_error h
    exact hw.not_fresh
  · intro hn
    cases h : push g b with
    | error fault b' => exact ⟨fault, b', rfl⟩
    | ok u b' =>
      obtain ⟨⟨hd, hf⟩, -⟩ := of_push h
      rcases hn with ⟨w, hw, hp⟩ | hn
      · exact absurd hp (hf w hw)
      · exact absurd hd hn

theorem of_declareTotal {b' : Builder} {n : UInt64} (h : declareTotal n b = .ok () b') :
    b.total = none ∧ b' = { b with total := some n } := by
  obtain ⟨_ | m, gates, producers, outputs, indexed⟩ := b <;> cases h
  exact ⟨rfl, rfl⟩

theorem of_declareTotal_error {b' : Builder} {n : UInt64} {fault : LineFault}
    (h : declareTotal n b = .error fault b') : b' = b := by
  obtain ⟨_ | m, gates, producers, outputs, indexed⟩ := b <;> cases h
  rfl

/-! ## Builders -/

/-- What the index of a builder says, what a gate that is added changes, and when and how a
declaration is refused. To declare an output is never refused. -/
structure Lawful (b : Builder) : Prop where
  index : ∀ (w : Wire) (i s : Nat), b.producers[w]? = some ⟨i, s⟩ ↔
    ∃ _ : i < b.gates.size, b.gates[i].outputs[s]? = some w
  distinct : (b.gates.toList.flatMap Gate.outputs).Nodup
  added_gate : ∀ g b', push g b = .ok () b' →
    b'.total = b.total ∧ b'.gates = b.gates.push g ∧ b'.outputs = b.outputs ∧
      ∀ (w : Wire) (q : Producer), b'.producers[w]? = some q ↔
        b.producers[w]? = some q ∨ ∃ s, g.outputs[s]? = some w ∧ q = ⟨b.gates.size, s⟩
  refuses : ∀ g, (∃ fault b', push g b = .error fault b') ↔
    (∃ w ∈ g.outputs, w ∈ b.producers) ∨ ¬g.outputs.Nodup
  refused_gate : ∀ g fault b', push g b = .error fault b' →
    b' = b ∧ ∃ w, FirstClash b.producers g.outputs w ∧ fault = .duplicateWire w
  refused_total : ∀ n fault b', declareTotal n b = .error fault b' → b' = b

/-- The index of a builder is exact, a gate is refused for its first clash only, and a refused
declaration changes nothing. -/
theorem lawful (b : Builder) : b.Lawful where
  index w i s := by
    rw [b.indexed w ⟨i, s⟩]
    constructor
    · rintro ⟨g, hg, hs⟩
      obtain ⟨hi, rfl⟩ := Array.getElem?_eq_some_iff.1 hg
      exact ⟨hi, hs⟩
    · rintro ⟨hi, hs⟩
      exact ⟨_, Array.getElem?_eq_getElem hi, hs⟩
  distinct := b.indexed.nodup_flatMap_outputs
  added_gate _ _ h := by
    obtain ⟨-, htotal, hgates, houtputs⟩ := of_push h
    exact ⟨htotal, hgates, houtputs, getElem?_of_push h⟩
  refuses _ := exists_push_error_iff
  refused_gate _ _ _ h := of_push_error h
  refused_total _ _ _ h := of_declareTotal_error h

/-- Two zero tests are refused, one for the wire of its second slot and one for its own first
output, and a second total. -/
def refusalBuilder : Builder :=
  let b := stateAfter (push (.zeroTest 1 2 1)) (stateAfter (push (.input 1)) (withTotal 4))
  stateAfter (declareTotal 5) (stateAfter (push (.zeroTest 1 3 3)) b)

theorem lawful_refusalBuilder : refusalBuilder.Lawful ∧ refusalBuilder.total = some 4 ∧
    refusalBuilder.gates = #[.input 1] ∧ refusalBuilder.producers.toList = [(1, ⟨0, 0⟩)] :=
  ⟨lawful refusalBuilder, by decide +kernel, by decide +kernel, by decide +kernel⟩

end Builder

end FieldCircuit
