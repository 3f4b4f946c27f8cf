import FieldCircuit.Proofs.Validity

/-!
# Assembling circuits

The checks of a builder ask for no more than they must: gates that together produce each wire below
the total once are accepted in any order, and with outputs among these wires they make a circuit
(`Builder.exists_assemble`).
-/

namespace FieldCircuit

section

variable {gates : Array Gate} {index : Wire → Option Producer}

theorem Indexed.exists_iff (hi : Indexed gates index) (w : Wire) :
    (∃ q, index w = some q) ↔ w ∈ gates.toList.flatMap Gate.outputs := by
  rw [List.mem_flatMap]
  constructor
  · rintro ⟨q, hq⟩
    obtain ⟨g, hg, hw⟩ := (hi w q).1 hq
    exact ⟨g, Array.mem_toList_iff.2 (Array.mem_of_getElem? hg), List.mem_of_getElem? hw⟩
  · rintro ⟨g, hg, hw⟩
    obtain ⟨i, hgi⟩ := Array.mem_iff_getElem?.1 (Array.mem_toList_iff.1 hg)
    obtain ⟨s, hs⟩ := List.mem_iff_getElem?.1 hw
    exact ⟨⟨i, s⟩, (hi w ⟨i, s⟩).2 ⟨g, hgi, hs⟩⟩

/-- No two slots of stored gates are the same wire. -/
theorem Indexed.nodup_flatMap_outputs (hi : Indexed gates index) :
    (gates.toList.flatMap Gate.outputs).Nodup := by
  rw [List.nodup_flatMap]
  refine ⟨fun g hg => hi.outputs_nodup (Array.mem_toList_iff.1 hg), ?_⟩
  rw [List.pairwise_iff_getElem]
  intro i j hi' hj hij w hwi hwj
  obtain ⟨s, hs⟩ := List.mem_iff_getElem?.1 hwi
  obtain ⟨s', hs'⟩ := List.mem_iff_getElem?.1 hwj
  have h := (hi w ⟨i, s⟩).2 ⟨_, by simp at hi'; simp [hi'], hs⟩
  rw [(hi w ⟨j, s'⟩).2 ⟨_, by simp at hj; simp [hj], hs'⟩] at h
  simp only [Option.some.injEq, Producer.mk.injEq] at h
  omega

end

namespace Builder

variable {b : Builder} {ps : Std.ExtTreeMap Wire Producer} {n : UInt64}

/-! ## Declarations -/

theorem mem_claim {index : Nat} {entered ws : List Wire} {ps' : Std.ExtTreeMap Wire Producer}
    (h : claim index entered ws ps = .ok () ps') (w : Wire) : w ∈ ps' ↔ w ∈ ps ∨ w ∈ ws := by
  simp only [mem_iff_exists_getElem?, getElem?_claim h, List.mem_iff_getElem?, exists_or]
  refine or_congr_right ⟨?_, ?_⟩
  · rintro ⟨q, s, hs, -⟩
    exact ⟨s, hs⟩
  · rintro ⟨s, hs⟩
    exact ⟨_, s, hs, rfl⟩

theorem exists_claim (index : Nat) (entered : List Wire) {ws : List Wire} (hd : ws.Nodup)
    (hf : ∀ w ∈ ws, w ∉ ps) : ∃ ps', claim index entered ws ps = .ok () ps' := by
  induction ws generalizing entered ps with
  | nil => exact ⟨ps, rfl⟩
  | cons v vs ih =>
    obtain ⟨hv, hd⟩ := List.nodup_cons.1 hd
    have hfresh : ps.contains v = false :=
      Bool.eq_false_iff.2 fun h => hf v List.mem_cons_self (Std.ExtTreeMap.mem_iff_contains.2 h)
    simp only [claim, hfresh]
    refine ih (entered ++ [v]) hd fun w hw hmem => ?_
    rcases Std.ExtTreeMap.mem_insert.1 hmem with he | hmem
    · exact hv (Std.compare_eq_iff_eq.1 he ▸ hw)
    · exact hf w (List.mem_cons_of_mem v hw) hmem

/-- A gate whose outputs are new is added. -/
theorem exists_push {g : Gate} (hd : g.outputs.Nodup) (hf : ∀ w ∈ g.outputs, w ∉ b.producers) :
    ∃ b', push g b = .ok () b' ∧ b'.total = b.total ∧ b'.outputs = b.outputs ∧
      b'.gates = b.gates.push g ∧ ∀ w, w ∈ b'.producers ↔ w ∈ b.producers ∨ w ∈ g.outputs := by
  obtain ⟨ps, hps⟩ := exists_claim b.gates.size [] hd hf
  exact ⟨_, push_of_claim hps, rfl, rfl, rfl, mem_claim hps⟩

/-- Gates whose outputs are all different and new are added, in their order. -/
theorem exists_forM_push {gs : List Gate} (hd : (gs.flatMap Gate.outputs).Nodup)
    (hf : ∀ w ∈ gs.flatMap Gate.outputs, w ∉ b.producers) :
    ∃ b', gs.forM push b = .ok () b' ∧ b'.total = b.total ∧ b'.outputs = b.outputs ∧
      b'.gates.toList = b.gates.toList ++ gs ∧
      ∀ w, w ∈ b'.producers ↔ w ∈ b.producers ∨ w ∈ gs.flatMap Gate.outputs := by
  induction gs generalizing b with
  | nil => exact ⟨b, rfl, rfl, rfl, by simp, by simp⟩
  | cons g gs ih =>
    rw [List.flatMap_cons, List.nodup_append] at hd
    obtain ⟨hg, hgs, hne⟩ := hd
    obtain ⟨b₁, hpush, htotal₁, houtputs₁, hgates₁, hps⟩ :=
      exists_push hg fun w hw => hf w (by simp [hw])
    have hfresh : ∀ w ∈ gs.flatMap Gate.outputs, w ∉ b₁.producers := fun w hw => by
      rw [hps, not_or]
      exact ⟨hf w (by simp_all), fun hwg => hne w hwg w hw rfl⟩
    obtain ⟨b', hrun, htotal, houtputs, hgates, hmem⟩ := ih hgs hfresh
    refine ⟨b', ?_, htotal.trans htotal₁, houtputs.trans houtputs₁, ?_, fun w => ?_⟩
    · simp only [List.forM_eq_forM, List.forM_cons, bind, EStateM.bind, hpush]
      exact hrun
    · simp [hgates, hgates₁]
    · rw [hmem, hps, List.flatMap_cons, List.mem_append, or_assoc]

theorem exists_forM_declareOutput (ws : List Wire) :
    ∃ b', ws.forM (fun w => modify (·.declareOutput w) : Wire → Build Unit) b = .ok () b' ∧
      b'.total = b.total ∧ b'.gates = b.gates ∧ b'.producers = b.producers ∧
      ∀ w, w ∈ b'.outputs ↔ w ∈ b.outputs ∨ w ∈ ws := by
  induction ws generalizing b with
  | nil => exact ⟨b, rfl, rfl, rfl, rfl, by simp⟩
  | cons v ws ih =>
    obtain ⟨b', hrun, htotal, hgates, hproducers, hmem⟩ := ih (b := b.declareOutput v)
    refine ⟨b', hrun, htotal, hgates, hproducers, fun w => ?_⟩
    rw [hmem, declareOutput, Std.ExtTreeSet.mem_insert, Std.compare_eq_iff_eq, List.mem_cons,
      eq_comm]
    tauto

/-! ## The final check -/

/-- An ascending list of all numbers from `k` up to `n` skips none. -/
theorem firstGap?_eq_none {k n : Nat} {ws : List Wire} (hs : ws.Pairwise (· < ·))
    (hm : ∀ w : Wire, w ∈ ws ↔ k ≤ w.toNat ∧ w.toNat < n) : firstGap? k ws = none := by
  induction ws generalizing k with
  | nil => rfl
  | cons v vs ih =>
    obtain ⟨hv, hs⟩ := List.pairwise_cons.1 hs
    obtain ⟨hkv, hvn⟩ := (hm v).1 List.mem_cons_self
    have hk : v.toNat = k := by
      -- were `k` skipped, it would stand in the list after the larger `v`
      have hlt := v.toNat_lt
      have hto : k.toUInt64.toNat = k := by
        rw [UInt64.toNat_ofNat']
        omega
      rcases List.mem_cons.1 ((hm k.toUInt64).2 (by omega)) with he | hmem
      · rw [← he, hto]
      · have := UInt64.lt_iff_toNat_lt.1 (hv _ hmem)
        omega
    rw [firstGap?, if_pos hk]
    refine ih hs fun w => ⟨fun hw => ?_, fun hw => ?_⟩
    · have := UInt64.lt_iff_toNat_lt.1 (hv w hw)
      have := (hm w).1 (List.mem_cons_of_mem v hw)
      omega
    · rcases List.mem_cons.1 ((hm w).2 (by omega)) with rfl | hmem
      · omega
      · exact hmem

theorem firstGap?_keys_eq_none (hp : ∀ w, w ∈ ps ↔ w < n) : firstGap? 0 ps.keys = none := by
  refine firstGap?_eq_none (n := n.toNat) ?_ fun w => ?_
  · exact Std.ExtTreeMap.ordered_keys.imp Std.compare_eq_lt.1
  · rw [Std.ExtTreeMap.mem_keys, hp, UInt64.lt_iff_toNat_lt]
    omega

theorem mem_producers_iff (b : Builder) (w : Wire) :
    w ∈ b.producers ↔ w ∈ b.gates.toList.flatMap Gate.outputs :=
  mem_iff_exists_getElem?.trans (b.indexed.exists_iff w)

theorem checked_of_mem (ht : b.total = some n) (hp : ∀ w, w ∈ b.producers ↔ w < n)
    (ho : ∀ w ∈ b.outputs, w < n) : b.Checked n :=
  ⟨ht, firstGap?_keys_eq_none hp, hp, ho⟩

theorem check_of_checked (h : b.Checked n) : b.check = .ok n := by
  obtain ⟨ht, hgap, hp, ho⟩ := h
  have houtputs : b.outputs.toList.find? (!b.producers.contains ·) = none := by
    rw [List.find?_eq_none]
    intro w hw
    simpa using (hp w).2 (ho w (Std.ExtTreeSet.mem_toList.1 hw))
  have hlast : lastWire ∉ b.producers := by
    intro h
    have hlt := UInt64.lt_iff_toNat_lt.1 ((hp lastWire).1 h)
    have hn := n.toNat_lt
    have hl : lastWire.toNat = 2 ^ 64 - 1 := rfl
    omega
  have hextent : extent b.producers = n := by
    have hmem := mem_iff_lt_extent hlast hgap
    refine UInt64.le_antisymm (UInt64.not_lt.1 fun h => ?_) (UInt64.not_lt.1 fun h => ?_)
    · exact UInt64.lt_irrefl n ((hp n).1 ((hmem n).2 h))
    · exact UInt64.lt_irrefl _ ((hmem _).1 ((hp _).2 h))
  simp only [check, houtputs, ht, hextent, hgap]
  simp [hlast]

theorem finish_of_checked (h : b.Checked n) : b.finish = .ok (b.circuit n h) := by
  have hc := check_of_checked h
  unfold finish
  split
  · next he => cases hc.symm.trans he
  · next hn =>
    cases hc.symm.trans hn
    rfl

theorem finish_of_check_error {fault : Fault} (h : b.check = .error fault) :
    b.finish = .error fault := by
  unfold finish
  split
  · next he =>
    cases h.symm.trans he
    rfl
  · next hn => cases h.symm.trans hn

/-- Gates that produce each wire below `n` once, and outputs among these wires, make a circuit. -/
theorem exists_assemble {gs : List Gate} {ws : List Wire} (hd : (gs.flatMap Gate.outputs).Nodup)
    (hp : ∀ w, w ∈ gs.flatMap Gate.outputs ↔ w < n) (ho : ∀ w ∈ ws, w < n) :
    ∃ b c, (do gs.forM push; ws.forM fun w => modify (·.declareOutput w) : Build Unit)
        (withTotal n) = .ok () b ∧ b.finish = .ok c ∧ c.total = n ∧ c.gates.toList = gs ∧
      ∀ w, w ∈ c.outputs ↔ w ∈ ws := by
  obtain ⟨b₁, hrun₁, htotal₁, houtputs₁, hgates₁, hmem₁⟩ :=
    exists_forM_push (b := withTotal n) hd fun w _ => by simp [withTotal, empty]
  obtain ⟨b, hrun, htotal, hgates, hproducers, hmem⟩ := exists_forM_declareOutput (b := b₁) ws
  have houtputs : ∀ w, w ∈ b.outputs ↔ w ∈ ws := by
    simp [hmem, houtputs₁, withTotal, empty]
  have hchecked : b.Checked n := by
    refine checked_of_mem (htotal.trans htotal₁) (fun w => ?_) fun w hw => ho w ((houtputs w).1 hw)
    rw [hproducers, hmem₁, hp]
    simp [withTotal, empty]
  refine ⟨b, _, ?_, finish_of_checked hchecked, rfl, ?_, houtputs⟩
  · simp only [bind, EStateM.bind, hrun₁]
    exact hrun
  · show b.gates.toList = gs
    simp [hgates, hgates₁, withTotal, empty]

end Builder

/-- Gates that produce the wires below `n`, each once and in any order, make a circuit. -/
theorem Circuit.exists_of_perm {n : UInt64} {gs : List Gate} {ws : List Wire}
    (hp : (gs.flatMap Gate.outputs).Perm ((List.range n.toNat).map Nat.toUInt64))
    (ho : ∀ w ∈ ws, w < n) :
    ∃ c : Circuit, c.total = n ∧ c.gates.toList = gs ∧ ∀ w, w ∈ c.outputs ↔ w ∈ ws := by
  have hd : (gs.flatMap Gate.outputs).Nodup :=
    hp.nodup_iff.2 ((pairwise_range_toUInt64 n).imp UInt64.ne_of_lt)
  obtain ⟨-, c, -, -, hc⟩ :=
    Builder.exists_assemble hd (fun w => hp.mem_iff.trans mem_range_toUInt64) ho
  exact ⟨c, hc⟩

namespace Circuit

/-- In a circuit no wire is produced twice. -/
theorem nodup_flatMap_outputs (c : Circuit) : (c.gates.toList.flatMap Gate.outputs).Nodup :=
  c.indexed.nodup_flatMap_outputs

theorem mem_flatMap_outputs_iff {c : Circuit} {w : Wire} :
    w ∈ c.gates.toList.flatMap Gate.outputs ↔ w < c.total := by
  simp only [List.mem_flatMap, Array.mem_toList_iff]
  exact ⟨fun ⟨_, hg, hw⟩ => output_lt hg hw, exists_gate⟩

/-- The index of a circuit follows from its gates. -/
theorem eq_of_gates {c c' : Circuit} (htotal : c.total = c'.total) (hgates : c.gates = c'.gates)
    (houtputs : ∀ w, w ∈ c.outputs ↔ w ∈ c'.outputs) : c = c' := by
  obtain ⟨total, gates, producers, outputs, hsize, hindexed, hlt⟩ := c
  obtain ⟨total', gates', producers', outputs', hsize', hindexed', hlt'⟩ := c'
  cases htotal
  cases hgates
  obtain rfl : outputs = outputs' := Std.ExtTreeSet.ext_mem houtputs
  obtain rfl : producers = producers' := by
    refine Array.ext (hsize.trans hsize'.symm) fun i hi hi' => ?_
    have hto : i.toUInt64.toNat = i :=
      UInt64.toNat_ofNat_of_lt' (Nat.lt_trans (hsize ▸ hi) total.toNat_lt_size)
    have hsame : producers[i]? = producers'[i]? := Option.ext fun q => by
      simpa only [hto] using (hindexed i.toUInt64 q).trans (hindexed' i.toUInt64 q).symm
    rwa [Array.getElem?_eq_getElem hi, Array.getElem?_eq_getElem hi', Option.some.injEq] at hsame
  rfl

/-- Every circuit is one that a builder finishes. -/
theorem exists_finish (c : Circuit) : ∃ b : Builder, b.finish = .ok c := by
  obtain ⟨b, c', -, hfinish, htotal, hgates, houtputs⟩ :=
    Builder.exists_assemble (n := c.total) c.nodup_flatMap_outputs
      (fun _ => mem_flatMap_outputs_iff)
      fun w hw => c.outputs_lt w (Std.ExtTreeSet.mem_toList.1 hw)
  have heq : c' = c := eq_of_gates htotal (Array.toList_inj.1 hgates) fun w => by
    rw [houtputs, Std.ExtTreeSet.mem_toList]
  exact ⟨b, heq ▸ hfinish⟩

end Circuit

end FieldCircuit
