import FieldCircuit.Circuit.Source
import FieldCircuit.Proofs.Assembly
import FieldCircuit.Proofs.Declarations
import FieldCircuit.Proofs.Grammar
import Mathlib.Data.List.ReduceOption

/-!
# What a circuit's source declares

A builder that takes the statements of a source in turn holds them: the total, the gates in order
and the outputs as a set (`Builder.Holds`). These determine the builder, and it refuses a statement
only if no builder could hold it with those before. So a source is accepted exactly when its lines
follow the grammar and what they state is a circuit (`Circuit.parse_eq_ok_iff`).
-/

namespace FieldCircuit

open Text

namespace Statement

def total? : Statement → Option UInt64
  | total n => some n
  | _ => none

def gate? : Statement → Option Gate
  | gate g => some g
  | _ => none

def output? : Statement → Option Wire
  | output w => some w
  | _ => none

/-- Statements that make a circuit: one total, gates that produce each wire below it once, and
outputs among these wires. -/
structure Complete (ss : List Statement) (n : UInt64) : Prop where
  total : ss.filterMap total? = [n]
  distinct : ((ss.filterMap gate?).flatMap Gate.outputs).Nodup
  produced : ∀ w, w ∈ (ss.filterMap gate?).flatMap Gate.outputs ↔ w < n
  outputs_lt : ∀ w, .output w ∈ ss → w < n

/-- A line states one thing only. -/
theorem Line.unique {line : List Char} {r r' : Option Statement} (h : Line line r)
    (h' : Line line r') : r' = r := by
  rw [← read?_uncomment_eq_ok_iff] at h h'
  exact Except.ok.inj (h'.symm.trans h)

end Statement

/-! ## Builders and statements -/

namespace Builder

/-- The builder that the statements make. -/
structure Holds (b : Builder) (ss : List Statement) : Prop where
  total : ss.filterMap Statement.total? = b.total.toList
  gates : ss.filterMap Statement.gate? = b.gates.toList
  outputs : ∀ w, w ∈ b.outputs ↔ .output w ∈ ss

variable {b b' : Builder} {ss : List Statement} {s : Statement} {onLine : LineFault → Fault}

theorem holds_empty : empty.Holds [] where
  total := rfl
  gates := rfl
  outputs w := by simp [empty]

theorem Holds.unique (h : b.Holds ss) (h' : b'.Holds ss) : b = b' := by
  obtain ⟨total, gates, producers, outputs, indexed⟩ := b
  obtain ⟨total', gates', producers', outputs', indexed'⟩ := b'
  have htotal : total.toList = total'.toList := h.total.symm.trans h'.total
  obtain rfl : total = total' := Option.ext fun n => by
    rw [← Option.mem_toList, htotal, Option.mem_toList]
  obtain rfl : gates = gates' := Array.toList_inj.1 (h.gates.symm.trans h'.gates)
  obtain rfl : outputs = outputs' :=
    Std.ExtTreeSet.ext_mem fun w => (h.outputs w).trans (h'.outputs w).symm
  obtain rfl : producers = producers' := Std.ExtTreeMap.ext_getElem? fun w => Option.ext fun q =>
    (indexed w q).trans (indexed' w q).symm
  rfl

theorem holds_of_declare (hb : b.Holds ss) (h : declare onLine s b = .ok () b') :
    b'.Holds (ss ++ [s]) := by
  cases s with
  | total n =>
    obtain ⟨hnone, rfl⟩ := of_declareTotal (eq_ok_of_adaptExcept h)
    have htotal : ss.filterMap Statement.total? = [] := by rw [hb.total, hnone, Option.toList_none]
    exact ⟨by simp [htotal, Statement.total?], by simp [hb.gates, Statement.gate?],
      by simp [hb.outputs]⟩
  | gate g =>
    obtain ⟨-, htotal, hgates, houtputs⟩ := of_push h
    exact ⟨by simp [hb.total, htotal, Statement.total?],
      by simp [hb.gates, hgates, Statement.gate?],
      by simp [hb.outputs, houtputs]⟩
  | output w =>
    cases h
    refine ⟨by simp [hb.total, declareOutput, Statement.total?],
      by simp [hb.gates, declareOutput, Statement.gate?], fun v => ?_⟩
    simp only [declareOutput, Std.ExtTreeSet.mem_insert, Std.compare_eq_iff_eq, hb.outputs]
    simp [or_comm, eq_comm]

/-- What a builder holds it takes one by one. -/
theorem Holds.exists_declare (hb : b.Holds ss) {rest : List Statement}
    (h : b'.Holds (ss ++ s :: rest)) : ∃ b₁, declare onLine s b = .ok () b₁ := by
  cases s with
  | total n =>
    have htotal : b.total.toList ++ n :: rest.filterMap Statement.total? = b'.total.toList := by
      rw [← h.total, List.filterMap_append, hb.total]
      rfl
    have hnone : b.total = none := by
      cases hm : b.total with
      | none => rfl
      | some m => cases hm' : b'.total <;> simp [hm, hm'] at htotal
    obtain ⟨_, gates, producers, outputs, indexed⟩ := b
    cases hnone
    exact ⟨_, rfl⟩
  | gate g =>
    have hgates : b'.gates.toList = b.gates.toList ++ g :: rest.filterMap Statement.gate? := by
      rw [← h.gates, List.filterMap_append, hb.gates]
      rfl
    have hnodup := b'.indexed.nodup_flatMap_outputs
    rw [hgates, List.flatMap_append, List.flatMap_cons, List.nodup_append,
      List.nodup_append] at hnodup
    obtain ⟨-, ⟨hg, -⟩, hdisjoint⟩ := hnodup
    obtain ⟨b₁, hpush, -⟩ := exists_push (b := b) hg fun w hw hmem =>
      hdisjoint w ((b.mem_producers_iff w).1 hmem) w (List.mem_append_left _ hw) rfl
    exact ⟨b₁, hpush⟩
  | output w => exact ⟨_, rfl⟩

end Builder

namespace Circuit

/-- A source is taken line by line exactly when some builder holds all it states. -/
theorem declareLines_eq_ok_iff {line : Nat} {ls : List (List Char)} {b₀ b : Builder}
    {ss : List Statement} (h₀ : b₀.Holds ss) :
    declareLines line ls b₀ = .ok b ↔
      ∃ rs, List.Forall₂ Statement.Line ls rs ∧ b.Holds (ss ++ rs.reduceOption) := by
  induction ls generalizing line b₀ ss with
  | nil =>
    simp only [declareLines, List.forall₂_nil_left_iff, exists_eq_left, List.reduceOption_nil,
      List.append_nil, Except.ok.injEq]
    exact ⟨fun h => h ▸ h₀, h₀.unique⟩
  | cons l ls ih =>
    cases hread : Statement.read? (uncomment l) with
    | error fault =>
      simp only [declareLines, hread]
      refine ⟨fun h => (by cases h), ?_⟩
      rintro ⟨_, hlines, -⟩
      obtain ⟨r, _, hr, -⟩ := List.forall₂_cons_left_iff.1 hlines
      cases hread.symm.trans (Statement.read?_uncomment_eq_ok_iff.2 hr)
    | ok r =>
      have hline := Statement.read?_uncomment_eq_ok_iff.1 hread
      rw [exists_forall₂_cons_iff hline fun _ => hline.unique]
      cases r with
      | none =>
        simp only [declareLines, hread, List.reduceOption_cons_of_none]
        exact ih h₀
      | some s =>
        simp only [declareLines, hread, List.reduceOption_cons_of_some]
        cases hdeclare : Builder.declare (.onLine line (uncomment l)) s b₀ with
        | ok u b₁ =>
          have hrun : declareLines (line + 1) ls b₁ = .ok b ↔ _ :=
            ih (Builder.holds_of_declare h₀ hdeclare)
          simpa only [List.append_assoc, List.singleton_append] using hrun
        | error fault b₁ =>
          refine ⟨fun h => (by cases h), ?_⟩
          rintro ⟨rs, -, hb⟩
          obtain ⟨b₂, hok⟩ := h₀.exists_declare hb
          cases hdeclare.symm.trans hok

/-- The circuit that a source states: its only total, its gates in order with an index of their
slots, and the set of its outputs. The gates produce each wire below the total once, and the outputs
among them. -/
structure DeclaredBy (c : Circuit) (ss : List Statement) : Prop where
  total : ss.filterMap Statement.total? = [c.total]
  gates : ss.filterMap Statement.gate? = c.gates.toList
  outputs : ∀ w, w ∈ c.outputs ↔ .output w ∈ ss
  indexed : Indexed c.gates c.producer?
  distinct : (c.gates.toList.flatMap Gate.outputs).Nodup
  produced : ∀ w, w ∈ c.gates.toList.flatMap Gate.outputs ↔ w < c.total
  outputs_produced : ∀ w ∈ c.outputs, w ∈ c.gates.toList.flatMap Gate.outputs

theorem exists_holds_iff {c : Circuit} {ss : List Statement} :
    (∃ b : Builder, b.Holds ss ∧ b.finish = .ok c) ↔ c.DeclaredBy ss := by
  constructor
  · rintro ⟨b, hb, hfinish⟩
    obtain ⟨n, hn, rfl⟩ := Builder.of_finish hfinish
    exact {
      total := by
        rw [hb.total, hn.total]
        rfl
      gates := hb.gates
      outputs := hb.outputs
      indexed := Circuit.indexed _
      distinct := nodup_flatMap_outputs _
      produced := fun _ => mem_flatMap_outputs_iff
      outputs_produced := fun w hw => mem_flatMap_outputs_iff.2 (hn.outputs_lt w hw) }
  · intro h
    obtain ⟨b, hfinish⟩ := c.exists_finish
    obtain ⟨n, hn, rfl⟩ := Builder.of_finish hfinish
    refine ⟨b, ⟨?_, h.gates, h.outputs⟩, hfinish⟩
    rw [h.total, hn.total]
    rfl

theorem exists_declaredBy_iff {ss : List Statement} :
    (∃ c : Circuit, c.DeclaredBy ss) ↔ ∃ n, Statement.Complete ss n := by
  constructor
  · rintro ⟨c, h⟩
    refine ⟨c.total, h.total, ?_, ?_, fun w hw => c.outputs_lt w ((h.outputs w).2 hw)⟩
    · rw [h.gates]
      exact h.distinct
    · rw [h.gates]
      exact h.produced
  · rintro ⟨n, htotal, hd, hp, ho⟩
    have hmem : ∀ w, w ∈ ss.filterMap Statement.output? ↔ .output w ∈ ss := by
      intro w
      simp only [List.mem_filterMap]
      constructor
      · rintro ⟨s, hs, hw⟩
        cases s <;> cases hw
        exact hs
      · exact fun hw => ⟨_, hw, rfl⟩
    obtain ⟨-, c, -, -, rfl, hgates, houtputs⟩ :=
      Builder.exists_assemble hd hp fun w hw => ho w ((hmem w).1 hw)
    exact ⟨c, {
      total := htotal
      gates := hgates.symm
      outputs := fun w => (houtputs w).trans (hmem w)
      indexed := c.indexed
      distinct := c.nodup_flatMap_outputs
      produced := fun _ => mem_flatMap_outputs_iff
      outputs_produced := fun w hw => mem_flatMap_outputs_iff.2 (c.outputs_lt w hw) }⟩

theorem parse_eq_ok_iff_exists {text : String} {c : Circuit} :
    parse text = .ok c ↔ ∃ rs, List.Forall₂ Statement.Line (lines text.toList) rs ∧
      c.DeclaredBy rs.reduceOption := by
  constructor
  · intro h
    obtain ⟨b, hlines, hfinish⟩ := exists_ok_of_except_bind h
    obtain ⟨rs, hrs, hb⟩ := (declareLines_eq_ok_iff Builder.holds_empty).1 hlines
    exact ⟨rs, hrs, exists_holds_iff.1 ⟨b, hb, hfinish⟩⟩
  · rintro ⟨rs, hrs, h⟩
    obtain ⟨b, hb, hfinish⟩ := exists_holds_iff.2 h
    have hlines : declareLines 1 (lines text.toList) .empty = .ok b :=
      (declareLines_eq_ok_iff Builder.holds_empty).2 ⟨rs, hrs, hb⟩
    exact (except_bind_of_ok hlines).trans hfinish

/-- A text is the source of a circuit exactly when every line follows the grammar and the lines
together state the circuit, and the source of some circuit exactly when the statements of its lines
make one. -/
theorem parse_eq_ok_iff {text : String} :
    (∀ c, parse text = .ok c ↔ ∃ rs, List.Forall₂ Statement.Line (text.toList.splitOn '\n') rs ∧
      c.DeclaredBy rs.reduceOption) ∧
    ((∃ c, parse text = .ok c) ↔ ∃ rs, List.Forall₂ Statement.Line (text.toList.splitOn '\n') rs ∧
      ∃ n, Statement.Complete rs.reduceOption n) := by
  rw [← lines_eq_splitOn]
  refine ⟨fun _ => parse_eq_ok_iff_exists, ?_⟩
  simp only [parse_eq_ok_iff_exists]
  rw [exists_comm]
  simp only [exists_and_left, exists_declaredBy_iff]

end Circuit

end FieldCircuit
