import FieldCircuit.Program.Source
import FieldCircuit.Proofs.Literals

/-!
# Programs are read back from their text

Every line of a program's text is a verb and its operands, all plain words, so that splitting the
text gives these words again. A reader that declares them line by line ends with the program
(`Program.parse_text`).
-/

namespace FieldCircuit

open Text

theorem readWord_toString (w : UInt64) : readWord (toString w).toList = .ok w := by
  obtain ⟨hne, hchars⟩ := plain_word w
  have hempty : (toString w).toList.isEmpty = false := by simpa using hne
  have hblank : (toString w).toList.any isBlank = false := by
    rw [List.any_eq_false]
    intro c hc
    simp [(hchars c hc).1]
  unfold readWord
  rw [hempty, hblank, word?_toString]
  rfl

variable {p : Nat}

/-! ## Operations -/

namespace Operation

def verb : Operation p → String
  | add .. => "add"
  | mul .. => "mul"
  | div .. => "div"
  | constMul .. => "constmul"
  | zeroTest .. => "zerop"

/-- The words after the verb. -/
def operands : Operation p → List (List Char)
  | add a b w | mul a b w => [(toString a).toList, (toString b).toList, (toString w).toList]
  | div a b w => [(toString w).toList, (toString b).toList, (toString a).toList]
  | constMul c a w => [(toString a).toList, c.hex.toList, (toString w).toList]
  | zeroTest a i w => [(toString a).toList, (toString i).toList, (toString w).toList]

theorem toList_text (op : Operation p) :
    op.text.toList = unwords (op.verb.toList :: op.operands) := by
  have hid : ∀ s : String, toString s = s := fun _ => rfl
  cases op <;> simp [text, verb, operands, unwords, hid]

theorem plain_words (op : Operation p) : ∀ w ∈ op.verb.toList :: op.operands, Plain w := by
  have hverb : Plain op.verb.toList := by
    cases op <;> simp only [verb] <;> decide
  have hoperands : ∀ w ∈ op.operands, Plain w := by
    cases op <;> simp [operands, plain_word, Residue.hex, plain_hex]
  intro w hw
  rcases List.mem_cons.1 hw with rfl | hw
  · exact hverb
  · exact hoperands w hw

theorem readWires_toString (a b c : Wire) :
    readWires [(toString a).toList, (toString b).toList, (toString c).toList] = .ok (a, b, c) := by
  simp only [readWires, readWord_toString, bind, Except.bind, pure, Except.pure]

variable [Nonzero p]

theorem read_verb (op : Operation p) : read op.verb.toList op.operands = .ok op := by
  cases op with
  | constMul c a w =>
    simp only [read, verb, operands, String.ofList_toList, Residue.ofHex?_hex, readWord_toString,
      bind, Except.bind, pure, Except.pure]
  | _ =>
    simp only [read, verb, operands, String.ofList_toList, readWires_toString, bind, Except.bind,
      pure, Except.pure]

end Operation

/-! ## Programs -/

namespace Program

variable [Nonzero p]

theorem declareWords_operation (s : Partial p) (op : Operation p) :
    declareWords s (op.verb.toList :: op.operands) =
      .ok { s with operations := s.operations ++ [op] } := by
  have hthree : op.operands.length = 3 := by cases op <;> rfl
  have hread := op.read_verb
  unfold declareWords
  simp only
  split
  · next count h1 h2 => simp [h2] at hthree
  · next wire h1 h2 => simp [h2] at hthree
  · rw [hread]
    rfl

theorem declareWords_total (s : Partial p) (hs : s.total = none) (n : UInt64) :
    declareWords s ["input".toList, (toString n).toList] = .ok { s with total := some n } := by
  simp only [declareWords, String.ofList_toList, declareOnce, hs, readWord_toString]
  rfl

theorem declareWords_outStart (s : Partial p) (hs : s.outStart = none) (w : Wire) :
    declareWords s ["out_start".toList, (toString w).toList] =
      .ok { s with outStart := some w } := by
  simp only [declareWords, String.ofList_toList, declareOnce, hs, readWord_toString]
  rfl

/-- A line of plain words declares these words. -/
theorem declareLines_unwords {line : Nat} {ws : List (List Char)} (hws : ∀ w ∈ ws, Plain w)
    {ls : List (List Char)} {s s' : Partial p} (h : declareWords s ws = .ok s') :
    declareLines line (unwords ws :: ls) s = declareLines (line + 1) ls s' := by
  simp only [declareLines, uncomment_unwords hws, words_unwords hws, h]

theorem declareLines_operations {line : Nat} (ops : List (Operation p)) (s : Partial p) :
    declareLines line (ops.map (·.text.toList) ++ [[]]) s =
      .ok { s with operations := s.operations ++ ops } := by
  induction ops generalizing line s with
  | nil =>
    rw [List.append_nil]
    rfl
  | cons op ops ih =>
    rw [List.map_cons, List.cons_append, op.toList_text,
      declareLines_unwords op.plain_words (declareWords_operation s op), ih]
    simp

/-- The lines of a program's text. -/
def textLines (s : Program p) : List (List Char) :=
  unwords ["input".toList, (toString s.total).toList] ::
    unwords ["out_start".toList, (toString s.outStart).toList] :: s.operations.map (·.text.toList)

omit [Nonzero p] in
theorem toList_text (s : Program p) : s.text.toList = s.textLines.flatMap (· ++ ['\n']) := by
  have hid : ∀ s : String, toString s = s := fun _ => rfl
  simp [text, textLines, unwords, hid, String.toList_join, List.flatMap_map]

theorem plain_header {verb : List Char} (hverb : Plain verb) (n : UInt64) :
    ∀ w ∈ [verb, (toString n).toList], Plain w := by
  simp [hverb, plain_word]

omit [Nonzero p] in
theorem newline_not_mem_textLines (s : Program p) : ∀ l ∈ s.textLines, '\n' ∉ l := by
  intro l hl
  rcases List.mem_cons.1 hl with rfl | hl
  · exact newline_not_mem_unwords (plain_header (by decide) s.total)
  · rcases List.mem_cons.1 hl with rfl | hl
    · exact newline_not_mem_unwords (plain_header (by decide) s.outStart)
    · obtain ⟨op, -, rfl⟩ := List.mem_map.1 hl
      rw [op.toList_text]
      exact newline_not_mem_unwords op.plain_words

theorem declareLines_text (s : Program p) :
    declareLines 1 (lines s.text.toList) (⟨none, none, []⟩ : Partial p) =
      .ok ⟨some s.total, some s.outStart, s.operations⟩ := by
  rw [toList_text, lines_flatMap s.newline_not_mem_textLines, textLines, List.cons_append,
    List.cons_append,
    declareLines_unwords (plain_header (by decide) _) (declareWords_total _ rfl _),
    declareLines_unwords (plain_header (by decide) _) (declareWords_outStart _ rfl _),
    declareLines_operations]
  rfl

/-- A program's text is read as the program, whatever its numbers. -/
theorem parse_text (s : Program p) : parse s.text = .ok s := by
  unfold parse
  rw [declareLines_text]
  rfl

/-- Both headers are beyond what a circuit has, one wire is produced three times, and the constant
is the largest there is. -/
def crowdedProgram : Program scalarModulus :=
  ⟨18446744073709551615, 3, [.zeroTest 2 2 2, .div 0 18446744073709551615 2,
    .constMul ⟨scalarModulus - 1, by decide⟩ 2 0]⟩

theorem parse_text_crowdedProgram :
    (parse crowdedProgram.text : Except Fault (Program scalarModulus)) = .ok crowdedProgram :=
  parse_text crowdedProgram

end Program

end FieldCircuit
