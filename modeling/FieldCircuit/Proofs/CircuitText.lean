import FieldCircuit.Proofs.CircuitSource
import FieldCircuit.Proofs.ProgramText

/-!
# Circuits are read back from their text

Every line of a circuit's text is a clause of the grammar, without comment, and the lines together
state the circuit. So the text of a circuit is its source (`Circuit.parse_text_eq_ok`).
-/

namespace FieldCircuit

open Text

/-! ## Spellings -/

theorem Text.isWord_toString (w : UInt64) : IsWord (toString w).toList w :=
  word?_eq_some_iff.1 (word?_toString w)

theorem Text.exists_isWord_repr {k : Nat} (h : k < 2 ^ 64) :
    ∃ n : UInt64, IsWord (toString k).toList n ∧ n.toNat = k := by
  have hto : k.toUInt64.toNat = k := by
    rw [UInt64.toNat_ofNat']
    omega
  have hword := isWord_toString k.toUInt64
  rw [toList_word, hto] at hword
  exact ⟨_, Nat.toList_repr ▸ hword, hto⟩

theorem Text.isHex_hexDigits (n : Nat) : IsHex (hexDigits n).toList n := by
  refine ⟨_, .inl rfl, (natural?_eq_some_iff (by decide)).1 ?_⟩
  rw [hexDigits, String.toList_ofList]
  exact natural?_toDigits (by decide) (by decide) n

namespace Statement

theorem listing_unwords (ws : List Wire) :
    Listing (unwords (ws.map fun w => (toString w).toList)) ws := by
  rw [← mapM_readWord_eq_ok_iff, words_unwords (by simp [plain_word]), mapM_eq_ok_iff,
    List.forall₂_map_left_iff, List.forall₂_same]
  exact fun w _ => readWord_toString w

theorem toList_wireList (ws : List Wire) : (Gate.wireList ws).toList =
    (toString ws.length).toList ++ [' '] ++ '<' :: unwords (ws.map fun w => (toString w).toList) ++
      ['>'] := by
  have hid : ∀ s : String, toString s = s := fun _ => rfl
  simp [Gate.wireList, unwords, hid, Function.comp_def]

theorem blank_space : Blank [' '] := List.forall_mem_singleton.2 (by decide)

theorem wireList_text {ws : List Wire} (h : ws.length < 2 ^ 64) :
    WireList ([' '] ++ (Gate.wireList ws).toList) ws := by
  obtain ⟨n, hn, hlen⟩ := exists_isWord_repr h
  rw [toList_wireList]
  simp only [← List.append_assoc]
  exact .mk ⟨by simp, blank_space⟩ hn blank_space (listing_unwords ws) hlen

theorem isConstant_constantText (k : Int) : IsConstant (Gate.constantText k).toList k := by
  cases k with
  | ofNat n => exact .nonneg (isHex_hexDigits n)
  | negSucc n =>
    rw [Gate.constantText, String.toList_append]
    exact .neg (isHex_hexDigits (n + 1))

theorem operator_of_ne_input {g : Gate} (h : ∀ w, g ≠ .input w) : Operator g.operator.toList g := by
  cases g with
  | input w => exact absurd rfl (h w)
  | add => exact .add
  | mul => exact .mul
  | div => exact .div
  | zeroTest => exact .zeroTest
  | constMul k a w =>
    rw [Gate.operator, String.toList_append]
    exact .constMul (isConstant_constantText k)
  | constDiv k a w =>
    rw [Gate.operator, String.toList_append]
    exact .constDiv (isConstant_constantText k)

theorem text_of_ne_input {g : Gate} (h : ∀ w, g ≠ .input w) : g.text =
    g.operator ++ " in " ++ Gate.wireList g.inputs ++ " out " ++ Gate.wireList g.outputs := by
  cases g with
  | input w => exact absurd rfl (h w)
  | _ => rfl

theorem toList_verb_word (verb : String) (w : UInt64) :
    s!"{verb} {w}".toList = verb.toList ++ [' '] ++ (toString w).toList := by
  have hid : ∀ s : String, toString s = s := fun _ => rfl
  simp [hid]

/-- A statement is written as a verb, a space and what belongs to the verb. -/
theorem exists_clause (s : Statement) :
    ∃ verb rest, s.text.toList = verb ++ [' '] ++ rest ∧ Clause verb rest s := by
  cases s with
  | total n => exact ⟨_, _, toList_verb_word "total" n, .total (isWord_toString n)⟩
  | output w => exact ⟨_, _, toList_verb_word "output" w, .output (isWord_toString w)⟩
  | gate g =>
    by_cases hg : ∃ w, g = .input w
    · obtain ⟨w, rfl⟩ := hg
      exact ⟨_, _, toList_verb_word "input" w, .input (isWord_toString w)⟩
    · have hg : ∀ w, g ≠ .input w := fun w he => hg ⟨w, he⟩
      have hlen : g.inputs.length ≤ 2 ∧ g.outputs.length ≤ 2 := by
        cases g <;> simp [Gate.inputs, Gate.outputs]
      refine ⟨_, _, ?_, .gate (operator_of_ne_input hg)
        (.mk (wireList_text (by omega)) blank_space (wireList_text (by omega)))⟩
      rw [text, text_of_ne_input hg]
      simp

/-! ## Characters -/

/-- Neither comment nor line end. -/
def Printable (cs : List Char) : Prop := ∀ c ∈ cs, c ≠ '#' ∧ c ≠ '\n'

instance (cs : List Char) : Decidable (Printable cs) :=
  decidable_of_iff (cs.all (fun c => c != '#' && c != '\n') = true) (by simp [Printable])

theorem Printable.append {cs ds : List Char} (hc : Printable cs) (hd : Printable ds) :
    Printable (cs ++ ds) :=
  List.forall_mem_append.2 ⟨hc, hd⟩

theorem printable_of_plain {cs : List Char} (h : Plain cs) : Printable cs := by
  intro c hc
  obtain ⟨hblank, hmark⟩ := h.2 c hc
  refine ⟨hmark, ?_⟩
  rintro rfl
  exact absurd hblank (by decide)

theorem printable_hexDigits (n : Nat) : Printable (hexDigits n).toList := by
  rw [hexDigits, String.toList_ofList]
  exact printable_of_plain (plain_toDigits (by decide) (by decide) n)

theorem printable_wireList (ws : List Wire) : Printable (Gate.wireList ws).toList := by
  have hcount : Printable (toString ws.length).toList := by
    rw [show (toString ws.length).toList = Nat.toDigits 10 ws.length from Nat.toList_repr]
    exact printable_of_plain (plain_toDigits (by decide) (by decide) _)
  have hwires : Printable (unwords (ws.map fun w => (toString w).toList)) := by
    intro c hc
    rcases mem_unwords hc with rfl | ⟨word, hword, hc⟩
    · decide
    · obtain ⟨w, -, rfl⟩ := List.mem_map.1 hword
      exact printable_of_plain (plain_word w) c hc
  rw [toList_wireList]
  exact ((hcount.append (by decide)).append (List.forall_mem_cons.2 ⟨by decide, hwires⟩)).append
    (by decide)

theorem printable_operator (g : Gate) : Printable g.operator.toList := by
  have hconstant : ∀ k : Int, Printable (Gate.constantText k).toList := by
    intro k
    cases k with
    | ofNat n => exact printable_hexDigits n
    | negSucc n =>
      rw [Gate.constantText, String.toList_append]
      exact Printable.append (by decide) (printable_hexDigits (n + 1))
  cases g with
  | constMul k a w =>
    rw [Gate.operator, String.toList_append]
    exact Printable.append (by decide) (hconstant k)
  | constDiv k a w =>
    rw [Gate.operator, String.toList_append]
    exact Printable.append (by decide) (hconstant k)
  | _ =>
    rw [Gate.operator]
    decide

theorem printable_text (s : Statement) : Printable s.text.toList := by
  have hword : ∀ (verb : String) (w : UInt64), Printable verb.toList →
      Printable s!"{verb} {w}".toList := by
    intro verb w h
    rw [toList_verb_word]
    exact (h.append (by decide)).append (printable_of_plain (plain_word w))
  cases s with
  | total n => exact hword "total" n (by decide)
  | output w => exact hword "output" w (by decide)
  | gate g =>
    by_cases hg : ∃ w, g = .input w
    · obtain ⟨w, rfl⟩ := hg
      exact hword "input" w (by decide)
    · rw [text, text_of_ne_input fun w he => hg ⟨w, he⟩]
      simp only [String.toList_append]
      exact ((((printable_operator g).append (by decide)).append (printable_wireList _)).append
        (by decide)).append (printable_wireList _)

theorem line_text (s : Statement) : Line s.text.toList (some s) := by
  obtain ⟨verb, rest, htext, hclause⟩ := exists_clause s
  have hplain : '#' ∉ s.text.toList := fun h => (printable_text s '#' h).1 rfl
  refine ⟨s.text.toList, s.text.toList, ⟨hplain, .inl rfl⟩, ?_, ?_⟩
  · rw [htext]
    refine ⟨?_, hclause.endsSolid _, [], [], by simp [Blank], by simp [Blank], by simp⟩
    rw [List.append_assoc]
    exact hclause.solid.startsSolid _
  · rw [htext]
    exact .statement ⟨by simp, blank_space⟩ hclause

theorem line_nil : Line [] none :=
  ⟨[], [], ⟨by simp, .inl rfl⟩,
    ⟨by simp [StartsSolid], by simp [StartsSolid], [], [], by simp [Blank]⟩,
    .nothing⟩

end Statement

/-! ## Circuits -/

namespace Circuit

theorem toList_text (c : Circuit) :
    c.text.toList = (c.statements.map fun s => s.text.toList).flatMap (· ++ ['\n']) := by
  simp [text, String.toList_join, List.flatMap_map]

theorem declaredBy_statements (c : Circuit) : c.DeclaredBy c.statements where
  total := by simp [statements, Statement.total?]
  gates := by
    rw [statements, List.filterMap_cons_none rfl]
    simp [Function.comp_def, Statement.gate?]
  outputs w := by simp [statements]
  indexed := c.indexed
  distinct := c.nodup_flatMap_outputs
  produced _ := mem_flatMap_outputs_iff
  outputs_produced w hw := mem_flatMap_outputs_iff.2 (c.outputs_lt w hw)

theorem lines_text (c : Circuit) :
    lines c.text.toList = (c.statements.map fun s => s.text.toList) ++ [[]] := by
  rw [toList_text, lines_flatMap]
  intro l hl
  obtain ⟨s, -, rfl⟩ := List.mem_map.1 hl
  exact fun h => (s.printable_text '\n' h).2 rfl

/-- A circuit is read back from its text, with the same index. -/
theorem parse_text_eq_ok (c : Circuit) : parse c.text = .ok c := by
  have hrs : List.Forall₂ Statement.Line (lines c.text.toList)
      (c.statements.map some ++ [none]) := by
    rw [lines_text]
    refine List.rel_append ?_ (.cons Statement.line_nil .nil)
    rw [List.forall₂_map_left_iff, List.forall₂_map_right_iff, List.forall₂_same]
    exact fun s _ => s.line_text
  have hstatements : (c.statements.map some ++ [none]).reduceOption = c.statements := by
    simp [List.reduceOption]
  refine parse_eq_ok_iff_exists.2 ⟨_, hrs, ?_⟩
  rw [hstatements]
  exact c.declaredBy_statements

theorem parse_text_quotientTest :
    quotientTest.text = "total 6\nzerop in 1 <2> out 2 <3 4>\ndiv in 2 <0 1> out 1 <2>\n" ++
      "const-div-neg-2 in 1 <2> out 1 <5>\ninput 0\ninput 1\noutput 3\noutput 5\n" ∧
    parse quotientTest.text = .ok quotientTest :=
  ⟨by decide +kernel, parse_text_eq_ok quotientTest⟩

end Circuit

end FieldCircuit
