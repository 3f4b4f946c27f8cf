import FieldCircuit.Proofs.Spelling

/-!
# The grammar of statements

The forms of a line of a circuit's source, one production a definition. With `_` for any blanks and
`__` for at least one, a line before its comment is blank or, trimmed,

    total __ n      input __ w      output __ w
    op __ in __ k _ < wires > _ out __ m _ < wires >

where `k` and `m` count the wires. For every production there is the lemma that its reader accepts
exactly the texts it describes, up to `Statement.read?_eq_ok_iff`.
-/

namespace FieldCircuit.Statement

open Text

/-! ## Lists of wires -/

/-- Numerals with blanks around and between them. -/
inductive Listing : List Char → List Wire → Prop where
  | nil {cs : List Char} : Blank cs → Listing cs []
  | cons {lead word rest : List Char} {w : Wire} {ws : List Wire} :
      Blank lead → IsWord word w → StartsBlank rest → Listing rest ws →
        Listing (lead ++ word ++ rest) (w :: ws)

/-- The number of wires and the wires in angle brackets, after a blank. -/
inductive WireList : List Char → List Wire → Prop where
  | mk {lead count mid list : List Char} {n : UInt64} {ws : List Wire} :
      Gap lead → IsWord count n → Blank mid → Listing list ws → n.toNat = ws.length →
        WireList (lead ++ count ++ mid ++ '<' :: list ++ ['>']) ws

/-- The wires read and the wires produced. -/
inductive WireLists : List Char → List Wire → List Wire → Prop where
  | mk {ins mid outs : List Char} {inputs outputs : List Wire} :
      WireList ins inputs → Blank mid → WireList outs outputs →
        WireLists ("in".toList ++ ins ++ mid ++ "out".toList ++ outs) inputs outputs

theorem Listing.not_mem {cs : List Char} {ws : List Wire} (h : Listing cs ws) {c : Char}
    (hb : isBlank c = false) (hplus : '+' ≠ c)
    (hc : ∀ d : Fin 10, Nat.digitChar d ≠ c ∧ (Nat.digitChar d).toUpper ≠ c) : c ∉ cs := by
  induction h with
  | nil hblank => exact hblank.not_mem hb
  | cons hlead hw _ _ ih =>
    simp only [List.mem_append, not_or]
    exact ⟨⟨hlead.not_mem hb, hw.not_mem hplus hc⟩, ih⟩

theorem mapM_readWord_eq_ok_iff {cs : List Char} {ws : List Wire} :
    (words cs).mapM readWord = .ok ws ↔ Listing cs ws := by
  constructor
  · intro h
    have hspaced : Spaced cs (words cs) := words_eq_iff.1 rfl
    generalize words cs = numerals at hspaced h
    induction hspaced generalizing ws with
    | nil hb =>
      rw [mapM_eq_ok_iff] at h
      cases h
      exact .nil hb
    | cons hlead _ hr _ ih =>
      rw [mapM_eq_ok_iff] at h
      obtain ⟨w, ws, hword, hrest, rfl⟩ := List.forall₂_cons_left_iff.1 h
      exact .cons hlead (readWord_eq_ok_iff.1 hword) hr (ih (mapM_eq_ok_iff.2 hrest))
  · intro h
    induction h with
    | nil hb =>
      rw [words_of_blank hb]
      rfl
    | cons hlead hw hr _ ih =>
      rw [List.append_assoc, words_append_of_blank hlead, words_append hw.solid hr, mapM_eq_ok_iff]
      exact .cons (readWord_eq_ok_iff.2 hw) (mapM_eq_ok_iff.1 ih)

/-- A reading of wires, step by step. -/
theorem readWires_steps {cs rest : List Char} {ws : List Wire} :
    readWires cs = .ok (ws, rest) ↔
      cs.head?.any isBlank = true ∧ ∃ count mid list n, cut? (· == '<') cs = some (count, mid) ∧
        readWord (trim count) = .ok n ∧ cut? (· == '>') mid = some (list, rest) ∧
        (words list).mapM readWord = .ok ws ∧ ws.length = n.toNat := by
  constructor
  · intro h
    unfold readWires at h
    dsimp only at h
    split at h
    · next hgap =>
      split at h
      · next hcount =>
        obtain ⟨n, hn, h⟩ := exists_ok_of_except_bind h
        split at h
        · next hlist =>
          obtain ⟨_, hws, h⟩ := exists_ok_of_except_bind h
          split at h
          · next hlen =>
            cases h
            exact ⟨hgap, _, _, _, n, hcount, hn, hlist, hws, hlen⟩
          · cases h
        · cases h
      · cases h
    · cases h
  · rintro ⟨hgap, count, mid, list, n, hcount, hn, hlist, hws, hlen⟩
    unfold readWires
    simp only [hgap, hcount, hn, hlist, hws, hlen, bind, Except.bind, ↓reduceIte]
    rfl

theorem readWires_eq_ok_iff {cs rest : List Char} {ws : List Wire} :
    readWires cs = .ok (ws, rest) ↔ ∃ list, WireList list ws ∧ cs = list ++ rest := by
  simp only [readWires_steps, cut?_char_eq_some_iff, readWord_eq_ok_iff, mapM_readWord_eq_ok_iff]
  constructor
  · rintro ⟨hgap, count, _, list, n, ⟨-, rfl⟩, hn, ⟨-, rfl⟩, hlist, hlen⟩
    obtain ⟨-, -, lead, mid, hlead, hmid, hcount⟩ := trim_eq_iff.1 (rfl : trim count = trim count)
    rw [hcount, List.append_assoc, List.append_assoc] at hgap
    refine ⟨_, .mk (gap_of_any_head? hlead (hn.solid.startsSolid _) hgap) hn hmid hlist hlen.symm,
      ?_⟩
    rw [← hcount]
    simp
  · rintro ⟨_, @⟨lead, count, mid, list, n, ws, hlead, hn, hmid, hlist, hlen⟩, rfl⟩
    refine ⟨?_, lead ++ count ++ mid, list ++ '>' :: rest, list, n, ⟨?_, by simp⟩, ?_,
      ⟨hlist.not_mem (by decide) (by decide) (by decide), rfl⟩, hlist, hlen.symm⟩
    · simp only [List.append_assoc]
      exact hlead.any_head? _
    · simp only [List.mem_append, not_or]
      exact ⟨⟨hlead.2.not_mem (by decide), hn.not_mem (by decide) (by decide)⟩,
        hmid.not_mem (by decide)⟩
    · rw [trim_eq_iff.2 (hn.solid.trimmed hlead.2 hmid)]
      exact hn

theorem readLists_eq_ok_iff {cs : List Char} {inputs outputs : List Wire}
    (hs : StartsSolid cs.reverse) :
    readLists cs = .ok (inputs, outputs) ↔ WireLists cs inputs outputs := by
  constructor
  · intro h
    unfold readLists at h
    split at h
    · next hin =>
      obtain ⟨⟨_, rest⟩, hins, h⟩ := exists_ok_of_except_bind h
      dsimp only at h
      split at h
      · next hout =>
        obtain ⟨⟨_, tail⟩, houts, h⟩ := exists_ok_of_except_bind h
        dsimp only at h
        split at h
        · next htail =>
          cases h
          obtain ⟨ins, hinputs, rfl⟩ := readWires_eq_ok_iff.1 hins
          obtain ⟨outs, houtputs, rfl⟩ := readWires_eq_ok_iff.1 houts
          obtain ⟨-, mid, hmid, hrest⟩ := exists_trimStart rest
          rw [← List.isPrefixOf?_eq_some_iff_append_eq.1 hout] at hrest
          have hcs := List.isPrefixOf?_eq_some_iff_append_eq.1 hin
          rw [hrest] at hcs
          have hsplit : cs = ("in".toList ++ ins ++ mid ++ "out".toList ++ outs) ++ tail := by
            rw [← hcs]
            simp
          -- The text does not end in a blank, so nothing follows the second list.
          have hnil : tail = [] := by
            rw [hsplit] at hs
            exact Blank.eq_nil (List.all_eq_true.1 htail) hs
          rw [hsplit, hnil, List.append_nil]
          exact .mk hinputs hmid houtputs
        · cases h
      · cases h
    · cases h
  · rintro @⟨ins, mid, outs, inputs, outputs, hins, hmid, houts⟩
    have hin : ['i', 'n'].isPrefixOf? ("in".toList ++ ins ++ mid ++ "out".toList ++ outs) =
        some (ins ++ (mid ++ "out".toList ++ outs)) := by
      rw [List.isPrefixOf?_eq_some_iff_append_eq]
      simp
    have hout : ['o', 'u', 't'].isPrefixOf? (trimStart (mid ++ "out".toList ++ outs)) =
        some outs := by
      have hsolid : StartsSolid ("out".toList ++ outs) := Solid.startsSolid (by decide) outs
      rw [List.isPrefixOf?_eq_some_iff_append_eq, List.append_assoc, trimStart_append hmid,
        trimStart_of_startsSolid hsolid]
      rfl
    have hinputs : readWires (ins ++ (mid ++ "out".toList ++ outs)) = .ok (inputs, _) :=
      readWires_eq_ok_iff.2 ⟨ins, hins, rfl⟩
    have houtputs := readWires_eq_ok_iff.2 ⟨outs, houts, (List.append_nil outs).symm⟩
    unfold readLists
    simp only [hin, hinputs, hout, houtputs, bind, Except.bind]
    rfl

/-! ## Operators -/

/-- A hexadecimal magnitude behind an optional `neg-`. -/
inductive IsConstant : List Char → Int → Prop where
  | nonneg {cs : List Char} {n : Nat} : IsHex cs n → IsConstant cs n
  | neg {cs : List Char} {n : Nat} : IsHex cs n → IsConstant ("neg-".toList ++ cs) (-n)

/-- The name of a gate's operation. -/
inductive Operator : List Char → Gate → Prop where
  | add {a b w : Wire} : Operator "add".toList (.add a b w)
  | mul {a b w : Wire} : Operator "mul".toList (.mul a b w)
  | div {a b w : Wire} : Operator "div".toList (.div a b w)
  | zeroTest {a i w : Wire} : Operator "zerop".toList (.zeroTest a i w)
  | constMul {cs : List Char} {k : Int} {a w : Wire} :
      IsConstant cs k → Operator ("const-mul-".toList ++ cs) (.constMul k a w)
  | constDiv {cs : List Char} {k : Int} {a w : Wire} :
      IsConstant cs k → Operator ("const-div-".toList ++ cs) (.constDiv k a w)

theorem constant?_eq_some_iff {cs : List Char} {k : Int} :
    constant? cs = some k ↔ IsConstant cs k := by
  -- No hexadecimal numeral starts as the mark does.
  have hmark : ∀ {ds : List Char} {n : Nat}, ¬IsHex ("neg-".toList ++ ds) n := fun h =>
    h.of_mem (P := (· ≠ 'n')) (by decide) (by decide) 'n' (by simp) rfl
  unfold constant?
  split
  · next ds hneg =>
    obtain rfl : cs = "neg-".toList ++ ds := (List.isPrefixOf?_eq_some_iff_append_eq.1 hneg).symm
    simp only [Option.map_eq_some_iff, hex?_eq_some_iff]
    constructor
    · rintro ⟨n, hn, rfl⟩
      exact .neg hn
    · generalize hcs : "neg-".toList ++ ds = cs
      rintro (hn | hn)
      · exact absurd (hcs ▸ hn) hmark
      · exact ⟨_, List.append_cancel_left hcs ▸ hn, rfl⟩
  · next hneg =>
    simp only [Option.map_eq_some_iff, hex?_eq_some_iff]
    constructor
    · rintro ⟨n, hn, rfl⟩
      exact .nonneg hn
    · rintro (hn | hn)
      · exact ⟨_, hn, rfl⟩
      · cases hneg.symm.trans (List.isPrefixOf?_eq_some_iff_append_eq.2 rfl)

theorem readConstant_eq_ok_iff {cs : List Char} {k : Int} :
    readConstant cs = .ok k ↔ IsConstant cs k := by
  rw [← constant?_eq_some_iff]
  unfold readConstant
  cases constant? cs <;> simp

theorem of_readBinary {op : List Char} {gate : Wire → Wire → Wire → Gate}
    {inputs outputs : List Wire} {g : Gate} (h : readBinary op gate inputs outputs = .ok g) :
    ∃ a b w, g = gate a b w ∧ [a, b] = inputs ∧ [w] = outputs := by
  unfold readBinary at h
  split at h
  · cases h
    exact ⟨_, _, _, rfl, rfl, rfl⟩
  · cases h

theorem of_readZeroTest {op : List Char} {inputs outputs : List Wire} {g : Gate}
    (h : readZeroTest op inputs outputs = .ok g) :
    ∃ a i w, g = .zeroTest a i w ∧ [a] = inputs ∧ [i, w] = outputs := by
  unfold readZeroTest at h
  split at h
  · cases h
    exact ⟨_, _, _, rfl, rfl, rfl⟩
  · cases h

theorem of_readScaled {op constant : List Char} {gate : Int → Wire → Wire → Gate}
    {inputs outputs : List Wire} {g : Gate}
    (h : readScaled op gate constant inputs outputs = .ok g) :
    ∃ k a w, IsConstant constant k ∧ g = gate k a w ∧ [a] = inputs ∧ [w] = outputs := by
  unfold readScaled at h
  split at h
  · obtain ⟨k, hk, h⟩ := exists_ok_of_except_bind h
    cases h
    exact ⟨k, _, _, readConstant_eq_ok_iff.1 hk, rfl, rfl, rfl⟩
  · cases h

theorem of_readConstantGate {op : List Char} {inputs outputs : List Wire} {g : Gate}
    (h : readConstantGate op inputs outputs = .ok g) :
    Operator op g ∧ g.inputs = inputs ∧ g.outputs = outputs := by
  unfold readConstantGate at h
  split at h
  · next hop =>
    obtain ⟨k, a, w, hk, rfl, rfl, rfl⟩ := of_readScaled h
    exact ⟨List.isPrefixOf?_eq_some_iff_append_eq.1 hop ▸ .constMul hk, rfl, rfl⟩
  · next hop =>
    obtain ⟨k, a, w, hk, rfl, rfl, rfl⟩ := of_readScaled h
    exact ⟨List.isPrefixOf?_eq_some_iff_append_eq.1 hop ▸ .constDiv hk, rfl, rfl⟩
  · cases h

theorem readConstantGate_constMul {cs : List Char} {k : Int} (hk : IsConstant cs k) (a w : Wire) :
    readConstantGate ("const-mul-".toList ++ cs) [a] [w] = .ok (.constMul k a w) := by
  have hmul := List.isPrefixOf?_eq_some_iff_append_eq.2 (rfl : "const-mul-".toList ++ cs = _)
  unfold readConstantGate
  rw [hmul]
  exact except_bind_of_ok (readConstant_eq_ok_iff.2 hk)

theorem readConstantGate_constDiv {cs : List Char} {k : Int} (hk : IsConstant cs k) (a w : Wire) :
    readConstantGate ("const-div-".toList ++ cs) [a] [w] = .ok (.constDiv k a w) := by
  have hmul : "const-mul-".toList.isPrefixOf? ("const-div-".toList ++ cs) = none := by
    rw [Option.eq_none_iff_forall_ne_some]
    intro ds hds
    have := List.isPrefixOf?_eq_some_iff_append_eq.1 hds
    simp at this
  have hdiv := List.isPrefixOf?_eq_some_iff_append_eq.2 (rfl : "const-div-".toList ++ cs = _)
  unfold readConstantGate
  rw [hmul, hdiv]
  exact except_bind_of_ok (readConstant_eq_ok_iff.2 hk)

theorem readGate_of_not_mem {op : List Char} (inputs outputs : List Wire)
    (h : String.ofList op ∉ ["add", "mul", "div", "zerop", "split"]) :
    readGate op inputs outputs = readConstantGate op inputs outputs := by
  unfold readGate
  split
  · next hop => simp [hop] at h
  · next hop => simp [hop] at h
  · next hop => simp [hop] at h
  · next hop => simp [hop] at h
  · next hop => simp [hop] at h
  · rfl

theorem eq_toList_of_ofList {cs : List Char} {s : String} (h : String.ofList cs = s) :
    cs = s.toList := by
  rw [← h, String.toList_ofList]

theorem readGate_eq_ok_iff {op : List Char} {inputs outputs : List Wire} {g : Gate} :
    readGate op inputs outputs = .ok g ↔
      Operator op g ∧ g.inputs = inputs ∧ g.outputs = outputs := by
  constructor
  · intro h
    unfold readGate at h
    split at h
    · next hop =>
      obtain ⟨a, b, w, rfl, rfl, rfl⟩ := of_readBinary h
      exact ⟨eq_toList_of_ofList hop ▸ .add, rfl, rfl⟩
    · next hop =>
      obtain ⟨a, b, w, rfl, rfl, rfl⟩ := of_readBinary h
      exact ⟨eq_toList_of_ofList hop ▸ .mul, rfl, rfl⟩
    · next hop =>
      obtain ⟨a, b, w, rfl, rfl, rfl⟩ := of_readBinary h
      exact ⟨eq_toList_of_ofList hop ▸ .div, rfl, rfl⟩
    · next hop =>
      obtain ⟨a, i, w, rfl, rfl, rfl⟩ := of_readZeroTest h
      exact ⟨eq_toList_of_ofList hop ▸ .zeroTest, rfl, rfl⟩
    · cases h
    · exact of_readConstantGate h
  · rintro ⟨hop, rfl, rfl⟩
    cases hop with
    | add | mul | div | zeroTest => rfl
    | constMul hk =>
      rw [readGate_of_not_mem _ _ (by simp [← String.toList_inj])]
      exact readConstantGate_constMul hk _ _
    | constDiv hk =>
      rw [readGate_of_not_mem _ _ (by simp [← String.toList_inj])]
      exact readConstantGate_constDiv hk _ _

theorem IsConstant.solid {cs : List Char} {k : Int} (h : IsConstant cs k) : Solid cs := by
  cases h with
  | nonneg hn => exact hn.solid
  | neg hn => exact Solid.append (by decide) hn.solid

theorem Operator.solid {op : List Char} {g : Gate} (h : Operator op g) : Solid op := by
  cases h with
  | constMul hk | constDiv hk => exact Solid.append (by decide) hk.solid
  | _ => decide

/-! ## Lines -/

/-- A statement as its verb and the text after it. -/
inductive Clause : List Char → List Char → Statement → Prop where
  | total {cs : List Char} {n : UInt64} : IsWord cs n → Clause "total".toList cs (.total n)
  | input {cs : List Char} {w : Wire} : IsWord cs w → Clause "input".toList cs (.gate (.input w))
  | output {cs : List Char} {w : Wire} : IsWord cs w → Clause "output".toList cs (.output w)
  | gate {op cs : List Char} {g : Gate} :
      Operator op g → WireLists cs g.inputs g.outputs → Clause op cs (.gate g)

/-- What a trimmed line states, if anything. -/
inductive Content : List Char → Option Statement → Prop where
  | nothing : Content [] none
  | statement {verb gap rest : List Char} {s : Statement} :
      Gap gap → Clause verb rest s → Content (verb ++ gap ++ rest) (some s)

/-- What a line of a source states, if anything. -/
def Line (line : List Char) (r : Option Statement) : Prop :=
  ∃ content body, Uncommented line content ∧ Trimmed content body ∧ Content body r

theorem WireLists.startsSolid {cs : List Char} {inputs outputs : List Wire}
    (h : WireLists cs inputs outputs) : StartsSolid cs := by
  cases h with
  | mk hins hmid houts =>
    simp only [List.append_assoc]
    exact Solid.startsSolid (by decide) _

theorem WireList.endsSolid {cs : List Char} {ws : List Wire} (h : WireList cs ws) (ds : List Char) :
    StartsSolid (ds ++ cs).reverse := by
  cases h with
  | mk =>
    rw [← List.append_assoc]
    exact Solid.endsSolid (by decide) _

theorem WireLists.endsSolid {cs : List Char} {inputs outputs : List Wire}
    (h : WireLists cs inputs outputs) (ds : List Char) : StartsSolid (ds ++ cs).reverse := by
  cases h with
  | mk hins hmid houts =>
    rw [← List.append_assoc]
    exact houts.endsSolid _

theorem Clause.solid {verb rest : List Char} {s : Statement} (h : Clause verb rest s) :
    Solid verb := by
  cases h with
  | gate hop _ => exact hop.solid
  | _ => decide

theorem Clause.startsSolid {verb rest : List Char} {s : Statement} (h : Clause verb rest s) :
    StartsSolid rest := by
  cases h with
  | gate _ hlists => exact hlists.startsSolid
  | total hn | input hn | output hn => simpa using hn.solid.startsSolid []

theorem Clause.endsSolid {verb rest : List Char} {s : Statement} (h : Clause verb rest s)
    (ds : List Char) :
    StartsSolid (ds ++ rest).reverse := by
  cases h with
  | gate _ hlists => exact hlists.endsSolid ds
  | total hn | input hn | output hn => exact hn.solid.endsSolid ds

theorem Clause.trimmed {verb rest : List Char} {s : Statement} (h : Clause verb rest s)
    {gap : List Char} (hgap : Blank gap) : Trimmed (gap ++ rest) rest :=
  ⟨h.startsSolid, h.endsSolid [], gap, [], hgap, by simp [Blank], by simp⟩

theorem Clause.ne_nil {verb rest : List Char} {s : Statement} (h : Clause verb rest s) :
    rest ≠ [] := by
  cases h with
  | gate _ hlists =>
    cases hlists
    simp
  | total hn | input hn | output hn => exact hn.solid.1

theorem readClause_eq_ok_iff {verb rest : List Char} {s : Statement}
    (hs : StartsSolid rest.reverse) :
    readClause verb rest = .ok s ↔ Clause verb rest s := by
  constructor
  · intro h
    unfold readClause at h
    split at h
    · next hverb =>
      obtain ⟨n, hn, h⟩ := exists_ok_of_except_bind h
      cases h
      exact eq_toList_of_ofList hverb ▸ .total (readWord_eq_ok_iff.1 hn)
    · next hverb =>
      obtain ⟨n, hn, h⟩ := exists_ok_of_except_bind h
      cases h
      exact eq_toList_of_ofList hverb ▸ .input (readWord_eq_ok_iff.1 hn)
    · next hverb =>
      obtain ⟨n, hn, h⟩ := exists_ok_of_except_bind h
      cases h
      exact eq_toList_of_ofList hverb ▸ .output (readWord_eq_ok_iff.1 hn)
    · obtain ⟨⟨inputs, outputs⟩, hlists, h⟩ := exists_ok_of_except_bind h
      obtain ⟨g, hg, h⟩ := exists_ok_of_except_bind h
      cases h
      obtain ⟨hop, rfl, rfl⟩ := readGate_eq_ok_iff.1 hg
      exact .gate hop ((readLists_eq_ok_iff hs).1 hlists)
  · intro h
    cases h with
    | total hn => exact except_bind_of_ok (readWord_eq_ok_iff.2 hn)
    | input hn => exact except_bind_of_ok (readWord_eq_ok_iff.2 hn)
    | output hn => exact except_bind_of_ok (readWord_eq_ok_iff.2 hn)
    | @gate _ _ g hop hlists =>
      have hread := (readLists_eq_ok_iff hs).2 hlists
      have hgate := readGate_eq_ok_iff.2 ⟨hop, rfl, rfl⟩
      have hverb : String.ofList verb ∉ ["total", "input", "output"] := by
        cases hop <;> simp [← String.toList_inj]
      unfold readClause
      split
      · next heq => simp [heq] at hverb
      · next heq => simp [heq] at hverb
      · next heq => simp [heq] at hverb
      · rw [except_bind_of_ok hread]
        exact except_bind_of_ok hgate

theorem read?_eq_ok_iff {line : List Char} {r : Option Statement} :
    read? line = .ok r ↔ ∃ body, Trimmed line body ∧ Content body r := by
  simp only [← trim_eq_iff, exists_eq_left']
  have hends : StartsSolid (trim line).reverse := (trim_eq_iff.1 rfl).2.1
  unfold read?
  generalize trim line = body at hends
  constructor
  · intro h
    dsimp only at h
    split at h
    · next hempty =>
      cases h
      rw [List.isEmpty_iff.1 hempty]
      exact .nothing
    · split at h
      · next verb rest hcut =>
        obtain ⟨s, hs, h⟩ := exists_ok_of_except_map h
        cases h
        obtain ⟨-, c, hc, rfl⟩ := cut?_eq_some_iff.1 hcut
        obtain ⟨-, hrest, lead, trail, hlead, htrail, hsplit⟩ := trim_eq_iff.1 (rfl : trim rest = _)
        have hbody : verb ++ c :: rest = (verb ++ c :: lead ++ trim rest) ++ trail := by
          conv_lhs => rw [hsplit]
          simp
        -- Nor does the whole line end in a blank, so `trim` takes blanks off the front of `rest`
        -- only.
        rw [hbody] at hends
        rw [hbody, htrail.eq_nil hends, List.append_nil]
        exact .statement ⟨by simp, List.forall_mem_cons.2 ⟨hc, hlead⟩⟩
          ((readClause_eq_ok_iff hrest).1 hs)
      · obtain ⟨s, hs, -⟩ := exists_ok_of_except_map h
        exact absurd rfl ((readClause_eq_ok_iff (by simp [StartsSolid])).1 hs).ne_nil
  · intro h
    cases h with
    | nothing => rfl
    | @statement verb gap rest s hgap hclause =>
      have hverb := hclause.solid
      obtain ⟨c, gap, rfl⟩ := List.exists_cons_of_ne_nil hgap.1
      obtain ⟨hc, hgap⟩ := List.forall_mem_cons.1 hgap.2
      have hrest := hclause.trimmed hgap
      have hcut : cut? isBlank (verb ++ c :: gap ++ rest) = some (verb, gap ++ rest) :=
        cut?_eq_some_iff.2 ⟨hverb.2, c, hc, by simp⟩
      have hne : ¬(verb ++ c :: gap ++ rest).isEmpty = true := by simp
      dsimp only
      rw [if_neg hne, hcut]
      dsimp only
      rw [trim_eq_iff.2 hrest, (readClause_eq_ok_iff hrest.2.1).2 hclause]
      rfl

theorem read?_uncomment_eq_ok_iff {line : List Char} {r : Option Statement} :
    read? (uncomment line) = .ok r ↔ Line line r := by
  unfold Line
  simp only [read?_eq_ok_iff, ← uncomment_eq_iff, exists_and_left, exists_eq_left']

example : Line " mul in\t+2<0 01>out 1 <2> # product".toList (some (.gate (.mul 0 1 2))) :=
  read?_uncomment_eq_ok_iff.1 rfl

end FieldCircuit.Statement
