import FieldCircuit.Assignment
import FieldCircuit.Proofs.Spelling
import FieldCircuit.Proofs.Validity
import Mathlib.Data.List.Perm.Basic
import Mathlib.Data.List.ReduceOption
import Mathlib.Order.Bounds.Basic

/-!
# What an assignment's text denotes

A line is blank or gives a wire and its value, and a text denotes the assignment of all the values
it gives, if it gives no wire two of them (`Assignment.Denotes`). How the lines are laid out does
not matter: neither their order, nor blank lines, nor the blanks and comments on them
(`Assignment.Relaid`).
-/

namespace FieldCircuit.Assignment

open Text

variable {p : Nat} {a a' : Assignment p} {es : List (Wire × Residue p)} {w : Wire} {x : Residue p}

/-! ## Entries -/

/-- The assignment that the entries make, which are all for different wires. -/
structure DeclaredBy (a : Assignment p) (es : List (Wire × Residue p)) : Prop where
  distinct : (es.map Prod.fst).Nodup
  lookup : ∀ w x, a[w]? = some x ↔ (w, x) ∈ es

namespace DeclaredBy

theorem empty : DeclaredBy (∅ : Assignment p) [] := ⟨.nil, by simp⟩

theorem unique (h : DeclaredBy a es) (h' : DeclaredBy a' es) : a = a' :=
  Std.ExtTreeMap.ext_getElem? fun w => Option.ext fun x => (h.lookup w x).trans (h'.lookup w x).symm

theorem mem_iff (h : DeclaredBy a es) : w ∈ a ↔ w ∈ es.map Prod.fst := by
  simp [mem_iff_exists_getElem?, h.lookup]

theorem insert (h : DeclaredBy a es) (hw : w ∉ a) : DeclaredBy (a.insert w x) (es ++ [(w, x)]) where
  distinct := by
    rw [h.mem_iff] at hw
    rw [List.map_append, List.nodup_append]
    exact ⟨h.distinct, by simp, by grind⟩
  lookup v y := by
    rw [Std.ExtTreeMap.getElem?_insert]
    by_cases he : w = v
    · subst he
      have hnot : (w, y) ∉ es := fun hmem => hw (h.mem_iff.2 (List.mem_map_of_mem hmem))
      simp [hnot, eq_comm]
    · simp [he, Ne.symm he, h.lookup]

theorem not_mem {rest : List (Wire × Residue p)} (h : DeclaredBy a es)
    (h' : DeclaredBy a' (es ++ (w, x) :: rest)) : w ∉ a := by
  have hd := h'.distinct
  rw [List.map_append, List.nodup_append] at hd
  rw [h.mem_iff]
  exact fun hw => hd.2.2 w hw w (by simp) rfl

theorem perm {es' : List (Wire × Residue p)} (h : DeclaredBy a es) (hp : es.Perm es') :
    DeclaredBy a es' :=
  ⟨(hp.map _).nodup_iff.1 h.distinct, fun w x => (h.lookup w x).trans hp.mem_iff⟩

end DeclaredBy

/-! ## Lines -/

variable [Nonzero p]

/-- What a line gives: nothing, or a wire and its value, reduced. -/
inductive Line : List Char → Option (Wire × Residue p) → Prop where
  | blank {line content : List Char} : Uncommented line content → Blank content → Line line none
  | entry {line content wire value : List Char} {w : Wire} {n : Nat} :
      Uncommented line content → Spaced content [wire, value] → IsWord wire w → IsHex value n →
        Line line (some (w, .ofNat n))

theorem readEntry?_uncomment_eq_ok_iff {line : List Char} {r : Option (Wire × Residue p)} :
    readEntry? (uncomment line) = .ok r ↔ Line line r := by
  constructor
  · intro h
    have hline : Uncommented line (uncomment line) := uncomment_eq_iff.1 rfl
    unfold readEntry? at h
    split at h
    · next hwords =>
      cases h
      exact .blank hline (spaced_nil_iff.1 (words_eq_iff.1 hwords))
    · next wire value hwords =>
      obtain ⟨w, hw, h⟩ := exists_ok_of_except_bind h
      split at h
      · next x hx =>
        cases h
        obtain ⟨n, hn, rfl⟩ := Option.map_eq_some_iff.1 hx
        exact .entry hline (words_eq_iff.1 hwords) (readWord_eq_ok_iff.1 hw) (hex?_eq_some_iff.1 hn)
      · cases h
    · cases h
  · intro h
    cases h with
    | blank hline hb =>
      rw [uncomment_eq_iff.2 hline, readEntry?, words_of_blank hb]
    | entry hline hspaced hw hn =>
      have hvalue : Residue.ofHex? _ = some (Residue.ofNat _ : Residue p) :=
        Option.map_eq_some_iff.2 ⟨_, hex?_eq_some_iff.2 hn, rfl⟩
      rw [uncomment_eq_iff.2 hline, readEntry?, words_eq_iff.2 hspaced]
      dsimp only
      rw [readWord_eq_ok_iff.2 hw, except_bind_of_ok rfl, hvalue]
      rfl

theorem Line.unique {line : List Char} {r r' : Option (Wire × Residue p)} (h : Line line r)
    (h' : Line line r') : r' = r := by
  rw [← readEntry?_uncomment_eq_ok_iff] at h h'
  exact Except.ok.inj (h'.symm.trans h)

/-! ## Texts -/

/-- The assignment that the lines give. -/
def Denotes (ls : List (List Char)) (a : Assignment p) : Prop :=
  ∃ rs, List.Forall₂ Line ls rs ∧ a.DeclaredBy rs.reduceOption

/-- Lines are entered exactly when some assignment has all they give, with what was entered
before. -/
theorem enterLines_eq_ok_iff {line : Nat} {ls : List (List Char)} (h : DeclaredBy a es) :
    enterLines line ls a = .ok a' ↔
      ∃ rs, List.Forall₂ Line ls rs ∧ a'.DeclaredBy (es ++ rs.reduceOption) := by
  -- on the lines left, while the entries so far make the assignment so far
  induction ls generalizing line a es with
  | nil =>
    simp only [enterLines, List.forall₂_nil_left_iff, exists_eq_left, List.reduceOption_nil,
      List.append_nil, Except.ok.injEq]
    exact ⟨fun he => he ▸ h, h.unique⟩
  | cons l ls ih =>
    cases hread : readEntry? (p := p) (uncomment l) with
    | error fault =>
      simp only [enterLines, hread]
      refine ⟨fun h => (by cases h), ?_⟩
      rintro ⟨_, hlines, -⟩
      obtain ⟨r, _, hr, -⟩ := List.forall₂_cons_left_iff.1 hlines
      cases hread.symm.trans (readEntry?_uncomment_eq_ok_iff.2 hr)
    | ok r =>
      have hline := readEntry?_uncomment_eq_ok_iff.1 hread
      rw [exists_forall₂_cons_iff hline fun _ => hline.unique]
      cases r with
      | none =>
        simp only [enterLines, hread, List.reduceOption_cons_of_none]
        exact ih h
      | some entry =>
        obtain ⟨w, x⟩ := entry
        simp only [enterLines, hread, List.reduceOption_cons_of_some]
        split
        · next hw =>
          refine ⟨fun h => (by cases h), ?_⟩
          rintro ⟨rs, -, h'⟩
          exact absurd (Std.ExtTreeMap.mem_iff_contains.2 hw) (h.not_mem h')
        · next hw =>
          have hinsert : DeclaredBy (a.insert w x) (es ++ [(w, x)]) := h.insert (by simpa using hw)
          have hrun : enterLines (line + 1) ls (a.insert w x) = .ok a' ↔ _ := ih hinsert
          simpa only [List.append_assoc, List.singleton_append] using hrun

theorem enterLines_eq_ok_iff_denotes {line : Nat} {ls : List (List Char)} :
    enterLines line ls ∅ = .ok a ↔ Denotes ls a := by
  rw [enterLines_eq_ok_iff .empty]
  rfl

/-! ## Layout -/

/-- Changes of a layout: lines change their places, a line with nothing but blanks and a comment is
put in, the same words stand on a line with other blanks around and between them and another comment
behind. The last two are of the first line only, since any line can change places with it. -/
inductive Relaid : List (List Char) → List (List Char) → Prop where
  | perm {ls ls' : List (List Char)} : ls.Perm ls' → Relaid ls ls'
  | blank {l content : List Char} {ls : List (List Char)} :
      Uncommented l content → Blank content → Relaid ls (l :: ls)
  | respace {l l' content content' : List Char} {ws ls : List (List Char)} :
      Uncommented l content → Spaced content ws → Uncommented l' content' → Spaced content' ws →
        Relaid (l :: ls) (l' :: ls)
  | symm {ls ls' : List (List Char)} : Relaid ls ls' → Relaid ls' ls
  | trans {ls ls' ls'' : List (List Char)} : Relaid ls ls' → Relaid ls' ls'' → Relaid ls ls''

theorem Relaid.of_words {l l' : List Char} (h : words (uncomment l) = words (uncomment l'))
    {ls : List (List Char)} : Relaid (l :: ls) (l' :: ls) :=
  .respace (uncomment_eq_iff.1 rfl) (words_eq_iff.1 h) (uncomment_eq_iff.1 rfl) (words_eq_iff.1 rfl)

theorem Denotes.perm {ls ls' : List (List Char)} (h : Denotes ls a) (hp : ls.Perm ls') :
    Denotes ls' a := by
  obtain ⟨rs, hrs, ha⟩ := h
  obtain ⟨rs', hrs', hp'⟩ := List.perm_comp_forall₂ hp.symm hrs
  exact ⟨rs', hrs', ha.perm (hp'.symm.filterMap id)⟩

theorem line_iff_of_spaced {l l' content content' : List Char} {ws : List (List Char)}
    (hl : Uncommented l content) (hs : Spaced content ws) (hl' : Uncommented l' content')
    (hs' : Spaced content' ws) {r : Option (Wire × Residue p)} : Line l r ↔ Line l' r := by
  rw [← readEntry?_uncomment_eq_ok_iff, ← readEntry?_uncomment_eq_ok_iff, uncomment_eq_iff.2 hl,
    uncomment_eq_iff.2 hl', readEntry?, readEntry?, words_eq_iff.2 hs, words_eq_iff.2 hs']

theorem denotes_iff_of_relaid {ls ls' : List (List Char)} (h : Relaid ls ls') :
    Denotes ls a ↔ Denotes ls' a := by
  induction h with
  | perm hp => exact ⟨fun h => h.perm hp, fun h => h.perm hp.symm⟩
  | blank hl hb =>
    have hline : Line (p := p) _ none := .blank hl hb
    unfold Denotes
    rw [exists_forall₂_cons_iff hline fun _ => hline.unique]
    rfl
  | respace hl hs hl' hs' =>
    unfold Denotes
    simp only [List.forall₂_cons_left_iff, line_iff_of_spaced hl hs hl' hs']
  | symm _ ih => exact ih.symm
  | trans _ _ ih ih' => exact ih.trans ih'

/-! ## The first line that is refused -/

theorem enterLines_cons (line : Nat) (l : List Char) (ls : List (List Char)) (a : Assignment p) :
    enterLines line (l :: ls) a = enterLines line [l] a >>= enterLines (line + 1) ls := by
  simp only [enterLines]
  split
  · rfl
  · rfl
  · split <;> rfl

theorem enterLines_append (line : Nat) (ls ls' : List (List Char)) (a : Assignment p) :
    enterLines line (ls ++ ls') a = enterLines line ls a >>= enterLines (line + ls.length) ls' := by
  induction ls generalizing line a with
  | nil => rfl
  | cons l ls ih =>
    rw [List.cons_append, enterLines_cons, enterLines_cons line l ls, List.length_cons]
    cases enterLines line [l] a with
    | error fault => rfl
    | ok a₁ =>
      have hline : line + (ls.length + 1) = line + 1 + ls.length := by omega
      rw [hline]
      exact ih (line + 1) a₁

theorem exists_of_enterLines_singleton {line : Nat} {l : List Char} {fault : Fault}
    (h : enterLines line [l] a = .error fault) :
    ∃ content lineFault, fault = .parse line content lineFault := by
  simp only [enterLines] at h
  split at h
  · cases h
    exact ⟨_, _, rfl⟩
  · cases h
  · split at h
    · cases h
      exact ⟨_, _, rfl⟩
    · cases h

/-- The lines before the one that a fault names are entered, and with it they are not. -/
theorem exists_of_enterLines_error {line : Nat} {ls : List (List Char)} {fault : Fault}
    (h : enterLines line ls a = .error fault) :
    ∃ before l after content lineFault, ls = before ++ l :: after ∧
      fault = .parse (line + before.length) content lineFault ∧
      (∃ a', enterLines line before a = .ok a') ∧
        ∀ a', enterLines line (before ++ [l]) a ≠ .ok a' := by
  induction ls generalizing line a with
  | nil => cases h
  | cons l ls ih =>
    rw [enterLines_cons] at h
    rcases error_or_of_except_bind h with hl | ⟨a₁, hl, h⟩
    · obtain ⟨content, lineFault, rfl⟩ := exists_of_enterLines_singleton hl
      refine ⟨[], l, ls, content, lineFault, rfl, rfl, ⟨a, rfl⟩, fun a' h' => ?_⟩
      cases hl.symm.trans h'
    · obtain ⟨before, l', after, content, lineFault, rfl, rfl, ⟨a', hbefore⟩, hnot⟩ := ih h
      refine ⟨l :: before, l', after, content, lineFault, rfl, ?_, ⟨a', ?_⟩, fun b => ?_⟩
      · rw [List.length_cons, Nat.add_assoc, Nat.add_comm 1]
      · rw [enterLines_cons, hl]
        exact hbefore
      · rw [List.cons_append, enterLines_cons, hl]
        exact hnot b

theorem exists_denotes_take {ls : List (List Char)} (h : Denotes ls a) (k : Nat) :
    ∃ a' : Assignment p, Denotes (ls.take k) a' := by
  have hrun : enterLines 1 (ls.take k ++ ls.drop k) ∅ = .ok a := by
    rw [List.take_append_drop]
    exact enterLines_eq_ok_iff_denotes.2 h
  rw [enterLines_append] at hrun
  obtain ⟨a', hrun, -⟩ := exists_ok_of_except_bind hrun
  exact ⟨a', enterLines_eq_ok_iff_denotes.1 hrun⟩

theorem exists_isLeast_of_parse {text : String} {fault : Fault}
    (h : (parse text : Except Fault (Assignment p)) = .error fault) :
    ∃ line content lineFault, fault = .parse line content lineFault ∧
      IsLeast {k | ¬∃ a : Assignment p, Denotes ((text.toList.splitOn '\n').take k) a} line := by
  unfold parse at h
  rw [lines_eq_splitOn] at h
  obtain ⟨before, l, after, content, lineFault, hls, rfl, ⟨a, hbefore⟩, hnot⟩ :=
    exists_of_enterLines_error h
  refine ⟨_, content, lineFault, rfl, ?_, fun k hk => ?_⟩
  · rintro ⟨b, hb⟩
    have htake : (text.toList.splitOn '\n').take (1 + before.length) = before ++ [l] := by
      rw [hls, Nat.add_comm, List.take_length_add_append]
      rfl
    rw [htake] at hb
    exact hnot b (enterLines_eq_ok_iff_denotes.2 hb)
  · -- the lines before are accepted, hence also any number of the first of them
    by_contra hlt
    have htake : (text.toList.splitOn '\n').take k = before.take k := by
      rw [hls, List.take_append_of_le_length (by omega)]
    refine hk ?_
    rw [htake]
    exact exists_denotes_take (enterLines_eq_ok_iff_denotes.1 hbefore) k

theorem parse_eq_ok_iff_denotes {text : String} :
    parse text = .ok a ↔ Denotes (text.toList.splitOn '\n') a := by
  unfold parse
  rw [lines_eq_splitOn, enterLines_eq_ok_iff_denotes]

/-- A text is read exactly as the assignment that its lines give, every layout of the same entries
is read alike, and a text that is refused is refused at the first line up to which its lines give no
assignment. -/
theorem parse_denotes_in_any_layout (text : String) :
    (∀ a : Assignment p, parse text = .ok a ↔ Denotes (text.toList.splitOn '\n') a) ∧
    (∀ text' : String, Relaid (text.toList.splitOn '\n') (text'.toList.splitOn '\n') →
      ∀ a : Assignment p, parse text = .ok a ↔ parse text' = .ok a) ∧
    ∀ fault, (parse text : Except Fault (Assignment p)) = .error fault →
      ∃ line content lineFault, fault = .parse line content lineFault ∧
        IsLeast {k | ¬∃ a : Assignment p, Denotes ((text.toList.splitOn '\n').take k) a} line := by
  refine ⟨fun _ => parse_eq_ok_iff_denotes, fun text' h a => ?_, fun _ => exists_isLeast_of_parse⟩
  rw [parse_eq_ok_iff_denotes, parse_eq_ok_iff_denotes, denotes_iff_of_relaid h]

/-- Two entries in descending order, with a comment, a blank line and several kinds of blanks. -/
def spreadText : String := "+07 0XfF # seven\n\n\t1\u3000 2 \r\n"

def compactText : String := "1 2\n+07\u00A00XfF"

/-- One wire is spelled in two ways. -/
def clashText : String := "1 2\n01 3 # again\n4"

theorem splitOn_spreadText : spreadText.toList.splitOn '\n' =
    ["+07 0XfF # seven".toList, [], "\t1\u3000 2 \r".toList, []] := by decide +kernel

theorem relaid_spreadText :
    Relaid (spreadText.toList.splitOn '\n') (compactText.toList.splitOn '\n') := by
  have hcompact : compactText.toList.splitOn '\n' = ["1 2".toList, "+07\u00A00XfF".toList] := by
    decide +kernel
  have hblank : ∀ ls, Relaid ls ([] :: ls) :=
    fun ls => .blank ⟨List.not_mem_nil, .inl rfl⟩ (by simp [Blank])
  have hfront : Relaid ["+07 0XfF # seven".toList, [], "\t1\u3000 2 \r".toList, []]
      [[], [], "+07 0XfF # seven".toList, "\t1\u3000 2 \r".toList] := .perm (by decide)
  have hseven : Relaid ["+07 0XfF # seven".toList, "\t1\u3000 2 \r".toList]
      ["+07\u00A00XfF".toList, "\t1\u3000 2 \r".toList] := .of_words (by decide)
  have hone : Relaid ["\t1\u3000 2 \r".toList, "+07\u00A00XfF".toList]
      ["1 2".toList, "+07\u00A00XfF".toList] := .of_words (by decide)
  rw [splitOn_spreadText, hcompact]
  exact hfront.trans
    (((hblank _).trans (hblank _)).symm.trans (hseven.trans (.trans (.perm (.swap _ _ _)) hone)))

/-- The entries of both texts. -/
def spreadAssignment : Assignment scalarModulus :=
  (Std.ExtTreeMap.insert ∅ 7 (.ofNat 255)).insert 1 (.ofNat 2)

theorem denotes_spreadText : Denotes (spreadText.toList.splitOn '\n') spreadAssignment := by
  refine ⟨[some (7, .ofNat 255), none, some (1, .ofNat 2), none], ?_,
    (DeclaredBy.empty.insert (by simp)).insert (by simp)⟩
  simp only [splitOn_spreadText, List.forall₂_cons, ← readEntry?_uncomment_eq_ok_iff]
  exact ⟨rfl, rfl, rfl, rfl, .nil⟩

theorem parse_spreadText :
    (parse spreadText = .ok spreadAssignment ∧ parse compactText = .ok spreadAssignment) ∧
    IsLeast {k | ¬∃ a : Assignment scalarModulus,
      Denotes ((clashText.toList.splitOn '\n').take k) a} 2 := by
  constructor
  · have hspread :=
      ((parse_denotes_in_any_layout spreadText).1 spreadAssignment).2 denotes_spreadText
    exact ⟨hspread,
      ((parse_denotes_in_any_layout spreadText).2.1 compactText relaid_spreadText _).1 hspread⟩
  · have hclash : (parse clashText : Except Fault (Assignment scalarModulus)) =
        .error (.parse 2 "01 3" (.duplicateAssignment 1)) := by decide +kernel
    obtain ⟨line, _, _, he, hleast⟩ := (parse_denotes_in_any_layout clashText).2.2 _ hclash
    cases he
    exact hleast

end FieldCircuit.Assignment
