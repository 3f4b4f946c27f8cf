import FieldCircuit.Circuit.Statement
import FieldCircuit.Proofs.Computation
import FieldCircuit.Proofs.Text
import Mathlib.Data.Nat.Digits.Defs

/-!
# Spellings

What the readers of texts accept, said without the readers: the parts that cutting and trimming
give, and which characters write a number. Each notion is followed by the lemma that its reader
decides it.
-/

namespace FieldCircuit.Text

/-! ## Blanks -/

def Blank (cs : List Char) : Prop := ∀ c ∈ cs, isBlank c = true

/-- What keeps words apart. -/
def Gap (cs : List Char) : Prop := cs ≠ [] ∧ Blank cs

/-- The text does not start with a blank. -/
def StartsSolid (cs : List Char) : Prop := ∀ c ∈ cs.head?, isBlank c = false

/-- The text without the blanks around it. -/
def Trimmed (cs body : List Char) : Prop :=
  StartsSolid body ∧ StartsSolid body.reverse ∧
    ∃ lead trail, Blank lead ∧ Blank trail ∧ cs = lead ++ body ++ trail

/-- The text before its comment, which starts at the first `#`. -/
def Uncommented (line content : List Char) : Prop :=
  '#' ∉ content ∧ (line = content ∨ ∃ comment, line = content ++ '#' :: comment)

theorem Blank.reverse {cs : List Char} (h : Blank cs) : Blank cs.reverse :=
  fun c hc => h c (List.mem_reverse.1 hc)

theorem Blank.not_mem {cs : List Char} (h : Blank cs) {c : Char} (hc : isBlank c = false) :
    c ∉ cs :=
  fun hm => by simp [h c hm] at hc

theorem trimStart_append {lead : List Char} (h : Blank lead) (cs : List Char) :
    trimStart (lead ++ cs) = trimStart cs :=
  List.dropWhile_append_of_pos h

theorem trimStart_of_startsSolid {cs : List Char} (h : StartsSolid cs) : trimStart cs = cs := by
  cases cs with
  | nil => rfl
  | cons c cs =>
    have hc : isBlank c = false := h c rfl
    simp [trimStart, hc]

theorem StartsSolid.of_append {cs ds : List Char} (h : StartsSolid (cs ++ ds)) :
    StartsSolid cs := by
  cases cs with
  | nil => exact fun c hc => by cases hc
  | cons c cs => exact h

theorem Blank.eq_nil {cs tail : List Char} (hb : Blank tail)
    (h : StartsSolid (cs ++ tail).reverse) :
    tail = [] := by
  rw [← List.reverse_eq_nil_iff]
  cases htail : tail.reverse with
  | nil => rfl
  | cons c front =>
    rw [List.reverse_append, htail] at h
    have hc : isBlank c = true := hb.reverse c (by simp [htail])
    exact absurd (h c rfl) (by simp [hc])

theorem exists_trimStart (cs : List Char) :
    StartsSolid (trimStart cs) ∧ ∃ lead, Blank lead ∧ cs = lead ++ trimStart cs := by
  refine ⟨?_, cs.takeWhile isBlank, fun c hc => List.mem_takeWhile_imp hc, ?_⟩
  · intro c hc
    have := List.head?_dropWhile_not isBlank cs
    rw [show cs.dropWhile isBlank = trimStart cs from rfl, hc] at this
    simpa using this
  · exact List.takeWhile_append_dropWhile.symm

theorem trimEnd_eq (cs : List Char) : trimEnd cs = (trimStart cs.reverse).reverse := rfl

theorem trim_eq_iff {cs body : List Char} : trim cs = body ↔ Trimmed cs body := by
  constructor
  · rintro rfl
    obtain ⟨hs, lead, hlead, hcs⟩ := exists_trimStart cs
    obtain ⟨he, trail, htrail, hts⟩ := exists_trimStart (trimStart cs).reverse
    have hsplit : trimStart cs = trim cs ++ trail.reverse := by
      rw [trim, trimEnd_eq, ← List.reverse_append, ← hts, List.reverse_reverse]
    refine ⟨?_, ?_, lead, trail.reverse, hlead, htrail.reverse, ?_⟩
    · rw [hsplit] at hs
      exact hs.of_append
    · rw [trim, trimEnd_eq, List.reverse_reverse]
      exact he
    · rw [List.append_assoc, ← hsplit]
      exact hcs
  · rintro ⟨hs, he, lead, trail, hlead, htrail, rfl⟩
    rw [trim, List.append_assoc, trimStart_append hlead]
    cases body with
    | nil =>
      have hnil : trimStart trail = [] := by
        have := trimStart_append htrail []
        rwa [List.append_nil] at this
      rw [List.nil_append, hnil]
      rfl
    | cons c cs =>
      have hc : StartsSolid (c :: cs ++ trail) := hs
      rw [trimStart_of_startsSolid hc, trimEnd_eq, List.reverse_append,
        trimStart_append htrail.reverse, trimStart_of_startsSolid he, List.reverse_reverse]

theorem uncomment_eq_iff {line content : List Char} :
    uncomment line = content ↔ Uncommented line content := by
  have hplain : ∀ {cs : List Char}, '#' ∉ cs → ∀ c ∈ cs, (c != '#') = true := by
    intro cs hcs c hc
    exact bne_iff_ne.2 fun he => hcs (he ▸ hc)
  unfold uncomment
  constructor
  · rintro rfl
    refine ⟨fun h => absurd (List.mem_takeWhile_imp h) (by decide), ?_⟩
    have hline := List.takeWhile_append_dropWhile (p := (· != '#')) (l := line)
    cases hd : line.dropWhile (· != '#') with
    | nil =>
      rw [hd, List.append_nil] at hline
      exact .inl hline.symm
    | cons c comment =>
      have hc := List.head?_dropWhile_not (· != '#') line
      rw [hd] at hc hline
      obtain rfl : c = '#' := by simpa using hc
      exact .inr ⟨comment, hline.symm⟩
  · rintro ⟨hc, rfl | ⟨comment, rfl⟩⟩
    · exact List.takeWhile_eq_self_iff.2 (hplain hc)
    · rw [List.takeWhile_append_of_pos (hplain hc)]
      simp

theorem cut?_eq_some_iff {p : Char → Bool} {cs l r : List Char} :
    cut? p cs = some (l, r) ↔ (∀ c ∈ l, p c = false) ∧ ∃ c, p c = true ∧ cs = l ++ c :: r := by
  induction cs generalizing l with
  | nil => simp [cut?]
  | cons d cs ih =>
    simp only [cut?]
    by_cases hd : p d = true
    · rw [if_pos hd]
      constructor
      · intro h
        cases h
        exact ⟨by simp, d, hd, rfl⟩
      · rintro ⟨hl, c, hc, he⟩
        cases l with
        | nil =>
          cases he
          rfl
        | cons e l =>
          cases he
          have hpd : p d = false := hl d List.mem_cons_self
          exact absurd hd (by simp [hpd])
    · rw [if_neg hd, Option.map_eq_some_iff]
      constructor
      · rintro ⟨⟨l', r'⟩, h, he⟩
        cases he
        obtain ⟨hl, c, hc, rfl⟩ := ih.1 h
        refine ⟨fun e he => ?_, c, hc, rfl⟩
        rcases List.mem_cons.1 he with rfl | he
        · simpa using hd
        · exact hl e he
      · rintro ⟨hl, c, hc, he⟩
        cases l with
        | nil =>
          cases he
          exact absurd hc hd
        | cons e l =>
          cases he
          exact ⟨(l, r), ih.2 ⟨fun e he => hl e (List.mem_cons_of_mem d he), c, hc, rfl⟩, rfl⟩

theorem cut?_char_eq_some_iff {sep : Char} {cs l r : List Char} :
    cut? (· == sep) cs = some (l, r) ↔ sep ∉ l ∧ cs = l ++ sep :: r := by
  rw [cut?_eq_some_iff]
  simp only [beq_eq_false_iff_ne, beq_iff_eq, exists_eq_left]
  refine and_congr_left fun _ => ⟨fun h hs => h sep hs rfl, fun h c hc he => h (he ▸ hc)⟩

theorem lines_eq_splitOn (cs : List Char) : lines cs = cs.splitOn '\n' := by
  unfold lines
  rw [List.splitOn_eq_splitOnP]
  induction cs with
  | nil => rfl
  | cons c cs ih =>
    rw [List.splitOnP_cons_eq_if_modifyHead, pieces, ih]
    split
    · rfl
    · split
      · next hnil => exact absurd hnil (List.splitOnP_ne_nil _ cs)
      · next hcons => rw [hcons, List.modifyHead_cons]

/-! ## Words -/

/-- The text ends or a blank follows. -/
def StartsBlank (cs : List Char) : Prop := ∀ c ∈ cs.head?, isBlank c = true

/-- A word: not empty and without blanks. -/
def Solid (cs : List Char) : Prop := cs ≠ [] ∧ ∀ c ∈ cs, isBlank c = false

instance (cs : List Char) : Decidable (Solid cs) :=
  decidable_of_iff ((!cs.isEmpty && cs.all (!isBlank ·)) = true) (by simp [Solid])

theorem Solid.append {cs ds : List Char} (hc : Solid cs) (hd : Solid ds) : Solid (cs ++ ds) :=
  ⟨by simp [hc.1], List.forall_mem_append.2 ⟨hc.2, hd.2⟩⟩

theorem Solid.startsSolid {cs : List Char} (h : Solid cs) (ds : List Char) :
    StartsSolid (cs ++ ds) := by
  cases cs with
  | nil => exact absurd rfl h.1
  | cons c cs =>
    rintro d ⟨⟩
    exact h.2 c List.mem_cons_self

theorem Solid.endsSolid {cs : List Char} (h : Solid cs) (ds : List Char) :
    StartsSolid (ds ++ cs).reverse := by
  rw [List.reverse_append]
  exact startsSolid ⟨by simpa using h.1, fun c hc => h.2 c (List.mem_reverse.1 hc)⟩ _

theorem Solid.trimmed {lead word trail : List Char} (hlead : Blank lead) (h : Solid word)
    (htrail : Blank trail) : Trimmed (lead ++ word ++ trail) word :=
  ⟨by simpa using h.startsSolid [], h.endsSolid [], lead, trail, hlead, htrail, rfl⟩

theorem Gap.any_head? {gap : List Char} (h : Gap gap) (cs : List Char) :
    (gap ++ cs).head?.any isBlank = true := by
  obtain ⟨hne, hb⟩ := h
  cases gap with
  | nil => exact absurd rfl hne
  | cons c gap => exact hb c List.mem_cons_self

theorem gap_of_any_head? {lead cs : List Char} (hb : Blank lead) (hs : StartsSolid cs)
    (h : (lead ++ cs).head?.any isBlank = true) : Gap lead := by
  refine ⟨?_, hb⟩
  rintro rfl
  cases cs with
  | nil => cases h
  | cons c cs =>
    have hc : isBlank c = false := hs c rfl
    simp [hc] at h

theorem words_append_of_blank {lead : List Char} (h : Blank lead) (cs : List Char) :
    words (lead ++ cs) = words cs := by
  induction lead with
  | nil => rfl
  | cons c lead ih =>
    have hc : isBlank c = true := h c List.mem_cons_self
    have hlead := ih fun d hd => h d (List.mem_cons_of_mem c hd)
    unfold words at hlead ⊢
    simp [pieces, hc, hlead]

theorem words_of_blank {cs : List Char} (h : Blank cs) : words cs = [] := by
  have := words_append_of_blank h []
  rwa [List.append_nil] at this

theorem words_append {word : List Char} (hw : Solid word) {rest : List Char}
    (hr : StartsBlank rest) :
    words (word ++ rest) = word :: words rest := by
  unfold words
  cases rest with
  | nil =>
    rw [List.append_nil, pieces_of_forall hw.2]
    simp [pieces, hw.1]
  | cons c rest =>
    have hc : isBlank c = true := hr c rfl
    rw [pieces_append hw.2 hc]
    simp [pieces, hc, hw.1]

/-- A text is blank, or its first word can be told from the rest. -/
theorem blank_or_exists_word (cs : List Char) :
    Blank cs ∨ ∃ lead word rest, Blank lead ∧ Solid word ∧ StartsBlank rest ∧
      cs = lead ++ word ++ rest := by
  obtain ⟨hs, lead, hlead, hcs⟩ := exists_trimStart cs
  cases hb : trimStart cs with
  | nil =>
    rw [hb, List.append_nil] at hcs
    exact .inl (hcs ▸ hlead)
  | cons c body =>
    rw [hb] at hs hcs
    have hc : isBlank c = false := hs c rfl
    refine .inr ⟨lead, (c :: body).takeWhile (!isBlank ·), (c :: body).dropWhile (!isBlank ·),
      hlead, ⟨?_, ?_⟩, ?_, ?_⟩
    · simp [hc]
    · intro d hd
      simpa using List.mem_takeWhile_imp hd
    · intro d hd
      have := List.head?_dropWhile_not (!isBlank ·) (c :: body)
      rw [hd] at this
      simpa using this
    · rw [List.append_assoc, List.takeWhile_append_dropWhile]
      exact hcs

/-- The words of a text, with blanks around and between them. -/
inductive Spaced : List Char → List (List Char) → Prop where
  | nil {cs : List Char} : Blank cs → Spaced cs []
  | cons {lead word rest : List Char} {ws : List (List Char)} :
      Blank lead → Solid word → StartsBlank rest → Spaced rest ws →
        Spaced (lead ++ word ++ rest) (word :: ws)

theorem spaced_nil_iff {cs : List Char} : Spaced cs [] ↔ Blank cs := by
  refine ⟨fun h => ?_, .nil⟩
  cases h with
  | nil hb => exact hb

theorem words_eq_iff {cs : List Char} {ws : List (List Char)} : words cs = ws ↔ Spaced cs ws := by
  constructor
  · intro h
    induction ws generalizing cs with
    | nil =>
      rcases blank_or_exists_word cs with hb | ⟨lead, word, rest, hlead, hw, hr, rfl⟩
      · exact .nil hb
      · rw [List.append_assoc, words_append_of_blank hlead, words_append hw hr] at h
        cases h
    | cons w ws ih =>
      rcases blank_or_exists_word cs with hb | ⟨lead, word, rest, hlead, hw, hr, rfl⟩
      · rw [words_of_blank hb] at h
        cases h
      · rw [List.append_assoc, words_append_of_blank hlead, words_append hw hr] at h
        obtain ⟨rfl, hrest⟩ := List.cons.inj h
        exact .cons hlead hw hr (ih hrest)
  · intro h
    induction h with
    | nil hb => exact words_of_blank hb
    | cons hlead hw hr _ ih =>
      rw [List.append_assoc, words_append_of_blank hlead, words_append hw hr, ih]

/-! ## Numerals -/

/-- The digit of value `d`, a letter in either case. -/
def IsDigit (base : Nat) (c : Char) (d : Nat) : Prop :=
  d < base ∧ (c = d.digitChar ∨ c = d.digitChar.toUpper)

/-- At least one digit, the most significant first, of positional value `n`. -/
def Numeral (base : Nat) (cs : List Char) (n : Nat) : Prop :=
  cs ≠ [] ∧ ∃ ds, List.Forall₂ (IsDigit base) cs ds ∧ Nat.ofDigits base ds.reverse = n

/-- A decimal numeral of a word, behind an optional `+`. -/
def IsWord (cs : List Char) (w : UInt64) : Prop :=
  ∃ ds, (cs = ds ∨ cs = '+' :: ds) ∧ Numeral 10 ds w.toNat

/-- A hexadecimal numeral behind an optional `0x` or `0X`. -/
def IsHex (cs : List Char) (n : Nat) : Prop :=
  ∃ ds, (cs = ds ∨ cs = '0' :: 'x' :: ds ∨ cs = '0' :: 'X' :: ds) ∧ Numeral 16 ds n

theorem digitValue?_eq_some_iff {c : Char} {d : Nat} : digitValue? c = some d ↔ IsDigit 16 c d := by
  constructor
  · intro h
    have hascii : ∀ n : Fin 128, ∀ d ∈ digitValue? (Char.ofNat n),
        d < 16 ∧ (Char.ofNat n = d.digitChar ∨ Char.ofNat n = d.digitChar.toUpper) := by decide
    have hlt : c.toNat < 128 := by
      unfold digitValue? at h
      by_contra hn
      have hle : ∀ hi : Char, hi.toNat < 128 → ¬c ≤ hi := fun hi h hc => by
        have : c.toNat ≤ hi.toNat := hc
        omega
      rw [if_neg fun h => hle '9' (by decide) h.2, if_neg fun h => hle 'f' (by decide) h.2,
        if_neg fun h => hle 'F' (by decide) h.2] at h
      cases h
    have := hascii ⟨c.toNat, hlt⟩ d
    rw [Char.ofNat_toNat] at this
    exact this h
  · have hall : ∀ d : Fin 16, digitValue? (Nat.digitChar d).toUpper = some d.val := by decide
    rintro ⟨hd, rfl | rfl⟩
    · exact digitValue?_digitChar hd
    · exact hall ⟨d, hd⟩

theorem digits?_eq_some_iff {base : Nat} (hb : base ≤ 16) {acc n : Nat} {cs : List Char} :
    digits? base acc cs = some n ↔
      ∃ ds, List.Forall₂ (IsDigit base) cs ds ∧ ds.foldl (fun acc d => base * acc + d) acc = n := by
  induction cs generalizing acc with
  | nil => simp [digits?, List.forall₂_nil_left_iff]
  | cons c cs ih =>
    have hdigit : ∀ d, IsDigit base c d ↔ digitValue? c = some d ∧ d < base := by
      intro d
      rw [digitValue?_eq_some_iff]
      exact ⟨fun h => ⟨⟨by have := h.1; omega, h.2⟩, h.1⟩, fun h => ⟨h.2, h.1.2⟩⟩
    simp only [List.forall₂_cons_left_iff, hdigit]
    cases hc : digitValue? c with
    | none => simp [digits?, hc]
    | some d =>
      simp only [digits?, hc]
      by_cases hd : d < base
      · rw [if_pos hd, ih]
        constructor
        · rintro ⟨ds, hds, rfl⟩
          exact ⟨d :: ds, ⟨d, ds, ⟨rfl, hd⟩, hds, rfl⟩, rfl⟩
        · rintro ⟨_, ⟨d', ds, ⟨he, -⟩, hds, rfl⟩, rfl⟩
          cases he
          exact ⟨ds, hds, rfl⟩
      · rw [if_neg hd]
        refine ⟨fun h => (by cases h), ?_⟩
        rintro ⟨_, ⟨d', ds, ⟨he, hlt⟩, -⟩, -⟩
        cases he
        exact absurd hlt hd

theorem natural?_eq_some_iff {base : Nat} (hb : base ≤ 16) {n : Nat} {cs : List Char} :
    natural? base cs = some n ↔ Numeral base cs n := by
  have hvalue : ∀ ds : List Nat,
      Nat.ofDigits base ds.reverse = ds.foldl (fun acc d => base * acc + d) 0 := by
    intro ds
    rw [Nat.ofDigits_eq_foldr, List.foldr_reverse]
    simp only [Nat.cast_id, Nat.add_comm]
  unfold Numeral
  cases cs with
  | nil => simp [natural?]
  | cons c cs =>
    rw [natural?, digits?_eq_some_iff hb]
    simp only [hvalue, ne_eq, reduceCtorEq, not_false_eq_true, true_and]
    simp

/-- What holds of every digit holds of the characters of a numeral. -/
theorem Numeral.of_mem {base : Nat} {cs : List Char} {n : Nat} (h : Numeral base cs n)
    {P : Char → Prop} (hP : ∀ d : Fin base, P (Nat.digitChar d) ∧ P (Nat.digitChar d).toUpper) :
    ∀ c ∈ cs, P c := by
  intro c hc
  obtain ⟨-, ds, hds, -⟩ := h
  obtain ⟨d, -, hd, rfl | rfl⟩ := exists_of_mem_left hds hc
  · exact (hP ⟨d, hd⟩).1
  · exact (hP ⟨d, hd⟩).2

theorem isWord_iff {cs : List Char} {w : UInt64} :
    IsWord cs w ↔ Numeral 10 (unsigned cs) w.toNat := by
  unfold IsWord
  fun_cases unsigned cs with
  | case1 ds =>
    refine ⟨?_, fun h => ⟨ds, .inr rfl, h⟩⟩
    rintro ⟨es, rfl | he, hn⟩
    · exact absurd rfl (hn.of_mem (P := (· ≠ '+')) (by decide) '+' List.mem_cons_self)
    · cases he
      exact hn
  | case2 _ hplus =>
    refine ⟨?_, fun h => ⟨cs, .inl rfl, h⟩⟩
    rintro ⟨es, rfl | rfl, hn⟩
    · exact hn
    · exact absurd rfl (hplus es)

theorem word?_eq_some_iff {cs : List Char} {w : UInt64} : word? cs = some w ↔ IsWord cs w := by
  have hw := w.toNat_lt
  rw [isWord_iff, ← natural?_eq_some_iff (by decide)]
  fun_cases word? cs with
  | case1 n hn hlt =>
    rw [hn, Option.some.injEq, Option.some.injEq, ← UInt64.toNat_inj, UInt64.toNat_ofNat',
      Nat.mod_eq_of_lt hlt]
  | case2 n hn hlt =>
    have hsize : UInt64.size = 2 ^ 64 := rfl
    rw [hn, Option.some.injEq]
    refine ⟨fun h => (by cases h), fun h => ?_⟩
    omega
  | case3 hn => simp [hn]

theorem hex?_eq_some_iff {cs : List Char} {n : Nat} : hex? cs = some n ↔ IsHex cs n := by
  unfold IsHex
  fun_cases hex? cs with
  | case1 ds =>
    rw [natural?_eq_some_iff (by decide)]
    refine ⟨fun h => ⟨ds, .inr (.inl rfl), h⟩, ?_⟩
    rintro ⟨es, rfl | he | he, hn⟩
    · exact absurd rfl (hn.of_mem (P := (· ≠ 'x')) (by decide) 'x' (by simp))
    · cases he
      exact hn
    · cases he
  | case2 ds =>
    rw [natural?_eq_some_iff (by decide)]
    refine ⟨fun h => ⟨ds, .inr (.inr rfl), h⟩, ?_⟩
    rintro ⟨es, rfl | he | he, hn⟩
    · exact absurd rfl (hn.of_mem (P := (· ≠ 'X')) (by decide) 'X' (by simp))
    · cases he
    · cases he
      exact hn
  | case3 _ h1 h2 =>
    rw [natural?_eq_some_iff (by decide)]
    refine ⟨fun h => ⟨cs, .inl rfl, h⟩, ?_⟩
    rintro ⟨es, rfl | rfl | rfl, hn⟩
    · exact hn
    · exact absurd rfl (h1 es)
    · exact absurd rfl (h2 es)

theorem IsWord.of_mem {cs : List Char} {w : UInt64} (h : IsWord cs w) {P : Char → Prop}
    (hplus : P '+') (hP : ∀ d : Fin 10, P (Nat.digitChar d) ∧ P (Nat.digitChar d).toUpper) :
    ∀ c ∈ cs, P c := by
  obtain ⟨ds, rfl | rfl, hn⟩ := h
  · exact hn.of_mem hP
  · exact List.forall_mem_cons.2 ⟨hplus, hn.of_mem hP⟩

theorem IsWord.not_mem {cs : List Char} {w : UInt64} (h : IsWord cs w) {c : Char} (hplus : '+' ≠ c)
    (hc : ∀ d : Fin 10, Nat.digitChar d ≠ c ∧ (Nat.digitChar d).toUpper ≠ c) : c ∉ cs :=
  fun hm => h.of_mem (P := (· ≠ c)) hplus hc c hm rfl

theorem IsWord.solid {cs : List Char} {w : UInt64} (h : IsWord cs w) : Solid cs := by
  refine ⟨?_, h.of_mem (by decide) (by decide)⟩
  obtain ⟨ds, rfl | rfl, hn⟩ := h
  · exact hn.1
  · simp

theorem IsHex.of_mem {cs : List Char} {n : Nat} (h : IsHex cs n) {P : Char → Prop}
    (hx : P 'x' ∧ P 'X') (hP : ∀ d : Fin 16, P (Nat.digitChar d) ∧ P (Nat.digitChar d).toUpper) :
    ∀ c ∈ cs, P c := by
  have hzero : P '0' := (hP 0).1
  obtain ⟨ds, rfl | rfl | rfl, hn⟩ := h
  · exact hn.of_mem hP
  · simp only [List.forall_mem_cons]
    exact ⟨hzero, hx.1, hn.of_mem hP⟩
  · simp only [List.forall_mem_cons]
    exact ⟨hzero, hx.2, hn.of_mem hP⟩

theorem IsHex.solid {cs : List Char} {n : Nat} (h : IsHex cs n) : Solid cs := by
  refine ⟨?_, h.of_mem (by decide) (by decide)⟩
  obtain ⟨ds, rfl | rfl | rfl, hn⟩ := h
  · exact hn.1
  · simp
  · simp

end FieldCircuit.Text

namespace FieldCircuit

open Text

theorem readWord_eq_ok_iff {cs : List Char} {w : UInt64} : readWord cs = .ok w ↔ IsWord cs w := by
  rw [← word?_eq_some_iff]
  constructor
  · intro h
    unfold readWord at h
    split at h
    · cases h
    · split at h
      · next hw =>
        cases h
        exact hw
      · cases h
  · intro h
    obtain ⟨hne, hsolid⟩ := (word?_eq_some_iff.1 h).solid
    have hempty : cs.isEmpty = false := by simpa using hne
    have hblank : cs.any isBlank = false := List.any_eq_false.2 fun c hc => by simp [hsolid c hc]
    unfold readWord
    rw [hempty, hblank, h]
    rfl

end FieldCircuit
