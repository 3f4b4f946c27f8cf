import FieldCircuit.Text.Numeral
import FieldCircuit.Text.Split
import Mathlib.Data.List.TakeWhile

/-!
# Reading back what was written

Numerals are read back as the numbers they write, a text of lines splits into these lines, and a
line of plain words into these words.
-/

namespace FieldCircuit.Text

/-! ## Numerals -/

theorem digitValue?_digitChar {d : Nat} (h : d < 16) : digitValue? (Nat.digitChar d) = some d := by
  have hall : ∀ d : Fin 16, digitValue? (Nat.digitChar d) = some d.val := by decide
  exact hall ⟨d, h⟩

theorem digits?_append (base acc : Nat) (cs ds : List Char) :
    digits? base acc (cs ++ ds) = (digits? base acc cs).bind fun n => digits? base n ds := by
  induction cs generalizing acc with
  | nil => rfl
  | cons c cs ih =>
    simp only [List.cons_append, digits?]
    cases digitValue? c with
    | none => rfl
    | some d =>
      by_cases hd : d < base
      · simp only [hd, if_true, ih]
      · simp only [hd, if_false, Option.bind_none]

theorem digits?_toDigits {base : Nat} (h1 : 1 < base) (h16 : base ≤ 16) (n : Nat) :
    digits? base 0 (Nat.toDigits base n) = some n := by
  have hdigit : ∀ acc d, d < base → digits? base acc [Nat.digitChar d] = some (base * acc + d) := by
    intro acc d hd
    simp only [digits?, digitValue?_digitChar (Nat.lt_of_lt_of_le hd h16), if_pos hd]
  induction n using Nat.strongRecOn with
  | _ n ih =>
    by_cases hn : n < base
    · rw [Nat.toDigits_of_lt_base hn, hdigit 0 n hn]
      simp
    · have hn : base ≤ n := by omega
      have hlt : n / base < n := Nat.div_lt_self (by omega) h1
      rw [Nat.toDigits_of_base_le h1 hn, digits?_append, ih _ hlt, Option.bind_some,
        hdigit _ _ (Nat.mod_lt n (by omega)), Nat.div_add_mod]

theorem natural?_toDigits {base : Nat} (h1 : 1 < base) (h16 : base ≤ 16) (n : Nat) :
    natural? base (Nat.toDigits base n) = some n := by
  have hdigits := digits?_toDigits h1 h16 n
  cases h : Nat.toDigits base n with
  | nil => exact absurd h Nat.toDigits_ne_nil
  | cons c cs =>
    rw [h] at hdigits
    exact hdigits

theorem toList_word (w : UInt64) : (toString w).toList = Nat.toDigits 10 w.toNat := Nat.toList_repr

theorem toList_hex (n : Nat) : (hex n).toList = '0' :: 'x' :: Nat.toDigits 16 n := by
  unfold hex hexDigits
  rw [String.toList_append, String.toList_ofList (l := Nat.toDigits 16 n)]
  rfl

theorem unsigned_toDigits (n : Nat) : unsigned (Nat.toDigits 10 n) = Nat.toDigits 10 n := by
  unfold unsigned
  split
  · next ds hd =>
    have hplus : Char.isDigit '+' := by
      refine Nat.isDigit_of_mem_toDigits (b := 10) (n := n) (by decide) (by decide) ?_
      rw [hd]
      exact List.mem_cons_self
    exact absurd hplus (by decide)
  · rfl

theorem word?_toString (w : UInt64) : word? (toString w).toList = some w := by
  have hnat : natural? 10 (Nat.toDigits 10 w.toNat) = some w.toNat :=
    natural?_toDigits (by decide) (by decide) w.toNat
  have hlt : w.toNat < UInt64.size := w.toNat_lt
  rw [toList_word, word?, unsigned_toDigits, hnat]
  simp only [hlt, if_true, Nat.toUInt64_eq, UInt64.ofNat_toNat]

theorem hex?_hex (n : Nat) : hex? (hex n).toList = some n := by
  rw [toList_hex]
  exact natural?_toDigits (by decide) (by decide) n

/-! ## Lines -/

theorem pieces_of_forall {p : Char → Bool} {cs : List Char} (h : ∀ c ∈ cs, p c = false) :
    pieces p cs = [cs] := by
  induction cs with
  | nil => rfl
  | cons c cs ih =>
    have hc : p c = false := h c List.mem_cons_self
    have hcs : pieces p cs = [cs] := ih fun d hd => h d (List.mem_cons_of_mem c hd)
    simp [pieces, hc, hcs]

theorem pieces_ne_nil (p : Char → Bool) (cs : List Char) : pieces p cs ≠ [] := by
  cases cs with
  | nil => simp [pieces]
  | cons c cs =>
    unfold pieces
    split
    · simp
    · split <;> simp

theorem eq_nil_of_pieces {p : Char → Bool} {cs : List Char} (h : pieces p cs = [[]]) : cs = [] := by
  cases cs with
  | nil => rfl
  | cons c cs =>
    unfold pieces at h
    split at h
    · exact absurd (List.cons.inj h).2 (pieces_ne_nil p cs)
    · split at h <;> simp at h

/-- A separator parts the pieces before it from those behind it. -/
theorem pieces_append_of_sep {p : Char → Bool} {sep : Char} (hsep : p sep = true)
    (cs ds : List Char) :
    pieces p (cs ++ sep :: ds) = pieces p cs ++ pieces p ds := by
  induction cs with
  | nil => simp [pieces, hsep]
  | cons c cs ih =>
    by_cases hc : p c = true
    · simp [pieces, hc, ih]
    · cases hcs : pieces p cs with
      | nil => exact absurd hcs (pieces_ne_nil p cs)
      | cons w ws => simp [pieces, hc, ih, hcs]

theorem pieces_append {p : Char → Bool} {cs : List Char} (h : ∀ c ∈ cs, p c = false) {sep : Char}
    (hsep : p sep = true) (ds : List Char) : pieces p (cs ++ sep :: ds) = cs :: pieces p ds := by
  rw [pieces_append_of_sep hsep, pieces_of_forall h, List.singleton_append]

theorem lines_flatMap {ls : List (List Char)} (h : ∀ l ∈ ls, '\n' ∉ l) :
    lines (ls.flatMap (· ++ ['\n'])) = ls ++ [[]] := by
  induction ls with
  | nil => rfl
  | cons l ls ih =>
    have hl : ∀ c ∈ l, (c == '\n') = false := by
      intro c hc
      exact beq_false_of_ne fun he => h l List.mem_cons_self (he ▸ hc)
    have hls := ih fun l' hl' => h l' (List.mem_cons_of_mem l hl')
    unfold lines at hls ⊢
    rw [List.flatMap_cons, List.append_assoc, List.singleton_append, pieces_append hl (by rfl), hls]
    rfl

/-! ## Words -/

/-- A word that a line shows as it is: without blank and without the mark of a comment. -/
def Plain (cs : List Char) : Prop := cs ≠ [] ∧ ∀ c ∈ cs, isBlank c = false ∧ c ≠ '#'

instance (cs : List Char) : Decidable (Plain cs) :=
  decidable_of_iff ((!cs.isEmpty && cs.all fun c => !isBlank c && c != '#') = true)
    (by simp [Plain])

/-- Words with a space between them. -/
def unwords (ws : List (List Char)) : List Char := [' '].intercalate ws

theorem words_unwords {ws : List (List Char)} (h : ∀ w ∈ ws, Plain w) :
    words (unwords ws) = ws := by
  induction ws with
  | nil => rfl
  | cons w ws ih =>
    have hw : ∀ c ∈ w, isBlank c = false := fun c hc => ((h w List.mem_cons_self).2 c hc).1
    have hne : w ≠ [] := (h w List.mem_cons_self).1
    have hws := ih fun v hv => h v (List.mem_cons_of_mem w hv)
    unfold words unwords at hws ⊢
    cases ws with
    | nil =>
      rw [List.intercalate_singleton, pieces_of_forall hw]
      simp [hne]
    | cons v vs =>
      rw [List.intercalate_cons_cons, List.append_assoc, List.singleton_append,
        pieces_append hw (by decide)]
      simp [hne, hws]

theorem mem_unwords {c : Char} {ws : List (List Char)} (h : c ∈ unwords ws) :
    c = ' ' ∨ ∃ w ∈ ws, c ∈ w := by
  unfold unwords at h
  induction ws with
  | nil => cases h
  | cons w ws ih =>
    cases ws with
    | nil =>
      rw [List.intercalate_singleton] at h
      exact .inr ⟨w, List.mem_cons_self, h⟩
    | cons v vs =>
      rw [List.intercalate_cons_cons, List.append_assoc, List.singleton_append] at h
      rcases List.mem_append.1 h with h | h
      · exact .inr ⟨w, List.mem_cons_self, h⟩
      · rcases List.mem_cons.1 h with rfl | h
        · exact .inl rfl
        · rcases ih h with h | ⟨u, hu, hc⟩
          · exact .inl h
          · exact .inr ⟨u, List.mem_cons_of_mem w hu, hc⟩

theorem newline_not_mem_unwords {ws : List (List Char)} (h : ∀ w ∈ ws, Plain w) :
    '\n' ∉ unwords ws := by
  intro hc
  rcases mem_unwords hc with hs | ⟨w, hw, hc⟩
  · exact absurd hs (by decide)
  · exact absurd ((h w hw).2 _ hc).1 (by decide)

theorem uncomment_unwords {ws : List (List Char)} (h : ∀ w ∈ ws, Plain w) :
    uncomment (unwords ws) = unwords ws := by
  unfold uncomment
  rw [List.takeWhile_eq_self_iff]
  intro c hc
  rcases mem_unwords hc with rfl | ⟨w, hw, hc⟩
  · rfl
  · simpa using ((h w hw).2 c hc).2

theorem exists_digit_of_mem_toDigits {base n : Nat} (h1 : 1 < base) {c : Char}
    (h : c ∈ Nat.toDigits base n) : ∃ d, d < base ∧ c = Nat.digitChar d := by
  induction n using Nat.strongRecOn with
  | _ n ih =>
    by_cases hn : n < base
    · rw [Nat.toDigits_of_lt_base hn, List.mem_singleton] at h
      exact ⟨n, hn, h⟩
    · have hn : base ≤ n := by omega
      rw [Nat.toDigits_of_base_le h1 hn] at h
      rcases List.mem_append.1 h with h | h
      · exact ih (n / base) (Nat.div_lt_self (by omega) h1) h
      · exact ⟨n % base, Nat.mod_lt n (by omega), List.mem_singleton.1 h⟩

theorem plain_toDigits {base : Nat} (h1 : 1 < base) (h16 : base ≤ 16) (n : Nat) :
    Plain (Nat.toDigits base n) := by
  have hall : ∀ d : Fin 16, isBlank (Nat.digitChar d) = false ∧ Nat.digitChar d ≠ '#' := by decide
  refine ⟨Nat.toDigits_ne_nil, fun c hc => ?_⟩
  obtain ⟨d, hd, rfl⟩ := exists_digit_of_mem_toDigits h1 hc
  exact hall ⟨d, by omega⟩

theorem plain_word (w : UInt64) : Plain (toString w).toList := by
  rw [toList_word]
  exact plain_toDigits (by decide) (by decide) w.toNat

theorem plain_hex (n : Nat) : Plain (hex n).toList := by
  rw [toList_hex]
  refine ⟨by simp, fun c hc => ?_⟩
  rcases List.mem_cons.1 hc with rfl | hc
  · decide
  · rcases List.mem_cons.1 hc with rfl | hc
    · decide
    · exact (plain_toDigits (by decide) (by decide) n).2 c hc

end FieldCircuit.Text
