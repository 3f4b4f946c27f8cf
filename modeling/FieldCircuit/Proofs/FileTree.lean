import FieldCircuit.Command.FileTree
import FieldCircuit.Proofs.Computation
import FieldCircuit.Proofs.Text

/-!
# What operations change in a file tree

Making the directory of a path adds directories along the path where nothing was, also when it
fails, and none where the path already leads to one (`FileTree.exists_madeFor`). Writing a file
changes one entry, or nothing when it fails (`FileTree.writeFile_cases`). What is there stays there,
and paths to it keep their meaning (`FileTree.Grows`).
-/

namespace FieldCircuit.Command.FileTree

variable {t t' t'' : FileTree} {place q : Place} {names : List String}

/-! ## Entries -/

/-- The tree with an entry at a place. -/
def set (t : FileTree) (place : Place) (entry : Entry) : FileTree := ⟨t.entries.insert place entry⟩

theorem isDirectory_iff : t.isDirectory place = true ↔ t.entry? place = some .directory := by
  simp [isDirectory]

theorem isFixed_eq_false (h : t.entry? place ≠ some .directory) : isFixed place = false := by
  unfold entry? at h
  split at h
  · exact absurd rfl h
  · next hp => simpa using hp

theorem entry?_set (hp : isFixed place = false) (entry : Entry) (q : Place) :
    entry? (t.set place entry) q = if q = place then some entry else t.entry? q := by
  unfold entry? set
  by_cases hq : q = place
  · subst hq
    simp [hp]
  · simp [hq, Std.ExtTreeMap.getElem?_insert, Ne.symm hq]

/-- An entry put where it is already changes nothing. -/
theorem set_eq_self {entry : Entry} (hp : isFixed place = false) (h : t.entry? place = some entry) :
    t.set place entry = t := by
  obtain ⟨entries⟩ := t
  simp only [ entry?, hp, Bool.false_eq_true, if_false] at h
  simp only [set, mk.injEq]
  apply Std.ExtTreeMap.ext_getElem?
  intro r
  rw [Std.ExtTreeMap.getElem?_insert]
  by_cases hr : place = r
  · subst hr
    simp [h]
  · simp [hr]

/-- What is there stays there, and directories stay directories. -/
structure Grows (t t' : FileTree) : Prop where
  directory : ∀ r, t.entry? r = some .directory → t'.entry? r = some .directory
  isSome : ∀ r, (t.entry? r).isSome → (t'.entry? r).isSome

theorem grows_set (h : t.entry? place ≠ some .directory) (entry : Entry) :
    t.Grows (t.set place entry) := by
  have hset := entry?_set (t := t) (isFixed_eq_false h) entry
  refine ⟨fun r hr => ?_, fun r hr => ?_⟩
  · have hne : r ≠ place := fun he => h (he ▸ hr)
    rw [hset, if_neg hne, hr]
  · rw [hset]
    split
    · rfl
    · exact hr

/-! ## Paths -/

/-- A name that an entry of a directory can have. -/
def IsName (name : String) : Prop := name ∉ ["", ".", "..", "/"] ∧ name.utf8ByteSize ≤ 255

instance (name : String) : Decidable (IsName name) := inferInstanceAs (Decidable (_ ∧ _))

theorem IsName.isFixed_append {name : String} (h : IsName name) (place : Place) :
    isFixed (place ++ [name]) = false := by
  obtain ⟨hn, -⟩ := h
  simp only [List.mem_cons, List.not_mem_nil, or_false, not_or] at hn
  have hroot : place ++ [name] ≠ ["/"] := by
    intro he
    cases place with
    | nil => exact hn.2.2.2 (by simpa using he)
    | cons a l => simp at he
  simp [isFixed, hn.2.2.1, hroot]

/-- Where a step from a directory leads. -/
theorem step_eq_ok_iff {name : String} :
    t.step place name = .ok q ↔ t.isDirectory place = true ∧
      ((name = "" ∨ name = ".") ∧ place = q ∨ name = "/" ∧ ["/"] = q ∨
        name = ".." ∧ parent place = q ∨
        IsName name ∧ (t.entry? (place ++ [name])).isSome ∧ place ++ [name] = q) := by
  unfold step IsName
  by_cases hd : t.isDirectory place = true
  · simp only [hd, Bool.not_true, Bool.false_eq_true, if_false, true_and, Bool.or_eq_true,
      beq_iff_eq, List.mem_cons, List.not_mem_nil, or_false, not_or]
    by_cases hstay : name = "" ∨ name = "."
    · rcases hstay with rfl | rfl <;> simp
    by_cases hroot : name = "/"
    · subst hroot
      simp
    by_cases hup : name = ".."
    · subst hup
      simp
    rw [not_or] at hstay
    by_cases hsize : name.utf8ByteSize > 255
    · simp [hstay, hroot, hup, hsize, Nat.not_le.2 hsize]
    · by_cases hs : (t.entry? (place ++ [name])).isSome = true
      · simp [hstay, hroot, hup, hsize, hs, Nat.not_lt.1 hsize]
      · simp [hstay, hroot, hup, hsize, hs]
  · simp [hd]

theorem Grows.step {name : String} (h : t.Grows t') (hs : t.step place name = .ok q) :
    t'.step place name = .ok q := by
  rw [step_eq_ok_iff, isDirectory_iff] at hs ⊢
  refine ⟨h.directory place hs.1, hs.2.imp_right (.imp_right (.imp_right ?_))⟩
  exact fun ⟨hn, hsome, hq⟩ => ⟨hn, h.isSome _ hsome, hq⟩

theorem Grows.foldlM_step (h : t.Grows t') (hs : names.foldlM t.step place = .ok q) :
    names.foldlM t'.step place = .ok q := by
  induction names generalizing place with
  | nil => exact hs
  | cons name names ih =>
    rw [List.foldlM_cons] at hs ⊢
    obtain ⟨r, hr, hs⟩ := exists_ok_of_except_bind hs
    rw [except_bind_of_ok (h.step hr)]
    exact ih hs

theorem Grows.walk (h : t.Grows t') (hs : t.walk names = .ok q) : t'.walk names = .ok q :=
  h.foldlM_step hs

theorem walk_append {above below : List String} (h : t.walk above = .ok place) :
    t.walk (above ++ below) = below.foldlM t.step place := by
  unfold walk at h ⊢
  rw [List.foldlM_append, except_bind_of_ok h]

theorem foldlM_step_blanks {blanks : List String} (hb : ∀ b ∈ blanks, b = "")
    (hd : t.isDirectory place = true) : blanks.foldlM t.step place = .ok place := by
  induction blanks with
  | nil => rfl
  | cons b blanks ih =>
    rw [List.forall_mem_cons] at hb
    have hstay : t.step place b = .ok place := step_eq_ok_iff.2 ⟨hd, .inl ⟨.inl hb.1, rfl⟩⟩
    rw [List.foldlM_cons, except_bind_of_ok hstay]
    exact ih hb.2

/-- The path leads to the directory at a place. -/
structure Opens (t : FileTree) (names : List String) (place : Place) : Prop where
  walk : t.walk names = .ok place
  isDirectory : t.isDirectory place = true

theorem Grows.opens (h : t.Grows t') (ho : t.Opens names place) : t'.Opens names place :=
  ⟨h.walk ho.walk, isDirectory_iff.2 (h.directory _ (isDirectory_iff.1 ho.isDirectory))⟩

theorem isDirectoryPath_iff : t.isDirectoryPath names = true ↔ ∃ place, t.Opens names place := by
  unfold isDirectoryPath
  constructor
  · intro h
    split at h
    · next place hw => exact ⟨place, hw, h⟩
    · cases h
  · rintro ⟨place, hw, hd⟩
    rw [hw]
    exact hd

/-- A path parts into names, a last one that is not empty, and empty ones. -/
theorem exists_blanks {name : String} {above : List String}
    (h : names.reverse.dropWhile (· == "") = name :: above) :
    ∃ blanks, names = above.reverse ++ name :: blanks ∧ (∀ b ∈ blanks, b = "") ∧ name ≠ "" := by
  have hsplit := List.takeWhile_append_dropWhile (p := (· == "")) (l := names.reverse)
  refine ⟨(names.reverse.takeWhile (· == "")).reverse, ?_, fun b hb => ?_, ?_⟩
  · rw [h] at hsplit
    rw [← List.reverse_inj]
    simpa using hsplit.symm
  · simpa using List.mem_takeWhile_imp (List.mem_reverse.1 hb)
  · have hhead := List.head_dropWhile_not (p := (· == "")) (l := names.reverse) (by simp [h])
    simpa [h] using hhead

/-- The place of a path is a name in a directory; slashes at its end do not count. -/
theorem of_locate (h : t.locate names = .ok q) :
    ∃ above name blanks place, names = above ++ name :: blanks ∧ (∀ b ∈ blanks, b = "") ∧
      IsName name ∧ t.Opens above place ∧ q = place ++ [name] := by
  unfold locate at h
  split at h
  · cases h
  next name above hdrop =>
  obtain ⟨place, hw, h⟩ := exists_ok_of_except_bind h
  dsimp only at h
  split at h
  · cases h
  next hd =>
  split at h
  · cases h
  next hdots =>
  split at h
  · cases h
  next hsize =>
  cases h
  obtain ⟨blanks, hnames, hb, hname⟩ := exists_blanks hdrop
  refine ⟨above.reverse, name, blanks, place, hnames, hb, ⟨?_, ?_⟩, ⟨hw, ?_⟩, rfl⟩
  · simpa [hname, and_assoc] using hdots
  · omega
  · simpa using hd

theorem Opens.locate_append {above : List String} {name : String} (h : t.Opens above place)
    (hn : IsName name) :
    t.locate (above ++ [name]) = .ok (place ++ [name]) := by
  obtain ⟨hw, hd⟩ := h
  obtain ⟨hn, hsize⟩ := hn
  simp only [List.mem_cons, List.not_mem_nil, or_false, not_or] at hn
  have hdrop : (above ++ [name]).reverse.dropWhile (· == "") = name :: above.reverse := by
    simp [hn.1]
  unfold locate
  rw [hdrop]
  dsimp only
  rw [List.reverse_reverse, except_bind_of_ok hw]
  simp only [hd, hn, Nat.not_lt.2 hsize, Bool.not_true, Bool.false_eq_true, beq_iff_eq,
    Bool.or_eq_true, or_self, if_false]
  rfl

/-! ## Making directories -/

theorem makeDirectory_cases (names : List String) (t : FileTree) :
    (∃ r, t.locate names = .ok r ∧ t.entry? r = none ∧
        makeDirectory names t = .ok () (t.set r .directory)) ∨
      ∃ fault, makeDirectory names t = .error fault t := by
  unfold makeDirectory
  rw [get_bind]
  cases hl : t.locate names with
  | error fault => exact .inr ⟨fault, rfl⟩
  | ok r =>
    rw [bind_of_ok (liftExcept_eq_ok_iff.2 ⟨rfl, rfl⟩)]
    cases hr : t.entry? r with
    | some entry => exact .inr ⟨.alreadyExists, rfl⟩
    | none => exact .inl ⟨r, rfl, hr, rfl⟩

/-- The tree with directories at some places. -/
def addDirectories (t : FileTree) (places : List Place) : FileTree :=
  places.foldl (fun t place => t.set place .directory) t

theorem entry?_addDirectories {places : List Place} (h : ∀ r ∈ places, isFixed r = false)
    (q : Place) :
    entry? (t.addDirectories places) q = if q ∈ places then some .directory else t.entry? q := by
  induction places generalizing t with
  | nil => rfl
  | cons r places ih =>
    rw [List.forall_mem_cons] at h
    show entry? ((t.set r .directory).addDirectories places) q = _
    rw [ih h.2, entry?_set h.1]
    by_cases hq : q ∈ places <;> by_cases hr : q = r <;> simp [hq, hr]

/-- Directories were made at these places, where nothing was. -/
structure Adds (t : FileTree) (places : List Place) (t' : FileTree) : Prop where
  absent : ∀ r ∈ places, t.entry? r = none
  eq : t' = t.addDirectories places

theorem Adds.isFixed_eq_false {places : List Place} (h : t.Adds places t') :
    ∀ r ∈ places, isFixed r = false :=
  fun r hr => FileTree.isFixed_eq_false (by rw [h.absent r hr]; simp)

theorem Adds.entry?_eq {places : List Place} (h : t.Adds places t') (q : Place) :
    t'.entry? q = if q ∈ places then some .directory else t.entry? q := by
  rw [h.eq, entry?_addDirectories h.isFixed_eq_false]

theorem Adds.grows {places : List Place} (h : t.Adds places t') : t.Grows t' := by
  refine ⟨fun r hr => ?_, fun r hr => ?_⟩
  · rw [h.entry?_eq, hr]
    simp
  · rw [h.entry?_eq]
    split
    · rfl
    · exact hr

theorem Adds.eq_nil {places : List Place} (h : t.Adds places t) : places = [] := by
  refine List.eq_nil_iff_forall_not_mem.2 fun r hr => ?_
  have hmade := h.entry?_eq r
  rw [if_pos hr, h.absent r hr] at hmade
  cases hmade

theorem adds_nil (t : FileTree) : t.Adds [] t := ⟨by simp, rfl⟩

theorem Adds.trans {places places' : List Place} (h : t.Adds places t') (h' : t'.Adds places' t'') :
    t.Adds (places ++ places') t'' := by
  refine ⟨fun r hr => ?_, ?_⟩
  · rcases List.mem_append.1 hr with hr | hr
    · exact h.absent r hr
    · have hnone := h'.absent r hr
      rw [h.entry?_eq] at hnone
      split at hnone
      · cases hnone
      · exact hnone
  · rw [h'.eq, h.eq, addDirectories, addDirectories, addDirectories, List.foldl_append]

/-- Directories were made where nothing was, each of them at the end of a path with `P`. -/
def AddsAlong (P : List String → Prop) (t t' : FileTree) : Prop :=
  ∃ places, t.Adds places t' ∧ ∀ r ∈ places, ∃ names, P names ∧ t'.Opens names r

theorem AddsAlong.refl {P : List String → Prop} (t : FileTree) : AddsAlong P t t :=
  ⟨[], adds_nil t, by simp⟩

theorem AddsAlong.trans {P : List String → Prop} (h : AddsAlong P t t') (h' : AddsAlong P t' t'') :
    AddsAlong P t t'' := by
  obtain ⟨places, hadds, hreached⟩ := h
  obtain ⟨places', hadds', hreached'⟩ := h'
  refine ⟨places ++ places', hadds.trans hadds', fun r hr => ?_⟩
  rcases List.mem_append.1 hr with hr | hr
  · obtain ⟨names, hP, ho⟩ := hreached r hr
    exact ⟨names, hP, hadds'.grows.opens ho⟩
  · exact hreached' r hr

/-- Makes one directory; a directory that is there is fine. -/
def ensure (names : List String) : Files Unit := fun t =>
  match makeDirectory names t with
  | .ok () t' => .ok () t'
  | .error fault t' => if t'.isDirectoryPath names then .ok () t' else .error fault t'

theorem ensure_cases (names : List String) (t : FileTree) :
    (∃ r, t.locate names = .ok r ∧ t.entry? r = none ∧
        ensure names t = .ok () (t.set r .directory)) ∨
      t.isDirectoryPath names = true ∧ ensure names t = .ok () t ∨
      ∃ fault, ensure names t = .error fault t := by
  unfold ensure
  rcases makeDirectory_cases names t with ⟨r, hr, hnone, h⟩ | ⟨fault, h⟩
  · rw [h]
    exact .inl ⟨r, hr, hnone, rfl⟩
  · rw [h]
    dsimp only
    split
    · next hd => exact .inr (.inl ⟨hd, rfl⟩)
    · exact .inr (.inr ⟨fault, rfl⟩)

/-- The directory that is made is the one that the path now leads to. -/
theorem opens_set_of_locate (hl : t.locate names = .ok q) (hnone : t.entry? q = none) :
    (t.set q .directory).Opens names q := by
  obtain ⟨above, name, blanks, place, rfl, hb, hn, ho, rfl⟩ := of_locate hl
  have hgrows : t.Grows (t.set (place ++ [name]) .directory) := grows_set (by simp [hnone]) _
  have ho' := hgrows.opens ho
  have hmade : entry? (t.set (place ++ [name]) .directory) (place ++ [name]) = some .directory := by
    rw [entry?_set (hn.isFixed_append place), if_pos rfl]
  have hstep : (t.set (place ++ [name]) .directory).step place name = .ok (place ++ [name]) :=
    step_eq_ok_iff.2 ⟨ho'.isDirectory, .inr (.inr (.inr ⟨hn, by simp [hmade], rfl⟩))⟩
  refine ⟨?_, isDirectory_iff.2 hmade⟩
  rw [walk_append ho'.walk, List.foldlM_cons, except_bind_of_ok hstep]
  exact foldlM_step_blanks hb (isDirectory_iff.2 hmade)

theorem addsAlong_ensure {P : List String → Prop} (hP : P names) (t : FileTree) :
    AddsAlong P t (stateAfter (ensure names) t) := by
  rcases ensure_cases names t with ⟨r, hl, hnone, h⟩ | ⟨-, h⟩ | ⟨fault, h⟩
  · rw [stateAfter_of_ok h]
    refine ⟨[r], ⟨by simpa using hnone, rfl⟩, fun q hq => ?_⟩
    obtain rfl := List.mem_singleton.1 hq
    exact ⟨names, hP, opens_set_of_locate hl hnone⟩
  · rw [stateAfter_of_ok h]
    exact .refl t
  · rw [stateAfter_of_error h]
    exact .refl t

theorem exists_opens_of_ensure (h : ensure names t = .ok () t') :
    ∃ place, t'.Opens names place := by
  rcases ensure_cases names t with ⟨r, hl, hnone, h'⟩ | ⟨hd, h'⟩ | ⟨fault, h'⟩ <;>
    cases h.symm.trans h'
  · exact ⟨r, opens_set_of_locate hl hnone⟩
  · exact isDirectoryPath_iff.1 hd

/-- Whatever is made above, the directory itself is made last. -/
theorem makeWith_eq (makeAbove : Files Unit) (names : List String) (t : FileTree) :
    makeWith makeAbove names t = ensure names t ∨
      makeWith makeAbove names t = (makeAbove >>= fun _ => ensure names) t := by
  unfold makeWith
  split
  · next h =>
    left
    rw [ensure, h]
  · next t₁ h =>
    -- the first attempt left the tree as it was
    rcases makeDirectory_cases names t with ⟨_, -, -, h'⟩ | ⟨_, h'⟩ <;> cases h.symm.trans h'
    right
    cases ha : makeAbove t with
    | ok u t₂ =>
      rw [bind_of_ok ha]
      rfl
    | error fault t₂ => rw [bind_of_error ha]
  · next h =>
    left
    rw [ensure, h]

theorem addsAlong_makeWith {P : List String → Prop} {makeAbove : Files Unit}
    (ha : ∀ t, AddsAlong P t (stateAfter makeAbove t)) (hP : P names) (t : FileTree) :
    AddsAlong P t (stateAfter (makeWith makeAbove names) t) := by
  rcases makeWith_eq makeAbove names t with h | h
  · rw [stateAfter, h]
    exact addsAlong_ensure hP t
  · rw [stateAfter, h]
    exact stateAfter_bind (P := AddsAlong P t) (fun _ => ha t)
      (fun _ t' ht' => ht'.trans (addsAlong_ensure hP t')) (.refl t)

theorem exists_opens_of_makeWith {makeAbove : Files Unit}
    (h : makeWith makeAbove names t = .ok () t') :
    ∃ place, t'.Opens names place := by
  rcases makeWith_eq makeAbove names t with heq | heq <;> rw [heq] at h
  · exact exists_opens_of_ensure h
  · obtain ⟨_, _, -, h⟩ := exists_ok_of_bind h
    exact exists_opens_of_ensure h

theorem addsAlong_makeAll {P : List String → Prop} (h : ∀ above, above <:+ names → P above.reverse)
    (t : FileTree) : AddsAlong P t (stateAfter (makeAll names) t) := by
  induction names generalizing t with
  | nil => exact .refl t
  | cons name names ih =>
    refine addsAlong_makeWith (ih fun above ha => ?_) (h _ List.suffix_rfl) t
    exact h above (ha.trans (List.suffix_cons name names))

theorem eq_components_of_checkPath {path : String} (h : checkPath path = .ok names) :
    names = components path := by
  unfold checkPath at h
  split at h
  · cases h
  split at h
  · cases h
  exact (Except.ok.inj h).symm

/-- A path, or names that lead some way along it. -/
def Along (path : String) (names : List String) : Prop :=
  names = components path ∨ names <+: plain (components path)

theorem addsAlong_makeDirectories (path : String) (t : FileTree) :
    AddsAlong (Along path) t (stateAfter (makeDirectories path) t) := by
  unfold makeDirectories
  cases hp : checkPath path with
  | error fault => exact .refl t
  | ok names =>
    obtain rfl := eq_components_of_checkPath hp
    refine addsAlong_makeWith (addsAlong_makeAll fun above ha => .inr ?_) (.inl rfl) t
    rw [← List.reverse_suffix, List.reverse_reverse]
    exact ha.trans (List.reverse_suffix.2 (List.dropLast_prefix _))

theorem exists_opens_of_makeDirectories {path : String} (h : makeDirectories path t = .ok () t') :
    ∃ place, t'.Opens (components path) place := by
  obtain ⟨names, t₁, hp, h⟩ := exists_ok_of_bind h
  obtain ⟨hnames, rfl⟩ := liftExcept_eq_ok_iff.1 hp
  obtain rfl := eq_components_of_checkPath hnames
  exact exists_opens_of_makeWith h

/-! ## Directories that are there -/

theorem exists_walk_of_append {above below : List String} (h : t.walk (above ++ below) = .ok q) :
    ∃ place, t.walk above = .ok place ∧ below.foldlM t.step place = .ok q := by
  unfold walk at h
  rw [List.foldlM_append] at h
  exact exists_ok_of_except_bind h

theorem Opens.locate_ne_notFound (h : t.Opens names place) : t.locate names ≠ .error .notFound := by
  intro hl
  unfold locate at hl
  split at hl
  · cases hl
  next name above hdrop =>
  obtain ⟨blanks, rfl, -, -⟩ := exists_blanks hdrop
  obtain ⟨r, hr, -⟩ := exists_walk_of_append h.walk
  rw [except_bind_of_ok hr] at hl
  dsimp only at hl
  split at hl
  · cases hl
  split at hl
  · cases hl
  split at hl <;> cases hl

/-- The place that a path to a directory names is there. -/
theorem Opens.entry?_ne_none (h : t.Opens names place) (hl : t.locate names = .ok q) :
    t.entry? q ≠ none := by
  obtain ⟨above, name, blanks, r, rfl, -, hn, ho, rfl⟩ := of_locate hl
  have hw := h.walk
  rw [walk_append ho.walk, List.foldlM_cons] at hw
  obtain ⟨r', hstep, -⟩ := exists_ok_of_except_bind hw
  have hcases := (step_eq_ok_iff.1 hstep).2
  simp only [IsName, List.mem_cons, List.not_mem_nil, or_false, not_or] at hn
  simp only [hn, false_and, or_self, false_or] at hcases
  rw [← Option.isSome_iff_ne_none]
  exact hcases.2.1

theorem Opens.exists_makeDirectory (h : t.Opens names place) :
    ∃ fault, fault ≠ .notFound ∧ makeDirectory names t = .error fault t := by
  unfold makeDirectory
  rw [get_bind]
  cases hl : t.locate names with
  | error fault => exact ⟨fault, fun he => h.locate_ne_notFound (he ▸ hl), rfl⟩
  | ok r =>
    rw [bind_of_ok (liftExcept_eq_ok_iff.2 ⟨rfl, rfl⟩)]
    cases hr : t.entry? r with
    | some entry => exact ⟨.alreadyExists, by simp, rfl⟩
    | none => exact absurd hr (h.entry?_ne_none hl)

/-- Nothing is made where a path already leads to a directory. -/
theorem Opens.stateAfter_makeDirectories {path : String} (h : t.Opens (components path) place) :
    stateAfter (makeDirectories path) t = t := by
  unfold makeDirectories
  cases hp : checkPath path with
  | error fault => rfl
  | ok names =>
    obtain rfl := eq_components_of_checkPath hp
    obtain ⟨fault, hne, hm⟩ := h.exists_makeDirectory
    rw [stateAfter_bind_of_ok (liftExcept_eq_ok_iff.2 ⟨rfl, rfl⟩)]
    have hmade : makeWith (makeAll (plain (components path)).dropLast.reverse) (components path) t =
        .ok () t := by
      unfold makeWith
      rw [hm]
      simp [isDirectoryPath_iff.2 ⟨place, h⟩]
    exact stateAfter_of_ok hmade

/-- The places of the directories made for a path: nothing was there, names along the path lead
there, and there are none if the path led to a directory before. -/
structure MadeFor (t : FileTree) (path : String) (places : List Place) : Prop where
  absent : ∀ r ∈ places, t.entry? r = none
  reached : ∀ r ∈ places, ∃ names, Along path names ∧ (t.addDirectories places).Opens names r
  existing : t.isDirectoryPath (components path) = true → places = []

/-- Making the directory of a path makes directories along it, also when it fails. -/
theorem exists_madeFor (path : String) (t : FileTree) : ∃ places, t.MadeFor path places ∧
    stateAfter (makeDirectories path) t = t.addDirectories places := by
  obtain ⟨places, hadds, hreached⟩ := addsAlong_makeDirectories path t
  refine ⟨places, ⟨hadds.absent, hadds.eq ▸ hreached, fun hd => ?_⟩, hadds.eq⟩
  obtain ⟨place, ho⟩ := isDirectoryPath_iff.1 hd
  rw [ho.stateAfter_makeDirectories] at hadds
  exact hadds.eq_nil

/-! ## Names in a directory -/

/-- Names of a path of more than one; an empty one in front stands for `/`. -/
def rooted : List String → List String
  | "" :: names => "/" :: names
  | names => names

theorem rooted_append (h : names ≠ []) (more : List String) :
    rooted (names ++ more) = rooted names ++ more := by
  cases names with
  | nil => exact absurd rfl h
  | cons first rest =>
    by_cases hfirst : first = ""
    · rw [hfirst]
      rfl
    · simp [rooted, hfirst]

theorem components_eq_rooted {path : String} (h : path ≠ "") :
    components path = rooted ((Text.pieces (· == '/') path.toList).map String.ofList) := by
  unfold components
  cases hp : Text.pieces (· == '/') path.toList with
  | nil => exact absurd hp (Text.pieces_ne_nil _ _)
  | cons first rest =>
    cases first with
    | cons c cs => simp [rooted]
    | nil =>
      cases rest with
      | cons second rest => rfl
      | nil => exact absurd (String.toList_eq_nil_iff.1 (Text.eq_nil_of_pieces hp)) h

theorem pieces_slash {name : String} (hs : '/' ∉ name.toList) :
    Text.pieces (· == '/') name.toList = [name.toList] := by
  refine Text.pieces_of_forall fun c hc => beq_false_of_ne ?_
  rintro rfl
  exact hs hc

theorem components_of_slash (cs : List Char) {name : String} (hs : '/' ∉ name.toList) :
    components (String.ofList (cs ++ '/' :: name.toList)) =
      rooted ((Text.pieces (· == '/') cs).map String.ofList) ++ [name] := by
  rw [components_eq_rooted (by simp [← String.toList_inj]), String.toList_ofList,
    Text.pieces_append_of_sep (by rfl), pieces_slash hs, List.map_append,
    rooted_append (by simpa using Text.pieces_ne_nil _ cs), List.map_singleton,
    String.ofList_toList]

/-- The components of a path with a name added are those of the path, without a last empty one, and
the name. -/
theorem components_join (path : String) {name : String} (hs : '/' ∉ name.toList) :
    ∃ above, components (join path name) = above ++ [name] ∧
      (components path = above ∨ components path = above ++ [""]) := by
  unfold join
  split
  · next hempty =>
    obtain rfl : path = "" := by simpa using hempty
    refine ⟨[], ?_, .inr rfl⟩
    by_cases hn : name = ""
    · subst hn
      rfl
    · simp [components_eq_rooted, pieces_slash hs, rooted, hn]
  · next hlast =>
    obtain ⟨cs, hcs⟩ := List.getLast?_eq_some_iff.1 hlast
    have hpath : path = String.ofList (cs ++ '/' :: "".toList) := by simp [← String.toList_inj, hcs]
    have hname : path ++ name = String.ofList (cs ++ '/' :: name.toList) := by
      simp [hpath, String.append_assoc]
    refine ⟨_, (congrArg components hname).trans (components_of_slash cs hs), .inr ?_⟩
    exact (congrArg components hpath).trans (components_of_slash cs (by simp))
  · next c _ hlast =>
    have hname : path ++ "/" ++ name = String.ofList (path.toList ++ '/' :: name.toList) := by
      simp [String.append_assoc]
    refine ⟨_, (congrArg components hname).trans (components_of_slash _ hs), .inl ?_⟩
    exact components_eq_rooted (by rintro rfl; simp at hlast)

/-- A name added to the path of a directory is the name in that directory. -/
theorem Opens.locate_join {path name : String} (h : t.Opens (components path) place)
    (hn : IsName name) (hs : '/' ∉ name.toList) :
    t.locate (components (join path name)) = .ok (place ++ [name]) := by
  obtain ⟨above, hj, ha | ha⟩ := components_join path hs <;> rw [hj] <;> rw [ha] at h
  · exact h.locate_append hn
  · obtain ⟨r, hr, hw⟩ := exists_walk_of_append h.walk
    have hstay : t.step r "" = .ok place := by simpa using hw
    obtain rfl : r = place := by simpa [IsName] using (step_eq_ok_iff.1 hstay).2
    exact Opens.locate_append ⟨hr, h.isDirectory⟩ hn

/-! ## Writing files -/

theorem writeFile_of_locate {path : String} (hp : checkPath path = .ok names)
    (hl : t.locate names = .ok q) (bytes : List UInt8) :
    writeFile path bytes t =
      if t.entry? q = some .directory then .error .isADirectory t
      else .ok () (t.set q (.file bytes)) := by
  unfold writeFile
  rw [get_bind, bind_of_ok (liftExcept_eq_ok_iff.2 ⟨hp, rfl⟩), hl]
  dsimp only
  rcases t.entry? q with _ | _ | _ <;> rfl

theorem writeFile_cases (path : String) (bytes : List UInt8) (t : FileTree) :
    (∃ r, t.locate (components path) = .ok r ∧ t.entry? r ≠ some .directory ∧
        writeFile path bytes t = .ok () (t.set r (.file bytes))) ∨
      ∃ fault, writeFile path bytes t = .error fault t := by
  cases hp : checkPath path with
  | error fault =>
    unfold writeFile
    rw [get_bind, hp]
    exact .inr ⟨fault, rfl⟩
  | ok names =>
    obtain rfl := eq_components_of_checkPath hp
    cases hl : t.locate (components path) with
    | error fault =>
      unfold writeFile
      rw [get_bind, bind_of_ok (liftExcept_eq_ok_iff.2 ⟨hp, rfl⟩), hl]
      cases fault <;> exact .inr ⟨_, rfl⟩
    | ok r =>
      rw [writeFile_of_locate hp hl]
      split
      · exact .inr ⟨_, rfl⟩
      · next hr => exact .inl ⟨r, rfl, hr, rfl⟩

/-- The tree with files at some places. -/
def addFiles (t : FileTree) (files : List (Place × List UInt8)) : FileTree :=
  files.foldl (fun t f => t.set f.1 (.file f.2)) t

section

variable {files : List (Place × List UInt8)}

theorem entry?_addFiles_of_notMem (hf : ∀ f ∈ files, isFixed f.1 = false)
    (hq : q ∉ files.map Prod.fst) :
    entry? (t.addFiles files) q = t.entry? q := by
  induction files generalizing t with
  | nil => rfl
  | cons f files ih =>
    rw [List.forall_mem_cons] at hf
    rw [List.map_cons, List.mem_cons, not_or] at hq
    show entry? ((t.set f.1 (.file f.2)).addFiles files) q = _
    rw [ih hf.2 hq.2, entry?_set hf.1, if_neg hq.1]

theorem entry?_addFiles_of_mem (hf : ∀ f ∈ files, isFixed f.1 = false)
    (hd : (files.map Prod.fst).Nodup) {f : Place × List UInt8} (h : f ∈ files) :
    entry? (t.addFiles files) f.1 = some (.file f.2) := by
  induction files generalizing t with
  | nil => cases h
  | cons f' files ih =>
    rw [List.forall_mem_cons] at hf
    rw [List.map_cons, List.nodup_cons] at hd
    show entry? ((t.set f'.1 (.file f'.2)).addFiles files) f.1 = _
    rcases List.mem_cons.1 h with rfl | h
    · rw [entry?_addFiles_of_notMem hf.2 hd.1, entry?_set hf.1, if_pos rfl]
    · exact ih hf.2 hd.2 h

theorem addFiles_eq_self (hf : ∀ f ∈ files, isFixed f.1 = false)
    (h : ∀ f ∈ files, t.entry? f.1 = some (.file f.2)) : t.addFiles files = t := by
  induction files with
  | nil => rfl
  | cons f files ih =>
    rw [List.forall_mem_cons] at hf h
    show (t.set f.1 (.file f.2)).addFiles files = t
    rw [set_eq_self hf.1 h.1]
    exact ih hf.2 h.2

/-- Directories and files that were added leave no trace only if there was none to make and each
file was there as it was written. -/
theorem addFiles_eq_iff {places : List Place} (h : ∀ r ∈ places, t.entry? r = none)
    (hf : ∀ f ∈ files, isFixed f.1 = false) (hd : (files.map Prod.fst).Nodup) :
    (t.addDirectories places).addFiles files = t ↔
      places = [] ∧ ∀ f ∈ files, t.entry? f.1 = some (.file f.2) := by
  have hadds : t.Adds places (t.addDirectories places) := ⟨h, rfl⟩
  constructor
  · intro heq
    have hfiles : ∀ f ∈ files, t.entry? f.1 = some (.file f.2) := by
      intro f hmem
      rw [← heq]
      exact entry?_addFiles_of_mem hf hd hmem
    refine ⟨List.eq_nil_iff_forall_not_mem.2 fun r hr => ?_, hfiles⟩
    have hnone := h r hr
    by_cases hmem : r ∈ files.map Prod.fst
    · obtain ⟨f, hf', rfl⟩ := List.mem_map.1 hmem
      rw [hfiles f hf'] at hnone
      cases hnone
    · rw [← heq, entry?_addFiles_of_notMem hf hmem, hadds.entry?_eq, if_pos hr] at hnone
      cases hnone
  · rintro ⟨rfl, hfiles⟩
    exact addFiles_eq_self hf hfiles

end

end FieldCircuit.Command.FileTree
