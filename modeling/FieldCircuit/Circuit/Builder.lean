import FieldCircuit.Circuit

/-!
# Building circuits

A builder collects declarations in any order and keeps an index of the wires that its gates produce.
A declaration that fails leaves the builder as it was. `finish` checks the whole and gives the
circuit.
-/

namespace FieldCircuit

namespace Builder

/-! ## The index -/

/-- Takes wires out of the index of producers. -/
def release (ws : List Wire) (ps : Std.ExtTreeMap Wire Producer) : Std.ExtTreeMap Wire Producer :=
  ws.foldl (·.erase ·) ps

/-- Enters the wires of gate `index` into the index of producers, slot by slot; `entered` are the
wires of the slots before. At a wire that is produced already, these are taken out again. -/
def claim (index : Nat) (entered : List Wire) : List Wire →
    EStateM Fault (Std.ExtTreeMap Wire Producer) Unit
  | [], ps => .ok () ps
  | w :: ws, ps =>
    if ps.contains w then .error (.duplicateWire w) (release entered ps)
    else claim index (entered ++ [w]) ws (ps.insert w ⟨index, entered.length⟩)

theorem getElem?_claim {index : Nat} {entered ws : List Wire}
    {ps ps' : Std.ExtTreeMap Wire Producer} (h : claim index entered ws ps = .ok () ps') (w : Wire)
    (q : Producer) :
    ps'[w]? = some q ↔
      ps[w]? = some q ∨ ∃ s, ws[s]? = some w ∧ q = ⟨index, entered.length + s⟩ := by
  induction ws generalizing entered ps with
  | nil =>
    cases h
    simp
  | cons v vs ih =>
    simp only [claim] at h
    split at h
    · cases h
    · next hv =>
      have hv : ps[v]? = none := by simpa using hv
      have hi : (ps.insert v ⟨index, entered.length⟩)[w]? = some q ↔
          ps[w]? = some q ∨ v = w ∧ q = ⟨index, entered.length⟩ := by
        rw [Std.ExtTreeMap.getElem?_insert]
        by_cases he : v = w
        · subst he
          simp [hv, eq_comm]
        · simp [he]
      rw [ih h, hi, or_assoc, List.length_append, List.length_singleton]
      refine or_congr Iff.rfl ⟨?_, ?_⟩
      · rintro (⟨rfl, rfl⟩ | ⟨s, hs, rfl⟩)
        · exact ⟨0, rfl, rfl⟩
        · exact ⟨s + 1, hs, by rw [Nat.add_assoc, Nat.add_comm 1 s]⟩
      · rintro ⟨s, hs, rfl⟩
        cases s with
        | zero => exact .inl ⟨by simpa using hs, rfl⟩
        | succ s => exact .inr ⟨s, hs, by rw [Nat.add_assoc, Nat.add_comm 1 s]⟩

theorem getElem?_release (ws : List Wire) (ps : Std.ExtTreeMap Wire Producer) (v : Wire) :
    (release ws ps)[v]? = if v ∈ ws then none else ps[v]? := by
  induction ws generalizing ps with
  | nil => simp [release]
  | cons w ws ih =>
    show (release ws (ps.erase w))[v]? = _
    rw [ih, Std.ExtTreeMap.getElem?_erase]
    by_cases hv : v = w
    · simp [hv]
    · simp [hv, Ne.symm hv]

theorem release_insert {entered : List Wire} {ps : Std.ExtTreeMap Wire Producer} {w : Wire}
    (hw : w ∉ ps) (q : Producer) :
    release (entered ++ [w]) (ps.insert w q) = release entered ps := by
  apply Std.ExtTreeMap.ext_getElem?
  intro v
  simp only [getElem?_release, List.mem_append, List.mem_singleton, Std.ExtTreeMap.getElem?_insert,
    Std.compare_eq_iff_eq]
  by_cases he : v = w
  · subst he
    simp [hw]
  · simp [he, Ne.symm he]

/-- When a wire is refused, the index is left without the wires entered before. -/
theorem eq_release_of_claim {index : Nat} {entered ws : List Wire}
    {ps ps' : Std.ExtTreeMap Wire Producer} {fault : Fault}
    (h : claim index entered ws ps = .error fault ps') : ps' = release entered ps := by
  induction ws generalizing entered ps with
  | nil => cases h
  | cons v vs ih =>
    simp only [claim] at h
    split at h
    · cases h
      rfl
    · next hv => rw [ih h, release_insert (by simpa using hv)]

theorem indexed_of_claim {gates : Array Gate} {ps ps' : Std.ExtTreeMap Wire Producer}
    (hi : Indexed gates fun w => ps[w]?) {g : Gate}
    (h : claim gates.size [] g.outputs ps = .ok () ps') :
    Indexed (gates.push g) fun w => ps'[w]? := by
  intro w ⟨i, s⟩
  rw [getElem?_claim h, hi, Array.getElem?_push]
  by_cases he : i = gates.size
  · subst he
    simp
  · simp [he]

end Builder

/-! ## Declarations -/

structure Builder where
  total : Option UInt64
  gates : Array Gate
  producers : Std.ExtTreeMap Wire Producer
  outputs : Std.ExtTreeSet Wire
  indexed : Indexed gates fun w => producers[w]?

abbrev Build := EStateM Fault Builder

namespace Builder

def empty : Builder := ⟨none, #[], ∅, ∅, fun w q => by simp⟩

def withTotal (n : UInt64) : Builder := { empty with total := some n }

/-- The total may be declared once. -/
def declareTotal (n : UInt64) : EStateM LineFault Builder Unit := do
  let b ← get
  match b.total with
  | some _ => throw .duplicateDeclaration
  | none => set { b with total := some n }

def declareOutput (b : Builder) (w : Wire) : Builder := { b with outputs := b.outputs.insert w }

/-- Adds a gate none of whose outputs is produced yet. -/
def push (g : Gate) : Build Unit := fun b =>
  match h : claim b.gates.size [] g.outputs b.producers with
  | .ok () ps =>
    .ok ()
      { b with gates := b.gates.push g, producers := ps, indexed := indexed_of_claim b.indexed h }
  | .error fault ps =>
    .error fault { b with producers := ps, indexed := eq_release_of_claim h ▸ b.indexed }

/-! ## The final check -/

/-- The least number from `n` on that the ascending list skips. -/
def firstGap? : Nat → List Wire → Option Wire
  | _, [] => none
  | n, w :: ws => if w.toNat = n then firstGap? (n + 1) ws else some n.toUInt64

/-- The largest word. -/
def lastWire : Wire := 0xFFFFFFFFFFFFFFFF

/-- The successor of a word, the last word being its own. -/
def next (w : Wire) : UInt64 := if w = lastWire then lastWire else w + 1

/-- The number of wires up to the largest one produced. -/
def extent (ps : Std.ExtTreeMap Wire Producer) : UInt64 :=
  match ps.maxKey? with
  | some w => next w
  | none => 0

/-- The total, if every declared output is produced, the total is the number of produced wires and
these are the wires below it. -/
def check (b : Builder) : Except Fault UInt64 :=
  match b.outputs.toList.find? (!b.producers.contains ·) with
  | some w => .error (.missingWire w)
  | none =>
    match b.total with
    | none => .error .undeclaredTotal
    | some total =>
      if extent b.producers ≠ total || b.producers.contains lastWire then
        .error (.wireCountMismatch total (extent b.producers))
      else match firstGap? 0 b.producers.keys with
        | some w => .error (.missingWire w)
        | none => .ok total

theorem toNat_of_firstGap? {n : Nat} {ws : List Wire} (h : firstGap? n ws = none) {i : Nat}
    {w : Wire} (hw : ws[i]? = some w) : w.toNat = n + i := by
  induction ws generalizing n i with
  | nil => simp at hw
  | cons v vs ih =>
    simp only [firstGap?] at h
    split at h
    · next hv =>
      cases i with
      | zero =>
        obtain rfl : v = w := by simpa using hw
        exact hv
      | succ i =>
        have := ih h (by simpa using hw)
        omega
    · cases h

/-- A list of keys without gap holds every wire up to its largest. -/
theorem mem_of_firstGap? {ws : List Wire} (h : firstGap? 0 ws = none) {m w : Wire} (hm : m ∈ ws)
    (hw : w ≤ m) : w ∈ ws := by
  obtain ⟨i, hi⟩ := List.mem_iff_getElem?.1 hm
  have hmi := toNat_of_firstGap? h hi
  have hlt : i < ws.length := (List.getElem?_eq_some_iff.1 hi).1
  rw [UInt64.le_iff_toNat_le] at hw
  have hlt' : w.toNat < ws.length := by omega
  have hv := toNat_of_firstGap? h (List.getElem?_eq_getElem hlt')
  rw [Nat.zero_add] at hv
  rw [← UInt64.toNat_inj.1 hv]
  exact List.getElem_mem _

theorem toNat_next {w : Wire} (h : w ≠ lastWire) : (next w).toNat = w.toNat + 1 := by
  have hw := w.toNat_lt
  have hne : w.toNat ≠ 0xFFFFFFFFFFFFFFFF := fun he => h (UInt64.toNat_inj.1 he)
  rw [next, if_neg h, UInt64.toNat_add]
  change (w.toNat + 1) % 18446744073709551616 = _
  omega

theorem mem_iff_lt_extent {ps : Std.ExtTreeMap Wire Producer} (hl : lastWire ∉ ps)
    (hg : firstGap? 0 ps.keys = none) (w : Wire) : w ∈ ps ↔ w < extent ps := by
  unfold extent
  cases hm : ps.maxKey? with
  | none =>
    obtain rfl := Std.ExtTreeMap.maxKey?_eq_none_iff.1 hm
    simp
  | some m =>
    obtain ⟨hmem, hmax⟩ := Std.ExtTreeMap.maxKey?_eq_some_iff_mem_and_forall.1 hm
    have hne : m ≠ lastWire := fun h => hl (h ▸ hmem)
    have hlt : w < next m ↔ w ≤ m := by
      rw [UInt64.lt_iff_toNat_lt, UInt64.le_iff_toNat_le, toNat_next hne]
      omega
    simp only [hlt]
    constructor
    · intro hw
      exact Std.isLE_compare.1 (hmax w hw)
    · intro hw
      exact Std.ExtTreeMap.mem_keys.1 (mem_of_firstGap? hg (Std.ExtTreeMap.mem_keys.2 hmem) hw)

/-- What the final check leaves. -/
structure Checked (b : Builder) (n : UInt64) : Prop where
  total : b.total = some n
  noGap : firstGap? 0 b.producers.keys = none
  mem_producers : ∀ w, w ∈ b.producers ↔ w < n
  outputs_lt : ∀ w ∈ b.outputs, w < n

theorem checked_of_check {b : Builder} {n : UInt64} (h : b.check = .ok n) : b.Checked n := by
  unfold check at h
  split at h
  · cases h
  · next ho =>
    split at h
    · cases h
    · next total ht =>
      split at h
      · cases h
      · next hx =>
        split at h
        · cases h
        · next hg =>
          cases h
          simp only [ne_eq, Bool.or_eq_true, decide_eq_true_eq, not_or, Decidable.not_not,
            Bool.not_eq_true] at hx
          obtain ⟨rfl, hl⟩ := hx
          have hmem := mem_iff_lt_extent (fun h => by
            rw [Std.ExtTreeMap.mem_iff_contains, hl] at h
            cases h) hg
          refine ⟨ht, hg, hmem, fun w hw => (hmem w).1 ?_⟩
          have := List.find?_eq_none.1 ho w (Std.ExtTreeSet.mem_toList.2 hw)
          simpa using this

/-! ## The circuit -/

/-- The producers of an index, in the order of their wires. -/
def inOrder (ps : Std.ExtTreeMap Wire Producer) : Array Producer :=
  (ps.toList.map Prod.snd).toArray

/-- Without a gap, the place of a wire is its number. -/
theorem getElem?_inOrder {ps : Std.ExtTreeMap Wire Producer} (hg : firstGap? 0 ps.keys = none)
    (w : Wire) : (inOrder ps)[w.toNat]? = ps[w]? := by
  have hplace : ∀ {i : Nat} {v : Wire} {q : Producer}, ps.toList[i]? = some (v, q) →
      v.toNat = i := by
    intro i v q h
    have hkey : ps.keys[i]? = some v := by
      rw [← Std.ExtTreeMap.map_fst_toList_eq_keys, List.getElem?_map, h]
      rfl
    simpa using toNat_of_firstGap? hg hkey
  apply Option.ext
  intro q
  rw [inOrder, List.getElem?_toArray, List.getElem?_map, Option.map_eq_some_iff,
    ← Std.ExtTreeMap.mem_toList_iff_getElem?_eq_some]
  constructor
  · rintro ⟨⟨v, q⟩, h, rfl⟩
    obtain rfl : v = w := UInt64.toNat_inj.1 (hplace h)
    exact List.mem_of_getElem? h
  · intro h
    obtain ⟨i, hi⟩ := List.mem_iff_getElem?.1 h
    exact ⟨(w, q), (hplace hi).symm ▸ hi, rfl⟩

theorem Checked.size_inOrder {b : Builder} {n : UInt64} (h : b.Checked n) :
    (inOrder b.producers).size = n.toNat := by
  have hbelow : ∀ w : Wire, w.toNat < (inOrder b.producers).size ↔ w < n := by
    intro w
    rw [← h.mem_producers, Std.ExtTreeMap.mem_iff_isSome_getElem?, ← getElem?_inOrder h.noGap]
    simp
  -- both numbers are words, and the same words are below them
  rcases Nat.lt_trichotomy (inOrder b.producers).size n.toNat with hlt | heq | hlt
  · have hto : ((inOrder b.producers).size.toUInt64).toNat = (inOrder b.producers).size :=
      UInt64.toNat_ofNat_of_lt' (Nat.lt_trans hlt n.toNat_lt_size)
    have := (hbelow _).2 (UInt64.lt_iff_toNat_lt.2 (hto.symm ▸ hlt))
    omega
  · exact heq
  · exact absurd ((hbelow n).1 hlt) (UInt64.lt_irrefl n)

/-- The circuit of a builder that passes the check. -/
def circuit (b : Builder) (n : UInt64) (h : b.Checked n) : Circuit where
  total := n
  gates := b.gates
  producers := inOrder b.producers
  outputs := b.outputs
  size_producers := h.size_inOrder
  indexed w q := by
    show (inOrder b.producers)[w.toNat]? = some q ↔ _
    rw [getElem?_inOrder h.noGap]
    exact b.indexed w q
  outputs_lt := h.outputs_lt

def finish (b : Builder) : Except Fault Circuit :=
  match h : b.check with
  | .error fault => .error fault
  | .ok n => .ok (b.circuit n (checked_of_check h))

end Builder

end FieldCircuit
