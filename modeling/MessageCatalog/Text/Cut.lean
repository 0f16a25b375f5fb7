/-! Cutting a text at a character or at a marker. -/

namespace MessageCatalog.Text

/-- What stands before and after the first `separator`. -/
def cut? (separator : Char) : List Char → Option (List Char × List Char)
  | [] => none
  | c :: cs =>
      if c = separator then some ([], cs)
      else (cut? separator cs).map fun (before, rest) => (c :: before, rest)

/-- What follows the first occurrence of `marker`. -/
def after? (marker : List Char) : List Char → Option (List Char)
  | [] => if marker = [] then some [] else none
  | c :: cs =>
      if marker.isPrefixOf (c :: cs) then some ((c :: cs).drop marker.length) else after? marker cs

/-- A cut is made at the first separator, and loses nothing but that. -/
theorem cut?_eq_some_iff {separator : Char} {cs before rest : List Char} :
    cut? separator cs = some (before, rest) ↔
      separator ∉ before ∧ cs = before ++ separator :: rest := by
  induction cs generalizing before with
  | nil => simp [cut?]
  | cons c cs ih =>
      by_cases hc : c = separator
      · subst hc
        simp only [cut?, ite_true, Option.some.injEq, Prod.mk.injEq]
        constructor
        · rintro ⟨rfl, rfl⟩
          simp
        · rintro ⟨hb, he⟩
          cases before with
          | nil => simpa using he
          | cons b before => simp_all
      · cases before with
        | nil => simp [cut?, hc]
        | cons b before =>
            simp only [cut?, hc, ite_false, Option.map_eq_some_iff, Prod.mk.injEq, List.cons.injEq,
              List.cons_append, List.mem_cons, not_or]
            constructor
            · rintro ⟨⟨a, r⟩, ha, ⟨rfl, rfl⟩, rfl⟩
              obtain ⟨hm, rfl⟩ := ih.1 ha
              exact ⟨⟨Ne.symm hc, hm⟩, rfl, rfl⟩
            · rintro ⟨⟨-, hm⟩, rfl, rfl⟩
              exact ⟨(before, rest), ih.2 ⟨hm, rfl⟩, ⟨rfl, rfl⟩, rfl⟩

theorem after?_cons_of_not_prefix {marker cs : List Char} {c : Char}
    (h : marker.isPrefixOf (c :: cs) = false) : after? marker (c :: cs) = after? marker cs := by
  simp [after?, h]

/-- What the marker cannot start in is passed over. -/
theorem after?_append_of_notMem {m : Char} {marker before cs : List Char} (h : m ∉ before) :
    after? (m :: marker) (before ++ cs) = after? (m :: marker) cs := by
  induction before with
  | nil => rfl
  | cons c before ih =>
      simp only [List.mem_cons, not_or] at h
      rw [List.cons_append, after?_cons_of_not_prefix (by simp [List.isPrefixOf, h.1]), ih h.2]

theorem after?_append_self (marker rest : List Char) : after? marker (marker ++ rest) = some rest := by
  cases h : marker ++ rest with
  | nil => simp_all [after?]
  | cons c cs =>
      simp [after?, ← h]

theorem isPrefixOf_append_of_disjoint {marker back : List Char} (h : ∀ c ∈ back, c ∉ marker)
    (cs : List Char) : marker.isPrefixOf (cs ++ back) = marker.isPrefixOf cs := by
  rw [Bool.eq_iff_iff, List.isPrefixOf_iff_prefix, List.isPrefixOf_iff_prefix]
  refine ⟨?_, List.prefix_append_of_prefix⟩
  rintro ⟨rest, hrest⟩
  rcases List.append_eq_append_iff.mp hrest with ⟨tail, rfl, -⟩ | ⟨tail, rfl, hback⟩
  · exact List.prefix_append marker tail
  · cases tail with
    | nil => simp
    | cons c tail =>
        have hc : c ∈ back := hback ▸ List.mem_cons_self
        exact absurd (List.mem_append_right cs List.mem_cons_self) (h c hc)

/-- What has nothing of the marker neither holds an occurrence nor takes part in one. -/
theorem after?_append_of_disjoint {m : Char} {marker back : List Char}
    (h : ∀ c ∈ back, c ∉ m :: marker) (cs : List Char) :
    after? (m :: marker) (cs ++ back) = (after? (m :: marker) cs).map (· ++ back) := by
  induction cs with
  | nil =>
      have hm : m ∉ back := fun hm => h m hm List.mem_cons_self
      rw [List.nil_append, ← List.append_nil back, after?_append_of_notMem hm]
      rfl
  | cons c cs ih =>
      have hprefix := isPrefixOf_append_of_disjoint h (c :: cs)
      rw [List.cons_append] at hprefix ⊢
      rw [after?, after?, hprefix, ih]
      split
      · next hm =>
          have hlength := (List.isPrefixOf_iff_prefix.mp hm).length_le
          rw [Option.map_some, ← List.cons_append, List.drop_append_of_le_length hlength]
      · rfl

theorem isSome_after?_iff {marker cs : List Char} : (after? marker cs).isSome ↔ marker <:+: cs := by
  induction cs with
  | nil =>
      rw [after?, List.infix_nil]
      split <;> simp [*]
  | cons c cs ih =>
      rw [after?, List.infix_cons_iff, ← List.isPrefixOf_iff_prefix]
      split
      · next hm => simp [hm]
      · next hm => simp [hm, ih]

end MessageCatalog.Text
