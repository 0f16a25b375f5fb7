import MessageCatalog.Catalog.Layout
import MessageCatalog.Proofs.Bytes.Segments

/-! # What the sort check establishes

The check compares neighbours only. Its loop carries the last leading string, which is the greatest
one so far, and so it decides whether all pairs are in order. Msgids that are sorted as a whole, plural
part and all, pass it too. -/

namespace MessageCatalog.Layout

open Bytes

/-- Msgids that a lookup may rely on: no leading string is empty, and none is less than one in front
of it. -/
structure Ordered (msgids : List (List UInt8)) : Prop where
  nonempty : ∀ key ∈ msgids, leading key ≠ []
  sorted : msgids.Pairwise fun a b => leading a ≤ leading b

theorem ordered_cons_iff {key : List UInt8} {keys : List (List UInt8)} :
    Ordered (key :: keys) ↔
      leading key ≠ [] ∧ (∀ k ∈ keys, leading key ≤ leading k) ∧ Ordered keys := by
  constructor
  · intro h
    obtain ⟨hle, hs⟩ := List.pairwise_cons.mp h.sorted
    exact ⟨h.nonempty key (by simp), hle, fun k hk => h.nonempty k (by simp [hk]), hs⟩
  · intro hx
    rcases hx with ⟨hne, hle, hn, hs⟩
    refine ⟨?_, List.pairwise_cons.mpr ⟨hle, hs⟩⟩
    intro k hk
    rcases List.mem_cons.mp hk with rfl | hk
    · exact hne
    · exact hn k hk

private theorem any_greater_iff {previous : Option (List UInt8)} {key : List UInt8} :
    (previous.any fun p => compare p key == .gt) = true ↔ ¬ ∀ p ∈ previous, p ≤ key := by
  cases previous with
  | none => simp
  | some p => simpa using compare_eq_gt_iff p key

/-- The loop accepts exactly what is in order and not less than the string it starts from. -/
theorem checkSortedFrom_eq_ok_iff {previous : Option (List UInt8)} {index : Nat}
    {keys : List (List UInt8)} :
    checkSortedFrom previous index keys = .ok () ↔
      Ordered keys ∧ ∀ p ∈ previous, ∀ key ∈ keys, p ≤ leading key := by
  induction keys generalizing previous index with
  | nil => simpa [checkSortedFrom] using (⟨by simp, by simp⟩ : Ordered [])
  | cons key keys ih =>
      simp only [checkSortedFrom, ordered_cons_iff]
      by_cases hne : leading key = []
      · simp [hne]
      by_cases hp : ∀ p ∈ previous, p ≤ leading key
      · rw [if_neg hne, if_neg (any_greater_iff.not.mpr (not_not.mpr hp)), ih]
        constructor
        · intro h
          rcases h with ⟨ho, hall⟩
          have hkey := hall (leading key) rfl
          refine ⟨⟨hne, hkey, ho⟩, ?_⟩
          intro p hpm k hk
          rcases List.mem_cons.mp hk with rfl | hk
          · exact hp p hpm
          · exact List.le_trans (hp p hpm) (hkey k hk)
        · intro h
          rcases h with ⟨⟨-, hkey, ho⟩, -⟩
          refine ⟨ho, ?_⟩
          intro p hpm k hk
          obtain rfl := Option.some.inj hpm
          exact hkey k hk
      · rw [if_neg hne, if_pos (any_greater_iff.mpr hp)]
        refine iff_of_false (by simp) ?_
        intro h
        rcases h with ⟨-, hall⟩
        exact hp fun p hpm => hall p hpm key (by simp)

/-- The check passes exactly if every two msgids, the header's left out, are in order. -/
theorem checkSorted_eq_ok_iff {msgids : List (List UInt8)} :
    checkSorted msgids = .ok () ↔ Ordered (msgids.drop 1) := by
  simp [checkSorted, checkSortedFrom_eq_ok_iff]

theorem ordered_of_sorted {msgids : List (List UInt8)} (hne : ∀ key ∈ msgids, leading key ≠ [])
    (hs : msgids.Pairwise (· ≤ ·)) : Ordered msgids where
  nonempty := hne
  sorted := hs.imp leading_le_leading

theorem ordered_drop_iff_getElem {msgids : List (List UInt8)} :
    Ordered (msgids.drop 1) ↔
      (∀ key ∈ msgids.drop 1, leading key ≠ []) ∧
        ∀ i j, 1 ≤ i → (hij : i < j) → (hj : j < msgids.length) →
          compareLeading msgids[i] msgids[j] ≠ .gt := by
  constructor
  · intro h
    refine ⟨h.nonempty, ?_⟩
    intro i j hi hij hj hgt
    obtain ⟨i, rfl⟩ := Nat.exists_eq_add_of_le hi
    obtain ⟨j, rfl⟩ := Nat.exists_eq_add_of_le (Nat.le_of_lt (Nat.lt_of_le_of_lt hi hij))
    have hle := List.pairwise_iff_getElem.mp h.sorted i j (by simp; omega) (by simp; omega)
      (by omega)
    rw [List.getElem_drop, List.getElem_drop] at hle
    exact absurd ((compareLeading_eq_gt_iff _ _).mp hgt) (List.not_lt.mpr hle)
  · intro h
    refine ⟨h.1, List.pairwise_iff_getElem.mpr ?_⟩
    intro i j hi hj hij
    have hle := h.2 (1 + i) (1 + j) (by omega) (by omega) (by simp at hj; omega)
    rw [List.getElem_drop, List.getElem_drop]
    exact List.not_lt.mp ((compareLeading_eq_gt_iff _ _).not.mp hle)

/-- Msgids are told apart by what stands in front of their first NULs. -/
theorem compareLeading_eq_eq_iff_isSegment {a b : List UInt8} :
    compareLeading a b = .eq ↔ ∃ s, IsSegment a 0 s ∧ IsSegment b 0 s := by
  rw [compareLeading_eq_eq_iff]
  constructor
  · intro h
    exact ⟨leading a, isSegment_zero_iff.mpr rfl, isSegment_zero_iff.mpr h⟩
  · rintro ⟨s, ha, hb⟩
    exact (isSegment_zero_iff.mp ha).symm.trans (isSegment_zero_iff.mp hb)

theorem leading_ne_nil_iff {key : List UInt8} : leading key ≠ [] ↔ ¬ IsSegment key 0 [] := by
  rw [isSegment_zero_iff, ne_comm]

/-- Msgids are compared by a total preorder, in which those are equal that are the same up to their
first NULs, and which never contradicts the order of whole strings. So the check passes for msgids
that are sorted as whole strings, and it passes exactly if no msgid behind the header's is empty up to
its first NUL and every two of them are in order, neighbours or not. -/
theorem lookup_order_lawful :
    (∀ a, compareLeading a a = .eq) ∧
    (∀ a b, compareLeading b a = (compareLeading a b).swap) ∧
    (∀ a b c, compareLeading a b ≠ .gt → compareLeading b c ≠ .gt → compareLeading a c ≠ .gt) ∧
    (∀ a b, compareLeading a b = .eq ↔ ∃ s, IsSegment a 0 s ∧ IsSegment b 0 s) ∧
    (∀ a b, a ≤ b → compareLeading a b ≠ .gt) ∧
    (∀ msgids, (∀ key ∈ msgids.drop 1, ¬ IsSegment key 0 []) → (msgids.drop 1).Pairwise (· ≤ ·) →
      checkSorted msgids = .ok ()) ∧
    ∀ msgids, checkSorted msgids = .ok () ↔
      (∀ key ∈ msgids.drop 1, ¬ IsSegment key 0 []) ∧
        ∀ i j, 1 ≤ i → (hij : i < j) → (hj : j < msgids.length) →
          compareLeading msgids[i] msgids[j] ≠ .gt := by
  refine ⟨?_, ?_, ?_, fun a b => compareLeading_eq_eq_iff_isSegment, ?_, ?_, ?_⟩
  · intro a
    exact Std.ReflCmp.compare_self
  · intro a b
    exact Std.OrientedCmp.eq_swap
  · intro a b c hab hbc
    exact Ordering.isLE_iff_ne_gt.mp
      (Std.TransCmp.isLE_trans (Ordering.isLE_iff_ne_gt.mpr hab) (Ordering.isLE_iff_ne_gt.mpr hbc))
  · intro a b h
    exact Ordering.isLE_iff_ne_gt.mp ((isLE_compareLeading_iff a b).mpr (leading_le_leading h))
  · intro msgids hne hs
    simp only [← leading_ne_nil_iff] at hne
    exact checkSorted_eq_ok_iff.mpr (ordered_of_sorted hne hs)
  · intro msgids
    simp only [checkSorted_eq_ok_iff, ordered_drop_iff_getElem, leading_ne_nil_iff]

/-- A msgid with a plural part is equal to one with another, and stands in front of one that continues
what is before its NUL. -/
theorem lookup_order_lawful_plural :
    compareLeading [97, 0, 122] [97, 0, 1] = .eq ∧ compareLeading [97, 0, 122] [97, 1] ≠ .gt ∧
      checkSorted [[], [97, 0, 122], [97, 1]] = .ok () := by
  have hne : ∀ key ∈ ([[], [97, 0, 122], [97, 1]] : List (List UInt8)).drop 1,
      ¬ IsSegment key 0 [] := by
    simp only [← leading_ne_nil_iff]
    decide
  exact ⟨(lookup_order_lawful.2.2.2.1 [97, 0, 122] [97, 0, 1]).mpr
      ⟨[97], isSegment_zero_iff.mpr rfl, isSegment_zero_iff.mpr rfl⟩,
    lookup_order_lawful.2.2.2.2.1 [97, 0, 122] [97, 1] (by decide),
    lookup_order_lawful.2.2.2.2.2.1 [[], [97, 0, 122], [97, 1]] hne (by decide)⟩

end MessageCatalog.Layout
