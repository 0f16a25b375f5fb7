import MessageCatalog.Bytes.Cluster
import Mathlib.Order.Basic

/-! # The order of leading strings

Comparing byte by byte is the lexicographic order, so clusters are ordered totally by their leading
strings. Where whole clusters are in order, so are their leading strings. -/

namespace MessageCatalog.Bytes

/-! ## Comparing strings of bytes -/

theorem compare_eq_lt_iff (a b : List UInt8) : compare a b = .lt ↔ a < b := by
  induction a generalizing b with
  | nil =>
      cases b with
      | nil => simp
      | cons y ys => simp
  | cons x xs ih =>
      cases b with
      | nil => simp
      | cons y ys =>
          rw [List.compare_cons_cons, List.cons_lt_cons_iff, Ordering.then_eq_lt, ih ys,
            Std.compare_eq_lt, Std.LawfulEqOrd.compare_eq_iff_eq]

theorem compare_eq_gt_iff (a b : List UInt8) : compare a b = .gt ↔ b < a := by
  rw [Std.OrientedOrd.eq_swap (a := a), Ordering.swap_eq_gt, compare_eq_lt_iff]

/-! ## Clusters -/

/-- The leading string is all that is compared, also if it is given alone. -/
theorem leading_leading (bytes : List UInt8) : leading (leading bytes) = leading bytes :=
  leading_eq_self (zero_not_mem_leading bytes)

theorem compareLeading_eq_eq_iff (a b : List UInt8) :
    compareLeading a b = .eq ↔ leading a = leading b :=
  Std.LawfulEqOrd.compare_eq_iff_eq

theorem compareLeading_eq_lt_iff (a b : List UInt8) :
    compareLeading a b = .lt ↔ leading a < leading b :=
  compare_eq_lt_iff _ _

theorem compareLeading_eq_gt_iff (a b : List UInt8) :
    compareLeading a b = .gt ↔ leading b < leading a :=
  compare_eq_gt_iff _ _

theorem isLE_compareLeading_iff (a b : List UInt8) :
    (compareLeading a b).isLE = true ↔ leading a ≤ leading b := by
  rw [Ordering.isLE_iff_ne_gt]
  exact (compareLeading_eq_gt_iff a b).not.trans List.not_lt

instance : Std.OrientedCmp compareLeading where
  eq_swap := Std.OrientedOrd.eq_swap

instance : Std.TransCmp compareLeading where
  isLE_trans := Std.TransOrd.isLE_trans

/-! ## Whole clusters -/

theorem leading_zero_cons (bytes : List UInt8) : leading (0 :: bytes) = [] := by
  simp [leading]

theorem leading_cons_of_ne {b : UInt8} (h : b ≠ 0) (bytes : List UInt8) :
    leading (b :: bytes) = b :: leading bytes := by
  simp [leading, h]

/-- No byte is less than the NUL that ends a leading string, so that cutting two clusters at different
places never turns their order round. -/
theorem leading_le_leading {a b : List UInt8} (h : a ≤ b) : leading a ≤ leading b := by
  induction a generalizing b with
  | nil => simp [leading]
  | cons x xs ih =>
      by_cases hx : x = 0
      · simp [hx, leading_zero_cons]
      · cases b with
        | nil => simp at h
        | cons y ys =>
            rw [List.cons_le_cons_iff] at h
            have hy : y ≠ 0 := by
              intro hy
              subst hy
              cases h with
              | inl h => exact absurd h UInt8.not_lt_zero
              | inr h => exact hx h.1
            rw [leading_cons_of_ne hx, leading_cons_of_ne hy, List.cons_le_cons_iff]
            cases h with
            | inl h => exact .inl h
            | inr h => exact .inr ⟨h.1, ih h.2⟩

/-! ## Segments -/

/-- The first string of a cluster is its leading one. -/
theorem head?_segments (bytes : List UInt8) : (segments bytes).head? = some (leading bytes) := by
  induction bytes with
  | nil => rfl
  | cons b bs ih =>
      rw [segments, List.splitOn_cons_eq_if_modifyHead]
      by_cases h : b = 0
      · simp [leading, h]
      · rw [segments] at ih
        simp [leading, h, List.head?_modifyHead, ih]

end MessageCatalog.Bytes
