import MessageCatalog.Proofs.Bytes.Order
import Mathlib.Data.List.Infix

/-! # Strings of a cluster

A cluster has one string more than it has NULs, and string `k` is what stands behind `k` NULs up to
the next one.
-/

namespace MessageCatalog.Bytes

/-- `s` stands in `bytes` behind `k` NULs, between the last of them and the next, or between the ends
of `bytes` where there is none. -/
def IsSegment (bytes : List UInt8) (k : Nat) (s : List UInt8) : Prop :=
  0 ∉ s ∧ ∃ front back, bytes = front ++ s ++ back ∧ front.count 0 = k ∧
    (front = [] ∨ [0] <:+ front) ∧ (back = [] ∨ [0] <+: back)

theorem length_segments (bytes : List UInt8) : (segments bytes).length = bytes.count 0 + 1 := by
  induction bytes with
  | nil => rfl
  | cons b bs ih =>
      rw [segments] at ih ⊢
      rw [List.splitOn_cons_eq_if_modifyHead]
      by_cases h : b = 0
      · simp [h, ih]
      · simp [h, ih]

/-- The first string ends where the rest begins. -/
theorem segments_append {s back : List UInt8} (hs : 0 ∉ s) (hback : back = [] ∨ [0] <+: back) :
    ∃ rest, segments (s ++ back) = s :: rest := by
  rcases hback with rfl | ⟨tail, rfl⟩
  · exact ⟨[], by rw [segments, List.append_nil, List.splitOn_eq_singleton hs]⟩
  · exact ⟨segments tail, List.splitOn_append_cons_self_of_not_mem hs tail⟩

theorem IsSegment.getElem?_segments {bytes s : List UInt8} {k : Nat} (h : IsSegment bytes k s) :
    (segments bytes)[k]? = some s := by
  obtain ⟨hs, front, back, rfl, rfl, hfront, hback⟩ := h
  obtain ⟨rest, hrest⟩ := segments_append hs hback
  rcases hfront with rfl | ⟨init, rfl⟩
  · rw [List.nil_append, hrest]
    rfl
  · -- Every NUL of the front ends one of the strings in front of `s`.
    have hlength : (segments init).length = (init ++ [0]).count 0 := by
      rw [length_segments, List.count_append]
      rfl
    calc
      (segments (init ++ [0] ++ s ++ back))[(init ++ [0]).count 0]? =
          (segments init ++ segments (s ++ back))[(segments init).length]? := by
        rw [hlength, segments, segments, segments, ← List.splitOn_append_cons_self]
        simp
      _ = some s := by simp [hrest]

theorem IsSegment.of_append {bytes s first : List UInt8} {k : Nat} (h : IsSegment bytes k s)
    (hfirst : 0 ∉ first) : IsSegment (first ++ 0 :: bytes) (k + 1) s := by
  obtain ⟨hs, front, back, rfl, rfl, hfront, hback⟩ := h
  refine ⟨hs, first ++ 0 :: front, back, by simp, ?_, .inr ?_, hback⟩
  · simp [List.count_eq_zero.mpr hfirst]
  · rcases hfront with rfl | hfront
    · exact List.suffix_append first [0]
    · exact hfront.trans ((List.suffix_cons 0 front).trans (List.suffix_append first _))

theorem exists_isSegment {bytes : List UInt8} {k : Nat} (h : k < bytes.count 0 + 1) :
    ∃ s, IsSegment bytes k s := by
  induction k generalizing bytes with
  | zero =>
      refine ⟨leading bytes, zero_not_mem_leading bytes, [], bytes.dropWhile (· != 0), ?_, rfl,
        .inl rfl, ?_⟩
      · exact List.takeWhile_append_dropWhile.symm
      · cases hd : bytes.dropWhile (· != 0) with
        | nil => exact .inl rfl
        | cons b bs =>
            have hb := List.head?_dropWhile_not (· != 0) bytes
            rw [hd] at hb
            obtain rfl : b = 0 := by simpa using hb
            exact .inr ⟨bs, rfl⟩
  | succ k ih =>
      have hmem : 0 ∈ bytes := List.count_pos_iff.mp (by omega)
      obtain ⟨first, rest, rfl, hfirst⟩ := List.eq_append_cons_of_mem hmem
      have hcount : k < rest.count 0 + 1 := by
        simp only [List.count_append, List.count_eq_zero.mpr hfirst, List.count_cons_self] at h
        omega
      obtain ⟨s, hs⟩ := ih hcount
      exact ⟨s, hs.of_append hfirst⟩

theorem getElem?_segments_eq_some_iff {bytes s : List UInt8} {k : Nat} :
    (segments bytes)[k]? = some s ↔ IsSegment bytes k s := by
  constructor
  · intro h
    have hk := (List.getElem?_eq_some_iff.mp h).1
    rw [length_segments] at hk
    obtain ⟨t, ht⟩ := exists_isSegment hk
    obtain rfl := Option.some.inj (h.symm.trans ht.getElem?_segments)
    exact ht
  · exact IsSegment.getElem?_segments

theorem isSegment_zero_iff {bytes s : List UInt8} : IsSegment bytes 0 s ↔ s = leading bytes := by
  rw [← getElem?_segments_eq_some_iff, ← List.head?_eq_getElem?, head?_segments, Option.some.injEq,
    eq_comm]

end MessageCatalog.Bytes
