/-! Clusters: several strings in one, with a NUL after each but the last.

A cluster is looked up by its leading string alone. -/

namespace MessageCatalog.Bytes

/-- The part before the first NUL. -/
def leading (bytes : List UInt8) : List UInt8 :=
  bytes.takeWhile (· != 0)

/-- The strings of a cluster: always one more than it has NULs. -/
def segments (bytes : List UInt8) : List (List UInt8) :=
  bytes.splitOn 0

/-- Orders clusters by their leading strings, which compare byte by byte. -/
def compareLeading (a b : List UInt8) : Ordering :=
  compare (leading a) (leading b)

theorem zero_not_mem_leading (bytes : List UInt8) : 0 ∉ leading bytes := by
  induction bytes with
  | nil => simp [leading]
  | cons b bs ih =>
      by_cases h : b = 0
      · simp [leading, h]
      · simpa [leading, h, Ne.symm h] using ih

theorem leading_eq_self {bytes : List UInt8} (h : 0 ∉ bytes) : leading bytes = bytes := by
  induction bytes with
  | nil => rfl
  | cons b bs ih =>
      simp only [List.mem_cons, not_or] at h
      simpa [leading, Ne.symm h.1] using ih h.2

theorem leading_append_of_notMem {front : List UInt8} (h : 0 ∉ front) (rest : List UInt8) :
    leading (front ++ rest) = front ++ leading rest := by
  refine List.takeWhile_append_of_pos fun b hb => ?_
  have hne : b ≠ 0 := fun he => h (he ▸ hb)
  simpa using hne

/-- What follows a NUL does not count. -/
theorem leading_append_zero (front rest : List UInt8) :
    leading (front ++ 0 :: rest) = leading front := by
  induction front with
  | nil => rfl
  | cons b front ih =>
      rw [leading] at ih ⊢
      by_cases hb : b = 0
      · simp [leading, hb]
      · simp [leading, hb, ih]

end MessageCatalog.Bytes
