/-! Binary search by a three-way probe. -/

namespace MessageCatalog

/-- An index of the half-open interval from `lo` to `hi` at which `probe` reports a match. The probe
tells on which side of it a match has to lie otherwise. -/
def search (probe : Nat → Ordering) (lo hi : Nat) : Option Nat :=
  if lo < hi then
    let mid := lo + (hi - lo) / 2
    match probe mid with
    | .eq => some mid
    | .lt => search probe (mid + 1) hi
    | .gt => search probe lo mid
  else none
termination_by hi - lo

/-- The probe answers as on a sorted sequence: what lies before an element too small is too small, and
what lies after one too large is too large. -/
structure Monotone (probe : Nat → Ordering) (lo hi : Nat) : Prop where
  lt_of_lt : ∀ i j, lo ≤ i → i < j → j < hi → probe j = .lt → probe i = .lt
  gt_of_gt : ∀ i j, lo ≤ i → i < j → j < hi → probe i = .gt → probe j = .gt

/-- A search reports nothing but matches inside its interval. -/
theorem search_sound {probe : Nat → Ordering} {lo hi i : Nat} (h : search probe lo hi = some i) :
    lo ≤ i ∧ i < hi ∧ probe i = .eq := by
  fun_induction search probe lo hi with
  | case1 lo hi hlt mid he =>
      obtain rfl := Option.some.inj h
      exact ⟨by omega, by omega, he⟩
  | case2 lo hi hlt mid he ih =>
      have := ih h
      exact ⟨by omega, this.2⟩
  | case3 lo hi hlt mid he ih =>
      have := ih h
      exact ⟨this.1, by omega, this.2.2⟩
  | case4 => cases h

/-- On a sorted sequence a search misses no match. -/
theorem search_isSome {probe : Nat → Ordering} {lo hi i : Nat} (h : Monotone probe lo hi)
    (hlo : lo ≤ i) (hhi : i < hi) (he : probe i = .eq) : (search probe lo hi).isSome := by
  fun_induction search probe lo hi with
  | case1 => rfl
  | case2 lo hi hlt mid hm' ih =>
      have hmid : mid < i := by
        rcases Nat.lt_trichotomy mid i with hm | hm | hm
        · exact hm
        · simp_all
        · have := h.lt_of_lt i mid hlo hm (by omega) hm'
          simp_all
      exact ih ⟨fun a b ha => h.lt_of_lt a b (by omega), fun a b ha => h.gt_of_gt a b (by omega)⟩
        hmid hhi
  | case3 lo hi hlt mid hm' ih =>
      have hmid : i < mid := by
        rcases Nat.lt_trichotomy i mid with hm | hm | hm
        · exact hm
        · simp_all
        · have := h.gt_of_gt mid i (by omega) hm hhi hm'
          simp_all
      exact ih ⟨fun a b ha hab hb => h.lt_of_lt a b ha hab (by omega),
        fun a b ha hab hb => h.gt_of_gt a b ha hab (by omega)⟩ hlo hmid
  | case4 => omega

end MessageCatalog
