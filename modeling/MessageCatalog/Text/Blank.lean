/-! White space in the sense of the Unicode property `White_Space`, and trimming by it. -/

namespace MessageCatalog.Text

/-- The code points with the property `White_Space`. -/
def isBlank (c : Char) : Bool :=
  let k := c.toNat
  (0x09 ≤ k && k ≤ 0x0D) || k == 0x20 || k == 0x85 || k == 0xA0 || k == 0x1680 ||
    (0x2000 ≤ k && k ≤ 0x200A) || k == 0x2028 || k == 0x2029 || k == 0x202F || k == 0x205F ||
    k == 0x3000

def trimStart (cs : List Char) : List Char :=
  cs.dropWhile isBlank

def trimEnd (cs : List Char) : List Char :=
  (cs.reverse.dropWhile isBlank).reverse

def trim (cs : List Char) : List Char :=
  trimEnd (trimStart cs)

theorem isBlank_of_isDigit {c : Char} (h : c.isDigit) : isBlank c = false := by
  have hd : '0'.val ≤ c.val ∧ c.val ≤ '9'.val := by simpa [Char.isDigit] using h
  have h0 : 48 ≤ c.toNat := UInt32.le_iff_toNat_le.mp hd.1
  have h9 : c.toNat ≤ 57 := UInt32.le_iff_toNat_le.mp hd.2
  simp only [isBlank, Bool.or_eq_false_iff, Bool.and_eq_false_iff, decide_eq_false_iff_not,
    beq_eq_false_iff_ne]
  omega

theorem trim_cons_of_blank {c : Char} (h : isBlank c) (cs : List Char) :
    trim (c :: cs) = trim cs := by
  simp [trim, trimStart, h]

/-- Blanks are cut off in front of the first other character only. -/
theorem trim_append {front : List Char} (h : trimStart front ≠ []) (rest : List Char) :
    trim (front ++ rest) = trimEnd (trimStart front ++ rest) := by
  rw [trimStart] at h
  rw [trim, trimStart, trimStart, List.dropWhile_append, if_neg (by simpa using h)]

/-- Trimming stops at the last character that is not blank. -/
theorem trimEnd_append_cons {c : Char} (h : isBlank c = false) (before rest : List Char) :
    trimEnd (before ++ c :: rest) = before ++ c :: trimEnd rest := by
  have hr : (before ++ c :: rest).reverse = rest.reverse ++ c :: before.reverse := by simp
  rw [trimEnd, trimEnd, hr, List.dropWhile_append]
  split
  · next he => simp [List.isEmpty_iff.mp he, h]
  · simp

theorem trimEnd_of_blank {cs : List Char} (h : ∀ c ∈ cs, isBlank c) : trimEnd cs = [] := by
  have hd : cs.reverse.dropWhile isBlank = [] := by
    rw [← List.append_nil cs.reverse, List.dropWhile_append_of_pos (by simpa using h),
      List.dropWhile_nil]
  rw [trimEnd, hd, List.reverse_nil]

theorem exists_trimStart (cs : List Char) :
    ∃ blanks, cs = blanks ++ trimStart cs ∧ ∀ c ∈ blanks, isBlank c :=
  ⟨cs.takeWhile isBlank, List.takeWhile_append_dropWhile.symm, List.all_eq_true.mp List.all_takeWhile⟩

theorem exists_trimEnd (cs : List Char) :
    ∃ blanks, cs = trimEnd cs ++ blanks ∧ ∀ c ∈ blanks, isBlank c := by
  obtain ⟨blanks, hcs, hblank⟩ := exists_trimStart cs.reverse
  refine ⟨blanks.reverse, ?_, by simpa using hblank⟩
  rw [trimEnd, ← trimStart, ← List.reverse_append, ← hcs, List.reverse_reverse]

/-- Trimming takes away blanks at the ends and nothing else. -/
theorem exists_trim (cs : List Char) :
    ∃ front back, cs = front ++ trim cs ++ back ∧ (∀ c ∈ front, isBlank c) ∧ ∀ c ∈ back, isBlank c := by
  obtain ⟨front, hfront, hf⟩ := exists_trimStart cs
  obtain ⟨back, hback, hb⟩ := exists_trimEnd (trimStart cs)
  refine ⟨front, back, ?_, hf, hb⟩
  rw [trim, List.append_assoc, ← hback, ← hfront]

theorem trimEnd_append_of_blank {blanks : List Char} (h : ∀ c ∈ blanks, isBlank c) (cs : List Char) :
    trimEnd (cs ++ blanks) = trimEnd cs := by
  rw [trimEnd, trimEnd, List.reverse_append, List.dropWhile_append_of_pos (by simpa using h)]

theorem trim_append_of_blank {blanks : List Char} (h : ∀ c ∈ blanks, isBlank c) (cs : List Char) :
    trim (cs ++ blanks) = trim cs := by
  rw [trim, trim, trimStart, trimStart, List.dropWhile_append]
  split
  · next he =>
      rw [List.isEmpty_iff.mp he, trimEnd_of_blank fun c hc => h c ((List.dropWhile_suffix _).mem hc)]
      rfl
  · exact trimEnd_append_of_blank h _

theorem trim_takeWhile_append {blanks : List Char} (h : ∀ c ∈ blanks, isBlank c) (p : Char → Bool)
    (cs : List Char) : trim ((cs ++ blanks).takeWhile p) = trim (cs.takeWhile p) := by
  rw [List.takeWhile_append]
  split
  · next hlength =>
      rw [(List.takeWhile_prefix p).eq_of_length hlength]
      exact trim_append_of_blank (fun c hc => h c ((List.takeWhile_prefix p).mem hc)) cs
  · rfl

end MessageCatalog.Text
