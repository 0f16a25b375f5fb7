import MessageCatalog.Proofs.Settings.Named
import MessageCatalog.Proofs.Settings.Written
import MessageCatalog.Settings.Source

/-! # Settings written in TOML

A document with a name and its value on each line is read as the settings that these tell, and refused
where they tell none. Integers of the format have 64 bits and a sign, so that no size of more than 63
bits can be written. -/

namespace MessageCatalog.Settings.Toml

open Text Text.Scan

/-! ## Strings -/

theorem isPlain_of_isLiteral {c : Char} (h : IsLiteral c) : isPlain c = true := by
  obtain ⟨hspace, -, -, hdelete⟩ := h
  have hle : 32 ≤ c.toNat := UInt32.le_iff_toNat_le.mp hspace
  have hne : c.toNat ≠ 127 := fun he => hdelete (Char.toNat_inj.mp he)
  have htilde : c ≤ '~' ∨ '\x80' ≤ c := by
    rcases Nat.lt_or_gt_of_ne hne with hlt | hlt
    · exact .inl (UInt32.le_iff_toNat_le.mpr (Nat.le_of_lt_succ hlt))
    · exact .inr (UInt32.le_iff_toNat_le.mpr hlt)
  simp only [isPlain, Bool.or_eq_true, Bool.and_eq_true, decide_eq_true_eq]
  rcases htilde with h | h
  · exact .inl (.inr ⟨hspace, h⟩)
  · exact .inr h

def stringChar : Scan Char :=
  escape <|> satisfy fun c => isPlain c && c != '"' && c != '\\'

theorem escape_eq_none {cs : List Char} (h : cs.head? ≠ some '\\') : escape cs = none :=
  bind_of_none (char_eq_none h)

theorem stringChar_quotedChar (c : Char) (rest : List Char) :
    stringChar (quotedChar c ++ rest) = some (c, rest) := by
  unfold quotedChar stringChar
  split
  · next h =>
      have hhead : ([c] ++ rest).head? ≠ some '\\' := fun he => h.2.2.1 (Option.some.inj he)
      rw [orElse_of_none (escape_eq_none hhead)]
      exact satisfy_cons (by simp [isPlain_of_isLiteral h, h.2.1, h.2.2.1]) rest
  · next h =>
      have hread := hexNumber_byte (Nat.lt_trans (toNat_lt_of_not_isLiteral h) (by decide)) rest
      refine orElse_of_some ?_
      simp only [List.cons_append, List.nil_append]
      rw [escape, bind_of_some (char_cons _ _), bind_of_some (satisfy_cons rfl _)]
      change (hexNumber 4 >>= fun k => liftM (scalar? k)) _ = _
      rw [bind_of_some hread, scalar?_toNat]
      rfl

theorem basicString_quoted (text : String) (rest : List Char) :
    basicString (quoted text ++ rest) = some (text, rest) := by
  have hmany := many_quoted (f := id) stringChar_quotedChar (fun _ => rfl) text.toList rest
  rw [List.map_id] at hmany
  rw [quoted_append, basicString, bind_of_some (char_cons _ _)]
  change (many stringChar >>= _) _ = _
  rw [bind_of_some hmany, bind_of_some (char_cons _ _), String.ofList_toList]
  rfl

/-- A line ends here. -/
def EndsLine (rest : List Char) : Prop :=
  ∀ c ∈ rest.head?, c = '\n'

theorem EndsLine.head?_ne {rest : List Char} (h : EndsLine rest) {c : Char} (hc : c ≠ '\n') :
    rest.head? ≠ some c :=
  fun he => hc (h c he)

theorem head?_quotedChar_append (c : Char) (rest : List Char) :
    (quotedChar c ++ rest).head? ≠ some '"' := by
  unfold quotedChar
  split
  · next h => exact fun he => h.2.1 (Option.some.inj he)
  · exact fun he => absurd (Option.some.inj he) (by decide)

/-- A string of one line does not start as one of several lines does. -/
theorem basicBlock_quoted (text : String) {rest : List Char} (h : rest.head? ≠ some '"') :
    basicBlock (quoted text ++ rest) = none := by
  have htimes : times (char '"') 2 (text.toList.flatMap quotedChar ++ '"' :: rest) = none := by
    cases text.toList with
    | nil => exact times_eq_none_of_some (char_cons _ _) (times_eq_none (char_eq_none h) 0)
    | cons c cs =>
        rw [List.flatMap_cons, List.append_assoc]
        exact times_eq_none (char_eq_none (head?_quotedChar_append c _)) 1
  rw [quoted_append]
  exact bind_of_none (map_of_none (times_eq_none_of_some (char_cons _ _) htimes))

theorem block_eq_none {quote : Char} {piece : Scan (List Char)} {cs : List Char}
    (h : cs.head? ≠ some quote) : block quote piece cs = none :=
  bind_of_none (map_of_none (times_eq_none (char_eq_none h) 2))

theorem string_quoted (text : String) {rest : List Char} (h : rest.head? ≠ some '"') :
    string (quoted text ++ rest) = some (text, rest) := by
  have hliteral : literalBlock (quoted text ++ rest) = none :=
    block_eq_none fun he => absurd (Option.some.inj he) (by decide)
  rw [string, orElse_of_none (basicBlock_quoted text h), orElse_of_none hliteral]
  exact orElse_of_some (basicString_quoted text rest)

theorem string_eq_none {cs : List Char} (h : cs.head? ≠ some '"') (h' : cs.head? ≠ some '\x27') :
    string cs = none := by
  have hbasic : basicBlock cs = none := block_eq_none h
  have hliteral : literalBlock cs = none := block_eq_none h'
  have hline : basicString cs = none := bind_of_none (char_eq_none h)
  rw [string, orElse_of_none hbasic, orElse_of_none hliteral, orElse_of_none hline]
  exact bind_of_none (char_eq_none h')

/-! ## Keys -/

theorem spaces_cons {c : Char} (h : isSpace c = false) (cs : List Char) :
    spaces (c :: cs) = some ((), c :: cs) :=
  discard_run (by rintro _ ⟨⟩; exact h)

theorem EndsLine.spaces_eq {rest : List Char} (h : EndsLine rest) :
    spaces rest = some ((), rest) :=
  discard_run fun c hc => h c hc ▸ rfl

theorem dottedKey_quoted (name : String) (rest : List Char) :
    dottedKey (quoted name ++ ' ' :: '=' :: rest) = some ([name], '=' :: rest) := by
  have hkey : simpleKey (quoted name ++ ' ' :: '=' :: rest) = some (name, ' ' :: '=' :: rest) :=
    orElse_of_some (basicString_quoted name _)
  have hspaces : spaces (' ' :: '=' :: rest) = some ((), '=' :: rest) :=
    discard_run_cons rfl (by rintro _ ⟨⟩; rfl)
  have hmore : many (char '.' *> (spaces *> simpleKey <* spaces)) ('=' :: rest) =
      some ([], '=' :: rest) := many_of_none (seqRight_of_none rfl)
  have hitem : (spaces *> simpleKey <* spaces) (quoted name ++ ' ' :: '=' :: rest) =
      some (name, '=' :: rest) :=
    seqLeft_of_some ((seqRight_of_some (spaces_cons (by decide) _)).trans hkey) hspaces
  have hkeys : sepBy1 (spaces *> simpleKey <* spaces) (char '.')
      (quoted name ++ ' ' :: '=' :: rest) = some ([name], '=' :: rest) := by
    rw [sepBy1, bind_of_some hitem, bind_of_some hmore]
    rfl
  rw [dottedKey, bind_of_some hkeys]
  rfl

/-! ## Numbers -/

section Numbers

variable {digits rest cs : List Char}

/-- Nothing but digits stands in front of the end of the line. -/
def Numeric (cs : List Char) : Prop :=
  EndsLine (cs.dropWhile Char.isDigit)

theorem Numeric.head?_ne (h : Numeric cs) {c : Char} (hdigit : c.isDigit = false) (hc : c ≠ '\n') :
    cs.head? ≠ some c := by
  intro he
  obtain ⟨ds, rfl⟩ := List.head?_eq_some_iff.mp he
  refine hc (h c ?_)
  rw [List.dropWhile_cons_of_neg (by simp [hdigit])]
  rfl

theorem numeric_append_iff (hdigits : ∀ c ∈ digits, c.isDigit = true) :
    Numeric (digits ++ rest) ↔ Numeric rest := by
  rw [Numeric, Numeric, List.dropWhile_append_of_pos hdigits]

theorem EndsLine.numeric (h : EndsLine rest) : Numeric rest := by
  cases rest with
  | nil => exact h
  | cons c rest =>
      obtain rfl := h c rfl
      exact h

theorem Numeric.of_numberBetween {n low high k : Nat} (h : Numeric cs)
    (hk : numberBetween n low high cs = some (k, rest)) : Numeric rest := by
  unfold numberBetween at hk
  cases htimes : times (satisfy Char.isDigit) n cs with
  | none =>
      rw [bind_of_none htimes] at hk
      cases hk
  | some taken =>
      obtain ⟨digits, rest'⟩ := taken
      rw [bind_of_some htimes] at hk
      obtain ⟨rfl, hdigits⟩ := eq_append_of_times_satisfy htimes
      split at hk
      · cases hk
        exact (numeric_append_iff hdigits).mp h
      · cases hk

/-- A date would have a dash behind its first digits, and a time a colon. -/
theorem dateTime_eq_none (h : Numeric cs) : dateTime cs = none := by
  have hdate : date cs = none := by
    cases hk : numberBetween 4 0 9999 cs with
    | none => exact bind_of_none hk
    | some taken =>
        rw [date, bind_of_some hk]
        exact bind_of_none (char_eq_none ((h.of_numberBetween hk).head?_ne rfl (by decide)))
  have htime : time cs = none := by
    cases hk : numberBetween 2 0 23 cs with
    | none => exact bind_of_none (map_of_none hk)
    | some taken =>
        rw [time, bind_of_some (discard_of_some hk)]
        exact bind_of_none (char_eq_none ((h.of_numberBetween hk).head?_ne rfl (by decide)))
  rw [dateTime, orElse_of_none (bind_of_none hdate)]
  exact htime

theorem sign_append (h : Numeral digits) (rest : List Char) :
    sign (digits ++ rest) = some (false, digits ++ rest) := by
  rw [sign, orElse_of_none (seqRight_of_none (char_eq_none (h.head?_append_ne rfl rest))),
    orElse_of_none (seqRight_of_none (char_eq_none (h.head?_append_ne rfl rest)))]
  rfl

theorem digitRun_append (h : Numeral digits) (hrest : EndsLine rest) :
    digitRun Char.isDigit (digits ++ rest) = some (digits, rest) := by
  obtain ⟨c, ds, rfl⟩ := List.exists_cons_of_ne_nil h.ne_nil
  obtain ⟨hc, hds⟩ := List.forall_mem_cons.mp h.isDigit
  have hstop : (satisfy Char.isDigit <|> (char '_' *> satisfy Char.isDigit)) rest = none := by
    rw [orElse_of_none (satisfy_eq_none fun c hc => hrest c hc ▸ rfl)]
    exact seqRight_of_none (char_eq_none (hrest.head?_ne (by decide)))
  have hmany : many (satisfy Char.isDigit <|> (char '_' *> satisfy Char.isDigit))
      (ds.flatMap (fun d => [d]) ++ rest) = some (ds.map id, rest) :=
    many_flatMap (fun _ => True) (fun d hd rest _ => orElse_of_some (satisfy_cons (hds d hd) rest))
      (fun _ _ _ => trivial) (fun _ _ => List.cons_ne_nil _ _) trivial hstop
  rw [List.map_id, List.flatMap_singleton'] at hmany
  rw [digitRun, List.cons_append, bind_of_some (satisfy_cons hc _)]
  exact map_of_some hmany

theorem wholeDigits_append (h : Numeral digits) (hrest : EndsLine rest) :
    wholeDigits (digits ++ rest) = some (digits, rest) := by
  have hzero : ¬ (digits.length > 1 ∧ digits.head? = some '0') := by
    rintro ⟨hlength, hhead⟩
    rw [h.head hhead] at hlength
    exact absurd hlength (by decide)
  refine orElse_of_some ?_
  rw [bind_of_some (digitRun_append h hrest), if_neg hzero]
  rfl

/-- A float would have a point or an exponent behind its first digits. -/
theorem float_eq_none (h : Numeral digits) (hrest : EndsLine rest) :
    float (digits ++ rest) = none := by
  have hfraction : optional (char '.' *> digitRun Char.isDigit) rest = some (none, rest) :=
    optional_of_none (seqRight_of_none (char_eq_none (hrest.head?_ne (by decide))))
  have hexponent : optional exponentPart rest = some (none, rest) :=
    optional_of_none (bind_of_none (map_of_none (satisfy_eq_none fun c hc => hrest c hc ▸ rfl)))
  rw [float, bind_of_some (sign_append h rest), bind_of_some (wholeDigits_append h hrest),
    bind_of_some hfraction, bind_of_some hexponent]
  rfl

theorem decimal_append (h : Numeral digits) (hrest : EndsLine rest) :
    decimal (digits ++ rest) = some ((decimalValue digits : Int), rest) := by
  rw [decimal, bind_of_some (sign_append h rest), bind_of_some (wholeDigits_append h hrest)]
  rfl

/-- No letter stands behind the first digit. -/
theorem inBase_eq_none (h : Numeric cs) {mark : String} {c : Char} (hmark : mark.toList = ['0', c])
    (hdigit : c.isDigit = false) (hc : c ≠ '\n') (base : Nat) : inBase mark base cs = none := by
  refine bind_of_none (if_neg fun hprefix => ?_)
  obtain ⟨ds, rfl⟩ := List.isPrefixOf_iff_prefix.mp hprefix
  rw [hmark] at h
  have htail : Numeric (c :: ds) := (numeric_append_iff (List.forall_mem_singleton.mpr rfl)).mp h
  exact htail.head?_ne hdigit hc rfl

theorem integer_append (h : Numeral digits) (hrest : EndsLine rest)
    (hsize : (decimalValue digits : Int) ≤ Int64.maxValue.toInt) :
    integer (digits ++ rest) = some ((decimalValue digits : Int), rest) := by
  have hnumeric : Numeric (digits ++ rest) := (numeric_append_iff h.isDigit).mpr hrest.numeric
  have hread : (inBase "0x" 16 <|> inBase "0o" 8 <|> inBase "0b" 2 <|> decimal) (digits ++ rest) =
      some ((decimalValue digits : Int), rest) := by
    rw [orElse_of_none (inBase_eq_none hnumeric rfl rfl (by decide) 16),
      orElse_of_none (inBase_eq_none hnumeric rfl rfl (by decide) 8),
      orElse_of_none (inBase_eq_none hnumeric rfl rfl (by decide) 2)]
    exact decimal_append h hrest
  have hmin : Int64.minValue.toInt ≤ (decimalValue digits : Int) :=
    Int.le_trans (by decide) (Int.natCast_nonneg _)
  rw [integer, bind_of_some hread, if_pos ⟨hmin, hsize⟩]
  rfl

end Numbers

/-! ## Values -/

/-- A size has to fit an integer of the format. -/
def Writable (v : Scalar) : Prop :=
  ∀ k, v = .size k → (k.toNat : Int) ≤ Int64.maxValue.toInt

theorem atom_digits {k : UInt64} {rest : List Char} (hrest : EndsLine rest)
    (hsize : (k.toNat : Int) ≤ Int64.maxValue.toInt) :
    atom (Nat.toDigits 10 k.toNat ++ rest) = some (.size k, rest) := by
  have h := numeral_toDigits k.toNat
  have hhead {c : Char} (hc : c.isDigit = false) := h.head?_append_ne hc rest
  have hnumeric : Numeric (Nat.toDigits 10 k.toNat ++ rest) :=
    (numeric_append_iff h.isDigit).mpr hrest.numeric
  have hspecial : specialFloat (Nat.toDigits 10 k.toNat ++ rest) = none := by
    rw [specialFloat, bind_of_some (discard_of_some (sign_append h rest)),
      orElse_of_none (word_eq_none rfl (hhead rfl))]
    exact word_eq_none rfl (hhead rfl)
  rw [← decimalValue_toDigits k.toNat] at hsize
  have hread := integer_append h hrest hsize
  rw [decimalValue_toDigits] at hread
  rw [atom, orElse_of_none (map_of_none (string_eq_none (hhead rfl) (hhead rfl))),
    orElse_of_none (seqRight_of_none (word_eq_none rfl (hhead rfl))),
    orElse_of_none (seqRight_of_none (word_eq_none rfl (hhead rfl))),
    orElse_of_none (seqRight_of_none (dateTime_eq_none hnumeric)),
    orElse_of_none (seqRight_of_none (float_eq_none h hrest)),
    orElse_of_none (seqRight_of_none hspecial), map_of_some hread]
  simp [sizeOfInteger]

theorem value_emptyArray (depth : Nat) (rest : List Char) :
    value (depth + 1) ('[' :: ']' :: rest) = some (.other, rest) := by
  have hgaps : gaps (']' :: rest) = some ((), ']' :: rest) := discard_of_some (many_of_none rfl)
  have hitem : value depth (']' :: rest) = none := by
    cases depth <;> rfl
  have hitems : optional (sepBy1 (value depth <* gaps) (char ',' <* gaps) <*
      optional (char ',' <* gaps)) (']' :: rest) = some (none, ']' :: rest) :=
    optional_of_none (seqLeft_of_none (bind_of_none (seqLeft_of_none hitem)))
  have hatom : atom ('[' :: ']' :: rest) = none := rfl
  rw [value, orElse_of_none hatom]
  refine orElse_of_some ?_
  rw [array, bind_of_some (char_cons _ _), bind_of_some hgaps, bind_of_some (discard_of_some hitems),
    bind_of_some (char_cons _ _)]
  rfl

/-- A written value is read as itself. -/
theorem value_written {v : Scalar} (hv : Writable v) (depth : Nat) {rest : List Char}
    (hrest : EndsLine rest) : value (depth + 1) (v.written ++ rest) = some (v, rest) := by
  cases v with
  | text t =>
      have hread := string_quoted t (hrest.head?_ne (by decide))
      exact orElse_of_some (orElse_of_some (map_of_some hread))
  | flag b =>
      refine orElse_of_some ?_
      cases b with
      | true =>
          have hstring : string ("true".toList ++ rest) = none := rfl
          rw [Scalar.written, atom, orElse_of_none (map_of_none hstring)]
          exact orElse_of_some (seqRight_of_some (word_append _ _))
      | false =>
          have hstring : string ("false".toList ++ rest) = none := rfl
          rw [Scalar.written, atom, orElse_of_none (map_of_none hstring), orElse_of_none rfl]
          exact orElse_of_some (seqRight_of_some (word_append _ _))
  | size k => exact orElse_of_some (atom_digits hrest (hv k rfl))
  | other => exact value_emptyArray depth rest

/-! ## Lines -/

/-- A name and its value on one line. -/
def lineText (field : String × Scalar) : List Char :=
  quoted field.1 ++ ' ' :: '=' :: ' ' :: field.2.written

def written (values : List (String × Scalar)) : String :=
  .ofList (joined '\n' lineText values)

theorem le_space_of_isSpace {c : Char} (h : isSpace c = true) : c ≤ ' ' := by
  simp only [isSpace, Bool.or_eq_true, beq_iff_eq] at h
  rcases h with rfl | rfl <;> decide

theorem spaces_written (v : Scalar) (rest : List Char) :
    spaces (' ' :: (v.written ++ rest)) = some ((), v.written ++ rest) := by
  obtain ⟨c, cs, hcs, hc⟩ := v.exists_written
  rw [hcs]
  refine discard_run_cons rfl ?_
  rintro _ ⟨⟩
  exact Bool.eq_false_iff.mpr fun hspace => Char.not_le.mpr hc (le_space_of_isSpace hspace)

theorem pair_lineText {f : String × Scalar} (hf : Writable f.2) (depth : Nat) {rest : List Char}
    (hrest : EndsLine rest) :
    pair (value (depth + 1)) (lineText f ++ rest) = some (([f.1], f.2), rest) := by
  rw [lineText, List.append_assoc, pair]
  simp only [List.cons_append]
  rw [bind_of_some (dottedKey_quoted f.1 _), bind_of_some (char_cons _ _),
    bind_of_some (spaces_written f.2 rest)]
  exact map_of_some (value_written hf depth hrest)

theorem line_lineText {f : String × Scalar} (hf : Writable f.2) {rest : List Char}
    (hrest : EndsLine rest) : line (lineText f ++ rest) = some (.assign [f.1] f.2, rest) := by
  have hspaces : spaces (lineText f ++ rest) = some ((), lineText f ++ rest) :=
    spaces_cons (by decide) _
  have hcomment : optional comment rest = some (none, rest) :=
    optional_of_none (seqLeft_of_none (char_eq_none (hrest.head?_ne (by decide))))
  have hpair : (pair (value (nestingLimit - 1)) >>= fun p => pure (Line.assign p.1 p.2))
      (lineText f ++ rest) = some (.assign [f.1] f.2, rest) :=
    map_of_some (f := fun p : List String × Scalar => Line.assign p.1 p.2) (pair_lineText hf 78 hrest)
  rw [line, bind_of_some hspaces, bind_of_some (orElse_of_some hpair),
    bind_of_some hrest.spaces_eq, bind_of_some (discard_of_some hcomment)]
  rfl

/-- The lines of a document with a name and its value on each. Without any it is one empty line. -/
def linesOf : List (String × Scalar) → List Line
  | [] => [.blank]
  | values => values.map fun f => .assign [f.1] f.2

theorem lines_written {values : List (String × Scalar)} (h : ∀ f ∈ values, Writable f.2) :
    lines (joined '\n' lineText values) = some (linesOf values, []) := by
  cases values with
  | nil => rfl
  | cons f values =>
      have hmark : optional (char '\uFEFF') (joined '\n' lineText (f :: values)) =
          some (none, joined '\n' lineText (f :: values)) :=
        optional_of_none (char_eq_none fun he => absurd (Option.some.inj he) (by decide))
      have hlines : sepBy1 line newline (joined '\n' lineText (f :: values) ++ []) =
          some ((f :: values).map fun f => .assign [f.1] f.2, []) :=
        sepBy1_joined (y := ()) EndsLine (fun g hg _ hrest => line_lineText (h g hg) hrest)
          (fun g _ _ => orElse_of_some (word_append "\n" _)) (by rintro _ _ ⟨⟩; rfl) nofun rfl
      rw [List.append_nil] at hlines
      rw [lines, bind_of_some (discard_of_some hmark), hlines]
      rfl

/-! ## Documents -/

theorem add_assign {root : Entries} {name : String} (h : root.lookup name = none) (v : Scalar) :
    Document.add ⟨root, []⟩ (.assign [name] v) = some ⟨root ++ [(name, .value v)], []⟩ := by
  simp [Document.add, assign, change, h]

/-- Names that are new and differ from each other are added with their values. -/
theorem foldlM_add {values : List (String × Scalar)} (hnodup : (values.map Prod.fst).Nodup)
    {root : Entries} (hroot : ∀ name ∈ values.map Prod.fst, root.lookup name = none) :
    (values.map fun f => Line.assign [f.1] f.2).foldlM Document.add ⟨root, []⟩ =
      some ⟨root ++ values.map fun f => (f.1, .value f.2), []⟩ := by
  induction values generalizing root with
  | nil => simp
  | cons f values ih =>
      obtain ⟨hf, hnodup⟩ := List.nodup_cons.mp hnodup
      have hnew := hroot f.1 List.mem_cons_self
      have hrest : ∀ name ∈ values.map Prod.fst,
          (root ++ [(f.1, Node.value f.2)]).lookup name = none := by
        intro name hname
        have hne : name ≠ f.1 := fun he => hf (he ▸ hname)
        rw [List.lookup_append, hroot name (List.mem_cons_of_mem _ hname)]
        simp [List.lookup_cons, beq_false_of_ne hne]
      rw [List.map_cons, List.foldlM_cons, add_assign hnew, Option.bind_eq_bind, Option.bind_some,
        ih hnodup hrest]
      simp

theorem parse?_written {values : List (String × Scalar)} (hnodup : (values.map Prod.fst).Nodup)
    (h : ∀ f ∈ values, Writable f.2) :
    parse? (written values).toList = some (values.map fun f => (f.1, .value f.2)) := by
  have hlines : lines.all (written values).toList = some (linesOf values) := by
    rw [written, String.toList_ofList]
    exact all_of_some (lines_written h)
  have hfold : (linesOf values).foldlM Document.add ⟨[], []⟩ =
      some ⟨values.map fun f => (f.1, .value f.2), []⟩ := by
    cases values with
    | nil => rfl
    | cons f values => exact foldlM_add hnodup fun _ _ => rfl
  rw [parse?, hlines]
  simp [hfold]

/-- The settings that a written document is read as. -/
theorem ofText_written {values : List (String × Scalar)} {s : Settings}
    (hnodup : (values.map Prod.fst).Nodup) (h : ∀ f ∈ values, Writable f.2) :
    ofText .toml (written values) = .ok s ↔ Told values s := by
  have hparse : Settings.parse? (written values) .toml = ofNamed? values := by
    change (parse? (written values).toList).bind settings? = _
    rw [parse?_written hnodup h, Option.bind_some, settings?, List.map_map]
    exact congrArg ofNamed? (List.map_id values)
  rw [← ofNamed?_eq_some_iff, ofText, hparse]
  cases ofNamed? values <;> simp

end MessageCatalog.Settings.Toml
