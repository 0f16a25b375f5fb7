import MessageCatalog.Proofs.Catalog.Lookup

/-! # Accesses inside the buffer

A load and the queries after it take entries of tables and slices of the buffer without asking
whether there are such. Here each of them is guarded: it has no outcome from the first access on that
goes astray. On what a load has read no guard is ever needed, also where the order of the msgids was
not checked.
-/

namespace MessageCatalog

open Bytes Header Plural Fallible

/-! ## Guarded accesses -/

namespace Span

/-- The span does not run backwards and ends inside the buffer. -/
def Inside (data : Array UInt8) (s : Span) : Prop :=
  s.start.toNat ≤ s.stop.toNat ∧ s.stop.toNat ≤ data.size

instance (data : Array UInt8) (s : Span) : Decidable (s.Inside data) :=
  inferInstanceAs (Decidable (_ ∧ _))

def slice? (data : Array UInt8) (s : Span) : Option (List UInt8) :=
  if s.Inside data then some (s.bytes data) else none

/-- The slice for the entry with the given index. -/
def sliceAt? (data : Array UInt8) (spans : Array Span) (index : Nat) : Option (List UInt8) :=
  spans[index]? >>= slice? data

variable {data : Array UInt8} {spans : Array Span}

theorem slice?_of_inside {s : Span} (h : s.Inside data) : s.slice? data = some (s.bytes data) :=
  if_pos h

theorem sliceAt?_of_lt {i : Nat} (h : ∀ s ∈ spans, s.Inside data) (hi : i < spans.size) :
    sliceAt? data spans i = some (bytesAt data spans i) := by
  rw [sliceAt?, bytesAt, Array.getElem?_eq_getElem hi]
  exact slice?_of_inside (h _ (Array.getElem_mem hi))

end Span

/-! ## Guarded loads -/

namespace Layout

variable {settings : Settings} {data : Array UInt8} {order : ByteOrder}

/-- The first part of a load, which takes nothing unasked. -/
def readTables (settings : Settings) (data : Array UInt8) :
    Except LoadError (ByteOrder × Array Span × Array Span) :=
  if data.size < headerSize then .error (.tooShort data.size) else do
    let order ← byteOrder settings data
    let revision ← (Reader.readInt ⟨data, order⟩ 4).mapError .read
    if revision ≠ 0 then .error (.badRevision revision) else do
      let count ← (Reader.readSize ⟨data, order⟩ 8 "entry count").mapError .read
      if count = 0 then .error .noEntries else do
        let msgids ← readTable ⟨data, order⟩ .msgids Table.msgids.field count
        let msgstrs ← readTable ⟨data, order⟩ .msgstrs Table.msgstrs.field count
        return (order, msgids, msgstrs)

/-- The second part of a load. -/
def finish (settings : Settings) (data : Array UInt8) (order : ByteOrder)
    (msgids msgstrs : Array Span) : Except LoadError Layout :=
  if settings.verifySortOrder then do
    checkSorted (msgids.toList.map (Span.bytes data))
    conclude settings data order msgids msgstrs
  else conclude settings data order msgids msgstrs

theorem load_eq_readTables (settings : Settings) (data : Array UInt8) :
    load settings data = readTables settings data >>= fun (order, msgids, msgstrs) =>
      finish settings data order msgids msgstrs := by
  rw [load_eq, readTables]
  simp only [ite_error_bind, bind_assoc, pure_bind]
  rfl

/-- The check of the order on the spans themselves. -/
def checkSpansFrom (data : Array UInt8) (previous : Option (List UInt8)) (index : Nat) :
    List Span → Option (Except LoadError Unit)
  | [] => some (.ok ())
  | s :: spans => do
      let key := leading (← s.slice? data)
      if key = [] then return .error (.emptyMsgid index)
      else if previous.any fun p => compare p key == .gt then return .error (.unsorted index)
      else checkSpansFrom data (some key) (index + 1) spans

/-- The second part of a load with each of its accesses guarded. -/
def finishGuarded (settings : Settings) (data : Array UInt8) (order : ByteOrder)
    (msgids msgstrs : Array Span) : Option (Except LoadError Layout) := do
  let checked ← if settings.verifySortOrder then checkSpansFrom data none 1 (msgids.toList.drop 1)
    else some (.ok ())
  match checked with
  | .error e => return .error e
  | .ok () =>
      let header := String.ofList (Text.decodeLossy (← Span.sliceAt? data msgstrs 0))
      return (ruleOfHeader settings header).mapError .rule >>= fun rule =>
        .ok ⟨order, msgids, msgstrs, .parse header, rule⟩

def loadGuarded (settings : Settings) (data : Array UInt8) : Option (Except LoadError Layout) :=
  match readTables settings data with
  | .error e => some (.error e)
  | .ok (order, msgids, msgstrs) => finishGuarded settings data order msgids msgstrs

/-- The strings of a table that fits lie inside the buffer. -/
theorem inside_of_tableFits {table : Table} {spans : Array Span}
    (h : TableFits order data (tableStart order data table) (entryCount order data))
    (hends : spans.toList.map Span.ends = tableEnds order data table) :
    ∀ s ∈ spans, s.Inside data := by
  intro s hs
  have hmem : s.ends ∈ spans.toList.map Span.ends :=
    List.mem_map_of_mem (Array.mem_toList_iff.mpr hs)
  rw [hends, tableEnds] at hmem
  obtain ⟨i, hi, he⟩ := List.mem_map.mp hmem
  obtain ⟨hstart, hstop⟩ := Prod.mk.inj he
  have hfit := (h.entries i (List.mem_range.mp hi)).stop_le
  constructor
  · rw [← hstart, ← hstop]
    exact Nat.le_add_right _ _
  · rw [← hstop]
    exact hfit

/-- Whatever becomes of the load afterwards, both tables hold slices of the buffer only, and there is
an entry for the header. -/
theorem inside_of_readTables {msgids msgstrs : Array Span}
    (h : readTables settings data = .ok (order, msgids, msgstrs)) :
    0 < msgstrs.size ∧ (∀ s ∈ msgids, s.Inside data) ∧ ∀ s ∈ msgstrs, s.Inside data := by
  rw [readTables] at h
  split at h
  · cases h
  next hsize =>
  have hsize : 20 ≤ data.size := Nat.le_of_not_lt hsize
  obtain ⟨order, -, h⟩ := bind_eq_ok_iff.mp h
  obtain ⟨revision, -, h⟩ := bind_eq_ok_iff.mp h
  split at h
  · cases h
  obtain ⟨count, hcount, h⟩ := bind_eq_ok_iff.mp h
  obtain ⟨-, hn, hlt⟩ := (Reader.readSize_eq_ok_iff (by decide)).mp (mapError_eq_ok_iff.mp hcount)
  split at h
  · cases h
  next hpos =>
  obtain ⟨ids, hids, h⟩ := bind_eq_ok_iff.mp h
  obtain ⟨strs, hstrs, h⟩ := bind_eq_ok_iff.mp h
  cases h
  obtain ⟨hfit, hends⟩ := (readTable_iff hsize hn hlt).mp hids
  obtain ⟨hfit', hends'⟩ := (readTable_iff hsize hn hlt).mp hstrs
  refine ⟨?_, inside_of_tableFits hfit hends, inside_of_tableFits hfit' hends'⟩
  rw [size_eq_entryCount hends', entryCount]
  exact hn ▸ Nat.pos_of_ne_zero fun h0 => hpos (UInt64.toNat_inj.mp h0)

theorem checkSpansFrom_eq {previous : Option (List UInt8)} {index : Nat} {spans : List Span}
    (h : ∀ s ∈ spans, s.Inside data) :
    checkSpansFrom data previous index spans =
      some (checkSortedFrom previous index (spans.map (Span.bytes data))) := by
  induction spans generalizing previous index with
  | nil => rfl
  | cons s spans ih =>
      have hs : s.slice? data = some (s.bytes data) := Span.slice?_of_inside (h s (by simp))
      have hspans : ∀ t ∈ spans, t.Inside data := fun t ht => h t (by simp [ht])
      simp only [checkSpansFrom, hs, List.map_cons, checkSortedFrom, Option.bind_eq_bind,
        Option.bind_some, Option.pure_def, ih hspans]
      split
      · rfl
      · split <;> rfl

theorem finishGuarded_eq {msgids msgstrs : Array Span} (hpos : 0 < msgstrs.size)
    (hids : ∀ s ∈ msgids, s.Inside data) (hstrs : ∀ s ∈ msgstrs, s.Inside data) :
    finishGuarded settings data order msgids msgstrs =
      some (finish settings data order msgids msgstrs) := by
  have hheader := Span.sliceAt?_of_lt hstrs hpos
  have hids' : ∀ s ∈ msgids.toList.drop 1, s.Inside data := by
    intro s hs
    exact hids s (Array.mem_toList_iff.mp (List.mem_of_mem_drop hs))
  by_cases hv : settings.verifySortOrder = true
  · rw [finishGuarded, finish, if_pos hv, if_pos hv, checkSpansFrom_eq hids', List.map_drop]
    change _ = some (checkSorted _ >>= _)
    rw [checkSorted]
    cases checkSortedFrom none 1 ((msgids.toList.map (Span.bytes data)).drop 1) with
    | error e => rfl
    | ok u => simp only [hheader, Option.bind_eq_bind, Option.bind_some]; rfl
  · rw [finishGuarded, finish, if_neg hv, if_neg hv]
    simp only [hheader, Option.bind_eq_bind, Option.bind_some]
    rfl

/-- No load needs its guards. -/
theorem loadGuarded_eq (settings : Settings) (data : Array UInt8) :
    loadGuarded settings data = some (load settings data) := by
  rw [loadGuarded, load_eq_readTables]
  cases h : readTables settings data with
  | error e => rfl
  | ok tables =>
      obtain ⟨order, msgids, msgstrs⟩ := tables
      obtain ⟨hpos, hids, hstrs⟩ := inside_of_readTables h
      exact finishGuarded_eq hpos hids hstrs

end Layout

/-! ## Guarded searches -/

/-- A search by a probe that may have no answer. -/
abbrev GuardedSearch := (Nat → Option Ordering) → Nat → Nat → Option (Option Nat)

/-- A search that probes and reports nothing outside its interval, whatever the probe answers
there. -/
def StaysInside (s : GuardedSearch) : Prop :=
  ∀ probe lo hi, (∀ i, lo ≤ i → i < hi → (probe i).isSome) →
    ∃ found, s probe lo hi = some found ∧ ∀ i ∈ found, lo ≤ i ∧ i < hi

def searchGuarded (probe : Nat → Option Ordering) (lo hi : Nat) : Option (Option Nat) :=
  if lo < hi then
    let mid := lo + (hi - lo) / 2
    match probe mid with
    | none => none
    | some .eq => some (some mid)
    | some .lt => searchGuarded probe (mid + 1) hi
    | some .gt => searchGuarded probe lo mid
  else some none
termination_by hi - lo

theorem searchGuarded_of_lt {probe : Nat → Option Ordering} {lo hi : Nat} {o : Ordering}
    (hlt : lo < hi) (h : probe (lo + (hi - lo) / 2) = some o) :
    searchGuarded probe lo hi =
      match o with
      | .eq => some (some (lo + (hi - lo) / 2))
      | .lt => searchGuarded probe (lo + (hi - lo) / 2 + 1) hi
      | .gt => searchGuarded probe lo (lo + (hi - lo) / 2) := by
  rw [searchGuarded, if_pos hlt]
  simp only [h]
  cases o <;> rfl

theorem searchGuarded_eq {guarded : Nat → Option Ordering} {probe : Nat → Ordering} {lo hi : Nat}
    (h : ∀ i, lo ≤ i → i < hi → guarded i = some (probe i)) :
    searchGuarded guarded lo hi = some (search probe lo hi) := by
  fun_induction search probe lo hi with
  | case1 lo hi hlt mid he =>
      have hmid : guarded mid = some .eq := by rw [h mid (by omega) (by omega), he]
      rw [searchGuarded_of_lt hlt hmid]
  | case2 lo hi hlt mid he ih =>
      have hmid : guarded mid = some .lt := by rw [h mid (by omega) (by omega), he]
      rw [searchGuarded_of_lt hlt hmid]
      exact ih fun i hlo hhi => h i (by omega) hhi
  | case3 lo hi hlt mid he ih =>
      have hmid : guarded mid = some .gt := by rw [h mid (by omega) (by omega), he]
      rw [searchGuarded_of_lt hlt hmid]
      exact ih fun i hlo hhi => h i hlo (by omega)
  | case4 lo hi hlt => rw [searchGuarded, if_neg hlt]

theorem staysInside_searchGuarded : StaysInside searchGuarded := by
  intro probe lo hi h
  have hprobe : ∀ i, lo ≤ i → i < hi → probe i = some ((probe i).getD .eq) := by
    intro i hlo hhi
    obtain ⟨o, ho⟩ := Option.isSome_iff_exists.mp (h i hlo hhi)
    rw [ho]
    rfl
  refine ⟨_, searchGuarded_eq hprobe, ?_⟩
  intro i hi
  obtain ⟨hlo, hhi, -⟩ := search_sound hi
  exact ⟨hlo, hhi⟩

/-! ## Guarded queries -/

inductive Query where
  | headerBytes
  | header
  | gettextBytes (msgid : List UInt8)
  | ngettextBytes (msgid plural : List UInt8) (n : Int32)
  | tryNgettextBytes (msgid plural : List UInt8) (n : Int32)
  | gettext (msgid : String)
  | ngettext (msgid plural : String) (n : Int32)
  | tryNgettext (msgid plural : String) (n : Int32)
  | pgettext (context msgid : String)
  | npgettext (context msgid plural : String) (n : Int32)
deriving DecidableEq, Repr

inductive Answer where
  | bytes (bytes : List UInt8)
  | text (text : String)
  | failure (cause : EvalError)
deriving DecidableEq, Repr

def Answer.ofExcept {α : Type} (ok : α → Answer) : Except EvalError α → Answer
  | .ok a => ok a
  | .error e => failure e

namespace Query

/-- The msgid that is looked up, unless it is the header that is asked for. -/
def msgid? : Query → Option (List UInt8)
  | headerBytes => none
  | header => none
  | gettextBytes msgid => some msgid
  | ngettextBytes msgid _ _ => some msgid
  | tryNgettextBytes msgid _ _ => some msgid
  | gettext msgid => some (Text.encode msgid)
  | ngettext msgid _ _ => some (Text.encode msgid)
  | tryNgettext msgid _ _ => some (Text.encode msgid)
  | pgettext context msgid => some (Text.encode (Catalog.contextKey context msgid))
  | npgettext context msgid _ _ => some (Text.encode (Catalog.contextKey context msgid))

end Query

namespace Catalog

def answer (c : Catalog) : Query → Answer
  | .headerBytes => .bytes c.headerBytes
  | .header => .text c.header
  | .gettextBytes msgid => .bytes (c.gettextBytes msgid)
  | .ngettextBytes msgid plural n => .bytes (c.ngettextBytes msgid plural n)
  | .tryNgettextBytes msgid plural n => .ofExcept .bytes (c.tryNgettextBytes msgid plural n)
  | .gettext msgid => .text (c.gettext msgid)
  | .ngettext msgid plural n => .text (c.ngettext msgid plural n)
  | .tryNgettext msgid plural n => .ofExcept .text (c.tryNgettext msgid plural n)
  | .pgettext context msgid => .text (c.pgettext context msgid)
  | .npgettext context msgid plural n => .text (c.npgettext context msgid plural n)

/-- The variant that a rule selects from the cluster that was found. -/
def variantOf (rule : Option Expr) (found : Option (List UInt8)) (n : Int32) :
    Except EvalError (Option (List UInt8)) :=
  match found, rule with
  | some cluster, some rule => (rule.eval n).map (variantAt? cluster)
  | _, _ => .ok none

end Catalog

open Catalog in
/-- The answer to a query for which the bytes `found` were found. -/
def Query.answerOf (rule : Option Expr) (found : Option (List UInt8)) : Query → Answer
  | headerBytes => .bytes (found.getD [])
  | header => .text (.ofList (Text.decodeLossy (found.getD [])))
  | gettextBytes msgid => .bytes ((found.map leading).getD msgid)
  | ngettextBytes msgid plural n =>
      .bytes (((variantOf rule found n).map fun s => s.getD (defaultForm msgid plural n)).toOption.getD
        (defaultForm msgid plural n))
  | tryNgettextBytes msgid plural n =>
      .ofExcept .bytes ((variantOf rule found n).map fun s => s.getD (defaultForm msgid plural n))
  | gettext msgid => .text (((found.map leading).bind Text.decode?).getD msgid)
  | ngettext msgid plural n =>
      .text (((variantOf rule found n).map fun s =>
        (s.bind Text.decode?).getD (defaultForm msgid plural n)).toOption.getD
          (defaultForm msgid plural n))
  | tryNgettext msgid plural n =>
      .ofExcept .text ((variantOf rule found n).map fun s =>
        (s.bind Text.decode?).getD (defaultForm msgid plural n))
  | pgettext _ msgid => .text (((found.map leading).bind Text.decode?).getD msgid)
  | npgettext _ msgid plural n =>
      .text (((variantOf rule found n).toOption.join.bind Text.decode?).getD
        (defaultForm msgid plural n))

namespace Catalog

/-- What a query is answered from. -/
def found? (c : Catalog) (q : Query) : Option (List UInt8) :=
  match q.msgid? with
  | none => some c.headerBytes
  | some msgid => c.cluster? msgid

theorem answer_eq (c : Catalog) (q : Query) : c.answer q = q.answerOf c.rule (c.found? q) := by
  cases q <;> rfl

/-! The lookups with each access guarded. The outer option is that of the guards. -/

def headerGuarded (c : Catalog) : Option (List UInt8) :=
  if c.layout.msgstrs.isEmpty then some [] else Span.sliceAt? c.data c.layout.msgstrs 0

def findGuarded (s : GuardedSearch) (c : Catalog) (msgid : List UInt8) : Option (Option Nat) :=
  if leading msgid = [] then
    some (if c.layout.msgstrs.isEmpty then none else some 0)
  else
    s (fun i => (Span.sliceAt? c.data c.layout.msgids i).map (compareLeading · (leading msgid))) 1
      c.layout.msgids.size

def clusterGuarded (s : GuardedSearch) (c : Catalog) (msgid : List UInt8) :
    Option (Option (List UInt8)) := do
  match ← c.findGuarded s msgid with
  | none => return none
  | some i =>
      let cluster ← Span.sliceAt? c.data c.layout.msgstrs i
      return if leading cluster = [] then none else some cluster

def answerGuarded (s : GuardedSearch) (c : Catalog) (q : Query) : Option Answer :=
  match q.msgid? with
  | none => c.headerGuarded.map fun header => q.answerOf c.rule (some header)
  | some msgid => (c.clusterGuarded s msgid).map (q.answerOf c.rule)

/-! ## Catalogs without stray spans -/

/-- There are as many msgids as msgstrs, and all of them lie inside the buffer. -/
structure InBounds (c : Catalog) : Prop where
  size_eq : c.layout.msgids.size = c.layout.msgstrs.size
  msgids : ∀ s ∈ c.layout.msgids, s.Inside c.data
  msgstrs : ∀ s ∈ c.layout.msgstrs, s.Inside c.data

theorem inBounds_empty : empty.InBounds :=
  ⟨rfl, by simp [empty, Layout.empty], by simp [empty, Layout.empty]⟩

theorem inBounds_of_loadWith {settings : Settings} {data : Array UInt8} {c : Catalog}
    (h : loadWith settings data = .ok c) : c.InBounds := by
  obtain ⟨rfl, hl⟩ := layout_of_loadWith h
  obtain ⟨hw, hids, hstrs, -⟩ := Layout.load_eq_ok_iff.mp hl
  refine ⟨?_, ?_, ?_⟩
  · rw [Layout.size_eq_entryCount hids, Layout.size_eq_entryCount hstrs]
  · exact Layout.inside_of_tableFits (hw.tables .msgids) hids
  · exact Layout.inside_of_tableFits (hw.tables .msgstrs) hstrs

variable {c : Catalog} {s : GuardedSearch} {msgid : List UInt8}

theorem msgstrs_size_pos (h : ¬ c.layout.msgstrs.isEmpty) : 0 < c.layout.msgstrs.size :=
  Nat.pos_of_ne_zero fun h0 => h (Array.isEmpty_iff_size_eq_zero.mpr h0)

theorem InBounds.headerGuarded (h : c.InBounds) : c.headerGuarded = some c.headerBytes := by
  rw [Catalog.headerGuarded]
  by_cases he : c.layout.msgstrs.isEmpty
  · rw [if_pos he, headerBytes, msgstr, Span.bytesAt, Array.isEmpty_iff.mp he]
    rfl
  · rw [if_neg he]
    exact Span.sliceAt?_of_lt h.msgstrs (msgstrs_size_pos he)

/-- An entry that is found exists in both tables. -/
theorem InBounds.findGuarded (h : c.InBounds) (hs : StaysInside s) (msgid : List UInt8) :
    ∃ found, c.findGuarded s msgid = some found ∧ ∀ i ∈ found, i < c.layout.msgstrs.size := by
  rw [Catalog.findGuarded]
  by_cases hkey : leading msgid = []
  · rw [if_pos hkey]
    refine ⟨_, rfl, ?_⟩
    by_cases he : c.layout.msgstrs.isEmpty
    · simp [he]
    · simpa [he] using msgstrs_size_pos he
  · rw [if_neg hkey]
    obtain ⟨found, hf, hinside⟩ := hs
      (fun i => (Span.sliceAt? c.data c.layout.msgids i).map (compareLeading · (leading msgid))) 1
      c.layout.msgids.size (by
        intro i _ hi
        rw [Span.sliceAt?_of_lt h.msgids hi]
        rfl)
    refine ⟨found, hf, ?_⟩
    intro i hi
    exact h.size_eq ▸ (hinside i hi).2

theorem InBounds.findGuarded_eq (h : c.InBounds) (msgid : List UInt8) :
    c.findGuarded searchGuarded msgid = some (c.find? msgid) := by
  rw [Catalog.findGuarded, find?]
  by_cases hkey : leading msgid = []
  · rw [if_pos hkey]
    simp [hkey]
  · rw [if_neg hkey]
    simp only [hkey, if_false]
    apply searchGuarded_eq
    intro i _ hi
    rw [Span.sliceAt?_of_lt h.msgids hi]
    rfl

theorem InBounds.clusterGuarded (h : c.InBounds) {found : Option Nat}
    (hf : c.findGuarded s msgid = some found) (hi : ∀ i ∈ found, i < c.layout.msgstrs.size) :
    c.clusterGuarded s msgid = some (found.bind fun i =>
      if leading (c.msgstr i) = [] then none else some (c.msgstr i)) := by
  rw [Catalog.clusterGuarded, hf]
  cases found with
  | none => rfl
  | some i =>
      have hslice := Span.sliceAt?_of_lt h.msgstrs (hi i rfl)
      simp only [Option.bind_eq_bind, Option.bind_some, hslice, Option.pure_def]
      rfl

theorem InBounds.clusterGuarded_eq (h : c.InBounds) (msgid : List UInt8) :
    c.clusterGuarded searchGuarded msgid = some (c.cluster? msgid) := by
  obtain ⟨found, hf, hi⟩ := h.findGuarded staysInside_searchGuarded msgid
  obtain rfl : c.find? msgid = found := Option.some.inj ((h.findGuarded_eq msgid).symm.trans hf)
  rw [h.clusterGuarded hf hi]
  rfl

/-- No query needs its guards, whatever search is used that stays inside its interval. -/
theorem InBounds.isSome_answerGuarded (h : c.InBounds) (hs : StaysInside s) (q : Query) :
    (c.answerGuarded s q).isSome := by
  rw [answerGuarded]
  cases q.msgid? with
  | none => simp [h.headerGuarded]
  | some msgid =>
      obtain ⟨found, hf, hi⟩ := h.findGuarded hs msgid
      simp [h.clusterGuarded hf hi]

theorem InBounds.answerGuarded_eq (h : c.InBounds) (q : Query) :
    c.answerGuarded searchGuarded q = some (c.answer q) := by
  rw [answerGuarded, answer_eq, found?]
  cases q.msgid? with
  | none => simp only [h.headerGuarded, Option.map_some]
  | some msgid => simp only [h.clusterGuarded_eq, Option.map_some]

/-- Neither a load nor a query takes an entry or a slice that does not exist. With its accesses
guarded every load has the outcome that it has without, whatever the buffer and the settings. In a
catalog that is loaded, or that has no entries, there are as many msgids as msgstrs, no span runs
backwards or leaves the buffer, and every sequence of queries comes through its guards: with any
search that stays inside its interval, and with the one at hand also with the same answers. -/
theorem accesses_inside :
    (∀ settings data, Layout.loadGuarded settings data = some (Layout.load settings data)) ∧
    ∀ c : Catalog, (c = empty ∨ ∃ settings data, loadWith settings data = .ok c) →
      c.layout.msgids.size = c.layout.msgstrs.size ∧
      (∀ s, s ∈ c.layout.msgids ∨ s ∈ c.layout.msgstrs →
        s.start ≤ s.stop ∧ s.stop.toNat ≤ c.data.size) ∧
      (∀ s, StaysInside s → ∀ queries : List Query, (queries.mapM (c.answerGuarded s)).isSome) ∧
      ∀ queries : List Query,
        queries.mapM (c.answerGuarded searchGuarded) = some (queries.map c.answer) := by
  refine ⟨Layout.loadGuarded_eq, ?_⟩
  intro c hc
  have h : c.InBounds := by
    rcases hc with rfl | ⟨settings, data, hl⟩
    · exact inBounds_empty
    · exact inBounds_of_loadWith hl
  refine ⟨h.size_eq, ?_, ?_, ?_⟩
  · rintro s (hs | hs)
    · exact ⟨UInt64.le_iff_toNat_le.mpr (h.msgids s hs).1, (h.msgids s hs).2⟩
    · exact ⟨UInt64.le_iff_toNat_le.mpr (h.msgstrs s hs).1, (h.msgstrs s hs).2⟩
  · intro s hs queries
    exact isSome_mapM (h.isSome_answerGuarded hs) queries
  · intro queries
    exact mapM_eq_some_map h.answerGuarded_eq queries

end Catalog

end MessageCatalog
