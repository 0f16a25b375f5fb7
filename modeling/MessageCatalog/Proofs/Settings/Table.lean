import MessageCatalog.Proofs.Settings.Named
import MessageCatalog.Settings.Toml.Document

/-! # Values that stay

What a document has given a value keeps it, whatever lines follow: tables may be opened and extended
around it, and what would touch it is refused. An array of tables is no way to a value that stays,
since its next table takes the place of the one that was open. -/

namespace MessageCatalog.Settings.Toml

/-! ## Nodes -/

/-- The value that names lead to, one table after the other. -/
def valueAt? : (path : List String) → Node → Option Scalar
  | [], .value v => some v
  | key :: path, .table _ entries => entries.lookup key >>= valueAt? path
  | _, _ => none

/-- Every value of a node is one of `node'` as well. -/
def Keeps (node node' : Node) : Prop :=
  ∀ path v, valueAt? path node = some v → valueAt? path node' = some v

theorem Keeps.refl (node : Node) : Keeps node node :=
  fun _ _ h => h

theorem Keeps.trans {node node' node'' : Node} (h : Keeps node node') (h' : Keeps node' node'') :
    Keeps node node'' :=
  fun path v hv => h' path v (h path v hv)

theorem keeps_tables (last : Entries) (node : Node) : Keeps (.tables last) node := by
  intro path v h
  cases path <;> cases h

/-- How a table came about says nothing about its values. -/
theorem keeps_table_iff {origin origin' : Origin} {entries entries' : Entries} :
    Keeps (.table origin entries) (.table origin' entries') ↔
      ∀ key node, entries.lookup key = some node → ∀ path v, valueAt? path node = some v →
        ∃ node', entries'.lookup key = some node' ∧ valueAt? path node' = some v := by
  constructor
  · intro h key node hnode path v hv
    have hkey := h (key :: path) v (by rw [valueAt?, hnode]; exact hv)
    exact Option.bind_eq_some_iff.mp hkey
  · intro h path v hv
    cases path with
    | nil => cases hv
    | cons key path =>
        obtain ⟨node, hnode, hv⟩ := Option.bind_eq_some_iff.mp hv
        exact Option.bind_eq_some_iff.mpr (h key node hnode path v hv)

theorem keeps_table (origin origin' : Origin) (entries : Entries) :
    Keeps (.table origin entries) (.table origin' entries) :=
  keeps_table_iff.mpr fun _ node hnode _ _ hv => ⟨node, hnode, hv⟩

/-! ## Changes of a table -/

theorem keeps_put {key : String} {node : Node} {entries : Entries} (origin origin' : Origin)
    (h : ∀ old, entries.lookup key = some old → Keeps old node) :
    Keeps (.table origin entries) (.table origin' (Entries.put key node entries)) := by
  rw [keeps_table_iff]
  intro key' old hold path v hv
  rw [lookup_put]
  split
  · next he =>
      subst he
      exact ⟨node, rfl, h old hold path v hv⟩
  · exact ⟨old, hold, hv⟩

theorem keeps_append {entries : Entries} (origin origin' : Origin) (more : Entries) :
    Keeps (.table origin entries) (.table origin' (entries ++ more)) := by
  rw [keeps_table_iff]
  intro key node hnode path v hv
  refine ⟨node, ?_, hv⟩
  rw [List.lookup_append, hnode]
  rfl

/-- A change keeps what it keeps in the table that its path leads to. -/
theorem keeps_change {made : Origin} {f : Origin → Entries → Option Entries}
    (hf : ∀ {o entries entries'}, f o entries = some entries' → ∀ origin origin',
      Keeps (.table origin entries) (.table origin' entries'))
    {path : List String} {o : Origin} {entries entries' : Entries}
    (h : change made f path o entries = some entries') (origin origin' : Origin) :
    Keeps (.table origin entries) (.table origin' entries') := by
  induction path generalizing o entries entries' origin origin' with
  | nil => exact hf h origin origin'
  | cons key path ih =>
      rw [change] at h
      split at h
      · next hlookup =>
          obtain ⟨inner, -, ⟨⟩⟩ := Option.bind_eq_some_iff.mp h
          exact keeps_put _ _ fun old hold => by rw [hlookup] at hold; cases hold
      · cases h
      · next o' inner hlookup =>
          split at h
          · cases h
          · obtain ⟨inner', hinner, ⟨⟩⟩ := Option.bind_eq_some_iff.mp h
            refine keeps_put _ _ fun old hold => ?_
            obtain rfl := Option.some.inj (hlookup.symm.trans hold)
            exact ih hinner _ _
      · next last hlookup =>
          obtain ⟨last', -, ⟨⟩⟩ := Option.bind_eq_some_iff.mp h
          refine keeps_put _ _ fun old hold => ?_
          obtain rfl := Option.some.inj (hlookup.symm.trans hold)
          exact keeps_tables last _

theorem keeps_assign {keys : List String} {v : Scalar} {o : Origin} {entries entries' : Entries}
    (h : assign keys v o entries = some entries') (origin origin' : Origin) :
    Keeps (.table origin entries) (.table origin' entries') := by
  obtain ⟨key, -, h⟩ := Option.bind_eq_some_iff.mp h
  refine keeps_change ?_ h origin origin'
  intro o entries entries' h origin origin'
  split at h
  · cases h
  · obtain rfl := Option.some.inj h
    exact keeps_append origin origin' _

theorem keeps_declare {f : Option Node → Option Node}
    (hf : ∀ old node, f (some old) = some node → Keeps old node) {keys : List String}
    {root root' : Entries} (h : declare f keys root = some root') :
    Keeps (.table .header root) (.table .header root') := by
  obtain ⟨key, -, h⟩ := Option.bind_eq_some_iff.mp h
  refine keeps_change ?_ h _ _
  intro o entries entries' h origin origin'
  obtain ⟨node, hnode, ⟨⟩⟩ := Option.bind_eq_some_iff.mp h
  refine keeps_put origin origin' fun old hold => hf old node ?_
  rwa [hold] at hnode

theorem keeps_openTable {old node : Node} (h : openTable (some old) = some node) :
    Keeps old node := by
  cases old with
  | value v => cases h
  | tables last => cases h
  | table origin entries =>
      cases origin <;> cases h
      exact keeps_table .implied .header entries

theorem keeps_openNextTable {old node : Node} (h : openNextTable (some old) = some node) :
    Keeps old node := by
  cases old with
  | value v => cases h
  | table origin entries => cases h
  | tables last => exact keeps_tables last node

/-! ## Lines of a document -/

/-- A line that is not refused leaves every value in its place. -/
theorem keeps_add {d d' : Document} {line : Line} (h : d.add line = some d') :
    Keeps (.table .header d.root) (.table .header d'.root) := by
  cases line with
  | blank =>
      obtain rfl := Option.some.inj h
      exact .refl _
  | assign keys v =>
      obtain ⟨root, hroot, ⟨⟩⟩ := Option.bind_eq_some_iff.mp h
      exact keeps_change (fun h => keeps_assign h) hroot _ _
  | header keys =>
      obtain ⟨root, hroot, ⟨⟩⟩ := Option.bind_eq_some_iff.mp h
      exact keeps_declare (fun _ _ => keeps_openTable) hroot
  | arrayHeader keys =>
      obtain ⟨root, hroot, ⟨⟩⟩ := Option.bind_eq_some_iff.mp h
      exact keeps_declare (fun _ _ => keeps_openNextTable) hroot

theorem keeps_foldlM_add {d d' : Document} {lines : List Line}
    (h : lines.foldlM Document.add d = some d') :
    Keeps (.table .header d.root) (.table .header d'.root) := by
  induction lines generalizing d with
  | nil =>
      obtain rfl := Option.some.inj h
      exact .refl _
  | cons line lines ih =>
      obtain ⟨d₁, hd₁, h⟩ := Option.bind_eq_some_iff.mp h
      exact (keeps_add hd₁).trans (ih h)

/-- A name that is given a value in front of all headers has it in the end. -/
theorem lookup_of_assign {d d' d'' : Document} {lines : List Line} {name : String} {v : Scalar}
    (hcurrent : d.current = []) (h : d.add (.assign [name] v) = some d')
    (hrest : lines.foldlM Document.add d' = some d'') :
    d''.root.lookup name = some (.value v) := by
  obtain ⟨root, current⟩ := d
  subst hcurrent
  have hgiven : valueAt? [name] (.table .header d'.root) = some v := by
    obtain ⟨root', hroot, ⟨⟩⟩ := Option.bind_eq_some_iff.mp h
    simp only [change, assign, List.getLast?_singleton, Option.bind_eq_bind, Option.bind_some,
      List.dropLast_singleton] at hroot
    split at hroot
    · cases hroot
    · next hnew =>
        obtain rfl := Option.some.inj hroot
        have hnone : root.lookup name = none :=
          Option.not_isSome_iff_eq_none.mp fun he => hnew (.inr he)
        simp [valueAt?, List.lookup_append, hnone]
  obtain ⟨node, hnode, hv⟩ :=
    Option.bind_eq_some_iff.mp (keeps_foldlM_add hrest [name] v hgiven)
  rw [hnode]
  cases node with
  | value w => exact congrArg (some ∘ Node.value) (Option.some.inj hv)
  | table origin entries => cases hv
  | tables last => cases hv

/-- The settings have the value of such a name that is a field's. -/
theorem get_of_assign {d d' d'' : Document} {lines : List Line} {f : Field} {v : Scalar}
    {s : Settings} (hcurrent : d.current = []) (h : d.add (.assign [f.name] v) = some d')
    (hrest : lines.foldlM Document.add d' = some d'') (hs : settings? d''.root = some s) :
    s.get f = v := by
  have hlookup := lookup_of_assign hcurrent h hrest
  obtain ⟨front, back, hroot, -⟩ := List.lookup_eq_some_iff.mp hlookup
  have htold := ofNamed?_eq_some_iff.mp hs
  refine htold.given f v (List.mem_map.mpr ⟨(f.name, .value v), ?_, rfl⟩)
  rw [hroot]
  simp

end MessageCatalog.Settings.Toml
