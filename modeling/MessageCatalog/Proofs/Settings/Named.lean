import MessageCatalog.Settings.Field
import Mathlib.Data.List.Nodup

/-! # Settings from named values

Each field is given at most once and by a value of its kind. It has this value then, wherever it
stands among the others, and fields that are not given keep their defaults. Names that are no field's
say nothing. -/

namespace MessageCatalog.Settings

/-! ## Fields and what they hold -/

theorem Field.ofName?_eq_some_iff {name : String} {f : Field} :
    ofName? name = some f ↔ name = f.name := by
  constructor
  · intro h
    unfold ofName? at h
    have hname := List.find?_some h
    exact (eq_of_beq hname).symm
  · rintro rfl
    exact ofName?_name f

def get (s : Settings) : Field → Scalar
  | .logLevel => .text s.logLevel
  | .debug => .flag s.debug
  | .verifySortOrder => .flag s.verifySortOrder
  | .acceptBigEndian => .flag s.acceptBigEndian
  | .maxExpressionDepth => .size s.maxExpressionDepth

theorem eq_of_get_eq {s s' : Settings} (h : ∀ f, s.get f = s'.get f) : s = s' := by
  have htext := Scalar.text.inj (h .logLevel)
  have hdebug := Scalar.flag.inj (h .debug)
  have hsorted := Scalar.flag.inj (h .verifySortOrder)
  have hbig := Scalar.flag.inj (h .acceptBigEndian)
  have hdepth := Scalar.size.inj (h .maxExpressionDepth)
  cases s
  cases s'
  simp_all

/-- Setting a field to what it is in other settings succeeds. -/
theorem exists_set? (d s : Settings) (f : Field) :
    ∃ s', d.set? f (s.get f) = some s' ∧ s'.get f = s.get f ∧ ∀ g, g ≠ f → s'.get g = d.get g := by
  cases f <;> refine ⟨_, rfl, rfl, ?_⟩ <;>
  · intro g hg
    cases g <;> first | rfl | exact absurd rfl hg

theorem get_of_set? {d s : Settings} {f : Field} {v : Scalar} (h : d.set? f v = some s) :
    s.get f = v := by
  cases f <;> cases v <;> cases h <;> rfl

/-- A field takes values of its kind, and no other field changes. -/
theorem set?_eq_some_iff {d s : Settings} {f : Field} {v : Scalar} :
    d.set? f v = some s ↔ s.get f = v ∧ ∀ g, g ≠ f → s.get g = d.get g := by
  constructor
  · intro h
    obtain ⟨s', hs', -, hother⟩ := exists_set? d s f
    rw [get_of_set? h, h] at hs'
    obtain rfl := Option.some.inj hs'
    exact ⟨get_of_set? h, hother⟩
  · rintro ⟨rfl, hs⟩
    obtain ⟨s', hs', hf, hother⟩ := exists_set? d s f
    rw [hs']
    refine congrArg some (eq_of_get_eq fun g => ?_)
    by_cases hg : g = f
    · rw [hg, hf]
    · rw [hother g hg, hs g hg]

/-! ## Several of them -/

theorem foldlM_set?_eq_some_iff {d s : Settings} {fields : List (Field × Scalar)}
    (h : (fields.map Prod.fst).Nodup) :
    fields.foldlM (fun s (f, v) => s.set? f v) d = some s ↔
      (∀ f v, (f, v) ∈ fields → s.get f = v) ∧ ∀ f, f ∉ fields.map Prod.fst → s.get f = d.get f := by
  induction fields generalizing d with
  | nil =>
      simp only [List.foldlM_nil, Option.pure_def, Option.some.injEq, List.not_mem_nil, List.map_nil,
        not_false_eq_true, forall_const, IsEmpty.forall_iff, implies_true, true_and]
      exact ⟨fun hd f => hd ▸ rfl, fun hget => (eq_of_get_eq hget).symm⟩
  | cons field fields ih =>
      obtain ⟨f, v⟩ := field
      obtain ⟨hf, hnodup⟩ := List.nodup_cons.mp h
      rw [List.foldlM_cons, Option.bind_eq_bind, Option.bind_eq_some_iff]
      constructor
      · rintro ⟨d', hd', hrest⟩
        obtain ⟨hv, hother⟩ := set?_eq_some_iff.mp hd'
        obtain ⟨hgiven, hleft⟩ := (ih hnodup).mp hrest
        refine ⟨?_, ?_⟩
        · intro g w hw
          rcases List.mem_cons.mp hw with hw | hw
          · cases hw
            rw [hleft f hf, hv]
          · exact hgiven g w hw
        · intro g hg
          obtain ⟨hgf, hg⟩ := not_or.mp (List.mem_cons.not.mp hg)
          rw [hleft g hg, hother g hgf]
      · rintro ⟨hgiven, hleft⟩
        obtain rfl := hgiven f v List.mem_cons_self
        obtain ⟨d', hd', hget, hother⟩ := exists_set? d s f
        refine ⟨d', hd', (ih hnodup).mpr ⟨fun g w hw => hgiven g w (List.mem_cons_of_mem _ hw), ?_⟩⟩
        intro g hg
        by_cases hgf : g = f
        · rw [hgf, hget]
        · rw [hother g hgf]
          exact hleft g (List.mem_cons.not.mpr (not_or.mpr ⟨hgf, hg⟩))

/-- The settings that named values tell. -/
structure Told (values : List (String × Scalar)) (s : Settings) : Prop where
  once : ∀ f : Field, (values.map Prod.fst).count f.name ≤ 1
  given : ∀ f v, (Field.name f, v) ∈ values → s.get f = v
  left : ∀ f, Field.name f ∉ values.map Prod.fst → s.get f = ({} : Settings).get f

/-- The fields that named values give, in the order of the values. -/
def fieldsOf (values : List (String × Scalar)) : List (Field × Scalar) :=
  values.filterMap fun (name, v) => (Field.ofName? name).map (·, v)

theorem mem_fieldsOf_iff {values : List (String × Scalar)} {f : Field} {v : Scalar} :
    (f, v) ∈ fieldsOf values ↔ (f.name, v) ∈ values := by
  simp only [fieldsOf, List.mem_filterMap, Option.map_eq_some_iff, Field.ofName?_eq_some_iff,
    Prod.mk.injEq]
  constructor
  · rintro ⟨⟨name, w⟩, hmem, g, rfl, rfl, rfl⟩
    exact hmem
  · intro h
    exact ⟨(f.name, v), h, f, rfl, rfl, rfl⟩

theorem map_fst_fieldsOf (values : List (String × Scalar)) :
    (fieldsOf values).map Prod.fst = (values.map Prod.fst).filterMap Field.ofName? := by
  rw [fieldsOf, List.map_filterMap, List.filterMap_map]
  congr 1
  funext value
  cases h : Field.ofName? value.1 <;> simp [h]

theorem nodup_fieldsOf_iff {values : List (String × Scalar)} :
    ((fieldsOf values).map Prod.fst).Nodup ↔
      ∀ f : Field, (values.map Prod.fst).count f.name ≤ 1 := by
  rw [map_fst_fieldsOf, List.nodup_iff_count_le_one]
  refine forall_congr' fun f => ?_
  rw [List.count_filterMap, List.count]
  have hname : (fun name => Field.ofName? name == some f) = (· == f.name) := by
    funext name
    rw [Bool.eq_iff_iff, beq_iff_eq, beq_iff_eq, Field.ofName?_eq_some_iff]
  rw [hname]

/-- Named values are settings exactly if they tell some. -/
theorem ofNamed?_eq_some_iff {values : List (String × Scalar)} {s : Settings} :
    ofNamed? values = some s ↔ Told values s := by
  have hmem (f : Field) :
      f ∉ (fieldsOf values).map Prod.fst ↔ f.name ∉ values.map Prod.fst := by
    rw [map_fst_fieldsOf, List.mem_filterMap]
    simp [Field.ofName?_eq_some_iff]
  change ofFields? (fieldsOf values) = some s ↔ _
  unfold ofFields?
  split
  · next h =>
      rw [foldlM_set?_eq_some_iff h]
      simp only [mem_fieldsOf_iff, hmem]
      exact ⟨fun hs => ⟨nodup_fieldsOf_iff.mp h, hs.1, hs.2⟩, fun hs => ⟨hs.given, hs.left⟩⟩
  · next h => exact iff_of_false nofun fun hs => h (nodup_fieldsOf_iff.mpr hs.once)

end MessageCatalog.Settings
