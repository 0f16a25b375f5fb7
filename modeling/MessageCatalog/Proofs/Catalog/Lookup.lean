import MessageCatalog.Catalog.Query
import MessageCatalog.Catalog.Writer
import MessageCatalog.Proofs.Catalog.Loading

/-! # Lookups in a loaded catalog

The sort check puts the leading strings of the msgids in order, so that they answer a probe
monotonically and any search that is right on sorted sequences finds an entry exactly if there is
one. -/

namespace MessageCatalog

open Bytes

/-! ## Searches -/

/-- A search that is right wherever the probe answers as on a sorted sequence. Of several matches it
may report any. -/
structure IsSearch (s : (Nat → Ordering) → Nat → Nat → Option Nat) : Prop where
  sound : ∀ {probe lo hi i}, Monotone probe lo hi → s probe lo hi = some i →
    lo ≤ i ∧ i < hi ∧ probe i = .eq
  complete : ∀ {probe lo hi i}, Monotone probe lo hi → lo ≤ i → i < hi → probe i = .eq →
    (s probe lo hi).isSome

theorem isSearch_search : IsSearch search :=
  ⟨fun _ => search_sound, search_isSome⟩

namespace Catalog

/-- The lookup of an entry by another search. -/
def findBy (s : (Nat → Ordering) → Nat → Nat → Option Nat) (c : Catalog) (msgid : List UInt8) :
    Option Nat :=
  if leading msgid = [] then
    if c.layout.msgstrs.isEmpty then none else some 0
  else s (fun i => compareLeading (c.msgid i) (leading msgid)) 1 c.layout.msgids.size

theorem findBy_search (c : Catalog) (msgid : List UInt8) : c.findBy search msgid = c.find? msgid :=
  rfl

/-- Entry `i` is no header, and its msgid leads with the same string as `msgid`. -/
def Files (c : Catalog) (i : Nat) (msgid : List UInt8) : Prop :=
  1 ≤ i ∧ i < c.layout.msgids.size ∧ leading (c.msgid i) = leading msgid

/-! ## Sorted entries -/

theorem layout_of_loadWith {settings : Settings} {data : Array UInt8} {c : Catalog}
    (h : loadWith settings data = .ok c) :
    c.data = data ∧ Layout.load settings data = .ok c.layout := by
  rw [loadWith] at h
  cases hl : Layout.load settings data with
  | error e =>
      rw [hl] at h
      cases h
  | ok l =>
      rw [hl] at h
      obtain rfl := Except.ok.inj h
      exact ⟨rfl, rfl⟩

/-- What the sort check has established for the lookups. -/
theorem leading_le_of_loadWith {settings : Settings} {data : Array UInt8} {c : Catalog}
    (h : loadWith settings data = .ok c) (hv : settings.verifySortOrder = true) {i j : Nat}
    (hi : 1 ≤ i) (hij : i < j) (hj : j < c.layout.msgids.size) :
    leading (c.msgid i) ≤ leading (c.msgid j) := by
  obtain ⟨rfl, hl⟩ := layout_of_loadWith h
  obtain ⟨hw, hends, -⟩ := Layout.load_eq_ok_iff.mp hl
  have hn := Layout.size_eq_entryCount hends
  rw [msgid, msgid, Layout.bytesAt_eq_stringAt hends (by omega),
    Layout.bytesAt_eq_stringAt hends (by omega)]
  exact hw.sorted hv i j hi hij (by omega)

/-- Probing sorted entries for a key answers monotonically. -/
theorem monotone_probe {c : Catalog} {hi : Nat} {key : List UInt8}
    (h : ∀ i j, 1 ≤ i → i < j → j < hi → leading (c.msgid i) ≤ leading (c.msgid j)) :
    Monotone (fun i => compareLeading (c.msgid i) key) 1 hi := by
  constructor
  · intro i j hi hij hj hlt
    rw [compareLeading_eq_lt_iff] at hlt ⊢
    exact List.lt_of_le_of_lt (h i j hi hij hj) hlt
  · intro i j hi hij hj hgt
    rw [compareLeading_eq_gt_iff] at hgt ⊢
    exact Std.lt_of_lt_of_le hgt (h i j hi hij hj)

/-- On sorted entries every correct search finds an entry of the key if there is one, and nothing
else. -/
theorem findBy_spec {s : (Nat → Ordering) → Nat → Nat → Option Nat} (hs : IsSearch s) {c : Catalog}
    (h : ∀ i j, 1 ≤ i → i < j → j < c.layout.msgids.size →
      leading (c.msgid i) ≤ leading (c.msgid j))
    {msgid : List UInt8} (hkey : leading msgid ≠ []) :
    ((c.findBy s msgid).isSome ↔ ∃ i, c.Files i msgid) ∧
      ∀ i, c.findBy s msgid = some i → c.Files i msgid := by
  have hm : Monotone (fun i => compareLeading (c.msgid i) (leading msgid)) 1
      c.layout.msgids.size := monotone_probe h
  have hprobe (i : Nat) :
      compareLeading (c.msgid i) (leading msgid) = .eq ↔ leading (c.msgid i) = leading msgid := by
    rw [compareLeading_eq_eq_iff, leading_leading]
  rw [findBy, if_neg hkey]
  have hsound (i : Nat) (hi : s (fun i => compareLeading (c.msgid i) (leading msgid)) 1
      c.layout.msgids.size = some i) : c.Files i msgid := by
    obtain ⟨h1, hlt, he⟩ := hs.sound hm hi
    exact ⟨h1, hlt, (hprobe i).mp he⟩
  refine ⟨⟨?_, ?_⟩, hsound⟩
  · intro hsome
    obtain ⟨i, hi⟩ := Option.isSome_iff_exists.mp hsome
    exact ⟨i, hsound i hi⟩
  · intro hx
    rcases hx with ⟨i, h1, hlt, he⟩
    exact hs.complete hm h1 hlt ((hprobe i).mpr he)

/-- Searches that are right report the same where only one entry can be reported. -/
theorem findBy_congr {s t : (Nat → Ordering) → Nat → Nat → Option Nat} (hs : IsSearch s)
    (ht : IsSearch t) {c : Catalog}
    (h : ∀ i j, 1 ≤ i → i < j → j < c.layout.msgids.size →
      leading (c.msgid i) ≤ leading (c.msgid j))
    {msgid : List UInt8} (hkey : leading msgid ≠ [])
    (hunique : ∀ i j, c.Files i msgid → c.Files j msgid → i = j) :
    c.findBy s msgid = c.findBy t msgid := by
  obtain ⟨hsome, hsound⟩ := findBy_spec hs h hkey
  obtain ⟨hsome', hsound'⟩ := findBy_spec ht h hkey
  cases hf : c.findBy s msgid with
  | some i =>
      have hi := hsound i hf
      obtain ⟨j, hj⟩ := Option.isSome_iff_exists.mp (hsome'.mpr ⟨i, hi⟩)
      rw [hj, hunique i j hi (hsound' j hj)]
  | none =>
      cases hg : c.findBy t msgid with
      | none => rfl
      | some j =>
          have hj := hsome.mpr ⟨j, hsound' j hg⟩
          rw [hf] at hj
          cases hj

/-! ## Translations of single messages -/

/-- No two entries are filed under the same string, the header's left out. -/
def DistinctKeys (c : Catalog) : Prop :=
  ∀ i j, 1 ≤ i → i < j → j < c.layout.msgids.size → leading (c.msgid i) ≠ leading (c.msgid j)

theorem DistinctKeys.eq_of_files {c : Catalog} (h : c.DistinctKeys) {i j : Nat}
    {msgid : List UInt8} (hi : c.Files i msgid) (hj : c.Files j msgid) : i = j := by
  have he : leading (c.msgid i) = leading (c.msgid j) := hi.2.2.trans hj.2.2.symm
  rcases Nat.lt_trichotomy i j with hlt | heq | hgt
  · exact absurd he (h i j hi.1 hlt hj.2.1)
  · exact heq
  · exact absurd he.symm (h j i hj.1 hgt hi.2.1)

theorem gettextBytes_of_find?_eq_none {c : Catalog} {msgid : List UInt8}
    (h : c.find? msgid = none) : c.gettextBytes msgid = msgid := by
  simp [gettextBytes, singular?, cluster?, h]

/-- A message that is found is shown as the first string of its msgstr, unless that is empty. -/
theorem gettextBytes_of_find?_eq_some {c : Catalog} {msgid : List UInt8} {i : Nat}
    (h : c.find? msgid = some i) :
    c.gettextBytes msgid = if leading (c.msgstr i) = [] then msgid else leading (c.msgstr i) := by
  by_cases he : leading (c.msgstr i) = []
  · simp [gettextBytes, singular?, cluster?, h, he]
  · simp [gettextBytes, singular?, cluster?, h, he]

/-- Lookups are exact in a catalog whose order was checked. Whatever correct search they use, they
find an entry exactly if there is one with the key, and never the header. Where the keys are
distinct the search makes no difference, and a message is shown as the first string of its msgstr if
that is not empty, and as itself in every other case. -/
theorem lookup_exact {settings : Settings} {data : Array UInt8} {c : Catalog}
    (h : loadWith settings data = .ok c) (hv : settings.verifySortOrder = true)
    {msgid : List UInt8} (hkey : leading msgid ≠ []) :
    (∀ s, IsSearch s →
      ((c.findBy s msgid).isSome ↔ ∃ i, c.Files i msgid) ∧
      ∀ i, c.findBy s msgid = some i → c.Files i msgid) ∧
    ((c.find? msgid).isSome ↔ ∃ i, c.Files i msgid) ∧
    (∀ i, c.find? msgid = some i → c.Files i msgid) ∧
    (c.DistinctKeys →
      (∀ s, IsSearch s → c.findBy s msgid = c.find? msgid) ∧
      (∀ i first, c.Files i msgid → (segments (c.msgstr i)).head? = some first → first ≠ [] →
        c.gettextBytes msgid = first) ∧
      ((∀ i, c.Files i msgid → (segments (c.msgstr i)).head? = some []) →
        c.gettextBytes msgid = msgid)) := by
  have hle : ∀ i j, 1 ≤ i → i < j → j < c.layout.msgids.size →
      leading (c.msgid i) ≤ leading (c.msgid j) :=
    fun i j hi hij hj => leading_le_of_loadWith h hv hi hij hj
  obtain ⟨hsome, hsound⟩ : ((c.find? msgid).isSome ↔ ∃ i, c.Files i msgid) ∧
      ∀ i, c.find? msgid = some i → c.Files i msgid :=
    findBy_spec isSearch_search hle hkey
  refine ⟨fun s hs => findBy_spec hs hle hkey, hsome, hsound, ?_⟩
  intro hd
  refine ⟨?_, ?_, ?_⟩
  · intro s hs
    exact findBy_congr hs isSearch_search hle hkey fun i j hi hj => hd.eq_of_files hi hj
  · intro i first hi hfirst hne
    obtain ⟨j, hj⟩ := Option.isSome_iff_exists.mp (hsome.mpr ⟨i, hi⟩)
    obtain rfl := hd.eq_of_files hi (hsound j hj)
    rw [head?_segments] at hfirst
    obtain rfl := Option.some.inj hfirst
    rw [gettextBytes_of_find?_eq_some hj, if_neg hne]
  · intro hempty
    cases hf : c.find? msgid with
    | none => exact gettextBytes_of_find?_eq_none hf
    | some i =>
        have hfirst := hempty i (hsound i hf)
        rw [head?_segments] at hfirst
        rw [gettextBytes_of_find?_eq_some hf, if_pos (Option.some.inj hfirst)]

/-- A big-endian buffer with two messages, the second of them with a plural. -/
def twoMessages : Array UInt8 :=
  (Writer.write .big [] [⟨[97], [120]⟩, ⟨[98, 0, 99], [121, 0, 122]⟩]).toArray

def twoMessagesCatalog : Catalog :=
  ⟨twoMessages, .big, #[⟨76, 76⟩, ⟨77, 78⟩, ⟨79, 82⟩], #[⟨83, 83⟩, ⟨84, 85⟩, ⟨86, 89⟩], ⟨[]⟩, none⟩

theorem lookup_exact_twoMessages :
    loadWith {} twoMessages = .ok twoMessagesCatalog ∧ leading [98, 0, 7] ≠ [] ∧
      twoMessagesCatalog.DistinctKeys ∧ twoMessagesCatalog.Files 2 [98, 0, 7] ∧
      twoMessagesCatalog.gettextBytes [98, 0, 7] = [121] := by
  have hload : loadWith {} twoMessages = .ok twoMessagesCatalog := rfl
  have hdistinct : twoMessagesCatalog.DistinctKeys := by
    intro i j hi hij hj
    have hj3 : j < 3 := hj
    obtain rfl : i = 1 := by omega
    obtain rfl : j = 2 := by omega
    decide +kernel
  have hfiles : twoMessagesCatalog.Files 2 [98, 0, 7] :=
    ⟨by decide, by decide, by decide +kernel⟩
  have hkey : leading [98, 0, 7] ≠ [] := by decide
  have hspec := lookup_exact hload rfl hkey
  exact ⟨hload, hkey, hdistinct, hfiles,
    (hspec.2.2.2 hdistinct).2.1 2 [121] hfiles (by decide +kernel) (by decide)⟩

end Catalog

end MessageCatalog
