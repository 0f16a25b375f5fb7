import MessageCatalog.Proofs.Catalog.Display
import MessageCatalog.Proofs.Catalog.Lookup

/-! # Messages in a context

A message in a context is looked up under the context, U+0004 and its msgid. The lookup goes by what
stands in front of the first NUL, and so it stays inside the context only if the context has no NUL in
it. Otherwise the separator is cut off together with the msgid.
-/

namespace MessageCatalog.Catalog

open Bytes Text

variable {c : Catalog} {context msgid front back text : String} {n : Int32} {i : Nat}

/-- Entry `i` is no header, and its msgid leads with the context, U+0004 and `msgid` up to a NUL in
that. -/
def InContext (c : Catalog) (i : Nat) (context msgid : String) : Prop :=
  1 ≤ i ∧ i < c.layout.msgids.size ∧
    leading (c.msgid i) = encode context ++ 4 :: leading (encode msgid)

/-! ## Keys -/

theorem nul_mem_encode_iff : 0 ∈ encode text ↔ '\x00' ∈ text.toList :=
  mem_encode_iff_of_ascii (by decide) text

theorem separator_mem_encode_iff : 4 ∈ encode text ↔ '\x04' ∈ text.toList :=
  mem_encode_iff_of_ascii (by decide) text

theorem encode_contextKey (context msgid : String) :
    encode (contextKey context msgid) = encode context ++ 4 :: encode msgid := by
  rw [contextKey, encode_append, encode_append, List.append_assoc]
  rfl

theorem leading_contextKey (h : '\x00' ∉ context.toList) :
    leading (encode (contextKey context msgid)) = encode context ++ 4 :: leading (encode msgid) := by
  have hfour : (0 : UInt8) ∉ [4] := by decide
  have hseparator : leading (4 :: encode msgid) = 4 :: leading (encode msgid) :=
    leading_append_of_notMem hfour (encode msgid)
  rw [encode_contextKey, leading_append_of_notMem (nul_mem_encode_iff.not.mpr h), hseparator]

/-- A NUL in the context ends the key, so that neither the separator nor the msgid is part of it. -/
theorem leading_contextKey_of_nul (front back msgid : String) :
    leading (encode (contextKey (front ++ "\x00" ++ back) msgid)) = leading (encode front) := by
  have hnul : encode "\x00" = [0] := rfl
  rw [encode_contextKey, encode_append, encode_append, hnul, List.append_assoc, List.append_assoc,
    List.singleton_append, leading_append_zero]

/-! ## Entries in a context -/

/-- No msgid leads with a string that has a NUL in it. -/
theorem not_inContext_of_nul (h : '\x00' ∈ context.toList) : ¬ c.InContext i context msgid := by
  rintro ⟨-, -, hlead⟩
  apply zero_not_mem_leading (c.msgid i)
  rw [hlead]
  exact List.mem_append_left _ (nul_mem_encode_iff.mpr h)

theorem takeWhile_ne_separator {bytes : List UInt8} (h : 4 ∉ bytes) (rest : List UInt8) :
    (bytes ++ 4 :: rest).takeWhile (· != 4) = bytes := by
  have hne : ∀ b ∈ bytes, (b != 4) = true := by
    intro b hb
    rw [bne_iff_ne]
    rintro rfl
    exact h hb
  rw [List.takeWhile_append_of_pos hne]
  simp

/-- The separator ends the context, so that no entry belongs to two of them. -/
theorem InContext.unique {context' msgid' : String} (h : c.InContext i context msgid)
    (h' : c.InContext i context' msgid') (hc : '\x04' ∉ context.toList)
    (hc' : '\x04' ∉ context'.toList) : context = context' := by
  rw [← separator_mem_encode_iff] at hc hc'
  have hlead : encode context ++ 4 :: leading (encode msgid) =
      encode context' ++ 4 :: leading (encode msgid') :=
    h.2.2.symm.trans h'.2.2
  have hencode : encode context = encode context' := by
    rw [← takeWhile_ne_separator hc (leading (encode msgid)), hlead, takeWhile_ne_separator hc']
  exact Option.some.inj ((decode?_encode context).symm.trans (hencode ▸ decode?_encode context'))

/-! ## Lookups -/

/-- A lookup sees no more of a msgid than its leading string. -/
theorem find?_congr {a b : List UInt8} (h : leading a = leading b) : c.find? a = c.find? b := by
  rw [find?, find?, h]

theorem cluster?_congr {a b : List UInt8} (h : leading a = leading b) :
    c.cluster? a = c.cluster? b := by
  rw [cluster?, cluster?, find?_congr h]

theorem text?_contextKey_of_nul (c : Catalog) (front back msgid : String) :
    c.text? (contextKey (front ++ "\x00" ++ back) msgid) = c.text? front := by
  rw [text?, text?, singular?, singular?, cluster?_congr (leading_contextKey_of_nul front back msgid)]

theorem pluralText?_contextKey_of_nul (c : Catalog) (front back msgid : String) (n : Int32) :
    c.pluralText? (contextKey (front ++ "\x00" ++ back) msgid) n = c.pluralText? front n := by
  rw [pluralText?, pluralText?, variant?, variant?,
    cluster?_congr (leading_contextKey_of_nul front back msgid)]

theorem inContext_of_files (h : '\x00' ∉ context.toList)
    (hi : c.Files i (encode (contextKey context msgid))) : c.InContext i context msgid :=
  ⟨hi.1, hi.2.1, hi.2.2.trans (leading_contextKey h)⟩

/-- What is supplied under a msgid is a string of the msgstr that a lookup finds. -/
theorem exists_segment_of_supplied
    (h : c.text? msgid = some text ∨ c.pluralText? msgid n = some text) :
    ∃ i k, c.find? (encode msgid) = some i ∧ IsSegment (c.msgstr i) k (encode text) := by
  rcases h with h | h
  · obtain ⟨cluster, ⟨i, hfind, rfl, -⟩, hs⟩ := text?_eq_some_iff.mp h
    exact ⟨i, 0, hfind, hs⟩
  · obtain ⟨cluster, rule, k, j, ⟨i, hfind, rfl, -⟩, -, -, -, hs⟩ := pluralText?_eq_some_iff.mp h
    exact ⟨i, j, hfind, hs⟩

/-- In a catalog whose order was checked, lookups in a context without a NUL stay inside it. Whatever
correct search they use, they find only entries of the context and the msgid, and what is shown is one
of the strings of such an entry or the caller's own words. An entry belongs to one context, unless
contexts have U+0004 in them. A context with a NUL is left: what is asked for then is the message that
stands in front of the NUL, without a context. -/
theorem context_lookup_stays_inside {settings : Settings} {data : Array UInt8} {c : Catalog}
    (h : loadWith settings data = .ok c) (hv : settings.verifySortOrder = true)
    (context msgid plural : String) (n : Int32) :
    let key := context ++ "\x04" ++ msgid
    c.pgettext context msgid = (c.text? key).getD msgid ∧
    c.npgettext context msgid plural n =
      (c.pluralText? key n).getD (if n = 1 then msgid else plural) ∧
    ('\x00' ∉ context.toList →
      (∀ s, IsSearch s → ∀ i, c.findBy s (encode key) = some i → c.InContext i context msgid) ∧
      ∀ text, c.text? key = some text ∨ c.pluralText? key n = some text →
        ∃ i k, c.InContext i context msgid ∧ IsSegment (c.msgstr i) k (encode text)) ∧
    (∀ i context' msgid', c.InContext i context msgid → c.InContext i context' msgid' →
      '\x04' ∉ context.toList → '\x04' ∉ context'.toList → context = context') ∧
    ∀ front back, context = front ++ "\x00" ++ back →
      c.text? key = c.text? front ∧ c.pluralText? key n = c.pluralText? front n := by
  intro key
  refine ⟨rfl, rfl, ?_, fun i context' msgid' hi hi' => hi.unique hi', ?_⟩
  · intro hnul
    have hkey : leading (encode (contextKey context msgid)) ≠ [] := by
      rw [leading_contextKey hnul]
      simp
    have hle : ∀ i j, 1 ≤ i → i < j → j < c.layout.msgids.size →
        leading (c.msgid i) ≤ leading (c.msgid j) :=
      fun i j hi hij hj => leading_le_of_loadWith h hv hi hij hj
    have hfound {s} (hs : IsSearch s) {i : Nat} (hi : c.findBy s (encode key) = some i) :
        c.InContext i context msgid :=
      inContext_of_files hnul ((findBy_spec hs hle hkey).2 i hi)
    refine ⟨fun s hs i hi => hfound hs hi, ?_⟩
    intro text htext
    obtain ⟨i, k, hfind, hs⟩ := exists_segment_of_supplied htext
    exact ⟨i, k, hfound isSearch_search hfind, hs⟩
  · rintro front back rfl
    exact ⟨c.text?_contextKey_of_nul front back msgid, c.pluralText?_contextKey_of_nul front back msgid n⟩

/-- Two messages with the msgid `a`, the second of them in the context `m`. -/
def menuMessages : Array UInt8 :=
  (Writer.write .little [72] [⟨[97], [84]⟩, ⟨[109, 4, 97], [85]⟩]).toArray

theorem exists_load_menuMessages :
    ∃ c, loadWith {} menuMessages = .ok c ∧ c.text? (contextKey "m" "a") = some "U" ∧
      c.text? "a" = some "T" ∧ c.text? "" = some "H" := by
  have h : (loadWith {} menuMessages).map (fun c => (c.singular? (encode (contextKey "m" "a")),
      c.singular? (encode "a"), c.singular? (encode ""))) =
      .ok (some (encode "U"), some (encode "T"), some (encode "H")) := by
    decide +kernel
  obtain ⟨c, hc, hall⟩ := Fallible.map_eq_ok_iff.mp h
  obtain ⟨hu, hrest⟩ := Prod.mk.inj hall
  obtain ⟨ht, hh⟩ := Prod.mk.inj hrest
  refine ⟨c, hc, ?_, ?_, ?_⟩
  · rw [text?, hu, Option.bind_some, decode?_encode]
  · rw [text?, ht, Option.bind_some, decode?_encode]
  · rw [text?, hh, Option.bind_some, decode?_encode]

theorem context_lookup_menuMessages :
    ∃ c, loadWith {} menuMessages = .ok c ∧ '\x00' ∉ "m".toList ∧ c.pgettext "m" "a" = "U" ∧
      ∃ i k, c.InContext i "m" "a" ∧ IsSegment (c.msgstr i) k (encode "U") := by
  obtain ⟨c, hc, hu, -⟩ := exists_load_menuMessages
  have hinside := context_lookup_stays_inside hc rfl "m" "a" "as" 1
  refine ⟨c, hc, by decide, ?_, (hinside.2.2.1 (by decide)).2 "U" (.inl hu)⟩
  rw [hinside.1]
  exact congrArg (Option.getD · "a") hu

/-- A NUL in the context leads to the message `a`, which has no context, or to the header. -/
theorem pgettext_leaves_context :
    ∃ c, loadWith {} menuMessages = .ok c ∧
      c.pgettext "a\x00m" "x" = "T" ∧ (∀ i, ¬ c.InContext i "a\x00m" "x") ∧
      c.pgettext "\x00m" "x" = "H" ∧ ∀ i, ¬ c.InContext i "\x00m" "x" := by
  obtain ⟨c, hc, -, ht, hh⟩ := exists_load_menuMessages
  refine ⟨c, hc, ?_, fun i => not_inContext_of_nul (by decide), ?_,
    fun i => not_inContext_of_nul (by decide)⟩
  · have htext : c.text? (contextKey "a\x00m" "x") = some "T" :=
      (c.text?_contextKey_of_nul "a" "m" "x").trans ht
    rw [pgettext_eq_getD, htext, Option.getD_some]
  · have htext : c.text? (contextKey "\x00m" "x") = some "H" :=
      (c.text?_contextKey_of_nul "" "m" "x").trans hh
    rw [pgettext_eq_getD, htext, Option.getD_some]

end MessageCatalog.Catalog
