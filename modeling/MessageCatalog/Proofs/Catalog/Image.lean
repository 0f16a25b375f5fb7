import MessageCatalog.Catalog.Writer
import MessageCatalog.Proofs.Catalog.WellFormed

/-! # The bytes that a writer lays out

Every word stands where its place among the words says, and every string where its entry says. An
entry's offset is the sum of what comes before its string: the words and all earlier strings.
-/

namespace MessageCatalog.Writer

open Bytes Layout

/-! ## Words -/

def wordBytes (order : ByteOrder) (ws : List Nat) : List UInt8 :=
  ws.flatMap fun w => order.bytes (.ofNat w)

variable {order : ByteOrder} {ws : List Nat} {w j : Nat} {rest : List UInt8}

theorem toList_extract (bs : List UInt8) (start stop : Nat) :
    (bs.toArray.extract start stop).toList = (bs.drop start).take (stop - start) := by
  simp

theorem length_wordBytes (order : ByteOrder) (ws : List Nat) :
    (wordBytes order ws).length = 4 * ws.length := by
  induction ws with
  | nil => rfl
  | cons w ws ih =>
      rw [wordBytes] at ih ⊢
      rw [List.flatMap_cons, List.length_append, ih, ByteOrder.length_bytes, List.length_cons]
      omega

theorem wordAt_append (front bs : List UInt8) (offset : Nat) :
    order.wordAt (front ++ bs).toArray (front.length + offset) = order.wordAt bs.toArray offset := by
  rw [ByteOrder.wordAt, ByteOrder.wordAt, toList_extract, toList_extract, List.drop_length_add_append,
    Nat.add_sub_cancel_left, Nat.add_sub_cancel_left]

theorem wordAt_wordBytes (h : ws[j]? = some w) (hw : w < UInt32.size) :
    order.wordAt (wordBytes order ws ++ rest).toArray (4 * j) = w := by
  induction ws generalizing j with
  | nil => simp at h
  | cons v ws ih =>
      have hlen : (order.bytes (.ofNat v)).length = 4 := order.length_bytes _
      rw [wordBytes, List.flatMap_cons, List.append_assoc]
      cases j with
      | zero =>
          obtain rfl : v = w := by simpa using h
          rw [ByteOrder.wordAt, toList_extract, Nat.mul_zero, List.drop_zero, List.take_left' hlen,
            order.value_bytes, UInt32.toNat_ofNat_of_lt' hw]
      | succ j =>
          have hoffset : 4 * (j + 1) = (order.bytes (.ofNat v)).length + 4 * j := by
            rw [hlen]
            omega
          rw [hoffset, wordAt_append]
          exact ih (by simpa using h)

/-! ## Strings -/

def stringBytes (strings : List (List UInt8)) : List UInt8 :=
  strings.flatMap (· ++ [0])

variable {strings : List (List UInt8)} {s : List UInt8} {i : Nat}

/-- An entry tells where its string stands among the strings. -/
theorem getElem?_entries (start : Nat) (h : strings[i]? = some s) :
    (entries start strings)[i]? =
      some (s.length, start + (stringBytes (strings.take i)).length) := by
  induction strings generalizing start i with
  | nil => simp at h
  | cons t strings ih =>
      cases i with
      | zero =>
          obtain rfl : t = s := by simpa using h
          rfl
      | succ i =>
          rw [entries, List.getElem?_cons_succ, ih _ (by simpa using h)]
          simp only [List.take_succ_cons, stringBytes, List.flatMap_cons, List.length_append,
            List.length_cons, List.length_nil]
          congr 2
          omega

theorem length_entries (start : Nat) (strings : List (List UInt8)) :
    (entries start strings).length = strings.length := by
  induction strings generalizing start with
  | nil => rfl
  | cons s strings ih => rw [entries, List.length_cons, List.length_cons, ih]

theorem stringBytes_eq (h : strings[i]? = some s) :
    stringBytes strings =
      stringBytes (strings.take i) ++ (s ++ [0]) ++ stringBytes (strings.drop (i + 1)) := by
  obtain ⟨hi, rfl⟩ := List.getElem?_eq_some_iff.mp h
  calc
    stringBytes strings = stringBytes (strings.take i ++ strings[i] :: strings.drop (i + 1)) := by
      rw [← List.drop_eq_getElem_cons hi, List.take_append_drop]
    _ = stringBytes (strings.take i) ++ (strings[i] ++ [0]) ++
          stringBytes (strings.drop (i + 1)) := by
      simp only [stringBytes, List.flatMap_append, List.flatMap_cons, List.append_assoc]

/-- At the place that its entry tells stands the string. -/
theorem take_drop_stringBytes (front : List UInt8) (h : strings[i]? = some s) :
    ((front ++ stringBytes strings).drop
      (front.length + (stringBytes (strings.take i)).length)).take s.length = s := by
  rw [stringBytes_eq h, List.drop_length_add_append, List.append_assoc, List.drop_left,
    List.append_assoc, List.take_left]

theorem length_stringBytes_lt (h : strings[i]? = some s) :
    (stringBytes (strings.take i)).length + s.length < (stringBytes strings).length := by
  rw [stringBytes_eq h]
  simp only [List.length_append, List.length_cons, List.length_nil]
  omega

/-! ## Catalogs -/

/-- The catalog with the given strings. -/
def image (order : ByteOrder) (msgids msgstrs : List (List UInt8)) : List UInt8 :=
  wordBytes order (words msgids msgstrs) ++ stringBytes (msgids ++ msgstrs)

theorem getElem?_flatMap_pair (es : List (Nat × Nat)) (i : Nat) :
    (es.flatMap fun (l, o) => [l, o])[2 * i]? = es[i]?.map Prod.fst ∧
      (es.flatMap fun (l, o) => [l, o])[2 * i + 1]? = es[i]?.map Prod.snd := by
  induction es generalizing i with
  | nil => simp
  | cons e es ih =>
      cases i with
      | zero => simp
      | succ i => simpa [Nat.mul_add] using ih i

variable {msgids msgstrs : List (List UInt8)}

theorem length_words (h : msgstrs.length = msgids.length) :
    (words msgids msgstrs).length = 7 + 4 * msgids.length := by
  have hpairs (es : List (Nat × Nat)) :
      (es.flatMap fun (l, o) => [l, o]).length = 2 * es.length := by
    induction es with
    | nil => rfl
    | cons e es ih =>
        rw [List.flatMap_cons, List.length_append, ih]
        simp only [List.length_cons, List.length_nil]
        omega
  simp only [words, List.length_append, hpairs, length_entries, List.length_cons, List.length_nil, h]
  omega

theorem length_image (h : msgstrs.length = msgids.length) :
    (image order msgids msgstrs).length =
      28 + 16 * msgids.length + (stringBytes (msgids ++ msgstrs)).length := by
  rw [image, List.length_append, length_wordBytes, length_words h]
  omega

/-- The words of string `i`, counted through both tables, and the string at the place that they
tell. -/
theorem string_image (hlen : msgstrs.length = msgids.length)
    (hsize : (image order msgids msgstrs).length < 0x80000000)
    (h : (msgids ++ msgstrs)[i]? = some s) :
    ∃ o, order.wordAt (image order msgids msgstrs).toArray (28 + 8 * i) = s.length ∧
      order.wordAt (image order msgids msgstrs).toArray (28 + 8 * i + 4) = o ∧
      o + s.length < (image order msgids msgstrs).length ∧
      bytesBetween (image order msgids msgstrs).toArray (o, o + s.length) = s := by
  have hwords : (wordBytes order (words msgids msgstrs)).length = 28 + 16 * msgids.length := by
    rw [length_wordBytes, length_words hlen]
    omega
  have hfit : 28 + 16 * msgids.length + (stringBytes ((msgids ++ msgstrs).take i)).length +
      s.length < (image order msgids msgstrs).length := by
    have := length_stringBytes_lt h
    rw [length_image hlen]
    omega
  have hentry := getElem?_entries (28 + 16 * msgids.length) h
  obtain ⟨hlength, hoffset⟩ :=
    getElem?_flatMap_pair (entries (28 + 16 * msgids.length) (msgids ++ msgstrs)) i
  rw [hentry] at hlength hoffset
  have hstart : preambleSize + 2 * (8 * msgids.length) = 28 + 16 * msgids.length := by
    rw [preambleSize]
    omega
  -- Seven words stand in front of the entries.
  have hword (k v : Nat)
      (hk : ((entries (28 + 16 * msgids.length) (msgids ++ msgstrs)).flatMap
        fun (l, o) => [l, o])[k]? = some v) :
      (words msgids msgstrs)[7 + k]? = some v := by
    rw [words, hstart, List.getElem?_append_right (by simp)]
    simpa using hk
  refine ⟨_, ?_, ?_, hfit, ?_⟩
  · rw [show 28 + 8 * i = 4 * (7 + 2 * i) by omega]
    exact wordAt_wordBytes (hword _ _ hlength) (by simp only [UInt32.size]; omega)
  · rw [show 28 + 8 * i + 4 = 4 * (7 + (2 * i + 1)) by omega]
    exact wordAt_wordBytes (hword _ _ hoffset) (by simp only [UInt32.size]; omega)
  · rw [bytesBetween, toList_extract, Nat.add_sub_cancel_left, image, ← hwords]
    exact take_drop_stringBytes _ h

end MessageCatalog.Writer
