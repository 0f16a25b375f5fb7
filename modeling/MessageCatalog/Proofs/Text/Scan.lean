import Mathlib.Data.List.TakeDrop
import MessageCatalog.Text.Scan

/-! # Laws of scans

A scan takes what it reads off the front of a text. The laws say what a combined scan takes from what
its parts take, so that a text that is put together from pieces is read piece by piece. -/

namespace MessageCatalog.Text.Scan

variable {α β γ : Type} {a : Scan α} {b : Scan β} {cs mid rest : List Char} {x : α} {y : β}

/-! ## One scan after the other -/

theorem bind_of_some {f : α → Scan β} (h : a cs = some (x, rest)) : (a >>= f) cs = f x rest := by
  change (a cs).bind _ = _
  rw [h]
  rfl

theorem bind_of_none {f : α → Scan β} (h : a cs = none) : (a >>= f) cs = none := by
  change (a cs).bind _ = _
  rw [h]
  rfl

theorem seqRight_of_some (h : a cs = some (x, rest)) : (a *> b) cs = b rest :=
  bind_of_some (f := fun _ => b) h

theorem seqRight_of_none (h : a cs = none) : (a *> b) cs = none :=
  bind_of_none (f := fun _ => b) h

theorem map_of_some {f : α → β} (h : a cs = some (x, rest)) : (f <$> a) cs = some (f x, rest) :=
  bind_of_some (f := fun x => pure (f x)) h

theorem map_of_none {f : α → β} (h : a cs = none) : (f <$> a) cs = none :=
  bind_of_none (f := fun x => pure (f x)) h

theorem seqLeft_of_some (ha : a cs = some (x, mid)) (hb : b mid = some (y, rest)) :
    (a <* b) cs = some (x, rest) := by
  change (a cs).bind _ = _
  rw [ha]
  exact map_of_some (f := fun _ => x) hb

theorem seqLeft_of_none (h : a cs = none) : (a <* b) cs = none := by
  change (a cs).bind _ = _
  rw [h]
  rfl

theorem discard_of_some (h : a cs = some (x, rest)) : discard a cs = some ((), rest) :=
  map_of_some (f := fun _ => ()) h

theorem all_of_some (h : a cs = some (x, [])) : all a cs = some x := by
  rw [all, h]

/-! ## One scan or the other -/

theorem orElse_of_some {a' : Scan α} (h : a cs = some (x, rest)) :
    (a <|> a') cs = some (x, rest) := by
  change (a cs <|> a' cs) = _
  rw [h]
  rfl

theorem orElse_of_none {a' : Scan α} (h : a cs = none) : (a <|> a') cs = a' cs := by
  change (a cs <|> a' cs) = _
  rw [h]
  rfl

theorem optional_of_none (h : a cs = none) : optional a cs = some (none, cs) :=
  orElse_of_none (a := some <$> a) (map_of_none h)

/-! ## Characters -/

theorem satisfy_cons {p : Char → Bool} {c : Char} (h : p c = true) (cs : List Char) :
    satisfy p (c :: cs) = some (c, cs) :=
  if_pos h

theorem satisfy_eq_none {p : Char → Bool} (h : ∀ c ∈ cs.head?, p c = false) :
    satisfy p cs = none := by
  cases cs with
  | nil => rfl
  | cons c cs => simp [satisfy, h c rfl]

theorem times_satisfy {p : Char → Bool} (h : ∀ c ∈ cs, p c = true) (rest : List Char) :
    times (satisfy p) cs.length (cs ++ rest) = some (cs, rest) := by
  induction cs with
  | nil => rfl
  | cons c cs ih =>
      have htail := ih fun d hd => h d (List.mem_cons_of_mem c hd)
      rw [List.length_cons, times, List.cons_append,
        bind_of_some (satisfy_cons (h c List.mem_cons_self) _)]
      exact map_of_some (f := (c :: ·)) htail

theorem times_eq_none (h : a cs = none) (n : Nat) : times a (n + 1) cs = none :=
  bind_of_none h

theorem times_eq_none_of_some {n : Nat} (h : a cs = some (x, rest)) (hrest : times a n rest = none) :
    times a (n + 1) cs = none := by
  rw [times, bind_of_some h]
  exact bind_of_none hrest

/-- What is taken stands in front of what is left. -/
theorem eq_append_of_times_satisfy {p : Char → Bool} {n : Nat} {ds : List Char}
    (h : times (satisfy p) n cs = some (ds, rest)) : cs = ds ++ rest ∧ ∀ c ∈ ds, p c = true := by
  induction n generalizing cs ds with
  | zero =>
      cases h
      exact ⟨rfl, nofun⟩
  | succ n ih =>
      cases cs with
      | nil => cases h
      | cons c cs =>
          cases hc : p c with
          | false =>
              rw [times_eq_none (satisfy_eq_none (by rintro _ ⟨⟩; exact hc))] at h
              cases h
          | true =>
              rw [times, bind_of_some (satisfy_cons hc cs)] at h
              cases htail : times (satisfy p) n cs with
              | none =>
                  rw [bind_of_none htail] at h
                  cases h
              | some tail =>
                  rw [bind_of_some htail] at h
                  cases h
                  obtain ⟨hcs, hds⟩ := ih htail
                  exact ⟨congrArg (c :: ·) hcs, List.forall_mem_cons.mpr ⟨hc, hds⟩⟩

theorem char_cons (c : Char) (cs : List Char) : char c (c :: cs) = some ((), cs) :=
  discard_of_some (satisfy_cons (beq_self_eq_true c) cs)

theorem char_eq_none {c : Char} (h : cs.head? ≠ some c) : char c cs = none := by
  refine map_of_none (satisfy_eq_none ?_)
  rintro d hd
  exact beq_false_of_ne fun hdc => h (hdc ▸ hd)

theorem word_append (w : String) (cs : List Char) : word w (w.toList ++ cs) = some ((), cs) := by
  have hprefix : w.toList.isPrefixOf (w.toList ++ cs) = true :=
    List.isPrefixOf_iff_prefix.mpr (List.prefix_append _ _)
  rw [word, if_pos hprefix, ← String.length_toList, List.drop_left]

theorem word_eq_none {w : String} {c : Char} {ds : List Char} (hw : w.toList = c :: ds)
    (h : cs.head? ≠ some c) : word w cs = none := by
  refine if_neg fun hprefix => h ?_
  obtain ⟨es, rfl⟩ := List.isPrefixOf_iff_prefix.mp hprefix
  rw [hw]
  rfl

theorem run_append {p : Char → Bool} (h : ∀ c ∈ cs, p c = true)
    (hrest : ∀ c ∈ rest.head?, p c = false) : run p (cs ++ rest) = some (cs, rest) := by
  have hnone : rest.takeWhile p = [] ∧ rest.dropWhile p = rest := by
    cases rest with
    | nil => exact ⟨rfl, rfl⟩
    | cons c rest => simp [hrest c rfl]
  rw [run, List.span_eq_takeWhile_dropWhile, List.takeWhile_append_of_pos h,
    List.dropWhile_append_of_pos h, hnone.1, hnone.2, List.append_nil]

theorem run1_append {p : Char → Bool} (hne : cs ≠ []) (h : ∀ c ∈ cs, p c = true)
    (hrest : ∀ c ∈ rest.head?, p c = false) : run1 p (cs ++ rest) = some (cs, rest) := by
  rw [run1, bind_of_some (run_append h hrest), if_neg hne]
  rfl

/-- What does not start with a character that passes is left as it is. -/
theorem discard_run {p : Char → Bool} (h : ∀ c ∈ rest.head?, p c = false) :
    discard (run p) rest = some ((), rest) :=
  discard_of_some (run_append (List.forall_mem_nil fun c => p c = true) h)

theorem discard_run_cons {p : Char → Bool} {c : Char} (hc : p c = true)
    (h : ∀ d ∈ rest.head?, p d = false) : discard (run p) (c :: rest) = some ((), rest) :=
  discard_of_some (run_append (List.forall_mem_singleton.mpr hc) h)

/-! ## Repetition -/

theorem upTo_of_none (h : a cs = none) (n : Nat) : upTo a n cs = some ([], cs) := by
  cases n with
  | zero => rfl
  | succ n => exact orElse_of_none (bind_of_none h)

theorem many_of_none (h : a cs = none) : many a cs = some ([], cs) :=
  upTo_of_none h cs.length

section Repetition

/- The scan `a` reads the text `t z` as `f z` if the text goes on as `Next` says. -/
variable {t : γ → List Char} {f : γ → α} {zs : List γ} (Next : List Char → Prop)

theorem upTo_flatMap {n : Nat}
    (hread : ∀ z ∈ zs, ∀ rest, Next rest → a (t z ++ rest) = some (f z, rest))
    (hnext : ∀ z ∈ zs, ∀ rest, Next (t z ++ rest)) (hrest : Next rest) (hstop : a rest = none)
    (hn : zs.length ≤ n) : upTo a n (zs.flatMap t ++ rest) = some (zs.map f, rest) := by
  induction zs generalizing n with
  | nil => exact upTo_of_none hstop n
  | cons z zs ih =>
      obtain ⟨n, rfl⟩ := Nat.exists_eq_add_of_le' hn
      have htail := ih (n := n + zs.length) (fun w hw => hread w (List.mem_cons_of_mem z hw))
        (fun w hw => hnext w (List.mem_cons_of_mem z hw)) (Nat.le_add_left _ _)
      have hgo : Next (zs.flatMap t ++ rest) := by
        cases zs with
        | nil => exact hrest
        | cons w zs =>
            rw [List.flatMap_cons, List.append_assoc]
            exact hnext w (by simp) _
      have hfirst := hread z List.mem_cons_self _ hgo
      rw [List.flatMap_cons, List.append_assoc]
      refine orElse_of_some ?_
      rw [bind_of_some hfirst]
      exact map_of_some (f := fun xs => f z :: xs) htail

theorem many_flatMap
    (hread : ∀ z ∈ zs, ∀ rest, Next rest → a (t z ++ rest) = some (f z, rest))
    (hnext : ∀ z ∈ zs, ∀ rest, Next (t z ++ rest)) (hne : ∀ z ∈ zs, t z ≠ []) (hrest : Next rest)
    (hstop : a rest = none) : many a (zs.flatMap t ++ rest) = some (zs.map f, rest) := by
  refine upTo_flatMap Next hread hnext hrest hstop ?_
  have hlength : zs.length ≤ (zs.flatMap t).length := by
    induction zs with
    | nil => exact Nat.le_refl 0
    | cons z zs ih =>
        have hz := List.length_pos_iff.mpr (hne z List.mem_cons_self)
        have hzs := ih (fun w hw => hread w (List.mem_cons_of_mem z hw))
          (fun w hw => hnext w (List.mem_cons_of_mem z hw))
          fun w hw => hne w (List.mem_cons_of_mem z hw)
        simp only [List.flatMap_cons, List.length_append, List.length_cons]
        omega
  rw [List.length_append]
  omega

/-- The texts of `zs` with the separator between them. -/
def joined (separator : Char) (t : γ → List Char) : List γ → List Char
  | [] => []
  | z :: zs => t z ++ zs.flatMap fun z => separator :: t z

theorem sepBy1_joined {separator : Char} {z : γ}
    (hread : ∀ w ∈ z :: zs, ∀ rest, Next rest → a (t w ++ rest) = some (f w, rest))
    (hseparator : ∀ w ∈ zs, ∀ rest, b (separator :: (t w ++ rest)) = some (y, t w ++ rest))
    (hnext : ∀ rest, Next (separator :: rest)) (hrest : Next rest) (hstop : b rest = none) :
    sepBy1 a b (joined separator t (z :: zs) ++ rest) = some ((z :: zs).map f, rest) := by
  have hitem : ∀ w ∈ zs, ∀ rest, Next rest →
      (b *> a) (separator :: t w ++ rest) = some (f w, rest) := by
    intro w hw rest hrest
    rw [List.cons_append, seqRight_of_some (hseparator w hw rest)]
    exact hread w (List.mem_cons_of_mem z hw) rest hrest
  have hmany : many (b *> a) ((zs.flatMap fun w => separator :: t w) ++ rest) =
      some (zs.map f, rest) :=
    many_flatMap Next hitem (fun w _ rest => hnext _) (fun w _ => List.cons_ne_nil _ _) hrest
      (seqRight_of_none hstop)
  have hgo : Next ((zs.flatMap fun w => separator :: t w) ++ rest) := by
    cases zs with
    | nil => exact hrest
    | cons w zs => exact hnext _
  rw [joined, List.append_assoc, sepBy1, bind_of_some (hread z List.mem_cons_self _ hgo)]
  exact map_of_some (f := fun xs => f z :: xs) hmany

end Repetition

end MessageCatalog.Text.Scan
