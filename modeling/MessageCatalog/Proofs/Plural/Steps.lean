import MessageCatalog.Proofs.Fallible
import MessageCatalog.Proofs.Plural.Grammar
import MessageCatalog.Proofs.Plural.Tokens

/-! # What one step of a parse does

Every step is described by the tokens that a parse has in front of it and the levels of nesting that
are open.
-/

namespace MessageCatalog.Plural

/-! ## The next token -/

theorem next_eq_ok_finish_iff {w : List Token} {fault : Option NumberTooLarge}
    (hw : .finish ∉ w) : next w fault = .ok .finish ↔ w = [] ∧ fault = none := by
  cases w with
  | nil => cases fault <;> simp [next]
  | cons t w =>
      have ht : t ≠ .finish := fun h => hw (h ▸ List.mem_cons_self)
      simp [next, ht]

theorem exists_of_next_eq_ok {w : List Token} {fault : Option NumberTooLarge} {t : Token}
    (h : next w fault = .ok t) (ht : t ≠ .finish) : ∃ v, w = t :: v := by
  cases w with
  | nil => cases fault <;> simp_all [next]
  | cons t' w =>
      obtain rfl := Except.ok.inj h
      exact ⟨w, rfl⟩

theorem next_none (w : List Token) : next w none = .ok (w.headD .finish) := by
  cases w <;> rfl

namespace Cursor

theorem Shows.finish_notMem {c : Cursor} {r : Reading} (h : c.Shows r) : .finish ∉ r.tokens := by
  cases h with
  | unseen position rest => exact finish_notMem_reading position rest
  | seen position rest l hl =>
      intro hm
      rcases List.mem_cons.mp hm with hm | hm
      · exact hl hm.symm
      · exact finish_notMem_reading position rest hm
  | finished position start => exact List.not_mem_nil

end Cursor

namespace Parser

/-- In front of the parse are the tokens `w` and then `fault`, and `n` levels of nesting are
open. -/
structure Shows (p : Parser) (w : List Token) (fault : Option NumberTooLarge) (n : Nat) : Prop where
  cursor : ∃ r, p.cursor.Shows r ∧ r.tokens = w ∧ r.fault = fault
  nesting : p.nesting = n

theorem shows_ofSource (source : List Char) :
    (ofSource source).Shows (reading 0 source).tokens (reading 0 source).fault 0 :=
  ⟨⟨_, Cursor.shows_ofSource source, rfl, rfl⟩, rfl⟩

variable {p q : Parser} {w : List Token} {fault : Option NumberTooLarge} {n limit : Nat}

theorem Shows.finish_notMem (h : p.Shows w fault n) : .finish ∉ w := by
  obtain ⟨⟨r, hr, rfl, -⟩, -⟩ := h
  exact hr.finish_notMem

/-! ## Reading tokens -/

theorem Shows.peek (h : p.Shows w fault n) :
    ∃ q, p.peek = outcome ((next w fault).mapError .number) q ∧ q.Shows w fault n := by
  obtain ⟨⟨r, hr, rfl, rfl⟩, hn⟩ := h
  obtain ⟨c, hc, hs⟩ := hr.peek
  refine ⟨{ p with cursor := c }, ?_, ⟨r, hs, rfl, rfl⟩, hn⟩
  simp only [Parser.peek, hc]
  cases next r.tokens r.fault <;> rfl

theorem Shows.advance (h : p.Shows w fault n) :
    ∃ q, p.advance = outcome ((next w fault).mapError .number) q ∧ q.Shows w.tail fault n := by
  obtain ⟨⟨r, hr, rfl, rfl⟩, hn⟩ := h
  obtain ⟨c, hc, hs⟩ := hr.advance
  have ht : r.tail.tokens = r.tokens.tail := by simp [Reading.tokens, Reading.tail]
  simp only [Parser.advance, hc]
  cases next r.tokens r.fault with
  | ok t => exact ⟨_, rfl, ⟨_, hs, ht, rfl⟩, hn⟩
  | error e => exact ⟨_, rfl, ⟨_, hs, ht, rfl⟩, hn⟩

theorem Shows.of_peek {t : Token} (h : p.Shows w fault n) (hp : p.peek = .ok t q) :
    next w fault = .ok t ∧ q.Shows w fault n := by
  obtain ⟨q', hq, hs⟩ := h.peek
  rw [hp] at hq
  cases hw : next w fault <;> rw [hw] at hq <;> cases hq
  exact ⟨rfl, hs⟩

theorem Shows.of_advance {t : Token} (h : p.Shows w fault n) (hp : p.advance = .ok t q) :
    next w fault = .ok t ∧ q.Shows w.tail fault n := by
  obtain ⟨q', hq, hs⟩ := h.advance
  rw [hp] at hq
  cases hw : next w fault <;> rw [hw] at hq <;> cases hq
  exact ⟨rfl, hs⟩

theorem Shows.exists_peek {t : Token} (h : p.Shows w fault n) (ht : next w fault = .ok t) :
    ∃ q, p.peek = .ok t q ∧ q.Shows w fault n := by
  simpa [ht, outcome] using h.peek

theorem Shows.exists_advance {t : Token} (h : p.Shows (t :: w) fault n) :
    ∃ q, p.advance = .ok t q ∧ q.Shows w fault n := by
  simpa [next, outcome] using h.advance

/-! ## Runs in sequence -/

theorem bind_eq_ok_iff {α β : Type} {x : Run α} {f : α → Run β} {b : β} :
    (x >>= f) p = .ok b q ↔ ∃ a p', x p = .ok a p' ∧ f a p' = .ok b q := by
  change EStateM.bind x f p = .ok b q ↔ _
  unfold EStateM.bind
  cases x p with
  | ok a p' =>
      constructor
      · exact fun h => ⟨a, p', rfl, h⟩
      · intro hall
        rcases hall with ⟨_, _, hx, h⟩
        cases hx
        exact h
  | error e p' => simp

theorem bind_of_ok {α β : Type} {x : Run α} {a : α} (f : α → Run β) (h : x p = .ok a q) :
    (x >>= f) p = f a q := by
  change EStateM.bind x f p = f a q
  simp only [EStateM.bind, h]

theorem pure_eq_ok_iff {α : Type} {a b : α} :
    (pure a : Run α) p = .ok b q ↔ b = a ∧ q = p := by
  change EStateM.Result.ok a p = .ok b q ↔ _
  simp [eq_comm]

theorem discard_eq_ok_iff {α : Type} {x : Run α} {u : Unit} :
    discard x p = .ok u q ↔ ∃ a, x p = .ok a q := by
  change EStateM.map (fun _ => ()) x p = .ok () q ↔ _
  unfold EStateM.map
  cases x p <;> simp

theorem offset_eq (p : Parser) : p.offset = .ok p.cursor.offset p :=
  rfl

theorem Shows.of_discard {t : Token} (h : p.Shows (t :: w) fault n)
    (hp : (discard Parser.advance : Run Unit) p = .ok () q) : q.Shows w fault n := by
  obtain ⟨_, ha⟩ := discard_eq_ok_iff.mp hp
  exact (h.of_advance ha).2

theorem Shows.exists_discard {t : Token} (h : p.Shows (t :: w) fault n) :
    ∃ q, (discard Parser.advance : Run Unit) p = .ok () q ∧ q.Shows w fault n := by
  obtain ⟨q, ha, hs⟩ := h.exists_advance
  exact ⟨q, discard_eq_ok_iff.mpr ⟨t, ha⟩, hs⟩

theorem Shows.of_expect {c : Char} (h : p.Shows w fault n) (hp : p.expect c = .ok () q) :
    ∃ v, w = .char c :: v ∧ q.Shows v fault n := by
  rw [expect, bind_of_ok _ (offset_eq p)] at hp
  obtain ⟨t, p₁, ha, hp⟩ := bind_eq_ok_iff.mp hp
  obtain ⟨hw, hs⟩ := h.of_advance ha
  split at hp
  · next ht =>
      obtain ⟨-, rfl⟩ := pure_eq_ok_iff.mp hp
      obtain ⟨v, rfl⟩ := exists_of_next_eq_ok hw (ht ▸ nofun)
      exact ⟨v, by rw [ht], hs⟩
  · cases hp

theorem Shows.exists_expect {c : Char} (h : p.Shows (.char c :: w) fault n) :
    ∃ q, p.expect c = .ok () q ∧ q.Shows w fault n := by
  obtain ⟨q, ha, hs⟩ := h.exists_advance
  refine ⟨q, ?_, hs⟩
  rw [expect, bind_of_ok _ (offset_eq p), bind_of_ok _ ha, if_pos rfl]
  rfl

/-! ## Nesting and depth -/

theorem Shows.of_enter (h : p.Shows w fault n) (hp : p.enter limit = .ok () q) :
    n + 1 ≤ limit ∧ q.Shows w fault (n + 1) := by
  obtain ⟨hc, rfl⟩ := h
  simp only [enter] at hp
  split at hp
  · cases hp
  · next hl =>
      cases hp
      exact ⟨Nat.le_of_not_lt hl, hc, rfl⟩

theorem Shows.exists_enter (h : p.Shows w fault n) (hn : n + 1 ≤ limit) :
    ∃ q, p.enter limit = .ok () q ∧ q.Shows w fault (n + 1) := by
  obtain ⟨hc, rfl⟩ := h
  refine ⟨{ p with nesting := p.nesting + 1 }, ?_, hc, rfl⟩
  simp only [enter, if_neg (Nat.not_lt.mpr hn)]

theorem Shows.leave (h : p.Shows w fault (n + 1)) :
    ∃ q, p.leave = .ok () q ∧ q.Shows w fault n := by
  obtain ⟨hc, hn⟩ := h
  exact ⟨_, rfl, hc, by simp [hn]⟩

theorem Shows.of_leave (h : p.Shows w fault (n + 1)) (hp : p.leave = .ok () q) :
    q.Shows w fault n := by
  obtain ⟨q', hq, hs⟩ := h.leave
  cases hp.symm.trans hq
  exact hs

theorem node_eq_ok_iff {e : Expr} {depth : Nat} {r : Parsed} :
    node e depth p = .ok r q ↔ depth ≤ maxTreeDepth ∧ r = ⟨e, depth⟩ ∧ q = p := by
  unfold node
  split
  · next hd =>
      constructor
      · intro h
        obtain ⟨o, p', -, h⟩ := bind_eq_ok_iff.mp h
        cases h
      · intro h
        omega
  · next hd => simp [pure_eq_ok_iff, Nat.le_of_not_lt hd]

/-- What `node` promises of the trees that it gives. -/
structure Fits (r : Parsed) : Prop where
  depth_eq : r.depth = r.expr.depth
  depth_le : r.depth ≤ maxTreeDepth

theorem one_le_maxTreeDepth : 1 ≤ maxTreeDepth := by
  decide

theorem of_node {e : Expr} {depth : Nat} {r : Parsed} (hd : depth = e.depth)
    (h : node e depth p = .ok r q) : q = p ∧ r.expr = e ∧ Fits r := by
  obtain ⟨hm, rfl, rfl⟩ := node_eq_ok_iff.mp h
  exact ⟨rfl, rfl, hd, hm⟩

/-! ## The function for a symbol -/

/-- A chain goes on from `left`, which the other functions have no use for. -/
def read (limit fuel : Nat) (left : Parsed) : Symbol → Run Parsed
  | .conditional => conditional limit fuel
  | .level k => level limit fuel k
  | .chain k => chain limit fuel k left
  | .unary => unary limit fuel
  | .value => value limit fuel

end Parser

end MessageCatalog.Plural
