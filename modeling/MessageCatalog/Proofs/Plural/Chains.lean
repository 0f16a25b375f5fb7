import Mathlib.Data.Nat.Init
import MessageCatalog.Proofs.Plural.Grammar

/-! # Chains of operators

Operands with operators of any levels between them always have a derivation, and it nests no deeper
than they do: operators in a row open nothing, however many they are.
-/

namespace MessageCatalog.Plural

/-- Operators with the operand that each of them has on its right. -/
abbrev Links := List (Dyadic × Derivation .unary)

namespace Links

def yield (links : Links) : List Token :=
  links.flatMap fun link => link.1.token :: link.2.yield

/-- The largest nesting of an operand. -/
def nesting (links : Links) : Nat :=
  (links.map (·.2.nesting)).foldr max 0

theorem yield_cons (op : Dyadic) (right : Derivation .unary) (links : Links) :
    yield ((op, right) :: links) = op.token :: (right.yield ++ yield links) :=
  rfl

theorem yield_append (links links' : Links) :
    yield (links ++ links') = links.yield ++ links'.yield :=
  List.flatMap_append

theorem nesting_cons (op : Dyadic) (right : Derivation .unary) (links : Links) :
    nesting ((op, right) :: links) = max right.nesting (nesting links) :=
  rfl

theorem nesting_append (links links' : Links) :
    nesting (links ++ links') = max links.nesting links'.nesting := by
  induction links with
  | nil => exact (Nat.zero_max _).symm
  | cons link links ih =>
      rw [List.cons_append, nesting_cons, ih, nesting_cons, Nat.max_assoc]

end Links

namespace Derivation

/-- The links that bind tighter than level `k` belong to the operand in front of them, and the
others make a chain of level `k`. -/
theorem exists_chain {k : Nat}
    (hlevel : ∀ (first : Derivation .unary) (links : Links), (∀ l ∈ links, k < l.1.precedence) →
      ∃ d : Derivation (.level (k + 1)),
        d.yield = first.yield ++ links.yield ∧ d.nesting = max first.nesting links.nesting)
    (links : Links) (h : ∀ l ∈ links, k ≤ l.1.precedence) :
    ∃ tight loose : Links, links = tight ++ loose ∧ (∀ l ∈ tight, k < l.1.precedence) ∧
      ∃ c : Derivation (.chain k), c.yield = loose.yield ∧ c.nesting = loose.nesting := by
  induction links with
  | nil => exact ⟨[], [], rfl, nofun, stop, rfl, rfl⟩
  | cons link links ih =>
      obtain ⟨op, right⟩ := link
      obtain ⟨tight, loose, rfl, ht, c, hcy, hcn⟩ := ih fun l hl => h l (List.mem_cons_of_mem _ hl)
      -- The first link is tight itself, or starts the chain with the tight links behind it.
      rcases Nat.lt_or_eq_of_le (h _ List.mem_cons_self) with hop | hop
      · refine ⟨(op, right) :: tight, loose, rfl, ?_, c, hcy, hcn⟩
        intro l hl
        rcases List.mem_cons.mp hl with rfl | hl
        · exact hop
        · exact ht l hl
      · have hmem : op ∈ Dyadic.ofLevel k := Dyadic.mem_ofLevel_iff.mpr hop.symm
        obtain ⟨d, hdy, hdn⟩ := hlevel right tight ht
        refine ⟨[], (op, right) :: (tight ++ loose), rfl, nofun, step op hmem d c, ?_, ?_⟩
        · rw [yield, hdy, hcy, Links.yield_cons, Links.yield_append, List.append_assoc]
        · rw [nesting, hdn, hcn, Links.nesting_cons, Links.nesting_append, Nat.max_assoc]

theorem exists_level {k : Nat} (hk : k ≤ 11) (first : Derivation .unary) (links : Links)
    (h : ∀ l ∈ links, k ≤ l.1.precedence) :
    ∃ d : Derivation (.level k),
      d.yield = first.yield ++ links.yield ∧ d.nesting = max first.nesting links.nesting := by
  induction hk using Nat.decreasingInduction generalizing first links with
  | self =>
      cases links with
      | nil => exact ⟨tightest (by decide) first, (List.append_nil _).symm, (Nat.max_zero _).symm⟩
      | cons link links =>
          have hl := h link List.mem_cons_self
          have hp := link.1.precedence_le
          omega
  | of_succ k hk ih =>
      obtain ⟨tight, loose, rfl, ht, c, hcy, hcn⟩ := exists_chain ih links h
      obtain ⟨d, hdy, hdn⟩ := ih first tight ht
      refine ⟨operands (Nat.le_of_lt_succ hk) d c, ?_, ?_⟩
      · rw [yield, hdy, hcy, Links.yield_append, List.append_assoc]
      · rw [nesting, hdn, hcn, Links.nesting_append, Nat.max_assoc]

/-- Joining operands by operators opens nothing. -/
theorem exists_of_links (first : Derivation .unary) (links : Links) :
    ∃ d : Derivation .conditional,
      d.yield = first.yield ++ links.yield ∧ d.nesting = max first.nesting links.nesting := by
  have hp : ∀ l ∈ links, 1 ≤ l.1.precedence := fun l _ => l.1.precedence_pos
  obtain ⟨d, hy, hn⟩ := exists_level (by decide) first links hp
  exact ⟨bare d, hy, hn⟩

end Derivation

end MessageCatalog.Plural
