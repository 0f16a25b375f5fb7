import MessageCatalog.Proofs.Plural.Chains
import MessageCatalog.Proofs.Plural.Completeness
import MessageCatalog.Proofs.Plural.Soundness
import MessageCatalog.Proofs.Plural.Spelling

/-! # What a parse accepts

A source is accepted exactly when it is spelled by tokens that derive from the grammar within both
limits, and what it gives is the tree of the only derivation.
-/

namespace MessageCatalog.Plural

namespace Parser

variable {limit fuel n : Nat} {p q : Parser} {w : List Token} {fault : Option NumberTooLarge}

theorem fits_whole {e : Expr} (h : e.depth ≤ maxTreeDepth) : Fits (whole e) :=
  ⟨rfl, h⟩

theorem Shows.of_rule {e : Expr} (h : p.Shows w fault n) (hn : n ≤ limit)
    (hr : rule limit fuel p = .ok e q) :
    fault = none ∧ ∃ d : Derivation .conditional,
      d.yield = w ∧ d.tree = e ∧ n + d.nesting ≤ limit ∧ e.depth ≤ maxTreeDepth := by
  obtain ⟨parsed, p₁, hc, hr⟩ := bind_eq_ok_iff.mp hr
  obtain ⟨d, v, rfl, hp₁, hd, he, hf⟩ :=
    sound limit fuel .conditional h hn (fits_whole (e := .count) one_le_maxTreeDepth) hc
  obtain ⟨t, p₂, ht, hr⟩ := bind_eq_ok_iff.mp hr
  obtain ⟨hv, -⟩ := hp₁.of_peek ht
  split at hr
  · obtain ⟨rfl, rfl⟩ := (next_eq_ok_finish_iff hp₁.finish_notMem).mp hv
    obtain ⟨rfl, -⟩ := pure_eq_ok_iff.mp hr
    exact ⟨rfl, d, (List.append_nil _).symm, he.symm, hd, hf.depth_eq ▸ hf.depth_le⟩
  · obtain ⟨_, _, -, hr⟩ := bind_eq_ok_iff.mp hr
    cases hr

theorem Shows.exists_rule {d : Derivation .conditional} (h : p.Shows d.yield none n)
    (hf : d.calls ≤ fuel) (hn : n + d.nesting ≤ limit) (hm : d.tree.depth ≤ maxTreeDepth) :
    ∃ q, rule limit fuel p = .ok d.tree q := by
  rw [← List.append_nil d.yield] at h
  obtain ⟨p₁, h₁, hp₁⟩ := complete limit d .count h ends_nil hf hn hm
  obtain ⟨p₂, h₂, -⟩ := hp₁.exists_peek rfl
  refine ⟨p₂, ?_⟩
  simp only [read] at h₁
  rw [rule, bind_of_ok _ h₁, bind_of_ok _ h₂]
  rfl

theorem calls_le_bound {source : List Char} {d : Derivation .conditional}
    (h : d.yield = (reading 0 source).tokens) : d.calls ≤ bound source := by
  have hl : d.yield.length ≤ source.length := h ▸ length_reading_le 0 source
  have hc : d.calls + 3 ≤ 16 * d.yield.length + 1 := d.calls_add_spare_le
  have hb : bound source = 16 * (source.length + 1) := rfl
  omega

end Parser

namespace Expr

theorem parseWithin_eq_ok_iff {limit : Nat} {source : String} {e : Expr} :
    parseWithin limit source = .ok e ↔
      ∃ q, Parser.rule limit (Parser.bound source.toList) (.ofSource source.toList) = .ok e q := by
  unfold parseWithin
  extract_lets cs
  -- A bound that stays open would be unrolled call by call.
  generalize Parser.bound cs = fuel
  generalize Parser.rule limit fuel (.ofSource cs) = result
  cases result <;> simp

theorem parseWithin_eq_ok_iff_derivation {limit : Nat} {source : String} {e : Expr} :
    parseWithin limit source = .ok e ↔
      (reading 0 source.toList).fault = none ∧ ∃ d : Derivation .conditional,
        d.yield = (reading 0 source.toList).tokens ∧ d.tree = e ∧ d.nesting ≤ limit ∧
          e.depth ≤ 4096 := by
  rw [parseWithin_eq_ok_iff]
  have hp := Parser.shows_ofSource source.toList
  constructor
  · intro h
    rcases h with ⟨q, hq⟩
    obtain ⟨hf, d, hy, ht, hn, hm⟩ := hp.of_rule (Nat.zero_le limit) hq
    exact ⟨hf, d, hy, ht, Nat.zero_add d.nesting ▸ hn, hm⟩
  · intro h
    rcases h with ⟨hf, d, hy, rfl, hn, hm⟩
    rw [hf, ← hy] at hp
    exact hp.exists_rule (Parser.calls_le_bound hy) ((Nat.zero_add _).symm ▸ hn) hm

/-- A source is spelled in one way. It is accepted exactly when this covers all of it and its tokens
derive from the grammar, with at most `limit` levels of nesting and 4096 levels of the tree. What it
gives is the tree of the derivation, of which there is no second one. Operators in a row open no level
of nesting. -/
theorem parseWithin_exact :
    (∀ source : String, ∃ r, ∀ r', Spelled 0 source.toList r' ↔ r' = r) ∧
    (∀ (limit : Nat) (source : String) (e : Expr), parseWithin limit source = .ok e ↔
      ∃ r, Spelled 0 source.toList r ∧ r.fault = none ∧ ∃ d : Derivation .conditional,
        d.yield = r.tokens ∧ d.tree = e ∧ d.nesting ≤ limit ∧ e.depth ≤ 4096) ∧
    (∀ d d' : Derivation .conditional, d.yield = d'.yield → d = d') ∧
    ∀ (first : Derivation .unary) (links : Links), ∃ d : Derivation .conditional,
      d.yield = first.yield ++ links.yield ∧ d.nesting = max first.nesting links.nesting := by
  refine ⟨?_, ?_, fun d d' => Derivation.eq_of_yield_eq, Derivation.exists_of_links⟩
  · intro source
    exact ⟨reading 0 source.toList, fun r' => spelled_iff.trans eq_comm⟩
  · intro limit source e
    rw [parseWithin_eq_ok_iff_derivation]
    constructor
    · intro h
      exact ⟨_, spelled_reading 0 source.toList, h⟩
    · rintro ⟨r, hr, h⟩
      rwa [hr.reading_eq]

end Expr

end MessageCatalog.Plural
