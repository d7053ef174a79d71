import Mathlib.Algebra.Order.Ring.Abs
import Mathlib.Algebra.Order.Field.Basic
import Mathlib.Data.Rat.Defs
import Mathlib.Algebra.Order.Ring.Rat
import Mathlib.Tactic.Linarith
import Mathlib.Tactic.NormNum
import Mathlib.Tactic.Positivity
import Mathlib.Tactic.Ring
import Metrology.Proofs.Conversion.Reach

/-! How far the factors of a table can be from the conversions they come from, in exact arithmetic.
Every search compares with the tolerance once for each conversion; so along a way of `n` steps a factor
and the product of the conversions differ by at most `n` tolerances, whichever tree the search grew. -/
namespace Metrology.Conversion

/-- Two numbers agree within `n` tolerances when neither exceeds the other by more than `n` times the
relative difference that a search lets pass. -/
def Within (n : Nat) (x y : Rat) : Prop :=
  (1 - Scalar.tolerance) ^ n * x ≤ y ∧ (1 - Scalar.tolerance) ^ n * y ≤ x

namespace Within

theorem slack_pos : (0 : Rat) < 1 - Scalar.tolerance := by
  simp only [Scalar.tolerance]
  norm_num

theorem slack_le_one : (1 : Rat) - Scalar.tolerance ≤ 1 := by
  simp only [Scalar.tolerance]
  norm_num

variable {m n : Nat} {x y z c : Rat}

theorem symm (h : Within n x y) : Within n y x := ⟨h.2, h.1⟩

theorem refl (x : Rat) : Within 0 x x := by simp [Within]

theorem trans (hxy : Within m x y) (hyz : Within n y z) : Within (m + n) x z := by
  have hm := pow_nonneg slack_pos.le m
  have hn := pow_nonneg slack_pos.le n
  constructor
  · calc (1 - Scalar.tolerance) ^ (m + n) * x
        = (1 - Scalar.tolerance) ^ n * ((1 - Scalar.tolerance) ^ m * x) := by rw [pow_add]; ring
      _ ≤ (1 - Scalar.tolerance) ^ n * y := mul_le_mul_of_nonneg_left hxy.1 hn
      _ ≤ z := hyz.1
  · calc (1 - Scalar.tolerance) ^ (m + n) * z
        = (1 - Scalar.tolerance) ^ m * ((1 - Scalar.tolerance) ^ n * z) := by rw [pow_add]; ring
      _ ≤ (1 - Scalar.tolerance) ^ m * y := mul_le_mul_of_nonneg_left hyz.2 hm
      _ ≤ x := hxy.2

theorem mul_right (h : Within n x y) (hc : 0 ≤ c) : Within n (x * c) (y * c) := by
  constructor
  · simpa only [mul_assoc] using mul_le_mul_of_nonneg_right h.1 hc
  · simpa only [mul_assoc] using mul_le_mul_of_nonneg_right h.2 hc

theorem mono (h : Within m x y) (hmn : m ≤ n) (hx : 0 ≤ x) (hy : 0 ≤ y) : Within n x y := by
  have hp := pow_le_pow_of_le_one slack_pos.le slack_le_one hmn
  exact ⟨(mul_le_mul_of_nonneg_right hp hx).trans h.1, (mul_le_mul_of_nonneg_right hp hy).trans h.2⟩

theorem self (n : Nat) (hx : 0 ≤ x) : Within n x x := (refl x).mono (Nat.zero_le n) hx hx

theorem one_iff (hx : 0 < x) (hy : 0 < y) :
    Within 1 x y ↔ |x - y| ≤ Scalar.tolerance * max x y := by
  simp only [Within, pow_one]
  rcases le_total x y with hxy | hxy
  · rw [max_eq_right hxy, abs_sub_comm, abs_of_nonneg (sub_nonneg.2 hxy)]
    have hslack : (1 - Scalar.tolerance) * x ≤ 1 * x := mul_le_mul_of_nonneg_right slack_le_one hx.le
    constructor
    · rintro ⟨_, h⟩
      linarith
    · intro h
      exact ⟨by linarith, by linarith⟩
  · rw [max_eq_left hxy, abs_of_nonneg (sub_nonneg.2 hxy)]
    have hslack : (1 - Scalar.tolerance) * y ≤ 1 * y := mul_le_mul_of_nonneg_right slack_le_one hy.le
    constructor
    · rintro ⟨h, _⟩
      linarith
    · intro h
      exact ⟨by linarith, by linarith⟩

/-- A search lets a difference of one tolerance pass. -/
theorem close_iff (hx : 0 < x) (hy : 0 < y) : Scalar.close x y = true ↔ Within 1 x y := by
  have habs (z : Rat) : Scalar.abs z = |z| := by
    simp only [Scalar.abs]
    split_ifs with hz
    · exact (abs_of_neg hz).symm
    · exact (abs_of_nonneg (not_lt.1 hz)).symm
  have hmax : Scalar.max x y = max x y := by simp [Scalar.max, Scalar.le, max_def]
  rw [one_iff hx hy]
  simp [Scalar.close, habs, abs_of_pos hx, abs_of_pos hy, hmax, Scalar.le]

end Within

namespace Graph

theorem Built.factor_pos {g : Graph Rat} (h : g.Built) {e : Edge Rat} (he : e ∈ g.edges) :
    0 < e.factor := by
  induction h with
  | empty => cases he
  | addUnit name _ ih =>
    rw [edges_addUnit] at he
    exact ih he
  | @addEdge g g' e' child parent factor direction span span' _ hnew h ih =>
    obtain ⟨_, _, rfl⟩ := addEdge_eq_ok.1 h
    rcases List.mem_cons.1 he with rfl | he
    · unfold Edge.ofFactor at hnew
      split_ifs at hnew with hf
      have hpos : 0 < factor := by simpa [Scalar.isFactor, Scalar.isFinite, Scalar.le] using hf
      cases hnew
      cases direction
      · exact one_div_pos.2 hpos
      · exact hpos
    · exact ih he

theorem Route.pos {g : Graph Rat} (hg : g.Built) {start unit : String} {n : Nat} {x : Rat}
    (r : g.Route start n unit x) : 0 < x := by
  induction r with
  | here => exact one_pos
  | forward _ he ih => exact mul_pos ih (hg.factor_pos he)
  | backward _ he ih => exact div_pos ih (hg.factor_pos he)

/-- A link that a search has settled leads to a unit whose factor is one tolerance away at most. -/
theorem Settled.within {g : Graph Rat} (hg : g.Built) {start : String} {reached : List (String × Rat)}
    (t : g.Tree start reached) {link : String × Rat} (hl : 0 < link.2) (h : Settled reached link) :
    ∃ known, reached.lookup link.1 = some known ∧ Within 1 link.2 known := by
  obtain ⟨known, hk, hc⟩ := h
  refine ⟨known, hk, ?_⟩
  rcases hc with rfl | hc
  · exact Within.self 1 hl.le
  · obtain ⟨n, _, r⟩ := t.route (Fallible.mem_of_lookup_eq_some hk)
    exact ((Within.close_iff (r.pos hg) hl).1 hc).symm

end Graph

namespace Table

open Metrology.Conversion.Graph

variable {g : Graph Rat} {t : Table Rat}

theorem factor_link (hg : g.Built) (h : build g = .ok t) {start unit : String} {x : Rat}
    {link : String × Rat} (hx : t.factor start unit = some x) (hl : link ∈ g.links unit x) :
    ∃ y, t.factor start link.1 = some y ∧ Within 1 link.2 y := by
  have hs := mem_units_of_factor h hx
  have hreach := reach_of_build h hs
  have tree := tree_of_reach hreach
  have hm : (unit, x) ∈ t.row start := Fallible.mem_of_lookup_eq_some hx
  obtain ⟨n, _, r⟩ := tree.route hm
  exact (settled_of_reach hg.joined hs hreach hm hl).within hg tree ((r.link hl).pos hg)

/-- A factor multiplied along a way of `n` steps stays within `n` tolerances of the factor at its end. -/
theorem factor_route (hg : g.Built) (h : build g = .ok t) {start unit target : String} {n : Nat}
    {x y : Rat} (hx : t.factor start unit = some x) (r : g.Route unit n target y) :
    ∃ z, t.factor start target = some z ∧ Within n (x * y) z := by
  induction r with
  | here => exact ⟨x, hx, by rw [mul_one]; exact Within.refl x⟩
  | @forward n e y _ he ih =>
    obtain ⟨z, hz, hw⟩ := ih
    have hl : (e.child, z * e.factor) ∈ g.links e.parent z :=
      mem_links.2 (Or.inl ⟨e, he, rfl, rfl⟩)
    obtain ⟨z', hz', hw'⟩ := factor_link hg h hz hl
    refine ⟨z', hz', ?_⟩
    have hstep := hw.mul_right (hg.factor_pos he).le
    rw [mul_assoc] at hstep
    exact hstep.trans hw'
  | @backward n e y _ he ih =>
    obtain ⟨z, hz, hw⟩ := ih
    have hl : (e.parent, z / e.factor) ∈ g.links e.child z :=
      mem_links.2 (Or.inr ⟨e, he, rfl, rfl⟩)
    obtain ⟨z', hz', hw'⟩ := factor_link hg h hz hl
    refine ⟨z', hz', ?_⟩
    have hstep := hw.mul_right (inv_pos.2 (hg.factor_pos he)).le
    rw [mul_assoc, ← div_eq_mul_inv, ← div_eq_mul_inv] at hstep
    exact hstep.trans hw'

theorem factor_pos (hg : g.Built) (h : build g = .ok t) {source target : String} {x : Rat}
    (hx : t.factor source target = some x) : 0 < x := by
  obtain ⟨n, _, r⟩ := route_of_factor hg h hx
  exact r.pos hg

/-- Factors compose up to one tolerance less than there are units. -/
theorem factor_compose (hg : g.Built) (h : build g = .ok t) {u v w : String} {x y : Rat}
    (hx : t.factor u v = some x) (hy : t.factor v w = some y) :
    ∃ z, t.factor u w = some z ∧ Within (g.units.length - 1) (x * y) z := by
  obtain ⟨n, hn, r⟩ := route_of_factor hg h hy
  obtain ⟨z, hz, hw⟩ := factor_route hg h hx r
  have hxy := mul_pos (factor_pos hg h hx) (factor_pos hg h hy)
  exact ⟨z, hz, hw.mono (by omega) hxy.le (factor_pos hg h hz).le⟩

/-- The drift of a table is bounded. Along every way of `n` steps from a registered unit there is a
factor, and it agrees with the product of the conversions within `n` tolerances. So in a graph of `N`
units factors compose, and invert each other, within `N - 1` tolerances. -/
theorem drift_bounded (hg : g.Built) (h : build g = .ok t) {u : String} (hu : u ∈ g.units) :
    (∀ n v p, g.Route u n v p → ∃ f, t.factor u v = some f ∧ Within n f p) ∧
      ∀ v w, g.Connected u v → g.Connected v w →
        ∃ uv vu vw uw, t.factor u v = some uv ∧ t.factor v u = some vu ∧ t.factor v w = some vw ∧
          t.factor u w = some uw ∧ Within (g.units.length - 1) (uv * vw) uw ∧
          Within (g.units.length - 1) (uv * vu) 1 := by
  have along : ∀ n v p, g.Route u n v p → ∃ f, t.factor u v = some f ∧ Within n f p := by
    intro n v p r
    obtain ⟨f, hf, hw⟩ := factor_route hg h (factor_self h hu) r
    rw [one_mul] at hw
    exact ⟨f, hf, hw.symm⟩
  refine ⟨along, ?_⟩
  intro v w huv hvw
  obtain ⟨n, p, r⟩ := huv
  obtain ⟨uv, huv', _⟩ := along n v p r
  have hv : v ∈ g.units := r.mem_units hg hu
  obtain ⟨m, q, r'⟩ := hvw
  obtain ⟨vw, hvw', _⟩ := factor_route hg h (factor_self h hv) r'
  obtain ⟨k, s, back⟩ := Connected.symm ⟨n, p, r⟩
  obtain ⟨vu, hvu', _⟩ := factor_route hg h (factor_self h hv) back
  obtain ⟨uw, huw', hcomp⟩ := factor_compose hg h huv' hvw'
  obtain ⟨uu, huu', hinv⟩ := factor_compose hg h huv' hvu'
  obtain rfl : (1 : Rat) = uu := by simpa [factor_self h hu] using huu'
  exact ⟨uv, vu, vw, uw, huv', hvu', hvw', huw', hcomp, hinv⟩

end Table

/-- Three lengths whose conversions do not quite fit together. -/
def lengths : Graph Rat :=
  ⟨["yard", "foot", "inch"],
    [⟨"inch", "yard", 36 + 1 / 10 ^ 8⟩, ⟨"inch", "foot", 12⟩, ⟨"foot", "yard", 3⟩]⟩

theorem lengths_built : lengths.Built := by
  have units : (⟨["yard", "foot", "inch"], []⟩ : Graph Rat).Built :=
    ((Graph.Built.empty.addUnit "yard").addUnit "foot").addUnit "inch"
  exact ((units.cons (by decide +kernel) (by simp) (by simp)).cons (by decide +kernel) (by simp)
    (by simp)).cons (by decide +kernel) (by simp) (by simp)

/-- Yards go into inches by the conversion declared last, and by feet within two tolerances. -/
theorem lengths_drift_bounded :
    ∃ t, Table.build lengths = .ok t ∧ t.factor "yard" "inch" = some (36 + 1 / 10 ^ 8) ∧
      Within 2 (36 + 1 / 10 ^ 8) (1 * 3 * 12) := by
  have hknown : (Table.build lengths).toOption.bind (·.factor "yard" "inch") =
      some (36 + 1 / 10 ^ 8) := by decide +kernel
  obtain ⟨t, ht, hfac⟩ := Option.bind_eq_some_iff.1 hknown
  have ht : Table.build lengths = .ok t := Fallible.toOption_eq_some.1 ht
  have r : lengths.Route "yard" 2 "inch" (1 * 3 * 12) :=
    Graph.Route.forward (e := ⟨"inch", "foot", 12⟩)
      (Graph.Route.forward (e := ⟨"foot", "yard", 3⟩) Graph.Route.here (by simp [lengths]))
      (by simp [lengths])
  obtain ⟨f, hf, hw⟩ := (Table.drift_bounded lengths_built ht (by simp [lengths])).1 2 "inch" _ r
  obtain rfl : 36 + 1 / 10 ^ 8 = f := by simpa [hfac] using hf
  exact ⟨t, ht, hfac, hw⟩

end Metrology.Conversion
