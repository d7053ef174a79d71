import Metrology.Proofs.Conversion.Tolerance

/-! Conversions that fit the sizes of units. Where each conversion is the quotient of what its two units are
given, every cycle closes exactly: the graph is accepted, and its factors are such quotients, whichever order
its units and conversions came in. A graph without cycles always has such sizes. -/
namespace Metrology.Conversion

open Fallible

namespace Graph

/-- Sizes that all conversions agree with: so many of each unit make up the same amount. -/
structure Fits (g : Graph Rat) (p : String → Rat) : Prop where
  pos : ∀ unit ∈ g.units, 0 < p unit
  ratio : ∀ e ∈ g.edges, e.factor = p e.child / p e.parent

namespace Fits

variable {g : Graph Rat} {p : String → Rat}

theorem step (h : g.Fits p) (hg : g.Built) {s : Step} (hs : s.edge ∈ g.edges) :
    p s.source * s.ratio = p s.target := by
  obtain ⟨hparent, hchild⟩ := hg.mem_units hs
  have hparent := (h.pos _ hparent).ne'
  have hchild := (h.pos _ hchild).ne'
  unfold Step.source Step.target Step.ratio
  rw [h.ratio _ hs]
  split_ifs <;> field_simp

theorem product (h : g.Fits p) (hg : g.Built) {u v : String} {steps : List Step} (hl : Leads u steps v)
    (hs : ∀ s ∈ steps, s.edge ∈ g.edges) : p u * product steps = p v := by
  induction steps generalizing u with
  | nil =>
    obtain rfl : u = v := hl
    exact mul_one (p u)
  | cons s steps ih =>
    obtain ⟨rfl, hrest⟩ := hl
    obtain ⟨hedge, hedges⟩ := List.forall_mem_cons.1 hs
    rw [Conversion.product, ← mul_assoc, h.step hg hedge, ih hrest hedges]

/-- Where conversions fit, every cycle closes. -/
theorem product_cycle (h : g.Fits p) (hg : g.Built) {steps : List Step} (hc : g.Cycle steps) :
    Conversion.product steps = 1 := by
  obtain ⟨u, hl⟩ := hc.closed
  have hu : 0 < p u := by
    cases steps with
    | nil => exact absurd rfl hc.nonempty
    | cons s steps =>
      rw [← hl.1]
      exact h.pos _ (hg.source_mem (hc.mem_edges s List.mem_cons_self))
  exact mul_left_cancel₀ hu.ne' ((h.product hg hl hc.mem_edges).trans (mul_one (p u)).symm)

theorem consistent (h : g.Fits p) (hg : g.Built) : g.Consistent := by
  intro steps hc
  rw [h.product_cycle hg hc]
  exact Within.self 1 zero_le_one

theorem route (h : g.Fits p) (hg : g.Built) {u v : String} {n : Nat} {x : Rat} (r : g.Route u n v x) :
    p u * x = p v := by
  induction r with
  | here => exact mul_one (p u)
  | @forward n e x _ he ih =>
    have hstep : p e.parent * e.factor = p e.child := h.step hg (s := ⟨e, true⟩) he
    rw [← hstep, ← ih, mul_assoc]
  | @backward n e x _ he ih =>
    have hstep : p e.child * (1 / e.factor) = p e.parent := h.step hg (s := ⟨e, false⟩) he
    rw [← hstep, ← ih, mul_assoc, ← div_eq_mul_one_div]

end Fits

end Graph

namespace Table

open Metrology.Conversion.Graph

variable {g : Graph Rat} {t : Table Rat} {p : String → Rat}

section Fits

variable (hg : g.Built) (h : build g = .ok t) (hp : g.Fits p)

include hg h hp

/-- The factors between connected units are the quotients of their sizes, and there are no others. -/
theorem factor_eq_some_iff_of_fits {u v : String} {x : Rat} :
    t.factor u v = some x ↔ u ∈ g.units ∧ g.Connected u v ∧ x = p v / p u := by
  have value {x : Rat} (hx : t.factor u v = some x) : x = p v / p u := by
    have hu := hp.pos u (mem_units_of_factor h hx)
    obtain ⟨n, _, r⟩ := route_of_factor hg h hx
    rw [← hp.route hg r, mul_div_cancel_left₀ x hu.ne']
  constructor
  · intro hx
    obtain ⟨n, _, r⟩ := route_of_factor hg h hx
    exact ⟨mem_units_of_factor h hx, ⟨n, x, r⟩, value hx⟩
  · rintro ⟨hu, hconn, rfl⟩
    obtain ⟨x, hx⟩ := factor_of_connected hg.joined h hu hconn
    rw [← value hx, hx]

theorem factor_mul_of_fits {u v w : String} {x y : Rat} (hx : t.factor u v = some x)
    (hy : t.factor v w = some y) : t.factor u w = some (x * y) := by
  have hv := hp.pos v (mem_units_of_factor h hy)
  obtain ⟨hu, huv, rfl⟩ := (factor_eq_some_iff_of_fits hg h hp).1 hx
  obtain ⟨_, hvw, rfl⟩ := (factor_eq_some_iff_of_fits hg h hp).1 hy
  refine (factor_eq_some_iff_of_fits hg h hp).2 ⟨hu, huv.trans hvw, ?_⟩
  field_simp

theorem factor_back_of_fits {u v : String} {x : Rat} (hx : t.factor u v = some x) :
    t.factor v u = some (1 / x) := by
  have hv : v ∈ g.units := ((factor_isSome_iff hg.joined h).1 (Option.isSome_of_eq_some hx)).2.1
  obtain ⟨_, huv, rfl⟩ := (factor_eq_some_iff_of_fits hg h hp).1 hx
  exact (factor_eq_some_iff_of_fits hg h hp).2 ⟨hv, huv.symm, one_div_div (p v) (p u)⟩

/-- Which units and conversions there are decides on the factors, and their order does not. -/
theorem factor_eq_of_fits {g' : Graph Rat} {t' : Table Rat} (hg' : g'.Built) (h' : build g' = .ok t')
    (hp' : g'.Fits p) (hunits : ∀ u, u ∈ g'.units ↔ u ∈ g.units)
    (hedges : ∀ e, e ∈ g'.edges ↔ e ∈ g.edges) : t'.factor = t.factor := by
  funext u v
  refine Option.ext fun x => ?_
  have hconn : g'.Connected u v ↔ g.Connected u v :=
    ⟨fun hc => hc.mono fun e => (hedges e).1, fun hc => hc.mono fun e => (hedges e).2⟩
  rw [factor_eq_some_iff_of_fits hg' h' hp', factor_eq_some_iff_of_fits hg h hp, hunits, hconn]

end Fits

def head? (t : Table Rat) (g : Graph Rat) (unit : String) : Option String :=
  g.units.find? fun u => (t.factor u unit).isSome

/-- The factor of a unit from the first unit that converts into it. -/
def fromHead (t : Table Rat) (g : Graph Rat) (unit : String) : Rat :=
  ((t.head? g unit).bind fun u => t.factor u unit).getD 1

theorem factor_head? (h : build g = .ok t) {unit : String} (hu : unit ∈ g.units) :
    ∃ u, t.head? g unit = some u ∧ t.factor u unit = some (t.fromHead g unit) := by
  have hsome : (t.head? g unit).isSome := by
    rw [head?, List.find?_isSome]
    exact ⟨unit, hu, by simp [factor_self h hu]⟩
  obtain ⟨u, hhead⟩ := Option.isSome_iff_exists.1 hsome
  have hfactor : (t.factor u unit).isSome :=
    List.find?_some (p := fun u => (t.factor u unit).isSome) hhead
  obtain ⟨x, hx⟩ := Option.isSome_iff_exists.1 hfactor
  exact ⟨u, hhead, by simp [fromHead, hhead, hx]⟩

theorem head?_eq (hg : g.Built) (h : build g = .ok t) {s : Step} (hs : s.edge ∈ g.edges) :
    t.head? g s.source = t.head? g s.target := by
  have across {u v w : String} (hw : w ∈ g.units) (hvw : g.Connected v w)
      (huv : (t.factor u v).isSome = true) : (t.factor u w).isSome = true := by
    obtain ⟨hu, _, hconn⟩ := (factor_isSome_iff hg.joined h).1 huv
    exact (factor_isSome_iff hg.joined h).2 ⟨hu, hw, hconn.trans hvw⟩
  have hstep := connected_step hs
  have hsource := hg.source_mem hs
  have htarget : s.target ∈ g.units := s.source_back ▸ hg.source_mem (s := s.back) hs
  refine congrArg g.units.find? (funext fun u => Bool.eq_iff_iff.2 ⟨?_, ?_⟩)
  · exact across htarget hstep
  · exact across hsource hstep.symm

/-- A graph without cycles fits the factors from the first units of its components. -/
theorem fits_fromHead (hg : g.Built) (h : build g = .ok t) (acyclic : ∀ steps, ¬ g.Cycle steps) :
    g.Fits (t.fromHead g) where
  pos unit hu := by
    obtain ⟨u, _, hfactor⟩ := factor_head? h hu
    exact factor_pos hg h hfactor
  ratio e he := by
    obtain ⟨hparent, hchild⟩ := hg.mem_units he
    obtain ⟨u, hhead, hx⟩ := factor_head? h hparent
    obtain ⟨v, hhead', hy⟩ := factor_head? h hchild
    have hsame : t.head? g e.parent = t.head? g e.child := head?_eq hg h (s := ⟨e, true⟩) he
    obtain rfl : u = v := Option.some.inj (hhead.symm.trans (hsame.trans hhead'))
    have tree := tree_of_reach (reach_of_build h (mem_units_of_factor h hx))
    have hpos := factor_pos hg h hx
    rcases tree.fits_or_cycle hg (s := ⟨e, true⟩) he ((mem_row_iff h).2 hx) ((mem_row_iff h).2 hy) with
      hfits | ⟨steps, hcycle, _⟩
    · have hfits : t.fromHead g e.child = t.fromHead g e.parent * e.factor := hfits
      rw [hfits, mul_div_cancel_left₀ _ hpos.ne']
    · exact absurd hcycle (acyclic steps)

end Table

end Metrology.Conversion
