import Metrology.Proofs.Conversion.Components
import Metrology.Proofs.Conversion.Cycle

/-! What the comparisons of a search say about cycles, in exact arithmetic. No search looks at a cycle: it
compares one conversion at a time with the factors it has. So a graph is refused only for a cycle whose product
is off by more than the tolerance; but a cycle may be off by as many tolerances as it has conversions by which
no unit was found, and pass. -/
namespace Metrology.Conversion

open Fallible

namespace Within

variable {n : Nat} {x y c : Rat}

theorem of_mul_right (hc : 0 < c) (h : Within n (x * c) (y * c)) : Within n x y := by
  simpa [mul_assoc, mul_inv_cancel₀ hc.ne'] using h.mul_right (inv_pos.2 hc).le

end Within

namespace Graph

/-- The product around every cycle is one, up to the tolerance. -/
def Consistent (g : Graph Rat) : Prop := ∀ steps, g.Cycle steps → Within 1 (product steps) 1

theorem Tree.exists_discover {g : Graph Rat} (hg : g.Built) (hcons : g.Consistent) {start : String}
    {reached : List (String × Rat)} (t : g.Tree start reached) {via link : String × Rat}
    (hv : via ∈ reached) (hl : link ∈ g.links via.1 via.2) :
    ∃ reached', Graph.discover start reached link = .ok reached' := by
  unfold Graph.discover
  cases hk : reached.lookup link.1 with
  | none => exact ⟨_, rfl⟩
  | some known =>
    obtain ⟨n, _, r⟩ := t.route hv
    have hm := mem_of_lookup_eq_some hk
    obtain ⟨m, _, r'⟩ := t.route hm
    have hlink := (r.link hl).pos hg
    have hknown := r'.pos hg
    have hwithin : Within 1 known link.2 := by
      obtain ⟨s, hs, hsource, rfl⟩ := mem_links_iff_step.1 hl
      rw [← Prod.eta via, ← hsource] at hv
      rcases t.fits_or_cycle hg hs hv hm with rfl | ⟨steps, hcycle, hproduct⟩
      · exact Within.self 1 hknown.le
      · have h := (hcons steps hcycle).mul_right hknown.le
        rw [hproduct, one_mul] at h
        exact h.symm
    simp [(Within.close_iff hknown hlink).2 hwithin]

theorem Tree.exists_expand {g : Graph Rat} (hg : g.Built) (hcons : g.Consistent) {start : String}
    {reached : List (String × Rat)} (t : g.Tree start reached) (i : Nat) :
    ∃ reached', g.expand start reached i = .ok reached' ∧ g.Tree start reached' := by
  unfold Graph.expand
  split
  · exact ⟨reached, rfl, t⟩
  · next unit here hnode =>
    have hv : (unit, here) ∈ reached := List.mem_of_getElem? hnode
    -- the unit whose links are followed stays found
    have step : ∀ link ∈ g.links unit here, ∀ reached,
        g.Tree start reached ∧ (unit, here) ∈ reached →
        ∃ reached', Graph.discover start reached link = .ok reached' ∧
          g.Tree start reached' ∧ (unit, here) ∈ reached' := by
      rintro link hl reached ⟨t, hv⟩
      obtain ⟨reached', h⟩ := t.exists_discover hg hcons hv hl
      exact ⟨reached', h, t.discover hv hl h, (discover_settles h).1.subset hv⟩
    obtain ⟨reached', h, t', _⟩ := exists_foldlM_eq_ok step ⟨t, hv⟩
    exact ⟨reached', h, t'⟩

theorem Consistent.exists_reach {g : Graph Rat} (hg : g.Built) (hcons : g.Consistent) (start : String) :
    ∃ reached, g.reach start = .ok reached := by
  obtain ⟨reached, h, _⟩ :=
    exists_foldlM_eq_ok (fun i _ _ t => Tree.exists_expand hg hcons t i) Tree.root
  exact ⟨reached, h⟩

end Graph

namespace Table

open Metrology.Conversion.Graph

variable {g : Graph Rat} {t : Table Rat}

theorem exists_build (hg : g.Built) (hcons : g.Consistent) : ∃ t, build g = .ok t :=
  exists_build_of_reach fun unit _ => hcons.exists_reach hg unit

/-- The factors of a unit do not quite fit a step: it has been compared, and the difference let pass. -/
def bends (t : Table Rat) (start : String) (s : Step) : Bool :=
  (t.factor start s.source).map (· * s.ratio) ≠ t.factor start s.target

/-- A factor multiplied along steps drifts by one tolerance for each step that bends. -/
theorem factor_leads (hg : g.Built) (h : build g = .ok t) {start u v : String} {steps : List Step}
    (hl : Leads u steps v) (hs : ∀ s ∈ steps, s.edge ∈ g.edges) {x : Rat}
    (hx : t.factor start u = some x) :
    ∃ y, t.factor start v = some y ∧ Within (steps.countP (t.bends start)) (x * product steps) y := by
  induction steps generalizing u x with
  | nil =>
    obtain rfl : u = v := hl
    exact ⟨x, hx, by simpa [product] using Within.refl x⟩
  | cons s steps ih =>
    obtain ⟨rfl, hrest⟩ := hl
    obtain ⟨hedge, hedges⟩ := List.forall_mem_cons.1 hs
    have hlink : (s.target, x * s.ratio) ∈ g.links s.source x :=
      mem_links_iff_step.2 ⟨s, hedge, rfl, rfl⟩
    obtain ⟨y, hy, hwithin⟩ := factor_link hg h hx hlink
    obtain ⟨z, hz, hafter⟩ := ih hrest hedges hy
    refine ⟨z, hz, ?_⟩
    rw [List.countP_cons, product, ← mul_assoc]
    by_cases hbend : t.bends start s = true
    · rw [if_pos hbend, Nat.add_comm]
      exact (hwithin.mul_right (hg.product_pos hedges).le).trans hafter
    · have hfits : x * s.ratio = y := by simpa [bends, hx, hy] using hbend
      rw [if_neg hbend, Nat.add_zero, hfits]
      exact hafter

/-- Around a cycle, tolerances add up over the steps that bend. -/
theorem cycle_within (hg : g.Built) (h : build g = .ok t) {steps : List Step} (hc : g.Cycle steps)
    {start : String} (hstart : start ∈ g.units) {s : Step} (hs : s ∈ steps)
    (hconn : g.Connected start s.source) :
    Within (steps.countP (t.bends start)) (product steps) 1 := by
  obtain ⟨u, hleads⟩ := hc.closed
  have hu : g.Connected start u := hconn.trans (connected_of_leads hleads hc.mem_edges hs).symm
  obtain ⟨x, hx⟩ := factor_of_connected hg.joined h hstart hu
  obtain ⟨y, hy, hwithin⟩ := factor_leads hg h hleads hc.mem_edges hx
  obtain rfl : x = y := Option.some.inj (hx.symm.trans hy)
  refine Within.of_mul_right (factor_pos hg h hx) ?_
  rwa [mul_comm, one_mul]

end Table

end Metrology.Conversion
