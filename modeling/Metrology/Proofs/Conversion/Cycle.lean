import Mathlib.Data.List.Perm.Subperm
import Mathlib.Tactic.FieldSimp
import Metrology.Proofs.Conversion.Drift

/-! Ways and cycles as lists of declared conversions, each taken in one of its directions. Between two units
that a search has found there is one way along the conversions it found them by; so a conversion that joins
them either fits their factors or closes a cycle with that way. -/
namespace Metrology.Conversion

/-- A conversion taken in one of its two directions. -/
structure Step where
  edge : Edge Rat
  forward : Bool
deriving DecidableEq, Repr

namespace Step

def source (s : Step) : String := if s.forward then s.edge.parent else s.edge.child

def target (s : Step) : String := if s.forward then s.edge.child else s.edge.parent

/-- What a value is multiplied by: the factor along the conversion, and its inverse against it. -/
def ratio (s : Step) : Rat := if s.forward then s.edge.factor else 1 / s.edge.factor

def back (s : Step) : Step := ⟨s.edge, !s.forward⟩

@[simp] theorem source_back (s : Step) : s.back.source = s.target := by
  cases hf : s.forward <;> simp [back, source, target, hf]

@[simp] theorem target_back (s : Step) : s.back.target = s.source := by
  cases hf : s.forward <;> simp [back, source, target, hf]

@[simp] theorem ratio_back (s : Step) : s.back.ratio = 1 / s.ratio := by
  cases hf : s.forward <;> simp [back, ratio, hf]

theorem eq_or_eq_back {s s' : Step} (h : s'.edge = s.edge) : s' = s ∨ s' = s.back := by
  obtain ⟨edge, forward⟩ := s
  obtain ⟨edge', forward'⟩ := s'
  obtain rfl : edge' = edge := h
  cases forward <;> cases forward' <;> simp [back]

end Step

/-- The number that steps, taken one after the other, multiply a value by. -/
def product : List Step → Rat
  | [] => 1
  | s :: steps => s.ratio * product steps

theorem product_append (steps steps' : List Step) :
    product (steps ++ steps') = product steps * product steps' := by
  induction steps with
  | nil => simp [product]
  | cons s steps ih => simp [product, ih, mul_assoc]

def Leads : String → List Step → String → Prop
  | u, [], v => u = v
  | u, s :: steps, v => s.source = u ∧ Leads s.target steps v

theorem Leads.concat {u : String} {steps : List Step} {s : Step} (h : Leads u steps s.source) :
    Leads u (steps ++ [s]) s.target := by
  induction steps generalizing u with
  | nil => exact ⟨h.symm, rfl⟩
  | cons _ steps ih => exact ⟨h.1, ih h.2⟩

theorem Leads.target_mem {u v : String} {steps : List Step} (h : Leads u steps v) {s : Step}
    (hs : s ∈ steps) : s.target ∈ steps.map Step.source ++ [v] := by
  induction steps generalizing u with
  | nil => cases hs
  | cons s' steps ih =>
    obtain ⟨_, hrest⟩ := h
    rcases List.mem_cons.1 hs with rfl | hs
    · cases steps with
      | nil => simp [show s.target = v from hrest]
      | cons next steps => simp [← hrest.1]
    · exact List.mem_cons_of_mem _ (ih hrest hs)

namespace Graph

theorem Built.ratio_pos {g : Graph Rat} (hg : g.Built) {s : Step} (hs : s.edge ∈ g.edges) :
    0 < s.ratio := by
  have hf := hg.factor_pos hs
  unfold Step.ratio
  split_ifs
  · exact hf
  · exact one_div_pos.2 hf

theorem Built.source_mem {g : Graph Rat} (hg : g.Built) {s : Step} (hs : s.edge ∈ g.edges) :
    s.source ∈ g.units := by
  obtain ⟨hparent, hchild⟩ := hg.mem_units hs
  unfold Step.source
  split_ifs
  · exact hparent
  · exact hchild

theorem Built.product_pos {g : Graph Rat} (hg : g.Built) {steps : List Step}
    (h : ∀ s ∈ steps, s.edge ∈ g.edges) : 0 < product steps := by
  induction steps with
  | nil => exact one_pos
  | cons s steps ih =>
    obtain ⟨hs, hsteps⟩ := List.forall_mem_cons.1 h
    exact mul_pos (hg.ratio_pos hs) (ih hsteps)

theorem mem_links_iff_step {g : Graph Rat} {unit : String} {here : Rat} {link : String × Rat} :
    link ∈ g.links unit here ↔
      ∃ s : Step, s.edge ∈ g.edges ∧ s.source = unit ∧ link = (s.target, here * s.ratio) := by
  rw [mem_links]
  constructor
  · rintro (⟨e, he, hu, rfl⟩ | ⟨e, he, hu, rfl⟩)
    · exact ⟨⟨e, true⟩, he, hu, rfl⟩
    · exact ⟨⟨e, false⟩, he, hu, Prod.ext rfl (div_eq_mul_one_div here e.factor)⟩
  · rintro ⟨⟨e, _ | _⟩, he, hu, rfl⟩
    · exact Or.inr ⟨e, he, hu, Prod.ext rfl (div_eq_mul_one_div here e.factor).symm⟩
    · exact Or.inl ⟨e, he, hu, rfl⟩

theorem connected_step {g : Graph Rat} {s : Step} (hs : s.edge ∈ g.edges) :
    g.Connected s.source s.target := by
  obtain ⟨e, _ | _⟩ := s
  · exact ⟨1, _, Route.here.backward hs⟩
  · exact ⟨1, _, Route.here.forward hs⟩

theorem connected_of_leads {g : Graph Rat} {u v : String} {steps : List Step} (h : Leads u steps v)
    (hs : ∀ s ∈ steps, s.edge ∈ g.edges) {s : Step} (hm : s ∈ steps) : g.Connected u s.source := by
  induction steps generalizing u with
  | nil => cases hm
  | cons first steps ih =>
    obtain ⟨rfl, hrest⟩ := h
    obtain ⟨hfirst, hsteps⟩ := List.forall_mem_cons.1 hs
    rcases List.mem_cons.1 hm with rfl | hm
    · exact ⟨0, 1, Route.here⟩
    · exact (connected_step hfirst).trans (ih hrest hsteps hm)

/-- A way along declared conversions that visits no unit twice. -/
structure Path (g : Graph Rat) (u : String) (steps : List Step) (v : String) : Prop where
  leads : Leads u steps v
  simple : (steps.map Step.source ++ [v]).Nodup
  declared : ∀ s ∈ steps, s.edge ∈ g.edges

/-- A closed way that leaves no unit twice, and takes no conversion more often than it was declared. -/
structure Cycle (g : Graph Rat) (steps : List Step) : Prop where
  nonempty : steps ≠ []
  closed : ∃ u, Leads u steps u
  simple : (steps.map Step.source).Nodup
  declared : (steps.map Step.edge).Subperm g.edges

theorem Cycle.mem_edges {g : Graph Rat} {steps : List Step} (h : g.Cycle steps) :
    ∀ s ∈ steps, s.edge ∈ g.edges := fun _ hs => h.declared.subset (List.mem_map_of_mem hs)

namespace Path

variable {g : Graph Rat} {u v : String} {steps : List Step} {s : Step}

theorem nil (g : Graph Rat) (u : String) : g.Path u [] u := ⟨rfl, by simp, fun s hs => by cases hs⟩

theorem cons (h : g.Path s.target steps v) (hs : s.edge ∈ g.edges)
    (hnew : s.source ∉ steps.map Step.source ++ [v]) : g.Path s.source (s :: steps) v where
  leads := ⟨rfl, h.leads⟩
  simple := List.nodup_cons.2 ⟨hnew, h.simple⟩
  declared := List.forall_mem_cons.2 ⟨hs, h.declared⟩

theorem concat (h : g.Path u steps s.source) (hs : s.edge ∈ g.edges)
    (hnew : s.target ∉ steps.map Step.source ++ [s.source]) : g.Path u (steps ++ [s]) s.target where
  leads := h.leads.concat
  simple := by
    rw [List.map_append, ← List.concat_eq_append]
    exact List.Nodup.concat hnew h.simple
  declared := by
    intro s' hs'
    rcases List.mem_append.1 hs' with hs' | hs'
    · exact h.declared s' hs'
    · rwa [List.mem_singleton.1 hs']

theorem tail (h : g.Path u (s :: steps) v) : g.Path s.target steps v where
  leads := h.leads.2
  simple := (List.nodup_cons.1 h.simple).2
  declared := (List.forall_mem_cons.1 h.declared).2

theorem eq_nil (h : g.Path u steps u) : steps = [] := by
  cases steps with
  | nil => rfl
  | cons s steps =>
    have hnew := (List.nodup_cons.1 h.simple).1
    rw [h.leads.1] at hnew
    simp at hnew

/-- A simple way does not come back to its first conversion. -/
theorem edge_notMem_tail (h : g.Path u (s :: steps) v) : s.edge ∉ steps.map Step.edge := by
  intro hm
  obtain ⟨s', hs', hedge⟩ := List.mem_map.1 hm
  have hnew : s.source ∉ steps.map Step.source ++ [v] := (List.nodup_cons.1 h.simple).1
  rcases Step.eq_or_eq_back hedge with rfl | rfl
  · exact hnew (List.mem_append_left _ (List.mem_map_of_mem hs'))
  · have htarget := h.tail.leads.target_mem hs'
    rw [Step.target_back] at htarget
    exact hnew htarget

theorem edges_nodup (h : g.Path u steps v) : (steps.map Step.edge).Nodup := by
  induction steps generalizing u with
  | nil => exact List.nodup_nil
  | cons s steps ih => exact List.nodup_cons.2 ⟨h.edge_notMem_tail, ih h.tail⟩

/-- A conversion that a simple way between its ends takes is the whole way. -/
theorem eq_back (h : g.Path s.target steps s.source) (hs : s.edge ∈ steps.map Step.edge) :
    steps = [s.back] := by
  cases steps with
  | nil => cases hs
  | cons first rest =>
    have hfirst : first.source = s.target := h.leads.1
    have hnew : first.source ∉ rest.map Step.source ++ [s.source] := (List.nodup_cons.1 h.simple).1
    -- no step after the first one touches the unit that the way starts at
    have hedge : first.edge = s.edge := by
      rcases List.mem_cons.1 hs with hedge | hrest
      · exact hedge.symm
      · obtain ⟨s', hs', hedge⟩ := List.mem_map.1 hrest
        rw [hfirst] at hnew
        rcases Step.eq_or_eq_back hedge with rfl | rfl
        · exact absurd (h.tail.leads.target_mem hs') hnew
        · have hsource := List.mem_map_of_mem (f := Step.source) hs'
          rw [Step.source_back] at hsource
          exact absurd (List.mem_append_left _ hsource) hnew
    rcases Step.eq_or_eq_back hedge with rfl | rfl
    · simp at hnew
    · have hrest := h.tail
      rw [Step.target_back] at hrest
      rw [hrest.eq_nil]

/-- Any other conversion between the ends of a simple way closes a cycle with it. -/
theorem cycle (h : g.Path s.target steps s.source) (hs : s.edge ∈ g.edges)
    (hnew : s.edge ∉ steps.map Step.edge) : g.Cycle (s :: steps) where
  nonempty := by simp
  closed := ⟨s.source, rfl, h.leads⟩
  simple := (List.perm_append_singleton s.source (steps.map Step.source)).nodup_iff.1 h.simple
  declared := by
    refine List.subperm_of_subset (List.nodup_cons.2 ⟨hnew, h.edges_nodup⟩) ?_
    refine List.forall_mem_cons.2 ⟨hs, ?_⟩
    exact List.forall_mem_map.2 h.declared

end Path

/-- Between any two units that a search has found there is a simple way through such units, along which the
factor of the one becomes that of the other. -/
theorem Tree.exists_path {g : Graph Rat} (hg : g.Built) {start : String} {reached : List (String × Rat)}
    (t : g.Tree start reached) {a b : String × Rat} (ha : a ∈ reached) (hb : b ∈ reached) :
    ∃ steps, g.Path a.1 steps b.1 ∧ steps.map Step.source ++ [b.1] ⊆ reached.map (·.1) ∧
      a.2 * product steps = b.2 := by
  induction t generalizing a b with
  | root =>
    obtain rfl := List.mem_singleton.1 ha
    obtain rfl := List.mem_singleton.1 hb
    exact ⟨[], Path.nil g start, by simp, by simp [product]⟩
  | @grow reached via link _ hv hl hn ih =>
    obtain ⟨s, hs, hsource, rfl⟩ := mem_links_iff_step.1 hl
    have hfresh : s.target ∉ reached.map (·.1) := by
      intro hm
      obtain ⟨node, hnode, hname⟩ := List.mem_map.1 hm
      have hne := List.lookup_eq_none_iff.1 hn node hnode
      simp [hname] at hne
    rw [List.map_append]
    -- a way to or from the new unit goes by the unit that it was found from
    rcases List.mem_append.1 ha with ha | ha <;> rcases List.mem_append.1 hb with hb | hb
    · obtain ⟨steps, hpath, hin, hprod⟩ := ih ha hb
      exact ⟨steps, hpath, List.subset_append_of_subset_left _ hin, hprod⟩
    · obtain rfl := List.mem_singleton.1 hb
      obtain ⟨steps, hpath, hin, hprod⟩ := ih ha hv
      rw [← hsource] at hpath hin
      refine ⟨steps ++ [s], hpath.concat hs (fun hm => hfresh (hin hm)), ?_, ?_⟩
      · rw [List.map_append]
        exact List.append_subset.2 ⟨List.subset_append_of_subset_left _ hin, List.subset_append_right _ _⟩
      · simp [product_append, product, ← hprod, mul_assoc]
    · obtain rfl := List.mem_singleton.1 ha
      obtain ⟨steps, hpath, hin, hprod⟩ := ih hv hb
      have hback : s.back.source = s.target := s.source_back
      rw [← hsource, ← s.target_back] at hpath
      refine ⟨s.back :: steps, hback ▸ hpath.cons hs (fun hm => hfresh (hback ▸ hin hm)), ?_, ?_⟩
      · rw [List.map_cons, hback]
        exact List.cons_subset.2 ⟨by simp, List.subset_append_of_subset_left _ hin⟩
      · have hratio := (hg.ratio_pos hs).ne'
        rw [product, s.ratio_back, ← hprod]
        field_simp
    · obtain rfl := List.mem_singleton.1 ha
      obtain rfl := List.mem_singleton.1 hb
      exact ⟨[], Path.nil g s.target, by simp, by simp [product]⟩

/-- A conversion between two units that a search has found fits their factors, or closes a cycle whose product
is what it makes of the one factor, in proportion to the other. -/
theorem Tree.fits_or_cycle {g : Graph Rat} (hg : g.Built) {start : String}
    {reached : List (String × Rat)} (t : g.Tree start reached) {s : Step} (hs : s.edge ∈ g.edges)
    {x y : Rat} (hx : (s.source, x) ∈ reached) (hy : (s.target, y) ∈ reached) :
    y = x * s.ratio ∨ ∃ steps, g.Cycle steps ∧ product steps * y = x * s.ratio := by
  obtain ⟨steps, hpath, _, hprod⟩ := t.exists_path hg hy hx
  dsimp only at hpath hprod
  by_cases hused : s.edge ∈ steps.map Step.edge
  · have hratio := (hg.ratio_pos hs).ne'
    left
    rw [← hprod, hpath.eq_back hused, product, product, s.ratio_back]
    field_simp
  · refine Or.inr ⟨s :: steps, hpath.cycle hs hused, ?_⟩
    rw [product, ← hprod]
    ring

end Graph

end Metrology.Conversion
