import Metrology.Proofs.Conversion.Components

/-! A search goes layer by layer: units that are fewer conversions away are found first, and at any moment the
units found lie at most one layer beyond the unit whose links are followed. So the factor reported for a unit is
the running product of a way there that no other way undercuts. -/
namespace Metrology.Conversion

open Fallible

variable {α : Type}

namespace Graph

/-- A unit found by a search, with its layer: the number of steps of the way it was found by. -/
structure Discovery (α : Type) where
  layer : Nat
  unit : String
  factor : α

def Discovery.node (p : Discovery α) : String × α := (p.unit, p.factor)

theorem getElem?_mono {found found' : List (Discovery α)} (h : found <+: found') {i : Nat}
    {p : Discovery α} (hi : found[i]? = some p) : found'[i]? = some p := by
  obtain ⟨hlt, rfl⟩ := List.getElem?_eq_some_iff.1 hi
  exact List.prefix_iff_getElem?.1 h i hlt

variable [Scalar α]

/-- A way with the least number of steps there is. -/
structure Shortest (g : Graph α) (start : String) (n : Nat) (unit : String) (x : α) : Prop where
  route : g.Route start n unit x
  least : ∀ m y, g.Route start m unit y → n ≤ m

/-- A search that has followed all links of the first `done` units it discovered. -/
structure Layered (g : Graph α) (start : String) (done : Nat) (found : List (Discovery α)) : Prop where
  start_mem : ⟨0, start, 1⟩ ∈ found
  route : ∀ p ∈ found, g.Route start p.layer p.unit p.factor
  sorted : found.Pairwise fun p q => p.layer ≤ q.layer
  /-- Nothing lies beyond the layer after that of the unit next in line. -/
  near : ∀ via, found[done]? = some via → ∀ p ∈ found, p.layer ≤ via.layer + 1
  closed : ∀ i < done, ∀ via, found[i]? = some via → ∀ link ∈ g.links via.unit via.factor,
    ∃ p ∈ found, p.unit = link.1 ∧ p.layer ≤ via.layer + 1

namespace Layered

variable {g : Graph α} {start : String} {done : Nat} {found : List (Discovery α)} {via : Discovery α}
  {link : String × α}

theorem root (g : Graph α) (start : String) : g.Layered start 0 [⟨0, start, 1⟩] where
  start_mem := List.mem_singleton_self _
  route p hp := by
    obtain rfl := List.mem_singleton.1 hp
    exact .here
  sorted := List.pairwise_singleton _ _
  near via _ p hp := by
    obtain rfl := List.mem_singleton.1 hp
    exact Nat.zero_le _
  closed i hi := absurd hi (Nat.not_lt_zero i)

theorem grow (l : g.Layered start done found) (hv : found[done]? = some via)
    (hl : link ∈ g.links via.unit via.factor) :
    g.Layered start done (found ++ [⟨via.layer + 1, link.1, link.2⟩]) := by
  have hdone : done < found.length := (List.getElem?_eq_some_iff.1 hv).1
  have hvia : g.Route start via.layer via.node.1 via.node.2 := l.route via (List.mem_of_getElem? hv)
  refine ⟨List.mem_append_left _ l.start_mem, ?_, ?_, ?_, ?_⟩
  · intro p hp
    rcases List.mem_append.1 hp with hp | hp
    · exact l.route p hp
    · obtain rfl := List.mem_singleton.1 hp
      exact hvia.link hl
  · refine List.pairwise_append.2 ⟨l.sorted, List.pairwise_singleton _ _, ?_⟩
    intro p hp q hq
    obtain rfl := List.mem_singleton.1 hq
    exact l.near via hv p hp
  · intro via' hv' p hp
    rw [List.getElem?_append_left hdone, hv] at hv'
    cases hv'
    rcases List.mem_append.1 hp with hp | hp
    · exact l.near via hv p hp
    · obtain rfl := List.mem_singleton.1 hp
      exact Nat.le_refl _
  · intro i hi via' hv' link' hl'
    rw [List.getElem?_append_left (by omega)] at hv'
    obtain ⟨p, hp, hunit, hlayer⟩ := l.closed i hi via' hv' link' hl'
    exact ⟨p, List.mem_append_left _ hp, hunit, hlayer⟩

theorem discover (l : g.Layered start done found) (hv : found[done]? = some via)
    (hl : link ∈ g.links via.unit via.factor) {reached : List (String × α)}
    (h : discover start (found.map Discovery.node) link = .ok reached) :
    ∃ found', found'.map Discovery.node = reached ∧ found <+: found' ∧ g.Layered start done found' := by
  obtain ⟨_, rfl⟩ | ⟨_, _, _, rfl⟩ := discover_eq_ok h
  · refine ⟨_, ?_, List.prefix_append _ _, l.grow hv hl⟩
    simp [Discovery.node]
  · exact ⟨found, rfl, List.prefix_rfl, l⟩

theorem follow (l : g.Layered start done found) (hv : found[done]? = some via) {reached : List (String × α)}
    (h : (g.links via.unit via.factor).foldlM (Graph.discover start) (found.map Discovery.node) = .ok reached) :
    ∃ found', found'.map Discovery.node = reached ∧ found <+: found' ∧ g.Layered start done found' := by
  refine foldlM_keeps (P := fun reached => ∃ found', found'.map Discovery.node = reached ∧ found <+: found' ∧
    g.Layered start done found') ?_ h ⟨found, rfl, List.prefix_rfl, l⟩
  rintro link hl _ reached' hstep ⟨found₁, rfl, hp₁, l₁⟩
  obtain ⟨found₂, hfound, hp₂, l₂⟩ := l₁.discover (getElem?_mono hp₁ hv) hl hstep
  exact ⟨found₂, hfound, hp₁.trans hp₂, l₂⟩

/-- Once its links are settled, the line moves on by one unit, which is no nearer. -/
theorem advance (l : g.Layered start done found) (hv : found[done]? = some via)
    (hs : ∀ link ∈ g.links via.unit via.factor, Settled (found.map Discovery.node) link) :
    g.Layered start (done + 1) found := by
  refine ⟨l.start_mem, l.route, l.sorted, ?_, ?_⟩
  · intro via' hv' p hp
    obtain ⟨hdone, hvia⟩ := List.getElem?_eq_some_iff.1 hv
    obtain ⟨hdone', hvia'⟩ := List.getElem?_eq_some_iff.1 hv'
    have hle := List.pairwise_iff_getElem.1 l.sorted done (done + 1) hdone hdone' (Nat.lt_succ_self done)
    rw [hvia, hvia'] at hle
    have hnear := l.near via hv p hp
    omega
  · intro i hi via' hv' link hl
    rcases Nat.lt_succ_iff_lt_or_eq.1 hi with hi | rfl
    · exact l.closed i hi via' hv' link hl
    · rw [hv] at hv'
      cases hv'
      -- a link leads to nothing beyond the next layer, as nothing that has been found lies there
      obtain ⟨known, hk, _⟩ := hs link hl
      obtain ⟨p, hp, hnode⟩ := List.mem_map.1 (mem_of_lookup_eq_some hk)
      exact ⟨p, hp, (Prod.mk.inj hnode).1, l.near via hv p hp⟩

theorem expand (l : g.Layered start done found) (t : g.Tree start (found.map Discovery.node))
    {reached : List (String × α)} (h : g.expand start (found.map Discovery.node) done = .ok reached) :
    ∃ found', found'.map Discovery.node = reached ∧ g.Layered start (done + 1) found' := by
  rw [Graph.expand, List.getElem?_map] at h
  cases hv : found[done]? with
  | none =>
    rw [hv] at h
    cases h
    have hlen : found.length ≤ done := List.getElem?_eq_none_iff.1 hv
    refine ⟨found, rfl, l.start_mem, l.route, l.sorted, ?_, ?_⟩
    · intro via hv'
      rw [List.getElem?_eq_none (by omega)] at hv'
      cases hv'
    · intro i hi via hv'
      have hi' : i < found.length := (List.getElem?_eq_some_iff.1 hv').1
      exact l.closed i (by omega) via hv'
  | some via =>
    rw [hv] at h
    have hm : via.node ∈ found.map Discovery.node := List.mem_map_of_mem (List.mem_of_getElem? hv)
    obtain ⟨_, _, hs⟩ := follow_settles (List.Subset.refl _) t hm h
    obtain ⟨found', rfl, hp, l'⟩ := l.follow hv h
    exact ⟨found', rfl, l'.advance (getElem?_mono hp hv) hs⟩

/-- A finished search has found every unit that a way leads to, in a layer no farther than the way is long. -/
theorem layer_le (l : g.Layered start done found) (hdone : found.length ≤ done) {n : Nat} {unit : String}
    {x : α} (r : g.Route start n unit x) : ∃ p ∈ found, p.unit = unit ∧ p.layer ≤ n := by
  have step {p : Discovery α} (hp : p ∈ found) {link : String × α} (hl : link ∈ g.links p.unit p.factor) :
      ∃ q ∈ found, q.unit = link.1 ∧ q.layer ≤ p.layer + 1 := by
    obtain ⟨i, hi⟩ := List.mem_iff_getElem?.1 hp
    have hlt : i < found.length := (List.getElem?_eq_some_iff.1 hi).1
    exact l.closed i (by omega) p hi link hl
  induction r with
  | here => exact ⟨_, l.start_mem, rfl, Nat.le_refl 0⟩
  | @forward n e x _ he ih =>
    obtain ⟨p, hp, hunit, hlayer⟩ := ih
    obtain ⟨q, hq, hchild, hle⟩ := step hp (mem_links.2 (Or.inl ⟨e, he, hunit.symm, rfl⟩))
    exact ⟨q, hq, hchild, by omega⟩
  | @backward n e x _ he ih =>
    obtain ⟨p, hp, hunit, hlayer⟩ := ih
    obtain ⟨q, hq, hparent, hle⟩ := step hp (mem_links.2 (Or.inr ⟨e, he, hunit.symm, rfl⟩))
    exact ⟨q, hq, hparent, by omega⟩

end Layered

theorem layered_of_search {g : Graph α} {start : String} {n : Nat} {reached : List (String × α)}
    (h : g.search start n = .ok reached) :
    ∃ found, found.map Discovery.node = reached ∧ g.Layered start n found := by
  induction n generalizing reached with
  | zero =>
    cases h
    exact ⟨_, rfl, .root g start⟩
  | succ n ih =>
    rw [search_succ, bind_eq_ok] at h
    obtain ⟨reached₁, h₁, h₂⟩ := h
    obtain ⟨found, rfl, l⟩ := ih h₁
    exact l.expand (explored_of_search h₁).tree h₂

/-- What a search reports for a unit comes from a way there that no other way undercuts. -/
theorem shortest_of_reach {g : Graph α} {start : String} {reached : List (String × α)} (hg : g.Joined)
    (hs : start ∈ g.units) (h : g.reach start = .ok reached) {node : String × α} (hm : node ∈ reached) :
    ∃ n, g.Shortest start n node.1 node.2 := by
  have tree := tree_of_reach h
  obtain ⟨found, rfl, l⟩ := layered_of_search h
  have hdone : found.length ≤ g.units.length := by simpa using tree.length_le hg hs
  obtain ⟨p, hp, rfl⟩ := List.mem_map.1 hm
  refine ⟨p.layer, l.route p hp, ?_⟩
  intro m y r
  obtain ⟨q, hq, hunit, hle⟩ := l.layer_le hdone r
  -- no unit is found twice
  have hnodup : (found.map Discovery.unit).Nodup := by simpa [Function.comp_def, Discovery.node] using tree.nodup
  obtain rfl := List.inj_on_of_nodup_map hnodup hq hp hunit
  exact hle

end Graph

end Metrology.Conversion
