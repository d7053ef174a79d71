import Metrology.Proofs.Conversion.Layers

/-! What a row of a table depends on. A search never leaves the component it starts in, so the factors from a unit
are settled by the conversions of its component alone, in the order in which these were declared. Together with
the layers of a search this says which factors a table holds: running products along shortest ways. -/
namespace Metrology.Conversion

variable {α : Type}

namespace Graph

def Together (groups : List (List String)) (u v : String) : Prop :=
  ∃ group ∈ groups, u ∈ group ∧ v ∈ group

/-- Joining two groups puts together what was with either of two units, and nothing else. -/
theorem together_join {groups : List (List String)} {a b u v : String} :
    Together (join groups a b) u v ↔ Together groups u v ∨
      (Together groups u a ∨ Together groups u b) ∧ (Together groups v a ∨ Together groups v b) := by
  have joined {w : String} : w ∈ (groups.filter fun group => a ∈ group || b ∈ group).flatten ↔
      Together groups w a ∨ Together groups w b := by
    simp only [List.mem_flatten, List.mem_filter, Bool.or_eq_true, decide_eq_true_eq, Together]
    constructor
    · rintro ⟨group, ⟨hgroup, ha | hb⟩, hw⟩
      · exact Or.inl ⟨group, hgroup, hw, ha⟩
      · exact Or.inr ⟨group, hgroup, hw, hb⟩
    · rintro (⟨group, hgroup, hw, ha⟩ | ⟨group, hgroup, hw, hb⟩)
      · exact ⟨group, ⟨hgroup, Or.inl ha⟩, hw⟩
      · exact ⟨group, ⟨hgroup, Or.inr hb⟩, hw⟩
  constructor
  · rintro ⟨group, hgroup, hu, hv⟩
    rcases List.mem_cons.1 hgroup with rfl | hgroup
    · exact Or.inr ⟨joined.1 hu, joined.1 hv⟩
    · exact Or.inl ⟨group, (List.mem_filter.1 hgroup).1, hu, hv⟩
  · rintro (⟨group, hgroup, hu, hv⟩ | ⟨hu, hv⟩)
    · cases htouch : (a ∈ group || b ∈ group : Bool) with
      | false => exact ⟨group, List.mem_cons_of_mem _ (List.mem_filter.2 ⟨hgroup, by simp [htouch]⟩), hu, hv⟩
      | true =>
        have hmem : group ∈ groups.filter fun group => a ∈ group || b ∈ group :=
          List.mem_filter.2 ⟨hgroup, htouch⟩
        exact ⟨_, List.mem_cons_self, List.mem_flatten_of_mem hmem hu, List.mem_flatten_of_mem hmem hv⟩
    · exact ⟨_, List.mem_cons_self, joined.2 hu, joined.2 hv⟩

/-- The units of the component of a unit, if that is registered. -/
def component (g : Graph α) (unit : String) : List String := (g.components.filter (unit ∈ ·)).flatten

/-- The conversions of the component of a unit, newest first. -/
def componentEdges (g : Graph α) (unit : String) : List (Edge α) :=
  g.edges.filter (·.parent ∈ g.component unit)

/-- The component of a unit has the same units and the same conversions in two graphs, the conversions in the
same order. -/
structure SameComponent (g g' : Graph α) (unit : String) : Prop where
  units : ∀ v, v ∈ g.component unit ↔ v ∈ g'.component unit
  edges : g.componentEdges unit = g'.componentEdges unit

theorem mem_component_iff_together {g : Graph α} {u v : String} :
    v ∈ g.component u ↔ Together g.components u v := by
  simp [component, Together, and_assoc]

variable [Scalar α] {g g' : Graph α} {u v : String}

/-- One more conversion connects what was connected to either of its units, and nothing else. -/
theorem connected_concat {units : List String} {edges : List (Edge α)} {e : Edge α} :
    Connected ⟨units, edges ++ [e]⟩ u v ↔ Connected ⟨units, edges⟩ u v ∨
      (Connected ⟨units, edges⟩ u e.parent ∨ Connected ⟨units, edges⟩ u e.child) ∧
        (Connected ⟨units, edges⟩ v e.parent ∨ Connected ⟨units, edges⟩ v e.child) := by
  constructor
  · -- a step along an old conversion keeps the side of the new one, and the new one itself reaches both
    rintro ⟨n, x, r⟩
    induction r with
    | here => exact Or.inl (.refl _ u)
    | @forward n e' x _ he ih =>
      rcases List.mem_append.1 he with he | he
      · have hstep : Connected ⟨units, edges⟩ e'.parent e'.child := .edge he
        exact ih.imp (·.trans hstep) fun h => ⟨h.1, h.2.imp hstep.symm.trans hstep.symm.trans⟩
      · obtain rfl := List.mem_singleton.1 he
        exact Or.inr ⟨ih.elim Or.inl And.left, Or.inr (.refl _ _)⟩
    | @backward n e' x _ he ih =>
      rcases List.mem_append.1 he with he | he
      · have hstep : Connected ⟨units, edges⟩ e'.parent e'.child := .edge he
        exact ih.imp (·.trans hstep.symm) fun h => ⟨h.1, h.2.imp hstep.trans hstep.trans⟩
      · obtain rfl := List.mem_singleton.1 he
        exact Or.inr ⟨ih.elim Or.inr And.left, Or.inl (.refl _ _)⟩
  · have grown {u v : String} (h : Connected ⟨units, edges⟩ u v) : Connected ⟨units, edges ++ [e]⟩ u v :=
      h.mono (List.subset_append_left edges [e])
    have across : Connected ⟨units, edges ++ [e]⟩ e.parent e.child := .edge (by simp)
    have toParent {w : String} (h : Connected ⟨units, edges⟩ w e.parent ∨ Connected ⟨units, edges⟩ w e.child) :
        Connected ⟨units, edges ++ [e]⟩ w e.parent := h.elim grown fun h => (grown h).trans across.symm
    rintro (h | ⟨hu, hv⟩)
    · exact grown h
    · exact (toParent hu).trans (toParent hv).symm

/-- The groups of a graph are its components. -/
theorem together_components (hg : g.Joined) :
    Together g.components u v ↔ u ∈ g.units ∧ v ∈ g.units ∧ g.Connected u v := by
  obtain ⟨units, edges⟩ := g
  unfold components
  induction edges using List.reverseRecOn generalizing u v with
  | nil =>
    constructor
    · rintro ⟨group, hgroup, hu, hv⟩
      obtain ⟨unit, hunit, rfl⟩ := List.mem_map.1 hgroup
      obtain rfl := List.mem_singleton.1 hu
      obtain rfl := List.mem_singleton.1 hv
      exact ⟨hunit, hunit, .refl _ _⟩
    · rintro ⟨hu, _, n, x, r⟩
      cases r with
      | here => exact ⟨[u], List.mem_map_of_mem hu, List.mem_singleton_self u, List.mem_singleton_self u⟩
      | forward _ he => cases he
      | backward _ he => cases he
  | append_singleton edges e ih =>
    have hold : Joined ⟨units, edges⟩ := fun e' he => hg e' (List.mem_append_left _ he)
    obtain ⟨hparent, hchild⟩ := hg e (List.mem_append_right _ (List.mem_singleton_self e))
    rw [List.foldl_append, List.foldl_cons, List.foldl_nil, together_join, connected_concat]
    -- the units of the new conversion are registered, so only those of the pair are left to compare
    simp only [ih hold, hparent, hchild, true_and, ← and_or_left]
    rw [and_and_and_comm, ← and_assoc, ← and_or_left, and_assoc]

theorem mem_component (hg : g.Joined) : v ∈ g.component u ↔ u ∈ g.units ∧ v ∈ g.units ∧ g.Connected u v := by
  rw [mem_component_iff_together, together_components hg]

theorem filter_componentEdges (hg : g.Joined) {unit : String} (hunit : unit ∈ g.component u)
    {p : Edge α → Bool} (hp : ∀ e, p e = true → e.parent = unit ∨ e.child = unit) :
    (g.componentEdges u).filter p = g.edges.filter p := by
  obtain ⟨hu, _, huv⟩ := (mem_component hg).1 hunit
  rw [componentEdges, List.filter_filter]
  apply List.filter_congr
  intro e he
  by_cases h : p e = true
  · have hparent : g.Connected u e.parent := by
      rcases hp e h with rfl | rfl
      · exact huv
      · exact huv.trans (Connected.edge he).symm
    simp [h, (mem_component hg).2 ⟨hu, (hg e he).1, hparent⟩]
  · simp [h]

theorem SameComponent.links (same : g.SameComponent g' u) (hg : g.Joined) (hg' : g'.Joined) {unit : String}
    (hunit : unit ∈ g.component u) (here : α) : g.links unit here = g'.links unit here := by
  have agree {p : Edge α → Bool} (hp : ∀ e, p e = true → e.parent = unit ∨ e.child = unit) :
      g.edges.filter p = g'.edges.filter p := by
    rw [← filter_componentEdges hg hunit hp, same.edges,
      filter_componentEdges hg' ((same.units unit).1 hunit) hp]
  unfold Graph.links
  rw [agree fun e h => Or.inl (of_decide_eq_true h), agree fun e h => Or.inr (of_decide_eq_true h)]

/-- Searches that start in the same component go on alike, step by step. -/
theorem SameComponent.search (same : g.SameComponent g' u) (hg : g.Joined) (hg' : g'.Joined)
    (hu : u ∈ g.units) (n : Nat) : g.search u n = g'.search u n := by
  induction n with
  | zero => rfl
  | succ n ih =>
    rw [search_succ, search_succ, ← ih]
    cases hrun : g.search u n with
    | error _ => rfl
    | ok reached =>
      change g.expand u reached n = g'.expand u reached n
      unfold expand
      cases hnode : reached[n]? with
      | none => rfl
      | some node =>
        have tree := (explored_of_search hrun).tree
        have hmem := List.mem_of_getElem? hnode
        obtain ⟨m, _, r⟩ := tree.route hmem
        have hunit : node.1 ∈ g.component u :=
          (mem_component hg).2 ⟨hu, tree.mem_units hg hu hmem, m, node.2, r⟩
        simp only [same.links hg hg' hunit]

/-- A search has found everything when it has followed as many units as there are. -/
theorem search_eq_reach (hg : g.Joined) (hu : u ∈ g.units) {n : Nat} (hn : g.units.length ≤ n) :
    g.search u n = g.reach u := by
  induction hn with
  | refl => rfl
  | @step n hn ih =>
    rw [search_succ, ih]
    cases hrun : g.reach u with
    | error _ => rfl
    | ok reached =>
      have hlen := (tree_of_reach hrun).length_le hg hu
      change g.expand u reached n = .ok reached
      rw [expand, List.getElem?_eq_none (Nat.le_trans hlen hn)]

/-- A search is settled by the component it starts in, whether it succeeds or fails. -/
theorem SameComponent.reach (same : g.SameComponent g' u) (hg : g.Joined) (hg' : g'.Joined)
    (hu : u ∈ g.units) (hu' : u ∈ g'.units) : g.reach u = g'.reach u := by
  calc g.reach u = g.search u (max g.units.length g'.units.length) :=
        (search_eq_reach hg hu (Nat.le_max_left _ _)).symm
    _ = g'.search u (max g.units.length g'.units.length) := same.search hg hg' hu _
    _ = g'.reach u := search_eq_reach hg' hu' (Nat.le_max_right _ _)

end Graph

namespace Table

open Metrology.Conversion.Graph

variable [Scalar α] {t : Table α}

/-- The factors of a table. Between connected units it holds the running product of a way with the least
number of steps, and its factors from a unit depend on the component of that unit alone. -/
theorem factors_shortest_and_local {calls : List (Call α)} (h : build (ofCalls calls) = .ok t) {u : String}
    (hu : Registered calls u) :
    (∀ v, (ofCalls calls).Connected u v →
      ∃ n x, t.factor u v = some x ∧ (ofCalls calls).Shortest u n v x) ∧
    ∀ (calls' : List (Call α)) (t' : Table α), build (ofCalls calls') = .ok t' →
      (ofCalls calls).SameComponent (ofCalls calls') u → ∀ v, t.factor u v = t'.factor u v := by
  have hg := joined_ofCalls calls
  have hu := mem_units_ofCalls.2 hu
  have hrow := reach_of_build h hu
  constructor
  · intro v huv
    obtain ⟨x, hx⟩ := factor_of_connected hg h hu huv
    obtain ⟨n, hn⟩ := shortest_of_reach hg hu hrow ((mem_row_iff h).2 hx)
    exact ⟨n, x, hx, hn⟩
  · intro calls' t' h' same v
    have hg' := joined_ofCalls calls'
    have hmem : u ∈ (ofCalls calls').component u :=
      (same.units u).1 ((mem_component hg).2 ⟨hu, hu, .refl _ u⟩)
    have hu' := ((mem_component hg').1 hmem).1
    have hrow' := reach_of_build h' hu'
    rw [← same.reach hg hg' hu hu', hrow] at hrow'
    rw [factor, factor, Except.ok.inj hrow']

end Table

/-- A crate holds ten bags or three sacks. Sacks are declared in bags too, which rounds to another number. -/
def cargo : List (Graph.Call Float) :=
  [.unit "bag", .unit "crate", .unit "sack", .edge ⟨"crate", "bag", 0.1⟩ .none,
    .edge ⟨"sack", "crate", 3⟩ .none, .edge ⟨"sack", "bag", 0.3⟩ .none]

def freight : List (Graph.Call Float) :=
  [.unit "hour", .unit "sack", .unit "minute", .unit "bag", .edge ⟨"minute", "hour", 60⟩ .none, .unit "crate",
    .edge ⟨"crate", "bag", 0.1⟩ .none, .edge ⟨"sack", "crate", 3⟩ .none, .edge ⟨"hour", "minute", 1 / 60⟩ .none,
    .edge ⟨"sack", "bag", 0.3⟩ .none]

/-- Bags go into sacks directly, not by way of crates, and hours do not matter. -/
theorem cargo_factors : ∃ t t', Table.build (Graph.ofCalls cargo) = .ok t ∧
    Table.build (Graph.ofCalls freight) = .ok t' ∧ Graph.Registered cargo "bag" ∧
    (Graph.ofCalls cargo).SameComponent (Graph.ofCalls freight) "bag" ∧
    (∃ n, (Graph.ofCalls cargo).Shortest "bag" n "sack" 0.3) ∧
    (∃ detour ≠ 0.3, (Graph.ofCalls cargo).Route "bag" 2 "sack" detour) ∧
    ∀ v, t.factor "bag" v = t'.factor "bag" v := by
  have hknown : (Table.build (Graph.ofCalls cargo)).toOption.map (·.factor "bag" "sack") = some (some 0.3) := by
    decide +kernel
  obtain ⟨t, ht, hsack⟩ := Option.map_eq_some_iff.1 hknown
  have ht : Table.build (Graph.ofCalls cargo) = .ok t := Fallible.toOption_eq_some.1 ht
  have hbuilt : (Table.build (Graph.ofCalls freight)).toOption.isSome = true := by decide +kernel
  obtain ⟨t', ht'⟩ := Option.isSome_iff_exists.1 hbuilt
  have ht' : Table.build (Graph.ofCalls freight) = .ok t' := Fallible.toOption_eq_some.1 ht'
  have hbag : Graph.Registered cargo "bag" := by simp [Graph.Registered, cargo]
  have hunits : (Graph.ofCalls cargo).component "bag" = ["bag", "sack", "crate"] ∧
      (Graph.ofCalls freight).component "bag" = ["sack", "bag", "crate"] := by decide +kernel
  have same : (Graph.ofCalls cargo).SameComponent (Graph.ofCalls freight) "bag" := by
    refine ⟨fun v => ?_, by decide +kernel⟩
    rw [hunits.1, hunits.2]
    exact (List.Perm.swap "sack" "bag" ["crate"]).mem_iff
  obtain ⟨shortest, alone⟩ := Table.factors_shortest_and_local ht hbag
  have crate : (⟨"crate", "bag", 0.1⟩ : Edge Float) ∈ (Graph.ofCalls cargo).edges := by decide +kernel
  have sack : (⟨"sack", "crate", 3⟩ : Edge Float) ∈ (Graph.ofCalls cargo).edges := by decide +kernel
  have detour := (Graph.Route.here.forward crate).forward sack
  obtain ⟨n, x, hx, hn⟩ := shortest "sack" ⟨2, _, detour⟩
  obtain rfl : x = 0.3 := Option.some.inj (hx.symm.trans hsack)
  exact ⟨t, t', ht, ht', hbag, same, ⟨n, hn⟩, ⟨_, by decide +kernel, detour⟩, alone freight t' ht' same⟩

end Metrology.Conversion
