import Mathlib.Tactic.Common
import Metrology.Conversion.Table
import Metrology.Proofs.Fallible

/-! What a breadth-first search over conversions finds. Each unit it reaches is reached along declared
conversions, by exactly the factor it reports; and no conversion that touches a reached unit is left
unused and unchecked. The rows of a table are such searches. -/
namespace Metrology.Conversion

open Fallible

variable {α : Type}

namespace Graph

theorem addEdge_eq_ok {g g' : Graph α} {e : Edge α} {span : Span} :
    g.addEdge e span = .ok g' ↔
      e.parent ∈ g.units ∧ e.child ∈ g.units ∧ g' = { g with edges := e :: g.edges } := by
  unfold addEdge
  split_ifs <;> simp_all [eq_comm]

theorem mem_units_addUnit {g : Graph α} {name unit : String} :
    unit ∈ (g.addUnit name).units ↔ unit ∈ g.units ∨ unit = name := by
  unfold addUnit
  split_ifs with h
  · constructor
    · exact Or.inl
    · rintro (hu | rfl)
      · exact hu
      · exact h
  · simp

theorem edges_addUnit (g : Graph α) (name : String) : (g.addUnit name).edges = g.edges := by
  unfold addUnit
  split_ifs <;> rfl

theorem nodup_addUnit {g : Graph α} (h : g.units.Nodup) (name : String) :
    (g.addUnit name).units.Nodup := by
  unfold addUnit
  split_ifs with hn
  · exact h
  · rw [List.nodup_append]
    refine ⟨h, by simp, ?_⟩
    rintro u hu _ hm rfl
    exact hn (List.mem_singleton.1 hm ▸ hu)

def Joined (g : Graph α) : Prop := ∀ e ∈ g.edges, e.parent ∈ g.units ∧ e.child ∈ g.units

variable [Scalar α]

/-- A way along declared conversions, followed in either direction, with the number of its steps, the
unit it ends at and its running product. -/
inductive Route (g : Graph α) (start : String) : Nat → String → α → Prop
  | here : Route g start 0 start 1
  | forward {n : Nat} {e : Edge α} {x : α} :
    Route g start n e.parent x → e ∈ g.edges → Route g start (n + 1) e.child (x * e.factor)
  | backward {n : Nat} {e : Edge α} {x : α} :
    Route g start n e.child x → e ∈ g.edges → Route g start (n + 1) e.parent (x / e.factor)

/-- The graphs that can be made: units are registered and valid conversions added, in any order. A
conversion that is refused leaves the graph as it was. -/
inductive Built : Graph α → Prop
  | empty : Built empty
  | addUnit {g : Graph α} (name : String) : Built g → Built (g.addUnit name)
  | addEdge {g g' : Graph α} {e : Edge α} {child parent : String} {factor : α}
      {direction : Direction} {span span' : Span} :
    Built g → Edge.ofFactor child parent factor direction span = .ok e →
    g.addEdge e span' = .ok g' → Built g'

namespace Built

theorem units_nodup {g : Graph α} (h : g.Built) : g.units.Nodup := by
  induction h with
  | empty => exact List.nodup_nil
  | addUnit name _ ih => exact nodup_addUnit ih name
  | addEdge _ _ h ih =>
    obtain ⟨_, _, rfl⟩ := addEdge_eq_ok.1 h
    exact ih

theorem mem_units {g : Graph α} (h : g.Built) {e : Edge α} (he : e ∈ g.edges) :
    e.parent ∈ g.units ∧ e.child ∈ g.units := by
  induction h with
  | empty => cases he
  | addUnit name _ ih =>
    rw [edges_addUnit] at he
    have hu := ih he
    exact ⟨mem_units_addUnit.2 (Or.inl hu.1), mem_units_addUnit.2 (Or.inl hu.2)⟩
  | addEdge _ _ h ih =>
    obtain ⟨hp, hc, rfl⟩ := addEdge_eq_ok.1 h
    rcases List.mem_cons.1 he with rfl | he
    · exact ⟨hp, hc⟩
    · exact ih he

theorem joined {g : Graph α} (h : g.Built) : g.Joined := fun _ he => h.mem_units he

theorem cons {g : Graph α} (h : g.Built) {e : Edge α} (hf : Scalar.isFactor e.factor = true)
    (hp : e.parent ∈ g.units) (hc : e.child ∈ g.units) :
    Built { g with edges := e :: g.edges } := by
  have hnew : Edge.ofFactor e.child e.parent e.factor .parentToChild .none = .ok e := if_pos hf
  have hadd : g.addEdge e .none = .ok { g with edges := e :: g.edges } :=
    addEdge_eq_ok.2 ⟨hp, hc, rfl⟩
  exact h.addEdge hnew hadd

end Built

theorem mem_links {g : Graph α} {unit : String} {here : α} {link : String × α} :
    link ∈ g.links unit here ↔
      (∃ e ∈ g.edges, e.parent = unit ∧ link = (e.child, here * e.factor)) ∨
        ∃ e ∈ g.edges, e.child = unit ∧ link = (e.parent, here / e.factor) := by
  simp only [links, List.mem_append, List.mem_map, List.mem_filter, decide_eq_true_eq, and_assoc,
    eq_comm (a := link)]

theorem Route.link {g : Graph α} {start : String} {n : Nat} {node link : String × α}
    (h : g.Route start n node.1 node.2) (hl : link ∈ g.links node.1 node.2) :
    g.Route start (n + 1) link.1 link.2 := by
  rcases mem_links.1 hl with ⟨e, he, hu, rfl⟩ | ⟨e, he, hu, rfl⟩
  · exact Route.forward (hu ▸ h) he
  · exact Route.backward (hu ▸ h) he

theorem Route.append {g : Graph α} {u v w : String} {m n : Nat} {x y : α} (r : g.Route u m v x)
    (r' : g.Route v n w y) : ∃ z, g.Route u (m + n) w z := by
  induction r' with
  | here => exact ⟨x, r⟩
  | @forward n e y _ he ih =>
    obtain ⟨z, hz⟩ := ih
    exact ⟨z * e.factor, hz.forward he⟩
  | @backward n e y _ he ih =>
    obtain ⟨z, hz⟩ := ih
    exact ⟨z / e.factor, hz.backward he⟩

/-- More conversions leave every way open. -/
theorem Route.mono {g g' : Graph α} (h : g.edges ⊆ g'.edges) {start unit : String} {n : Nat} {x : α}
    (r : g.Route start n unit x) : g'.Route start n unit x := by
  induction r with
  | here => exact .here
  | forward _ he ih => exact ih.forward (h he)
  | backward _ he ih => exact ih.backward (h he)

theorem Route.mem_units {g : Graph α} (hg : g.Built) {start unit : String} (hs : start ∈ g.units)
    {n : Nat} {x : α} (r : g.Route start n unit x) : unit ∈ g.units := by
  cases r with
  | here => exact hs
  | forward _ he => exact (hg.mem_units he).2
  | backward _ he => exact (hg.mem_units he).1

/-- Two units belong to one component. -/
def Connected (g : Graph α) (u v : String) : Prop := ∃ n x, g.Route u n v x

namespace Connected

variable {g : Graph α} {u v w : String}

theorem refl (g : Graph α) (u : String) : g.Connected u u := ⟨0, 1, .here⟩

theorem edge {e : Edge α} (he : e ∈ g.edges) : g.Connected e.parent e.child :=
  ⟨1, _, Route.here.forward he⟩

theorem trans (h : g.Connected u v) (h' : g.Connected v w) : g.Connected u w := by
  obtain ⟨m, x, r⟩ := h
  obtain ⟨n, y, r'⟩ := h'
  obtain ⟨z, hz⟩ := r.append r'
  exact ⟨m + n, z, hz⟩

theorem symm (h : g.Connected u v) : g.Connected v u := by
  obtain ⟨n, x, r⟩ := h
  induction r with
  | here => exact ⟨0, 1, Route.here⟩
  | forward _ he ih => exact trans ⟨1, _, Route.here.backward he⟩ ih
  | backward _ he ih => exact trans ⟨1, _, Route.here.forward he⟩ ih

theorem mono {g' : Graph α} (hsub : g.edges ⊆ g'.edges) (h : g.Connected u v) : g'.Connected u v := by
  obtain ⟨n, x, r⟩ := h
  exact ⟨n, x, r.mono hsub⟩

end Connected

theorem Joined.mem_units_of_link {g : Graph α} (h : g.Joined) {unit : String} {here : α}
    {link : String × α} (hl : link ∈ g.links unit here) : link.1 ∈ g.units := by
  rcases mem_links.1 hl with ⟨e, he, _, rfl⟩ | ⟨e, he, _, rfl⟩
  · exact (h e he).2
  · exact (h e he).1

/-- What has been found at any moment of a search: each unit once, and each but the first by a link of
an earlier one. -/
inductive Tree (g : Graph α) (start : String) : List (String × α) → Prop
  | root : Tree g start [(start, 1)]
  | grow {reached : List (String × α)} {via link : String × α} :
    Tree g start reached → via ∈ reached → link ∈ g.links via.1 via.2 →
    reached.lookup link.1 = none → Tree g start (reached ++ [link])

namespace Tree

variable {g : Graph α} {start : String} {reached : List (String × α)}

theorem lookup_start (t : g.Tree start reached) : reached.lookup start = some 1 := by
  induction t with
  | root => simp
  | grow _ _ _ _ ih => simp [List.lookup_append, ih]

theorem nodup (t : g.Tree start reached) : (reached.map (·.1)).Nodup := by
  induction t with
  | root => simp
  | @grow reached via link _ _ _ hn ih =>
    rw [List.map_append, List.nodup_append]
    refine ⟨ih, by simp, ?_⟩
    rintro name hm _ hl rfl
    obtain ⟨node, hnode, rfl⟩ := List.mem_map.1 hm
    have hne := List.lookup_eq_none_iff.1 hn node hnode
    simp_all

/-- The factor reported for a unit is the running product of a way there, which is no longer than there
are units before it. -/
theorem route (t : g.Tree start reached) {node : String × α} (hm : node ∈ reached) :
    ∃ n < reached.length, g.Route start n node.1 node.2 := by
  induction t generalizing node with
  | root =>
    obtain rfl := List.mem_singleton.1 hm
    exact ⟨0, Nat.one_pos, Route.here⟩
  | @grow reached via link _ hv hl _ ih =>
    rw [List.length_append]
    rcases List.mem_append.1 hm with hm | hm
    · obtain ⟨n, hn, r⟩ := ih hm
      exact ⟨n, Nat.lt_add_right _ hn, r⟩
    · obtain rfl := List.mem_singleton.1 hm
      obtain ⟨n, hn, r⟩ := ih hv
      exact ⟨n + 1, Nat.add_lt_add_right hn 1, r.link hl⟩

theorem mem_units (t : g.Tree start reached) (hg : g.Joined) (hs : start ∈ g.units)
    {node : String × α} (hm : node ∈ reached) : node.1 ∈ g.units := by
  induction t generalizing node with
  | root =>
    obtain rfl := List.mem_singleton.1 hm
    exact hs
  | grow _ _ hl _ ih =>
    rcases List.mem_append.1 hm with hm | hm
    · exact ih hm
    · obtain rfl := List.mem_singleton.1 hm
      exact hg.mem_units_of_link hl

theorem length_le (t : g.Tree start reached) (hg : g.Joined) (hs : start ∈ g.units) :
    reached.length ≤ g.units.length := by
  have hsub : reached.map (·.1) ⊆ g.units := by
    intro name hm
    obtain ⟨node, hnode, rfl⟩ := List.mem_map.1 hm
    exact t.mem_units hg hs hnode
  simpa using t.nodup.length_le_of_subset hsub

end Tree

/-- A link is settled when the unit it leads to has a factor, which is that of the link itself or has
been compared with it. -/
def Settled (reached : List (String × α)) (link : String × α) : Prop :=
  ∃ known, reached.lookup link.1 = some known ∧ (known = link.2 ∨ Scalar.close known link.2 = true)

theorem Settled.mono {reached reached' : List (String × α)} {link : String × α}
    (h : Settled reached link) (hp : reached <+: reached') : Settled reached' link := by
  obtain ⟨known, hk, hc⟩ := h
  obtain ⟨rest, rfl⟩ := hp
  exact ⟨known, by simp [List.lookup_append, hk], hc⟩

theorem discover_eq_ok {start : String} {reached reached' : List (String × α)} {link : String × α}
    (h : discover start reached link = .ok reached') :
    (reached.lookup link.1 = none ∧ reached' = reached ++ [link]) ∨
      ∃ known, reached.lookup link.1 = some known ∧ Scalar.close known link.2 = true ∧
        reached' = reached := by
  unfold discover at h
  split at h
  · next hn =>
    cases h
    exact Or.inl ⟨hn, rfl⟩
  · next known hk =>
    split_ifs at h with hc
    cases h
    exact Or.inr ⟨known, hk, hc, rfl⟩

/-- A step of a search only adds to what it has found, and settles the link it follows. -/
theorem discover_settles {start : String} {reached reached' : List (String × α)} {link : String × α}
    (h : discover start reached link = .ok reached') :
    reached <+: reached' ∧ Settled reached' link := by
  obtain ⟨hn, rfl⟩ | ⟨known, hk, hc, rfl⟩ := discover_eq_ok h
  · refine ⟨List.prefix_append reached [link], link.2, ?_, Or.inl rfl⟩
    rw [List.lookup_append, hn]
    exact List.lookup_cons_self
  · exact ⟨List.prefix_rfl, known, hk, Or.inr hc⟩

theorem Tree.discover {g : Graph α} {start : String} {reached reached' : List (String × α)}
    {link via : String × α} (t : g.Tree start reached) (hv : via ∈ reached)
    (hl : link ∈ g.links via.1 via.2) (h : discover start reached link = .ok reached') :
    g.Tree start reached' := by
  obtain ⟨hn, rfl⟩ | ⟨known, _, _, rfl⟩ := discover_eq_ok h
  · exact t.grow hv hl hn
  · exact t

/-- Following some links of a unit found before keeps a tree and settles those links. -/
theorem follow_settles {g : Graph α} {start : String} {via : String × α} {links : List (String × α)}
    (hl : links ⊆ g.links via.1 via.2) {reached reached' : List (String × α)}
    (t : g.Tree start reached) (hv : via ∈ reached)
    (h : links.foldlM (discover start) reached = .ok reached') :
    g.Tree start reached' ∧ reached <+: reached' ∧ ∀ link ∈ links, Settled reached' link := by
  induction links generalizing reached with
  | nil =>
    cases h
    exact ⟨t, List.prefix_rfl, fun link hm => by cases hm⟩
  | cons link links ih =>
    obtain ⟨reached₁, h₁, h₂⟩ := foldlM_cons_eq_ok.1 h
    obtain ⟨hp, hs⟩ := discover_settles h₁
    have t₁ := t.discover hv (hl List.mem_cons_self) h₁
    obtain ⟨t₂, hp₂, hs₂⟩ := ih (fun l hm => hl (List.mem_cons_of_mem link hm)) t₁ (hp.subset hv) h₂
    refine ⟨t₂, hp.trans hp₂, ?_⟩
    intro l hm
    rcases List.mem_cons.1 hm with rfl | hm
    · exact hs.mono hp₂
    · exact hs₂ l hm

/-- A search that has followed all links of the units at the first `done` positions. -/
structure Explored (g : Graph α) (start : String) (done : Nat) (reached : List (String × α)) :
    Prop where
  tree : g.Tree start reached
  closed : ∀ i < done, ∀ node, reached[i]? = some node →
    ∀ link ∈ g.links node.1 node.2, Settled reached link

theorem Explored.expand {g : Graph α} {start : String} {i : Nat} {reached reached' : List (String × α)}
    (x : g.Explored start i reached) (h : g.expand start reached i = .ok reached') :
    g.Explored start (i + 1) reached' := by
  unfold Graph.expand at h
  split at h
  · next hnone =>
    cases h
    refine ⟨x.tree, ?_⟩
    intro j hj node hnode
    rcases Nat.lt_succ_iff_lt_or_eq.1 hj with hj | rfl
    · exact x.closed j hj node hnode
    · rw [hnone] at hnode
      cases hnode
  · next unit here hsome =>
    have hv : (unit, here) ∈ reached := List.mem_of_getElem? hsome
    obtain ⟨t, hp, hs⟩ := follow_settles (List.Subset.refl _) x.tree hv h
    refine ⟨t, ?_⟩
    intro j hj node hnode
    -- positions up to `i` were taken before this step
    have hi : i < reached.length := (List.getElem?_eq_some_iff.1 hsome).1
    obtain ⟨rest, rfl⟩ := hp
    rw [List.getElem?_append_left (by omega)] at hnode
    rcases Nat.lt_succ_iff_lt_or_eq.1 hj with hj | rfl
    · intro link hl
      exact (x.closed j hj node hnode link hl).mono (List.prefix_append reached rest)
    · obtain rfl : (unit, here) = node := by simpa [hsome] using hnode
      exact hs

/-- A search that has followed the links of the first `n` units it found. -/
def search (g : Graph α) (start : String) (n : Nat) : Except (UnitsError α) (List (String × α)) :=
  (List.range n).foldlM (g.expand start) [(start, 1)]

theorem search_succ (g : Graph α) (start : String) (n : Nat) :
    g.search start (n + 1) = g.search start n >>= fun reached => g.expand start reached n := by
  simp [search, List.range_succ, List.foldlM_append]

theorem explored_of_search {g : Graph α} {start : String} {n : Nat} {reached : List (String × α)}
    (h : g.search start n = .ok reached) : g.Explored start n reached := by
  induction n generalizing reached with
  | zero =>
    cases h
    exact ⟨Tree.root, fun i hi => by omega⟩
  | succ n ih =>
    rw [search_succ, bind_eq_ok] at h
    obtain ⟨reached₁, h₁, h₂⟩ := h
    exact (ih h₁).expand h₂

theorem explored_of_reach {g : Graph α} {start : String} {reached : List (String × α)}
    (h : g.reach start = .ok reached) : g.Explored start g.units.length reached :=
  explored_of_search h

theorem tree_of_reach {g : Graph α} {start : String} {reached : List (String × α)}
    (h : g.reach start = .ok reached) : g.Tree start reached := (explored_of_reach h).tree

theorem settled_of_reach {g : Graph α} {start : String} {reached : List (String × α)} (hg : g.Joined)
    (hs : start ∈ g.units) (h : g.reach start = .ok reached) {node link : String × α}
    (hm : node ∈ reached) (hl : link ∈ g.links node.1 node.2) : Settled reached link := by
  have x := explored_of_reach h
  obtain ⟨i, hi⟩ := List.mem_iff_getElem?.1 hm
  have hlt : i < reached.length := (List.getElem?_eq_some_iff.1 hi).1
  have hle := x.tree.length_le hg hs
  exact x.closed i (by omega) node hi link hl

end Graph

namespace Table

variable [Scalar α]

theorem lookup_rows {g : Graph α} {units : List String} {rows : List (String × List (String × α))}
    (h : (units.mapM fun unit => do return (unit, ← g.reach unit)) = Except.ok rows) (unit : String) :
    if unit ∈ units then ∃ row, rows.lookup unit = some row ∧ g.reach unit = .ok row
    else rows.lookup unit = none := by
  induction units generalizing rows with
  | nil =>
    cases h
    simp
  | cons u units ih =>
    rw [List.mapM_cons, bind_eq_ok] at h
    obtain ⟨first, hfirst, h⟩ := h
    obtain ⟨row, hrow, hpair⟩ := bind_eq_ok.1 hfirst
    obtain ⟨rest, hrest, h⟩ := bind_eq_ok.1 h
    cases hpair
    cases h
    by_cases hu : unit = u
    · subst hu
      simpa using hrow
    · have hne : (unit == u) = false := by simpa using hu
      simpa [List.lookup_cons, hu, hne] using ih hrest

theorem exists_build_of_reach {g : Graph α} (h : ∀ unit ∈ g.units, ∃ row, g.reach unit = .ok row) :
    ∃ t, build g = .ok t := by
  have row : ∀ unit ∈ g.units, ∃ row, (do return (unit, ← g.reach unit)) = Except.ok row := by
    intro unit hu
    obtain ⟨row, hrow⟩ := h unit hu
    exact ⟨(unit, row), bind_eq_ok.2 ⟨row, hrow, rfl⟩⟩
  obtain ⟨rows, hrows⟩ := exists_mapM_eq_ok row
  exact ⟨⟨rows⟩, bind_eq_ok.2 ⟨rows, hrows, rfl⟩⟩

theorem reach_of_build {g : Graph α} {t : Table α} (h : build g = .ok t) {unit : String}
    (hu : unit ∈ g.units) : g.reach unit = .ok (t.row unit) := by
  obtain ⟨rows, hrows, ht⟩ := bind_eq_ok.1 h
  cases ht
  have hl := lookup_rows hrows unit
  rw [if_pos hu] at hl
  obtain ⟨found, hfound, hreach⟩ := hl
  simpa [row, hfound] using hreach

theorem rows_eq {g : Graph α} {t : Table α} (h : build g = .ok t) :
    t.rows = g.units.map fun unit => (unit, t.row unit) := by
  obtain ⟨rows, hrows, ht⟩ := bind_eq_ok.1 h
  have hreach : g.units.map (fun unit => do return (unit, ← g.reach unit)) =
      (g.units.map fun unit => (unit, t.row unit)).map Except.ok := by
    rw [List.map_map]
    refine List.map_congr_left fun unit hu => ?_
    rw [reach_of_build h hu]
    rfl
  cases ht
  have hok := mapM_id_eq_ok.1 ((List.mapM_map ..).trans hrows)
  exact (List.map_inj_right fun _ _ => Except.ok.inj).1 (hok.symm.trans hreach)

theorem row_eq_nil {g : Graph α} {t : Table α} (h : build g = .ok t) {unit : String}
    (hu : unit ∉ g.units) : t.row unit = [] := by
  obtain ⟨rows, hrows, ht⟩ := bind_eq_ok.1 h
  cases ht
  have hl := lookup_rows hrows unit
  rw [if_neg hu] at hl
  simp [row, hl]

theorem mem_units_of_factor {g : Graph α} {t : Table α} (h : build g = .ok t) {source target : String}
    {x : α} (hx : t.factor source target = some x) : source ∈ g.units := by
  by_contra hu
  simp [factor, row_eq_nil h hu] at hx

/-- A factor is the running product of a way from its source to its target. -/
theorem route_of_factor {g : Graph α} (hg : g.Built) {t : Table α} (h : build g = .ok t)
    {source target : String} {x : α} (hx : t.factor source target = some x) :
    ∃ n < g.units.length, g.Route source n target x := by
  have hs := mem_units_of_factor h hx
  have tree := Graph.tree_of_reach (reach_of_build h hs)
  obtain ⟨n, hn, r⟩ := tree.route (mem_of_lookup_eq_some hx)
  exact ⟨n, Nat.lt_of_lt_of_le hn (tree.length_le hg.joined hs), r⟩

theorem factor_self {g : Graph α} {t : Table α} (h : build g = .ok t) {unit : String}
    (hu : unit ∈ g.units) : t.factor unit unit = some 1 :=
  (Graph.tree_of_reach (reach_of_build h hu)).lookup_start

end Table

end Metrology.Conversion
