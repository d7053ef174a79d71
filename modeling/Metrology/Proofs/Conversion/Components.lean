import Mathlib.Data.List.Induction
import Mathlib.Data.List.Nodup
import Mathlib.Logic.Relation
import Metrology.Proofs.Conversion.Reach

/-! Which pairs of units a table has a factor for. They are the registered units that declared conversions
connect, followed in either direction, in whatever order units and conversions came and whichever of them were
refused. -/
namespace Metrology.Conversion

variable {α : Type}

namespace Graph

inductive Call (α : Type)
  | unit (name : String)
  | edge (e : Edge α) (span : Span)
deriving DecidableEq, Repr

/-- A conversion that is refused leaves the graph as it was. -/
def Call.run (g : Graph α) : Call α → Graph α
  | unit name => g.addUnit name
  | edge e span => (g.addEdge e span).toOption.getD g

def ofCalls (calls : List (Call α)) : Graph α := calls.foldl Call.run empty

/-- The units that were asked for. -/
def Registered (calls : List (Call α)) (name : String) : Prop := .unit name ∈ calls

/-- The conversions that were asked for when both their units had been. -/
def Declared (calls : List (Call α)) (e : Edge α) : Prop :=
  ∃ before span, before ++ [.edge e span] <+: calls ∧ Registered before e.parent ∧
    Registered before e.child

def Adjacent (calls : List (Call α)) (u v : String) : Prop :=
  ∃ e, Declared calls e ∧ e.parent = u ∧ e.child = v

theorem ofCalls_append (calls : List (Call α)) (call : Call α) :
    ofCalls (calls ++ [call]) = call.run (ofCalls calls) := by
  simp [ofCalls]

theorem registered_append {calls : List (Call α)} {call : Call α} {name : String} :
    Registered (calls ++ [call]) name ↔ Registered calls name ∨ call = .unit name := by
  simp [Registered, eq_comm]

theorem declared_append {calls : List (Call α)} {call : Call α} {e : Edge α} :
    Declared (calls ++ [call]) e ↔ Declared calls e ∨
      ∃ span, call = .edge e span ∧ Registered calls e.parent ∧ Registered calls e.child := by
  constructor
  · rintro ⟨before, span, hbefore, hends⟩
    rcases List.prefix_concat_iff.1 hbefore with hlast | hbefore
    · obtain ⟨rfl, hcall⟩ := List.append_inj hlast (by simpa using congrArg List.length hlast)
      exact Or.inr ⟨span, (List.singleton_inj.1 hcall).symm, hends⟩
    · exact Or.inl ⟨before, span, hbefore, hends⟩
  · rintro (⟨before, span, hbefore, hends⟩ | ⟨span, rfl, hends⟩)
    · exact ⟨before, span, hbefore.trans (List.prefix_append calls [call]), hends⟩
    · exact ⟨calls, span, List.prefix_rfl, hends⟩

theorem run_edge (g : Graph α) (e : Edge α) (span : Span) :
    Call.run g (.edge e span) =
      if e.parent ∈ g.units ∧ e.child ∈ g.units then { g with edges := e :: g.edges } else g := by
  split_ifs with h
  · rw [Call.run, addEdge_eq_ok.2 ⟨h.1, h.2, rfl⟩]
    rfl
  · rw [Call.run]
    cases hadd : g.addEdge e span with
    | error _ => rfl
    | ok g' =>
      obtain ⟨hp, hc, _⟩ := addEdge_eq_ok.1 hadd
      exact absurd ⟨hp, hc⟩ h

theorem mem_units_ofCalls {calls : List (Call α)} {name : String} :
    name ∈ (ofCalls calls).units ↔ Registered calls name := by
  induction calls using List.reverseRecOn with
  | nil => simp [ofCalls, empty, Registered]
  | append_singleton calls call ih =>
    rw [ofCalls_append, registered_append]
    cases call with
    | unit name' =>
      rw [Call.run, mem_units_addUnit, ih, Call.unit.injEq]
      exact or_congr_right eq_comm
    | edge e span =>
      have hsame : (Call.run (ofCalls calls) (.edge e span)).units = (ofCalls calls).units := by
        rw [run_edge]
        split_ifs <;> rfl
      simp [hsame, ih]

theorem mem_edges_ofCalls {calls : List (Call α)} {e : Edge α} :
    e ∈ (ofCalls calls).edges ↔ Declared calls e := by
  induction calls using List.reverseRecOn with
  | nil => simp [ofCalls, empty, Declared]
  | append_singleton calls call ih =>
    rw [ofCalls_append, declared_append]
    cases call with
    | unit name => simp [Call.run, edges_addUnit, ih]
    | edge e' span =>
      rw [run_edge]
      simp only [Call.edge.injEq]
      split_ifs with hends
      all_goals rw [mem_units_ofCalls, mem_units_ofCalls] at hends
      · rw [List.mem_cons, ih, or_comm]
        refine or_congr_right ⟨?_, ?_⟩
        · rintro rfl
          exact ⟨span, ⟨rfl, rfl⟩, hends⟩
        · rintro ⟨_, ⟨rfl, _⟩, _⟩
          rfl
      · rw [ih]
        refine ⟨Or.inl, ?_⟩
        rintro (hold | ⟨_, ⟨rfl, _⟩, hnew⟩)
        · exact hold
        · exact absurd hnew hends

theorem joined_ofCalls (calls : List (Call α)) : (ofCalls calls).Joined := by
  intro e he
  obtain ⟨before, span, ⟨after, rfl⟩, hparent, hchild⟩ := mem_edges_ofCalls.1 he
  have registered {name : String} (h : Registered before name) :
      name ∈ (ofCalls (before ++ [.edge e span] ++ after)).units :=
    mem_units_ofCalls.2 (by simpa [Registered] using Or.inl h)
  exact ⟨registered hparent, registered hchild⟩

variable [Scalar α]

/-- Ways along conversions are chains of conversions followed in either direction. -/
theorem connected_ofCalls {calls : List (Call α)} {u v : String} :
    (ofCalls calls).Connected u v ↔ Relation.EqvGen (Adjacent calls) u v := by
  constructor
  · rintro ⟨n, x, r⟩
    induction r with
    | here => exact .refl _
    | @forward n e x _ he ih =>
      exact ih.trans _ _ _ (.rel _ _ ⟨e, mem_edges_ofCalls.1 he, rfl, rfl⟩)
    | @backward n e x _ he ih =>
      exact ih.trans _ _ _ (.symm _ _ (.rel _ _ ⟨e, mem_edges_ofCalls.1 he, rfl, rfl⟩))
  · intro h
    induction h with
    | rel u v hadj =>
      obtain ⟨e, he, rfl, rfl⟩ := hadj
      exact ⟨1, _, Route.here.forward (mem_edges_ofCalls.2 he)⟩
    | refl u => exact ⟨0, 1, .here⟩
    | symm u v _ ih => exact ih.symm
    | trans u v w _ _ ih ih' => exact ih.trans ih'

end Graph

namespace Table

open Metrology.Conversion.Graph

variable [Scalar α] {g : Graph α} {t : Table α}

theorem row_nodup (h : build g = .ok t) (unit : String) : ((t.row unit).map (·.1)).Nodup := by
  by_cases hu : unit ∈ g.units
  · exact (tree_of_reach (reach_of_build h hu)).nodup
  · simp [row_eq_nil h hu]

theorem mem_row_iff (h : build g = .ok t) {source target : String} {x : α} :
    (target, x) ∈ t.row source ↔ t.factor source target = some x := by
  rw [factor, List.lookup_eq_some_iff]
  constructor
  · intro hm
    obtain ⟨before, after, hrow⟩ := List.append_of_mem hm
    refine ⟨before, after, hrow, ?_⟩
    have hnodup := row_nodup h source
    rw [hrow, List.map_append, List.nodup_append] at hnodup
    intro node hnode
    have hne := hnodup.2.2 node.1 (List.mem_map_of_mem hnode) target (by simp)
    simpa using hne.symm
  · rintro ⟨before, after, hrow, _⟩
    simp [hrow]

/-- A search finds every unit that conversions lead to. -/
theorem factor_of_connected (hg : g.Joined) (h : build g = .ok t) {u v : String} (hu : u ∈ g.units)
    (huv : g.Connected u v) : ∃ x, t.factor u v = some x := by
  have step {unit : String} {x : α} {link : String × α} (hx : t.factor u unit = some x)
      (hl : link ∈ g.links unit x) : ∃ y, t.factor u link.1 = some y := by
    obtain ⟨y, hy, _⟩ := settled_of_reach hg hu (reach_of_build h hu) ((mem_row_iff h).2 hx) hl
    exact ⟨y, hy⟩
  obtain ⟨n, p, r⟩ := huv
  induction r with
  | here => exact ⟨1, factor_self h hu⟩
  | @forward n e y _ he ih =>
    obtain ⟨x, hx⟩ := ih
    have hlink : (e.child, x * e.factor) ∈ g.links e.parent x := mem_links.2 (Or.inl ⟨e, he, rfl, rfl⟩)
    exact step hx hlink
  | @backward n e y _ he ih =>
    obtain ⟨x, hx⟩ := ih
    have hlink : (e.parent, x / e.factor) ∈ g.links e.child x := mem_links.2 (Or.inr ⟨e, he, rfl, rfl⟩)
    exact step hx hlink

theorem factor_isSome_iff (hg : g.Joined) (h : build g = .ok t) {u v : String} :
    (t.factor u v).isSome ↔ u ∈ g.units ∧ v ∈ g.units ∧ g.Connected u v := by
  constructor
  · intro hsome
    obtain ⟨x, hx⟩ := Option.isSome_iff_exists.1 hsome
    have hu := mem_units_of_factor h hx
    have tree := tree_of_reach (reach_of_build h hu)
    have hm := (mem_row_iff h).2 hx
    obtain ⟨n, _, r⟩ := tree.route hm
    exact ⟨hu, tree.mem_units hg hu hm, n, x, r⟩
  · rintro ⟨hu, _, huv⟩
    exact Option.isSome_iff_exists.2 (factor_of_connected hg h hu huv)

theorem mem_connected_iff (h : build g = .ok t) {u v : String} :
    v ∈ (t.connected u).map (·.1) ↔ (t.factor u v).isSome := by
  rw [connected, ((List.mergeSort_perm (t.row u) _).map (·.1)).mem_iff, Option.isSome_iff_exists,
    List.mem_map]
  constructor
  · rintro ⟨⟨v, x⟩, hm, rfl⟩
    exact ⟨x, (mem_row_iff h).1 hm⟩
  · rintro ⟨x, hx⟩
    exact ⟨(v, x), (mem_row_iff h).2 hx, rfl⟩

theorem connected_nodup (h : build g = .ok t) (u : String) : ((t.connected u).map (·.1)).Nodup := by
  rw [connected, ((List.mergeSort_perm (t.row u) _).map (·.1)).nodup_iff]
  exact row_nodup h u

section Alike

variable {g' : Graph α} {t' : Table α}

/-- A row is known by its factors, up to the order in which units were found. -/
theorem row_perm (h : build g = .ok t) (h' : build g' = .ok t') (hf : t'.factor = t.factor)
    (unit : String) : (t'.row unit).Perm (t.row unit) := by
  refine (List.perm_ext_iff_of_nodup (row_nodup h' unit).of_map (row_nodup h unit).of_map).2 ?_
  rintro ⟨target, x⟩
  rw [mem_row_iff h', mem_row_iff h, hf]

omit [Scalar α] in
theorem connected_sorted (t : Table α) (unit : String) :
    (t.connected unit).Pairwise fun a b => a.1 ≤ b.1 := by
  refine (List.pairwise_mergeSort ?_ ?_ (t.row unit)).imp of_decide_eq_true
  · intro a b c hab hbc
    exact decide_eq_true (String.le_trans (of_decide_eq_true hab) (of_decide_eq_true hbc))
  · intro a b
    simpa using String.le_total a.1 b.1

/-- Rows with the same factors are listed alike: sorting by name leaves no choice. -/
theorem connected_eq (h : build g = .ok t) (h' : build g' = .ok t') (hf : t'.factor = t.factor) :
    t'.connected = t.connected := by
  funext unit
  have hperm : (t'.connected unit).Perm (t.connected unit) :=
    ((List.mergeSort_perm _ _).trans (row_perm h h' hf unit)).trans (List.mergeSort_perm _ _).symm
  refine List.Perm.eq_of_pairwise ?_ (connected_sorted t' unit) (connected_sorted t unit) hperm
  intro a b ha hb hab hba
  exact List.inj_on_of_nodup_map (connected_nodup h unit) (hperm.subset ha) hb
    (String.le_antisymm hab hba)

theorem size_eq_foldr (h : build g = .ok t) :
    t.size = g.units.foldr (fun u n => (t.row u).length + n) 0 := by
  rw [size, rows_eq h, List.foldr_map]

theorem size_eq (h : build g = .ok t) (h' : build g' = .ok t') (hf : t'.factor = t.factor)
    (hperm : g'.units.Perm g.units) : t'.size = t.size := by
  have lengths (u : String) : (t'.row u).length = (t.row u).length := (row_perm h h' hf u).length_eq
  rw [size_eq_foldr h', size_eq_foldr h]
  simp only [lengths]
  refine hperm.foldr_eq' ?_ 0
  intro u _ v _ n
  exact Nat.add_left_comm _ _ n

end Alike

/-- The domain of a table is connectivity: it has a factor exactly between registered units that declared
conversions connect, it has the factor one from each unit to itself, and it lists as connected to a unit
exactly the units of its component, each once. So to have a factor is an equivalence of registered units. -/
theorem domain_is_connectivity {calls : List (Call α)} (h : build (ofCalls calls) = .ok t) :
    (∀ u v, (t.factor u v).isSome ↔
      Registered calls u ∧ Registered calls v ∧ Relation.EqvGen (Adjacent calls) u v) ∧
    (∀ u, Registered calls u → t.factor u u = some 1) ∧
    (∀ u, ((t.connected u).map (·.1)).Nodup ∧ ∀ v, v ∈ (t.connected u).map (·.1) ↔
      Registered calls u ∧ Registered calls v ∧ Relation.EqvGen (Adjacent calls) u v) ∧
    Equivalence fun u v : { name // Registered calls name } => (t.factor u v).isSome = true := by
  have domain (u v : String) : (t.factor u v).isSome ↔
      Registered calls u ∧ Registered calls v ∧ Relation.EqvGen (Adjacent calls) u v := by
    rw [factor_isSome_iff (joined_ofCalls calls) h, mem_units_ofCalls, mem_units_ofCalls,
      connected_ofCalls]
  refine ⟨domain, ?_, ?_, ?_⟩
  · intro u hu
    exact factor_self h (mem_units_ofCalls.2 hu)
  · intro u
    refine ⟨connected_nodup h u, ?_⟩
    intro v
    rw [mem_connected_iff h, domain]
  · refine ⟨?_, ?_, ?_⟩
    · intro u
      exact (domain u u).2 ⟨u.2, u.2, .refl _⟩
    · intro u v huv
      obtain ⟨hu, hv, hchain⟩ := (domain u v).1 huv
      exact (domain v u).2 ⟨hv, hu, .symm _ _ hchain⟩
    · intro u v w huv hvw
      obtain ⟨hu, _, hchain⟩ := (domain u v).1 huv
      obtain ⟨_, hw, hchain'⟩ := (domain v w).1 hvw
      exact (domain u w).2 ⟨hu, hw, .trans _ _ _ hchain hchain'⟩

end Table

/-- Roads, where one conversion comes before its units and stays refused. -/
def roads : List (Graph.Call Rat) :=
  [.unit "meter", .edge ⟨"yard", "mile", 1760⟩ .none, .unit "mile", .edge ⟨"mile", "meter", 1 / 1609⟩ .none,
    .unit "yard", .unit "mile", .edge ⟨"meter", "mile", 1609⟩ .none]

/-- Miles go into meters, and nothing leads to yards. -/
theorem roads_connectivity : ∃ t, Table.build (Graph.ofCalls roads) = .ok t ∧
    Relation.EqvGen (Graph.Adjacent roads) "mile" "meter" ∧
    ¬ Relation.EqvGen (Graph.Adjacent roads) "yard" "mile" := by
  have hknown : (Table.build (Graph.ofCalls roads)).toOption.map (fun t =>
      ((t.factor "mile" "meter").isSome, (t.factor "yard" "mile").isSome)) = some (true, false) := by
    decide +kernel
  obtain ⟨t, ht, hfactors⟩ := Option.map_eq_some_iff.1 hknown
  have ht : Table.build (Graph.ofCalls roads) = .ok t := Fallible.toOption_eq_some.1 ht
  obtain ⟨hmeter, hyard⟩ := Prod.mk.inj hfactors
  obtain ⟨domain, _⟩ := Table.domain_is_connectivity ht
  refine ⟨t, ht, ((domain _ _).1 hmeter).2.2, ?_⟩
  intro hchain
  have hregistered : Graph.Registered roads "yard" ∧ Graph.Registered roads "mile" := by
    simp [Graph.Registered, roads]
  have hsome := (domain "yard" "mile").2 ⟨hregistered.1, hregistered.2, hchain⟩
  rw [hyard] at hsome
  cases hsome

end Metrology.Conversion
