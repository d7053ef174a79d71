import Mathlib.Data.List.Induction
import Metrology.Proofs.Conversion.Tolerance

/-! Tolerances do add up around a cycle. Take units in a ring with a conversion by one from each to the next,
declared last, and next to it one that is off by a whole tolerance. Every search finds the units by the former and
lets the latter pass one by one; so the ring of the latter is off by as many tolerances as there are units. -/
namespace Metrology.Conversion

open Fallible

namespace Graph

theorem Built.of_nodup {units : List String} (hn : units.Nodup) {edges : List (Edge Rat)}
    (h : ∀ e ∈ edges, 0 < e.factor ∧ e.parent ∈ units ∧ e.child ∈ units) : Built ⟨units, edges⟩ := by
  induction edges with
  | nil =>
    induction units using List.reverseRecOn with
    | nil => exact Built.empty
    | append_singleton units unit ih =>
      have hnew : unit ∉ units := fun hm =>
        List.disjoint_of_nodup_append hn hm (List.mem_singleton_self unit)
      have hadd := (ih hn.of_append_left (by simp)).addUnit unit
      rwa [Graph.addUnit, if_neg hnew] at hadd
  | cons e edges ih =>
    obtain ⟨⟨hpos, hp, hc⟩, hrest⟩ := List.forall_mem_cons.1 h
    exact (ih hrest).cons (by simpa [Scalar.isFactor, Scalar.isFinite, Scalar.le] using hpos) hp hc

/-- Every unit has been found with the factor one. -/
def Level (reached : List (String × Rat)) : Prop := ∀ node ∈ reached, node.2 = 1

namespace Level

variable {start : String} {reached : List (String × Rat)}

theorem lookup (h : Level reached) {unit : String} {x : Rat} (hx : reached.lookup unit = some x) :
    x = 1 := h (unit, x) (mem_of_lookup_eq_some hx)

theorem discover_known (h : Level reached) {link : String × Rat} {x : Rat}
    (hx : reached.lookup link.1 = some x) (hlink : 0 < link.2) (hclose : Within 1 1 link.2) :
    discover start reached link = .ok reached := by
  obtain rfl := h.lookup hx
  simp [discover, hx, (Within.close_iff one_pos hlink).2 hclose]

theorem discover_one (h : Level reached) {link : String × Rat} (hlink : link.2 = 1) :
    ∃ reached', discover start reached link = .ok reached' ∧ Level reached' := by
  cases hx : reached.lookup link.1 with
  | none =>
    refine ⟨reached ++ [link], by simp [discover, hx], ?_⟩
    intro node hm
    rcases List.mem_append.1 hm with hm | hm
    · exact h node hm
    · rwa [List.mem_singleton.1 hm]
  | some x =>
    have hone : Within 1 1 link.2 := by
      rw [hlink]
      exact Within.self 1 zero_le_one
    exact ⟨reached, h.discover_known hx (hlink ▸ one_pos) hone, h⟩

theorem follow {links : List (String × Rat)} (hl : ∀ link ∈ links, link.2 = 1) (h : Level reached) :
    ∃ reached', links.foldlM (discover start) reached = .ok reached' ∧ Level reached' ∧
      reached <+: reached' ∧ ∀ link ∈ links, Settled reached' link := by
  induction links generalizing reached with
  | nil => exact ⟨reached, rfl, h, List.prefix_rfl, fun link hm => by cases hm⟩
  | cons link links ih =>
    obtain ⟨hone, hones⟩ := List.forall_mem_cons.1 hl
    obtain ⟨reached₁, h₁, hlevel₁⟩ := h.discover_one hone
    obtain ⟨hp₁, hsettled₁⟩ := discover_settles h₁
    obtain ⟨reached', h', hlevel', hp', hsettled'⟩ := ih hones hlevel₁
    exact ⟨reached', foldlM_cons_eq_ok.2 ⟨reached₁, h₁, h'⟩, hlevel', hp₁.trans hp',
      List.forall_mem_cons.2 ⟨hsettled₁.mono hp', hsettled'⟩⟩

theorem follow_twins {links twins : List (String × Rat)} (hl : ∀ link ∈ links, link.2 = 1)
    (ht : ∀ twin ∈ twins, 0 < twin.2 ∧ Within 1 1 twin.2 ∧ ∃ link ∈ links, link.1 = twin.1)
    (h : Level reached) :
    ∃ reached', (links ++ twins).foldlM (discover start) reached = .ok reached' ∧ Level reached' := by
  obtain ⟨reached₁, h₁, hlevel₁, _, hsettled₁⟩ := follow hl h
  have pass : ∀ twin ∈ twins, ∀ reached, reached = reached₁ →
      ∃ reached', discover start reached twin = .ok reached' ∧ reached' = reached₁ := by
    rintro twin hm _ rfl
    obtain ⟨hpos, hclose, link, hlink, hunit⟩ := ht twin hm
    obtain ⟨x, hx, _⟩ := hsettled₁ link hlink
    exact ⟨_, hlevel₁.discover_known (hunit ▸ hx) hpos hclose, rfl⟩
  obtain ⟨_, h₂, rfl⟩ := exists_foldlM_eq_ok pass rfl
  refine ⟨_, ?_, hlevel₁⟩
  rw [List.foldlM_append, bind_eq_ok]
  exact ⟨_, h₁, h₂⟩

end Level

/-- Conversions by one, and others between the same units that are off by a tolerance at most. -/
structure Twinned (plain twins : List (Edge Rat)) : Prop where
  one : ∀ e ∈ plain, e.factor = 1
  within : ∀ e ∈ twins, 0 < e.factor ∧ Within 1 1 e.factor
  twin : ∀ e ∈ twins, ⟨e.child, e.parent, 1⟩ ∈ plain

namespace Twinned

variable {units : List String} {plain twins : List (Edge Rat)}

theorem forward (h : Twinned plain twins) (unit : String) {start : String}
    {reached : List (String × Rat)} (hlevel : Level reached) :
    ∃ reached', (((plain ++ twins).filter (·.parent = unit)).map
      fun e => (e.child, 1 * e.factor)).foldlM (discover start) reached = .ok reached' ∧
        Level reached' := by
  rw [List.filter_append, List.map_append]
  refine hlevel.follow_twins (List.forall_mem_map.2 ?_) (List.forall_mem_map.2 ?_)
  · intro e he
    rw [one_mul]
    exact h.one e (List.mem_of_mem_filter he)
  · intro e he
    obtain ⟨he, hunit⟩ := List.mem_filter.1 he
    rw [one_mul]
    exact ⟨(h.within e he).1, (h.within e he).2, _,
      List.mem_map_of_mem (List.mem_filter.2 ⟨h.twin e he, hunit⟩), rfl⟩

theorem backward (h : Twinned plain twins) (unit : String) {start : String}
    {reached : List (String × Rat)} (hlevel : Level reached) :
    ∃ reached', (((plain ++ twins).filter (·.child = unit)).map
      fun e => (e.parent, 1 / e.factor)).foldlM (discover start) reached = .ok reached' ∧
        Level reached' := by
  rw [List.filter_append, List.map_append]
  refine hlevel.follow_twins (List.forall_mem_map.2 ?_) (List.forall_mem_map.2 ?_)
  · intro e he
    rw [h.one e (List.mem_of_mem_filter he), div_one]
  · intro e he
    obtain ⟨he, hunit⟩ := List.mem_filter.1 he
    obtain ⟨hpos, hwithin⟩ := h.within e he
    have hback : Within 1 1 (1 / e.factor) := by
      have hdiv := hwithin.mul_right (one_div_pos.2 hpos).le
      rw [one_mul, mul_one_div_cancel hpos.ne'] at hdiv
      exact hdiv.symm
    exact ⟨one_div_pos.2 hpos, hback, _,
      List.mem_map_of_mem (List.mem_filter.2 ⟨h.twin e he, hunit⟩), rfl⟩

/-- A search that prefers the former is never refused, and finds every unit with the factor one. -/
theorem exists_expand (h : Twinned plain twins) {start : String} {reached : List (String × Rat)}
    (hlevel : Level reached) (i : Nat) :
    ∃ reached', Graph.expand ⟨units, plain ++ twins⟩ start reached i = .ok reached' ∧
      Level reached' := by
  unfold Graph.expand
  split
  · exact ⟨reached, rfl, hlevel⟩
  · next unit here hnode =>
    obtain rfl : here = 1 := hlevel _ (List.mem_of_getElem? hnode)
    obtain ⟨reached₁, h₁, hlevel₁⟩ := h.forward unit hlevel
    obtain ⟨reached₂, h₂, hlevel₂⟩ := h.backward unit hlevel₁
    refine ⟨reached₂, ?_, hlevel₂⟩
    rw [links, List.foldlM_append, bind_eq_ok]
    exact ⟨reached₁, h₁, h₂⟩

theorem exists_build (h : Twinned plain twins) (units : List String) :
    ∃ t, Table.build ⟨units, plain ++ twins⟩ = .ok t := by
  refine Table.exists_build_of_reach fun unit _ => ?_
  have root : Level [(unit, 1)] := by simp [Level]
  obtain ⟨reached, hreached, _⟩ := exists_foldlM_eq_ok (fun i _ _ hl => h.exists_expand hl i) root
  exact ⟨reached, hreached⟩

end Twinned

/-- Conversions by one factor from a unit along others, and from the last of them home. -/
def ring (factor : Rat) (home : String) : String → List String → List (Edge Rat)
  | unit, [] => [⟨home, unit, factor⟩]
  | unit, next :: units => ⟨next, unit, factor⟩ :: ring factor home next units

section Ring

variable {factor : Rat} {home unit : String} {units : List String}

theorem mem_ring {e : Edge Rat} (h : e ∈ ring factor home unit units) :
    e.factor = factor ∧ e.parent ∈ unit :: units ∧ (e.child = home ∨ e.child ∈ units) ∧
      ∀ factor', ⟨e.child, e.parent, factor'⟩ ∈ ring factor' home unit units := by
  induction units generalizing unit with
  | nil =>
    obtain rfl := List.mem_singleton.1 h
    simp [ring]
  | cons next units ih =>
    rcases List.mem_cons.1 h with rfl | h
    · simp [ring]
    · obtain ⟨hfactor, hparent, hchild, hother⟩ := ih h
      refine ⟨hfactor, List.mem_cons_of_mem _ hparent, ?_, ?_⟩
      · exact hchild.imp_right (List.mem_cons_of_mem next)
      · exact fun factor' => List.mem_cons_of_mem _ (hother factor')

def round (factor : Rat) (home unit : String) (units : List String) : List Step :=
  (ring factor home unit units).map (⟨·, true⟩)

theorem edges_round : (round factor home unit units).map Step.edge = ring factor home unit units := by
  simp [round, Function.comp_def]

theorem sources_round : (round factor home unit units).map Step.source = unit :: units := by
  induction units generalizing unit with
  | nil => rfl
  | cons next units ih => exact congrArg (unit :: ·) ih

theorem length_round : (round factor home unit units).length = units.length + 1 := by
  have hsources : (round factor home unit units).map Step.source = unit :: units := sources_round
  simpa using congrArg List.length hsources

theorem leads_round : Leads unit (round factor home unit units) home := by
  induction units generalizing unit with
  | nil => exact ⟨rfl, rfl⟩
  | cons next units ih => exact ⟨rfl, ih⟩

theorem product_round : product (round factor home unit units) = factor ^ (units.length + 1) := by
  induction units generalizing unit with
  | nil => simp [round, ring, product, Step.ratio]
  | cons next units ih =>
    rw [List.length_cons, pow_succ', ← ih]
    rfl

/-- The largest factor that passes for one. -/
def slip : Rat := 1 / (1 - Scalar.tolerance)

theorem slip_pos : 0 < slip := one_div_pos.2 Within.slack_pos

theorem slack_mul_slip : (1 - Scalar.tolerance) * slip = 1 := mul_one_div_cancel Within.slack_pos.ne'

theorem slip_within : Within 1 1 slip := by
  have hone : 1 ≤ slip := one_le_one_div Within.slack_pos Within.slack_le_one
  simp only [Within, pow_one, mul_one, slack_mul_slip]
  exact ⟨Within.slack_le_one.trans hone, le_rfl⟩

/-- Twice the ring: by one, and before that by a factor that is off by one tolerance. -/
def doubleRing (unit : String) (units : List String) : Graph Rat :=
  ⟨unit :: units, ring 1 unit unit units ++ ring slip unit unit units⟩

theorem doubleRing_built (hn : (unit :: units).Nodup) : (doubleRing unit units).Built := by
  refine Built.of_nodup hn ?_
  have inside {factor : Rat} (hpos : 0 < factor) : ∀ e ∈ ring factor unit unit units,
      0 < e.factor ∧ e.parent ∈ unit :: units ∧ e.child ∈ unit :: units := by
    intro e he
    obtain ⟨hfactor, hparent, hchild, _⟩ := mem_ring he
    exact ⟨hfactor ▸ hpos, hparent, List.mem_cons.2 hchild⟩
  intro e he
  rcases List.mem_append.1 he with he | he
  · exact inside one_pos e he
  · exact inside slip_pos e he

theorem doubleRing_twinned : Twinned (ring 1 unit unit units) (ring slip unit unit units) where
  one e he := (mem_ring he).1
  within e he := by
    rw [(mem_ring he).1]
    exact ⟨slip_pos, slip_within⟩
  twin e he := (mem_ring he).2.2.2 1

theorem round_cycle (hn : (unit :: units).Nodup) :
    (doubleRing unit units).Cycle (round slip unit unit units) where
  nonempty := List.ne_nil_of_length_eq_add_one length_round
  closed := ⟨unit, leads_round⟩
  simple := by
    rw [sources_round]
    exact hn
  declared := by
    rw [edges_round]
    exact (List.sublist_append_right _ _).subperm

end Ring

end Graph

namespace Table

open Metrology.Conversion.Graph

/-- What a search says about cycles. Around every cycle of an accepted graph the product is one up to one tolerance
for each step, and even for each step that bends the factors of some unit in reach; so where at most one step
does, up to the tolerance itself. A graph is refused only for a cycle beyond the tolerance. But the bound is
sharp: any units are those of an accepted graph with a cycle through all of them that is off by one whole
tolerance for each step. -/
theorem cycles_within_tolerances {g : Graph Rat} (hg : g.Built) :
    (∀ t, build g = .ok t → ∀ steps, g.Cycle steps →
      Within steps.length (product steps) 1 ∧
      ∀ start ∈ g.units, ∀ s ∈ steps, g.Connected start s.source →
        Within (steps.countP (t.bends start)) (product steps) 1 ∧
        (steps.countP (t.bends start) ≤ 1 →
          |product steps - 1| ≤ Scalar.tolerance * max (product steps) 1)) ∧
    (∀ e, build g = .error e → ∃ steps, g.Cycle steps ∧
      Scalar.tolerance * max (product steps) 1 < |product steps - 1|) ∧
    ∀ units : List String, units ≠ [] → units.Nodup → ∃ g t steps, g.Built ∧ g.units = units ∧
      build g = .ok t ∧ g.Cycle steps ∧ steps.length = units.length ∧
      (1 - Scalar.tolerance) ^ steps.length * product steps = 1 := by
  refine ⟨?_, ?_, ?_⟩
  · intro t h steps hc
    have hpos := hg.product_pos hc.mem_edges
    refine ⟨?_, ?_⟩
    · obtain ⟨s, hs⟩ := List.exists_mem_of_ne_nil steps hc.nonempty
      have hwithin := cycle_within hg h hc (hg.source_mem (hc.mem_edges s hs)) hs ⟨0, 1, Route.here⟩
      exact hwithin.mono List.countP_le_length hpos.le zero_le_one
    · intro start hstart s hs hconn
      have hwithin := cycle_within hg h hc hstart hs hconn
      refine ⟨hwithin, ?_⟩
      intro hone
      exact (Within.one_iff hpos one_pos).1 (hwithin.mono hone hpos.le zero_le_one)
  · intro e he
    by_contra hnone
    push Not at hnone
    have hcons : g.Consistent := fun steps hc =>
      (Within.one_iff (hg.product_pos hc.mem_edges) one_pos).2 (hnone steps hc)
    obtain ⟨t, ht⟩ := exists_build hg hcons
    rw [he] at ht
    cases ht
  · intro units hne hn
    obtain ⟨unit, units, rfl⟩ := List.exists_cons_of_ne_nil hne
    obtain ⟨t, ht⟩ := doubleRing_twinned.exists_build (unit :: units)
    refine ⟨doubleRing unit units, t, _, doubleRing_built hn, rfl, ht, round_cycle hn, length_round, ?_⟩
    rw [product_round, length_round, ← mul_pow, slack_mul_slip, one_pow]

end Table

/-- Two names for one length, with three conversions between them that are nearly the same. -/
def mils : Graph Rat :=
  ⟨["thou", "mil"],
    [⟨"mil", "thou", 1⟩, ⟨"mil", "thou", 1 - 9 / 10 ^ 10⟩, ⟨"mil", "thou", 1 + 9 / 10 ^ 10⟩]⟩

def milsRound : List Step :=
  [⟨⟨"mil", "thou", 1 + 9 / 10 ^ 10⟩, true⟩, ⟨⟨"mil", "thou", 1 - 9 / 10 ^ 10⟩, false⟩]

/-- The first two conversions are compared with the third, and never with each other: they make a cycle beyond
the tolerance, though not beyond two. -/
theorem mils_beyond_tolerance : ∃ t, mils.Built ∧ Table.build mils = .ok t ∧ mils.Cycle milsRound ∧
    Scalar.tolerance * max (product milsRound) 1 < |product milsRound - 1| ∧
    Within 2 (product milsRound) 1 := by
  have hbuilt : mils.Built := Graph.Built.of_nodup (by simp) (by simp; norm_num)
  have hcycle : mils.Cycle milsRound := by
    refine ⟨by simp [milsRound], ⟨"thou", rfl, rfl, rfl⟩, by simp [milsRound, Step.source], ?_⟩
    exact (List.Perm.swap _ _ _).subperm.trans (List.sublist_cons_self _ _).subperm
  have hproduct : product milsRound = (1 + 9 / 10 ^ 10) / (1 - 9 / 10 ^ 10) := by
    norm_num [milsRound, product, Step.ratio]
  have haccepted : (Table.build mils).toOption.isSome = true := by decide +kernel
  obtain ⟨t, ht⟩ := Option.isSome_iff_exists.1 haccepted
  have ht : Table.build mils = .ok t := Fallible.toOption_eq_some.1 ht
  refine ⟨t, hbuilt, ht, hcycle, ?_, ((Table.cycles_within_tolerances hbuilt).1 t ht _ hcycle).1⟩
  rw [hproduct]
  simp only [Scalar.tolerance]
  norm_num

end Metrology.Conversion
