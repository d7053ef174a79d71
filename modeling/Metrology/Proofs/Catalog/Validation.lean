import Metrology.Proofs.Catalog.Exponents

/-! Building a catalog checks the rules of descriptions and no others. A draft follows the units declared so far:
it finds them under the same words, tells the scaled ones apart, and its dimensions hold the exponents of the
base units that they come down to. -/
namespace Metrology

namespace Catalog

open Fallible Conversion Description

variable {α : Type}

namespace Registry

variable {r r' : Registry} {e : Entry} {word : String}

theorem find?_of_answers (hentries : r'.entries = r.entries ++ [e]) (hnone : r.find? word = none)
    (hword : e.unit.Answers word) : r'.find? word = some e := by
  simp only [find?, Option.orElse_eq_orElse, Option.orElse_eq_or, Option.or_eq_none_iff] at hnone ⊢
  rw [hentries, List.find?_append, List.find?_append, hnone.1, hnone.2]
  rcases Entry.answers_iff.1 hword with h | h
  · simp [h]
  · cases hname : e.hasName word <;> simp [h, hname]

theorem find?_of_not_answers (hentries : r'.entries = r.entries ++ [e]) (hword : ¬ e.unit.Answers word) :
    r'.find? word = r.find? word := by
  rw [Entry.answers_iff, not_or] at hword
  simp [find?, hentries, List.find?_append, hword.1, hword.2]

end Registry

theorem Declares.answers_iff {u : UnitDecl α} {e : Entry} (h : Declares u e) {word : String} :
    e.unit.Answers word ↔ u.Claims word := by
  rw [MeasureUnit.Answers, UnitDecl.Claims, h.name, h.symbol]

variable [Scalar α]

theorem ofFactor_of_converts {factor : α} (h : Scalar.Converts factor) (child parent : String)
    (direction : Direction) (span : Span) :
    ∃ edge, Edge.ofFactor child parent factor direction span = .ok edge ∧ edge.child = child ∧
      edge.parent = parent := by
  have hfactor : Scalar.isFactor factor = true := by simp [Scalar.isFactor, h.1, h.2]
  exact ⟨_, if_pos hfactor, rfl, rfl⟩

theorem ofFactor_of_not_converts {factor : α} (h : ¬ Scalar.Converts factor) (child parent : String)
    (direction : Direction) (span : Span) :
    Edge.ofFactor child parent factor direction span = .error (.invalidFactor factor span) := by
  refine if_neg fun hfactor => h ?_
  simpa [Scalar.isFactor, Scalar.Converts] using hfactor

theorem span?_of_table {g : Graph α} {e : UnitsError α} (h : Table.build g = .error e) : e.span? = none := by
  have hdiscover (start : String) (reached : List (String × α)) (link : String × α) (e : UnitsError α)
      (h : Graph.discover start reached link = .error e) : e.span? = none := by
    unfold Graph.discover at h
    split at h
    · cases h
    · split_ifs at h
      cases h
      rfl
  have hexpand (start : String) (reached : List (String × α)) (i : Nat) (e : UnitsError α)
      (h : g.expand start reached i = .error e) : e.span? = none := by
    unfold Graph.expand at h
    split at h
    · cases h
    · exact foldlM_error (hdiscover start) h
  have hrow (unit : String) (e : UnitsError α)
      (h : (do return (unit, ← g.reach unit) : Except _ _) = .error e) : e.span? = none := by
    rcases bind_eq_error.1 h with h | ⟨_, _, h⟩
    · exact foldlM_error (hexpand unit) h
    · cases h
  rcases bind_eq_error.1 h with h | ⟨_, _, h⟩
  · exact mapM_error hrow h
  · cases h

namespace Draft

def memberUnit (d : Draft α) (span : Span) (member : String) : Except (UnitsError α) MeasureUnit := do
  return (← d.require member span).unit

omit [Scalar α] in
theorem declareClass_of_free {d : Draft α} {k : ClassDecl} (free : d.isTaken k.name = false) :
    d.declareClass k = do
      return { d with classes := d.classes ++ [(k.name, ← k.members.mapM (d.memberUnit k.span))] } := by
  rw [declareClass, requireFree, free]
  rfl

/-- A draft that has taken in some units and classes. -/
structure Follows (n : Nat) (decls : List (UnitDecl α)) (classes : List ClassDecl) (d : Draft α) : Prop where
  level : d.Level
  slots : d.slots = n
  arity : d.arity = (decls.filter (·.isBase)).length
  classes : d.classes.map (·.1) = classes.map (·.name)
  named : ∀ word, d.find? word = none ↔ ¬ Named decls word
  declares : ∀ word e, d.find? word = some e → ∀ u ∈ decls, u.Claims word → Declares u e
  dimension : ∀ word e, d.find? word = some e → e.unit.dimension = .tabulate n (slotExponent decls word)

/-- An entry for one unit more, with the dimension that the unit has. -/
structure Continues (n : Nat) (decls : List (UnitDecl α)) (u : UnitDecl α) (e : Entry) : Prop
    extends Declares u e where
  dimension : ∀ word, u.Claims word → e.unit.dimension = .tabulate n (slotExponent (decls ++ [u]) word)

namespace Follows

variable {n : Nat} {decls : List (UnitDecl α)} {classes : List ClassDecl} {d d' : Draft α} {u : UnitDecl α}
  {word : String}

theorem start (n : Nat) : Follows n [.plain] [] (start n : Draft α) := by
  have hdeclares : Declares (.plain : UnitDecl α) ⟨numberUnit n, none⟩ := ⟨rfl, rfl, rfl, rfl⟩
  -- the only entry is that of plain numbers
  have hfind (word : String) (e : Entry) (he : (Draft.start n : Draft α).find? word = some e) :
      e = ⟨numberUnit n, none⟩ := List.mem_singleton.1 (Registry.mem_of_find? he)
  refine ⟨Level.start n, rfl, rfl, rfl, fun word => ?_, fun word e he u hu _ => ?_, fun word e he => ?_⟩
  · have hunits : (Draft.start n : Draft α).units = [numberUnit n] := rfl
    simp [Registry.find?_eq_none_iff, hunits, Named, ← hdeclares.answers_iff]
  · rw [hfind word e he, List.mem_singleton.1 hu]
    exact hdeclares
  · rw [hfind word e he]
    exact Dimension.none_eq_tabulate n

theorem exists_entry (h : Follows n decls classes d) (hword : Named decls word) :
    ∃ e, d.find? word = some e := by
  rw [← Option.ne_none_iff_exists']
  exact fun hnone => (h.named word).1 hnone hword

theorem require_ok (h : Follows n decls classes d) (hword : Named decls word) (span : Span) :
    ∃ e, d.require word span = .ok e ∧ d.find? word = some e := by
  obtain ⟨e, he⟩ := h.exists_entry hword
  exact ⟨e, require_eq_ok.2 he, he⟩

theorem require_error (h : Follows n decls classes d) (hword : ¬ Named decls word) (span : Span) :
    d.require word span = .error (.unknownUnit word span) := by
  rw [require, (h.named word).2 hword]

theorem isTaken_iff (h : Follows n decls classes d) :
    d.isTaken word = true ↔ Named decls word ∨ ∃ k ∈ classes, k.name = word := by
  rw [Registry.isTaken_iff, h.classes, List.mem_map]
  refine or_congr_left ?_
  rw [← not_iff_not, ← h.named, Registry.find?_eq_none_iff]
  push Not
  rfl

theorem isTaken_eq (h : Follows n decls classes d) (hunit : ¬ Named decls word)
    (hclass : ∀ k ∈ classes, k.name ≠ word) : d.isTaken word = false := by
  rw [← Bool.not_eq_true, h.isTaken_iff]
  rintro (hnamed | ⟨k, hk, hname⟩)
  · exact hunit hnamed
  · exact hclass k hk hname

theorem reference_iff (h : Follows n decls classes d) {e : Entry} (he : d.find? word = some e) :
    e.reference.isSome = false ↔ NamedUnscaled decls word := by
  constructor
  · intro href
    have hnamed : Named decls word := by
      by_contra hnamed
      rw [(h.named word).2 hnamed] at he
      cases he
    obtain ⟨u, hu, hclaims⟩ := hnamed
    exact ⟨u, hu, hclaims, (h.declares word e he u hu hclaims).scaled ▸ href⟩
  · rintro ⟨u, hu, hclaims, hscaled⟩
    rw [(h.declares word e he u hu hclaims).scaled, hscaled]

theorem timesTerm_ok (h : Follows n decls classes d) {t : Term} (ht : NamedUnscaled decls t.unit)
    (name : String) (span : Span) (f : Nat → Int) : d.timesTerm name span (.tabulate n f) t =
      .ok (.tabulate n fun k => f k + slotExponent decls t.unit k * t.exponent.toInt) := by
  obtain ⟨e, hrequire, he⟩ := h.require_ok ht.named span
  have href : e.reference.isSome = false := (h.reference_iff he).2 ht
  rw [timesTerm, hrequire, ← Dimension.mul_tabulate, ← Dimension.pow_tabulate, ← h.dimension _ e he]
  simp [bind, Except.bind, href]

theorem timesTerm_error (h : Follows n decls classes d) {t : Term} {e : UnitsError α}
    (hfault : UnitDecl.TermFault decls u t e) (product : Dimension) :
    d.timesTerm u.name u.span product t = .error e := by
  cases hfault with
  | unknown hunknown =>
    rw [timesTerm, h.require_error hunknown]
    rfl
  | scaled hnamed hscaled =>
    obtain ⟨e, hrequire, he⟩ := h.require_ok hnamed u.span
    have href : e.reference.isSome = true := by
      rw [← Bool.not_eq_false, h.reference_iff he]
      exact hscaled
    rw [timesTerm, hrequire]
    exact if_pos href

theorem timesTerms_ok (h : Follows n decls classes d) {terms : List Term}
    (hterms : ∀ t ∈ terms, NamedUnscaled decls t.unit) (name : String) (span : Span) (f : Nat → Int) :
    terms.foldlM (d.timesTerm name span) (.tabulate n f) =
      .ok (.tabulate n fun k => f k + (terms.map fun t => slotExponent decls t.unit k * t.exponent.toInt).sum) := by
  induction terms generalizing f with
  | nil => simp [pure, Except.pure]
  | cons t terms ih =>
    rw [List.foldlM_cons, h.timesTerm_ok (hterms t List.mem_cons_self)]
    have hrest := ih (fun t' ht' => hterms t' (List.mem_cons_of_mem t ht'))
      fun k => f k + slotExponent decls t.unit k * t.exponent.toInt
    simpa [bind, Except.bind, Int.add_assoc] using hrest

theorem timesTerms_error (h : Follows n decls classes d) {terms : List Term} {e : UnitsError α}
    (hfirst : FirstError (fun _ t => NamedUnscaled decls t.unit) (fun _ => UnitDecl.TermFault decls u) []
      terms e) (f : Nat → Int) : terms.foldlM (d.timesTerm u.name u.span) (.tabulate n f) = .error e := by
  refine foldlM_of_firstError (I := fun _ product => ∃ f, product = Dimension.tabulate n f) ?_ ?_ hfirst
    ⟨f, rfl⟩
  · rintro _ t _ ⟨f, rfl⟩ ht
    exact ⟨_, h.timesTerm_ok ht u.name u.span f, _, rfl⟩
  · rintro _ t product e _ hfault
    exact h.timesTerm_error hfault product

theorem addEdge_ok (h : d.Level) {edge : Edge α} (hparent : ∃ v ∈ d.units, v.name = edge.parent)
    (hchild : ∃ v ∈ d.units, v.name = edge.child) (span : Span) :
    ∃ graph, d.graph.addEdge edge span = .ok graph := by
  refine ⟨_, Graph.addEdge_eq_ok.2 ⟨?_, ?_, rfl⟩⟩
  · rw [h.names]
    exact List.mem_map.2 hparent
  · rw [h.names]
    exact List.mem_map.2 hchild

theorem define_base (h : Follows n decls classes d) (fresh : ¬ Named decls u.name)
    (hdef : u.definition = .base) :
    ∃ e graph, d.define u = .ok { d.insert e with graph } ∧ Continues n decls u e := by
  have hdefine : d.define u = .ok (d.insert
      ⟨⟨u.name, u.symbol, Dimension.base d.slots d.arity, true⟩, none⟩) := by
    rw [define, hdef]
    rfl
  refine ⟨_, _, hdefine, ⟨rfl, rfl, ?_, ?_⟩, fun word hclaims => ?_⟩
  · rw [UnitDecl.isBase, hdef]
  · rw [UnitDecl.isScaled, hdef]
    rfl
  · rw [h.slots, h.arity, Dimension.base_eq_tabulate]
    exact Dimension.tabulate_congr fun slot => (slotExponent_base fresh hdef hclaims slot).symm

theorem define_scaled (h : Follows n decls classes d) (free : d.isTaken u.name = false) {parent : String}
    {factor : α} {direction : Direction} (hdef : u.definition = .scaled parent factor direction)
    (hnamed : Named decls parent) (hfactor : Scalar.Converts factor) :
    ∃ e graph, d.define u = .ok { d.insert e with graph } ∧ Continues n decls u e := by
  obtain ⟨p, hrequire, hp⟩ := h.require_ok hnamed u.span
  obtain ⟨edge, hedge, hchild, hparent⟩ := ofFactor_of_converts hfactor u.name p.unit.name direction u.span
  let e : Entry := ⟨⟨u.name, u.symbol, p.unit.dimension, false⟩, some p.coherent⟩
  -- both ends of the edge are registered by then
  have hlevel : (d.insert e).Level := h.level.insert free
  have hold : p.unit ∈ (d.insert e).units := by
    rw [units_insert]
    exact List.mem_append_left _ (List.mem_map_of_mem (Registry.mem_of_find? hp))
  have hnew : e.unit ∈ (d.insert e).units := by
    rw [units_insert]
    exact List.mem_append_right _ (List.mem_singleton_self _)
  obtain ⟨graph, hgraph⟩ := addEdge_ok hlevel ⟨_, hold, hparent.symm⟩ ⟨_, hnew, hchild.symm⟩ u.span
  have hdefine : d.define u = .ok { d.insert e with graph } := by
    rw [define, hdef]
    change (d.require parent u.span >>= _) = _
    rw [hrequire]
    change (Edge.ofFactor u.name p.unit.name factor direction u.span >>= _) = _
    rw [hedge]
    change ((d.insert e).graph.addEdge edge u.span >>= _) = _
    rw [hgraph]
    rfl
  refine ⟨e, graph, hdefine, ⟨rfl, rfl, ?_, ?_⟩, fun word hclaims => ?_⟩
  · rw [UnitDecl.isBase, hdef]
  · rw [UnitDecl.isScaled, hdef]
    rfl
  · refine (h.dimension parent p hp).trans ?_
    exact Dimension.tabulate_congr fun slot => (slotExponent_scaled hdef hclaims slot).symm

theorem define_compound (h : Follows n decls classes d) {terms : List Term}
    (hdef : u.definition = .compound terms) (hterms : ∀ t ∈ terms, NamedUnscaled decls t.unit) :
    ∃ e graph, d.define u = .ok { d.insert e with graph } ∧ Continues n decls u e := by
  have hproduct := h.timesTerms_ok hterms u.name u.span fun _ => 0
  rw [← Dimension.none_eq_tabulate, ← h.slots] at hproduct
  have hdefine : d.define u = .ok (d.insert ⟨⟨u.name, u.symbol, .tabulate d.slots fun k =>
      0 + (terms.map fun t => slotExponent decls t.unit k * t.exponent.toInt).sum, false⟩, none⟩) := by
    rw [define, hdef]
    change (terms.foldlM (d.timesTerm u.name u.span) (Dimension.none d.slots) >>= _) = _
    rw [hproduct]
    rfl
  refine ⟨_, _, hdefine, ⟨rfl, rfl, ?_, ?_⟩, fun word hclaims => ?_⟩
  · rw [UnitDecl.isBase, hdef]
  · rw [UnitDecl.isScaled, hdef]
    rfl
  · simp only [Int.zero_add, h.slots]
    exact Dimension.tabulate_congr fun slot => (slotExponent_compound hdef hclaims slot).symm

theorem define_ok (h : Follows n decls classes d) (fresh : ¬ Named decls u.name)
    (free : d.isTaken u.name = false) (sound : u.definition.Sound decls) :
    ∃ e graph, d.define u = .ok { d.insert e with graph } ∧ Continues n decls u e := by
  cases hdef : u.definition with
  | base => exact h.define_base fresh hdef
  | scaled parent factor direction =>
    rw [hdef] at sound
    exact h.define_scaled free hdef sound.1 sound.2
  | compound terms =>
    rw [hdef] at sound
    exact h.define_compound hdef sound

theorem define_error (h : Follows n decls classes d) {e : UnitsError α}
    (hfault : UnitDecl.DefinitionFault decls u e) : d.define u = .error e := by
  cases hfault with
  | parent hdef hunknown =>
    rw [define, hdef]
    change (d.require _ u.span >>= _) = _
    rw [h.require_error hunknown]
    rfl
  | @factor parent factor direction hdef hnamed hinvalid =>
    obtain ⟨p, hrequire, _⟩ := h.require_ok hnamed u.span
    rw [define, hdef]
    change (d.require parent u.span >>= _) = _
    rw [hrequire]
    change (Edge.ofFactor u.name p.unit.name factor direction u.span >>= _) = _
    rw [ofFactor_of_not_converts hinvalid]
    rfl
  | @term terms _ hdef hfirst =>
    have hproduct := h.timesTerms_error hfirst fun _ => 0
    rw [← Dimension.none_eq_tabulate, ← h.slots] at hproduct
    rw [define, hdef]
    change (terms.foldlM (d.timesTerm u.name u.span) (Dimension.none d.slots) >>= _) = _
    rw [hproduct]
    rfl

theorem insert (h : Follows n decls [] d) (sound : u.Sound decls) {e : Entry} {graph : Graph α}
    (he : Continues n decls u e) (hlevel : Level { d.insert e with graph }) :
    Follows n (decls ++ [u]) [] { d.insert e with graph } := by
  have hentries : ({ d.insert e with graph } : Draft α).entries = d.entries ++ [e] := rfl
  have hnew (word : String) (hclaims : u.Claims word) :
      ({ d.insert e with graph } : Draft α).find? word = some e :=
    Registry.find?_of_answers hentries ((h.named word).2 (sound.fresh hclaims)) (he.answers_iff.2 hclaims)
  have hother (word : String) (hclaims : ¬ u.Claims word) :
      ({ d.insert e with graph } : Draft α).find? word = d.find? word :=
    Registry.find?_of_not_answers hentries (mt he.answers_iff.1 hclaims)
  refine ⟨hlevel, h.slots, ?_, h.classes, fun word => ?_, fun word e' he' v hv hclaims => ?_,
    fun word e' he' => ?_⟩
  · change (d.insert e).arity = _
    rw [arity_insert, h.arity, he.base, List.filter_append, List.length_append]
    cases hbase : u.isBase <;> simp [hbase]
  · rw [named_append]
    by_cases hclaims : u.Claims word
    · simp [hnew word hclaims, hclaims]
    · rw [hother word hclaims, h.named]
      simp [hclaims]
  · rcases List.mem_append.1 hv with hv | hv
    · have hnot : ¬ u.Claims word := fun hclaims' => sound.fresh hclaims' ⟨v, hv, hclaims⟩
      rw [hother word hnot] at he'
      exact h.declares word e' he' v hv hclaims
    · obtain rfl := List.mem_singleton.1 hv
      cases (hnew word hclaims).symm.trans he'
      exact he.toDeclares
  · by_cases hclaims : u.Claims word
    · cases (hnew word hclaims).symm.trans he'
      exact he.dimension word hclaims
    · rw [hother word hclaims] at he'
      rw [h.dimension word e' he']
      exact Dimension.tabulate_congr fun slot =>
        (slotExponent_of_not_claims sound.name hclaims slot).symm

theorem declareUnit_ok (h : Follows n decls [] d) (sound : u.Sound decls) :
    ∃ d', d.declareUnit u = .ok d' ∧ Follows n (decls ++ [u]) [] d' := by
  have free (word : String) (hword : ¬ Named decls word) : d.isTaken word = false := h.isTaken_eq hword (by simp)
  obtain ⟨e, graph, hdefine, he⟩ := h.define_ok sound.name (free _ sound.name) sound.definition
  have hdeclare := declareUnit_eq_ok.2 ⟨free _ sound.name, sound.symbol.imp_right (free _), hdefine⟩
  exact ⟨_, hdeclare, h.insert sound he (h.level.declareUnit hdeclare)⟩

theorem declareUnit_error (h : Follows n decls [] d) {e : UnitsError α} (hfault : u.Fault decls e) :
    d.declareUnit u = .error e := by
  have free (word : String) (hword : ¬ Named decls word) : d.isTaken word = false := h.isTaken_eq hword (by simp)
  have taken (word : String) (hword : Named decls word) : d.isTaken word = true := h.isTaken_iff.2 (.inl hword)
  cases hfault with
  | name htaken => simp [declareUnit, requireFree, taken _ htaken, bind, Except.bind]
  | symbol hname hdiffers htaken =>
    simp [declareUnit, requireFree, free _ hname, taken _ htaken, hdiffers, bind, Except.bind]
  | definition hname hsymbol hfault =>
    have hdefine := h.define_error hfault
    rcases hsymbol with hsame | hsymbol
    · simp [declareUnit, requireFree, free _ hname, hsame, hdefine, bind, Except.bind]
    · simp [declareUnit, requireFree, free _ hname, free _ hsymbol, hdefine, bind, Except.bind]

theorem sameDimension_iff (h : Follows n decls classes d) (hslots : n = (decls.filter (·.isBase)).length)
    {word' : String} {e e' : Entry} (he : d.find? word = some e) (he' : d.find? word' = some e') :
    e.unit.dimension = e'.unit.dimension ↔ SameDimension decls word word' := by
  rw [h.dimension word e he, h.dimension word' e' he', Dimension.tabulate_inj, Description.sameDimension_iff,
    hslots]
  exact Iff.rfl

theorem declareConversion_ok (h : Follows n decls [] d) (hslots : n = (decls.filter (·.isBase)).length)
    {c : ConversionDecl α} (sound : c.Sound decls) :
    ∃ d', d.declareConversion c = .ok d' ∧ Follows n decls [] d' := by
  obtain ⟨child, hchild, hfind⟩ := h.require_ok sound.child c.span
  obtain ⟨parent, hparent, hfind'⟩ := h.require_ok sound.parent c.span
  have hdim := (h.sameDimension_iff hslots hfind hfind').2 sound.dimension
  obtain ⟨edge, hedge, hends⟩ :=
    ofFactor_of_converts sound.factor child.unit.name parent.unit.name c.direction c.span
  obtain ⟨graph, hgraph⟩ := addEdge_ok h.level
    ⟨_, List.mem_map_of_mem (Registry.mem_of_find? hfind'), hends.2.symm⟩
    ⟨_, List.mem_map_of_mem (Registry.mem_of_find? hfind), hends.1.symm⟩ c.span
  have hdeclare : d.declareConversion c = .ok { d with graph } := by
    simp [declareConversion, hchild, hparent, hdim, hedge, hgraph, bind, Except.bind, pure, Except.pure]
  exact ⟨_, hdeclare, h.level.declareConversion hdeclare, h.slots, h.arity, h.classes, h.named, h.declares,
    h.dimension⟩

theorem declareConversion_error (h : Follows n decls [] d) (hslots : n = (decls.filter (·.isBase)).length)
    {c : ConversionDecl α} {e : UnitsError α} (hfault : c.Fault decls e) : d.declareConversion c = .error e := by
  cases hfault with
  | child hunknown => simp [declareConversion, h.require_error hunknown, bind, Except.bind]
  | parent hnamed hunknown =>
    obtain ⟨child, hchild, _⟩ := h.require_ok hnamed c.span
    simp [declareConversion, hchild, h.require_error hunknown, bind, Except.bind]
  | @dimension u v hu hclaims hv hclaims' hdiffers =>
    obtain ⟨child, hchild, hfind⟩ := h.require_ok ⟨u, hu, hclaims⟩ c.span
    obtain ⟨parent, hparent, hfind'⟩ := h.require_ok ⟨v, hv, hclaims'⟩ c.span
    have hdim := mt (h.sameDimension_iff hslots hfind hfind').1 hdiffers
    rw [← (h.declares _ child hfind u hu hclaims).name, ← (h.declares _ parent hfind' v hv hclaims').name]
    simp [declareConversion, hchild, hparent, hdim, bind, Except.bind, throw, throwThe, MonadExceptOf.throw]
  | factor hnamed hnamed' hsame hinvalid =>
    obtain ⟨child, hchild, hfind⟩ := h.require_ok hnamed c.span
    obtain ⟨parent, hparent, hfind'⟩ := h.require_ok hnamed' c.span
    have hdim := (h.sameDimension_iff hslots hfind hfind').2 hsame
    simp [declareConversion, hchild, hparent, hdim, ofFactor_of_not_converts hinvalid, bind, Except.bind]

theorem memberUnit_ok (h : Follows n decls classes d) (hword : Named decls word) (span : Span) :
    ∃ unit, d.memberUnit span word = .ok unit := by
  obtain ⟨e, he, _⟩ := h.require_ok hword span
  rw [memberUnit, he]
  exact ⟨e.unit, rfl⟩

theorem declareClass_ok (h : Follows n decls classes d) {k : ClassDecl} (sound : k.Sound decls classes) :
    ∃ d', d.declareClass k = .ok d' ∧ Follows n decls (classes ++ [k]) d' := by
  obtain ⟨members, hmembers⟩ :=
    exists_mapM_eq_ok fun member hmember => h.memberUnit_ok (sound.members member hmember) k.span
  have hdeclare : d.declareClass k = .ok { d with classes := d.classes ++ [(k.name, members)] } := by
    rw [declareClass_of_free (h.isTaken_eq sound.unit sound.fresh), hmembers]
    rfl
  refine ⟨_, hdeclare, h.level.declareClass hdeclare, h.slots, h.arity, ?_, h.named, h.declares, h.dimension⟩
  simp [h.classes]

theorem declareClass_error (h : Follows n decls classes d) {k : ClassDecl} {e : UnitsError α}
    (hfault : k.Fault decls classes e) : d.declareClass k = .error e := by
  cases hfault with
  | name htaken =>
    rw [declareClass, requireFree, h.isTaken_iff.2 htaken]
    rfl
  | member hunit hfresh hfirst =>
    have hmember (member : String) (e : UnitsError α) (hfault : k.MemberFault decls member e) :
        d.memberUnit k.span member = .error e := by
      cases hfault with
      | unknown hunknown =>
        rw [memberUnit, h.require_error hunknown]
        rfl
    rw [declareClass_of_free (h.isTaken_eq hunit hfresh),
      mapM_of_firstError (fun _ hnamed => h.memberUnit_ok hnamed k.span) hmember hfirst]
    rfl

end Follows

end Draft

omit [Scalar α] in
theorem cycle_of_span? {e : UnitsError α} :
    e.span? = none ↔ ∃ start target expected found, e = .inconsistentCycle start target expected found := by
  cases e <;> simp [UnitsError.span?]

variable (desc : Description α)

omit [Scalar α] in
theorem length_bases_known : (desc.known.filter (·.isBase)).length = baseCount desc := rfl

theorem units_ok (h : InTurn UnitDecl.Sound [.plain] desc.units) :
    ∃ d, desc.units.foldlM Draft.declareUnit (Draft.start (baseCount desc)) = .ok d ∧
      d.Follows (baseCount desc) desc.known [] :=
  foldlM_of_inTurn (I := fun decls d => Draft.Follows (baseCount desc) decls [] d)
    (fun _ _ _ hd sound => hd.declareUnit_ok sound) h (Draft.Follows.start _)

variable {desc}

theorem conversions_ok (h : ∀ c ∈ desc.conversions, c.Sound desc.known) {d : Draft α}
    (hd : d.Follows (baseCount desc) desc.known []) :
    ∃ d', desc.conversions.foldlM Draft.declareConversion d = .ok d' ∧
      d'.Follows (baseCount desc) desc.known [] := by
  have hsound : InTurn (fun _ c => c.Sound desc.known) [] desc.conversions := inTurn_const.2 h
  refine foldlM_of_inTurn (I := fun _ d => Draft.Follows (baseCount desc) desc.known [] d) ?_ hsound hd
  intro _ c d hd sound
  exact hd.declareConversion_ok (length_bases_known desc).symm sound

theorem draft_of_valid (h : desc.Valid) : ∃ d, draft desc = .ok d := by
  obtain ⟨units, hunits, hd⟩ := units_ok desc h.units
  obtain ⟨conversions, hconversions, hd⟩ := conversions_ok h.conversions hd
  obtain ⟨classes, hclasses, _⟩ := foldlM_of_inTurn
    (I := fun classes d => Draft.Follows (baseCount desc) desc.known classes d)
    (fun _ _ _ hd sound => hd.declareClass_ok sound) h.classes hd
  exact ⟨classes, bind_eq_ok.2 ⟨units, hunits, bind_eq_ok.2 ⟨conversions, hconversions, hclasses⟩⟩⟩

theorem draft_of_refused {e : UnitsError α} (h : desc.Refused e) : draft desc = .error e := by
  cases h with
  | unit first =>
    have hunits := foldlM_of_firstError
      (I := fun decls d => Draft.Follows (baseCount desc) decls [] d)
      (fun _ _ _ hd sound => hd.declareUnit_ok sound) (fun _ _ _ _ hd fault => hd.declareUnit_error fault)
      first (Draft.Follows.start _)
    exact bind_eq_error.2 (.inl hunits)
  | conversion hsound first =>
    obtain ⟨units, hunits, hd⟩ := units_ok desc hsound
    have hslots := (length_bases_known desc).symm
    have hconversions := foldlM_of_firstError
      (I := fun _ d => Draft.Follows (baseCount desc) desc.known [] d)
      (fun _ c _ hd (sound : c.Sound desc.known) => hd.declareConversion_ok hslots sound)
      (fun _ c _ _ hd (fault : c.Fault desc.known _) => hd.declareConversion_error hslots fault) first hd
    exact bind_eq_error.2 (.inr ⟨units, hunits, bind_eq_error.2 (.inl hconversions)⟩)
  | group hsound hsound' first =>
    obtain ⟨units, hunits, hd⟩ := units_ok desc hsound
    obtain ⟨conversions, hconversions, hd⟩ := conversions_ok hsound' hd
    have hclasses := foldlM_of_firstError
      (I := fun classes d => Draft.Follows (baseCount desc) desc.known classes d)
      (fun _ _ _ hd sound => hd.declareClass_ok sound) (fun _ _ _ _ hd fault => hd.declareClass_error fault)
      first hd
    exact bind_eq_error.2 (.inr ⟨units, hunits, bind_eq_error.2 (.inr ⟨conversions, hconversions, hclasses⟩)⟩)

theorem build_of_refused {e : UnitsError α} (h : desc.Refused e) : build desc = .error e :=
  bind_eq_error.2 (.inl (draft_of_refused h))

/-- Where all rules are kept, only a cycle of conversions is left to go wrong. -/
theorem build_of_valid (h : desc.Valid) :
    (∃ c, build desc = .ok c) ∨ ∃ e : UnitsError α, build desc = .error e ∧ e.span? = none := by
  obtain ⟨d, hd⟩ := draft_of_valid h
  cases htable : Table.build d.graph with
  | error e =>
    have hfinish : d.finish = .error e := bind_eq_error.2 (.inl htable)
    exact .inr ⟨e, bind_eq_error.2 (.inr ⟨d, hd, hfinish⟩), span?_of_table htable⟩
  | ok table =>
    have hfinish : d.finish = .ok ⟨d.toRegistry, table⟩ := bind_eq_ok.2 ⟨table, htable, rfl⟩
    exact .inl ⟨_, bind_eq_ok.2 ⟨d, hd, hfinish⟩⟩

/-- The rules are exact. A description gets a catalog, or fails over a cycle of conversions, exactly if all of
its declarations keep the rules; and any other error is the one that the rules give for the first declaration
that breaks one, at its place. -/
theorem validation_is_exact (desc : Description α) :
    (desc.Valid ↔ (∃ c : Catalog α, build desc = .ok c) ∨
      ∃ start target expected found, build desc = .error (.inconsistentCycle start target expected found)) ∧
    ∀ e, desc.Refused e ↔ build desc = .error e ∧
      ∀ start target expected found, e ≠ .inconsistentCycle start target expected found := by
  have hrefused (e : UnitsError α) (h : desc.Refused e) :
      ∀ start target expected found, e ≠ .inconsistentCycle start target expected found := by
    rintro start target expected found rfl
    exact Bool.false_ne_true h.span?_isSome
  have hvalid : desc.Valid ↔ (∃ c, build desc = .ok c) ∨
      ∃ start target expected found, build desc = .error (.inconsistentCycle start target expected found) := by
    constructor
    · intro h
      refine (build_of_valid h).imp_right ?_
      rintro ⟨e, he, hspan⟩
      obtain ⟨start, target, expected, found, rfl⟩ := cycle_of_span?.1 hspan
      exact ⟨start, target, expected, found, he⟩
    · intro h
      by_contra hnot
      obtain ⟨e, he⟩ := exists_refused hnot
      rw [build_of_refused he] at h
      rcases h with ⟨c, hc⟩ | ⟨start, target, expected, found, hcycle⟩
      · cases hc
      · exact hrefused e he start target expected found (Except.error.inj hcycle)
  refine ⟨hvalid, fun e => ⟨fun h => ⟨build_of_refused h, hrefused e h⟩, ?_⟩⟩
  rintro ⟨he, hcycle⟩
  have hnot : ¬ desc.Valid := by
    rw [hvalid, he]
    rintro (⟨c, hc⟩ | ⟨start, target, expected, found, h⟩)
    · cases hc
    · exact hcycle start target expected found (Except.error.inj h)
  obtain ⟨e', he'⟩ := exists_refused hnot
  rw [build_of_refused he', Except.error.injEq] at he
  exact he ▸ he'

-- the rules can be run: terms may name units by symbol, and scaled units may not be terms
example : ({ units := [⟨"meter", "m", .base, .none⟩, ⟨"second", "s", .base, .none⟩,
    ⟨"speed", "", .compound [⟨"m", 1⟩, ⟨"second", -1⟩], .none⟩] } : Description Rat).Valid := by
  decide +kernel

example : ¬ ({ units := [⟨"meter", "m", .base, .none⟩, ⟨"mile", "", .scaled "m" 1609 .childToParent, .none⟩,
    ⟨"acre", "", .compound [⟨"mile", 2⟩], .none⟩] } : Description Rat).Valid := by
  decide +kernel

-- 2 ^ 32 meters are counted as none
example : ({
    units := [⟨"meter", "m", .base, .none⟩, ⟨"a", "", .compound [⟨"m", 65536⟩], .none⟩,
    ⟨"b", "", .compound [⟨"a", 65536⟩], .none⟩]
    conversions := [⟨"b", "number", 5, .childToParent, .none⟩] } : Description Rat).Valid := by
  decide +kernel

end Catalog

end Metrology
