import Mathlib.Algebra.Ring.Int.Defs
import Metrology.Proofs.Catalog.Unscaled

/-! The rules of a description. What a declaration may say depends on the declarations before it and on nothing
else: on the words that they take, and on the base units that they come down to. -/
namespace Metrology

section Order

variable {γ ε : Type}

/-- Every declaration keeps the rules, given those before it. -/
def InTurn (Sound : List γ → γ → Prop) : List γ → List γ → Prop
  | _, [] => True
  | earlier, decl :: rest => Sound earlier decl ∧ InTurn Sound (earlier ++ [decl]) rest

/-- The error of the first declaration that breaks a rule. -/
inductive FirstError (Sound : List γ → γ → Prop) (Fault : List γ → γ → ε → Prop) :
    List γ → List γ → ε → Prop
  | here {earlier : List γ} {decl : γ} {rest : List γ} {e : ε} (fault : Fault earlier decl e) :
    FirstError Sound Fault earlier (decl :: rest) e
  | later {earlier : List γ} {decl : γ} {rest : List γ} {e : ε} (sound : Sound earlier decl)
    (first : FirstError Sound Fault (earlier ++ [decl]) rest e) :
    FirstError Sound Fault earlier (decl :: rest) e

variable {Sound : List γ → γ → Prop} {Fault : List γ → γ → ε → Prop}

instance InTurn.decidable [∀ earlier decl, Decidable (Sound earlier decl)] :
    ∀ earlier decls, Decidable (InTurn Sound earlier decls)
  | _, [] => inferInstanceAs (Decidable True)
  | earlier, decl :: rest =>
    have := InTurn.decidable (earlier ++ [decl]) rest
    inferInstanceAs (Decidable (_ ∧ _))

theorem inTurn_const {P : γ → Prop} {earlier decls : List γ} :
    InTurn (fun _ => P) earlier decls ↔ ∀ decl ∈ decls, P decl := by
  induction decls generalizing earlier with
  | nil => simp [InTurn]
  | cons decl rest ih => simp [InTurn, ih]

theorem FirstError.fault {earlier decls : List γ} {e : ε} (h : FirstError Sound Fault earlier decls e) :
    ∃ before, ∃ decl ∈ decls, Fault before decl e := by
  induction h with
  | @here earlier decl _ _ fault => exact ⟨earlier, decl, List.mem_cons_self, fault⟩
  | later _ _ ih =>
    obtain ⟨before, decl, hdecl, fault⟩ := ih
    exact ⟨before, decl, List.mem_cons_of_mem _ hdecl, fault⟩

theorem firstError_of_not_inTurn (faulty : ∀ earlier decl, ¬ Sound earlier decl → ∃ e, Fault earlier decl e)
    {earlier decls : List γ} (h : ¬ InTurn Sound earlier decls) :
    ∃ e, FirstError Sound Fault earlier decls e := by
  induction decls generalizing earlier with
  | nil => exact (h trivial).elim
  | cons decl rest ih =>
    by_cases hsound : Sound earlier decl
    · obtain ⟨e, he⟩ := ih fun hrest => h ⟨hsound, hrest⟩
      exact ⟨e, .later hsound he⟩
    · obtain ⟨e, he⟩ := faulty earlier decl hsound
      exact ⟨e, .here he⟩

variable {β : Type}

/-- Where sound declarations are taken in, all of them are. -/
theorem foldlM_of_inTurn {f : β → γ → Except ε β} {I : List γ → β → Prop}
    (step : ∀ earlier x b, I earlier b → Sound earlier x → ∃ b', f b x = .ok b' ∧ I (earlier ++ [x]) b')
    {earlier xs : List γ} {b : β} (h : InTurn Sound earlier xs) (hb : I earlier b) :
    ∃ b', xs.foldlM f b = .ok b' ∧ I (earlier ++ xs) b' := by
  induction xs generalizing earlier b with
  | nil => exact ⟨b, rfl, by rwa [List.append_nil]⟩
  | cons x xs ih =>
    obtain ⟨b₁, hx, hb₁⟩ := step earlier x b hb h.1
    obtain ⟨b', hxs, hb'⟩ := ih h.2 hb₁
    rw [List.append_assoc] at hb'
    exact ⟨b', Fallible.foldlM_cons_eq_ok.2 ⟨b₁, hx, hxs⟩, hb'⟩

/-- Where faults are reported, the first one ends the run. -/
theorem foldlM_of_firstError {f : β → γ → Except ε β} {I : List γ → β → Prop}
    (step : ∀ earlier x b, I earlier b → Sound earlier x → ∃ b', f b x = .ok b' ∧ I (earlier ++ [x]) b')
    (fault : ∀ earlier x b e, I earlier b → Fault earlier x e → f b x = .error e)
    {earlier xs : List γ} {b : β} {e : ε} (h : FirstError Sound Fault earlier xs e) (hb : I earlier b) :
    xs.foldlM f b = .error e := by
  induction h generalizing b with
  | @here earlier x xs e hfault =>
    rw [List.foldlM_cons, fault earlier x b e hb hfault]
    rfl
  | @later earlier x xs e hsound _ ih =>
    obtain ⟨b₁, hx, hb₁⟩ := step earlier x b hb hsound
    rw [List.foldlM_cons, hx]
    exact ih hb₁

theorem mapM_of_firstError {f : γ → Except ε β} {S : γ → Prop} {F : γ → ε → Prop}
    (sound : ∀ x, S x → ∃ y, f x = .ok y) (fault : ∀ x e, F x e → f x = .error e) {earlier xs : List γ} {e : ε}
    (h : FirstError (fun _ => S) (fun _ => F) earlier xs e) : xs.mapM f = .error e := by
  induction h with
  | @here _ x _ e hfault =>
    rw [List.mapM_cons, fault x e hfault]
    rfl
  | @later _ x _ _ hsound _ ih =>
    obtain ⟨y, hy⟩ := sound x hsound
    rw [List.mapM_cons, hy, ih]
    rfl

end Order

def Scalar.Converts {α : Type} [Scalar α] (factor : α) : Prop :=
  isFinite factor = true ∧ le factor 0 = false

instance {α : Type} [Scalar α] (factor : α) : Decidable (Scalar.Converts factor) :=
  inferInstanceAs (Decidable (_ ∧ _))

example (factor : Rat) : Scalar.Converts factor ↔ 0 < factor := by
  simp only [Scalar.Converts, Scalar.isFinite, Scalar.le, true_and, decide_eq_false_iff_not, Rat.not_le]

namespace Description

variable {α : Type}

namespace UnitDecl

def plain : UnitDecl α := ⟨"number", "", .compound [], .none⟩

/-- A unit takes its name and, unless it has none, its symbol. -/
def Claims (u : UnitDecl α) (word : String) : Prop := u.name = word ∨ u.symbol ≠ "" ∧ u.symbol = word

instance (u : UnitDecl α) (word : String) : Decidable (u.Claims word) :=
  inferInstanceAs (Decidable (_ ∨ _))

end UnitDecl

def Named (units : List (UnitDecl α)) (word : String) : Prop := ∃ u ∈ units, u.Claims word

def NamedUnscaled (units : List (UnitDecl α)) (word : String) : Prop :=
  ∃ u ∈ units, u.Claims word ∧ u.isScaled = false

instance (units : List (UnitDecl α)) (word : String) : Decidable (Named units word) :=
  inferInstanceAs (Decidable (∃ u ∈ units, _))

instance (units : List (UnitDecl α)) (word : String) : Decidable (NamedUnscaled units word) :=
  inferInstanceAs (Decidable (∃ u ∈ units, _))

/-- How often a base unit goes into the unit that a word stands for. The newest declaration comes first. -/
def exponent (base : String) : List (UnitDecl α) → String → Int
  | [], _ => 0
  | u :: earlier, word =>
    if u.Claims word then
      match u.definition with
      | .base => if u.name = base then 1 else 0
      | .scaled parent _ _ => exponent base earlier parent
      | .compound terms => (terms.map fun t => exponent base earlier t.unit * t.exponent.toInt).sum
    else exponent base earlier word

/-- Two words stand for units that come down to the same base units, as far as 32 bits can tell. -/
def SameDimension (units : List (UnitDecl α)) (word word' : String) : Prop :=
  ∀ u ∈ units, u.isBase = true →
    Int32.ofInt (exponent u.name units.reverse word) = Int32.ofInt (exponent u.name units.reverse word')

instance (units : List (UnitDecl α)) (word word' : String) : Decidable (SameDimension units word word') :=
  inferInstanceAs (Decidable (∀ u ∈ units, _ → _))

namespace ClassDecl

structure Sound (units : List (UnitDecl α)) (earlier : List ClassDecl) (k : ClassDecl) : Prop where
  unit : ¬ Named units k.name
  fresh : ∀ k' ∈ earlier, k'.name ≠ k.name
  members : ∀ member ∈ k.members, Named units member

instance (units : List (UnitDecl α)) (earlier : List ClassDecl) (k : ClassDecl) :
    Decidable (k.Sound units earlier) :=
  decidable_of_iff (¬ Named units k.name ∧ (∀ k' ∈ earlier, k'.name ≠ k.name) ∧
    ∀ member ∈ k.members, Named units member)
    ⟨fun h => ⟨h.1, h.2.1, h.2.2⟩, fun h => ⟨h.unit, h.fresh, h.members⟩⟩

inductive MemberFault (units : List (UnitDecl α)) (k : ClassDecl) (member : String) : UnitsError α → Prop
  | unknown (unknown : ¬ Named units member) : MemberFault units k member (.unknownUnit member k.span)

/-- What is wrong with a class. Its name comes before its members. -/
inductive Fault (units : List (UnitDecl α)) (earlier : List ClassDecl) (k : ClassDecl) : UnitsError α → Prop
  | name (taken : Named units k.name ∨ ∃ k' ∈ earlier, k'.name = k.name) :
    Fault units earlier k (.duplicateUnit k.name k.span)
  | member {e : UnitsError α} (unit : ¬ Named units k.name) (fresh : ∀ k' ∈ earlier, k'.name ≠ k.name)
    (first : FirstError (fun _ => Named units) (fun _ => MemberFault units k) [] k.members e) :
    Fault units earlier k e

variable {units : List (UnitDecl α)} {earlier : List ClassDecl} {k : ClassDecl}

theorem Fault.span?_eq {e : UnitsError α} (h : k.Fault units earlier e) : e.span? = some k.span := by
  cases h with
  | name _ => rfl
  | member _ _ first =>
    obtain ⟨_, _, _, fault⟩ := first.fault
    cases fault
    rfl

theorem exists_fault (h : ¬ k.Sound units earlier) : ∃ e, k.Fault units earlier e := by
  by_cases hunit : Named units k.name
  · exact ⟨_, .name (.inl hunit)⟩
  by_cases hfresh : ∀ k' ∈ earlier, k'.name ≠ k.name
  · have hmembers : ¬ InTurn (fun _ => Named units) [] k.members := fun hmembers =>
      h ⟨hunit, hfresh, inTurn_const.1 hmembers⟩
    have hfirst : ∃ e, FirstError (fun _ => Named units) (fun _ => MemberFault units k) [] k.members e :=
      firstError_of_not_inTurn (fun _ _ hmember => ⟨_, .unknown hmember⟩) hmembers
    obtain ⟨e, he⟩ := hfirst
    exact ⟨e, .member hunit hfresh he⟩
  · push Not at hfresh
    exact ⟨_, .name (.inr hfresh)⟩

end ClassDecl

variable [Scalar α]

def Definition.Sound (earlier : List (UnitDecl α)) : Definition α → Prop
  | .base => True
  | .scaled parent factor _ => Named earlier parent ∧ Scalar.Converts factor
  | .compound terms => ∀ t ∈ terms, NamedUnscaled earlier t.unit

instance (earlier : List (UnitDecl α)) : ∀ definition, Decidable (Definition.Sound earlier definition)
  | .base => inferInstanceAs (Decidable True)
  | .scaled _ _ _ => inferInstanceAs (Decidable (_ ∧ _))
  | .compound terms => inferInstanceAs (Decidable (∀ t ∈ terms, _))

namespace UnitDecl

/-- What a unit may say after others. A symbol may repeat the name. -/
structure Sound (earlier : List (UnitDecl α)) (u : UnitDecl α) : Prop where
  name : ¬ Named earlier u.name
  symbol : u.symbol = u.name ∨ ¬ Named earlier u.symbol
  definition : u.definition.Sound earlier

instance (earlier : List (UnitDecl α)) (u : UnitDecl α) : Decidable (u.Sound earlier) :=
  decidable_of_iff (¬ Named earlier u.name ∧ (u.symbol = u.name ∨ ¬ Named earlier u.symbol) ∧
    u.definition.Sound earlier)
    ⟨fun h => ⟨h.1, h.2.1, h.2.2⟩, fun h => ⟨h.name, h.symbol, h.definition⟩⟩

inductive TermFault (earlier : List (UnitDecl α)) (u : UnitDecl α) (t : Term) : UnitsError α → Prop
  | unknown (unknown : ¬ Named earlier t.unit) : TermFault earlier u t (.unknownUnit t.unit u.span)
  | scaled (named : Named earlier t.unit) (scaled : ¬ NamedUnscaled earlier t.unit) :
    TermFault earlier u t (.incoherentCompound u.name t.unit u.span)

inductive DefinitionFault (earlier : List (UnitDecl α)) (u : UnitDecl α) : UnitsError α → Prop
  | parent {parent : String} {factor : α} {direction : Direction}
    (definition : u.definition = .scaled parent factor direction) (unknown : ¬ Named earlier parent) :
    DefinitionFault earlier u (.unknownUnit parent u.span)
  | factor {parent : String} {factor : α} {direction : Direction}
    (definition : u.definition = .scaled parent factor direction) (named : Named earlier parent)
    (invalid : ¬ Scalar.Converts factor) : DefinitionFault earlier u (.invalidFactor factor u.span)
  | term {terms : List Term} {e : UnitsError α} (definition : u.definition = .compound terms)
    (first : FirstError (fun _ t => NamedUnscaled earlier t.unit) (fun _ => TermFault earlier u) [] terms e) :
    DefinitionFault earlier u e

/-- What is wrong with a unit. Its words come before its definition. -/
inductive Fault (earlier : List (UnitDecl α)) (u : UnitDecl α) : UnitsError α → Prop
  | name (taken : Named earlier u.name) : Fault earlier u (.duplicateUnit u.name u.span)
  | symbol (name : ¬ Named earlier u.name) (differs : u.symbol ≠ u.name) (taken : Named earlier u.symbol) :
    Fault earlier u (.duplicateUnit u.symbol u.span)
  | definition {e : UnitsError α} (name : ¬ Named earlier u.name)
    (symbol : u.symbol = u.name ∨ ¬ Named earlier u.symbol) (fault : DefinitionFault earlier u e) :
    Fault earlier u e

variable {earlier : List (UnitDecl α)} {u : UnitDecl α}

theorem Sound.fresh (sound : u.Sound earlier) {word : String} (h : u.Claims word) : ¬ Named earlier word := by
  rcases h with rfl | ⟨_, rfl⟩
  · exact sound.name
  · rcases sound.symbol with hsame | hsymbol
    · rw [hsame]
      exact sound.name
    · exact hsymbol

theorem Fault.span?_eq {e : UnitsError α} (h : u.Fault earlier e) : e.span? = some u.span := by
  cases h with
  | name _ | symbol _ _ _ => rfl
  | definition _ _ fault =>
    cases fault with
    | parent _ _ | factor _ _ _ => rfl
    | term _ first =>
      obtain ⟨_, t, _, fault⟩ := first.fault
      cases fault <;> rfl

omit [Scalar α] in
theorem exists_termFault {t : Term} (h : ¬ NamedUnscaled earlier t.unit) : ∃ e, TermFault earlier u t e := by
  by_cases hnamed : Named earlier t.unit
  · exact ⟨_, .scaled hnamed h⟩
  · exact ⟨_, .unknown hnamed⟩

theorem exists_definitionFault (h : ¬ u.definition.Sound earlier) : ∃ e, DefinitionFault earlier u e := by
  cases hdef : u.definition with
  | base => exact (h (hdef ▸ trivial)).elim
  | scaled parent factor direction =>
    rw [hdef] at h
    by_cases hnamed : Named earlier parent
    · exact ⟨_, .factor hdef hnamed fun hfactor => h ⟨hnamed, hfactor⟩⟩
    · exact ⟨_, .parent hdef hnamed⟩
  | compound terms =>
    rw [hdef] at h
    have hterms : ¬ InTurn (fun _ t => NamedUnscaled earlier t.unit) [] terms := fun hterms =>
      h (inTurn_const.1 hterms)
    obtain ⟨e, he⟩ := firstError_of_not_inTurn (fun _ _ ht => exists_termFault ht) hterms
    exact ⟨e, .term hdef he⟩

theorem exists_fault (h : ¬ u.Sound earlier) : ∃ e, u.Fault earlier e := by
  by_cases hname : Named earlier u.name
  · exact ⟨_, .name hname⟩
  by_cases hsymbol : u.symbol = u.name ∨ ¬ Named earlier u.symbol
  · obtain ⟨e, he⟩ := exists_definitionFault fun hdef => h ⟨hname, hsymbol, hdef⟩
    exact ⟨e, .definition hname hsymbol he⟩
  · push Not at hsymbol
    exact ⟨_, .symbol hname hsymbol.1 hsymbol.2⟩

end UnitDecl

namespace ConversionDecl

structure Sound (units : List (UnitDecl α)) (c : ConversionDecl α) : Prop where
  child : Named units c.child
  parent : Named units c.parent
  dimension : SameDimension units c.child c.parent
  factor : Scalar.Converts c.factor

instance (units : List (UnitDecl α)) (c : ConversionDecl α) : Decidable (c.Sound units) :=
  decidable_of_iff (Named units c.child ∧ Named units c.parent ∧ SameDimension units c.child c.parent ∧
    Scalar.Converts c.factor)
    ⟨fun h => ⟨h.1, h.2.1, h.2.2.1, h.2.2.2⟩, fun h => ⟨h.child, h.parent, h.dimension, h.factor⟩⟩

inductive Fault (units : List (UnitDecl α)) (c : ConversionDecl α) : UnitsError α → Prop
  | child (unknown : ¬ Named units c.child) : Fault units c (.unknownUnit c.child c.span)
  | parent (child : Named units c.child) (unknown : ¬ Named units c.parent) :
    Fault units c (.unknownUnit c.parent c.span)
  | dimension {u v : UnitDecl α} (hu : u ∈ units) (child : u.Claims c.child) (hv : v ∈ units)
    (parent : v.Claims c.parent) (differs : ¬ SameDimension units c.child c.parent) :
    Fault units c (.dimensionMismatch u.name v.name c.span)
  | factor (child : Named units c.child) (parent : Named units c.parent)
    (dimension : SameDimension units c.child c.parent) (invalid : ¬ Scalar.Converts c.factor) :
    Fault units c (.invalidFactor c.factor c.span)

variable {units : List (UnitDecl α)} {c : ConversionDecl α}

theorem Fault.span?_eq {e : UnitsError α} (h : c.Fault units e) : e.span? = some c.span := by
  cases h <;> rfl

theorem exists_fault (h : ¬ c.Sound units) : ∃ e, c.Fault units e := by
  by_cases hchild : Named units c.child
  · by_cases hparent : Named units c.parent
    · by_cases hdim : SameDimension units c.child c.parent
      · exact ⟨_, .factor hchild hparent hdim fun hfactor => h ⟨hchild, hparent, hdim, hfactor⟩⟩
      · obtain ⟨u, hu, hclaims⟩ := hchild
        obtain ⟨v, hv, hclaims'⟩ := hparent
        exact ⟨_, .dimension hu hclaims hv hclaims' hdim⟩
    · exact ⟨_, .parent hchild hparent⟩
  · exact ⟨_, .child hchild⟩

end ConversionDecl

def known (desc : Description α) : List (UnitDecl α) := .plain :: desc.units

structure Valid (desc : Description α) : Prop where
  units : InTurn UnitDecl.Sound [.plain] desc.units
  conversions : ∀ c ∈ desc.conversions, c.Sound desc.known
  classes : InTurn (ClassDecl.Sound desc.known) [] desc.classes

instance (desc : Description α) : Decidable desc.Valid :=
  decidable_of_iff (InTurn UnitDecl.Sound [.plain] desc.units ∧
    (∀ c ∈ desc.conversions, c.Sound desc.known) ∧ InTurn (ClassDecl.Sound desc.known) [] desc.classes)
    ⟨fun h => ⟨h.1, h.2.1, h.2.2⟩, fun h => ⟨h.units, h.conversions, h.classes⟩⟩

/-- The error of the first declaration that breaks a rule: of the units in order, then of the conversions,
then of the classes. -/
inductive Refused (desc : Description α) (e : UnitsError α) : Prop
  | unit (first : FirstError UnitDecl.Sound UnitDecl.Fault [.plain] desc.units e)
  | conversion (units : InTurn UnitDecl.Sound [.plain] desc.units)
    (first : FirstError (fun _ => ConversionDecl.Sound desc.known) (fun _ => ConversionDecl.Fault desc.known)
      [] desc.conversions e)
  | group (units : InTurn UnitDecl.Sound [.plain] desc.units)
    (conversions : ∀ c ∈ desc.conversions, c.Sound desc.known)
    (first : FirstError (ClassDecl.Sound desc.known) (ClassDecl.Fault desc.known) [] desc.classes e)

variable {desc : Description α}

theorem Refused.span?_isSome {e : UnitsError α} (h : desc.Refused e) : e.span?.isSome = true := by
  cases h with
  | unit first | conversion _ first | group _ _ first =>
    obtain ⟨_, _, _, fault⟩ := first.fault
    rw [fault.span?_eq]
    rfl

theorem exists_refused (h : ¬ desc.Valid) : ∃ e, desc.Refused e := by
  by_cases hunits : InTurn UnitDecl.Sound [.plain] desc.units
  · by_cases hconversions : ∀ c ∈ desc.conversions, c.Sound desc.known
    · have hclasses : ¬ InTurn (ClassDecl.Sound desc.known) [] desc.classes := fun hclasses =>
        h ⟨hunits, hconversions, hclasses⟩
      obtain ⟨e, he⟩ := firstError_of_not_inTurn (fun _ _ => ClassDecl.exists_fault) hclasses
      exact ⟨e, .group hunits hconversions he⟩
    · rw [← inTurn_const] at hconversions
      obtain ⟨e, he⟩ := firstError_of_not_inTurn (fun _ _ => ConversionDecl.exists_fault) hconversions
      exact ⟨e, .conversion hunits he⟩
  · obtain ⟨e, he⟩ := firstError_of_not_inTurn (fun _ _ => UnitDecl.exists_fault) hunits
    exact ⟨e, .unit he⟩

end Description

end Metrology
