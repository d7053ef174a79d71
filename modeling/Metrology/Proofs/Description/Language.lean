import Metrology.Proofs.Description.Grammar

/-! The languages of a reader. Each stage of the reader has one: what may still stand before the semicolon of
the open declaration. A step takes the language of its stage to the derivative by the token, and at the
semicolon it adds the declaration that is complete. -/
namespace Metrology.Description

open Token (Kind SyntaxError)

theorem exponentOf?_eq_some {value : Float} {n : Int32} : exponentOf? value = some n ↔ IsExponent value n := by
  simp only [exponentOf?, Option.map_eq_some_iff, Option.filter_eq_some_iff, decide_eq_true_iff, and_assoc,
    @eq_comm _ _ n]
  exact Iff.rfl

theorem IsExponent.unique {value : Float} {n m : Int32} (hn : IsExponent value n) (hm : IsExponent value m) :
    n = m := by
  rw [← exponentOf?_eq_some] at hn hm
  exact Option.some.inj (hn.symm.trans hm)

namespace Stage

def start? : Stage → Option Span
  | top => none
  | name start _ | symbol start _ _ | definition start _ _ | direction start _ | parent start _ _
  | colon start _ _ _ | factor start _ _ _ | term start _ | power start _ _ | signedExponent start _ _
  | exponent start _ _ | exponentEnd start _ _ _ _ _ | classColon start _ | member start _ _
  | memberEnd start _ _ | close start _ => some start

/-- What may stand before the next semicolon, and the declaration that it completes. -/
def Awaits : Stage → List Kind → Body → Prop
  | top, ks, body => IsDecl ks body
  | name _ word, ks, body => IsDecl (.keyword word :: ks) body
  | symbol _ isBase ident, ks, body =>
    IsDecl (.keyword (if isBase then .base else .unit) :: .identifier ident :: ks) body
  | definition _ ident text, ks, body =>
    IsDecl (.keyword .unit :: .identifier ident :: .symbol text :: ks) body
  | direction _ child, ks, body => IsDecl (.keyword .convert :: .identifier child :: ks) body
  | parent _ scale dir, ks, body => ∃ unit value,
    ks = [.identifier unit, .colon, .number value] ∧ body = scale.body unit value dir
  | colon _ scale dir unit, ks, body => ∃ value,
    ks = [.colon, .number value] ∧ body = scale.body unit value dir
  | factor _ scale dir unit, ks, body => ∃ value, ks = [.number value] ∧ body = scale.body unit value dir
  | term _ p, ks, body => p.Next ks body
  | power _ p unit, ks, body => p.Next (.identifier unit :: ks) body
  | signedExponent _ p unit, ks, body => p.Next (.identifier unit :: .caret :: ks) body
  | exponent _ p unit, ks, body => p.Next (.identifier unit :: .caret :: .minus :: ks) body
  | exponentEnd _ p unit negative value _, ks, body =>
    ∃ n, IsExponent value n ∧ (p.push unit (if negative then -n else n)).More ks body
  | classColon _ ident, ks, body => IsDecl (.keyword .unitClass :: .identifier ident :: ks) body
  | member _ ident before, ks, body => ∃ unit rest behind, ks = .identifier unit :: rest ∧
    IsMembers rest behind ∧ body = .unitClass ident (before ++ unit :: behind)
  | memberEnd _ ident before, ks, body => ∃ behind,
    IsMembers ks behind ∧ body = .unitClass ident (before ++ behind)
  | close _ found, ks, body => ks = [] ∧ body = found

theorem awaits_exponentEnd {start place : Span} {p : Product} {unit : String} {negative : Bool}
    {value : Float} {n : Int32} {ks : List Kind} {body : Body} (hn : IsExponent value n) :
    (exponentEnd start p unit negative value place).Awaits ks body ↔
      (p.push unit (if negative then -n else n)).More ks body := by
  constructor
  · rintro ⟨m, hm, hmore⟩
    rwa [hn.unique hm]
  · intro hmore
    exact ⟨n, hn, hmore⟩

theorem not_awaits_exponentEnd {start place : Span} {p : Product} {unit : String} {negative : Bool}
    {value : Float} {ks : List Kind} {body : Body} (hn : exponentOf? value = none) :
    ¬ (exponentEnd start p unit negative value place).Awaits ks body := by
  rintro ⟨n, hexponent, _⟩
  rw [exponentOf?_eq_some.2 hexponent] at hn
  cases hn

/-- A declaration does not run on past a semicolon. -/
theorem not_awaits_semicolon {s : Stage} {ks : List Kind} {body : Body} :
    ¬ s.Awaits (.semicolon :: ks) body := by
  intro h
  cases s
  case term p =>
    obtain ⟨unit, rest, hks⟩ := Product.Next.identifier h
    cases hks
  case power p unit =>
    rcases ((Product.next_plain (by simp)).1 h).operator with hk | hk <;> cases hk
  case signedExponent | exponent => simp [Awaits, Product.next_caret] at h
  case exponentEnd =>
    obtain ⟨n, _, hmore⟩ := h
    rcases hmore.operator with hk | hk <;> cases hk
  case symbol isBase ident => cases isBase <;> cases h
  case memberEnd ident before => obtain ⟨behind, ⟨⟩, _⟩ := h
  case parent | colon | factor | member | close => simp [Awaits] at h
  case definition ident text => obtain _ | _ | ⟨⟨⟩⟩ := h
  case direction child => obtain _ | _ | _ | ⟨⟨⟩⟩ := h
  case top | name | classColon => cases h

end Stage

/-- What a step before the semicolon must do: go on to the derivative of a language, or refuse a token that
nothing in the language starts with. -/
def Derives (language : List Kind → Body → Prop) (start : Span) (d : Description Float) (k : Kind) :
    Except SyntaxError Reader → Prop
  | .ok r => r.description = d ∧ r.stage.start? = some start ∧
      ∀ ks body, r.stage.Awaits ks body ↔ language (k :: ks) body
  | .error _ => ∀ ks body, ¬ language (k :: ks) body

theorem Derives.congr {language language' : List Kind → Body → Prop} {start : Span} {d : Description Float}
    {k : Kind} {result : Except SyntaxError Reader} (h : Derives language start d k result)
    (heq : ∀ ks body, language (k :: ks) body ↔ language' (k :: ks) body) :
    Derives language' start d k result := by
  cases result with
  | ok r => exact ⟨h.1, h.2.1, fun ks body => (h.2.2 ks body).trans (heq ks body)⟩
  | error e => exact fun ks body => mt (heq ks body).2 (h ks body)

/-- What a step at the semicolon must do: add the one declaration that is complete, or refuse it. -/
def Ends (language : List Kind → Body → Prop) (start : Span) (d : Description Float) (semicolon : Span) :
    Except SyntaxError Reader → Prop
  | .ok r => ∃ body, (∀ body', language [] body' ↔ body' = body) ∧
      r = ⟨.top, d.add body (start.merge semicolon)⟩
  | .error _ => ∀ body, ¬ language [] body

theorem Ends.congr {language language' : List Kind → Body → Prop} {start semicolon : Span}
    {d : Description Float} {result : Except SyntaxError Reader} (h : Ends language start d semicolon result)
    (heq : ∀ body, language [] body ↔ language' [] body) : Ends language' start d semicolon result := by
  cases result with
  | ok r =>
    obtain ⟨body, hbody, hr⟩ := h
    exact ⟨body, fun body' => (heq body').symm.trans (hbody body'), hr⟩
  | error e => exact fun body => mt (heq body).2 (h body)

namespace Reader

variable {d : Description Float} {start : Span} {stage : Stage} {t : Token}

theorem afterTerm_derives (p : Product) (ht : t.kind ≠ .semicolon) :
    Derives p.More start d t.kind (afterTerm ⟨stage, d⟩ start p t) := by
  obtain ⟨k, span⟩ := t
  unfold afterTerm
  split
  · next hk =>
    cases hk
    exact ⟨rfl, rfl, fun ks body => Product.more_star.symm⟩
  · next hk =>
    cases hk
    exact ⟨rfl, rfl, fun ks body => Product.more_slash.symm⟩
  · contradiction
  · next hstar hslash _ =>
    intro ks body h
    rcases h.operator with hk | hk
    · exact hstar hk
    · exact hslash hk

theorem afterTerm_ends (p : Product) (ht : t.kind = .semicolon) :
    Ends p.More start d t.span (afterTerm ⟨stage, d⟩ start p t) := by
  simp only [afterTerm, ht]
  exact ⟨p.body, fun _ => Product.more_nil, rfl⟩

theorem definition_derives (ident text : String) :
    Derives (Stage.definition start ident text).Awaits start d t.kind
      (step ⟨.definition start ident text, d⟩ t) := by
  obtain ⟨k, span⟩ := t
  unfold step
  dsimp only
  split
  · exact ⟨rfl, rfl, fun ks body => isDecl_compound_iff.symm⟩
  · exact ⟨rfl, rfl, fun ks body => (isDecl_scaled_iff .arrow).symm⟩
  · exact ⟨rfl, rfl, fun ks body => (isDecl_scaled_iff .backArrow).symm⟩
  · next hequals harrow hback =>
    rintro ks body (_ | _ | ⟨⟨⟩⟩)
    · exact hequals rfl
    · exact harrow rfl
    · exact hback rfl

theorem direction_derives (child : String) :
    Derives (Stage.direction start child).Awaits start d t.kind (step ⟨.direction start child, d⟩ t) := by
  obtain ⟨k, span⟩ := t
  unfold step
  dsimp only
  split
  · exact ⟨rfl, rfl, fun ks body => (isDecl_conversion_iff .arrow).symm⟩
  · exact ⟨rfl, rfl, fun ks body => (isDecl_conversion_iff .backArrow).symm⟩
  · next harrow hback =>
    rintro ks body (_ | _ | _ | ⟨⟨⟩⟩)
    · exact harrow rfl
    · exact hback rfl

theorem power_derives (p : Product) (unit : String) (ht : t.kind ≠ .semicolon) :
    Derives (Stage.power start p unit).Awaits start d t.kind (step ⟨.power start p unit, d⟩ t) := by
  obtain ⟨k, span⟩ := t
  unfold step
  dsimp only
  split
  · exact ⟨rfl, rfl, fun ks body => Iff.rfl⟩
  · next hk =>
    refine (afterTerm_derives _ ht).congr ?_
    intro ks body
    exact (Product.next_plain (by simpa using hk)).symm

theorem signedExponent_derives (p : Product) (unit : String) :
    Derives (Stage.signedExponent start p unit).Awaits start d t.kind
      (step ⟨.signedExponent start p unit, d⟩ t) := by
  obtain ⟨k, span⟩ := t
  unfold step
  dsimp only
  split
  · exact ⟨rfl, rfl, fun ks body => Iff.rfl⟩
  · exact ⟨rfl, rfl, fun ks body => Product.next_power.symm⟩
  · next hminus hnumber =>
    intro ks body h
    rcases Product.next_caret.1 h with ⟨_, _, ⟨⟩, _⟩ | ⟨_, _, ⟨⟩, _⟩
    · exact hnumber _ rfl
    · exact hminus rfl

theorem exponent_derives (p : Product) (unit : String) :
    Derives (Stage.exponent start p unit).Awaits start d t.kind (step ⟨.exponent start p unit, d⟩ t) := by
  obtain ⟨k, span⟩ := t
  unfold step
  dsimp only
  split
  · exact ⟨rfl, rfl, fun ks body => Product.next_inverse.symm⟩
  · next hk =>
    intro ks body h
    rcases Product.next_caret.1 h with ⟨_, _, ⟨⟩, _⟩ | ⟨_, _, ⟨⟩, _⟩
    exact hk _ rfl

theorem exponentEnd_derives (p : Product) (unit : String) (negative : Bool) (value : Float) (place : Span)
    (ht : t.kind ≠ .semicolon) :
    Derives (Stage.exponentEnd start p unit negative value place).Awaits start d t.kind
      (step ⟨.exponentEnd start p unit negative value place, d⟩ t) := by
  unfold step
  dsimp only
  split
  · next n hn =>
    refine (afterTerm_derives _ ht).congr ?_
    intro ks body
    exact (Stage.awaits_exponentEnd (exponentOf?_eq_some.1 hn)).symm
  · next hn =>
    intro ks body h
    exact Stage.not_awaits_exponentEnd hn h

theorem memberEnd_derives (ident : String) (before : List String) (ht : t.kind ≠ .semicolon) :
    Derives (Stage.memberEnd start ident before).Awaits start d t.kind
      (step ⟨.memberEnd start ident before, d⟩ t) := by
  obtain ⟨k, span⟩ := t
  unfold step
  dsimp only
  split
  · refine ⟨rfl, rfl, fun ks body => ?_⟩
    constructor
    · rintro ⟨unit, rest, behind, rfl, hmembers, rfl⟩
      exact ⟨unit :: behind, .cons hmembers, rfl⟩
    · rintro ⟨behind, hmembers, rfl⟩
      cases hmembers with
      | cons hrest => exact ⟨_, _, _, rfl, hrest, rfl⟩
  · contradiction
  · next hk _ =>
    rintro ks body ⟨behind, ⟨⟩, _⟩
    exact hk rfl

theorem step_derives (hs : stage.start? = some start) (ht : t.kind ≠ .semicolon) :
    Derives stage.Awaits start d t.kind (step ⟨stage, d⟩ t) := by
  obtain ⟨k, span⟩ := t
  cases stage <;> cases hs
  case definition ident text => exact definition_derives ident text
  case direction child => exact direction_derives child
  case power p unit => exact power_derives p unit ht
  case signedExponent p unit => exact signedExponent_derives p unit
  case exponent p unit => exact exponent_derives p unit
  case exponentEnd p unit negative value place => exact exponentEnd_derives p unit negative value place ht
  case memberEnd ident before => exact memberEnd_derives ident before ht
  -- the other stages wait for one sort of token
  all_goals
    unfold step
    dsimp only
  case name word =>
    split
    · cases word <;> exact ⟨rfl, rfl, fun ks body => Iff.rfl⟩
    · next hk =>
      intro ks body h
      cases h <;> exact hk _ rfl
  case symbol isBase ident =>
    split
    · cases isBase with
      | true => exact ⟨rfl, rfl, fun ks body => isDecl_base_iff.symm⟩
      | false => exact ⟨rfl, rfl, fun ks body => Iff.rfl⟩
    · next hk =>
      intro ks body h
      cases isBase <;> cases h <;> exact hk _ rfl
  case parent scale dir =>
    split
    · exact ⟨rfl, rfl, fun ks body => by simp [Stage.Awaits, and_assoc]⟩
    · next hk =>
      rintro ks body ⟨_, _, ⟨⟩, _⟩
      exact hk _ rfl
  case colon scale dir unit =>
    split
    · exact ⟨rfl, rfl, fun ks body => by simp [Stage.Awaits]⟩
    · next hk =>
      rintro ks body ⟨_, ⟨⟩, _⟩
      exact hk rfl
  case factor scale dir unit =>
    split
    · exact ⟨rfl, rfl, fun ks body => by simp [Stage.Awaits, and_assoc]⟩
    · next hk =>
      rintro ks body ⟨_, ⟨⟩, _⟩
      exact hk _ rfl
  case term p =>
    split
    · exact ⟨rfl, rfl, fun ks body => Iff.rfl⟩
    · next hk =>
      intro ks body h
      obtain ⟨unit, rest, hks⟩ := h.identifier
      cases hks
      exact hk _ rfl
  case classColon ident =>
    split
    · exact ⟨rfl, rfl, fun ks body => isDecl_unitClass_iff.symm⟩
    · next hk =>
      intro ks body h
      cases h
      exact hk rfl
  case member ident before =>
    split
    · refine ⟨rfl, rfl, fun ks body => ?_⟩
      simp [Stage.Awaits, and_assoc]
    · next hk =>
      rintro ks body ⟨_, _, _, ⟨⟩, _⟩
      exact hk _ rfl
  case close found =>
    split
    · contradiction
    · rintro ks body ⟨⟨⟩, _⟩

theorem step_ends (hs : stage.start? = some start) (ht : t.kind = .semicolon) :
    Ends stage.Awaits start d t.span (step ⟨stage, d⟩ t) := by
  obtain ⟨k, span⟩ := t
  have hk : k = .semicolon := ht
  subst hk
  cases stage <;> cases hs
  case power p unit =>
    exact (afterTerm_ends _ ht).congr fun body => (Product.next_plain (by simp)).symm
  case exponentEnd p unit negative value place =>
    unfold step
    dsimp only
    split
    · next n hn =>
      exact (afterTerm_ends _ ht).congr fun body =>
        (Stage.awaits_exponentEnd (exponentOf?_eq_some.1 hn)).symm
    · next hn =>
      intro body h
      exact Stage.not_awaits_exponentEnd hn h
  case memberEnd ident before =>
    refine ⟨.unitClass ident before, fun body => ?_, rfl⟩
    constructor
    · rintro ⟨behind, ⟨⟩, rfl⟩
      rw [List.append_nil]
    · rintro rfl
      exact ⟨[], .nil, by rw [List.append_nil]⟩
  case close found => exact ⟨found, fun body => by simp [Stage.Awaits], rfl⟩
  case term p =>
    intro body h
    obtain ⟨unit, rest, hks⟩ := h.identifier
    cases hks
  case signedExponent | exponent =>
    intro body h
    simp [Stage.Awaits, Product.next_caret] at h
  case symbol isBase ident =>
    intro body h
    cases isBase <;> cases h
  case parent | colon | factor | member =>
    intro body h
    simp [Stage.Awaits] at h
  case name | definition | direction | classColon =>
    intro body h
    cases h

end Reader

end Metrology.Description
