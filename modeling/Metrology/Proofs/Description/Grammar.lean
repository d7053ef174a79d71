import Metrology.Description.Reader

/-! The grammar of units files, and what a file that follows it declares. Sentences are lists of token kinds;
the places of the tokens matter only for the spans of declarations. -/
namespace Metrology.Description

open Token (Kind)

/-- `'->' | '<-'` -/
inductive IsDirection : Kind → Direction → Prop
  | arrow : IsDirection .arrow .childToParent
  | backArrow : IsDirection .backArrow .parentToChild

/-- A number that may stand as an exponent is whole and below `2 ^ 31`. -/
def IsExponent (value : Float) (n : Int32) : Prop :=
  ∃ k : Int, Decimal.toInt? value = some k ∧ k ≤ 2147483647 ∧ n = .ofInt k

/-- `ident ['^' ['-'] number]` -/
inductive IsTerm : List Kind → Term → Prop
  | plain {unit : String} : IsTerm [.identifier unit] ⟨unit, 1⟩
  | power {unit : String} {value : Float} {n : Int32} : IsExponent value n →
      IsTerm [.identifier unit, .caret, .number value] ⟨unit, n⟩
  | inverse {unit : String} {value : Float} {n : Int32} : IsExponent value n →
      IsTerm [.identifier unit, .caret, .minus, .number value] ⟨unit, -n⟩

/-- `(('*' | '/') term)*` -/
inductive IsFactors : List Kind → List Term → Prop
  | nil : IsFactors [] []
  | times {ks rest : List Kind} {t : Term} {ts : List Term} : IsTerm ks t → IsFactors rest ts →
      IsFactors (.star :: (ks ++ rest)) (t :: ts)
  | divided {ks rest : List Kind} {t : Term} {ts : List Term} : IsTerm ks t → IsFactors rest ts →
      IsFactors (.slash :: (ks ++ rest)) (⟨t.unit, -t.exponent⟩ :: ts)

/-- `(',' ident)*` -/
inductive IsMembers : List Kind → List String → Prop
  | nil : IsMembers [] []
  | cons {ks : List Kind} {member : String} {members : List String} : IsMembers ks members →
      IsMembers (.comma :: .identifier member :: ks) (member :: members)

/-- A declaration up to its semicolon. -/
inductive IsDecl : List Kind → Body → Prop
  /-- `'base' ident symbol` -/
  | base {name symbol : String} :
      IsDecl [.keyword .base, .identifier name, .symbol symbol] (.unit name symbol .base)
  /-- `'unit' ident symbol '=' term (('*' | '/') term)*` -/
  | compound {name symbol : String} {ks rest : List Kind} {t : Term} {ts : List Term} :
      IsTerm ks t → IsFactors rest ts →
      IsDecl (.keyword .unit :: .identifier name :: .symbol symbol :: .equals :: (ks ++ rest))
        (.unit name symbol (.compound (t :: ts)))
  /-- `'unit' ident symbol dir ident ':' number` -/
  | scaled {name symbol parent : String} {dir : Kind} {direction : Direction} {factor : Float} :
      IsDirection dir direction →
      IsDecl [.keyword .unit, .identifier name, .symbol symbol, dir, .identifier parent, .colon,
        .number factor] (.unit name symbol (.scaled parent factor direction))
  /-- `'convert' ident dir ident ':' number` -/
  | conversion {child parent : String} {dir : Kind} {direction : Direction} {factor : Float} :
      IsDirection dir direction →
      IsDecl [.keyword .convert, .identifier child, dir, .identifier parent, .colon, .number factor]
        (.conversion child parent factor direction)
  /-- `'class' ident ':' ident (',' ident)*` -/
  | unitClass {name member : String} {ks : List Kind} {members : List String} : IsMembers ks members →
      IsDecl (.keyword .unitClass :: .identifier name :: .colon :: .identifier member :: ks)
        (.unitClass name (member :: members))

/-- `(decl ';')*`. A declaration spans its keyword, its semicolon and what lies between. -/
inductive IsFile : List Token → List (Body × Span) → Prop
  | nil : IsFile [] []
  | cons {keyword semicolon : Token} {inner rest : List Token} {body : Body}
      {decls : List (Body × Span)} : IsDecl (keyword.kind :: inner.map Token.kind) body →
      semicolon.kind = .semicolon → IsFile rest decls →
      IsFile (keyword :: (inner ++ semicolon :: rest))
        ((body, ⟨keyword.span.start, semicolon.span.stop⟩) :: decls)

section Denotation

def unitOf? : Body × Span → Option (UnitDecl Float)
  | (.unit name symbol definition, span) => some ⟨name, symbol, definition, span⟩
  | _ => none

def conversionOf? : Body × Span → Option (ConversionDecl Float)
  | (.conversion child parent factor direction, span) => some ⟨child, parent, factor, direction, span⟩
  | _ => none

def classOf? : Body × Span → Option ClassDecl
  | (.unitClass name members, span) => some ⟨name, members, span⟩
  | _ => none

/-- What a list of declarations describes: those of each sort, in their order. -/
def ofDecls (decls : List (Body × Span)) : Description Float where
  units := decls.filterMap unitOf?
  conversions := decls.filterMap conversionOf?
  classes := decls.filterMap classOf?

def addAll (d : Description Float) (decls : List (Body × Span)) : Description Float :=
  decls.foldl (fun d decl => d.add decl.1 decl.2) d

theorem addAll_eq (d : Description Float) (decls : List (Body × Span)) :
    d.addAll decls = ⟨d.units ++ (ofDecls decls).units, d.conversions ++ (ofDecls decls).conversions,
      d.classes ++ (ofDecls decls).classes⟩ := by
  induction decls generalizing d with
  | nil => simp [addAll, ofDecls]
  | cons decl decls ih =>
    obtain ⟨body, span⟩ := decl
    rw [addAll, List.foldl_cons, ← addAll, ih]
    cases body <;> simp [add, ofDecls, List.filterMap_cons, unitOf?, conversionOf?, classOf?]

theorem addAll_empty (decls : List (Body × Span)) : ({} : Description Float).addAll decls = ofDecls decls := by
  simp [addAll_eq]

end Denotation

section Declarations

variable {ks : List Kind} {body : Body} {name symbol child : String}

theorem isDecl_base_iff : IsDecl (.keyword .base :: .identifier name :: .symbol symbol :: ks) body ↔
    ks = [] ∧ body = .unit name symbol .base := by
  constructor
  · rintro ⟨⟩
    exact ⟨rfl, rfl⟩
  · rintro ⟨rfl, rfl⟩
    exact .base

theorem isDecl_scaled_iff {dir : Kind} {direction : Direction} (hdir : IsDirection dir direction) :
    IsDecl (.keyword .unit :: .identifier name :: .symbol symbol :: dir :: ks) body ↔
      ∃ parent factor, ks = [.identifier parent, .colon, .number factor] ∧
        body = .unit name symbol (.scaled parent factor direction) := by
  constructor
  · intro h
    cases hdir <;> cases h with
    | scaled hdir' =>
      cases hdir'
      exact ⟨_, _, rfl, rfl⟩
  · rintro ⟨parent, factor, rfl, rfl⟩
    exact .scaled hdir

theorem isDecl_conversion_iff {dir : Kind} {direction : Direction} (hdir : IsDirection dir direction) :
    IsDecl (.keyword .convert :: .identifier child :: dir :: ks) body ↔
      ∃ parent factor, ks = [.identifier parent, .colon, .number factor] ∧
        body = .conversion child parent factor direction := by
  constructor
  · intro h
    cases hdir <;> cases h with
    | conversion hdir' =>
      cases hdir'
      exact ⟨_, _, rfl, rfl⟩
  · rintro ⟨parent, factor, rfl, rfl⟩
    exact .conversion hdir

theorem isDecl_unitClass_iff : IsDecl (.keyword .unitClass :: .identifier name :: .colon :: ks) body ↔
    ∃ member rest members, ks = .identifier member :: rest ∧ IsMembers rest members ∧
      body = .unitClass name (member :: members) := by
  constructor
  · rintro (_ | _ | _ | _ | h)
    exact ⟨_, _, _, rfl, h, rfl⟩
  · rintro ⟨member, rest, members, rfl, h, rfl⟩
    exact .unitClass h

end Declarations

section Products

/-- What may follow a term, in a product that has taken the term. -/
def Product.More (p : Product) (ks : List Kind) (body : Body) : Prop :=
  ∃ ts, IsFactors ks ts ∧ body = .unit p.name p.symbol (.compound (p.terms ++ ts))

def Product.Next (p : Product) (ks : List Kind) (body : Body) : Prop :=
  ∃ kt t rest, ks = kt ++ rest ∧ IsTerm kt t ∧ (p.push t.unit t.exponent).More rest body

variable {p : Product} {ks : List Kind} {body : Body} {name symbol unit : String} {k : Kind}

theorem isDecl_compound_iff : IsDecl (.keyword .unit :: .identifier name :: .symbol symbol :: .equals :: ks)
    body ↔ (⟨name, symbol, [], 1⟩ : Product).Next ks body := by
  constructor
  · rintro (_ | ⟨hterm, hfactors⟩ | ⟨⟨⟩⟩)
    exact ⟨_, _, _, rfl, hterm, _, hfactors, by simp [Product.push]⟩
  · rintro ⟨kt, t, rest, rfl, hterm, ts, hfactors, rfl⟩
    simpa [Product.push] using IsDecl.compound hterm hfactors

namespace Product

theorem more_nil : p.More [] body ↔ body = p.body := by
  constructor
  · rintro ⟨ts, ⟨⟩, rfl⟩
    simp [Product.body]
  · rintro rfl
    exact ⟨[], .nil, by simp [Product.body]⟩

theorem more_star : p.More (.star :: ks) body ↔ ({ p with sign := 1 } : Product).Next ks body := by
  constructor
  · rintro ⟨ts, hfactors, rfl⟩
    cases hfactors with
    | times hterm hrest => exact ⟨_, _, _, rfl, hterm, _, hrest, by simp [push]⟩
  · rintro ⟨kt, t, rest, rfl, hterm, ts, hrest, rfl⟩
    exact ⟨t :: ts, .times hterm hrest, by simp [push]⟩

theorem more_slash : p.More (.slash :: ks) body ↔ ({ p with sign := -1 } : Product).Next ks body := by
  constructor
  · rintro ⟨ts, hfactors, rfl⟩
    cases hfactors with
    | divided hterm hrest => exact ⟨_, _, _, rfl, hterm, _, hrest, by simp [push, Int32.neg_mul]⟩
  · rintro ⟨kt, t, rest, rfl, hterm, ts, hrest, rfl⟩
    exact ⟨_, .divided hterm hrest, by simp [push, Int32.neg_mul]⟩

theorem More.operator (h : p.More (k :: ks) body) : k = .star ∨ k = .slash := by
  obtain ⟨ts, ⟨⟩, rfl⟩ := h
  · exact Or.inl rfl
  · exact Or.inr rfl

theorem not_more_caret : ¬ p.More (.caret :: ks) body := by
  intro h
  rcases h.operator with h | h <;> cases h

theorem Next.identifier (h : p.Next ks body) : ∃ unit rest, ks = .identifier unit :: rest := by
  obtain ⟨_, _, rest, rfl, hterm, _⟩ := h
  cases hterm <;> exact ⟨_, _, rfl⟩

theorem next_identifier : p.Next (.identifier unit :: ks) body ↔ (p.push unit 1).More ks body ∨
    (∃ value rest, ks = .caret :: .number value :: rest ∧
      ∃ n, IsExponent value n ∧ (p.push unit n).More rest body) ∨
    ∃ value rest, ks = .caret :: .minus :: .number value :: rest ∧
      ∃ n, IsExponent value n ∧ (p.push unit (-n)).More rest body := by
  constructor
  · rintro ⟨_, _, rest, hks, hterm, hmore⟩
    cases hterm with
    | plain =>
      cases hks
      exact Or.inl hmore
    | power hn =>
      cases hks
      exact Or.inr (Or.inl ⟨_, _, rfl, _, hn, hmore⟩)
    | inverse hn =>
      cases hks
      exact Or.inr (Or.inr ⟨_, _, rfl, _, hn, hmore⟩)
  · rintro (hmore | ⟨value, rest, rfl, n, hn, hmore⟩ | ⟨value, rest, rfl, n, hn, hmore⟩)
    · exact ⟨_, _, _, rfl, .plain, hmore⟩
    · exact ⟨_, _, _, rfl, .power hn, hmore⟩
    · exact ⟨_, _, _, rfl, .inverse hn, hmore⟩

theorem next_plain (hk : ks.head? ≠ some .caret) :
    p.Next (.identifier unit :: ks) body ↔ (p.push unit 1).More ks body := by
  rw [next_identifier]
  constructor
  · rintro (hmore | ⟨_, _, rfl, _⟩ | ⟨_, _, rfl, _⟩)
    · exact hmore
    · exact absurd rfl hk
    · exact absurd rfl hk
  · exact Or.inl

theorem next_caret : p.Next (.identifier unit :: .caret :: ks) body ↔
    (∃ value rest, ks = .number value :: rest ∧ ∃ n, IsExponent value n ∧ (p.push unit n).More rest body) ∨
    ∃ value rest, ks = .minus :: .number value :: rest ∧
      ∃ n, IsExponent value n ∧ (p.push unit (-n)).More rest body := by
  simp [next_identifier, not_more_caret]

theorem next_power {value : Float} : p.Next (.identifier unit :: .caret :: .number value :: ks) body ↔
    ∃ n, IsExponent value n ∧ (p.push unit n).More ks body := by
  simp [next_caret, and_assoc]

theorem next_inverse {value : Float} :
    p.Next (.identifier unit :: .caret :: .minus :: .number value :: ks) body ↔
      ∃ n, IsExponent value n ∧ (p.push unit (-n)).More ks body := by
  simp [next_caret, and_assoc]

end Product

end Products

end Metrology.Description
