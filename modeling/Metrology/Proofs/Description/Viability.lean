import Metrology.Proofs.Description.Reading

/-! Where a units file goes wrong. What has been read of a file that follows the grammar is the beginning of a
sentence, and so is whatever the reader gets through. It stops at the first token that no sentence goes on
with, and points at it. -/
namespace Metrology.Description

open Token (Kind Keyword SyntaxError)
open Fallible

/-- The kinds of the tokens of a file, with the end behind them. -/
def IsSentence (ks : List Kind) : Prop :=
  ∃ tokens decls, IsFile tokens decls ∧ ks = tokens.map Token.kind ++ [.eof]

/-- The beginnings of sentences. -/
def Viable (ks : List Kind) : Prop := ∃ rest, IsSentence (ks ++ rest)

section Sentences

variable {ks : List Kind} {word : Keyword}

theorem isSentence_eof : IsSentence [.eof] := ⟨[], [], .nil, rfl⟩

/-- Only the end and declarations begin a sentence. -/
theorem IsSentence.head {k : Kind} (h : IsSentence (k :: ks)) : k = .eof ∨ ∃ word, k = .keyword word := by
  obtain ⟨tokens, decls, hfile, hks⟩ := h
  cases hfile with
  | nil => exact .inl (List.cons.inj hks).1
  | cons hdecl _ _ =>
    obtain ⟨word, hword⟩ := hdecl.keyword
    exact .inr ⟨word, (List.cons.inj hks).1.trans hword⟩

theorem isSentence_keyword : IsSentence (.keyword word :: ks) ↔
    ∃ inner body rest, ks = inner ++ .semicolon :: rest ∧ IsDecl (.keyword word :: inner) body ∧
      IsSentence rest := by
  constructor
  · rintro ⟨tokens, decls, hfile, hks⟩
    cases hfile with
    | nil => cases hks
    | @cons keyword semicolon inner rest body decls hdecl hsemicolon hrest =>
      obtain ⟨hword, rfl⟩ := List.cons.inj hks
      rw [← hword] at hdecl
      exact ⟨inner.map Token.kind, body, _, by simp [hsemicolon], hdecl, rest, decls, hrest, rfl⟩
  · rintro ⟨inner, body, rest, rfl, hdecl, tokens, decls, hrest, rfl⟩
    -- tokens of these kinds, at whatever places
    have hplaced : ∃ placed : List Token, placed.map Token.kind = inner :=
      ⟨inner.map (⟨·, .none⟩), by simp [Function.comp_def]⟩
    obtain ⟨placed, rfl⟩ := hplaced
    have hfile : IsFile (⟨.keyword word, .none⟩ :: (placed ++ ⟨.semicolon, .none⟩ :: tokens)) _ :=
      .cons hdecl rfl hrest
    exact ⟨_, _, hfile, by simp⟩

end Sentences

namespace Stage

/-- What may follow up to the end, with the rest of the open declaration, if there is one. -/
def Continues (s : Stage) (ks : List Kind) : Prop :=
  match s.start? with
  | none => IsSentence ks
  | some _ => ∃ inner body rest, ks = inner ++ .semicolon :: rest ∧ s.Awaits inner body ∧ IsSentence rest

variable {s : Stage} {start : Span} {k : Kind} {ks : List Kind}

theorem continues_of_start (hs : s.start? = some start) : s.Continues ks ↔
    ∃ inner body rest, ks = inner ++ .semicolon :: rest ∧ s.Awaits inner body ∧ IsSentence rest := by
  rw [Continues, hs]

theorem continues_semicolon (hs : s.start? = some start) :
    s.Continues (.semicolon :: ks) ↔ (∃ body, s.Awaits [] body) ∧ IsSentence ks := by
  rw [continues_of_start hs]
  constructor
  · rintro ⟨inner, body, rest, hks, hawaits, hrest⟩
    cases inner with
    | nil =>
      cases hks
      exact ⟨⟨body, hawaits⟩, hrest⟩
    | cons k inner =>
      cases hks
      exact absurd hawaits not_awaits_semicolon
  · rintro ⟨⟨body, hawaits⟩, hrest⟩
    exact ⟨[], body, ks, rfl, hawaits, hrest⟩

theorem continues_inner (hs : s.start? = some start) (hk : k ≠ .semicolon) : s.Continues (k :: ks) ↔
    ∃ inner body rest, ks = inner ++ .semicolon :: rest ∧ s.Awaits (k :: inner) body ∧ IsSentence rest := by
  rw [continues_of_start hs]
  constructor
  · rintro ⟨inner, body, rest, hks, hawaits, hrest⟩
    cases inner with
    | nil =>
      cases hks
      exact absurd rfl hk
    | cons k inner =>
      cases hks
      exact ⟨inner, body, rest, rfl, hawaits, hrest⟩
  · rintro ⟨inner, body, rest, rfl, hawaits, hrest⟩
    exact ⟨k :: inner, body, rest, rfl, hawaits, hrest⟩

/-- The place of a number that has been read as an exponent and cannot be one. -/
def misfit? : Stage → Option Span
  | exponentEnd _ _ _ _ value place => if exponentOf? value = none then some place else none
  | _ => none

theorem misfit?_eq_some {place : Span} : s.misfit? = some place ↔
    ∃ start p unit negative value, s = exponentEnd start p unit negative value place ∧
      exponentOf? value = none := by
  constructor
  · intro h
    cases s with
    | exponentEnd start p unit negative value place' =>
      rw [misfit?] at h
      split at h
      · next hvalue =>
        cases h
        exact ⟨start, p, unit, negative, value, rfl, hvalue⟩
      · cases h
    | _ => cases h
  · rintro ⟨start, p, unit, negative, value, rfl, hvalue⟩
    exact if_pos hvalue

theorem not_continues_of_misfit? {place : Span} (h : s.misfit? = some place) : ¬ s.Continues ks := by
  obtain ⟨start, p, unit, negative, value, rfl, hvalue⟩ := misfit?_eq_some.1 h
  rintro ⟨inner, body, rest, -, hawaits, -⟩
  exact not_awaits_exponentEnd hvalue hawaits

theorem isExponent_one : IsExponent 1 1 := by
  rw [← exponentOf?_eq_some]
  decide +kernel

/-- Every declaration that has been opened can be completed, unless its exponent is none. -/
theorem exists_awaits (h : s.misfit? = none) : ∃ ks body, s.Awaits ks body := by
  have hmore (p : Product) : p.More [] p.body := Product.more_nil.2 rfl
  have hnext (p : Product) : p.Next [.identifier ""] _ := ⟨_, _, [], rfl, .plain, hmore _⟩
  cases s with
  | top => exact ⟨[.keyword .base, .identifier "", .symbol ""], _, .base⟩
  | name start word =>
    cases word with
    | base => exact ⟨[.identifier "", .symbol ""], _, .base⟩
    | unit => exact ⟨[.identifier "", .symbol "", .equals, .identifier ""], _, isDecl_compound_iff.2 (hnext _)⟩
    | convert => exact ⟨[.identifier "", .arrow, .identifier "", .colon, .number 1], _, .conversion .arrow⟩
    | unitClass => exact ⟨[.identifier "", .colon, .identifier ""], _, .unitClass .nil⟩
  | symbol start isBase ident =>
    cases isBase with
    | true => exact ⟨[.symbol ""], _, .base⟩
    | false => exact ⟨[.symbol "", .equals, .identifier ""], _, isDecl_compound_iff.2 (hnext _)⟩
  | definition start ident text => exact ⟨[.equals, .identifier ""], _, isDecl_compound_iff.2 (hnext _)⟩
  | direction start child => exact ⟨[.arrow, .identifier "", .colon, .number 1], _, .conversion .arrow⟩
  | parent start scale dir => exact ⟨_, _, "", 1, rfl, rfl⟩
  | colon start scale dir unit => exact ⟨_, _, 1, rfl, rfl⟩
  | factor start scale dir unit => exact ⟨_, _, 1, rfl, rfl⟩
  | term start p => exact ⟨_, _, hnext p⟩
  | power start p unit => exact ⟨_, _, (Product.next_plain (by simp)).2 (hmore _)⟩
  | signedExponent start p unit => exact ⟨_, _, Product.next_power.2 ⟨1, isExponent_one, hmore _⟩⟩
  | exponent start p unit => exact ⟨_, _, Product.next_inverse.2 ⟨1, isExponent_one, hmore _⟩⟩
  | exponentEnd start p unit negative value place =>
    cases hvalue : exponentOf? value with
    | none => simp [misfit?, hvalue] at h
    | some n => exact ⟨_, _, (awaits_exponentEnd (exponentOf?_eq_some.1 hvalue)).2 (hmore _)⟩
  | classColon start ident => exact ⟨[.colon, .identifier ""], _, .unitClass .nil⟩
  | member start ident before => exact ⟨_, _, "", _, _, rfl, .nil, rfl⟩
  | memberEnd start ident before => exact ⟨_, _, _, .nil, rfl⟩
  | close start found => exact ⟨_, _, rfl, rfl⟩

theorem exists_continues (h : s.misfit? = none) : ∃ ks, s.Continues ks := by
  cases hs : s.start? with
  | none =>
    refine ⟨[.eof], ?_⟩
    rw [Continues, hs]
    exact isSentence_eof
  | some start =>
    obtain ⟨inner, body, hinner⟩ := exists_awaits h
    exact ⟨_, (continues_of_start hs).2 ⟨inner, body, [.eof], rfl, hinner, isSentence_eof⟩⟩

end Stage

namespace Reader

/-- What a step must do for what may follow. -/
def Advances (s : Stage) (k : Kind) : Except SyntaxError Reader → Prop
  | .ok r => k ≠ .eof → ∀ ks, r.stage.Continues ks ↔ s.Continues (k :: ks)
  | .error _ => ∀ ks, ¬ s.Continues (k :: ks)

variable {d : Description Float} {start : Span} {stage : Stage} {r r' : Reader} {t : Token} {e : SyntaxError}

theorem top_advances : Advances .top t.kind (step ⟨.top, d⟩ t) := by
  unfold step
  dsimp only
  split
  · next word hk =>
    intro _ ks
    rw [hk]
    exact isSentence_keyword.symm
  · next hk => exact fun hne => absurd hk hne
  · next hkeyword heof =>
    intro ks hsentence
    rcases IsSentence.head hsentence with hk | ⟨word, hk⟩
    · exact heof hk
    · exact hkeyword word hk

theorem semicolon_advances (hs : stage.start? = some start) (ht : t.kind = .semicolon) :
    Advances stage t.kind (step ⟨stage, d⟩ t) := by
  have hends : Ends stage.Awaits start d t.span (step ⟨stage, d⟩ t) := step_ends hs ht
  cases hstep : step ⟨stage, d⟩ t with
  | error e =>
    rw [hstep] at hends
    intro ks hcontinues
    rw [ht, Stage.continues_semicolon hs] at hcontinues
    obtain ⟨⟨body, hawaits⟩, -⟩ := hcontinues
    exact hends body hawaits
  | ok r =>
    rw [hstep] at hends
    obtain ⟨body, hbody, rfl⟩ := hends
    intro _ ks
    rw [ht, Stage.continues_semicolon hs, and_iff_right ⟨body, (hbody body).2 rfl⟩]
    exact Iff.rfl

theorem inner_advances (hs : stage.start? = some start) (ht : t.kind ≠ .semicolon) :
    Advances stage t.kind (step ⟨stage, d⟩ t) := by
  have hderives : Derives stage.Awaits start d t.kind (step ⟨stage, d⟩ t) := step_derives hs ht
  cases hstep : step ⟨stage, d⟩ t with
  | error e =>
    rw [hstep] at hderives
    intro ks hcontinues
    obtain ⟨inner, body, -, -, hawaits, -⟩ := (Stage.continues_inner hs ht).1 hcontinues
    exact hderives inner body hawaits
  | ok r =>
    rw [hstep] at hderives
    obtain ⟨-, hs', hawaits⟩ := hderives
    intro _ ks
    rw [Stage.continues_inner hs ht, Stage.continues_of_start hs']
    simp only [hawaits]

theorem step_advances (r : Reader) (t : Token) : Advances r.stage t.kind (r.step t) := by
  obtain ⟨stage, d⟩ := r
  cases hs : stage.start? with
  | none =>
    cases stage <;> cases hs
    exact top_advances
  | some start =>
    by_cases hk : t.kind = .semicolon
    · exact semicolon_advances hs hk
    · exact inner_advances hs hk

theorem span_of_afterTerm {p : Product} (h : r.afterTerm start p t = .error e) : e.span = t.span := by
  unfold afterTerm at h
  split at h <;> cases h
  rfl

/-- A fault is found at the token that is read, or at the exponent before it. -/
theorem span_of_step (h : r.step t = .error e) : e.span = r.stage.misfit?.getD t.span := by
  obtain ⟨stage, d⟩ := r
  unfold step at h
  cases stage with
  | name start word =>
    dsimp only at h
    split at h
    · cases word <;> cases h
    · cases h
      rfl
  | power start p unit =>
    dsimp only at h
    split at h
    · cases h
    · exact span_of_afterTerm h
  | exponentEnd start p unit negative value place =>
    dsimp only at h
    split at h
    · next n hn =>
      have hfits : (Stage.exponentEnd start p unit negative value place).misfit? = none := by
        simp [Stage.misfit?, hn]
      rw [hfits]
      exact span_of_afterTerm h
    · next hn =>
      cases h
      simp [Stage.misfit?, hn]
  | _ =>
    dsimp only at h
    split at h <;> cases h
    rfl

theorem step_of_misfit? {place : Span} (h : r.stage.misfit? = some place) (t : Token) :
    ∃ e, r.step t = .error e := by
  obtain ⟨stage, d⟩ := r
  obtain ⟨start, p, unit, negative, value, rfl, hvalue⟩ := Stage.misfit?_eq_some.1 h
  exact ⟨⟨.exponentNotWhole value, place⟩, by simp [step, hvalue]⟩

theorem misfit?_of_afterTerm {p : Product} (h : r.afterTerm start p t = .ok r') : r'.stage.misfit? = none := by
  unfold afterTerm at h
  split at h <;> cases h <;> rfl

theorem misfit?_of_step {place : Span} (h : r.step t = .ok r') (hplace : r'.stage.misfit? = some place) :
    place = t.span := by
  obtain ⟨stage, d⟩ := r
  have hexponent {start : Span} {p : Product} {unit : String} {negative : Bool} {value : Float}
      (hstage : (Stage.exponentEnd start p unit negative value t.span).misfit? = some place) :
      place = t.span := by
    obtain ⟨_, _, _, _, _, hsame, -⟩ := Stage.misfit?_eq_some.1 hstage
    cases hsame
    rfl
  have hafter {start : Span} {p : Product} (hterm : afterTerm ⟨stage, d⟩ start p t = .ok r') :
      place = t.span := by
    rw [misfit?_of_afterTerm hterm] at hplace
    cases hplace
  unfold step at h
  cases stage with
  | name start word =>
    dsimp only at h
    split at h
    · cases word <;> cases h <;> cases hplace
    · cases h
  | symbol start isBase ident =>
    dsimp only at h
    split at h
    · cases isBase <;> cases h <;> cases hplace
    · cases h
  | power start p unit =>
    dsimp only at h
    split at h
    · cases h
      cases hplace
    · exact hafter h
  | signedExponent start p unit =>
    dsimp only at h
    split at h <;> cases h
    · cases hplace
    · exact hexponent hplace
  | exponent start p unit =>
    dsimp only at h
    split at h <;> cases h
    exact hexponent hplace
  | exponentEnd start p unit negative value place' =>
    dsimp only at h
    split at h
    · exact hafter h
    · cases h
  | _ =>
    dsimp only at h
    split at h <;> cases h <;> cases hplace

/-- A run stops at the first token that nothing goes on with. -/
theorem run_eq_error {tokens : List Token} (hends : ∀ t ∈ tokens.dropLast, t.kind ≠ .eof)
    (hfits : r.stage.misfit? = none) (h : tokens.foldlM step r = .error e) :
    ∃ k t, tokens[k]? = some t ∧ e.span = t.span ∧ ∀ n ≤ tokens.length,
      (∃ rest, r.stage.Continues ((tokens.take n).map Token.kind ++ rest)) ↔ n ≤ k := by
  induction tokens generalizing r with
  | nil => cases h
  | cons t ts ih =>
    have hadvances := step_advances r t
    have hstart : ∃ rest, r.stage.Continues rest := Stage.exists_continues hfits
    have hfirst (hrefused : ∀ ks, ¬ r.stage.Continues (t.kind :: ks)) (n : Nat) :
        (∃ rest, r.stage.Continues (((t :: ts).take n).map Token.kind ++ rest)) ↔ n ≤ 0 := by
      cases n with
      | zero => simpa using hstart
      | succ n => simpa using fun rest => hrefused _
    rw [List.foldlM_cons] at h
    rcases bind_eq_error.1 h with hstep | ⟨r', hstep, hrest⟩
    · rw [hstep] at hadvances
      refine ⟨0, t, rfl, ?_, fun n _ => hfirst hadvances n⟩
      rw [span_of_step hstep, hfits, Option.getD_none]
    · have hmore : ts ≠ [] := by
        rintro rfl
        cases hrest
      have heof : t.kind ≠ .eof := hends t (by simp [List.dropLast_cons_of_ne_nil hmore])
      rw [hstep] at hadvances
      have hnext : ∀ ks, r'.stage.Continues ks ↔ r.stage.Continues (t.kind :: ks) := hadvances heof
      cases hmisfit : r'.stage.misfit? with
      | none =>
        have hends' : ∀ t ∈ ts.dropLast, t.kind ≠ .eof := fun u hu =>
          hends u (by simp [List.dropLast_cons_of_ne_nil hmore, hu])
        obtain ⟨k, u, hu, hspan, hviable⟩ := ih hends' hmisfit hrest
        refine ⟨k + 1, u, hu, hspan, fun n hn => ?_⟩
        cases n with
        | zero => simpa using hstart
        | succ n =>
          rw [Nat.add_le_add_iff_right, ← hviable n (Nat.le_of_succ_le_succ hn)]
          simp only [hnext, List.take_succ_cons, List.map_cons, List.cons_append]
      | some place =>
        -- the number just read is no exponent, which is found out at the next token
        obtain ⟨u, us, rfl⟩ := List.exists_cons_of_ne_nil hmore
        obtain ⟨e', hstep'⟩ := step_of_misfit? hmisfit u
        rw [List.foldlM_cons, hstep'] at hrest
        cases hrest
        refine ⟨0, t, rfl, ?_, fun n _ => hfirst (fun ks hks => ?_) n⟩
        · rw [span_of_step hstep', hmisfit, Option.getD_some, misfit?_of_step hstep hmisfit]
        · exact Stage.not_continues_of_misfit? hmisfit ((hnext ks).2 hks)

theorem feed_map_ok (r : Reader) (tokens : List Token) : r.feed (tokens.map .ok) = tokens.foldlM step r := by
  rw [feed, List.foldlM_map]
  rfl

end Reader

/-- Where a text is made of tokens that do not form a file, the fault is reported at the first of them that
no sentence goes on with: what stands before it is the beginning of a sentence, and no longer part of the text
is. -/
theorem fault_at_first_offender {text : String} {tokens : List Token} {e : SyntaxError}
    (htext : Token.tokenize text = .ok tokens) (he : parse text = .error e) :
    ∃ k t, tokens[k]? = some t ∧ e.span = t.span ∧
      ∀ n ≤ tokens.length, Viable ((tokens.take n).map Token.kind) ↔ n ≤ k := by
  have hstream := Token.tokenize_eq_ok.1 htext
  obtain ⟨before, eof, rfl, -, hlaid⟩ := Token.Cursor.stream_laid hstream
  have hrun : (before ++ [eof]).foldlM Reader.step .start = .error e := by
    rcases bind_eq_error.1 he with hfeed | ⟨r, -, hr⟩
    · rwa [hstream, Reader.feed_map_ok] at hfeed
    · cases hr
  refine Reader.run_eq_error ?_ rfl hrun
  rw [List.dropLast_concat]
  exact hlaid.kind_ne_eof

def halfPower : String := "base a [a]; unit b [b] = a^2.5 * a;"

def halfPowerTokens : List Token :=
  [⟨.keyword .base, ⟨0, 4⟩⟩, ⟨.identifier "a", ⟨5, 6⟩⟩, ⟨.symbol "a", ⟨7, 10⟩⟩, ⟨.semicolon, ⟨10, 11⟩⟩,
    ⟨.keyword .unit, ⟨12, 16⟩⟩, ⟨.identifier "b", ⟨17, 18⟩⟩, ⟨.symbol "b", ⟨19, 22⟩⟩, ⟨.equals, ⟨23, 24⟩⟩,
    ⟨.identifier "a", ⟨25, 26⟩⟩, ⟨.caret, ⟨26, 27⟩⟩, ⟨.number 2.5, ⟨27, 30⟩⟩, ⟨.star, ⟨31, 32⟩⟩,
    ⟨.identifier "a", ⟨33, 34⟩⟩, ⟨.semicolon, ⟨34, 35⟩⟩, ⟨.eof, ⟨35, 35⟩⟩]

theorem halfPower_fault : Token.tokenize halfPower = .ok halfPowerTokens ∧ ∃ e, parse halfPower = .error e ∧
    ∃ k t, halfPowerTokens[k]? = some t ∧ e.span = t.span ∧
      ∀ n ≤ halfPowerTokens.length, Viable ((halfPowerTokens.take n).map Token.kind) ↔ n ≤ k := by
  have htext : Token.tokenize halfPower = .ok halfPowerTokens := toOption_eq_some.1 (by decide +kernel)
  have hfails : (parse halfPower).toBool = false := by decide +kernel
  refine ⟨htext, ?_⟩
  cases he : parse halfPower with
  | ok d => cases he ▸ hfails
  | error e => exact ⟨e, rfl, fault_at_first_offender htext he⟩

end Metrology.Description
