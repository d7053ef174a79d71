import Metrology.Proofs.Description.Language
import Metrology.Proofs.Token.Stream

/-! Reading a units file accepts what the grammar derives, and nothing else: along the tokens of a text, each
step keeps what the reader can still go on to. -/
namespace Metrology.Description

open Token (Kind Keyword SyntaxError)
open Fallible

theorem IsDecl.keyword {k : Kind} {ks : List Kind} {body : Body} (h : IsDecl (k :: ks) body) :
    ∃ word, k = .keyword word := by
  cases h <;> exact ⟨_, rfl⟩

namespace Stage

/-- The rest of the open declaration, if there is one, and the declarations behind it. -/
def Reads (s : Stage) (tokens : List Token) (decls : List (Body × Span)) : Prop :=
  match s.start? with
  | none => IsFile tokens decls
  | some start => ∃ inner semicolon rest body behind, tokens = inner ++ semicolon :: rest ∧
      s.Awaits (inner.map Token.kind) body ∧ semicolon.kind = .semicolon ∧ IsFile rest behind ∧
      decls = (body, ⟨start.start, semicolon.span.stop⟩) :: behind

def Before (s : Stage) (offset : Nat) : Prop :=
  ∀ start, s.start? = some start → start.start ≤ offset ∧ start.stop ≤ offset

variable {s : Stage} {start : Span} {t : Token} {ts : List Token} {decls : List (Body × Span)}

theorem reads_of_start (hs : s.start? = some start) : s.Reads ts decls ↔
    ∃ inner semicolon rest body behind, ts = inner ++ semicolon :: rest ∧
      s.Awaits (inner.map Token.kind) body ∧ semicolon.kind = .semicolon ∧ IsFile rest behind ∧
      decls = (body, ⟨start.start, semicolon.span.stop⟩) :: behind := by
  rw [Reads, hs]

theorem reads_keyword {word : Keyword} (ht : t.kind = .keyword word) :
    (name t.span word).Reads ts decls ↔ IsFile (t :: ts) decls := by
  rw [reads_of_start rfl]
  constructor
  · rintro ⟨inner, semicolon, rest, body, behind, rfl, hdecl, hsemicolon, hrest, rfl⟩
    refine .cons ?_ hsemicolon hrest
    rw [ht]
    exact hdecl
  · rintro (_ | ⟨hdecl, hsemicolon, hrest⟩)
    rw [ht] at hdecl
    exact ⟨_, _, _, _, _, rfl, hdecl, hsemicolon, hrest, rfl⟩

theorem reads_semicolon (hs : s.start? = some start) (ht : t.kind = .semicolon) :
    s.Reads (t :: ts) decls ↔ ∃ body behind, s.Awaits [] body ∧ IsFile ts behind ∧
      decls = (body, ⟨start.start, t.span.stop⟩) :: behind := by
  rw [reads_of_start hs]
  constructor
  · rintro ⟨inner, semicolon, rest, body, behind, hts, hawaits, hsemicolon, hrest, rfl⟩
    cases inner with
    | nil =>
      cases hts
      exact ⟨body, behind, hawaits, hrest, rfl⟩
    | cons t' inner =>
      -- the first semicolon is the one that ends the declaration
      cases hts
      rw [List.map_cons, ht] at hawaits
      exact absurd hawaits not_awaits_semicolon
  · rintro ⟨body, behind, hawaits, hrest, rfl⟩
    exact ⟨[], t, ts, body, behind, rfl, hawaits, ht, hrest, rfl⟩

theorem reads_inner (hs : s.start? = some start) (ht : t.kind ≠ .semicolon) : s.Reads (t :: ts) decls ↔
    ∃ inner semicolon rest body behind, ts = inner ++ semicolon :: rest ∧
      s.Awaits (t.kind :: inner.map Token.kind) body ∧ semicolon.kind = .semicolon ∧ IsFile rest behind ∧
      decls = (body, ⟨start.start, semicolon.span.stop⟩) :: behind := by
  rw [reads_of_start hs]
  constructor
  · rintro ⟨inner, semicolon, rest, body, behind, hts, hawaits, hsemicolon, hrest, rfl⟩
    cases inner with
    | nil =>
      cases hts
      exact absurd hsemicolon ht
    | cons t' inner =>
      cases hts
      exact ⟨inner, semicolon, rest, body, behind, rfl, hawaits, hsemicolon, hrest, rfl⟩
  · rintro ⟨inner, semicolon, rest, body, behind, rfl, hawaits, hsemicolon, hrest, rfl⟩
    exact ⟨t :: inner, semicolon, rest, body, behind, rfl, hawaits, hsemicolon, hrest, rfl⟩

end Stage

namespace Reader

/-- The tokens that a reader goes on to read, with the description that it reaches. -/
def Completes (r : Reader) (tokens : List Token) (d : Description Float) : Prop :=
  ∃ decls, r.stage.Reads tokens decls ∧ d = r.description.addAll decls

/-- What a step must do for what a reader goes on to read. -/
def Passes (r : Reader) (t : Token) : Except SyntaxError Reader → Prop
  | .ok r' => r'.stage.Before t.span.stop ∧ ∀ ts d, r'.Completes ts d ↔ r.Completes (t :: ts) d
  | .error _ => ∀ ts d, ¬ r.Completes (t :: ts) d

variable {d : Description Float} {start : Span} {stage : Stage} {t : Token}

theorem top_passes (hle : t.span.start ≤ t.span.stop) (ht : t.kind ≠ .eof) :
    Passes ⟨.top, d⟩ t (step ⟨.top, d⟩ t) := by
  unfold step
  dsimp only
  split
  · next word hk =>
    constructor
    · rintro _ ⟨⟩
      exact ⟨hle, Nat.le_refl _⟩
    · intro ts d'
      exact exists_congr fun decls => and_congr_left fun _ => Stage.reads_keyword hk
  · contradiction
  · next hk _ =>
    rintro ts d' ⟨decls, ⟨⟩ | ⟨hdecl, _, _⟩, _⟩
    obtain ⟨word, hword⟩ := hdecl.keyword
    exact hk word hword

theorem semicolon_passes (hs : stage.start? = some start) (hstart : start.start ≤ t.span.start)
    (hstop : start.stop ≤ t.span.stop) (ht : t.kind = .semicolon) :
    Passes ⟨stage, d⟩ t (step ⟨stage, d⟩ t) := by
  have hends : Ends stage.Awaits start d t.span (step ⟨stage, d⟩ t) := step_ends hs ht
  cases hstep : step ⟨stage, d⟩ t with
  | error e =>
    rw [hstep] at hends
    rintro ts d' ⟨decls, hreads, _⟩
    obtain ⟨body, _, hawaits, _⟩ := (Stage.reads_semicolon hs ht).1 hreads
    exact hends body hawaits
  | ok r =>
    rw [hstep] at hends
    obtain ⟨body, hbody, rfl⟩ := hends
    refine ⟨nofun, fun ts d' => ?_⟩
    rw [Span.merge_of_le hstart hstop]
    constructor
    · rintro ⟨behind, hrest, rfl⟩
      exact ⟨_, (Stage.reads_semicolon hs ht).2 ⟨body, behind, (hbody body).2 rfl, hrest, rfl⟩, rfl⟩
    · rintro ⟨decls, hreads, rfl⟩
      obtain ⟨body', behind, hawaits, hrest, rfl⟩ := (Stage.reads_semicolon hs ht).1 hreads
      obtain rfl := (hbody body').1 hawaits
      exact ⟨behind, hrest, rfl⟩

theorem inner_passes (hs : stage.start? = some start) (hbefore : stage.Before t.span.stop)
    (ht : t.kind ≠ .semicolon) : Passes ⟨stage, d⟩ t (step ⟨stage, d⟩ t) := by
  have hderives : Derives stage.Awaits start d t.kind (step ⟨stage, d⟩ t) := step_derives hs ht
  cases hstep : step ⟨stage, d⟩ t with
  | error e =>
    rw [hstep] at hderives
    rintro ts d' ⟨decls, hreads, _⟩
    obtain ⟨inner, _, _, body, _, _, hawaits, _⟩ := (Stage.reads_inner hs ht).1 hreads
    exact hderives _ body hawaits
  | ok r =>
    rw [hstep] at hderives
    obtain ⟨stage', d⟩ := r
    obtain ⟨rfl, hs', hawaits⟩ := hderives
    refine ⟨fun start' hstart' => hbefore start' (hs.trans (hs'.symm.trans hstart')), fun ts d' => ?_⟩
    refine exists_congr fun decls => and_congr_left fun _ => ?_
    rw [Stage.reads_inner hs ht, Stage.reads_of_start hs']
    simp only [hawaits]

theorem step_passes {r : Reader} (ht : t.kind ≠ .eof) (hle : t.span.start ≤ t.span.stop)
    (hbefore : r.stage.Before t.span.start) : Passes r t (r.step t) := by
  obtain ⟨stage, d⟩ := r
  cases hs : stage.start? with
  | none =>
    cases stage <;> cases hs
    exact top_passes hle ht
  | some start =>
    obtain ⟨hstart, hstop⟩ := hbefore start hs
    by_cases hk : t.kind = .semicolon
    · exact semicolon_passes hs hstart (Nat.le_trans hstop hle) hk
    · refine inner_passes hs ?_ hk
      intro start' hs'
      obtain rfl := Option.some.inj (hs.symm.trans hs')
      exact ⟨Nat.le_trans hstart hle, Nat.le_trans hstop hle⟩

/-- A reader gets through laid out tokens exactly if they complete its declaration and a file behind it. -/
theorem run_eq_ok_iff {r : Reader} {offset : Nat} {tokens : List Token} (hlaid : Token.Laid offset tokens)
    (hbefore : r.stage.Before offset) :
    tokens.foldlM step r = .ok ⟨.top, d⟩ ↔ r.Completes tokens d := by
  -- along the tokens: the keyword of the open declaration stays before all that is still to come
  induction hlaid generalizing r with
  | nil =>
    obtain ⟨stage, d₀⟩ := r
    cases hs : stage.start? with
    | none =>
      cases stage <;> cases hs
      constructor
      · rintro ⟨⟩
        exact ⟨[], .nil, rfl⟩
      · rintro ⟨decls, ⟨⟩, rfl⟩
        rfl
    | some start =>
      constructor
      · rintro ⟨⟩
        cases hs
      · rintro ⟨decls, hreads, _⟩
        obtain ⟨inner, _, _, _, _, hnil, _⟩ := (Stage.reads_of_start hs).1 hreads
        cases inner <;> cases hnil
  | @cons offset t ts hkind hstart hle hrest ih =>
    have hbefore' : r.stage.Before t.span.start := fun start hs =>
      ⟨Nat.le_trans (hbefore start hs).1 hstart, Nat.le_trans (hbefore start hs).2 hstart⟩
    have hpasses := step_passes hkind hle hbefore'
    rw [foldlM_cons_eq_ok]
    cases hstep : r.step t with
    | error e =>
      rw [hstep] at hpasses
      simpa using hpasses ts d
    | ok r' =>
      rw [hstep] at hpasses
      rw [← hpasses.2, ← ih hpasses.1]
      simp

/-- The end of a text is the end of a file only where no declaration is open. -/
theorem step_eof {r r' : Reader} (ht : t.kind = .eof) : r.step t = .ok r' ↔ r.stage = .top ∧ r' = r := by
  obtain ⟨stage, d⟩ := r
  cases stage
  case top => simp [step, ht, eq_comm]
  case exponentEnd =>
    unfold step
    dsimp only
    split <;> simp [afterTerm, refuse, ht]
  all_goals simp [step, afterTerm, refuse, ht]

theorem run_eof {r r' : Reader} {tokens : List Token} (ht : t.kind = .eof) :
    (tokens ++ [t]).foldlM step r = .ok r' ↔ tokens.foldlM step r = .ok r' ∧ r'.stage = .top := by
  rw [List.foldlM_append, bind_eq_ok]
  simp only [foldlM_cons_eq_ok, step_eof ht]
  constructor
  · rintro ⟨r₁, htokens, _, ⟨htop, rfl⟩, ⟨⟩⟩
    exact ⟨htokens, htop⟩
  · rintro ⟨htokens, htop⟩
    exact ⟨r', htokens, r', ⟨htop, rfl⟩, rfl⟩

theorem feed_eq_ok {r r' : Reader} {items : List (Except SyntaxError Token)} : r.feed items = .ok r' ↔
    ∃ tokens : List Token, items = tokens.map .ok ∧ tokens.foldlM step r = .ok r' := by
  induction items generalizing r with
  | nil => simp [feed]
  | cons item items ih =>
    rw [feed, foldlM_cons_eq_ok]
    constructor
    · rintro ⟨r₁, hitem, hrest⟩
      obtain ⟨t, rfl, ht⟩ := bind_eq_ok.1 hitem
      obtain ⟨tokens, rfl, htokens⟩ := ih.1 hrest
      exact ⟨t :: tokens, rfl, foldlM_cons_eq_ok.2 ⟨r₁, ht, htokens⟩⟩
    · rintro ⟨tokens, hitems, htokens⟩
      cases tokens with
      | nil => cases hitems
      | cons t tokens =>
        obtain ⟨rfl, rfl⟩ := List.cons.inj hitems
        obtain ⟨r₁, ht, hrest⟩ := foldlM_cons_eq_ok.1 htokens
        exact ⟨r₁, ht, ih.2 ⟨tokens, rfl, hrest⟩⟩

end Reader

/-- Reading a text succeeds exactly if the text is made of tokens and these, up to the end, form a file; it
gives what the file declares. -/
theorem parse_eq_ok_iff (text : String) (d : Description Float) : parse text = .ok d ↔
    ∃ tokens eof decls, Token.tokenize text = .ok (tokens ++ [eof]) ∧ eof.kind = .eof ∧
      IsFile tokens decls ∧ d = ofDecls decls := by
  have hfile {tokens : List Token} (hlaid : Token.Laid 0 tokens) : (∃ decls, IsFile tokens decls ∧
      d = ofDecls decls) ↔ tokens.foldlM Reader.step .start = .ok ⟨.top, d⟩ := by
    rw [Reader.run_eq_ok_iff hlaid (by rintro _ ⟨⟩)]
    simp only [Reader.Completes, Reader.start, addAll_empty]
    exact Iff.rfl
  constructor
  · intro h
    obtain ⟨⟨stage, d'⟩, hfeed, hd⟩ := bind_eq_ok.1 h
    cases hd
    obtain ⟨all, hstream, hall⟩ := Reader.feed_eq_ok.1 hfeed
    obtain ⟨tokens, eof, rfl, heof, hlaid⟩ := Token.Cursor.stream_laid hstream
    obtain ⟨htokens, rfl⟩ := (Reader.run_eof heof).1 hall
    obtain ⟨decls, hdecls⟩ := (hfile hlaid).2 htokens
    exact ⟨tokens, eof, decls, Token.tokenize_eq_ok.2 hstream, heof, hdecls⟩
  · rintro ⟨tokens, eof, decls, htext, heof, hdecls⟩
    have hstream := Token.tokenize_eq_ok.1 htext
    obtain ⟨tokens', eof', hall, _, hlaid⟩ := Token.Cursor.stream_laid hstream
    obtain ⟨rfl, _⟩ := List.append_inj' hall rfl
    have hrun := (Reader.run_eof heof).2 ⟨(hfile hlaid).1 ⟨decls, hdecls⟩, rfl⟩
    exact bind_eq_ok.2 ⟨⟨.top, d⟩, Reader.feed_eq_ok.2 ⟨_, hstream, hrun⟩, rfl⟩

end Metrology.Description
