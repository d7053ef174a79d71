import Metrology.Proofs.Token.Lexeme
import Metrology.Proofs.Token.Stream

/-! The layout of a text. Its tokens and the gaps between them follow each other from its first byte to its
last: a gap is made of blanks and whole comments, and a token is the longest match where it starts. -/
namespace Metrology

namespace Text

theorem byteLength_toList (s : String) : byteLength s.toList = s.utf8ByteSize := by
  have hofList (cs : List Char) : byteLength cs = (String.ofList cs).utf8ByteSize := by
    induction cs with
    | nil => rfl
    | cons c cs ih => simp [ih, String.ofList_cons]
  rw [hofList, String.ofList_toList]

theorem byteLength_pos {cs : List Char} (h : cs ≠ []) : 0 < byteLength cs := by
  obtain ⟨c, cs, rfl⟩ := List.exists_cons_of_ne_nil h
  exact Nat.add_pos_left c.utf8Size_pos _

end Text

namespace Token

open Text (byteLength)

inductive Skipped : List Char → Prop
  | blank {c : Char} : c ∈ [' ', '\t', '\n', '\r', '\x0c'] → Skipped [c]
  | comment {opener body : List Char} : opener ∈ [['#'], ['/', '/']] → '\n' ∉ body →
      Skipped (opener ++ body)

/-- Blanks, and comments that run to the end of their line, with a text behind them. -/
inductive IsGap (after : List Char) : List Char → Prop
  | nil : IsGap after []
  | blank {c : Char} {cs : List Char} : c ∈ [' ', '\t', '\n', '\r', '\x0c'] → IsGap after cs →
      IsGap after (c :: cs)
  | comment {opener body cs : List Char} : opener ∈ [['#'], ['/', '/']] → '\n' ∉ body →
      (∀ c ∈ (cs ++ after).head?, c = '\n') → IsGap after cs → IsGap after (opener ++ body ++ cs)

theorem isSpace_iff {c : Char} : isSpace c = true ↔ c ∈ [' ', '\t', '\n', '\r', '\x0c'] := by
  simp [isSpace, or_assoc]

theorem gap_space {c : Char} (hc : isSpace c = true) (cs : List Char) :
    gap false (c :: cs) = c :: gap false cs := by
  rw [gap.eq_def]
  simp only [hc, if_true, Bool.false_eq_true, if_false]

theorem gap_comment (cs : List Char) :
    gap true cs = cs.takeWhile (· ≠ '\n') ++ gap false (cs.dropWhile (· ≠ '\n')) := by
  induction cs with
  | nil => rfl
  | cons c cs ih =>
    by_cases hc : c = '\n'
    · subst hc
      rfl
    · have hstep : gap true (c :: cs) = c :: gap true cs := by
        rw [gap.eq_def]
        simp [hc]
      rw [hstep, ih, List.takeWhile_cons_of_pos (by simpa using hc),
        List.dropWhile_cons_of_pos (by simpa using hc), List.cons_append]

theorem gap_opener {opener : List Char} (h : opener ∈ [['#'], ['/', '/']]) (cs : List Char) :
    gap false (opener ++ cs) = opener ++ gap true cs := by
  simp only [List.mem_cons, List.not_mem_nil, or_false] at h
  rcases h with rfl | rfl <;> rfl

theorem gap_cases (cs : List Char) : gap false cs = [] ∨ (∃ c rest, cs = c :: rest ∧ isSpace c = true) ∨
    ∃ opener rest, cs = opener ++ rest ∧ opener ∈ [['#'], ['/', '/']] := by
  cases cs with
  | nil => exact .inl rfl
  | cons c cs =>
    by_cases hspace : isSpace c = true
    · exact .inr (.inl ⟨c, cs, rfl, hspace⟩)
    by_cases hhash : c = '#'
    · exact .inr (.inr ⟨['#'], cs, by rw [hhash]; rfl, by simp⟩)
    by_cases hslash : c = '/' ∧ cs.head? = some '/'
    · obtain ⟨rfl, hcs⟩ := hslash
      obtain ⟨rest, rfl⟩ := List.head?_eq_some_iff.1 hcs
      exact .inr (.inr ⟨['/', '/'], rest, rfl, by simp⟩)
    · refine .inl ?_
      rw [gap.eq_def]
      simp only [hspace, hhash, if_false, Bool.false_eq_true]
      split
      · simp at hslash
      · rfl

/-- The gap at the front of a text is a gap, and no other follows it. -/
theorem gap_spec (cs : List Char) :
    ∃ after, cs = gap false cs ++ after ∧ IsGap after (gap false cs) ∧ gap false after = [] := by
  -- a comment goes with the whole rest of its line, so the induction is on the length
  induction hlength : cs.length using Nat.strong_induction_on generalizing cs with
  | _ length ih =>
    rcases gap_cases cs with hnil | ⟨c, rest, rfl, hc⟩ | ⟨opener, rest, rfl, hopener⟩
    · exact ⟨cs, by simp [hnil], by rw [hnil]; exact .nil, hnil⟩
    · obtain ⟨after, hrest, hgap, hafter⟩ := ih _ (by simp [← hlength]) rest rfl
      refine ⟨after, ?_, ?_, hafter⟩
      · rw [gap_space hc, List.cons_append, ← hrest]
      · rw [gap_space hc]
        exact .blank (isSpace_iff.1 hc) hgap
    · have hshorter : (rest.dropWhile (· ≠ '\n')).length < length := by
        have hle := (List.dropWhile_suffix (l := rest) (· ≠ '\n')).length_le
        have hpos : 0 < opener.length := by
          rw [List.length_pos_iff]
          rintro rfl
          simp at hopener
        rw [List.length_append] at hlength
        omega
      obtain ⟨after, hrest, hgap, hafter⟩ := ih _ hshorter (rest.dropWhile (· ≠ '\n')) rfl
      refine ⟨after, ?_, ?_, hafter⟩
      · rw [gap_opener hopener, gap_comment, List.append_assoc, List.append_assoc, ← hrest,
          List.takeWhile_append_dropWhile]
      · rw [gap_opener hopener, gap_comment, ← List.append_assoc]
        refine .comment hopener ?_ ?_ hgap
        · intro hmem
          simpa using List.mem_takeWhile_imp hmem
        · intro c hc
          rw [← hrest] at hc
          have hhead := List.head?_dropWhile_not (· ≠ '\n') rest
          rw [Option.mem_def.1 hc] at hhead
          simpa using hhead

theorem not_skipped {cs p : List Char} (h : gap false cs = []) (hp : Skipped p) : ¬ p <+: cs := by
  rintro ⟨rest, rfl⟩
  cases hp with
  | blank hc =>
    rw [List.singleton_append, gap_space (isSpace_iff.2 hc)] at h
    cases h
  | comment hopener _ =>
    rw [List.append_assoc, gap_opener hopener] at h
    simp at h
    simp [h] at hopener

/-- Of all that could be read or skipped at the front of a text, nothing is longer. -/
def LongestMatch (piece rest : List Char) : Prop :=
  ∀ p, p <+: rest → (Skipped p ∨ ∃ kind, Denotes p kind) → p.length ≤ piece.length

/-- Tokens that lie in a text from an offset on, up to the end token. -/
inductive Covers : Nat → List Char → List Token → Prop
  | eof {offset : Nat} {gap : List Char} : IsGap [] gap →
      Covers offset gap [⟨.eof, ⟨offset + byteLength gap, offset + byteLength gap⟩⟩]
  | token {offset start stop : Nat} {gap piece after : List Char} {kind : Kind} {ts : List Token} :
      IsGap (piece ++ after) gap → piece ≠ [] → Denotes piece kind → LongestMatch piece (piece ++ after) →
      start = offset + byteLength gap → stop = start + byteLength piece → Covers stop after ts →
      Covers offset (gap ++ (piece ++ after)) (⟨kind, ⟨start, stop⟩⟩ :: ts)

namespace Cursor

theorem skip_append {c : Cursor} {text after : List Char} (h : c.rest = text ++ after) :
    c.skip text = ⟨c.offset + byteLength text, after⟩ := by
  rw [skip, h, List.drop_left]

theorem item_of_lexeme {c : Cursor} (h : lexeme c.rest ≠ []) :
    c.item = (.ok ⟨denote (lexeme c.rest), c.spanOf (lexeme c.rest)⟩, c.skip (lexeme c.rest)) := by
  unfold item
  split
  · contradiction
  · rfl

theorem item_covers {c : Cursor} {t : Token} (hgap : gap false c.rest = []) (h : c.item.1 = .ok t) :
    ∃ piece after, c.rest = piece ++ after ∧ piece ≠ [] ∧ Denotes piece t.kind ∧
      LongestMatch piece (piece ++ after) ∧ t.span = ⟨c.offset, c.offset + byteLength piece⟩ ∧
      c.item.2 = ⟨c.offset + byteLength piece, after⟩ := by
  have hne : lexeme c.rest ≠ [] := by
    intro hnil
    unfold item at h
    rw [hnil] at h
    cases h
  rw [item_of_lexeme hne] at h ⊢
  cases h
  obtain ⟨⟨after, hafter⟩, hdenotes⟩ := lexeme_spec hne
  refine ⟨lexeme c.rest, after, hafter.symm, hne, hdenotes, ?_, rfl, skip_append hafter.symm⟩
  rw [hafter]
  rintro p hp (hskipped | ⟨kind, hkind⟩)
  · exact absurd hp (not_skipped hgap hskipped)
  · obtain ⟨rest, hrest⟩ := hp
    rw [← hrest]
    exact length_le_lexeme hkind rest

theorem stream_covers {c : Cursor} {tokens : List Token} (h : c.stream = tokens.map .ok) :
    Covers c.offset c.rest tokens := by
  induction c using stream.induct generalizing tokens with
  | case1 c hend =>
    rw [stream, dif_pos hend] at h
    obtain ⟨eof, rfl, heof⟩ := List.map_eq_singleton_iff.1 h.symm
    obtain ⟨after, hrest, hgap, -⟩ := gap_spec c.rest
    rw [skipGap, skip_append hrest] at hend heof
    cases heof
    obtain rfl : after = [] := hend
    rw [List.append_nil] at hrest
    rw [← hrest] at hgap ⊢
    exact .eof hgap
  | case2 c hmore ih =>
    rw [stream, dif_neg hmore] at h
    obtain ⟨t, ts, rfl, hitem, hts⟩ := List.map_eq_cons_iff.1 h.symm
    obtain ⟨rest, hrest, hgap, hnone⟩ := gap_spec c.rest
    have hcursor : c.skipGap = ⟨c.offset + byteLength (gap false c.rest), rest⟩ := skip_append hrest
    generalize gap false c.rest = skipped at hrest hgap hcursor
    rw [hcursor] at hitem ih hts
    obtain ⟨piece, after, rfl, hne, hdenotes, hlongest, hspan, hnext⟩ := item_covers hnone hitem.symm
    have hcovers := ih hts.symm
    rw [hnext] at hcovers
    obtain ⟨kind, span⟩ := t
    obtain rfl : span = _ := hspan
    rw [hrest]
    exact .token hgap hne hdenotes hlongest rfl rfl hcovers

end Cursor

/-- A piece of a text, with what follows it, by the bytes it takes. -/
def IsSlice (text : List Char) (span : Span) (piece after : List Char) : Prop :=
  ∃ before, text = before ++ (piece ++ after) ∧ span = ⟨byteLength before, byteLength (before ++ piece)⟩

/-- The spans before and between tokens, from an offset on. -/
def gapsFrom (offset : Nat) : List Token → List Span
  | [] => []
  | t :: ts => ⟨offset, t.span.start⟩ :: gapsFrom t.span.stop ts

/-- A token other than the end token stands where it says, is of the one kind that the text there denotes,
and could not have been longer. -/
structure Placed (text : List Char) (t : Token) : Prop where
  kind_ne : t.kind ≠ .eof
  nonempty : t.span.start < t.span.stop
  inRange : t.span.stop ≤ byteLength text
  slice : ∃ piece after, IsSlice text t.span piece after ∧ (∀ kind, Denotes piece kind ↔ kind = t.kind) ∧
    LongestMatch piece (piece ++ after)

theorem Denotes.ne_eof {piece : List Char} {kind : Kind} (h : Denotes piece kind) : kind ≠ .eof := by
  cases h with
  | mark hc =>
    rintro rfl
    simp [marks] at hc
  | _ => simp

theorem Covers.spec {text before rest : List Char} {offset : Nat} {tokens : List Token}
    (h : Covers offset rest tokens) (htext : text = before ++ rest) (hoffset : offset = byteLength before) :
    ∃ front, tokens = front ++ [⟨.eof, ⟨byteLength text, byteLength text⟩⟩] ∧ (∀ t ∈ front, Placed text t) ∧
      (∀ t ∈ front, offset ≤ t.span.start) ∧ front.Pairwise (fun s t => s.span.stop ≤ t.span.start) ∧
      ∀ span ∈ gapsFrom offset tokens, ∃ piece after, IsSlice text span piece after ∧ IsGap after piece := by
  induction h generalizing before with
  | @eof offset gap hgap =>
    subst htext hoffset
    refine ⟨[], by simp, nofun, nofun, .nil, fun span hspan => ?_⟩
    obtain rfl : span = _ := List.mem_singleton.1 hspan
    exact ⟨gap, [], ⟨before, by simp, by simp⟩, hgap⟩
  | @token offset start stop gap piece after kind ts hgap hne hdenotes hlongest hstart hstop hcovers ih =>
    have hrest : text = before ++ (gap ++ piece) ++ after := by simp [htext]
    have hnext : stop = byteLength (before ++ (gap ++ piece)) := by
      simp [hstop, hstart, hoffset, Nat.add_assoc]
    obtain ⟨front, rfl, hplaced, hbounds, hpairwise, hgaps⟩ := ih hrest hnext
    have hpos := Text.byteLength_pos hne
    have hkind (k : Kind) : Denotes piece k ↔ k = kind :=
      ⟨fun hk => hk.unique hdenotes, fun hk => hk ▸ hdenotes⟩
    have hslice : IsSlice text ⟨start, stop⟩ piece after :=
      ⟨before ++ gap, by simp [htext], by simp [hstop, hstart, hoffset, Nat.add_assoc]⟩
    refine ⟨⟨kind, ⟨start, stop⟩⟩ :: front, rfl, ?_, ?_, .cons hbounds hpairwise, ?_⟩
    · rw [List.forall_mem_cons]
      refine ⟨⟨hdenotes.ne_eof, ?_, ?_, piece, after, hslice, hkind, hlongest⟩, hplaced⟩
      · simp only
        omega
      · simp only [hnext, hrest, Text.byteLength_append]
        omega
    · rw [List.forall_mem_cons]
      refine ⟨?_, fun t ht => ?_⟩
      · simp only
        omega
      · have hlater := hbounds t ht
        omega
    · rw [gapsFrom, List.forall_mem_cons]
      exact ⟨⟨gap, piece ++ after, ⟨before, htext, by simp [hstart, hoffset]⟩, hgap⟩, hgaps⟩

/-- Tokens and gaps account for all of a text. -/
theorem tokens_account_for_text {text : String} {tokens : List Token} (h : tokenize text = .ok tokens) :
    ∃ front, tokens = front ++ [⟨.eof, ⟨text.utf8ByteSize, text.utf8ByteSize⟩⟩] ∧
      (∀ t ∈ front, Placed text.toList t) ∧ front.Pairwise (fun s t => s.span.stop ≤ t.span.start) ∧
      ∀ span ∈ gapsFrom 0 tokens, ∃ piece after,
        IsSlice text.toList span piece after ∧ IsGap after piece := by
  have hcovers : Covers 0 text.toList tokens := Cursor.stream_covers (tokenize_eq_ok.1 h)
  obtain ⟨front, hfront, hplaced, -, hpairwise, hgaps⟩ :=
    hcovers.spec (List.nil_append text.toList).symm rfl
  rw [Text.byteLength_toList] at hfront
  exact ⟨front, hfront, hplaced, hpairwise, hgaps⟩

/-- Comments beside slashes, openers inside a symbol, words that start as keywords do, a number that could
have had an exponent. -/
def scrawl : String := "unit km // x\n [k☃#]/1.5e3 units 2e #"

def scrawlTokens : List Token :=
  [⟨.keyword .unit, ⟨0, 4⟩⟩, ⟨.identifier "km", ⟨5, 7⟩⟩, ⟨.symbol "k☃#", ⟨14, 21⟩⟩, ⟨.slash, ⟨21, 22⟩⟩,
    ⟨.number 1500, ⟨22, 27⟩⟩, ⟨.identifier "units", ⟨28, 33⟩⟩, ⟨.number 2, ⟨34, 35⟩⟩,
    ⟨.identifier "e", ⟨35, 36⟩⟩, ⟨.eof, ⟨38, 38⟩⟩]

theorem tokenize_scrawl : tokenize scrawl = .ok scrawlTokens :=
  Fallible.toOption_eq_some.1 (by decide +kernel)

theorem scrawl_accounted : tokenize scrawl = .ok scrawlTokens ∧
    ∃ front, scrawlTokens = front ++ [⟨.eof, ⟨scrawl.utf8ByteSize, scrawl.utf8ByteSize⟩⟩] ∧
      (∀ t ∈ front, Placed scrawl.toList t) ∧ front.Pairwise (fun s t => s.span.stop ≤ t.span.start) ∧
      ∀ span ∈ gapsFrom 0 scrawlTokens, ∃ piece after,
        IsSlice scrawl.toList span piece after ∧ IsGap after piece :=
  ⟨tokenize_scrawl, tokens_account_for_text tokenize_scrawl⟩

end Token

end Metrology
