import Mathlib.Data.String.Basic
import Mathlib.Tactic.Tauto
import Metrology.Proofs.Token.Layout

/-! Texts that are written anew, with one space between tokens. No token has a blank in it, so in front of a
space the longest match is the token that stands there, and the new text reads as the old one does. -/
namespace Metrology

namespace Text

theorem byteLength_eq_utf8Len (cs : List Char) : byteLength cs = String.utf8Len cs := by
  induction cs with
  | nil => rfl
  | cons c cs ih => rw [byteLength_cons, String.utf8Len_cons, ih, Nat.add_comm]

end Text

namespace Token

open Text (byteLength)

def slice (text : String) (t : Token) : String :=
  String.Pos.Raw.extract text ⟨t.span.start⟩ ⟨t.span.stop⟩

theorem slice_eq {text : String} {t : Token} {piece after : List Char}
    (h : IsSlice text.toList t.span piece after) : t.slice text = String.ofList piece := by
  obtain ⟨before, htext, hspan⟩ := h
  have hofList : text = String.ofList (before ++ piece ++ after) := by
    rw [List.append_assoc, ← htext, String.ofList_toList]
  rw [slice, hspan, hofList, Text.byteLength_append, Text.byteLength_eq_utf8Len,
    Text.byteLength_eq_utf8Len]
  exact String.extract_of_valid before piece after

/-! ### Blanks -/

theorem isSpace_eq_false {p : Char → Bool} (hp : [' ', '\t', '\n', '\r', '\x0c'].all (! p ·) = true) {c : Char}
    (hc : p c = true) : isSpace c = false := by
  by_contra hspace
  have hblank := List.all_eq_true.1 hp c (isSpace_iff.1 (by simpa using hspace))
  rw [hc] at hblank
  cases hblank

theorem isSpace_of_isWordChar {c : Char} (hc : isWordChar c = true) : isSpace c = false :=
  isSpace_eq_false rfl hc

theorem isSpace_of_isSymbolChar {c : Char} (hc : isSymbolChar c = true) : isSpace c = false :=
  isSpace_eq_false rfl hc

theorem isSpace_of_isDigit {c : Char} (hc : c.isDigit = true) : isSpace c = false :=
  isSpace_eq_false rfl hc

theorem isWordChar_of_isWordStart {c : Char} (hc : isWordStart c = true) : isWordChar c = true := by
  simp only [isWordStart, Bool.or_eq_true, isWordChar, Char.isAlphanum] at hc ⊢
  tauto

theorem isSpace_of_isFraction {cs : List Char} (h : Decimal.IsFraction cs) : ∀ c ∈ cs, isSpace c = false := by
  cases h with
  | none => exact List.forall_mem_nil _
  | digits _ hds => exact List.forall_mem_cons.2 ⟨rfl, fun c hc => isSpace_of_isDigit (hds c hc)⟩

theorem isSpace_of_isPower {cs : List Char} (h : Decimal.IsPower cs) : ∀ c ∈ cs, isSpace c = false := by
  cases h with
  | none => exact List.forall_mem_nil _
  | plain hmark _ hds =>
    refine List.forall_mem_cons.2 ⟨?_, fun c hc => isSpace_of_isDigit (hds c hc)⟩
    rcases hmark with rfl | rfl <;> rfl
  | signed hmark hsign _ hds =>
    refine List.forall_mem_cons.2 ⟨?_, List.forall_mem_cons.2 ⟨?_, fun c hc => isSpace_of_isDigit (hds c hc)⟩⟩
    · rcases hmark with rfl | rfl <;> rfl
    · rcases hsign with rfl | rfl <;> rfl

namespace Denotes

variable {piece after : List Char} {kind : Kind}

/-- No token has a blank in it. -/
theorem isSpace_eq_false (h : Denotes piece kind) : ∀ c ∈ piece, isSpace c = false := by
  have hword {c : Char} {cs : List Char} (hc : isWordStart c = true) (hcs : ∀ d ∈ cs, isWordChar d = true) :
      ∀ d ∈ c :: cs, isSpace d = false :=
    List.forall_mem_cons.2 ⟨isSpace_of_isWordChar (isWordChar_of_isWordStart hc),
      fun d hd => isSpace_of_isWordChar (hcs d hd)⟩
  cases h with
  | keyword word =>
    obtain ⟨c, cs, htext, hc, hcs⟩ := word.text_eq_cons
    rw [htext]
    exact hword hc hcs
  | identifier hc hcs _ => exact hword hc hcs
  | symbol _ hbody =>
    refine List.forall_mem_cons.2 ⟨rfl, List.forall_mem_append.2 ⟨?_, List.forall_mem_singleton.2 rfl⟩⟩
    exact fun c hc => isSpace_of_isSymbolChar (hbody c hc)
  | number hregular _ _ =>
    refine List.forall_mem_append.2 ⟨List.forall_mem_append.2 ⟨?_, ?_⟩, ?_⟩
    · exact fun c hc => isSpace_of_isDigit (hregular.whole c hc)
    · exact isSpace_of_isFraction hregular.fraction
    · exact isSpace_of_isPower hregular.power
  | arrow => exact List.forall_mem_cons.2 ⟨rfl, List.forall_mem_singleton.2 rfl⟩
  | backArrow => exact List.forall_mem_cons.2 ⟨rfl, List.forall_mem_singleton.2 rfl⟩
  | mark hc =>
    refine List.forall_mem_singleton.2 (Token.isSpace_eq_false (p := fun c => c ∈ marks.map Prod.fst) rfl ?_)
    exact decide_eq_true (List.mem_map_of_mem hc)

theorem ne_nil (h : Denotes piece kind) : piece ≠ [] := by
  cases h with
  | keyword word =>
    obtain ⟨c, cs, htext, -⟩ := word.text_eq_cons
    rw [htext]
    exact List.cons_ne_nil c cs
  | number _ hwhole _ =>
    intro hnil
    simp [Decimal.Numeral.text, hwhole] at hnil
  | _ => exact List.cons_ne_nil _ _

/-- In front of a space, or at the end, the longest match is the token that stands there. -/
theorem lexeme_append (h : Denotes piece kind) (hafter : ∀ c ∈ after.head?, c = ' ') :
    lexeme (piece ++ after) = piece := by
  have hlonger := length_le_lexeme h after
  have hne : lexeme (piece ++ after) ≠ [] := by
    intro hnil
    rw [hnil] at hlonger
    exact h.ne_nil (List.eq_nil_of_length_eq_zero (Nat.le_zero.1 hlonger))
  obtain ⟨hbegins, hdenotes⟩ := lexeme_spec hne
  obtain ⟨more, hmore⟩ := List.prefix_of_prefix_length_le (List.prefix_append piece after) hbegins hlonger
  cases more with
  | nil => rw [← hmore, List.append_nil]
  | cons c more =>
    -- a match that went on would have the space in it
    rw [← hmore, List.prefix_append_right_inj] at hbegins
    obtain ⟨rest, rfl⟩ := hbegins
    obtain rfl : c = ' ' := hafter c rfl
    have hmem : ' ' ∈ piece ++ ' ' :: more := List.mem_append_right piece List.mem_cons_self
    rw [hmore] at hmem
    cases hdenotes.isSpace_eq_false ' ' hmem

/-- There is nothing to skip in front of such a token. -/
theorem gap_append (h : Denotes piece kind) (hafter : ∀ c ∈ after.head?, c = ' ') :
    gap false (piece ++ after) = [] := by
  have hlexeme := h.lexeme_append hafter
  rcases gap_cases (piece ++ after) with hnil | ⟨c, rest, hsplit, hc⟩ | ⟨opener, rest, hsplit, hopener⟩
  · exact hnil
  · obtain ⟨d, ds, rfl⟩ := List.exists_cons_of_ne_nil h.ne_nil
    obtain ⟨rfl, -⟩ := List.cons.inj hsplit
    rw [h.isSpace_eq_false d List.mem_cons_self] at hc
    cases hc
  · rw [hsplit] at hlexeme
    simp only [List.mem_cons, List.not_mem_nil, or_false] at hopener
    rcases hopener with rfl | rfl
    · exact absurd hlexeme.symm h.ne_nil
    · -- a slash is a token only if no other follows
      obtain rfl : ['/'] = piece := hlexeme
      obtain rfl : after = '/' :: rest := (List.cons.inj hsplit).2
      cases hafter '/' rfl

end Denotes

namespace Cursor

variable {piece after : List Char} {kind : Kind}

theorem stream_append (h : Denotes piece kind) (hafter : ∀ c ∈ after.head?, c = ' ') (offset : Nat) :
    stream ⟨offset, piece ++ after⟩ =
      .ok ⟨kind, ⟨offset, offset + byteLength piece⟩⟩ :: stream ⟨offset + byteLength piece, after⟩ := by
  have hskip : skipGap ⟨offset, piece ++ after⟩ = ⟨offset, piece ++ after⟩ := by
    rw [skipGap, h.gap_append hafter]
    rfl
  have hlexeme : lexeme (piece ++ after) = piece := h.lexeme_append hafter
  have hitem : item ⟨offset, piece ++ after⟩ =
      (.ok ⟨kind, ⟨offset, offset + byteLength piece⟩⟩, ⟨offset + byteLength piece, after⟩) := by
    rw [item_of_lexeme (by rw [hlexeme]; exact h.ne_nil), hlexeme, ← h.eq_denote, skip_append rfl]
    rfl
  have hmore : piece ++ after ≠ [] := List.append_ne_nil_of_left_ne_nil h.ne_nil after
  rw [stream, hskip, dif_neg hmore, hitem]

theorem stream_space (offset : Nat) (after : List Char) :
    stream ⟨offset, ' ' :: after⟩ = stream ⟨offset + 1, after⟩ := by
  have hskip : skipGap ⟨offset, ' ' :: after⟩ = skipGap ⟨offset + 1, after⟩ := by
    simp only [skipGap, skip, gap_space (c := ' ') rfl, Text.byteLength_cons, List.length_cons,
      List.drop_succ_cons, Nat.add_assoc]
    rfl
  rw [stream, hskip, ← stream]

theorem intercalate_concat_nil (pieces : List (List Char)) : ∃ ending, (ending = [] ∨ ending = [' ']) ∧
    [' '].intercalate (pieces ++ [[]]) = [' '].intercalate pieces ++ ending := by
  induction pieces with
  | nil => exact ⟨[], .inl rfl, rfl⟩
  | cons piece pieces ih =>
    cases pieces with
    | nil => exact ⟨[' '], .inr rfl, by simp [List.intercalate_cons_cons]⟩
    | cons second pieces =>
      obtain ⟨ending, hending, hrest⟩ := ih
      refine ⟨ending, hending, ?_⟩
      rw [List.cons_append, List.cons_append, List.intercalate_cons_cons, ← List.cons_append, hrest,
        List.intercalate_cons_cons, ← List.append_assoc]

theorem intercalate_cons_append (piece : List Char) (pieces : List (List Char)) {ending : List Char}
    (hending : ending = [] ∨ ending = [' ']) : ∃ after,
      [' '].intercalate (piece :: pieces) ++ ending = piece ++ after ∧ (∀ c ∈ after.head?, c = ' ') ∧
        ∀ offset, ∃ offset', stream ⟨offset, after⟩ = stream ⟨offset', [' '].intercalate pieces ++ ending⟩ := by
  cases pieces with
  | nil =>
    refine ⟨ending, by rw [List.intercalate_singleton], ?_, fun offset => ⟨offset, rfl⟩⟩
    rcases hending with rfl | rfl <;> simp
  | cons second pieces =>
    refine ⟨' ' :: ([' '].intercalate (second :: pieces) ++ ending), ?_, by simp, fun offset => ⟨offset + 1, ?_⟩⟩
    · rw [List.intercalate_cons_cons]
      simp
    · exact stream_space offset _

/-- Pieces with spaces between them are read one by one. -/
theorem stream_spaced {pieces : List (List Char)} {kinds : List Kind} (h : List.Forall₂ Denotes pieces kinds)
    {ending : List Char} (hending : ending = [] ∨ ending = [' ']) (offset : Nat) :
    ∃ tokens : List Token, stream ⟨offset, [' '].intercalate pieces ++ ending⟩ = tokens.map .ok ∧
      tokens.map (·.kind) = kinds ++ [.eof] := by
  induction h generalizing offset with
  | nil =>
    have hend (offset : Nat) : stream ⟨offset, []⟩ = [.ok ⟨.eof, ⟨offset, offset⟩⟩] := by
      have hrest : (skipGap ⟨offset, []⟩).rest = [] := rfl
      rw [stream, dif_pos hrest]
      rfl
    rw [List.intercalate_nil, List.nil_append]
    rcases hending with rfl | rfl
    · exact ⟨[_], hend offset, rfl⟩
    · rw [stream_space]
      exact ⟨[_], hend (offset + 1), rfl⟩
  | @cons piece kind pieces kinds hpiece _ ih =>
    obtain ⟨after, hsplit, hafter, hstream⟩ := intercalate_cons_append piece pieces hending
    obtain ⟨offset', hrest⟩ := hstream (offset + byteLength piece)
    obtain ⟨tokens, htokens, hkinds⟩ := ih offset'
    refine ⟨⟨kind, ⟨offset, offset + byteLength piece⟩⟩ :: tokens, ?_, congrArg (kind :: ·) hkinds⟩
    rw [hsplit, stream_append hpiece hafter, hrest, htokens, List.map_cons]

end Cursor

theorem exists_slices {text : String} {tokens : List Token} (h : tokenize text = .ok tokens) :
    ∃ front eof, tokens = front ++ [eof] ∧ eof.kind = .eof ∧ eof.slice text = "" ∧
      ∀ t ∈ front, Denotes (t.slice text).toList t.kind := by
  have hcovers : Covers 0 text.toList tokens := Cursor.stream_covers (tokenize_eq_ok.1 h)
  obtain ⟨front, rfl, hplaced, -⟩ := hcovers.spec (List.nil_append text.toList).symm rfl
  refine ⟨front, _, rfl, rfl, ?_, fun t ht => ?_⟩
  · have hend : IsSlice text.toList ⟨byteLength text.toList, byteLength text.toList⟩ [] [] :=
      ⟨text.toList, by simp, by simp⟩
    exact slice_eq hend
  · obtain ⟨piece, after, hslice, hdenotes, -⟩ := (hplaced t ht).slice
    rw [slice_eq hslice, String.toList_ofList]
    exact (hdenotes t.kind).2 rfl

/-- The tokens of a text, written anew with single spaces between them, are read as tokens of the same kinds.
It does not matter whether the empty slice of the end token is written, too. -/
theorem respacing_keeps_kinds {text : String} {tokens : List Token} (h : tokenize text = .ok tokens) :
    ∀ written ∈ [tokens, tokens.dropLast], ∃ tokens',
      tokenize (" ".intercalate (written.map (slice text))) = .ok tokens' ∧
        tokens'.map (·.kind) = tokens.map (·.kind) := by
  obtain ⟨front, eof, rfl, heof, hempty, hdenotes⟩ := exists_slices h
  have hpieces : List.Forall₂ Denotes (front.map fun t => (t.slice text).toList) (front.map (·.kind)) := by
    rw [List.forall₂_map_left_iff, List.forall₂_map_right_iff, List.forall₂_same]
    exact hdenotes
  have hkinds : (front ++ [eof]).map (·.kind) = front.map (·.kind) ++ [.eof] := by simp [heof]
  have hread {written : List String} {ending : List Char} (hending : ending = [] ∨ ending = [' '])
      (hwritten : (" ".intercalate written).toList =
        [' '].intercalate (front.map fun t => (t.slice text).toList) ++ ending) :
      ∃ tokens', tokenize (" ".intercalate written) = .ok tokens' ∧
        tokens'.map (·.kind) = (front ++ [eof]).map (·.kind) := by
    obtain ⟨tokens', hstream, hkinds'⟩ := Cursor.stream_spaced hpieces hending 0
    refine ⟨tokens', tokenize_eq_ok.2 ?_, hkinds'.trans hkinds.symm⟩
    rw [Cursor.ofString, hwritten]
    exact hstream
  have hspace : " ".toList = [' '] := by decide +kernel
  rw [List.dropLast_concat, List.forall_mem_cons, List.forall_mem_singleton]
  constructor
  · obtain ⟨ending, hending, hconcat⟩ :=
      Cursor.intercalate_concat_nil (front.map fun t => (t.slice text).toList)
    refine hread hending ?_
    rw [← hconcat, String.toList_intercalate, hspace]
    simp [hempty, Function.comp_def]
  · refine hread (.inl rfl) ?_
    rw [String.toList_intercalate, hspace, List.map_map, List.append_nil]
    rfl

/-- So it is where tokens stood side by side, or had comment openers in them. -/
theorem scrawl_respaced : tokenize scrawl = .ok scrawlTokens ∧
    ∀ written ∈ [scrawlTokens, scrawlTokens.dropLast], ∃ tokens',
      tokenize (" ".intercalate (written.map (slice scrawl))) = .ok tokens' ∧
        tokens'.map (·.kind) = scrawlTokens.map (·.kind) :=
  ⟨tokenize_scrawl, respacing_keeps_kinds tokenize_scrawl⟩

end Token

end Metrology
