import Metrology.Proofs.Fallible
import Metrology.Token.Cursor

/-! The tokens of a text. They lie one behind the other, and only the last is the end token. -/
namespace Metrology

theorem Span.merge_of_le {a b : Span} (hstart : a.start ≤ b.start) (hstop : a.stop ≤ b.stop) :
    a.merge b = ⟨a.start, b.stop⟩ := by
  rw [merge, Nat.min_eq_left hstart, Nat.max_eq_right hstop]

namespace Token

/-- Tokens other than the end token that lie one behind the other from an offset on. -/
inductive Laid : Nat → List Token → Prop
  | nil {offset : Nat} : Laid offset []
  | cons {offset : Nat} {t : Token} {ts : List Token} : t.kind ≠ .eof → offset ≤ t.span.start →
      t.span.start ≤ t.span.stop → Laid t.span.stop ts → Laid offset (t :: ts)

theorem Laid.kind_ne_eof {offset : Nat} {tokens : List Token} (h : Laid offset tokens) :
    ∀ t ∈ tokens, t.kind ≠ .eof := by
  induction h with
  | nil => exact nofun
  | cons hkind _ _ _ ih => exact List.forall_mem_cons.2 ⟨hkind, ih⟩

theorem wordKind_ne_eof (word : String) : wordKind word ≠ .eof := by
  unfold wordKind
  repeat' split
  all_goals exact nofun

/-- Only the end of a text reads as the end token. -/
theorem denote_ne_eof {text : List Char} (h : text ≠ []) : denote text ≠ .eof := by
  unfold denote
  split
  case h_12 =>
    split
    · exact nofun
    · exact wordKind_ne_eof _
  case h_13 => exact absurd rfl h
  all_goals exact nofun

namespace Cursor

theorem offset_skipGap (c : Cursor) : c.offset ≤ c.skipGap.offset := Nat.le_add_right _ _

theorem item_eq_ok {c : Cursor} {t : Token} (h : c.item.1 = .ok t) :
    t.kind ≠ .eof ∧ t.span.start = c.offset ∧ t.span.stop = c.item.2.offset ∧
      t.span.start ≤ t.span.stop := by
  unfold item at h ⊢
  split at h
  · cases h
  · next hne =>
    cases h
    exact ⟨denote_ne_eof hne, rfl, rfl, Nat.le_add_right _ _⟩

/-- A text without faults is laid out as tokens, up to the end token. -/
theorem stream_laid {c : Cursor} {tokens : List Token} (h : c.stream = tokens.map .ok) :
    ∃ before eof, tokens = before ++ [eof] ∧ eof.kind = .eof ∧ Laid c.offset before := by
  induction c using stream.induct generalizing tokens with
  | case1 c hend =>
    rw [stream, dif_pos hend] at h
    obtain ⟨eof, rfl, heof⟩ := List.map_eq_singleton_iff.1 h.symm
    cases heof
    exact ⟨[], _, rfl, rfl, .nil⟩
  | case2 c hmore ih =>
    rw [stream, dif_neg hmore] at h
    obtain ⟨t, ts, rfl, hitem, hrest⟩ := List.map_eq_cons_iff.1 h.symm
    obtain ⟨before, eof, rfl, heof, hlaid⟩ := ih hrest.symm
    obtain ⟨hkind, hstart, hstop, hle⟩ := item_eq_ok hitem.symm
    refine ⟨t :: before, eof, rfl, heof, .cons hkind ?_ hle (hstop ▸ hlaid)⟩
    rw [hstart]
    exact c.offset_skipGap

end Cursor

theorem tokenize_eq_ok {text : String} {tokens : List Token} :
    tokenize text = .ok tokens ↔ (Cursor.ofString text).stream = tokens.map .ok :=
  Fallible.mapM_id_eq_ok

end Token

end Metrology
