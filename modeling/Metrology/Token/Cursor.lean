import Metrology.Token

/-! Reading tokens off a text. A `Cursor` stands at a byte offset of the text; the stream of a
cursor is everything that repeated reading delivers, up to the end of the text. -/
namespace Metrology.Token

def isSpace (c : Char) : Bool :=
  c = ' ' || c = '\t' || c = '\n' || c = '\r' || c = '\x0c'

/-- The longest run of blanks and comments at the front; `inComment` tells whether the text starts
inside a comment, which runs to the end of its line. -/
def gap (inComment : Bool) : List Char → List Char
  | [] => []
  | c :: cs =>
    if inComment then c :: gap (c ≠ '\n') cs
    else if isSpace c then c :: gap false cs
    else if c = '#' then c :: gap true cs
    else match c, cs with
      | '/', '/' :: rest => '/' :: '/' :: gap true rest
      | _, _ => []

structure Cursor where
  offset : Nat
  rest : List Char
deriving DecidableEq, Repr

namespace Cursor

def ofString (text : String) : Cursor := ⟨0, text.toList⟩

def skip (c : Cursor) (text : List Char) : Cursor :=
  ⟨c.offset + Text.byteLength text, c.rest.drop text.length⟩

def skipGap (c : Cursor) : Cursor := c.skip (gap false c.rest)

def spanOf (c : Cursor) (text : List Char) : Span :=
  ⟨c.offset, c.offset + Text.byteLength text⟩

/-- The token or the refused text at a cursor that stands behind a gap. -/
def item (c : Cursor) : Except SyntaxError Token × Cursor :=
  match lexeme c.rest with
  | [] =>
    let text := refused c.rest
    (.error ⟨.unexpectedInput (String.ofList text), c.spanOf text⟩, c.skip text)
  | text => (.ok ⟨denote text, c.spanOf text⟩, c.skip text)

def eofToken (c : Cursor) : Token := ⟨.eof, ⟨c.offset, c.offset⟩⟩

/-- Reads on behind the next gap. At the end of the text every reading gives the end token. -/
def next (c : Cursor) : Except SyntaxError Token × Cursor :=
  let c := c.skipGap
  if c.rest.isEmpty then (.ok c.eofToken, c) else c.item

theorem refused_ne_nil {cs : List Char} (h : cs ≠ []) : refused cs ≠ [] := by
  cases cs with
  | nil => contradiction
  | cons c cs => unfold refused; split <;> simp_all

theorem length_skip_lt {c : Cursor} {text : List Char} (hc : c.rest ≠ []) (ht : text ≠ []) :
    (c.skip text).rest.length < c.rest.length := by
  have := List.length_pos_iff.2 hc
  have := List.length_pos_iff.2 ht
  simp only [skip, List.length_drop]
  omega

theorem length_item_lt {c : Cursor} (hc : c.rest ≠ []) :
    c.item.2.rest.length < c.rest.length := by
  unfold item
  split
  · exact length_skip_lt hc (refused_ne_nil hc)
  · next h => exact length_skip_lt hc h

theorem length_skipGap_le (c : Cursor) : c.skipGap.rest.length ≤ c.rest.length := by
  simp [skipGap, skip]

/-- All that reading delivers, in order, with one end token at the end. -/
def stream (c : Cursor) : List (Except SyntaxError Token) :=
  if _ : c.skipGap.rest = [] then [.ok c.skipGap.eofToken]
  else c.skipGap.item.1 :: stream c.skipGap.item.2
termination_by c.rest.length
decreasing_by exact Nat.lt_of_lt_of_le (length_item_lt ‹_›) (length_skipGap_le c)

end Cursor

def tokenize (text : String) : Except SyntaxError (List Token) :=
  (Cursor.ofString text).stream.mapM id

end Metrology.Token
