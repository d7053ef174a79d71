import Metrology.Token.Cursor

/-! A reader of tokens that can look one token ahead. Text that is no token is reported once, by
whichever step comes upon it, and reading goes on behind it. -/
namespace Metrology.Token

structure Lookahead where
  cursor : Cursor
  /-- A token that was looked at and not yet taken. -/
  peeked : Option Token
deriving DecidableEq, Repr

namespace Lookahead

def ofString (text : String) : Lookahead := ⟨Cursor.ofString text, none⟩

def next (r : Lookahead) : Except SyntaxError Token × Lookahead :=
  match r.peeked with
  | some token => (.ok token, ⟨r.cursor, none⟩)
  | none => (r.cursor.next.1, ⟨r.cursor.next.2, none⟩)

def peek (r : Lookahead) : Except SyntaxError Token × Lookahead :=
  match r.next with
  | (.ok token, r') => (.ok token, ⟨r'.cursor, some token⟩)
  | (.error e, r') => (.error e, r')

/-- Whether the next token has the shape of `kind`. -/
def check (r : Lookahead) (kind : Kind) : Except SyntaxError Bool × Lookahead :=
  match r.peek with
  | (.ok token, r') => (.ok (token.kind.sameShape kind), r')
  | (.error e, r') => (.error e, r')

def accept (r : Lookahead) (kind : Kind) : Except SyntaxError Bool × Lookahead :=
  match r.check kind with
  | (.ok true, r') => (.ok true, r'.next.2)
  | answer => answer

def expect (r : Lookahead) (kind : Kind) : Except SyntaxError Token × Lookahead :=
  match r.next with
  | (.ok token, r') =>
    if token.kind.sameShape kind then (.ok token, r')
    else (.error ⟨.expected kind token.kind, token.span⟩, r')
  | answer => answer

end Lookahead

end Metrology.Token
