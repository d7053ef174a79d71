import Mathlib.Logic.Function.Iterate
import Metrology.Proofs.Token.Stream
import Metrology.Token.Lookahead

/-! Looking ahead. A fresh reader has a stream before it: what it delivers when tokens are taken again and
again. However its steps are mixed, each acts on the next element of the stream that has not been used up, so
that nothing is lost and nothing comes twice. -/
namespace Metrology.Token

inductive Action
  | next
  | peek
  | check (kind : Kind)
  | accept (kind : Kind)
  | expect (kind : Kind)
deriving DecidableEq, Repr

abbrev Answer := Except SyntaxError (Token ⊕ Bool)

namespace Action

def answer (a : Action) (item : Except SyntaxError Token) : Answer :=
  match item, a with
  | .error e, _ => .error e
  | .ok t, next | .ok t, peek => .ok (.inl t)
  | .ok t, check kind | .ok t, accept kind => .ok (.inr (t.kind.sameShape kind))
  | .ok t, expect kind =>
    if t.kind.sameShape kind then .ok (.inl t) else .error ⟨.expected kind t.kind, t.span⟩

/-- Whether an action uses up the next element of the stream. Text that is no token is always used up. -/
def consumes (a : Action) (item : Except SyntaxError Token) : Bool :=
  match item, a with
  | .error _, _ | .ok _, next | .ok _, expect _ => true
  | .ok _, peek | .ok _, check _ => false
  | .ok t, accept kind => t.kind.sameShape kind

end Action

structure Entry where
  /-- The position in the stream that it acted on. -/
  position : Nat
  answer : Answer
  consumed : Bool

/-- What actions on a stream come to, from a position on. -/
def script (stream : Nat → Except SyntaxError Token) : Nat → List Action → List Entry
  | _, [] => []
  | n, a :: rest =>
    let consumed := a.consumes (stream n)
    ⟨n, a.answer (stream n), consumed⟩ :: script stream (if consumed then n + 1 else n) rest

section Script

variable (stream : Nat → Except SyntaxError Token) (n : Nat) (actions : List Action)

/-- Elements are used up one after the other. -/
theorem consumed_script : ((script stream n actions).filter (·.consumed)).map (·.position) =
    List.range' n ((script stream n actions).countP (·.consumed)) := by
  induction actions generalizing n with
  | nil => rfl
  | cons a rest ih =>
    rw [script]
    cases hconsumed : a.consumes (stream n) with
    | true => simp [ih, List.range'_succ]
    | false => simp [ih]

theorem le_position : ∀ entry ∈ script stream n actions, n ≤ entry.position := by
  induction actions generalizing n with
  | nil => exact List.forall_mem_nil _
  | cons a rest ih =>
    rw [script]
    refine List.forall_mem_cons.2 ⟨Nat.le_refl n, fun entry hentry => ?_⟩
    have hle := ih _ entry hentry
    split at hle <;> omega

/-- Text that is no token is reported once, by the first action that comes upon it. -/
theorem reports_script {k : Nat} {e : SyntaxError} (he : stream k = .error e) (hk : n ≤ k) :
    ((script stream n actions).filter (·.position = k)).map (·.answer) =
      if k < n + (script stream n actions).countP (·.consumed) then [.error e] else [] := by
  induction actions generalizing n with
  | nil => exact (if_neg (Nat.not_lt.2 hk)).symm
  | cons a rest ih =>
    rw [script]
    by_cases hn : n = k
    · subst hn
      have hlater : (script stream (n + 1) rest).filter (·.position = n) = [] := by
        rw [List.filter_eq_nil_iff]
        intro entry hentry
        have hle := le_position stream (n + 1) rest entry hentry
        simp only [decide_eq_true_eq]
        omega
      have hanswer : a.answer (.error e) = .error e := rfl
      have hconsumed : a.consumes (.error e) = true := rfl
      simp [he, hanswer, hconsumed, hlater]
    · cases hconsumed : a.consumes (stream n) with
      | true => simp [hn, ih (n + 1) (by omega), Nat.add_assoc, Nat.add_comm 1]
      | false => simp [hn, ih n hk]

end Script

namespace Lookahead

def perform (r : Lookahead) : Action → Answer × Lookahead
  | .next => (r.next.1.map .inl, r.next.2)
  | .peek => (r.peek.1.map .inl, r.peek.2)
  | .check kind => ((r.check kind).1.map .inr, (r.check kind).2)
  | .accept kind => ((r.accept kind).1.map .inr, (r.accept kind).2)
  | .expect kind => ((r.expect kind).1.map .inl, (r.expect kind).2)

def answers (r : Lookahead) : List Action → List Answer
  | [] => []
  | a :: rest => (r.perform a).1 :: (r.perform a).2.answers rest

def taken (text : String) (n : Nat) : Lookahead := (fun r => r.next.2)^[n] (ofString text)

def looked (text : String) (n : Nat) (t : Token) : Lookahead := ⟨(taken text (n + 1)).cursor, some t⟩

/-- The stream of a text: what taking tokens again and again from a fresh reader delivers. -/
def delivered (text : String) (n : Nat) : Except SyntaxError Token := (taken text n).next.1

theorem taken_succ (text : String) (n : Nat) : taken text (n + 1) = (taken text n).next.2 :=
  Function.iterate_succ_apply' _ n _

theorem taken_eq (text : String) (n : Nat) :
    taken text n = ⟨(fun c => c.next.2)^[n] (Cursor.ofString text), none⟩ := by
  induction n with
  | zero => rfl
  | succ n ih =>
    rw [taken_succ, ih, Function.iterate_succ_apply']
    rfl

/-- A reader stands before an element of the stream, and may have looked at it. -/
inductive StandsAt (text : String) (n : Nat) : Lookahead → Prop
  | taken : StandsAt text n (taken text n)
  | looked {t : Token} (item : delivered text n = .ok t) : StandsAt text n (looked text n t)

namespace StandsAt

variable {text : String} {n : Nat} {r : Lookahead}

/-- Taking delivers the element, whether it has been looked at or not. -/
theorem next_eq (h : StandsAt text n r) : r.next = (delivered text n, Lookahead.taken text (n + 1)) := by
  cases h with
  | taken => rw [taken_succ, delivered]
  | looked item => rw [Lookahead.looked, next, item, taken_eq]

/-- Every action reports text that is no token, and goes on behind it. -/
theorem perform_of_error (h : StandsAt text n r) {e : SyntaxError} (he : delivered text n = .error e)
    (a : Action) : r.perform a = (.error e, Lookahead.taken text (n + 1)) := by
  have hnext := h.next_eq
  rw [he] at hnext
  have hpeek : r.peek = (.error e, Lookahead.taken text (n + 1)) := by rw [peek, hnext]
  cases a with
  | next => rw [perform, hnext]; rfl
  | peek => rw [perform, hpeek]; rfl
  | check kind => rw [perform, check, hpeek]; rfl
  | accept kind => rw [perform, accept, check, hpeek]; rfl
  | expect kind => rw [perform, expect, hnext]; rfl

theorem perform_of_ok (h : StandsAt text n r) {t : Token} (ht : delivered text n = .ok t) (a : Action) :
    (r.perform a).1 = a.answer (.ok t) ∧
      StandsAt text (if a.consumes (.ok t) then n + 1 else n) (r.perform a).2 := by
  have hnext := h.next_eq
  rw [ht] at hnext
  have hpeek : r.peek = (.ok t, Lookahead.looked text n t) := by rw [peek, hnext]; rfl
  have hcheck (kind : Kind) : r.check kind = (.ok (t.kind.sameShape kind), Lookahead.looked text n t) := by
    rw [check, hpeek]
  cases a with
  | next =>
    rw [perform, hnext]
    exact ⟨rfl, .taken⟩
  | peek =>
    rw [perform, hpeek]
    exact ⟨rfl, .looked ht⟩
  | check kind =>
    rw [perform, hcheck]
    exact ⟨rfl, .looked ht⟩
  | accept kind =>
    rw [perform, accept, hcheck]
    dsimp only [Action.answer, Action.consumes]
    by_cases hshape : t.kind.sameShape kind = true
    · have htaken : (Lookahead.looked text n t).next.2 = Lookahead.taken text (n + 1) := by
        rw [(StandsAt.looked ht).next_eq]
      simp only [hshape, if_true, htaken]
      exact ⟨rfl, .taken⟩
    · simp only [hshape, Bool.false_eq_true, if_false]
      exact ⟨rfl, .looked ht⟩
  | expect kind =>
    rw [perform, expect, hnext]
    dsimp only [Action.answer, Action.consumes]
    by_cases hshape : t.kind.sameShape kind = true
    · simp only [hshape, if_true]
      exact ⟨rfl, .taken⟩
    · simp only [hshape, Bool.false_eq_true, if_false]
      exact ⟨rfl, .taken⟩

/-- An action acts on the next element, and goes on behind it if it uses it up. -/
theorem perform_spec (h : StandsAt text n r) (a : Action) :
    (r.perform a).1 = a.answer (delivered text n) ∧
      StandsAt text (if a.consumes (delivered text n) then n + 1 else n) (r.perform a).2 := by
  cases hitem : delivered text n with
  | ok t => exact h.perform_of_ok hitem a
  | error e =>
    rw [h.perform_of_error hitem a]
    exact ⟨rfl, .taken⟩

theorem answers_eq (h : StandsAt text n r) (actions : List Action) :
    r.answers actions = (script (delivered text) n actions).map (·.answer) := by
  induction actions generalizing n r with
  | nil => rfl
  | cons a rest ih =>
    obtain ⟨hanswer, hstands⟩ := h.perform_spec a
    rw [answers, script, List.map_cons, hanswer, ih hstands]

end StandsAt

end Lookahead

namespace Cursor

theorem exists_eof (c : Cursor) : ∃ stop eof, eof.kind = .eof ∧
    (∀ n, stop ≤ n → ((fun c => c.next.2)^[n] c).next.1 = .ok eof) ∧
      ∀ n < stop, ∀ t, ((fun c => c.next.2)^[n] c).next.1 = .ok t → t.kind ≠ .eof := by
  induction c using stream.induct with
  | case1 c hend =>
    have hnext : c.next = (.ok c.skipGap.eofToken, c.skipGap) := by simp [next, hend]
    have hstay : c.skipGap.next = (.ok c.skipGap.eofToken, c.skipGap) := by
      have hskip : c.skipGap.skipGap = c.skipGap := by
        generalize c.skipGap = d at hend
        obtain ⟨offset, rest⟩ := d
        obtain rfl : rest = [] := hend
        rfl
      simp [next, hskip, hend]
    refine ⟨0, c.skipGap.eofToken, rfl, fun n _ => ?_, fun n hn => absurd hn n.not_lt_zero⟩
    cases n with
    | zero => exact congrArg Prod.fst hnext
    | succ n =>
      rw [Function.iterate_succ_apply, hnext, Function.iterate_fixed (congrArg Prod.snd hstay)]
      exact congrArg Prod.fst hstay
  | case2 c hmore ih =>
    have hnext : c.next = c.skipGap.item := by simp [next, hmore]
    obtain ⟨stop, eof, heof, hafter, hbefore⟩ := ih
    refine ⟨stop + 1, eof, heof, fun n hn => ?_, fun n hn t ht => ?_⟩
    · cases n with
      | zero => omega
      | succ n =>
        rw [Function.iterate_succ_apply, hnext]
        exact hafter n (by omega)
    · cases n with
      | zero =>
        rw [Function.iterate_zero_apply, hnext] at ht
        exact (item_eq_ok ht).1
      | succ n =>
        rw [Function.iterate_succ_apply, hnext] at ht
        exact hbefore n (by omega) t ht

end Cursor

namespace Lookahead

/-- Looking ahead neither loses nor repeats anything. The stream of a text ends in one end token for ever. Whatever
is done with a reader, each action acts on the next element of the stream that has not been used up. So
elements are used up in their order, each once, and text that is no token is reported by the one action that comes
upon it. -/
theorem actions_follow_stream (text : String) (actions : List Action) :
    (∃ stop eof, eof.kind = .eof ∧ (∀ n, stop ≤ n → delivered text n = .ok eof) ∧
      ∀ n < stop, ∀ t, delivered text n = .ok t → t.kind ≠ .eof) ∧
    let entries := script (delivered text) 0 actions
    (ofString text).answers actions = entries.map (·.answer) ∧
    (entries.filter (·.consumed)).map (·.position) = List.range (entries.countP (·.consumed)) ∧
    ∀ n e, delivered text n = .error e → (entries.filter (·.position = n)).map (·.answer) =
      if n < entries.countP (·.consumed) then [.error e] else [] := by
  refine ⟨?_, ?_, ?_, fun n e he => ?_⟩
  · simp only [delivered, taken_eq]
    exact (Cursor.ofString text).exists_eof
  · have hfresh : StandsAt text 0 (ofString text) := .taken
    exact hfresh.answers_eq actions
  · rw [List.range_eq_range']
    exact consumed_script _ 0 actions
  · rw [reports_script _ 0 actions he (Nat.zero_le n), Nat.zero_add]

end Lookahead

end Metrology.Token
