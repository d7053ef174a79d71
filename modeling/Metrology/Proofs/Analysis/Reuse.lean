import Metrology.Proofs.Analysis.Persistence
import Metrology.Proofs.Analysis.Tandem.Stmt
import Metrology.Proofs.Catalog.Naming
import Metrology.Proofs.Signature

/-! Results of bodies that are used again. Where the names of units tell them apart and no function comes back
to itself, walking a body once more for arguments of the same shapes gives the same result, and adds nothing
to a log that does not stand there already. -/
namespace Metrology

open Catalog

namespace Analysis

variable {desc : Description Float} {c : Catalog Float} {t : Signatures} {p : Program}

/-- What fits one shape and is described in the same words differs only in what is known of it. -/
theorem forgotten_eq_of_coerce (apart : c.NamesApart) {shape : Shape} {v v' w w' : Value Float}
    (hw : Typing.coerce c shape v = .ok w) (hw' : Typing.coerce c shape v' = .ok w') (hcovers : c.Covers w)
    (hcovers' : c.Covers w') (hwords : w'.describe = w.describe) : w'.forgotten = w.forgotten := by
  cases shape with
  | number =>
    cases v <;> cases hw
    cases v' <;> cases hw'
    exact congrArg (fun u => Value.measurement (.unknown u)) (apart _ _ hcovers' hcovers hwords)
  | _ => rw [Typing.forgotten_of_coerce hw nofun, Typing.forgotten_of_coerce hw' nofun]

/-- Of arguments that fit the same parameters and are described in the same words, nothing is known that
tells them apart. -/
theorem Fits.forgotten_eq (apart : c.NamesApart) {params : List (String × TypeRef)}
    {bindings bindings' : Bindings Float} (h : Fits c params bindings) (h' : Fits c params bindings')
    (hwords : bindings'.map (·.2.describe) = bindings.map (·.2.describe)) :
    bindings'.forgotten = bindings.forgotten := by
  induction h generalizing bindings' with
  | nil =>
    cases h'
    rfl
  | @cons param b params bindings hb _ ih =>
    cases h' with
    | @cons _ b' _ bindings' hb' h' =>
      obtain ⟨hname, hcovers, shape, v, hshape, hv⟩ := hb
      obtain ⟨hname', hcovers', shape', v', hshape', hv'⟩ := hb'
      obtain rfl : shape = shape' := Option.some.inj (hshape.symm.trans hshape')
      obtain ⟨hword, hwords⟩ := List.cons.inj hwords
      have hvalue := forgotten_eq_of_coerce apart hv hv' hcovers hcovers' hword
      have hfirst : (b'.1, b'.2.forgotten) = (b.1, b.2.forgotten) := by
        rw [hname', hname, hvalue]
      exact List.cons_eq_cons.2 ⟨hfirst, ih h' hwords⟩

/-- A call on the way from the entry point, with arguments that fit. -/
structure Due (c : Catalog Float) (t : Signatures) (p : Program) (active : List NodeId) (f : FunctionDecl)
    (bindings : Bindings Float) : Prop where
  declared : f ∈ p.functions
  owned : t.owns f = true
  inner : p.Inner f.name
  leads : p.Leads active f.name
  fits : Fits c (Signature.ofDecl f).params bindings

namespace Due

variable {active : List NodeId} {f : FunctionDecl} {bindings : Bindings Float}

theorem function?_eq (hids : p.ids.Nodup) (h : Due c t p active f bindings) (reuse : Bool) :
    (Setting.ofProgram c t p reuse).function? f.id = some f := by
  have hmem : f ∈ (Setting.ofProgram c t p reuse).functions.reverse :=
    List.mem_reverse.2 (List.mem_filter.2 ⟨h.declared, h.owned⟩)
  cases hfound : (Setting.ofProgram c t p reuse).function? f.id with
  | none => exact absurd (List.find?_eq_none.1 hfound f hmem) (by simp)
  | some g =>
    have hg := (List.mem_filter.1 (Setting.mem_of_function? hfound)).1
    rw [Program.function_of_id hids hg h.declared (Setting.id_of_function? hfound)]

theorem inactive (acyclic : p.Acyclic) (h : Due c t p active f bindings) : f.id ∉ active :=
  fun hmem => acyclic f.name (h.leads f h.declared hmem)

theorem isEntry_eq (acyclic : p.Acyclic) (ht : Signatures.collect p = .ok t)
    (h : Due c t p active f bindings) : f.isEntry = false := by
  obtain ⟨e, he, hentry, hreach⟩ := h.inner
  rw [← Bool.not_eq_true]
  intro hf
  rw [Signatures.entry_unique ht he h.declared hentry hf] at hreach
  exact acyclic f.name hreach

end Due

/-- The scopes of a walk lie on a given global scope. -/
structure AtHome (c : Catalog Float) (G : Scope Float) (s : State) : Prop where
  global : s.scopes.global = G
  reserved : s.scopes.reserved = c.reservedWords

theorem AtHome.of_sameScopes {G : Scope Float} {s s' : State} (h : AtHome c G s) (hs : SameScopes s s') :
    AtHome c G s' := by
  rw [SameScopes] at hs
  exact ⟨hs ▸ h.global, hs ▸ h.reserved⟩

structure Housed (c : Catalog Float) (G : Scope Float) (L : State → State → Prop) (s s' : State) : Prop where
  home : AtHome c G s
  home' : AtHome c G s'
  history : L s s'

/-- Walking a body afresh, wherever arguments have the given shapes, gives the result and says nothing that is
not in the log. -/
def Settled (c : Catalog Float) (t : Signatures) (p : Program) (G : Scope Float) (key : InstanceKey)
    (result : Option (Value Float)) (log : List Event) : Prop :=
  ∀ f active bindings s, f.id = key.1 → Due c t p active f bindings → instanceKey f.id bindings = key →
    AtHome c G s →
    ((Walk.enter (.ofProgram c t p false) active f.id bindings).run s).1 = result ∧
      CatchesUp p.outerIds log s.log
        ((Walk.enter (.ofProgram c t p false) active f.id bindings).run s).2.log

/-- All results that are kept are settled. -/
def Trusted (c : Catalog Float) (t : Signatures) (p : Program) (G : Scope Float) (s : State) : Prop :=
  ∀ key result, s.instances.lookup key = some result →
    c.CoversAny result ∧ Settled c t p G key result s.log

namespace Settled

variable {G : Scope Float} {key : InstanceKey} {result : Option (Value Float)} {log log' : List Event}

theorem mono (h : Settled c t p G key result log) (hlog : ∀ e ∈ log, e ∈ log') :
    Settled c t p G key result log' := by
  intro f active bindings s hid due hkey home
  obtain ⟨hresult, hcatch⟩ := h f active bindings s hid due hkey home
  exact ⟨hresult, hcatch.mono hlog⟩

end Settled

namespace Trusted

variable {G : Scope Float} {s s' : State}

theorem mono (h : Trusted c t p G s) (hinstances : s'.instances = s.instances)
    (hlog : ∀ e ∈ s.log, e ∈ s'.log) : Trusted c t p G s' := by
  intro key result hkey
  rw [hinstances] at hkey
  exact ⟨(h key result hkey).1, (h key result hkey).2.mono hlog⟩

theorem note (h : Trusted c t p G s) (e : Event) : Trusted c t p G ((Walk.note e).run s).2 :=
  h.mono rfl fun _ hmem => List.mem_cons_of_mem e hmem

theorem push (h : Trusted c t p G s) {key : InstanceKey} {result : Option (Value Float)}
    (hcovers : c.CoversAny result) (hsettled : Settled c t p G key result s.log) :
    Trusted c t p G { s with instances := (key, result) :: s.instances } := by
  intro key' result' hlookup
  rw [List.lookup_cons] at hlookup
  split at hlookup
  · next hsame =>
    cases hlookup
    rw [eq_of_beq hsame]
    exact ⟨hcovers, hsettled⟩
  · exact h key' result' hlookup

end Trusted

/-- A walk that keeps results and one that does not, since two given states. -/
structure Following (c : Catalog Float) (t : Signatures) (p : Program) (G : Scope Float) (s₀ s₀' s s' : State) :
    Prop where
  trusted : Trusted c t p G s
  catches : CatchesUp p.outerIds s.log s₀'.log s'.log
  shows : ShowsSame p.outerIds s₀.log s₀'.log → ShowsSame p.outerIds s.log s'.log

theorem pairing_following {G : Scope Float} (s₀ s₀' : State) :
    Pairing (· ∉ p.outerIds) (Following c t p G s₀ s₀') where
  raised h d := by
    refine ⟨h.trusted.note _, h.catches.note _ (fun _ _ => List.mem_cons_self) nofun, fun hs => ?_⟩
    exact (h.shows hs).append [.raised d]
  recorded h id v hid := by
    refine ⟨h.trusted.note _, h.catches.note _ nofun ?_, fun hs => (h.shows hs).append [.recorded id v]⟩
    rintro _ _ ⟨⟩
    exact hid
  silent h e e' he he' := by
    refine ⟨h.trusted.note _, h.catches.note _ ?_ ?_, fun hs => (h.shows hs).silent he he'⟩
    · rintro d rfl
      cases he'
    · rintro id v rfl
      cases he'
  indifferent h _ _ _ _ _ _ := ⟨h.trusted.mono rfl fun _ hmem => hmem, h.catches, h.shows⟩

/-- What a walk that keeps results has to say of a function that it entered. -/
structure Replayed (c : Catalog Float) (t : Signatures) (p : Program) (G : Scope Float) (s : State)
    (key : InstanceKey) (r : Option (Value Float) × State) : Prop where
  covered : c.CoversAny r.1
  trusted : Trusted c t p G r.2
  settled : Settled c t p G key r.1 r.2.log
  shows : ∀ f active bindings s', f.id = key.1 → Due c t p active f bindings →
    instanceKey f.id bindings = key → AtHome c G s' → ShowsSame p.outerIds s.log s'.log →
    ShowsSame p.outerIds r.2.log ((Walk.enter (.ofProgram c t p false) active f.id bindings).run s').2.log

namespace Walk

theorem run_enter_afresh (hids : p.ids.Nodup) (acyclic : p.Acyclic) {active : List NodeId} {f : FunctionDecl}
    {bindings : Bindings Float} (due : Due c t p active f bindings) (s : State) :
    (enter (.ofProgram c t p false) active f.id bindings).run s =
      let r := (calling f.id (body ((Setting.ofProgram c t p false).around (f.id :: active)) f bindings)).run s
      (r.1, { r.2 with instances := (instanceKey f.id bindings, r.1) :: r.2.instances }) := by
  rw [enter_of_inactive (due.function?_eq hids false) (due.inactive acyclic), run_remembered]
  rfl

section Bodies

variable (ht : Signatures.collect p = .ok t) (hids : p.ids.Nodup) {G : Scope Float} {f : FunctionDecl}
  (hf : f ∈ p.functions) (hinner : ∀ callee, p.Calls f.name callee → p.Inner callee)
  {active active' : List NodeId} (hleads : p.Leads active f.name) (hleads' : p.Leads active' f.name)
  {A : NodeId → Prop} {L : State → State → Prop} (hL : Pairing A L)
  (hcall : ∀ g args, Due c t p (f.id :: active) g args → Due c t p (f.id :: active') g args →
    InStep (Housed c G L) c.CoversAny (enter (.ofProgram c t p true) (f.id :: active) g.id args)
      (enter (.ofProgram c t p false) (f.id :: active') g.id args))

include ht hids hf hinner hleads hleads' hL hcall

/-- Inside one function, above the same global scope, the calls of two walks go together. -/
theorem around_tandem {s s' : State} (home : AtHome c G s) (home' : AtHome c G s') :
    Tandem c (s.scopes.top :: s.scopes.below) (s'.scopes.top :: s'.scopes.below) L A (p.Calls f.name)
      ((Setting.ofProgram c t p true).around (f.id :: active))
      ((Setting.ofProgram c t p false).around (f.id :: active')) := by
  refine ⟨hL, rfl, rfl, rfl, ?_⟩
  intro callee signature args n hcalls hl hfits u u' hu
  obtain ⟨g, hg, howned, rfl⟩ := Signatures.declared_of_lookup ht hl
  obtain rfl : g.name = callee := Signatures.name_of_lookup hl
  obtain ⟨hglobal, hglobal'⟩ := hu.scopes.global_eq
    (home.global ▸ s.scopes.getLast?_eq_global) (home'.global ▸ s'.scopes.getLast?_eq_global)
  obtain ⟨hreserved, hreserved'⟩ := hu.scopes.reserved
  have due := Due.mk hg howned (hinner _ hcalls) (hleads.cons hids hf hcalls) hfits
  have due' := Due.mk hg howned (hinner _ hcalls) (hleads'.cons hids hf hcalls) hfits
  obtain ⟨hresult, hcovered, hcalled⟩ := hcall g args due due' u u'
    ⟨⟨hglobal, hreserved⟩, ⟨hglobal', hreserved'⟩, hu.history⟩
  -- the caller's scopes and frame are as they were before the call
  have hscopes := enter_scopes (.ofProgram c t p true) (f.id :: active) g.id args u
  have hscopes' := enter_scopes (.ofProgram c t p false) (f.id :: active') g.id args u'
  have hframe := enter_frame (.ofProgram c t p true) (f.id :: active) g.id args u
  have hframe' := enter_frame (.ofProgram c t p false) (f.id :: active') g.id args u'
  refine ⟨hresult, hcovered, ?_, ?_, ?_, hcalled.history⟩
  · rw [SameScopes] at hscopes hscopes'
    exact hscopes ▸ hscopes' ▸ hu.scopes
  · exact hframe'.trans (hu.frame.trans hframe.symm)
  · exact State.inferred_congr hframe ▸ hu.covered

/-- Two walks over one body. It is enough that the calls in it go together. -/
theorem body_inStep (hc : build desc = .ok c) (hG : G.bindings.Holds c.Covers)
    (hA : ∀ part ∈ f.body.parts, A part.id) {bindings bindings' : Bindings Float}
    (hcovers : ∀ b ∈ bindings, c.Covers b.2) (hforgotten : bindings'.forgotten = bindings.forgotten) :
    InStep (Housed c G L) c.CoversAny
      (calling f.id (body ((Setting.ofProgram c t p true).around (f.id :: active)) f bindings))
      (calling f.id (body ((Setting.ofProgram c t p false).around (f.id :: active')) f bindings')) := by
  rintro s s' ⟨home, home', hs⟩
  have tandem := around_tandem ht hids hf hinner hleads hleads' hL hcall home home'
  have hopen : Abreast c (s.scopes.top :: s.scopes.below) (s'.scopes.top :: s'.scopes.below) L 0
      (State.opened c f bindings { s with active := f.id :: s.active })
      (State.opened c f bindings' { s' with active := f.id :: s'.active }) := by
    have hpush := ScopeStack.beside_push_function (covers_forgotten c) ⟨home.reserved, home'.reserved⟩
      (home'.global.trans home.global.symm) (home.global ▸ hG)
    rw [State.opened, State.opened, (s'.scopes.push .function).bindForgotten_eq_foldl, hforgotten,
      ← ScopeStack.bindForgotten_eq_foldl]
    exact ⟨hpush.bindForgotten (covers_forgotten c) hcovers, rfl, nofun, hL.indifferent hs _ _ _ _ _ _⟩
  have hparts : Permits A (p.Calls f.name) (Stmt.partsOfList f.body.stmts) := by
    rw [← Block.parts_eq]
    intro part hpart
    exact ⟨hA part hpart, fun callee hcallee => ⟨f, hf, rfl, List.mem_map.2 ⟨part, hpart, hcallee⟩⟩⟩
  obtain ⟨_, _, hend⟩ := stmts_inStep hc tandem f.body.stmts 0 hparts _ _ hopen
  have hsame := body_scopes (context_sameScopes (.ofProgram c t p true) (f.id :: active)) f bindings
    { s with active := f.id :: s.active }
  have hsame' := body_scopes (context_sameScopes (.ofProgram c t p false) (f.id :: active')) f bindings'
    { s' with active := f.id :: s'.active }
  exact ⟨State.inferred_congr hend.frame, hend.covered, home.of_sameScopes hsame,
    home'.of_sameScopes hsame', hL.indifferent hend.history _ _ _ _ _ _⟩

end Bodies

theorem enter_follows {G : Scope Float} {s₀ s₀' : State} {active active' : List NodeId} {f : FunctionDecl}
    {bindings : Bindings Float} (due' : Due c t p active' f bindings)
    (h : ∀ u, AtHome c G u → Trusted c t p G u → Replayed c t p G u (instanceKey f.id bindings)
      ((enter (.ofProgram c t p true) active f.id bindings).run u)) :
    InStep (Housed c G (Following c t p G s₀ s₀')) c.CoversAny
      (enter (.ofProgram c t p true) active f.id bindings)
      (enter (.ofProgram c t p false) active' f.id bindings) := by
  rintro u u' ⟨home, home', hu⟩
  have replayed := h u home hu.trusted
  obtain ⟨hresult, hcatch⟩ := replayed.settled f active' bindings u' rfl due' rfl home'
  have hlog := enter_visits (.ofProgram c t p true) active f.id bindings u
  refine ⟨hresult, replayed.covered, home.of_sameScopes (enter_scopes _ _ _ _ u),
    home'.of_sameScopes (enter_scopes _ _ _ _ u'), replayed.trusted, ?_, ?_⟩
  · exact (hu.catches.mono fun _ hmem => hlog.mem_log hmem).trans hcatch
  · exact fun hs => replayed.shows f active' bindings u' rfl due' rfl home' (hu.shows hs)

/-- Entering a function once, with its result kept, stands for entering it any number of times. The walk of its
body is compared with a fresh one at any place where arguments have the same shapes. -/
theorem enter_replayed (hc : build desc = .ok c) (apart : c.NamesApart) (ht : Signatures.collect p = .ok t)
    (hids : p.ids.Nodup) (acyclic : p.Acyclic) {G : Scope Float} (hG : G.bindings.Holds c.Covers)
    {active : List NodeId} {id : NodeId} {bindings : Bindings Float} {f : FunctionDecl} (hid : f.id = id)
    (due : Due c t p active f bindings) {s : State} (home : AtHome c G s) (trusted : Trusted c t p G s) :
    Replayed c t p G s (instanceKey id bindings)
      ((enter (.ofProgram c t p true) active id bindings).run s) := by
  induction active, id, bindings using enter.induct (.ofProgram c t p true) generalizing f s with
  | case1 active id bindings hf =>
    subst hid
    rw [due.function?_eq hids true] at hf
    cases hf
  | case2 active id bindings g hg hactive =>
    subst hid
    exact absurd hactive (due.inactive acyclic)
  | case3 active id bindings g hg inactive ih =>
    subst hid
    -- the body, compared with a fresh walk of it elsewhere
    have afresh {active' : List NodeId} {bindings' : Bindings Float} {s' : State}
        (due' : Due c t p active' f bindings') (hkey : instanceKey f.id bindings' = instanceKey f.id bindings)
        (home' : AtHome c G s') := by
      have hwords := (Prod.mk.inj hkey).2
      exact body_inStep ht hids due.declared (fun _ => due.inner.call) due.leads due'.leads
        (pairing_following s s') (fun g args hg hg' => enter_follows hg' fun u => ih g.id args rfl hg) hc hG
        (fun part => Program.not_mem_outerIds hids due.declared (due.isEntry_eq acyclic ht))
        due.fits.covers (due.fits.forgotten_eq apart due'.fits hwords) s s'
        ⟨home, home', trusted, .refl, id⟩
    rw [enter_of_inactive (due.function?_eq hids true) inactive, run_remembered]
    cases hknown : s.instances.lookup (instanceKey f.id bindings) with
    | some inferred =>
      -- a known result was settled when it was first found
      obtain ⟨hcovers, hsettled⟩ := trusted _ _ hknown
      refine ⟨hcovers, trusted, hsettled, ?_⟩
      intro g active' bindings' s' hid due' hkey home' hs
      exact hs.catchUp (hsettled g active' bindings' s' hid due' hkey home').2
    | none =>
      obtain ⟨_, hcovers, hself⟩ := afresh due rfl home
      let r := (calling f.id (body ((Setting.ofProgram c t p true).around (f.id :: active)) f bindings)).run s
      have hsettled : Settled c t p G (instanceKey f.id bindings) r.1 r.2.log := by
        intro g active' bindings' s' hid due' hkey home'
        obtain rfl := Program.function_of_id hids due'.declared due.declared hid
        obtain ⟨hresult, _, hfresh⟩ := afresh due' hkey home'
        rw [run_enter_afresh hids acyclic due']
        exact ⟨hresult, hfresh.history.catches⟩
      refine ⟨hcovers, hself.history.trusted.push hcovers hsettled, hsettled, ?_⟩
      intro g active' bindings' s' hid due' hkey home' hs
      obtain rfl := Program.function_of_id hids due'.declared due.declared hid
      rw [run_enter_afresh hids acyclic due']
      exact (afresh due' hkey home').2.2.history.shows hs

end Walk

end Analysis

end Metrology
