import Metrology.Analysis

/-! What a log comes to: the findings, and the values of the nodes that are looked at. An addition to a log that
raises nothing new and leaves these nodes alone does not show. -/
namespace Metrology.Analysis

def Event.isSilent : Event → Bool
  | raised _ | recorded _ _ => false
  | _ => true

theorem collect_append {β : Type} (pick : Event → Option β) (new log : List Event) :
    collect pick (new ++ log) = collect pick log ++ collect pick new := by
  simp [collect]

theorem raised_cons (d : Diagnostic) (log : List Event) : raised (.raised d :: log) = raised log ++ [d] :=
  collect_append _ [.raised d] log

theorem recorded_cons (id : NodeId) (v : Value Float) (log : List Event) :
    recorded (.recorded id v :: log) = recorded log ++ [(id, v)] := collect_append _ [.recorded id v] log

theorem collect_silent {e : Event} (he : e.isSilent = true) (log : List Event) :
    raised (e :: log) = raised log ∧ recorded (e :: log) = recorded log := by
  cases e with
  | raised d => cases he
  | recorded id v => cases he
  | _ => exact ⟨rfl, rfl⟩

theorem mem_raised {log : List Event} {d : Diagnostic} : d ∈ raised log ↔ Event.raised d ∈ log := by
  simp only [raised, collect, List.mem_reverse, List.mem_filterMap]
  constructor
  · rintro ⟨e, he, hd⟩
    split at hd
    · cases hd
      exact he
    · cases hd
  · intro h
    exact ⟨_, h, rfl⟩

theorem mem_recorded {log : List Event} {id : NodeId} {v : Value Float} :
    (id, v) ∈ recorded log ↔ Event.recorded id v ∈ log := by
  simp only [recorded, collect, List.mem_reverse, List.mem_filterMap]
  constructor
  · rintro ⟨e, he, hv⟩
    split at hv
    · cases hv
      exact he
    · cases hv
  · intro h
    exact ⟨_, h, rfl⟩

theorem repeats_self (d : Diagnostic) : d.repeats d = true := by
  simp [Diagnostic.repeats]

theorem any_repeats_report {found : List Diagnostic} {d e : Diagnostic}
    (h : e = d ∨ found.any e.repeats = true) : (report found d).any e.repeats = true := by
  unfold report
  split
  · next hfound =>
    rcases h with rfl | h
    · exact hfound
    · exact h
  · rcases h with rfl | h
    · simp [repeats_self]
    · simp [h]

/-- Whatever was raised is among the findings, in its own words. -/
theorem any_repeats_reports {ds found : List Diagnostic} {e : Diagnostic}
    (h : e ∈ ds ∨ found.any e.repeats = true) : (ds.foldl report found).any e.repeats = true := by
  induction ds generalizing found with
  | nil => simpa using h
  | cons d ds ih =>
    refine ih ?_
    rcases h with h | h
    · rcases List.mem_cons.1 h with rfl | h
      · exact Or.inr (any_repeats_report (Or.inl rfl))
      · exact Or.inl h
    · exact Or.inr (any_repeats_report (Or.inr h))

/-- Findings that were made before are not listed again. -/
theorem reports_eq_self {ds found : List Diagnostic} (h : ∀ d ∈ ds, found.any d.repeats = true) :
    ds.foldl report found = found := by
  induction ds with
  | nil => rfl
  | cons d ds ih =>
    obtain ⟨hd, hds⟩ := List.forall_mem_cons.1 h
    rw [List.foldl_cons, report, if_pos hd]
    exact ih hds

theorem filter_reports {sort : Diagnostic → Bool} (hsort : ∀ d e, d.repeats e = true → sort e = sort d)
    (ds found : List Diagnostic) :
    (ds.foldl report found).filter sort = (ds.filter sort).foldl report (found.filter sort) := by
  induction ds generalizing found with
  | nil => rfl
  | cons d ds ih =>
    rw [List.foldl_cons, ih]
    cases hd : sort d with
    | false =>
      rw [List.filter_cons_of_neg (by simp [hd]), report]
      split <;> simp [hd]
    | true =>
      have hany : (found.filter sort).any d.repeats = found.any d.repeats := by
        rw [List.any_filter]
        congr 1
        funext e
        cases hrepeats : d.repeats e with
        | false => rw [Bool.and_false]
        | true => rw [hsort d e hrepeats, hd, Bool.and_true]
      rw [List.filter_cons_of_pos hd, List.foldl_cons, report, report, hany]
      split <;> simp [hd]

/-- The last value of a node among insertions is the last one of those that concern nodes looked at. -/
theorem lookup_results_filter {shown : List NodeId} {id : NodeId} (hid : id ∈ shown)
    (rs : List (NodeId × Value Float)) {found found' : List (NodeId × Value Float)}
    (h : found.lookup id = found'.lookup id) :
    (rs.foldl (fun rs (id, v) => insertResult id v rs) found).lookup id =
      ((rs.filter (·.1 ∈ shown)).foldl (fun rs (id, v) => insertResult id v rs) found').lookup id := by
  induction rs generalizing found found' with
  | nil => exact h
  | cons r rs ih =>
    rw [List.foldl_cons]
    by_cases hr : r.1 ∈ shown
    · rw [List.filter_cons_of_pos (by simpa using hr), List.foldl_cons]
      exact ih (by simp [lookup_insertResult, h])
    · rw [List.filter_cons_of_neg (by simpa using hr)]
      refine ih ?_
      have hne : id ≠ r.1 := fun e => hr (e ▸ hid)
      simpa [lookup_insertResult, hne] using h

theorem isSome_result? {log : List Event} {id : NodeId} {v : Value Float} (h : .recorded id v ∈ log) :
    ((ofLog log).result? id).isSome = true := by
  have inserted (rs found : List (NodeId × Value Float))
      (hrs : (id, v) ∈ rs ∨ (found.lookup id).isSome = true) :
      ((rs.foldl (fun rs (id, v) => insertResult id v rs) found).lookup id).isSome = true := by
    induction rs generalizing found with
    | nil => simpa using hrs
    | cons r rs ih =>
      refine ih _ ?_
      rw [lookup_insertResult]
      rcases hrs with hmem | hfound
      · rcases List.mem_cons.1 hmem with rfl | hmem
        · exact Or.inr (by simp)
        · exact Or.inl hmem
      · right
        split
        · rfl
        · exact hfound
  exact inserted _ [] (Or.inl (mem_recorded.2 h))

/-- Two logs with the same findings and the same values of the nodes that are looked at. -/
structure ShowsSame (shown : List NodeId) (log log' : List Event) : Prop where
  findings : (raised log').foldl report [] = (raised log).foldl report []
  values : (recorded log').filter (·.1 ∈ shown) = (recorded log).filter (·.1 ∈ shown)

/-- What was added to a log has been said in another one and concerns no node that is looked at. -/
def CatchesUp (shown : List NodeId) (log before after : List Event) : Prop :=
  ∃ new, after = new ++ before ∧ (∀ d, .raised d ∈ new → .raised d ∈ log) ∧
    ∀ id v, .recorded id v ∈ new → id ∉ shown

namespace CatchesUp

variable {shown : List NodeId} {log log' before between after : List Event}

theorem refl : CatchesUp shown log before before := ⟨[], rfl, nofun, nofun⟩

theorem trans (h : CatchesUp shown log before between) (h' : CatchesUp shown log between after) :
    CatchesUp shown log before after := by
  obtain ⟨new, rfl, hraised, hrecorded⟩ := h
  obtain ⟨new', rfl, hraised', hrecorded'⟩ := h'
  refine ⟨new' ++ new, (List.append_assoc _ _ _).symm, ?_, ?_⟩
  · intro d hd
    exact (List.mem_append.1 hd).elim (hraised' d) (hraised d)
  · intro id v hv
    exact (List.mem_append.1 hv).elim (hrecorded' id v) (hrecorded id v)

theorem mono (h : CatchesUp shown log before after) (hlog : ∀ e ∈ log, e ∈ log') :
    CatchesUp shown log' before after := by
  obtain ⟨new, hafter, hraised, hrecorded⟩ := h
  exact ⟨new, hafter, fun d hd => hlog _ (hraised d hd), hrecorded⟩

theorem note (h : CatchesUp shown log before after) (e : Event) {e' : Event}
    (hraised : ∀ d, e' = .raised d → e' ∈ e :: log) (hrecorded : ∀ id v, e' = .recorded id v → id ∉ shown) :
    CatchesUp shown (e :: log) before (e' :: after) := by
  have hearlier : CatchesUp shown (e :: log) before after := h.mono fun _ hmem => List.mem_cons_of_mem e hmem
  refine hearlier.trans ⟨[e'], rfl, fun d hd => ?_, fun id v hv => ?_⟩
  · obtain rfl := List.mem_singleton.1 hd
    exact hraised d rfl
  · obtain rfl := List.mem_singleton.1 hv
    exact hrecorded id v rfl

end CatchesUp

namespace ShowsSame

variable {shown : List NodeId} {log log' after : List Event}

theorem refl : ShowsSame shown log log := ⟨rfl, rfl⟩

theorem append (h : ShowsSame shown log log') (new : List Event) :
    ShowsSame shown (new ++ log) (new ++ log') where
  findings := by rw [raised, collect_append, collect_append, List.foldl_append, List.foldl_append,
    ← raised, h.findings]
  values := by rw [recorded, collect_append, collect_append, List.filter_append, List.filter_append,
    ← recorded, h.values]

theorem catchUp (h : ShowsSame shown log log') (hafter : CatchesUp shown log log' after) :
    ShowsSame shown log after := by
  obtain ⟨new, rfl, hraised, hrecorded⟩ := hafter
  constructor
  · have hfound (d : Diagnostic) (hd : d ∈ raised new) :
        ((raised log).foldl report []).any d.repeats = true :=
      any_repeats_reports (Or.inl (mem_raised.2 (hraised d (mem_raised.1 hd))))
    calc (raised (new ++ log')).foldl report []
        = (raised new).foldl report ((raised log').foldl report []) := by
          rw [raised, collect_append, List.foldl_append]
      _ = (raised log).foldl report [] := by rw [h.findings, reports_eq_self hfound]
  · have hnone : (recorded new).filter (·.1 ∈ shown) = [] := by
      simp only [List.filter_eq_nil_iff, decide_eq_true_eq, Prod.forall]
      exact fun id v hv => hrecorded id v (mem_recorded.1 hv)
    calc (recorded (new ++ log')).filter (·.1 ∈ shown)
        = (recorded log').filter (·.1 ∈ shown) ++ (recorded new).filter (·.1 ∈ shown) := by
          rw [recorded, collect_append, List.filter_append]
      _ = (recorded log).filter (·.1 ∈ shown) := by rw [hnone, List.append_nil, h.values]

theorem silent (h : ShowsSame shown log log') {e e' : Event} (he : e.isSilent = true)
    (he' : e'.isSilent = true) : ShowsSame shown (e :: log) (e' :: log') := by
  obtain ⟨hraised, hrecorded⟩ := collect_silent he log
  obtain ⟨hraised', hrecorded'⟩ := collect_silent he' log'
  exact ⟨by rw [hraised, hraised', h.findings], by rw [hrecorded, hrecorded', h.values]⟩

theorem diagnostics_eq (h : ShowsSame shown log log') :
    (ofLog log').diagnostics = (ofLog log).diagnostics := h.findings

theorem result?_eq (h : ShowsSame shown log log') {id : NodeId} (hid : id ∈ shown) :
    (ofLog log').result? id = (ofLog log).result? id := by
  unfold result? ofLog
  rw [lookup_results_filter hid (recorded log') rfl, h.values, ← lookup_results_filter hid (recorded log) rfl]

end ShowsSame

end Metrology.Analysis
