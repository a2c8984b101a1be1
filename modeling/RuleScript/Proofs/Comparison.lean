import RuleScript.Proofs.Run

/-!
# Comparing two runs

Two runs are compared step by step.  A `Run.Comparison` says which traces and which aborts
correspond to each other; `Run.Compares` says of two runs, from any two traces that correspond,
that they come to corresponding aborts, or to values that are related as asked, and again to
corresponding traces.  Some aborts of the first run may excuse it: nothing is asked of the second
run after them.  An excuse is what a run that was cut off has against one that was not.

The lemmas go by the same steps as those for `Run.Meets`.
-/

namespace RuleScript

namespace Run

/-- What corresponds to what in two runs. -/
structure Comparison where
  traces : Trace → Trace → Prop
  aborts : Abort → Abort → Prop
  /-- Aborts of the first run after which nothing is asked of the second. -/
  excuses : Abort → Prop

/-- The second run does exactly what the first one does. -/
def Comparison.exact : Comparison where
  traces := Eq
  aborts := Eq
  excuses _ := False

variable {β β' γ γ' : Type}

/-- Two runs correspond, and their values are related. -/
def Compares (C : Comparison) (run : Run β) (run' : Run β') (related : β → β' → Prop) : Prop :=
  ∀ trace trace', C.traces trace trace' →
    match run.result trace, run'.result trace' with
    | (.ok value, after), (.ok value', after') => C.traces after after' ∧ related value value'
    | (.error cause, after), (.error cause', after') =>
      C.excuses cause ∨ C.traces after after' ∧ C.aborts cause cause'
    | (.error cause, _), (.ok _, _) => C.excuses cause
    | (.ok _, _), (.error _, _) => False

/-- Whether two traces correspond no less after two events were recorded. -/
def Comparison.Records (C : Comparison) (event event' : Event) : Prop :=
  ∀ trace trace', C.traces trace trace' →
    C.traces { trace with journal := trace.journal.push event }
      { trace' with journal := trace'.journal.push event' }

/-- Whether two traces correspond no less after elements were missed at two positions. -/
def Comparison.Misses (C : Comparison) (pos pos' : Nat) : Prop :=
  ∀ trace trace', C.traces trace trace' →
    C.traces { trace with farthest := max trace.farthest pos }
      { trace' with farthest := max trace'.farthest pos' }

namespace Compares

variable {C : Comparison} {run : Run β} {run' : Run β'} {related : β → β' → Prop}

protected theorem pure {value : β} {value' : β'} (h : related value value') :
    (pure value : Run β).Compares C (pure value') related :=
  fun _ _ htraces => ⟨htraces, h⟩

protected theorem throw {cause cause' : Abort} (h : C.aborts cause cause') :
    (throw cause : Run β).Compares C (throw cause') related :=
  fun _ _ htraces => .inr ⟨htraces, h⟩

/-- A run that stops with an excuse goes with any other. -/
theorem excused {cause : Abort} (h : C.excuses cause) (run' : Run β') :
    (throw cause : Run β).Compares C run' related := by
  intro trace trace' _
  rw [result_throw]
  rcases run'.result trace' with ⟨cause' | value', after'⟩
  · exact .inl h
  · exact h

protected theorem record {event event' : Event} (h : C.Records event event') :
    (record event).Compares C (record event') fun _ _ => True :=
  fun trace trace' htraces => ⟨h trace trace' htraces, trivial⟩

protected theorem miss {pos pos' : Nat} {related : Outcome → Outcome → Prop}
    (h : C.Misses pos pos') (hrelated : related .failure .failure) :
    (miss pos).Compares C (miss pos') related :=
  fun trace trace' htraces => ⟨h trace trace' htraces, hrelated⟩

theorem bind {next : β → Run γ} {next' : β' → Run γ'} {related' : γ → γ' → Prop}
    (h : run.Compares C run' related)
    (hnext : ∀ value value', related value value' →
      (next value).Compares C (next' value') related') :
    (run >>= next).Compares C (run' >>= next') related' := by
  intro trace trace' htraces
  have hrun := h trace trace' htraces
  -- The first run decides: an abort that is excused excuses all that follows it, any other ends both
  -- runs alike.
  rcases hresult : run.result trace with ⟨cause | value, after⟩
  · rw [result_bind_error hresult]
    rcases hresult' : run'.result trace' with ⟨cause' | value', after'⟩
    · rw [hresult, hresult'] at hrun
      rw [result_bind_error hresult']
      exact hrun
    · rw [hresult, hresult'] at hrun
      rw [result_bind_ok hresult']
      rcases (next' value').result after' with ⟨cause' | value', after'⟩
      · exact .inl hrun
      · exact hrun
  · rcases hresult' : run'.result trace' with ⟨cause' | value', after'⟩
    · rw [hresult, hresult'] at hrun
      exact hrun.elim
    · rw [hresult, hresult'] at hrun
      rw [result_bind_ok hresult, result_bind_ok hresult']
      exact hnext value value' hrun.2 after after' hrun.1

/-- The first run may record what does not count. -/
theorem record_left {event : Event}
    (hevent : ∀ trace trace', C.traces trace trace' →
      C.traces { trace with journal := trace.journal.push event } trace')
    (h : run.Compares C run' related) : (record event >>= fun _ => run).Compares C run' related := by
  intro trace trace' htraces
  rw [result_bind_ok (result_record event trace)]
  exact h _ _ (hevent trace trace' htraces)

theorem record_right {event : Event}
    (hevent : ∀ trace trace', C.traces trace trace' →
      C.traces trace { trace' with journal := trace'.journal.push event })
    (h : run.Compares C run' related) : run.Compares C (record event >>= fun _ => run') related := by
  intro trace trace' htraces
  rw [result_bind_ok (result_record event trace')]
  exact h _ _ (hevent trace trace' htraces)

theorem map {f : β → γ} {f' : β' → γ'} {related' : γ → γ' → Prop}
    (h : run.Compares C run' related)
    (hf : ∀ value value', related value value' → related' (f value) (f' value')) :
    (f <$> run).Compares C (f' <$> run') related' := by
  rw [map_eq_pure_bind, map_eq_pure_bind]
  exact h.bind fun value value' hvalue => .pure (hf value value' hvalue)

theorem map_right {f' : β' → γ'} {related' : β → γ' → Prop} (h : run.Compares C run' related)
    (hf : ∀ value value', related value value' → related' value (f' value')) :
    run.Compares C (f' <$> run') related' := by
  have hmap : (id <$> run).Compares C (f' <$> run') related' := h.map hf
  rwa [id_map] at hmap

theorem mono {related' : β → β' → Prop} (h : run.Compares C run' related)
    (himp : ∀ value value', related value value' → related' value value') :
    run.Compares C run' related' := by
  -- A weaker relation between values is the relation after a map that does nothing.
  have hmap : (id <$> run).Compares C (id <$> run') related' := h.map himp
  rw [id_map, id_map] at hmap
  exact hmap

/-- Two runs come to the same in the eyes of a function of each value, unless the first is
excused. -/
theorem map_result_eq {f : β → γ} {f' : β' → γ} (h : run.Compares C run' related)
    {trace trace' : Trace} (htraces : C.traces trace trace')
    (haborts : ∀ cause cause', C.aborts cause cause' → cause = cause')
    (hexcuse : ∀ cause, (run.result trace).1 = .error cause → ¬ C.excuses cause)
    (hf : ∀ value value', related value value' → f value = f' value') :
    (run'.result trace').1.map f' = (run.result trace).1.map f ∧
      C.traces (run.result trace).2 (run'.result trace').2 := by
  have hends := h trace trace' htraces
  -- Without an excuse the two end in the same way.
  rcases hresult : run.result trace with ⟨cause | value, after⟩
  · rcases hresult' : run'.result trace' with ⟨cause' | value', after'⟩
    · rw [hresult, hresult'] at hends
      obtain ⟨hafter, hcause⟩ := hends.resolve_left (hexcuse cause (by rw [hresult]))
      exact ⟨by rw [haborts cause cause' hcause]; rfl, hafter⟩
    · rw [hresult, hresult'] at hends
      exact absurd hends (hexcuse cause (by rw [hresult]))
  · rcases hresult' : run'.result trace' with ⟨cause' | value', after'⟩
    · rw [hresult, hresult'] at hends
      exact hends.elim
    · rw [hresult, hresult'] at hends
      exact ⟨congrArg Except.ok (hf value value' hends.2).symm, hends.1⟩

/-- What a run yields by itself can be added to what is known of its value. -/
theorem and_yields {ok : β → Prop} (h : run.Compares C run' related) (hrun : run.Yields ok) :
    run.Compares C run' fun value value' => related value value' ∧ ok value := by
  intro trace trace' htraces
  have hends := h trace trace' htraces
  rcases hresult : run.result trace with ⟨cause | value, after⟩
  · rcases hresult' : run'.result trace' with ⟨cause' | value', after'⟩
    all_goals
      rw [hresult, hresult'] at hends
      exact hends
  · rcases hresult' : run'.result trace' with ⟨cause' | value', after'⟩
    · rw [hresult, hresult'] at hends
      exact hends
    · rw [hresult, hresult'] at hends
      exact ⟨hends.1, hends.2, hrun.of_result hresult⟩

/-- What the second run yields by itself can be added as well. -/
theorem and_yields_right {ok : β' → Prop} (h : run.Compares C run' related)
    (hrun' : run'.Yields ok) :
    run.Compares C run' fun value value' => related value value' ∧ ok value' := by
  intro trace trace' htraces
  have hends := h trace trace' htraces
  rcases hresult : run.result trace with ⟨cause | value, after⟩
  · rcases hresult' : run'.result trace' with ⟨cause' | value', after'⟩
    all_goals
      rw [hresult, hresult'] at hends
      exact hends
  · rcases hresult' : run'.result trace' with ⟨cause' | value', after'⟩
    · rw [hresult, hresult'] at hends
      exact hends
    · rw [hresult, hresult'] at hends
      exact ⟨hends.1, hends.2, hrun'.of_result hresult'⟩

/-- A run that corresponds to one that comes to a value comes to a value too. -/
theorem returns {ok : β → Prop} {ok' : β' → Prop} (h : run.Compares C run' related)
    (htraces : ∀ trace', ∃ trace, C.traces trace trace') (hrun : run.Returns ok)
    (hok : ∀ value value', related value value' → ok value → ok' value') : run'.Returns ok' := by
  intro trace' _
  obtain ⟨trace, htrace⟩ := htraces trace'
  obtain ⟨value, after, hresult, hvalue⟩ := hrun.exists_result trace
  have hends := h trace trace' htrace
  rw [hresult] at hends
  rcases hresult' : run'.result trace' with ⟨cause | value', after'⟩
  · rw [hresult'] at hends
    exact hends.elim
  · rw [hresult'] at hends
    exact ⟨trivial, hok value value' hends.2 hvalue⟩

end Compares

end Run

end RuleScript
