import RuleScript.Match.Matcher

/-!
# Promises of runs

A run is judged by three predicates: `inv` holds of the trace before it and after it, whatever
happens; `bad` holds of the abort, if the run is aborted; `ok` holds of the value, if it is not.
`Run.Meets` puts them together.  The lemmas of this file take a run apart at its steps, so that a
proof about matching never looks at how a run passes its trace along.

There are two plain cases.  `Run.Yields` asks nothing of the trace and of aborts; `Run.Returns`
asks that there be no abort.
-/

namespace RuleScript

theorem ok_of_mem_toOption {ε β : Type} {result : Except ε β} {value : β}
    (h : value ∈ result.toOption) : result = .ok value := by
  cases result with
  | error error => cases h
  | ok value' => exact congrArg Except.ok (Option.some.inj h)

namespace Run

variable {β γ : Type}

/-! ## Results step by step -/

@[simp] theorem result_pure (value : β) (trace : Trace) :
    (pure value : Run β).result trace = (.ok value, trace) := rfl

@[simp] theorem result_throw (cause : Abort) (trace : Trace) :
    (throw cause : Run β).result trace = (.error cause, trace) := rfl

@[simp] theorem result_record (event : Event) (trace : Trace) :
    (record event).result trace =
      (.ok (), { trace with journal := trace.journal.push event }) := rfl

@[simp] theorem result_miss (pos : Nat) (trace : Trace) :
    (miss pos).result trace =
      (.ok .failure, { trace with farthest := max trace.farthest pos }) := rfl

theorem result_bind_ok {run : Run β} {trace after : Trace} {value : β}
    (h : run.result trace = (.ok value, after)) (next : β → Run γ) :
    (run >>= next).result trace = (next value).result after := by
  unfold result at h ⊢
  simp only [ExceptT.run_bind, StateT.run_bind, h]
  rfl

theorem result_bind_error {run : Run β} {trace after : Trace} {cause : Abort}
    (h : run.result trace = (.error cause, after)) (next : β → Run γ) :
    (run >>= next).result trace = (.error cause, after) := by
  unfold result at h ⊢
  simp only [ExceptT.run_bind, StateT.run_bind, h]
  rfl

/-! ## Promises -/

/-- The run keeps `inv` of the trace, and comes to an abort that is `bad` or a value that is
`ok`. -/
def Meets (inv : Trace → Prop) (bad : Abort → Prop) (run : Run β) (ok : β → Prop) : Prop :=
  ∀ trace, inv trace →
    inv (run.result trace).2 ∧
      match (run.result trace).1 with
      | .ok value => ok value
      | .error cause => bad cause

variable {inv : Trace → Prop} {bad bad' : Abort → Prop} {ok ok' : β → Prop} {run : Run β}

namespace Meets

protected theorem pure {value : β} (h : ok value) : (pure value : Run β).Meets inv bad ok :=
  fun _ htrace => ⟨htrace, h⟩

protected theorem throw {cause : Abort} (h : bad cause) :
    (throw cause : Run β).Meets inv bad ok :=
  fun _ htrace => ⟨htrace, h⟩

theorem mono (h : run.Meets inv bad ok) (hbad : ∀ cause, bad cause → bad' cause)
    (hok : ∀ value, ok value → ok' value) : run.Meets inv bad' ok' := by
  intro trace htrace
  obtain ⟨hinv, hend⟩ := h trace htrace
  refine ⟨hinv, ?_⟩
  cases hresult : (run.result trace).1 with
  | ok value =>
      rw [hresult] at hend
      exact hok value hend
  | error cause =>
      rw [hresult] at hend
      exact hbad cause hend

theorem bind {next : β → Run γ} {ok' : γ → Prop} (h : run.Meets inv bad ok)
    (hnext : ∀ value, ok value → (next value).Meets inv bad ok') :
    (run >>= next).Meets inv bad ok' := by
  intro trace htrace
  obtain ⟨hinv, hend⟩ := h trace htrace
  rcases hresult : run.result trace with ⟨cause | value, after⟩
  · rw [result_bind_error hresult]
    rw [hresult] at hinv hend
    exact ⟨hinv, hend⟩
  · rw [result_bind_ok hresult]
    rw [hresult] at hinv hend
    exact hnext value hend after hinv

theorem map {f : β → γ} {ok' : γ → Prop} (h : run.Meets inv bad ok)
    (hf : ∀ value, ok value → ok' (f value)) : (f <$> run).Meets inv bad ok' := by
  rw [map_eq_pure_bind]
  exact h.bind fun value hvalue => Meets.pure (hf value hvalue)

theorem of_map {f : β → γ} {ok : γ → Prop} (h : (f <$> run).Meets inv bad ok) :
    run.Meets inv bad fun value => ok (f value) := by
  intro trace htrace
  have hend := h trace htrace
  rw [map_eq_pure_bind] at hend
  rcases hresult : run.result trace with ⟨cause | value, after⟩
  · rwa [result_bind_error hresult] at hend
  · rwa [result_bind_ok hresult] at hend

protected theorem record {event : Event} {ok : Unit → Prop} (hok : ok ())
    (hinv : ∀ trace, inv trace → inv { trace with journal := trace.journal.push event }) :
    (record event).Meets inv bad ok :=
  fun trace htrace => ⟨hinv trace htrace, hok⟩

protected theorem miss {pos : Nat} {ok : Outcome → Prop} (hok : ok .failure)
    (hinv : ∀ trace, inv trace → inv { trace with farthest := max trace.farthest pos }) :
    (miss pos).Meets inv bad ok :=
  fun trace htrace => ⟨hinv trace htrace, hok⟩

end Meets

/-! ## Promises of values -/

/-- If the run comes to a value at all, the value is `ok`. -/
def Yields (run : Run β) (ok : β → Prop) : Prop :=
  run.Meets (fun _ => True) (fun _ => True) ok

/-- A promise of values can be added to any other promise. -/
theorem Meets.and_yields (h : run.Meets inv bad ok) (h' : run.Yields ok') :
    run.Meets inv bad fun value => ok value ∧ ok' value := by
  intro trace htrace
  obtain ⟨hinv, hend⟩ := h trace htrace
  have hend' := (h' trace trivial).2
  refine ⟨hinv, ?_⟩
  cases hresult : (run.result trace).1 with
  | ok value =>
      rw [hresult] at hend hend'
      exact ⟨hend, hend'⟩
  | error cause =>
      rw [hresult] at hend
      exact hend

namespace Yields

protected theorem trivial (run : Run β) : run.Yields fun _ => True :=
  fun _ _ => ⟨True.intro, by split <;> trivial⟩

protected theorem record (event : Event) : (record event).Yields fun _ => True :=
  Meets.record trivial fun _ _ => trivial

theorem and (h : run.Yields ok) (h' : run.Yields ok') :
    run.Yields fun value => ok value ∧ ok' value :=
  h.and_yields h'

theorem of_result (h : run.Yields ok) {trace after : Trace} {value : β}
    (hresult : run.result trace = (.ok value, after)) : ok value := by
  have hend := (h trace trivial).2
  rw [hresult] at hend
  exact hend

end Yields

/-! ## Promises to come to a value -/

/-- The run comes to a value, and the value is `ok`. -/
def Returns (run : Run β) (ok : β → Prop) : Prop :=
  run.Meets (fun _ => True) (fun _ => False) ok

protected theorem Returns.record (event : Event) : (record event).Returns fun _ => True :=
  Meets.record trivial fun _ _ => trivial

theorem Returns.exists_result (h : run.Returns ok) (trace : Trace) :
    ∃ value after, run.result trace = (.ok value, after) ∧ ok value := by
  have hend := (h trace trivial).2
  rcases hresult : run.result trace with ⟨cause | value, after⟩
  · rw [hresult] at hend
    exact hend.elim
  · rw [hresult] at hend
    exact ⟨value, after, rfl, hend⟩

end Run

end RuleScript
