/-!
# Invariants of actions

An action keeps an invariant when it holds behind every run of the action that
began with it, failed runs included.  What is said about results is said only
of runs that succeed, and what is said about failures only of those that fail.
-/

namespace NewtonScript

variable {ε σ α β : Type} {I : σ → Prop} {fails : ε → Prop}

/-- An action keeps an invariant, and its results and failures have a property
each. -/
def Ensures (I : σ → Prop) (action : EStateM ε σ α) (result : α → Prop)
    (fails : ε → Prop := fun _ => True) : Prop :=
  ∀ state, I state →
    match action state with
    | .ok value final => I final ∧ result value
    | .error failure final => I final ∧ fails failure

/-- An action keeps an invariant. -/
abbrev Preserves (I : σ → Prop) (action : EStateM ε σ α) (fails : ε → Prop := fun _ => True) : Prop :=
  Ensures I action (fun _ => True) fails

namespace Ensures

theorem of_ok {action : EStateM ε σ α} {result : α → Prop}
    (ensures : Ensures I action result fails) {state final : σ} {value : α} (holds : I state)
    (run : action state = .ok value final) : I final ∧ result value := by
  have outcome := ensures state holds
  rwa [run] at outcome

theorem of_error {action : EStateM ε σ α} {result : α → Prop}
    (ensures : Ensures I action result fails) {state final : σ} {failure : ε} (holds : I state)
    (run : action state = .error failure final) : I final ∧ fails failure := by
  have outcome := ensures state holds
  rwa [run] at outcome

theorem mono {action : EStateM ε σ α} {result result' : α → Prop}
    (ensures : Ensures I action result fails) (weaker : ∀ value, result value → result' value) :
    Ensures I action result' fails := by
  intro state holds
  cases run : action state with
  | ok value final => exact ⟨(ensures.of_ok holds run).1, weaker _ (ensures.of_ok holds run).2⟩
  | error failure final => exact ensures.of_error holds run

theorem preserves {action : EStateM ε σ α} {result : α → Prop}
    (ensures : Ensures I action result fails) : Preserves I action fails :=
  ensures.mono fun _ _ => trivial

theorem bind {action : EStateM ε σ α} {next : α → EStateM ε σ β} {result : α → Prop}
    {result' : β → Prop} (first : Ensures I action result fails)
    (second : ∀ value, result value → Ensures I (next value) result' fails) :
    Ensures I (action >>= next) result' fails := by
  intro state holds
  change match EStateM.bind action next state with
    | .ok value final => I final ∧ result' value
    | .error failure final => I final ∧ fails failure
  unfold EStateM.bind
  cases run : action state with
  | ok value middle =>
    obtain ⟨holds, known⟩ := first.of_ok holds run
    exact second value known middle holds
  | error failure middle => exact first.of_error holds run

/-- One action behind another. -/
theorem seq {action : EStateM ε σ α} {next : α → EStateM ε σ β} {result : β → Prop}
    (first : Preserves I action fails) (second : ∀ value, Ensures I (next value) result fails) :
    Ensures I (action >>= next) result fails :=
  first.bind fun value _ => second value

end Ensures

theorem ensures_pure {value : α} {result : α → Prop} (known : result value) :
    Ensures I (pure value : EStateM ε σ α) result fails :=
  fun _ holds => ⟨holds, known⟩

theorem ensures_throw {failure : ε} {result : α → Prop} (known : fails failure) :
    Ensures I (throw failure : EStateM ε σ α) result fails :=
  fun _ holds => ⟨holds, known⟩

theorem ensures_get : Ensures I (get : EStateM ε σ σ) I fails :=
  fun _ holds => ⟨holds, holds⟩

theorem preserves_modify {change : σ → σ} (keeps : ∀ state, I state → I (change state)) :
    Preserves I (modify change : EStateM ε σ PUnit) fails :=
  fun state holds => ⟨keeps state holds, trivial⟩

theorem ensures_modifyGet {change : σ → α × σ} {result : α → Prop}
    (keeps : ∀ state, I state → I (change state).2 ∧ result (change state).1) :
    Ensures I (modifyGet change : EStateM ε σ α) result fails :=
  fun state holds => keeps state holds

/-- What a run gives, unless it fails. -/
def given? : EStateM.Result ε σ α → Option α
  | .ok value _ => some value
  | .error _ _ => none

theorem exists_of_given? {result : EStateM.Result ε σ α} {value : α}
    (found : given? result = some value) : ∃ final, result = .ok value final := by
  cases result with
  | ok value final =>
    cases found
    exact ⟨final, rfl⟩
  | error => cases found

/-- Behind an action that succeeds, the next one goes on. -/
theorem run_bind_of_ok {action : EStateM ε σ α} {state middle : σ} {value : α}
    (run : action state = .ok value middle) (next : α → EStateM ε σ β) :
    (action >>= next) state = next value middle := by
  change EStateM.bind action next state = _
  rw [EStateM.bind, run]

theorem run_bind_of_error {action : EStateM ε σ α} {state middle : σ} {failure : ε}
    (run : action state = .error failure middle) (next : α → EStateM ε σ β) :
    (action >>= next) state = .error failure middle := by
  change EStateM.bind action next state = _
  rw [EStateM.bind, run]

/-- Where two actions come to the same end, both go on alike. -/
theorem run_bind_congr {action action' : EStateM ε σ α} {state state' : σ}
    (same : action state = action' state') (next : α → EStateM ε σ β) :
    (action >>= next) state = (action' >>= next) state' := by
  change EStateM.bind action next state = EStateM.bind action' next state'
  rw [EStateM.bind, EStateM.bind, same]

/-- An action made of two succeeds when the first one does, and the second one
does from where the first one ends. -/
theorem run_bind_eq_ok {action : EStateM ε σ α} {next : α → EStateM ε σ β} {state final : σ}
    {result : β} (run : (action >>= next) state = .ok result final) :
    ∃ value middle, action state = .ok value middle ∧ next value middle = .ok result final := by
  change EStateM.bind action next state = _ at run
  unfold EStateM.bind at run
  split at run
  · exact ⟨_, _, by assumption, run⟩
  · cases run

/-- An action made of two fails when one of them does. -/
theorem run_bind_eq_error {action : EStateM ε σ α} {next : α → EStateM ε σ β} {state final : σ}
    {failure : ε} (run : (action >>= next) state = .error failure final) :
    action state = .error failure final ∨
      ∃ value middle, action state = .ok value middle ∧ next value middle = .error failure final := by
  change EStateM.bind action next state = _ at run
  unfold EStateM.bind at run
  split at run
  · exact .inr ⟨_, _, by assumption, run⟩
  · cases run
    exact .inl (by assumption)

end NewtonScript
