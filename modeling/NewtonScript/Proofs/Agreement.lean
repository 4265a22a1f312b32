import NewtonScript.Proofs.Invariant

/-!
# Runs side by side

Two actions agree when the second one succeeds wherever the first one does,
from related states, with related results.  Where the terms are exact the
second one also fails wherever the first one does, for related reasons.
-/

namespace NewtonScript

/-- What is asked of two runs of which the first one fails: nothing, or that
the second one fails too, with a related failure and state. -/
structure Terms (ε σ : Type) where
  exact : Prop
  failed : ε → ε → σ → σ → Prop

section

variable {ε σ α β α' β' : Type}

/-- The second action does what the first one does, from related states.  What
the first one does need not be matched outside of the given states. -/
def AgreeWhere (terms : Terms ε σ) (inside : σ → Prop) (related : σ → σ → Prop)
    (action : EStateM ε σ α) (action' : EStateM ε σ β) (result : α → β → σ → σ → Prop) : Prop :=
  ∀ first second, related first second →
    match action first with
    | .ok value after => inside after →
        ∃ value' after', action' second = .ok value' after' ∧ result value value' after after'
    | .error failure after => terms.exact →
        ∃ failure' after', action' second = .error failure' after' ∧
          terms.failed failure failure' after after'

/-- The second action does what the first one does, from related states. -/
abbrev Agree (terms : Terms ε σ) (related : σ → σ → Prop) (action : EStateM ε σ α)
    (action' : EStateM ε σ β) (result : α → β → σ → σ → Prop) : Prop :=
  AgreeWhere terms (fun _ => True) related action action' result

variable {terms : Terms ε σ} {inside : σ → Prop} {related related' : σ → σ → Prop}
  {action : EStateM ε σ α} {action' : EStateM ε σ β} {result result' : α → β → σ → σ → Prop}

namespace AgreeWhere

theorem of_ok (agree : AgreeWhere terms inside related action action' result) {first second : σ}
    (holds : related first second) {value : α} {after : σ} (run : action first = .ok value after)
    (within : inside after) :
    ∃ value' after', action' second = .ok value' after' ∧ result value value' after after' := by
  have outcome := agree first second holds
  rw [run] at outcome
  exact outcome within

theorem of_error (agree : AgreeWhere terms inside related action action' result) {first second : σ}
    (holds : related first second) {failure : ε} {after : σ}
    (run : action first = .error failure after) (exact : terms.exact) :
    ∃ failure' after', action' second = .error failure' after' ∧
      terms.failed failure failure' after after' := by
  have outcome := agree first second holds
  rw [run] at outcome
  exact outcome exact

theorem mono (agree : AgreeWhere terms inside related' action action' result')
    (stronger : ∀ first second, related first second → related' first second)
    (weaker : ∀ value value' first second,
      result' value value' first second → result value value' first second) :
    AgreeWhere terms inside related action action' result := by
  intro first second holds
  cases run : action first with
  | ok value after =>
    intro within
    obtain ⟨value', after', run', given⟩ := agree.of_ok (stronger _ _ holds) run within
    exact ⟨value', after', run', weaker _ _ _ _ given⟩
  | error failure after => exact agree.of_error (stronger _ _ holds) run

theorem of_related (agree : AgreeWhere terms inside related' action action' result)
    (stronger : ∀ first second, related first second → related' first second) :
    AgreeWhere terms inside related action action' result :=
  agree.mono stronger fun _ _ _ _ => id

theorem weaken (agree : AgreeWhere terms inside related action action' result')
    (weaker : ∀ value value' first second,
      result' value value' first second → result value value' first second) :
    AgreeWhere terms inside related action action' result :=
  agree.mono (fun _ _ => id) weaker

theorem restrict {within : σ → Prop} (agree : Agree terms related action action' result) :
    AgreeWhere terms within related action action' result := by
  intro first second holds
  cases run : action first with
  | ok value after => exact fun _ => agree.of_ok holds run trivial
  | error failure after => exact agree.of_error holds run

/-- Less may be asked of failures. -/
theorem withTerms (agree : AgreeWhere terms inside related action action' result)
    (terms' : Terms ε σ) (exact : terms'.exact → terms.exact)
    (failed : ∀ failure failure' first second, terms.failed failure failure' first second →
      terms'.failed failure failure' first second) :
    AgreeWhere terms' inside related action action' result := by
  intro first second holds
  cases run : action first with
  | ok value after => exact agree.of_ok holds run
  | error failure after =>
    intro given
    obtain ⟨failure', after', run', fails⟩ := agree.of_error holds run (exact given)
    exact ⟨failure', after', run', failed _ _ _ _ fails⟩

/-- A fact that the related states imply can be used. -/
theorem of_fact {fact : Prop} (known : ∀ first second, related first second → fact)
    (agree : fact → AgreeWhere terms inside related action action' result) :
    AgreeWhere terms inside related action action' result :=
  fun first second holds => agree (known first second holds) first second holds

/-- Behind actions that agree, actions that agree, where what follows only
succeeds, inside, from inside. -/
theorem bindWithin {within : σ → Prop} {next : α → EStateM ε σ α'} {next' : β → EStateM ε σ β'}
    {final : α' → β' → σ → σ → Prop} (agree : AgreeWhere terms within related action action' result)
    (always : terms.exact → ∀ state, within state)
    (keeps : ∀ value middle value' after, next value middle = .ok value' after → inside after →
      within middle)
    (behind : ∀ value value',
      AgreeWhere terms inside (result value value') (next value) (next' value') final) :
    AgreeWhere terms inside related (action >>= next) (action' >>= next') final := by
  intro first second holds
  change match EStateM.bind action next first with
    | .ok value after => _
    | .error failure after => _
  unfold EStateM.bind
  cases run : action first with
  | ok value middle =>
    by_cases here : within middle
    · obtain ⟨value', middle', run', given⟩ := agree.of_ok holds run here
      have outcome := behind value value' middle middle' given
      rwa [← run_bind_of_ok run' next'] at outcome
    · dsimp only
      cases last : next value middle with
      | ok value' after => exact fun inner => absurd (keeps _ _ _ _ last inner) here
      | error failure after => exact fun exact => absurd (always exact middle) here
  | error failure middle =>
    intro exact
    obtain ⟨failure', middle', run', given⟩ := agree.of_error holds run exact
    exact ⟨failure', middle', run_bind_of_error run' next', given⟩

/-- Behind actions that agree, actions that agree. -/
theorem bind {next : α → EStateM ε σ α'} {next' : β → EStateM ε σ β'}
    {final : α' → β' → σ → σ → Prop} (agree : Agree terms related action action' result)
    (behind : ∀ value value',
      AgreeWhere terms inside (result value value') (next value) (next' value') final) :
    AgreeWhere terms inside related (action >>= next) (action' >>= next') final :=
  agree.bindWithin (fun _ _ => trivial) (fun _ _ _ _ _ _ => trivial) behind

/-- Behind actions that agree on what they find, actions that agree. -/
theorem bindSame {action' : EStateM ε σ α} {next : α → EStateM ε σ α'}
    {next' : α → EStateM ε σ β'} {kept : α → σ → σ → Prop} {final : α' → β' → σ → σ → Prop}
    (agree : Agree terms related action action' fun found found' first second =>
      found' = found ∧ kept found first second)
    (behind : ∀ found, AgreeWhere terms inside (kept found) (next found) (next' found) final) :
    AgreeWhere terms inside related (action >>= next) (action' >>= next') final := by
  refine agree.bind fun found found' => ?_
  refine of_fact (fun _ _ holds => holds.1) fun same => ?_
  subst same
  exact (behind found').of_related fun _ _ holds => holds.2

end AgreeWhere

theorem agree_pure {value : α} {value' : β}
    (holds : ∀ first second, related first second → result value value' first second) :
    AgreeWhere terms inside related (pure value) (pure value') result :=
  fun first second given _ => ⟨value', second, rfl, holds first second given⟩

theorem agree_modify {change change' : σ → σ} {result : PUnit → PUnit → σ → σ → Prop}
    (holds : ∀ first second, related first second → result ⟨⟩ ⟨⟩ (change first) (change' second)) :
    AgreeWhere terms inside related (modify change : EStateM ε σ PUnit) (modify change') result :=
  fun first second given _ => ⟨⟨⟩, change' second, rfl, holds first second given⟩

theorem agree_modifyGet {change : σ → α × σ} {change' : σ → β × σ}
    (holds : ∀ first second, related first second →
      result (change first).1 (change' second).1 (change first).2 (change' second).2) :
    AgreeWhere terms inside related (modifyGet change : EStateM ε σ α) (modifyGet change') result :=
  fun first second given _ => ⟨_, _, rfl, holds first second given⟩

end

end NewtonScript
