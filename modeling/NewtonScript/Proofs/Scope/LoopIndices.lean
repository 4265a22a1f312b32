import NewtonScript.Proofs.Scope.References

/-!
# Captured loop indices

The walk over references fails at the first name that a function around its
own has as the index of a loop only, and at nothing else.
-/

namespace NewtonScript

/-- A node is a name whose binder is a function around, which owns the name as
the index of a loop and has neither declared it nor got it as an argument. -/
def Scopes.CapturesIndex (scopes : Scopes) (current : ScopeId) (node : Node) : Prop :=
  ∃ name owner, node.expr = .name name ∧ scopes.binder? current name = some owner ∧
    owner ≠ current ∧ (scopes.get owner).owns name ∧ (scopes.get owner).loopIndices.contains name ∧
      ¬ (scopes.get owner).explicitLocals.contains name ∧ ¬ (scopes.get owner).args.contains name

/-- The first of the sites of a tree at which the index of a loop is captured
is a name over a region. -/
def Scopes.FirstCapture (scopes : Scopes) (sites : List (ScopeId × Node)) (name : Symbol)
    (span : Span) : Prop :=
  ∃ passed current rest, sites = passed ++ (current, ⟨.name name, span⟩) :: rest ∧
    scopes.CapturesIndex current ⟨.name name, span⟩ ∧
      ∀ site ∈ passed, ¬ scopes.CapturesIndex site.1 site.2

namespace Capture

variable {declared before : Scopes} {current : ScopeId} {name : Symbol} {span : Span}

/-- A run is refused with a failure if something is captured, and succeeds
otherwise. -/
def Decides (captured : Prop) (failure : Failure) (result : EStateM.Result Failure Scopes Unit) :
    Prop :=
  captured ∧ (∃ final, result = .error failure final) ∨ ¬ captured ∧ ∃ final, result = .ok () final

theorem Decides.congr {captured captured' : Prop} {failure : Failure}
    {result : EStateM.Result Failure Scopes Unit} (decides : Decides captured failure result)
    (same : captured ↔ captured') : Decides captured' failure result :=
  propext same ▸ decides

/-- Looking a name up fails if its owner, not the function itself, has it as
the index of a loop only. -/
theorem decides_referenceAlong (same : declared.SameNames before) (rest passed : List ScopeId) :
    Decides (∃ front owner, Finds declared name rest front owner ∧ passed ++ front ≠ [] ∧
        (declared.get owner).isBareLoopIndex name) ⟨.capturedLoopIndex name, span⟩
      (referenceAlong current name span rest passed before) := by
  induction rest generalizing passed with
  | nil =>
    refine .inr ⟨?_, _, rfl⟩
    rintro ⟨front, owner, ⟨⟨back, split⟩, -, -⟩, -, -⟩
    simp at split
  | cons id rest ih =>
    rw [referenceAlong_cons, same.owns, same.constants, same.isBareLoopIndex]
    by_cases owns : (declared.get id).owns name
    · have binds : (declared.get id).binds name = true := by simp [Scope.binds, owns]
      simp only [owns, if_true, finds_cons_of_binds binds]
      cases passed with
      | nil =>
        refine .inr ⟨?_, _, rfl⟩
        rintro ⟨front, owner, ⟨rfl, rfl, -⟩, notOwn, -⟩
        exact notOwn rfl
      | cons first passed =>
        by_cases bare : (declared.get id).isBareLoopIndex name
        · refine .inl ⟨⟨[], id, ⟨rfl, rfl, trivial⟩, List.cons_ne_nil _ _, bare⟩, before, ?_⟩
          simp [bare]
        · refine .inr ⟨?_, capture before id current (first :: passed) name, by simp [bare]⟩
          rintro ⟨front, owner, ⟨rfl, rfl, -⟩, -, isBare⟩
          exact bare isBare
    · by_cases constant : (declared.get id).constants.contains name
      · have binds : (declared.get id).binds name = true := by simp [Scope.binds, constant]
        refine .inr ⟨?_, before, by simp [owns, constant]⟩
        rintro ⟨front, owner, finds, -, -⟩
        exact owns ((finds_cons_of_binds binds).mp finds).2.2
      · have unbound : (declared.get id).binds name = false := by
          simp [Scope.binds, owns, constant]
        simp only [owns, constant, Bool.false_eq_true, if_false, finds_cons_of_unbound unbound]
        refine (ih (passed ++ [id])).congr ⟨?_, ?_⟩
        · rintro ⟨front, owner, finds, -, bare⟩
          exact ⟨id :: front, owner, ⟨front, rfl, finds⟩, by simp, bare⟩
        · rintro ⟨-, owner, ⟨front, rfl, finds⟩, -, bare⟩
          exact ⟨front, owner, finds, by simp, bare⟩

theorem decides_reference (same : declared.SameNames before) (numbered : declared.Numbered)
    (name : Symbol) :
    Decides (declared.CapturesIndex current ⟨.name name, span⟩) ⟨.capturedLoopIndex name, span⟩
      (reference current name span before) := by
  change Decides _ _ (referenceAlong current name span (before.chain current) [] before)
  rw [same.chain]
  refine (decides_referenceAlong same _ _).congr ⟨?_, ?_⟩
  · rintro ⟨front, owner, finds, notOwn, bare⟩
    obtain ⟨binder, owns⟩ := exists_finds_iff.mp ⟨front, finds⟩
    exact ⟨name, owner, rfl, binder, (finds.front_ne_nil_iff numbered).mp notOwn, owns,
      by simpa [Scope.isBareLoopIndex, and_assoc] using bare⟩
  · rintro ⟨_, owner, ⟨⟩, binder, different, owns, bare⟩
    obtain ⟨front, finds⟩ := exists_finds_iff.mpr ⟨binder, owns⟩
    exact ⟨front, owner, finds, (finds.front_ne_nil_iff numbered).mpr different,
      by simpa [Scope.isBareLoopIndex, and_assoc] using bare⟩

/-- An expression is refused if it captures the index of a loop. -/
theorem exists_decides_note (same : declared.SameNames before) (numbered : declared.Numbered)
    (current : ScopeId) (node : Node) :
    ∃ name, (declared.CapturesIndex current node → node.expr = .name name) ∧
      Decides (declared.CapturesIndex current node) ⟨.capturedLoopIndex name, node.span⟩
        (note node.expr node.span current before) := by
  obtain ⟨expr, span⟩ := node
  by_cases isName : ∃ name, expr = .name name
  · obtain ⟨name, rfl⟩ := isName
    exact ⟨name, fun _ => rfl, decides_reference same numbered name⟩
  · have free : ¬ declared.CapturesIndex current ⟨expr, span⟩ :=
      fun ⟨name, _, equal, _⟩ => isName ⟨name, equal⟩
    refine ⟨default, fun captures => absurd captures free, .inr ⟨free, ?_⟩⟩
    dsimp only
    unfold note
    split
    · exact absurd ⟨_, rfl⟩ isName
    all_goals exact ⟨_, rfl⟩

/-- Expressions are noted up to the first one that captures the index of a
loop. -/
theorem noteAll_outcome (numbered : declared.Numbered) (sites : List (ScopeId × Node))
    (same : declared.SameNames before) :
    (∀ site ∈ sites, ¬ declared.CapturesIndex site.1 site.2) ∧
        (∃ after, noteAll sites before = .ok () after) ∨
      ∃ name span after, declared.FirstCapture sites name span ∧
        noteAll sites before = .error ⟨.capturedLoopIndex name, span⟩ after := by
  induction sites generalizing before with
  | nil => exact .inl ⟨by simp, _, rfl⟩
  | cons site rest ih =>
    obtain ⟨current, expr, span⟩ := site
    obtain ⟨name, isName, ⟨captures, after, noted⟩ | ⟨free, middle, noted⟩⟩ :=
      exists_decides_note same numbered current ⟨expr, span⟩
    · cases isName captures
      exact .inr ⟨name, span, after, ⟨[], current, rest, rfl, captures, by simp⟩,
        run_bind_of_error noted _⟩
    · rw [noteAll_cons, run_bind_of_ok noted]
      refine (ih ((preserves_note _ _ _).of_ok same noted).1).imp ?_ ?_
      · exact And.imp_left fun others => List.forall_mem_cons.mpr ⟨free, others⟩
      · rintro ⟨name, span, after, ⟨passed, inner, behind, rfl, captures, others⟩, failed⟩
        exact ⟨name, span, after, ⟨_ :: passed, inner, behind, rfl, captures,
          List.forall_mem_cons.mpr ⟨free, others⟩⟩, failed⟩

end Capture

namespace Scopes

variable {tree : Node} {declared : Scopes} {store store' : Store} {bag bag' : DiagnosticBag}

theorem FirstCapture.exists_site {id : ScopeId} {name : Symbol} {span : Span}
    (first : declared.FirstCapture (declared.sites tree id) name span) :
    ∃ current part, declared.Site tree id current part ∧ declared.CapturesIndex current part := by
  obtain ⟨passed, current, rest, split, captures, -⟩ := first
  exact ⟨current, _, mem_sites_iff.mp (by simp [split]), captures⟩

theorem exists_firstCapture (run : ofTree tree store bag = (.ok declared, store', bag'))
    {failure : Failure} (failed : declared.withReferences tree = .error failure) :
    ∃ name span, declared.FirstCapture (declared.sites tree root) name span ∧
      failure = ⟨.capturedLoopIndex name, span⟩ := by
  unfold withReferences at failed
  rw [Capture.visit_eq_noteAll tree root (.refl declared)] at failed
  rcases Capture.noteAll_outcome (clean_ofTree run).1 (declared.sites tree root) (.refl declared)
    with ⟨-, after, visited⟩ | ⟨name, span, after, first, visited⟩
  · rw [visited] at failed
    cases failed
  · rw [visited] at failed
    cases failed
    exact ⟨name, span, first, rfl⟩

/-- References are refused exactly if somewhere in the tree a name captures
the index of a loop.  They are refused at the first such name, and for that
reason. -/
theorem withReferences_refused_iff (run : ofTree tree store bag = (.ok declared, store', bag')) :
    ((∃ failure, declared.withReferences tree = .error failure) ↔
      ∃ current part, declared.Site tree root current part ∧ declared.CapturesIndex current part) ∧
    ∀ failure, declared.withReferences tree = .error failure →
      failure.fault.code.number = 4004 ∧
        ∃ name span, declared.FirstCapture (declared.sites tree root) name span ∧
          failure = ⟨.capturedLoopIndex name, span⟩ := by
  refine ⟨⟨?_, ?_⟩, fun failure failed => ?_⟩
  · rintro ⟨failure, failed⟩
    obtain ⟨name, span, first, -⟩ := exists_firstCapture run failed
    exact first.exists_site
  · rintro ⟨current, part, site, captures⟩
    unfold withReferences
    rw [Capture.visit_eq_noteAll tree root (.refl declared)]
    rcases Capture.noteAll_outcome (clean_ofTree run).1 (declared.sites tree root) (.refl declared)
      with ⟨free, -⟩ | ⟨name, span, after, -, visited⟩
    · exact absurd captures (free _ (mem_sites_iff.mpr site))
    · rw [visited]
      exact ⟨_, rfl⟩
  · obtain ⟨name, span, first, rfl⟩ := exists_firstCapture run failed
    exact ⟨rfl, name, span, first, rfl⟩

/-- `for i := 1 to 2 do func() i`. -/
def capturingLoop : Node :=
  let number (value : Int) : Node := ⟨.literal (.int value), Span.none⟩
  ⟨.forLoop (.ofString "i") (number 1) (number 2) none
    ⟨.func 0 [] ⟨.name (.ofString "i"), ⟨26, 27, 1⟩⟩ false none, Span.none⟩, Span.none⟩

/-- The name in the function of the loop is refused. -/
theorem withReferences_capturingLoop :
    ∃ declared store bag, ofTree capturingLoop .empty .empty = (.ok declared, store, bag) ∧
      declared.withReferences capturingLoop =
        .error ⟨.capturedLoopIndex (.ofString "i"), ⟨26, 27, 1⟩⟩ ∧
      ∃ current part, declared.Site capturingLoop root current part ∧
        declared.CapturesIndex current part := by
  obtain ⟨declared, store, bag, run, failed⟩ : ∃ declared store bag,
      ofTree capturingLoop .empty .empty = (.ok declared, store, bag) ∧
        declared.withReferences capturingLoop =
          .error ⟨.capturedLoopIndex (.ofString "i"), ⟨26, 27, 1⟩⟩ :=
    ⟨_, _, _, rfl, rfl⟩
  exact ⟨declared, store, bag, run, failed, (withReferences_refused_iff run).1.mp ⟨_, failed⟩⟩

end Scopes

end NewtonScript
