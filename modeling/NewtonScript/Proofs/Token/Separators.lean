import NewtonScript.Proofs.Token.Lines

/-!
# Absorbed separators

A separator is dropped in front of a word that closes what it separates.  To
find out, a stream reads one word ahead, and that word is given as it is: of
two separators in a row only the first is looked at.  In a run of separators
the last one is therefore dropped only if the run has an odd length.
-/

namespace NewtonScript

namespace Lexeme

theorem isSeparator_of_absorbedBy {first second : Lexeme}
    (absorbed : first.absorbedBy second = true) : first.isSeparator = true := by
  unfold absorbedBy at absorbed
  split at absorbed
  · rfl
  · rfl
  · cases absorbed

/-- What absorbs a separator is none itself. -/
theorem not_isSeparator_of_absorbedBy {first second : Lexeme}
    (absorbed : first.absorbedBy second = true) : second.isSeparator = false := by
  unfold absorbedBy at absorbed
  split at absorbed
  · cases second with
    | punctuation mark => cases mark <;> first | rfl | cases absorbed
    | _ => rfl
  · cases second with
    | punctuation mark => cases mark <;> first | rfl | cases absorbed
    | _ => rfl
  · cases absorbed

end Lexeme

namespace TokenStream

variable {token : Token} {stream after : TokenStream}

/-- Whether the first token of a row absorbs a token in front of it. -/
def absorbs : List Token → Token → Bool
  | [], _ => false
  | following :: _, token => token.lexeme.absorbedBy following.lexeme

/-- A row of tokens without the separators that the next token absorbs. -/
def trimmed : List Token → List Token
  | [] => []
  | token :: rest => if absorbs rest token then trimmed rest else token :: trimmed rest

/-- The number of separators at the front of a row. -/
def separators (tokens : List Token) : Nat :=
  (tokens.takeWhile fun token => token.lexeme.isSeparator).length

/-- What is given of a row of tokens behind others, the latest first: a token is
dropped if the next one absorbs it and an even number of separators stands
directly in front of it. -/
def givenBehind (passed : List Token) : List Token → List Token
  | [] => []
  | token :: rest =>
    if absorbs rest token = true ∧ separators passed % 2 = 0 then givenBehind (token :: passed) rest
    else token :: givenBehind (token :: passed) rest

theorem separators_cons_of_separator (separates : token.lexeme.isSeparator = true)
    (passed : List Token) : separators (token :: passed) = separators passed + 1 := by
  simp [separators, separates]

theorem separators_cons_of_word (plain : token.lexeme.isSeparator = false) (passed : List Token) :
    separators (token :: passed) = 0 := by
  simp [separators, plain]

theorem absorbs_of_word (plain : token.lexeme.isSeparator = false) (rest : List Token) :
    absorbs rest token = false := by
  cases rest with
  | nil => rfl
  | cons following rest =>
    refine Bool.eq_false_iff.mpr fun absorbed => ?_
    rw [Lexeme.isSeparator_of_absorbedBy absorbed] at plain
    cases plain

theorem givenBehind_of_word (plain : token.lexeme.isSeparator = false) (passed rest : List Token) :
    givenBehind passed (token :: rest) = token :: givenBehind (token :: passed) rest := by
  rw [givenBehind, absorbs_of_word plain, if_neg (by simp)]

/-- Where no two separators stand side by side, every absorbed one is dropped. -/
theorem givenBehind_eq_trimmed {passed tokens : List Token}
    (first : ∀ last ∈ passed.head?, ∀ token ∈ tokens.head?,
      ¬ (last.lexeme.isSeparator = true ∧ token.lexeme.isSeparator = true))
    (apart : tokens.IsChain fun token following =>
      ¬ (token.lexeme.isSeparator = true ∧ following.lexeme.isSeparator = true)) :
    givenBehind passed tokens = trimmed tokens := by
  induction tokens generalizing passed with
  | nil => rfl
  | cons token rest ih =>
    have further : givenBehind (token :: passed) rest = trimmed rest := by
      refine ih ?_ apart.of_cons
      rintro _ ⟨⟩ following ahead
      cases rest with
      | nil => cases ahead
      | cons next rest =>
        cases ahead
        exact (List.isChain_cons_cons.mp apart).1
    rw [givenBehind, trimmed, further]
    cases absorbed : absorbs rest token with
    | false => simp
    | true =>
      have separates : token.lexeme.isSeparator = true := by
        cases plain : token.lexeme.isSeparator with
        | true => rfl
        | false => rw [absorbs_of_word plain] at absorbed; cases absorbed
      have alone : separators passed = 0 := by
        cases passed with
        | nil => rfl
        | cons last passed =>
          refine separators_cons_of_word ?_ passed
          exact Bool.eq_false_iff.mpr fun twice => first last rfl token rfl ⟨twice, separates⟩
      simp [alone]

/-! ## Readings -/

/-- What a stream of which a token was read gives first. -/
theorem scan_of_scans {rest : List (Except Failure Token)}
    (all : scans stream = .ok token :: rest) :
    ∃ after, scan stream = .ok token after ∧ after.pending = stream.pending ∧
      (isEnd token = true ∧ rest = [] ∨ isEnd token = false ∧ scans after = rest) := by
  cases run : scan stream with
  | ok found after =>
    cases ended : isEnd found with
    | true =>
      cases ((scans_of_ok run).1 ended).symm.trans all
      exact ⟨after, rfl, (scan_ok_spends run).2, .inl ⟨ended, rfl⟩⟩
    | false =>
      cases ((scans_of_ok run).2 ended).symm.trans all
      exact ⟨after, rfl, (scan_ok_spends run).2, .inr ⟨ended, rfl⟩⟩
  | error failure after =>
    obtain ⟨_, read, -⟩ := scan_eq_error run
    cases (scans_of_fault read).symm.trans all

theorem scans_ne_nil (stream : TokenStream) : scans stream ≠ [] := by
  rw [scans]
  split <;> exact List.cons_ne_nil _ _

theorem length_scans_le (stream : TokenStream) :
    (scans stream).length ≤ stream.cursor.rest.length + 1 := by
  refine @scans_induction (fun stream => (scans stream).length ≤ stream.cursor.rest.length + 1)
    ?_ ?_ ?_ stream
  · intro stream eof cursor read ended
    rw [scans_of_end read ended]
    simp
  · intro stream raw cursor read word ih
    have shorter := ih (raw.lexeme.intern stream.store).2
    have less := ((Cursor.reads_of_scan read).beyond word).rest
    rw [scans_of_word read word, List.length_cons]
    dsimp only at shorter
    omega
  · intro stream failure cursor read ih
    have less := (Cursor.beyond_of_fault read).rest
    rw [scans_of_fault read, List.length_cons]
    dsimp only at ih
    omega

theorem steps_of_end (run : next stream = .ok token after) (ended : isEnd token = true)
    (limit : Nat) (found : List (Except Failure Token)) :
    steps (limit + 1) stream found = ((.ok token :: found).reverse, after) := by
  rw [steps, run]
  simp only [ended, if_true]

theorem steps_of_word (run : next stream = .ok token after) (going : isEnd token = false)
    (limit : Nat) (found : List (Except Failure Token)) :
    steps (limit + 1) stream found = steps limit after (.ok token :: found) := by
  rw [steps, run]
  simp [going]

/-- The step from one token, or from a separator and the token behind it, to
what is left. -/
theorem steps_given {raw passed : List Token} {limit : Nat} {found : List (Except Failure Token)}
    (room : raw.length ≤ limit) (absent : stream.pending = none)
    (sound : scans stream = raw.map .ok) (even : separators passed % 2 = 0) :
    (steps limit stream found).1 = found.reverse ++ (givenBehind passed raw).map .ok := by
  induction length : raw.length using Nat.strongRecOn
    generalizing raw passed limit stream found with
  | ind length ih =>
    subst length
    cases raw with
    | nil => exact absurd sound (scans_ne_nil stream)
    | cons token rest =>
      obtain ⟨limit, rfl⟩ := Nat.exists_eq_add_one_of_ne_zero (Nat.ne_of_gt (Nat.lt_of_lt_of_le
        (Nat.succ_pos _) room))
      have room' : rest.length ≤ limit := Nat.le_of_succ_le_succ room
      obtain ⟨after, scanned, kept, ends⟩ := scan_of_scans sound
      have absent' : after.pending = none := kept.trans absent
      cases separates : token.lexeme.isSeparator with
      | false =>
        have run := next_of_scan absent scanned separates
        rw [givenBehind_of_word separates]
        rcases ends with ⟨ended, nothing⟩ | ⟨going, behind⟩
        · rw [steps_of_end run ended, List.map_eq_nil_iff.mp nothing]
          simp [givenBehind]
        · have even' : separators (token :: passed) % 2 = 0 := by
            simp [separators_cons_of_word separates]
          rw [steps_of_word run going, ih rest.length (by simp) room' absent' behind even' rfl]
          simp
      | true =>
        have going : isEnd token = false := by
          obtain ⟨lexeme, span⟩ := token
          cases lexeme <;> first | rfl | cases separates
        obtain ⟨-, behind⟩ := ends.resolve_left fun ended => by simp [going] at ended
        cases rest with
        | nil => exact absurd behind (scans_ne_nil after)
        | cons following rest =>
          obtain ⟨last, scanned', kept', ends'⟩ := scan_of_scans behind
          have absent'' : last.pending = none := kept'.trans absent'
          have run := next_of_scans absent scanned separates scanned'
          have fewer : rest.length < (token :: following :: rest).length := by
            simp only [List.length_cons]
            omega
          cases absorbed : token.lexeme.absorbedBy following.lexeme with
          | true =>
            have plain := Lexeme.not_isSeparator_of_absorbedBy absorbed
            rw [absorbed] at run
            rw [givenBehind, if_pos ⟨absorbed, even⟩, givenBehind_of_word plain]
            rcases ends' with ⟨ended, nothing⟩ | ⟨going', behind'⟩
            · rw [steps_of_end run ended, List.map_eq_nil_iff.mp nothing]
              simp [givenBehind]
            · have even' : separators (following :: token :: passed) % 2 = 0 := by
                simp [separators_cons_of_word plain]
              rw [steps_of_word run going', ih rest.length fewer
                (Nat.le_of_succ_le room') absent'' behind' even' rfl]
              simp
          | false =>
            obtain ⟨limit, rfl⟩ := Nat.exists_eq_add_one_of_ne_zero
              (Nat.ne_of_gt (Nat.lt_of_lt_of_le (Nat.succ_pos _) room'))
            have odd : separators (token :: passed) % 2 = 1 := by
              rw [separators_cons_of_separator separates]
              omega
            have even' : separators (following :: token :: passed) % 2 = 0 := by
              cases plain : following.lexeme.isSeparator with
              | true =>
                rw [separators_cons_of_separator plain]
                omega
              | false => simp [separators_cons_of_word plain]
            rw [absorbed] at run
            have run' : next { last with pending := some following } = .ok following last := by
              exact congrArg (EStateM.Result.ok following) (by cases last; cases absent''; rfl)
            rw [givenBehind, if_neg (by simp [absorbs, absorbed]), givenBehind,
              if_neg (by simp [odd]), steps_of_word run going]
            rcases ends' with ⟨ended, nothing⟩ | ⟨going', behind'⟩
            · rw [steps_of_end run' ended, List.map_eq_nil_iff.mp nothing]
              simp [givenBehind]
            · rw [steps_of_word run' going', ih rest.length fewer (Nat.le_of_succ_le_succ room')
                absent'' behind' even' rfl]
              simp

/-- Of a text without faults, a stream gives the tokens in order, without the
separators that the next token absorbs and that an even number of separators
stands directly in front of.  Where no two separators stand side by side, it
drops exactly the separators that the next token absorbs. -/
theorem readings_given {text : String} {store : Store} {raw : List Token}
    (sound : scans (ofString text store) = raw.map .ok) :
    (readings (ofString text store)).1 = (givenBehind [] raw).map .ok ∧
      ((raw.IsChain fun token following =>
          ¬ (token.lexeme.isSeparator = true ∧ following.lexeme.isSeparator = true)) →
        (readings (ofString text store)).1 = (trimmed raw).map .ok) := by
  have room : raw.length ≤ (ofString text store).cursor.rest.length + 2 := by
    have bound := length_scans_le (ofString text store)
    rw [sound, List.length_map] at bound
    omega
  have given : (readings (ofString text store)).1 = (givenBehind [] raw).map .ok :=
    steps_given room rfl sound rfl
  refine ⟨given, fun apart => ?_⟩
  have first : ∀ last ∈ ([] : List Token).head?, ∀ token ∈ raw.head?,
      ¬ (last.lexeme.isSeparator = true ∧ token.lexeme.isSeparator = true) := by
    simp
  rw [← givenBehind_eq_trimmed first apart]
  exact given

theorem exists_sound {readings : List (Except Failure Token)}
    (sound : readings.all Except.toBool = true) : ∃ raw : List Token, readings = raw.map .ok := by
  induction readings with
  | nil => exact ⟨[], rfl⟩
  | cons reading rest ih =>
    rw [List.all_cons, Bool.and_eq_true] at sound
    obtain ⟨raw, rfl⟩ := ih sound.2
    cases reading with
    | ok token => exact ⟨token :: raw, rfl⟩
    | error => cases sound.1

/-- The comma in front of the bracket is dropped. -/
theorem readings_given_list : ∃ raw : List Token, scans (ofString "[1, 2,]" .empty) = raw.map .ok ∧
    (readings (ofString "[1, 2,]" .empty)).1 = (givenBehind [] raw).map .ok ∧
      raw.length = 7 ∧ (givenBehind [] raw).length = 6 := by
  have length : (scans (ofString "[1, 2,]" .empty)).length = 7 := by decide +kernel
  have length' : (readings (ofString "[1, 2,]" .empty)).1.length = 6 := by decide +kernel
  obtain ⟨raw, sound⟩ := exists_sound
    (show (scans (ofString "[1, 2,]" .empty)).all Except.toBool = true by decide +kernel)
  have given := (readings_given sound).1
  exact ⟨raw, sound, given, by rwa [sound, List.length_map] at length,
    by rwa [given, List.length_map] at length'⟩

/-- Of two semicolons in front of `end`, both are given. -/
theorem readings_untrimmed : ∃ raw : List Token, scans (ofString "begin a;; end" .empty) = raw.map .ok ∧
    (readings (ofString "begin a;; end" .empty)).1 ≠ (trimmed raw).map .ok := by
  obtain ⟨raw, sound⟩ := exists_sound
    (show (scans (ofString "begin a;; end" .empty)).all Except.toBool = true by decide +kernel)
  refine ⟨raw, sound, fun equal => ?_⟩
  have shorter : (trimmed ((scans (ofString "begin a;; end" .empty)).filterMap
      Except.toOption)).length = 5 := by
    decide +kernel
  have longer : (readings (ofString "begin a;; end" .empty)).1.length = 6 := by decide +kernel
  have same : (raw.map (.ok : Token → Except Failure Token)).filterMap Except.toOption = raw := by
    rw [List.filterMap_map]
    exact List.filterMap_some
  rw [sound, same] at shorter
  rw [equal, List.length_map, shorter] at longer
  cases longer

end TokenStream

end NewtonScript
