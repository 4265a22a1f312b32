import NewtonScript.Proofs.Token.Progress

/-!
# Texts line by line

A word, a line comment and a gap end at the end of a line as they end at the
end of a text.  A text without faults is therefore read in front of a new line
as it is read alone, and so is what stands on the lines behind it, faults
included.  In particular, lines that hold nothing but a gap can be put in.
-/

namespace NewtonScript

/-- The word, in the one spelling that stands for all spellings of a name. -/
def Lexeme.normal : Lexeme → Lexeme
  | .identifier name => .identifier name.normal
  | lexeme => lexeme

theorem Lexeme.normal_intern (lexeme : Lexeme) (store : Store) :
    (lexeme.intern store).1.normal = lexeme.normal := by
  generalize interned : (lexeme.intern store).1 = result
  cases interned ▸ TokenStream.intern_like lexeme store with
  | name folded => exact congrArg Lexeme.identifier folded.symm
  | word => rfl

/-- The place behind a text and a new line. -/
def Shift.behind (shift : Shift) (text : String) : Shift :=
  ⟨shift.bytes + (text.utf8ByteSize + 1), shift.lines + (text.toList.count '\n' + 1), 0⟩

namespace TokenStream

/-- What was read: a word, or a fault. -/
def kind : Except Failure Token → Except Fault Lexeme
  | .ok token => .ok token.lexeme.normal
  | .error failure => .error failure.fault

/-- Where it was read. -/
def place : Except Failure Token → Span
  | .ok token => token.span
  | .error failure => failure.span

/-- Every reading of what is left of a text, going on behind failures, up to
its end. -/
def scans (stream : TokenStream) : List (Except Failure Token) :=
  match _run : scan stream with
  | .ok token after => .ok token :: if _ended : isEnd token then [] else scans after
  | .error failure after => .error failure :: scans after
termination_by stream.cursor.rest.length
decreasing_by
  · have spent := (scan_ok_spends _run).1
    rw [Token.weight, if_neg _ended] at spent
    exact spent
  · exact (scan_error_spends _run).1

/-! ## Steps -/

section

variable {stream after : TokenStream} {cursor : Cursor}

theorem scans_of_ok {token : Token} (run : scan stream = .ok token after) :
    (isEnd token = true → scans stream = [.ok token]) ∧
      (isEnd token = false → scans stream = .ok token :: scans after) := by
  rw [scans]
  split
  · rename_i run'
    cases run.symm.trans run'
    refine ⟨fun ended => ?_, fun going => ?_⟩
    · rw [dif_pos ended]
    · rw [dif_neg (by rw [going]; decide)]
  · rename_i run'
    cases run.symm.trans run'

theorem scans_of_end {eof : Token} (read : stream.cursor.scan = (.ok eof, cursor))
    (ended : eof.lexeme = .eof) : scans stream = [.ok eof] := by
  obtain ⟨_, span⟩ := eof
  cases ended
  have run : scan stream = .ok ⟨.eof, span⟩ { stream with cursor } := by
    unfold scan
    rw [read]
    rfl
  exact (scans_of_ok run).1 rfl

theorem scans_of_word {raw : Token} (read : stream.cursor.scan = (.ok raw, cursor))
    (word : raw.lexeme ≠ .eof) :
    scans stream = .ok ⟨(raw.lexeme.intern stream.store).1, raw.span⟩ ::
      scans ⟨cursor, stream.pending, (raw.lexeme.intern stream.store).2⟩ := by
  have run : scan stream = .ok ⟨(raw.lexeme.intern stream.store).1, raw.span⟩
      ⟨cursor, stream.pending, (raw.lexeme.intern stream.store).2⟩ := by
    unfold scan
    rw [read]
  have going : isEnd ⟨(raw.lexeme.intern stream.store).1, raw.span⟩ = false := by
    obtain ⟨lexeme, span⟩ := raw
    cases lexeme with
    | eof => exact absurd rfl word
    | _ => rfl
  exact (scans_of_ok run).2 going

theorem scans_of_fault {failure : Failure} (read : stream.cursor.scan = (.error failure, cursor)) :
    scans stream = .error failure :: scans { stream with cursor } := by
  have run : scan stream = .error failure { stream with cursor } := by
    unfold scan
    rw [read]
  rw [scans]
  split
  · rename_i run'
    cases run.symm.trans run'
  · rename_i run'
    cases run.symm.trans run'
    rfl

end

/-- What holds at the end, and of a stream that goes on behind a word or a
fault, holds of every stream. -/
theorem scans_induction {motive : TokenStream → Prop}
    (ended : ∀ {stream eof cursor}, stream.cursor.scan = (.ok eof, cursor) →
      eof.lexeme = .eof → motive stream)
    (word : ∀ {stream raw cursor}, stream.cursor.scan = (.ok raw, cursor) → raw.lexeme ≠ .eof →
      (∀ store, motive ⟨cursor, stream.pending, store⟩) → motive stream)
    (fault : ∀ {stream failure cursor}, stream.cursor.scan = (.error failure, cursor) →
      motive { stream with cursor } → motive stream)
    (stream : TokenStream) : motive stream := by
  induction length : stream.cursor.rest.length using Nat.strongRecOn generalizing stream with
  | ind length ih =>
    subst length
    rcases read : stream.cursor.scan with ⟨failure | raw, cursor⟩
    · exact fault read (ih _ (Cursor.beyond_of_fault read).rest _ rfl)
    · by_cases eof : raw.lexeme = .eof
      · exact ended read eof
      · have beyond := (Cursor.reads_of_scan read).beyond eof
        exact word read eof fun store => ih _ beyond.rest _ rfl

/-! ## Runs -/

/-- A text is read alike at another place and from another store. -/
theorem scans_moved (shift : Shift) (stream : TokenStream) (pending : Option Token) (store : Store) :
    (scans ⟨stream.cursor.moved shift, pending, store⟩).map kind = (scans stream).map kind ∧
      (scans ⟨stream.cursor.moved shift, pending, store⟩).map place =
        (scans stream).map fun reading => (place reading).moved shift := by
  induction stream using scans_induction generalizing store with
  | @ended stream eof cursor read ended =>
    have read' := Cursor.scan_moved shift stream.cursor
    rw [read] at read'
    rw [scans_of_end read ended, @scans_of_end ⟨stream.cursor.moved shift, pending, store⟩ _ _
      read' ended]
    exact ⟨rfl, rfl⟩
  | @word stream raw cursor read word ih =>
    have read' := Cursor.scan_moved shift stream.cursor
    rw [read] at read'
    rw [scans_of_word read word, @scans_of_word ⟨stream.cursor.moved shift, pending, store⟩ _ _
      read' word]
    obtain ⟨kinds, places⟩ := ih _ (raw.lexeme.intern store).2
    constructor
    · rw [List.map_cons, List.map_cons, kinds, kind, kind, Lexeme.normal_intern,
        Lexeme.normal_intern]
    · rw [List.map_cons, places]
      rfl
  | @fault stream failure cursor read ih =>
    have read' := Cursor.scan_moved shift stream.cursor
    rw [read] at read'
    rw [scans_of_fault read, @scans_of_fault ⟨stream.cursor.moved shift, pending, store⟩ _ _ read']
    obtain ⟨kinds, places⟩ := ih store
    constructor
    · rw [List.map_cons, kinds]
      rfl
    · rw [List.map_cons, places]
      rfl

theorem scans_eq_of_scan {stream : TokenStream} {cursor : Cursor}
    (same : stream.cursor.scan = cursor.scan) : scans stream = scans { stream with cursor } := by
  rcases read : cursor.scan with ⟨failure | raw, behind⟩
  · rw [scans_of_fault (same.trans read), @scans_of_fault { stream with cursor } _ _ read]
  · by_cases eof : raw.lexeme = .eof
    · rw [scans_of_end (same.trans read) eof, @scans_of_end { stream with cursor } _ _ read eof]
    · rw [scans_of_word (same.trans read) eof, @scans_of_word { stream with cursor } _ _ read eof]

/-- A text without faults is read in front of a new line as it is read alone;
instead of its end, what follows is read. -/
theorem scans_followed (tail : List Char) (stream : TokenStream)
    (sound : ∀ reading ∈ scans stream, ∃ token, reading = .ok token) :
    ∃ words eof store, scans stream = words ++ [.ok eof] ∧ eof.lexeme = .eof ∧
      scans { stream with cursor := stream.cursor.followed ('\n' :: tail) } =
        words ++ scans ⟨⟨tail, stream.cursor.finish.offset + 1, stream.cursor.finish.line + 1⟩,
          stream.pending, store⟩ := by
  induction stream using scans_induction with
  | @ended stream eof cursor read ended =>
    have next := (Cursor.reads_of_scan read).scan_followed ended tail
    exact ⟨[], eof, stream.store, scans_of_end read ended, ended, scans_eq_of_scan next⟩
  | @word stream raw cursor read word ih =>
    have reads := Cursor.reads_of_scan read
    rw [scans_of_word read word] at sound ⊢
    obtain ⟨words, eof, store, all, ended, followed⟩ :=
      ih _ fun reading mem => sound reading (List.mem_cons_of_mem _ mem)
    refine ⟨_ :: words, eof, store, congrArg _ all, ended, ?_⟩
    rw [reads.finish] at followed
    exact (@scans_of_word { stream with cursor := stream.cursor.followed ('\n' :: tail) } _ _
      (reads.beforeNewline word tail).scan word).trans (congrArg _ followed)
  | @fault stream failure cursor read =>
    rw [scans_of_fault read] at sound
    obtain ⟨token, equal⟩ := sound _ List.mem_cons_self
    cases equal

/-- A text, at any place. -/
def placed (shift : Shift) (text : String) (store : Store) : TokenStream :=
  { cursor := (Cursor.ofString text).moved shift, store }

theorem scans_placed_append (shift : Shift) {text : String} {store : Store}
    (sound : ∀ reading ∈ scans (placed shift text store), ∃ token, reading = .ok token)
    (tail : String) :
    ∃ words eof rest, scans (placed shift text store) = words ++ [.ok eof] ∧ eof.lexeme = .eof ∧
      scans (placed shift (text ++ "\n" ++ tail) store) =
        words ++ scans (placed (shift.behind text) tail rest) := by
  obtain ⟨words, eof, rest, all, ended, followed⟩ := scans_followed tail.toList _ sound
  refine ⟨words, eof, rest, all, ended, ?_⟩
  have size : String.utf8Len text.toList = text.utf8ByteSize := by
    rw [← String.utf8ByteSize_ofList, String.ofList_toList]
  have behind : (⟨tail.toList, (placed shift text store).cursor.finish.offset + 1,
      (placed shift text store).cursor.finish.line + 1⟩ : Cursor) =
        (Cursor.ofString tail).moved (shift.behind text) := by
    rw [Cursor.finish_eq]
    simp only [placed, Cursor.moved, Cursor.ofString, size, Shift.behind, Cursor.mk.injEq, true_and]
    omega
  have joined : (Cursor.ofString (text ++ "\n" ++ tail)).moved shift =
      (placed shift text store).cursor.followed ('\n' :: tail.toList) := by
    simp [placed, Cursor.moved, Cursor.ofString, Cursor.followed]
  rw [behind] at followed
  rw [placed, joined]
  exact followed

/-- A text without a word leads to the next line. -/
theorem scans_placed_gap {gap : String} {store : Store} {eof : Token}
    (blank : scans (ofString gap store) = [.ok eof]) (shift : Shift) (tail : String) (store' : Store) :
    ∃ rest, scans (placed shift (gap ++ "\n" ++ tail) store') =
      scans (placed (shift.behind gap) tail rest) := by
  have kinds := (scans_moved shift (ofString gap store) none store').1
  rw [blank, List.map_singleton, List.map_eq_singleton_iff] at kinds
  obtain ⟨reading, alone, same⟩ := kinds
  change scans (placed shift gap store') = _ at alone
  have sound : ∀ reading ∈ scans (placed shift gap store'), ∃ token, reading = .ok token := by
    rw [alone]
    intro other mem
    rw [List.mem_singleton.mp mem]
    cases reading with
    | ok token => exact ⟨token, rfl⟩
    | error => cases same
  obtain ⟨words, eof', rest, all, -, followed⟩ := scans_placed_append shift sound tail
  rw [alone] at all
  obtain ⟨rfl, -⟩ := List.append_inj' (show [] ++ [reading] = _ from all) rfl
  exact ⟨rest, followed⟩

/-- A text without faults and the lines behind it are read one after the
other, the lines as if they stood alone, at a place that is moved by the bytes
and the lines in front of them.  Lines that hold no word can be put in between
without a change to what is read. -/
theorem scans_lines (first second : String) (store store' : Store)
    (sound : ∀ reading ∈ scans (ofString first store), ∃ token, reading = .ok token) :
    ∃ words eof behind,
      scans (ofString first store) = words ++ [.ok eof] ∧ eof.lexeme = .eof ∧
        scans (ofString (first ++ "\n" ++ second) store) = words ++ behind ∧
          behind.map kind = (scans (ofString second store')).map kind ∧
            behind.map place = (scans (ofString second store')).map (fun reading =>
              (place reading).moved ⟨first.utf8ByteSize + 1, first.toList.count '\n' + 1, 0⟩) ∧
              ∀ gap : String, (∃ eof, scans (ofString gap store) = [.ok eof]) →
                (scans (ofString (first ++ "\n" ++ gap ++ "\n" ++ second) store)).map kind =
                  (words ++ scans (ofString second store')).map kind := by
  obtain ⟨words, eof, rest, all, ended, followed⟩ := scans_placed_append {} sound second
  have moved := scans_moved (Shift.behind {} first) (ofString second store') none
  refine ⟨words, eof, _, all, ended, followed, (moved rest).1, ?_, ?_⟩
  · have here : Shift.behind {} first =
        ⟨first.utf8ByteSize + 1, first.toList.count '\n' + 1, 0⟩ := by
      simp only [Shift.behind, Nat.zero_add]
    rw [← here]
    exact (moved rest).2
  · rintro gap ⟨eof', blank⟩
    obtain ⟨words', _, rest', all', -, followed'⟩ :=
      scans_placed_append {} sound (gap ++ "\n" ++ second)
    obtain ⟨rfl, -⟩ := List.append_inj' (all.symm.trans all') rfl
    obtain ⟨rest'', skipped⟩ := scans_placed_gap blank (Shift.behind {} first) second rest'
    rw [skipped] at followed'
    rw [show first ++ "\n" ++ gap ++ "\n" ++ second = first ++ "\n" ++ (gap ++ "\n" ++ second) by
      simp only [String.append_assoc]]
    change (scans (placed {} _ _)).map kind = _
    rw [followed', List.map_append, List.map_append]
    exact congrArg _ (scans_moved _ (ofString second store') none rest'').1

/-- A number, a slash and a line comment in front of the end of their line, and
a fault behind a block comment. -/
theorem scans_lines_comment :
    (∀ reading ∈ scans (ofString "1\n/ //" .empty), ∃ token, reading = .ok token) ∧
      ∃ words eof behind,
        scans (ofString "1\n/ //" .empty) = words ++ [.ok eof] ∧ eof.lexeme = .eof ∧
          scans (ofString ("1\n/ //" ++ "\n" ++ "/* */ #a") .empty) = words ++ behind ∧
            behind.map kind = (scans (ofString "/* */ #a" .empty)).map kind ∧
              behind.map place = (scans (ofString "/* */ #a" .empty)).map (fun reading =>
                (place reading).moved ⟨7, 2, 0⟩) ∧
                ∀ gap : String, (∃ eof, scans (ofString gap .empty) = [.ok eof]) →
                  (scans (ofString ("1\n/ //" ++ "\n" ++ gap ++ "\n" ++ "/* */ #a") .empty)).map kind =
                    (words ++ scans (ofString "/* */ #a" .empty)).map kind := by
  have sound : ∀ reading ∈ scans (ofString "1\n/ //" .empty), ∃ token, reading = .ok token := by
    have readable : (scans (ofString "1\n/ //" .empty)).all Except.toBool = true := by
      decide +kernel
    intro reading mem
    cases reading with
    | ok token => exact ⟨token, rfl⟩
    | error => cases List.all_eq_true.mp readable _ mem
  have lines := scans_lines "1\n/ //" "/* */ #a" .empty .empty sound
  rw [show "1\n/ //".utf8ByteSize + 1 = 7 by decide +kernel,
    show "1\n/ //".toList.count '\n' + 1 = 2 by decide +kernel] at lines
  exact ⟨sound, lines⟩

end TokenStream

end NewtonScript
