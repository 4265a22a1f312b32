import Mathlib.Data.String.Basic
import NewtonScript.Proofs.Reading.Normal
import NewtonScript.Proofs.Token.Faults

/-!
# Tokens of a text and of a longer one

A text is read like the same text at another place.  It is also read like the
front of a longer text, in which a new line and a semicolon follow it: where
the text ends, the longer one has the semicolon.
-/

namespace NewtonScript

/-! ## Words -/

/-- Whether a word is a name. -/
def Lexeme.isName : Lexeme → Bool
  | .identifier _ => true
  | _ => false

theorem Lexeme.eq_of_beq_noName {lexeme word : Lexeme} (noName : lexeme.isName = false)
    (equal : (word == lexeme) = true) : word = lexeme := by
  cases lexeme with
  | identifier => cases noName
  | _ => cases word <;> simp_all [BEq.beq, instBEqLexeme.beq]

/-- The same word, up to the spelling of names. -/
inductive Lexeme.Same (rename : Symbol → Symbol) : Lexeme → Lexeme → Prop where
  | name {first second : Symbol} (named : rename first = rename second) :
      Same rename (.identifier first) (.identifier second)
  | word {lexeme : Lexeme} (noName : lexeme.isName = false) : Same rename lexeme lexeme

namespace Lexeme.Same

variable {rename : Symbol → Symbol} {first second third : Lexeme}

theorem refl (lexeme : Lexeme) : lexeme.Same rename lexeme := by
  cases lexeme with
  | identifier => exact .name rfl
  | _ => exact .word rfl

theorem symm (same : first.Same rename second) : second.Same rename first := by
  cases same with
  | name named => exact .name named.symm
  | word noName => exact .word noName

theorem trans (same : first.Same rename second) (further : second.Same rename third) :
    first.Same rename third := by
  cases same with
  | word => exact further
  | name named =>
    cases further with
    | name named' => exact .name (named.trans named')
    | word noName => cases noName

theorem eq_eof_iff (same : first.Same rename second) : second = .eof ↔ first = .eof := by
  cases same with
  | name => exact ⟨nofun, nofun⟩
  | word => exact Iff.rfl

theorem eq_of_noName (same : first.Same rename second) (noName : first.isName = false) :
    second = first := by
  cases same with
  | name => cases noName
  | word => rfl

theorem beq_eq (same : first.Same rename second) {lexeme : Lexeme}
    (noName : lexeme.isName = false) :
    (second == lexeme) = (first == lexeme) := by
  cases same with
  | name => cases lexeme <;> first | rfl | cases noName
  | word => rfl

theorem isSeparator_eq (same : first.Same rename second) :
    second.isSeparator = first.isSeparator := by
  cases same <;> rfl

theorem closesSequence_eq (same : first.Same rename second) :
    second.closesSequence = first.closesSequence := by
  cases same <;> rfl

theorem absorbedBy_eq {first' second' : Lexeme} (same : first.Same rename second)
    (behind : first'.Same rename second') :
    second.absorbedBy second' = first.absorbedBy first' := by
  cases same with
  | name => rfl
  | word =>
    cases behind with
    | word => rfl
    | name =>
      cases first with
      | punctuation mark => cases mark <;> rfl
      | _ => rfl

end Lexeme.Same

/-- The same word, in any spelling. -/
abbrev Lexeme.Like : Lexeme → Lexeme → Prop :=
  Lexeme.Same Symbol.normal

/-! ## Cursors -/

namespace Cursor

/-- A cursor at another place. -/
def moved (shift : Shift) (cursor : Cursor) : Cursor :=
  ⟨cursor.rest, cursor.offset + shift.bytes, cursor.line + shift.lines⟩

/-- A cursor whose text goes on. -/
def followed (tail : List Char) (cursor : Cursor) : Cursor :=
  ⟨cursor.rest ++ tail, cursor.offset, cursor.line⟩

/-- The end of the text. -/
def finish (cursor : Cursor) : Cursor :=
  cursor.skip cursor.rest.length

theorem skip_moved (shift : Shift) (count : Nat) (cursor : Cursor) :
    (cursor.moved shift).skip count = (cursor.skip count).moved shift := by
  induction count generalizing cursor with
  | zero => rfl
  | succ count ih =>
    obtain ⟨rest, offset, line⟩ := cursor
    cases rest with
    | nil => rfl
    | cons c rest =>
      rw [skip_succ_cons, ← ih]
      simp only [moved, skip_succ_cons, after]
      congr 1
      split <;> simp <;> omega

theorem skip_followed (tail : List Char) {count : Nat} {cursor : Cursor}
    (within : count ≤ cursor.rest.length) :
    (cursor.followed tail).skip count = (cursor.skip count).followed tail := by
  induction count generalizing cursor with
  | zero => rfl
  | succ count ih =>
    obtain ⟨rest, offset, line⟩ := cursor
    cases rest with
    | nil => simp at within
    | cons c rest =>
      have shorter : count ≤ ((⟨c :: rest, offset, line⟩ : Cursor).after c rest).rest.length := by
        simpa [after] using within
      exact ih shorter

@[simp]
theorem skip_nil (count offset line : Nat) : skip count ⟨[], offset, line⟩ = ⟨[], offset, line⟩ := by
  cases count <;> rfl

theorem skip_add (first second : Nat) (cursor : Cursor) :
    cursor.skip (first + second) = (cursor.skip first).skip second := by
  induction first generalizing cursor with
  | zero => rw [Nat.zero_add, skip_zero]
  | succ first ih =>
    rw [Nat.add_right_comm]
    obtain ⟨rest, offset, line⟩ := cursor
    cases rest with
    | nil => simp
    | cons c rest => simp [ih]

/-- Reading on leads to the same end. -/
theorem finish_skip {count : Nat} {cursor : Cursor} (within : count ≤ cursor.rest.length) :
    (cursor.skip count).finish = cursor.finish := by
  unfold finish
  rw [rest_skip, List.length_drop, ← skip_add]
  congr 1
  omega

/-- The end of a text lies behind all its bytes and lines. -/
theorem finish_eq (cursor : Cursor) :
    cursor.finish = ⟨[], cursor.offset + String.utf8Len cursor.rest,
      cursor.line + cursor.rest.count '\n'⟩ := by
  obtain ⟨rest, offset, line⟩ := cursor
  induction rest generalizing offset line with
  | nil => rfl
  | cons c rest ih =>
    have step : (⟨c :: rest, offset, line⟩ : Cursor).finish =
        ((⟨c :: rest, offset, line⟩ : Cursor).after c rest).finish := rfl
    rw [step, Cursor.after, ih]
    simp only [String.utf8Len_cons, List.count_cons, Cursor.mk.injEq, true_and]
    constructor
    · omega
    · by_cases newline : c = '\n'
      · simp only [newline, beq_self_eq_true, if_true]
        omega
      · simp [newline]

/-- How a token was read: behind a gap stands the end of the text, or a word. -/
inductive Reads (cursor : Cursor) : Token → Cursor → Prop where
  | ended {gap : Nat} (closed : Gap.ofText cursor.rest = .closed gap)
      (nothing : (cursor.skip gap).rest = []) :
      Reads cursor ⟨.eof, (cursor.skip gap).spanTo (cursor.skip gap)⟩ (cursor.skip gap)
  | word {gap : Nat} {first : Char} {rest : List Char} {lexeme : Lexeme}
      (closed : Gap.ofText cursor.rest = .closed gap)
      (starts : (cursor.skip gap).rest = first :: rest)
      (scanned : (Lexeme.scan first rest).result = .ok lexeme) :
      Reads cursor
        ⟨lexeme, (cursor.skip gap).spanTo ((cursor.skip gap).skip (Lexeme.scan first rest).length)⟩
        ((cursor.skip gap).skip (Lexeme.scan first rest).length)

theorem reads_of_scan {cursor after : Cursor} {token : Token}
    (run : cursor.scan = (.ok token, after)) : cursor.Reads token after := by
  unfold scan at run
  split at run
  · cases run
  · rename_i gap closed
    dsimp only at run
    split at run
    · rename_i nothing
      cases run
      exact .ended closed nothing
    · rename_i first rest starts
      split at run
      · rename_i lexeme scanned
        cases run
        exact .word closed starts scanned
      · cases run

theorem Reads.scan {cursor after : Cursor} {token : Token} (reads : cursor.Reads token after) :
    cursor.scan = (.ok token, after) := by
  unfold Cursor.scan
  cases reads with
  | ended closed nothing =>
    rw [closed]
    dsimp only
    rw [nothing]
  | word closed starts scanned =>
    rw [closed]
    dsimp only
    rw [starts]
    dsimp only
    rw [scanned]

end Cursor

/-- The same reading at another place. -/
def readingMoved (shift : Shift) : Except Failure Token → Except Failure Token
  | .ok token => .ok ⟨token.lexeme, token.span.moved shift⟩
  | .error failure => .error ⟨failure.fault, failure.span.moved shift⟩

namespace Cursor

variable {token : Token} {cursor after : Cursor}

/-- A text is read alike at another place. -/
theorem scan_moved (shift : Shift) (cursor : Cursor) :
    (cursor.moved shift).scan = (readingMoved shift cursor.scan.1, cursor.scan.2.moved shift) := by
  unfold scan
  rw [show (cursor.moved shift).rest = cursor.rest from rfl]
  cases Gap.ofText cursor.rest with
  | unclosed start =>
    dsimp only
    rw [skip_moved, skip_moved]
    rfl
  | closed gap =>
    dsimp only
    rw [skip_moved, show ((cursor.skip gap).moved shift).rest = (cursor.skip gap).rest from rfl]
    cases (cursor.skip gap).rest with
    | nil => rfl
    | cons first rest =>
      dsimp only
      rw [skip_moved]
      cases (Lexeme.scan first rest).result <;> rfl

theorem Reads.moved (reads : cursor.Reads token after) (shift : Shift) :
    (cursor.moved shift).Reads ⟨token.lexeme, token.span.moved shift⟩ (after.moved shift) := by
  have moved := scan_moved shift cursor
  rw [reads.scan] at moved
  exact reads_of_scan moved

theorem gap_le {gap : Nat} (closed : Gap.ofText cursor.rest = .closed gap) :
    gap ≤ cursor.rest.length := by
  have within := Gap.within_ofText cursor.rest
  rwa [closed] at within

/-- A word is read alike when the text goes on with a new line. -/
theorem Reads.beforeNewline (reads : cursor.Reads token after) (word : token.lexeme ≠ .eof)
    (tail : List Char) :
    (cursor.followed ('\n' :: tail)).Reads token (after.followed ('\n' :: tail)) := by
  cases reads with
  | ended => exact absurd rfl word
  | @word gap first rest lexeme closed starts scanned =>
    have within := gap_le closed
    have length := congrArg List.length starts
    rw [rest_skip, List.length_drop, List.length_cons] at length
    have same := Lexeme.scan_append scanned tail
    have shorter := ((Lexeme.isWord_scan first rest).ok _ scanned).2.1
    have closed' : Gap.ofText (cursor.rest ++ '\n' :: tail) = .closed gap :=
      (Gap.scan_append tail closed rfl).trans (if_pos (by omega))
    have starts' : ((cursor.followed ('\n' :: tail)).skip gap).rest =
        first :: (rest ++ '\n' :: tail) := by
      rw [skip_followed _ within]
      exact congrArg (· ++ '\n' :: tail) starts
    have read : (cursor.followed ('\n' :: tail)).Reads _ _ :=
      .word closed' starts' (by rw [same]; exact scanned)
    rw [same, skip_followed _ within, skip_followed] at read
    · exact read
    · rw [starts]
      exact shorter

/-- Behind a part of the gap, the same is read. -/
theorem scan_of_skip {behind : Cursor} {count : Nat} (skipped : cursor.skip count = behind)
    (longer : Gap.ofText cursor.rest = (Gap.ofText behind.rest).add count) :
    cursor.scan = behind.scan := by
  have further : ∀ gap, cursor.skip (gap + count) = behind.skip gap := by
    intro gap
    rw [Nat.add_comm, skip_add, skipped]
  unfold scan
  rw [longer]
  cases Gap.ofText behind.rest with
  | closed gap =>
    dsimp only [Gap.add]
    rw [further]
  | unclosed start =>
    dsimp only [Gap.add]
    rw [further]

/-- A new line in front of a text is part of the gap. -/
theorem scan_newline (text : List Char) (offset line : Nat) :
    (⟨'\n' :: text, offset, line⟩ : Cursor).scan = (⟨text, offset + 1, line + 1⟩ : Cursor).scan :=
  scan_of_skip (show Cursor.skip 1 _ = _ from rfl) (Gap.scan_add 1 .blank 0 text)

theorem Reads.newline {text : List Char} {offset line : Nat}
    (reads : (⟨text, offset + 1, line + 1⟩ : Cursor).Reads token after) :
    (⟨'\n' :: text, offset, line⟩ : Cursor).Reads token after :=
  reads_of_scan (by rw [scan_newline, reads.scan])

/-- Where a text ends, the next line is read. -/
theorem Reads.scan_followed (reads : cursor.Reads token after) (eof : token.lexeme = .eof)
    (tail : List Char) :
    (cursor.followed ('\n' :: tail)).scan =
      (⟨tail, cursor.finish.offset + 1, cursor.finish.line + 1⟩ : Cursor).scan := by
  cases reads with
  | word _ _ scanned =>
    cases eof
    exact absurd scanned (Lexeme.result_scan_ne _ _)
  | @ended gap closed nothing =>
    rw [rest_skip, List.drop_eq_nil_iff] at nothing
    have whole : gap = cursor.rest.length := Nat.le_antisymm (gap_le closed) nothing
    refine @scan_of_skip _ _ (cursor.rest.length + 1) ?_ ?_
    · have empty : cursor.finish.rest = [] := by
        rw [finish, rest_skip, List.drop_length]
      rw [skip_add, skip_followed _ (Nat.le_refl _)]
      change (cursor.finish.followed _).skip 1 = _
      rw [Cursor.followed, empty]
      rfl
    · have longer := (Gap.scan_append tail closed rfl).trans (if_neg (by omega))
      rw [whole, ← Nat.zero_add (cursor.rest.length + 1)] at longer
      exact longer.trans (Gap.scan_add _ .blank 0 tail)

/-- Where a text ends, it goes on with a semicolon on the next line. -/
theorem Reads.joint (reads : cursor.Reads token after) (eof : token.lexeme = .eof)
    (tail : List Char) :
    (cursor.followed ('\n' :: ';' :: tail)).Reads
      ⟨.punctuation .semicolon,
        ⟨cursor.finish.offset + 1, cursor.finish.offset + 2, cursor.finish.line + 1⟩⟩
      ⟨tail, cursor.finish.offset + 2, cursor.finish.line + 1⟩ :=
  reads_of_scan (reads.scan_followed eof (';' :: tail))

theorem Reads.finish (reads : cursor.Reads token after) : after.finish = cursor.finish := by
  cases reads with
  | ended closed => exact finish_skip (gap_le closed)
  | @word gap first rest lexeme closed starts scanned =>
    have shorter := ((Lexeme.isWord_scan first rest).ok _ scanned).2.1
    rw [finish_skip, finish_skip (gap_le closed)]
    rw [starts]
    exact shorter

end Cursor

/-! ## Streams -/

/-- A token whose name, if it is one, was interned. -/
structure Token.Interned (raw token : Token) : Prop where
  lexeme : raw.lexeme.Like token.lexeme
  span : token.span = raw.span

namespace TokenStream

variable {token raw : Token} {cursor : Cursor} {stream : TokenStream}

theorem intern_like (lexeme : Lexeme) (store : Store) : lexeme.Like (lexeme.intern store).1 := by
  cases lexeme with
  | identifier name =>
    have spelled : (Symbol.ofString name.spelling).normal = name.normal :=
      Symbol.normal_eq_iff.mpr name.folded_eq.symm
    exact .name (spelled.symm.trans (store.normal_intern name.spelling).symm)
  | _ => exact .word rfl

theorem scan_eq_ok {after : TokenStream} (run : scan stream = .ok token after) :
    ∃ raw cursor store, stream.cursor.Reads raw cursor ∧ raw.Interned token ∧
      after = ⟨cursor, stream.pending, store⟩ := by
  unfold scan at run
  split at run
  · rename_i raw cursor read
    cases run
    exact ⟨raw, cursor, _, Cursor.reads_of_scan read, ⟨intern_like _ _, rfl⟩, rfl⟩
  · cases run

theorem scan_of_reads (reads : stream.cursor.Reads raw cursor) :
    ∃ token store, raw.Interned token ∧
      scan stream = .ok token ⟨cursor, stream.pending, store⟩ := by
  refine ⟨⟨(raw.lexeme.intern stream.store).1, raw.span⟩, (raw.lexeme.intern stream.store).2,
    ⟨intern_like _ _, rfl⟩, ?_⟩
  unfold scan
  rw [reads.scan]

/-- How the next token of a stream is found. -/
inductive Yields (stream : TokenStream) : Token → TokenStream → Prop where
  | pending {token : Token} (present : stream.pending = some token) :
      Yields stream token { stream with pending := none }
  | word {raw token : Token} {cursor : Cursor} {store : Store} (absent : stream.pending = none)
      (reads : stream.cursor.Reads raw cursor) (interned : raw.Interned token)
      (plain : raw.lexeme.isSeparator = false) : Yields stream token ⟨cursor, none, store⟩
  | separator {raw raw' token following : Token} {cursor cursor' : Cursor} {store : Store}
      (absent : stream.pending = none) (reads : stream.cursor.Reads raw cursor)
      (interned : raw.Interned token) (separates : raw.lexeme.isSeparator = true)
      (reads' : cursor.Reads raw' cursor') (interned' : raw'.Interned following)
      (kept : raw.lexeme.absorbedBy raw'.lexeme = false) :
      Yields stream token ⟨cursor', some following, store⟩
  | absorbed {raw raw' following : Token} {cursor cursor' : Cursor} {store : Store}
      (absent : stream.pending = none) (reads : stream.cursor.Reads raw cursor)
      (separates : raw.lexeme.isSeparator = true)
      (reads' : cursor.Reads raw' cursor') (interned' : raw'.Interned following)
      (dropped : raw.lexeme.absorbedBy raw'.lexeme = true) :
      Yields stream following ⟨cursor', none, store⟩

theorem yields_of_next {after : TokenStream} (run : next stream = .ok token after) :
    stream.Yields token after := by
  obtain ⟨_, _, got, run⟩ := run_bind_eq_ok run
  cases got
  cases found : stream.pending with
  | some ahead =>
    rw [found] at run
    cases run
    exact .pending found
  | none =>
    rw [found] at run
    obtain ⟨first, middle, scanned, run⟩ := run_bind_eq_ok run
    obtain ⟨raw, cursor, store, reads, interned, rfl⟩ := scan_eq_ok scanned
    cases separates : first.lexeme.isSeparator with
    | false =>
      rw [if_neg (by simp [separates])] at run
      cases run
      rw [found]
      exact .word found reads interned (by rw [← interned.lexeme.isSeparator_eq, separates])
    | true =>
      rw [if_pos separates] at run
      obtain ⟨following, last, scanned', run⟩ := run_bind_eq_ok run
      obtain ⟨raw', cursor', store', reads', interned', rfl⟩ := scan_eq_ok scanned'
      have separates' : raw.lexeme.isSeparator = true := by
        rw [← interned.lexeme.isSeparator_eq, separates]
      have same := interned.lexeme.absorbedBy_eq interned'.lexeme
      cases dropped : first.lexeme.absorbedBy following.lexeme with
      | false =>
        rw [if_neg (by simp [dropped])] at run
        cases run
        exact .separator found reads interned separates' reads' interned' (by rw [← same, dropped])
      | true =>
        rw [if_pos dropped] at run
        cases run
        rw [found]
        exact .absorbed found reads separates' reads' interned' (by rw [← same, dropped])

theorem run_get (stream : TokenStream) : (get : ReadM TokenStream) stream = .ok stream stream :=
  rfl

theorem next_of_scan {after : TokenStream} (absent : stream.pending = none) (scanned : scan stream = .ok token after)
    (plain : token.lexeme.isSeparator = false) : next stream = .ok token after := by
  rw [next, run_bind_of_ok (run_get stream), absent]
  dsimp only
  rw [run_bind_of_ok scanned, plain]
  rfl

theorem next_of_scans {after last : TokenStream} {following : Token} (absent : stream.pending = none)
    (scanned : scan stream = .ok token after) (separates : token.lexeme.isSeparator = true)
    (scanned' : scan after = .ok following last) :
    next stream = if token.lexeme.absorbedBy following.lexeme then .ok following last
      else .ok token { last with pending := some following } := by
  rw [next, run_bind_of_ok (run_get stream), absent]
  dsimp only
  rw [run_bind_of_ok scanned, separates, if_pos rfl, run_bind_of_ok scanned']
  cases token.lexeme.absorbedBy following.lexeme <;> rfl

/-- A stream gives a word that is no separator. -/
theorem next_of_word (absent : stream.pending = none) (reads : stream.cursor.Reads raw cursor)
    (plain : raw.lexeme.isSeparator = false) :
    ∃ token store, raw.Interned token ∧ next stream = .ok token ⟨cursor, none, store⟩ := by
  obtain ⟨token, store, interned, scanned⟩ := scan_of_reads reads
  rw [absent] at scanned
  exact ⟨token, store, interned,
    next_of_scan absent scanned (interned.lexeme.isSeparator_eq.trans plain)⟩

/-- Behind a separator a stream reads ahead. -/
theorem next_of_separator {raw' : Token} {cursor' : Cursor} (absent : stream.pending = none)
    (reads : stream.cursor.Reads raw cursor) (separates : raw.lexeme.isSeparator = true)
    (reads' : cursor.Reads raw' cursor') :
    ∃ token following store, raw.Interned token ∧ raw'.Interned following ∧
      next stream = if raw.lexeme.absorbedBy raw'.lexeme then
        .ok following ⟨cursor', none, store⟩ else .ok token ⟨cursor', some following, store⟩ := by
  obtain ⟨token, store, interned, scanned⟩ := scan_of_reads reads
  rw [absent] at scanned
  obtain ⟨following, store', interned', scanned'⟩ :=
    scan_of_reads (show (⟨cursor, none, store⟩ : TokenStream).cursor.Reads raw' cursor' from reads')
  refine ⟨token, following, store', interned, interned', ?_⟩
  rw [← interned.lexeme.absorbedBy_eq interned'.lexeme]
  exact next_of_scans absent scanned (interned.lexeme.isSeparator_eq.trans separates) scanned'

theorem next_of_pending (present : stream.pending = some token) :
    next stream = .ok token { stream with pending := none } := by
  rw [next, run_bind_of_ok (run_get stream), present]
  rfl

end TokenStream

end NewtonScript
