import Mathlib.Data.List.Chain
import NewtonScript.Proofs.Token.Lines

/-!
# Where tokens stand

A stream takes its text apart: from the end of what was read last to the start
of the next token stand blanks, comments and at most one separator, which the
token absorbs.  The positions of tokens and failures are therefore exact.
-/

namespace NewtonScript

/-! ## Gaps -/

/-- Blanks and comments.  A line comment takes its line break with it, unless
the text ends before; a block comment ends at the first star and slash. -/
inductive IsGap : List Char → Prop where
  | nothing : IsGap []
  | blank {c : Char} {rest : List Char} (isBlank : Text.isBlank c = true) (gap : IsGap rest) :
      IsGap (c :: rest)
  | line {body rest : List Char} (oneLine : '\n' ∉ body) (gap : IsGap rest) :
      IsGap ('/' :: '/' :: (body ++ '\n' :: rest))
  | lastLine {body : List Char} (oneLine : '\n' ∉ body) : IsGap ('/' :: '/' :: body)
  | block {body rest : List Char} (noEnd : ¬ ['*', '/'] <:+: body ++ ['*']) (gap : IsGap rest) :
      IsGap ('/' :: '*' :: (body ++ '*' :: '/' :: rest))

/-- What stands in front of a token: a gap, with one separator in it if the
token absorbs it. -/
inductive IsFiller (lexeme : Lexeme) : List Char → Prop where
  | gap {chars : List Char} (gap : IsGap chars) : IsFiller lexeme chars
  | absorbed {before behind : List Char} {c : Char} {mark : Punctuation} (gap : IsGap before)
      (gap' : IsGap behind) (isMark : Lexeme.punctuation? c = some mark)
      (absorbs : (Lexeme.punctuation mark).absorbedBy lexeme = true) :
      IsFiller lexeme (before ++ c :: behind)

namespace Gap

/-- What is left of a gap makes a gap of what was read of it. -/
def Completes : GapState → List Char → Prop
  | .blank, taken => IsGap taken
  | .line, taken => ∀ body, '\n' ∉ body → IsGap ('/' :: '/' :: (body ++ taken))
  | .block _ star, taken => ∀ body, ¬ ['*', '/'] <:+: body →
      (star = true ↔ ∃ front, body = front ++ ['*']) → IsGap ('/' :: '*' :: (body ++ taken))

/-- A gap of which so much was read takes a part of a text, up to a place. -/
def Takes (state : GapState) (length stop : Nat) (text : List Char) : Prop :=
  ∃ taken behind, text = taken ++ behind ∧ stop = length + taken.length ∧ Completes state taken

theorem Takes.extend {state state' : GapState} {length stop : Nat} {rest : List Char}
    (front : List Char) (takes : Takes state' (length + front.length) stop rest)
    (completes : ∀ taken, Completes state' taken → Completes state (front ++ taken)) :
    Takes state length stop (front ++ rest) := by
  obtain ⟨taken, behind, rfl, rfl, complete⟩ := takes
  exact ⟨front ++ taken, behind, by simp, by simp [Nat.add_assoc], completes taken complete⟩

theorem takes_of_scan {state : GapState} {length stop : Nat} {text : List Char}
    (closed : scan state length text = .closed stop) : Takes state length stop text := by
  fun_induction scan state length text with
  | case4 | case5 =>
    cases closed
    exact ⟨[], _, rfl, rfl, .nothing⟩
  | case7 =>
    cases closed
    exact ⟨[], _, rfl, rfl, fun body oneLine => by rw [List.append_nil]; exact .lastLine oneLine⟩
  | case10 => cases closed
  | case1 length rest ih =>
    exact (ih closed).extend ['/', '/'] fun taken completes => completes [] (by simp)
  | case2 length rest ih =>
    exact (ih closed).extend ['/', '*'] fun taken completes => completes [] (by simp) (by simp)
  | case3 length c rest noLine noBlock blank ih =>
    exact (ih closed).extend [c] fun taken => .blank blank
  | case6 length c rest ih =>
    refine (ih closed).extend [c] fun taken completes body oneLine => ?_
    by_cases newline : c = '\n'
    · subst newline
      exact .line oneLine completes
    · rw [if_neg (by simpa using newline)] at completes
      have longer := completes (body ++ [c]) (by simp [oneLine, Ne.symm newline])
      rwa [List.append_assoc] at longer
  | case8 opened star length c rest ends ih =>
    refine (ih closed).extend [c] fun taken completes body noEnd last => ?_
    obtain ⟨isStar, isSlash⟩ := Bool.and_eq_true_iff.mp ends
    obtain ⟨front, rfl⟩ := last.mp isStar
    rw [eq_of_beq isSlash, List.append_assoc]
    exact .block noEnd completes
  | case9 opened star length c rest inner ih =>
    refine (ih closed).extend [c] fun taken completes body noEnd last => ?_
    have noEnd' : ¬ ['*', '/'] <:+: body ++ [c] := by
      rw [List.infix_concat_iff]
      rintro (⟨front, ends⟩ | within)
      · have ends : (front ++ ['*']) ++ ['/'] = body ++ [c] := by simpa using ends
        obtain ⟨same, ⟨⟩⟩ := List.append_inj' ends rfl
        exact inner (by simp [last.mpr ⟨front, same.symm⟩])
      · exact noEnd within
    have longer := completes (body ++ [c]) noEnd' (by simp)
    rwa [List.append_assoc] at longer

theorem isGap_of_closed {text : List Char} {length : Nat} (closed : ofText text = .closed length) :
    IsGap (text.take length) := by
  obtain ⟨taken, behind, rfl, rfl, gap⟩ := takes_of_scan closed
  rw [Nat.zero_add, List.take_left]
  exact gap

end Gap

/-! ## Places in a text -/

open String (utf8Len)

/-- The span over some characters behind a front of a text. -/
def Span.over (front inside : List Char) : Span :=
  ⟨utf8Len front, utf8Len (front ++ inside), front.count '\n' + 1⟩

/-- A span starts and stops between characters of a text, and its line is that
of its start. -/
def Span.Exact (text : String) (span : Span) : Prop :=
  ∃ front inside behind, text.toList = front ++ (inside ++ behind) ∧ span = .over front inside

namespace Cursor

variable {text : String} {front : List Char} {cursor after : Cursor} {token : Token}

/-- A cursor stands in a text behind some characters. -/
structure Behind (text : String) (front : List Char) (cursor : Cursor) : Prop where
  text : text.toList = front ++ cursor.rest
  offset : cursor.offset = utf8Len front
  line : cursor.line = front.count '\n' + 1

theorem behind_ofString (text : String) : (ofString text).Behind text [] := ⟨rfl, rfl, rfl⟩

theorem Behind.skip (behind : cursor.Behind text front) (count : Nat) :
    (cursor.skip count).Behind text (front ++ cursor.rest.take count) := by
  induction count generalizing front cursor with
  | zero => simpa using behind
  | succ count ih =>
    obtain ⟨rest, offset, line⟩ := cursor
    obtain ⟨whole, offset_, line_⟩ := behind
    cases rest with
    | nil => exact ⟨by simpa using whole, by simpa using offset_, by simpa using line_⟩
    | cons c rest =>
      dsimp only at whole offset_ line_
      have next : ((⟨c :: rest, offset, line⟩ : Cursor).after c rest).Behind text (front ++ [c]) := by
        refine ⟨by simpa [after] using whole, by simp [after, offset_], ?_⟩
        by_cases newline : c = '\n'
        · simp [after, newline, line_]
        · simp [after, newline, line_]
      have further := ih next
      rw [List.append_assoc] at further
      exact further

theorem Behind.spanTo (behind : cursor.Behind text front) (count : Nat) :
    cursor.spanTo (cursor.skip count) = .over front (cursor.rest.take count) := by
  rw [Cursor.spanTo, Span.over, behind.offset, behind.line, (behind.skip count).offset]

/-- Where a token stands: behind a front and a gap. -/
structure Lays (text : String) (front : List Char) (token : Token) (after : Cursor)
    (gap inside : List Char) : Prop where
  span : token.span = .over (front ++ gap) inside
  behind : after.Behind text (front ++ gap ++ inside)
  ended : token.lexeme = .eof → inside = [] ∧ after.rest = []
  word : token.lexeme ≠ .eof → inside ≠ []

theorem Behind.reads (behind : cursor.Behind text front) (reads : cursor.Reads token after) :
    ∃ gap inside, IsGap gap ∧ Lays text front token after gap inside ∧
      (token.lexeme.isSeparator = true → ∃ c mark, inside = [c] ∧
        Lexeme.punctuation? c = some mark ∧ token.lexeme = .punctuation mark) := by
  cases reads with
  | @ended gap closed nothing =>
    have start := behind.skip gap
    refine ⟨cursor.rest.take gap, [], Gap.isGap_of_closed closed, ⟨?_, ?_, ?_, ?_⟩, nofun⟩
    · simpa using start.spanTo 0
    · rwa [List.append_nil]
    · exact fun _ => ⟨rfl, nothing⟩
    · exact fun other => absurd rfl other
  | @word gap first rest lexeme closed starts scanned =>
    have start := behind.skip gap
    have word := Lexeme.isWord_scan first rest
    refine ⟨cursor.rest.take gap, _, Gap.isGap_of_closed closed,
      ⟨start.spanTo _, start.skip _, ?_, fun _ => ?_⟩, fun separates => ?_⟩
    · rintro rfl
      exact absurd scanned (Lexeme.result_scan_ne first rest)
    · rw [starts]
      exact fun empty => by simp [Nat.ne_of_gt word.length] at empty
    · obtain ⟨mark, isMark, rfl, one⟩ | ⟨op, rfl⟩ | text := (word.ok _ scanned).2.2
      · exact ⟨first, mark, by rw [starts, one]; rfl, isMark, rfl⟩
      · cases separates
      · cases lexeme with
        | punctuation => cases text
        | _ => cases separates

theorem Behind.fault (behind : cursor.Behind text front) {failure : Failure}
    (run : cursor.scan = (.error failure, after)) :
    ∃ skipped inside, failure.span = .over (front ++ skipped) inside ∧
      after.Behind text (front ++ skipped ++ inside) := by
  obtain ⟨-, gap, count, -, -, rfl, span⟩ := scan_eq_error run
  have started := behind.skip gap
  exact ⟨_, _, span.trans (started.spanTo count), started.skip count⟩

theorem Lays.interned {raw : Token} {gap inside : List Char}
    (lays : Lays text front raw after gap inside) (interned : raw.Interned token) :
    Lays text front token after gap inside where
  span := interned.span.trans lays.span
  behind := lays.behind
  ended eof := lays.ended (interned.lexeme.eq_eof_iff.mp eof)
  word other := lays.word fun eof => other (interned.lexeme.eq_eof_iff.mpr eof)

end Cursor

/-! ## Readings -/

namespace TokenStream

variable {text : String} {front : List Char} {stream after : TokenStream} {token : Token}

/-- A stream goes on behind some characters of a text: there stands its cursor,
or else a gap and the token that was read ahead. -/
def Ready (text : String) (front : List Char) (stream : TokenStream) : Prop :=
  (stream.pending = none ∧ stream.cursor.Behind text front) ∨
    ∃ token gap inside, stream.pending = some token ∧ IsGap gap ∧
      Cursor.Lays text front token stream.cursor gap inside

theorem Ready.behind (ready : Ready text front stream) (absent : stream.pending = none) :
    stream.cursor.Behind text front := by
  obtain ⟨-, behind⟩ | ⟨_, _, _, present, -⟩ := ready
  · exact behind
  · rw [absent] at present
    cases present

/-- The token that a stream gives stands behind what was read and a filler. -/
theorem Ready.next_ok (ready : Ready text front stream) (run : next stream = .ok token after) :
    ∃ filler inside, IsFiller token.lexeme filler ∧ token.span = .over (front ++ filler) inside ∧
      (token.lexeme = .eof → inside = [] ∧ text.toList = front ++ filler) ∧
        (token.lexeme ≠ .eof → inside ≠ []) ∧ Ready text (front ++ filler ++ inside) after := by
  -- The end of a text stands in front of nothing.
  have atEnd : ∀ {cursor : Cursor} {gap inside : List Char},
      Cursor.Lays text front token cursor gap inside → token.lexeme = .eof →
        inside = [] ∧ text.toList = front ++ gap := by
    intro cursor gap inside lays eof
    obtain ⟨rfl, nothing⟩ := lays.ended eof
    simpa [nothing] using lays.behind.text
  cases yields_of_next run with
  | pending present =>
    obtain ⟨absent, -⟩ | ⟨ahead, gap, inside, present', isGap, lays⟩ := ready
    · rw [absent] at present
      cases present
    · cases present.symm.trans present'
      exact ⟨gap, inside, .gap isGap, lays.span, atEnd lays, lays.word, .inl ⟨rfl, lays.behind⟩⟩
  | word absent reads interned plain =>
    obtain ⟨gap, inside, isGap, lays, -⟩ := (ready.behind absent).reads reads
    have lays := lays.interned interned
    exact ⟨gap, inside, .gap isGap, lays.span, atEnd lays, lays.word, .inl ⟨rfl, lays.behind⟩⟩
  | separator absent reads interned separates reads' interned' kept =>
    obtain ⟨gap, inside, isGap, lays, -⟩ := (ready.behind absent).reads reads
    obtain ⟨gap', inside', isGap', lays', -⟩ := lays.behind.reads reads'
    have lays := lays.interned interned
    exact ⟨gap, inside, .gap isGap, lays.span, atEnd lays, lays.word,
      .inr ⟨_, gap', inside', rfl, isGap', lays'.interned interned'⟩⟩
  | @absorbed raw raw' _ _ cursor' _ absent reads separates reads' interned' dropped =>
    obtain ⟨gap, inside, isGap, lays, isMark⟩ := (ready.behind absent).reads reads
    obtain ⟨c, mark, rfl, found, isRaw⟩ := isMark separates
    obtain ⟨gap', inside', isGap', lays', -⟩ := lays.behind.reads reads'
    have lays' := lays'.interned interned'
    have same : raw.lexeme.Like raw.lexeme := by
      rw [isRaw]
      exact .word rfl
    have absorbs : (Lexeme.punctuation mark).absorbedBy token.lexeme = true := by
      rw [← isRaw, same.absorbedBy_eq interned'.lexeme, dropped]
    have joined : front ++ gap ++ [c] ++ gap' = front ++ (gap ++ c :: gap') := by simp
    have lays' : Cursor.Lays text front token cursor' (gap ++ c :: gap') inside' :=
      ⟨joined ▸ lays'.span, joined ▸ lays'.behind, lays'.ended, lays'.word⟩
    exact ⟨_, inside', .absorbed isGap isGap' found absorbs, lays'.span, atEnd lays',
      lays'.word, .inl ⟨rfl, lays'.behind⟩⟩

theorem Ready.next_error {failure : Failure} (ready : Ready text front stream)
    (run : next stream = .error failure after) :
    ∃ skipped inside, failure.span = .over (front ++ skipped) inside ∧
      Ready text (front ++ skipped ++ inside) after := by
  have absent := (next_error_spends run).2
  have failed : ∀ {front : List Char} {stream : TokenStream}, stream.cursor.Behind text front →
      scan stream = .error failure after → ∃ skipped inside,
        failure.span = .over (front ++ skipped) inside ∧
          Ready text (front ++ skipped ++ inside) after := by
    intro front stream behind run
    obtain ⟨_, read, rfl⟩ := scan_eq_error run
    obtain ⟨skipped, inside, span, behind⟩ := behind.fault read
    exact ⟨skipped, inside, span, .inl ⟨absent, behind⟩⟩
  obtain ⟨none_, run | ⟨_, _, scanned, run⟩⟩ := next_eq_error run
  · exact failed (ready.behind none_) run
  · obtain ⟨raw, cursor, store, reads, -, rfl⟩ := scan_eq_ok scanned
    obtain ⟨gap, inside, -, lays, -⟩ := (ready.behind none_).reads reads
    obtain ⟨skipped, inside', span, ready⟩ := failed lays.behind run
    refine ⟨gap ++ inside ++ skipped, inside', ?_, ?_⟩
    · simpa using span
    · simpa using ready

/-- Tokens and failures that stand one behind the other in a text, behind some
characters of it, up to its end. -/
inductive Laid (text : String) : List Char → List (Except Failure Token) → Prop where
  | ended {front filler : List Char} {token : Token} (eof : token.lexeme = .eof)
      (whole : text.toList = front ++ filler) (isFiller : IsFiller token.lexeme filler)
      (span : token.span = .over (front ++ filler) []) : Laid text front [.ok token]
  | word {front filler inside : List Char} {token : Token} {rest : List (Except Failure Token)}
      (word : token.lexeme ≠ .eof) (nonempty : inside ≠ [])
      (isFiller : IsFiller token.lexeme filler) (span : token.span = .over (front ++ filler) inside)
      (behind : Laid text (front ++ filler ++ inside) rest) : Laid text front (.ok token :: rest)
  | fault {front skipped inside : List Char} {failure : Failure}
      {rest : List (Except Failure Token)} (span : failure.span = .over (front ++ skipped) inside)
      (behind : Laid text (front ++ skipped ++ inside) rest) :
      Laid text front (.error failure :: rest)

theorem laid_steps {limit : Nat} (ready : Ready text front stream) (room : stream.weight < limit)
    (found : List (Except Failure Token)) :
    ∃ rest, (steps limit stream found).1 = found.reverse ++ rest ∧ Laid text front rest := by
  induction limit generalizing front stream found with
  | zero => exact absurd room (Nat.not_lt_zero _)
  | succ limit ih =>
    rw [steps]
    cases run : next stream with
    | ok token after =>
      obtain ⟨filler, inside, isFiller, span, ended, word, ready⟩ := ready.next_ok run
      by_cases eof : token.lexeme = .eof
      · obtain ⟨rfl, whole⟩ := ended eof
        refine ⟨[.ok token], ?_, .ended eof whole isFiller span⟩
        simp [isEnd, eof]
      · have going : isEnd token = false := by
          unfold isEnd
          split
          · exact absurd (by assumption) eof
          · rfl
        have spent := next_ok_spends run
        rw [Token.weight_of_ne eof] at spent
        obtain ⟨rest, all, laid⟩ := ih ready (by omega) (.ok token :: found)
        refine ⟨.ok token :: rest, ?_, .word eof (word eof) isFiller span laid⟩
        simp [going, all]
    | error failure after =>
      obtain ⟨skipped, inside, span, ready⟩ := ready.next_error run
      have spent := (next_error_spends run).1
      obtain ⟨rest, all, laid⟩ := ih ready (by omega) (.error failure :: found)
      exact ⟨.error failure :: rest, by simp [all], .fault span laid⟩

/-- What has a property stands between two positions of a text. -/
def Between (text : String) (start stop : Nat) (property : List Char → Prop) : Prop :=
  ∃ front inside behind, text.toList = front ++ (inside ++ behind) ∧ utf8Len front = start ∧
    utf8Len (front ++ inside) = stop ∧ property inside

namespace Laid

variable {readings : List (Except Failure Token)} (laid : Laid text front readings)
include laid

theorem exists_behind :
    ∃ behind, text.toList = front ++ behind := by
  induction laid with
  | ended _ whole => exact ⟨_, whole⟩
  | word _ _ _ _ _ ih | fault _ _ ih =>
    obtain ⟨behind, whole⟩ := ih
    exact ⟨_, by rw [whole, List.append_assoc, List.append_assoc]⟩

theorem exact :
    ∀ reading ∈ readings, (place reading).Exact text := by
  induction laid with
  | ended _ whole _ span =>
    rintro reading (_ | ⟨_, ⟨⟩⟩)
    exact ⟨_, [], [], by simpa using whole, span⟩
  | word _ _ _ span behind ih | fault span behind ih =>
    obtain ⟨rest, whole⟩ := behind.exists_behind
    rintro reading (_ | ⟨_, member⟩)
    · exact ⟨_, _, rest, by simpa using whole, span⟩
    · exact ih reading member

theorem le_start :
    ∀ reading ∈ readings, utf8Len front ≤ (place reading).start := by
  induction laid with
  | ended _ _ _ span =>
    simp [place, span, Span.over]
  | word _ _ _ span _ ih | fault span _ ih =>
    rintro reading (_ | ⟨_, member⟩)
    · simp [place, span, Span.over]
    · have later := ih reading member
      simp only [String.utf8Len_append] at later
      omega

theorem pairwise :
    readings.Pairwise fun first second => (place first).stop ≤ (place second).start := by
  induction laid with
  | ended => exact List.pairwise_singleton _ _
  | word _ _ _ span behind ih | fault span behind ih =>
    refine List.pairwise_cons.mpr ⟨fun reading member => ?_, ih⟩
    have later := behind.le_start reading member
    simpa [place, span, Span.over] using later

theorem ends :
    ∃ before eof, readings = before ++ [.ok eof] ∧ eof.lexeme = .eof ∧
      eof.span.start = utf8Len text.toList ∧ eof.span.stop = utf8Len text.toList ∧
        ∀ token, .ok token ∈ before → token.lexeme ≠ .eof ∧ token.span.start < token.span.stop := by
  induction laid with
  | @ended front filler token eof whole _ span =>
    refine ⟨[], token, rfl, eof, ?_, ?_, nofun⟩
    · rw [span, whole, Span.over]
    · rw [span, whole, Span.over, List.append_nil]
  | @word front filler inside token rest word nonempty _ span _ ih =>
    obtain ⟨before, eof, rfl, last, start, stop, words⟩ := ih
    refine ⟨.ok token :: before, eof, rfl, last, start, stop, fun other member => ?_⟩
    rcases List.mem_cons.mp member with same | member
    · cases same
      have positive : utf8Len inside ≠ 0 := fun none => nonempty (String.utf8Len_eq_zero.mp none)
      refine ⟨word, ?_⟩
      rw [span, Span.over, String.utf8Len_append (front ++ filler)]
      dsimp only
      omega
    · exact words other member
  | @fault front skipped inside failure rest _ _ ih =>
    obtain ⟨before, eof, rfl, last, start, stop, words⟩ := ih
    refine ⟨.error failure :: before, eof, rfl, last, start, stop, fun other member => ?_⟩
    rcases List.mem_cons.mp member with same | member
    · cases same
    · exact words other member

/-- In front of the first token stands a filler. -/
theorem head {token : Token} (first : readings.head? = some (.ok token)) :
    Between text (utf8Len front) token.span.start (IsFiller token.lexeme) := by
  cases laid with
  | @ended front filler token _ whole isFiller span =>
    cases first
    exact ⟨front, filler, [], by simpa using whole, rfl, by rw [span, Span.over], isFiller⟩
  | @word front filler inside token rest _ _ isFiller span behind =>
    cases first
    obtain ⟨rest, whole⟩ := behind.exists_behind
    exact ⟨front, filler, inside ++ rest, by simpa using whole, rfl, by rw [span, Span.over], isFiller⟩
  | fault => cases first

theorem chain :
    readings.IsChain fun first second => ∀ token following, first = .ok token →
      second = .ok following →
        Between text token.span.stop following.span.start (IsFiller following.lexeme) := by
  have related : ∀ {front : List Char} {reading : Except Failure Token}
      {rest : List (Except Failure Token)}, (place reading).stop = utf8Len front →
      Laid text front rest → ∀ second ∈ rest.head?, ∀ token following, reading = .ok token →
        second = .ok following →
          Between text token.span.stop following.span.start (IsFiller following.lexeme) := by
    rintro front _ rest stop laid _ first token following rfl rfl
    have between := laid.head first
    rwa [← stop] at between
  induction laid with
  | ended => exact .singleton _
  | word _ _ _ span behind ih =>
    exact List.isChain_cons.mpr ⟨related (by rw [place, span, Span.over]) behind, ih⟩
  | fault span behind ih =>
    exact List.isChain_cons.mpr ⟨related (by rw [place, span, Span.over]) behind, ih⟩

end Laid

/-- The positions of what a stream gives are exact: the last reading is the end
of the text, at its end, and no other is; every span starts and stops between
characters of the text, on the line of its start; each stops before the next one
starts; and only a filler stands between two tokens. -/
theorem readings_exact (text : String) (store : Store) :
    ∃ (before : List (Except Failure Token)) (eof : Token),
      (readings (ofString text store)).1 = before ++ [.ok eof] ∧ eof.lexeme = .eof ∧
      eof.span.start = text.utf8ByteSize ∧ eof.span.stop = text.utf8ByteSize ∧
      (∀ token, .ok token ∈ before → token.lexeme ≠ .eof ∧ token.span.start < token.span.stop) ∧
      (∀ reading ∈ (readings (ofString text store)).1, (place reading).Exact text) ∧
      ((readings (ofString text store)).1.Pairwise fun first second =>
        (place first).stop ≤ (place second).start) ∧
      (readings (ofString text store)).1.IsChain fun first second =>
        ∀ token following, first = .ok token → second = .ok following →
          Between text token.span.stop following.span.start (IsFiller following.lexeme) := by
  have ready : Ready text [] (ofString text store) := .inl ⟨rfl, Cursor.behind_ofString text⟩
  have room : (ofString text store).weight < (ofString text store).cursor.rest.length + 2 := by
    rw [weight_of_none rfl]
    omega
  obtain ⟨all, given, laid⟩ := laid_steps ready room []
  have size : utf8Len text.toList = text.utf8ByteSize := by
    rw [← String.utf8ByteSize_ofList, String.ofList_toList]
  obtain ⟨before, eof, rfl, last, start, stop, words⟩ := laid.ends
  rw [size] at start stop
  change (readings (ofString text store)).1 = before ++ [.ok eof] at given
  rw [given]
  exact ⟨before, eof, rfl, last, start, stop, words, laid.exact, laid.pairwise, laid.chain⟩

end TokenStream

end NewtonScript
