import NewtonScript.Store
import NewtonScript.Token.Scan

/-!
# Streams of tokens

Tokens are read on demand.  Their names are interned as they are read, and a
separator is dropped when the word behind it closes what the separator
separates; to find that out the next word is read ahead and kept.
-/

namespace NewtonScript

/-- Replace the name of an identifier by the interned one. -/
def Lexeme.intern (lexeme : Lexeme) (store : Store) : Lexeme × Store :=
  match lexeme with
  | .identifier name =>
      let (name, store) := store.intern name.spelling
      (.identifier name, store)
  | other => (other, store)

/-- What is left of a text, the token read ahead, and the store that interns
names. -/
structure TokenStream where
  cursor : Cursor
  pending : Option Token := none
  store : Store

namespace TokenStream

/-- The stream of a whole text. -/
def ofString (text : String) (store : Store) : TokenStream :=
  { cursor := .ofString text, store }

/-- Reading from a stream.  A failure keeps what was read. -/
abbrev ReadM := EStateM Failure TokenStream

/-- Scan a token and intern its name. -/
def scan : ReadM Token := fun stream =>
  match stream.cursor.scan with
  | (.ok token, cursor) =>
      let (lexeme, store) := token.lexeme.intern stream.store
      .ok { token with lexeme } { stream with cursor, store }
  | (.error failure, cursor) => .error failure { stream with cursor }

/-- The next token: the one read ahead, or else the next one of the text that
is not an absorbed separator. -/
def next : ReadM Token := do
  match (← get).pending with
  | some token =>
      modify fun stream => { stream with pending := none }
      return token
  | none =>
      let token ← scan
      if token.lexeme.isSeparator then
        let following ← scan
        if token.lexeme.absorbedBy following.lexeme then
          return following
        else
          modify fun stream => { stream with pending := some following }
          return token
      else
        return token

def isEnd (token : Token) : Bool :=
  match token.lexeme with
  | .eof => true
  | _ => false

/-- Read up to `limit` tokens, stopping behind the end of the text and going
on behind failures.  The results come in order. -/
def steps : Nat → TokenStream → List (Except Failure Token) → List (Except Failure Token) × TokenStream
  | 0, stream, found => (found.reverse, stream)
  | limit + 1, stream, found =>
      match next stream with
      | .ok token stream =>
          if isEnd token then
            ((.ok token :: found).reverse, stream)
          else
            steps limit stream (.ok token :: found)
      | .error failure stream => steps limit stream (.error failure :: found)

/-- Every reading of a token, up to and including the end.  A text of `n`
characters has at most `n` other tokens and failures. -/
def readings (stream : TokenStream) : List (Except Failure Token) × TokenStream :=
  steps (stream.cursor.rest.length + 2) stream []

/-- Read up to `limit` tokens, stopping behind the end of the text or at the
first failure. -/
def collect : Nat → List Token → ReadM (List Token)
  | 0, found => return found.reverse
  | limit + 1, found => do
      let token ← next
      if isEnd token then
        return (token :: found).reverse
      else
        collect limit (token :: found)

/-- All tokens of the stream, the end included. -/
def tokens : ReadM (List Token) := do
  collect ((← get).cursor.rest.length + 2) []

end TokenStream

end NewtonScript
