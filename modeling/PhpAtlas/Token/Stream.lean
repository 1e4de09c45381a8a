import PhpAtlas.Token.Scan

/-! # Token streams

A stream stands at one token of a source. It keeps the last documentation
comment that it has passed until the comment is taken, or until a semicolon or
a brace ends its reach. The stream stays at the end of the file.
-/

namespace PhpAtlas

structure TokenStream where
  current : Token
  ahead : List Token
  doc : Option String
  deriving DecidableEq, Repr

namespace TokenStream

/-- The stream that stands before the first of the tokens. -/
def ofTokens (tokens : List Token) : TokenStream := ⟨.beforeFirst, tokens, none⟩

def ofSource (source : List Char) : TokenStream := ofTokens (Token.ofSource source)

def next (s : TokenStream) : TokenStream :=
  match s.ahead with
  | [] => s
  | t :: ts => ⟨t, ts, if t.kind.endsDoc then none else t.doc <|> s.doc⟩

/-- The `n`-th token after the current one. -/
def peek (s : TokenStream) (n : Nat) : Token :=
  match n with
  | 0 => s.current
  | n + 1 => s.next.peek n

def dropDoc (s : TokenStream) : TokenStream := { s with doc := none }

end TokenStream

end PhpAtlas
