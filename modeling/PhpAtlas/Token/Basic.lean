import PhpAtlas.Span
import PhpAtlas.Token.Keyword

/-! # Tokens

A token has a kind, its span in bytes, its raw text and a value: a string
without its quotes and escapes, a variable without its dollar, a number
without separators, the spelling of a name or an operator. It also has the
last documentation comment among the trivia before it.
-/

namespace PhpAtlas

inductive TokenKind
  | unknown
  | endOfFile
  | inlineHtml
  | openTag
  | closeTag
  | variable
  | identifier
  | qualifiedName
  | fullyQualifiedName
  | string
  | number
  | openParen
  | closeParen
  | openBrace
  | closeBrace
  | openBracket
  | closeBracket
  | semicolon
  | comma
  | colon
  | doubleColon
  | arrow
  | nullsafeArrow
  | doubleArrow
  | question
  | bar
  | ampersand
  | equals
  | ellipsis
  | dollar
  | operator
  | keyword (k : Keyword)
  deriving DecidableEq, Repr

namespace TokenKind

def keyword? : TokenKind → Option Keyword
  | keyword k => some k
  | _ => none

def isKeyword (kind : TokenKind) : Bool := kind.keyword?.isSome

def isModifier (kind : TokenKind) : Bool := kind.keyword?.any Keyword.isModifier

def isName : TokenKind → Bool
  | identifier | qualifiedName | fullyQualifiedName => true
  | _ => false

/-- Member names may be reserved words. -/
def isMemberName (kind : TokenKind) : Bool := kind == identifier || kind.isKeyword

/-- The tokens that a documentation comment does not reach across. -/
def endsDoc : TokenKind → Bool
  | semicolon | openBrace | closeBrace => true
  | _ => false

end TokenKind

structure Token where
  kind : TokenKind
  start : Nat
  stop : Nat
  text : String
  value : String
  doc : Option String
  deriving DecidableEq, Repr

namespace Token

/-- What stands before the first token. -/
def beforeFirst : Token := ⟨.unknown, 0, 0, "", "", none⟩

def endAt (pos : Nat) : Token := ⟨.endOfFile, pos, pos, "", "", none⟩

def span (t : Token) : Span := ⟨t.start, t.stop⟩

/-- Whether the token is the identifier `word`, ignoring case. -/
def isWord (t : Token) (word : String) : Bool := t.kind == .identifier && sameName t.text word

end Token

end PhpAtlas
