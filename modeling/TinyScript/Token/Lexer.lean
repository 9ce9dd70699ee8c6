/-
  TinyScript.Token.Lexer — cutting a source text into tokens.

  A text is a gap, then lexemes each followed by a gap. A gap is made of blanks, line comments and
  block comments, and a comment may be ended by the end of the text. What a lexeme is follows from
  its first character. Of the operators the longest that fits is taken. Strings may be ended by
  the end of the text.
-/

import TinyScript.Number.Reading
import TinyScript.Token

namespace TinyScript

open TinyScript.Text TinyScript.Number

/-- A character that starts no lexeme. -/
structure LexError where
  character : Char
  pos : Position
  deriving DecidableEq, Repr

namespace Token

def isGapChar (c : Char) : Bool := c = ' ' || c = '\t' || c = '\n' || c = '\r'

def isNameStart (c : Char) : Bool :=
  ('a' ≤ c && c ≤ 'z') || ('A' ≤ c && c ≤ 'Z') || c = '_' || c = '$'

def isNameChar (c : Char) : Bool := isNameStart c || isDigit c

def isQuote (c : Char) : Bool := c = '\'' || c = '"' || c = '\x60'

/-- Where in a gap a character stands. -/
inductive GapPart where
  | blanks | lineComment | blockComment
  deriving DecidableEq, Repr

/-- The gap at the start of a text, and what follows it. -/
def spanGap : GapPart → List Char → List Char × List Char
  | _, [] => ([], [])
  | .blanks, '/' :: '/' :: cs =>
    let (gap, rest) := spanGap .lineComment cs
    ('/' :: '/' :: gap, rest)
  | .blanks, '/' :: '*' :: cs =>
    let (gap, rest) := spanGap .blockComment cs
    ('/' :: '*' :: gap, rest)
  | .blanks, c :: cs =>
    if isGapChar c then
      let (gap, rest) := spanGap .blanks cs
      (c :: gap, rest)
    else ([], c :: cs)
  | .lineComment, c :: cs =>
    let (gap, rest) := spanGap (if c = '\n' then .blanks else .lineComment) cs
    (c :: gap, rest)
  | .blockComment, '*' :: '/' :: cs =>
    let (gap, rest) := spanGap .blanks cs
    ('*' :: '/' :: gap, rest)
  | .blockComment, c :: cs =>
    let (gap, rest) := spanGap .blockComment cs
    (c :: gap, rest)

/-- A lexeme at the start of a text, what it denotes, and what follows it. -/
structure Lexeme where
  kind : Kind
  chars : List Char
  rest : List Char

/-- The characters of a number: digits, underscores, and one point that a digit follows. -/
def spanNumber : (seenPoint : Bool) → List Char → List Char × List Char
  | _, [] => ([], [])
  | seenPoint, c :: cs =>
    if isDigit c || c = '_' then
      let (chars, rest) := spanNumber seenPoint cs
      (c :: chars, rest)
    else if c = '.' && !seenPoint && cs.head?.any isDigit then
      let (chars, rest) := spanNumber true cs
      (c :: chars, rest)
    else ([], c :: cs)

/-- The value of a number's characters: underscores do not count. -/
def numberValue (chars : List Char) : Float :=
  let text := chars.filter (· ≠ '_')
  ofPlaces (text.takeWhile isDigit) ((text.dropWhile isDigit).drop 1) 0

def scanNumber (cs : List Char) : Lexeme :=
  let (chars, rest) := spanNumber false cs
  ⟨.number (numberValue chars), chars, rest⟩

def scanName (cs : List Char) : Lexeme :=
  let chars := cs.takeWhile isNameChar
  let word := String.ofList chars
  let kind := match Keyword.ofText? word with
    | some keyword => .keyword keyword
    | none => .name word
  ⟨kind, chars, cs.dropWhile isNameChar⟩

/-- A backslash and `n` stand for a line feed, a backslash and any other character for that one. -/
def unescape (c : Char) : Char := if c = 'n' then '\n' else c

/-- The text of a string up to its closing `quote`, its characters, and what follows them. -/
def spanString (quote : Char) : List Char → List Char × List Char × List Char
  | [] => ([], [], [])
  | ['\\'] => ([], ['\\'], [])
  | '\\' :: c :: cs =>
    let (text, chars, rest) := spanString quote cs
    (unescape c :: text, '\\' :: c :: chars, rest)
  | c :: cs =>
    if c = quote then ([], [c], cs)
    else
      let (text, chars, rest) := spanString quote cs
      (c :: text, c :: chars, rest)

def scanString (quote : Char) (cs : List Char) : Lexeme :=
  let (text, chars, rest) := spanString quote cs
  ⟨.string (String.ofList text), quote :: chars, rest⟩

/-- The operators, the longer ones first. -/
def operators : List (String × Kind) :=
  [AssignSign.power].map (fun s => (s.text, .assign s)) ++
  [Mark.equalEqual, .bangEqual, .lessEqual, .greaterEqual, .andAnd, .orOr, .questionQuestion,
    .starStar].map (fun m => (m.text, .mark m)) ++
  [AssignSign.add, .subtract, .multiply, .divide, .modulo].map (fun s => (s.text, .assign s)) ++
  [Mark.leftParen, .rightParen, .leftBrace, .rightBrace, .leftBracket, .rightBracket, .comma, .dot,
    .colon, .semicolon, .plus, .minus, .star, .slash, .percent, .less, .greater, .bang,
    .pipe].map (fun m => (m.text, .mark m)) ++
  [AssignSign.set].map (fun s => (s.text, .assign s))

def scanOperator? (cs : List Char) : Option Lexeme :=
  operators.findSome? fun (text, kind) =>
    (text.toList.isPrefixOf? cs).map fun rest => ⟨kind, text.toList, rest⟩

/-- The lexeme that the text starts with. -/
def scan? : List Char → Option Lexeme
  | [] => none
  | c :: cs =>
    if isDigit c then some (scanNumber (c :: cs))
    else if isNameStart c then some (scanName (c :: cs))
    else if isQuote c then some (scanString c cs)
    else scanOperator? (c :: cs)

/-- The tokens of `cs`, which starts at `pos`, over at most `n` lexemes. -/
def tokensFrom : Nat → Position → List Char → Except LexError (List Token)
  | n, pos, cs =>
    let (gap, cs) := spanGap .blanks cs
    let pos := pos.walk gap
    match n, cs with
    | _, [] => .ok [⟨.eof, pos⟩]
    | 0, _ :: _ => .ok [⟨.eof, pos⟩]
    | n + 1, c :: cs =>
      match scan? (c :: cs) with
      | none => .error ⟨c, pos⟩
      | some lexeme => do
        let tokens ← tokensFrom n (pos.walk lexeme.chars) lexeme.rest
        return ⟨lexeme.kind, pos⟩ :: tokens

/-- The tokens of a source text, ended by one end-of-file token. The first character that starts
    no lexeme is an error. No text has more lexemes than characters. -/
def tokenize (source file : String) : Except LexError (List Token) :=
  tokensFrom source.toList.length (Position.start file) source.toList

end Token

end TinyScript
