import SmallScheme.Reader.Literal
import SmallScheme.Token.Lexer

/-!
# The reader

The reader turns tokens into values. It walks over the tokens once, keeping the unfinished
quotations and lists around the current place, innermost first; so it ends on every input, however
deeply nested. Elements of a list and expressions of a program must be set apart, and a quotation
mark must stand directly before what it quotes.
-/

namespace SmallScheme

set_option autoImplicit false

/-- A place in a token stream: the token read last, and the tokens ahead. -/
structure Cursor where
  latest : Option Token
  pending : List Token
  repeated : Token
  symbols : Option SymbolTable
  deriving DecidableEq, Repr

namespace Cursor

/-- The cursor before the first token. -/
def ofStream (ts : TokenStream) (symbols : Option SymbolTable) : Cursor :=
  ⟨none, ts.pending, ts.repeated, symbols⟩

/-- The next token. -/
def peek (c : Cursor) : Token := c.pending.headD c.repeated

/-- The cursor behind the next token. -/
def advance (c : Cursor) : Cursor :=
  { c with latest := some c.peek, pending := c.pending.tail }

/-- The cursor behind the comments that stand next. -/
def skipComments (c : Cursor) : Cursor :=
  let comments := c.pending.takeWhile (·.kind = .comment)
  { c with
    latest := comments.getLast?.or c.latest
    pending := c.pending.dropWhile (·.kind = .comment) }

end Cursor

/-- What reading gives: a result or a fault, and the cursor where reading stopped. -/
abbrev Reading (α : Type) := Except Fault α × Cursor

namespace Reader

/-- An unfinished construct around the current place. -/
inductive Context where
  /-- A quotation mark awaits its expression. -/
  | quoted
  /-- An open list with these elements, the latest first, awaits an element. -/
  | element (done : List Value)
  /-- An open list whose dot has been read awaits its tail. -/
  | tail (done : List Value)

/-- What may stand at the current place. -/
inductive Mode where
  /-- An expression. -/
  | expression
  /-- In a list with these elements, the latest first: an element, a dot or the end of the list. -/
  | element (done : List Value)
  /-- The end of this list, whose tail has been read. -/
  | close (list : Value)

/-- Puts a finished value in its context: the value of the outermost construct, or how to go on. -/
def settle : List Context → Value → Value ⊕ (Mode × List Context)
  | [], v => .inl v
  | .quoted :: around, v => settle around v.quoted
  | .element done :: around, v => .inr (.element (v :: done), around)
  | .tail done :: around, v => .inr (.close (.dotted done.reverse v), around)

/-- What the reader does with a token. -/
inductive Action where
  /-- The token is a comment. -/
  | skip
  /-- A value is finished, in these contexts and those around them. -/
  | value (v : Value) (symbols : Option SymbolTable) (within : List Context)
  /-- A quotation mark, in these contexts and those around them. -/
  | quote (within : List Context)
  /-- Reading goes on in this mode, in these contexts and those around them. -/
  | enter (mode : Mode) (within : List Context)
  | refuse (c : Complaint)

/-- A literal token as a finished value. -/
def literal (symbols : Option SymbolTable) (within : List Context) :
    Except Complaint Value → Action
  | .ok v => .value v symbols within
  | .error c => .refuse c

/-- The action on a token with which an expression should begin. -/
def begin (symbols : Option SymbolTable) (within : List Context) (t : Token) : Action :=
  match t.kind with
  | .int => literal symbols within (intValue t.text)
  | .string => .value (.string (unescape (innerText t.text))) symbols within
  | .char => literal symbols within (charValue t.text)
  | .symbol => .value (symbolValue symbols t.text).1 (symbolValue symbols t.text).2 within
  | .quote => .quote within
  | .openParen => .enter (.element []) within
  | .error | .invalid => .refuse (.lexical t.text)
  | .eof => .refuse .unexpectedEnd
  | .dot | .closeParen | .comment => .refuse (.unexpected t.kind)

/-- The action on a token, by what may stand there. -/
def act (symbols : Option SymbolTable) (mode : Mode) (t : Token) : Action :=
  if t.kind = .comment then .skip
  else
    match mode with
    | .expression => begin symbols [] t
    | .element done =>
      if t.kind = .eof then .refuse .unmatched
      else if t.kind = .closeParen then .value (.list done.reverse) symbols []
      else if !done.isEmpty && !t.spaced then .refuse (.missingSpace t.kind)
      else if t.kind = .dot then .enter .expression [.tail done]
      else begin symbols [.element done] t
    | .close list =>
      if t.kind = .closeParen then .value list symbols [] else .refuse .afterTail

/-- Whether a token may stand directly behind a quotation mark. At the end of the input the
expression that follows is missing, which is a fault of its own. -/
def touches (t : Token) : Bool := t.kind = .eof || (!t.spaced && t.kind ≠ .comment)

/-- Reads one expression from a list of tokens that `repeated` follows for ever, given what may
stand first and the contexts around it. -/
def walk (repeated : Token) :
    List Token → Mode → List Context → Option SymbolTable → Reading Value
  | [], mode, _, symbols =>
    let complaint :=
      match act symbols mode repeated with
      | .refuse c => c
      | _ => .unexpected repeated.kind
    (.error (.about repeated complaint), ⟨some repeated, [], repeated, symbols⟩)
  | t :: ts, mode, around, symbols =>
    match act symbols mode t with
    | .skip => walk repeated ts mode around symbols
    | .refuse c => (.error (.about t c), ⟨some t, ts, repeated, symbols⟩)
    | .enter mode within => walk repeated ts mode (within ++ around) symbols
    | .quote within =>
      let follower := ts.headD repeated
      if touches follower then
        walk repeated ts .expression (.quoted :: within ++ around) symbols
      else
        (.error (.about follower .spaceAfterQuote), ⟨some follower, ts.tail, repeated, symbols⟩)
    | .value v symbols within =>
      match settle (within ++ around) v with
      | .inl v => (.ok v, ⟨some t, ts, repeated, symbols⟩)
      | .inr (mode, around) => walk repeated ts mode around symbols

/-- An expression takes at least one token. -/
theorem pending_walk_lt {repeated : Token} {ts : List Token} {mode : Mode} {around : List Context}
    {symbols : Option SymbolTable} {v : Value} {c : Cursor}
    (h : walk repeated ts mode around symbols = (.ok v, c)) : c.pending.length < ts.length := by
  induction ts generalizing mode around symbols with
  | nil => simp [walk] at h
  | cons t ts ih =>
    simp only [walk] at h
    split at h
    · exact Nat.lt_succ_of_lt (ih h)
    · simp at h
    · exact Nat.lt_succ_of_lt (ih h)
    · split at h
      · exact Nat.lt_succ_of_lt (ih h)
      · simp at h
    · split at h
      · simp only [Prod.mk.injEq, Except.ok.injEq] at h
        simp [← h.2]
      · exact Nat.lt_succ_of_lt (ih h)

/-- Reads the next expression, comments before it skipped. -/
def expression (c : Cursor) : Reading Value := walk c.repeated c.pending .expression [] c.symbols

/-- Reads the next expression if it begins with a token of the given kind. -/
def construct (kind : TokenKind) (c : Cursor) : Reading Value :=
  if c.peek.kind = kind then expression c
  else (.error ⟨.wrongStart kind c.peek.kind, c.latest.map Token.source⟩, c)

theorem length_skipComments (c : Cursor) :
    c.skipComments.pending.length ≤ c.pending.length :=
  (List.dropWhile_suffix _).length_le

/-- Reads expressions up to the end of the input, given those already read, the latest first. -/
def programFrom (done : List Value) (c : Cursor) : Reading (List Value) :=
  let here := c.skipComments
  let t := here.peek
  if t.kind = .eof then (.ok done.reverse, here.advance)
  else if !done.isEmpty && !t.spaced then (.error (.about t (.missingSpace t.kind)), here.advance)
  else
    match he : expression here with
    | (.error f, after) => (.error f, after)
    | (.ok v, after) =>
      have : after.pending.length < c.pending.length :=
        Nat.lt_of_lt_of_le (pending_walk_lt he) (length_skipComments c)
      programFrom (v :: done) after
termination_by c.pending.length

/-- Reads expressions up to the end of the input. -/
def program (c : Cursor) : Reading (List Value) := programFrom [] c

/-- All expressions of a source, and the symbol table behind it. No expression is given if any of
them is at fault. -/
def readSource (symbols : Option SymbolTable) (s : Source) :
    Except Error (List Value) × Option SymbolTable :=
  let (result, c) := program (.ofStream s.tokens symbols)
  (result.mapError Fault.toError, c.symbols)

/-- All expressions of a named text. -/
def readNamed (symbols : Option SymbolTable) (name contents : Text) :
    Except Error (List Value) × Option SymbolTable :=
  readSource symbols (.ofText name contents none)

/-- All expressions of a text. -/
def readAll (contents : Text) : Except Error (List Value) :=
  (readNamed (some .empty) [] contents).1

/-- The only expression of a text. -/
def read (contents : Text) : Except Error Value :=
  match readAll contents with
  | .error e => .error e
  | .ok [v] => .ok v
  | .ok vs =>
    .error (.parse [] (.ofString "expected a single expression; found " ++ Decimal.ofNat vs.length))

end Reader

end SmallScheme
