import SmallScheme.Proofs.Reader.Descent
import SmallScheme.Proofs.Reader.Program

/-!
# What a recursive descent reads

A descent on its way, with a cursor at the same place of the token stream, stands for a reading:
what `Reader.walk` makes of the tokens ahead in the contexts that are open. Each step keeps that
reading (`Descent.Reads.step`), so where the descent ends it has read what the reader reads. With
the bounds on its steps this makes every method of the parser total, after whatever calls before it
(`Reader.descent_ends`).
-/

namespace SmallScheme

open Reader (Context Mode Action act perform settle touches walk walk_cons)

set_option autoImplicit false

/-- The token with a given number from a cursor on. -/
def Cursor.token (c : Cursor) (n : Nat) : Token := (c.pending[n]?).getD c.repeated

namespace Parser

/-- The token with a given number from a parser on. -/
def token (p : Parser) : Nat → Token
  | 0 => p.ahead
  | n + 1 => p.lexer.request n

/-- A parser at the place of a cursor. -/
structure Agrees (p : Parser) (c : Cursor) : Prop where
  latest_eq : p.latest = c.latest
  symbols_eq : p.symbols = c.symbols
  token_eq : ∀ n, p.token n = c.token n
  final : c.repeated.kind.isFinal = true

variable {p : Parser} {c : Cursor}

theorem Agrees.ahead_eq (h : p.Agrees c) : p.ahead = c.peek := by
  have hz := h.token_eq 0
  rw [Cursor.token, ← List.head?_eq_getElem?, ← List.headD_eq_head?_getD] at hz
  exact hz

theorem Agrees.read (h : p.Agrees c) : p.read.Agrees c.advance := by
  refine ⟨congrArg some h.ahead_eq, h.symbols_eq, fun n => ?_, h.final⟩
  have ht : c.advance.token n = c.token (n + 1) := by
    rw [Cursor.token, Cursor.token, Cursor.advance, List.getElem?_tail]
  rw [ht, ← h.token_eq (n + 1)]
  cases n <;> rfl

theorem Agrees.intern (h : p.Agrees c) (symbols : Option SymbolTable) :
    { p with symbols := symbols }.Agrees { c with symbols := symbols } :=
  ⟨h.latest_eq, rfl, h.token_eq, h.final⟩

theorem agrees_ofSource (s : Source) (symbols : Option SymbolTable) :
    (ofSource s symbols).Agrees (.ofStream s.tokens symbols) := by
  refine ⟨rfl, rfl, fun n => ?_, Lexer.isFinal_repeated _⟩
  have ht := (Lexer.ofSource s).request_eq_tokens n
  rw [Cursor.token]
  refine Eq.trans ?_ ht
  cases n <;> rfl

theorem Agrees.fault_eq (h : p.Agrees c) (k : Complaint) : p.read.fault k = .about c.peek k := by
  rw [← h.ahead_eq]
  rfl

end Parser

/-- The methods of a parser. -/
inductive Method where
  | program | expression | construct (x : Construct)

/-- What a method reads: an expression, or the expressions of a program. -/
abbrev Method.Result := Reading Value ⊕ Reading (List Value)

/-- The cursor behind what is read. -/
def Method.Result.behind : Method.Result → Cursor
  | .inl r => r.2
  | .inr r => r.2

/-- What the reader gives in place of a method. -/
def Method.reading (c : Cursor) : Method → Method.Result
  | .program => .inr (Reader.program c)
  | .expression => .inl (Reader.expression c)
  | .construct x => .inl (Reader.construct x.kind c)

namespace Reader

/-- What the reader makes of the tokens from a cursor on. -/
def walkFrom (c : Cursor) (mode : Mode) (around : List Context) : Reading Value :=
  walk c.repeated c.pending mode around c.symbols

/-- What the reader makes of a value and of the tokens behind it. -/
def settled (c : Cursor) (around : List Context) (v : Value) : Reading Value :=
  match settle around v with
  | .inl v => (.ok v, c)
  | .inr (mode, around) => walkFrom c mode around

/-- What the reader makes of a program, from an expression of it and the cursor behind that. -/
def concluded : Option (List Value) → Reading Value → Method.Result
  | none, r => .inl r
  | some _, (.error f, c) => .inr (.error f, c)
  | some done, (.ok v, c) => .inr (programFrom (v :: done) c)

variable {c : Cursor}

theorem walkFrom_eq (h : c.repeated.kind.isFinal = true) (mode : Mode) (around : List Context) :
    walkFrom c mode around = perform c.repeated c.peek c.pending.tail mode around c.symbols
      (act c.symbols mode c.peek) := by
  obtain ⟨latest, pending, repeated, symbols⟩ := c
  cases pending with
  | cons t ts => exact walk_cons t ts mode around symbols
  | nil =>
    -- nothing goes on behind the end of the stream
    obtain ⟨k, hk⟩ := act_final h symbols mode
    change walk repeated [] mode around symbols =
      perform repeated repeated [] mode around symbols (act symbols mode repeated)
    rw [hk, walk, hk]
    rfl

end Reader

namespace Descent

open Reader (walkFrom settled concluded)

/-- What is being read at a place. -/
def Place.reading (around : List Context) (c : Cursor) : Place → Reading Value
  | .before mode => walkFrom c mode around
  | .construct x =>
    if c.peek.kind = x.kind then walkFrom c .expression around
    else (.error ⟨.wrongStart x.kind c.peek.kind, c.latest.map Token.source⟩, c)
  | .quotation =>
    if touches c.peek then walkFrom c .expression (.quoted :: around)
    else (.error (.about c.peek .spaceAfterQuote), c.advance)
  | .returned (.ok v) => settled c around v
  | .returned (.error f) => (.error f, c)

def reading (c : Cursor) : Descent → Method.Result
  | .program done _ => .inr (Reader.programFrom done c)
  | .inside place around outer _ => concluded outer (Place.reading around c place)
  | .value r _ => .inl (r, c)
  | .values r _ => .inr (r, c)

/-- A descent stands for a reading, at the place of some cursor. -/
def Reads (d : Descent) (r : Method.Result) : Prop := ∃ c, d.parser.Agrees c ∧ d.reading c = r

section Steps

variable {around : List Context} {outer : Option (List Value)} {p : Parser} {c : Cursor}

theorem reads_inside {place : Place} {r : Reading Value} (h : p.Agrees c)
    (hr : Place.reading around c place = r) :
    (Descent.inside place around outer p).Reads (concluded outer r) :=
  ⟨c, h, congrArg (concluded outer) hr⟩

theorem reads_refuse (h : p.Agrees c) (k : Complaint) :
    (refuse around outer p k).Reads (concluded outer (.error (.about c.peek k), c.advance)) := by
  apply reads_inside h.read
  rw [h.fault_eq]
  rfl

theorem reads_expression (h : p.Agrees c) :
    (expression around outer p).Reads (concluded outer (walkFrom c .expression around)) := by
  rw [expression, h.ahead_eq]
  by_cases hc : c.peek.kind = .comment
  · rw [if_pos hc, Reader.walkFrom_eq h.final, act, if_pos hc]
    exact reads_inside h.read rfl
  rw [if_neg hc]
  cases hx : Construct.ofKind? c.peek.kind with
  | some x => exact reads_inside h (if_pos (Construct.kind_of_ofKind? hx))
  | none =>
    rw [Reader.walkFrom_eq h.final, act, if_neg hc]
    cases hk : c.peek.kind with
    | comment => exact absurd hk hc
    | error | invalid | eof | dot | closeParen =>
      simp only [Reader.begin, hk]
      exact reads_refuse h _
    | int | string | char | symbol | quote | openParen =>
      rw [hk] at hx
      cases hx

theorem reads_value (h : p.Agrees c) (v : Value) (symbols : Option SymbolTable) :
    (literal around outer p (.ok v) symbols).Reads
      (concluded outer (settled { c.advance with symbols := symbols } around v)) :=
  reads_inside (h.read.intern symbols) rfl

theorem reads_literal (h : p.Agrees c) (r : Except Complaint Value) :
    (literal around outer p r p.symbols).Reads
      (concluded outer (perform c.repeated c.peek c.pending.tail .expression around c.symbols
        (Reader.literal c.symbols [] r))) := by
  cases r with
  | ok v =>
    rw [h.symbols_eq]
    exact reads_value h v c.symbols
  | error k => exact reads_refuse h k

theorem reads_construct (h : p.Agrees c) (x : Construct) :
    (construct around outer p x).Reads
      (concluded outer (Place.reading around c (.construct x))) := by
  unfold construct
  rw [Place.reading, h.ahead_eq]
  by_cases hx : c.peek.kind = x.kind
  · rw [if_pos hx, if_pos hx, Reader.walkFrom_eq h.final, act,
      if_neg (by rw [hx]; cases x <;> decide)]
    cases x <;> simp only [Reader.begin, hx, Construct.kind]
    case int | char => exact reads_literal h _
    case string =>
      rw [h.symbols_eq]
      exact reads_value h _ _
    case symbol =>
      rw [h.symbols_eq]
      exact reads_value h _ _
    case quote => exact reads_inside h.read rfl
    case list => exact reads_inside h.read rfl
  · rw [if_neg hx, if_neg hx]
    apply reads_inside h
    rw [Parser.fault, h.latest_eq]
    rfl

theorem reads_quotation (h : p.Agrees c) :
    (quotation around outer p).Reads
      (concluded outer (Place.reading around c .quotation)) := by
  rw [quotation, Place.reading, h.ahead_eq]
  split
  · exact reads_inside h rfl
  · exact reads_refuse h _

theorem reads_element (h : p.Agrees c) (done : List Value) :
    (element around outer p done).Reads
      (concluded outer (walkFrom c (.element done) around)) := by
  rw [element, h.ahead_eq, Reader.walkFrom_eq h.final, act]
  by_cases hc : c.peek.kind = .comment
  · rw [if_pos hc, if_pos hc]
    exact reads_inside h.read rfl
  rw [if_neg hc, if_neg hc]
  split
  · exact reads_refuse h _
  split
  · exact reads_inside h.read rfl
  split
  · exact reads_refuse h _
  split
  · exact reads_inside h.read rfl
  · -- an element is an expression within the list
    apply reads_inside h
    rw [Place.reading, Reader.walkFrom_eq h.final, act, if_neg hc]
    exact (@Reader.perform_begin c.repeated c.peek c.pending.tail (.element done) around
      [.element done] c.symbols).symm

theorem reads_close (h : p.Agrees c) (list : Value) :
    (close around outer p list).Reads (concluded outer (walkFrom c (.close list) around)) := by
  rw [close, h.ahead_eq, Reader.walkFrom_eq h.final, act]
  by_cases hc : c.peek.kind = .comment
  · rw [if_pos hc, if_pos hc]
    exact reads_inside h.read rfl
  rw [if_neg hc, if_neg hc]
  split
  · exact reads_inside h.read rfl
  · exact reads_refuse h _

theorem reads_leave (h : p.Agrees c) (r : Except Fault Value) :
    (leave p around outer r).Reads
      (concluded outer (Place.reading around c (.returned r))) := by
  cases around with
  | nil =>
    refine ⟨c, ?_, ?_⟩
    · cases outer <;> cases r <;> exact h
    · cases outer <;> cases r <;> rfl
  | cons context around =>
    cases r with
    | error f => cases context <;> exact reads_inside h rfl
    | ok v => cases context <;> exact reads_inside h rfl

theorem reads_loop (h : p.Agrees c) (done : List Value) :
    (loop p done).Reads (.inr (Reader.programFrom done c)) := by
  rw [loop, h.ahead_eq, Reader.programFrom_eq]
  by_cases hc : c.peek.kind = .comment
  · rw [if_pos hc, Reader.skipComments_comment h.final hc, ← Reader.programFrom_eq]
    exact ⟨c.advance, h.read, rfl⟩
  rw [if_neg hc, Reader.skipComments_other hc]
  split
  · exact ⟨c.advance, h.read, rfl⟩
  split
  · rw [h.fault_eq]
    exact ⟨c.advance, h.read, rfl⟩
  · refine ⟨c, h, ?_⟩
    change concluded (some done) (Reader.expression c) = _
    cases Reader.expression c with
    | mk r after => cases r <;> rfl

/-- A step keeps the reading. -/
theorem Reads.step {d : Descent} {r : Method.Result} (h : d.Reads r) : d.step.Reads r := by
  obtain ⟨c, hc, rfl⟩ := h
  cases d with
  | program done p => exact reads_loop hc done
  | value | values => exact ⟨c, hc, rfl⟩
  | inside place around outer p =>
    cases place with
    | before mode =>
      cases mode with
      | expression => exact reads_expression hc
      | element done => exact reads_element hc done
      | close list => exact reads_close hc list
    | construct x => exact reads_construct hc x
    | quotation => exact reads_quotation hc
    | returned r => exact reads_leave hc r

theorem Reads.run {d : Descent} {r : Method.Result} (h : d.Reads r) (n : Nat) :
    (d.run n).Reads r := by
  induction n generalizing d with
  | zero => exact h
  | succ n ih => exact ih h.step

end Steps

/-- A method that has returned what is to be read, and the parser behind it. -/
inductive Finishes : Descent → Method.Result → Prop where
  | value {r : Except Fault Value} {p : Parser} {c : Cursor} :
      p.Agrees c → Finishes (.value r p) (.inl (r, c))
  | values {r : Except Fault (List Value)} {p : Parser} {c : Cursor} :
      p.Agrees c → Finishes (.values r p) (.inr (r, c))

theorem Finishes.ended {d : Descent} {r : Method.Result} (h : d.Finishes r) :
    d.ended = true := by
  cases h <;> rfl

theorem Finishes.agrees {d : Descent} {r : Method.Result} (h : d.Finishes r) :
    d.parser.Agrees r.behind := by
  cases h with
  | value hc => exact hc
  | values hc => exact hc

theorem Reads.finishes {d : Descent} {r : Method.Result} (h : d.Reads r) (he : d.ended = true) :
    d.Finishes r := by
  obtain ⟨c, hc, rfl⟩ := h
  cases d with
  | program | inside => cases he
  | value r p => exact .value hc
  | values r p => exact .values hc

/-- The call of a method. -/
def start (p : Parser) : Method → Descent
  | .program => .program [] p
  | .expression => .inside (.before .expression) [] none p
  | .construct x => .inside (.construct x) [] none p

variable {p : Parser} {c : Cursor}

theorem reads_start (h : p.Agrees c) (m : Method) : (start p m).Reads (m.reading c) := by
  refine ⟨c, ?_, ?_⟩
  · cases m <;> exact h
  · cases m <;> rfl

theorem parser_start (p : Parser) (m : Method) : (start p m).parser = p := by cases m <;> rfl

theorem bound_start_le (p : Parser) (m : Method) : (start p m).bound ≤ 4 * (p.left + 1) := by
  rw [bound, parser_start]
  cases m <;> simp [start] <;> omega

/-- Every method comes to its end, with what is to be read. -/
theorem exists_finishes (h : p.Agrees c) (m : Method) :
    ∃ n ≤ 4 * (p.left + 1), ((start p m).run n).Finishes (m.reading c) := by
  obtain ⟨n, hn, he⟩ := exists_ended (start p m)
  exact ⟨n, Nat.le_trans hn (bound_start_le p m), ((reads_start h m).run n).finishes he⟩

end Descent

/-- The cursor behind calls of methods, one after another. -/
def Cursor.afterAll (c : Cursor) (ms : List Method) : Cursor :=
  ms.foldl (fun c m => (m.reading c).behind) c

namespace Parser

/-- The parser behind the call of a method. -/
def after (p : Parser) (m : Method) : Parser :=
  ((Descent.start p m).run (4 * (p.left + 1))).parser

/-- The parser behind calls of methods, one after another. -/
def afterAll (p : Parser) (ms : List Method) : Parser := ms.foldl after p

variable {p : Parser} {c : Cursor}

theorem agrees_after (h : p.Agrees c) (m : Method) : (p.after m).Agrees (m.reading c).behind := by
  obtain ⟨n, hn, hf⟩ := Descent.exists_finishes h m
  obtain ⟨k, hk⟩ := Nat.exists_eq_add_of_le hn
  rw [after, hk, Descent.run_add, Descent.run_of_ended hf.ended]
  exact hf.agrees

theorem agrees_afterAll (h : p.Agrees c) (ms : List Method) :
    (p.afterAll ms).Agrees (c.afterAll ms) := by
  induction ms generalizing p c with
  | nil => exact h
  | cons m ms ih => exact ih (agrees_after h m)

theorem left_afterAll_le (p : Parser) (ms : List Method) : (p.afterAll ms).left ≤ p.left := by
  induction ms generalizing p with
  | nil => exact Nat.le_refl _
  | cons m ms ih =>
    apply Nat.le_trans (ih (p.after m))
    have hl := Descent.left_run_le (4 * (p.left + 1)) (Descent.start p m)
    rwa [Descent.parser_start] at hl

end Parser

/-- Reading comes to an end. Each request to a lexer scans a byte at least or gives a final token.
Whatever methods of a parser have been called before, the next one ends after a number of steps that
the length of the text bounds, and has read what the reader reads there. On the way, each loop that
comes round and each method that is called takes a token of the text soon, or only returns follow;
and between two arrivals at the same loop or the same method a token is taken. -/
theorem Reader.descent_ends (file contents : Text) (readError : Option Text)
    (symbols : Option SymbolTable) :
    let src := Source.ofText file contents readError
    (∀ n, let lx := (Lexer.ofSource src).later n
      (lx.next.1.kind.isFinal = true ∨
        lx.scanner.position.offset < lx.next.2.scanner.position.offset) ∧
      lx.next.2.scanner.position.offset ≤ contents.length) ∧
    ∀ (ms : List Method) (m : Method),
      let d := Descent.start ((Parser.ofSource src symbols).afterAll ms) m
      (∃ n ≤ 4 * (contents.length + 1), (d.run n).Finishes
        (m.reading ((Cursor.ofStream src.tokens symbols).afterAll ms))) ∧
      (∀ i x, (d.run i).site = some x → ∃ n ≤ 4,
        (∃ j < n, (d.run (i + j)).parser.Takes (d.run (i + j + 1)).parser) ∨
          ∀ k, (d.run (i + n + k)).returning = true) ∧
      (∀ i n x, (d.run i).site = some x → (d.run (i + n + 1)).site = some x →
        ∃ j ≤ n, (d.run (i + j)).parser.Takes (d.run (i + j + 1)).parser) := by
  intro src
  refine ⟨fun n => ?_, fun ms m => ?_⟩
  · intro lx
    have hs := Lexer.offset_later_le file contents readError (n + 1)
    rw [Lexer.later_add] at hs
    refine ⟨?_, hs⟩
    cases hf : lx.next.1.kind.isFinal with
    | true => exact .inl rfl
    | false =>
      have hu := Lexer.unread_next_lt hf
      have ho := lx.offset_next
      exact .inr (by omega)
  · intro d
    have hp := Parser.agrees_afterAll (Parser.agrees_ofSource src symbols) ms
    have hl : ((Parser.ofSource src symbols).afterAll ms).left ≤ contents.length :=
      Nat.le_trans (Parser.left_afterAll_le _ ms)
        (Parser.left_ofSource_le file contents readError symbols)
    have run_add (i j : Nat) : d.run (i + j + 1) = (d.run i).run (j + 1) := d.run_add i (j + 1)
    refine ⟨?_, fun i x hx => ?_, fun i n x hx hy => ?_⟩
    · obtain ⟨n, hn, hf⟩ := Descent.exists_finishes hp m
      exact ⟨n, by omega, hf⟩
    · obtain ⟨n, hn, hr⟩ := Descent.takes_or_returning hx
      refine ⟨n, Nat.le_trans hn (Descent.level_of_site hx ▸ x.level_le), ?_⟩
      rcases hr with ⟨j, hj, ht⟩ | ho
      · refine .inl ⟨j, hj, ?_⟩
        rw [run_add, Descent.run_add]
        exact ht
      · refine .inr fun k => ?_
        rw [Descent.run_add, Descent.run_add]
        exact Descent.returning_run ho k
    · rw [run_add] at hy
      obtain ⟨j, hj, ht⟩ := Descent.takes_of_site (Nat.succ_pos n) hx hy
      refine ⟨j, Nat.le_of_lt_succ hj, ?_⟩
      rw [run_add, Descent.run_add]
      exact ht

/-- The loop over the elements of `(a 'b)` comes round behind `a`. -/
theorem Reader.descent_ends_elements :
    let src := Source.ofText [] (.ofString "(a 'b)") none
    let d := Descent.start (Parser.ofSource src none) .program
    (d.run 3).site = some .element ∧ (d.run 7).site = some .element ∧
      (∃ j ≤ 3, (d.run (3 + j)).parser.Takes (d.run (3 + j + 1)).parser) ∧
      (∃ n ≤ 28, (d.run n).Finishes (.inr (program (.ofStream src.tokens none)))) := by
  intro src d
  obtain ⟨hf, -, ht⟩ := (descent_ends [] (.ofString "(a 'b)") none none).2 [] .program
  have h₃ : (d.run 3).site = some .element := by decide +kernel
  have h₇ : (d.run 7).site = some .element := by decide +kernel
  exact ⟨h₃, h₇, ht 3 3 .element h₃ h₇, hf⟩

end SmallScheme
