import SmallScheme.Proofs.Token.Requests
import SmallScheme.Reader.Basic

/-!
# Recursive descent

`Reader.walk` passes over tokens that are all there from the start. A recursive descent asks a lexer
for one token after another, keeps one of them ahead, and has a method for each construct, which
calls the methods of its parts. `Descent.step` makes one test of such a method with what follows
from it; loops and calls go on for as long as the tokens ask for it, and nothing bounds them.

A step takes a token of the text or leads closer to a return (`Descent.advances_step`). So no loop
comes round and no call recurs without a token taken in between (`Descent.takes_of_site`), and the
bytes that are left bound the number of all steps (`Descent.exists_ended`).
-/

namespace SmallScheme

open Reader (Context Mode touches)

set_option autoImplicit false

/-- A parser: a lexer, the token read last and the token ahead. -/
structure Parser where
  lexer : Lexer
  latest : Option Token
  ahead : Token
  symbols : Option SymbolTable

namespace Parser

/-- The parser at the beginning of a source. -/
def ofSource (s : Source) (symbols : Option SymbolTable) : Parser :=
  ⟨(Lexer.ofSource s).next.2, none, (Lexer.ofSource s).next.1, symbols⟩

/-- The parser behind the token ahead. -/
def read (p : Parser) : Parser :=
  { p with lexer := p.lexer.next.2, latest := some p.ahead, ahead := p.lexer.next.1 }

def fault (p : Parser) (c : Complaint) : Fault := ⟨c, p.latest.map Token.source⟩

/-- A token has been taken from the text. -/
structure Takes (p p' : Parser) : Prop where
  not_final : p.ahead.kind.isFinal = false
  latest_eq : p'.latest = some p.ahead
  ahead_eq : p'.ahead = p.lexer.next.1
  lexer_eq : p'.lexer = p.lexer.next.2

/-- The bytes that are not scanned, and one more for a token ahead that can be taken. -/
def left (p : Parser) : Nat := p.lexer.unread + if p.ahead.kind.isFinal = true then 0 else 1

variable {p p' : Parser}

theorem takes_read (h : p.ahead.kind.isFinal = false) (symbols : Option SymbolTable) :
    p.Takes { p.read with symbols := symbols } := ⟨h, rfl, rfl, rfl⟩

theorem takes_read_of_kind {kind : TokenKind} (h : p.ahead.kind = kind)
    (hk : kind.isFinal = false) : p.Takes p.read :=
  takes_read (h ▸ hk) p.symbols

/-- One byte at least pays for the token that comes next. -/
theorem unread_add_le (lx : Lexer) :
    lx.next.2.unread + (if lx.next.1.kind.isFinal = true then 0 else 1) ≤ lx.unread := by
  cases hf : lx.next.1.kind.isFinal with
  | true => exact lx.unread_next_le
  | false => exact Lexer.unread_next_lt hf

theorem left_read_le (p : Parser) : p.read.left ≤ p.left :=
  Nat.le_add_right_of_le (unread_add_le p.lexer)

theorem Takes.left_lt (h : p.Takes p') : p'.left < p.left := by
  have hu := unread_add_le p.lexer
  have hl : p'.left = p.lexer.next.2.unread +
      if p.lexer.next.1.kind.isFinal = true then 0 else 1 := by
    rw [left, h.lexer_eq, h.ahead_eq]
  have hp : p.left = p.lexer.unread + 1 := by
    rw [left, h.not_final, if_neg Bool.false_ne_true]
  omega

theorem left_ofSource_le (name contents : Text) (readError : Option Text)
    (symbols : Option SymbolTable) :
    (ofSource (.ofText name contents readError) symbols).left ≤ contents.length :=
  Nat.le_trans (unread_add_le _) (Lexer.unread_ofSource_le name contents readError)

end Parser

/-- The constructs that have a method of their own. -/
inductive Construct where
  | int | string | char | symbol | quote | list
  deriving DecidableEq, Repr

namespace Construct

/-- The kind of token that a construct begins with. -/
def kind : Construct → TokenKind
  | .int => .int
  | .string => .string
  | .char => .char
  | .symbol => .symbol
  | .quote => .quote
  | .list => .openParen

def ofKind? : TokenKind → Option Construct
  | .int => some .int
  | .string => some .string
  | .char => some .char
  | .symbol => some .symbol
  | .quote => some .quote
  | .openParen => some .list
  | _ => none

theorem kind_of_ofKind? {k : TokenKind} {x : Construct} (h : ofKind? k = some x) : k = x.kind := by
  cases k <;> cases h <;> rfl

theorem kind_not_final (x : Construct) : x.kind.isFinal = false := by cases x <;> rfl

end Construct

/-- Where the methods stand that read one expression. -/
inductive Place where
  /-- Before what may stand here and the comments before it. -/
  | before (mode : Mode)
  /-- At the beginning of the method for a construct. -/
  | construct (x : Construct)
  /-- Behind a quotation mark. -/
  | quotation
  /-- At the end of a method. -/
  | returned (r : Except Fault Value)

/-- A recursive descent on its way. -/
inductive Descent where
  /-- In the loop over the expressions of a program, given those already read, the latest first. -/
  | program (done : List Value) (p : Parser)
  /-- In an expression, inside some constructs. It belongs to a program in which other expressions
  have been read, or has been asked for by itself. -/
  | inside (place : Place) (around : List Context) (outer : Option (List Value)) (p : Parser)
  /-- Behind a method that reads one expression. -/
  | value (r : Except Fault Value) (p : Parser)
  /-- Behind the method that reads a program. -/
  | values (r : Except Fault (List Value)) (p : Parser)

namespace Descent

section Methods

variable (around : List Context) (outer : Option (List Value)) (p : Parser)

/-- Reads the token ahead and objects to it. -/
def refuse (c : Complaint) : Descent :=
  .inside (.returned (.error (p.read.fault c))) around outer p.read

def expression : Descent :=
  if p.ahead.kind = .comment then .inside (.before .expression) around outer p.read
  else
    match Construct.ofKind? p.ahead.kind with
    | some x => .inside (.construct x) around outer p
    | none =>
      match p.ahead.kind with
      | .error | .invalid => refuse around outer p (.lexical p.ahead.text)
      | .eof => refuse around outer p .unexpectedEnd
      | kind => refuse around outer p (.unexpected kind)

/-- Reads the token ahead, which has a value of its own or a fault. -/
def literal (r : Except Complaint Value) (symbols : Option SymbolTable) : Descent :=
  .inside (.returned (r.mapError p.read.fault)) around outer { p.read with symbols := symbols }

def construct (x : Construct) : Descent :=
  if p.ahead.kind = x.kind then
    match x with
    | .int => literal around outer p (intValue p.ahead.text) p.symbols
    | .string =>
      literal around outer p (.ok (.string (unescape (innerText p.ahead.text)))) p.symbols
    | .char => literal around outer p (charValue p.ahead.text) p.symbols
    | .symbol =>
      literal around outer p (.ok (symbolValue p.symbols p.ahead.text).1)
        (symbolValue p.symbols p.ahead.text).2
    | .quote => .inside .quotation around outer p.read
    | .list => .inside (.before (.element [])) around outer p.read
  else .inside (.returned (.error (p.fault (.wrongStart x.kind p.ahead.kind)))) around outer p

def quotation : Descent :=
  if touches p.ahead then .inside (.before .expression) (.quoted :: around) outer p
  else refuse around outer p .spaceAfterQuote

/-- The loop over the elements of a list. -/
def element (done : List Value) : Descent :=
  if p.ahead.kind = .comment then .inside (.before (.element done)) around outer p.read
  else if p.ahead.kind = .eof then refuse around outer p .unmatched
  else if p.ahead.kind = .closeParen then
    .inside (.returned (.ok (.list done.reverse))) around outer p.read
  else if !done.isEmpty && !p.ahead.spaced then
    refuse around outer p (.missingSpace p.ahead.kind)
  else if p.ahead.kind = .dot then
    .inside (.before .expression) (.tail done :: around) outer p.read
  else .inside (.before .expression) (.element done :: around) outer p

/-- The end of a list whose tail has been read. -/
def close (list : Value) : Descent :=
  if p.ahead.kind = .comment then .inside (.before (.close list)) around outer p.read
  else if p.ahead.kind = .closeParen then .inside (.returned (.ok list)) around outer p.read
  else refuse around outer p .afterTail

/-- Back from a method to the one that has called it. -/
def leave : List Context → Option (List Value) → Except Fault Value → Descent
  | [], none, r => .value r p
  | [], some _, .error f => .values (.error f) p
  | [], some done, .ok v => .program (v :: done) p
  | _ :: around, outer, .error f => .inside (.returned (.error f)) around outer p
  | .quoted :: around, outer, .ok v => .inside (.returned (.ok v.quoted)) around outer p
  | .element done :: around, outer, .ok v =>
    .inside (.before (.element (v :: done))) around outer p
  | .tail done :: around, outer, .ok v =>
    .inside (.before (.close (.dotted done.reverse v))) around outer p

/-- The loop over the expressions of a program. -/
def loop (done : List Value) : Descent :=
  if p.ahead.kind = .comment then .program done p.read
  else if p.ahead.kind = .eof then .values (.ok done.reverse) p.read
  else if !done.isEmpty && !p.ahead.spaced then
    .values (.error (p.read.fault (.missingSpace p.ahead.kind))) p.read
  else .inside (.before .expression) [] (some done) p

end Methods

/-- One step; nothing follows the end. -/
def step : Descent → Descent
  | .program done p => loop p done
  | .inside (.before .expression) around outer p => expression around outer p
  | .inside (.before (.element done)) around outer p => element around outer p done
  | .inside (.before (.close list)) around outer p => close around outer p list
  | .inside (.construct x) around outer p => construct around outer p x
  | .inside .quotation around outer p => quotation around outer p
  | .inside (.returned r) around outer p => leave p around outer r
  | .value r p => .value r p
  | .values r p => .values r p

/-- The descent after a number of steps. -/
def run : Descent → Nat → Descent
  | d, 0 => d
  | d, n + 1 => run d.step n

theorem run_add (d : Descent) (m n : Nat) : d.run (m + n) = (d.run m).run n := by
  induction m generalizing d with
  | zero => rw [Nat.zero_add, run]
  | succ m ih =>
    rw [Nat.succ_add]
    exact ih d.step

@[simp] def parser : Descent → Parser
  | .program _ p | .inside _ _ _ p | .value _ p | .values _ p => p

/-- Whether the method asked for has returned. -/
def ended : Descent → Bool
  | .value _ _ | .values _ _ => true
  | _ => false

/-- Whether nothing but returns follows: a fault has been found, or the method asked for has
returned. -/
def returning : Descent → Bool
  | .inside (.returned (.error _)) _ _ _ | .value _ _ | .values _ _ => true
  | _ => false

/-- The loops and the methods. -/
inductive Site where
  | program | expression | element | close | construct | quotation
  deriving DecidableEq, Repr

/-- The loop or the method at whose beginning a descent stands. -/
@[simp] def site : Descent → Option Site
  | .program _ _ => some .program
  | .inside (.before .expression) _ _ _ => some .expression
  | .inside (.before (.element _)) _ _ _ => some .element
  | .inside (.before (.close _)) _ _ _ => some .close
  | .inside (.construct _) _ _ _ => some .construct
  | .inside .quotation _ _ _ => some .quotation
  | _ => none

/-- The methods lead from higher to lower levels until a token is taken. A value that is returned
leads back to a loop, and a fault leads to the end. -/
@[simp] def Site.level : Site → Nat
  | .construct => 1
  | .expression => 2
  | .program | .element | .close | .quotation => 4

theorem Site.level_le (x : Site) : x.level ≤ 4 := by cases x <;> decide

@[simp] def level : Descent → Nat
  | .program _ _ => Site.program.level
  | .inside (.before .expression) _ _ _ => Site.expression.level
  | .inside (.before (.element _)) _ _ _ => Site.element.level
  | .inside (.before (.close _)) _ _ _ => Site.close.level
  | .inside (.construct _) _ _ _ => Site.construct.level
  | .inside .quotation _ _ _ => Site.quotation.level
  | .inside (.returned (.ok _)) _ _ _ => 4
  | .inside (.returned (.error _)) _ _ _ | .value _ _ | .values _ _ => 0

/-- The number of methods that have not returned, apart from the loop over a program. -/
@[simp] def height : Descent → Nat
  | .inside _ around _ _ => around.length + 1
  | _ => 0

/-- What falls in each step that takes no token. -/
@[simp] def rank (d : Descent) : Nat := d.level + d.height

theorem level_of_site {d : Descent} {x : Site} (h : d.site = some x) : d.level = x.level := by
  unfold site at h
  split at h <;> first | cases h; rfl | cases h

/-- What one step does. -/
inductive Advances (d d' : Descent) : Prop where
  /-- A token is taken. -/
  | takes : d.parser.Takes d'.parser → d'.rank ≤ d.rank + 3 → Advances d d'
  /-- The method goes on without a token, calls another one or gives up. -/
  | falls : d'.parser.left ≤ d.parser.left → d'.rank < d.rank → d'.level < d.level → Advances d d'
  /-- A method that has come to its end returns. -/
  | returns : d.site = none → d'.parser.left ≤ d.parser.left → d'.rank < d.rank →
      d'.level ≤ d.level → Advances d d'

section Progress

variable {around : List Context} {outer : Option (List Value)} {p : Parser} {d : Descent}

theorem advances_comment {mode : Mode} (h : p.ahead.kind = .comment) :
    Advances (.inside (.before mode) around outer p) (.inside (.before mode) around outer p.read) :=
  .takes (Parser.takes_read_of_kind h rfl) (by cases mode <;> simp)

theorem advances_refuse {c : Complaint} (hp : d.parser = p) (hl : 0 < d.level)
    (hh : around.length + 1 ≤ d.height) : Advances d (refuse around outer p c) := by
  have hr : (refuse around outer p c).rank = around.length + 1 := Nat.zero_add _
  refine .falls (hp ▸ p.left_read_le) ?_ hl
  rw [hr, rank]
  omega

theorem advances_call {context : Context} (hp : d.parser = p) (hl : d.level = 4)
    (hh : d.height = around.length + 1) :
    Advances d (.inside (.before .expression) (context :: around) outer p) := by
  refine .falls (Nat.le_of_eq (congrArg Parser.left hp.symm)) ?_ ?_
  · rw [rank, rank, hl, hh]
    simp only [level, Site.level, height, List.length_cons]
    omega
  · rw [hl]
    simp only [level, Site.level]
    omega

theorem advances_expression :
    Advances (.inside (.before .expression) around outer p) (expression around outer p) := by
  unfold expression
  split
  · rename_i hk
    exact advances_comment hk
  · split
    · refine .falls (Nat.le_refl _) ?_ (by simp)
      simp only [rank, level, Site.level, height]
      omega
    · split <;> exact advances_refuse rfl (by simp) (Nat.le_refl _)

theorem advances_literal {x : Construct} (hx : p.ahead.kind = x.kind) (r : Except Complaint Value)
    (symbols : Option SymbolTable) :
    Advances (.inside (.construct x) around outer p) (literal around outer p r symbols) := by
  refine .takes (Parser.takes_read (hx ▸ x.kind_not_final) symbols) ?_
  have hl : (literal around outer p r symbols).level ≤ 4 := by
    cases r <;> simp [literal, Except.mapError]
  change (literal around outer p r symbols).level + (around.length + 1) ≤
    1 + (around.length + 1) + 3
  omega

theorem advances_construct (x : Construct) :
    Advances (.inside (.construct x) around outer p) (construct around outer p x) := by
  unfold construct
  split
  · rename_i hx
    cases x with
    | int | string | char | symbol => exact advances_literal hx _ _
    | quote | list =>
      refine .takes (Parser.takes_read_of_kind hx rfl) ?_
      simp only [rank, level, Site.level, height]
      omega
  · refine .falls (Nat.le_refl _) ?_ (by simp)
    simp only [rank, level, Site.level, height]
    omega

theorem advances_quotation :
    Advances (.inside .quotation around outer p) (quotation around outer p) := by
  unfold quotation
  split
  · exact advances_call rfl rfl rfl
  · exact advances_refuse rfl (by simp) (Nat.le_refl _)

theorem advances_element (done : List Value) :
    Advances (.inside (.before (.element done)) around outer p) (element around outer p done) := by
  unfold element
  split
  · rename_i hk
    exact advances_comment hk
  split
  · exact advances_refuse rfl (by simp) (Nat.le_refl _)
  split
  · rename_i hk
    exact .takes (Parser.takes_read_of_kind hk rfl) (by simp)
  split
  · exact advances_refuse rfl (by simp) (Nat.le_refl _)
  split
  · rename_i hk
    refine .takes (Parser.takes_read_of_kind hk rfl) ?_
    simp only [rank, level, Site.level, height, List.length_cons]
    omega
  · exact advances_call rfl rfl rfl

theorem advances_close (list : Value) :
    Advances (.inside (.before (.close list)) around outer p) (close around outer p list) := by
  unfold close
  split
  · rename_i hk
    exact advances_comment hk
  split
  · rename_i hk
    exact .takes (Parser.takes_read_of_kind hk rfl) (by simp)
  · exact advances_refuse rfl (by simp) (Nat.le_refl _)

theorem advances_leave (r : Except Fault Value) :
    Advances (.inside (.returned r) around outer p) (leave p around outer r) := by
  have hp : (leave p around outer r).parser = p := by
    unfold leave
    split <;> rfl
  refine .returns rfl (Nat.le_of_eq (congrArg Parser.left hp)) ?_ ?_
  all_goals
    cases around with
    | nil => cases outer <;> cases r <;> simp [leave]
    | cons context around => cases r <;> cases context <;> simp [leave]

theorem advances_loop (done : List Value) : Advances (.program done p) (loop p done) := by
  unfold loop
  split
  · rename_i hk
    exact .takes (Parser.takes_read_of_kind hk rfl) (by simp)
  split
  · exact .falls p.left_read_le (by simp) (by simp)
  split
  · exact .falls p.left_read_le (by simp) (by simp)
  · exact .falls (Nat.le_refl _) (by simp) (by simp)

/-- Each step before the end takes a token or leads closer to a return. -/
theorem advances_step (h : d.ended = false) : Advances d d.step := by
  cases d with
  | program done p => exact advances_loop done
  | value r p => cases h
  | values r p => cases h
  | inside place around outer p =>
    cases place with
    | before mode =>
      cases mode with
      | expression => exact advances_expression
      | element done => exact advances_element done
      | close list => exact advances_close list
    | construct x => exact advances_construct x
    | quotation => exact advances_quotation
    | returned r => exact advances_leave r

theorem advances_of_site {x : Site} (h : d.site = some x) :
    d.parser.Takes d.step.parser ∨ d.step.level < d.level := by
  have he : d.ended = false := by
    cases d with
    | program | inside => rfl
    | value | values => cases h
  cases advances_step he with
  | takes ht _ => exact .inl ht
  | falls _ _ hl => exact .inr hl
  | returns hs _ _ _ => cases hs.symm.trans h

theorem step_of_ended (h : d.ended = true) : d.step = d := by
  cases d with
  | program | inside => cases h
  | value | values => rfl

theorem run_of_ended (h : d.ended = true) (n : Nat) : d.run n = d := by
  induction n with
  | zero => rfl
  | succ n ih => rw [run, step_of_ended h, ih]

/-- No step gives bytes back. -/
theorem left_step_le (d : Descent) : d.step.parser.left ≤ d.parser.left := by
  cases he : d.ended with
  | true => exact Nat.le_of_eq (by rw [step_of_ended he])
  | false =>
    cases advances_step he with
    | takes h _ => exact Nat.le_of_lt h.left_lt
    | falls h _ _ => exact h
    | returns _ h _ _ => exact h

theorem left_run_le (n : Nat) (d : Descent) : (d.run n).parser.left ≤ d.parser.left := by
  induction n generalizing d with
  | zero => exact Nat.le_refl _
  | succ n ih => exact Nat.le_trans (ih d.step) (left_step_le d)

/-- A bound for the steps that are left: a token makes up for the four levels that may have to be
passed again behind it. -/
def bound (d : Descent) : Nat := 4 * d.parser.left + d.rank

theorem bound_step_lt (h : d.ended = false) : d.step.bound < d.bound := by
  unfold bound
  cases advances_step h with
  | takes ht hr =>
    have hl := ht.left_lt
    omega
  | falls hl hr _ => omega
  | returns _ hl hr _ => omega

/-- Every descent ends. -/
theorem exists_ended (d : Descent) : ∃ n ≤ d.bound, (d.run n).ended = true := by
  induction hb : d.bound using Nat.strongRecOn generalizing d with
  | ind b ih =>
    cases he : d.ended with
    | true => exact ⟨0, Nat.zero_le b, he⟩
    | false =>
      have hlt : d.step.bound < b := hb ▸ bound_step_lt he
      obtain ⟨n, hn, hr⟩ := ih _ hlt d.step rfl
      exact ⟨n + 1, Nat.lt_of_le_of_lt hn hlt, hr⟩

/-- Without a token taken, the level never rises. -/
theorem level_run_le {n : Nat}
    (h : ∀ i < n, ¬ (d.run i).parser.Takes (d.run (i + 1)).parser) : (d.run n).level ≤ d.level := by
  induction n generalizing d with
  | zero => exact Nat.le_refl _
  | succ n ih =>
    have hs : d.step.level ≤ d.level := by
      cases he : d.ended with
      | true => exact Nat.le_of_eq (by rw [step_of_ended he])
      | false =>
        cases advances_step he with
        | takes ht _ => exact absurd ht (h 0 (Nat.succ_pos n))
        | falls _ _ hl => exact Nat.le_of_lt hl
        | returns _ _ _ hl => exact hl
    exact Nat.le_trans (ih fun i hi => h (i + 1) (Nat.succ_lt_succ hi)) hs

/-- A descent that comes to the same loop or the same method again has taken a token. -/
theorem takes_of_site {n : Nat} {x : Site} (hn : 0 < n) (hx : d.site = some x)
    (hr : (d.run n).site = some x) :
    ∃ i < n, (d.run i).parser.Takes (d.run (i + 1)).parser := by
  obtain ⟨n, rfl⟩ := Nat.exists_eq_add_of_lt hn
  rw [Nat.zero_add] at hr ⊢
  by_contra hc
  have h : ∀ i < n + 1, ¬ (d.run i).parser.Takes (d.run (i + 1)).parser :=
    fun i hi ht => hc ⟨i, hi, ht⟩
  -- the first step leads to a lower level, and no later one back
  have hlt : d.step.level < d.level := by
    rcases advances_of_site hx with ht | hl
    · exact absurd ht (h 0 (Nat.succ_pos n))
    · exact hl
  have hle : (d.step.run n).level ≤ d.step.level :=
    level_run_le fun i hi => h (i + 1) (Nat.succ_lt_succ hi)
  have hl : (d.step.run n).level = d.level := (level_of_site hr).trans (level_of_site hx).symm
  omega

theorem returning_of_level (hs : d.site = none) (hl : d.level < 4) : d.returning = true := by
  cases d with
  | value | values => rfl
  | program => cases hs
  | inside place =>
    cases place with
    | before mode => cases mode <;> cases hs
    | construct | quotation => cases hs
    | returned r =>
      cases r with
      | error f => rfl
      | ok v => exact absurd hl (Nat.lt_irrefl 4)

theorem returning_step (h : d.returning = true) : d.step.returning = true := by
  cases d with
  | program => cases h
  | value | values => rfl
  | inside place around outer p =>
    cases place with
    | before | construct | quotation => cases h
    | returned r =>
      cases r with
      | ok v => cases h
      | error f =>
        cases around with
        | nil => cases outer <;> rfl
        | cons context around => cases context <;> rfl

/-- Only returns follow a fault. -/
theorem returning_run (h : d.returning = true) (n : Nat) : (d.run n).returning = true := by
  induction n generalizing d with
  | zero => exact h
  | succ n ih => exact ih (returning_step h)

/-- A loop that comes round and a method that is called take a token or give up, after as many steps
as there are levels below. -/
theorem takes_or_returning {x : Site} (hx : d.site = some x) :
    ∃ n ≤ d.level, (∃ i < n, (d.run i).parser.Takes (d.run (i + 1)).parser) ∨
      (d.run n).returning = true := by
  have h4 : d.level ≤ 4 := level_of_site hx ▸ x.level_le
  induction hk : d.level using Nat.strongRecOn generalizing d x with
  | ind k ih =>
    rcases advances_of_site hx with ht | hlt
    · refine ⟨1, ?_, .inl ⟨0, Nat.one_pos, ht⟩⟩
      rw [← hk, level_of_site hx]
      cases x <;> decide
    have h4' : d.step.level < 4 := Nat.lt_of_lt_of_le hlt h4
    cases hy : d.step.site with
    | none => exact ⟨1, by omega, .inr (returning_of_level hy h4')⟩
    | some y =>
      obtain ⟨n, hn, hr⟩ := ih _ (hk ▸ hlt) hy (Nat.le_of_lt h4') rfl
      refine ⟨n + 1, by omega, ?_⟩
      rcases hr with ⟨i, hi, ht⟩ | ho
      · exact .inl ⟨i + 1, Nat.succ_lt_succ hi, ht⟩
      · exact .inr ho

end Progress

end Descent

end SmallScheme
