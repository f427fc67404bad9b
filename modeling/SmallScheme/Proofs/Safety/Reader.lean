import SmallScheme.Proofs.Reader.Program
import SmallScheme.Proofs.Safety.Lexer
import SmallScheme.Proofs.Token.Requests

/-!
# Reading with two registers

A reader that keeps the token read last and the token that comes next, either of which may be
missing, and that takes the texts of literals apart by number. `Guarded.readSource_eq` says that it
never uses a token that is not there or a byte that a text does not have, that it comes to an end,
and that it reads what `Reader.readSource` reads.
-/

namespace SmallScheme

set_option autoImplicit false

namespace Guarded

section Literals

/-- Resolves the escapes of a string's inner text from the byte with a given number on. -/
def unescapeFrom (t : Text) (i : Nat) : Guarded Text :=
  if i < t.length then do
    let b ← index t i
    if b ≠ 92 ∨ t.length ≤ i + 1 then
      let more ← unescapeFrom t (i + 1)
      return b :: more
    else
      let d ← index t (i + 1 : Nat)
      let more ← unescapeFrom t (i + 2)
      return (match escaped? d with
        | some e => e :: more
        | none => b :: d :: more)
  else .ok []
termination_by t.length - i

theorem unescapeFrom_eq (t : Text) (i : Nat) : unescapeFrom t i = .ok (unescape (t.drop i)) := by
  induction hn : t.length - i using Nat.strongRecOn generalizing i with
  | ind n ih =>
    rw [unescapeFrom]
    by_cases hi : i < t.length
    · rw [if_pos hi, index_eq (List.getElem?_eq_getElem hi), ok_bind, List.drop_eq_getElem_cons hi]
      by_cases hd : i + 1 < t.length
      · rw [List.drop_eq_getElem_cons hd]
        by_cases hb : t[i] = 92
        · have hn : ¬ (t[i] ≠ 92 ∨ t.length ≤ i + 1) := fun h => h.elim (absurd hb) (by omega)
          rw [if_neg hn, index_eq (List.getElem?_eq_getElem hd), ok_bind,
            ih _ (by omega) (i + 2) rfl, ok_bind, unescape, if_pos hb]
          cases escaped? t[i + 1] <;> rfl
        · rw [if_pos (.inl hb), ih _ (by omega) (i + 1) rfl, ok_bind, unescape, if_neg hb,
            List.drop_eq_getElem_cons hd]
          rfl
      · have hnil : t.drop (i + 1) = [] := List.drop_eq_nil_of_le (by omega)
        rw [if_pos (.inr (by omega)), ih _ (by omega) (i + 1) rfl, ok_bind, hnil]
        rfl
    · rw [if_neg hi, List.drop_eq_nil_of_le (by omega)]
      rfl

/-- The value of a string: what stands between its two marks. -/
def stringValue (t : Text) : Guarded Value := do
  let inner ← slice t 1 (t.length - 1)
  let text ← unescapeFrom inner 0
  return .string text

theorem stringValue_eq {t : Text} (h : 2 ≤ t.length) :
    stringValue t = .ok (.string (unescape (innerText t))) := by
  have hi : innerText t = (t.take (t.length - 1)).drop 1 := by
    rw [innerText, List.dropLast_eq_take, List.take_drop, List.length_drop]
    congr 2
    omega
  have hs : slice t (1 : Nat) (t.length - 1 : Nat) = .ok (innerText t) := by
    rw [hi]
    exact slice_eq (by omega) (by omega)
  have hl : ((t.length - 1 : Nat) : Int) = t.length - 1 := by omega
  rw [hl] at hs
  change (slice t (1 : Nat) (t.length - 1) >>= _) = _
  rw [hs, ok_bind, unescapeFrom_eq]
  rfl

def charValue (t : Text) : Guarded (Except Complaint Value) :=
  let name : Text := t.drop 2
  if name = .ofString "space" then .ok (.ok (.char (.ofChar ' ')))
  else if name = .ofString "newline" then .ok (.ok (.char (.ofChar '\n')))
  else if name.shown.length ≠ 1 then .ok (.error (.characterName t))
  else do
    let c ← index name.shown 0
    return .ok (.char (.ofChar c))

theorem charValue_eq (t : Text) : charValue t = .ok (SmallScheme.charValue t) := by
  unfold charValue SmallScheme.charValue literalChar?
  dsimp only
  split
  · rfl
  split
  · rfl
  unfold Text.shown
  match Text.pieces (t.drop 2) with
  | [] | [_] | _ :: _ :: _ => rfl

/-- Token texts that can be taken apart as their kind asks. -/
theorem two_le_length_of_string {t : Token} (h : t.Classed) (hk : t.kind = .string) :
    2 ≤ t.text.length := by
  obtain ⟨cs, ht, ha⟩ := h (by rw [hk]; rfl)
  rw [hk] at ha
  obtain ⟨body, -, rfl⟩ := ha
  rw [ht]
  have hq : Text.encode '"' = [34] := by decide
  simp only [List.cons_append, Text.ofChars_cons, Text.ofChars_append, Text.ofChars_nil, hq,
    List.length_append, List.length_cons, List.length_nil]
  omega

end Literals

/-- The token read last, the token that comes next, and those behind it. -/
structure Registers where
  current : Option Token
  next : Option Token
  ahead : TokenStream
  symbols : Option SymbolTable

namespace Registers

def read (r : Registers) : Registers :=
  { r with
    current := r.next
    next := some (r.ahead.pending.headD r.ahead.repeated)
    ahead := { r.ahead with pending := r.ahead.pending.tail } }

/-- The registers before the first token: the first one is fetched as the next. -/
def ofStream (ts : TokenStream) (symbols : Option SymbolTable) : Registers :=
  read ⟨none, none, ts, symbols⟩

def fault (r : Registers) (c : Complaint) : Fault := ⟨c, r.current.map Token.source⟩

/-- The registers at a place in a token stream. -/
def view (c : Cursor) : Registers :=
  ⟨c.latest, some c.peek, ⟨c.pending.tail, c.repeated⟩, c.symbols⟩

@[simp] theorem read_view (c : Cursor) : (view c).read = view c.advance := rfl

@[simp] theorem next_view (c : Cursor) : (view c).next = some c.peek := rfl

end Registers

section Walk

open Reader (Context Mode Action literal settle touches)

def begin (symbols : Option SymbolTable) (within : List Context) (t : Token) : Guarded Action :=
  match t.kind with
  | .int => .ok (literal symbols within (intValue t.text))
  | .string => do
    let v ← stringValue t.text
    return .value v symbols within
  | .char => do
    let v ← charValue t.text
    return literal symbols within v
  | .symbol => .ok (.value (symbolValue symbols t.text).1 (symbolValue symbols t.text).2 within)
  | .quote => .ok (.quote within)
  | .openParen => .ok (.enter (.element []) within)
  | .error | .invalid => .ok (.refuse (.lexical t.text))
  | .eof => .ok (.refuse .unexpectedEnd)
  | .dot | .closeParen | .comment => .ok (.refuse (.unexpected t.kind))

def act (r : Registers) (mode : Mode) : Guarded Action := do
  let t ← present r.next
  if t.kind = .comment then return .skip
  else
    match mode with
    | .expression =>
      let t ← present r.read.current
      begin r.symbols [] t
    | .element done =>
      if t.kind = .eof then return .refuse .unmatched
      else if t.kind = .closeParen then return .value (.list done.reverse) r.symbols []
      else if !done.isEmpty && !t.spaced then
        let t ← present r.read.current
        return .refuse (.missingSpace t.kind)
      else if t.kind = .dot then return .enter .expression [.tail done]
      else
        let t ← present r.read.current
        begin r.symbols [.element done] t
    | .close list =>
      if t.kind = .closeParen then return .value list r.symbols [] else return .refuse .afterTail

/-- Carries out the action on a token that has been read; `go` reads on. -/
def perform (go : Registers → Mode → List Context → Guarded (Except Fault Value × Registers))
    (r : Registers) (mode : Mode) (around : List Context) :
    Action → Guarded (Except Fault Value × Registers)
  | .skip => go r mode around
  | .refuse c => .ok (.error (r.fault c), r)
  | .enter mode within => go r mode (within ++ around)
  | .quote within => do
    let follower ← present r.next
    if touches follower then go r .expression (.quoted :: within ++ around)
    else return (.error (r.read.fault .spaceAfterQuote), r.read)
  | .value v symbols within =>
    let r := { r with symbols := symbols }
    match settle (within ++ around) v with
    | .inl v => .ok (.ok v, r)
    | .inr (mode, around) => go r mode around

/-- Reads one expression, if it does not take too many tokens. -/
def walk : (bound : Nat) → Registers → Mode → List Context →
    Guarded (Except Fault Value × Registers)
  | 0, _, _, _ => .error .endless
  | bound + 1, r, mode, around => do
    let action ← act r mode
    perform (walk bound) r.read mode around action

def skipComments : (bound : Nat) → Registers → Guarded Registers
  | 0, _ => .error .endless
  | bound + 1, r => do
    let t ← present r.next
    if t.kind = .comment then skipComments bound r.read else return r

/-- Reads expressions up to the end of the input, given those already read, the latest first. -/
def programFrom : (bound : Nat) → List Value → Registers →
    Guarded (Except Fault (List Value) × Registers)
  | 0, _, _ => .error .endless
  | bound + 1, done, r => do
    let r ← skipComments (bound + 1) r
    let t ← present r.next
    if t.kind = .eof then return (.ok done.reverse, r.read)
    else if !done.isEmpty && !t.spaced then
      let t ← present r.read.current
      return (.error (r.read.fault (.missingSpace t.kind)), r.read)
    else
      match ← walk (bound + 1) r .expression [] with
      | (.error f, r) => return (.error f, r)
      | (.ok v, r) => programFrom bound (v :: done) r

end Walk

section Agreement

open Reader (Context Mode Action literal settle touches)

variable {c : Cursor}

theorem begin_eq {t : Token} (ht : t.Classed) (symbols : Option SymbolTable)
    (within : List Context) : begin symbols within t = .ok (Reader.begin symbols within t) := by
  have hs := two_le_length_of_string ht
  obtain ⟨kind, text, source, spaced⟩ := t
  cases kind with
  | string =>
    change (stringValue text >>= _) = _
    rw [stringValue_eq (hs rfl)]
    rfl
  | char =>
    change (charValue text >>= _) = _
    rw [charValue_eq]
    rfl
  | _ => rfl

theorem act_eq (ht : c.peek.Classed) (mode : Mode) :
    act (.view c) mode = .ok (Reader.act c.symbols mode c.peek) := by
  change (if c.peek.kind = .comment then _ else _) = _
  unfold Reader.act
  split
  · rfl
  cases mode with
  | expression => exact begin_eq ht c.symbols []
  | element done =>
    dsimp only
    split
    · rfl
    split
    · rfl
    split
    · rfl
    split
    · rfl
    exact begin_eq ht c.symbols [.element done]
  | close list =>
    dsimp only
    split <;> rfl

/-- A place in the tokens that a lexer hands out. -/
structure Lexed (c : Cursor) : Prop where
  classed : ∀ t ∈ c.pending, t.Classed
  final : c.repeated.kind.isFinal = true

theorem Lexed.peek (h : Lexed c) : c.peek.Classed := by
  obtain ⟨latest, pending, repeated, symbols⟩ := c
  cases pending with
  | nil =>
    intro hf
    exact absurd h.final (Bool.eq_false_iff.mp hf)
  | cons t ts => exact h.classed t List.mem_cons_self

theorem Lexed.advance (h : Lexed c) : Lexed c.advance :=
  ⟨fun t ht => h.classed t (List.mem_of_mem_tail ht), h.final⟩

theorem walk_eq {bound : Nat} (h : Lexed c) (hb : c.pending.length < bound) (mode : Mode)
    (around : List Context) :
    walk bound (.view c) mode around =
      .ok ((Reader.walk c.repeated c.pending mode around c.symbols).1,
        .view (Reader.walk c.repeated c.pending mode around c.symbols).2) := by
  induction bound generalizing c mode around with
  | zero => omega
  | succ bound ih =>
    rw [walk, act_eq h.peek, ok_bind, Registers.read_view]
    have ha := h.advance
    obtain ⟨latest, pending, repeated, symbols⟩ := c
    cases pending with
    | nil =>
      obtain ⟨complaint, hc⟩ := Reader.act_final h.final symbols mode
      change perform (walk bound) _ mode around (Reader.act symbols mode repeated) = _
      simp only [Reader.walk, hc]
      rfl
    | cons t ts =>
      have hl : ts.length < bound := Nat.lt_of_succ_lt_succ hb
      rw [Reader.walk_cons]
      change perform (walk bound) _ mode around (Reader.act symbols mode t) = _
      cases Reader.act symbols mode t with
      | skip => exact ih ha hl mode around
      | refuse complaint => rfl
      | enter mode within => exact ih ha hl mode (within ++ around)
      | quote within =>
        simp only [perform, Reader.perform, Registers.next_view, present_some, ok_bind]
        change (if touches (ts.headD repeated) then _ else _) = _
        split
        · exact ih ha hl .expression (.quoted :: within ++ around)
        · rfl
      | value v symbols' within =>
        simp only [perform, Reader.perform]
        cases settle (within ++ around) v with
        | inl v => rfl
        | inr next =>
          have hv : Lexed ⟨some t, ts, repeated, symbols'⟩ := ⟨ha.classed, ha.final⟩
          exact ih hv hl next.1 next.2

/-- What an expression leaves is the end of what there was. -/
theorem lexed_walk {repeated : Token} (hr : repeated.kind.isFinal = true) {ts : List Token}
    (hts : ∀ t ∈ ts, t.Classed) (mode : Mode) (around : List Context)
    (symbols : Option SymbolTable) : Lexed (Reader.walk repeated ts mode around symbols).2 := by
  induction ts generalizing mode around symbols with
  | nil => exact ⟨hts, hr⟩
  | cons t ts ih =>
    have hts' : ∀ u ∈ ts, u.Classed := fun u hu => hts u (List.mem_cons_of_mem t hu)
    rw [Reader.walk_cons]
    cases Reader.act symbols mode t with
    | skip => exact ih hts' mode around symbols
    | refuse => exact ⟨hts', hr⟩
    | enter mode within => exact ih hts' mode (within ++ around) symbols
    | quote within =>
      simp only [Reader.perform]
      split
      · exact ih hts' _ _ symbols
      · exact ⟨fun u hu => hts' u (List.mem_of_mem_tail hu), hr⟩
    | value v symbols' within =>
      simp only [Reader.perform]
      cases settle (within ++ around) v with
      | inl v => exact ⟨hts', hr⟩
      | inr next => exact ih hts' next.1 next.2 symbols'

theorem skipComments_eq {bound : Nat} (h : Lexed c) (hb : c.pending.length < bound) :
    skipComments bound (.view c) = .ok (.view c.skipComments) := by
  induction bound generalizing c with
  | zero => omega
  | succ bound ih =>
    rw [skipComments, Registers.next_view, present_some, ok_bind]
    by_cases hk : c.peek.kind = .comment
    · have hl := Reader.length_advance_lt h.final (by rw [hk]; rfl)
      rw [if_pos hk, Registers.read_view, ih h.advance (by omega),
        Reader.skipComments_comment h.final hk]
    · rw [if_neg hk, Reader.skipComments_other hk]
      rfl

theorem Lexed.skipComments (h : Lexed c) : Lexed c.skipComments :=
  ⟨fun t ht => h.classed t ((List.dropWhile_suffix _).subset ht), h.final⟩

theorem programFrom_eq {bound : Nat} (h : Lexed c) (hb : c.pending.length < bound)
    (done : List Value) :
    programFrom bound done (.view c) =
      .ok ((Reader.programFrom done c).1, .view (Reader.programFrom done c).2) := by
  induction bound generalizing c done with
  | zero => omega
  | succ bound ih =>
    have hs := h.skipComments
    have hl := Reader.length_skipComments c
    rw [programFrom, skipComments_eq h hb, ok_bind, Registers.next_view, present_some, ok_bind,
      Reader.programFrom_eq]
    split
    · rfl
    split
    · rfl
    have hw : walk (bound + 1) (.view c.skipComments) .expression [] =
        .ok ((Reader.expression c.skipComments).1, .view (Reader.expression c.skipComments).2) :=
      walk_eq hs (by omega) .expression []
    rw [hw, ok_bind]
    cases he : Reader.expression c.skipComments with
    | mk r after =>
      cases r with
      | error f => rfl
      | ok v =>
        have hw := lexed_walk hs.final hs.classed .expression [] c.skipComments.symbols
        rw [← Reader.expression, he] at hw
        have hlt : after.pending.length < c.skipComments.pending.length :=
          Reader.pending_walk_lt he
        have hb' : after.pending.length < bound := by omega
        exact ih hw hb' (v :: done)

end Agreement

def readSource (symbols : Option SymbolTable) (name contents : Text) (readError : Option Text) :
    Guarded (Except Error (List Value) × Option SymbolTable) := do
  let ts ← tokens name contents readError
  let (result, r) ← programFrom (ts.pending.length + 1) [] (.ofStream ts symbols)
  return (result.mapError Fault.toError, r.symbols)

/-- Reading never goes wrong: whatever the bytes of a text are, and whether or not they can be read
to their end, the tokens are cut from the text and the expressions made of them. -/
theorem readSource_eq (symbols : Option SymbolTable) (name contents : Text)
    (readError : Option Text) :
    readSource symbols name contents readError =
      .ok (Reader.readSource symbols (.ofText name contents readError)) := by
  have h : Lexed (.ofStream (Source.ofText name contents readError).tokens symbols) :=
    ⟨Source.classed_of_mem_tokens _, SmallScheme.Lexer.isFinal_repeated _⟩
  have hp : programFrom ((Source.ofText name contents readError).tokens.pending.length + 1) []
      (.ofStream (Source.ofText name contents readError).tokens symbols) = _ :=
    programFrom_eq h (Nat.lt_succ_self _) []
  rw [readSource, tokens_eq, ok_bind, hp]
  rfl

end Guarded

end SmallScheme
