import SmallScheme.Proofs.Reader.Readable
import SmallScheme.Proofs.Token.Places

/-!
# Reading without places and tables

The places of tokens show in faults only, and a faithful symbol table shows nowhere. So tokens that
differ in places are read as the same values or refused with the same complaint, whatever faithful
tables the two readings start with (`Reader.programFrom_moved`).
-/

namespace SmallScheme

set_option autoImplicit false

open SymbolTable (Faithful? fst_intern? faithful?_none)

/-- The fault with its place changed. -/
def Fault.moved (f : Location → Location) (x : Fault) : Fault := ⟨x.complaint, x.source.map f⟩

/-- Cursors before the same tokens, save for places and tables, both of them faithful. -/
structure Cursor.Moved (f : Location → Location) (c c' : Cursor) : Prop where
  pending_eq : c'.pending = c.pending.map (Token.moved f)
  repeated_eq : c'.repeated = c.repeated.moved f
  faithful : Faithful? c.symbols
  faithful' : Faithful? c'.symbols

/-- Readings with the same result, save for places and tables. -/
structure Reading.Moved {α : Type} (f : Location → Location) (r r' : Reading α) : Prop where
  result_eq : r'.1 = r.1.mapError (Fault.moved f)
  cursor : r.2.Moved f r'.2

namespace Reader

variable {f : Location → Location} {symbols symbols' : Option SymbolTable} {t repeated : Token}

/-- Actions that agree in all but the table. -/
inductive Action.Same : Action → Action → Prop where
  | refl (a : Action) : Same a a
  | value (v : Value) (symbols symbols' : Option SymbolTable) (within : List Context) :
      Same (.value v symbols within) (.value v symbols' within)

theorem Action.Same.ite {p : Prop} [Decidable p] {a a' b b' : Action} (ha : a.Same a')
    (hb : b.Same b') : (if p then a else b).Same (if p then a' else b') := by
  split
  · exact ha
  · exact hb

theorem fst_symbolValue (hs : Faithful? symbols) (hs' : Faithful? symbols') (t : Text) :
    (symbolValue symbols' t).1 = (symbolValue symbols t).1 := by
  unfold symbolValue
  split
  · rfl
  · split
    · rfl
    · simp only [fst_intern? hs, fst_intern? hs']

theorem literal_same (within : List Context) (r : Except Complaint Value) :
    (literal symbols within r).Same (literal symbols' within r) := by
  cases r with
  | ok v => exact .value v symbols symbols' within
  | error c => exact .refl _

theorem begin_moved (hs : Faithful? symbols) (hs' : Faithful? symbols') (within : List Context) :
    (begin symbols within t).Same (begin symbols' within (t.moved f)) := by
  simp only [begin, Token.kind_moved, Token.text_moved]
  cases t.kind with
  | int | char => exact literal_same within _
  | string => exact .value _ symbols symbols' within
  | symbol =>
    dsimp only
    rw [fst_symbolValue hs hs']
    exact .value _ _ _ within
  | _ => exact .refl _

theorem act_moved (hs : Faithful? symbols) (hs' : Faithful? symbols') (mode : Mode) :
    (act symbols mode t).Same (act symbols' mode (t.moved f)) := by
  simp only [act, Token.kind_moved, Token.spaced_moved]
  apply Action.Same.ite (.refl _)
  cases mode with
  | expression => exact begin_moved hs hs' []
  | element done =>
    apply Action.Same.ite (.refl _)
    apply Action.Same.ite (.value _ symbols symbols' [])
    apply Action.Same.ite (.refl _)
    exact Action.Same.ite (.refl _) (begin_moved hs hs' [.element done])
  | close list => exact Action.Same.ite (.value list symbols symbols' []) (.refl _)

theorem headD_moved (ts : List Token) (repeated : Token) :
    (ts.map (Token.moved f)).headD (repeated.moved f) = (ts.headD repeated).moved f := by
  cases ts <;> rfl

theorem perform_moved (hs : Faithful? symbols) (hs' : Faithful? symbols') {ts : List Token}
    {a a' : Action} (ha : a.Same a') (hf : a.Faithful) (hf' : a'.Faithful)
    (ih : ∀ mode around symbols symbols', Faithful? symbols → Faithful? symbols' →
      Reading.Moved f (walk repeated ts mode around symbols)
        (walk (repeated.moved f) (ts.map (Token.moved f)) mode around symbols'))
    (mode : Mode) (around : List Context) :
    Reading.Moved f (perform repeated t ts mode around symbols a)
      (perform (repeated.moved f) (t.moved f) (ts.map (Token.moved f)) mode around symbols'
        a') := by
  have value (v : Value) (s s' : Option SymbolTable) (h : Faithful? s) (h' : Faithful? s')
      (within : List Context) :
      Reading.Moved f (perform repeated t ts mode around symbols (.value v s within))
        (perform (repeated.moved f) (t.moved f) (ts.map (Token.moved f)) mode around symbols'
          (.value v s' within)) := by
    simp only [perform]
    cases settle (within ++ around) v with
    | inl w => exact ⟨rfl, rfl, rfl, h, h'⟩
    | inr next => exact ih next.1 next.2 s s' h h'
  cases ha with
  | value v s s' within => exact value v s s' hf hf' within
  | refl =>
    cases a with
    | skip => exact ih mode around symbols symbols' hs hs'
    | refuse c => exact ⟨rfl, rfl, rfl, hs, hs'⟩
    | enter mode within => exact ih mode (within ++ around) symbols symbols' hs hs'
    | value v s within => exact value v s s hf hf within
    | quote within =>
      have ht : touches ((ts.headD repeated).moved f) = touches (ts.headD repeated) := rfl
      simp only [perform, headD_moved, ht]
      split
      · exact ih .expression _ symbols symbols' hs hs'
      · exact ⟨rfl, List.map_tail.symm, rfl, hs, hs'⟩

theorem walk_moved (ts : List Token) (mode : Mode) (around : List Context)
    (symbols symbols' : Option SymbolTable) (hs : Faithful? symbols) (hs' : Faithful? symbols') :
    Reading.Moved f (walk repeated ts mode around symbols)
      (walk (repeated.moved f) (ts.map (Token.moved f)) mode around symbols') := by
  induction ts generalizing mode around symbols symbols' with
  | nil =>
    have ha : (act symbols mode repeated).Same (act symbols' mode (repeated.moved f)) :=
      act_moved hs hs' mode
    simp only [List.map_nil, walk]
    cases hr : act symbols mode repeated with
    | value v s within =>
      rw [hr] at ha
      generalize act symbols' mode (repeated.moved f) = a at ha
      cases ha <;> exact ⟨rfl, rfl, rfl, hs, hs'⟩
    | skip | refuse | enter | quote =>
      rw [hr] at ha
      generalize act symbols' mode (repeated.moved f) = a at ha
      cases ha
      exact ⟨rfl, rfl, rfl, hs, hs'⟩
  | cons t ts ih =>
    rw [List.map_cons, walk_cons, walk_cons]
    exact perform_moved hs hs' (act_moved hs hs' mode) (faithful_act hs mode t)
      (faithful_act hs' mode _) ih mode around

variable {c c' : Cursor}

theorem peek_moved (h : c.Moved f c') : c'.peek = c.peek.moved f := by
  rw [Cursor.peek, h.pending_eq, h.repeated_eq, headD_moved]
  rfl

theorem skipComments_moved (h : c.Moved f c') : c.skipComments.Moved f c'.skipComments := by
  refine ⟨?_, h.repeated_eq, h.faithful, h.faithful'⟩
  simp only [Cursor.skipComments, h.pending_eq, List.dropWhile_map]
  rfl

theorem expression_moved (h : c.Moved f c') :
    Reading.Moved f (expression c) (expression c') := by
  simp only [expression, h.pending_eq, h.repeated_eq]
  exact walk_moved c.pending .expression [] _ _ h.faithful h.faithful'

/-- A program is read alike from tokens with other places. -/
theorem programFrom_moved (h : c.skipComments.Moved f c'.skipComments) (done : List Value) :
    (programFrom done c').1 = (programFrom done c).1.mapError (Fault.moved f) := by
  induction hn : c.pending.length using Nat.strongRecOn generalizing c c' done with
  | ind n ih =>
    have hp := peek_moved h
    have hk : c'.skipComments.peek.kind = c.skipComments.peek.kind := by rw [hp]; rfl
    have hsp : c'.skipComments.peek.spaced = c.skipComments.peek.spaced := by rw [hp]; rfl
    rw [programFrom_eq done c, programFrom_eq done c', hk, hsp]
    split
    · rfl
    split
    · rw [hp]
      rfl
    obtain ⟨hr, hm⟩ := expression_moved h
    cases he : expression c.skipComments with
    | mk r after =>
      cases he' : expression c'.skipComments with
      | mk r' after' =>
        rw [he, he'] at hr hm
        cases r with
        | error x =>
          obtain rfl : r' = .error (x.moved f) := hr
          rfl
        | ok v =>
          obtain rfl : r' = .ok v := hr
          have hlt : after.pending.length < n := by
            rw [← hn]
            exact Nat.lt_of_lt_of_le (pending_walk_lt he) (length_skipComments c)
          exact ih _ hlt (skipComments_moved hm) (v :: done) rfl

theorem mapError_complaint_moved {α : Type} (r : Except Fault α) :
    (r.mapError (Fault.moved f)).mapError Fault.complaint = r.mapError Fault.complaint := by
  cases r <;> rfl

theorem mapError_eq_ok_iff {α β γ : Type} {g : α → β} {r : Except α γ} {v : γ} :
    r.mapError g = .ok v ↔ r = .ok v := by
  cases r <;> simp [Except.mapError]

/-- A program is read alike from tokens that differ in places, comments in front aside. -/
theorem programFrom_alike (c c' : Cursor) (hs : Faithful? c.symbols) (hs' : Faithful? c'.symbols)
    {comments : List Token} (hc : Grammar.Comments comments)
    (hp : c.pending.map Token.unplaced = (comments ++ c'.pending).map Token.unplaced)
    (hr : c.repeated.unplaced = c'.repeated.unplaced) (done : List Value) :
    (programFrom done c).1.mapError Fault.complaint =
      (programFrom done c').1.mapError Fault.complaint := by
  let bare : Cursor := ⟨none, c'.pending.map Token.unplaced, c'.repeated.unplaced, none⟩
  have hb : c'.Moved (fun _ => ⟨[], 0, 0, 0⟩) bare :=
    ⟨rfl, rfl, hs', faithful?_none⟩
  have hm : c.skipComments.Moved (fun _ => ⟨[], 0, 0, 0⟩) bare.skipComments := by
    refine ⟨?_, hr.symm, hs, faithful?_none⟩
    have hd : c.skipComments.pending.map Token.unplaced =
        (c.pending.map Token.unplaced).dropWhile (·.kind = .comment) := by
      rw [List.dropWhile_map]
      rfl
    have hu : ∀ t ∈ comments.map Token.unplaced, decide (t.kind = .comment) = true := by
      intro t ht
      obtain ⟨u, hu, rfl⟩ := List.mem_map.mp ht
      exact decide_eq_true (hc u hu)
    rw [hp, List.map_append, List.dropWhile_append_of_pos hu] at hd
    exact hd.symm
  calc (programFrom done c).1.mapError Fault.complaint
    _ = (programFrom done bare).1.mapError Fault.complaint := by
      rw [programFrom_moved hm, mapError_complaint_moved]
    _ = (programFrom done c').1.mapError Fault.complaint := by
      rw [programFrom_moved (skipComments_moved hb), mapError_complaint_moved]

/-- What tokens are read as, places aside. -/
def verdict (stream : TokenStream) : Except Complaint (List Value) :=
  (program (.ofStream stream none)).1.mapError Fault.complaint

theorem verdict_alike {stream stream' : TokenStream} {comments : List Token}
    (hc : Grammar.Comments comments)
    (hp : stream.pending.map Token.unplaced = (comments ++ stream'.pending).map Token.unplaced)
    (hr : stream.repeated.unplaced = stream'.repeated.unplaced) :
    verdict stream = verdict stream' :=
  programFrom_alike (.ofStream stream none) (.ofStream stream' none) faithful?_none faithful?_none
    hc hp hr []

theorem verdict_unplaced {stream : TokenStream} {repeated : Token}
    (hr : repeated.unplaced = stream.repeated.unplaced) :
    verdict ⟨stream.pending.map Token.unplaced, repeated⟩ = verdict stream := by
  apply verdict_alike Grammar.Comments.nil _ hr
  rw [List.map_map]
  rfl

variable {s s' : Source}

theorem fst_readSource_verdict (hs : Faithful? symbols) (s : Source) :
    ∃ r : Except Fault (List Value), (readSource symbols s).1 = r.mapError Fault.toError ∧
      verdict s.tokens = r.mapError Fault.complaint :=
  ⟨(program (.ofStream s.tokens symbols)).1, rfl, programFrom_alike (.ofStream s.tokens none)
    (.ofStream s.tokens symbols) faithful?_none hs Grammar.Comments.nil rfl rfl []⟩

/-- What is read from a source depends on no table, as long as the tables are faithful. -/
theorem readSource_of_table (hs : Faithful? symbols) (hs' : Faithful? symbols') (s : Source) :
    (readSource symbols s).1 = (readSource symbols' s).1 := by
  have hid : Fault.moved id = id := by
    funext x
    simp [Fault.moved]
  let c (table : Option SymbolTable) := Cursor.ofStream s.tokens table
  have hm : (c symbols').Moved id (c symbols) := ⟨(List.map_id _).symm, rfl, hs', hs⟩
  have hp := programFrom_moved (skipComments_moved hm) []
  rw [hid] at hp
  have hi (r : Except Fault (List Value)) : r.mapError id = r := by cases r <;> rfl
  rw [hi] at hp
  exact congrArg (Except.mapError Fault.toError) hp

theorem fst_readNamed (hs : Faithful? symbols) (hs' : Faithful? symbols') (name contents : Text) :
    (readNamed symbols name contents).1 = (readNamed symbols' name contents).1 :=
  readSource_of_table hs hs' _

theorem readSource_eq_ok_iff_verdict (hs : Faithful? symbols) {vs : List Value} :
    (readSource symbols s).1 = .ok vs ↔ verdict s.tokens = .ok vs := by
  obtain ⟨r, hr, hv⟩ := fst_readSource_verdict hs s
  rw [hr, hv, mapError_eq_ok_iff, mapError_eq_ok_iff]

theorem readSource_eq_error_iff_verdict (hs : Faithful? symbols) {message : Text} :
    (∃ source, (readSource symbols s).1 = .error (.parse source message)) ↔
      ∃ x, verdict s.tokens = .error x ∧ x.message = message := by
  obtain ⟨r, hr, hv⟩ := fst_readSource_verdict hs s
  rw [hr, hv]
  cases r with
  | ok vs => simp [Except.mapError]
  | error y => simp [Except.mapError, Fault.toError]

theorem verdict_eq_of_chars (hc : s.chars = s'.chars) (he : s.ending = s'.ending) :
    verdict s.tokens = verdict s'.tokens := by
  have ha : (Lexer.ofSource s).Alike (Lexer.ofSource s') := ⟨rfl, rfl, he, hc⟩
  obtain ⟨hp, hr⟩ := Lexer.tokens_alike ha
  exact verdict_alike Grammar.Comments.nil hp hr

end Reader

end SmallScheme
