import Mathlib.Data.List.Count
import SmallScheme.Proofs.Environment.Listing
import SmallScheme.Proofs.Text.Encoding
import SmallScheme.Proofs.Token.Ends
import SmallScheme.Session.Completion

/-!
# What a word is completed to

The word before a position is the longest run without delimiters that ends there. It is completed to
the names that properly extend it, in their order: once for a special form and once for a visible
variable (`Completion.complete_word`). So only a variable that has the name of a special form is
offered twice.
-/

namespace SmallScheme

set_option autoImplicit false

namespace Text

variable {cs : List Char} {t : Text}

theorem wellFormed_of_ofChars_append (h : (ofChars cs ++ t).WellFormed) : t.WellFormed := by
  obtain ⟨ds, hds⟩ := h
  have hs : (ofChars cs ++ t).firstStray? = none := by
    rw [hds, firstStray?_ofChars]
  rw [firstStray?_ofChars_append] at hs
  exact ⟨t.chars, (ofChars_chars hs).symm⟩

theorem shown_ofChars (cs : List Char) : (ofChars cs).shown = cs := by
  rw [shown, pieces_ofChars, List.map_map]
  exact List.map_id cs

theorem ofChars_injective : Function.Injective ofChars := by
  intro cs ds h
  rw [← shown_ofChars cs, h, shown_ofChars]

end Text

theorem SpecialForm.nodup_names : SpecialForm.names.Nodup := by
  decide +kernel

theorem SpecialForm.wellFormed_of_mem_names {name : Text} (h : name ∈ SpecialForm.names) :
    name.WellFormed := by
  obtain ⟨form, -, rfl⟩ := List.mem_map.mp h
  cases form <;> exact ⟨_, rfl⟩

namespace Completion

variable {store : Store} {frame : Nat} {line w : List Char} {word name : Text} {s : List Char}

/-- A line ends with a word that no delimiter cuts and that cannot be longer. -/
structure EndsWith (line w : List Char) : Prop where
  cut : ∃ before, line = before ++ w ∧ ∀ c ∈ before.getLast?, isDelimiter c = true
  plain : ∀ c ∈ w, isDelimiter c = false

/-- A name begins with a word and goes on behind it. -/
def Extends (word name : Text) : Prop := ∃ rest, rest ≠ [] ∧ name = word ++ rest

theorem endsWith_word (line : List Char) : EndsWith line (Completion.word line) := by
  constructor
  · refine ⟨(line.reverse.dropWhile (!isDelimiter ·)).reverse, ?_, ?_⟩
    · rw [Completion.word, ← List.reverse_append, List.takeWhile_append_dropWhile,
        List.reverse_reverse]
    · intro c hc
      rw [List.getLast?_reverse] at hc
      have hn := Lexeme.head?_dropWhile c hc
      simpa using hn
  · intro c hc
    have hn := Lexeme.of_mem_takeWhile (List.mem_reverse.mp hc)
    simpa using hn

theorem EndsWith.eq_word (h : EndsWith line w) : w = Completion.word line := by
  obtain ⟨⟨before, rfl, hb⟩, hw⟩ := h
  have ht : (w.reverse ++ before.reverse).takeWhile (!isDelimiter ·) = w.reverse := by
    apply Lexeme.takeWhile_append_stop
    · intro c hc
      simpa using hw c (List.mem_reverse.mp hc)
    · intro c hc
      rw [List.head?_reverse] at hc
      simpa using hb c hc
  rw [Completion.word, List.reverse_append, ht, List.reverse_reverse]

/-- What a name has behind a word. -/
def added (word name : Text) : List Char := Text.shown (name.drop word.length)

/-- Those of some names that extend a word. -/
def extending (word : Text) (names : List Text) : List Text :=
  names.filter fun name => decide (word.isPrefixOf name ∧ name ≠ word)

theorem mem_extending_iff {names : List Text} :
    name ∈ extending word names ↔ name ∈ names ∧ Extends word name := by
  rw [extending, List.mem_filter, decide_eq_true_eq, List.isPrefixOf_iff_prefix]
  constructor
  · rintro ⟨hm, ⟨rest, rfl⟩, hne⟩
    refine ⟨hm, rest, ?_, rfl⟩
    intro hr
    exact hne (by rw [hr, List.append_nil])
  · rintro ⟨hm, rest, hr, rfl⟩
    exact ⟨hm, List.prefix_append word rest, by simpa using hr⟩

theorem filterMap_suffix? (names : List Text) :
    names.filterMap (suffix? word) = (extending word names).map (added word) := by
  rw [extending, ← List.filterMap_eq_map, List.filterMap_filter]
  apply List.filterMap_congr
  intro name _
  simp only [suffix?, added, decide_eq_true_eq, Function.comp_apply]

theorem pairwise_candidates : (candidates store frame).Pairwise (· ≤ ·) := by
  have htrans (a b c : Text) (hab : decide (a ≤ b) = true) (hbc : decide (b ≤ c) = true) :
      decide (a ≤ c) = true :=
    decide_eq_true (List.le_trans (of_decide_eq_true hab) (of_decide_eq_true hbc))
  have htotal (a b : Text) : (decide (a ≤ b) || decide (b ≤ a)) = true := by
    rcases List.le_total a b with h | h <;> simp [h]
  have hsorted := List.pairwise_mergeSort htrans htotal
    (SpecialForm.names ++ store.visibleNames frame)
  exact hsorted.imp fun h => of_decide_eq_true h

theorem extending_candidates_perm :
    (extending word (candidates store frame)).Perm
      (extending word SpecialForm.names ++ extending word (store.visibleNames frame)) := by
  have hp := List.mergeSort_perm (SpecialForm.names ++ store.visibleNames frame)
    fun a b => decide (a ≤ b)
  have hf := hp.filter fun name => decide (word.isPrefixOf name ∧ name ≠ word)
  rwa [List.filter_append] at hf

theorem extends_ofChars_iff :
    Extends (Text.ofChars w) (Text.ofChars (w ++ s)) ↔ s ≠ [] := by
  rw [Text.ofChars_append]
  constructor
  · rintro ⟨rest, hr, he⟩ rfl
    exact hr (List.append_cancel_left he).symm
  · intro hs
    refine ⟨Text.ofChars s, ?_, rfl⟩
    intro hn
    exact hs (Text.ofChars_injective hn)

theorem ofChars_added (h : Extends (Text.ofChars w) name) (hn : name.WellFormed) :
    Text.ofChars (w ++ added (Text.ofChars w) name) = name := by
  obtain ⟨rest, -, rfl⟩ := h
  obtain ⟨s, rfl⟩ := Text.wellFormed_of_ofChars_append hn
  rw [added, List.drop_left, Text.shown_ofChars, Text.ofChars_append]

/-- The names that a word is completed to: in order, the special forms that extend it, each once,
and the visible variables that extend it, each once. -/
structure Merges (store : Store) (frame : Nat) (word : Text) (names : List Text) : Prop where
  sorted : names.Pairwise (· ≤ ·)
  merged : ∃ special visible, names.Perm (special ++ visible) ∧ special.Nodup ∧ visible.Nodup ∧
    (∀ name, name ∈ special ↔ name ∈ SpecialForm.names ∧ Extends word name) ∧
    ∀ name, name ∈ visible ↔ name ∈ store.visibleNames frame ∧ Extends word name

/-- What completes a word is offered once, in the order of the completed names. -/
structure Exact (store : Store) (frame : Nat) (w : List Char) (offers : List (List Char)) :
    Prop where
  sorted : (offers.map fun s => Text.ofChars (w ++ s)).Pairwise (· ≤ ·)
  nodup : offers.Nodup
  mem_iff (s : List Char) : s ∈ offers ↔ s ≠ [] ∧
    (Text.ofChars (w ++ s) ∈ SpecialForm.names ∨
      Text.ofChars (w ++ s) ∈ store.visibleNames frame)

theorem merges_candidates (store : Store) (frame : Nat) (word : Text) :
    Merges store frame word (extending word (candidates store frame)) :=
  ⟨pairwise_candidates.filter _, _, _, extending_candidates_perm,
    SpecialForm.nodup_names.filter _, (store.nodup_visibleNames frame).filter _,
    fun _ => mem_extending_iff, fun _ => mem_extending_iff⟩

theorem Merges.mem_iff {names : List Text} (h : Merges store frame word names) :
    name ∈ names ↔
      Extends word name ∧ (name ∈ SpecialForm.names ∨ name ∈ store.visibleNames frame) := by
  obtain ⟨special, visible, hp, -, -, hs, hv⟩ := h.merged
  rw [hp.mem_iff, List.mem_append, hs, hv, ← or_and_right, and_comm]

theorem Merges.nodup {names : List Text} (h : Merges store frame word names)
    (hd : ∀ name ∈ store.visibleNames frame, Extends word name → name ∉ SpecialForm.names) :
    names.Nodup := by
  obtain ⟨special, visible, hp, hns, hnv, hs, hv⟩ := h.merged
  apply hp.nodup_iff.mpr
  apply List.nodup_append.mpr
  refine ⟨hns, hnv, ?_⟩
  rintro name hm _ hm' rfl
  obtain ⟨hvis, hx⟩ := (hv name).mp hm'
  exact hd name hvis hx ((hs name).mp hm).1

theorem Merges.exact {names : List Text} (h : Merges store frame (Text.ofChars w) names)
    (hd : ∀ name ∈ store.visibleNames frame, Extends (Text.ofChars w) name →
      name.WellFormed ∧ name ∉ SpecialForm.names) :
    Exact store frame w (names.map (added (Text.ofChars w))) := by
  have hback : ∀ name ∈ names, Text.ofChars (w ++ added (Text.ofChars w) name) = name := by
    intro name hm
    obtain ⟨hx, hs | hv⟩ := h.mem_iff.mp hm
    · exact ofChars_added hx (SpecialForm.wellFormed_of_mem_names hs)
    · exact ofChars_added hx (hd name hv hx).1
  have hnames : (names.map (added (Text.ofChars w))).map (fun s => Text.ofChars (w ++ s)) =
      names := by
    rw [List.map_map]
    exact (List.map_congr_left hback).trans names.map_id
  constructor
  · rw [hnames]
    exact h.sorted
  · apply List.Nodup.of_map fun s => Text.ofChars (w ++ s)
    rw [hnames]
    exact h.nodup fun name hv hx => (hd name hv hx).2
  · intro s
    rw [← extends_ofChars_iff, ← h.mem_iff]
    constructor
    · intro hs
      rw [← hnames]
      exact List.mem_map_of_mem hs
    · intro hm
      have hs := hback _ hm
      have he : added (Text.ofChars w) (Text.ofChars (w ++ s)) = s :=
        List.append_cancel_left (Text.ofChars_injective hs)
      exact List.mem_map.mpr ⟨_, hm, he⟩

theorem complete_eq {pos : Int} (h₀ : 0 ≤ pos) (h : pos ≤ line.length) :
    complete store frame line pos = .ok (atEnd store frame (line.take pos.toNat)) := by
  rw [complete, if_neg (by omega), if_neg (by omega)]

theorem atEnd_eq (h : Completion.word line ≠ []) :
    atEnd store frame line =
      ((extending (Text.ofChars (Completion.word line)) (candidates store frame)).map
        (added (Text.ofChars (Completion.word line))), (Completion.word line).length) := by
  have hn : ¬ (Completion.word line).isEmpty = true := by simpa using h
  rw [atEnd, if_neg hn, filterMap_suffix?]

/-- The completions of the word before a position. They come from names in order, where a special
form and a visible variable of one name both count. If none of the variables has the name of a
special form or bytes that are no characters, what completes the word is offered exactly. In a
well-formed store the visible names are those that have a value. -/
theorem complete_word (store : Store) (frame : Nat) {line : List Char} {pos : Int} (h₀ : 0 ≤ pos)
    (h : pos ≤ line.length) :
    ∃ w offers, EndsWith (line.take pos.toNat) w ∧
      complete store frame line pos = .ok (offers, w.length) ∧
      (w = [] → offers = []) ∧
      (w ≠ [] →
        (∃ names, Merges store frame (Text.ofChars w) names ∧
          offers = names.map (added (Text.ofChars w))) ∧
        ((∀ name ∈ store.visibleNames frame, Extends (Text.ofChars w) name →
            name.WellFormed ∧ name ∉ SpecialForm.names) →
          Exact store frame w offers)) ∧
      (store.WellFormed → ∀ name, name ∈ store.visibleNames frame ↔
        ∃ v, store.get frame name = .ok v) := by
  have hw := endsWith_word (line.take pos.toNat)
  have hv : store.WellFormed → ∀ name, name ∈ store.visibleNames frame ↔
      ∃ v, store.get frame name = .ok v := fun hs _ => Store.mem_visibleNames_iff hs
  rw [complete_eq h₀ h]
  by_cases he : Completion.word (line.take pos.toNat) = []
  · refine ⟨_, [], hw, ?_, fun _ => rfl, fun hn => absurd he hn, hv⟩
    rw [atEnd, he]
    rfl
  · rw [atEnd_eq he]
    have hm := merges_candidates store frame (Text.ofChars (Completion.word (line.take pos.toNat)))
    exact ⟨_, _, hw, rfl, fun hn => absurd hn he, fun _ => ⟨⟨_, hm, rfl⟩, hm.exact⟩,
      hv⟩

/-- The candidates are the one list in order that has all of them. -/
theorem candidates_eq {names : List Text} (hs : names.Pairwise (· ≤ ·))
    (hp : names.Perm (SpecialForm.names ++ store.visibleNames frame)) :
    candidates store frame = names := by
  have hperm := (List.mergeSort_perm (SpecialForm.names ++ store.visibleNames frame)
    fun a b => decide (a ≤ b)).trans hp.symm
  exact hperm.eq_of_pairwise (fun _ _ _ _ h₁ h₂ => List.le_antisymm h₁ h₂) pairwise_candidates hs

/-- Three variables, two of which begin with the third. -/
def greek : Store :=
  { frames := #[((Frame.empty none).define (.ofString "λy") (.number 1)).define
        (.ofString "λ") (.number 2),
      (Frame.empty (some 0)).define (.ofString "λx") (.number 3)]
    nextId := 0 }

theorem complete_word_greek :
    complete greek 1 ['(', 'λ', ')'] 2 = .ok ([['x'], ['y']], 1) ∧
    Exact greek 1 ['λ'] [['x'], ['y']] := by
  have hv : greek.visibleNames 1 = [.ofString "λx", .ofString "λy", .ofString "λ"] := by
    with_unfolding_all rfl
  have hn : candidates greek 1 = [.ofString "define", .ofString "if", .ofString "lambda",
      .ofString "load", .ofString "quote", .ofString "set!", .ofString "λ", .ofString "λx",
      .ofString "λy"] := by
    apply candidates_eq
    · decide +kernel
    · rw [hv]
      decide +kernel
  have he : complete greek 1 ['(', 'λ', ')'] 2 = .ok ([['x'], ['y']], 1) := by
    rw [complete_eq (by omega) (by decide), atEnd, hn]
    decide +kernel
  have hp : (2 : Int) ≤ ['(', 'λ', ')'].length := by decide
  obtain ⟨w, offers, hw, hc, -, hx, -⟩ := complete_word greek 1 (by omega) hp
  have hword : w = ['λ'] := hw.eq_word
  subst hword
  rw [he] at hc
  cases hc
  refine ⟨he, (hx (by simp)).2 fun name hm _ => ?_⟩
  simp only [hv, List.mem_cons, List.not_mem_nil, or_false] at hm
  rcases hm with rfl | rfl | rfl <;> exact ⟨⟨_, rfl⟩, by decide +kernel⟩

/-- A variable with the name of a special form. -/
def conditionalVariable : Store :=
  { frames := #[(Frame.empty none).define SpecialForm.conditional.name (.number 1)], nextId := 0 }

theorem not_exact_conditional :
    EndsWith ['(', 'i'] ['i'] ∧
    complete conditionalVariable 0 ['(', 'i'] 2 = .ok ([['f'], ['f']], 1) ∧
    ¬ Exact conditionalVariable 0 ['i'] [['f'], ['f']] := by
  refine ⟨endsWith_word ['(', 'i'], ?_, fun h => ?_⟩
  · have hv : conditionalVariable.visibleNames 0 = [.ofString "if"] := by
      with_unfolding_all rfl
    have hn : candidates conditionalVariable 0 = [.ofString "define", .ofString "if",
        .ofString "if", .ofString "lambda", .ofString "load", .ofString "quote",
        .ofString "set!"] := by
      apply candidates_eq
      · decide +kernel
      · rw [hv]
        decide +kernel
    rw [complete_eq (by omega) (by decide), atEnd, hn]
    decide +kernel
  · have hn := h.nodup
    simp at hn

end Completion

end SmallScheme
