import SmallScheme.Proofs.Environment.Scope

/-!
# The frame of a call

A call of a closure binds the arguments in a new frame, one parameter after another, so a parameter
that is repeated holds the argument at its last place, and a rest parameter hides a parameter of the
same name. `Formals.Binds` says what a name is bound to without the order of these definitions, and
`Frame.HoldsArguments` that a frame binds just that.
-/

namespace SmallScheme

set_option autoImplicit false

namespace Formals

/-- The numbers of arguments that formals do not take: without a rest parameter every number but
that of the parameters, with one the numbers below that. -/
def Refuses (formals : Formals) (n : Nat) : Prop :=
  formals.rest = none ∧ n ≠ formals.params.length ∨
    formals.rest ≠ none ∧ n < formals.params.length

/-- What a name is bound to in a call: the rest parameter to the list of the arguments behind those
of the parameters, any other parameter to the argument at its last place. -/
inductive Binds (formals : Formals) (args : List Value) (name : Text) : Value → Prop where
  | rest (h : formals.rest = some name) :
    Binds formals args name (.list (args.drop formals.params.length))
  | param {before after : List Text} {v : Value} (hr : formals.rest ≠ some name)
    (hp : formals.params = before ++ name :: after) (hl : name ∉ after)
    (ha : args[before.length]? = some v) : Binds formals args name v

theorem length_le_of_not_refuses {formals : Formals} {n : Nat} (h : ¬ formals.Refuses n) :
    formals.params.length ≤ n := by
  simp only [Refuses, not_or, not_and, not_not, Nat.not_lt] at h
  by_cases hr : formals.rest = none
  · exact (h.1 hr).ge
  · exact h.2 hr

end Formals

namespace Frame

/-- A frame made for a call: it extends the captured frame and binds the names of the formals, each
once, in the order in which they first occur, and nothing else. -/
structure HoldsArguments (f : Frame) (captured : Nat) (formals : Formals) (args : List Value) :
    Prop where
  parent : f.parent = some captured
  find?_eq_some_iff : ∀ name v, f.find? name = some v ↔ formals.Binds args name v
  names : f.names = (formals.params ++ formals.rest.toList).eraseDups

/-- Defines names one after another. -/
def defineAll (f : Frame) (bs : List (Text × Value)) : Frame :=
  bs.foldl (fun f b => f.define b.1 b.2) f

variable {f : Frame} {bs : List (Text × Value)} {name : Text} {v : Value} {params : List Text}
  {args : List Value}

theorem parent_defineAll (f : Frame) (bs : List (Text × Value)) :
    (f.defineAll bs).parent = f.parent := by
  induction bs generalizing f with
  | nil => rfl
  | cons b bs ih => exact (ih (f.define b.1 b.2)).trans (f.parent_define b.1 b.2)

/-- The last definition of a name decides. -/
theorem find?_defineAll (f : Frame) (bs : List (Text × Value)) (name : Text) :
    (f.defineAll bs).find? name = (bs.reverse.lookup name).or (f.find? name) := by
  induction bs generalizing f with
  | nil => rfl
  | cons b bs ih =>
    have hone : List.lookup name [b] = if name = b.1 then some b.2 else none := by
      rw [List.lookup_cons, List.lookup_nil]
      by_cases hb : name = b.1
      · simp [hb]
      · rw [beq_false_of_ne hb, if_neg hb]
    calc ((f.define b.1 b.2).defineAll bs).find? name
      _ = (bs.reverse.lookup name).or ((f.define b.1 b.2).find? name) := ih _
      _ = (bs.reverse.lookup name).or ((List.lookup name [b]).or (f.find? name)) := by
          rw [find?_define, hone]
          split <;> rfl
      _ = ((b :: bs).reverse.lookup name).or (f.find? name) := by
          rw [List.reverse_cons, List.lookup_append, Option.or_assoc]

theorem consistent_defineAll (h : f.Consistent) (bs : List (Text × Value)) :
    (f.defineAll bs).Consistent := by
  induction bs generalizing f with
  | nil => exact h
  | cons b bs ih => exact ih (h.define b.1 b.2)

theorem names_define_of_eraseDups {names : List Text} (hc : f.Consistent)
    (h : f.names = names.eraseDups) (name : Text) (v : Value) :
    (f.define name v).names = (names ++ [name]).eraseDups := by
  have hb : f.binds name = true ↔ name ∈ names := by
    rw [← hc.mem_names_iff, h, List.mem_eraseDups]
  rw [names_define, h, List.eraseDups_append]
  by_cases hn : name ∈ names
  · simp [List.cons_removeAll, hn, hb.mpr hn]
  · simp [List.cons_removeAll, hn, mt hb.mp hn, List.eraseDups_cons]

/-- Names stand in the order of their first definition. -/
theorem names_defineAll {names : List Text} (hc : f.Consistent) (h : f.names = names.eraseDups) :
    (f.defineAll bs).names = (names ++ bs.map Prod.fst).eraseDups := by
  induction bs generalizing f names with
  | nil => rw [List.map_nil, List.append_nil]; exact h
  | cons b bs ih =>
    rw [List.map_cons, List.append_cons]
    exact ih (hc.define b.1 b.2) (names_define_of_eraseDups hc h b.1 b.2)

/-- Positional arguments: the last place of a name among the parameters decides. -/
theorem lookup_reverse_zip (h : params.length ≤ args.length) :
    (params.zip args).reverse.lookup name = some v ↔
      ∃ before after, params = before ++ name :: after ∧ name ∉ after ∧
        args[before.length]? = some v := by
  -- In the reversed list the later places stand in front.
  rw [List.lookup_eq_some_iff]
  constructor
  · rintro ⟨late, early, hz, hl⟩
    have hz : params.zip args = early.reverse ++ (name, v) :: late.reverse := by
      rw [← List.reverse_reverse (params.zip args), hz]
      simp
    have hat : (params.zip args)[early.length]? = some (name, v) := by simp [hz]
    refine ⟨early.reverse.map Prod.fst, late.reverse.map Prod.fst, ?_, ?_, ?_⟩
    · rw [← List.map_fst_zip h, hz, List.map_append, List.map_cons]
    · intro hm
      obtain ⟨b, hb, rfl⟩ := List.mem_map.mp hm
      exact bne_iff_ne.mp (hl b (List.mem_reverse.mp hb)) rfl
    · simpa using (List.getElem?_zip_eq_some.mp hat).2
  · rintro ⟨before, after, rfl, hn, hv⟩
    obtain ⟨hlt, hv⟩ := List.getElem?_eq_some_iff.mp hv
    have ha : args = args.take before.length ++ v :: args.drop (before.length + 1) := by
      rw [← hv, List.getElem_cons_drop, List.take_append_drop]
    have hz : (before ++ name :: after).zip args =
        before.zip (args.take before.length) ++
          (name, v) :: after.zip (args.drop (before.length + 1)) := by
      rw [ha, List.zip_append (by simp; omega), List.zip_cons_cons, ← ha]
    refine ⟨(after.zip (args.drop (before.length + 1))).reverse,
      (before.zip (args.take before.length)).reverse, by simp [hz], ?_⟩
    rintro ⟨n, u⟩ hb
    have hm : n ∈ after := (List.of_mem_zip (List.mem_reverse.mp hb)).1
    exact bne_iff_ne.mpr fun he => hn (he ▸ hm)

theorem ofArguments_eq (captured : Nat) (formals : Formals) (args : List Value) :
    ofArguments captured formals args =
      ((empty (some captured)).defineAll (formals.params.zip args)).defineAll
        (formals.rest.toList.map fun name =>
          (name, .list (args.drop formals.params.length))) := by
  unfold ofArguments
  cases formals.rest <;> rfl

theorem holdsArguments_ofArguments {formals : Formals} (captured : Nat)
    (h : formals.params.length ≤ args.length) :
    (ofArguments captured formals args).HoldsArguments captured formals args where
  parent := by rw [ofArguments_eq, parent_defineAll, parent_defineAll]; rfl
  find?_eq_some_iff name v := by
    have hfixed : ((empty (some captured)).defineAll (formals.params.zip args)).find? name =
        (formals.params.zip args).reverse.lookup name := by
      rw [find?_defineAll]
      exact Option.or_none
    rw [ofArguments_eq, find?_defineAll, hfixed]
    by_cases hr : formals.rest = some name
    · constructor
      · intro hv
        simp [hr] at hv
        exact hv ▸ .rest hr
      · rintro (hr' | ⟨hr', -, -, -⟩)
        · simp [hr]
        · exact absurd hr hr'
    · have hnone : List.lookup name (formals.rest.toList.map fun name =>
          (name, Value.list (args.drop formals.params.length))).reverse = none := by
        cases hrest : formals.rest with
        | none => rfl
        | some rest =>
          have hne : name ≠ rest := fun he => hr (by rw [hrest, he])
          simp [List.lookup_cons, beq_false_of_ne hne]
      rw [hnone, Option.none_or, lookup_reverse_zip h]
      constructor
      · rintro ⟨before, after, hp, hl, ha⟩
        exact .param hr hp hl ha
      · rintro (hr' | ⟨-, hp, hl, ha⟩)
        · exact absurd hr' hr
        · exact ⟨_, _, hp, hl, ha⟩
  names := by
    have hc := consistent_empty (some captured)
    have hfixed : ((empty (some captured)).defineAll (formals.params.zip args)).names =
        formals.params.eraseDups := by
      have hn : ((empty (some captured)).defineAll (formals.params.zip args)).names =
          ([] ++ (formals.params.zip args).map Prod.fst).eraseDups := names_defineAll hc rfl
      rwa [List.map_fst_zip h, List.nil_append] at hn
    rw [ofArguments_eq, names_defineAll (consistent_defineAll hc _) hfixed]
    cases formals.rest <;> rfl

end Frame

end SmallScheme
