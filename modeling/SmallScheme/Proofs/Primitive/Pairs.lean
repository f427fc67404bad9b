import SmallScheme.Proofs.Environment.Scope

/-!
# Pairs

A pair is a list, or a dotted list with one initial element or with more; `Value.IsPair` names its
two parts in each of these forms. A dotted list without initial elements is no pair, yet extending
it makes one, whose rest is its last element and not the dotted list itself. A value is
`Value.Normal` where no dotted list in it lacks initial elements or ends in a list of either form.
Taking pairs apart and putting them together keeps values normal, and a normal pair is determined by
its parts.
-/

namespace SmallScheme

set_option autoImplicit false

namespace Value

/-- A pair with its first element and what remains without it. -/
inductive IsPair : Value → Value → Value → Prop where
  | list {h : Value} {vs : List Value} : IsPair (.list (h :: vs)) h (.list vs)
  | single {h last : Value} : IsPair (.dotted [h] last) h last
  | more {h v last : Value} {vs : List Value} :
      IsPair (.dotted (h :: v :: vs) last) h (.dotted (v :: vs) last)

/-- A value occurs in another if it is that value or occurs in one of its parts. The body of a
closure counts as a part where `bodies` holds. -/
inductive Occurs (bodies : Prop) (u : Value) : Value → Prop where
  | self : Occurs bodies u u
  | item {v : Value} {vs : List Value} : v ∈ vs → Occurs bodies u v → Occurs bodies u (.list vs)
  | initial {v last : Value} {vs : List Value} :
      v ∈ vs → Occurs bodies u v → Occurs bodies u (.dotted vs last)
  | last {last : Value} {vs : List Value} :
      Occurs bodies u last → Occurs bodies u (.dotted vs last)
  | body {id k : Nat} {formals : Formals} {body : Value} :
      bodies → Occurs bodies u body → Occurs bodies u (.closure id formals body k)

/-- Every dotted list in a value has an initial element and ends in what is neither a list nor a
dotted list. -/
def Normal (bodies : Prop) (v : Value) : Prop :=
  ∀ vs last, Occurs bodies (.dotted vs last) v →
    vs ≠ [] ∧ last.kind ≠ .list ∧ last.kind ≠ .dottedList

section Normal

variable {bodies : Prop} {v h t p : Value} {vs : List Value}

@[simp] theorem normal_number (n : Int64) : Normal bodies (.number n) := nofun

@[simp] theorem normal_atom (name : Text) : Normal bodies (.atom name) := nofun

@[simp] theorem normal_list : Normal bodies (.list vs) ↔ ∀ v ∈ vs, Normal bodies v := by
  constructor
  · intro hn v hv us last ho
    exact hn us last (.item hv ho)
  · rintro hn us last (_ | ⟨hv, ho⟩)
    exact hn _ hv us last ho

@[simp] theorem normal_dotted {last : Value} :
    Normal bodies (.dotted vs last) ↔
      (vs ≠ [] ∧ last.kind ≠ .list ∧ last.kind ≠ .dottedList) ∧
        (∀ v ∈ vs, Normal bodies v) ∧ Normal bodies last := by
  constructor
  · intro hn
    exact ⟨hn vs last .self, fun v hv us u ho => hn us u (.initial hv ho),
      fun us u ho => hn us u (.last ho)⟩
  · rintro ⟨hs, hvs, hl⟩ us u (_ | _ | ⟨hv, ho⟩ | ho)
    · exact hs
    · exact hvs _ hv us u ho
    · exact hl us u ho

@[simp] theorem normal_closure {id k : Nat} {formals : Formals} {body : Value} :
    Normal bodies (.closure id formals body k) ↔ (bodies → Normal bodies body) := by
  constructor
  · intro hn hb us last ho
    exact hn us last (.body hb ho)
  · rintro hn us last (_ | _ | _ | _ | ⟨hb, ho⟩)
    exact hn hb us last ho

/-- Both parts of a normal pair are normal. -/
theorem IsPair.normal (hp : IsPair p h t) (hn : Normal bodies p) :
    Normal bodies h ∧ Normal bodies t := by
  cases hp with
  | list =>
    rw [normal_list, List.forall_mem_cons] at hn
    exact ⟨hn.1, normal_list.mpr hn.2⟩
  | single =>
    obtain ⟨-, hvs, hl⟩ := normal_dotted.mp hn
    exact ⟨hvs _ List.mem_cons_self, hl⟩
  | more =>
    obtain ⟨⟨-, hk⟩, hvs, hl⟩ := normal_dotted.mp hn
    rw [List.forall_mem_cons] at hvs
    exact ⟨hvs.1, normal_dotted.mpr ⟨⟨List.cons_ne_nil _ _, hk⟩, hvs.2, hl⟩⟩

end Normal

theorem IsPair.unique {p h t h' t' : Value} (hp : IsPair p h t) (hp' : IsPair p h' t') :
    h = h' ∧ t = t' := by
  cases hp <;> cases hp' <;> exact ⟨rfl, rfl⟩

end Value

namespace Primitive

open Value

variable {bodies : Prop} {caller : Nat} {p h t v : Value} {args : List Value}

/-- `car` takes the first part of a pair, and nothing else. -/
theorem car_eq_ok_iff :
    car.effect caller args = .result (.ok h) ↔ ∃ p t, args = [p] ∧ IsPair p h t := by
  simp only [effect, Effect.result.injEq]
  constructor
  · intro he
    unfold first at he
    split at he
    · cases he
      exact ⟨_, _, rfl, .list⟩
    · rename_i u us last
      cases he
      cases us with
      | nil => exact ⟨_, _, rfl, .single⟩
      | cons => exact ⟨_, _, rfl, .more⟩
    · cases he
    · cases he
  · rintro ⟨p, t, rfl, hp⟩
    cases hp <;> rfl

/-- `cdr` takes the second part of a pair, and nothing else. -/
theorem cdr_eq_ok_iff :
    cdr.effect caller args = .result (.ok t) ↔ ∃ p h, args = [p] ∧ IsPair p h t := by
  simp only [effect, Effect.result.injEq]
  constructor
  · intro he
    unfold remainder at he
    split at he
    · cases he
      exact ⟨_, _, rfl, .list⟩
    · cases he
      exact ⟨_, _, rfl, .single⟩
    · cases he
      exact ⟨_, _, rfl, .more⟩
    · cases he
    · cases he
  · rintro ⟨p, h, rfl, hp⟩
    cases hp <;> rfl

/-- `cons` takes any two values. -/
theorem cons_eq_ok_iff :
    cons.effect caller args = .result (.ok p) ↔ ∃ h t, args = [h, t] ∧ p = pair h t := by
  simp only [effect, Effect.result.injEq]
  constructor
  · intro he
    unfold binary at he
    split at he
    · cases he
      exact ⟨_, _, rfl, rfl⟩
    · cases he
  · rintro ⟨h, t, rfl, rfl⟩
    rfl

theorem car_of_isPair (hp : IsPair p h t) : car.effect caller [p] = .result (.ok h) :=
  car_eq_ok_iff.mpr ⟨p, t, rfl, hp⟩

theorem cdr_of_isPair (hp : IsPair p h t) : cdr.effect caller [p] = .result (.ok t) :=
  cdr_eq_ok_iff.mpr ⟨p, h, rfl, hp⟩

theorem cons_pair (caller : Nat) (h t : Value) :
    cons.effect caller [h, t] = .result (.ok (pair h t)) := rfl

theorem exists_isPair_of_car (he : car.effect caller [p] = .result (.ok h)) :
    ∃ t, IsPair p h t := by
  obtain ⟨q, t, hq, hp⟩ := car_eq_ok_iff.mp he
  cases hq
  exact ⟨t, hp⟩

/-- A value behind another is the second part of a pair, unless it is a dotted list without initial
elements. -/
theorem isPair_pair (h : Value) (ht : ∀ last, t ≠ .dotted [] last) : IsPair (pair h t) h t := by
  unfold pair
  split
  · exact .list
  · rename_i us last
    cases us with
    | nil => exact absurd rfl (ht last)
    | cons => exact .more
  · exact .single

/-- Behind another value, a dotted list without initial elements leaves its last element only. -/
theorem isPair_pair_dotted_nil (h last : Value) : IsPair (pair h (.dotted [] last)) h last :=
  .single

theorem normal_pair (hh : Normal bodies h) (ht : Normal bodies t) : Normal bodies (pair h t) := by
  unfold pair
  split
  · rw [normal_list] at ht ⊢
    exact List.forall_mem_cons.mpr ⟨hh, ht⟩
  · obtain ⟨⟨-, hk⟩, hvs, hl⟩ := normal_dotted.mp ht
    exact normal_dotted.mpr
      ⟨⟨List.cons_ne_nil _ _, hk⟩, List.forall_mem_cons.mpr ⟨hh, hvs⟩, hl⟩
  · rename_i hlist hdotted
    have hk : t.kind ≠ .list ∧ t.kind ≠ .dottedList := by
      cases t with
      | list vs => exact absurd rfl (hlist vs)
      | dotted vs last => exact absurd rfl (hdotted vs last)
      | _ => exact ⟨nofun, nofun⟩
    exact normal_dotted.mpr
      ⟨⟨List.cons_ne_nil _ _, hk⟩, List.forall_mem_cons.mpr ⟨hh, nofun⟩, ht⟩

/-- A normal pair is put together again from its parts. -/
theorem pair_of_isPair (hp : IsPair p h t) (hn : Normal bodies p) : pair h t = p := by
  cases hp with
  | list => rfl
  | more => rfl
  | single =>
    obtain ⟨⟨-, hlist, hdotted⟩, -⟩ := normal_dotted.mp hn
    cases t with
    | list => exact absurd rfl hlist
    | dotted => exact absurd rfl hdotted
    | _ => rfl

/-- Any two values make a pair, of which the first is taken back as it was. The second is taken back
unless it is a dotted list without initial elements; then what comes back is its last element. -/
theorem pair_laws (caller : Nat) (h t : Value) :
    ∃ p r, cons.effect caller [h, t] = .result (.ok p) ∧ car.effect caller [p] = .result (.ok h) ∧
      cdr.effect caller [p] = .result (.ok r) ∧
      ((∀ last, t ≠ .dotted [] last) → r.eqv t = true) ∧ ∀ last, t = .dotted [] last → r = last := by
  by_cases ht : ∃ last, t = .dotted [] last
  · obtain ⟨last, rfl⟩ := ht
    have hp := isPair_pair_dotted_nil h last
    refine ⟨_, last, cons_pair caller h _, car_of_isPair hp, cdr_of_isPair hp, ?_, ?_⟩
    · intro hne
      exact absurd rfl (hne last)
    · intro u hu
      cases hu
      rfl
  · have hne : ∀ last, t ≠ .dotted [] last := fun last he => ht ⟨last, he⟩
    have hp := isPair_pair h hne
    refine ⟨_, t, cons_pair caller h t, car_of_isPair hp, cdr_of_isPair hp, ?_, ?_⟩
    · exact fun _ => eqv_self t
    · intro last he
      exact absurd he (hne last)

/-- A second part that ends in a list, and one without initial elements. -/
theorem pair_laws_dotted :
    (∃ p r, (∀ last, Value.dotted [.number 2] (.list []) ≠ .dotted [] last) ∧
      cons.effect World.root [.bool true, .dotted [.number 2] (.list [])] = .result (.ok p) ∧
      cdr.effect World.root [p] = .result (.ok r) ∧ r.eqv (.dotted [.number 2] (.list [])) = true) ∧
    ∃ p, cons.effect World.root [.bool true, .dotted [] (.list [])] = .result (.ok p) ∧
      cdr.effect World.root [p] = .result (.ok (.list [])) := by
  constructor
  · obtain ⟨p, r, hp, -, hr, hsame, -⟩ :=
      pair_laws World.root (.bool true) (.dotted [.number 2] (.list []))
    have ht : ∀ last, Value.dotted [.number 2] (.list []) ≠ .dotted [] last := nofun
    exact ⟨p, r, ht, hp, hr, hsame ht⟩
  · obtain ⟨p, r, hp, -, hr, -, hlast⟩ := pair_laws World.root (.bool true) (.dotted [] (.list []))
    exact ⟨p, hp, hlast _ rfl ▸ hr⟩

/-- The dotted list `(. 5)` behind the number one makes `(1 . 5)`, of which the rest is five. -/
theorem cdr_cons_ne_of_dotted_nil :
    ¬ ∃ p r, cons.effect World.root [.number 1, .dotted [] (.number 5)] = .result (.ok p) ∧
      cdr.effect World.root [p] = .result (.ok r) ∧ r.eqv (.dotted [] (.number 5)) = true := by
  rintro ⟨p, r, hp, hr, he⟩
  cases hp
  cases hr
  revert he
  decide

section Kept

variable (hargs : ∀ u ∈ args, Normal bodies u)
include hargs

theorem normal_of_car (he : car.effect caller args = .result (.ok v)) : Normal bodies v := by
  obtain ⟨p, t, rfl, hp⟩ := car_eq_ok_iff.mp he
  exact (hp.normal (hargs p List.mem_cons_self)).1

theorem normal_of_cdr (he : cdr.effect caller args = .result (.ok v)) : Normal bodies v := by
  obtain ⟨p, h, rfl, hp⟩ := cdr_eq_ok_iff.mp he
  exact (hp.normal (hargs p List.mem_cons_self)).2

theorem normal_of_cons (he : cons.effect caller args = .result (.ok v)) : Normal bodies v := by
  obtain ⟨h, t, rfl, rfl⟩ := cons_eq_ok_iff.mp he
  exact normal_pair (hargs h (by simp)) (hargs t (by simp))

end Kept

/-- A rest parameter holds the list of the arguments behind those of the other parameters. -/
theorem find?_rest (captured : Nat) {formals : Formals} {rest : Text} (args : List Value)
    (hr : formals.rest = some rest) :
    (Frame.ofArguments captured formals args).find? rest =
      some (.list (args.drop formals.params.length)) := by
  simp only [Frame.ofArguments, hr, Frame.find?_define, if_true]

/-- Normal pairs are the same if and only if their parts are. -/
theorem eq_iff_of_isPair {q k u : Value} (hp : IsPair p h t) (hq : IsPair q k u)
    (hn : Normal bodies p) (hn' : Normal bodies q) : p = q ↔ h = k ∧ t = u := by
  constructor
  · rintro rfl
    exact hp.unique hq
  · rintro ⟨rfl, rfl⟩
    rw [← pair_of_isPair hp hn, pair_of_isPair hq hn']

/-- Taking pairs apart and putting them together keeps values normal, and so does collecting the
arguments of a rest parameter. Normal pairs are determined by their parts: a pair is put together
again from them, and two pairs are the same if their parts are. -/
theorem normal_pairs (bodies : Prop) (caller : Nat) :
    (∀ op ∈ [car, cdr, cons], ∀ args v, (∀ u ∈ args, Normal bodies u) →
      effect op caller args = .result (.ok v) → Normal bodies v) ∧
    (∀ (captured : Nat) (formals : Formals) (rest : Text) (args : List Value),
      formals.rest = some rest → (∀ u ∈ args, Normal bodies u) →
      ∃ vs, (Frame.ofArguments captured formals args).find? rest = some (.list vs) ∧
        Normal bodies (.list vs)) ∧
    (∀ p h, Normal bodies p → car.effect caller [p] = .result (.ok h) →
      ∃ t q, cdr.effect caller [p] = .result (.ok t) ∧ cons.effect caller [h, t] = .result (.ok q) ∧
        q.eqv p = true) ∧
    ∀ p q h k, Normal bodies p → Normal bodies q →
      car.effect caller [p] = .result (.ok h) → car.effect caller [q] = .result (.ok k) →
      ∃ t u, cdr.effect caller [p] = .result (.ok t) ∧ cdr.effect caller [q] = .result (.ok u) ∧
        (p.eqv q = true ↔ h.eqv k = true ∧ t.eqv u = true) := by
  refine ⟨?_, ?_, ?_, ?_⟩
  · intro op hop args v hargs he
    simp only [List.mem_cons, List.not_mem_nil, or_false] at hop
    rcases hop with rfl | rfl | rfl
    · exact normal_of_car hargs he
    · exact normal_of_cdr hargs he
    · exact normal_of_cons hargs he
  · intro captured formals rest args hr hargs
    exact ⟨_, find?_rest captured args hr,
      normal_list.mpr fun v hv => hargs v (List.mem_of_mem_drop hv)⟩
  · intro p h hn he
    obtain ⟨t, hp⟩ := exists_isPair_of_car he
    refine ⟨t, _, cdr_of_isPair hp, cons_pair caller h t, ?_⟩
    rw [pair_of_isPair hp hn]
    exact eqv_self p
  · intro p q h k hn hn' he he'
    obtain ⟨t, hp⟩ := exists_isPair_of_car he
    obtain ⟨u, hq⟩ := exists_isPair_of_car he'
    refine ⟨t, u, cdr_of_isPair hp, cdr_of_isPair hq, ?_⟩
    simp only [eqv_iff]
    exact eq_iff_of_isPair hp hq hn hn'

/-- A dotted list that holds lists and ends in a closure. -/
def mixed : Value :=
  .dotted [.list [.number 1], .list []] (.closure 3 ⟨[], none⟩ (.list [.atom (.ofString "x")]) 0)

theorem normal_mixed : Normal True mixed := by
  simp [mixed, Value.kind]

theorem normal_pairs_mixed :
    (∃ t q, cdr.effect World.root [mixed] = .result (.ok t) ∧ Normal True t ∧
      cons.effect World.root [.list [.number 1], t] = .result (.ok q) ∧ q.eqv mixed = true) ∧
    (∃ vs, (Frame.ofArguments 0 ⟨[.ofString "x"], some (.ofString "y")⟩ [.number 1, mixed]).find?
        (.ofString "y") = some (.list vs) ∧ Normal True (.list vs)) ∧
    ∃ t u, cdr.effect World.root [mixed] = .result (.ok t) ∧
      cdr.effect World.root [.list [mixed]] = .result (.ok u) ∧
      (mixed.eqv (.list [mixed]) = true ↔
        (Value.list [.number 1]).eqv mixed = true ∧ t.eqv u = true) := by
  obtain ⟨hkept, hrest, hagain, hparts⟩ := normal_pairs True World.root
  have hm := normal_mixed
  have hlist : Normal True (.list [mixed]) := normal_list.mpr (by simpa using hm)
  refine ⟨?_, ?_, ?_⟩
  · obtain ⟨t, q, ht, hq, hsame⟩ := hagain mixed (.list [.number 1]) hm rfl
    exact ⟨t, q, ht, hkept cdr (by simp) [mixed] t (by simpa using hm) ht, hq, hsame⟩
  · exact hrest 0 _ _ _ rfl (by simpa using hm)
  · exact hparts mixed (.list [mixed]) _ _ hm hlist rfl rfl

end Primitive

end SmallScheme
