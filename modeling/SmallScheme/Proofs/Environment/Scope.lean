import SmallScheme.Proofs.Machine.Operations

/-!
# Scopes of definitions and assignments

From a frame, a name means the binding in the nearest frame outward that has one. So a definition is
seen from the frames that reach its frame before any other binding of the name, and from no others;
an assignment is seen from the frames that find the name where the assignment does. The walk outward
is stated by `Store.Sees`, apart from the search that the store makes; in a well-formed store they
agree (`Store.owner?_eq_some_iff`).
-/

namespace SmallScheme

set_option autoImplicit false

namespace Store

variable {s s' : Store} {e f i j k : Nat} {g : Frame} {name other : Text} {v : Value}

/-- The frame that a frame extends. -/
def parent? (s : Store) (i : Nat) : Option Nat := s.frames[i]?.bind Frame.parent

/-- From a frame, the frame `e` is reached outward before any binding of a name. -/
inductive Sees (s : Store) (name : Text) (e : Nat) : Nat → Prop where
  | here : Sees s name e e
  | outer {f p : Nat} : s.binds f name = false → s.parent? f = some p → Sees s name e p →
      Sees s name e f

/-- The nearest frame outward that binds a name. -/
def Nearest (s : Store) (name : Text) (f j : Nat) : Prop :=
  s.Sees name j f ∧ s.binds j name = true

/-- A search outward looks at the frame first and goes on with the frame that it extends. -/
theorem owner?_of_path (h : s.path f = f :: (s.parent? f).elim [] s.path) (name : Text) :
    s.owner? f name =
      if s.binds f name = true then some f else (s.parent? f).bind (s.owner? · name) := by
  rw [owner?, h, List.find?_cons]
  cases s.binds f name with
  | true => rfl
  | false =>
    cases s.parent? f with
    | none => rfl
    | some p => rfl

theorem find?_of_path (h : s.path f = f :: (s.parent? f).elim [] s.path) (name : Text) :
    s.find? f name =
      if s.binds f name = true then s.frames[f]?.bind (·.find? name)
      else (s.parent? f).bind (s.find? · name) := by
  rw [find?, owner?_of_path h]
  split
  · rfl
  · rw [Option.bind_assoc]
    rfl

section WellFormed

variable (hw : s.WellFormed)
include hw

theorem WellFormed.path_of_allocated (hf : s.Allocated f) :
    s.path f = f :: (s.parent? f).elim [] s.path := by
  have hg := Array.getElem?_eq_getElem hf
  rw [hw.path_eq hg, parent?, hg]
  rfl

theorem WellFormed.parent?_lt {p : Nat} (h : s.parent? f = some p) : p < f := by
  obtain ⟨g, hg, hp⟩ := Option.bind_eq_some_iff.mp h
  exact hw.parent_lt f g p hg hp

/-- The search finds the nearest frame that binds the name. -/
theorem owner?_eq_some_iff (hf : s.Allocated f) :
    s.owner? f name = some j ↔ s.Nearest name f j := by
  constructor
  · intro h
    induction f using Nat.strongRecOn with
    | ind f ih =>
      rw [owner?_of_path (hw.path_of_allocated hf)] at h
      split at h
      · rename_i hb
        obtain rfl := Option.some.inj h
        exact ⟨.here, hb⟩
      · rename_i hb
        obtain ⟨p, hp, ho⟩ := Option.bind_eq_some_iff.mp h
        have hlt := hw.parent?_lt hp
        obtain ⟨hs, hj⟩ := ih p hlt (Nat.lt_trans hlt hf) ho
        exact ⟨.outer (Bool.eq_false_iff.mpr hb) hp hs, hj⟩
  · rintro ⟨hs, hj⟩
    induction hs with
    | here => rw [owner?_of_path (hw.path_of_allocated hf), if_pos hj]
    | @outer f p hb hp _ ih =>
      have hn : ¬ s.binds f name = true := Bool.eq_false_iff.mp hb
      rw [owner?_of_path (hw.path_of_allocated hf), if_neg hn, hp]
      exact ih (Nat.lt_trans (hw.parent?_lt hp) hf)

theorem Nearest.unique (hf : s.Allocated f) (hj : s.Nearest name f j) (hk : s.Nearest name f k) :
    j = k := by
  rw [← owner?_eq_some_iff hw hf] at hj hk
  exact Option.some.inj (hj.symm.trans hk)

end WellFormed

section Define

theorem getElem?_define (s : Store) (e i : Nat) (name : Text) (v : Value) :
    (s.define e name v).frames[i]? =
      s.frames[i]?.map fun g => if e = i then g.define name v else g := by
  rw [define, Array.getElem?_modify]
  split
  · rfl
  · exact Option.map_id_apply.symm

theorem path_define (s : Store) (e i : Nat) (name : Text) (v : Value) :
    (s.define e name v).path i = s.path i := by
  induction i using Nat.strongRecOn with
  | ind i ih =>
    unfold path
    rw [getElem?_define]
    cases s.frames[i]? with
    | none => rfl
    | some g =>
      have hp : (if e = i then g.define name v else g).parent = g.parent := by
        split
        · exact g.parent_define name v
        · rfl
      simp only [Option.map_some, hp]
      cases g.parent with
      | none => rfl
      | some p =>
        dsimp only
        split
        · rename_i hlt
          rw [ih p hlt]
        · rfl

theorem parent?_define (s : Store) (e i : Nat) (name : Text) (v : Value) :
    (s.define e name v).parent? i = s.parent? i := by
  rw [parent?, getElem?_define, parent?]
  cases s.frames[i]? with
  | none => rfl
  | some g =>
    simp only [Option.map_some, Option.bind_some]
    split
    · exact g.parent_define name v
    · rfl

/-- A definition concerns one name in one frame. -/
theorem lookup_define_of_ne (h : ¬ (i = e ∧ other = name)) :
    (s.define e name v).frames[i]?.bind (·.find? other) = s.frames[i]?.bind (·.find? other) := by
  rw [getElem?_define]
  cases s.frames[i]? with
  | none => rfl
  | some g =>
    simp only [Option.map_some, Option.bind_some]
    split
    · rename_i he
      have ho : other ≠ name := fun ho => h ⟨he.symm, ho⟩
      rw [Frame.find?_define, if_neg ho]
    · rfl

theorem lookup_define_self (he : s.Allocated e) :
    (s.define e name v).frames[e]?.bind (·.find? name) = some v := by
  rw [getElem?_define, Array.getElem?_eq_getElem he]
  simp [Frame.find?_define]

theorem binds_eq (s : Store) (i : Nat) (name : Text) :
    s.binds i name = (s.frames[i]?.bind (·.find? name)).isSome := by
  rw [binds]
  cases s.frames[i]? <;> rfl

theorem binds_define_of_ne (h : ¬ (i = e ∧ other = name)) :
    (s.define e name v).binds i other = s.binds i other := by
  rw [binds_eq, lookup_define_of_ne h, binds_eq]

theorem binds_define_self (he : s.Allocated e) : (s.define e name v).binds e name = true := by
  rw [binds_eq, lookup_define_self he]
  rfl

theorem names_allocate (g : Frame) (hi : s.Allocated i) :
    (s.allocate g).2.names i = s.names i := by
  rw [names, names, allocate, Array.getElem?_push, if_neg (Nat.ne_of_lt hi)]

theorem names_eq (hg : s.frames[i]? = some g) : s.names i = g.names := by
  rw [names, hg]
  rfl

theorem mem_names_iff (hw : s.WellFormed) (i : Nat) (name : Text) :
    name ∈ s.names i ↔ s.binds i name = true := by
  rw [names, binds]
  cases hg : s.frames[i]? with
  | none => simp
  | some g => exact (hw.consistent i g hg).mem_names_iff name

/-- Names are kept in the order of first definition. -/
theorem names_define (hw : s.WellFormed) (he : s.Allocated e) (i : Nat) (name : Text) (v : Value) :
    (s.define e name v).names i =
      if i = e ∧ name ∉ s.names e then s.names e ++ [name] else s.names i := by
  by_cases hi : i = e
  · subst hi
    have hg := Array.getElem?_eq_getElem he
    have hd := s.getElem?_define i i name v
    rw [hg, Option.map_some, if_pos rfl] at hd
    have hm := mem_names_iff hw i name
    rw [binds_of_getElem? hg] at hm
    rw [names_eq hd, names_eq hg, Frame.names_define]
    rw [names_eq hg] at hm
    by_cases hb : s.frames[i].binds name = true
    · simp [hb, hm.mpr hb]
    · simp [hb, mt hm.mp hb]
  · have hn : ¬ (i = e ∧ name ∉ s.names e) := fun h => hi h.1
    have he : ¬ e = i := fun h => hi h.symm
    rw [if_neg hn, names, names, getElem?_define]
    simp only [he, if_false, Option.map_id']

end Define

section Assign

theorem getElem?_assign (s : Store) (e i : Nat) (name : Text) (v : Value) :
    (s.assign e name v).frames[i]? =
      s.frames[i]?.map fun g => if e = i then g.assign name v else g := by
  rw [assign, Array.getElem?_modify]
  split
  · rfl
  · exact Option.map_id_apply.symm

theorem names_assign (s : Store) (e i : Nat) (name : Text) (v : Value) :
    (s.assign e name v).names i = s.names i := by
  rw [names, getElem?_assign, names]
  cases s.frames[i]? with
  | none => rfl
  | some g =>
    simp only [Option.map_some]
    split <;> rfl

/-- Two stores with the same frames, save for the names that these list. -/
def SameScopes (s s' : Store) : Prop :=
  ∀ i : Nat, s.frames[i]?.map (fun g : Frame => (g.parent, g.scope)) =
    s'.frames[i]?.map fun g : Frame => (g.parent, g.scope)

theorem SameScopes.frame_cases (h : s.SameScopes s') (i : Nat) :
    s.frames[i]? = none ∧ s'.frames[i]? = none ∨
      ∃ g g', s.frames[i]? = some g ∧ s'.frames[i]? = some g' ∧ g'.parent = g.parent ∧
        g'.scope = g.scope := by
  have hi := h i
  cases hg : s.frames[i]? with
  | none =>
    rw [hg] at hi
    exact .inl ⟨rfl, Option.map_eq_none_iff.mp hi.symm⟩
  | some g =>
    rw [hg] at hi
    obtain ⟨g', hg', he⟩ := Option.map_eq_some_iff.mp hi.symm
    exact .inr ⟨g, g', rfl, hg', (Prod.mk.inj he).1, (Prod.mk.inj he).2⟩

theorem SameScopes.path_eq (h : s.SameScopes s') (i : Nat) : s'.path i = s.path i := by
  induction i using Nat.strongRecOn with
  | ind i ih =>
    rw [path, path]
    rcases h.frame_cases i with ⟨hg, hg'⟩ | ⟨g, g', hg, hg', hp, -⟩
    · rw [hg, hg']
    · rw [hg, hg']
      dsimp only
      rw [hp]
      cases g.parent with
      | none => rfl
      | some p =>
        dsimp only
        split
        · rename_i hlt
          rw [ih p hlt]
        · rfl

theorem SameScopes.lookup_eq (h : s.SameScopes s') (i : Nat) (name : Text) :
    s'.frames[i]?.bind (·.find? name) = s.frames[i]?.bind (·.find? name) := by
  rcases h.frame_cases i with ⟨hg, hg'⟩ | ⟨g, g', hg, hg', -, hs⟩
  · rw [hg, hg']
  · rw [hg, hg', Option.bind_some, Option.bind_some, Frame.find?, hs, Frame.find?]

/-- A lookup does not read the names that frames list. -/
theorem SameScopes.get_eq (h : s.SameScopes s') (i : Nat) (name : Text) :
    s'.get i name = s.get i name := by
  have hb : (s'.binds · name) = (s.binds · name) := by
    funext j
    rw [binds_eq, h.lookup_eq, binds_eq]
  simp only [get, find?, owner?, h.path_eq, hb, h.lookup_eq]

/-- In an assignment and in a definition the bindings change alike. -/
theorem sameScopes_assign (s : Store) (e : Nat) (name : Text) (v : Value) :
    (s.define e name v).SameScopes (s.assign e name v) := by
  intro i
  rw [getElem?_assign, getElem?_define, Option.map_map, Option.map_map]
  congr 1
  funext g
  have hs : (g.define name v).scope = (g.assign name v).scope := by
    rw [Frame.define]
    split <;> rfl
  simp only [Function.comp_apply]
  split
  · rw [g.parent_define, hs, g.parent_assign]
  · rfl

end Assign

section Lookup

theorem find?_eq_none_iff (s : Store) (i : Nat) (name : Text) :
    s.find? i name = none ↔ s.owner? i name = none := by
  rw [find?]
  cases ho : s.owner? i name with
  | none => simp
  | some j =>
    have hb := owner?_binds ho
    rw [binds_eq] at hb
    obtain ⟨u, hu⟩ := Option.isSome_iff_exists.mp hb
    simp [hu]

theorem get_eq_error_iff :
    (∃ err, s.get i name = .error err) ↔ s.owner? i name = none := by
  rw [← find?_eq_none_iff, get]
  cases s.find? i name <;> simp

theorem set_eq_error_iff :
    (∃ err, s.set i name v = .error err) ↔ s.owner? i name = none := by
  rw [set]
  cases s.owner? i name <;> simp

theorem exists_of_set (h : s.set i name v = .ok s') :
    ∃ j, s.owner? i name = some j ∧ s' = s.assign j name v := by
  rw [set] at h
  cases ho : s.owner? i name with
  | none =>
    rw [ho] at h
    cases h
  | some j =>
    rw [ho] at h
    exact ⟨j, rfl, (Except.ok.inj h).symm⟩

end Lookup

section Scope

variable (hw : s.WellFormed) (hf : s.Allocated f)
include hw hf

theorem find?_define (e : Nat) (name other : Text) (v : Value) :
    (s.define e name v).find? f other =
      if (s.define e name v).binds f other = true then
        (s.define e name v).frames[f]?.bind (·.find? other)
      else (s.parent? f).bind ((s.define e name v).find? · other) := by
  have hpath : (s.define e name v).path f =
      f :: ((s.define e name v).parent? f).elim [] (s.define e name v).path := by
    have hp : (s.define e name v).path = s.path := funext fun i => s.path_define e i name v
    rw [hp, parent?_define, hw.path_of_allocated hf]
  rw [find?_of_path hpath, parent?_define]

/-- Elsewhere a definition changes nothing. -/
theorem get_define_of_not_sees (h : ¬ (other = name ∧ s.Sees name e f)) :
    (s.define e name v).get f other = s.get f other := by
  have hfind : (s.define e name v).find? f other = s.find? f other := by
    induction f using Nat.strongRecOn with
    | ind f ih =>
      have hne : ¬ (f = e ∧ other = name) := by
        rintro ⟨rfl, ho⟩
        exact h ⟨ho, .here⟩
      rw [find?_define hw hf, find?_of_path (hw.path_of_allocated hf), binds_define_of_ne hne,
        lookup_define_of_ne hne]
      split
      · rfl
      · rename_i hb
        cases hp : s.parent? f with
        | none => rfl
        | some p =>
          have hlt := hw.parent?_lt hp
          refine ih p hlt (Nat.lt_trans hlt hf) ?_
          rintro ⟨rfl, hs⟩
          exact h ⟨rfl, .outer (Bool.eq_false_iff.mpr hb) hp hs⟩
  rw [get, hfind, get]

/-- A definition is seen where its frame is reached before any binding of the name. -/
theorem get_define_of_sees (he : s.Allocated e) (h : s.Sees name e f) :
    (s.define e name v).get f name = .ok v := by
  have hself : (s.define e name v).find? e name = some v := by
    rw [find?_define hw he, binds_define_self he, if_pos rfl, lookup_define_self he]
  have hfind : (s.define e name v).find? f name = some v := by
    induction h with
    | here => exact hself
    | @outer f p hb hp _ ih =>
      by_cases hfe : f = e
      · rw [hfe, hself]
      · have hne : ¬ (f = e ∧ name = name) := fun h => hfe h.1
        rw [find?_define hw hf, binds_define_of_ne hne, hb, hp]
        exact ih (Nat.lt_trans (hw.parent?_lt hp) hf)
  rw [get, hfind]

end Scope

/-- A frame whose nearest binding is the one that another frame has for its nearest reaches it
before any other. -/
theorem exists_nearest_iff_sees (hw : s.WellFormed) (he : s.Allocated e) (h : s.Nearest name e j) :
    (∃ k, s.Nearest name f k ∧ s.Nearest name e k) ↔ s.Sees name j f := by
  constructor
  · rintro ⟨k, hk, hk'⟩
    rw [Nearest.unique hw he h hk']
    exact hk.1
  · intro hs
    exact ⟨j, ⟨hs, h.2⟩, h⟩

/-- The laws of access to a well-formed store. An assignment fails where a lookup does, and then
changes nothing; otherwise it is seen from the frames for which the same frame is the nearest that
binds the name. A definition is seen from the frames that reach its frame before any other binding.
All other lookups stay as they were, and so do the names of all frames, save that a definition lists
a name that is new to its frame. -/
theorem scope_laws (hw : s.WellFormed) (he : s.Allocated e) (hf : s.Allocated f) (n m : Text)
    (v : Value) :
    ((∃ err, s.set e n v = .error err) ↔ ∃ err, s.get e n = .error err) ∧
    (∀ err, s.set e n v = .error err → ∀ files fuel (w : World), w.store = s →
      (Operation.set e n v).perform files fuel w = some (.result (.error err), w)) ∧
    (∀ s', s.set e n v = .ok s' →
      ((m = n ∧ ∃ j, s.Nearest n f j ∧ s.Nearest n e j) → s'.get f m = .ok v) ∧
      (¬ (m = n ∧ ∃ j, s.Nearest n f j ∧ s.Nearest n e j) → s'.get f m = s.get f m) ∧
      ∀ i, s'.names i = s.names i) ∧
    ((m = n ∧ s.Sees n e f) → (s.define e n v).get f m = .ok v) ∧
    (¬ (m = n ∧ s.Sees n e f) → (s.define e n v).get f m = s.get f m) ∧
    (∀ i, (s.define e n v).names i =
      if i = e ∧ n ∉ s.names e then s.names e ++ [n] else s.names i) ∧
    ∀ g i, s.Allocated i → (s.allocate g).2.names i = s.names i := by
  refine ⟨set_eq_error_iff.trans get_eq_error_iff.symm, ?_, ?_, ?_, ?_, ?_, ?_⟩
  · rintro err h files fuel w rfl
    simp only [Operation.perform, h]
  · intro s' h
    -- to a lookup, an assignment is a definition in the frame that binds the name already
    obtain ⟨j, ho, rfl⟩ := exists_of_set h
    have hj := (owner?_eq_some_iff hw he).mp ho
    have ha : s.Allocated j := hw.closed.owner? he ho
    rw [exists_nearest_iff_sees hw he hj, (s.sameScopes_assign j n v).get_eq]
    refine ⟨?_, get_define_of_not_sees hw hf, fun i => s.names_assign j i n v⟩
    rintro ⟨rfl, hs⟩
    exact get_define_of_sees hw hf ha hs
  · rintro ⟨rfl, hs⟩
    exact get_define_of_sees hw hf he hs
  · exact get_define_of_not_sees hw hf
  · exact fun i => names_define hw he i n v
  · exact fun g i hi => names_allocate g hi

/-- Two branches behind one frame, of which the first binds the name of that frame anew. -/
def forked : Store where
  frames := #[(Frame.empty none).define (.ofString "x") (.number 1),
    (Frame.empty (some 0)).define (.ofString "x") (.number 2), .empty (some 1), .empty (some 0)]
  nextId := 0

theorem wellFormed_forked : forked.WellFormed := by
  have hf {p : Nat} (hp : p < 4) : (Frame.empty (some p)).Within forked.domain :=
    Frame.within_empty hp
  have hall (i : Nat) (g : Frame) (hg : forked.frames[i]? = some g) :
      g.Consistent ∧ (∀ p, g.parent = some p → p < i) ∧ g.Within forked.domain := by
    have hi : i < 4 := allocated_of_getElem? hg
    obtain rfl | rfl | rfl | rfl : i = 0 ∨ i = 1 ∨ i = 2 ∨ i = 3 := by omega
    all_goals obtain rfl := Option.some.inj hg
    · have hroot : (Frame.empty none).Within forked.domain := ⟨nofun, nofun⟩
      exact ⟨(Frame.consistent_empty _).define _ _, nofun, hroot.define (Value.within_number 1) _⟩
    · refine ⟨(Frame.consistent_empty _).define _ _, ?_,
        (hf (by decide)).define (Value.within_number 2) _⟩
      rintro p ⟨⟩
      decide
    · refine ⟨Frame.consistent_empty _, ?_, hf (by decide)⟩
      rintro p ⟨⟩
      decide
    · refine ⟨Frame.consistent_empty _, ?_, hf (by decide)⟩
      rintro p ⟨⟩
      decide
  exact ⟨fun i g hg => (hall i g hg).1, fun i g p hg => (hall i g hg).2.1 p,
    fun i g hg => (hall i g hg).2.2.values⟩

/-- An assignment in the first branch is not seen from the second, a definition in the frame that
they share is. -/
theorem scope_laws_forked :
    (∃ s', forked.set 2 (.ofString "x") (.number 7) = .ok s' ∧
      s'.get 2 (.ofString "x") = .ok (.number 7) ∧
      s'.get 3 (.ofString "x") = forked.get 3 (.ofString "x")) ∧
    (forked.define 0 (.ofString "x") (.number 7)).get 3 (.ofString "x") = .ok (.number 7) := by
  have hs : forked.set 2 (.ofString "x") (.number 7) =
      .ok (forked.assign 1 (.ofString "x") (.number 7)) := by
    with_unfolding_all rfl
  have ha (i : Nat) (hi : i < 4) : forked.Allocated i := hi
  have hfirst : forked.Nearest (.ofString "x") 2 1 := ⟨.outer rfl rfl .here, rfl⟩
  have hsecond : forked.Nearest (.ofString "x") 3 0 := ⟨.outer rfl rfl .here, rfl⟩
  have hapart : ¬ ∃ j, forked.Nearest (.ofString "x") 3 j ∧
      forked.Nearest (.ofString "x") 2 j := by
    rintro ⟨j, hj, hj'⟩
    obtain rfl := Nearest.unique wellFormed_forked (ha 3 (by decide)) hsecond hj
    cases Nearest.unique wellFormed_forked (ha 2 (by decide)) hfirst hj'
  obtain ⟨-, -, hset, -⟩ := scope_laws wellFormed_forked (ha 2 (by decide)) (ha 2 (by decide))
    (.ofString "x") (.ofString "x") (.number 7)
  obtain ⟨-, -, hset', -⟩ := scope_laws wellFormed_forked (ha 2 (by decide)) (ha 3 (by decide))
    (.ofString "x") (.ofString "x") (.number 7)
  obtain ⟨-, -, -, hdefine, -⟩ := scope_laws wellFormed_forked (ha 0 (by decide))
    (ha 3 (by decide)) (.ofString "x") (.ofString "x") (.number 7)
  refine ⟨⟨_, hs, ?_, ?_⟩, hdefine ⟨rfl, hsecond.1⟩⟩
  · exact (hset _ hs).1 ⟨rfl, 1, hfirst, hfirst⟩
  · exact (hset' _ hs).2.1 fun h => hapart h.2

end Store

end SmallScheme
