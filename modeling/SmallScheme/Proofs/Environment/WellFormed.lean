import SmallScheme.Environment.Store
import SmallScheme.Proofs.Environment.Captures

/-!
# Well-formed stores

A frame is consistent when the names that it lists are those that it binds. A set of frames is
closed when it contains the frame that each of its members extends and the frames that values bound
in them capture. `Store.Edit` says all that a step may do to a store, and how the domain grows to
which the step may refer; it keeps closed sets closed, and well-formed stores well formed.
-/

namespace SmallScheme

set_option autoImplicit false

namespace Frame

variable {D E : Domain} {f : Frame} {name other : Text} {v : Value}

theorem lookup_bindIn (name other : Text) (v : Value) (bs : List (Text × Value)) :
    (bindIn name v bs).lookup other = if other = name then some v else bs.lookup other := by
  induction bs with
  | nil =>
    rw [bindIn, List.lookup_cons, List.lookup_nil]
    by_cases ho : other = name
    · simp [ho]
    · rw [beq_false_of_ne ho, if_neg ho]
  | cons b bs ih =>
    obtain ⟨n, w⟩ := b
    rw [bindIn]
    split
    · rename_i hn
      subst hn
      rw [List.lookup_cons, List.lookup_cons]
      by_cases ho : other = n
      · simp [ho]
      · rw [beq_false_of_ne ho, if_neg ho]
    · rename_i hn
      rw [List.lookup_cons, List.lookup_cons, ih]
      by_cases ho : other = n
      · simp [ho, hn]
      · rw [beq_false_of_ne ho]

theorem find?_assign (f : Frame) (name other : Text) (v : Value) :
    (f.assign name v).find? other = if other = name then some v else f.find? other :=
  lookup_bindIn name other v f.scope

theorem find?_define (f : Frame) (name other : Text) (v : Value) :
    (f.define name v).find? other = if other = name then some v else f.find? other := by
  rw [define]
  split
  · exact f.find?_assign name other v
  · exact (f.list name).find?_assign name other v

theorem binds_assign (f : Frame) (name other : Text) (v : Value) :
    (f.assign name v).binds other = (decide (other = name) || f.binds other) := by
  rw [binds, find?_assign, binds]
  by_cases h : other = name <;> simp [h]

theorem binds_define (f : Frame) (name other : Text) (v : Value) :
    (f.define name v).binds other = (decide (other = name) || f.binds other) := by
  rw [binds, find?_define, binds]
  by_cases h : other = name <;> simp [h]

@[simp] theorem names_assign (f : Frame) (name : Text) (v : Value) :
    (f.assign name v).names = f.names := rfl

theorem names_define (f : Frame) (name : Text) (v : Value) :
    (f.define name v).names = if f.binds name = true then f.names else f.names ++ [name] := by
  rw [define, names_assign]
  split <;> rfl

@[simp] theorem parent_assign (f : Frame) (name : Text) (v : Value) :
    (f.assign name v).parent = f.parent := rfl

@[simp] theorem parent_define (f : Frame) (name : Text) (v : Value) :
    (f.define name v).parent = f.parent := by
  rw [define, parent_assign]
  split <;> rfl

/-- A frame that lists the names that it binds, each once. -/
structure Consistent (f : Frame) : Prop where
  nodup : f.names.Nodup
  mem_names_iff : ∀ name, name ∈ f.names ↔ f.binds name = true

theorem consistent_empty (parent : Option Nat) : (empty parent).Consistent :=
  ⟨.nil, fun _ => by simp [empty, binds, find?]⟩

/-- An assignment lists no name, so it has to find the name bound. -/
theorem Consistent.assign (h : f.Consistent) (hb : f.binds name = true) (v : Value) :
    (f.assign name v).Consistent := by
  refine ⟨h.nodup, fun other => ?_⟩
  rw [names_assign, h.mem_names_iff, binds_assign]
  by_cases ho : other = name <;> simp [ho, hb]

theorem Consistent.define (h : f.Consistent) (name : Text) (v : Value) :
    (f.define name v).Consistent := by
  constructor
  · rw [names_define]
    split
    · exact h.nodup
    · rename_i hb
      rw [← h.mem_names_iff] at hb
      apply List.nodup_append.mpr
      refine ⟨h.nodup, List.nodup_singleton name, ?_⟩
      rintro _ ha _ hm rfl
      exact hb (List.mem_singleton.mp hm ▸ ha)
  · intro other
    rw [names_define, binds_define]
    split
    · rename_i hb
      by_cases ho : other = name <;> simp [h.mem_names_iff, ho, hb]
    · by_cases ho : other = name <;> simp [h.mem_names_iff, ho]

/-- A frame that refers to a domain only. -/
structure Within (D : Domain) (f : Frame) : Prop where
  parent : ∀ p, f.parent = some p → D.frame p
  values : ∀ name v, f.find? name = some v → v.Within D

theorem Within.mono (h : f.Within D) (hle : D.Le E) : f.Within E :=
  ⟨fun p hp => hle.frame (h.parent p hp), fun name v hv => (h.values name v hv).mono hle⟩

theorem Within.assign (h : f.Within D) (hv : v.Within D) (name : Text) :
    (f.assign name v).Within D := by
  refine ⟨h.parent, fun other w hw => ?_⟩
  rw [find?_assign] at hw
  split at hw
  · exact Option.some.inj hw ▸ hv
  · exact h.values other w hw

theorem Within.define (h : f.Within D) (hv : v.Within D) (name : Text) :
    (f.define name v).Within D := by
  rw [Frame.define]
  split
  · exact h.assign hv name
  · have hl : (f.list name).Within D := ⟨h.parent, h.values⟩
    exact hl.assign hv name

theorem within_empty {p : Nat} (h : D.frame p) : (empty (some p)).Within D := by
  refine ⟨fun q hq => ?_, nofun⟩
  cases hq
  exact h

theorem foldl_define {P : Frame → Prop} {bs : List (Text × Value)}
    (hd : ∀ b ∈ bs, ∀ f : Frame, P f → P (f.define b.1 b.2)) (h : P f) :
    P (bs.foldl (fun f b => f.define b.1 b.2) f) := by
  induction bs generalizing f with
  | nil => exact h
  | cons b bs ih =>
    exact ih (fun c hc => hd c (List.mem_cons_of_mem b hc)) (hd b List.mem_cons_self f h)

theorem ofArguments_induction {P : Frame → Prop} {parent : Nat} {formals : Formals}
    {args : List Value} (he : P (empty (some parent)))
    (hd : ∀ f name v, P f → v.Within D → P (f.define name v)) (ha : ∀ v ∈ args, v.Within D) :
    P (ofArguments parent formals args) := by
  have hf : P ((formals.params.zip args).foldl (fun f b => f.define b.1 b.2)
      (empty (some parent))) :=
    foldl_define (fun b hb f hf => hd f b.1 b.2 hf (ha b.2 (List.of_mem_zip hb).2)) he
  unfold ofArguments
  split
  · exact hf
  · exact hd _ _ _ hf (Value.within_list.mpr fun v hv => ha v (List.mem_of_mem_drop hv))

theorem within_ofArguments {parent : Nat} {formals : Formals} {args : List Value}
    (hp : D.frame parent) (ha : ∀ v ∈ args, v.Within D) :
    (ofArguments parent formals args).Within D :=
  ofArguments_induction (within_empty hp) (fun _ name _ h hv => h.define hv name) ha

theorem consistent_ofArguments (parent : Nat) (formals : Formals) (args : List Value) :
    (ofArguments parent formals args).Consistent :=
  ofArguments_induction (D := .ofFrames fun _ => True) (consistent_empty _)
    (fun _ name v h _ => h.define name v) fun _ _ =>
      Value.within_ofFrames.mpr fun _ _ => trivial

end Frame

namespace Domain

/-- A domain with a further frame. -/
def withFrame (D : Domain) (n : Nat) : Domain where
  frame i := D.frame i ∨ i = n
  procedure := D.procedure
  captured h hk := .inl (D.captured h hk)

/-- A domain with a further procedure, which captures frames of the domain. -/
def withProcedure (D : Domain) (p : Value) (hp : ∀ k, p.Captures k → D.frame k) : Domain where
  frame := D.frame
  procedure q := D.procedure q ∨ q = p
  captured := by
    rintro q k (hq | rfl) hk
    · exact D.captured hq hk
    · exact hp k hk

variable {D : Domain}

theorem le_withFrame (D : Domain) (n : Nat) : D.Le (D.withFrame n) := ⟨.inl, id⟩

theorem le_withProcedure {p : Value} (hp : ∀ k, p.Captures k → D.frame k) :
    D.Le (D.withProcedure p hp) :=
  ⟨id, .inl⟩

theorem captured_closure {id k : Nat} {formals : Formals} {body : Value} (hk : D.frame k)
    (hb : body.Within D) : ∀ i, (Value.closure id formals body k).Captures i → D.frame i := by
  rintro i (_ | hi)
  · exact hk
  · exact hb.captures hi

theorem within_withProcedure {id k : Nat} {formals : Formals} {body : Value} (hk : D.frame k)
    (hb : body.Within D) : (Value.closure id formals body k).Within
      (D.withProcedure (.closure id formals body k) (captured_closure hk hb)) :=
  Value.within_closure.mpr ⟨.inr rfl, hb.mono (le_withProcedure _)⟩

end Domain

namespace Store

def Allocated (s : Store) (i : Nat) : Prop := i < s.frames.size

/-- The frames that have been made, and the procedures that capture none but these. -/
def domain (s : Store) : Domain := .ofFrames s.Allocated

/-- A set of frames that contains what its members refer to. -/
def Closed (D : Domain) (s : Store) : Prop :=
  ∀ i f, D.frame i → s.frames[i]? = some f → f.Within D

/-- All that a step may do to a store, where it refers to a domain only, and the domain to which it
may refer behind that. -/
inductive Edit : Domain → Store → Domain → Store → Prop where
  | refl (D : Domain) (s : Store) : Edit D s D s
  | trans {D D' D'' : Domain} {s s' s'' : Store} :
      Edit D s D' s' → Edit D' s' D'' s'' → Edit D s D'' s''
  | define {D : Domain} {s : Store} {i : Nat} {v : Value} (name : Text) :
      D.frame i → v.Within D → Edit D s D (s.define i name v)
  | assign {D : Domain} {s : Store} {i : Nat} {name : Text} {v : Value} :
      D.frame i → s.binds i name = true → v.Within D → Edit D s D (s.assign i name v)
  | allocate {D : Domain} {s : Store} {f : Frame} :
      f.Within D → f.Consistent → Edit D s (D.withFrame s.frames.size) (s.allocate f).2
  | makeClosure {D : Domain} {s : Store} {body : Value} {k : Nat} (formals : Formals)
      (hk : D.frame k) (hb : body.Within D) :
      Edit D s (D.withProcedure (.closure s.nextId formals body k) (Domain.captured_closure hk hb))
        (s.makeClosure formals body k).2
  | makePrimitive {D : Domain} {s : Store} (op : Primitive) :
      Edit D s (D.withProcedure (.primitive s.nextId op) nofun) (s.makePrimitive op).2

variable {D D' : Domain} {s s' : Store} {i : Nat} {f g : Frame} {name : Text} {v : Value}

theorem allocated_of_getElem? (h : s.frames[i]? = some f) : s.Allocated i :=
  (Array.getElem?_eq_some_iff.mp h).1

theorem domain_eq (h : s'.frames.size = s.frames.size) : s'.domain = s.domain := by
  have ha : s'.Allocated = s.Allocated := by
    funext i
    rw [Allocated, h, Allocated]
  rw [domain, ha, domain]

theorem getElem?_modify_cases {F : Frame → Frame} {j : Nat}
    (h : (s.frames.modify i F)[j]? = some f) :
    s.frames[j]? = some f ∨ j = i ∧ ∃ g, s.frames[j]? = some g ∧ f = F g := by
  rw [Array.getElem?_modify] at h
  split at h
  · rename_i hi
    obtain ⟨g, hg, rfl⟩ := Option.map_eq_some_iff.mp h
    exact .inr ⟨hi.symm, g, hg, rfl⟩
  · exact .inl h

theorem getElem?_push_cases {j : Nat} (h : (s.frames.push g)[j]? = some f) :
    s.frames[j]? = some f ∨ j = s.frames.size ∧ f = g := by
  rw [Array.getElem?_push] at h
  split at h
  · rename_i hj
    exact .inr ⟨hj, (Option.some.inj h).symm⟩
  · exact .inl h

theorem binds_of_getElem? (hf : s.frames[i]? = some f) : s.binds i name = f.binds name := by
  rw [binds, hf]
  rfl

section Lookup

variable (hc : s.Closed D)
include hc

theorem Closed.path (hi : D.frame i) : ∀ j ∈ s.path i, D.frame j := by
  fun_induction s.path i with
  | case1 => simp
  | case2 i f hf hp =>
    intro j hj
    rwa [List.mem_singleton.mp hj]
  | case3 i f hf p hp hlt ih =>
    intro j hj
    rcases List.mem_cons.mp hj with rfl | hj
    · exact hi
    · exact ih ((hc i f hi hf).parent p hp) j hj
  | case4 i f hf p hp hlt =>
    intro j hj
    rwa [List.mem_singleton.mp hj]

theorem Closed.owner? {j : Nat} (hi : D.frame i) (h : s.owner? i name = some j) : D.frame j :=
  hc.path hi j (List.mem_of_find?_eq_some h)

theorem Closed.get (hi : D.frame i) : ResultWithin D (s.get i name) := by
  intro v hv
  unfold Store.get at hv
  split at hv
  · rename_i w hw
    cases hv
    obtain ⟨j, hj, hw⟩ := Option.bind_eq_some_iff.mp hw
    obtain ⟨f, hf, hw⟩ := Option.bind_eq_some_iff.mp hw
    exact (hc j f (hc.owner? hi hj) hf).values name _ hw
  · cases hv

theorem Closed.assign (hv : v.Within D) (i : Nat) (name : Text) :
    (s.assign i name v).Closed D := by
  intro j f hj hf
  rcases getElem?_modify_cases hf with hf | ⟨-, g, hg, rfl⟩
  · exact hc j f hj hf
  · exact (hc j g hj hg).assign hv name

theorem Closed.define (hv : v.Within D) (i : Nat) (name : Text) :
    (s.define i name v).Closed D := by
  intro j f hj hf
  rcases getElem?_modify_cases hf with hf | ⟨-, g, hg, rfl⟩
  · exact hc j f hj hf
  · exact (hc j g hj hg).define hv name

end Lookup

theorem owner?_binds {j : Nat} (h : s.owner? i name = some j) : s.binds j name = true := by
  simpa using List.find?_some h

namespace Edit

theorem le (h : Edit D s D' s') : D.Le D' := by
  induction h with
  | refl | define | assign => exact .refl _
  | trans _ _ ih ih' => exact ih.trans ih'
  | allocate => exact Domain.le_withFrame _ _
  | makeClosure | makePrimitive => exact Domain.le_withProcedure _

theorem size_le (h : Edit D s D' s') : s.frames.size ≤ s'.frames.size := by
  induction h with
  | refl | makeClosure | makePrimitive => exact Nat.le_refl _
  | trans _ _ ih ih' => exact Nat.le_trans ih ih'
  | define => exact Nat.le_of_eq Array.size_modify.symm
  | assign => exact Nat.le_of_eq Array.size_modify.symm
  | allocate =>
    rw [Store.allocate, Array.size_push]
    exact Nat.le_succ _

theorem allocated (h : Edit D s D' s') (hi : s.Allocated i) : s'.Allocated i :=
  Nat.lt_of_lt_of_le hi h.size_le

/-- The frames that a step adds to the domain are new. -/
theorem frame_cases (h : Edit D s D' s') (hi : D'.frame i) :
    D.frame i ∨ s.frames.size ≤ i ∧ s'.Allocated i := by
  induction h with
  | refl | define | assign | makeClosure | makePrimitive => exact .inl hi
  | trans h h' ih ih' =>
    rcases ih' hi with hi | ⟨hle, hi⟩
    · rcases ih hi with hi | ⟨hle, hi⟩
      · exact .inl hi
      · exact .inr ⟨hle, h'.allocated hi⟩
    · exact .inr ⟨Nat.le_trans h.size_le hle, hi⟩
  | allocate =>
    rcases hi with hi | rfl
    · exact .inl hi
    · exact .inr ⟨Nat.le_refl _, by simp [Store.allocate, Allocated]⟩

/-- A closed set stays closed with what is new. -/
theorem closed (h : Edit D s D' s') (hc : s.Closed D) : s'.Closed D' := by
  induction h with
  | refl => exact hc
  | trans _ _ ih ih' => exact ih' (ih hc)
  | define name _ hv => exact hc.define hv _ name
  | assign _ _ hv => exact hc.assign hv _ _
  | allocate hf _ =>
    intro j g hj hg
    rcases getElem?_push_cases hg with hg | ⟨-, rfl⟩
    · rcases hj with hj | rfl
      · exact (hc j g hj hg).mono (Domain.le_withFrame _ _)
      · exact absurd (allocated_of_getElem? hg) (Nat.lt_irrefl _)
    · exact hf.mono (Domain.le_withFrame _ _)
  | makeClosure => exact fun j g hj hg => (hc j g hj hg).mono (Domain.le_withProcedure _)
  | makePrimitive => exact fun j g hj hg => (hc j g hj hg).mono (Domain.le_withProcedure _)

theorem le_domain (h : Edit D s D' s') : s.domain.Le s'.domain :=
  Domain.le_ofFrames fun _ => h.allocated

/-- A step that refers to frames that have been made refers to such frames behind it. -/
theorem frame_allocated (h : Edit D s D' s') (hd : ∀ i, D.frame i → s.Allocated i) :
    ∀ i, D'.frame i → s'.Allocated i := by
  intro i hi
  rcases h.frame_cases hi with hi | ⟨-, hi⟩
  · exact h.allocated (hd i hi)
  · exact hi

end Edit

/-- A store as runs make it. -/
structure WellFormed (s : Store) : Prop where
  /-- Frames list the names that they bind. -/
  consistent : ∀ (i : Nat) (f : Frame), s.frames[i]? = some f → f.Consistent
  /-- Frames extend frames that were made before them. -/
  parent_lt : ∀ (i : Nat) (f : Frame) (p : Nat), s.frames[i]? = some f → f.parent = some p → p < i
  /-- Bound values capture frames that have been made. -/
  captured : ∀ (i : Nat) (f : Frame), s.frames[i]? = some f → ∀ name v, f.find? name = some v →
    v.Within s.domain

namespace WellFormed

theorem closed (hw : s.WellFormed) : s.Closed s.domain := by
  intro i f hi hf
  refine ⟨fun p hp => ?_, hw.captured i f hf⟩
  exact Nat.lt_trans (hw.parent_lt i f p hf hp) hi

/-- Which procedure is made next is nothing to the frames. -/
theorem of_frames_eq (hw : s.WellFormed) (h : s'.frames = s.frames) : s'.WellFormed := by
  have hd : s'.domain = s.domain := domain_eq (congrArg Array.size h)
  constructor
  · rw [h]
    exact hw.consistent
  · rw [h]
    exact hw.parent_lt
  · rw [h, hd]
    exact hw.captured

/-- A store stays well formed where a frame is replaced by one that is consistent and refers to what
frames may refer to. -/
theorem modify (hw : s.WellFormed) {F : Frame → Frame}
    (hf : ∀ g, s.frames[i]? = some g → (F g).Consistent ∧ (F g).Within s.domain ∧
      (F g).parent = g.parent) :
    (Store.mk (s.frames.modify i F) s.nextId).WellFormed := by
  have hd : (Store.mk (s.frames.modify i F) s.nextId).domain = s.domain :=
    domain_eq Array.size_modify
  refine ⟨fun j f hj => ?_, fun j f p hj hp => ?_, fun j f hj => ?_⟩
  all_goals rcases getElem?_modify_cases hj with hj | ⟨rfl, g, hg, rfl⟩
  · exact hw.consistent j f hj
  · exact (hf g hg).1
  · exact hw.parent_lt j f p hj hp
  · exact hw.parent_lt j g p hg ((hf g hg).2.2 ▸ hp)
  · exact hd ▸ hw.captured j f hj
  · exact hd ▸ (hf g hg).2.1.values

theorem assign (hw : s.WellFormed) (hb : s.binds i name = true) (hv : v.Within s.domain) :
    (s.assign i name v).WellFormed := by
  refine hw.modify fun g hg => ⟨?_, ?_, rfl⟩
  · exact (hw.consistent i g hg).assign (by rwa [binds_of_getElem? hg] at hb) v
  · exact (hw.closed i g (allocated_of_getElem? hg) hg).assign hv name

theorem define (hw : s.WellFormed) (i : Nat) (name : Text) (hv : v.Within s.domain) :
    (s.define i name v).WellFormed := by
  refine hw.modify fun g hg => ⟨?_, ?_, g.parent_define name v⟩
  · exact (hw.consistent i g hg).define name v
  · exact (hw.closed i g (allocated_of_getElem? hg) hg).define hv name

theorem allocate (hw : s.WellFormed) (hf : f.Within s.domain) (hn : f.Consistent) :
    (s.allocate f).2.WellFormed := by
  have hle : s.domain.Le (s.allocate f).2.domain := (Edit.allocate hf hn).le_domain
  refine ⟨fun j g hg => ?_, fun j g p hg hp => ?_, fun j g hg name v hv => ?_⟩
  all_goals rcases getElem?_push_cases hg with hg | ⟨rfl, rfl⟩
  · exact hw.consistent j g hg
  · exact hn
  · exact hw.parent_lt j g p hg hp
  · exact hf.parent p hp
  · exact (hw.captured j g hg name v hv).mono hle
  · exact (hf.values name v hv).mono hle

/-- A step that refers to frames that have been made keeps a store well formed. -/
theorem edit (hw : s.WellFormed) (h : Edit D s D' s') (hd : ∀ i, D.frame i → s.Allocated i) :
    s'.WellFormed := by
  induction h with
  | refl => exact hw
  | trans h _ ih ih' => exact ih' (ih hw hd) (h.frame_allocated hd)
  | define name _ hv => exact hw.define _ name (hv.mono (Domain.le_ofFrames hd))
  | assign _ hb hv => exact hw.assign hb (hv.mono (Domain.le_ofFrames hd))
  | allocate hf hn => exact hw.allocate (hf.mono (Domain.le_ofFrames hd)) hn
  | makeClosure | makePrimitive => exact hw.of_frames_eq rfl

variable (hw : s.WellFormed)
include hw

/-- Chains of frames that extend one another end. -/
theorem wellFounded :
    WellFounded fun p i : Nat => ∃ f : Frame, s.frames[i]? = some f ∧ f.parent = some p := by
  refine Subrelation.wf ?_ Nat.lt_wfRel.wf
  intro p i h
  obtain ⟨f, hf, hp⟩ := h
  exact hw.parent_lt i f p hf hp

/-- The path from a frame runs through the frames that extend one another, to the outermost. -/
theorem path_eq (hf : s.frames[i]? = some f) : s.path i = i :: f.parent.elim [] s.path := by
  rw [path]
  cases hp : f.parent with
  | none => simp [hf, hp]
  | some p => simp [hf, hp, hw.parent_lt i f p hf hp]

end WellFormed

end Store

end SmallScheme
