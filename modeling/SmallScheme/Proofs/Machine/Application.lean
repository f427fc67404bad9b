import SmallScheme.Proofs.Environment.Arguments
import SmallScheme.Proofs.Machine.Ending

/-!
# Applications

A closure takes its arguments or refuses their number. If it takes them, its body is evaluated in a
new frame that holds them (`State.enter_closure`).

A call of the procedure `apply` puts itself on the stack and calls the procedure that it is given.
Where the stack has no limit, nothing but the height of the stack tells this call from a direct one,
and what the machine comes to does not depend on that (`World.applies_apply_iff`). The procedure can
be any value: a closure that calls `apply`, the procedure `apply` itself, or a value that cannot be
applied.
-/

namespace SmallScheme

set_option autoImplicit false

variable {files : Files} {w : World} {caller id : Nat} {procedure : Value} {args given : List Value}
  {r : Except Error Value} {store : Store}

theorem Primitive.application_spread {v : Value} {vs : List Value} (hv : v.kind ≠ .list) :
    application caller (procedure :: v :: vs) = .call caller procedure (v :: vs) := by
  cases v with
  | list => exact absurd rfl hv
  | _ => rfl

namespace State

theorem arityFault?_of_refuses {formals : Formals} (h : formals.Refuses args.length) :
    arityFault? formals args =
      some (.arity formals.params.length formals.rest.isSome args) := by
  rcases h with ⟨hr, hn⟩ | ⟨hr, hn⟩
  · rw [arityFault?, hr, if_pos ⟨rfl, hn⟩]
    rfl
  · obtain ⟨rest, hr⟩ := Option.ne_none_iff_exists'.mp hr
    rw [arityFault?, hr, if_neg fun h => Bool.noConfusion h.1, if_pos hn]
    rfl

theorem arityFault?_of_not_refuses {formals : Formals} (h : ¬ formals.Refuses args.length) :
    arityFault? formals args = none := by
  have hle := Formals.length_le_of_not_refuses h
  rw [arityFault?, if_neg, if_neg (Nat.not_lt.mpr hle)]
  rintro ⟨hr, hn⟩
  exact h (.inl ⟨Option.isNone_iff_eq_none.mp hr, hn⟩)

/-- A closure refuses a wrong number of arguments at once and leaves the world as it is. Otherwise
its body is evaluated in a new frame, which extends the captured one and holds the arguments. -/
theorem enter_closure (caller id : Nat) (formals : Formals) (body : Value) (captured : Nat)
    (args : List Value) (tasks : List Task) (w : World) :
    (enter caller (.closure id formals body captured) args tasks w =
        fail (.arity formals.params.length formals.rest.isSome args) tasks w ↔
      formals.Refuses args.length) ∧
    (¬ formals.Refuses args.length →
      ∃ f : Frame, f.HoldsArguments captured formals args ∧
        enter caller (.closure id formals body captured) args tasks w =
          ⟨.eval w.store.frames.size body, tasks,
            { w with store := { w.store with frames := w.store.frames.push f } }⟩) := by
  have taken (h : ¬ formals.Refuses args.length) :
      enter caller (.closure id formals body captured) args tasks w =
        ⟨.eval w.store.frames.size body, tasks,
          { w with store :=
            (w.store.allocate (Frame.ofArguments captured formals args)).2 }⟩ := by
    rw [enter, arityFault?_of_not_refuses h]
    rfl
  refine ⟨⟨fun he => ?_, fun h => ?_⟩, fun h => ?_⟩
  · by_contra h
    rw [taken h] at he
    cases congrArg State.control he
  · rw [enter, arityFault?_of_refuses h]
  · exact ⟨_, Frame.holdsArguments_ofArguments captured (Formals.length_le_of_not_refuses h),
      taken h⟩

/-- Formals with a parameter that is repeated and one that the rest parameter hides. -/
def repeating : Formals :=
  ⟨[.ofString "x", .ofString "y", .ofString "x"], some (.ofString "y")⟩

theorem enter_closure_repeating :
    ¬ repeating.Refuses [Value.number 1, .number 2, .number 3, .number 4, .number 5].length ∧
      ∃ f : Frame,
        f.HoldsArguments World.root repeating
          [.number 1, .number 2, .number 3, .number 4, .number 5] ∧
        f.find? (.ofString "x") = some (.number 3) ∧
        f.find? (.ofString "y") = some (.list [.number 4, .number 5]) ∧
        f.names = [.ofString "x", .ofString "y"] := by
  have h : ¬ repeating.Refuses
      [Value.number 1, .number 2, .number 3, .number 4, .number 5].length := by
    simp [Formals.Refuses, repeating]
  obtain ⟨f, hf, -⟩ := (enter_closure World.root 2 repeating (.atom (.ofString "x")) World.root _ []
    (World.new { primitives := false })).2 h
  have hx : repeating.Binds [.number 1, .number 2, .number 3, .number 4, .number 5] (.ofString "x")
      (.number 3) :=
    .param (by decide)
      (show repeating.params = [.ofString "x", .ofString "y"] ++ .ofString "x" :: [] from rfl)
      (by decide) rfl
  have hy : repeating.Binds [.number 1, .number 2, .number 3, .number 4, .number 5] (.ofString "y")
      (.list [.number 4, .number 5]) :=
    .rest rfl
  refine ⟨h, f, hf, (hf.find?_eq_some_iff _ _).mpr hx, (hf.find?_eq_some_iff _ _).mpr hy, ?_⟩
  rw [hf.names]
  decide

end State

namespace World

/-- With a call on its stack a world differs from what it was in the calls and the trace only. -/
theorem exists_pushCall_forget_eq (w : World) (name : Text) (procedure : Value) :
    ∃ trace, w.forget.pushCall name procedure = w.withCalls (w.stack.add name procedure) trace := by
  obtain ⟨trace, hw⟩ := w.exists_forget_eq
  exact ⟨trace, by rw [hw]; rfl⟩

/-- A call of `apply` ends as the call that it makes. -/
theorem applies_apply_of_application (hl : w.stack.limit < 1)
    (h : Primitive.application caller given = .call caller procedure args) :
    w.Applies files caller (.primitive id .apply) given r store ↔
      w.Applies files caller procedure args r store := by
  have henter (w' : World) : State.enter caller (.primitive id .apply) given [.leave caller] w' =
      ⟨.call caller [] procedure args, [.leave caller], w'⟩ := by
    simp only [State.enter, Primitive.effect, h]
  -- The call that `apply` makes has one more call below it, which its end does not depend on.
  obtain ⟨trace, hw⟩ := w.exists_pushCall_forget_eq [] (.primitive id .apply)
  rw [applies_iff_enter rfl (CallStack.full_eq_false hl), henter, State.endsWith_leave_iff, hw]
  exact State.endsWith_withCalls_iff hl hl fun r h => by cases h

/-- Where the stack has no limit, `apply` is transparent. Called with a procedure and a list of
arguments, or with a procedure and arguments of which the first is no list, it ends if and only if
the procedure does that is applied to them, with the same value or error and the same store. -/
theorem applies_apply_iff (hl : w.stack.limit < 1) (caller id : Nat) (procedure : Value)
    (args : List Value) (r : Except Error Value) (store : Store) :
    (w.Applies files caller (.primitive id .apply) [procedure, .list args] r store ↔
        w.Applies files caller procedure args r store) ∧
      ∀ v vs, args = v :: vs → v.kind ≠ .list →
        (w.Applies files caller (.primitive id .apply) (procedure :: args) r store ↔
          w.Applies files caller procedure args r store) := by
  constructor
  · exact applies_apply_of_application hl rfl
  · rintro v vs rfl hv
    exact applies_apply_of_application hl (Primitive.application_spread hv)

/-- A procedure that gives the list of its arguments. -/
def gather : Value := .closure 2 (.ofNames [] (.ofString "y")) (.atom (.ofString "y")) root

/-- A procedure that calls its first argument with its second and the list of the number one. -/
def relay : Value :=
  .closure 3 (.ofNames [.ofString "a", .ofString "x"] [])
    (.list [.atom (.ofString "a"), .atom (.ofString "x"),
      .list [.atom (.ofString "quote"), .list [.number 1]]]) root

theorem applies_apply_relay :
    ∃ store, (new { primitives := false }).stack.limit < 1 ∧
      (Value.primitive 1 .apply).kind ≠ .list ∧
      (new { primitives := false }).Applies (fun _ => .ok []) root (.primitive 1 .apply)
        [relay, .list [.primitive 1 .apply, gather]] (.ok (.list [.number 1])) store ∧
      (new { primitives := false }).Applies (fun _ => .ok []) root (.primitive 1 .apply)
        [relay, .primitive 1 .apply, gather] (.ok (.list [.number 1])) store := by
  have hl : (new { primitives := false }).stack.limit < 1 := by decide
  obtain ⟨o, ho, hr⟩ : ∃ o, (new { primitives := false }).apply (fun _ => .ok []) 20 root relay
      [.primitive 1 .apply, gather] = some o ∧ o.1 = .ok (.list [.number 1]) :=
    ⟨_, by with_unfolding_all rfl, by with_unfolding_all rfl⟩
  have direct : (new { primitives := false }).Applies (fun _ => .ok []) root relay
      [.primitive 1 .apply, gather] (.ok (.list [.number 1])) o.2.store :=
    ⟨20, o.2, by rw [ho, ← hr], rfl⟩
  obtain ⟨hlist, hspread⟩ := applies_apply_iff hl root 1 relay [.primitive 1 .apply, gather]
    (.ok (.list [.number 1])) o.2.store
  exact ⟨o.2.store, hl, by decide, hlist.mpr direct,
    (hspread _ _ rfl (by decide)).mpr direct⟩

end World

end SmallScheme
