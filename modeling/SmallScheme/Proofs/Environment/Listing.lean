import Mathlib.Data.List.Basic
import SmallScheme.Proofs.Environment.Scope

/-!
# The names that are visible from a frame

The listing of visible names walks outward and keeps the first place of every name. In a
well-formed store the names listed are those that a lookup finds (`Store.mem_visibleNames_iff`), and
a name stands among those of the nearest frame that binds it (`Store.visibleNames_eq`).
-/

namespace SmallScheme

set_option autoImplicit false

section Dups

variable {α β : Type} [BEq β] [LawfulBEq β]

theorem nodup_eraseDups (l : List β) : l.eraseDups.Nodup := by
  -- Erasing leaves a shorter list behind the first element.
  induction hn : l.length using Nat.strongRecOn generalizing l with
  | ind n ih =>
    cases l with
    | nil => exact .nil
    | cons a l =>
      rw [List.eraseDups_cons, List.nodup_cons]
      constructor
      · intro ha
        have hm := (List.mem_filter.mp (List.mem_eraseDups.mp ha)).2
        simp at hm
      · apply ih _ _ _ rfl
        rw [← hn]
        exact Nat.lt_succ_of_le (List.length_filter_le _ l)

theorem eraseDups_of_nodup {l : List β} (h : l.Nodup) : l.eraseDups = l := by
  induction l with
  | nil => rfl
  | cons a l ih =>
    obtain ⟨ha, hl⟩ := List.nodup_cons.mp h
    have hf : l.filter (fun b => !b == a) = l := by
      apply List.filter_eq_self.mpr
      intro b hb
      have hne : b ≠ a := fun he => ha (he ▸ hb)
      simpa using hne
    rw [List.eraseDups_cons, hf, ih hl]

/-- Of lists one behind another, every element stays in the first list that has it. -/
theorem eraseDups_flatMap [DecidableEq α] {f : α → List β} {l : List α} (hl : l.Nodup)
    (hf : ∀ a ∈ l, (f a).Nodup) :
    (l.flatMap f).eraseDups =
      l.flatMap fun a => (f a).filter fun b => l.find? (fun c => (f c).contains b) = some a := by
  induction l generalizing f with
  | nil => rfl
  | cons a l ih =>
    obtain ⟨ha, hl⟩ := List.nodup_cons.mp hl
    let g (c : α) : List β := (f c).removeAll (f a)
    have hg : ∀ c ∈ l, (g c).Nodup := fun c hc =>
      (hf c (List.mem_cons_of_mem a hc)).filter _
    have hrest : (l.flatMap f).removeAll (f a) = l.flatMap g := List.filter_flatMap
    have hcontains {b : β} (hb : b ∉ f a) (c : α) : (g c).contains b = (f c).contains b := by
      simp [g, List.removeAll, hb]
    have hhere : (f a).filter (fun b =>
        (a :: l).find? (fun c => (f c).contains b) = some a) = f a := by
      apply List.filter_eq_self.mpr
      intro b hb
      rw [List.find?_cons_of_pos (by simpa using hb)]
      exact decide_eq_true rfl
    rw [List.flatMap_cons, List.eraseDups_append, hrest, ih hl hg, List.flatMap_cons, hhere,
      eraseDups_of_nodup (hf a List.mem_cons_self)]
    congr 1
    apply List.flatMap_congr
    intro c hc
    have hca : a ≠ c := fun he => ha (he ▸ hc)
    rw [show g c = (f c).filter fun b => !(f a).contains b from rfl, List.filter_filter]
    apply List.filter_congr
    intro b _
    by_cases hb : b ∈ f a
    · rw [List.find?_cons_of_pos (by simpa using hb)]
      simp [hb, hca]
    · rw [List.find?_cons_of_neg (by simpa using hb), funext (hcontains hb)]
      simp [hb]

end Dups

namespace Store

variable {s : Store} {e i j : Nat} {name : Text}

theorem le_of_mem_path (h : j ∈ s.path i) : j ≤ i := by
  fun_induction s.path i with
  | case1 => cases h
  | case2 i => exact (List.mem_singleton.mp h).le
  | case3 i f hf p hp hlt ih =>
    rcases List.mem_cons.mp h with rfl | h
    · exact Nat.le_refl _
    · have hp := ih h
      omega
  | case4 i => exact (List.mem_singleton.mp h).le

theorem nodup_path (s : Store) (i : Nat) : (s.path i).Nodup := by
  fun_induction s.path i with
  | case1 => exact .nil
  | case2 => exact List.nodup_singleton _
  | case3 i f hf p hp hlt ih =>
    apply List.nodup_cons.mpr
    refine ⟨fun hm => ?_, ih⟩
    have hle := le_of_mem_path hm
    omega
  | case4 => exact List.nodup_singleton _

theorem nodup_visibleNames (s : Store) (e : Nat) : (s.visibleNames e).Nodup :=
  nodup_eraseDups _

/-- The names listed are those that a lookup finds. -/
theorem mem_visibleNames_iff (hw : s.WellFormed) :
    name ∈ s.visibleNames e ↔ ∃ v, s.get e name = .ok v := by
  have hbinds : name ∈ s.visibleNames e ↔ ∃ j ∈ s.path e, s.binds j name = true := by
    simp only [visibleNames, List.mem_eraseDups, List.mem_flatMap, mem_names_iff hw]
  have howner : (∃ j ∈ s.path e, s.binds j name = true) ↔ (s.owner? e name).isSome = true := by
    rw [owner?, List.find?_isSome]
  have hget : (s.owner? e name).isSome = true ↔ ∃ v, s.get e name = .ok v := by
    have hnone := s.find?_eq_none_iff e name
    rw [get]
    cases hf : s.find? e name with
    | none => simp [hnone.mp hf]
    | some v =>
      have ho : s.owner? e name ≠ none := fun ho => by simp [hnone.mpr ho] at hf
      simp [Option.isSome_iff_ne_none, ho]
  exact hbinds.trans (howner.trans hget)

/-- Every name stands among those of the nearest frame that binds it. -/
theorem visibleNames_eq (hw : s.WellFormed) (e : Nat) :
    s.visibleNames e =
      (s.path e).flatMap fun j => (s.names j).filter fun name => s.owner? e name = some j := by
  have hn : ∀ j ∈ s.path e, (s.names j).Nodup := by
    intro j _
    rw [names]
    cases hf : s.frames[j]? with
    | none => exact .nil
    | some f => exact (hw.consistent j f hf).nodup
  rw [visibleNames, eraseDups_flatMap (s.nodup_path e) hn]
  apply List.flatMap_congr
  intro j _
  apply List.filter_congr
  intro name _
  have hb : (fun c => (s.names c).contains name) = (s.binds · name) := by
    funext c
    rw [Bool.eq_iff_iff, List.contains_iff_mem, mem_names_iff hw]
  rw [owner?, hb]

end Store

end SmallScheme
