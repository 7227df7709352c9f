import FeatureProbeServer.Lib.Interleave
import Mathlib.Data.List.Induction

/-!
# Traces

`Since P Q tr`: an event with `P` has happened and none with `Q` after it. `Exec` is closed under
prefixes of its trace, and the calls that moved determine the run.
-/

namespace Guarded

section
variable {E : Type}

/-- What stands in a list with one more at its end is in the list, or is that one. -/
theorem split_snoc {l before after : List E} {x y : E} (h : l ++ [y] = before ++ x :: after) :
    (∃ after', l = before ++ x :: after') ∨ before = l ∧ x = y := by
  rcases List.eq_nil_or_concat after with rfl | ⟨after', z, rfl⟩
  · obtain ⟨hl, hy⟩ := List.append_inj' h rfl
    exact .inr ⟨hl.symm, (List.singleton_inj.mp hy).symm⟩
  · rw [List.concat_eq_append, ← List.cons_append, ← List.append_assoc] at h
    exact .inl ⟨after', (List.append_inj' h rfl).1⟩

def Since (P Q : E → Prop) (tr : List E) : Prop := ∃ a x b, tr = a ++ x :: b ∧ P x ∧ ∀ y ∈ b, ¬ Q y

variable {P Q Q' : E → Prop} {tr : List E}

theorem not_since_nil : ¬ Since P Q [] := by
  rintro ⟨a, x, b, h, -⟩
  simp at h

theorem since_snoc {x : E} : Since P Q (tr ++ [x]) ↔ P x ∨ Since P Q tr ∧ ¬ Q x := by
  constructor
  · rintro ⟨a, y, b, h, hy, hb⟩
    rcases List.eq_nil_or_concat b with rfl | ⟨b, z, rfl⟩
    · obtain ⟨-, rfl⟩ := List.append_inj' h rfl |>.imp id List.singleton_inj.mp
      exact .inl hy
    · rw [List.concat_eq_append, ← List.cons_append, ← List.append_assoc] at h
      obtain ⟨rfl, rfl⟩ := List.append_inj' h rfl |>.imp id List.singleton_inj.mp
      exact .inr ⟨⟨a, y, b, rfl, hy, fun z hz => hb z (by simp [hz])⟩, hb x (by simp)⟩
  · rintro (h | ⟨⟨a, y, b, rfl, hy, hb⟩, hx⟩)
    · exact ⟨tr, x, [], rfl, h, by simp⟩
    · refine ⟨a, y, b ++ [x], by simp, hy, fun z hz => ?_⟩
      rcases List.mem_append.mp hz with hz | hz
      · exact hb z hz
      · rwa [List.mem_singleton.mp hz]

theorem Since.mono (hQ : ∀ x, Q' x → Q x) (h : Since P Q tr) : Since P Q' tr := by
  obtain ⟨a, x, b, rfl, hx, hb⟩ := h
  exact ⟨a, x, b, rfl, hx, fun y hy hq => hb y hy (hQ y hq)⟩

end

namespace Config
variable {L Op σ α : Type} [DecidableEq L] [Interp Op σ] {c₀ c : Config L Op σ α}

theorem Exec.snoc_inv {tr : List (Nat × Event L Op)} {x : Nat × Event L Op} (h : Exec c₀ (tr ++ [x]) c) :
    ∃ c₁, Exec c₀ tr c₁ ∧ Step c₁ x.1 x.2 c := by
  generalize htr : tr ++ [x] = tr' at h
  cases h with
  | nil => simp at htr
  | snoc h hs =>
    obtain ⟨rfl, rfl⟩ := List.append_inj' htr rfl |>.imp id List.singleton_inj.mp
    exact ⟨_, h, hs⟩

theorem Exec.of_prefix {tr tr' : List (Nat × Event L Op)} (h : Exec c₀ tr c) (hp : tr' <+: tr) :
    ∃ c', Exec c₀ tr' c' := by
  obtain ⟨b, rfl⟩ := hp
  induction b using List.reverseRecOn generalizing c with
  | nil => exact ⟨c, by rwa [List.append_nil] at h⟩
  | append_singleton b x ih =>
    rw [← List.append_assoc] at h
    obtain ⟨c₁, h₁, -⟩ := h.snoc_inv
    exact ih h₁

theorem schedule_append (c : Config L Op σ α) (is js : List Nat) :
    c.schedule (is ++ js) = (c.schedule is).bind (·.schedule js) := by
  induction is generalizing c with
  | nil => rfl
  | cons i is ih =>
    show ((c.step? i).bind fun p => p.2.schedule (is ++ js)) =
      ((c.step? i).bind fun p => p.2.schedule is).bind _
    rw [Option.bind_assoc]
    exact congrArg _ (funext fun p => ih p.2)

/-- A run is the schedule of the calls that moved. -/
theorem Exec.schedule {tr : List (Nat × Event L Op)} (h : Exec c₀ tr c) :
    c₀.schedule (tr.map Prod.fst) = some c := by
  induction h with
  | nil => rfl
  | snoc _ hs ih =>
    rw [List.map_append, schedule_append, ih]
    show ((step? _ _).bind _) = _
    rw [step?_iff.mpr hs]
    rfl

theorem Exec.schedule_take {tr tr' : List (Nat × Event L Op)} (h : Exec c₀ tr' c) (hp : tr' <+: tr) :
    ∃ n ≤ (tr.map Prod.fst).length, c₀.schedule ((tr.map Prod.fst).take n) = some c := by
  refine ⟨tr'.length, by simpa using hp.length_le, ?_⟩
  rw [← List.map_take, ← List.prefix_iff_eq_take.mp hp]
  exact h.schedule

theorem Exec.of_schedule {is : List Nat} (h : c₀.schedule is = some c) :
    ∃ tr : List (Nat × Event L Op), tr.map Prod.fst = is ∧ Exec c₀ tr c := by
  induction is generalizing c₀ with
  | nil => cases h; exact ⟨[], rfl, .nil⟩
  | cons i is ih =>
    obtain ⟨⟨e, c₁⟩, h₁, h₂⟩ := Option.bind_eq_some_iff.mp h
    obtain ⟨tr, rfl, hrun⟩ := ih h₂
    exact ⟨(i, e) :: tr, rfl, (Exec.nil.snoc (step?_iff.mp h₁)).append hrun⟩

end Config
end Guarded
