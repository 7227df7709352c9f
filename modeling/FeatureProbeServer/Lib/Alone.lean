import FeatureProbeServer.Lib.Protect

/-!
# A call beside calls that its guards keep off

A relation `E` says which differences between two stores a call does not see. Where the guards `g`
let the others move along `E` only (`Shields`), a call that holds `g` and does not tell related stores
apart runs as it would alone: it returns what it would return, and leaves a store related to the one
it would leave (`AsAlone`).
-/

namespace Guarded

section
variable {L σ : Type}

/-- Under guards that include `g` the others keep a store related by `E`, and nothing is asked of the
store when an inner guard is put down. -/
structure Shields (same : L → σ → σ → Prop) (R : σ → σ → Prop) (J : List (L × Mode) → σ → Prop)
    (E : σ → σ → Prop) (g : List (L × Mode)) : Prop where
  around : ∀ h, g ⊆ h → ∀ s₀ s s', E s₀ s → Around same R h s s' → E s₀ s'
  puts : ∀ h, g ⊆ h → ∀ s, J h s

end

namespace Prog
variable {L Op σ α β : Type} [DecidableEq L] [Interp Op σ]

def AsAlone (same : L → σ → σ → Prop) (R : σ → σ → Prop) (J : List (L × Mode) → σ → Prop)
    (E : σ → σ → Prop) (g : List (L × Mode)) (p : Prog L Op σ α) : Prop :=
  ∀ h, g ⊆ h → ∀ s₀ s, E s₀ s →
    p.wpb same R (fun _ _ => True) J (fun a s' => a = (p.run s₀).1 ∧ E (p.run s₀).2 s') h s

namespace AsAlone
variable {same : L → σ → σ → Prop} {R E : σ → σ → Prop} {J : List (L × Mode) → σ → Prop}
  {g : List (L × Mode)}

theorem pure (hg : Shields same R J E g) (a : α) :
    (Pure.pure a : Prog L Op σ α).AsAlone same R J E g :=
  fun h hh s₀ s hs => wpb_pure fun s' h' => ⟨rfl, hg.around h hh s₀ s s' hs h'⟩

theorem reading (hg : Shields same R J E g) {o : Op} {f : σ → α} (hf : ∀ s s', E s s' → f s = f s')
    (ho : ∀ s s', E s s' → E (Interp.exec o s) (Interp.exec o s')) :
    (Prog.reading o f : Prog L Op σ α).AsAlone same R J E g := by
  intro h hh s₀ s hs
  refine wpb_reading fun s' h' => ⟨trivial, fun s'' h'' => ?_⟩
  have hs' : E s₀ s' := hg.around h hh _ _ _ hs h'
  exact ⟨(hf _ _ hs').symm, hg.around h hh _ _ _ (ho _ _ hs') h''⟩

theorem perform (hg : Shields same R J E g) {o : Op}
    (ho : ∀ s s', E s s' → E (Interp.exec o s) (Interp.exec o s')) :
    (Prog.perform o : Prog L Op σ Unit).AsAlone same R J E g := by
  intro h hh s₀ s hs
  refine wpb_perform fun s' h' => ⟨trivial, fun s'' h'' => ⟨rfl, ?_⟩⟩
  exact hg.around h hh _ _ _ (ho _ _ (hg.around h hh _ _ _ hs h')) h''

variable [∀ l, IsPreorder σ (same l)] [IsPreorder σ R]

theorem bind {p : Prog L Op σ α} {f : α → Prog L Op σ β} (hp : p.AsAlone same R J E g)
    (hf : ∀ a, (f a).AsAlone same R J E g) : (p >>= f).AsAlone same R J E g := by
  intro h hh s₀ s hs
  refine wpb_bind (wpb_mono (hp h hh s₀ s hs) ?_)
  rintro _ s' ⟨rfl, hs'⟩
  rw [run_bind]
  exact hf _ h hh _ _ hs'

theorem guarded (hg : Shields same R J E g) {l : L} {m : Mode} {p : Prog L Op σ α}
    (hp : p.AsAlone same R J E g) : (Prog.guarded l m p).AsAlone same R J E g := by
  intro h hh s₀ s hs
  have hh' : g ⊆ (l, m) :: h := List.subset_cons_of_subset _ hh
  refine wpb_guarded fun s' h' => wpb_mono (hp _ hh' s₀ s' (hg.around h hh _ _ _ hs h')) ?_
  rintro _ s₂ ⟨rfl, h₂⟩ s₃ h₃
  rw [run_guarded]
  exact ⟨hg.puts h hh s₃, fun s₄ h₄ =>
    ⟨rfl, hg.around h hh _ _ _ (hg.around _ hh' _ _ _ h₂ h₃) h₄⟩⟩

theorem forM (hg : Shields same R J E g) {f : α → Prog L Op σ Unit} {l : List α}
    (hf : ∀ a, (f a).AsAlone same R J E g) : (forM l f).AsAlone same R J E g := by
  induction l with
  | nil => exact pure hg ()
  | cons a l ih =>
    rw [List.forM_cons]
    exact (hf a).bind fun _ => ih

theorem tryForM (hg : Shields same R J E g) {f : α → Prog L Op σ (Option Unit)} {l : List α}
    (hf : ∀ a, (f a).AsAlone same R J E g) : (Prog.tryForM f l).AsAlone same R J E g := by
  induction l with
  | nil => exact pure hg _
  | cons a l ih =>
    refine (hf a).bind fun r => ?_
    cases r with
    | some => exact ih
    | none => exact pure hg none

end AsAlone

end Prog
end Guarded
