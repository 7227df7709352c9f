import FeatureProbeServer.Lib.Interleave
import Mathlib.Order.Defs.Unbundled

/-!
# Rely and guarantee

`wp R p Q s`: started on `s`, with the other calls changing the store only along `R`, every
operation of `p` changes it along `R` too, and `p` returns with `Q`. Locks play no part: the rule
is about the operations, in any interleaving. `Meets.reach` is its soundness: when every call of a
configuration meets its own `wp`, the store only moves along `R` and every returned call has its `Q`.
-/

namespace Guarded

/-- `P` is kept by every `R`-step. -/
def Stable {σ : Type} (R : σ → σ → Prop) (P : σ → Prop) : Prop := ∀ s s', R s s' → P s → P s'

theorem stable_true {σ : Type} (R : σ → σ → Prop) : Stable R fun _ => True := fun _ _ _ _ => trivial

/-- The steps that keep `P`. -/
def Keeps {σ : Type} (P : σ → Prop) (s s' : σ) : Prop := P s → P s'

instance {σ : Type} (P : σ → Prop) : IsPreorder σ (Keeps P) where
  refl _ := id
  trans _ _ _ h h' := h' ∘ h

namespace Prog
variable {L Op σ α β : Type} [Interp Op σ]

def wp (R : σ → σ → Prop) : Prog L Op σ α → (α → σ → Prop) → σ → Prop
  | .pure a, Q, s => ∀ s', R s s' → Q a s'
  | .acquire _ _ p, Q, s => p.wp R Q s
  | .release _ _ p, Q, s => p.wp R Q s
  | .op o k, Q, s => ∀ s', R s s' → R s' (Interp.exec o s') ∧ (k s').wp R Q (Interp.exec o s')

variable {R : σ → σ → Prop}

theorem wp_mono {p : Prog L Op σ α} {Q Q' : α → σ → Prop} {s : σ} (h : p.wp R Q s)
    (hQ : ∀ a s', Q a s' → Q' a s') : p.wp R Q' s := by
  induction p generalizing s with
  | pure a => exact fun s' hs => hQ a s' (h s' hs)
  | acquire l m p ih => exact ih h
  | release l m p ih => exact ih h
  | op o k ih => exact fun s' hs => ⟨(h s' hs).1, ih s' (h s' hs).2⟩

/-- The frame rule: what is stable and holds before holds after. -/
theorem wp_frame {T : σ → Prop} (hT : Stable R T) {p : Prog L Op σ α} {Q : α → σ → Prop} {s : σ}
    (h : p.wp R Q s) (hs : T s) : p.wp R (fun a s' => Q a s' ∧ T s') s := by
  induction p generalizing s with
  | pure a => exact fun s' h' => ⟨h s' h', hT s s' h' hs⟩
  | acquire l m p ih => exact ih h hs
  | release l m p ih => exact ih h hs
  | op o k ih =>
    intro s' h'
    obtain ⟨h₁, h₂⟩ := h s' h'
    exact ⟨h₁, ih s' h₂ (hT _ _ h₁ (hT _ _ h' hs))⟩

section
variable [IsPreorder σ R]

/-- Steps of the others before the call moves do not matter. -/
theorem wp_stable {p : Prog L Op σ α} {Q : α → σ → Prop} {s s' : σ} (h : p.wp R Q s)
    (hs : R s s') : p.wp R Q s' := by
  induction p with
  | pure a => exact fun s'' h' => h s'' (trans_of R hs h')
  | acquire l m p ih => exact ih h
  | release l m p ih => exact ih h
  | op o k _ => exact fun s'' h' => h s'' (trans_of R hs h')

theorem wp_bind {p : Prog L Op σ α} {f : α → Prog L Op σ β} {Q : β → σ → Prop} {s : σ}
    (h : p.wp R (fun a s' => (f a).wp R Q s') s) : (p >>= f).wp R Q s := by
  induction p generalizing s with
  | pure a => exact h s (refl_of R s)
  | acquire l m p ih => exact ih h
  | release l m p ih => exact ih h
  | op o k ih => exact fun s' hs => ⟨(h s' hs).1, ih s' (h s' hs).2⟩

theorem wp_guarded {l : L} {m : Mode} {p : Prog L Op σ α} {Q : α → σ → Prop} {s : σ}
    (h : p.wp R (fun a s' => ∀ s'', R s' s'' → Q a s'') s) : (guarded l m p).wp R Q s :=
  wp_bind (p := p) (wp_mono h fun _ _ h' => h')

/-- A loop: the invariant is stable and every round keeps it. -/
theorem wp_forM {I : σ → Prop} (hI : Stable R I)
    {f : α → Prog L Op σ Unit} {l : List α}
    (hf : ∀ a ∈ l, ∀ s, I s → (f a).wp R (fun _ s' => I s') s) {s : σ} (h : I s) :
    (forM l f).wp R (fun _ s' => I s') s := by
  induction l generalizing s with
  | nil => exact fun s' hs => hI s s' hs h
  | cons a l ih =>
    rw [List.forM_cons]
    exact wp_bind (wp_mono (hf a (by simp) s h) fun _ s' h' =>
      ih (fun a' ha' => hf a' (by simp [ha'])) h')

/-- A loop that may be given up: `I done` holds between two rounds, `K` where a round gave up. -/
theorem wp_tryForM {I : List α → σ → Prop} {K : σ → Prop} (hI : ∀ d, Stable R (I d)) (hK : Stable R K)
    {f : α → Prog L Op σ (Option Unit)} {l : List α} (hf : ∀ d a, d ++ [a] <+: l → ∀ s, I d s →
      (f a).wp R (fun r s' => r.elim (K s') fun _ => I (d ++ [a]) s') s) {s : σ} (h : I [] s) :
    (tryForM f l).wp R (fun r s' => r.elim (K s') fun _ => I l s') s := by
  have rest : ∀ d l' : List α, d ++ l' = l → ∀ s, I d s →
      (tryForM f l').wp R (fun r s' => r.elim (K s') fun _ => I l s') s := by
    intro d l'
    induction l' generalizing d with
    | nil =>
      rintro rfl s hd
      rw [List.append_nil]
      exact fun s' hs => hI d s s' hs hd
    | cons a l' ih =>
      intro hl s hd
      have hl' : d ++ [a] ++ l' = l := by rw [List.append_assoc]; exact hl
      refine wp_bind (wp_mono (hf d a ⟨l', hl'⟩ s hd) fun r s' hr => ?_)
      cases r with
      | some => exact ih _ hl' s' hr
      | none => exact fun s'' hs => hK s' s'' hs hr
  exact rest [] l rfl s h

end

theorem wp_reading {o : Op} {f : σ → α} {Q : α → σ → Prop} {s : σ}
    (h : ∀ s', R s s' → R s' (Interp.exec o s') ∧ ∀ s'', R (Interp.exec o s') s'' → Q (f s') s'') :
    (reading o f : Prog L Op σ α).wp R Q s := h

theorem wp_perform {o : Op} {Q : Unit → σ → Prop} {s : σ}
    (h : ∀ s', R s s' → R s' (Interp.exec o s') ∧ ∀ s'', R (Interp.exec o s') s'' → Q () s'') :
    (perform o : Prog L Op σ Unit).wp R Q s := h

/-- What `wp` says of the call alone. -/
theorem wp_run [IsPreorder σ R] {p : Prog L Op σ α} {Q : α → σ → Prop} {s : σ} (h : p.wp R Q s) :
    R s (p.run s).2 ∧ Q (p.run s).1 (p.run s).2 := by
  induction p generalizing s with
  | pure a => exact ⟨refl_of R s, h s (refl_of R s)⟩
  | acquire l m p ih => exact ih h
  | release l m p ih => exact ih h
  | op o k ih =>
    obtain ⟨h₁, h₂⟩ := h s (refl_of R s)
    obtain ⟨h₃, h₄⟩ := ih s h₂
    exact ⟨trans_of R h₁ h₃, h₄⟩

/-! ### Programs that only read -/

def ReadOnly : Prog L Op σ α → Prop
  | .pure _ => True
  | .acquire _ _ p => p.ReadOnly
  | .release _ _ p => p.ReadOnly
  | .op o k => (∀ s : σ, Interp.exec o s = s) ∧ ∀ s, (k s).ReadOnly

theorem ReadOnly.pure (a : α) : (Pure.pure a : Prog L Op σ α).ReadOnly := trivial

theorem ReadOnly.bind {p : Prog L Op σ α} {f : α → Prog L Op σ β} (hp : p.ReadOnly)
    (hf : ∀ a, (f a).ReadOnly) : (p >>= f).ReadOnly := by
  induction p with
  | pure a => exact hf a
  | acquire l m p ih => exact ih hp
  | release l m p ih => exact ih hp
  | op o k ih => exact ⟨hp.1, fun s => ih s (hp.2 s)⟩

theorem ReadOnly.guarded {l : L} {m : Mode} {p : Prog L Op σ α} (hp : p.ReadOnly) :
    (Prog.guarded l m p).ReadOnly :=
  ReadOnly.bind (p := p) hp fun _ => trivial

theorem ReadOnly.wp [IsPreorder σ R] {p : Prog L Op σ α} (hp : p.ReadOnly) (s : σ) :
    p.wp R (fun _ _ => True) s := by
  induction p generalizing s with
  | pure a => exact fun _ _ => trivial
  | acquire l m p ih => exact ih hp s
  | release l m p ih => exact ih hp s
  | op o k ih =>
    intro s' _
    rw [hp.1 s']
    exact ⟨refl_of R s', ih s' (hp.2 s') s'⟩

theorem ReadOnly.run {p : Prog L Op σ α} (hp : p.ReadOnly) (s : σ) : (p.run s).2 = s := by
  induction p with
  | pure a => rfl
  | acquire l m p ih => exact ih hp
  | release l m p ih => exact ih hp
  | op o k ih =>
    show ((k s).run (Interp.exec o s)).2 = s
    rw [hp.1 s]
    exact ih s (hp.2 s)

end Prog

namespace Config
variable {L Op σ α : Type} [Interp Op σ] {R : σ → σ → Prop} {Q : Nat → α → σ → Prop}

/-- Every call meets its own `wp` on the current store. -/
def Meets (R : σ → σ → Prop) (Q : Nat → α → σ → Prop) (c : Config L Op σ α) : Prop :=
  ∀ (i : Nat) (t : Thread L Op σ α), c.threads[i]? = some t → t.prog.wp R (Q i) c.store

theorem Meets.start {s : σ} {ps : List (Prog L Op σ α)}
    (h : ∀ (i : Nat) (p : Prog L Op σ α), ps[i]? = some p → p.wp R (Q i) s) :
    (Config.start s ps).Meets R Q := by
  intro i t ht
  rw [Config.start, List.getElem?_map, Option.map_eq_some_iff] at ht
  obtain ⟨p, hp, rfl⟩ := ht
  exact h i p hp

variable [IsPreorder σ R]

theorem Meets.result {c : Config L Op σ α} (h : c.Meets R Q) {i : Nat} {t : Thread L Op σ α}
    (ht : c.threads[i]? = some t) {a : α} (ha : t.result = some a) : Q i a c.store := by
  have hp := h i t ht
  obtain ⟨p, held, w⟩ := t
  cases p with
  | pure b => cases ha; exact hp _ (refl_of R _)
  | _ => cases ha

variable [DecidableEq L]

theorem Meets.step {c c' : Config L Op σ α} {i : Nat} {e : Event L Op} (h : c.Meets R Q)
    (hs : Step c i e c') : R c.store c'.store ∧ c'.Meets R Q := by
  have moved : ∀ {t t' : Thread L Op σ α} {s' : σ}, c.threads[i]? = some t → R c.store s' →
      t'.prog.wp R (Q i) s' → ∀ (j : Nat) (u : Thread L Op σ α),
      (c.threads.set i t')[j]? = some u → u.prog.wp R (Q j) s' := by
    intro t t' s' ht hs' ht' j u hu
    rw [getElem?_set_of ht] at hu
    split at hu
    · subst j; cases hu; exact ht'
    · exact Prog.wp_stable (h j u hu) hs'
  have refl := refl_of R c.store
  cases hs with
  | request ht =>
    have hp := h i _ ht
    exact ⟨refl, moved ht refl hp⟩
  | acquire ht _ =>
    have hp := h i _ ht
    exact ⟨refl, moved ht refl hp⟩
  | release ht =>
    have hp := h i _ ht
    exact ⟨refl, moved ht refl hp⟩
  | op ht =>
    obtain ⟨h₁, h₂⟩ := h i _ ht c.store refl
    exact ⟨h₁, moved ht h₁ h₂⟩

theorem Meets.reach {c c' : Config L Op σ α} (h : c.Meets R Q) (hc : Reach c c') :
    R c.store c'.store ∧ c'.Meets R Q := by
  refine hc.inv (I := fun c' => R c.store c'.store ∧ c'.Meets R Q) ⟨refl_of R _, h⟩ ?_
  intro c₁ i e c₂ ⟨h₁, h₂⟩ hs
  obtain ⟨h₃, h₄⟩ := h₂.step hs
  exact ⟨trans_of R h₁ h₃, h₄⟩

end Config
end Guarded
