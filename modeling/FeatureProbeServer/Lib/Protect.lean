import FeatureProbeServer.Lib.Within
import FeatureProbeServer.Lib.Discipline

/-!
# What locks protect

`same l` relates stores that agree on what the lock `l` protects. Under a discipline whose operations
change, of what is protected, only what their call holds for writing (`Owns`), whatever a call holds
a guard of stays as it is while the others move: they change the store `Around` its guards.
`Prog.wpl` is rely and guarantee with that knowledge: the rely condition of a call shrinks with every
guard it takes.
-/

namespace Guarded

section
variable {L σ : Type} (same : L → σ → σ → Prop) (R : σ → σ → Prop)

/-- A change along `R` that leaves alone what the guards `h` protect. -/
structure Around (h : List (L × Mode)) (s s' : σ) : Prop where
  rel : R s s'
  held : ∀ l m, (l, m) ∈ h → same l s s'

/-- A change of nothing but what is held for writing. -/
def Owns (h : List (L × Mode)) (s s' : σ) : Prop := ∀ l, same l s s' ∨ (l, .write) ∈ h

instance [∀ l, IsPreorder σ (same l)] [IsPreorder σ R] (h : List (L × Mode)) :
    IsPreorder σ (Around same R h) where
  refl s := ⟨refl_of R s, fun l _ _ => refl_of (same l) s⟩
  trans _ _ _ h₁ h₂ := ⟨trans_of R h₁.rel h₂.rel, fun l m hm =>
    trans_of (same l) (h₁.held l m hm) (h₂.held l m hm)⟩

variable {same R}

theorem Around.mono {R' : σ → σ → Prop} (hR : ∀ s s', R s s' → R' s s') {h h' : List (L × Mode)}
    (hh : h' ⊆ h) {s s' : σ} (hs : Around same R h s s') : Around same R' h' s s' :=
  ⟨hR _ _ hs.rel, fun l m hm => hs.held l m (hh hm)⟩

theorem Around.tail {g : L × Mode} {h : List (L × Mode)} {s s' : σ} (hs : Around same R (g :: h) s s') :
    Around same R h s s' := hs.mono (fun _ _ => id) (List.subset_cons_self _ _)

end

namespace Config
variable {L Op σ α φ : Type} [DecidableEq L] [Interp Op σ] {same : L → σ → σ → Prop}
  [∀ l, IsPreorder σ (same l)] {D : Discipline L Op σ φ} {fin : α → φ → List (L × Mode) → Prop}
  {ph : Nat → φ}

/-- A step of another call leaves alone what a call holds a guard of. -/
theorem Follow.kept {c c' : Config L Op σ α} (hc : c.Follow D fin ph) (hx : c.Exclusive)
    (hD : ∀ ph h o s ph', D.inv ph h → D.op ph h o s ph' → Owns same h s (Interp.exec o s))
    {i j : Nat} {e : Event L Op} (hs : Step c i e c') (hij : i ≠ j) {t : Thread L Op σ α}
    (ht : c.threads[j]? = some t) {l : L} {m : Mode} (hm : (l, m) ∈ t.held) :
    same l c.store c'.store := by
  rcases hc.step hs with ⟨-, hst, -⟩ | ⟨o, u, q, -, hu, ho, hst, -⟩
  · rw [hst]
    exact refl_of (same l) _
  · rw [hst]
    rcases hD _ _ _ _ _ (hc i u hu).inv ho l with h | h
    · exact h
    · exact absurd hm (hx i j u t l m hij hu ht h)

end Config

/-! ### Rely and guarantee under guards -/

namespace Prog
variable {L Op σ α β : Type} [DecidableEq L] [Interp Op σ]

/-- Started with the guards `h` on `s`, while the others change the store around its guards along `R`,
the call changes it along `G`, makes `J` hold whenever it puts a guard down, of those that are left,
and returns with `Q`. -/
def wpl (same : L → σ → σ → Prop) (R G : σ → σ → Prop) (J : List (L × Mode) → σ → Prop) :
    Prog L Op σ α → (α → List (L × Mode) → σ → Prop) → List (L × Mode) → σ → Prop
  | .pure a, Q, h, s => ∀ s', Around same R h s s' → Q a h s'
  | .acquire l m p, Q, h, s => ∀ s', Around same R h s s' → p.wpl same R G J Q ((l, m) :: h) s'
  | .release l m p, Q, h, s => ∀ s', Around same R h s s' →
      J (h.erase (l, m)) s' ∧ p.wpl same R G J Q (h.erase (l, m)) s'
  | .op o k, Q, h, s => ∀ s', Around same R h s s' →
      G s' (Interp.exec o s') ∧ (k s').wpl same R G J Q h (Interp.exec o s')

/-- `wpl` of a part of a call that puts down the guards it takes. -/
def wpb (same : L → σ → σ → Prop) (R G : σ → σ → Prop) (J : List (L × Mode) → σ → Prop)
    (p : Prog L Op σ α) (Q : α → σ → Prop) (h : List (L × Mode)) (s : σ) : Prop :=
  p.wpl same R G J (fun a h' s' => h' = h ∧ Q a s') h s

variable {same : L → σ → σ → Prop} {R G : σ → σ → Prop} {J : List (L × Mode) → σ → Prop}
  {h : List (L × Mode)} {s : σ}

theorem wpl_mono {p : Prog L Op σ α} {Q Q' : α → List (L × Mode) → σ → Prop}
    (hp : p.wpl same R G J Q h s) (hQ : ∀ a h s, Q a h s → Q' a h s) : p.wpl same R G J Q' h s := by
  induction p generalizing h s with
  | pure a => exact fun s' hs => hQ a h s' (hp s' hs)
  | acquire l m p ih => exact fun s' hs => ih (hp s' hs)
  | release l m p ih => exact fun s' hs => ⟨(hp s' hs).1, ih (hp s' hs).2⟩
  | op o k ih => exact fun s' hs => ⟨(hp s' hs).1, ih s' (hp s' hs).2⟩

/-- The rule of consequence: the others do no more, the call promises no more. -/
theorem wpl_conseq {R' G' : σ → σ → Prop} {J' : List (L × Mode) → σ → Prop} {p : Prog L Op σ α}
    {Q : α → List (L × Mode) → σ → Prop} (hp : p.wpl same R G J Q h s) (hR : ∀ s s', R' s s' → R s s')
    (hG : ∀ s s', G s s' → G' s s') (hJ : ∀ h s, J h s → J' h s) : p.wpl same R' G' J' Q h s := by
  have around : ∀ {h s s'}, Around same R' h s s' → Around same R h s s' :=
    fun hs => hs.mono hR fun _ => id
  induction p generalizing h s with
  | pure a => exact fun s' hs => hp s' (around hs)
  | acquire l m p ih => exact fun s' hs => ih (hp s' (around hs))
  | release l m p ih => exact fun s' hs => ⟨hJ _ _ (hp s' (around hs)).1, ih (hp s' (around hs)).2⟩
  | op o k ih => exact fun s' hs => ⟨hG _ _ (hp s' (around hs)).1, ih s' (hp s' (around hs)).2⟩

theorem wpb_mono {p : Prog L Op σ α} {Q Q' : α → σ → Prop} (hp : p.wpb same R G J Q h s)
    (hQ : ∀ a s, Q a s → Q' a s) : p.wpb same R G J Q' h s :=
  wpl_mono hp fun a _ s ⟨hh, hq⟩ => ⟨hh, hQ a s hq⟩

theorem wpb_wpl {p : Prog L Op σ α} {Q : α → σ → Prop} (hp : p.wpb same R G J Q h s) :
    p.wpl same R G J (fun _ _ _ => True) h s := wpl_mono hp fun _ _ _ _ => trivial

/-- The frame rule: what is stable, and kept by the call, holds after if before. -/
theorem wpl_frame {T : σ → Prop} (hR : Stable R T) (hG : Stable G T) {p : Prog L Op σ α}
    {Q : α → List (L × Mode) → σ → Prop} (hp : p.wpl same R G J Q h s) (hs : T s) :
    p.wpl same R G J (fun a h' s' => Q a h' s' ∧ T s') h s := by
  induction p generalizing h s with
  | pure a => exact fun s' h' => ⟨hp s' h', hR s s' h'.rel hs⟩
  | acquire l m p ih => exact fun s' h' => ih (hp s' h') (hR s s' h'.rel hs)
  | release l m p ih => exact fun s' h' => ⟨(hp s' h').1, ih (hp s' h').2 (hR s s' h'.rel hs)⟩
  | op o k ih =>
    intro s' h'
    obtain ⟨hg, hk⟩ := hp s' h'
    exact ⟨hg, ih s' hk (hG _ _ hg (hR s s' h'.rel hs))⟩

theorem wpb_frame {T : σ → Prop} (hR : Stable R T) (hG : Stable G T) {p : Prog L Op σ α}
    {Q : α → σ → Prop} (hp : p.wpb same R G J Q h s) (hs : T s) :
    p.wpb same R G J (fun a s' => Q a s' ∧ T s') h s :=
  wpl_mono (wpl_frame hR hG hp hs) fun _ _ _ hq => ⟨hq.1.1, hq.1.2, hq.2⟩

theorem wpb_pure {a : α} {Q : α → σ → Prop} (hq : ∀ s', Around same R h s s' → Q a s') :
    (Pure.pure a : Prog L Op σ α).wpb same R G J Q h s :=
  fun s' hs => ⟨rfl, hq s' hs⟩

theorem wpb_reading {o : Op} {f : σ → α} {Q : α → σ → Prop}
    (ho : ∀ s', Around same R h s s' → G s' (Interp.exec o s') ∧
      ∀ s'', Around same R h (Interp.exec o s') s'' → Q (f s') s'') :
    (reading o f : Prog L Op σ α).wpb same R G J Q h s :=
  fun s' hs => ⟨(ho s' hs).1, fun s'' hs' => ⟨rfl, (ho s' hs).2 s'' hs'⟩⟩

theorem wpb_perform {o : Op} {Q : Unit → σ → Prop}
    (ho : ∀ s', Around same R h s s' → G s' (Interp.exec o s') ∧
      ∀ s'', Around same R h (Interp.exec o s') s'' → Q () s'') :
    (perform o : Prog L Op σ Unit).wpb same R G J Q h s :=
  fun s' hs => ⟨(ho s' hs).1, fun s'' hs' => ⟨rfl, (ho s' hs).2 s'' hs'⟩⟩

/-- What every operation of the call keeps within is guaranteed too. -/
theorem wpl_within {E : σ → σ → Prop} {p : Prog L Op σ α} {Q : α → List (L × Mode) → σ → Prop}
    (hp : p.wpl same R G J Q h s) (hE : p.Within E) :
    p.wpl same R (fun s s' => G s s' ∧ E s s') J Q h s := by
  induction p generalizing h s with
  | pure a => exact hp
  | acquire l m p ih => exact fun s' hs => ih (hp s' hs) hE
  | release l m p ih => exact fun s' hs => ⟨(hp s' hs).1, ih (hp s' hs).2 hE⟩
  | op o k ih => exact fun s' hs => ⟨⟨(hp s' hs).1, hE.1 s'⟩, ih s' (hp s' hs).2 (hE.2 s')⟩

theorem Within.wpl {E : σ → σ → Prop} {p : Prog L Op σ α} (hp : p.Within E) (hG : ∀ s s', E s s' → G s s')
    (hJ : ∀ h s, J h s) : p.wpl same R G J (fun _ _ _ => True) h s := by
  induction p generalizing h s with
  | pure a => exact fun _ _ => trivial
  | acquire l m p ih => exact fun _ _ => ih hp
  | release l m p ih => exact fun s' _ => ⟨hJ _ s', ih hp⟩
  | op o k ih => exact fun s' _ => ⟨hG s' _ (hp.1 s'), ih s' (hp.2 s')⟩

section
variable [∀ l, IsPreorder σ (same l)] [IsPreorder σ R]

/-- Steps of the others before the call moves do not matter. -/
theorem wpl_stable {p : Prog L Op σ α} {Q : α → List (L × Mode) → σ → Prop} {s' : σ}
    (hp : p.wpl same R G J Q h s) (hs : Around same R h s s') : p.wpl same R G J Q h s' := by
  cases p with
  | pure a => exact fun s'' h' => hp s'' (trans_of (Around same R h) hs h')
  | acquire l m p => exact fun s'' h' => hp s'' (trans_of (Around same R h) hs h')
  | release l m p => exact fun s'' h' => hp s'' (trans_of (Around same R h) hs h')
  | op o k => exact fun s'' h' => hp s'' (trans_of (Around same R h) hs h')

theorem wpl_bind {p : Prog L Op σ α} {f : α → Prog L Op σ β} {Q : β → List (L × Mode) → σ → Prop}
    (hp : p.wpl same R G J (fun a h' s' => (f a).wpl same R G J Q h' s') h s) :
    (p >>= f).wpl same R G J Q h s := by
  induction p generalizing h s with
  | pure a => exact hp s (refl_of _ s)
  | acquire l m p ih => exact fun s' hs => ih (hp s' hs)
  | release l m p ih => exact fun s' hs => ⟨(hp s' hs).1, ih (hp s' hs).2⟩
  | op o k ih => exact fun s' hs => ⟨(hp s' hs).1, ih s' (hp s' hs).2⟩

theorem wpb_bind {p : Prog L Op σ α} {f : α → Prog L Op σ β} {Q : β → σ → Prop}
    (hp : p.wpb same R G J (fun a s' => (f a).wpb same R G J Q h s') h s) :
    (p >>= f).wpb same R G J Q h s := by
  refine wpl_bind (wpl_mono hp ?_)
  rintro a _ s ⟨rfl, hf⟩
  exact hf

theorem wpl_map {p : Prog L Op σ α} {g : α → β} (hp : p.wpl same R G J (fun _ _ _ => True) h s) :
    (p >>= fun a => Pure.pure (g a)).wpl same R G J (fun _ _ _ => True) h s :=
  wpl_bind (wpl_mono hp fun _ _ _ _ _ _ => trivial)

theorem wpb_guarded {l : L} {m : Mode} {p : Prog L Op σ α} {Q : α → σ → Prop}
    (hp : ∀ s', Around same R h s s' → p.wpb same R G J (fun a s'' =>
      ∀ s₃, Around same R ((l, m) :: h) s'' s₃ → J h s₃ ∧ ∀ s₄, Around same R h s₃ s₄ → Q a s₄)
      ((l, m) :: h) s') :
    (guarded l m p).wpb same R G J Q h s := by
  intro s' hs
  refine wpl_bind (wpl_mono (hp s' hs) ?_)
  rintro a _ s₂ ⟨rfl, hq⟩ s₃ h₃
  obtain ⟨hj, hq⟩ := hq s₃ h₃
  rw [List.erase_cons_head]
  exact ⟨hj, fun s₄ h₄ => ⟨rfl, hq s₄ h₄⟩⟩

/-- A loop over `l`: `I done` holds between two rounds, where `done` is what has been gone over. -/
theorem wpb_forM {I : List α → σ → Prop}
    (hI : ∀ d s s', Around same R h s s' → I d s → I d s') {f : α → Prog L Op σ Unit} {l : List α}
    (hf : ∀ d a, d ++ [a] <+: l → ∀ s, I d s → (f a).wpb same R G J (fun _ s' => I (d ++ [a]) s') h s)
    (h₀ : I [] s) : (forM l f).wpb same R G J (fun _ s' => I l s') h s := by
  have rest : ∀ d l' : List α, d ++ l' = l → ∀ s, I d s →
      (forM l' f).wpb same R G J (fun _ s' => I l s') h s := by
    intro d l'
    induction l' generalizing d with
    | nil =>
      rintro rfl s hd
      rw [List.append_nil]
      exact wpb_pure fun s' hs => hI d s s' hs hd
    | cons a l' ih =>
      intro hl s hd
      have hl' : d ++ [a] ++ l' = l := by rw [List.append_assoc]; exact hl
      rw [List.forM_cons]
      exact wpb_bind (wpb_mono (hf d a ⟨l', hl'⟩ s hd) fun _ s' hs' => ih _ hl' s' hs')
  exact rest [] l rfl s h₀

/-- The same of a loop that may be given up, with `K` where a round gave up. -/
theorem wpb_tryForM {I : List α → σ → Prop} {K : σ → Prop}
    (hI : ∀ d s s', Around same R h s s' → I d s → I d s') (hK : ∀ s s', Around same R h s s' → K s → K s')
    {f : α → Prog L Op σ (Option Unit)} {l : List α} (hf : ∀ d a, d ++ [a] <+: l → ∀ s, I d s →
      (f a).wpb same R G J (fun r s' => r.elim (K s') fun _ => I (d ++ [a]) s') h s) (h₀ : I [] s) :
    (tryForM f l).wpb same R G J (fun r s' => r.elim (K s') fun _ => I l s') h s := by
  have rest : ∀ d l' : List α, d ++ l' = l → ∀ s, I d s →
      (tryForM f l').wpb same R G J (fun r s' => r.elim (K s') fun _ => I l s') h s := by
    intro d l'
    induction l' generalizing d with
    | nil =>
      rintro rfl s hd
      rw [List.append_nil]
      exact wpb_pure fun s' hs => hI d s s' hs hd
    | cons a l' ih =>
      intro hl s hd
      have hl' : d ++ [a] ++ l' = l := by rw [List.append_assoc]; exact hl
      refine wpb_bind (wpb_mono (hf d a ⟨l', hl'⟩ s hd) fun r s' hr => ?_)
      cases r with
      | some => exact ih _ hl' s' hr
      | none => exact wpb_pure fun s'' hs => hK s' s'' hs hr
  exact rest [] l rfl s h₀

end

end Prog

namespace Config
variable {L Op σ α φ : Type} [DecidableEq L] [Interp Op σ] {same : L → σ → σ → Prop}
  {R G : Nat → σ → σ → Prop} {J : Nat → List (L × Mode) → σ → Prop}

/-- Every call meets its own `wpl` from where it is. -/
def MeetsL (same : L → σ → σ → Prop) (R G : Nat → σ → σ → Prop) (J : Nat → List (L × Mode) → σ → Prop)
    (c : Config L Op σ α) : Prop :=
  ∀ (i : Nat) (t : Thread L Op σ α), c.threads[i]? = some t →
    t.prog.wpl same (R i) (G i) (J i) (fun _ _ _ => True) t.held c.store

theorem MeetsL.start {s : σ} {ps : List (Prog L Op σ α)}
    (h : ∀ (i : Nat) (p : Prog L Op σ α), ps[i]? = some p →
      p.wpl same (R i) (G i) (J i) (fun _ _ _ => True) [] s) :
    (Config.start s ps).MeetsL same R G J := by
  intro i t ht
  rw [Config.start, List.getElem?_map, Option.map_eq_some_iff] at ht
  obtain ⟨p, hp, rfl⟩ := ht
  exact h i p hp

variable [∀ l, IsPreorder σ (same l)] [∀ i, IsPreorder σ (R i)] {c c' : Config L Op σ α}

/-- What a call that puts down a guard has made true. -/
theorem MeetsL.put (hc : c.MeetsL same R G J) {i : Nat} {l : L} {m : Mode}
    (hs : Step c i (.release l m) c') {t : Thread L Op σ α} (ht : c'.threads[i]? = some t) :
    J i t.held c'.store := by
  generalize he : Event.release l m = e at hs
  cases hs with
  | release hu =>
    obtain rfl := Option.some.inj ((getElem?_set_self hu _).symm.trans ht)
    exact (hc i _ hu _ (refl_of _ _)).1
  | _ => cases he

/-- The mover keeps its guarantee, and every call still meets its own `wpl`. -/
theorem MeetsL.step {D : Discipline L Op σ φ} {fin : α → φ → List (L × Mode) → Prop} {ph : Nat → φ}
    (hc : c.MeetsL same R G J) (hf : c.Follow D fin ph) (hx : c.Exclusive)
    (hD : ∀ ph h o s ph', D.inv ph h → D.op ph h o s ph' → Owns same h s (Interp.exec o s))
    (hG : ∀ i j, i ≠ j → ∀ s s', G i s s' → R j s s') {i : Nat} {e : Event L Op}
    (hs : Step c i e c') : (c'.store = c.store ∨ G i c.store c'.store) ∧ c'.MeetsL same R G J := by
  have others : ∀ j t, i ≠ j → c.threads[j]? = some t → (c'.store = c.store ∨ G i c.store c'.store) →
      t.prog.wpl same (R j) (G j) (J j) (fun _ _ _ => True) t.held c'.store := by
    intro j t hij ht hst
    refine Prog.wpl_stable (hc j t ht) ⟨?_, fun l m hm => hf.kept hx hD hs hij ht hm⟩
    rcases hst with hst | hst
    · rw [hst]
      exact refl_of (R j) _
    · exact hG i j hij _ _ hst
  have moved : ∀ {t t' : Thread L Op σ α}, c.threads[i]? = some t → c'.threads = c.threads.set i t' →
      (c'.store = c.store ∨ G i c.store c'.store) →
      t'.prog.wpl same (R i) (G i) (J i) (fun _ _ _ => True) t'.held c'.store → c'.MeetsL same R G J := by
    intro t t' ht hc' hst hp j u hu
    rw [hc', getElem?_set_of ht] at hu
    split at hu
    · subst j; cases hu; exact hp
    · exact others j u (Ne.symm ‹_›) hu hst
  cases hs with
  | request ht =>
    have hp := hc i _ ht
    exact ⟨.inl rfl, moved ht rfl (.inl rfl) hp⟩
  | acquire ht _ =>
    have hp := hc i _ ht c.store (refl_of _ _)
    exact ⟨.inl rfl, moved ht rfl (.inl rfl) hp⟩
  | release ht =>
    have hp := hc i _ ht c.store (refl_of _ _)
    exact ⟨.inl rfl, moved ht rfl (.inl rfl) hp.2⟩
  | op ht =>
    obtain ⟨hg, hp⟩ := hc i _ ht c.store (refl_of _ _)
    exact ⟨.inr hg, moved ht rfl (.inr hg) hp⟩

end Config
end Guarded
