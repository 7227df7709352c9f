import FeatureProbeServer.Lib.Interleave

/-!
# Disciplines

A `Discipline` says what a call may do next from where it is in its protocol (a phase `φ`) and the
guards it holds: which guards it takes and drops, which operations it runs and the phase after each.
`Prog.Follows` checks a program against it, guards being dropped in the reverse order of their
taking; `Follow.step` carries the check along a run, each thread with a phase of its own. `solo` runs
one call to the end of a part of it while the others stand idle, with the effect of `Prog.run`.
-/

namespace Guarded

structure Discipline (L Op σ φ : Type) where
  /-- The guards held in a phase. -/
  inv : φ → List (L × Mode) → Prop
  acquire : List (L × Mode) → L → Mode → Prop
  op : φ → List (L × Mode) → Op → σ → φ → Prop

namespace Prog
variable {L Op σ φ α β : Type}

def Follows (D : Discipline L Op σ φ) (fin : α → φ → List (L × Mode) → Prop) :
    Prog L Op σ α → φ → List (L × Mode) → Prop
  | .pure a, ph, h => D.inv ph h ∧ fin a ph h
  | .acquire l m p, ph, h => D.inv ph h ∧ D.acquire h l m ∧ p.Follows D fin ph ((l, m) :: h)
  | .release l m p, ph, h => D.inv ph h ∧ ∃ h', h = (l, m) :: h' ∧ p.Follows D fin ph h'
  | .op o k, ph, h => D.inv ph h ∧ ∀ s, ∃ ph', D.op ph h o s ph' ∧ (k s).Follows D fin ph' h

variable {D : Discipline L Op σ φ} {ph : φ} {h : List (L × Mode)}

theorem Follows.inv {fin : α → φ → List (L × Mode) → Prop} {p : Prog L Op σ α}
    (hp : p.Follows D fin ph h) : D.inv ph h := by
  cases p <;> exact hp.1

theorem Follows.bind {fin : α → φ → List (L × Mode) → Prop} {fin' : β → φ → List (L × Mode) → Prop}
    {p : Prog L Op σ α} {f : α → Prog L Op σ β} (hp : p.Follows D fin ph h)
    (hf : ∀ a ph' h', D.inv ph' h' → fin a ph' h' → (f a).Follows D fin' ph' h') :
    (p >>= f).Follows D fin' ph h := by
  induction p generalizing ph h with
  | pure a => exact hf a ph h hp.1 hp.2
  | acquire l m p ih => exact ⟨hp.1, hp.2.1, ih hp.2.2⟩
  | release l m p ih =>
    obtain ⟨hi, h', rfl, hp⟩ := hp
    exact ⟨hi, h', rfl, ih hp⟩
  | op o k ih =>
    refine ⟨hp.1, fun s => ?_⟩
    obtain ⟨ph', ho, hk⟩ := hp.2 s
    exact ⟨ph', ho, ih s hk⟩

theorem Follows.guarded {fin : α → φ → List (L × Mode) → Prop} {l : L} {m : Mode}
    {p : Prog L Op σ α} (hi : D.inv ph h) (ha : D.acquire h l m)
    (hp : p.Follows D (fun a ph' h' => h' = (l, m) :: h ∧ D.inv ph' h ∧ fin a ph' h) ph ((l, m) :: h)) :
    (guarded l m p).Follows D fin ph h := by
  refine ⟨hi, ha, hp.bind fun a ph' h' hi' hq => ?_⟩
  obtain ⟨rfl, hi₁, hq⟩ := hq
  exact ⟨hi', h, rfl, hi₁, hq⟩

/-- A loop whose rounds start and end in the phase `ph` with the guards `h`. -/
theorem Follows.forM {f : α → Prog L Op σ Unit} {l : List α} (hi : D.inv ph h)
    (hf : ∀ a ∈ l, (f a).Follows D (fun _ ph' h' => ph' = ph ∧ h' = h) ph h) :
    (forM l f).Follows D (fun _ ph' h' => ph' = ph ∧ h' = h) ph h := by
  induction l with
  | nil => exact ⟨hi, rfl, rfl⟩
  | cons a l ih =>
    rw [List.forM_cons]
    refine (hf a (by simp)).bind fun _ ph' h' _ hq => ?_
    obtain ⟨rfl, rfl⟩ := hq
    exact ih fun a' ha' => hf a' (by simp [ha'])

theorem Follows.tryForM {f : α → Prog L Op σ (Option Unit)} {l : List α} (hi : D.inv ph h)
    (hf : ∀ a ∈ l, (f a).Follows D (fun _ ph' h' => ph' = ph ∧ h' = h) ph h) :
    (Prog.tryForM f l).Follows D (fun _ ph' h' => ph' = ph ∧ h' = h) ph h := by
  induction l with
  | nil => exact ⟨hi, rfl, rfl⟩
  | cons a l ih =>
    refine (hf a (by simp)).bind fun r ph' h' _ hq => ?_
    obtain ⟨rfl, rfl⟩ := hq
    cases r with
    | some => exact ih fun a' ha' => hf a' (by simp [ha'])
    | none => exact ⟨hi, rfl, rfl⟩

end Prog

namespace Config
variable {L Op σ φ α β : Type}

/-- Every thread follows the discipline from its phase in `ph`. -/
def Follow (D : Discipline L Op σ φ) (fin : α → φ → List (L × Mode) → Prop) (ph : Nat → φ)
    (c : Config L Op σ α) : Prop :=
  ∀ (i : Nat) (t : Thread L Op σ α), c.threads[i]? = some t → t.prog.Follows D fin (ph i) t.held

variable {D : Discipline L Op σ φ} {fin : α → φ → List (L × Mode) → Prop} {ph : Nat → φ}

theorem Follow.start {s : σ} {ps : List (Prog L Op σ α)} {q : φ}
    (h : ∀ p ∈ ps, p.Follows D fin q []) : (Config.start s ps).Follow D fin fun _ => q := by
  intro i t ht
  obtain ⟨p, hp, rfl⟩ := List.mem_map.mp (List.mem_of_getElem? ht)
  exact h p hp

theorem Follow.set {c c' : Config L Op σ α} (hc : c.Follow D fin ph) {i : Nat}
    {t t' : Thread L Op σ α} (ht : c.threads[i]? = some t) (hc' : c'.threads = c.threads.set i t')
    {q : φ} (hq : t'.prog.Follows D fin q t'.held) : c'.Follow D fin (Function.update ph i q) := by
  intro j u hu
  rw [hc', getElem?_set_of ht] at hu
  split at hu
  · subst j; cases hu
    rwa [Function.update_self]
  · rw [Function.update_of_ne ‹_›]
    exact hc j u hu

/-- No call asks for a guard that its own guards withhold. -/
def NoSelfBlock (D : Discipline L Op σ φ) : Prop :=
  ∀ h l, (D.acquire h l .read → (l, .write) ∉ h) ∧ (D.acquire h l .write → ∀ g ∈ h, g.1 ≠ l)

/-- Every call but `i` holds nothing and waits for nothing. -/
def Idle (c : Config L Op σ α) (i : Nat) : Prop :=
  ∀ (j : Nat) (t : Thread L Op σ α), j ≠ i → c.threads[j]? = some t → t.held = [] ∧ t.waiting = false

theorem idle_start (s : σ) (ps : List (Prog L Op σ α)) (i : Nat) : (start s ps).Idle i := by
  intro j t _ ht
  obtain ⟨p, -, rfl⟩ := List.mem_map.mp (List.mem_of_getElem? ht)
  exact ⟨rfl, rfl⟩

/-- When `i` has put down its guards as well, any other call may go on alone. -/
theorem Idle.handOver {c c' : Config L Op σ α} {i : Nat} (hc : c.Idle i) {p : Prog L Op σ α}
    (hi : c'.threads[i]? = some ⟨p, [], false⟩) (hj : ∀ j, j ≠ i → c'.threads[j]? = c.threads[j]?)
    (k : Nat) : c'.Idle k := by
  intro j t _ ht
  by_cases hji : j = i
  · subst j
    cases hi.symm.trans ht
    exact ⟨rfl, rfl⟩
  · exact hc j t hji ((hj j hji).symm.trans ht)

theorem Idle.free {c : Config L Op σ α} {i : Nat} (hc : c.Idle i) (hD : NoSelfBlock D) {l : L}
    {m : Mode} {p : Prog L Op σ α} {h : List (L × Mode)}
    (ht : c.threads[i]? = some ⟨.acquire l m p, h, true⟩) (ha : D.acquire h l m) : c.Free l m := by
  have cases : ∀ t ∈ c.threads, t = ⟨.acquire l m p, h, true⟩ ∨ t.held = [] ∧ t.waiting = false := by
    intro t hm
    obtain ⟨j, hj⟩ := List.mem_iff_getElem?.mp hm
    by_cases hji : j = i
    · subst j; exact .inl (Option.some.inj (hj.symm.trans ht))
    · exact .inr (hc j t hji hj)
  cases m with
  | read =>
    intro t hm
    rcases cases t hm with rfl | ⟨hh, hw⟩
    · exact ⟨(hD h l).1 ha, by rintro ⟨-, hr⟩; simp [Thread.request] at hr⟩
    · exact ⟨by simp [hh], by rintro ⟨hw', -⟩; rw [hw] at hw'; cases hw'⟩
  | write =>
    intro t hm
    rcases cases t hm with rfl | ⟨hh, -⟩
    · exact (hD h l).2 ha
    · simp [hh]

variable [DecidableEq L] [Interp Op σ]

/-- A step moves guards and leaves store and phases alone, or it runs an operation its thread's
phase permits. -/
theorem Follow.step {c c' : Config L Op σ α} {i : Nat} {e : Event L Op} (hc : c.Follow D fin ph)
    (hs : Step c i e c') :
    ((∀ o, e ≠ .op o) ∧ c'.store = c.store ∧ c'.Follow D fin ph) ∨
    ∃ o t q, e = .op o ∧ c.threads[i]? = some t ∧ D.op (ph i) t.held o c.store q ∧
      c'.store = Interp.exec o c.store ∧ c'.Follow D fin (Function.update ph i q) := by
  have same : ∀ {c' : Config L Op σ α} {t t'}, c.threads[i]? = some t →
      c'.threads = c.threads.set i t' → t'.prog.Follows D fin (ph i) t'.held → c'.Follow D fin ph := by
    intro c' t t' ht hc' hp
    rw [← Function.update_eq_self i ph]
    exact hc.set ht hc' hp
  cases hs with
  | request ht =>
    have hp := hc i _ ht
    exact .inl ⟨nofun, rfl, same ht rfl hp⟩
  | acquire ht _ =>
    have hp := hc i _ ht
    exact .inl ⟨nofun, rfl, same ht rfl hp.2.2⟩
  | release ht =>
    obtain ⟨-, h', rfl, hp⟩ := hc i _ ht
    exact .inl ⟨nofun, rfl, same ht rfl (by rwa [List.erase_cons_head])⟩
  | op ht =>
    obtain ⟨q, ho, hk⟩ := (hc i _ ht).2 c.store
    exact .inr ⟨_, _, q, rfl, ht, ho, rfl, hc.set ht rfl hk⟩

theorem Follow.reach {c c' : Config L Op σ α} (hc : c.Follow D fin ph) (h : Reach c c') :
    ∃ ph, c'.Follow D fin ph := by
  refine h.inv (I := fun c' => ∃ ph, c'.Follow D fin ph) ⟨ph, hc⟩ fun c₁ i e c₂ ⟨ph, hc⟩ hs => ?_
  rcases hc.step hs with ⟨-, -, h⟩ | ⟨_, _, q, -, -, -, -, h⟩
  · exact ⟨ph, h⟩
  · exact ⟨_, h⟩

/-! ### One call while the others stand idle -/

theorem Idle.step {c c' : Config L Op σ α} {i : Nat} {e : Event L Op} (hc : c.Idle i)
    (hs : Step c i e c') : c'.Idle i := by
  intro j t hj ht
  rw [hs.other hj] at ht
  exact hc j t hj ht

/-- The call `i` runs to the end of `p` while the others stand idle. -/
theorem solo (hD : NoSelfBlock D) {p : Prog L Op σ β} {f : β → Prog L Op σ α} {c : Config L Op σ α}
    {i : Nat} {q : φ} {h : List (L × Mode)} {fin : β → φ → List (L × Mode) → Prop}
    (hp : p.Follows D fin q h) (ht : c.threads[i]? = some ⟨p >>= f, h, false⟩) (hc : c.Idle i) :
    ∃ c' h' q', Reach c c' ∧ fin (p.run c.store).1 q' h' ∧ c'.store = (p.run c.store).2 ∧
      c'.threads[i]? = some ⟨f (p.run c.store).1, h', false⟩ ∧
      ∀ j, j ≠ i → c'.threads[j]? = c.threads[j]? := by
  induction p generalizing c q h with
  | pure a => exact ⟨c, h, q, .refl, hp.2, rfl, ht, fun _ _ => rfl⟩
  | acquire l m p ih =>
    obtain ⟨-, ha, hp⟩ := hp
    have s₁ := Step.request ht
    have h₁ := getElem?_set_self ht ⟨.acquire l m (p >>= f), h, true⟩
    have s₂ := Step.acquire h₁ ((hc.step s₁).free hD h₁ ha)
    obtain ⟨c', h', q', hr, hf, hst, hi, hj⟩ :=
      ih hp (getElem?_set_self h₁ _) ((hc.step s₁).step s₂)
    exact ⟨c', h', q', .head s₁ (.head s₂ hr), hf, hst, hi, fun j hji =>
      ((hj j hji).trans (s₂.other hji)).trans (s₁.other hji)⟩
  | release l m p ih =>
    obtain ⟨-, h₀, rfl, hp⟩ := hp
    have s₁ := Step.release ht
    rw [List.erase_cons_head] at s₁
    obtain ⟨c', h', q', hr, hf, hst, hi, hj⟩ := ih hp (getElem?_set_self ht _) (hc.step s₁)
    exact ⟨c', h', q', .head s₁ hr, hf, hst, hi, fun j hji => (hj j hji).trans (s₁.other hji)⟩
  | op o k ih =>
    obtain ⟨q₁, -, hk⟩ := hp.2 c.store
    have s₁ := Step.op ht
    obtain ⟨c', h', q', hr, hf, hst, hi, hj⟩ := ih c.store hk (getElem?_set_self ht _) (hc.step s₁)
    exact ⟨c', h', q', .head s₁ hr, hf, hst, hi, fun j hji => (hj j hji).trans (s₁.other hji)⟩

end Config
end Guarded
