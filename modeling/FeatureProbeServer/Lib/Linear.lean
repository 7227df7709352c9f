import FeatureProbeServer.Lib.Protect
import FeatureProbeServer.Lib.Trace

/-!
# Calls that take effect at once

A call is `Atomic` if, whatever the others do around its guards, one of its operations does all that
the call does alone (`Prog.run`) and the others only read. `exec_history`: in any interleaving of
atomic calls, and of others that are not, every atomic call takes effect at one of its own steps. The
store is what a `History` of whole calls and of single operations of the others makes of it, every
reply is the reply at its place there, and a call that has returned before another starts stands
before it.
-/

namespace Guarded

namespace Prog
variable {L Op σ α β : Type} [DecidableEq L] [Interp Op σ]

/-- The call only reads, and returns `a`. -/
def Bound (a : α) : Prog L Op σ α → Prop
  | .pure b => b = a
  | .acquire _ _ p => p.Bound a
  | .release _ _ p => p.Bound a
  | .op o k => ∀ s : σ, Interp.exec o s = s ∧ (k s).Bound a

/-- Still to come is the operation that does what `f` does; before it the call only reads, after it
it is bound for the result. -/
def Pending (same : L → σ → σ → Prop) (R : σ → σ → Prop) (f : σ → α × σ) :
    Prog L Op σ α → List (L × Mode) → σ → Prop
  | .pure _, _, _ => False
  | .acquire l m p, h, s => ∀ s', Around same R h s s' → p.Pending same R f ((l, m) :: h) s'
  | .release l m p, h, s => ∀ s', Around same R h s s' → p.Pending same R f (h.erase (l, m)) s'
  | .op o k, h, s => ∀ s', Around same R h s s' →
      (Interp.exec o s' = s' ∧ (k s').Pending same R f h s') ∨
      (Interp.exec o s' = (f s').2 ∧ (k s').Bound (f s').1)

/-- The call takes effect at one operation. -/
def Atomic (same : L → σ → σ → Prop) (R : σ → σ → Prop) (p : Prog L Op σ α) : Prop :=
  ∀ s, p.Pending same R p.run [] s

variable {same : L → σ → σ → Prop} {R : σ → σ → Prop} {h : List (L × Mode)} {s : σ}

omit [DecidableEq L] in
theorem Bound.bind {p : Prog L Op σ α} {f : α → Prog L Op σ β} {a : α} {b : β} (hp : p.Bound a)
    (hf : (f a).Bound b) : (p >>= f).Bound b := by
  induction p with
  | pure a' => cases hp; exact hf
  | acquire l m p ih => exact ih hp
  | release l m p ih => exact ih hp
  | op o k ih => exact fun s => ⟨(hp s).1, ih s (hp s).2⟩

/-- What comes after the effect only turns the result into another one. -/
theorem Pending.map {p : Prog L Op σ α} {f : σ → α × σ} {k : α → Prog L Op σ β} {g : α → β}
    (hp : p.Pending same R f h s) (hk : ∀ a, (k a).Bound (g a)) :
    (p >>= k).Pending same R (fun s => (g (f s).1, (f s).2)) h s := by
  induction p generalizing h s with
  | pure a => exact hp.elim
  | acquire l m p ih => exact fun s' hs => ih (hp s' hs)
  | release l m p ih => exact fun s' hs => ih (hp s' hs)
  | op o k' ih =>
    intro s' hs
    rcases hp s' hs with ⟨he, hp⟩ | ⟨he, hb⟩
    · exact .inl ⟨he, ih s' hp⟩
    · exact .inr ⟨he, hb.bind (hk _)⟩

theorem Pending.guarded {l : L} {m : Mode} {p : Prog L Op σ α} {f : σ → α × σ}
    (hp : ∀ s', Around same R h s s' → p.Pending same R f ((l, m) :: h) s') :
    (Prog.guarded l m p).Pending same R f h s :=
  fun s' hs => (hp s' hs).map (g := id) fun a => (rfl : a = a)

theorem Pending.guarded_bind {l : L} {m : Mode} {p : Prog L Op σ β} {k : β → Prog L Op σ α}
    {f : σ → α × σ} (hp : ∀ s', Around same R h s s' →
      (p >>= fun b => .release l m (k b)).Pending same R f ((l, m) :: h) s') :
    (Prog.guarded l m p >>= k).Pending same R f h s := by
  intro s' hs
  have hassoc := bind_assoc' p (fun b => .release l m (.pure b)) k
  change ((p >>= fun b => .release l m (.pure b)) >>= k).Pending same R f ((l, m) :: h) s'
  rw [hassoc]
  exact hp s' hs

theorem Pending.reading {o : Op} {g : σ → β} {k : β → Prog L Op σ α} {f : σ → α × σ}
    (hk : ∀ s', Around same R h s s' →
      (Interp.exec o s' = s' ∧ (k (g s')).Pending same R f h s') ∨
      (Interp.exec o s' = (f s').2 ∧ (k (g s')).Bound (f s').1)) :
    (Prog.reading o g >>= k).Pending same R f h s := hk

theorem Pending.perform {o : Op} {k : Unit → Prog L Op σ α} {f : σ → α × σ}
    (hk : ∀ s', Around same R h s s' → Interp.exec o s' = (f s').2 ∧ (k ()).Bound (f s').1) :
    (Prog.perform o >>= k).Pending same R f h s :=
  fun s' hs => .inr (hk s' hs)

/-- A call that ends by turning the result of an atomic one into another is atomic. -/
theorem Atomic.map {p : Prog L Op σ α} (hp : p.Atomic same R) (g : α → β) :
    (p >>= fun a => Pure.pure (g a)).Atomic same R := by
  intro s
  have hrun : (p >>= fun a => Pure.pure (g a)).run = fun s => (g (p.run s).1, (p.run s).2) := by
    funext s
    rw [run_bind]
    rfl
  rw [hrun]
  exact (hp s).map fun a => (rfl : g a = g a)

section
variable [∀ l, IsPreorder σ (same l)] [IsPreorder σ R]

theorem Pending.stable {p : Prog L Op σ α} {f : σ → α × σ} {s' : σ} (hp : p.Pending same R f h s)
    (hs : Around same R h s s') : p.Pending same R f h s' := by
  cases p with
  | pure a => exact hp
  | acquire l m p => exact fun s'' h' => hp s'' (trans_of (Around same R h) hs h')
  | release l m p => exact fun s'' h' => hp s'' (trans_of (Around same R h) hs h')
  | op o k => exact fun s'' h' => hp s'' (trans_of (Around same R h) hs h')

end

end Prog

/-! ### Histories -/

/-- A whole call, or one operation of a call. -/
inductive Entry (Op : Type) where
  | call (i : Nat)
  | op (i : Nat) (o : Op)

/-- The operation that the event runs, if it is one of the call `i`. -/
def Event.op? {L Op : Type} (i : Nat) : Nat × Event L Op → Option Op
  | (j, .op o) => if j = i then some o else none
  | _ => none

theorem Event.op?_of_ne {L Op : Type} {i : Nat} {x : Nat × Event L Op} (h : x.1 ≠ i) :
    Event.op? i x = none := by
  obtain ⟨j, e⟩ := x
  cases e with
  | op o => exact if_neg h
  | _ => rfl

namespace Entry
variable {L Op σ α : Type} [Interp Op σ]

def owner : Entry Op → Nat
  | .call i => i
  | .op i _ => i

/-- The operation that the entry is, if it is one of the call `i`. -/
def op? (i : Nat) : Entry Op → Option Op
  | .op j o => if j = i then some o else none
  | .call _ => none

/-- The entry is made by the event: a call by one of its operations, an operation by itself. -/
inductive At : Entry Op → Nat × Event L Op → Prop
  | call (i : Nat) (o : Op) : At (.call i) (i, .op o)
  | op (i : Nat) (o : Op) : At (.op i o) (i, .op o)

omit [Interp Op σ] in
theorem At.owner_eq {x : Entry Op} {y : Nat × Event L Op} (h : x.At y) : x.owner = y.1 := by
  cases h <;> rfl

/-- What the entry does to the store, for the calls `ps`. -/
def exec (ps : List (Prog L Op σ α)) : Entry Op → σ → σ
  | .call i, s => match ps[i]? with
    | some p => (p.run s).2
    | none => s
  | .op _ o, s => Interp.exec o s

end Entry

/-- The entries one after the other. -/
def replay {L Op σ α : Type} [Interp Op σ] (ps : List (Prog L Op σ α)) (hist : List (Entry Op)) (s : σ) : σ :=
  hist.foldl (fun s x => x.exec ps s) s

theorem replay_concat {L Op σ α : Type} [Interp Op σ] (ps : List (Prog L Op σ α)) (hist : List (Entry Op))
    (x : Entry Op) (s : σ) : replay ps (hist ++ [x]) s = x.exec ps (replay ps hist s) := by
  simp [replay]

namespace Config
variable {L Op σ α φ : Type} [DecidableEq L] [Interp Op σ]

/-- The run `tr` of the calls `ps` from the store `s₀` to `c` is as the history `hist`, in which the
calls in `A` appear whole and the others operation by operation, as they ran them. -/
structure History (A : Nat → Prop) (s₀ : σ) (ps : List (Prog L Op σ α)) (tr : List (Nat × Event L Op))
    (hist : List (Entry Op)) (c : Config L Op σ α) : Prop where
  store : c.store = replay ps hist s₀
  once : ∀ before i after, hist = before ++ .call i :: after → .call i ∉ before
  calls : ∀ i, .call i ∈ hist → A i
  parts : ∀ i o, .op i o ∈ hist → ¬ A i
  ops : ∀ i, ¬ A i → hist.filterMap (Entry.op? i) = tr.filterMap (Event.op? i)
  replies : ∀ i p t a, A i → ps[i]? = some p → c.threads[i]? = some t → t.result = some a →
    ∃ before after, hist = before ++ .call i :: after ∧ a = (p.run (replay ps before s₀)).1
  moment : ∀ before x after, hist = before ++ x :: after → ∃ tr₁ y c₁, x.At y ∧ tr₁ ++ [y] <+: tr ∧
    Exec (start s₀ ps) tr₁ c₁ ∧ c₁.store = replay ps before s₀
  order : ∀ tr₁ c₁, tr₁ <+: tr → Exec (start s₀ ps) tr₁ c₁ → ∀ i t, A i → c₁.threads[i]? = some t →
    t.done = true → ∀ j, (∀ e, (j, e) ∉ tr₁) → .call j ∈ hist →
    ∃ before after, hist = before ++ after ∧ .call i ∈ before ∧ .call j ∈ after

/-- A history so far: each atomic call is still pending, or is in the history and bound for its
result there. -/
structure Linear (same : L → σ → σ → Prop) (R : σ → σ → Prop) (A : Nat → Prop) (s₀ : σ)
    (ps : List (Prog L Op σ α)) (tr : List (Nat × Event L Op)) (hist : List (Entry Op))
    (c : Config L Op σ α) : Prop where
  store : c.store = replay ps hist s₀
  moved : ∀ i, .call i ∈ hist → ∃ e, (i, e) ∈ tr
  once : ∀ before i after, hist = before ++ .call i :: after → .call i ∉ before
  calls : ∀ i, .call i ∈ hist → A i
  parts : ∀ i o, .op i o ∈ hist → ¬ A i
  ops : ∀ i, ¬ A i → hist.filterMap (Entry.op? i) = tr.filterMap (Event.op? i)
  pending : ∀ i p t, A i → ps[i]? = some p → c.threads[i]? = some t → .call i ∉ hist →
    t.prog.Pending same R p.run t.held c.store
  bound : ∀ i p t before after, ps[i]? = some p → c.threads[i]? = some t →
    hist = before ++ .call i :: after → t.prog.Bound (p.run (replay ps before s₀)).1
  moment : ∀ before x after, hist = before ++ x :: after → ∃ tr₁ y c₁, x.At y ∧ tr₁ ++ [y] <+: tr ∧
    Exec (start s₀ ps) tr₁ c₁ ∧ c₁.store = replay ps before s₀

variable {same : L → σ → σ → Prop} {R : σ → σ → Prop} {A : Nat → Prop} {s₀ : σ}
  {ps : List (Prog L Op σ α)} {tr : List (Nat × Event L Op)} {hist : List (Entry Op)}
  {c c' : Config L Op σ α}

theorem Linear.start (hA : ∀ i p, A i → ps[i]? = some p → p.Atomic same R) :
    Linear same R A s₀ ps [] [] (Config.start s₀ ps) where
  store := rfl
  moved _ h := nomatch h
  once before i after h := by simp at h
  calls _ h := nomatch h
  parts _ _ h := nomatch h
  ops _ _ := rfl
  pending i p t hi hp ht _ := by
    rw [Config.start, List.getElem?_map, hp] at ht
    cases ht
    exact hA i p hi hp s₀
  bound i p t before after _ _ h := by simp at h
  moment before x after h := by simp at h

/-- A call in the history has a result. -/
theorem Linear.reply (h : Linear same R A s₀ ps tr hist c) {i : Nat} {p : Prog L Op σ α}
    {t : Thread L Op σ α} {a : α} (hi : A i) (hp : ps[i]? = some p) (ht : c.threads[i]? = some t)
    (ha : t.result = some a) :
    ∃ before after, hist = before ++ .call i :: after ∧ a = (p.run (replay ps before s₀)).1 := by
  obtain ⟨q, held, w⟩ := t
  cases q with
  | pure b =>
    cases ha
    by_cases hin : .call i ∈ hist
    · obtain ⟨before, after, rfl⟩ := List.append_of_mem hin
      exact ⟨before, after, rfl, h.bound i p _ before after hp ht rfl⟩
    · exact (h.pending i p _ hi hp ht hin).elim
  | _ => cases ha

/-! ### Steps -/

variable {i : Nat} {e : Event L Op}

/-- A step that adds no entry: the store stays, and the mover stays on its way. -/
theorem Linear.still [∀ l, IsPreorder σ (same l)] [IsPreorder σ R]
    (h : Linear same R A s₀ ps tr hist c) (hs : Step c i e c')
    {t t' : Thread L Op σ α} (ht : c.threads[i]? = some t) (hc' : c'.threads = c.threads.set i t')
    (around : ∀ j u, i ≠ j → c.threads[j]? = some u → Around same R u.held c.store c'.store)
    (hst : c'.store = c.store) (hop : ¬ A i → ∀ o, e ≠ .op o)
    (hpending : A i → .call i ∉ hist → ∀ p, ps[i]? = some p → t'.prog.Pending same R p.run t'.held c.store)
    (hbound : ∀ a, t.prog.Bound a → t'.prog.Bound a) :
    Linear same R A s₀ ps (tr ++ [(i, e)]) hist c' where
  store := hst.trans h.store
  moved j hj := (h.moved j hj).imp fun _ => List.mem_append_left _
  once := h.once
  calls := h.calls
  parts := h.parts
  ops j hj := by
    have hnone : Event.op? j (i, e) = none := by
      by_cases hij : i = j
      · cases e with
        | op o => exact absurd rfl (hop (hij ▸ hj) o)
        | _ => rfl
      · exact Event.op?_of_ne hij
    rw [h.ops j hj, List.filterMap_append, List.filterMap_cons_none hnone]
    exact (List.append_nil _).symm
  pending j p u hj hp hu hnot := by
    by_cases hij : i = j
    · subst j
      rw [hc', getElem?_set_self ht] at hu
      cases hu
      rw [hst]
      exact hpending hj hnot p hp
    · rw [hs.other (Ne.symm hij)] at hu
      exact (h.pending j p u hj hp hu hnot).stable (around j u hij hu)
  bound j p u before after hp hu heq := by
    by_cases hij : i = j
    · subst j
      rw [hc', getElem?_set_self ht] at hu
      cases hu
      exact hbound _ (h.bound i p t before after hp ht heq)
    · rw [hs.other (Ne.symm hij)] at hu
      exact h.bound j p u before after hp hu heq
  moment before x after heq := by
    obtain ⟨tr₁, y, c₁, hat, hp, h₁⟩ := h.moment before x after heq
    exact ⟨tr₁, y, c₁, hat, hp.trans (List.prefix_append _ _), h₁⟩

/-- A step that makes the entry `x`. -/
theorem Linear.add [∀ l, IsPreorder σ (same l)] [IsPreorder σ R]
    (h : Linear same R A s₀ ps tr hist c) (hc : Exec (Config.start s₀ ps) tr c) (hs : Step c i e c')
    {t t' : Thread L Op σ α} (ht : c.threads[i]? = some t) (hc' : c'.threads = c.threads.set i t')
    (around : ∀ j u, i ≠ j → c.threads[j]? = some u → Around same R u.held c.store c'.store)
    {x : Entry Op} (hx : x.At (i, e)) (hst : c'.store = x.exec ps c.store)
    (hcall : x = .call i → A i ∧ .call i ∉ hist) (hpart : ∀ o, x = .op i o → ¬ A i)
    (hpending : A i → x = .call i)
    (hbound : ∀ p before after, ps[i]? = some p → hist ++ [x] = before ++ .call i :: after →
      t'.prog.Bound (p.run (replay ps before s₀)).1) :
    Linear same R A s₀ ps (tr ++ [(i, e)]) (hist ++ [x]) c' where
  store := by rw [replay_concat, hst, h.store]
  moved j hj := by
    rcases List.mem_append.mp hj with hj | hj
    · exact (h.moved j hj).imp fun _ => List.mem_append_left _
    · obtain rfl := List.mem_singleton.mp hj
      obtain rfl : j = i := hx.owner_eq
      exact ⟨e, List.mem_append_right _ (List.mem_singleton_self _)⟩
  once before j after heq hj := by
    rcases split_snoc heq with ⟨after', heq⟩ | ⟨rfl, rfl⟩
    · exact h.once before j after' heq hj
    · obtain rfl : j = i := hx.owner_eq
      exact (hcall rfl).2 hj
  calls j hj := by
    rcases List.mem_append.mp hj with hj | hj
    · exact h.calls j hj
    · obtain rfl := List.mem_singleton.mp hj
      obtain rfl : j = i := hx.owner_eq
      exact (hcall rfl).1
  parts j o hj := by
    rcases List.mem_append.mp hj with hj | hj
    · exact h.parts j o hj
    · obtain rfl := List.mem_singleton.mp hj
      obtain rfl : j = i := hx.owner_eq
      exact hpart o rfl
  ops j hj := by
    have hsame : x.op? j = Event.op? j (i, e) := by
      cases hx with
      | op => rfl
      | call =>
        refine (Event.op?_of_ne ?_).symm
        rintro rfl
        exact hj (hcall rfl).1
    rw [List.filterMap_append, List.filterMap_append, h.ops j hj]
    simp [List.filterMap_cons, hsame]
  pending j p u hj hp hu hnot := by
    by_cases hij : i = j
    · subst j
      exact absurd (by simp [hpending hj]) hnot
    · rw [hs.other (Ne.symm hij)] at hu
      have hnot' : .call j ∉ hist := fun hin => hnot (List.mem_append_left _ hin)
      exact (h.pending j p u hj hp hu hnot').stable (around j u hij hu)
  bound j p u before after hp hu heq := by
    by_cases hij : i = j
    · subst j
      rw [hc', getElem?_set_self ht] at hu
      cases hu
      exact hbound p before after hp heq
    · rw [hs.other (Ne.symm hij)] at hu
      rcases split_snoc heq with ⟨after', heq⟩ | ⟨-, rfl⟩
      · exact h.bound j p u before after' hp hu heq
      · exact absurd hx.owner_eq (Ne.symm hij)
  moment before y after heq := by
    rcases split_snoc heq with ⟨after', heq⟩ | ⟨rfl, rfl⟩
    · obtain ⟨tr₁, z, c₁, hat, hp, h₁⟩ := h.moment before y after' heq
      exact ⟨tr₁, z, c₁, hat, hp.trans (List.prefix_append _ _), h₁⟩
    · exact ⟨tr, (i, e), c, hx, List.prefix_rfl, hc, h.store⟩

theorem Step.store_cases (hs : Step c i e c') :
    (c'.store = c.store ∧ ∀ o, e ≠ .op o) ∨ ∃ o, e = .op o ∧ c'.store = Interp.exec o c.store := by
  cases hs with
  | request ht => exact .inl ⟨rfl, by simp⟩
  | acquire ht hf => exact .inl ⟨rfl, by simp⟩
  | release ht => exact .inl ⟨rfl, by simp⟩
  | op ht => exact .inr ⟨_, rfl, rfl⟩

theorem Linear.step [∀ l, IsPreorder σ (same l)] [IsPreorder σ R] {D : Discipline L Op σ φ}
    {fin : α → φ → List (L × Mode) → Prop} {ph : Nat → φ} (h : Linear same R A s₀ ps tr hist c)
    (hc : Exec (Config.start s₀ ps) tr c) (hf : c.Follow D fin ph) (hx : c.Exclusive)
    (hD : ∀ ph h o s ph', D.inv ph h → D.op ph h o s ph' → Owns same h s (Interp.exec o s))
    (hR : ∀ (o : Op) s, R s (Interp.exec o s)) (hs : Step c i e c') :
    ∃ hist', hist <+: hist' ∧ Linear same R A s₀ ps (tr ++ [(i, e)]) hist' c' := by
  have around : ∀ j u, i ≠ j → c.threads[j]? = some u → Around same R u.held c.store c'.store := by
    intro j u hij hu
    refine ⟨?_, fun l m hm => hf.kept hx hD hs hij hu hm⟩
    rcases hs.store_cases with ⟨hst, -⟩ | ⟨o, -, hst⟩
    · rw [hst]
      exact refl_of R _
    · rw [hst]
      exact hR o _
  have hs' := hs
  cases hs with
  | request ht =>
    refine ⟨hist, List.prefix_rfl, h.still hs' ht rfl around rfl (by simp) (fun hA hnot p hp => ?_) fun _ => id⟩
    have hpend := h.pending i p _ hA hp ht hnot
    exact hpend
  | acquire ht _ =>
    refine ⟨hist, List.prefix_rfl, h.still hs' ht rfl around rfl (by simp) (fun hA hnot p hp => ?_) fun _ => id⟩
    exact h.pending i p _ hA hp ht hnot _ (refl_of _ _)
  | release ht =>
    refine ⟨hist, List.prefix_rfl, h.still hs' ht rfl around rfl (by simp) (fun hA hnot p hp => ?_) fun _ => id⟩
    exact h.pending i p _ hA hp ht hnot _ (refl_of _ _)
  | @op o k held w ht =>
    have hlt : i < ps.length := by
      have hreach : Reach (Config.start s₀ ps) c := ⟨tr, hc⟩
      have hlt := (List.getElem?_eq_some_iff.mp ht).1
      rwa [hreach.length, Config.start, List.length_map] at hlt
    have hp : ps[i]? = some ps[i] := List.getElem?_eq_getElem hlt
    by_cases hA : A i
    · by_cases hin : .call i ∈ hist
      · -- it has taken effect, and only reads
        obtain ⟨before, after, heq⟩ := List.append_of_mem hin
        have hread := fun s => h.bound i _ _ before after hp ht heq s
        exact ⟨hist, List.prefix_rfl, h.still hs' ht rfl around (hread c.store).1 (absurd hA)
          (fun _ hnot => absurd hin hnot) fun a hb => (hb c.store).2⟩
      · rcases h.pending i _ _ hA hp ht hin c.store (refl_of _ _) with ⟨he, hpend⟩ | ⟨he, hb⟩
        · refine ⟨hist, List.prefix_rfl, h.still hs' ht rfl around he (absurd hA) (fun _ _ p hp' => ?_)
            fun a hb => (hb c.store).2⟩
          cases hp.symm.trans hp'
          exact hpend
        · -- this is the step at which it takes effect
          refine ⟨_, List.prefix_append _ _, h.add hc hs' ht rfl around (.call i o) ?_ (fun _ => ⟨hA, hin⟩) ?_
            (fun _ => rfl) fun p before after hp' heq => ?_⟩
          · show Interp.exec o c.store = Entry.exec ps (.call i) c.store
            rw [he, Entry.exec, hp]
          · intro o' ho
            cases ho
          · cases hp.symm.trans hp'
            rcases split_snoc heq with ⟨after', heq⟩ | ⟨rfl, -⟩
            · exact absurd (by rw [heq]; simp) hin
            · rw [← h.store]
              exact hb
    · refine ⟨_, List.prefix_append _ _, h.add hc hs' ht rfl around (.op i o) rfl ?_ (fun _ _ => hA)
        (fun hA' => absurd hA' hA) fun p before after _ heq => ?_⟩
      · intro ho
        cases ho
      · rcases split_snoc heq with ⟨after', heq⟩ | ⟨-, ho⟩
        · exact absurd (h.calls i (by rw [heq]; simp)) hA
        · cases ho

/-! ### Runs -/

theorem Exec.unique {c₀ c₁ c₂ : Config L Op σ α} (h₁ : Exec c₀ tr c₁) (h₂ : Exec c₀ tr c₂) : c₁ = c₂ :=
  Option.some.inj (h₁.schedule.symm.trans h₂.schedule)

/-- The rest of a run, from the state that a part of it reaches. -/
theorem Exec.after {tr' : List (Nat × Event L Op)} (h : Exec c₀ tr c) (h' : Exec c₀ (tr ++ tr') c') :
    Exec c tr' c' := by
  induction tr' using List.reverseRecOn generalizing c' with
  | nil =>
    rw [List.append_nil] at h'
    obtain rfl := h.unique h'
    exact .nil
  | append_singleton tr' x ih =>
    rw [← List.append_assoc] at h'
    obtain ⟨c₁, h₁, hs⟩ := h'.snoc_inv
    exact (ih h₁).snoc hs

/-- A call without any step has returned from the start. -/
theorem Exec.pure_still (h : Exec (Config.start s₀ ps) tr c) {i : Nat} {a : α} (hp : ps[i]? = some (.pure a)) :
    c.threads[i]? = some (Thread.start (.pure a)) ∧ ∀ e, (i, e) ∉ tr := by
  induction h with
  | nil =>
    refine ⟨?_, fun e => List.not_mem_nil⟩
    rw [Config.start, List.getElem?_map, hp]
    rfl
  | @snoc tr c j e c' _ hs ih =>
    obtain ⟨ht, hno⟩ := ih
    have hij : i ≠ j := by
      rintro rfl
      cases hs with
      | request hi => cases hi.symm.trans ht
      | acquire hi => cases hi.symm.trans ht
      | release hi => cases hi.symm.trans ht
      | op hi => cases hi.symm.trans ht
    refine ⟨(hs.other hij).trans ht, fun e' he => ?_⟩
    rcases List.mem_append.mp he with he | he
    · exact hno e' he
    · exact hij (Prod.mk.inj (List.mem_singleton.mp he)).1

section
variable [∀ l, IsPreorder σ (same l)] [IsPreorder σ R] {D : Discipline L Op σ φ}
  {fin : α → φ → List (L × Mode) → Prop} {q : φ}

/-- Every run has a history, and every part of the run a part of that history. -/
theorem exec_linear (hA : ∀ i p, A i → ps[i]? = some p → p.Atomic same R)
    (hf : ∀ p ∈ ps, p.Follows D fin q [])
    (hD : ∀ ph h o s ph', D.inv ph h → D.op ph h o s ph' → Owns same h s (Interp.exec o s))
    (hR : ∀ (o : Op) s, R s (Interp.exec o s)) (hc : Exec (Config.start s₀ ps) tr c) :
    ∃ hist, Linear same R A s₀ ps tr hist c ∧ ∀ tr₁ c₁, tr₁ <+: tr → Exec (Config.start s₀ ps) tr₁ c₁ →
      ∃ before, before <+: hist ∧ Linear same R A s₀ ps tr₁ before c₁ := by
  induction hc with
  | nil =>
    refine ⟨[], .start hA, fun tr₁ c₁ hp hc₁ => ?_⟩
    obtain rfl := List.prefix_nil.mp hp
    cases hc₁.unique .nil
    exact ⟨[], List.prefix_rfl, .start hA⟩
  | @snoc tr c i e c' hc hs ih =>
    obtain ⟨hist, hl, hparts⟩ := ih
    have hreach : Reach (Config.start s₀ ps) c := ⟨tr, hc⟩
    obtain ⟨ph, hfollow⟩ := (Follow.start hf).reach hreach
    obtain ⟨hist', hprefix, hl'⟩ := hl.step hc hfollow hreach.exclusive hD hR hs
    refine ⟨hist', hl', fun tr₁ c₁ hp hc₁ => ?_⟩
    rcases List.prefix_concat_iff.mp hp with rfl | hp
    · cases hc₁.unique (hc.snoc hs)
      exact ⟨_, List.prefix_rfl, hl'⟩
    · obtain ⟨before, hb, hl₁⟩ := hparts tr₁ c₁ hp hc₁
      exact ⟨before, hb.trans hprefix, hl₁⟩

/-- Every interleaving is as a history in which the atomic calls appear whole, in the order of time. -/
theorem exec_history (hA : ∀ i p, A i → ps[i]? = some p → p.Atomic same R)
    (hf : ∀ p ∈ ps, p.Follows D fin q [])
    (hD : ∀ ph h o s ph', D.inv ph h → D.op ph h o s ph' → Owns same h s (Interp.exec o s))
    (hR : ∀ (o : Op) s, R s (Interp.exec o s)) (hc : Exec (Config.start s₀ ps) tr c) :
    ∃ hist, History A s₀ ps tr hist c := by
  obtain ⟨hist, hl, hparts⟩ := exec_linear hA hf hD hR hc
  refine ⟨hist, hl.store, hl.once, hl.calls, hl.parts, hl.ops, ?_, hl.moment, ?_⟩
  · exact fun i p t a hi hp ht ha => hl.reply hi hp ht ha
  · intro tr₁ c₁ hp hc₁ i t hi ht hd j hj hin
    obtain ⟨before, ⟨after, rfl⟩, hl₁⟩ := hparts tr₁ c₁ hp hc₁
    have hlt : i < ps.length := by
      have hreach : Reach (Config.start s₀ ps) c₁ := ⟨tr₁, hc₁⟩
      have hlt := (List.getElem?_eq_some_iff.mp ht).1
      rwa [hreach.length, Config.start, List.length_map] at hlt
    obtain ⟨a, ha⟩ := Option.isSome_iff_exists.mp hd
    obtain ⟨b, b', rfl, -⟩ := hl₁.reply hi (List.getElem?_eq_getElem hlt) ht ha
    refine ⟨b ++ .call i :: b', after, rfl, by simp, ?_⟩
    rcases List.mem_append.mp hin with hin | hin
    · obtain ⟨e, he⟩ := hl₁.moved j hin
      exact absurd he (hj e)
    · exact hin

end

end Config
end Guarded
