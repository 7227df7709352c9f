import FeatureProbeServer.Lib.Interleave
import Mathlib.Data.List.Perm.Basic
import Mathlib.Logic.Hydra

/-!
# Deadlocks, and running until nothing moves

A configuration is `Deadlocked` when a call is unfinished and every unfinished call waits for a lock
that is not granted. A step takes a thread to a part of its program, so no run is infinite
(`step_wf`): from every configuration a run leads to one where no thread can move (`exists_stuck`),
and such a configuration is deadlocked unless all its calls have returned (`deadlocked_of_stuck`).
-/

namespace Guarded

variable {L Op σ α : Type}

namespace Thread

/-- `t'` is what a step of `t` may leave of it. -/
inductive Next : Thread L Op σ α → Thread L Op σ α → Prop
  | request {l m p h h'} : Next ⟨.acquire l m p, h', true⟩ ⟨.acquire l m p, h, false⟩
  | acquire {l m p h h'} : Next ⟨p, h', false⟩ ⟨.acquire l m p, h, true⟩
  | release {l m p h h' w} : Next ⟨p, h', false⟩ ⟨.release l m p, h, w⟩
  | op {o k s h h' w} : Next ⟨k s, h', false⟩ ⟨.op o k, h, w⟩

theorem acc_next (p : Prog L Op σ α) : ∀ h w, Acc Next (⟨p, h, w⟩ : Thread L Op σ α) := by
  induction p with
  | pure a => exact fun h w => ⟨_, fun t ht => by cases ht⟩
  | acquire l m p ih =>
    have waiting : ∀ h, Acc Next (⟨.acquire l m p, h, true⟩ : Thread L Op σ α) :=
      fun h => ⟨_, fun t ht => by cases ht; exact ih _ _⟩
    intro h w
    cases w with
    | true => exact waiting h
    | false => exact ⟨_, fun t ht => by cases ht; exact waiting _⟩
  | release l m p ih => exact fun h w => ⟨_, fun t ht => by cases ht; exact ih _ _⟩
  | op o k ih => exact fun h w => ⟨_, fun t ht => by cases ht; exact ih _ _ _⟩

theorem next_wf : WellFounded (Next : Thread L Op σ α → Thread L Op σ α → Prop) :=
  ⟨fun t => acc_next t.prog t.held t.waiting⟩

end Thread

theorem cons_set_perm {β : Type} {l : List β} {i : Nat} {a : β} (h : l[i]? = some a) (b : β) :
    (a :: l.set i b).Perm (b :: l) := by
  obtain ⟨hi, rfl⟩ := List.getElem?_eq_some_iff.mp h
  calc
    List.Perm (l[i] :: l.set i b) (l[i] :: b :: l.eraseIdx i) := (List.set_perm_cons_eraseIdx hi b).cons _
    List.Perm _ (b :: l[i] :: l.eraseIdx i) := .swap ..
    List.Perm _ (b :: l) := (List.getElem_cons_eraseIdx_perm hi).cons b

namespace Config

/-- The thread waits for a lock it is not granted. -/
def Blocked (c : Config L Op σ α) (t : Thread L Op σ α) : Prop :=
  t.waiting = true ∧ ∃ g ∈ t.request, ¬ c.Free g.1 g.2

/-- Some call is unfinished, and every unfinished call is blocked on a lock. -/
def Deadlocked (c : Config L Op σ α) : Prop :=
  (∃ t ∈ c.threads, t.done = false) ∧ ∀ t ∈ c.threads, t.done = false → c.Blocked t

theorem Deadlocked.not_free {c : Config L Op σ α} (hd : c.Deadlocked) {t : Thread L Op σ α}
    (ht : t ∈ c.threads) {l : L} {m : Mode} (hw : t.WaitsFor l m) : ¬ c.Free l m := by
  have hdone : t.done = false := by
    obtain ⟨p, held, w⟩ := t
    cases p with
    | acquire l' m' p => rfl
    | _ => cases hw.2
  obtain ⟨-, g, hr, hf⟩ := hd.2 t ht hdone
  obtain rfl : (l, m) = g := Option.some.inj (hw.2.symm.trans hr)
  exact hf

/-- In a deadlock nobody waits for a lock that nobody holds. -/
theorem Deadlocked.not_waits {c : Config L Op σ α} (hd : c.Deadlocked) {l : L}
    (hl : ∀ t ∈ c.threads, ∀ g ∈ t.held, g.1 ≠ l) {t : Thread L Op σ α} (ht : t ∈ c.threads) (m : Mode) :
    ¬ t.WaitsFor l m := by
  have write : ∀ t ∈ c.threads, ¬ t.WaitsFor l .write := fun t ht hw => hd.not_free ht hw hl
  intro hw
  cases m with
  | write => exact write t ht hw
  | read => exact hd.not_free ht hw fun t' ht' => ⟨fun hg => hl t' ht' _ hg rfl, write t' ht'⟩

variable [DecidableEq L]

instance (c : Config L Op σ α) (t : Thread L Op σ α) : Decidable (c.Blocked t) :=
  inferInstanceAs (Decidable (_ ∧ ∃ g ∈ t.request, _))

instance (c : Config L Op σ α) : Decidable c.Deadlocked := inferInstanceAs (Decidable (_ ∧ _))

variable [Interp Op σ]

theorem Step.next {c c' : Config L Op σ α} {i : Nat} {e : Event L Op} (h : Step c i e c') :
    ∃ t t', c.threads[i]? = some t ∧ c'.threads = c.threads.set i t' ∧ t'.Next t := by
  cases h with
  | request ht => exact ⟨_, _, ht, rfl, .request⟩
  | acquire ht _ => exact ⟨_, _, ht, rfl, .acquire⟩
  | release ht => exact ⟨_, _, ht, rfl, .release⟩
  | op ht => exact ⟨_, _, ht, rfl, .op⟩

/-- Every step replaces one thread by a smaller one. -/
theorem step_wf : WellFounded fun c' c : Config L Op σ α => ∃ i e, Step c i e c' := by
  refine Subrelation.wf (r := InvImage (Relation.CutExpand Thread.Next)
    fun c : Config L Op σ α => (c.threads : Multiset (Thread L Op σ α))) ?_
    (InvImage.wf _ Thread.next_wf.cutExpand)
  rintro c' c ⟨i, e, hs⟩
  obtain ⟨t, t', ht, hc, hn⟩ := hs.next
  refine ⟨{t'}, t, by simpa using hn, ?_⟩
  show (c'.threads : Multiset (Thread L Op σ α)) + {t} = c.threads + {t'}
  rw [hc, Multiset.add_comm, Multiset.add_comm (c.threads : Multiset (Thread L Op σ α)),
    Multiset.singleton_add, Multiset.singleton_add, Multiset.cons_coe, Multiset.cons_coe]
  exact Multiset.coe_eq_coe.mpr (cons_set_perm ht t')

/-- Every run can be continued until no thread can move. -/
theorem exists_stuck (c : Config L Op σ α) : ∃ c', Reach c c' ∧ ∀ i e c'', ¬ Step c' i e c'' := by
  refine step_wf.induction (C := fun c => ∃ c', Reach c c' ∧ ∀ i e c'', ¬ Step c' i e c'') c ?_
  intro c ih
  by_cases h : ∃ i e c', Step c i e c'
  · obtain ⟨i, e, c', hs⟩ := h
    obtain ⟨c'', hr, hst⟩ := ih c' ⟨i, e, hs⟩
    exact ⟨c'', .head hs hr, hst⟩
  · exact ⟨c, .refl, fun i e c' hs => h ⟨i, e, c', hs⟩⟩

theorem blocked_of_stuck {c : Config L Op σ α} (h : ∀ i e c', ¬ Step c i e c') {t : Thread L Op σ α}
    (ht : t ∈ c.threads) (hd : t.done = false) : c.Blocked t := by
  obtain ⟨i, hi⟩ := List.mem_iff_getElem?.mp ht
  obtain ⟨p, held, w⟩ := t
  cases p with
  | pure a => cases hd
  | acquire l m p =>
    cases w with
    | false => exact absurd (Step.request hi) (h _ _ _)
    | true => exact ⟨rfl, (l, m), rfl, fun hf => h _ _ _ (Step.acquire hi hf)⟩
  | release l m p => exact absurd (Step.release hi) (h _ _ _)
  | op o k => exact absurd (Step.op hi) (h _ _ _)

theorem deadlocked_of_stuck {c : Config L Op σ α} (h : ∀ i e c', ¬ Step c i e c')
    {t : Thread L Op σ α} (ht : t ∈ c.threads) (hd : t.done = false) : c.Deadlocked :=
  ⟨⟨t, ht, hd⟩, fun _ ht hd => blocked_of_stuck h ht hd⟩

end Config
end Guarded
