import FeatureProbeServer.Lib.Progress
import Mathlib.Data.Fintype.Lattice

/-!
# Locks taken in order

Calls that take locks in ascending order only, by a rank of the locks, cannot wait for each other in a
circle, though readers queue behind writers that wait. The order need hold only for what a call does on
stores with `P`, if all operations keep `P`: then no deadlock is reachable, and every run comes to an
end with all calls returned.
-/

namespace Guarded

namespace Prog
variable {L Op σ α β : Type} [DecidableEq L] [Interp Op σ]

/-- On stores with `P`, and with the guards `h`, the call keeps `P`, takes no lock but those above all
it holds, and returns with `Q`. -/
def Ascends (rank : L → Nat) (P : σ → Prop) : Prog L Op σ α → (α → List (L × Mode) → Prop) →
    List (L × Mode) → Prop
  | .pure a, Q, h => Q a h
  | .acquire l m p, Q, h => (∀ g ∈ h, rank g.1 < rank l) ∧ p.Ascends rank P Q ((l, m) :: h)
  | .release l m p, Q, h => p.Ascends rank P Q (h.erase (l, m))
  | .op o k, Q, h => ∀ s, P s → P (Interp.exec o s) ∧ (k s).Ascends rank P Q h

/-- `Ascends` for a part of a call that puts down the guards it takes. -/
def Orderly (rank : L → Nat) (P : σ → Prop) (p : Prog L Op σ α) (Q : α → Prop) (h : List (L × Mode)) : Prop :=
  p.Ascends rank P (fun a h' => h' = h ∧ Q a) h

variable {rank : L → Nat} {P : σ → Prop} {h : List (L × Mode)}

theorem ascends_mono {p : Prog L Op σ α} {Q Q' : α → List (L × Mode) → Prop} (hp : p.Ascends rank P Q h)
    (hQ : ∀ a h, Q a h → Q' a h) : p.Ascends rank P Q' h := by
  induction p generalizing h with
  | pure a => exact hQ a h hp
  | acquire l m p ih => exact ⟨hp.1, ih hp.2⟩
  | release l m p ih => exact ih hp
  | op o k ih => exact fun s hs => ⟨(hp s hs).1, ih s (hp s hs).2⟩

theorem ascends_bind {p : Prog L Op σ α} {f : α → Prog L Op σ β} {Q : β → List (L × Mode) → Prop}
    (hp : p.Ascends rank P (fun a h' => (f a).Ascends rank P Q h') h) : (p >>= f).Ascends rank P Q h := by
  induction p generalizing h with
  | pure a => exact hp
  | acquire l m p ih => exact ⟨hp.1, ih hp.2⟩
  | release l m p ih => exact ih hp
  | op o k ih => exact fun s hs => ⟨(hp s hs).1, ih s (hp s hs).2⟩

theorem orderly_mono {p : Prog L Op σ α} {Q Q' : α → Prop} (hp : p.Orderly rank P Q h)
    (hQ : ∀ a, Q a → Q' a) : p.Orderly rank P Q' h :=
  ascends_mono hp fun a _ ⟨hh, hq⟩ => ⟨hh, hQ a hq⟩

theorem orderly_pure {a : α} {Q : α → Prop} (hq : Q a) :
    (Pure.pure a : Prog L Op σ α).Orderly rank P Q h := ⟨rfl, hq⟩

theorem orderly_bind {p : Prog L Op σ α} {f : α → Prog L Op σ β} {Q : β → Prop}
    (hp : p.Orderly rank P (fun a => (f a).Orderly rank P Q h) h) : (p >>= f).Orderly rank P Q h := by
  refine ascends_bind (ascends_mono hp ?_)
  rintro a _ ⟨rfl, hf⟩
  exact hf

theorem orderly_map {p : Prog L Op σ α} {g : α → β} (hp : p.Orderly rank P (fun _ => True) h) :
    (p >>= fun a => Pure.pure (g a)).Orderly rank P (fun _ => True) h :=
  orderly_bind (orderly_mono hp fun _ _ => orderly_pure trivial)

theorem orderly_guarded {l : L} {m : Mode} {p : Prog L Op σ α} {Q : α → Prop}
    (hl : ∀ g ∈ h, rank g.1 < rank l) (hp : p.Orderly rank P Q ((l, m) :: h)) :
    (guarded l m p).Orderly rank P Q h := by
  refine ⟨hl, ascends_bind (ascends_mono hp ?_)⟩
  rintro a _ ⟨rfl, hq⟩
  show _ ∧ _
  rw [List.erase_cons_head]
  exact ⟨rfl, hq⟩

theorem orderly_reading {o : Op} {f : σ → α} {Q : α → Prop}
    (ho : ∀ s, P s → P (Interp.exec o s) ∧ Q (f s)) : (reading o f : Prog L Op σ α).Orderly rank P Q h :=
  fun s hs => ⟨(ho s hs).1, rfl, (ho s hs).2⟩

theorem orderly_perform {o : Op} (ho : ∀ s, P s → P (Interp.exec o s)) :
    (perform o : Prog L Op σ Unit).Orderly rank P (fun _ => True) h :=
  fun s hs => ⟨ho s hs, rfl, trivial⟩

theorem orderly_forM {f : α → Prog L Op σ Unit} {l : List α}
    (hf : ∀ a ∈ l, (f a).Orderly rank P (fun _ => True) h) : (forM l f).Orderly rank P (fun _ => True) h := by
  induction l with
  | nil => exact orderly_pure trivial
  | cons a l ih =>
    rw [List.forM_cons]
    refine orderly_bind (orderly_mono (hf a (by simp)) fun _ _ => ?_)
    exact ih fun b hb => hf b (List.mem_cons_of_mem a hb)

theorem orderly_tryForM {f : α → Prog L Op σ (Option Unit)} {l : List α}
    (hf : ∀ a ∈ l, (f a).Orderly rank P (fun _ => True) h) :
    (tryForM f l).Orderly rank P (fun _ => True) h := by
  induction l with
  | nil => exact orderly_pure trivial
  | cons a l ih =>
    refine orderly_bind (orderly_mono (hf a (by simp)) fun r _ => ?_)
    cases r with
    | some => exact ih fun b hb => hf b (List.mem_cons_of_mem a hb)
    | none => exact orderly_pure trivial

end Prog

/-- One above the lock that the thread takes next; zero if it takes none. -/
def Thread.wants {L Op σ α : Type} (rank : L → Nat) (t : Thread L Op σ α) : Nat :=
  match t.prog with
  | .acquire l _ _ => rank l + 1
  | _ => 0

theorem Thread.wants_of_request {L Op σ α : Type} {rank : L → Nat} {t : Thread L Op σ α} {l : L} {m : Mode}
    (h : t.request = some (l, m)) : t.wants rank = rank l + 1 := by
  obtain ⟨p, held, w⟩ := t
  cases p with
  | acquire l' m' p => cases h; rfl
  | _ => cases h

namespace Config
variable {L Op σ α : Type} [DecidableEq L] [Interp Op σ] {rank : L → Nat} {P : σ → Prop}

/-- Every call takes its locks in order from where it is. -/
structure Ascending (rank : L → Nat) (P : σ → Prop) (c : Config L Op σ α) : Prop where
  store : P c.store
  threads : ∀ t ∈ c.threads, t.prog.Ascends rank P (fun _ h => h = []) t.held

theorem Ascending.start {s : σ} {ps : List (Prog L Op σ α)} (hs : P s)
    (hps : ∀ p ∈ ps, p.Orderly rank P (fun _ => True) []) : (Config.start s ps).Ascending rank P := by
  refine ⟨hs, fun t ht => ?_⟩
  obtain ⟨p, hp, rfl⟩ := List.mem_map.mp ht
  exact Prog.ascends_mono (hps p hp) fun _ _ hq => hq.1

variable {c c' : Config L Op σ α}

theorem Ascending.step (hc : c.Ascending rank P) {i : Nat} {e : Event L Op} (hs : Step c i e c') :
    c'.Ascending rank P := by
  have moved : ∀ {t' : Thread L Op σ α}, c'.threads = c.threads.set i t' →
      t'.prog.Ascends rank P (fun _ h => h = []) t'.held →
      ∀ t ∈ c'.threads, t.prog.Ascends rank P (fun _ h => h = []) t.held := by
    intro t' hc' ht' t ht
    rw [hc'] at ht
    rcases List.mem_or_eq_of_mem_set ht with ht | rfl
    · exact hc.threads t ht
    · exact ht'
  cases hs with
  | request ht => exact ⟨hc.store, moved rfl (hc.threads _ (List.mem_of_getElem? ht) :)⟩
  | acquire ht _ => exact ⟨hc.store, moved rfl (hc.threads _ (List.mem_of_getElem? ht)).2⟩
  | release ht => exact ⟨hc.store, moved rfl (hc.threads _ (List.mem_of_getElem? ht) :)⟩
  | op ht =>
    obtain ⟨hp, hk⟩ := hc.threads _ (List.mem_of_getElem? ht) c.store hc.store
    exact ⟨hp, moved rfl hk⟩

theorem Ascending.reach (hc : c.Ascending rank P) (h : Reach c c') : c'.Ascending rank P :=
  h.inv hc fun _ _ _ _ ih hs => ih.step hs

/-- In a deadlock, whoever holds a lock waits for one above it. -/
theorem Ascending.waits_above (hc : c.Ascending rank P) (hd : c.Deadlocked) {t : Thread L Op σ α}
    (ht : t ∈ c.threads) {g : L × Mode} (hg : g ∈ t.held) : rank g.1 + 1 < t.wants rank := by
  have hp := hc.threads t ht
  have hdone : t.done = false := by
    obtain ⟨p, held, w⟩ := t
    cases p with
    | pure a =>
      have hheld : held = [] := hp
      rw [hheld] at hg
      cases hg
    | _ => rfl
  obtain ⟨-, ⟨l, m⟩, hr, -⟩ := hd.2 t ht hdone
  rw [Thread.wants_of_request hr]
  obtain ⟨p, held, w⟩ := t
  cases p with
  | acquire l' m' p =>
    cases hr
    exact Nat.succ_lt_succ (hp.1 g hg)
  | _ => cases hr

/-- The call that waits for the highest lock waits for one that nobody holds. -/
theorem Ascending.not_deadlocked (hc : c.Ascending rank P) : ¬ c.Deadlocked := by
  intro hd
  have waits : ∀ t ∈ c.threads, t.done = false → ∃ l m, t.WaitsFor l m := by
    intro t ht hdone
    obtain ⟨hw, ⟨l, m⟩, hr, -⟩ := hd.2 t ht hdone
    exact ⟨l, m, hw, hr⟩
  obtain ⟨t₀, ht₀, hdone⟩ := hd.1
  obtain ⟨l₀, m₀, -, hr₀⟩ := waits t₀ ht₀ hdone
  obtain ⟨i₀, hi₀⟩ := List.mem_iff_get.mp ht₀
  have : Nonempty (Fin c.threads.length) := ⟨i₀⟩
  obtain ⟨i, hi⟩ := Finite.exists_max fun i => (c.threads.get i).wants rank
  generalize ht : c.threads.get i = t at hi
  have highest : ∀ t' ∈ c.threads, t'.wants rank ≤ t.wants rank := by
    intro t' ht'
    obtain ⟨j, rfl⟩ := List.mem_iff_get.mp ht'
    exact hi j
  have hmem : t ∈ c.threads := ht ▸ List.get_mem _ _
  have hpos : 0 < t.wants rank := by
    have hle := highest t₀ ht₀
    rw [Thread.wants_of_request hr₀] at hle
    omega
  have hdone : t.done = false := by
    obtain ⟨p, held, w⟩ := t
    cases p with
    | pure a => exact absurd hpos (Nat.lt_irrefl 0)
    | _ => rfl
  obtain ⟨l, m, hw⟩ := waits t hmem hdone
  refine hd.not_waits (fun t' ht' g hg hgl => ?_) hmem m hw
  have habove := hc.waits_above hd ht' hg
  have hle := highest t' ht'
  rw [Thread.wants_of_request hw.2] at hle
  rw [hgl] at habove
  omega

/-- A run that cannot go on has returned from all calls. -/
theorem Ascending.returned (hc : c.Ascending rank P) (hs : ∀ i e c', ¬ Step c i e c') : c.Returned := by
  intro t ht
  by_contra hdone
  exact hc.not_deadlocked (deadlocked_of_stuck hs ht (Bool.eq_false_iff.mpr hdone))

/-- Every run can be continued until all calls have returned. -/
theorem Ascending.returns (hc : c.Ascending rank P) : ∃ c', Reach c c' ∧ c'.Returned := by
  obtain ⟨c', hr, hs⟩ := c.exists_stuck
  exact ⟨c', hr, (hc.reach hr).returned hs⟩

end Config
end Guarded
