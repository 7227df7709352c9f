import FeatureProbeServer.Lib.Prog

/-!
# Interleaved calls

A `Config` is a store and the calls running on it, each with the guards it holds. `step?` lets one
call take its next step: ask for a guard, be granted it, drop one, or run an operation. A lock is
granted for writing when nobody holds it, and for reading when nobody holds it for writing and
nobody waits to write; the caller's own read guard does not help it past a waiting writer.
`Step` is the same as a relation, `Exec` a run with its trace, `Reach` a run with the trace forgotten.
-/

namespace Guarded

/-- A call in progress. `waiting`: it has asked for the guard its program starts with. -/
structure Thread (L Op σ α : Type) where
  prog : Prog L Op σ α
  held : List (L × Mode)
  waiting : Bool

structure Config (L Op σ α : Type) where
  store : σ
  threads : List (Thread L Op σ α)

inductive Event (L Op : Type) where
  | request (l : L) (m : Mode)
  | acquire (l : L) (m : Mode)
  | release (l : L) (m : Mode)
  | op (o : Op)
  deriving DecidableEq

namespace Thread
variable {L Op σ α : Type}

def start (p : Prog L Op σ α) : Thread L Op σ α := ⟨p, [], false⟩

/-- The guard the program starts by taking. -/
def request (t : Thread L Op σ α) : Option (L × Mode) :=
  match t.prog with
  | .acquire l m _ => some (l, m)
  | _ => none

/-- What the call returned. -/
def result (t : Thread L Op σ α) : Option α :=
  match t.prog with
  | .pure a => some a
  | _ => none

def done (t : Thread L Op σ α) : Bool := t.result.isSome

def WaitsFor (t : Thread L Op σ α) (l : L) (m : Mode) : Prop :=
  t.waiting = true ∧ t.request = some (l, m)

instance [DecidableEq L] (t : Thread L Op σ α) (l : L) (m : Mode) : Decidable (t.WaitsFor l m) :=
  inferInstanceAs (Decidable (_ ∧ _))

end Thread

namespace Config
variable {L Op σ α : Type}

/-- The calls `ps` about to start on the store `s`. -/
def start (s : σ) (ps : List (Prog L Op σ α)) : Config L Op σ α := ⟨s, ps.map Thread.start⟩

def set (c : Config L Op σ α) (i : Nat) (t : Thread L Op σ α) : Config L Op σ α :=
  { c with threads := c.threads.set i t }

/-- The lock would be granted now. -/
def Free (c : Config L Op σ α) (l : L) : Mode → Prop
  | .read => ∀ t ∈ c.threads, (l, .write) ∉ t.held ∧ ¬ t.WaitsFor l .write
  | .write => ∀ t ∈ c.threads, ∀ g ∈ t.held, g.1 ≠ l

instance [DecidableEq L] (c : Config L Op σ α) (l : L) : ∀ m, Decidable (c.Free l m)
  | .read => inferInstanceAs (Decidable (∀ t ∈ c.threads, (l, .write) ∉ t.held ∧ ¬ t.WaitsFor l .write))
  | .write => inferInstanceAs (Decidable (∀ t ∈ c.threads, ∀ g ∈ t.held, g.1 ≠ l))

theorem getElem?_set_of {ts : List (Thread L Op σ α)} {i : Nat} {t : Thread L Op σ α}
    (h : ts[i]? = some t) (t' : Thread L Op σ α) (j : Nat) :
    (ts.set i t')[j]? = if j = i then some t' else ts[j]? := by
  have hi : i < ts.length := (List.getElem?_eq_some_iff.mp h).1
  rw [List.getElem?_set]
  split
  · subst i; simp
  · simp [Ne.symm ‹_›]

theorem getElem?_set_self {ts : List (Thread L Op σ α)} {i : Nat} {t : Thread L Op σ α}
    (h : ts[i]? = some t) (t' : Thread L Op σ α) : (ts.set i t')[i]? = some t' := by
  rw [getElem?_set_of h, if_pos rfl]

/-- Every call has returned. -/
def Returned (c : Config L Op σ α) : Prop := ∀ t ∈ c.threads, t.done = true

instance (c : Config L Op σ α) : Decidable c.Returned := inferInstanceAs (Decidable (∀ t ∈ c.threads, _))

/-! ### Mutual exclusion -/

/-- A write guard is the only guard of its lock. -/
def Exclusive (c : Config L Op σ α) : Prop :=
  ∀ (i j : Nat) (ti tj : Thread L Op σ α) (l : L) (m : Mode), i ≠ j → c.threads[i]? = some ti →
    c.threads[j]? = some tj → (l, .write) ∈ ti.held → (l, m) ∉ tj.held

theorem exclusive_start (s : σ) (ps : List (Prog L Op σ α)) : (start s ps).Exclusive := by
  intro i j ti tj l m _ hi _ hl
  obtain ⟨p, -, rfl⟩ := List.mem_map.mp (List.mem_of_getElem? hi)
  cases hl

theorem Exclusive.of_set {c c' : Config L Op σ α} (h : c.Exclusive) {i : Nat} {t t' : Thread L Op σ α}
    (ht : c.threads[i]? = some t) (hc : c'.threads = c.threads.set i t')
    (hsub : ∀ g, g ∈ t'.held → g ∈ t.held ∨ c.Free g.1 g.2) : c'.Exclusive := by
  intro a b ta tb l m hab ha hb hl hm
  rw [hc, getElem?_set_of ht] at ha hb
  split at ha
  · subst a; cases ha
    rw [if_neg (Ne.symm hab)] at hb
    rcases hsub _ hl with hl | hf
    · exact h i b t tb l m hab ht hb hl hm
    · exact hf tb (List.mem_of_getElem? hb) _ hm rfl
  · split at hb
    · subst b; cases hb
      rcases hsub _ hm with hm | hf
      · exact h a i ta t l m hab ha ht hl hm
      · cases m with
        | read => exact (hf ta (List.mem_of_getElem? ha)).1 hl
        | write => exact hf ta (List.mem_of_getElem? ha) _ hl rfl
    · exact h a b ta tb l m hab ha hb hl hm

/-! ### Steps and runs -/

section Step
variable [DecidableEq L] [Interp Op σ]

def step? (c : Config L Op σ α) (i : Nat) : Option (Event L Op × Config L Op σ α) :=
  match c.threads[i]? with
  | none => none
  | some ⟨.pure _, _, _⟩ => none
  | some ⟨.acquire l m p, h, false⟩ => some (.request l m, c.set i ⟨.acquire l m p, h, true⟩)
  | some ⟨.acquire l m p, h, true⟩ =>
    if c.Free l m then some (.acquire l m, c.set i ⟨p, (l, m) :: h, false⟩) else none
  | some ⟨.release l m p, h, _⟩ => some (.release l m, c.set i ⟨p, h.erase (l, m), false⟩)
  | some ⟨.op o k, h, _⟩ =>
    some (.op o, { c.set i ⟨k c.store, h, false⟩ with store := Interp.exec o c.store })

inductive Step (c : Config L Op σ α) (i : Nat) : Event L Op → Config L Op σ α → Prop
  | request {l m p h} (ht : c.threads[i]? = some ⟨.acquire l m p, h, false⟩) :
    Step c i (.request l m) (c.set i ⟨.acquire l m p, h, true⟩)
  | acquire {l m p h} (ht : c.threads[i]? = some ⟨.acquire l m p, h, true⟩) (hf : c.Free l m) :
    Step c i (.acquire l m) (c.set i ⟨p, (l, m) :: h, false⟩)
  | release {l m p h w} (ht : c.threads[i]? = some ⟨.release l m p, h, w⟩) :
    Step c i (.release l m) (c.set i ⟨p, h.erase (l, m), false⟩)
  | op {o k h w} (ht : c.threads[i]? = some ⟨.op o k, h, w⟩) :
    Step c i (.op o) { c.set i ⟨k c.store, h, false⟩ with store := Interp.exec o c.store }

theorem step?_iff {c c' : Config L Op σ α} {i : Nat} {e : Event L Op} :
    c.step? i = some (e, c') ↔ Step c i e c' := by
  constructor
  · intro h
    unfold step? at h
    split at h
    · cases h
    · cases h
    · cases h; exact .request ‹_›
    · split at h
      · cases h; exact .acquire ‹_› ‹_›
      · cases h
    · cases h; exact .release ‹_›
    · cases h; exact .op ‹_›
  · rintro (ht | ⟨ht, hf⟩ | ht | ht) <;> simp [step?, ht]
    exact hf

/-- The runs from `c₀`, each with the calls that moved and what they did. -/
inductive Exec (c₀ : Config L Op σ α) : List (Nat × Event L Op) → Config L Op σ α → Prop
  | nil : Exec c₀ [] c₀
  | snoc {tr c i e c'} (h : Exec c₀ tr c) (hs : Step c i e c') : Exec c₀ (tr ++ [(i, e)]) c'

def Reach (c₀ c : Config L Op σ α) : Prop := ∃ tr, Exec c₀ tr c

/-- The calls move in the order of `is`. -/
def schedule : Config L Op σ α → List Nat → Option (Config L Op σ α)
  | c, [] => some c
  | c, i :: is => (c.step? i).bind fun p => p.2.schedule is

theorem Exec.append {c₀ c c' : Config L Op σ α} {tr tr'} (h : Exec c₀ tr c) (h' : Exec c tr' c') :
    Exec c₀ (tr ++ tr') c' := by
  induction h' with
  | nil => rwa [List.append_nil]
  | snoc _ hs ih => rw [← List.append_assoc]; exact ih.snoc hs

namespace Reach

variable {c₀ c c' : Config L Op σ α} {i : Nat} {e : Event L Op}

theorem refl : Reach c c := ⟨_, .nil⟩

theorem tail (h : Reach c₀ c) (hs : Step c i e c') : Reach c₀ c' := by
  obtain ⟨_, h⟩ := h
  exact ⟨_, h.snoc hs⟩

theorem trans (h : Reach c₀ c) (h' : Reach c c') : Reach c₀ c' := by
  obtain ⟨_, h⟩ := h
  obtain ⟨_, h'⟩ := h'
  exact ⟨_, h.append h'⟩

theorem head (hs : Step c₀ i e c) (h : Reach c c') : Reach c₀ c' := trans (tail refl hs) h

/-- What holds at the start and is kept by every step holds in every state reached. -/
theorem inv {I : Config L Op σ α → Prop} (h : Reach c₀ c) (h₀ : I c₀)
    (hs : ∀ c i e c', I c → Step c i e c' → I c') : I c := by
  obtain ⟨_, h⟩ := h
  induction h with
  | nil => exact h₀
  | snoc _ hst ih => exact hs _ _ _ _ ih hst

theorem of_schedule {is : List Nat} (h : c.schedule is = some c') : Reach c c' := by
  induction is generalizing c with
  | nil => cases h; exact refl
  | cons i is ih =>
    obtain ⟨⟨e, c₁⟩, h₁, h₂⟩ := Option.bind_eq_some_iff.mp h
    exact head (step?_iff.mp h₁) (ih h₂)

end Reach

/-! ### What a step leaves alone -/

/-- The moving thread and its successor; every other thread stays as it is. -/
theorem Step.threads {c c' : Config L Op σ α} {i : Nat} {e : Event L Op} (h : Step c i e c') :
    ∃ t t', c.threads[i]? = some t ∧ c'.threads = c.threads.set i t' := by
  cases h with
  | request ht => exact ⟨_, _, ht, rfl⟩
  | acquire ht _ => exact ⟨_, _, ht, rfl⟩
  | release ht => exact ⟨_, _, ht, rfl⟩
  | op ht => exact ⟨_, _, ht, rfl⟩

theorem Step.other {c c' : Config L Op σ α} {i j : Nat} {e : Event L Op} (h : Step c i e c')
    (hj : j ≠ i) : c'.threads[j]? = c.threads[j]? := by
  obtain ⟨t, t', ht, hc⟩ := h.threads
  rw [hc, getElem?_set_of ht, if_neg hj]

theorem Step.length {c c' : Config L Op σ α} {i : Nat} {e : Event L Op} (h : Step c i e c') :
    c'.threads.length = c.threads.length := by
  obtain ⟨t, t', -, hc⟩ := h.threads
  rw [hc, List.length_set]

theorem Reach.length {c c' : Config L Op σ α} (h : Reach c c') :
    c'.threads.length = c.threads.length :=
  h.inv (I := fun c' => c'.threads.length = c.threads.length) rfl
    fun _ _ _ _ ih hs => hs.length.trans ih

theorem Exclusive.step {c c' : Config L Op σ α} {i : Nat} {e : Event L Op} (h : c.Exclusive)
    (hs : Step c i e c') : c'.Exclusive := by
  cases hs with
  | request ht => exact h.of_set ht rfl fun g hg => .inl hg
  | acquire ht hf =>
    refine h.of_set ht rfl fun g hg => ?_
    rcases List.mem_cons.mp hg with rfl | hg
    · exact .inr hf
    · exact .inl hg
  | release ht => exact h.of_set ht rfl fun g hg => .inl (List.mem_of_mem_erase hg)
  | op ht => exact h.of_set ht rfl fun g hg => .inl hg

theorem Reach.exclusive {s : σ} {ps : List (Prog L Op σ α)} {c : Config L Op σ α}
    (h : Reach (start s ps) c) : c.Exclusive :=
  h.inv (exclusive_start s ps) fun _ _ _ _ ih hs => ih.step hs

end Step

end Config
end Guarded
