import FeatureProbeServer.Lib.Rely

/-!
# Calls within a relation

`Within E`: every operation of the program leaves the store related by `E` to the one it finds. Where
all calls keep within `E`, so does any run of them (`Reach.within`).
-/

namespace Guarded

namespace Prog
variable {L Op σ α β : Type} [Interp Op σ] {E : σ → σ → Prop}

def Within (E : σ → σ → Prop) : Prog L Op σ α → Prop
  | .pure _ => True
  | .acquire _ _ p => p.Within E
  | .release _ _ p => p.Within E
  | .op o k => (∀ s, E s (Interp.exec o s)) ∧ ∀ s, (k s).Within E

theorem Within.bind {p : Prog L Op σ α} {f : α → Prog L Op σ β} (hp : p.Within E)
    (hf : ∀ a, (f a).Within E) : (p >>= f).Within E := by
  induction p with
  | pure a => exact hf a
  | acquire l m p ih => exact ih hp
  | release l m p ih => exact ih hp
  | op o k ih => exact ⟨hp.1, fun s => ih s (hp.2 s)⟩

theorem Within.guarded {l : L} {m : Mode} {p : Prog L Op σ α} (hp : p.Within E) :
    (Prog.guarded l m p).Within E :=
  Within.bind (p := p) hp fun _ => trivial

theorem Within.forM {f : α → Prog L Op σ Unit} {l : List α} (hf : ∀ a, (f a).Within E) :
    (forM l f).Within E := by
  induction l with
  | nil => trivial
  | cons a l ih =>
    rw [List.forM_cons]
    exact (hf a).bind fun _ => ih

theorem Within.tryForM {f : α → Prog L Op σ (Option Unit)} {l : List α} (hf : ∀ a, (f a).Within E) :
    (tryForM f l).Within E := by
  induction l with
  | nil => trivial
  | cons a l ih =>
    refine (hf a).bind fun r => ?_
    cases r with
    | some => exact ih
    | none => trivial

theorem ReadOnly.within [IsPreorder σ E] {p : Prog L Op σ α} (hp : p.ReadOnly) : p.Within E := by
  induction p with
  | pure a => trivial
  | acquire l m p ih => exact ih hp
  | release l m p ih => exact ih hp
  | op o k ih =>
    refine ⟨fun s => ?_, fun s => ih s (hp.2 s)⟩
    rw [hp.1 s]
    exact refl_of E s

end Prog

namespace Config
variable {L Op σ α : Type} [Interp Op σ] {E : σ → σ → Prop} [DecidableEq L] [IsPreorder σ E]
  {c c' : Config L Op σ α}

/-- Where all calls keep within `E`, so does the run. -/
theorem Reach.within (hc : ∀ t ∈ c.threads, t.prog.Within E) (h : Reach c c') : E c.store c'.store := by
  suffices hall : E c.store c'.store ∧ ∀ t ∈ c'.threads, t.prog.Within E from hall.1
  refine h.inv (I := fun c' => E c.store c'.store ∧ ∀ t ∈ c'.threads, t.prog.Within E) ⟨refl_of E _, hc⟩ ?_
  rintro c₁ i e c₂ ⟨hE, hw⟩ hs
  have moved : ∀ {t' : Thread L Op σ α}, c₂.threads = c₁.threads.set i t' → t'.prog.Within E →
      ∀ t ∈ c₂.threads, t.prog.Within E := by
    intro t' hc₂ ht' t ht
    rw [hc₂] at ht
    rcases List.mem_or_eq_of_mem_set ht with ht | rfl
    · exact hw t ht
    · exact ht'
  cases hs with
  | request ht => exact ⟨hE, moved rfl (hw _ (List.mem_of_getElem? ht) :)⟩
  | acquire ht _ => exact ⟨hE, moved rfl (hw _ (List.mem_of_getElem? ht) :)⟩
  | release ht => exact ⟨hE, moved rfl (hw _ (List.mem_of_getElem? ht) :)⟩
  | op ht =>
    obtain ⟨ho, hk⟩ := hw _ (List.mem_of_getElem? ht)
    exact ⟨trans_of E hE (ho c₁.store), moved rfl (hk c₁.store)⟩

end Config
end Guarded
