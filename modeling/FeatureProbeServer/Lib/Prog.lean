import Mathlib.Logic.Relation
import Mathlib.Tactic.Common

/-!
# Guarded programs

A `Prog L Op σ α` is the body of a function that takes read and write guards of the locks `L` and
runs atomic operations `Op` on a shared store `σ`. An operation's effect on the store is
`Interp.exec`; the program goes on with the store the operation found. `run` is what a call does
when nothing runs beside it (guards have no effect then); `Lib.Interleave` runs several at once.
-/

namespace Guarded

inductive Mode where
  | read
  | write
  deriving DecidableEq, Repr

/-- The effect of an operation on the store. -/
class Interp (Op σ : Type) where
  exec : Op → σ → σ

inductive Prog (L Op σ α : Type) where
  | pure (a : α)
  | acquire (l : L) (m : Mode) (next : Prog L Op σ α)
  | release (l : L) (m : Mode) (next : Prog L Op σ α)
  | op (o : Op) (next : σ → Prog L Op σ α)

namespace Prog

variable {L Op σ α β : Type}

def bind : Prog L Op σ α → (α → Prog L Op σ β) → Prog L Op σ β
  | .pure a, f => f a
  | .acquire l m p, f => .acquire l m (p.bind f)
  | .release l m p, f => .release l m (p.bind f)
  | .op o k, f => .op o fun s => (k s).bind f

instance : Monad (Prog L Op σ) where
  pure := .pure
  bind := bind

@[simp] theorem acquire_bind (l : L) (m : Mode) (p : Prog L Op σ α) (f : α → Prog L Op σ β) :
    Prog.acquire l m p >>= f = .acquire l m (p >>= f) := rfl

@[simp] theorem release_bind (l : L) (m : Mode) (p : Prog L Op σ α) (f : α → Prog L Op σ β) :
    Prog.release l m p >>= f = .release l m (p >>= f) := rfl

@[simp] theorem op_bind (o : Op) (k : σ → Prog L Op σ α) (f : α → Prog L Op σ β) :
    Prog.op o k >>= f = .op o fun s => k s >>= f := rfl

theorem bind_pure' (p : Prog L Op σ α) : p >>= Pure.pure = p := by
  induction p with
  | pure a => rfl
  | acquire l m p ih => rw [acquire_bind, ih]
  | release l m p ih => rw [release_bind, ih]
  | op o k ih => rw [op_bind]; congr 1; funext s; exact ih s

theorem bind_assoc' {γ : Type} (p : Prog L Op σ α) (f : α → Prog L Op σ β) (g : β → Prog L Op σ γ) :
    p >>= f >>= g = p >>= fun a => f a >>= g := by
  induction p with
  | pure a => rfl
  | acquire l m p ih => simp only [acquire_bind, ih]
  | release l m p ih => simp only [release_bind, ih]
  | op o k ih => simp only [op_bind]; congr 1; funext s; exact ih s

instance : LawfulMonad (Prog L Op σ) :=
  LawfulMonad.mk' _ bind_pure' (fun _ _ => rfl) bind_assoc'

/-- The operation `o`. -/
def perform (o : Op) : Prog L Op σ Unit := .op o fun _ => .pure ()

/-- The operation `o`, returning what `f` reads in the store it found. -/
def reading (o : Op) (f : σ → α) : Prog L Op σ α := .op o fun s => .pure (f s)

/-- `p` with a guard of `l` in scope, dropped at its end. -/
def guarded (l : L) (m : Mode) (p : Prog L Op σ α) : Prog L Op σ α :=
  .acquire l m (p >>= fun a => .release l m (.pure a))

/-- The loop `forM` with a body that may give up (`none`), which ends the loop. -/
def tryForM (f : α → Prog L Op σ (Option Unit)) : List α → Prog L Op σ (Option Unit)
  | [] => Pure.pure (some ())
  | a :: l => f a >>= fun r => match r with
    | some () => tryForM f l
    | none => Pure.pure none

/-- `q` is `p` with its result turned into another one. -/
def IsMap (p : Prog L Op σ α) (q : Prog L Op σ β) : Prop := ∃ g : α → β, q = g <$> p

namespace IsMap
variable {γ : Type} {p : Prog L Op σ α} {q : Prog L Op σ β}

theorem refl (p : Prog L Op σ α) : p.IsMap p := ⟨id, (id_map p).symm⟩

theorem bind {k : β → Prog L Op σ γ} (h : p.IsMap q) (hk : ∀ b, ∃ c, k b = Pure.pure c) :
    p.IsMap (q >>= k) := by
  obtain ⟨g, rfl⟩ := h
  choose f hf using hk
  refine ⟨f ∘ g, ?_⟩
  rw [funext hf, bind_pure_comp, comp_map]

/-- What is made of the result can be made of it under an injection. -/
theorem of_injective {c : α → γ} (hc : Function.Injective c) (b : β) (h : p.IsMap q) :
    (c <$> p).IsMap q := by
  obtain ⟨g, rfl⟩ := h
  refine ⟨Function.extend c g fun _ => b, ?_⟩
  rw [← comp_map]
  congr 1
  funext a
  exact (hc.extend_apply ..).symm

end IsMap

/-! ### One call alone -/

section Run
variable [Interp Op σ]

/-- The result and the store after the call, when nothing runs beside it. -/
def run : Prog L Op σ α → σ → α × σ
  | .pure a, s => (a, s)
  | .acquire _ _ p, s => p.run s
  | .release _ _ p, s => p.run s
  | .op o k, s => (k s).run (Interp.exec o s)

@[simp] theorem run_pure (a : α) (s : σ) : (Pure.pure a : Prog L Op σ α).run s = (a, s) := rfl

@[simp] theorem run_bind (p : Prog L Op σ α) (f : α → Prog L Op σ β) (s : σ) :
    (p >>= f).run s = (f (p.run s).1).run (p.run s).2 := by
  induction p generalizing s with
  | pure a => rfl
  | acquire l m p ih => exact ih s
  | release l m p ih => exact ih s
  | op o k ih => exact ih s _

@[simp] theorem run_map (f : α → β) (p : Prog L Op σ α) (s : σ) :
    (f <$> p).run s = (f (p.run s).1, (p.run s).2) := by
  rw [map_eq_pure_bind, run_bind]; rfl

@[simp] theorem run_perform (o : Op) (s : σ) :
    (perform o : Prog L Op σ Unit).run s = ((), Interp.exec o s) := rfl

@[simp] theorem run_reading (o : Op) (f : σ → α) (s : σ) :
    (reading o f : Prog L Op σ α).run s = (f s, Interp.exec o s) := rfl

@[simp] theorem run_guarded (l : L) (m : Mode) (p : Prog L Op σ α) (s : σ) :
    (guarded l m p).run s = p.run s := by
  show (p >>= _).run s = _
  rw [run_bind]; rfl

end Run

end Prog
end Guarded
