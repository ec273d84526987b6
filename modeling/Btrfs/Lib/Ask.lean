/-
  Btrfs/Lib/Ask.lean
  ==================
  **Programs that read through an oracle.**

  A program asks questions one after the other, each depending on the answers before, and
  ends with a result.  Nothing but the answers enters the result, so one program can be
  run against the source itself, or against a cache in front of it.

  A cache may forget, but it answers only what was put into it.  As long as that is what
  the source answers, a run through the cache gives the result of a run without one, and
  leaves such a cache behind (`runCached_eq`).
-/
import Btrfs.Lib.Checked

namespace Btrfs.Lib

/-- A program with questions in `Q`, answers in `R` and a checked result. -/
inductive Ask (Q R ε α : Type)
  | done (r : Checked ε α)
  | ask (q : Q) (k : R → Ask Q R ε α)

namespace Ask

variable {Q R ε α β : Type}

def bind : Ask Q R ε α → (α → Ask Q R ε β) → Ask Q R ε β
  | .done (.ok a), f => f a
  | .done (.error e), _ => .done (.error e)
  | .ask q k, f => .ask q fun r => (k r).bind f

instance : Monad (Ask Q R ε) where
  pure a := .done (.ok a)
  bind := bind

instance : MonadLift (Checked ε) (Ask Q R ε) := ⟨.done⟩

instance : MonadLift (Except ε) (Ask Q R ε) := ⟨fun r => .done (Checked.ofExcept r)⟩

/-- Stop with an error. -/
def fail (e : ε) : Ask Q R ε α := .done (.error (.err e))

/-- Change how a program ends. -/
def mapResult (f : Checked ε α → Checked ε β) : Ask Q R ε α → Ask Q R ε β
  | .done r => .done (f r)
  | .ask q k => .ask q fun r => (k r).mapResult f

/-- Change the error that is returned. -/
def mapErr (f : ε → ε) (x : Ask Q R ε α) : Ask Q R ε α := x.mapResult (Checked.mapErr f)

/-- Go on after an error, with the error as the value. -/
def attempt (x : Ask Q R ε α) : Ask Q R ε (Except ε α) := x.mapResult Checked.attempt

/-! ## 1. Running against a source -/

variable (o : Q → R)

def run : Ask Q R ε α → Checked ε α
  | .done r => r
  | .ask q k => (k (o q)).run

variable {o} {x : Ask Q R ε α} {P : α → Prop}

theorem run_bind (x : Ask Q R ε α) (f : α → Ask Q R ε β) :
    (x >>= f).run o = x.run o >>= fun a => (f a).run o := by
  change (x.bind f).run o = _
  induction x with
  | done r => cases r <;> rfl
  | ask q k ih => exact ih (o q)

theorem ensures_bind {S : β → Prop} {f : α → Ask Q R ε β} (hx : Ensures P (x.run o))
    (hf : ∀ a, P a → Ensures S ((f a).run o)) : Ensures S ((x >>= f).run o) := by
  rw [run_bind]
  exact hx.bind hf

theorem run_mapResult (f : Checked ε α → Checked ε β) (x : Ask Q R ε α) :
    (x.mapResult f).run o = f (x.run o) := by
  induction x with
  | done r => rfl
  | ask q k ih => exact ih (o q)

theorem ensures_mapErr {f : ε → ε} (hx : Ensures P (x.run o)) : Ensures P ((x.mapErr f).run o) := by
  rw [mapErr, run_mapResult]
  exact hx.mapErr

theorem ensures_attempt (hx : Ensures P (x.run o)) :
    Ensures (fun r => ∀ a, r = .ok a → P a) (x.attempt.run o) := by
  rw [attempt, run_mapResult]
  exact hx.attempt

theorem ensures_foldlM {γ : Type} {f : α → γ → Ask Q R ε α} {l : List γ} {a₀ : α} (h₀ : P a₀)
    (hf : ∀ a, ∀ c ∈ l, P a → Ensures P ((f a c).run o)) : Ensures P ((l.foldlM f a₀).run o) := by
  induction l generalizing a₀ with
  | nil => exact h₀
  | cons c l ih =>
    rw [List.foldlM_cons]
    apply ensures_bind (hf a₀ c List.mem_cons_self h₀)
    intro a ha
    exact ih ha fun a c hc => hf a c (List.mem_cons_of_mem _ hc)

/-! ## 2. Running through a cache -/

/-- A cache: what it finds was put there for the same question. -/
structure Cache (Q R : Type) where
  Table : Type
  find : Table → Q → Option R
  put : Table → Q → R → Table
  find_put : ∀ t q r q' r', find (put t q r) q' = some r' → q' = q ∧ r' = r ∨ find t q' = some r'

variable (C : Cache Q R) (o)

/-- Look a question up before asking it, and put the answer into the cache. -/
def runCached : Ask Q R ε α → C.Table → Checked ε α × C.Table
  | .done r, t => (r, t)
  | .ask q k, t =>
    match C.find t q with
    | some r => (k r).runCached t
    | none => (k (o q)).runCached (C.put t q (o q))

/-- The cache answers as the source does. -/
def Cache.Sound (t : C.Table) : Prop := ∀ q r, C.find t q = some r → r = o q

variable {C o} {t : C.Table}

theorem Cache.Sound.put (ht : C.Sound o t) (q : Q) : C.Sound o (C.put t q (o q)) := by
  intro q' r' hfind
  rcases C.find_put _ _ _ _ _ hfind with ⟨rfl, rfl⟩ | hold
  · rfl
  · exact ht q' r' hold

/-- **A sound cache cannot be seen**, and stays sound. -/
theorem runCached_eq (ht : C.Sound o t) (x : Ask Q R ε α) :
    (x.runCached o C t).1 = x.run o ∧ C.Sound o (x.runCached o C t).2 := by
  induction x generalizing t with
  | done r => exact ⟨rfl, ht⟩
  | ask q k ih =>
    rw [runCached, run]
    cases hfind : C.find t q with
    | some r =>
      rw [← ht q r hfind]
      exact ih r ht
    | none => exact ih (o q) (ht.put q)

end Ask

end Btrfs.Lib
