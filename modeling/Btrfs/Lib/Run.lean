/-
  Btrfs/Lib/Run.lean
  ==================
  **Taking a stateful computation apart** — inversion lemmas for `EStateM`.

  An `EStateM ε σ` computation keeps the state it has reached when it fails, as a
  procedure that returns an error after half of its side effects does.  A proof about
  a run that succeeded walks through the run one bind at a time (`run_bind`); a run
  that fails is split the same way (`run_bind_error`).
-/
import Mathlib

namespace Btrfs.Lib

variable {ε σ α β : Type} {x : EStateM ε σ α} {f : α → EStateM ε σ β} {s s' : σ}

/-- A sequence succeeds when its parts do. -/
theorem run_bind {b : β} :
    (x >>= f) s = .ok b s' ↔ ∃ a s₁, x s = .ok a s₁ ∧ f a s₁ = .ok b s' := by
  change EStateM.bind x f s = .ok b s' ↔ _
  unfold EStateM.bind
  cases hx : x s with
  | ok a s₁ => simp [and_assoc]
  | error e s₁ => simp

/-- A sequence fails in its first part or in its second. -/
theorem run_bind_error {e : ε} :
    (x >>= f) s = .error e s' ↔
      x s = .error e s' ∨ ∃ a s₁, x s = .ok a s₁ ∧ f a s₁ = .error e s' := by
  change EStateM.bind x f s = .error e s' ↔ _
  unfold EStateM.bind
  cases hx : x s with
  | ok a s₁ => simp [and_assoc]
  | error e s₁ => simp

theorem bind_of_ok {a : α} (h : x s = .ok a s') : (x >>= f) s = f a s' := by
  change EStateM.bind x f s = f a s'
  simp only [EStateM.bind, h]

theorem bind_of_error {e : ε} (h : x s = .error e s') : (x >>= f) s = .error e s' := by
  change EStateM.bind x f s = .error e s'
  simp only [EStateM.bind, h]

@[simp] theorem run_pure {a b : α} : (pure a : EStateM ε σ α) s = .ok b s' ↔ a = b ∧ s = s' := by
  change EStateM.Result.ok a s = .ok b s' ↔ _
  simp

@[simp] theorem run_throw {e : ε} {b : α} : (throw e : EStateM ε σ α) s = .ok b s' ↔ False := by
  change EStateM.Result.error e s = .ok b s' ↔ _
  simp

@[simp] theorem run_get {a : σ} : (get : EStateM ε σ σ) s = .ok a s' ↔ s = a ∧ s = s' := by
  change EStateM.Result.ok s s = .ok a s' ↔ _
  simp

theorem run_get_bind {f : σ → EStateM ε σ β} {b : β} :
    ((get : EStateM ε σ σ) >>= f) s = .ok b s' ↔ f s s = .ok b s' := Iff.rfl

@[simp] theorem run_modify {f : σ → σ} {u : PUnit} :
    (modify f : EStateM ε σ PUnit) s = .ok u s' ↔ f s = s' := by
  change EStateM.Result.ok ⟨⟩ (f s) = .ok u s' ↔ _
  simp

/-- Run a computation that can fail but has no state of its own. -/
def fromExcept (r : Except ε α) : EStateM ε σ α :=
  match r with
  | .ok a => pure a
  | .error e => throw e

@[simp] theorem run_fromExcept {r : Except ε α} {a : α} :
    (fromExcept r : EStateM ε σ α) s = .ok a s' ↔ r = .ok a ∧ s = s' := by
  cases r with
  | ok b => simp [fromExcept]
  | error e => simp [fromExcept]

/-- Put a context around the error of a computation, as a caller does with `%w`. -/
def wrapErr (w : ε → ε) (x : EStateM ε σ α) : EStateM ε σ α := fun s =>
  match x s with
  | .ok a s' => .ok a s'
  | .error e s' => .error (w e) s'

@[simp] theorem run_wrapErr {w : ε → ε} {a : α} :
    wrapErr w x s = .ok a s' ↔ x s = .ok a s' := by
  unfold wrapErr
  cases x s <;> simp

theorem run_wrapErr_error {w : ε → ε} {e : ε} :
    wrapErr w x s = .error e s' ↔ ∃ e', x s = .error e' s' ∧ w e' = e := by
  unfold wrapErr
  cases x s with
  | ok a t => simp
  | error e' t =>
    simp only [EStateM.Result.error.injEq]
    exact ⟨fun ⟨he, ht⟩ => ⟨e', ⟨rfl, ht⟩, he⟩, fun ⟨_, ⟨hx, ht⟩, he⟩ => ⟨hx ▸ he, ht⟩⟩

@[simp] theorem run_forM_nil {g : α → EStateM ε σ Unit} {u : Unit} :
    List.forM [] g s = .ok u s' ↔ s = s' := by
  change EStateM.Result.ok () s = .ok u s' ↔ _
  simp

/-- A loop over a list takes one turn, then the others. -/
theorem run_forM_cons {g : α → EStateM ε σ Unit} {a : α} {l : List α} {u : Unit} :
    List.forM (a :: l) g s = .ok u s' ↔ ∃ s₁, g a s = .ok () s₁ ∧ List.forM l g s₁ = .ok u s' := by
  change (g a >>= fun _ => List.forM l g) s = .ok u s' ↔ _
  rw [run_bind]
  constructor
  · rintro ⟨_, s₁, h⟩
    exact ⟨s₁, h⟩
  · rintro ⟨s₁, h⟩
    exact ⟨(), s₁, h⟩

@[simp] theorem run_mapM_nil {g : α → EStateM ε σ β} {bs : List β} :
    (([] : List α).mapM g) s = .ok bs s' ↔ [] = bs ∧ s = s' := by
  rw [List.mapM_nil]
  exact run_pure

theorem run_mapM_cons {g : α → EStateM ε σ β} {a : α} {l : List α} {bs : List β} :
    ((a :: l).mapM g) s = .ok bs s' ↔
      ∃ b s₁ bs', g a s = .ok b s₁ ∧ l.mapM g s₁ = .ok bs' s' ∧ b :: bs' = bs := by
  rw [List.mapM_cons, run_bind]
  constructor
  · rintro ⟨b, s₁, hb, hrest⟩
    rw [run_bind] at hrest
    obtain ⟨bs', s₂, hbs, hret⟩ := hrest
    obtain ⟨rfl, rfl⟩ := run_pure.mp hret
    exact ⟨b, s₁, bs', hb, hbs, rfl⟩
  · rintro ⟨b, s₁, bs', hb, hbs, rfl⟩
    exact ⟨b, s₁, hb, run_bind.mpr ⟨bs', s', hbs, run_pure.mpr ⟨rfl, rfl⟩⟩⟩

/-! ### Triples -/

/-- If `P` holds and the run succeeds, `Q` holds of its value and of the state it ends in. -/
def Triple (P : σ → Prop) (x : EStateM ε σ α) (Q : α → σ → Prop) : Prop :=
  ∀ s a s', P s → x s = .ok a s' → Q a s'

section triples

variable {P P' : σ → Prop} {Q Q' : α → σ → Prop} {R : β → σ → Prop}

theorem Triple.bind (h : Triple P x Q) (hf : ∀ a, Triple (Q a) (f a) R) :
    Triple P (x >>= f) R := by
  intro s b s' hs hrun
  obtain ⟨a, s₁, hx, hrest⟩ := run_bind.mp hrun
  exact hf a s₁ b s' (h s a s₁ hs hx) hrest

theorem Triple.pure {a : α} (h : ∀ s, P s → Q a s) : Triple P (Pure.pure a : EStateM ε σ α) Q := by
  intro s b s' hs hrun
  obtain ⟨rfl, rfl⟩ := run_pure.mp hrun
  exact h s hs

theorem Triple.throw {e : ε} : Triple P (MonadExcept.throw e : EStateM ε σ α) Q := by
  intro s b s' hs hrun
  cases run_throw.mp hrun

theorem Triple.get {Q : σ → σ → Prop} (h : ∀ s, P s → Q s s) :
    Triple P (MonadState.get : EStateM ε σ σ) Q := by
  intro s a s' hs hrun
  obtain ⟨rfl, rfl⟩ := run_get.mp hrun
  exact h s hs

theorem Triple.modify {g : σ → σ} {Q : PUnit → σ → Prop} (h : ∀ s, P s → Q ⟨⟩ (g s)) :
    Triple P (modify g : EStateM ε σ PUnit) Q := by
  intro s a s' hs hrun
  obtain rfl := run_modify.mp hrun
  exact h s hs

theorem Triple.wrapErr {w : ε → ε} (h : Triple P x Q) : Triple P (Lib.wrapErr w x) Q :=
  fun s a s' hs hrun => h s a s' hs (run_wrapErr.mp hrun)

/-- A loop keeps what each of its turns keeps. -/
theorem Triple.forM {γ : Type} {l : List γ} {g : γ → EStateM ε σ Unit}
    (h : ∀ c ∈ l, Triple P (g c) fun _ => P) : Triple P (l.forM g) fun _ => P := by
  induction l with
  | nil =>
    intro s a s' hs hrun
    obtain rfl := run_forM_nil.mp hrun
    exact hs
  | cons c l ih =>
    intro s a s' hs hrun
    obtain ⟨s₁, hfirst, hrest⟩ := run_forM_cons.mp hrun
    exact ih (fun c' hc' => h c' (List.mem_cons_of_mem _ hc')) s₁ a s'
      (h c List.mem_cons_self s () s₁ hs hfirst) hrest

end triples

/-! ### Ends of runs -/

/-- The state a run ends in, whether or not it fails. -/
def final : EStateM.Result ε σ α → σ
  | .ok _ s => s
  | .error _ s => s

@[simp] theorem final_ok {a : α} : final (.ok a s : EStateM.Result ε σ α) = s := rfl

@[simp] theorem final_error {e : ε} : final (.error e s : EStateM.Result ε σ α) = s := rfl

@[simp] theorem final_wrapErr {w : ε → ε} : final (wrapErr w x s) = final (x s) := by
  unfold wrapErr
  cases x s <;> rfl

/-- A sequence ends where its first part fails, or where the second ends. -/
theorem final_bind {Q : σ → Prop} (hok : ∀ a s₁, x s = .ok a s₁ → Q (final (f a s₁)))
    (herr : ∀ e s₁, x s = .error e s₁ → Q s₁) : Q (final ((x >>= f) s)) := by
  cases hx : x s with
  | ok a s₁ =>
    rw [bind_of_ok hx]
    exact hok a s₁ hx
  | error e s₁ =>
    rw [bind_of_error hx]
    exact herr e s₁ hx

/-- The run did not fail. -/
def succeeded : EStateM.Result ε σ α → Bool
  | .ok _ _ => true
  | .error _ _ => false

/-- The value and the state a run ends with; `d` stands for the value of a failed run. -/
def outcome (d : α) : EStateM.Result ε σ α → α × σ
  | .ok a s => (a, s)
  | .error _ s => (d, s)

theorem eq_ok_of_succeeded (d : α) {r : EStateM.Result ε σ α} (h : succeeded r = true) :
    r = .ok (outcome d r).1 (outcome d r).2 := by
  cases r with
  | ok a s => rfl
  | error e s => cases h

theorem eq_ok_unit {r : EStateM.Result ε σ Unit} (h : succeeded r = true) :
    r = .ok () (outcome () r).2 :=
  eq_ok_of_succeeded () h

/-! ### What a run does in every case -/

/-- The relation holds between the state before and the state after, whether or not the run
    fails. -/
def Always (R : σ → σ → Prop) (x : EStateM ε σ α) : Prop := ∀ s, R s (final (x s))

section always

variable {R : σ → σ → Prop}

theorem Always.of_ok {a : α} (h : Always R x) (hrun : x s = .ok a s') : R s s' := by
  have hfinal := h s
  rw [hrun] at hfinal
  exact hfinal

theorem Always.of_error {e : ε} (h : Always R x) (hrun : x s = .error e s') : R s s' := by
  have hfinal := h s
  rw [hrun] at hfinal
  exact hfinal

theorem Always.wrapErr {w : ε → ε} (h : Always R x) : Always R (Lib.wrapErr w x) := by
  intro s
  rw [final_wrapErr]
  exact h s

variable [IsPreorder σ R]

theorem Always.pure (a : α) : Always R (Pure.pure a : EStateM ε σ α) := fun s => refl_of R s

theorem Always.throw (e : ε) : Always R (MonadExcept.throw e : EStateM ε σ α) := fun s => refl_of R s

theorem Always.get : Always R (MonadState.get : EStateM ε σ σ) := fun s => refl_of R s

theorem Always.bind (hx : Always R x) (hf : ∀ a, Always R (f a)) : Always R (x >>= f) := by
  intro s
  have hfirst := hx s
  cases hrun : x s with
  | ok a s₁ =>
    rw [hrun] at hfirst
    rw [bind_of_ok hrun]
    exact trans_of R hfirst (hf a s₁)
  | error e s₁ =>
    rw [hrun] at hfirst
    rw [bind_of_error hrun]
    exact hfirst

theorem Always.forM {γ : Type} {l : List γ} {g : γ → EStateM ε σ Unit}
    (h : ∀ c ∈ l, Always R (g c)) : Always R (l.forM g) := by
  induction l with
  | nil => exact Always.pure ()
  | cons c l ih =>
    refine Always.bind (h c List.mem_cons_self) fun _ => ?_
    exact ih fun c' hc' => h c' (List.mem_cons_of_mem _ hc')

end always

/-! ### Runs that succeed -/

/-- If `P` holds, the run succeeds, and `Q` holds of the state it ends in. -/
def Total (P : σ → Prop) (x : EStateM ε σ α) (Q : σ → Prop) : Prop :=
  ∀ s, P s → ∃ a s', x s = .ok a s' ∧ Q s'

section total

variable {P Q R : σ → Prop}

theorem Total.bind (h : Total P x Q) (hf : ∀ a, Total Q (f a) R) : Total P (x >>= f) R := by
  intro s hs
  obtain ⟨a, s₁, hx, hQ⟩ := h s hs
  obtain ⟨b, s', hrest, hR⟩ := hf a s₁ hQ
  exact ⟨b, s', run_bind.mpr ⟨a, s₁, hx, hrest⟩, hR⟩

theorem Total.pure (a : α) : Total P (Pure.pure a : EStateM ε σ α) P := fun s hs => ⟨a, s, rfl, hs⟩

theorem Total.weaken {P' : σ → Prop} (h : Total P x Q) (hP : ∀ s, P' s → P s) : Total P' x Q :=
  fun s hs => h s (hP s hs)

/-- Go on from a look at the state. -/
theorem Total.of_get {f : σ → EStateM ε σ β} (h : ∀ s, P s → Total P (f s) Q) :
    Total P ((MonadState.get : EStateM ε σ σ) >>= f) Q :=
  fun s hs => h s hs s hs

theorem Total.wrapErr {w : ε → ε} (h : Total P x Q) : Total P (Lib.wrapErr w x) Q := by
  intro s hs
  obtain ⟨a, s', hrun, hQ⟩ := h s hs
  exact ⟨a, s', run_wrapErr.mpr hrun, hQ⟩

end total

/-! ### Computations without a state -/

theorem toOption_eq_some {r : Except ε α} {a : α} : r.toOption = some a ↔ r = .ok a := by
  cases r with
  | error e => simp [Except.toOption]
  | ok b => simp [Except.toOption]

/-- A fold that can fail succeeds when its first step and the rest do. -/
theorem foldlM_cons_eq_ok {f : β → α → Except ε β} {a : α} {l : List α} {b c : β} :
    (a :: l).foldlM f b = .ok c ↔ ∃ b', f b a = .ok b' ∧ l.foldlM f b' = .ok c := by
  rw [List.foldlM_cons]
  cases f b a with
  | error e => simp [bind, Except.bind]
  | ok b' => simp [bind, Except.bind]

end Btrfs.Lib
