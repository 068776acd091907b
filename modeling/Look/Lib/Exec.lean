/-
A state monad whose exceptions keep the state, with an outcome for running out
of fuel, and a two-state logic for it.

`Exec σ ε α` is a computation over a state `σ` that ends in a value, in an
exception of type `ε`, or in `timeout`.  The state at the throw survives the
throw, as it does in a language with mutable objects and `try`/`catch`, and
`timeout` cannot be caught.

`Moves` is a preorder on states together with what a throw may do, and
`Ensures L m s Q` says that `m`, started in `s`, moves along `L`: when it
returns `a` in `s'` then `s` and `s'` are related and `Q a s'` holds, and when
it throws then the throw is one that `L` allows.  The rule for sequencing needs
nothing but the two halves, so a property of every step of a program is a
property of the whole program.
-/
import Mathlib.Logic.Basic

namespace Look

/-- The outcome of a computation: a value, an exception, or no more fuel. -/
inductive Res (σ ε α : Type) where
  | ok (a : α) (s : σ)
  | error (e : ε) (s : σ)
  | timeout
deriving DecidableEq

def Exec (σ ε α : Type) : Type := σ → Res σ ε α

namespace Exec

variable {σ ε α β : Type}

protected def pure (a : α) : Exec σ ε α := fun s => .ok a s

protected def bind (m : Exec σ ε α) (f : α → Exec σ ε β) : Exec σ ε β := fun s =>
  match m s with
  | .ok a s' => f a s'
  | .error e s' => .error e s'
  | .timeout => .timeout

instance : Monad (Exec σ ε) where
  pure := Exec.pure
  bind := Exec.bind

def throw (e : ε) : Exec σ ε α := fun s => .error e s

/-- No fuel is left.  A handler never sees this. -/
def timeout : Exec σ ε α := fun _ => .timeout

/-- Run `m`, and `h` on its exception.  The handler starts in the state in
which `m` threw. -/
def tryCatch (m : Exec σ ε α) (h : ε → Exec σ ε α) : Exec σ ε α := fun s =>
  match m s with
  | .ok a s' => .ok a s'
  | .error e s' => h e s'
  | .timeout => .timeout

def gets (f : σ → α) : Exec σ ε α := fun s => .ok (f s) s

def modify (f : σ → σ) : Exec σ ε Unit := fun s => .ok () (f s)

/-- Run `m` for each element, in order. -/
def forEach (l : List α) (m : α → Exec σ ε Unit) : Exec σ ε Unit :=
  match l with
  | [] => Exec.pure ()
  | a :: rest => Exec.bind (m a) fun _ => forEach rest m

/-- Run `m` for each element, in order, and collect the results. -/
def mapEach (l : List α) (m : α → Exec σ ε β) : Exec σ ε (List β) :=
  match l with
  | [] => Exec.pure []
  | a :: rest => Exec.bind (m a) fun b => Exec.bind (mapEach rest m) fun bs => Exec.pure (b :: bs)

/-! ## Equations -/

@[simp] theorem pure_apply (a : α) (s : σ) : (Pure.pure a : Exec σ ε α) s = .ok a s := rfl

@[simp] theorem throw_apply (e : ε) (s : σ) : (throw e : Exec σ ε α) s = .error e s := rfl

@[simp] theorem gets_apply (f : σ → α) (s : σ) : (gets f : Exec σ ε α) s = .ok (f s) s := rfl

@[simp] theorem modify_apply (f : σ → σ) (s : σ) :
    (modify f : Exec σ ε Unit) s = .ok () (f s) := rfl

theorem bind_apply (m : Exec σ ε α) (f : α → Exec σ ε β) (s : σ) :
    (m >>= f) s = match m s with
      | .ok a s' => f a s'
      | .error e s' => .error e s'
      | .timeout => .timeout := rfl

theorem bind_of_ok {m : Exec σ ε α} {f : α → Exec σ ε β} {s s' : σ} {a : α} (h : m s = .ok a s') :
    (m >>= f) s = f a s' := by
  rw [bind_apply, h]

/-- A sequence that returns is a first half that returns and a second half that
returns from where the first one ended. -/
theorem bind_eq_ok {m : Exec σ ε α} {f : α → Exec σ ε β} {s s' : σ} {b : β} :
    (m >>= f) s = .ok b s' ↔ ∃ a s₁, m s = .ok a s₁ ∧ f a s₁ = .ok b s' := by
  rw [bind_apply]
  cases h : m s with
  | ok a s₁ =>
    simp only [Res.ok.injEq]
    exact ⟨fun hf => ⟨a, s₁, ⟨rfl, rfl⟩, hf⟩, fun ⟨_, _, ⟨ha, hs⟩, hf⟩ => ha ▸ hs ▸ hf⟩
  | error e s₁ => simp
  | timeout => simp

/-! ## Two runs beside each other -/

end Exec

/-- Two outcomes of the same kind, with states that are related. -/
inductive Res.Rel {σ ε α : Type} (R : σ → σ → Prop) : Res σ ε α → Res σ ε α → Prop where
  | ok (a : α) {s s' : σ} (h : R s s') : Rel R (.ok a s) (.ok a s')
  | error (e : ε) {s s' : σ} (h : R s s') : Rel R (.error e s) (.error e s')
  | timeout : Rel R .timeout .timeout

theorem Res.Rel.mono {σ ε α : Type} {R R' : σ → σ → Prop} {r r' : Res σ ε α}
    (hR : ∀ s s', R s s' → R' s s') (h : Res.Rel R r r') : Res.Rel R' r r' := by
  cases h with
  | ok a h => exact .ok a (hR _ _ h)
  | error e h => exact .error e (hR _ _ h)
  | timeout => exact .timeout

namespace Exec

theorem rel_bind {R R' : σ → σ → Prop} {m m' : Exec σ ε α} {f f' : α → Exec σ ε β} {s s' : σ}
    (hR : ∀ t t', R t t' → R' t t') (hm : Res.Rel R (m s) (m' s'))
    (hf : ∀ a t t', R t t' → Res.Rel R' (f a t) (f' a t')) :
    Res.Rel R' ((m >>= f) s) ((m' >>= f') s') := by
  rw [bind_apply, bind_apply]
  generalize m s = r at hm
  generalize m' s' = r' at hm
  cases hm with
  | ok a h => exact hf a _ _ h
  | error e h => exact .error e (hR _ _ h)
  | timeout => exact .timeout

/-! ## The two-state logic -/

/-- What the steps of a program may do: `rel` relates the states before and
after a step that returns, `err` those of a step that throws. -/
structure Moves (σ ε : Type) where
  rel : σ → σ → Prop
  err : ε → σ → σ → Prop
  refl : ∀ s, rel s s
  trans : ∀ {s₁ s₂ s₃}, rel s₁ s₂ → rel s₂ s₃ → rel s₁ s₃
  absorb : ∀ {e s₁ s₂ s₃}, rel s₁ s₂ → err e s₂ s₃ → err e s₁ s₃

/-- Started in `s`, `m` moves along `L` and returns with `Q`. -/
def Ensures (L : Moves σ ε) (m : Exec σ ε α) (s : σ) (Q : α → σ → Prop) : Prop :=
  match m s with
  | .ok a s' => L.rel s s' ∧ Q a s'
  | .error e s' => L.err e s s'
  | .timeout => True

section Ensures

variable {L : Moves σ ε} {s : σ} {Q : α → σ → Prop}

theorem Ensures.of_ok {m : Exec σ ε α} {s' : σ} {a : α} (h : Ensures L m s Q)
    (hm : m s = .ok a s') : L.rel s s' ∧ Q a s' := by
  unfold Ensures at h
  rw [hm] at h
  exact h

theorem Ensures.of_error {m : Exec σ ε α} {s' : σ} {e : ε} (h : Ensures L m s Q)
    (hm : m s = .error e s') : L.err e s s' := by
  unfold Ensures at h
  rw [hm] at h
  exact h

theorem Ensures.mono {m : Exec σ ε α} {Q' : α → σ → Prop} (h : Ensures L m s Q)
    (hq : ∀ a s', L.rel s s' → Q a s' → Q' a s') : Ensures L m s Q' := by
  unfold Ensures at h ⊢
  cases hm : m s with
  | ok a s' =>
    rw [hm] at h
    exact ⟨h.1, hq a s' h.1 h.2⟩
  | error e s' =>
    rw [hm] at h
    exact h
  | timeout => trivial

theorem Ensures.pure {a : α} (h : Q a s) : Ensures L (Pure.pure a) s Q :=
  ⟨L.refl s, h⟩

theorem Ensures.throw {e : ε} (h : L.err e s s) : Ensures L (throw e) s Q :=
  h

theorem Ensures.gets {f : σ → α} (h : Q (f s) s) : Ensures L (gets f) s Q :=
  ⟨L.refl s, h⟩

theorem Ensures.modify {f : σ → σ} {Q : Unit → σ → Prop} (hrel : L.rel s (f s))
    (h : Q () (f s)) : Ensures L (modify f) s Q :=
  ⟨hrel, h⟩

theorem Ensures.timeout : Ensures L (timeout : Exec σ ε α) s Q :=
  trivial

theorem Ensures.ite {p : Prop} [Decidable p] {m m' : Exec σ ε α} (h : p → Ensures L m s Q)
    (h' : ¬p → Ensures L m' s Q) : Ensures L (if p then m else m') s Q := by
  split
  · exact h ‹_›
  · exact h' ‹_›

/-- Sequencing: the second half starts where the first one ended. -/
theorem Ensures.bind {m : Exec σ ε α} {f : α → Exec σ ε β} {Q' : β → σ → Prop}
    (hm : Ensures L m s Q)
    (hf : ∀ a s', L.rel s s' → Q a s' → Ensures L (f a) s' Q') : Ensures L (m >>= f) s Q' := by
  unfold Ensures at hm ⊢
  rw [bind_apply]
  cases h : m s with
  | ok a s' =>
    rw [h] at hm
    have hfa := hf a s' hm.1 hm.2
    unfold Ensures at hfa
    simp only
    cases h' : f a s' with
    | ok b s'' =>
      rw [h'] at hfa
      exact ⟨L.trans hm.1 hfa.1, hfa.2⟩
    | error e s'' =>
      rw [h'] at hfa
      exact L.absorb hm.1 hfa
    | timeout => trivial
  | error e s' =>
    rw [h] at hm
    exact hm
  | timeout => trivial

theorem Ensures.gets_bind {γ : Type} {g : σ → γ} {f : γ → Exec σ ε α}
    (h : Ensures L (f (g s)) s Q) : Ensures L (Exec.gets g >>= f) s Q :=
  h

theorem Ensures.pure_bind {γ : Type} {c : γ} {f : γ → Exec σ ε α} (h : Ensures L (f c) s Q) :
    Ensures L (Pure.pure c >>= f) s Q :=
  h

theorem Ensures.modify_bind {g : σ → σ} {f : Unit → Exec σ ε α} (hrel : L.rel s (g s))
    (h : Ensures L (f ()) (g s) Q) : Ensures L (Exec.modify g >>= f) s Q := by
  refine Ensures.bind (Ensures.modify hrel (Q := fun _ s' => s' = g s) rfl) ?_
  rintro _ _ _ rfl
  exact h

theorem Ensures.throw_bind {γ : Type} {e : ε} {f : γ → Exec σ ε α} (h : L.err e s s) :
    Ensures L (Exec.throw e >>= f) s Q :=
  h

/-- A loop over a list keeps what every turn keeps. -/
theorem Ensures.forEach {I : σ → Prop} {m : α → Exec σ ε Unit} {l : List α} (hs : I s)
    (hm : ∀ a ∈ l, ∀ s', L.rel s s' → I s' → Ensures L (m a) s' fun _ s'' => I s'') :
    Ensures L (forEach l m) s fun _ s' => I s' := by
  induction l generalizing s with
  | nil => exact Ensures.pure hs
  | cons a rest ih =>
    refine Ensures.bind (hm a (List.mem_cons_self ..) s (L.refl s) hs) fun _ s' hr hI => ?_
    exact ih hI fun b hb s'' hr' hI' => hm b (List.mem_cons_of_mem _ hb) s'' (L.trans hr hr') hI'

/-! ### Programs all of whose runs move along a relation -/

/-- Every run of `m` moves along `L`. -/
def Follows (L : Moves σ ε) (m : Exec σ ε α) : Prop := ∀ s, Ensures L m s fun _ _ => True

theorem Follows.pure (a : α) : Follows L (Pure.pure a) := fun _ => Ensures.pure trivial

theorem Follows.gets (f : σ → α) : Follows L (gets f) := fun _ => Ensures.gets trivial

theorem Follows.throw {e : ε} (h : ∀ s, L.err e s s) : Follows L (throw e : Exec σ ε α) :=
  fun s => Ensures.throw (h s)

theorem Follows.modify {f : σ → σ} (h : ∀ s, L.rel s (f s)) : Follows L (modify f) :=
  fun s => Ensures.modify (h s) trivial

theorem Follows.bind {m : Exec σ ε α} {f : α → Exec σ ε β} (hm : Follows L m)
    (hf : ∀ a, Follows L (f a)) : Follows L (m >>= f) :=
  fun s => Ensures.bind (hm s) fun a s' _ _ => hf a s'

theorem Follows.ite {p : Prop} [Decidable p] {m m' : Exec σ ε α} (h : p → Follows L m)
    (h' : ¬p → Follows L m') : Follows L (if p then m else m') :=
  fun s => Ensures.ite (fun hp => h hp s) fun hp => h' hp s

theorem Follows.rel {m : Exec σ ε α} {s' : σ} {a : α} (h : Follows L m) (hm : m s = .ok a s') :
    L.rel s s' :=
  ((h s).of_ok hm).1

theorem Follows.err {m : Exec σ ε α} {s' : σ} {e : ε} (h : Follows L m)
    (hm : m s = .error e s') : L.err e s s' :=
  (h s).of_error hm

end Ensures

end Exec

end Look
