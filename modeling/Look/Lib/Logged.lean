/-
What a computation adds to a log.

`Adds log m Q E` says of every run of `m` that the log at its end is the one at its start with
something behind it: `Q` holds of the value and of what was added where `m` returns, and `E` of the
exception and of what was added where it throws.
-/
import Look.Lib.Exec

namespace Look

namespace Exec

variable {σ ε α β Λ : Type} {log : σ → List Λ}

def Adds (log : σ → List Λ) (m : Exec σ ε α) (Q : α → List Λ → Prop) (E : ε → List Λ → Prop) :
    Prop :=
  ∀ s, match m s with
    | .ok a s' => ∃ es, log s' = log s ++ es ∧ Q a es
    | .error e s' => ∃ es, log s' = log s ++ es ∧ E e es
    | .timeout => True

variable {m : Exec σ ε α} {f : α → Exec σ ε β} {Q Q' : α → List Λ → Prop} {R : β → List Λ → Prop}
  {E E' : ε → List Λ → Prop}

theorem Adds.of_ok {s s' : σ} {a : α} (h : Adds log m Q E) (hm : m s = .ok a s') :
    ∃ es, log s' = log s ++ es ∧ Q a es := by
  have hs := h s
  rwa [hm] at hs

theorem Adds.of_error {s s' : σ} {e : ε} (h : Adds log m Q E) (hm : m s = .error e s') :
    ∃ es, log s' = log s ++ es ∧ E e es := by
  have hs := h s
  rwa [hm] at hs

theorem Adds.mono (h : Adds log m Q E) (hQ : ∀ a es, Q a es → Q' a es)
    (hE : ∀ e es, E e es → E' e es) : Adds log m Q' E' := by
  intro s
  have hs := h s
  cases hm : m s with
  | ok a s' =>
    rw [hm] at hs
    obtain ⟨es, hlog, hes⟩ := hs
    exact ⟨es, hlog, hQ a es hes⟩
  | error e s' =>
    rw [hm] at hs
    obtain ⟨es, hlog, hes⟩ := hs
    exact ⟨es, hlog, hE e es hes⟩
  | timeout => trivial

theorem Adds.pure {a : α} (h : Q a []) : Adds log (Pure.pure a : Exec σ ε α) Q E :=
  fun s => ⟨[], (List.append_nil (log s)).symm, h⟩

theorem Adds.throw {e : ε} (h : E e []) : Adds log (Exec.throw e : Exec σ ε α) Q E :=
  fun s => ⟨[], (List.append_nil (log s)).symm, h⟩

theorem Adds.gets {g : σ → α} (h : ∀ a, Q a []) : Adds log (Exec.gets g : Exec σ ε α) Q E :=
  fun s => ⟨[], (List.append_nil (log s)).symm, h (g s)⟩

theorem Adds.timeout : Adds log (Exec.timeout : Exec σ ε α) Q E := fun _ => trivial

/-- Sequencing: the second half adds behind what the first one has added. -/
theorem Adds.bind (hm : Adds log m Q E)
    (hf : ∀ a es, Q a es → Adds log (f a) (fun b fs => R b (es ++ fs)) fun e fs => E' e (es ++ fs))
    (hE : ∀ e es, E e es → E' e es) : Adds log (m >>= f) R E' := by
  intro s
  have hs := hm s
  rw [bind_apply]
  cases h : m s with
  | ok a s' =>
    rw [h] at hs
    obtain ⟨es, hlog, hes⟩ := hs
    have hs' := hf a es hes s'
    simp only
    cases h' : f a s' with
    | ok b s'' =>
      rw [h'] at hs'
      obtain ⟨fs, hlog', hfs⟩ := hs'
      exact ⟨es ++ fs, by rw [hlog', hlog, List.append_assoc], hfs⟩
    | error e s'' =>
      rw [h'] at hs'
      obtain ⟨fs, hlog', hfs⟩ := hs'
      exact ⟨es ++ fs, by rw [hlog', hlog, List.append_assoc], hfs⟩
    | timeout => trivial
  | error e s' =>
    rw [h] at hs
    obtain ⟨es, hlog, hes⟩ := hs
    exact ⟨es, hlog, hE e es hes⟩
  | timeout => trivial

/-- A first half that adds nothing. -/
theorem Adds.quiet_bind (hm : Adds log m (fun _ es => es = []) E) (hf : ∀ a, Adds log (f a) R E) :
    Adds log (m >>= f) R E := by
  refine Adds.bind hm ?_ fun _ _ h => h
  rintro a _ rfl
  exact hf a

/-- A loop over a list adds what its turns add. -/
theorem Adds.forEach {γ : Type} {l : List γ} {body : γ → Exec σ ε Unit} {P : List Λ → Prop}
    (hnil : P []) (happend : ∀ es fs, P es → P fs → P (es ++ fs))
    (hE : ∀ e es fs, P es → E e fs → E e (es ++ fs))
    (hbody : ∀ c ∈ l, Adds log (body c) (fun _ es => P es) E) :
    Adds log (Exec.forEach l body) (fun _ es => P es) E := by
  induction l with
  | nil => exact Adds.pure hnil
  | cons c l ih =>
    obtain ⟨hc, hl⟩ := List.forall_mem_cons.mp hbody
    refine Adds.bind hc (fun _ es hes => ?_) fun _ _ h => h
    exact (ih hl).mono (fun _ fs hfs => happend es fs hes hfs) fun e fs hfs => hE e es fs hes hfs

end Exec

end Look
