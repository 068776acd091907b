/-
Loops with fuel, and total correctness.

`iterate step fuel a` turns as long as `step` says so.  `Iterates` is the run of a loop
without the fuel: a loop that does not run out of fuel and a run agree, so that how long a
loop takes and what it computes are two questions.  `Finishes` is the logic of `Ensures` in
which running out of fuel is a failure; the rule of the loop asks for a measure that every
turn makes smaller.  A loop over a list is `mapEach`; what it returns is what its turns return.
-/
import Look.Lib.Exec
import Mathlib.Data.List.Forall2

namespace Look

def Res.map {σ ε α β : Type} (f : α → β) : Res σ ε α → Res σ ε β
  | .ok a s => .ok (f a) s
  | .error e s => .error e s
  | .timeout => .timeout

namespace Exec

/-- What a turn of a loop says: go on with `a`, or stop with `b`. -/
inductive Turn (α β : Type) where
  | next (a : α)
  | done (b : β)

variable {σ ε α β : Type}

def iterate (step : α → Exec σ ε (Turn α β)) : Nat → α → Exec σ ε β
  | 0, _ => timeout
  | fuel + 1, a => do
    match ← step a with
    | .next a => iterate step fuel a
    | .done b => pure b

/-! ## Runs -/

/-- The loop, started with `a` in `s`, stops with `b` in `s'`. -/
inductive Iterates (step : α → Exec σ ε (Turn α β)) : α → σ → β → σ → Prop where
  | done {a b s s'} (h : step a s = .ok (.done b) s') : Iterates step a s b s'
  | next {a a' b s s₁ s'} (h : step a s = .ok (.next a') s₁) (rest : Iterates step a' s₁ b s') :
    Iterates step a s b s'

variable {step : α → Exec σ ε (Turn α β)} {fuel : Nat} {a : α} {b : β} {s s' : σ}

theorem iterates_of_iterate (h : iterate step fuel a s = .ok b s') : Iterates step a s b s' := by
  induction fuel generalizing a s with
  | zero => cases h
  | succ fuel ih =>
    rw [iterate] at h
    obtain ⟨t, s₁, hstep, hrest⟩ := bind_eq_ok.mp h
    cases t with
    | next a' => exact .next hstep (ih hrest)
    | done b' =>
      cases hrest
      exact .done hstep

/-- The fuel does not matter as long as there is enough. -/
theorem Iterates.iterate (h : Iterates step a s b s') (hfuel : iterate step fuel a s ≠ .timeout) :
    Exec.iterate step fuel a s = .ok b s' := by
  induction h generalizing fuel with
  | done h =>
    cases fuel with
    | zero => exact absurd rfl hfuel
    | succ fuel =>
      rw [Exec.iterate, bind_apply, h]
      rfl
  | next h _ ih =>
    cases fuel with
    | zero => exact absurd rfl hfuel
    | succ fuel =>
      rw [Exec.iterate, bind_apply, h] at hfuel ⊢
      exact ih hfuel

/-! ## Finishes correctness -/

/-- Started in `s`, `m` ends; it moves along `L` and returns with `Q`. -/
def Finishes (L : Moves σ ε) (m : Exec σ ε α) (s : σ) (Q : α → σ → Prop) : Prop :=
  match m s with
  | .ok a s' => L.rel s s' ∧ Q a s'
  | .error e s' => L.err e s s'
  | .timeout => False

section Finishes

variable {L : Moves σ ε} {m : Exec σ ε α} {Q Q' : α → σ → Prop}

theorem Finishes.ne_timeout (h : Finishes L m s Q) : m s ≠ .timeout := by
  intro hm
  rw [Finishes, hm] at h
  exact h

theorem Finishes.of_ok (h : Finishes L m s Q) (hm : m s = .ok a s') : L.rel s s' ∧ Q a s' := by
  rw [Finishes, hm] at h
  exact h

theorem Finishes.of_error {e : ε} (h : Finishes L m s Q) (hm : m s = .error e s') : L.err e s s' := by
  rw [Finishes, hm] at h
  exact h

theorem Finishes.mono (h : Finishes L m s Q) (hq : ∀ a s', L.rel s s' → Q a s' → Q' a s') :
    Finishes L m s Q' := by
  unfold Finishes at h ⊢
  cases hm : m s with
  | ok a s' =>
    rw [hm] at h
    exact ⟨h.1, hq a s' h.1 h.2⟩
  | error e s' =>
    rw [hm] at h
    exact h
  | timeout =>
    rw [hm] at h
    exact h

theorem Finishes.pure {a : α} (h : Q a s) : Finishes L (Pure.pure a) s Q :=
  ⟨L.refl s, h⟩

theorem Finishes.throw {e : ε} (h : L.err e s s) : Finishes L (throw e) s Q :=
  h

theorem Finishes.modify {f : σ → σ} {Q : Unit → σ → Prop} (hrel : L.rel s (f s)) (h : Q () (f s)) :
    Finishes L (modify f) s Q :=
  ⟨hrel, h⟩

theorem Finishes.gets_bind {γ : Type} {g : σ → γ} {f : γ → Exec σ ε α} (h : Finishes L (f (g s)) s Q) :
    Finishes L (gets g >>= f) s Q :=
  h

theorem Finishes.ite {p : Prop} [Decidable p] {m' : Exec σ ε α} (h : p → Finishes L m s Q)
    (h' : ¬p → Finishes L m' s Q) : Finishes L (if p then m else m') s Q := by
  split
  · exact h ‹_›
  · exact h' ‹_›

theorem Finishes.bind {f : α → Exec σ ε β} {Q' : β → σ → Prop} (hm : Finishes L m s Q)
    (hf : ∀ a s', L.rel s s' → Q a s' → Finishes L (f a) s' Q') : Finishes L (m >>= f) s Q' := by
  unfold Finishes at hm ⊢
  rw [bind_apply]
  cases h : m s with
  | ok a s' =>
    rw [h] at hm
    have hfa := hf a s' hm.1 hm.2
    unfold Finishes at hfa
    dsimp only
    cases h' : f a s' with
    | ok b s'' =>
      rw [h'] at hfa
      exact ⟨L.trans hm.1 hfa.1, hfa.2⟩
    | error e s'' =>
      rw [h'] at hfa
      exact L.absorb hm.1 hfa
    | timeout =>
      rw [h'] at hfa
      exact hfa
  | error e s' =>
    rw [h] at hm
    exact hm
  | timeout =>
    rw [h] at hm
    exact hm

/-- What a turn that goes on says, and one that stops. -/
def Turn.Says (next : α → Prop) (done : β → Prop) : Turn α β → Prop
  | .next a => next a
  | .done b => done b

/-- A loop ends when every turn that goes on makes the measure smaller, and keeps what its
turns keep. -/
theorem Finishes.turns {step : α → Exec σ ε (Turn α β)} {Q : β → σ → Prop} (I : α → σ → Prop)
    (size : α → σ → Nat)
    (hstep : ∀ a s, I a s → Finishes L (step a) s fun t s' =>
      t.Says (fun a' => size a' s' < size a s ∧ I a' s') fun b => Q b s')
    (hI : I a s) (hfuel : size a s < fuel) : Finishes L (iterate step fuel a) s Q := by
  induction fuel generalizing a s with
  | zero => exact absurd hfuel (Nat.not_lt_zero _)
  | succ fuel ih =>
    rw [Exec.iterate]
    refine (hstep a s hI).bind fun t s' _ ht => ?_
    cases t with
    | next a' => exact ih ht.2 (Nat.lt_of_lt_of_le ht.1 (Nat.le_of_lt_succ hfuel))
    | done b => exact Finishes.pure ht

theorem Finishes.iterate {step : α → Exec σ ε (Turn α β)} {Q : β → σ → Prop} (I : α → σ → Prop)
    (size : σ → Nat)
    (hstep : ∀ a s, I a s → Finishes L (step a) s fun t s' =>
      match t with
      | .next a' => size s' < size s ∧ I a' s'
      | .done b => Q b s')
    (hI : I a s) (hfuel : size s < fuel) : Finishes L (iterate step fuel a) s Q := by
  refine Finishes.turns I (fun _ => size) (fun a s h => (hstep a s h).mono ?_) hI hfuel
  intro t s' _ ht
  cases t <;> exact ht

end Finishes

/-! ## Loops over a list -/

section MapEach

variable {γ : Type}

theorem tryCatch_apply (m : Exec σ ε α) (h : ε → Exec σ ε α) (s : σ) :
    Exec.tryCatch m h s = match m s with
      | .ok a s' => .ok a s'
      | .error e s' => h e s'
      | .timeout => .timeout := by
  unfold Exec.tryCatch
  cases m s <;> rfl

theorem mapEach_nil (m : α → Exec σ ε β) (s : σ) : mapEach [] m s = .ok [] s := rfl

theorem mapEach_cons (a : α) (rest : List α) (m : α → Exec σ ε β) (s : σ) :
    mapEach (a :: rest) m s = match m a s with
      | .ok b s => (mapEach rest m s).map (b :: ·)
      | .error e s => .error e s
      | .timeout => .timeout := by
  rw [mapEach]
  change (m a >>= _) s = _
  rw [bind_apply]
  cases m a s with
  | ok b s =>
    change (mapEach rest m >>= _) s = (mapEach rest m s).map _
    rw [bind_apply]
    cases mapEach rest m s <;> rfl
  | error e s => rfl
  | timeout => rfl

theorem mapEach_singleton (a : α) (m : α → Exec σ ε β) (s : σ) :
    mapEach [a] m s = match m a s with
      | .ok b s => .ok [b] s
      | .error e s => .error e s
      | .timeout => .timeout := by
  rw [mapEach_cons]
  cases m a s <;> rfl

theorem mapEach_map (f : γ → α) (l : List γ) (m : α → Exec σ ε β) :
    mapEach (l.map f) m = mapEach l fun c => m (f c) := by
  induction l with
  | nil => rfl
  | cons c rest ih => rw [List.map_cons, mapEach, mapEach, ih]

theorem mapEach_res_map (f : β → γ) {m : α → Exec σ ε β} {r : α → Exec σ ε γ}
    (h : ∀ a s, r a s = (m a s).map f) (l : List α) (s : σ) :
    mapEach l r s = (mapEach l m s).map (List.map f) := by
  induction l generalizing s with
  | nil => rfl
  | cons a rest ih =>
    rw [mapEach_cons, mapEach_cons, h]
    cases m a s with
    | ok b s =>
      change (mapEach rest r s).map _ = ((mapEach rest m s).map _).map _
      rw [ih]
      cases mapEach rest m s <;> rfl
    | error e s => rfl
    | timeout => rfl

/-- Without a state, the turns do not depend on each other. -/
theorem mapEach_eq_ok {m : α → Exec Unit ε β} {l : List α} {bs : List β} :
    mapEach l m () = .ok bs () ↔ List.Forall₂ (fun a b => m a () = .ok b ()) l bs := by
  induction l generalizing bs with
  | nil =>
    constructor
    · rintro ⟨⟩
      exact .nil
    · rintro ⟨⟩
      rfl
  | cons a rest ih =>
    constructor
    · intro h
      obtain ⟨b, _, ha, h⟩ := bind_eq_ok.mp h
      obtain ⟨bs', _, hrest, h⟩ := bind_eq_ok.mp h
      cases h
      exact .cons ha (ih.mp hrest)
    · intro h
      cases h with
      | cons ha hrest => exact bind_eq_ok.mpr ⟨_, _, ha, bind_eq_ok.mpr ⟨_, _, ih.mpr hrest, rfl⟩⟩

theorem forall₂_mem_right {α β : Type} {R : α → β → Prop} {l : List α} {l' : List β}
    (h : List.Forall₂ R l l') {b : β} (hb : b ∈ l') : ∃ a ∈ l, R a b := by
  induction h with
  | nil => cases hb
  | cons hr _ ih =>
    cases hb with
    | head => exact ⟨_, List.mem_cons_self, hr⟩
    | tail _ hb =>
      obtain ⟨a, ha, hab⟩ := ih hb
      exact ⟨a, List.mem_cons_of_mem _ ha, hab⟩

theorem forall₂_mem_left {α β : Type} {R : α → β → Prop} {l : List α} {l' : List β}
    (h : List.Forall₂ R l l') {a : α} (ha : a ∈ l) : ∃ b ∈ l', R a b := by
  obtain ⟨b, hb, hab⟩ := forall₂_mem_right h.flip ha
  exact ⟨b, hb, hab⟩

/-! ### More fuel -/

/-- With more fuel the outcome stays, unless the fuel had run out. -/
def Approx (r r' : Res σ ε α) : Prop := r = .timeout ∨ r = r'

theorem Approx.refl (r : Res σ ε α) : Approx r r := .inr rfl

theorem Approx.eq {r r' : Res σ ε α} (h : Approx r r') (hr : r ≠ .timeout) : r' = r :=
  (h.resolve_left hr).symm

theorem Approx.bind {m m' : Exec σ ε α} {f f' : α → Exec σ ε β} {s : σ} (hm : Approx (m s) (m' s))
    (hf : ∀ a s, Approx (f a s) (f' a s)) : Approx ((m >>= f) s) ((m' >>= f') s) := by
  rw [bind_apply, bind_apply]
  obtain hm | hm := hm
  · rw [hm]
    exact .inl rfl
  · rw [← hm]
    cases m s with
    | ok a s => exact hf a s
    | error e s => exact .refl _
    | timeout => exact .refl _

theorem Approx.mapEach {m m' : α → Exec σ ε β} (hm : ∀ a s, Approx (m a s) (m' a s)) (l : List α)
    (s : σ) : Approx (mapEach l m s) (Exec.mapEach l m' s) := by
  induction l generalizing s with
  | nil => exact .refl _
  | cons a rest ih =>
    exact Approx.bind (hm a s) fun b s => Approx.bind (ih s) fun bs s => .refl _

theorem mapEach_ne_error {m : α → Exec Unit ε β} {l : List α}
    (h : ∀ a ∈ l, ∀ e, m a () ≠ .error e ()) : ∀ e, mapEach l m () ≠ .error e () := by
  induction l with
  | nil => exact nofun
  | cons a rest ih =>
    rw [List.forall_mem_cons] at h
    intro e
    rw [mapEach_cons]
    cases ha : m a () with
    | ok y u =>
      dsimp only
      cases hrest : mapEach rest m () with
      | error e' u => exact absurd hrest (ih h.2 e')
      | _ => nofun
    | error e' u => exact absurd ha (h.1 e')
    | timeout => nofun

/-- A turn that runs out of fuel is the end, if those before it do not throw. -/
theorem mapEach_timeout {m : α → Exec Unit ε β} {before after : List α} {a : α}
    (hbefore : ∀ b ∈ before, ∀ e, m b () ≠ .error e ()) (ha : m a () = .timeout) :
    mapEach (before ++ a :: after) m () = .timeout := by
  induction before with
  | nil => rw [List.nil_append, mapEach_cons, ha]
  | cons b before ih =>
    rw [List.forall_mem_cons] at hbefore
    rw [List.cons_append, mapEach_cons]
    cases hb : m b () with
    | ok y u =>
      dsimp only
      rw [ih hbefore.2]
      rfl
    | error e u => exact absurd hb (hbefore.1 e)
    | timeout => rfl

/-- A loop over a list ends when each turn does that is come to. -/
theorem exists_mapEach_ne_timeout {m : Nat → α → Exec Unit ε β}
    (hmono : ∀ n n' a, n ≤ n' → Approx (m n a ()) (m n' a ())) {l : List α}
    (h : ∀ before a after, l = before ++ a :: after → (∀ b ∈ before, ∃ n y, m n b () = .ok y ()) →
      ∃ n, m n a () ≠ .timeout) : ∃ n, mapEach l (m n) () ≠ .timeout := by
  induction l with
  | nil => exact ⟨0, nofun⟩
  | cons a rest ih =>
    obtain ⟨n, hn⟩ := h [] a rest rfl nofun
    cases ha : m n a () with
    | ok y u =>
      obtain ⟨n', hn'⟩ := ih fun before b after hrest hbefore =>
        h (a :: before) b after (by rw [hrest, List.cons_append])
          (List.forall_mem_cons.mpr ⟨⟨n, y, ha⟩, hbefore⟩)
      refine ⟨max n n', ?_⟩
      have hrest :=
        (Approx.mapEach (fun b u => hmono n' (max n n') b (Nat.le_max_right ..)) rest ()).eq hn'
      rw [mapEach_cons, (hmono n (max n n') a (Nat.le_max_left ..)).eq hn, ha]
      dsimp only
      rw [hrest]
      cases hr : mapEach rest (m n') () with
      | timeout => exact absurd hr hn'
      | _ => nofun
    | error e u =>
      refine ⟨n, ?_⟩
      rw [mapEach_cons, ha]
      nofun
    | timeout => exact absurd ha hn

end MapEach

end Exec

end Look
