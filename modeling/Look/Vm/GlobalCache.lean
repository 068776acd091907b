/-
The table of globals of a VM, the cache of its slots and the copies of a request.

`globals_` is a hash map, so a name has a slot at an address that stays while the map
does.  `global_cache_` keeps the address for a proto and a constant index, and
`isolated_` the addresses of the slots that the request has resolved.  `Table` is the
same machine by names: it has no cache and remembers which names were used.  In a run in
which `isolate_setup_globals` is called where its comment says, the two do the same.
-/
import Mathlib.Logic.Function.Basic
import Look.Vm.World

namespace Look

namespace GlobalCache

/-- What a VM does with its globals.  The slot of a `storeGlobal` is where a new name
would be put, and the table of a `setGlobals` comes with its slots and their values.
`other` is all that the program does to the memory in between. -/
inductive Access where
  | loadGlobal (proto ni : Nat)
  | storeGlobal (proto ni : Nat) (v : Value) (slot : Nat)
  | checkDefined (proto ni : Nat) (v : Value)
  | setGlobals (globals : String → Option Nat) (value : Nat → Value)
  | isolateSetupGlobals
  | other (w : World)

/-- What is seen of an access: the value that it loads, and whether that is a copy that
it made, or the `LookVmError`. -/
inductive Outcome where
  | value (v : Value) (cloned : Bool)
  | undefined (name : String)
  | done
deriving DecidableEq

/-- The part of a VM that works on globals. -/
structure Slots where
  globals : String → Option Nat
  value : Nat → Value
  isolateGlobals : Bool
  isolated : Nat → Bool
  cache : Nat → Nat → Option Nat
  world : World

namespace Slots

def init (w : World) : Slots where
  globals := fun _ => none
  value := fun _ => .none
  isolateGlobals := false
  isolated := fun _ => false
  cache := fun _ _ => none
  world := w

def assign (s : Slots) (slot : Nat) (v : Value) : Slots :=
  { s with value := Function.update s.value slot v }

def mark (s : Slots) (slot : Nat) : Slots :=
  { s with isolated := Function.update s.isolated slot true }

def pin (s : Slots) (proto ni slot : Nat) : Slots :=
  { s with cache := Function.update s.cache proto (Function.update (s.cache proto) ni (some slot)) }

/-- The copy for the request, when the slot is resolved for the first time. -/
def isolate (s : Slots) (slot : Nat) : Slots × Bool :=
  if s.isolateGlobals ∧ s.isolated slot = false then
    if carriesMutableState s.world (s.value slot) then
      let (v, w) := deepClone (s.value slot) s.world
      ({ (s.mark slot).assign slot v with world := w }, true)
    else (s.mark slot, false)
  else (s, false)

/-- `globals_[name]`, with the slot that a new name gets. -/
def slotOf (s : Slots) (name : String) (slot : Nat) : Slots × Nat :=
  match s.globals name with
  | some slot => (s, slot)
  | none => ({ s with globals := Function.update s.globals name (some slot) }, slot)

end Slots

section Exec

variable (code : Nat → FunctionProto) (warnUndef : Bool)

/-- `CONST(ni).str_ref()`. -/
def nameOf (proto ni : Nat) : String := ((code proto).constants.getD ni .none).strRef

/-- A load of a name that has no slot. -/
def missing (name : String) : Outcome :=
  if name.toList.head? = some '$' ∧ !warnUndef then .undefined name else .value .none false

def Slots.exec (s : Slots) : Access → Slots × Outcome
  | .loadGlobal proto ni =>
    match s.cache proto ni with
    | some slot => (s, .value (s.value slot) false)
    | none =>
      match s.globals (nameOf code proto ni) with
      | some slot =>
        let (s, cloned) := s.isolate slot
        (s.pin proto ni slot, .value (s.value slot) cloned)
      | none => (s, missing warnUndef (nameOf code proto ni))
  | .storeGlobal proto ni v slot =>
    match s.cache proto ni with
    | some slot => (s.assign slot v, .done)
    | none =>
      let (s, slot) := s.slotOf (nameOf code proto ni) slot
      let s := s.assign slot v
      let s := if s.isolateGlobals then s.mark slot else s
      (s.pin proto ni slot, .done)
  | .checkDefined proto ni v =>
    if v = .none ∧ s.globals (nameOf code proto ni) = none then
      (s, .undefined (nameOf code proto ni))
    else (s, .done)
  | .setGlobals globals value =>
    ({ s with globals := globals, value := value, cache := fun _ _ => none }, .done)
  | .isolateSetupGlobals =>
    ({ s with isolateGlobals := true, isolated := fun _ => false }, .done)
  | .other w => ({ s with world := w }, .done)

/-- What the allocator sees to: a new slot is none of those that exist.  The table that is
passed to `setGlobals` is made before the one that it replaces is freed. -/
def Slots.Allowed (s : Slots) : Access → Prop
  | .storeGlobal _ _ _ slot => ∀ n, s.globals n ≠ some slot
  | .setGlobals globals _ =>
    (∀ n m slot, globals n = some slot → globals m = some slot → n = m) ∧
      ∀ n m slot, globals n = some slot → s.globals m ≠ some slot
  | _ => True

def Slots.AllowedAll (s : Slots) : List Access → Prop
  | [] => True
  | a :: as => s.Allowed a ∧ (s.exec code warnUndef a).1.AllowedAll as

/-- The accesses of a run with their outcomes. -/
def Slots.trace (s : Slots) : List Access → List (Access × Outcome)
  | [] => []
  | a :: as =>
    let (s, o) := s.exec code warnUndef a
    (a, o) :: s.trace as

/-- Globals by name, and the names that were loaded or stored since the table was set. -/
structure Table where
  values : String → Option Value
  isolating : Bool
  used : String → Bool
  world : World

namespace Table

def init (w : World) : Table where
  values := fun _ => none
  isolating := false
  used := fun _ => false
  world := w

def use (t : Table) (name : String) : Table :=
  { t with used := Function.update t.used name true }

def assign (t : Table) (name : String) (v : Value) : Table :=
  { t with values := Function.update t.values name (some v) }

/-- A load by name.  The first one in a request copies what carries mutable state. -/
def load (t : Table) (name : String) : Table × Outcome :=
  match t.values name with
  | some v =>
    if t.isolating ∧ t.used name = false ∧ carriesMutableState t.world v then
      let (v, w) := deepClone v t.world
      ({ (t.use name).assign name v with world := w }, .value v true)
    else (t.use name, .value v false)
  | none => (t, missing warnUndef name)

def exec (t : Table) : Access → Table × Outcome
  | .loadGlobal proto ni => t.load warnUndef (nameOf code proto ni)
  | .storeGlobal proto ni v _ =>
    ((t.use (nameOf code proto ni)).assign (nameOf code proto ni) v, .done)
  | .checkDefined proto ni v =>
    if v = .none ∧ t.values (nameOf code proto ni) = none then
      (t, .undefined (nameOf code proto ni))
    else (t, .done)
  | .setGlobals globals value =>
    ({ t with values := fun n => (globals n).map value, used := fun _ => false }, .done)
  | .isolateSetupGlobals => ({ t with isolating := true, used := fun _ => false }, .done)
  | .other w => ({ t with world := w }, .done)

def trace (t : Table) : List Access → List (Access × Outcome)
  | [] => []
  | a :: as =>
    let (t, o) := t.exec code warnUndef a
    (a, o) :: t.trace as

end Table

end Exec

/-- The order in which `vm.h` has the two calls: `isolate_setup_globals` after
`set_globals`, before anything else is run, and on a machine that isolates after each
`set_globals`.  `fresh` says that nothing was run since the globals were set. -/
def Documented : (isolating fresh : Bool) → List Access → Prop
  | _, _, [] => True
  | isolating, _, .setGlobals _ _ :: as => Documented isolating true as
  | _, fresh, .isolateSetupGlobals :: as => fresh = true ∧ Documented true false as
  | isolating, fresh, _ :: as => (isolating && fresh) = false ∧ Documented isolating false as

/-! ## The two machines do the same -/

section Mirrors

variable {code : Nat → FunctionProto} {warnUndef fresh : Bool} {s : Slots} {t : Table}

/-- The table `t` has what the slots have.  A pinned slot is the one of its name, and the
name was used; in a request the resolved slots are those of the used names. -/
structure Mirrors (code : Nat → FunctionProto) (fresh : Bool) (s : Slots) (t : Table) : Prop where
  values : ∀ n, t.values n = (s.globals n).map s.value
  isolating : t.isolating = s.isolateGlobals
  world : t.world = s.world
  injective : ∀ n m slot, s.globals n = some slot → s.globals m = some slot → n = m
  pinned : ∀ proto ni slot, s.cache proto ni = some slot →
    s.globals (nameOf code proto ni) = some slot ∧ t.used (nameOf code proto ni) = true
  empty : fresh = true → ∀ proto ni, s.cache proto ni = none
  resolved : s.isolateGlobals = true → fresh = false →
    ∀ n slot, s.globals n = some slot → s.isolated slot = t.used n

theorem Mirrors.init (w : World) : Mirrors code true (Slots.init w) (Table.init w) where
  values _ := rfl
  isolating := rfl
  world := rfl
  injective _ _ _ := nofun
  pinned _ _ _ := nofun
  empty _ _ _ := rfl
  resolved := nofun

/-- A value is written to a slot. -/
theorem Mirrors.assign (h : Mirrors code fresh s t) {n : String} {slot : Nat}
    (hslot : s.globals n = some slot) (v : Value) :
    Mirrors code fresh (s.assign slot v) (t.assign n v) where
  values m := by
    by_cases hm : m = n
    · subst hm
      simp only [Table.assign, Slots.assign, Function.update_self, hslot, Option.map_some]
    · have hvalue : (s.globals m).map (Function.update s.value slot v) =
          (s.globals m).map s.value := by
        cases hs : s.globals m with
        | none => rfl
        | some slot' =>
          have hne : slot' ≠ slot := by
            rintro rfl
            exact hm (h.injective m n _ hs hslot)
          rw [Option.map_some, Option.map_some, Function.update_of_ne hne]
      simp only [Table.assign, Slots.assign, Function.update_of_ne hm]
      rw [hvalue]
      exact h.values m
  isolating := h.isolating
  world := h.world
  injective := h.injective
  pinned := h.pinned
  empty := h.empty
  resolved := h.resolved

/-- A slot is resolved, and its name used. -/
theorem Mirrors.mark (h : Mirrors code fresh s t) {n : String} {slot : Nat}
    (hslot : s.globals n = some slot) : Mirrors code fresh (s.mark slot) (t.use n) where
  values := h.values
  isolating := h.isolating
  world := h.world
  injective := h.injective
  pinned proto ni slot' hcache := by
    obtain ⟨hglobals, hused⟩ := h.pinned proto ni slot' hcache
    refine ⟨hglobals, ?_⟩
    simp only [Table.use, Function.update_apply, hused, ite_self]
  empty := h.empty
  resolved hiso hfresh m slot' hm := by
    have hsame : slot' = slot ↔ m = n := by
      constructor
      · rintro rfl
        exact h.injective m n _ hm hslot
      · rintro rfl
        exact Option.some.inj (hm.symm.trans hslot)
    simp only [Slots.mark, Table.use, Function.update_apply, hsame,
      h.resolved hiso hfresh m slot' hm]

/-- Outside of a request it does not matter which slots are resolved. -/
theorem Mirrors.unmark {slot : Nat} (h : Mirrors code fresh (s.mark slot) t)
    (hiso : s.isolateGlobals = false) : Mirrors code fresh s t where
  values := h.values
  isolating := h.isolating
  world := h.world
  injective := h.injective
  pinned := h.pinned
  empty := h.empty
  resolved htrue := absurd (hiso.symm.trans htrue) nofun

/-- A name that is used already. -/
theorem Table.use_of_used {n : String} (hused : t.used n = true) : t.use n = t := by
  have hsame : Function.update t.used n true = t.used := by
    rw [← hused]
    exact Function.update_eq_self n t.used
  simp only [Table.use, hsame]

/-- Something is run. -/
theorem Mirrors.start (h : Mirrors code fresh s t) (hfresh : (s.isolateGlobals && fresh) = false) :
    Mirrors code false s t where
  values := h.values
  isolating := h.isolating
  world := h.world
  injective := h.injective
  pinned := h.pinned
  empty := nofun
  resolved hiso _ := by
    rw [hiso, Bool.true_and] at hfresh
    exact h.resolved hiso hfresh

/-- The slot of a used name is pinned. -/
theorem Mirrors.pin (h : Mirrors code false s t) {proto ni slot : Nat}
    (hslot : s.globals (nameOf code proto ni) = some slot)
    (hused : t.used (nameOf code proto ni) = true) :
    Mirrors code false (s.pin proto ni slot) t where
  values := h.values
  isolating := h.isolating
  world := h.world
  injective := h.injective
  pinned proto' ni' slot' hcache := by
    simp only [Slots.pin, Function.update_apply] at hcache
    split at hcache
    next hproto =>
      subst hproto
      simp only [Function.update_apply] at hcache
      split at hcache
      next hni =>
        subst hni
        obtain rfl := Option.some.inj hcache
        exact ⟨hslot, hused⟩
      next => exact h.pinned _ ni' slot' hcache
    next => exact h.pinned proto' ni' slot' hcache
  empty := nofun
  resolved := h.resolved

/-- The memory changes. -/
theorem Mirrors.setWorld (h : Mirrors code fresh s t) (w : World) :
    Mirrors code fresh { s with world := w } { t with world := w } where
  values := h.values
  isolating := h.isolating
  world := rfl
  injective := h.injective
  pinned := h.pinned
  empty := h.empty
  resolved := h.resolved

theorem Mirrors.value (h : Mirrors code fresh s t) {n : String} {slot : Nat}
    (hslot : s.globals n = some slot) : t.values n = some (s.value slot) := by
  rw [h.values, hslot]
  rfl

variable (warnUndef) in
/-- A slot is resolved: the copy is made when the name is used for the first time. -/
theorem Mirrors.isolate (h : Mirrors code false s t) {n : String} {slot : Nat}
    (hslot : s.globals n = some slot) :
    Mirrors code false (s.isolate slot).1 (t.load warnUndef n).1 ∧
      (s.isolate slot).1.globals n = some slot ∧ (t.load warnUndef n).1.used n = true ∧
      (t.load warnUndef n).2 = .value ((s.isolate slot).1.value slot) (s.isolate slot).2 := by
  have hload : t.load warnUndef n =
      if s.isolateGlobals ∧ t.used n = false ∧ carriesMutableState s.world (s.value slot) then
        ({ (t.use n).assign n (deepClone (s.value slot) s.world).1 with
            world := (deepClone (s.value slot) s.world).2 },
          .value (deepClone (s.value slot) s.world).1 true)
      else (t.use n, .value (s.value slot) false) := by
    simp only [Table.load, h.value hslot, h.isolating, h.world]
  have hused : (t.use n).used n = true := by simp only [Table.use, Function.update_self]
  rw [hload]
  cases hiso : s.isolateGlobals with
  | false =>
    have hno : s.isolate slot = (s, false) := by
      simp only [Slots.isolate, hiso, Bool.false_eq_true, false_and, if_false]
    rw [hno, if_neg (by simp)]
    exact ⟨(h.mark hslot).unmark hiso, hslot, hused, rfl⟩
  | true =>
    have hres := h.resolved hiso rfl n slot hslot
    cases hdone : s.isolated slot with
    | true =>
      have hno : s.isolate slot = (s, false) := by
        simp only [Slots.isolate, hdone, Bool.true_eq_false, and_false, if_false]
      have hbefore : t.used n = true := hres.symm.trans hdone
      rw [hno, if_neg (by simp [hbefore]), Table.use_of_used hbefore]
      exact ⟨h, hslot, hbefore, rfl⟩
    | false =>
      have hbefore : t.used n = false := hres.symm.trans hdone
      cases hmut : carriesMutableState s.world (s.value slot) with
      | false =>
        have hno : s.isolate slot = (s.mark slot, false) := by
          simp only [Slots.isolate, hiso, hdone, hmut, and_self, if_true, Bool.false_eq_true,
            if_false]
        rw [hno, if_neg (by simp)]
        exact ⟨h.mark hslot, hslot, hused, rfl⟩
      | true =>
        have hyes : s.isolate slot =
            ({ (s.mark slot).assign slot (deepClone (s.value slot) s.world).1 with
              world := (deepClone (s.value slot) s.world).2 }, true) := by
          simp only [Slots.isolate, hiso, hdone, hmut, and_self, if_true]
        rw [hyes, if_pos ⟨rfl, hbefore, rfl⟩]
        refine ⟨((h.mark hslot).assign hslot _).setWorld _, hslot, hused, ?_⟩
        exact congrArg (Outcome.value · true) (Function.update_self slot _ s.value).symm

/-- A new name gets a slot that no other name has, and a value. -/
theorem Mirrors.create (h : Mirrors code fresh s t) {n : String} {slot : Nat} (v : Value)
    (hnew : s.globals n = none) (hslot : ∀ m, s.globals m ≠ some slot) :
    Mirrors code fresh
      (({ s with globals := Function.update s.globals n (some slot) }).assign slot v |>.mark slot)
      ((t.use n).assign n v) where
  values m := by
    simp only [Table.assign, Table.use, Slots.assign, Slots.mark]
    by_cases hm : m = n
    · subst hm
      simp only [Function.update_self, Option.map_some]
    · rw [Function.update_of_ne hm, Function.update_of_ne hm, h.values]
      cases hs : s.globals m with
      | none => rfl
      | some slot' =>
        have hne : slot' ≠ slot := fun heq => hslot m (heq ▸ hs)
        rw [Option.map_some, Option.map_some, Function.update_of_ne hne]
  isolating := h.isolating
  world := h.world
  injective m m' slot' hm hm' := by
    simp only [Slots.assign, Slots.mark, Function.update_apply] at hm hm'
    split at hm
    next heq =>
      obtain rfl := Option.some.inj hm
      split at hm'
      next heq' => exact heq.trans heq'.symm
      next => exact absurd hm' (hslot m')
    next =>
      split at hm'
      next =>
        obtain rfl := Option.some.inj hm'
        exact absurd hm (hslot m)
      next => exact h.injective m m' slot' hm hm'
  pinned proto ni slot' hcache := by
    obtain ⟨hglobals, hused⟩ := h.pinned proto ni slot' hcache
    have hne : nameOf code proto ni ≠ n := by
      intro heq
      rw [heq, hnew] at hglobals
      cases hglobals
    simp only [Table.assign, Table.use, Slots.assign, Slots.mark, Function.update_of_ne hne]
    exact ⟨hglobals, hused⟩
  empty := h.empty
  resolved hiso hfresh m slot' hm := by
    simp only [Table.assign, Table.use, Slots.assign, Slots.mark, Function.update_apply] at hm ⊢
    split at hm
    next heq =>
      obtain rfl := Option.some.inj hm
      rw [if_pos rfl, if_pos heq]
    next hne =>
      have hne' : slot' ≠ slot := fun heq => hslot m (heq ▸ hm)
      rw [if_neg hne, if_neg hne']
      exact h.resolved hiso hfresh m slot' hm

/-- `globals_[name] = v` in `STORE_GLOBAL`. -/
theorem Mirrors.store (h : Mirrors code fresh s t) (n : String) {slot : Nat} (v : Value)
    (hslot : ∀ m, s.globals m ≠ some slot) :
    let s₁ := ((s.slotOf n slot).1.assign (s.slotOf n slot).2 v)
    s₁.globals n = some (s.slotOf n slot).2 ∧
      Mirrors code fresh (if s₁.isolateGlobals then s₁.mark (s.slotOf n slot).2 else s₁)
        ((t.use n).assign n v) := by
  have hmarked : ∃ s₁ slot₁, s.slotOf n slot = (s₁, slot₁) ∧ s₁.globals n = some slot₁ ∧
      s₁.isolateGlobals = s.isolateGlobals ∧
      Mirrors code fresh ((s₁.assign slot₁ v).mark slot₁) ((t.use n).assign n v) := by
    cases hn : s.globals n with
    | some slot₁ =>
      exact ⟨s, slot₁, by simp only [Slots.slotOf, hn], hn, rfl, (h.mark hn).assign hn v⟩
    | none =>
      refine ⟨{ s with globals := Function.update s.globals n (some slot) }, slot, ?_, ?_, rfl,
        h.create v hn hslot⟩
      · simp only [Slots.slotOf, hn]
      · simp only [Function.update_self]
  obtain ⟨s₁, slot₁, heq, hglobals, hiso, hmirrors⟩ := hmarked
  rw [heq]
  refine ⟨hglobals, ?_⟩
  cases hflag : (s₁.assign slot₁ v).isolateGlobals with
  | true => rwa [if_pos rfl]
  | false =>
    rw [if_neg nofun]
    exact hmirrors.unmark hflag

theorem Table.load_isolating (n : String) :
    (t.load warnUndef n).1.isolating = t.isolating := by
  unfold Table.load
  split
  · split <;> rfl
  · rfl

variable (warnUndef) in
/-- A load by name, with and without the cache. -/
theorem Mirrors.loadGlobal (h : Mirrors code false s t) (proto ni : Nat) :
    (s.exec code warnUndef (.loadGlobal proto ni)).2 =
        (t.load warnUndef (nameOf code proto ni)).2 ∧
      Mirrors code false (s.exec code warnUndef (.loadGlobal proto ni)).1
        (t.load warnUndef (nameOf code proto ni)).1 := by
  cases hcache : s.cache proto ni with
  | some slot =>
    obtain ⟨hslot, hused⟩ := h.pinned proto ni slot hcache
    have hload : t.load warnUndef (nameOf code proto ni) = (t, .value (s.value slot) false) := by
      simp only [Table.load, h.value hslot, hused, Bool.true_eq_false, false_and, and_false,
        if_false, Table.use_of_used hused]
    simp only [Slots.exec, hcache, hload]
    exact ⟨trivial, h⟩
  | none =>
    cases hslot : s.globals (nameOf code proto ni) with
    | some slot =>
      obtain ⟨hmirrors, hkept, hused, hout⟩ := h.isolate warnUndef hslot
      simp only [Slots.exec, hcache, hslot]
      exact ⟨hout.symm, hmirrors.pin hkept hused⟩
    | none =>
      have hload : t.load warnUndef (nameOf code proto ni) =
          (t, missing warnUndef (nameOf code proto ni)) := by
        simp only [Table.load, h.values, hslot, Option.map_none]
      simp only [Slots.exec, hcache, hslot, hload]
      exact ⟨trivial, h⟩

variable (warnUndef) in
/-- A store by name, with and without the cache. -/
theorem Mirrors.storeGlobal (h : Mirrors code false s t) (proto ni : Nat) (v : Value) {slot : Nat}
    (hslot : ∀ m, s.globals m ≠ some slot) :
    (s.exec code warnUndef (.storeGlobal proto ni v slot)).2 = .done ∧
      Mirrors code false (s.exec code warnUndef (.storeGlobal proto ni v slot)).1
        ((t.use (nameOf code proto ni)).assign (nameOf code proto ni) v) := by
  cases hcache : s.cache proto ni with
  | some slot' =>
    obtain ⟨hslot', hused⟩ := h.pinned proto ni slot' hcache
    simp only [Slots.exec, hcache]
    rw [Table.use_of_used hused]
    exact ⟨trivial, h.assign hslot' v⟩
  | none =>
    obtain ⟨hglobals, hmirrors⟩ := h.store (nameOf code proto ni) v hslot
    simp only [Slots.exec, hcache]
    refine ⟨trivial, hmirrors.pin ?_ ?_⟩
    · split <;> exact hglobals
    · simp only [Table.assign, Table.use, Function.update_self]

/-- The machine with the cache and the one without it do the same. -/
theorem Mirrors.trace {as : List Access} (h : Mirrors code fresh s t)
    (hallowed : s.AllowedAll code warnUndef as) (hdoc : Documented t.isolating fresh as) :
    s.trace code warnUndef as = t.trace code warnUndef as := by
  induction as generalizing s t fresh with
  | nil => rfl
  | cons a as ih =>
    obtain ⟨hallowed, hrest⟩ := hallowed
    have htail : ∀ fresh', (s.exec code warnUndef a).2 = (t.exec code warnUndef a).2 →
        Mirrors code fresh' (s.exec code warnUndef a).1 (t.exec code warnUndef a).1 →
        Documented (t.exec code warnUndef a).1.isolating fresh' as →
        s.trace code warnUndef (a :: as) = t.trace code warnUndef (a :: as) := by
      intro fresh' hout hmirrors hdoc
      simp only [Slots.trace, Table.trace]
      rw [hout, ih hmirrors hrest hdoc]
    cases a with
    | loadGlobal proto ni =>
      have h' := h.start (h.isolating ▸ hdoc.1)
      obtain ⟨hout, hmirrors⟩ := h'.loadGlobal warnUndef proto ni
      refine htail false hout hmirrors ?_
      simp only [Table.exec, Table.load_isolating]
      exact hdoc.2
    | storeGlobal proto ni v slot =>
      have h' := h.start (h.isolating ▸ hdoc.1)
      obtain ⟨hout, hmirrors⟩ := h'.storeGlobal warnUndef proto ni v hallowed
      exact htail false hout hmirrors hdoc.2
    | checkDefined proto ni v =>
      have h' := h.start (h.isolating ▸ hdoc.1)
      have hdefined : t.values (nameOf code proto ni) = none ↔
          s.globals (nameOf code proto ni) = none := by
        rw [h.values, Option.map_eq_none_iff]
      refine htail false ?_ ?_ ?_
      all_goals
        simp only [Slots.exec, Table.exec, hdefined]
        split
      · rfl
      · rfl
      · exact h'
      · exact h'
      · exact hdoc.2
      · exact hdoc.2
    | setGlobals globals value =>
      refine htail true rfl ?_ hdoc
      exact {
        values := fun _ => rfl
        isolating := h.isolating
        world := h.world
        injective := hallowed.1
        pinned := fun _ _ _ => nofun
        empty := fun _ _ _ => rfl
        resolved := fun _ => nofun }
    | isolateSetupGlobals =>
      refine htail false rfl ?_ hdoc.2
      have hempty := h.empty hdoc.1
      exact {
        values := h.values
        isolating := rfl
        world := h.world
        injective := h.injective
        pinned := fun proto ni slot hcache =>
          absurd ((hempty proto ni).symm.trans hcache) nofun
        empty := nofun
        resolved := fun _ _ _ _ _ => rfl }
    | other w =>
      have h' := h.start (h.isolating ▸ hdoc.1)
      exact htail false rfl (h'.setWorld w) hdoc.2

end Mirrors

/-! ## Runs -/

section Runs

variable (code : Nat → FunctionProto)

/-- The access loads or stores the name. -/
def Access.Uses (n : String) : Access → Prop
  | .loadGlobal proto ni => nameOf code proto ni = n
  | .storeGlobal proto ni _ _ => nameOf code proto ni = n
  | _ => False

def Access.Stores (n : String) : Access → Prop
  | .storeGlobal proto ni _ _ => nameOf code proto ni = n
  | _ => False

/-- The access starts a run or a request. -/
def Access.Restarts : Access → Prop
  | .setGlobals _ _ => True
  | .isolateSetupGlobals => True
  | _ => False

/-- What the access sees, if it is one of the name, is the value `v`. -/
def Sees (n : String) (v : Value) : Access × Outcome → Prop
  | (.loadGlobal proto ni, o) => nameOf code proto ni = n → o = .value v false
  | (.checkDefined proto ni _, o) => nameOf code proto ni = n → o = .done
  | _ => True

/-- A stored value is what every later access of the name sees, from any proto, until the
name is stored again. -/
def StoresVisible (tr : List (Access × Outcome)) : Prop :=
  ∀ pre proto ni v slot o mid x post,
    tr = pre ++ (.storeGlobal proto ni v slot, o) :: (mid ++ x :: post) →
    (∀ y ∈ mid, ¬ y.1.Restarts ∧ ¬ y.1.Stores code (nameOf code proto ni)) →
    Sees code (nameOf code proto ni) v x

/-- A load that makes a copy is the first use of the name in its request. -/
def CopiedOnce (tr : List (Access × Outcome)) : Prop :=
  ∀ pre y mid proto ni v post,
    tr = pre ++ y :: (mid ++ (.loadGlobal proto ni, .value v true) :: post) →
    ¬ y.1.Restarts → (∀ z ∈ mid, ¬ z.1.Restarts) → ¬ y.1.Uses code (nameOf code proto ni)

/-- The first use of a setup global in a request, if it is a load, makes a copy or finds
that the value carries no mutable state. -/
def CopiedFirst (tr : List (Access × Outcome)) : Prop :=
  ∀ pre globals value o o' mid proto ni o'' post slot,
    tr = pre ++ (.setGlobals globals value, o) :: (.isolateSetupGlobals, o') ::
      (mid ++ (.loadGlobal proto ni, o'') :: post) →
    (∀ y ∈ mid, ¬ y.1.Restarts ∧ ¬ y.1.Uses code (nameOf code proto ni)) →
    globals (nameOf code proto ni) = some slot →
    (∃ v, o'' = .value v true) ∨
      o'' = .value (value slot) false ∧ ∃ w, carriesMutableState w (value slot) = false

end Runs

section Table

variable {code : Nat → FunctionProto} {warnUndef : Bool} {t : Table} {n : String} {v : Value}

/-- The name has been used, and has the value. -/
def Table.Has (t : Table) (n : String) (v : Value) : Prop :=
  t.values n = some v ∧ t.used n = true

variable (warnUndef) in
/-- A load of another name. -/
theorem Table.load_of_ne {m : String} (hm : m ≠ n) :
    (t.load warnUndef m).1.values n = t.values n ∧ (t.load warnUndef m).1.used n = t.used n := by
  unfold Table.load
  split
  · split
    · simp only [Table.assign, Table.use, Function.update_of_ne hm.symm, and_self]
    · simp only [Table.use, Function.update_of_ne hm.symm, and_self]
  · exact ⟨rfl, rfl⟩

theorem Table.Has.load (h : t.Has n v) : t.load warnUndef n = (t, .value v false) := by
  simp only [Table.load, h.1, h.2, Bool.true_eq_false, false_and, and_false, if_false,
    Table.use_of_used h.2]

/-- What another access than a store leaves of it. -/
theorem Table.Has.exec (h : t.Has n v) {a : Access} (hrestart : ¬ a.Restarts)
    (hstore : ¬ a.Stores code n) : (t.exec code warnUndef a).1.Has n v := by
  cases a with
  | loadGlobal proto ni =>
    by_cases hn : nameOf code proto ni = n
    · simp only [Table.exec, hn, h.load]
      exact h
    · obtain ⟨hvalues, hused⟩ := Table.load_of_ne warnUndef (t := t) hn
      exact ⟨hvalues.trans h.1, hused.trans h.2⟩
  | storeGlobal proto ni u slot =>
    have hne : n ≠ nameOf code proto ni := fun heq => hstore heq.symm
    simp only [Table.exec, Table.Has, Table.assign, Table.use, Function.update_of_ne hne]
    exact h
  | checkDefined proto ni u =>
    simp only [Table.exec]
    split <;> exact h
  | setGlobals => exact absurd trivial hrestart
  | isolateSetupGlobals => exact absurd trivial hrestart
  | other w => exact h

variable (code warnUndef) in
theorem Table.Has.sees (h : t.Has n v) (a : Access) :
    Sees code n v (a, (t.exec code warnUndef a).2) := by
  cases a with
  | loadGlobal proto ni =>
    rintro rfl
    simp only [Table.exec, h.load]
  | checkDefined proto ni u =>
    rintro rfl
    simp only [Table.exec, h.1, reduceCtorEq, and_false, if_false]
  | _ => trivial

theorem Table.trace_cons {as : List Access} {rest : List (Access × Outcome)}
    {x : Access × Outcome} (h : t.trace code warnUndef as = x :: rest) :
    x.2 = (t.exec code warnUndef x.1).2 ∧
      ∃ bs, (t.exec code warnUndef x.1).1.trace code warnUndef bs = rest := by
  cases as with
  | nil => cases h
  | cons a as =>
    obtain ⟨rfl, rfl⟩ := List.cons.inj h
    exact ⟨rfl, as, rfl⟩

/-- The end of a trace is the trace from a later state. -/
theorem Table.trace_drop {as : List Access} {pre rest : List (Access × Outcome)}
    (h : t.trace code warnUndef as = pre ++ rest) :
    ∃ (t' : Table) (bs : List Access), t'.trace code warnUndef bs = rest := by
  induction pre generalizing t as with
  | nil => exact ⟨t, as, h⟩
  | cons y pre ih =>
    obtain ⟨-, bs, hbs⟩ := Table.trace_cons h
    exact ih hbs

/-- An access behind some that keep a property. -/
theorem Table.trace_keeps {I : Table → Prop} {as : List Access}
    {mid post : List (Access × Outcome)} {x : Access × Outcome} (hI : I t)
    (h : t.trace code warnUndef as = mid ++ x :: post)
    (hkeep : ∀ t, I t → ∀ y ∈ mid, I (t.exec code warnUndef y.1).1) :
    ∃ t' : Table, I t' ∧ x.2 = (t'.exec code warnUndef x.1).2 := by
  induction mid generalizing t as with
  | nil => exact ⟨t, hI, (Table.trace_cons h).1⟩
  | cons y mid ih =>
    obtain ⟨-, bs, hbs⟩ := Table.trace_cons h
    exact ih (hkeep t hI _ List.mem_cons_self) hbs
      fun t ht y hy => hkeep t ht y (List.mem_cons_of_mem _ hy)

theorem Table.storesVisible (t : Table) (as : List Access) :
    StoresVisible code (t.trace code warnUndef as) := by
  intro pre proto ni v slot o mid x post heq hmid
  obtain ⟨t₁, as₁, hafter⟩ := Table.trace_drop heq
  obtain ⟨-, bs, hbs⟩ := Table.trace_cons hafter
  obtain ⟨t₂, hhas, hx⟩ := Table.trace_keeps (I := (Table.Has · (nameOf code proto ni) v))
    (t := (t₁.exec code warnUndef (.storeGlobal proto ni v slot)).1)
    (by simp only [Table.exec, Table.Has, Table.assign, Table.use, Function.update_self, and_self])
    hbs fun t ht y hy => ht.exec (hmid y hy).1 (hmid y hy).2
  have hsees := hhas.sees code warnUndef x.1
  rwa [← hx] at hsees

/-- A name that was loaded or stored is marked, unless it does not exist. -/
theorem Table.used_exec {a : Access} (huse : a.Uses code n) :
    (t.exec code warnUndef a).1.values n = none ∨ (t.exec code warnUndef a).1.used n = true := by
  cases a with
  | loadGlobal proto ni =>
    obtain rfl : nameOf code proto ni = n := huse
    simp only [Table.exec, Table.load]
    split
    · split <;> exact .inr (by simp only [Table.assign, Table.use, Function.update_self])
    next hvalues => exact .inl hvalues
  | storeGlobal proto ni u slot =>
    obtain rfl : nameOf code proto ni = n := huse
    exact .inr (by simp only [Table.exec, Table.assign, Table.use, Function.update_self])
  | _ => cases huse

theorem Table.used_keeps {a : Access} (hrestart : ¬ a.Restarts)
    (h : t.values n = none ∨ t.used n = true) :
    (t.exec code warnUndef a).1.values n = none ∨ (t.exec code warnUndef a).1.used n = true := by
  by_cases huse : a.Uses code n
  · exact Table.used_exec huse
  · cases a with
    | loadGlobal proto ni =>
      obtain ⟨hvalues, hused⟩ := Table.load_of_ne warnUndef (t := t) huse
      simp only [Table.exec]
      rwa [hvalues, hused]
    | storeGlobal proto ni u slot =>
      have hne : n ≠ nameOf code proto ni := fun heq => huse heq.symm
      simpa only [Table.exec, Table.assign, Table.use, Function.update_of_ne hne] using h
    | checkDefined proto ni u =>
      simp only [Table.exec]
      split <;> exact h
    | setGlobals => exact absurd trivial hrestart
    | isolateSetupGlobals => exact absurd trivial hrestart
    | other w => exact h

theorem Table.copiedOnce (t : Table) (as : List Access) :
    CopiedOnce code (t.trace code warnUndef as) := by
  intro pre y mid proto ni v post heq hy hmid huse
  obtain ⟨t₁, as₁, hafter⟩ := Table.trace_drop heq
  obtain ⟨-, bs, hbs⟩ := Table.trace_cons hafter
  obtain ⟨t₂, hused, hx⟩ := Table.trace_keeps
    (I := fun t => t.values (nameOf code proto ni) = none ∨ t.used (nameOf code proto ni) = true)
    (Table.used_exec huse) hbs fun t ht z hz => Table.used_keeps (hmid z hz) ht
  simp only [Table.exec, Table.load] at hx
  rcases hused with hnone | hused
  · rw [hnone] at hx
    simp only [missing] at hx
    split at hx <;> cases hx
  · simp only [hused, Bool.true_eq_false, false_and, and_false, if_false] at hx
    split at hx
    · cases hx
    · simp only [missing] at hx
      split at hx <;> cases hx

/-- In a request, a setup global that was not used yet. -/
structure Table.Waits (t : Table) (n : String) (v : Value) : Prop where
  isolating : t.isolating = true
  unused : t.used n = false
  value : t.values n = some v

theorem Table.Waits.exec (h : t.Waits n v) {a : Access} (hrestart : ¬ a.Restarts)
    (huse : ¬ a.Uses code n) : (t.exec code warnUndef a).1.Waits n v := by
  cases a with
  | loadGlobal proto ni =>
    obtain ⟨hvalues, hused⟩ := Table.load_of_ne warnUndef (t := t) huse
    exact ⟨(Table.load_isolating _).trans h.isolating, hused.trans h.unused,
      hvalues.trans h.value⟩
  | storeGlobal proto ni u slot =>
    have hne : n ≠ nameOf code proto ni := fun heq => huse heq.symm
    refine ⟨h.isolating, ?_, ?_⟩
    · simpa only [Table.exec, Table.assign, Table.use, Function.update_of_ne hne] using h.unused
    · simpa only [Table.exec, Table.assign, Table.use, Function.update_of_ne hne] using h.value
  | checkDefined proto ni u =>
    simp only [Table.exec]
    split <;> exact h
  | setGlobals => exact absurd trivial hrestart
  | isolateSetupGlobals => exact absurd trivial hrestart
  | other w => exact ⟨h.isolating, h.unused, h.value⟩

theorem Table.copiedFirst (t : Table) (as : List Access) :
    CopiedFirst code (t.trace code warnUndef as) := by
  intro pre globals value o o' mid proto ni o'' post slot heq hmid hslot
  obtain ⟨t₁, as₁, hafter⟩ := Table.trace_drop heq
  obtain ⟨-, bs, hbs⟩ := Table.trace_cons hafter
  obtain ⟨-, cs, hcs⟩ := Table.trace_cons hbs
  obtain ⟨t₂, hwaits, hx⟩ := Table.trace_keeps
    (I := (Table.Waits · (nameOf code proto ni) (value slot))) ⟨rfl, rfl, by
      simp only [Table.exec, hslot, Option.map_some]⟩ hcs
    fun t ht y hy => ht.exec (hmid y hy).1 (hmid y hy).2
  simp only [Table.exec, Table.load, hwaits.value, hwaits.isolating, hwaits.unused, true_and] at hx
  split at hx
  · exact .inl ⟨_, hx⟩
  next hmut => exact .inr ⟨hx, t₂.world, Bool.eq_false_iff.mpr hmut⟩

end Table

/-! ## The runs of a VM -/

/-- In a run with the documented calls every access does what a lookup of its name would
do, with the copy of the request; a stored value is seen by every later access; and a
setup global is copied at most once in a request, before it is used. -/
theorem coherent (code : Nat → FunctionProto) (warnUndef : Bool) (w : World)
    (as : List Access) (hallowed : (Slots.init w).AllowedAll code warnUndef as)
    (hdoc : Documented false true as) :
    (Slots.init w).trace code warnUndef as = (Table.init w).trace code warnUndef as ∧
      StoresVisible code ((Slots.init w).trace code warnUndef as) ∧
      CopiedOnce code ((Slots.init w).trace code warnUndef as) ∧
      CopiedFirst code ((Slots.init w).trace code warnUndef as) := by
  have htrace := (Mirrors.init w).trace hallowed hdoc
  rw [htrace]
  exact ⟨rfl, Table.storesVisible _ _, Table.copiedOnce _ _, Table.copiedFirst _ _⟩

/-- A function whose first constant is the name `$a`. -/
def namesA : FunctionProto := { (default : FunctionProto) with constants := [.string "$a"] }

/-- A memory with one array. -/
def oneArray : World where
  arrays := [[]]
  closures := []
  channels := []
  activeTasks := 0

/-- A table in which `$a` is the array. -/
def setA (slot : Nat) : Access :=
  .setGlobals (fun n => if n = "$a" then some slot else none) fun _ => .array 0

theorem setA_allowed {s : Slots} {slot : Nat} (h : ∀ m, s.globals m ≠ some slot) :
    s.Allowed (setA slot) := by
  refine ⟨?_, ?_⟩
  · intro n m slot' hn hm
    dsimp only at hn hm
    split at hn
    next heq =>
      split at hm
      next heq' => exact heq.trans heq'.symm
      next => cases hm
    next => cases hn
  · intro n m slot' hn hm
    dsimp only at hn
    split at hn
    next => exact h m (hn ▸ hm)
    next => cases hn

theorem coherent_request :
    (Slots.init oneArray).trace (fun _ => namesA) false
        [setA 1, .isolateSetupGlobals, .loadGlobal 0 0, .loadGlobal 7 0] =
      (Table.init oneArray).trace (fun _ => namesA) false
        [setA 1, .isolateSetupGlobals, .loadGlobal 0 0, .loadGlobal 7 0] :=
  (coherent (fun _ => namesA) false oneArray
    [setA 1, .isolateSetupGlobals, .loadGlobal 0 0, .loadGlobal 7 0]
    ⟨setA_allowed fun _ => nofun, trivial, trivial, trivial, trivial⟩
    ⟨rfl, rfl, rfl, trivial⟩).1

/-- `set_globals` on a machine that isolates, without the call behind it: the addresses of
the slots of an earlier table are still in `isolated_`, a slot of the new table is at one
of them, and the request gets the array of the setup itself. -/
theorem stale_isolated :
    (Slots.init oneArray).AllowedAll (fun _ => namesA) false
        [setA 1, .isolateSetupGlobals, .loadGlobal 0 0, setA 2, setA 1, .loadGlobal 0 0] ∧
      ((Slots.init oneArray).trace (fun _ => namesA) false
        [setA 1, .isolateSetupGlobals, .loadGlobal 0 0, setA 2, setA 1,
          .loadGlobal 0 0]).map Prod.snd =
        [.done, .done, .value (.array 1) true, .done, .done, .value (.array 0) false] ∧
      ((Table.init oneArray).trace (fun _ => namesA) false
        [setA 1, .isolateSetupGlobals, .loadGlobal 0 0, setA 2, setA 1,
          .loadGlobal 0 0]).map Prod.snd =
        [.done, .done, .value (.array 1) true, .done, .done, .value (.array 2) true] := by
  refine ⟨⟨setA_allowed fun _ => nofun, trivial, trivial, setA_allowed ?_, setA_allowed ?_,
    trivial, trivial⟩, ?_, ?_⟩
  · intro m hm
    change (if m = "$a" then some 1 else none) = some 2 at hm
    split at hm <;> cases hm
  · intro m hm
    change (if m = "$a" then some 2 else none) = some 1 at hm
    split at hm <;> cases hm
  · decide +kernel
  · decide +kernel

end GlobalCache

end Look
