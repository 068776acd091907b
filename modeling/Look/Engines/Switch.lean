/-
`switch` in the two engines.

The compiler emits the tests of all cases first, each a jump into the body of
its case, then a jump for the case that no test succeeds, and then the bodies.
The bodies patch the jumps, so a `default` may stand anywhere and the last one
wins.  The interpreter walks over the cases in the same order.

The subject stays in its register while the tests run.  When the subject is a
bare local that register is the home of the variable, and a test that assigns
the variable changes the subject; and a test that declares a variable declares
it for the bodies also when it is not reached.  Without these two the engines
agree, which is `switch_same`.
-/
import Look.Engines.Atoms
import Look.Engines.Programs

namespace Look

open Exec Compile

/-! ## One test -/

/-- What the compiler has done when it has tested the subject against the value
in register `r`. -/
def tested (s : CompilerState) (subj r eq : Nat) (ra : RegisterAllocator) : CompilerState :=
  ((((s.withRegs ra).push ⟨.eq, eq, subj, r⟩ .plain).withRegs (ra.release r)).push
    ⟨.jumpIfTrue, eq, 0, 0⟩ .plain).withRegs ((ra.release r).release eq)

theorem tested_emits (s : CompilerState) (subj r eq : Nat) (ra : RegisterAllocator) :
    s.Emits (tested s subj r eq ra) :=
  (((((CompilerState.Emits.refl s).withRegs ra).push _ _).withRegs _).push _ _).withRegs _

theorem tested_code (s : CompilerState) (subj r eq : Nat) (ra : RegisterAllocator) :
    (tested s subj r eq ra).cur.code =
      s.cur.code ++ [⟨.eq, eq, subj, r⟩, ⟨.jumpIfTrue, eq, 0, 0⟩] := by
  simp [tested, CompilerState.push, CompilerState.withRegs, FunctionCompiler.pushUnit]

theorem compileCaseTests_cons {rec : Rec} {subj : Nat} {v : Expr} {rest : List Expr}
    {s s' : CompilerState} {js : List Nat}
    (h : compileCaseTests rec subj (v :: rest) s = .ok js s') :
    ∃ r s₁ eq ra js', rec.expr v none s = .ok r s₁ ∧ s₁.cur.regs.alloc = .ok (eq, ra) ∧
      js = (s₁.cur.code.length + 1) :: js' ∧
      compileCaseTests rec subj rest (tested s₁ subj r eq ra) = .ok js' s' := by
  obtain ⟨j, s₅, js', hone, hrest, rfl⟩ := mapEach_cons_ok.mp h
  obtain ⟨r, s₁, hexpr, hone⟩ := bind_eq_ok.mp hone
  obtain ⟨eq, s₂, halloc, hone⟩ := bind_eq_ok.mp hone
  obtain ⟨ra, hra, rfl⟩ := allocTemp_ok halloc
  cases hone
  refine ⟨r, s₁, eq, ra, js', hexpr, hra, ?_, hrest⟩
  simp [CompilerState.withRegs]

section Engines

variable [DoubleOps] {K : Correspondence} {env : SourceEnv} {rec : Rec} {irec : InterpRec}

section Test

variable {v : Expr} {s s₁ : CompilerState} {subj r eq : Nat} {ra : RegisterAllocator}

omit [DoubleOps] in
theorem tested_tables (ht : s₁.cur.Tidy) (ha : s₁.cur.regs.alloc = .ok (eq, ra)) :
    s₁.cur.Tables (tested s₁ subj r eq ra).cur := by
  obtain ⟨hal, -⟩ := RegisterAllocator.alloc_allocated ht.regs ha
  refine (tested_emits s₁ subj r eq ra).tables ?_
  show s₁.cur.regs.max ≤ ((ra.release r).release eq).max
  rw [RegisterAllocator.release_max, RegisterAllocator.release_max]
  exact hal.max

/-- The registers behind a test: what was live before the value is live still. -/
theorem tested_post (hp : ExprPost env v none s s₁ r)
    (ha : s₁.cur.regs.alloc = .ok (eq, ra)) : StmtPost s (tested s₁ subj r eq ra) := by
  obtain ⟨hal, -⟩ := RegisterAllocator.alloc_allocated hp.tidy.regs ha
  have hcompared := ((StmtPost.refl hp.tidy).alloc ha).push ⟨.eq, eq, subj, r⟩ .plain
  have hreleased := (hp.stmtPost.trans hcompared).release (hcompared.live r hp.result)
    (hp.disposable hcompared.toProgress)
  have hfresh : ¬s.cur.regs.Live eq := fun h => hal.fresh (hp.live eq h)
  refine (hreleased.push ⟨.jumpIfTrue, eq, 0, 0⟩ .plain).release ?_ (.inl hfresh)
  refine hal.live.release ?_
  by_cases her : eq = r
  · exact absurd (her ▸ hp.result) hal.fresh
  · exact .inl her

end Test

/-! ## The tests of a case -/

/-- The values do the same in both engines, they declare no variable, and they
do not assign the variable whose home the subject's register is. -/
structure TestsClean (K : Correspondence) (env : SourceEnv) (rec : Rec) (irec : InterpRec)
    (s : CompilerState) (subj : Nat) (values : List Expr) : Prop where
  ok : ∀ v ∈ values, ExprOk K env rec irec v
  declares : ∀ v ∈ values, ∀ n, Assigns env n v → s.declares n = false
  subject : ∀ v ∈ values, ∀ n, Assigns env n v → s.cur.lookupVar n ≠ some (.register subj)

section Tests

variable {values : List Expr} {s s' : CompilerState} {subj : Nat} {js : List Nat}

theorem TestsClean.later (h : TestsClean K env rec irec s subj values) (hp : Progress s s')
    (hn : s.cur.SameNames s'.cur) : TestsClean K env rec irec s' subj values where
  ok := h.ok
  declares := fun v hv n ha => hp.settled n (h.declares v hv n ha)
  subject := fun v hv n ha hl => h.subject v hv n ha (hn.lookupVar.mp hl)

theorem TestsClean.subset {values' : List Expr} (h : TestsClean K env rec irec s subj values)
    (hsub : values' ⊆ values) : TestsClean K env rec irec s subj values' where
  ok := fun v hv => h.ok v (hsub hv)
  declares := fun v hv => h.declares v (hsub hv)
  subject := fun v hv => h.subject v (hsub hv)

theorem TestsClean.tail {v : Expr} (h : TestsClean K env rec irec s subj (v :: values)) :
    TestsClean K env rec irec s subj values :=
  h.subset (List.subset_cons_self v values)

omit [DoubleOps] in
theorem destLive_none (fc : FunctionCompiler) : DestLive none fc := fun _ h => by cases h

/-- What compiling the tests of a case does. -/
theorem tests_post (hc : compileCaseTests rec subj values s = .ok js s') (ht : s.cur.Tidy)
    (hcl : TestsClean K env rec irec s subj values) :
    StmtPost s s' ∧ s.cur.SameNames s'.cur ∧ s'.cur.loopStack = s.cur.loopStack ∧
      js.Pairwise (· < ·) ∧ ∀ j ∈ js, s.cur.code.length ≤ j ∧ j < s'.cur.code.length := by
  induction values generalizing s js with
  | nil =>
    cases hc
    exact ⟨.refl ht, .refl _, rfl, .nil, by simp⟩
  | cons v rest ih =>
    obtain ⟨r, s₁, eq, ra, js', hexpr, ha, rfl, hrest⟩ := compileCaseTests_cons hc
    obtain ⟨hp, -⟩ := hcl.ok v List.mem_cons_self s none r s₁ ht (destLive_none _) hexpr
    have hpost : StmtPost s (tested s₁ subj r eq ra) := tested_post hp ha
    have hem := tested_emits s₁ subj r eq ra
    have hnames : s.cur.SameNames (tested s₁ subj r eq ra).cur :=
      (hp.names (hcl.declares v List.mem_cons_self)).trans hem.names
    obtain ⟨hpost', hnames', hloops, hsorted, hbounds⟩ :=
      ih hrest hpost.tidy (hcl.tail.later hpost.toProgress hnames)
    have hlen : (tested s₁ subj r eq ra).cur.code.length = s₁.cur.code.length + 2 := by
      rw [tested_code, List.length_append]
      rfl
    have h₁ := hp.code.length_le
    have h₂ := hpost'.code.length_le
    refine ⟨hpost.trans hpost', hnames.trans hnames', by rw [hloops, hem.loops, hp.loops],
      List.pairwise_cons.mpr ⟨fun j hj => ?_, hsorted⟩, fun j hj => ?_⟩
    · have := (hbounds j hj).1
      omega
    · rcases List.mem_cons.mp hj with rfl | hj
      · omega
      · have := hbounds j hj
        omega

/-- The machine compares two registers and jumps when they are equal. -/
theorem test_steps {x : Site} {ip eq r body : Nat} {c : Config} {a b : Value} (hat : x.At ip c)
    (h₁ : x.code[ip]? = some ⟨.eq, eq, subj, r⟩)
    (h₂ : x.code[ip + 1]? = some (Instruction.withTarget ⟨.jumpIfTrue, eq, 0, 0⟩ body))
    (heq : eq < x.frame.proto.regCount) (ha : x.reg c subj = some a) (hb : x.reg c r = some b) :
    ∃ c₁, c.Steps x.machine c₁ ∧ c₁.Steps x.machine
      (x.jump (if a.eq b then body else ip + 2)
        (x.write eq (.bool (a.eq b)) (x.jump (ip + 1) c))) := by
  have hstep := hat.step_binary h₁ rfl rfl heq ha hb (v := .bool (a.eq b)) rfl
  have hat₁ : x.At (ip + 1) (x.write eq (.bool (a.eq b)) (x.jump (ip + 1) c)) :=
    (hat.jump _).write _ _
  have hreg : x.reg (x.write eq (.bool (a.eq b)) (x.jump (ip + 1) c)) eq =
      some (.bool (a.eq b)) := Site.reg_write_self ((hat.jump _).isSome_reg heq)
  have hjump := hat₁.step_jumpIf h₂ hreg (.inl rfl)
  refine ⟨_, hstep, ?_⟩
  rw [Instruction.withTarget_bx] at hjump
  cases hab : a.eq b with
  | true =>
    rw [hab] at hjump
    exact hjump
  | false =>
    rw [hab] at hjump
    exact hjump

theorem matchesAny_cons (v : Value) (e : Expr) (rest : List Expr) :
    Interp.matchesAny irec v (e :: rest) = (do
      let x ← irec.eval e
      if v.eq x then pure true else Interp.matchesAny irec v rest) := rfl

/-- The frame has the tests, with the jumps `js` into the body. -/
def CarriesTests (K : Correspondence) (s s' : CompilerState) (js : List Nat) (body : Nat) : Prop :=
  ∀ i w, s.cur.code.length ≤ i → i < s'.cur.code.length → s'.cur.code[i]? = some w →
    K.site.code[i]? = some (if i ∈ js then w.withTarget body else w)

/-- The machine tests the values in order and is in the body when one of them
is the subject. -/
theorem tests_sim (hc : compileCaseTests rec subj values s = .ok js s') (ht : s.cur.Tidy)
    (hs : s.cur.regs.Live subj) (hcl : TestsClean K env rec irec s subj values) {body : Nat}
    (hcode : CarriesTests K s s' js body) (hcov : K.site.Covers s'.cur) {c : Config}
    {σ : InterpState} {v v' : Value} (hh : K.Here s.cur.code.length s.cur c σ)
    (hreg : K.site.reg c subj = some v') (hv : K.value v' v) :
    K.site.Sim K.raise c (fun found c' σ' =>
      K.Here (if found then body else s'.cur.code.length) s'.cur c' σ' ∧
        K.KeepsTemps s.cur c c' ∧ K.site.reg c' subj = some v')
      (Interp.matchesAny irec v values σ) := by
  induction values generalizing s js c σ with
  | nil =>
    cases hc
    exact .pure ⟨by simpa using hh, .refl _ _, hreg⟩
  | cons e rest ih =>
    obtain ⟨hpost, hnames, -, -, -⟩ := tests_post hc ht hcl
    obtain ⟨r, s₁, eq, ra, js', hexpr, ha, rfl, hrest⟩ := compileCaseTests_cons hc
    obtain ⟨hp, hrun⟩ := hcl.ok e List.mem_cons_self s none r s₁ ht (destLive_none _) hexpr
    have hpost₁ : StmtPost s (tested s₁ subj r eq ra) := tested_post hp ha
    have hem := tested_emits s₁ subj r eq ra
    have hnames₁ : s.cur.SameNames (tested s₁ subj r eq ra).cur :=
      (hp.names (hcl.declares e List.mem_cons_self)).trans hem.names
    obtain ⟨hpost₂, -, -, -, hbounds⟩ :=
      tests_post hrest hpost₁.tidy (hcl.tail.later hpost₁.toProgress hnames₁)
    have hlen : (tested s₁ subj r eq ra).cur.code.length = s₁.cur.code.length + 2 := by
      rw [tested_code, List.length_append]
      rfl
    have hlen' := hpost₂.code.length_le
    -- The words of this value stand before all jumps, and the jumps of the later
    -- values behind its own.
    have hwords : ∀ i w, s.cur.code.length ≤ i → i < s₁.cur.code.length + 2 →
        (tested s₁ subj r eq ra).cur.code[i]? = some w → K.site.code[i]? =
          some (if i = s₁.cur.code.length + 1 then w.withTarget body else w) := by
      intro i w hi hlt hw
      rw [hcode i w hi (by omega) (getElem?_extends hpost₂.code hw)]
      have hnot : i ∉ js' := fun hmem => by
        have := (hbounds i hmem).1
        omega
      simp [hnot]
    have hcarries : K.site.Carries s₁.cur.code s.cur.code.length s₁.cur.code.length := by
      intro i hi hlt
      obtain ⟨w, hw⟩ : ∃ w, s₁.cur.code[i]? = some w := ⟨_, List.getElem?_eq_getElem hlt⟩
      have hw' : (tested s₁ subj r eq ra).cur.code[i]? = some w := by
        rw [tested_code, List.getElem?_append_left hlt, hw]
      rw [hwords i w hi (by omega) hw', if_neg (by omega), hw]
    obtain ⟨hal, -⟩ := RegisterAllocator.alloc_allocated hp.tidy.regs ha
    have htables : s₁.cur.Tables (tested s₁ subj r eq ra).cur := tested_tables hp.tidy ha
    have hcov₂ : K.site.Covers (tested s₁ subj r eq ra).cur := hcov.of_tables hpost₂.tables
    have heq : eq < K.site.frame.proto.regCount := by
      have hmax : (tested s₁ subj r eq ra).cur.regs.max = ra.max := by
        show ((ra.release r).release eq).max = ra.max
        rw [RegisterAllocator.release_max, RegisterAllocator.release_max]
      exact Nat.lt_of_lt_of_le (hal.live.lt_max hal.tidy) (hmax ▸ hcov₂.regs)
    have hhome : s₁.cur.Homeless eq := fun l hl h => hal.fresh (h ▸ (hp.tidy.locals l hl).1)
    rw [matchesAny_cons]
    refine Site.Sim.bind (hrun hcarries (hcov₂.of_tables htables) c σ hh) ?_
    rintro x c₁ σ₁ ⟨⟨hat₁, hst₁⟩, ⟨x', hx', hval⟩, hkeep⟩
    -- The subject is still in its register.
    have hsubj₁ : K.site.reg c₁ subj = some v' :=
      (hkeep subj hs (by simp) (hcl.subject e List.mem_cons_self)).trans hreg
    have hne : eq ≠ subj := fun h => hal.fresh (h ▸ hp.live subj hs)
    have hle := hp.code.length_le
    have hword : K.site.code[s₁.cur.code.length]? = some ⟨.eq, eq, subj, r⟩ := by
      rw [hwords _ ⟨.eq, eq, subj, r⟩ hle (by omega) (by simp [tested_code]), if_neg (by omega)]
    have hword' : K.site.code[s₁.cur.code.length + 1]? =
        some (Instruction.withTarget ⟨.jumpIfTrue, eq, 0, 0⟩ body) := by
      rw [hwords _ ⟨.jumpIfTrue, eq, 0, 0⟩ (by omega) (by omega) (by simp [tested_code]),
        if_pos rfl]
    obtain ⟨c₂, hstep, hstep'⟩ := test_steps hat₁ hword hword' heq hsubj₁ hx'
    rw [K.eq hv hval] at hstep'
    refine .step hstep (.step hstep' ?_)
    -- Where the machine is now, whatever the test said.
    have hhere : ∀ t, K.Here t (tested s₁ subj r eq ra).cur (K.site.jump t
        (K.site.write eq (.bool (v.eq x)) (K.site.jump (s₁.cur.code.length + 1) c₁))) σ₁ :=
      fun t => ⟨((hat₁.jump _).write _ _).jump t,
        K.names hem.names (K.jump t (K.write _ hhome (K.jump _ hst₁)))⟩
    have hregs : ∀ t q, q ≠ eq → K.site.reg (K.site.jump t
        (K.site.write eq (.bool (v.eq x)) (K.site.jump (s₁.cur.code.length + 1) c₁))) q =
          K.site.reg c₁ q := fun t q hq => by
      rw [Site.reg_jump, Site.reg_write_of_ne (Ne.symm hq), Site.reg_jump]
    have hkeeps : ∀ t, K.KeepsTemps s.cur c (K.site.jump t
        (K.site.write eq (.bool (v.eq x)) (K.site.jump (s₁.cur.code.length + 1) c₁))) := by
      intro t q hq hn
      rw [hregs t q fun h => hal.fresh (h ▸ hp.live q hq)]
      exact hkeep.temps q hq hn
    cases hb : v.eq x with
    | true =>
      rw [hb] at hhere hregs hkeeps
      refine .pure ⟨⟨(hhere body).1, ?_⟩, hkeeps body, (hregs _ _ hne.symm).trans hsubj₁⟩
      exact K.names (hnames₁.symm.trans hnames) (hhere body).2
    | false =>
      rw [hb] at hhere hregs hkeeps
      have hstart : K.Here (tested s₁ subj r eq ra).cur.code.length (tested s₁ subj r eq ra).cur
          (K.site.jump (s₁.cur.code.length + 2)
            (K.site.write eq (.bool false) (K.site.jump (s₁.cur.code.length + 1) c₁))) σ₁ := by
        rw [hlen]
        exact hhere _
      refine (ih hrest hpost₁.tidy (hpost₁.live subj hs) (hcl.tail.later hpost₁.toProgress hnames₁) ?_
        hstart ((hregs _ _ hne.symm).trans hsubj₁)).mono ?_ fun _ _ _ h => h
      · intro i w hi hlt hw
        rw [hcode i w (Nat.le_trans hpost₁.code.length_le hi) hlt hw]
        have hne : i ≠ s₁.cur.code.length + 1 := by omega
        simp [hne]
      · rintro found c' σ' ⟨hh', hk', hr'⟩
        exact ⟨hh', (hkeeps _).trans hpost₁.toKeepsLife hk', hr'⟩

end Tests

/-! ## The tests of all cases -/

/-- The last entry without values. -/
def lastDefault {α : Type} : Option α → List (List Expr × α) → Option α
  | d, [] => d
  | d, (values, a) :: rest => lastDefault (if values.isEmpty then some a else d) rest

/-- The word at address `i` once the bodies have patched the jumps of their
tests. -/
def Instruction.aim (i : Nat) (w : Instruction) : List (List Nat) → List Nat → Instruction
  | js :: entries, ip :: ips => if i ∈ js then w.withTarget ip else w.aim i entries ips
  | _, _ => w

omit [DoubleOps] in
theorem Instruction.aim_of_notMem {i : Nat} (w : Instruction) :
    ∀ {entries : List (List Nat)} (ips : List Nat), i ∉ entries.flatten → w.aim i entries ips = w
  | [], _, _ => rfl
  | _ :: _, [], _ => rfl
  | js :: entries, ip :: ips, h => by
    simp only [List.flatten_cons, List.mem_append, not_or] at h
    rw [Instruction.aim, if_neg h.1]
    exact w.aim_of_notMem ips h.2

section Cases

variable {cases : List (List Expr × Block)} {s s' : CompilerState} {subj : Nat}
  {entries : List (List Nat)}

/-- The tests of all cases, in order. -/
abbrev compileTests (rec : Rec) (subj : Nat) (cases : List (List Expr × Block)) :
    Compile (List (List Nat)) :=
  mapEach cases fun c => compileCaseTests rec subj c.1

theorem allTests_post (hc : compileTests rec subj cases s = .ok entries s') (ht : s.cur.Tidy)
    (hcl : TestsClean K env rec irec s subj (cases.flatMap Prod.fst)) :
    StmtPost s s' ∧ s.cur.SameNames s'.cur ∧ s'.cur.loopStack = s.cur.loopStack ∧
      entries.flatten.Pairwise (· < ·) ∧
      (∀ j ∈ entries.flatten, s.cur.code.length ≤ j ∧ j < s'.cur.code.length) ∧
      List.Forall₂ (fun c js => c.1 = [] → js = []) cases entries := by
  induction cases generalizing s entries with
  | nil =>
    cases hc
    exact ⟨.refl ht, .refl _, rfl, .nil, by simp, .nil⟩
  | cons k rest ih =>
    obtain ⟨js, s₁, entries', hone, hrest, rfl⟩ := mapEach_cons_ok.mp hc
    have hcl₁ : TestsClean K env rec irec s subj k.1 := hcl.subset (by simp)
    obtain ⟨hpost, hnames, hloops, hsorted, hbounds⟩ := tests_post hone ht hcl₁
    have hcl₂ : TestsClean K env rec irec s subj (rest.flatMap Prod.fst) := hcl.subset (by simp)
    obtain ⟨hpost', hnames', hloops', hsorted', hbounds', hempty⟩ :=
      ih hrest hpost.tidy (hcl₂.later hpost.toProgress hnames)
    have h₁ := hpost.length
    have h₂ := hpost'.length
    refine ⟨hpost.trans hpost', hnames.trans hnames', hloops'.trans hloops, ?_, ?_, .cons ?_ hempty⟩
    · refine List.pairwise_append.mpr ⟨hsorted, hsorted', fun j hj j' hj' => ?_⟩
      have := (hbounds j hj).2
      have := (hbounds' j' hj').1
      omega
    · intro j hj
      rcases List.mem_append.mp hj with hj | hj
      · have := hbounds j hj
        omega
      · have := hbounds' j hj
        omega
    · intro hk
      rw [hk] at hone
      cases hone
      rfl

/-- The machine tests the cases in order: it runs the body of the first that
matches, and is behind all tests when there is none. -/
theorem cases_sim {ips : List Nat} {exit : Signal → Config → InterpState → Prop}
    {Q : Unit → Config → InterpState → Prop} {s₀ : CompilerState} {c₀ : Config} {v v' : Value}
    {dflt : Option Block} (hc : compileTests rec subj cases s = .ok entries s')
    (ht : s.cur.Tidy) (hs : s.cur.regs.Live subj)
    (hcl : TestsClean K env rec irec s subj (cases.flatMap Prod.fst))
    (hcode : ∀ i w, s.cur.code.length ≤ i → i < s'.cur.code.length → s'.cur.code[i]? = some w →
      K.site.code[i]? = some (w.aim i entries ips))
    (hcov : K.site.Covers s'.cur) (hp₀ : Progress s₀ s)
    (hraise : ∀ e c σ, K.raise e c σ → exit e c σ)
    (hbodies : List.Forall₂ (fun k ip => ∀ c σ, K.Here ip s'.cur c σ → K.KeepsTemps s₀.cur c₀ c →
      K.site.Sim exit c Q (Interp.runCase irec k.2 σ)) cases ips)
    (hend : ∀ c σ, K.Here s'.cur.code.length s'.cur c σ → K.KeepsTemps s₀.cur c₀ c →
      K.site.Sim exit c Q (Interp.switchFrom irec v [] (lastDefault dflt cases) σ))
    {c : Config} {σ : InterpState} (hh : K.Here s.cur.code.length s.cur c σ)
    (hk : K.KeepsTemps s₀.cur c₀ c) (hreg : K.site.reg c subj = some v') (hv : K.value v' v) :
    K.site.Sim exit c Q (Interp.switchFrom irec v cases dflt σ) := by
  induction cases generalizing s entries ips dflt c σ with
  | nil =>
    cases hc
    exact hend c σ hh hk
  | cons k rest ih =>
    obtain ⟨values, body⟩ := k
    obtain ⟨js, s₁, entries', hone, hrest, rfl⟩ := mapEach_cons_ok.mp hc
    obtain ⟨ip, ips', hbody, hbodies', rfl⟩ := List.forall₂_cons_left_iff.mp hbodies
    have hcl₁ : TestsClean K env rec irec s subj values := hcl.subset (by simp)
    have hcl₂ : TestsClean K env rec irec s subj (rest.flatMap Prod.fst) := hcl.subset (by simp)
    obtain ⟨hpost, hnames, -, -, hbounds⟩ := tests_post hone ht hcl₁
    obtain ⟨hpost', hnames', -, -, hbounds', -⟩ :=
      allTests_post hrest hpost.tidy (hcl₂.later hpost.toProgress hnames)
    have hcode₁ : CarriesTests K s s₁ js ip := by
      intro i w hi hlt hw
      have hlt' := hpost'.length
      rw [hcode i w hi (by omega) (getElem?_extends hpost'.code hw), Instruction.aim]
      have hnot : i ∉ entries'.flatten := fun hmem => by
        have := (hbounds' i hmem).1
        omega
      rw [w.aim_of_notMem _ hnot]
    have hcode₂ : ∀ i w, s₁.cur.code.length ≤ i → i < s'.cur.code.length →
        s'.cur.code[i]? = some w → K.site.code[i]? = some (w.aim i entries' ips') := by
      intro i w hi hlt hw
      rw [hcode i w (Nat.le_trans hpost.length hi) hlt hw, Instruction.aim, if_neg]
      intro hmem
      have := (hbounds i hmem).2
      omega
    have hnext : ∀ c₁ σ₁, K.Here s₁.cur.code.length s₁.cur c₁ σ₁ → K.KeepsTemps s₀.cur c₀ c₁ →
        K.site.reg c₁ subj = some v' → K.site.Sim exit c₁ Q
          (Interp.switchFrom irec v rest (if values.isEmpty then some body else dflt) σ₁) :=
      fun _ _ hh₁ hk₁ hreg₁ => ih hrest hpost.tidy (hpost.live subj hs)
        (hcl₂.later hpost.toProgress hnames) hcode₂ (hp₀.trans hpost.toProgress) hbodies' hend
        hh₁ hk₁ hreg₁
    have hsim := tests_sim hone ht hs hcl₁ hcode₁ (hcov.of_tables hpost'.tables) hh hreg hv
    unfold Interp.switchFrom
    by_cases hval : values.isEmpty
    · -- A default has no tests.
      obtain rfl : values = [] := List.isEmpty_iff.mp hval
      cases hone
      rw [if_pos hval]
      exact hnext c σ hh hk hreg
    · rw [if_neg hval] at hnext ⊢
      refine Site.Sim.bind (hsim.mono (fun _ _ _ h => h) hraise) ?_
      rintro found c₁ σ₁ ⟨hh₁, hk₁, hreg₁⟩
      have hkeep : K.KeepsTemps s₀.cur c₀ c₁ := hk.trans hp₀.toKeepsLife hk₁
      cases found with
      | true => exact hbody c₁ σ₁ ⟨hh₁.1, K.names hnames' hh₁.2⟩ hkeep
      | false => exact hnext c₁ σ₁ hh₁ hkeep hreg₁

end Cases

/-! ## The bodies -/

/-- The compiler has given the jumps `js` the target `t`. -/
def patched (s : CompilerState) (js : List Nat) (t : Nat) : CompilerState :=
  { s with cur := { s.cur with code := patchCode s.cur.code js t } }

/-- The compiler stands where a body begins in `p` and behind it in `b`, and has
gone on to `fin`: the words of the body are still there, and a jump behind
them. -/
structure BodyAt (rec : Rec) (s fin : CompilerState) (body : Block) (ip stop : Nat)
    (p b : CompilerState) : Prop where
  compiled : compileBlock rec body p = .ok () b
  starts : p.cur.code.length = ip
  stops : b.cur.code.length = stop
  before : Progress s p
  names : s.cur.SameNames p.cur
  behind : Progress (b.push ⟨.jump, 0, 0, 0⟩ .plain) fin
  words : ∀ i, ip ≤ i → i < stop → fin.cur.code[i]? = b.cur.code[i]?
  stopWord : fin.cur.code[stop]? = some ⟨.jump, 0, 0, 0⟩

section Bodies

omit [DoubleOps] in
theorem patched_emits (s : CompilerState) (js : List Nat) (t : Nat) : s.Emits (patched s js t) :=
  ⟨_, _, _, _, _, List.prefix_refl _, rfl⟩

omit [DoubleOps] in
theorem patched_progress {s : CompilerState} (ht : s.cur.Tidy) (js : List Nat) (t : Nat) :
    Progress s (patched s js t) :=
  (patched_emits s js t).progress ht (Nat.le_of_eq (length_patchCode js t _).symm) ht.regs
    (Nat.le_refl _) ⟨rfl, rfl, rfl⟩ fun _ h => h

omit [DoubleOps] in
theorem push_post {s : CompilerState} (ht : s.cur.Tidy) (w : Instruction) (o : Origin) :
    StmtPost s (s.push w o) := by
  have hcode : s.cur.code <+: (s.push w o).cur.code := List.prefix_append _ _
  exact { ((CompilerState.Emits.refl s).push w o).progress ht hcode.length_le ht.regs
    (Nat.le_refl _) ⟨rfl, rfl, rfl⟩ fun _ h => h with code := hcode }

omit [DoubleOps] in
theorem compileCaseBody_ok {noMatch j : Nat} {values : List Expr} {jumps : List Nat} {body : Block}
    {s s' : CompilerState} (h : compileCaseBody rec noMatch values jumps body s = .ok j s') :
    ∃ b, compileBlock rec body
        (patched s (if values.isEmpty then [noMatch] else jumps) s.cur.code.length) = .ok () b ∧
      j = b.cur.code.length ∧ s' = b.push ⟨.jump, 0, 0, 0⟩ .plain := by
  obtain ⟨ip, s₁, hip, h⟩ := bind_eq_ok.mp h
  cases hip
  have hblock : ∀ s₂, (do pushScope; forEach body rec.stmt; popScope; emitJump .jump) s₂ =
      .ok j s' → ∃ b, compileBlock rec body s₂ = .ok () b ∧ j = b.cur.code.length ∧
        s' = b.push ⟨.jump, 0, 0, 0⟩ .plain := by
    intro s₂ h₂
    obtain ⟨u, s₃, hpush, h₂⟩ := bind_eq_ok.mp h₂
    obtain ⟨u', s₄, hstmts, h₂⟩ := bind_eq_ok.mp h₂
    obtain ⟨u'', s₅, hpop, h₂⟩ := bind_eq_ok.mp h₂
    cases h₂
    exact ⟨s₅, bind_eq_ok.mpr ⟨u, s₃, hpush, bind_eq_ok.mpr ⟨u', s₄, hstmts, hpop⟩⟩, rfl, rfl⟩
  split at h
  · rename_i hv
    obtain ⟨u, s₂, hpatch, hrest⟩ := bind_eq_ok.mp h
    rw [patchJump_ok hpatch] at hrest
    rw [if_pos hv]
    exact hblock _ hrest
  · rename_i hv
    obtain ⟨u, s₂, hpatch, hrest⟩ := bind_eq_ok.mp h
    rw [patchAll_ok hpatch] at hrest
    rw [if_neg hv]
    exact hblock _ hrest

/-- The bodies of all cases, in order. -/
abbrev compileBodies (rec : Rec) (noMatch : Nat) (cases : List (List Expr × Block))
    (entries : List (List Nat)) : Compile (List Nat) :=
  mapEach (cases.zip entries) fun (c, jumps) => compileCaseBody rec noMatch c.1 jumps c.2

omit [DoubleOps] in
theorem lastDefault_eq {α : Type} (l : List (List Expr × α)) (d : Option α) :
    lastDefault d l = (lastDefault none l).or d := by
  induction l generalizing d with
  | nil => rfl
  | cons x rest ih =>
    obtain ⟨values, a⟩ := x
    rw [lastDefault, lastDefault, ih]
    cases values.isEmpty with
    | true =>
      rw [if_pos rfl, if_pos rfl, ih (some a), Option.or_assoc]
      rfl
    | false => rw [if_neg Bool.false_ne_true, if_neg Bool.false_ne_true]

omit [DoubleOps] in
theorem any_isEmpty (cases : List (List Expr × Block)) :
    cases.any (·.1.isEmpty) = (lastDefault none cases).isSome := by
  induction cases with
  | nil => rfl
  | cons k rest ih =>
    obtain ⟨values, body⟩ := k
    rw [List.any_cons, ih, lastDefault, lastDefault_eq rest (if values.isEmpty then _ else _)]
    cases values.isEmpty <;> cases lastDefault none rest <;> rfl

omit [DoubleOps] in
/-- The last default is found with its body and with the address of its body. -/
theorem lastDefault_forall₂ {P : Block → Nat → Prop} {cases : List (List Expr × Block)}
    {ips : List Nat} (h : List.Forall₂ (fun k ip => P k.2 ip) cases ips) :
    (lastDefault none cases = none ∧ lastDefault none ((cases.map Prod.fst).zip ips) = none) ∨
      ∃ body ip, lastDefault none cases = some body ∧
        lastDefault none ((cases.map Prod.fst).zip ips) = some ip ∧ P body ip := by
  induction h with
  | nil => exact .inl ⟨rfl, rfl⟩
  | @cons k ip rest ips hk _ ih =>
    obtain ⟨values, body⟩ := k
    simp only [List.map_cons, List.zip_cons_cons, lastDefault]
    rw [lastDefault_eq rest, lastDefault_eq ((rest.map Prod.fst).zip ips)]
    rcases ih with ⟨h₁, h₂⟩ | ⟨body', ip', h₁, h₂, hP⟩
    · rw [h₁, h₂]
      cases values.isEmpty with
      | true => exact .inr ⟨body, ip, rfl, rfl, hk⟩
      | false => exact .inl ⟨rfl, rfl⟩
    · rw [h₁, h₂]
      exact .inr ⟨body', ip', rfl, rfl, hP⟩

omit [DoubleOps] in
theorem exists_of_forall₂ {α β : Type} {R : α → β → Prop} {as : List α} {bs : List β}
    (h : List.Forall₂ R as bs) {b : β} (hb : b ∈ bs) : ∃ a ∈ as, R a b := by
  induction h with
  | nil => cases hb
  | @cons a b' _ _ hab _ ih =>
    rcases List.mem_cons.mp hb with rfl | hb
    · exact ⟨a, List.mem_cons_self, hab⟩
    · obtain ⟨a', ha', h'⟩ := ih hb
      exact ⟨a', List.mem_cons_of_mem _ ha', h'⟩

omit [DoubleOps] in
theorem forall₂_mem {α β : Type} {R S : α → β → Prop} {as : List α} {bs : List β}
    (h : List.Forall₂ R as bs) (hS : ∀ a ∈ as, ∀ b ∈ bs, R a b → S a b) : List.Forall₂ S as bs := by
  induction h with
  | nil => exact .nil
  | @cons a b as' bs' hab _ ih =>
    refine .cons (hS a List.mem_cons_self b List.mem_cons_self hab) (ih fun a' ha' b' hb' => ?_)
    exact hS a' (List.mem_cons_of_mem _ ha') b' (List.mem_cons_of_mem _ hb')

/-- What compiling the bodies does: where each body stands, and which target the
jumps of the tests have. -/
structure BodiesPost (rec : Rec) (noMatch low : Nat) (cases : List (List Expr × Block))
    (entries : List (List Nat)) (s s' : CompilerState) (spots : List (Nat × Nat)) : Prop where
  progress : Progress s s'
  names : s.cur.SameNames s'.cur
  kept : ∀ i, low ≤ i → i < s.cur.code.length → s'.cur.code[i]? = s.cur.code[i]?
  bodies : List.Forall₂ (fun k x => s.cur.code.length ≤ x.1 ∧ x.1 ≤ x.2 ∧
    x.2 < s'.cur.code.length ∧ ∃ p b, BodyAt rec s s' k.2 x.1 x.2 p b) cases spots
  ends : ∀ x ∈ spots, ∀ y ∈ spots, y.2 < x.1 ∨ x.2 ≤ y.2
  aimed : ∀ i w, i ≠ noMatch → i < low → s.cur.code[i]? = some w →
    s'.cur.code[i]? = some (w.aim i entries (spots.map Prod.fst))
  noMatch : ∀ w, s.cur.code[noMatch]? = some w → s'.cur.code[noMatch]? = some
    (match lastDefault none ((cases.map Prod.fst).zip (spots.map Prod.fst)) with
      | some t => w.withTarget t
      | none => w)

theorem bodies_post {noMatch low : Nat} {cases : List (List Expr × Block)}
    {entries : List (List Nat)} {ends : List Nat} {s s' : CompilerState}
    (hc : compileBodies rec noMatch cases entries s = .ok ends s') (ht : s.cur.Tidy)
    (hok : ∀ k ∈ cases, BlockOk K rec irec s.cur.pendingFinally k.2)
    (hempty : List.Forall₂ (fun k js => k.1 = [] → js = []) cases entries)
    (hlow : low ≤ s.cur.code.length) (hno : noMatch < low)
    (hbounds : ∀ j ∈ entries.flatten, j < noMatch) (hsorted : entries.flatten.Pairwise (· < ·)) :
    ∃ spots, ends = spots.map Prod.snd ∧
      BodiesPost rec noMatch low cases entries s s' spots := by
  induction hempty generalizing s ends with
  | nil =>
    cases hc
    refine ⟨[], rfl, .refl ht, .refl _, fun _ _ _ => rfl, .nil, by simp, ?_, ?_⟩
    · exact fun i w _ _ hw => hw
    · exact fun w hw => hw
  | @cons k js rest entries' hjs hrest ih =>
    obtain ⟨values, body⟩ := k
    obtain ⟨j, s₁, ends', hone, hmore, rfl⟩ := mapEach_cons_ok.mp hc
    obtain ⟨b, hblock, rfl, rfl⟩ := compileCaseBody_ok hone
    set J := if values.isEmpty then [noMatch] else js with hJ
    set p := patched s J s.cur.code.length with hp
    have hlen : p.cur.code.length = s.cur.code.length := length_patchCode _ _ _
    have hprog : Progress s p := patched_progress ht _ _
    have hblockOk := hok (values, body) List.mem_cons_self
    obtain ⟨hpost, hnames, -⟩ := hblockOk p b hprog.tidy hprog.finallys hblock
    have hpush : StmtPost b (b.push ⟨.jump, 0, 0, 0⟩ .plain) := push_post hpost.tidy _ _
    simp only [List.flatten_cons, List.mem_append] at hbounds
    rw [List.flatten_cons, List.pairwise_append] at hsorted
    have hlenb := hpost.length
    have hlen₁ : (b.push ⟨.jump, 0, 0, 0⟩ .plain).cur.code.length = b.cur.code.length + 1 := by
      simp [CompilerState.push, FunctionCompiler.pushUnit]
    have hfinallys : (b.push ⟨.jump, 0, 0, 0⟩ .plain).cur.pendingFinally = s.cur.pendingFinally :=
      hpush.finallys.trans (hpost.finallys.trans hprog.finallys)
    obtain ⟨spots, rfl, hB⟩ := ih hmore hpush.tidy
      (fun k hk => hfinallys ▸ hok k (List.mem_cons_of_mem _ hk))
      (by omega) (fun j hj => hbounds j (.inr hj)) hsorted.2.1
    have hJlow : ∀ i ∈ J, i < low := by
      intro i hi
      rw [hJ] at hi
      split at hi
      · obtain rfl : i = noMatch := by simpa using hi
        exact hno
      · exact Nat.lt_trans (hbounds i (.inl hi)) hno
    -- Up to where the body begins, only the patched jumps have changed.
    have hold : ∀ i, i < s.cur.code.length →
        (b.push ⟨.jump, 0, 0, 0⟩ .plain).cur.code[i]? = p.cur.code[i]? := by
      intro i hi
      have hget := List.getElem?_eq_getElem (l := p.cur.code) (i := i) (by omega)
      rw [getElem?_extends hpush.code (getElem?_extends hpost.code hget), hget]
    have hword : ∀ i, p.cur.code[i]? = if i ∈ J then
        s.cur.code[i]?.map (Instruction.withTarget · s.cur.code.length) else s.cur.code[i]? :=
      fun i => getElem?_patchCode J _ i _
    have hprog₁ : Progress s (b.push ⟨.jump, 0, 0, 0⟩ .plain) :=
      (hprog.trans hpost.toProgress).trans hpush.toProgress
    have hnames₁ : s.cur.SameNames (b.push ⟨.jump, 0, 0, 0⟩ .plain).cur :=
      ((patched_emits s J _).names.trans hnames).trans
        ((CompilerState.Emits.refl b).push _ _).names
    have hlen' := hB.progress.length
    refine ⟨(s.cur.code.length, b.cur.code.length) :: spots, rfl, hprog₁.trans hB.progress,
      hnames₁.trans hB.names, ?_, .cons ?_ ?_, ?_, ?_, ?_⟩
    · intro i hi hlt
      rw [hB.kept i hi (by omega), hold i hlt, hword, if_neg]
      exact fun hmem => absurd (hJlow i hmem) (by omega)
    · refine ⟨Nat.le_refl _, by omega, by omega, p, b, hblock, hlen, rfl, hprog,
        (patched_emits s J _).names, hB.progress, fun i hi hlt => ?_, ?_⟩
      · have hget := List.getElem?_eq_getElem (l := b.cur.code) (i := i) hlt
        rw [hB.kept i (by omega) (by omega), getElem?_extends hpush.code hget, hget]
      · rw [hB.kept _ (by omega) (by omega)]
        simp [CompilerState.push, FunctionCompiler.pushUnit]
    · refine hB.bodies.imp fun k x hx => ?_
      obtain ⟨h₁, h₂, h₃, p', b', hbody⟩ := hx
      exact ⟨by omega, h₂, h₃, p', b', { hbody with
        before := hprog₁.trans hbody.before, names := hnames₁.trans hbody.names }⟩
    · have hlater : ∀ x ∈ spots, b.cur.code.length < x.1 ∧ x.1 ≤ x.2 := by
        intro x hx
        obtain ⟨k, -, h₁, h₂, -⟩ := exists_of_forall₂ hB.bodies hx
        exact ⟨by omega, h₂⟩
      intro x hx y hy
      rcases List.mem_cons.mp hx with rfl | hx <;> rcases List.mem_cons.mp hy with rfl | hy
      · exact .inr (Nat.le_refl _)
      · have := hlater y hy
        exact .inr (by simp only; omega)
      · exact .inl (hlater x hx).1
      · exact hB.ends x hx y hy
    · intro i w hi hlt hw
      have hlast := hB.aimed i (if i ∈ J then w.withTarget s.cur.code.length else w) hi hlt
        (by rw [hold i (by omega), hword, hw]; split <;> rfl)
      rw [hlast, List.map_cons, Instruction.aim]
      by_cases hmem : i ∈ js
      · have hJmem : i ∈ J := by
          have hv : values ≠ [] := fun hv => by simp [hjs hv] at hmem
          rw [hJ, if_neg (by simpa using hv)]
          exact hmem
        have hnot : i ∉ entries'.flatten := fun hmem' =>
          Nat.lt_irrefl i (hsorted.2.2 i hmem i hmem')
        rw [if_pos hmem, if_pos hJmem, Instruction.aim_of_notMem _ _ hnot]
      · have hJmem : i ∉ J := by
          rw [hJ]
          split
          · simpa using hi
          · exact hmem
        rw [if_neg hmem, if_neg hJmem]
    · intro w hw
      have hnot : noMatch ∉ js := fun hmem => Nat.lt_irrefl _ (hbounds noMatch (.inl hmem))
      rw [hB.noMatch (if noMatch ∈ J then w.withTarget s.cur.code.length else w)
        (by rw [hold _ (by omega), hword, hw]; split <;> rfl)]
      simp only [List.map_cons, List.zip_cons_cons, lastDefault]
      rw [lastDefault_eq _ (if values.isEmpty then some s.cur.code.length else none)]
      cases lastDefault none ((rest.map Prod.fst).zip (spots.map Prod.fst)) with
      | some t =>
        rw [Option.some_or]
        by_cases hmem : noMatch ∈ J <;> simp [hmem]
      | none =>
        rw [Option.none_or, hJ]
        cases values.isEmpty with
        | true => simp
        | false => simp [hnot]

end Bodies

/-! ## The statement -/

/-- The compiler behind the tests: the jump for no match, and the context of the
bodies. -/
def enterSwitch (s : CompilerState) : CompilerState :=
  { s.push ⟨.jump, 0, 0, 0⟩ .plain with
    cur := { (s.push ⟨.jump, 0, 0, 0⟩ .plain).cur with
      loopStack := { isSwitch := true, finallyFloor := s.cur.pendingFinally.length } ::
        s.cur.loopStack } }

/-- The jumps of the `break` statements in the bodies. -/
def switchBreaks (s : CompilerState) : List Nat :=
  (s.cur.loopStack.head?.map LoopContext.breakPatches).getD []

/-- The compiler behind the bodies: the jumps out of the `switch` get their
target. -/
def leaveSwitch (s : CompilerState) (subj noMatch : Nat) (hasDefault : Bool) (ends : List Nat) :
    CompilerState :=
  let after := s.cur.code.length
  let code := if hasDefault then s.cur.code else patchCode s.cur.code [noMatch] after
  { s with cur := { s.cur with
      loopStack := s.cur.loopStack.tail
      code := patchCode (patchCode code ends after) (switchBreaks s) after
      regs := s.cur.regs.release subj } }

section Statement

variable {subject : Expr} {cases : List (List Expr × Block)} {s s' : CompilerState}

omit [DoubleOps] in
theorem compileSwitch_ok (h : compileSwitch rec subject cases s = .ok () s') :
    ∃ subj s₁ entries s₂ ends s₄, rec.expr subject none s = .ok subj s₁ ∧
      compileTests rec subj cases s₁ = .ok entries s₂ ∧
      compileBodies rec s₂.cur.code.length cases entries (enterSwitch s₂) = .ok ends s₄ ∧
      s' = leaveSwitch s₄ subj s₂.cur.code.length (cases.any (·.1.isEmpty)) ends := by
  obtain ⟨subj, s₁, hexpr, h⟩ := bind_eq_ok.mp h
  obtain ⟨entries, s₂, htests, h⟩ := bind_eq_ok.mp h
  obtain ⟨noMatch, s₃, hjump, h⟩ := bind_eq_ok.mp h
  cases hjump
  obtain ⟨floor, s₃, hfloor, h⟩ := bind_eq_ok.mp h
  cases hfloor
  obtain ⟨u, s₃, hctx, h⟩ := bind_eq_ok.mp h
  cases hctx
  obtain ⟨ends, s₄, hbodies, h⟩ := bind_eq_ok.mp h
  obtain ⟨breaks, s₅, hbreaks, h⟩ := bind_eq_ok.mp h
  cases hbreaks
  obtain ⟨u, s₅, hpop, h⟩ := bind_eq_ok.mp h
  cases hpop
  obtain ⟨after, s₅, hafter, h⟩ := bind_eq_ok.mp h
  cases hafter
  refine ⟨subj, s₁, entries, s₂, ends, s₄, hexpr, htests, hbodies, ?_⟩
  have hlast : ∀ s₅, (do
      patchAll ends s₄.cur.code.length
      patchAll (switchBreaks s₄) s₄.cur.code.length
      freeTemp subj : Compile Unit) s₅ = .ok () s' →
      s' = { s₅ with cur := { s₅.cur with
        code := patchCode (patchCode s₅.cur.code ends s₄.cur.code.length) (switchBreaks s₄)
          s₄.cur.code.length
        regs := s₅.cur.regs.release subj } } := by
    intro s₅ h₅
    obtain ⟨u, s₆, hends, h₅⟩ := bind_eq_ok.mp h₅
    obtain ⟨u, s₇, hbreaks, h₅⟩ := bind_eq_ok.mp h₅
    cases patchAll_ok hends
    cases patchAll_ok hbreaks
    cases h₅
    rfl
  split at h
  · rename_i hnone
    obtain ⟨u, s₆, hpatch, hrest⟩ := bind_eq_ok.mp h
    cases patchJump_ok hpatch
    have hany : cases.any (·.1.isEmpty) = false := by simpa using hnone
    rw [hany]
    exact hlast _ hrest
  · rename_i hsome
    have hany : cases.any (·.1.isEmpty) = true := by simpa using hsome
    rw [hany]
    exact hlast _ h

/-- The case expressions declare no variable, and when the subject is a local in
a register none of them assigns the variable in that register. -/
structure SwitchClean (env : SourceEnv) (s : CompilerState) (subject : Expr)
    (cases : List (List Expr × Block)) : Prop where
  declares : ∀ v ∈ cases.flatMap Prod.fst, ∀ n, Assigns env n v → s.declares n = false
  subject : ∀ x q, subject = .var x → s.cur.lookupVar x = some (.register q) →
    ∀ v ∈ cases.flatMap Prod.fst, ∀ n, Assigns env n v → s.cur.lookupVar n ≠ some (.register q)

/-- How the code of a `switch` is laid out: the subject up to `s₁`, the tests up
to `s₂`, the bodies at `spots` up to `s₄`. -/
structure SwitchLayout (K : Correspondence) (env : SourceEnv) (rec : Rec) (irec : InterpRec)
    (subject : Expr) (cases : List (List Expr × Block)) (s s₁ s₂ s₄ s' : CompilerState)
    (subj : Nat) (entries : List (List Nat)) (spots : List (Nat × Nat)) : Prop where
  start : s.cur.Tidy
  subjectPost : ExprPost env subject none s s₁ subj
  subjectRuns : ExprRuns K env irec subject none s.cur s₁.cur subj
  tests : compileTests rec subj cases s₁ = .ok entries s₂
  clean : TestsClean K env rec irec s₁ subj (cases.flatMap Prod.fst)
  testsPost : StmtPost s₁ s₂
  testsNames : s₁.cur.SameNames s₂.cur
  loops : s₂.cur.loopStack = s.cur.loopStack
  jumps : ∀ j ∈ entries.flatten, s₁.cur.code.length ≤ j ∧ j < s₂.cur.code.length
  bodies : BodiesPost rec s₂.cur.code.length (s₂.cur.code.length + 1) cases entries
    (enterSwitch s₂) s₄ spots
  done : s' = leaveSwitch s₄ subj s₂.cur.code.length (cases.any (·.1.isEmpty))
    (spots.map Prod.snd)

/-- What is assumed of the parts of the statement. -/
structure SwitchParts (K : Correspondence) (env : SourceEnv) (rec : Rec) (irec : InterpRec)
    (finallys : List PendingFinally) (subject : Expr) (cases : List (List Expr × Block)) :
    Prop where
  subject : ExprOk K env rec irec subject
  values : ∀ k ∈ cases, ∀ v ∈ k.1, ExprOk K env rec irec v
  bodies : ∀ k ∈ cases, BlockOk K rec irec finallys k.2

theorem SwitchClean.tests {subj : Nat} {s₁ : CompilerState}
    {finallys : List PendingFinally} (hcl : SwitchClean env s subject cases)
    (hparts : SwitchParts K env rec irec finallys subject cases)
    (hp : ExprPost env subject none s s₁ subj) :
    TestsClean K env rec irec s₁ subj (cases.flatMap Prod.fst) where
  ok := fun v hv => by
    obtain ⟨k, hk, hv⟩ := List.mem_flatMap.mp hv
    exact hparts.values k hk v hv
  declares := fun v hv n ha => hp.settled n (hcl.declares v hv n ha)
  subject := fun v hv n ha hl => by
    rcases hp.fresh rfl with ⟨-, hhome⟩ | ⟨x, rfl, hx⟩
    · obtain ⟨l, hmem, hreg⟩ := FunctionCompiler.mem_of_lookupVar hl
      exact hhome l hmem hreg
    · -- A bare variable declares nothing, so the names are those from before.
      have hnames : s.cur.SameNames s₁.cur := hp.names fun n hn => by cases hn
      exact hcl.subject x subj rfl hx v hv n ha (hnames.lookupVar.mp hl)

omit [DoubleOps] in
theorem enterSwitch_tidy (ht : s.cur.Tidy) : (enterSwitch s).cur.Tidy where
  regs := ht.regs
  locals := ht.locals
  depths := ht.depths
  nodup := ht.nodup
  pending := fun i hi => by
    have hlt : i < s.cur.code.length := ht.pending i hi
    show i < (s.push ⟨.jump, 0, 0, 0⟩ .plain).cur.code.length
    simp only [CompilerState.push, FunctionCompiler.pushUnit, List.length_append]
    omega
  switches := fun ctx hctx hsw => by
    rcases List.mem_cons.mp hctx with rfl | hctx
    · rfl
    · exact ht.switches ctx hctx hsw

omit [DoubleOps] in
theorem enterSwitch_names (s : CompilerState) : s.cur.SameNames (enterSwitch s).cur :=
  ⟨rfl, fun _ _ => .rfl⟩

omit [DoubleOps] in
theorem enterSwitch_tables (s : CompilerState) : s.cur.Tables (enterSwitch s).cur :=
  ⟨List.prefix_refl _, List.prefix_refl _, Nat.le_refl _⟩

omit [DoubleOps] in
theorem enterSwitch_code (s : CompilerState) :
    (enterSwitch s).cur.code = s.cur.code ++ [⟨.jump, 0, 0, 0⟩] := by
  simp [enterSwitch, CompilerState.push, FunctionCompiler.pushUnit]

theorem SwitchLayout.of_ok
    (hparts : SwitchParts K env rec irec s.cur.pendingFinally subject cases)
    (hcl : SwitchClean env s subject cases) (ht : s.cur.Tidy)
    (h : compileSwitch rec subject cases s = .ok () s') :
    ∃ s₁ s₂ s₄ subj entries spots,
      SwitchLayout K env rec irec subject cases s s₁ s₂ s₄ s' subj entries spots := by
  obtain ⟨subj, s₁, entries, s₂, ends, s₄, hexpr, htests, hbodies, hdone⟩ := compileSwitch_ok h
  obtain ⟨hp, hruns⟩ := hparts.subject s none subj s₁ ht (destLive_none _) hexpr
  have hclean := hcl.tests hparts hp
  obtain ⟨hpost, hnames, hloops, hsorted, hjumps, hempty⟩ := allTests_post htests hp.tidy hclean
  have hlen : (enterSwitch s₂).cur.code.length = s₂.cur.code.length + 1 := by
    simp [enterSwitch_code]
  have hfinallys : (enterSwitch s₂).cur.pendingFinally = s.cur.pendingFinally :=
    hpost.finallys.trans hp.finallys
  obtain ⟨spots, rfl, hB⟩ := bodies_post hbodies (enterSwitch_tidy hpost.tidy)
    (hfinallys.symm ▸ hparts.bodies) hempty
    (Nat.le_of_eq hlen.symm) (Nat.lt_succ_self _) (fun j hj => (hjumps j hj).2) hsorted
  exact ⟨s₁, s₂, s₄, subj, entries, spots, ht, hp, hruns, htests, hclean, hpost, hnames,
    hloops.trans hp.loops, hjumps, hB, hdone⟩

end Statement

namespace SwitchLayout

variable {subject : Expr} {cases : List (List Expr × Block)} {s s₁ s₂ s₄ s' : CompilerState}
  {subj : Nat} {entries : List (List Nat)} {spots : List (Nat × Nat)}

/-- The context of the bodies collects `break` only, and the loops around the
`switch` get jumps from the bodies only. -/
theorem context (h : SwitchLayout K env rec irec subject cases s s₁ s₂ s₄ s' subj entries spots) :
    ∃ ctx loops, s₄.cur.loopStack = ctx :: loops ∧ s'.cur.loopStack = loops ∧
      ctx.isSwitch = true ∧ ctx.continuePatches = [] ∧ switchBreaks s₄ = ctx.breakPatches ∧
      (∀ j ∈ ctx.breakPatches, s₂.cur.code.length < j) ∧
      LoopContext.AllGrow (s₂.cur.code.length + 1) s.cur.loopStack loops := by
  have hgrow := h.bodies.progress.loops
  have hlen : (enterSwitch s₂).cur.code.length = s₂.cur.code.length + 1 := by
    simp [enterSwitch_code]
  rw [hlen] at hgrow
  obtain ⟨ctx, loops, hctx, hloops, heq⟩ := List.forall₂_cons_left_iff.mp hgrow
  refine ⟨ctx, loops, heq, ?_, hctx.isSwitch, ?_, ?_, ?_, ?_⟩
  · rw [h.done, leaveSwitch, heq]
    rfl
  · exact h.bodies.progress.tidy.switches ctx (heq ▸ List.mem_cons_self) hctx.isSwitch
  · simp [switchBreaks, heq]
  · obtain ⟨js, hjs, hbound⟩ := hctx.breaks
    intro j hj
    rw [hjs] at hj
    exact hbound j (by simpa using hj)
  · exact h.loops ▸ hloops

/-- The words of the whole statement: the jumps out of it lead behind it. -/
theorem word (h : SwitchLayout K env rec irec subject cases s s₁ s₂ s₄ s' subj entries spots)
    (i : Nat) : s'.cur.code[i]? =
      if i ∈ switchBreaks s₄ ∨ i ∈ spots.map Prod.snd ∨
          (i = s₂.cur.code.length ∧ cases.any (·.1.isEmpty) = false) then
        s₄.cur.code[i]?.map (Instruction.withTarget · s₄.cur.code.length)
      else s₄.cur.code[i]? := by
  rw [h.done]
  unfold leaveSwitch
  simp only [getElem?_patchCode]
  cases cases.any (·.1.isEmpty) with
  | true =>
    by_cases hb : i ∈ switchBreaks s₄ <;> by_cases he : i ∈ spots.map Prod.snd <;>
      simp [hb, he, Option.map_map, Function.comp_def]
  | false =>
    by_cases hb : i ∈ switchBreaks s₄ <;> by_cases he : i ∈ spots.map Prod.snd <;>
      by_cases hn : i = s₂.cur.code.length <;>
      simp [hb, he, hn, getElem?_patchCode, Option.map_map, Function.comp_def]

theorem length (h : SwitchLayout K env rec irec subject cases s s₁ s₂ s₄ s' subj entries spots) :
    s'.cur.code.length = s₄.cur.code.length := by
  rw [h.done, leaveSwitch]
  simp only [length_patchCode]
  split <;> simp [length_patchCode]

theorem lengths (h : SwitchLayout K env rec irec subject cases s s₁ s₂ s₄ s' subj entries spots) :
    s.cur.code.length ≤ s₁.cur.code.length ∧ s₁.cur.code.length ≤ s₂.cur.code.length ∧
      s₂.cur.code.length < s'.cur.code.length := by
  have hlen : (enterSwitch s₂).cur.code.length = s₂.cur.code.length + 1 := by
    simp [enterSwitch_code]
  have := h.bodies.progress.length
  have := h.length
  exact ⟨h.subjectPost.code.length_le, h.testsPost.length, by omega⟩

/-- Where the bodies begin and end. -/
theorem spot_bounds
    (h : SwitchLayout K env rec irec subject cases s s₁ s₂ s₄ s' subj entries spots)
    {x : Nat × Nat} (hx : x ∈ spots) : s₂.cur.code.length < x.1 ∧ x.1 ≤ x.2 := by
  obtain ⟨k, -, h₁, h₂, -⟩ := exists_of_forall₂ h.bodies.bodies hx
  rw [enterSwitch_code, List.length_append] at h₁
  exact ⟨h₁, h₂⟩

/-- The words of the subject and of the tests. -/
theorem early (h : SwitchLayout K env rec irec subject cases s s₁ s₂ s₄ s' subj entries spots)
    {i : Nat} {w : Instruction} (hi : i < s₂.cur.code.length) (hw : s₂.cur.code[i]? = some w) :
    s'.cur.code[i]? = some (w.aim i entries (spots.map Prod.fst)) := by
  obtain ⟨ctx, loops, -, -, -, -, hbreaks, hlow, -⟩ := h.context
  rw [h.word, if_neg]
  · refine h.bodies.aimed i w (by omega) (by omega) ?_
    rw [enterSwitch_code, List.getElem?_append_left hi, hw]
  · rintro (hb | he | ⟨hn, -⟩)
    · rw [hbreaks] at hb
      have := hlow i hb
      omega
    · obtain ⟨x, hx, rfl⟩ := List.mem_map.mp he
      have := h.spot_bounds hx
      omega
    · omega

/-- The words of the subject are as the compiler emitted them. -/
theorem early_subject
    (h : SwitchLayout K env rec irec subject cases s s₁ s₂ s₄ s' subj entries spots)
    {i : Nat} {w : Instruction} (hw : s₁.cur.code[i]? = some w) : s'.cur.code[i]? = some w := by
  have hi : i < s₁.cur.code.length := (List.getElem?_eq_some_iff.mp hw).1
  have hlt := h.lengths
  rw [h.early (by omega) (getElem?_extends h.testsPost.code hw), Instruction.aim_of_notMem]
  intro hmem
  have := (h.jumps i hmem).1
  omega

/-- The subject is still in its register behind the bodies. -/
theorem subject_live
    (h : SwitchLayout K env rec irec subject cases s s₁ s₂ s₄ s' subj entries spots) :
    s₄.cur.regs.Live subj :=
  h.bodies.progress.live _ (h.testsPost.live _ h.subjectPost.result)

theorem lookup (h : SwitchLayout K env rec irec subject cases s s₁ s₂ s₄ s' subj entries spots)
    {n : String} {loc : VarLoc} (hn : s.cur.lookupVar n = some loc) :
    s₄.cur.lookupVar n = some loc :=
  h.bodies.progress.lookup n loc (h.testsPost.lookup n loc (h.subjectPost.lookup n loc hn))

/-- The release of the subject ends the life of no register from before. -/
theorem live (h : SwitchLayout K env rec irec subject cases s s₁ s₂ s₄ s' subj entries spots)
    {q : Nat} (hq : s.cur.regs.Live q) : s'.cur.regs.Live q := by
  have hq₄ : s₄.cur.regs.Live q :=
    h.bodies.progress.live q (h.testsPost.live q (h.subjectPost.live q hq))
  have hrel : (s₄.cur.regs.release subj).Live q := by
    refine hq₄.release ?_
    rcases h.subjectPost.fresh rfl with ⟨hfresh, -⟩ | ⟨n, -, hn⟩
    · exact .inl fun heq => hfresh (heq ▸ hq)
    · by_cases heq : q = subj
      · obtain ⟨l, hl, hreg⟩ := FunctionCompiler.mem_of_lookupVar (h.lookup hn)
        rw [heq, ← hreg]
        exact .inr (h.bodies.progress.tidy.locals l hl).2
      · exact .inl heq
  rw [h.done]
  exact hrel

theorem leave_names
    (h : SwitchLayout K env rec irec subject cases s s₁ s₂ s₄ s' subj entries spots) :
    s₄.cur.SameNames s'.cur := by
  rw [h.done]
  exact ⟨rfl, fun _ _ => .rfl⟩

theorem leave_tables
    (h : SwitchLayout K env rec irec subject cases s s₁ s₂ s₄ s' subj entries spots) :
    s₄.cur.Tables s'.cur := by
  rw [h.done]
  exact ⟨List.prefix_refl _, List.prefix_refl _, Nat.le_of_eq RegisterAllocator.release_max.symm⟩

theorem tidy (h : SwitchLayout K env rec irec subject cases s s₁ s₂ s₄ s' subj entries spots) :
    s'.cur.Tidy := by
  have ht := h.bodies.progress.tidy
  obtain ⟨ctx, loops, hctx, hloops, -⟩ := h.context
  have hpending : s₄.cur.pending = ctx.pending ++ s'.cur.pending := by
    unfold FunctionCompiler.pending
    rw [hctx, hloops, List.flatMap_cons]
  have hregs : s'.cur.regs = s₄.cur.regs.release subj := by rw [h.done, leaveSwitch]
  have hlocals : s'.cur.locals = s₄.cur.locals := by rw [h.done, leaveSwitch]
  constructor
  · rw [hregs]
    exact RegisterAllocator.release_tidy ht.regs h.subject_live.1
  · intro l hl
    rw [hlocals] at hl
    have hl' := ht.locals l hl
    rw [hregs]
    exact ⟨hl'.1.release (.inr hl'.2), RegisterAllocator.release_guards.guarded.mpr hl'.2⟩
  · rw [h.done]
    exact ht.depths
  · have hnodup := ht.nodup
    rw [hpending] at hnodup
    exact (List.nodup_append.mp hnodup).2.1
  · intro i hi
    rw [h.length]
    exact ht.pending i (hpending ▸ List.mem_append_right _ hi)
  · intro c hc
    rw [hloops] at hc
    exact ht.switches c (hctx ▸ List.mem_cons_of_mem _ hc)

theorem post (h : SwitchLayout K env rec irec subject cases s s₁ s₂ s₄ s' subj entries spots) :
    StmtPost s s' where
  tidy := h.tidy
  length := by
    have := h.lengths
    omega
  code := by
    rw [List.prefix_iff_getElem?]
    intro i hi
    exact h.early_subject (getElem?_extends h.subjectPost.code (List.getElem?_eq_getElem hi))
  tables := (((h.subjectPost.tables.trans h.testsPost.tables).trans (enterSwitch_tables s₂)).trans
    h.bodies.progress.tables).trans h.leave_tables
  loops := by
    obtain ⟨ctx, loops, -, hloops, -, -, -, -, hgrow⟩ := h.context
    have := h.lengths
    rw [hloops]
    exact hgrow.weaken (by omega)
  live := fun q hq => h.live hq
  homeless := fun q hq hn => by
    have hn₁ := h.subjectPost.homeless q hq hn
    have hq₁ := h.subjectPost.live q hq
    rw [h.done]
    exact h.bodies.progress.homeless q (h.testsPost.live q hq₁) (h.testsPost.homeless q hq₁ hn₁)
  lookup := fun n loc hn => by
    rw [h.done]
    exact h.lookup hn
  more := (((h.subjectPost.more.trans h.testsPost.more).trans (enterSwitch_names s₂).more).trans
    h.bodies.progress.more).trans h.leave_names.more
  finallys := by
    rw [h.done]
    exact h.bodies.progress.finallys.trans (h.testsPost.finallys.trans h.subjectPost.finallys)
  settled := fun n hn => by
    have hn₄ : s₄.declares n = false :=
      h.bodies.progress.settled n (h.testsPost.settled n (h.subjectPost.settled n hn))
    rw [h.done]
    exact hn₄

/-- The words up to the jump for no match wait for no loop. -/
theorem early_notMem
    (h : SwitchLayout K env rec irec subject cases s s₁ s₂ s₄ s' subj entries spots) {i : Nat}
    (hlow : s.cur.code.length ≤ i) (hi : i ≤ s₂.cur.code.length) : i ∉ s'.cur.pending := by
  obtain ⟨ctx, loops, -, hloops, -, -, -, -, hgrow⟩ := h.context
  unfold FunctionCompiler.pending
  rw [hloops]
  refine hgrow.notMem (Nat.lt_succ_of_le hi) fun hmem => ?_
  have := h.start.pending i hmem
  omega

/-- The frame has the tests with the bodies as their targets. -/
theorem carries_tests
    (h : SwitchLayout K env rec irec subject cases s s₁ s₂ s₄ s' subj entries spots)
    {ts : List LoopTarget}
    (hcode : K.site.CarriesUpTo ts s'.cur s.cur.code.length s'.cur.code.length) {i : Nat}
    {w : Instruction} (hlow : s.cur.code.length ≤ i) (hi : i < s₂.cur.code.length)
    (hw : s₂.cur.code[i]? = some w) :
    K.site.code[i]? = some (w.aim i entries (spots.map Prod.fst)) := by
  have hlt := h.lengths
  rw [hcode i _ hlow (by omega) (h.early hi hw),
    Instruction.resolve_of_notMem (h.early_notMem hlow (Nat.le_of_lt hi))]

theorem carries_subject
    (h : SwitchLayout K env rec irec subject cases s s₁ s₂ s₄ s' subj entries spots)
    {ts : List LoopTarget}
    (hcode : K.site.CarriesUpTo ts s'.cur s.cur.code.length s'.cur.code.length) :
    K.site.Carries s₁.cur.code s.cur.code.length s₁.cur.code.length := by
  intro i hi hlt
  have hlen := h.lengths
  have hw := List.getElem?_eq_getElem hlt
  rw [hcode i _ hi (by omega) (h.early_subject hw),
    Instruction.resolve_of_notMem (h.early_notMem hi (by omega)), hw]

/-- The frame has the bodies, with the end of the `switch` as the target of their
`break`s. -/
theorem carries_body
    (h : SwitchLayout K env rec irec subject cases s s₁ s₂ s₄ s' subj entries spots)
    {ts : List LoopTarget}
    (hcode : K.site.CarriesUpTo ts s'.cur s.cur.code.length s'.cur.code.length)
    {body : Block} {ip stop : Nat} {p b : CompilerState} (hx : (ip, stop) ∈ spots)
    (hb : BodyAt rec (enterSwitch s₂) s₄ body ip stop p b) :
    K.site.CarriesUpTo (⟨s'.cur.code.length, 0, true, s.cur.pendingFinally.length⟩ :: ts) b.cur ip
      stop := by
  intro i w hi hlt hw
  obtain ⟨ctx, loops, hctx, hloops, -, hcont, hbreaks, -, -⟩ := h.context
  have hbound := h.spot_bounds hx
  have hlen := h.lengths
  have hlast := hb.behind.length
  have hpush : (b.push ⟨.jump, 0, 0, 0⟩ .plain).cur.code.length = stop + 1 := by
    simp [CompilerState.push, FunctionCompiler.pushUnit, hb.stops]
  -- The jumps of the body are those that the whole `switch` has collected.
  have hgrow : LoopContext.AllGrow stop b.cur.loopStack s₄.cur.loopStack :=
    LoopContext.AllGrow.weaken (hb.behind.loops) (by omega)
  rw [← hgrow.resolve hlt, hctx, Instruction.resolve, hcont]
  have hw₄ : s₄.cur.code[i]? = some w := (hb.words i hi hlt).trans hw
  have hends : i ∉ spots.map Prod.snd := by
    intro hmem
    obtain ⟨y, hy, rfl⟩ := List.mem_map.mp hmem
    have := h.bodies.ends _ hx y hy
    simp only at this
    omega
  have hword := h.word i
  rw [hbreaks, hw₄] at hword
  have hrange : i < s'.cur.code.length := by
    rw [h.length]
    omega
  by_cases hmem : i ∈ ctx.breakPatches
  · rw [if_pos hmem]
    rw [if_pos (.inl hmem), Option.map_some] at hword
    rw [hcode i _ (by omega) hrange hword, Instruction.resolve_of_notMem, h.length]
    -- The jump waits for the `switch`, so it waits for no other loop.
    have hnodup := h.bodies.progress.tidy.nodup
    unfold FunctionCompiler.pending at hnodup
    rw [hctx, List.flatMap_cons] at hnodup
    rw [hloops]
    exact fun hmem' => (List.nodup_append.mp hnodup).2.2 i (List.mem_append_left _ hmem) i hmem' rfl
  · rw [if_neg hmem, if_neg (by simp)]
    rw [if_neg (by simp only [hmem, hends, false_or]; omega)] at hword
    rw [hcode i _ (by omega) hrange hword, hloops]

/-- Behind a body there is a jump to the end of the `switch`. -/
theorem word_stop
    (h : SwitchLayout K env rec irec subject cases s s₁ s₂ s₄ s' subj entries spots)
    {ts : List LoopTarget}
    (hcode : K.site.CarriesUpTo ts s'.cur s.cur.code.length s'.cur.code.length)
    {body : Block} {ip stop : Nat} {p b : CompilerState} (hx : (ip, stop) ∈ spots)
    (hb : BodyAt rec (enterSwitch s₂) s₄ body ip stop p b) (htidy : b.cur.Tidy) :
    K.site.code[stop]? = some (Instruction.withTarget ⟨.jump, 0, 0, 0⟩ s'.cur.code.length) := by
  have hbound := h.spot_bounds hx
  have hlen := h.lengths
  have hpush : (b.push ⟨.jump, 0, 0, 0⟩ .plain).cur.code.length = stop + 1 := by
    simp [CompilerState.push, FunctionCompiler.pushUnit, hb.stops]
  have hlast := hb.behind.length
  have hword := h.word stop
  rw [if_pos (.inr (.inl (List.mem_map_of_mem hx))), hb.stopWord, Option.map_some] at hword
  rw [hcode stop _ (by omega) (by rw [h.length]; omega) hword, Instruction.resolve_of_notMem,
    h.length]
  have hnot : stop ∉ s₄.cur.loopStack.flatMap LoopContext.pending := by
    refine LoopContext.AllGrow.notMem hb.behind.loops (by omega) fun hmem => ?_
    have := htidy.pending stop hmem
    have := hb.stops
    omega
  obtain ⟨ctx, loops, hctx, hloops, -⟩ := h.context
  rw [hloops]
  rw [hctx, List.flatMap_cons] at hnot
  exact fun hmem => hnot (List.mem_append_right _ hmem)

/-- The jump for no match leads to the last default, or behind the `switch`. -/
theorem word_noMatch
    (h : SwitchLayout K env rec irec subject cases s s₁ s₂ s₄ s' subj entries spots)
    {ts : List LoopTarget}
    (hcode : K.site.CarriesUpTo ts s'.cur s.cur.code.length s'.cur.code.length)
    {P : Block → Nat → Prop}
    (hP : List.Forall₂ (fun k ip => P k.2 ip) cases (spots.map Prod.fst)) :
    ∃ t, K.site.code[s₂.cur.code.length]? = some (Instruction.withTarget ⟨.jump, 0, 0, 0⟩ t) ∧
      ((lastDefault none cases = none ∧ t = s'.cur.code.length) ∨
        ∃ body, lastDefault none cases = some body ∧ P body t) := by
  have hlen := h.lengths
  obtain ⟨ctx, loops, -, -, -, -, hbreaks, hlow, -⟩ := h.context
  have hword := h.word s₂.cur.code.length
  have hnot : s₂.cur.code.length ∉ switchBreaks s₄ := fun hmem => by
    rw [hbreaks] at hmem
    exact Nat.lt_irrefl _ (hlow _ hmem)
  have hends : s₂.cur.code.length ∉ spots.map Prod.snd := fun hmem => by
    obtain ⟨x, hx, heq⟩ := List.mem_map.mp hmem
    have := h.spot_bounds hx
    omega
  have hw₄ := h.bodies.noMatch ⟨.jump, 0, 0, 0⟩ (by simp [enterSwitch_code])
  have hsite : ∀ t, s'.cur.code[s₂.cur.code.length]? =
      some (Instruction.withTarget ⟨.jump, 0, 0, 0⟩ t) → K.site.code[s₂.cur.code.length]? =
        some (Instruction.withTarget ⟨.jump, 0, 0, 0⟩ t) := fun t ht => by
    rw [hcode _ _ (by omega) (by omega) ht,
      Instruction.resolve_of_notMem (h.early_notMem (by omega) (Nat.le_refl _))]
  rw [any_isEmpty, hw₄] at hword
  simp only [hnot, hends, false_or, true_and] at hword
  rcases lastDefault_forall₂ hP with ⟨h₁, h₂⟩ | ⟨body, ip, h₁, h₂, hbody⟩
  · rw [h₁, h₂, if_pos Option.isSome_none] at hword
    exact ⟨s₄.cur.code.length, hsite _ hword, .inl ⟨h₁, h.length.symm⟩⟩
  · rw [h₁, h₂, if_neg (by simp)] at hword
    exact ⟨ip, hsite _ hword, .inr ⟨body, h₁, hbody⟩⟩

/-- The machine runs a body and is behind the `switch`, or where a jump of the
body leads. -/
theorem body_sim
    (h : SwitchLayout K env rec irec subject cases s s₁ s₂ s₄ s' subj entries spots)
    {ts : List LoopTarget} (hts : List.Forall₂ LoopTarget.Fits s.cur.loopStack ts)
    (hcode : K.site.CarriesUpTo ts s'.cur s.cur.code.length s'.cur.code.length)
    (hcov : K.site.Covers s'.cur) {body : Block}
    (hok : BlockOk K rec irec s.cur.pendingFinally body) {ip stop : Nat} {p b : CompilerState}
    (hx : (ip, stop) ∈ spots)
    (hb : BodyAt rec (enterSwitch s₂) s₄ body ip stop p b) {c₀ c : Config} {σ : InterpState}
    (hh : K.Here ip s₂.cur c σ) (hk : K.KeepsTemps s.cur c₀ c) :
    K.site.Sim (fun e c' σ' => K.leave ts s.cur.MoreNames s.cur.pendingFinally e c' σ' ∧
        (e = .break ∨ e = .continue → K.KeepsTemps s.cur c₀ c')) c
      (fun _ c' σ' => K.Here s'.cur.code.length s'.cur c' σ' ∧ K.KeepsTemps s.cur c₀ c')
      (Interp.runCase irec body σ) := by
  have hfinallys : p.cur.pendingFinally = s.cur.pendingFinally :=
    hb.before.finallys.trans (h.testsPost.finallys.trans h.subjectPost.finallys)
  obtain ⟨hpost, hnames, hruns⟩ := hok p b hb.before.tidy hfinallys hb.compiled
  have hpnames : s₂.cur.SameNames p.cur := (enterSwitch_names s₂).trans hb.names
  have hlife : s.KeepsLife p :=
    { live := fun q hq => hb.before.live q (h.testsPost.live q (h.subjectPost.live q hq))
      homeless := fun q hq hn => by
        have hq₁ := h.subjectPost.live q hq
        exact hb.before.homeless q (h.testsPost.live q hq₁)
          (h.testsPost.homeless q hq₁ (h.subjectPost.homeless q hq hn)) }
  have hsame : p.cur.SameNames s'.cur :=
    (hb.names.symm.trans h.bodies.names).trans h.leave_names
  have hmore : s.cur.MoreNames p.cur :=
    (h.subjectPost.more.trans h.testsPost.more).trans hpnames.more
  have hfits : List.Forall₂ LoopTarget.Fits p.cur.loopStack
      (⟨s'.cur.code.length, 0, true, s.cur.pendingFinally.length⟩ :: ts) := by
    refine LoopContext.AllGrow.fits hb.before.loops (.cons ⟨rfl, ?_, fun a ha => by cases ha⟩ ?_)
    · show s.cur.pendingFinally.length = s₂.cur.pendingFinally.length
      rw [h.testsPost.finallys, h.subjectPost.finallys]
    · show List.Forall₂ LoopTarget.Fits s₂.cur.loopStack ts
      rw [h.loops]
      exact hts
  have hcode' : K.site.CarriesUpTo
      (⟨s'.cur.code.length, 0, true, s.cur.pendingFinally.length⟩ :: ts) b.cur p.cur.code.length
      b.cur.code.length := by
    rw [hb.starts, hb.stops]
    exact h.carries_body hcode hx hb
  have hcov' : K.site.Covers b.cur :=
    hcov.of_tables (((push_post hpost.tidy _ _).tables.trans hb.behind.tables).trans h.leave_tables)
  have hsim := hruns _ hfits hcode' hcov' c σ
    ⟨hb.starts.symm ▸ hh.1, K.names hpnames hh.2⟩
  have hjump : ∀ c₁ σ₁, K.Here b.cur.code.length b.cur c₁ σ₁ ∧ K.KeepsTemps p.cur c c₁ →
      Reaches (Config.Steps K.site.machine) c₁ fun c₂ =>
        K.Here s'.cur.code.length s'.cur c₂ σ₁ ∧ K.KeepsTemps s.cur c₀ c₂ := by
    rintro c₁ σ₁ ⟨hh₁, hk₁⟩
    rw [hb.stops] at hh₁
    have hstep := hh₁.1.step_jumpTo (h.word_stop hcode hx hb hpost.tidy) rfl
    rw [Instruction.withTarget_bx] at hstep
    refine .head hstep (.here ⟨⟨hh₁.1.jump _, ?_⟩, ?_⟩)
    · exact K.jump _ (K.names (hnames.symm.trans hsame) hh₁.2)
    · exact hk.trans hlife hk₁
  unfold Interp.runCase
  refine (hsim.goOn fun _ c₁ σ₁ h₁ => hjump c₁ σ₁ h₁).tryCatch ?_
  rintro e c₁ σ₁ ⟨hleave, hkeep⟩
  by_cases he : e = .break
  · subst he
    rw [if_pos rfl]
    obtain ⟨fc, hfc, hh₁, hstep⟩ := Correspondence.Leaving.reaches hleave
      (Nat.le_of_eq (congrArg List.length hfinallys))
    refine .step hstep (.pure ⟨⟨hh₁.1, K.names (hfc.symm.trans hsame) hh₁.2⟩, ?_⟩)
    exact hk.trans hlife (hkeep (.inl rfl))
  · rw [if_neg he]
    refine .throw ⟨?_, fun hbc => hk.trans hlife (hkeep hbc)⟩
    rw [hfinallys] at hleave
    cases e with
    | «break» => exact absurd rfl he
    | «continue» =>
      unfold Correspondence.leave at hleave ⊢
      simp only [List.dropWhile_cons, if_true] at hleave ⊢
      cases hd : ts.dropWhile LoopTarget.isSwitch with
      | nil =>
        rw [hd] at hleave
        exact hleave
      | cons t ts' =>
        rw [hd] at hleave
        obtain ⟨rec₁, ts₁, s₁', s₂', fc, hfc, hrest⟩ := hleave
        exact ⟨rec₁, ts₁, s₁', s₂', fc, hmore.trans hfc.more, hrest⟩
    | _ => exact hleave

/-- The whole statement. -/
theorem runs (h : SwitchLayout K env rec irec subject cases s s₁ s₂ s₄ s' subj entries spots)
    (hbodies : ∀ k ∈ cases, BlockOk K rec irec s.cur.pendingFinally k.2) :
    StmtRuns K (Interp.execSwitch irec subject cases) s.cur s'.cur := by
  intro ts hts hcode hcov c σ hh
  have hcov₂ : K.site.Covers s₂.cur := hcov.of_tables
    (((enterSwitch_tables s₂).trans h.bodies.progress.tables).trans h.leave_tables)
  unfold Interp.execSwitch
  refine Site.Sim.bind ((h.subjectRuns (h.carries_subject hcode)
    (hcov₂.of_tables h.testsPost.tables) c σ hh).mono (fun _ _ _ hq => hq)
    fun e c₁ σ₁ hraise => hraise.leave ts _ _ s.cur c) ?_
  rintro v c₁ σ₁ ⟨hh₁, ⟨v', hreg, hval⟩, hkeep⟩
  let RunsCase : Block → Nat → Prop := fun body ip => ∀ c₂ σ₂, K.Here ip s₂.cur c₂ σ₂ →
    K.KeepsTemps s.cur c c₂ →
      K.site.Sim (fun e c' σ' => K.leave ts s.cur.MoreNames s.cur.pendingFinally e c' σ' ∧
      (e = .break ∨ e = .continue → K.KeepsTemps s.cur c c')) c₂
    (fun _ c' σ' => K.Here s'.cur.code.length s'.cur c' σ' ∧ K.KeepsTemps s.cur c c')
    (Interp.runCase irec body σ₂)
  have hsims : List.Forall₂ (fun k ip => RunsCase k.2 ip) cases (spots.map Prod.fst) := by
    rw [List.forall₂_map_right_iff]
    refine forall₂_mem h.bodies.bodies fun k hk x hx hbody c₂ σ₂ hh₂ hk₂ => ?_
    obtain ⟨-, -, -, p, b, hb⟩ := hbody
    exact h.body_sim hts hcode hcov (hbodies k hk) hx hb hh₂ hk₂
  obtain ⟨t, hword, htarget⟩ := h.word_noMatch hcode hsims
  refine cases_sim h.tests h.subjectPost.tidy h.subjectPost.result h.clean
    (fun i w hi hlt hw => h.carries_tests hcode (Nat.le_trans h.lengths.1 hi) hlt hw) hcov₂
    h.subjectPost.stmtPost.toProgress (fun e c₂ σ₂ hr => hr.leave ts _ _ s.cur c) hsims
    ?_ hh₁ hkeep.temps hreg hval
  -- No test has succeeded.
  intro c₂ σ₂ hh₂ hk₂
  have hstep := hh₂.1.step_jumpTo hword rfl
  rw [Instruction.withTarget_bx] at hstep
  refine .step hstep ?_
  rcases htarget with ⟨hnone, rfl⟩ | ⟨body, hsome, hbody⟩
  · rw [hnone]
    refine .pure ⟨⟨hh₂.1.jump _, K.jump _ (K.names ?_ hh₂.2)⟩, hk₂⟩
    exact ((enterSwitch_names s₂).trans h.bodies.names).trans h.leave_names
  · rw [hsome]
    exact hbody _ _ ⟨hh₂.1.jump _, K.jump _ hh₂.2⟩ hk₂

end SwitchLayout

end Engines

/-- `switch ($x) { case ($x = 2): return 1; default: return 2; }` -/
def reassigningSwitch : Stmt :=
  .mk 1 (.switch (.var "x")
    [([.assign "x" .set none none (.numberLit 2)], [.mk 1 (.ret (some (.numberLit 1)))]),
     ([], [.mk 1 (.ret (some (.numberLit 2)))])])

/-- `function f($x) { … }  $r = f(1);` with the `switch` as the body. -/
def switchProgram : Program :=
  [.mk 1 (.functionDecl "f" ["x"] [none] false [reassigningSwitch]),
   .mk 1 (.expression (.assign "r" .set none none (.call (.var "f") [.numberLit 1])))]

end Look
