/-
Which registration answers a request in the two engines.

Both engines try the patterns without braces first, each group in the order of
registration.  What decides is the first registration that answers the request in the one
engine or the other: it has to be a plain pattern, with its empty segments where the path
has them, and its functions have to take their parameters in both engines alike.  When
nothing answers, the engines have to agree on the handler of the status 404.
-/
import Look.Web.RouteMatch

namespace Look

namespace Route

open Http (Bytes colon)

/-! ## Parameters of functions -/

/-- The function can be called without arguments. -/
def Signature.NoneRequired (sig : Signature) : Prop := ∀ i, i < sig.fixed → sig.hasDefault i = true

/-- The function can be called for a route with `n` parameters: no default is left for the
VM to fill in, and exactly one argument for a parameter that takes the rest. -/
def Signature.Takes (sig : Signature) (n : Nat) : Prop :=
  if sig.variadic then n = sig.arity
  else ∀ i, n ≤ i → i < sig.arity → sig.hasDefault i = false

theorem Signature.fixed_le (sig : Signature) : sig.fixed ≤ sig.arity := by
  rw [Signature.fixed]
  split
  · exact Nat.sub_le _ _
  · exact Nat.le_refl _

theorem Signature.arity_pos {sig : Signature} (h : sig.variadic = true) : 0 < sig.arity := by
  rw [← sig.size]
  refine List.length_pos_of_ne_nil ?_
  intro hnil
  have hlast := sig.last h
  rw [hnil] at hlast
  cases hlast

theorem interpBind_nil {sig : Signature} (h : sig.NoneRequired) :
    interpBind sig [] = .ok (vmBind sig []) := by
  have hall : (List.range sig.fixed).all (sig.filled []) = true := by
    rw [List.all_eq_true]
    intro i hi
    rw [Signature.filled, h i (List.mem_range.mp hi), Bool.or_true]
  have hargs : (List.range sig.fixed).map (argAt []) = (vmBind sig []).args := by
    refine List.map_congr_left fun i hi => ?_
    simp [argAt, h i (List.mem_range.mp hi)]
  rw [interpBind]
  simp only [List.length_nil, Nat.not_lt_zero, and_false, if_false, hall, if_true, hargs]
  rfl

theorem noneRequired_of_interpBind {sig : Signature} {b : Bound}
    (h : interpBind sig [] = .ok b) : sig.NoneRequired := by
  rw [interpBind] at h
  simp only [List.length_nil, Nat.not_lt_zero, and_false, if_false] at h
  split at h
  · rename_i hall
    intro i hi
    have hi := List.all_eq_true.mp hall i (List.mem_range.mpr hi)
    rw [Signature.filled] at hi
    simpa using hi
  · cases h

theorem length_fitArgs (arity : Nat) (params : Params) : (fitArgs arity params).length = arity := by
  rw [fitArgs, List.length_take, List.length_append, List.length_replicate, values, List.length_map]
  omega

theorem getElem?_fitArgs {arity i : Nat} (params : Params) (h : i < arity) :
    (fitArgs arity params)[i]? = some ((values params)[i]?.getD none) := by
  rw [fitArgs, List.getElem?_take_of_lt h, List.getElem?_append]
  split
  · rename_i hi
    rw [List.getElem?_eq_getElem hi]
    rfl
  · rename_i hi
    have hlen : (values params).length = params.length := List.length_map ..
    rw [List.getElem?_replicate_of_lt (by omega), List.getElem?_eq_none (by omega)]
    rfl

/-- A handler never lacks an argument in the interpreter. -/
theorem interpBind_fitArgs (sig : Signature) (params : Params) :
    interpBind sig (fitArgs sig.arity params) = .ok {
      args := (List.range sig.fixed).map fun i => .given ((values params)[i]?.getD none)
      rest := if sig.variadic then some ((fitArgs sig.arity params).drop sig.fixed) else none } := by
  have hlen := length_fitArgs sig.arity params
  have hall : (List.range sig.fixed).all (sig.filled (fitArgs sig.arity params)) = true := by
    rw [List.all_eq_true]
    intro i hi
    have hlt : i < sig.arity := Nat.lt_of_lt_of_le (List.mem_range.mp hi) sig.fixed_le
    rw [Signature.filled, hlen, decide_eq_true hlt, Bool.true_or]
  have hargs : (List.range sig.fixed).map (argAt (fitArgs sig.arity params)) =
      (List.range sig.fixed).map fun i => .given ((values params)[i]?.getD none) := by
    refine List.map_congr_left fun i hi => ?_
    have hlt : i < sig.arity := Nat.lt_of_lt_of_le (List.mem_range.mp hi) sig.fixed_le
    rw [argAt, getElem?_fitArgs params hlt]
  rw [interpBind]
  simp only [hlen, Nat.lt_irrefl, and_false, if_false, hall, if_true, hargs]

/-- The parameters of a handler are the same in both engines exactly when it takes the
parameters of the route. -/
theorem interpBind_eq_iff (sig : Signature) (params : Params) :
    interpBind sig (fitArgs sig.arity params) = .ok (vmBind sig (values params)) ↔
      sig.Takes params.length := by
  have hlen : (values params).length = params.length := List.length_map ..
  rw [interpBind_fitArgs, Except.ok.injEq, vmBind, Bound.mk.injEq, List.map_inj_left,
    Signature.Takes]
  by_cases hvar : sig.variadic = true
  · have hfixed : sig.fixed = sig.arity - 1 := if_pos hvar
    have hpos := sig.arity_pos hvar
    rw [if_pos hvar, if_pos hvar, if_pos hvar, Option.some.injEq]
    constructor
    · rintro ⟨-, hrest⟩
      have hrest := congrArg List.length hrest
      rw [List.length_drop, List.length_drop, length_fitArgs, hlen] at hrest
      omega
    · intro hn
      refine ⟨?_, ?_⟩
      · intro i hi
        have hi : i < (values params).length := by
          have := List.mem_range.mp hi
          omega
        rw [List.getElem?_eq_getElem hi]
        rfl
      · rw [fitArgs, hn, Nat.sub_self, List.replicate_zero, List.append_nil,
          List.take_of_length_le (by omega)]
  · have hfixed : sig.fixed = sig.arity := if_neg hvar
    rw [if_neg hvar, if_neg hvar, if_neg hvar, and_iff_left rfl]
    refine forall_congr' fun i => ?_
    rw [List.mem_range, hfixed]
    by_cases hi : i < (values params).length
    · rw [List.getElem?_eq_getElem hi]
      simp only [Option.getD_some, implies_true, true_iff]
      omega
    · rw [List.getElem?_eq_none (by omega)]
      cases sig.hasDefault i
      · simp
      · simp only [Option.getD_none, if_true, reduceCtorEq, imp_false, Bool.true_eq_false]
        omega

/-! ## The order of the registrations -/

section Order

variable {F : Type}

def Registration.isStatic : Registration F → Bool
  | .notFound _ => true
  | .route groups _ pattern _ _ => !(fullPattern groups pattern).contains lbrace

/-- The registrations in the order in which they are tried. -/
def ordered (regs : List (Registration F)) : List (Nat × Registration F) :=
  (sites regs).filter (fun x => x.2.isStatic) ++ (sites regs).filter fun x => !x.2.isStatic

/-- A method has no colon and no brace, as HTTP has it. -/
def Registration.TokenMethod : Registration F → Prop
  | .notFound _ => True
  | .route _ method _ _ _ => colon ∉ method ∧ lbrace ∉ method

theorem getElem?_of_mem_sites {regs : List (Registration F)} {x : Nat × Registration F}
    (h : x ∈ sites regs) : regs[x.1]? = some x.2 := by
  obtain ⟨y, hy, rfl⟩ := List.mem_map.mp h
  exact List.mem_zipIdx_iff_getElem?.mp hy

theorem mem_ordered {regs : List (Registration F)} {x : Nat × Registration F} :
    x ∈ ordered regs ↔ x ∈ sites regs := by
  rw [ordered, List.mem_append, List.mem_filter, List.mem_filter]
  cases x.2.isStatic <;> simp

theorem mem_of_mem_ordered {regs : List (Registration F)} {x : Nat × Registration F}
    (h : x ∈ ordered regs) : x.2 ∈ regs :=
  List.mem_of_getElem? (getElem?_of_mem_sites (mem_ordered.mp h))

/-- The position names the registration. -/
theorem eq_of_site {regs : List (Registration F)} {x y : Nat × Registration F}
    (hx : x ∈ ordered regs) (hy : y ∈ ordered regs) (h : x.1 = y.1) : x = y := by
  have hx' := getElem?_of_mem_sites (mem_ordered.mp hx)
  have hy' := getElem?_of_mem_sites (mem_ordered.mp hy)
  rw [h, hy', Option.some.injEq] at hx'
  exact Prod.ext h hx'.symm

theorem contains_lbrace {x : Nat × Registration F} {r : VmRoute F} (htoken : x.2.TokenMethod)
    (h : registerVm x.1 x.2 = some r) : r.pattern.contains lbrace = !x.2.isStatic := by
  obtain ⟨i, reg⟩ := x
  cases reg with
  | notFound callback =>
    cases callback with
    | none => cases h
    | some fn =>
      cases h
      rfl
  | route groups method pattern middlewares callback =>
    cases callback with
    | none => cases h
    | some fn =>
      cases h
      have hmethod : lbrace ∉ method := htoken.2
      have hcolon : lbrace ≠ colon := by decide
      rw [Registration.isStatic, Bool.not_not, Bool.eq_iff_iff, List.contains_iff_mem,
        List.contains_iff_mem, List.mem_append, List.mem_cons]
      exact ⟨fun h => (h.resolve_left hmethod).resolve_left hcolon, fun h => Or.inr (Or.inr h)⟩

/-- `stable_partition` puts the routes of the VM into the order of the registrations. -/
theorem vmRoutes_eq {regs : List (Registration F)} (htoken : ∀ r ∈ regs, r.TokenMethod) :
    vmRoutes regs = (ordered regs).filterMap fun x => registerVm x.1 x.2 := by
  have hsites : ∀ x ∈ sites regs, x.2.TokenMethod := fun x hx =>
    htoken _ (List.mem_of_getElem? (getElem?_of_mem_sites hx))
  have hfilter : ∀ x ∈ sites regs, ∀ r, registerVm x.1 x.2 = some r →
      r.pattern.contains lbrace = !x.2.isStatic := fun x hx r hr => contains_lbrace (hsites x hx) hr
  rw [vmRoutes, partition, ordered, List.filterMap_append, List.filter_filterMap,
    List.filter_filterMap, List.filterMap_filter, List.filterMap_filter]
  congr 1
  · refine List.filterMap_congr fun x hx => ?_
    cases hr : registerVm x.1 x.2 with
    | none => cases x.2.isStatic <;> rfl
    | some r =>
      rw [Option.filter_some, hfilter x hx r hr, Bool.not_not]
  · refine List.filterMap_congr fun x hx => ?_
    cases hr : registerVm x.1 x.2 with
    | none => cases x.2.isStatic <;> rfl
    | some r =>
      rw [Option.filter_some, hfilter x hx r hr]

/-! ## Which registrations answer -/

/-- The segments of the path fit those of the pattern, as the VM reads it. -/
def SegmentsFit (pattern path : Bytes) : Prop :=
  List.Forall₂ (fun p r => (paramName p).isSome ∨ p = r) (split pattern) (split path)

/-- The path is a text of the pattern, as the interpreter reads it. -/
def TextOf (pattern path : Bytes) : Prop :=
  ∃ tokens, parsePattern none pattern = some tokens ∧ Instance tokens path

/-- The registration answers the request in the VM, for which the handler of
`route("404", …)` is a route for the method 404 too. -/
def VmAnswers (method path : Bytes) : Registration F → Prop
  | .notFound callback => callback.isSome ∧ method = ascii "404" ∧ split path = []
  | .route groups m pattern _ callback =>
    (m = method ∨ m = anyMethod) ∧ callback.isSome ∧ SegmentsFit (fullPattern groups pattern) path

/-- The registration answers the request in the interpreter. -/
def InterpAnswers (method path : Bytes) : Registration F → Prop
  | .notFound _ => False
  | .route groups m pattern _ _ =>
    (m = method ∨ m = anyMethod) ∧ TextOf (fullPattern groups pattern) path

def Answers (method path : Bytes) (r : Registration F) : Prop :=
  VmAnswers method path r ∨ InterpAnswers method path r

theorem matchSegments_isSome_iff {ps rs : List Bytes} :
    (matchSegments ps rs).isSome ↔
      List.Forall₂ (fun p r => (paramName p).isSome ∨ p = r) ps rs := by
  induction ps generalizing rs with
  | nil =>
    cases rs with
    | nil => simp [matchSegments]
    | cons r rs => simp [matchSegments]
  | cons p ps ih =>
    cases rs with
    | nil => simp [matchSegments]
    | cons r rs =>
      rw [List.forall₂_cons, ← ih, matchSegments]
      cases paramName p with
      | some name => simp
      | none =>
        by_cases hpr : p = r
        · simp [hpr]
        · simp [hpr]

/-- The registration in the VM, and what it says to the request. -/
def vmRead (method path : Bytes) (x : Nat × Registration F) : Option (VmRoute F × Params) :=
  (registerVm x.1 x.2).bind (vmTry method path)

/-- The check of one entry without the passes. -/
def interpCheck (method path : Bytes) (e : RouteEntry F) : Option (RouteEntry F × Params) :=
  if e.is404 then none
  else if e.method ≠ method ∧ e.method ≠ anyMethod then none
  else (regexMatch e.tokens path).map fun groups => (e, named e.tokens groups)

def interpRead (method path : Bytes) (x : Nat × Registration F) : Option (RouteEntry F × Params) :=
  (registerEntry x.1 x.2).bind (interpCheck method path)

theorem vmTry_route {method path m full : Bytes} {i : Nat} {f : F} {mws : List F}
    (hm : colon ∉ m) :
    vmTry method path ⟨i, m ++ colon :: full, f, mws⟩ =
      if m ≠ method ∧ m ≠ anyMethod then none
      else (routeMatch full path).map fun params => (⟨i, m ++ colon :: full, f, mws⟩, params) := by
  rw [vmTry, breakOn_single hm]

theorem vmRead_isSome_iff {method path : Bytes} {x : Nat × Registration F}
    (htoken : x.2.TokenMethod) : (vmRead method path x).isSome ↔ VmAnswers method path x.2 := by
  obtain ⟨i, reg⟩ := x
  cases reg with
  | notFound callback =>
    cases callback with
    | none => simp [VmAnswers, vmRead, registerVm]
    | some fn =>
      have hcolon : colon ∉ ascii "404" := by decide
      have htry : vmTry method path ⟨i, ascii "404" ++ colon :: [slash], fn, []⟩ = _ :=
        vmTry_route hcolon
      have hany : ascii "404" ≠ anyMethod := by decide
      have hroot : routeMatch [slash] path = matchSegments [] (split path) := rfl
      have hread : vmRead method path (i, .notFound (some fn)) =
        vmTry method path ⟨i, ascii "404" ++ colon :: [slash], fn, []⟩ := rfl
      rw [hread, htry, VmAnswers, hroot]
      by_cases hmethod : ascii "404" = method
      · rw [if_neg fun h => h.1 hmethod, Option.isSome_map, matchSegments_isSome_iff,
          List.forall₂_nil_left_iff]
        simp [hmethod]
      · rw [if_pos ⟨hmethod, hany⟩]
        simp [Ne.symm hmethod]
  | route groups m pattern middlewares callback =>
    cases callback with
    | none => simp [VmAnswers, vmRead, registerVm]
    | some fn =>
      have hcolon : colon ∉ m := htoken.1
      rw [vmRead, registerVm, Option.bind_some, vmTry_route hcolon, VmAnswers, SegmentsFit,
        ← matchSegments_isSome_iff]
      by_cases hm : m = method ∨ m = anyMethod
      · rw [if_neg fun h => hm.elim h.1 h.2, Option.isSome_map]
        simp [hm, routeMatch]
      · rw [not_or] at hm
        rw [if_pos hm]
        simp [hm.1, hm.2]

theorem interpRead_isSome_iff {method path : Bytes} {x : Nat × Registration F} :
    (interpRead method path x).isSome ↔ InterpAnswers method path x.2 := by
  obtain ⟨i, reg⟩ := x
  cases reg with
  | notFound callback => simp [InterpAnswers, interpRead, registerEntry, interpCheck]
  | route groups m pattern middlewares callback =>
    rw [interpRead, registerEntry, InterpAnswers, TextOf]
    cases hparse : parsePattern none (fullPattern groups pattern) with
    | none => simp
    | some tokens =>
      rw [Option.map_some, Option.bind_some, interpCheck, if_neg Bool.false_ne_true]
      by_cases hm : m = method ∨ m = anyMethod
      · rw [if_neg fun h => hm.elim h.1 h.2, Option.isSome_map, regexMatch_isSome_iff]
        simp [hm]
      · rw [not_or] at hm
        rw [if_pos hm]
        simp [hm.1, hm.2]

/-! ### The loops over the registries -/

theorem findSome?_vmRoutes {regs : List (Registration F)} (htoken : ∀ r ∈ regs, r.TokenMethod)
    (method path : Bytes) :
    (vmRoutes regs).findSome? (vmTry method path) = (ordered regs).findSome? (vmRead method path) := by
  rw [vmRoutes_eq htoken, ← List.head?_filterMap, List.filterMap_filterMap, List.head?_filterMap]
  rfl

theorem isStatic_iff {x : Nat × Registration F} {e : RouteEntry F}
    (h : registerEntry x.1 x.2 = some e) : (paramNames e.tokens).isEmpty = x.2.isStatic := by
  obtain ⟨i, reg⟩ := x
  cases reg with
  | notFound callback =>
    cases h
    rfl
  | route groups m pattern middlewares callback =>
    obtain ⟨tokens, hparse, rfl⟩ := Option.map_eq_some_iff.mp h
    rw [Registration.isStatic, Bool.eq_iff_iff, List.isEmpty_iff, Bool.not_eq_true',
      Bool.eq_false_iff, ne_eq, List.contains_iff_mem]
    constructor
    · intro hnil hbrace
      exact paramNames_ne_nil hparse hbrace hnil
    · intro hbrace
      rw [parsePattern_lits hbrace, Option.some.injEq] at hparse
      rw [← hparse]
      exact paramNames_lits _

theorem interpTry_eq {static : Bool} {method path : Bytes} {x : Nat × Registration F}
    {e : RouteEntry F} (h : registerEntry x.1 x.2 = some e) :
    interpTry static method path e =
      if x.2.isStatic = static then interpRead method path x else none := by
  rw [interpTry, interpRead, h, Option.bind_some, interpCheck, isStatic_iff h]
  by_cases h404 : e.is404 = true
  · rw [if_pos h404, if_pos h404, ite_self]
  · rw [if_neg h404, if_neg h404]
    by_cases hstatic : x.2.isStatic = static
    · rw [if_neg (not_not.mpr hstatic), if_pos hstatic]
      rfl
    · rw [if_pos hstatic, if_neg hstatic]

theorem findSome?_entries {static : Bool} {method path : Bytes} {l : List (Nat × Registration F)}
    {entries : List (RouteEntry F)} (h : (l.mapM fun x => registerEntry x.1 x.2) = some entries) :
    entries.findSome? (interpTry static method path) =
      (l.filter fun x => x.2.isStatic == static).findSome? (interpRead method path) := by
  induction l generalizing entries with
  | nil =>
    cases h
    rfl
  | cons x l ih =>
    rw [List.mapM_cons] at h
    obtain ⟨e, he, h⟩ := Option.bind_eq_some_iff.mp h
    obtain ⟨es, hes, h⟩ := Option.bind_eq_some_iff.mp h
    cases h
    rw [List.findSome?_cons, interpTry_eq he, ih hes, List.filter_cons]
    by_cases hstatic : x.2.isStatic = static
    · simp [hstatic, List.findSome?_cons]
    · simp [hstatic]

theorem findSome?_registry {regs : List (Registration F)} {entries : List (RouteEntry F)}
    (h : registry regs = some entries) (method path : Bytes) :
    ((entries.findSome? (interpTry true method path)).orElse
      fun _ => entries.findSome? (interpTry false method path)) =
        (ordered regs).findSome? (interpRead method path) := by
  rw [Option.orElse_eq_or, findSome?_entries h, findSome?_entries h, ordered,
    List.findSome?_append]
  simp

/-! ### The handler for requests that nothing answers -/

/-- The function that the VM finds under the method 404. -/
def vm404 : Registration F → Option F
  | .notFound callback => callback
  | .route _ method _ _ callback => if method = ascii "404" then callback else none

/-- The callback of `route("404", …)`. -/
def interp404 : Registration F → Option (Option F)
  | .notFound callback => some callback
  | .route .. => none

def vmNotFound (regs : List (Registration F)) : Option F :=
  (ordered regs).findSome? fun x => vm404 x.2

def interpNotFound (regs : List (Registration F)) : Option F := (regs.findSome? interp404).join

theorem vm404_eq {x : Nat × Registration F} (htoken : x.2.TokenMethod) :
    ((registerVm x.1 x.2).filter vmIs404).map VmRoute.fn = vm404 x.2 := by
  obtain ⟨i, reg⟩ := x
  cases reg with
  | notFound callback =>
    cases callback with
    | none => rfl
    | some fn => rfl
  | route groups m pattern middlewares callback =>
    cases callback with
    | none =>
      rw [vm404, ite_self]
      rfl
    | some fn =>
      rw [registerVm, Option.filter_some, vmIs404, breakOn_single htoken.1, vm404]
      by_cases hm : m = ascii "404"
      · simp [hm]
      · simp [hm]

theorem find?_vmIs404 {regs : List (Registration F)} (htoken : ∀ r ∈ regs, r.TokenMethod) :
    ((vmRoutes regs).find? vmIs404).map VmRoute.fn = vmNotFound regs := by
  have htoken' : ∀ x ∈ ordered regs, x.2.TokenMethod := fun x hx =>
    htoken _ (mem_of_mem_ordered hx)
  rw [vmRoutes_eq htoken, vmNotFound]
  generalize ordered regs = l at htoken'
  induction l with
  | nil => rfl
  | cons x l ih =>
    have hx := vm404_eq (htoken' x List.mem_cons_self)
    rw [List.findSome?_cons, ← hx, List.filterMap_cons]
    have hl := ih fun y hy => htoken' y (List.mem_cons_of_mem _ hy)
    cases registerVm x.1 x.2 with
    | none => exact hl
    | some r =>
      rw [List.find?_cons, Option.filter_some]
      cases vmIs404 r with
      | true => rfl
      | false => exact hl

theorem find?_is404 {regs : List (Registration F)} {entries : List (RouteEntry F)}
    (h : registry regs = some entries) :
    (entries.find? RouteEntry.is404).map RouteEntry.callback = regs.findSome? interp404 := by
  have hregs : regs = (sites regs).map Prod.snd := by
    rw [sites, List.map_map]
    exact (List.zipIdx_map_fst 0 regs).symm
  rw [hregs, List.findSome?_map]
  rw [registry] at h
  clear hregs
  generalize sites regs = l at h
  induction l generalizing entries with
  | nil =>
    cases h
    rfl
  | cons x l ih =>
    rw [List.mapM_cons] at h
    obtain ⟨e, he, h⟩ := Option.bind_eq_some_iff.mp h
    obtain ⟨es, hes, h⟩ := Option.bind_eq_some_iff.mp h
    cases h
    obtain ⟨i, reg⟩ := x
    cases reg with
    | notFound callback =>
      cases he
      rfl
    | route groups m pattern middlewares callback =>
      obtain ⟨tokens, -, rfl⟩ := Option.map_eq_some_iff.mp he
      rw [List.find?_cons, List.findSome?_cons]
      exact ih hes

end Order

/-! ## The condition -/

section Condition

variable {F : Type} (sig : F → Signature)

/-- The value is a function that can be called without arguments. -/
def Callable (v : Option F) : Prop := ∃ f, v = some f ∧ (sig f).NoneRequired

/-- The registration is a route that both engines serve alike, for a path that it
answers. -/
def Proper (pinned : Nat → Bool) (path : Bytes) : Nat × Registration F → Prop
  | (i, .route groups _ pattern middlewares (some f)) =>
    Plain (fullPattern groups pattern) ∧ SameSlashes (fullPattern groups pattern) path ∧
      (∀ mw ∈ allMiddlewares groups middlewares, Callable sig mw) ∧
      (sig f).Takes ((split (fullPattern groups pattern)).filterMap paramName).length ∧
      pinned i = false
  | _ => False

structure Compatible (pinned : Nat → Bool) (befores : List (Option F))
    (regs : List (Registration F)) (method path : Bytes) : Prop where
  befores : ∀ v ∈ befores, Callable sig v
  /-- The first registration that answers is served alike. -/
  route : ∀ l x l', ordered regs = l ++ x :: l' → (∀ y ∈ l, ¬ Answers method path y.2) →
    Answers method path x.2 → Proper sig pinned path x
  /-- When none answers, both engines have the same handler for it. -/
  notFound : (∀ r ∈ regs, ¬ Answers method path r) →
    vmNotFound regs = interpNotFound regs ∧ ∀ f, vmNotFound regs = some f → (sig f).NoneRequired

end Condition

end Route

end Look
