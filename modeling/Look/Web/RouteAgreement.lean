/-
The two engines answer the requests that `Compatible` allows, and no others, in the same
way.

Whatever the functions of the application do, the engines then select the same route with
the same parameters, call the same functions in the same order and leave the same
response, apart from the text that they print when nothing answers and nobody has
registered a handler for it.  Outside of this condition functions that do nothing show a
difference already.

The bodies of the functions may depend on everything but `route::matched`, which the VM
never sets.
-/
import Look.Web.RouteDispatch

namespace Look

namespace Route

open Http (Bytes colon)

section Agreement

variable {F σ : Type} {sig : F → Signature} {run : Bodies F σ}

/-- What the engines have to agree on when a request has been served: the route with its
parameters, the named parameters, the calls of functions and what the functions left
behind, and the status. -/
structure Serving.Same (s s' : Serving F σ) : Prop where
  selected : s.selected = s'.selected
  params : s.routing.params = s'.routing.params
  calls : s.calls = s'.calls
  statusCode : s.response.statusCode = s'.response.statusCode
  statusText : s.response.statusText = s'.response.statusText
  user : s.response.user = s'.response.user

/-- No function asks for `route::matched`. -/
def Blind (run : Bodies F σ) : Prop :=
  ∀ f params m m',
    (∀ b, run.body f b ⟨m, params⟩ = run.body f b ⟨m', params⟩) ∧
      ∀ args, run.defaults f args ⟨m, params⟩ = run.defaults f args ⟨m', params⟩

/-- Equal but for `route::matched`. -/
structure Serving.Sim (s s' : Serving F σ) : Prop where
  selected : s.selected = s'.selected
  params : s.routing.params = s'.routing.params
  calls : s.calls = s'.calls
  response : s.response = s'.response

theorem Serving.Sim.same {s s' : Serving F σ} (h : s.Sim s') : s.Same s' :=
  ⟨h.selected, h.params, h.calls, by rw [h.response], by rw [h.response], by rw [h.response]⟩

/-! ## Runs that end the same way -/

theorem call_sim (hrun : Blind run) (f : F) (b : Bound) {s s' : Serving F σ} (h : s.Sim s') :
    Res.Rel Serving.Sim (call run f b s) (call run f b s') := by
  have hbody : run.body f b s.routing = run.body f b s'.routing := by
    have hblind := (hrun f s.routing.params s.routing.matched s'.routing.matched).1 b
    rw [h.params] at hblind
    rw [← hblind, ← h.params]
  rw [call, call, hbody, ← h.response]
  have hcalls : s.calls ++ [(f, b)] = s'.calls ++ [(f, b)] := by rw [h.calls]
  cases run.body f b s'.routing s.response with
  | ok u r => exact .ok () ⟨h.selected, h.params, hcalls, rfl⟩
  | error e r => exact .error e ⟨h.selected, h.params, hcalls, rfl⟩
  | timeout => exact .timeout

theorem callClosure_sim (hrun : Blind run) (f : F) (args : List (Option Bytes))
    {s s' : Serving F σ} (h : s.Sim s') :
    Res.Rel Serving.Sim (callClosure sig run f args s) (callClosure sig run f args s') :=
  call_sim hrun f _ h

/-- Functions do not change what the dispatcher has found. -/
theorem call_routing (f : F) (b : Bound) {s : Serving F σ} {routing : Routing}
    (h : s.routing = routing) :
    Res.Rel (fun t t' => t = t' ∧ t.routing = routing) (call run f b s) (call run f b s) := by
  rw [call]
  cases run.body f b s.routing s.response with
  | ok u r => exact .ok () ⟨rfl, h⟩
  | error e r => exact .error e ⟨rfl, h⟩
  | timeout => exact .timeout

theorem catchStop_rel {R : Serving F σ → Serving F σ → Prop} {m m' : Dispatch F σ Unit}
    {s s' : Serving F σ} (h : Res.Rel R (m s) (m' s')) :
    Res.Rel R (catchStop m s) (catchStop m' s') := by
  rw [catchStop, catchStop]
  generalize m s = r at h
  generalize m' s' = r' at h
  cases h with
  | ok u h => exact .ok false h
  | error e h =>
    cases e with
    | stop => exact .ok true h
    | disabled => exact .error _ h
    | error text => exact .error _ h
  | timeout => exact .timeout

theorem untilStop_rel {α : Type} {R : Serving F σ → Serving F σ → Prop}
    {m : α → Dispatch F σ Unit} (hm : ∀ a s s', R s s' → Res.Rel R (m a s) (m a s')) (l : List α)
    {s s' : Serving F σ} (h : R s s') : Res.Rel R (untilStop m l s) (untilStop m l s') := by
  induction l generalizing s s' with
  | nil => exact .ok false h
  | cons a l ih =>
    refine Exec.rel_bind (fun _ _ h => h) (catchStop_rel (hm a s s' h)) ?_
    intro stopped t t' ht
    cases stopped with
    | true => exact .ok true ht
    | false => exact ih ht

/-- Values that are functions without required parameters are called alike. -/
theorem untilStop_callable {l : List (Option F)} (h : ∀ v ∈ l, Callable sig v) :
    untilStop (invoke sig run · []) l = untilStop (callClosure sig run · []) (l.filterMap id) := by
  induction l with
  | nil => rfl
  | cons v l ih =>
    obtain ⟨f, rfl, hf⟩ := h v List.mem_cons_self
    have hcall : invoke sig run (some f) [] = callClosure sig run f [] := by
      rw [invoke, callFunction, interpBind_nil hf]
      rfl
    have hl := ih fun w hw => h w (List.mem_cons_of_mem _ hw)
    have hcons : (some f :: l).filterMap id = f :: l.filterMap id := rfl
    rw [hcons, untilStop, untilStop, hl, hcall]

/-! ## The route that was found -/

/-- A route of the VM and one of the interpreter that are served alike. -/
structure Alike (sig : F → Signature) (pinned : Nat → Bool) (r : VmRoute F) (e : RouteEntry F)
    (params : Params) : Prop where
  site : r.site = e.site
  pinned : pinned r.site = false
  middlewares : r.middlewares = e.middlewares.filterMap id
  callable : ∀ mw ∈ e.middlewares, Callable sig mw
  callback : e.callback = some r.fn
  takes : (sig r.fn).Takes params.length

theorem answer_rel (hrun : Blind run) {pinned : Nat → Bool} {r : VmRoute F} {e : RouteEntry F}
    {params : Params} {s : Serving F σ} (hs : s.routing = ⟨false, []⟩)
    (h : Alike sig pinned r e params) :
    Res.Rel Serving.Sim (vmAnswer sig run pinned r params s) (interpAnswer sig run e params s) := by
  have hselect : (vmSelect r params s).Sim (interpSelect e params s) := by
    refine ⟨by rw [vmSelect, interpSelect, h.site], ?_, rfl, rfl⟩
    rw [vmSelect, interpSelect, hs]
  refine Exec.rel_bind (fun _ _ h => h) (.ok () hselect) ?_
  intro _ t t' ht
  rw [if_neg (by rw [h.pinned]; exact Bool.false_ne_true), untilStop_callable h.callable,
    ← h.middlewares]
  refine Exec.rel_bind (fun _ _ h => h)
    (untilStop_rel (fun f _ _ h => callClosure_sim hrun f [] h) r.middlewares ht) ?_
  intro stopped u u' hu
  cases stopped with
  | true => exact .ok () hu
  | false =>
    have hbind := (interpBind_eq_iff (sig r.fn) params).mpr h.takes
    rw [if_neg Bool.false_ne_true, if_neg Bool.false_ne_true, h.callback]
    simp only
    rw [callFunction, hbind]
    exact call_sim hrun r.fn _ hu

theorem mapM_eq_some {α β : Type} {f : α → Option β} {l : List α} {bs : List β}
    (h : l.mapM f = some bs) : ∀ a ∈ l, ∃ b, f a = some b := by
  induction l generalizing bs with
  | nil => exact nofun
  | cons a l ih =>
    rw [List.mapM_cons] at h
    obtain ⟨b, hb, h⟩ := Option.bind_eq_some_iff.mp h
    obtain ⟨bs', hbs, h⟩ := Option.bind_eq_some_iff.mp h
    exact List.forall_mem_cons.mpr ⟨⟨b, hb⟩, ih hbs⟩

/-- Both engines read a proper registration that answers, and they read the same. -/
theorem Proper.reads {pinned : Nat → Bool} {method path : Bytes} {x : Nat × Registration F}
    {e : RouteEntry F} (h : Proper sig pinned path x) (htoken : x.2.TokenMethod)
    (he : registerEntry x.1 x.2 = some e) (hanswers : Answers method path x.2) :
    ∃ r params, vmRead method path x = some (r, params) ∧
      interpRead method path x = some (e, params) ∧ Alike sig pinned r e params := by
  obtain ⟨i, reg⟩ := x
  cases reg with
  | notFound callback => exact h.elim
  | route groups m pattern middlewares callback =>
    cases callback with
    | none => exact h.elim
    | some f =>
      obtain ⟨hplain, hslash, hcallable, htakes, hpinned⟩ := h
      obtain ⟨tokens, hparse, rfl⟩ := Option.map_eq_some_iff.mp he
      have hmatch := routeMatch_eq hplain hslash hparse
      have hmethod : m = method ∨ m = anyMethod := hanswers.elim And.left And.left
      have hsome : (regexMatch tokens path).isSome := by
        rcases hanswers with ⟨-, -, hfit⟩ | ⟨-, tokens', hparse', hinst⟩
        · rw [SegmentsFit, ← matchSegments_isSome_iff] at hfit
          have hroute : (routeMatch (fullPattern groups pattern) path).isSome := hfit
          rwa [hmatch, Option.isSome_map] at hroute
        · rw [hparse, Option.some.injEq] at hparse'
          exact hparse' ▸ hinst.isSome
      obtain ⟨texts, htexts⟩ := Option.isSome_iff_exists.mp hsome
      have hvm : routeMatch (fullPattern groups pattern) path = some (named tokens texts) := by
        rw [hmatch, htexts]
        rfl
      have hlen := congrArg List.length (map_fst_matchSegments hvm)
      rw [List.length_map] at hlen
      refine ⟨⟨i, m ++ colon :: fullPattern groups pattern, f,
        (allMiddlewares groups middlewares).filterMap id⟩, named tokens texts, ?_, ?_, ?_⟩
      · rw [vmRead, registerVm, Option.bind_some, vmTry_route htoken.1,
          if_neg fun h => hmethod.elim h.1 h.2, hvm]
        rfl
      · rw [interpRead, he, Option.bind_some, interpCheck, if_neg Bool.false_ne_true,
          if_neg fun h => hmethod.elim h.1 h.2, htexts]
        rfl
      · exact ⟨rfl, hpinned, rfl, hcallable, rfl, hlen ▸ htakes⟩

/-! ## Agreement -/

theorem findSome?_first {α β : Type} {f : α → Option β} {l₁ l₂ : List α} {x : α} {b : β}
    (hl : ∀ y ∈ l₁, f y = none) (hx : f x = some b) : (l₁ ++ x :: l₂).findSome? f = some b :=
  List.findSome?_eq_some_iff.mpr ⟨l₁, x, l₂, rfl, hx, hl⟩

theorem print_same (a b : Bytes) (s : Serving F σ) : (print a s).Same (print b s) :=
  ⟨rfl, rfl, rfl, rfl, rfl, rfl⟩

theorem noRoute_rel (hrun : Blind run) {regs : List (Registration F)}
    {entries : List (RouteEntry F)} (htoken : ∀ r ∈ regs, r.TokenMethod)
    (hentries : registry regs = some entries) (hsame : vmNotFound regs = interpNotFound regs)
    (hnone : ∀ f, vmNotFound regs = some f → (sig f).NoneRequired) (s : Serving F σ) :
    Res.Rel Serving.Same (vmNoRoute sig run (vmRoutes regs) s)
      (interpNoRoute sig run entries s) := by
  have hvm := find?_vmIs404 htoken
  have hinterp := find?_is404 hentries
  rw [interpNotFound, ← hinterp] at hsame
  rw [vmNoRoute, interpNoRoute]
  cases hr : (vmRoutes regs).find? vmIs404 with
  | some r =>
    rw [hr, Option.map_some] at hvm
    rw [← hvm] at hsame
    cases he : entries.find? RouteEntry.is404 with
    | none =>
      rw [he] at hsame
      cases hsame
    | some e =>
      rw [he] at hsame
      have hcallback : e.callback = some r.fn := hsame.symm
      simp only [hcallback]
      rw [invoke, callFunction, interpBind_nil (hnone r.fn hvm.symm)]
      exact (callClosure_sim hrun r.fn [] ⟨rfl, rfl, rfl, rfl⟩).mono fun _ _ h => h.same
  | none =>
    rw [hr, Option.map_none] at hvm
    rw [← hvm] at hsame
    cases he : entries.find? RouteEntry.is404 with
    | none => exact .ok () (print_same _ _ s)
    | some e =>
      rw [he] at hsame
      have hcallback : e.callback = none := hsame.symm
      simp only [hcallback]
      have hprint : (print (ascii "404 Not Found") s).Same s := ⟨rfl, rfl, rfl, rfl, rfl, rfl⟩
      exact .ok () hprint

theorem dispatch_rel (hrun : Blind run) {pinned : Nat → Bool} {befores : List (Option F)}
    {regs : List (Registration F)} {entries : List (RouteEntry F)} {method path : Bytes}
    (htoken : ∀ r ∈ regs, r.TokenMethod) (hentries : registry regs = some entries)
    (h : Compatible sig pinned befores regs method path) {s : Serving F σ}
    (hs : s.routing = ⟨false, []⟩) :
    Res.Rel Serving.Same (vmDispatch sig run pinned (vmRoutes regs) method path s)
      (interpDispatch sig run entries method path s) := by
  have htoken' : ∀ x ∈ ordered regs, x.2.TokenMethod := fun x hx =>
    htoken _ (mem_of_mem_ordered hx)
  have hunread : ∀ x ∈ ordered regs, ¬ Answers method path x.2 →
      vmRead method path x = none ∧ interpRead method path x = none := by
    intro x hx hnot
    rw [Answers, not_or, ← vmRead_isSome_iff (htoken' x hx), ← interpRead_isSome_iff] at hnot
    simpa using hnot
  rw [vmDispatch, interpDispatch, findSome?_vmRoutes htoken, findSome?_registry hentries]
  rcases first_or_none (fun x => Answers method path x.2) (ordered regs) with
    ⟨l₁, x, l₂, hsplit, hl₁, hx⟩ | hnone
  · have hmem : ∀ y ∈ l₁, y ∈ ordered regs := fun y hy => hsplit ▸ List.mem_append_left _ hy
    have hmemx : x ∈ ordered regs := hsplit ▸ List.mem_append_right _ List.mem_cons_self
    obtain ⟨e, he⟩ := mapM_eq_some hentries x (mem_ordered.mp hmemx)
    obtain ⟨r, params, hvm, hinterp, halike⟩ :=
      (h.route l₁ x l₂ hsplit hl₁ hx).reads (htoken' x hmemx) he hx
    rw [hsplit, findSome?_first (fun y hy => (hunread y (hmem y hy) (hl₁ y hy)).1) hvm,
      findSome?_first (fun y hy => (hunread y (hmem y hy) (hl₁ y hy)).2) hinterp]
    exact (answer_rel hrun hs halike).mono fun _ _ h => h.same
  · have hvm : (ordered regs).findSome? (vmRead method path) = none :=
      List.findSome?_eq_none_iff.mpr fun x hx => (hunread x hx (hnone x hx)).1
    have hinterp : (ordered regs).findSome? (interpRead method path) = none :=
      List.findSome?_eq_none_iff.mpr fun x hx => (hunread x hx (hnone x hx)).2
    have hregs : ∀ r ∈ regs, ¬ Answers method path r := by
      intro r hr
      obtain ⟨i, hi⟩ := List.getElem?_of_mem hr
      have hsite : (i, r) ∈ sites regs :=
        List.mem_map.mpr ⟨(r, i), List.mem_zipIdx_iff_getElem?.mpr hi, rfl⟩
      exact hnone (i, r) (mem_ordered.mpr hsite)
    obtain ⟨hsame, hrequired⟩ := h.notFound hregs
    rw [hvm, hinterp]
    exact noRoute_rel hrun htoken hentries hsame hrequired (setNotFound s)

theorem serve_rel (hrun : Blind run) {pinned : Nat → Bool} {befores : List (Option F)}
    {regs : List (Registration F)} {entries : List (RouteEntry F)} {method path : Bytes}
    (htoken : ∀ r ∈ regs, r.TokenMethod) (hentries : registry regs = some entries)
    (h : Compatible sig pinned befores regs method path) (response : Response σ) :
    Res.Rel Serving.Same (vmServe sig run pinned befores regs method path (Serving.start response))
      (interpServe sig run befores entries method path (Serving.start response)) := by
  rw [vmServe, interpServe, untilStop_callable h.befores]
  refine Exec.rel_bind (R := fun t t' => t = t' ∧ t.routing = ⟨false, []⟩) ?_
    (untilStop_rel ?_ _ ⟨rfl, rfl⟩) ?_
  · rintro t _ ⟨rfl, -⟩
    exact ⟨rfl, rfl, rfl, rfl, rfl, rfl⟩
  · rintro f t _ ⟨rfl, ht⟩
    exact call_routing f _ ht
  · rintro stopped t _ ⟨rfl, ht⟩
    cases stopped with
    | true => exact .ok () ⟨rfl, rfl, rfl, rfl, rfl, rfl⟩
    | false => exact dispatch_rel hrun htoken hentries h ht

end Agreement

/-! ## Functions that do nothing -/

section Noop

variable {F : Type} {sig : F → Signature}

def noop : Bodies F Unit := ⟨fun _ _ _ => pure (), fun _ _ _ => pure ()⟩

theorem blind_noop : Blind (noop : Bodies F Unit) := fun _ _ _ _ => ⟨fun _ => rfl, fun _ => rfl⟩

/-- The calls without arguments, as the VM binds the parameters. -/
def bareCalls (sig : F → Signature) (fs : List F) : List (F × Bound) :=
  fs.map fun f => (f, vmBind (sig f) [])

def Serving.log (s : Serving F Unit) (calls : List (F × Bound)) : Serving F Unit :=
  { s with calls := s.calls ++ calls }

theorem untilStop_noop (fs : List F) (s : Serving F Unit) :
    untilStop (callClosure sig noop · []) fs s = .ok false (s.log (bareCalls sig fs)) := by
  induction fs generalizing s with
  | nil =>
    rw [Serving.log, bareCalls, List.map_nil, List.append_nil]
    rfl
  | cons f fs ih =>
    have hstep : untilStop (callClosure sig noop · []) (f :: fs) s =
      untilStop (callClosure sig noop · []) fs (s.log [(f, vmBind (sig f) [])]) := rfl
    rw [hstep, ih, Serving.log, Serving.log, Serving.log, List.append_assoc]
    rfl

theorem invoke_noop {v : Option F} (h : ¬ Callable sig v) (s : Serving F Unit) :
    ∃ text, invoke sig noop v [] s = .error (.error text) s := by
  cases v with
  | none => exact ⟨_, rfl⟩
  | some f =>
    cases hbind : interpBind (sig f) [] with
    | ok b => exact absurd ⟨f, rfl, noneRequired_of_interpBind hbind⟩ h
    | error err =>
      refine ⟨err.2, ?_⟩
      rw [invoke, callFunction, hbind]
      rfl

/-- The loop over values ends with an error unless all of them can be called. -/
theorem untilStop_invoke_noop {l : List (Option F)} (h : ¬ ∀ v ∈ l, Callable sig v)
    (s : Serving F Unit) :
    ∃ text s', untilStop (invoke sig noop · []) l s = .error (.error text) s' := by
  induction l generalizing s with
  | nil => exact absurd nofun h
  | cons v l ih =>
    by_cases hv : Callable sig v
    · obtain ⟨f, rfl, hf⟩ := hv
      have hl : ¬ ∀ w ∈ l, Callable sig w := fun hl =>
        h (List.forall_mem_cons.mpr ⟨⟨f, rfl, hf⟩, hl⟩)
      have hcall : invoke sig noop (some f) [] s = .ok () (s.log [(f, vmBind (sig f) [])]) := by
        rw [invoke, callFunction, interpBind_nil hf]
        rfl
      obtain ⟨text, s', hrest⟩ := ih hl (s.log [(f, vmBind (sig f) [])])
      refine ⟨text, s', ?_⟩
      rw [untilStop, Exec.bind_apply, catchStop, hcall]
      exact hrest
    · obtain ⟨text, hcall⟩ := invoke_noop hv s
      refine ⟨text, s, ?_⟩
      rw [untilStop, Exec.bind_apply, catchStop, hcall]

theorem vmAnswer_noop (pinned : Nat → Bool) (r : VmRoute F) (params : Params)
    (s : Serving F Unit) :
    vmAnswer sig noop pinned r params s =
      if pinned r.site then .error .disabled (vmSelect r params s)
      else .ok () ((vmSelect r params s).log
        (bareCalls sig r.middlewares ++ [(r.fn, vmBind (sig r.fn) (values params))])) := by
  rw [vmAnswer, Exec.bind_apply, Exec.modify_apply]
  by_cases hpinned : pinned r.site = true
  · rw [if_pos hpinned, if_pos hpinned]
    rfl
  · simp only [if_neg hpinned]
    rw [Exec.bind_apply, untilStop_noop]
    simp only [if_neg Bool.false_ne_true]
    rw [Serving.log, Serving.log, ← List.append_assoc]
    rfl

theorem interpAnswer_noop {e : RouteEntry F} (h : ∀ mw ∈ e.middlewares, Callable sig mw) {f : F}
    (hf : e.callback = some f) (params : Params) (s : Serving F Unit) :
    ∃ b, interpBind (sig f) (fitArgs (sig f).arity params) = .ok b ∧
      interpAnswer sig noop e params s = .ok () ((interpSelect e params s).log
        (bareCalls sig (e.middlewares.filterMap id) ++ [(f, b)])) := by
  refine ⟨_, interpBind_fitArgs _ _, ?_⟩
  rw [interpAnswer, Exec.bind_apply, Exec.modify_apply]
  simp only
  rw [Exec.bind_apply, untilStop_callable h, untilStop_noop, hf]
  simp only [if_neg Bool.false_ne_true]
  rw [callFunction, interpBind_fitArgs, Serving.log, Serving.log, ← List.append_assoc]
  rfl

theorem interpAnswer_noop_error {e : RouteEntry F} (h : ¬ ∀ mw ∈ e.middlewares, Callable sig mw)
    (params : Params) (s : Serving F Unit) :
    ∃ text s', interpAnswer sig noop e params s = .error (.error text) s' := by
  obtain ⟨text, s', hloop⟩ := untilStop_invoke_noop h (interpSelect e params s)
  refine ⟨text, s', ?_⟩
  rw [interpAnswer, Exec.bind_apply, Exec.modify_apply]
  simp only
  rw [Exec.bind_apply, hloop]

/-- When the engines agree on a route that both have found, it is served alike. -/
theorem Alike.of_rel {pinned : Nat → Bool} {r : VmRoute F} {e : RouteEntry F}
    {params params' : Params} {s : Serving F Unit}
    (hmws : r.middlewares = e.middlewares.filterMap id) (hfn : e.callback = some r.fn)
    (h : Res.Rel Serving.Same (vmAnswer sig noop pinned r params s)
      (interpAnswer sig noop e params' s)) :
    params = params' ∧ Alike sig pinned r e params := by
  rw [vmAnswer_noop] at h
  by_cases hcallable : ∀ mw ∈ e.middlewares, Callable sig mw
  · obtain ⟨b, hb, hanswer⟩ := interpAnswer_noop hcallable hfn params' s
    rw [hanswer] at h
    by_cases hpinned : pinned r.site = true
    · rw [if_pos hpinned] at h
      cases h
    · rw [if_neg hpinned] at h
      cases h with
      | ok _ hsame =>
        have hselected := Option.some.inj hsame.selected
        have hsite : r.site = e.site := congrArg Prod.fst hselected
        have hparams : params = params' := congrArg Prod.snd hselected
        have hcalls := List.append_cancel_left hsame.calls
        rw [hmws, List.append_cancel_left_eq, List.singleton_inj, Prod.mk.injEq] at hcalls
        subst hparams
        refine ⟨rfl, hsite, Bool.eq_false_iff.mpr hpinned, hmws, hcallable, hfn, ?_⟩
        refine (interpBind_eq_iff (sig r.fn) params).mp ?_
        rw [hb, hcalls.2]
  · obtain ⟨text, s', hanswer⟩ := interpAnswer_noop_error hcallable params' s
    rw [hanswer] at h
    by_cases hpinned : pinned r.site = true
    · rw [if_pos hpinned] at h
      cases h
    · rw [if_neg hpinned] at h
      cases h

/-! ## What agreement tells about the registrations -/

theorem interpAnswer_noop_cases (e : RouteEntry F) (params : Params) (s : Serving F Unit) :
    (∃ text s', interpAnswer sig noop e params s = .error (.error text) s') ∨
      ∃ s', interpAnswer sig noop e params s = .ok () s' ∧
        s'.selected = some (e.site, params) := by
  by_cases hcallable : ∀ mw ∈ e.middlewares, Callable sig mw
  · refine Or.inr ?_
    cases hf : e.callback with
    | some f =>
      obtain ⟨b, -, hanswer⟩ := interpAnswer_noop hcallable hf params s
      exact ⟨_, hanswer, rfl⟩
    | none =>
      refine ⟨(interpSelect e params s).log (bareCalls sig (e.middlewares.filterMap id)), ?_, rfl⟩
      rw [interpAnswer, Exec.bind_apply, Exec.modify_apply]
      simp only
      rw [Exec.bind_apply, untilStop_callable hcallable, untilStop_noop, hf]
      rfl
  · exact Or.inl (interpAnswer_noop_error hcallable params s)

/-- The end of a dispatch that no route answers. -/
theorem vmNoRoute_noop {regs : List (Registration F)} (htoken : ∀ r ∈ regs, r.TokenMethod)
    (s : Serving F Unit) :
    ∃ s', vmNoRoute sig noop (vmRoutes regs) s = .ok () s' ∧ s'.selected = s.selected ∧
      s'.calls = s.calls ++ bareCalls sig (vmNotFound regs).toList := by
  have hvm := find?_vmIs404 htoken
  rw [vmNoRoute]
  cases hr : (vmRoutes regs).find? vmIs404 with
  | some r =>
    rw [hr, Option.map_some] at hvm
    exact ⟨s.log [(r.fn, vmBind (sig r.fn) [])], rfl, rfl, by rw [← hvm]; rfl⟩
  | none =>
    rw [hr, Option.map_none] at hvm
    refine ⟨print (ascii "404 Not Found") s, rfl, rfl, ?_⟩
    rw [← hvm]
    exact (List.append_nil _).symm

theorem interpNoRoute_noop {regs : List (Registration F)} {entries : List (RouteEntry F)}
    (hentries : registry regs = some entries) (s : Serving F Unit) :
    (∃ text s', interpNoRoute sig noop entries s = .error (.error text) s') ∨
      ∃ s', interpNoRoute sig noop entries s = .ok () s' ∧ s'.selected = s.selected ∧
        s'.calls = s.calls ++ bareCalls sig (interpNotFound regs).toList ∧
        ∀ f, interpNotFound regs = some f → (sig f).NoneRequired := by
  have hinterp := find?_is404 hentries
  rw [interpNotFound, ← hinterp, interpNoRoute]
  cases he : entries.find? RouteEntry.is404 with
  | none => exact Or.inr ⟨_, rfl, rfl, (List.append_nil _).symm, nofun⟩
  | some e =>
    cases hf : e.callback with
    | none =>
      simp only [hf]
      refine Or.inr ⟨s, rfl, rfl, ?_, ?_⟩
      · simp [hf, bareCalls]
      · simp [hf]
    | some f =>
      simp only [hf]
      by_cases hcallable : Callable sig (some f)
      · obtain ⟨g, hg, hnone⟩ := hcallable
        cases hg
        refine Or.inr ⟨s.log [(f, vmBind (sig f) [])], ?_, rfl, ?_, ?_⟩
        · rw [invoke, callFunction, interpBind_nil hnone]
          rfl
        · simp [hf, bareCalls, Serving.log]
        · intro g hg
          rw [Option.map_some, hf] at hg
          cases hg
          exact hnone
      · obtain ⟨text, hcall⟩ := invoke_noop hcallable s
        exact Or.inl ⟨text, s, hcall⟩

theorem registerVm_of_vmRead {method path : Bytes} {x : Nat × Registration F} {r : VmRoute F}
    {params : Params} (h : vmRead method path x = some (r, params)) :
    registerVm x.1 x.2 = some r ∧ r.site = x.1 := by
  obtain ⟨r', hr', htry⟩ := Option.bind_eq_some_iff.mp h
  have heq : r' = r := by
    rw [vmTry] at htry
    split at htry
    · cases htry
    · split at htry
      · cases htry
      · obtain ⟨params', -, hpair⟩ := Option.map_eq_some_iff.mp htry
        exact congrArg Prod.fst hpair
  subst heq
  refine ⟨hr', ?_⟩
  obtain ⟨i, reg⟩ := x
  cases reg with
  | notFound callback =>
    cases callback with
    | none => cases hr'
    | some f =>
      cases hr'
      rfl
  | route groups m pattern middlewares callback =>
    cases callback with
    | none => cases hr'
    | some f =>
      cases hr'
      rfl

theorem registerEntry_of_interpRead {method path : Bytes} {x : Nat × Registration F}
    {e : RouteEntry F} {params : Params} (h : interpRead method path x = some (e, params)) :
    registerEntry x.1 x.2 = some e ∧ e.is404 = false ∧
      ∃ texts, regexMatch e.tokens path = some texts ∧ params = named e.tokens texts := by
  obtain ⟨e', he', hcheck⟩ := Option.bind_eq_some_iff.mp h
  rw [interpCheck] at hcheck
  split at hcheck
  · cases hcheck
  · rename_i h404
    split at hcheck
    · cases hcheck
    · obtain ⟨texts, htexts, hpair⟩ := Option.map_eq_some_iff.mp hcheck
      cases hpair
      exact ⟨he', Bool.eq_false_iff.mpr h404, texts, htexts, rfl⟩

/-- What the two engines make of one call of `route` has the same functions. -/
theorem register_shape {x : Nat × Registration F} {r : VmRoute F} {e : RouteEntry F}
    (hr : registerVm x.1 x.2 = some r) (he : registerEntry x.1 x.2 = some e)
    (h404 : e.is404 = false) :
    e.site = x.1 ∧ r.middlewares = e.middlewares.filterMap id ∧ e.callback = some r.fn := by
  obtain ⟨i, reg⟩ := x
  cases reg with
  | notFound callback =>
    cases he
    cases h404
  | route groups m pattern middlewares callback =>
    obtain ⟨tokens, -, rfl⟩ := Option.map_eq_some_iff.mp he
    cases callback with
    | none => cases hr
    | some f =>
      cases hr
      exact ⟨rfl, rfl, rfl⟩

theorem site_of_interpRead {method path : Bytes} {x : Nat × Registration F} {e : RouteEntry F}
    {params : Params} (h : interpRead method path x = some (e, params)) : e.site = x.1 := by
  obtain ⟨he, -, -⟩ := registerEntry_of_interpRead h
  obtain ⟨i, reg⟩ := x
  cases reg with
  | notFound callback =>
    cases he
    rfl
  | route groups m pattern middlewares callback =>
    obtain ⟨tokens, -, rfl⟩ := Option.map_eq_some_iff.mp he
    rfl

/-- A registration that both engines read with the same parameters is a proper one. -/
theorem Proper.of_reads {pinned : Nat → Bool} {method path : Bytes} {x : Nat × Registration F}
    {r : VmRoute F} {e : RouteEntry F} {params : Params} (htoken : x.2.TokenMethod)
    (hvm : vmRead method path x = some (r, params))
    (hinterp : interpRead method path x = some (e, params)) (h : Alike sig pinned r e params) :
    Proper sig pinned path x := by
  obtain ⟨hr, hsite⟩ := registerVm_of_vmRead hvm
  obtain ⟨he, h404, texts, htexts, hparams⟩ := registerEntry_of_interpRead hinterp
  obtain ⟨i, reg⟩ := x
  cases reg with
  | notFound callback =>
    cases he
    cases h404
  | route groups m pattern middlewares callback =>
    obtain ⟨tokens, hparse, rfl⟩ := Option.map_eq_some_iff.mp he
    cases callback with
    | none => cases hr
    | some f =>
      cases hr
      obtain ⟨hinst, hlen⟩ := Instance.of_match htexts
      have hmatch : routeMatch (fullPattern groups pattern) path = some params := by
        rw [vmRead, registerVm, Option.bind_some, vmTry_route htoken.1] at hvm
        split at hvm
        · cases hvm
        · obtain ⟨params', hroute, hpair⟩ := Option.map_eq_some_iff.mp hvm
          rw [hroute, (Prod.mk.inj hpair).2]
      have hnames := map_fst_matchSegments hmatch
      have hplain : Plain (fullPattern groups pattern) := by
        refine plain_of_names hparse ?_
        rw [← hnames, hparams, named, List.map_fst_zip]
        exact Nat.le_of_eq (by rw [List.length_map, hlen])
      have hcount := congrArg List.length hnames
      rw [List.length_map] at hcount
      exact ⟨hplain, hinst.sameSlashes hplain hparse, h.callable, hcount ▸ h.takes, h.pinned⟩

/-! ## The converse -/

theorem vmServe_noop (pinned : Nat → Bool) (befores : List (Option F))
    (regs : List (Registration F)) (method path : Bytes) (s : Serving F Unit) :
    vmServe sig noop pinned befores regs method path s =
      vmDispatch sig noop pinned (vmRoutes regs) method path
        (s.log (bareCalls sig (befores.filterMap id))) := by
  rw [vmServe, Exec.bind_apply, untilStop_noop]
  rfl

theorem interpServe_noop {befores : List (Option F)} (h : ∀ v ∈ befores, Callable sig v)
    (entries : List (RouteEntry F)) (method path : Bytes) (s : Serving F Unit) :
    interpServe sig noop befores entries method path s =
      interpDispatch sig noop entries method path
        (s.log (bareCalls sig (befores.filterMap id))) := by
  rw [interpServe, Exec.bind_apply, untilStop_callable h, untilStop_noop]
  rfl

/-- The VM does not fail when its functions do nothing. -/
theorem vmDispatch_noop {regs : List (Registration F)} (htoken : ∀ r ∈ regs, r.TokenMethod)
    (pinned : Nat → Bool) (method path : Bytes) (s : Serving F Unit) (text : String)
    (s' : Serving F Unit) :
    vmDispatch sig noop pinned (vmRoutes regs) method path s ≠ .error (.error text) s' := by
  intro heq
  rw [vmDispatch] at heq
  cases hfind : (vmRoutes regs).findSome? (vmTry method path) with
  | some found =>
    rw [hfind] at heq
    have hrun : vmAnswer sig noop pinned found.1 found.2 s = .error (.error text) s' := heq
    rw [vmAnswer_noop] at hrun
    split at hrun
    · cases hrun
    · cases hrun
  | none =>
    rw [hfind] at heq
    obtain ⟨t, ht, -⟩ := @vmNoRoute_noop F sig regs htoken (setNotFound s)
    have hrun : vmNoRoute sig noop (vmRoutes regs) (setNotFound s) = .error (.error text) s' := heq
    rw [ht] at hrun
    cases hrun

theorem befores_of_rel {pinned : Nat → Bool} {befores : List (Option F)}
    {regs : List (Registration F)} {entries : List (RouteEntry F)} {method path : Bytes}
    {s : Serving F Unit} (htoken : ∀ r ∈ regs, r.TokenMethod)
    (h : Res.Rel Serving.Same (vmServe sig noop pinned befores regs method path s)
      (interpServe sig noop befores entries method path s)) :
    ∀ v ∈ befores, Callable sig v := by
  by_contra hnot
  obtain ⟨text, s', hloop⟩ := untilStop_invoke_noop hnot s
  have hinterp : interpServe sig noop befores entries method path s = .error (.error text) s' := by
    rw [interpServe, Exec.bind_apply, hloop]
  rw [hinterp, vmServe_noop] at h
  generalize hvm : vmDispatch sig noop pinned (vmRoutes regs) method path _ = res at h
  cases h with
  | error e _ => exact vmDispatch_noop htoken _ _ _ _ _ _ hvm

/-- The site and the parameters, when the engines agree on two routes. -/
theorem selected_of_rel {pinned : Nat → Bool} {r : VmRoute F} {e : RouteEntry F}
    {params params' : Params} {s : Serving F Unit}
    (h : Res.Rel Serving.Same (vmAnswer sig noop pinned r params s)
      (interpAnswer sig noop e params' s)) : r.site = e.site ∧ params = params' := by
  rw [vmAnswer_noop] at h
  rcases @interpAnswer_noop_cases F sig e params' s with ⟨text, s', herror⟩ | ⟨s', hok, hsel⟩
  · rw [herror] at h
    split at h
    · cases h
    · cases h
  · rw [hok] at h
    split at h
    · cases h
    · cases h with
      | ok _ hsame =>
        have hselected := hsame.selected
        rw [hsel] at hselected
        exact Prod.mk.inj (Option.some.inj hselected)

/-- The handlers, when the engines agree on a request that nothing answers. -/
theorem notFound_of_rel {regs : List (Registration F)} {entries : List (RouteEntry F)}
    {s : Serving F Unit} (htoken : ∀ r ∈ regs, r.TokenMethod)
    (hentries : registry regs = some entries)
    (h : Res.Rel Serving.Same (vmNoRoute sig noop (vmRoutes regs) s)
      (interpNoRoute sig noop entries s)) :
    vmNotFound regs = interpNotFound regs ∧
      ∀ f, vmNotFound regs = some f → (sig f).NoneRequired := by
  obtain ⟨t, ht, -, hcalls⟩ := @vmNoRoute_noop F sig regs htoken s
  rw [ht] at h
  rcases @interpNoRoute_noop F sig regs entries hentries s with
    ⟨text, t', ht'⟩ | ⟨t', ht', -, hcalls', hnone⟩
  · rw [ht'] at h
    cases h
  · rw [ht'] at h
    cases h with
    | ok _ hsame =>
      have hlog := hsame.calls
      rw [hcalls, hcalls', List.append_cancel_left_eq] at hlog
      have hfst : ∀ l : List F, (bareCalls sig l).map Prod.fst = l := fun l => by
        rw [bareCalls, List.map_map]
        exact List.map_id l
      have hlist := congrArg (List.map Prod.fst) hlog
      rw [hfst, hfst] at hlist
      have heq : vmNotFound regs = interpNotFound regs := by
        have hhead := congrArg List.head? hlist
        rwa [Option.head?_toList, Option.head?_toList] at hhead
      exact ⟨heq, fun f hf => hnone f (heq ▸ hf)⟩

/-- The engines differ when only the VM has found a route. -/
theorem not_rel_of_vm_only {pinned : Nat → Bool} {r : VmRoute F} {params : Params}
    {regs : List (Registration F)} {entries : List (RouteEntry F)} {s : Serving F Unit}
    (hentries : registry regs = some entries) (hselected : s.selected = none) :
    ¬ Res.Rel Serving.Same (vmAnswer sig noop pinned r params s)
      (interpNoRoute sig noop entries (setNotFound s)) := by
  intro hrel
  rw [vmAnswer_noop] at hrel
  rcases @interpNoRoute_noop F sig regs entries hentries (setNotFound s) with
    ⟨text, t', ht'⟩ | ⟨t', ht', hsel, -⟩
  · rw [ht'] at hrel
    split at hrel
    · cases hrel
    · cases hrel
  · rw [ht'] at hrel
    split at hrel
    · cases hrel
    · cases hrel with
      | ok _ hsame =>
        have hsel' := hsame.selected.trans (hsel.trans hselected)
        cases hsel'

/-- The engines differ when only the interpreter has found a route. -/
theorem not_rel_of_interp_only {regs : List (Registration F)} {e : RouteEntry F}
    {params : Params} {s : Serving F Unit} (htoken : ∀ r ∈ regs, r.TokenMethod)
    (hselected : s.selected = none) :
    ¬ Res.Rel Serving.Same (vmNoRoute sig noop (vmRoutes regs) (setNotFound s))
      (interpAnswer sig noop e params s) := by
  intro hrel
  obtain ⟨t, ht, hsel, -⟩ := @vmNoRoute_noop F sig regs htoken (setNotFound s)
  rw [ht] at hrel
  rcases @interpAnswer_noop_cases F sig e params s with ⟨text, t', ht'⟩ | ⟨t', ht', hsel'⟩
  · rw [ht'] at hrel
    cases hrel
  · rw [ht'] at hrel
    cases hrel with
    | ok _ hsame =>
      have hnone : t.selected = none := hsel.trans hselected
      rw [hsame.selected, hsel'] at hnone
      cases hnone

/-- The first registration that answers is the one that both engines have found. -/
theorem eq_of_answers {regs : List (Registration F)} {method path : Bytes}
    {x w : Nat × Registration F} {l l' : List (Nat × Registration F)} {r : VmRoute F}
    {e : RouteEntry F} {params params' : Params}
    (htoken : ∀ x ∈ ordered regs, x.2.TokenMethod)
    (hvm : (ordered regs).findSome? (vmRead method path) = some (r, params))
    (hinterp : (ordered regs).findSome? (interpRead method path) = some (e, params'))
    (hmem : x ∈ ordered regs) (hr : r.site = x.1) (he : e.site = x.1)
    (hsplit : ordered regs = l ++ w :: l') (hl : ∀ z ∈ l, ¬ Answers method path z.2)
    (hw : Answers method path w.2) : w = x := by
  have hmemw : w ∈ ordered regs := hsplit ▸ List.mem_append_right _ List.mem_cons_self
  have hmeml : ∀ z ∈ l, z ∈ ordered regs := fun z hz => hsplit ▸ List.mem_append_left _ hz
  rcases hw with hw | hw
  · obtain ⟨⟨r', q⟩, hread⟩ :=
      Option.isSome_iff_exists.mp ((vmRead_isSome_iff (htoken w hmemw)).mpr hw)
    have hnone : ∀ z ∈ l, vmRead method path z = none := by
      intro z hz
      rw [← Option.not_isSome_iff_eq_none, vmRead_isSome_iff (htoken z (hmeml z hz))]
      exact fun hvm => hl z hz (Or.inl hvm)
    rw [hsplit, findSome?_first hnone hread] at hvm
    cases hvm
    exact eq_of_site hmemw hmem ((registerVm_of_vmRead hread).2.symm.trans hr)
  · obtain ⟨⟨e', q⟩, hread⟩ := Option.isSome_iff_exists.mp (interpRead_isSome_iff.mpr hw)
    have hnone : ∀ z ∈ l, interpRead method path z = none := by
      intro z hz
      rw [← Option.not_isSome_iff_eq_none, interpRead_isSome_iff]
      exact fun hvm => hl z hz (Or.inr hvm)
    rw [hsplit, findSome?_first hnone hread] at hinterp
    cases hinterp
    exact eq_of_site hmemw hmem ((site_of_interpRead hread).symm.trans he)

theorem Compatible.of_rel {pinned : Nat → Bool} {befores : List (Option F)}
    {regs : List (Registration F)} {entries : List (RouteEntry F)} {method path : Bytes}
    {response : Response Unit} (htoken : ∀ r ∈ regs, r.TokenMethod)
    (hentries : registry regs = some entries)
    (h : Res.Rel Serving.Same
      (vmServe sig noop pinned befores regs method path (Serving.start response))
      (interpServe sig noop befores entries method path (Serving.start response))) :
    Compatible sig pinned befores regs method path := by
  have htoken' : ∀ x ∈ ordered regs, x.2.TokenMethod := fun x hx =>
    htoken _ (mem_of_mem_ordered hx)
  have hbefores := befores_of_rel htoken h
  rw [vmServe_noop, interpServe_noop hbefores] at h
  generalize hs : (Serving.start response : Serving F Unit).log _ = s at h
  have hselected : s.selected = none := by rw [← hs]; rfl
  rw [vmDispatch, interpDispatch, findSome?_vmRoutes htoken, findSome?_registry hentries] at h
  cases hvm : (ordered regs).findSome? (vmRead method path) with
  | none =>
    rw [hvm] at h
    cases hinterp : (ordered regs).findSome? (interpRead method path) with
    | none =>
      rw [hinterp] at h
      refine ⟨hbefores, ?_, fun _ => notFound_of_rel htoken hentries h⟩
      intro l x l' hsplit _ hx
      have hmem : x ∈ ordered regs := hsplit ▸ List.mem_append_right _ List.mem_cons_self
      rw [List.findSome?_eq_none_iff] at hvm hinterp
      rw [Answers, ← vmRead_isSome_iff (htoken' x hmem), ← interpRead_isSome_iff,
        hvm x hmem, hinterp x hmem] at hx
      simp at hx
    | some found =>
      rw [hinterp] at h
      exact absurd h (not_rel_of_interp_only htoken hselected)
  | some found =>
    rw [hvm] at h
    cases hinterp : (ordered regs).findSome? (interpRead method path) with
    | none =>
      rw [hinterp] at h
      exact absurd h (not_rel_of_vm_only hentries hselected)
    | some found' =>
      rw [hinterp] at h
      obtain ⟨r, params⟩ := found
      obtain ⟨e, params'⟩ := found'
      have hrel : Res.Rel Serving.Same (vmAnswer sig noop pinned r params s)
        (interpAnswer sig noop e params' s) := h
      obtain ⟨l₁, x, l₂, hsplit, hx, hl₁⟩ := List.findSome?_eq_some_iff.mp hvm
      obtain ⟨l₃, y, l₄, hsplit', hy, hl₃⟩ := List.findSome?_eq_some_iff.mp hinterp
      have hmemx : x ∈ ordered regs := hsplit ▸ List.mem_append_right _ List.mem_cons_self
      have hmemy : y ∈ ordered regs := hsplit' ▸ List.mem_append_right _ List.mem_cons_self
      obtain ⟨hsite, hparams⟩ := selected_of_rel hrel
      obtain ⟨hr, hrsite⟩ := registerVm_of_vmRead hx
      have hysite := site_of_interpRead hy
      have hxy : x = y := eq_of_site hmemx hmemy (hrsite.symm.trans (hsite.trans hysite))
      subst hxy
      subst hparams
      obtain ⟨he, h404, -⟩ := registerEntry_of_interpRead hy
      obtain ⟨-, hmws, hfn⟩ := register_shape hr he h404
      have hproper := Proper.of_reads (htoken' x hmemx) hx hy (Alike.of_rel hmws hfn hrel).2
      have hanswers : Answers method path x.2 := by
        refine Or.inl ((vmRead_isSome_iff (htoken' x hmemx)).mp ?_)
        rw [hx]
        rfl
      refine ⟨hbefores, ?_, fun hnone => absurd hanswers (hnone x.2 (mem_of_mem_ordered hmemx))⟩
      intro l w l' hfirst hl hw
      rw [eq_of_answers htoken' hvm hinterp hmemx hrsite hysite hfirst hl hw]
      exact hproper

end Noop

/-- For every table of routes and every request, the engines agree whatever the functions
do exactly when the condition holds. -/
theorem agree_iff {F : Type} (sig : F → Signature) (pinned : Nat → Bool)
    (befores : List (Option F)) (regs : List (Registration F)) (entries : List (RouteEntry F))
    (method path : Bytes) (htoken : ∀ r ∈ regs, r.TokenMethod)
    (hentries : registry regs = some entries) :
    (∀ (σ : Type) (run : Bodies F σ) (response : Response σ), Blind run →
      Res.Rel Serving.Same
        (vmServe sig run pinned befores regs method path (Serving.start response))
        (interpServe sig run befores entries method path (Serving.start response))) ↔
      Compatible sig pinned befores regs method path := by
  constructor
  · intro h
    exact Compatible.of_rel htoken hentries (h Unit noop ⟨200, "OK", [], ()⟩ blind_noop)
  · intro h σ run response hrun
    exact serve_rel hrun htoken hentries h response

/-! ## A route and two paths -/

/-- `route("GET", "/users/\x7bid\x7d", function($id) …)`, the only function of the
application. -/
def userRoutes : List (Registration Unit) :=
  [.route [] (ascii "GET") (ascii "/users/\x7bid\x7d") [] (some ())]

def userEntries : List (RouteEntry Unit) :=
  [⟨0, ascii "GET", false, (ascii "/users/").map .lit ++ [.param (ascii "id")], [], some ()⟩]

def userSignature : Unit → Signature := fun _ => ⟨"", 1, false, [false], rfl, nofun⟩

theorem agree_on_user :
    Res.Rel Serving.Same
      (vmServe userSignature noop (fun _ => false) [] userRoutes (ascii "GET") (ascii "/users/7")
        (Serving.start ⟨200, "OK", [], ()⟩))
      (interpServe userSignature noop [] userEntries (ascii "GET") (ascii "/users/7")
        (Serving.start ⟨200, "OK", [], ()⟩)) := by
  refine (agree_iff userSignature (fun _ => false) [] userRoutes userEntries (ascii "GET")
    (ascii "/users/7") ?_ (by decide +kernel)).mpr ⟨nofun, ?_, fun _ => ⟨rfl, nofun⟩⟩ Unit noop
    ⟨200, "OK", [], ()⟩ blind_noop
  · intro r hr
    cases List.mem_singleton.mp hr
    have htoken : colon ∉ ascii "GET" ∧ lbrace ∉ ascii "GET" := by decide
    exact htoken
  · intro l x l' hsplit _ _
    have hordered : ordered userRoutes = [(0, userRoutes.head (by decide))] := rfl
    have hx : x ∈ ordered userRoutes := hsplit ▸ List.mem_append_right _ List.mem_cons_self
    rw [hordered, List.mem_singleton] at hx
    subst hx
    refine ⟨?_, by decide +kernel, nofun, ?_, rfl⟩
    · have hsegs : (ascii "/users/\x7bid\x7d").splitOn slash =
        [[], ascii "users", lbrace :: (ascii "id" ++ [rbrace])] := by decide +kernel
      intro seg hseg
      have hseg : seg ∈ (ascii "/users/\x7bid\x7d").splitOn slash := hseg
      rw [hsegs, List.mem_cons, List.mem_cons, List.mem_singleton] at hseg
      rcases hseg with rfl | rfl | rfl
      · exact Or.inl (by decide)
      · exact Or.inl (by decide)
      · exact Or.inr ⟨ascii "id", by decide, by decide, rfl⟩
    · intro i _ hlt
      have hzero : i = 0 := Nat.lt_one_iff.mp hlt
      rw [hzero]
      rfl

/-- The route that was selected in a run that returns. -/
def selectedIn {F σ : Type} : Res (Serving F σ) Thrown Unit → Option (Option (Nat × Params))
  | .ok _ s => some s.selected
  | .error _ _ => none
  | .timeout => none

theorem selected_eq_of_rel {F σ : Type} {r r' : Res (Serving F σ) Thrown Unit}
    (h : Res.Rel Serving.Same r r') : selectedIn r = selectedIn r' := by
  cases h with
  | ok _ hsame => exact congrArg some hsame.selected
  | error _ _ => rfl
  | timeout => rfl

theorem slash_is_ignored :
    ¬ ∀ (F σ : Type) (sig : F → Signature) (run : Bodies F σ) (befores : List (Option F))
      (regs : List (Registration F)) (entries : List (RouteEntry F)) (method path : Bytes)
      (response : Response σ), Blind run → registry regs = some entries →
      Res.Rel Serving.Same
        (vmServe sig run (fun _ => false) befores regs method path (Serving.start response))
        (interpServe sig run befores entries method path (Serving.start response)) := by
  intro h
  have hrel := h Unit Unit userSignature noop [] userRoutes userEntries (ascii "GET")
    (ascii "/users/7/") ⟨200, "OK", [], ()⟩ blind_noop (by decide +kernel)
  have hselected := selected_eq_of_rel hrel
  have hvm : selectedIn (vmServe userSignature noop (fun _ => false) [] userRoutes (ascii "GET")
      (ascii "/users/7/") (Serving.start ⟨200, "OK", [], ()⟩)) =
      some (some (0, [(ascii "id", ascii "7")])) := by decide +kernel
  have hinterp : selectedIn (interpServe userSignature noop [] userEntries (ascii "GET")
      (ascii "/users/7/") (Serving.start ⟨200, "OK", [], ()⟩)) = some none := by decide +kernel
  rw [hvm, hinterp] at hselected
  cases hselected

end Route

end Look
