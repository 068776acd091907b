/-
Who has a connection, and in which state it is handed out.

A connection of a pool is free or is borrowed by one request, whatever the requests do.
Nobody but the borrower changes a connection, so it is handed out in the state in which it
was given back.  The pool does not look at that state: a request that ends inside a
transaction, or whose `COMMIT` was rejected, leaves it to the next one.
-/
import Look.Db.Pool

namespace Look

namespace Db

/-- Every connection of a pool is free or borrowed, and not both, and has one borrower. -/
structure Lent (s : System) : Prop where
  below : ∀ p, ∀ c ∈ (s.pools p).all, c < s.opened
  apart : ∀ p q c, c ∈ (s.pools p).all → c ∈ (s.pools q).all → p = q
  nodup : ∀ p, (s.pools p).available.Nodup
  free : ∀ p, ∀ c ∈ (s.pools p).available, c ∈ (s.pools p).all
  keys : ∀ r, ((s.active r).map Prod.fst).Nodup
  lent : ∀ r p c, (p, c) ∈ s.active r → c ∈ (s.pools p).all ∧ c ∉ (s.pools p).available
  sole : ∀ r r' p c, (p, c) ∈ s.active r → (p, c) ∈ s.active r' → r = r'
  whole : ∀ p, (s.pools p).registered = true → ∀ c ∈ (s.pools p).all,
    c ∈ (s.pools p).available ∨ ∃ r, (p, c) ∈ s.active r

section Lent

variable {fiber : Nat → Bool} {s s' : System} {a : Action} {r p c : Nat}

theorem start_lent : Lent System.start where
  below := nofun
  apart := nofun
  nodup _ := List.nodup_nil
  free := nofun
  keys _ := List.nodup_nil
  lent := nofun
  sole := nofun
  whole := nofun

/-- A step that neither lends nor takes back. -/
theorem Lent.congr (h : Lent s) (hpools : s'.pools = s.pools) (hopened : s'.opened = s.opened)
    (hactive : s'.active = s.active) : Lent s' := by
  obtain ⟨pools, conns, opened, active, levels, waiters, phase⟩ := s'
  cases hpools
  cases hopened
  cases hactive
  exact ⟨h.below, h.apart, h.nodup, h.free, h.keys, h.lent, h.sole, h.whole⟩

theorem Lent.connect {n : Nat} (h : Lent s) (hnew : (s.pools p).all = []) :
    Lent { s with
      pools := Function.update s.pools p
        ⟨List.range' s.opened n, (List.range' s.opened n).reverse, true⟩
      opened := s.opened + n } := by
  have hrange : ∀ c, c ∈ List.range' s.opened n ↔ s.opened ≤ c ∧ c < s.opened + n :=
    fun c => List.mem_range'_1
  have hold : ∀ q, ∀ c ∈ (s.pools q).all, c ∉ List.range' s.opened n := by
    intro q c hc hmem
    exact absurd (h.below q c hc) (Nat.not_lt.mpr ((hrange c).mp hmem).1)
  have hne : ∀ r q c, (q, c) ∈ s.active r → q ≠ p := by
    rintro r q c hc rfl
    have hlent := (h.lent r q c hc).1
    rw [hnew] at hlent
    cases hlent
  have hupdate := Function.forall_update_iff s.pools (a := p)
    (b := ⟨List.range' s.opened n, (List.range' s.opened n).reverse, true⟩)
  refine ⟨?_, ?_, ?_, ?_, h.keys, ?_, h.sole, ?_⟩
  · refine (hupdate fun _ pool => ∀ c ∈ pool.all, c < s.opened + n).mpr ⟨?_, ?_⟩
    · exact fun c hc => ((hrange c).mp hc).2
    · exact fun q _ c hc => Nat.lt_add_right n (h.below q c hc)
  · intro q q' c hc hc'
    dsimp only at hc hc'
    by_cases hq : q = p <;> by_cases hq' : q' = p
    · rw [hq, hq']
    · subst hq
      rw [Function.update_self] at hc
      rw [Function.update_of_ne hq'] at hc'
      exact absurd hc (hold q' c hc')
    · subst hq'
      rw [Function.update_of_ne hq] at hc
      rw [Function.update_self] at hc'
      exact absurd hc' (hold q c hc)
    · rw [Function.update_of_ne hq] at hc
      rw [Function.update_of_ne hq'] at hc'
      exact h.apart q q' c hc hc'
  · refine (hupdate fun _ pool => pool.available.Nodup).mpr ⟨?_, fun q _ => h.nodup q⟩
    exact List.nodup_reverse.mpr List.nodup_range'
  · refine (hupdate fun _ pool => ∀ c ∈ pool.available, c ∈ pool.all).mpr ⟨?_, fun q _ => h.free q⟩
    exact fun c hc => List.mem_reverse.mp hc
  · intro r q c hc
    dsimp only at hc ⊢
    rw [Function.update_of_ne (hne r q c hc)]
    exact h.lent r q c hc
  · refine (hupdate fun q pool => pool.registered = true → ∀ c ∈ pool.all,
      c ∈ pool.available ∨ ∃ r, (q, c) ∈ s.active r).mpr ⟨?_, fun q _ => h.whole q⟩
    exact fun _ c hc => .inl (List.mem_reverse.mpr hc)

/-- The free connections and the borrowed ones of a pool change. -/
theorem Lent.setPool {pool : Pool} {active : Nat → List (Nat × Nat)} {phase : Nat → Phase}
    (h : Lent s) (hall : pool.all = (s.pools p).all) (hnodup : pool.available.Nodup)
    (hfree : ∀ c ∈ pool.available, c ∈ pool.all)
    (hkeys : ∀ r, ((active r).map Prod.fst).Nodup)
    (hother : ∀ r q c, q ≠ p → ((q, c) ∈ active r ↔ (q, c) ∈ s.active r))
    (hlent : ∀ r c, (p, c) ∈ active r → c ∈ pool.all ∧ c ∉ pool.available)
    (hsole : ∀ r r' c, (p, c) ∈ active r → (p, c) ∈ active r' → r = r')
    (hwhole : pool.registered = true → ∀ c ∈ pool.all,
      c ∈ pool.available ∨ ∃ r, (p, c) ∈ active r) :
    Lent { s with pools := Function.update s.pools p pool, active := active, phase := phase } := by
  have hupdate := Function.forall_update_iff s.pools (a := p) (b := pool)
  have hsame : ∀ q, (Function.update s.pools p pool q).all = (s.pools q).all :=
    (hupdate fun q pool' => pool'.all = (s.pools q).all).mpr ⟨hall, fun _ _ => rfl⟩
  refine ⟨?_, ?_, ?_, ?_, hkeys, ?_, ?_, ?_⟩
  · intro q c hc
    rw [hsame] at hc
    exact h.below q c hc
  · intro q q' c hc hc'
    rw [hsame] at hc hc'
    exact h.apart q q' c hc hc'
  · exact (hupdate fun _ pool' => pool'.available.Nodup).mpr ⟨hnodup, fun q _ => h.nodup q⟩
  · exact (hupdate fun _ pool' => ∀ c ∈ pool'.available, c ∈ pool'.all).mpr
      ⟨hfree, fun q _ => h.free q⟩
  · intro r q c hc
    dsimp only at hc ⊢
    by_cases hq : q = p
    · subst hq
      rw [Function.update_self]
      exact hlent r c hc
    · rw [Function.update_of_ne hq]
      exact h.lent r q c ((hother r q c hq).mp hc)
  · intro r r' q c hc hc'
    by_cases hq : q = p
    · subst hq
      exact hsole r r' c hc hc'
    · exact h.sole r r' q c ((hother r q c hq).mp hc) ((hother r' q c hq).mp hc')
  · intro q hregistered c hc
    dsimp only at hregistered hc ⊢
    by_cases hq : q = p
    · subst hq
      rw [Function.update_self] at hregistered hc ⊢
      exact hwhole hregistered c hc
    · rw [Function.update_of_ne hq] at hregistered hc ⊢
      rcases h.whole q hregistered c hc with hfree | ⟨r, hr⟩
      · exact .inl hfree
      · exact .inr ⟨r, (hother r q c hq).mpr hr⟩

theorem mem_update_cons {active : Nat → List (Nat × Nat)} {x y : Nat × Nat} (r' : Nat) :
    x ∈ Function.update active r (y :: active r) r' ↔ (r' = r ∧ x = y) ∨ x ∈ active r' := by
  by_cases hr : r' = r
  · subst hr
    rw [Function.update_self, List.mem_cons]
    simp
  · rw [Function.update_of_ne hr]
    simp [hr]

theorem mem_update_tail {active : Nat → List (Nat × Nat)} {x y : Nat × Nat}
    {rest : List (Nat × Nat)} (hactive : active r = y :: rest) (hy : y ∉ rest) (r' : Nat) :
    x ∈ Function.update active r rest r' ↔ x ∈ active r' ∧ ¬ (r' = r ∧ x = y) := by
  by_cases hr : r' = r
  · subst hr
    rw [Function.update_self, hactive, List.mem_cons]
    constructor
    · intro hx
      refine ⟨.inr hx, ?_⟩
      rintro ⟨-, rfl⟩
      exact hy hx
    · rintro ⟨rfl | hx, hne⟩
      · exact absurd ⟨rfl, rfl⟩ hne
      · exact hx
  · rw [Function.update_of_ne hr]
    simp [hr]

theorem Lent.take {rest : List Nat} (h : Lent s) (habsent : ∀ c, (p, c) ∉ s.active r)
    (hfree : (s.pools p).available = c :: rest) : Lent (s.take r p c rest) := by
  have hnodup := h.nodup p
  rw [hfree, List.nodup_cons] at hnodup
  have hall : ∀ c' ∈ c :: rest, c' ∈ (s.pools p).all := by
    rw [← hfree]
    exact h.free p
  have hborrowed : ∀ r' c', (p, c') ∈ s.active r' → c' ≠ c ∧ c' ∉ rest := by
    intro r' c' hc'
    have hlent := (h.lent r' p c' hc').2
    rwa [hfree, List.mem_cons, not_or] at hlent
  refine h.setPool rfl hnodup.2 (fun c' hc' => hall c' (List.mem_cons_of_mem _ hc')) ?_ ?_ ?_ ?_ ?_
  · refine (Function.forall_update_iff s.active fun _ l => (l.map Prod.fst).Nodup).mpr
      ⟨?_, fun r' _ => h.keys r'⟩
    rw [List.map_cons, List.nodup_cons]
    refine ⟨?_, h.keys r⟩
    intro hp
    obtain ⟨⟨q, c'⟩, hmem, hq⟩ := List.mem_map.mp hp
    cases hq
    exact habsent c' hmem
  · intro r' q c' hq
    rw [mem_update_cons]
    simp [hq]
  · intro r' c' hc'
    rcases (mem_update_cons r').mp hc' with ⟨-, heq⟩ | hc'
    · cases heq
      exact ⟨hall c List.mem_cons_self, hnodup.1⟩
    · exact ⟨(h.lent r' p c' hc').1, (hborrowed r' c' hc').2⟩
  · intro r1 r2 c' h1 h2
    rcases (mem_update_cons r1).mp h1 with ⟨hr1, heq1⟩ | h1 <;>
      rcases (mem_update_cons r2).mp h2 with ⟨hr2, heq2⟩ | h2
    · exact hr1.trans hr2.symm
    · cases heq1
      exact absurd rfl (hborrowed r2 c h2).1
    · cases heq2
      exact absurd rfl (hborrowed r1 c h1).1
    · exact h.sole r1 r2 p c' h1 h2
  · intro hregistered c' hc'
    rcases h.whole p hregistered c' hc' with havailable | ⟨r', hr'⟩
    · rw [hfree, List.mem_cons] at havailable
      rcases havailable with rfl | hrest
      · exact .inr ⟨r, (mem_update_cons r).mpr (.inl ⟨rfl, rfl⟩)⟩
      · exact .inl hrest
    · exact .inr ⟨r', (mem_update_cons r').mpr (.inr hr')⟩

section GiveBack

variable {rest : List (Nat × Nat)}

theorem Lent.head_notMem (h : Lent s) (hactive : s.active r = (p, c) :: rest) : (p, c) ∉ rest := by
  have hkeys := h.keys r
  rw [hactive, List.map_cons, List.nodup_cons] at hkeys
  exact fun hmem => hkeys.1 (List.mem_map.mpr ⟨(p, c), hmem, rfl⟩)

theorem Lent.keys_tail (h : Lent s) (hactive : s.active r = (p, c) :: rest) (r' : Nat) :
    ((Function.update s.active r rest r').map Prod.fst).Nodup := by
  refine (Function.forall_update_iff s.active fun _ l => (l.map Prod.fst).Nodup).mpr
    ⟨?_, fun r' _ => h.keys r'⟩ r'
  have hkeys := h.keys r
  rw [hactive, List.map_cons, List.nodup_cons] at hkeys
  exact hkeys.2

/-- The connection that is given back is not in the hands of anybody else. -/
theorem Lent.ne_of_mem_tail (h : Lent s) (hactive : s.active r = (p, c) :: rest) {r' c' : Nat}
    (hc' : (p, c') ∈ Function.update s.active r rest r') : (p, c') ∈ s.active r' ∧ c' ≠ c := by
  obtain ⟨hmem, hne⟩ := (mem_update_tail hactive (h.head_notMem hactive) r').mp hc'
  refine ⟨hmem, ?_⟩
  rintro rfl
  have hr : r' = r := h.sole r' r p c' hmem (by rw [hactive]; exact List.mem_cons_self)
  exact hne ⟨hr, rfl⟩

theorem Lent.giveBack {phase : Nat → Phase} (h : Lent s)
    (hactive : s.active r = (p, c) :: rest) :
    Lent { s with
      pools := Function.update s.pools p
        { s.pools p with available := c :: (s.pools p).available }
      active := Function.update s.active r rest
      phase := phase } := by
  have hc := h.lent r p c (by rw [hactive]; exact List.mem_cons_self)
  have htail : ∀ r' {x}, _ := fun r' {x} =>
    mem_update_tail (x := x) hactive (h.head_notMem hactive) r'
  refine h.setPool rfl (List.nodup_cons.mpr ⟨hc.2, h.nodup p⟩) ?_ (h.keys_tail hactive) ?_ ?_ ?_ ?_
  · intro c' hc'
    rcases List.mem_cons.mp hc' with rfl | hc'
    · exact hc.1
    · exact h.free p c' hc'
  · intro r' q c' hq
    rw [htail]
    simp [hq]
  · intro r' c' hc'
    obtain ⟨hmem, hne⟩ := h.ne_of_mem_tail hactive hc'
    refine ⟨(h.lent r' p c' hmem).1, ?_⟩
    rw [List.mem_cons, not_or]
    exact ⟨hne, (h.lent r' p c' hmem).2⟩
  · intro r1 r2 c' h1 h2
    exact h.sole r1 r2 p c' ((htail r1).mp h1).1 ((htail r2).mp h2).1
  · intro hregistered c' hc'
    by_cases hcc : c' = c
    · subst hcc
      exact .inl List.mem_cons_self
    · rcases h.whole p hregistered c' hc' with hfree | ⟨r', hr'⟩
      · exact .inl (List.mem_cons_of_mem _ hfree)
      · refine .inr ⟨r', (htail r').mpr ⟨hr', ?_⟩⟩
        rintro ⟨-, heq⟩
        cases heq
        exact hcc rfl

/-- A connection of a pool that was closed is dropped. -/
theorem Lent.drop {phase : Nat → Phase} (h : Lent s) (hactive : s.active r = (p, c) :: rest)
    (hclosed : (s.pools p).registered = false) :
    Lent { s with active := Function.update s.active r rest, phase := phase } := by
  have htail : ∀ r' {x}, _ := fun r' {x} =>
    mem_update_tail (x := x) hactive (h.head_notMem hactive) r'
  refine ⟨h.below, h.apart, h.nodup, h.free, h.keys_tail hactive, ?_, ?_, ?_⟩
  · exact fun r' q c' hc' => h.lent r' q c' ((htail r').mp hc').1
  · exact fun r1 r2 q c' h1 h2 => h.sole r1 r2 q c' ((htail r1).mp h1).1 ((htail r2).mp h2).1
  · intro q hregistered c' hc'
    rcases h.whole q hregistered c' hc' with hfree | ⟨r', hr'⟩
    · exact .inl hfree
    · refine .inr ⟨r', (htail r').mpr ⟨hr', ?_⟩⟩
      rintro ⟨-, heq⟩
      cases heq
      exact absurd hregistered (by rw [hclosed]; nofun)

end GiveBack

theorem Lent.close (h : Lent s) (p : Nat) :
    Lent { s with pools := Function.update s.pools p { s.pools p with registered := false } } :=
  h.setPool rfl (h.nodup p) (h.free p) h.keys (fun _ _ _ _ => Iff.rfl)
    (fun r c hc => h.lent r p c hc) (fun r r' c hc hc' => h.sole r r' p c hc hc') nofun

theorem Lent.step (h : Lent s) (hw : Waits s) (hmove : Move s a s') : Lent s' := by
  cases hmove with
  | connect hnew _ => exact h.connect hnew
  | close => exact h.close _
  | take hlooks hfree => exact h.take (hw.absent_of_looks hlooks) hfree
  | giveBack _ _ hactive _ => exact h.giveBack hactive
  | drop _ _ hactive hclosed => exact h.drop hactive hclosed
  | exhaust => exact h.congr rfl rfl rfl
  | register => exact h.congr rfl rfl rfl
  | statement => exact h.congr rfl rfl rfl
  | txOpen => exact h.congr rfl rfl rfl
  | txEnd => exact h.congr rfl rfl rfl
  | settle => exact h.congr rfl rfl rfl
  | notifyNone => exact h.congr rfl rfl rfl
  | notify => exact h.congr rfl rfl rfl

/-- Each connection of a pool is free once, or is borrowed by one request. -/
theorem Lent.free_or_borrowed (h : Lent s) (hregistered : (s.pools p).registered = true)
    (hc : c ∈ (s.pools p).all) :
    ((s.pools p).available.count c = 1 ∧ ∀ r, (p, c) ∉ s.active r) ∨
      (c ∉ (s.pools p).available ∧ ∃! r, (p, c) ∈ s.active r) := by
  rcases h.whole p hregistered c hc with hfree | ⟨r, hr⟩
  · refine .inl ⟨List.count_eq_one_of_mem (h.nodup p) hfree, ?_⟩
    exact fun r hr => (h.lent r p c hr).2 hfree
  · exact .inr ⟨(h.lent r p c hr).2, r, hr, fun r' hr' => h.sole r' r p c hr' hr⟩

/-- A request has one connection of a pool. -/
theorem Lent.conn_unique (h : Lent s) {c' : Nat} (hc : (p, c) ∈ s.active r)
    (hc' : (p, c') ∈ s.active r) : c = c' := by
  have heq := List.inj_on_of_nodup_map (h.keys r) hc hc' rfl
  cases heq
  rfl

/-- Two connections that are borrowed at different places are different. -/
theorem Lent.eq_of_conn (h : Lent s) {r' p' : Nat} (hc : (p, c) ∈ s.active r)
    (hc' : (p', c) ∈ s.active r') : p' = p ∧ r' = r := by
  obtain rfl := h.apart p' p c (h.lent r' p' c hc').1 (h.lent r p c hc).1
  exact ⟨rfl, h.sole r' r p' c hc' hc⟩

end Lent

/-! ## The state of a connection -/

/-- The free connections are as they were opened, and `tx_depth` of a borrowed one is the
number of calls of `db::transaction` that its request is in. -/
structure Tidy (s : System) : Prop where
  free : ∀ p, ∀ c ∈ (s.pools p).available, s.conns c = .idle
  unopened : ∀ c, s.opened ≤ c → s.conns c = .idle
  depth : ∀ r p c, (p, c) ∈ s.active r → (s.conns c).txDepth = (s.levels r).count p
  inside : ∀ r, ∀ p ∈ s.levels r, ∃ c, (p, c) ∈ s.active r

/-- The server accepts the `COMMIT` or `RELEASE SAVEPOINT` of `db::transaction`, and no
transaction is open on a connection that goes back to its pool. -/
def clean (s : System) : Action → Bool
  | .txReturn _ accepted _ => accepted
  | .giveBack r => (s.active r).head?.all fun x =>
      !(s.pools x.1).registered || !(s.conns x.2).inTransaction
  | _ => true

section Tidy

variable {fiber : Nat → Bool} {s s' : System} {a : Action} {r p c : Nat}

theorem start_tidy : Tidy System.start where
  free := nofun
  unopened _ _ := rfl
  depth := nofun
  inside := nofun

theorem Tidy.congr (h : Tidy s) (hpools : s'.pools = s.pools) (hopened : s'.opened = s.opened)
    (hactive : s'.active = s.active) (hconns : s'.conns = s.conns)
    (hlevels : s'.levels = s.levels) : Tidy s' := by
  obtain ⟨pools, conns, opened, active, levels, waiters, phase⟩ := s'
  cases hpools
  cases hopened
  cases hactive
  cases hconns
  cases hlevels
  exact ⟨h.free, h.unopened, h.depth, h.inside⟩

/-- Other free connections of one pool, as they were opened. -/
theorem Tidy.free_update {pool : Pool} (h : Tidy s)
    (hpool : ∀ c ∈ pool.available, s.conns c = .idle) :
    ∀ q, ∀ c ∈ (Function.update s.pools p pool q).available, s.conns c = .idle :=
  (Function.forall_update_iff s.pools fun _ pool => ∀ c ∈ pool.available, s.conns c = .idle).mpr
    ⟨hpool, fun q _ => h.free q⟩

theorem Tidy.connect {n : Nat} (h : Tidy s) :
    Tidy { s with
      pools := Function.update s.pools p
        ⟨List.range' s.opened n, (List.range' s.opened n).reverse, true⟩
      opened := s.opened + n } := by
  refine ⟨h.free_update ?_, ?_, h.depth, h.inside⟩
  · exact fun c hc => h.unopened c (List.mem_range'_1.mp (List.mem_reverse.mp hc)).1
  · exact fun c hc => h.unopened c (Nat.le_trans (Nat.le_add_right _ _) hc)

theorem Tidy.close (h : Tidy s) (p : Nat) :
    Tidy { s with pools := Function.update s.pools p { s.pools p with registered := false } } :=
  ⟨h.free_update (h.free p), h.unopened, h.depth, h.inside⟩

theorem Tidy.take {rest : List Nat} (h : Tidy s) (habsent : ∀ c, (p, c) ∉ s.active r)
    (hfree : (s.pools p).available = c :: rest) : Tidy (s.take r p c rest) := by
  have hidle : s.conns c = .idle := h.free p c (by rw [hfree]; exact List.mem_cons_self)
  refine ⟨h.free_update ?_, h.unopened, ?_, ?_⟩
  · exact fun c' hc' => h.free p c' (by rw [hfree]; exact List.mem_cons_of_mem _ hc')
  · intro r' q c' hc'
    rcases (mem_update_cons r').mp hc' with ⟨hr, heq⟩ | hc'
    · cases heq
      subst hr
      -- a request without a connection of the pool is in no call on the pool
      have hnone : p ∉ s.levels r' := by
        intro hp
        obtain ⟨c', hc'⟩ := h.inside r' p hp
        exact habsent c' hc'
      rw [System.take, hidle, List.count_eq_zero_of_not_mem hnone]
      rfl
    · exact h.depth r' q c' hc'
  · intro r' q hq
    obtain ⟨c', hc'⟩ := h.inside r' q hq
    exact ⟨c', (mem_update_cons r').mpr (.inr hc')⟩

/-- The borrower changes its connection. -/
theorem Tidy.setConn (h : Tidy s) (hl : Lent s) (conn : Conn) (levels : List Nat)
    (hc : (p, c) ∈ s.active r) (hdepth : conn.txDepth = levels.count p)
    (hcount : ∀ q, q ≠ p → levels.count q = (s.levels r).count q)
    (hinside : ∀ q ∈ levels, q = p ∨ q ∈ s.levels r) :
    Tidy { s.setConn c conn with levels := Function.update s.levels r levels } := by
  obtain ⟨hall, hbusy⟩ := hl.lent r p c hc
  refine ⟨?_, ?_, ?_, ?_⟩
  · intro q c' hc'
    have hne : c' ≠ c := by
      rintro rfl
      obtain rfl := hl.apart q p c' (hl.free q c' hc') hall
      exact hbusy hc'
    dsimp only [System.setConn]
    rw [Function.update_of_ne hne]
    exact h.free q c' hc'
  · intro c' hc'
    have hne : c' ≠ c := by
      rintro rfl
      exact absurd (hl.below p c' hall) (Nat.not_lt.mpr hc')
    dsimp only [System.setConn]
    rw [Function.update_of_ne hne]
    exact h.unopened c' hc'
  · intro r' q c' hc'
    dsimp only [System.setConn] at hc' ⊢
    by_cases hcc : c' = c
    · subst hcc
      obtain ⟨rfl, rfl⟩ := hl.eq_of_conn hc hc'
      rw [Function.update_self, Function.update_self]
      exact hdepth
    · rw [Function.update_of_ne hcc, h.depth r' q c' hc']
      by_cases hr : r' = r
      · subst hr
        rw [Function.update_self]
        have hqp : q ≠ p := by
          rintro rfl
          exact hcc (hl.conn_unique hc' hc)
        rw [hcount q hqp]
      · rw [Function.update_of_ne hr]
  · intro r' q hq
    dsimp only [System.setConn] at hq ⊢
    by_cases hr : r' = r
    · subst hr
      rw [Function.update_self] at hq
      rcases hinside q hq with rfl | hq
      · exact ⟨c, hc⟩
      · exact h.inside r' q hq
    · rw [Function.update_of_ne hr] at hq
      exact h.inside r' q hq

/-- A connection with no transaction open goes back. -/
theorem Tidy.giveBack {rest : List (Nat × Nat)} {phase : Nat → Phase} (h : Tidy s) (hl : Lent s)
    (hlevels : s.levels r = []) (hactive : s.active r = (p, c) :: rest)
    (hclosed : (s.conns c).inTransaction = false) :
    Tidy { s with
      pools := Function.update s.pools p
        { s.pools p with available := c :: (s.pools p).available }
      active := Function.update s.active r rest
      phase := phase } := by
  have hidle : s.conns c = .idle := by
    have hdepth := h.depth r p c (by rw [hactive]; exact List.mem_cons_self)
    rw [hlevels] at hdepth
    calc s.conns c = ⟨(s.conns c).inTransaction, (s.conns c).txDepth⟩ := rfl
      _ = .idle := by
        rw [hclosed, hdepth]
        rfl
  have htail := fun r' x =>
    mem_update_tail (x := x) hactive (hl.head_notMem hactive) r'
  refine ⟨h.free_update (List.forall_mem_cons.mpr ⟨hidle, h.free p⟩), h.unopened, ?_, ?_⟩
  · exact fun r' q c' hc' => h.depth r' q c' ((htail r' _).mp hc').1
  · intro r' q hq
    obtain ⟨c', hc'⟩ := h.inside r' q hq
    refine ⟨c', (htail r' _).mpr ⟨hc', ?_⟩⟩
    rintro ⟨rfl, -⟩
    rw [hlevels] at hq
    cases hq

theorem Tidy.drop {rest : List (Nat × Nat)} {phase : Nat → Phase} (h : Tidy s) (hl : Lent s)
    (hlevels : s.levels r = []) (hactive : s.active r = (p, c) :: rest) :
    Tidy { s with active := Function.update s.active r rest, phase := phase } := by
  have htail := fun r' x =>
    mem_update_tail (x := x) hactive (hl.head_notMem hactive) r'
  refine ⟨h.free, h.unopened, ?_, ?_⟩
  · exact fun r' q c' hc' => h.depth r' q c' ((htail r' _).mp hc').1
  · intro r' q hq
    obtain ⟨c', hc'⟩ := h.inside r' q hq
    refine ⟨c', (htail r' _).mpr ⟨hc', ?_⟩⟩
    rintro ⟨rfl, -⟩
    rw [hlevels] at hq
    cases hq

theorem Tidy.step (h : Tidy s) (hl : Lent s) (hw : Waits s) (hmove : Move s a s')
    (hclean : clean s a = true) : Tidy s' := by
  cases hmove with
  | connect => exact h.connect
  | close => exact h.close _
  | take hlooks hfree => exact h.take (hw.absent_of_looks hlooks) hfree
  | @statement _ r p c inTransaction hphase hc =>
    have hmem := mem_of_borrowed hc
    have hsame := h.setConn hl { s.conns c with inTransaction := inTransaction } (s.levels r) hmem
      (h.depth r p c hmem) (fun _ _ => rfl) (fun _ hq => .inr hq)
    rwa [Function.update_eq_self] at hsame
  | @txOpen r p c accepted inTransaction hphase hc =>
    have hmem := mem_of_borrowed hc
    refine h.setConn hl _ _ hmem ?_ ?_ ?_
    · rw [List.count_cons_self, h.depth r p c hmem]
      rfl
    · exact fun q hq => List.count_cons_of_ne (Ne.symm hq)
    · exact fun q hq => List.mem_cons.mp hq
  | @txEnd _ r p c rest inTransaction txDepth hphase hlevels hc hdepth =>
    have hmem := mem_of_borrowed hc
    have hdepth : txDepth = (s.conns c).txDepth - 1 := by
      rcases hdepth with hdepth | ⟨⟨_, rfl⟩, -⟩
      · exact hdepth
      · cases hclean
    refine h.setConn hl _ _ hmem ?_ ?_ ?_
    · dsimp only
      rw [hdepth, h.depth r p c hmem, hlevels, List.count_cons_self]
      omega
    · intro q hq
      rw [hlevels, List.count_cons_of_ne (Ne.symm hq)]
    · intro q hq
      rw [hlevels]
      exact .inr (List.mem_cons_of_mem _ hq)
  | @giveBack r p c rest _ hlevels hactive hregistered =>
    refine h.giveBack hl hlevels hactive ?_
    rw [clean, hactive, List.head?_cons, Option.all_some, hregistered] at hclean
    simpa using hclean
  | drop _ hlevels hactive _ => exact h.drop hl hlevels hactive
  | exhaust => exact h.congr rfl rfl rfl rfl rfl
  | register => exact h.congr rfl rfl rfl rfl rfl
  | settle => exact h.congr rfl rfl rfl rfl rfl
  | notifyNone => exact h.congr rfl rfl rfl rfl rfl
  | notify => exact h.congr rfl rfl rfl rfl rfl

/-- A request gets a connection by `acquire` only. -/
theorem idle_of_handed_out (h : Tidy s) (hmove : Move s a s') (hbefore : (p, c) ∉ s.active r)
    (hafter : (p, c) ∈ s'.active r) : s'.conns c = .idle := by
  have htail : ∀ {r'} {x : Nat × Nat} {rest}, s.active r' = x :: rest →
      (p, c) ∉ Function.update s.active r' rest r := by
    intro r' x rest hactive hmem
    by_cases hr : r = r'
    · subst hr
      rw [Function.update_self] at hmem
      exact hbefore (by rw [hactive]; exact List.mem_cons_of_mem _ hmem)
    · rw [Function.update_of_ne hr] at hmem
      exact hbefore hmem
  cases hmove with
  | @take _ r' p' c' rest _ hfree =>
    rcases (mem_update_cons r).mp hafter with ⟨-, heq⟩ | hmem
    · cases heq
      exact h.free p c (by rw [hfree]; exact List.mem_cons_self)
    · exact absurd hmem hbefore
  | giveBack _ _ hactive _ => exact absurd hafter (htail hactive)
  | drop _ _ hactive _ => exact absurd hafter (htail hactive)
  | _ => exact absurd hafter hbefore

theorem run_lent {ok : System → Action → Prop} (hrun : RunWhere (Step fiber) ok System.start s) :
    Lent s := by
  have hboth : Lent s ∧ Waits s := by
    refine RunWhere.keeps (I := fun s => Lent s ∧ Waits s) ?_ hrun ⟨start_lent, start_waits⟩
    rintro s a s' hstep - ⟨hl, hw⟩
    exact ⟨hl.step hw (step_move hstep), hw.step (step_move hstep)⟩
  exact hboth.1

theorem run_tidy (hrun : RunWhere (Step fiber) (fun s a => clean s a = true) System.start s) :
    Tidy s := by
  have hall : Tidy s ∧ Lent s ∧ Waits s := by
    refine RunWhere.keeps (I := fun s => Tidy s ∧ Lent s ∧ Waits s) ?_ hrun
      ⟨start_tidy, start_lent, start_waits⟩
    rintro s a s' hstep hclean ⟨ht, hl, hw⟩
    have hmove := step_move hstep
    exact ⟨ht.step hl hw hmove hclean, hl.step hw hmove, hw.step hmove⟩
  exact hall.1

/-- In a run in which the server accepts the closing statements of `db::transaction` and no
connection goes back with a transaction open: every connection of a pool is free once or
borrowed by one request, and one that is handed out has no transaction open and
`tx_depth` 0. -/
theorem handed_out
    (hrun : RunWhere (Step fiber) (fun s a => clean s a = true) System.start s) :
    (∀ p, (s.pools p).registered = true → ∀ c ∈ (s.pools p).all,
      ((s.pools p).available.count c = 1 ∧ ∀ r, (p, c) ∉ s.active r) ∨
        (c ∉ (s.pools p).available ∧ ∃! r, (p, c) ∈ s.active r)) ∧
    ∀ a s' r p c, Step fiber s a s' → (p, c) ∉ s.active r → (p, c) ∈ s'.active r →
      (s'.conns c).inTransaction = false ∧ (s'.conns c).txDepth = 0 := by
  refine ⟨fun p hregistered c hc => (run_lent hrun).free_or_borrowed hregistered hc, ?_⟩
  intro a s' r p c hstep hbefore hafter
  have hidle := idle_of_handed_out (run_tidy hrun) (step_move hstep) hbefore hafter
  rw [hidle]
  exact ⟨rfl, rfl⟩

end Tidy

/-- A request runs a transaction and ends, and another request gets the connection. -/
theorem handed_out_after_commit : ∃ s s', Step (fun _ => false) s (.acquire 1 0) s' ∧
    (s'.conns 1).inTransaction = false ∧ (s'.conns 1).txDepth = 0 ∧ (0, 1) ∈ s'.active 1 := by
  have hrun : (stepsWhere (step fun _ => false) clean System.start
      [.connect 0 2, .acquire 0 0, .txOpen 0 0 true true, .statement 0 0 true,
        .txReturn 0 true false, .giveBack 0, .notify 0, .finish 0]).any (fun s =>
        !decide ((0, 1) ∈ s.active 1) && (step (fun _ => false) s (.acquire 1 0)).any fun s' =>
          decide ((0, 1) ∈ s'.active 1)) = true := by
    decide +kernel
  obtain ⟨s, hs, hend⟩ := (Option.any_eq_true _ _).mp hrun
  rw [Bool.and_eq_true, Bool.not_eq_true', decide_eq_false_iff_not] at hend
  obtain ⟨s', hs', hafter⟩ := (Option.any_eq_true _ _).mp hend.2
  have hafter := of_decide_eq_true hafter
  obtain ⟨hopen, hdepth⟩ :=
    (handed_out (runWhere_of_stepsWhere hs)).2 _ s' 1 0 1 hs' hend.1 hafter
  exact ⟨s, s', hs', hopen, hdepth, hafter⟩

/-- A request ends after `db::begin`: the next request gets a connection with the
transaction open.  A request whose `COMMIT` is rejected ends: the next request gets a
connection with `tx_depth` -1. -/
theorem transaction_handed_out :
    (∃ s s', Run (Step fun _ => false) System.start s ∧
      Step (fun _ => false) s (.acquire 1 0) s' ∧ (0, 1) ∉ s.active 1 ∧ (0, 1) ∈ s'.active 1 ∧
      (s'.conns 1).inTransaction = true) ∧
    ∃ s s', Run (Step fun _ => false) System.start s ∧
      Step (fun _ => false) s (.acquire 1 0) s' ∧ (0, 1) ∉ s.active 1 ∧ (0, 1) ∈ s'.active 1 ∧
      (s'.conns 1).txDepth = -1 := by
  have hbegin : ([.connect 0 2, .acquire 0 0, .statement 0 0 true, .giveBack 0, .notify 0,
      .finish 0].foldlM (step fun _ => false) System.start).any (fun s =>
        !decide ((0, 1) ∈ s.active 1) && (step (fun _ => false) s (.acquire 1 0)).any fun s' =>
          decide ((0, 1) ∈ s'.active 1) && (s'.conns 1).inTransaction) = true := by
    decide +kernel
  have hcommit : ([.connect 0 2, .acquire 0 0, .txOpen 0 0 true true, .txReturn 0 false false,
      .giveBack 0, .notify 0, .finish 0].foldlM (step fun _ => false) System.start).any (fun s =>
        !decide ((0, 1) ∈ s.active 1) && (step (fun _ => false) s (.acquire 1 0)).any fun s' =>
          decide ((0, 1) ∈ s'.active 1) && decide ((s'.conns 1).txDepth = -1)) = true := by
    decide +kernel
  constructor
  · obtain ⟨s, hs, hend⟩ := (Option.any_eq_true _ _).mp hbegin
    rw [Bool.and_eq_true, Bool.not_eq_true', decide_eq_false_iff_not] at hend
    obtain ⟨s', hs', hafter⟩ := (Option.any_eq_true _ _).mp hend.2
    rw [Bool.and_eq_true, decide_eq_true_eq] at hafter
    exact ⟨s, s', run_of_foldlM hs, hs', hend.1, hafter.1, hafter.2⟩
  · obtain ⟨s, hs, hend⟩ := (Option.any_eq_true _ _).mp hcommit
    rw [Bool.and_eq_true, Bool.not_eq_true', decide_eq_false_iff_not] at hend
    obtain ⟨s', hs', hafter⟩ := (Option.any_eq_true _ _).mp hend.2
    rw [Bool.and_eq_true, decide_eq_true_eq, decide_eq_true_eq] at hafter
    exact ⟨s, s', run_of_foldlM hs, hs', hend.1, hafter.1, hafter.2⟩

/-! ## Whatever the server answers -/

/-- In every run a connection of a pool is free once or borrowed by one request, no connection is
borrowed twice, a request has at most one connection of a pool, and a fiber that waits for a pool
is suspended and has none of its connections. -/
theorem sole_borrower_of_run {fiber : Nat → Bool} {s : System}
    (hrun : Run (Step fiber) System.start s) :
    (∀ p, (s.pools p).registered = true → ∀ c ∈ (s.pools p).all,
      ((s.pools p).available.count c = 1 ∧ ∀ r, (p, c) ∉ s.active r) ∨
        (c ∉ (s.pools p).available ∧ ∃! r, (p, c) ∈ s.active r)) ∧
    (∀ r r' p p' c, (p, c) ∈ s.active r → (p', c) ∈ s.active r' → p' = p ∧ r' = r) ∧
    (∀ r p c c', (p, c) ∈ s.active r → (p, c') ∈ s.active r → c = c') ∧
    ∀ f p, (f, p) ∈ s.waiters → s.phase f = .suspended p ∧ ∀ c, (p, c) ∉ s.active f := by
  have hlent : Lent s := run_lent hrun
  have hwaits : Waits s := run_waits hrun
  refine ⟨fun p hregistered c hc => hlent.free_or_borrowed hregistered hc, ?_, ?_, ?_⟩
  · intro r r' p p' c hc hc'
    exact hlent.eq_of_conn hc hc'
  · intro r p c c' hc hc'
    exact hlent.conn_unique hc hc'
  · intro f p hwaiter
    have hphase := hwaits.queued f p hwaiter
    refine ⟨hphase, hwaits.absent f p ?_⟩
    rw [hphase]
    rfl

/-- A request ends after `db::begin`, another one gets its connection, and a fiber waits. -/
theorem sole_borrower_of_run_begin : ∃ s : System, (s.conns 0).inTransaction = true ∧
    (2, 0) ∈ s.waiters ∧ (∀ c, (0, c) ∉ s.active 2) ∧
    ∀ r, (0, 0) ∈ s.active r → r = 1 := by
  have hrun : ([.connect 0 1, .acquire 0 0, .statement 0 0 true, .giveBack 0, .notify 0, .finish 0,
      .acquire 1 0, .acquire 2 0, .register 2].foldlM (step fun _ => true) System.start).any
        (fun s => (s.conns 0).inTransaction && decide ((2, 0) ∈ s.waiters) &&
          decide ((0, 0) ∈ s.active 1)) = true := by
    decide +kernel
  obtain ⟨s, hs, hend⟩ := (Option.any_eq_true _ _).mp hrun
  rw [Bool.and_eq_true, Bool.and_eq_true, decide_eq_true_eq, decide_eq_true_eq] at hend
  obtain ⟨⟨hopen, hwaiter⟩, hactive⟩ := hend
  obtain ⟨-, hsole, -, hwaiters⟩ := sole_borrower_of_run (run_of_foldlM hs)
  refine ⟨s, hopen, hwaiter, (hwaiters 2 0 hwaiter).2, ?_⟩
  intro r hr
  exact (hsole 1 r 0 0 0 hactive hr).2

end Db

end Look
