/-
The stores through which requests hand over values: `cache::`, `queue::` and channels.

A party is code that holds values of its own, and values go from one party to another
through the stores only.  An array is shared by whoever holds its address, and a party
may write into every array that it holds.  The cache clones a value when it is set and
when it is read and a channel clones it when it is sent; a queue does not clone.  As long
as no array is pushed to a queue, every array has one owner, and what is read from a store
is what was stored.

The arrays and the value at the moment of the store are kept in an item for the
statements only.
-/
import Mathlib.Logic.Function.Basic
import Look.Lib.Reach
import Look.Stores.Clone

namespace Look

namespace Handover

open Cells (Unfolding Shape Bounded Closed)
open Clone (deepClone DataOnly Fresh)

/-- A value in a store.  `arrays` and `stored` are the arrays and the value when it was
stored. -/
structure Item where
  value : Value
  arrays : Arrays
  stored : Value
deriving DecidableEq

/-- `LookChannel`.  A send that waits for room is one that happens later. -/
structure Channel where
  queue : List Item
  recvGen : Nat
  closed : Bool
deriving DecidableEq

structure World where
  arrays : Arrays
  /-- The values that a party holds. -/
  held : Nat → List Value
  cache : String → Option Item
  queues : String → List Item
  channels : Nat → Channel

def World.start : World :=
  ⟨[], fun _ => [], fun _ => none, fun _ => [], fun _ => ⟨[], 0, false⟩⟩

def World.hold (w : World) (r : Nat) (v : Value) : World :=
  { w with held := Function.update w.held r (v :: w.held r) }

/-- The value can be written by the party: it is not an array, or the party holds it. -/
def World.holds (w : World) (r : Nat) (v : Value) : Bool :=
  v.isData && (v.ref.isNone || v ∈ w.held r)

inductive Action where
  | make (r : Nat) (es : List Value)
  | read (r p i : Nat)
  | write (r p : Nat) (es : List Value)
  | cacheSet (r : Nat) (key : String) (v : Value)
  | cacheGet (r : Nat) (key : String)
  | cacheDrop (key : String)
  | queuePush (r : Nat) (name : String) (v : Value)
  | queuePop (r : Nat) (name : String)
  | send (r c : Nat) (v : Value)
  | receive (r c : Nat)
  | close (c : Nat)
deriving DecidableEq

/-- The party that acts. -/
def Action.party : Action → Option Nat
  | .make r _ | .read r _ _ | .write r _ _ | .cacheSet r _ _ | .cacheGet r _ | .queuePush r _ _
  | .queuePop r _ | .send r _ _ | .receive r _ => some r
  | .cacheDrop _ | .close _ => none

section Step

variable (bcFnCloner : Nat → Value)

/-- One step of a party; nothing when it cannot happen.  `make` is an array literal, and
`write` is any change of an array in place.  `cacheDrop` is a deletion, an expiry or an
eviction. -/
def step (w : World) : Action → Option World
  | .make r es =>
    if es.all (w.holds r) then
      some ({ w with arrays := w.arrays ++ [es] }.hold r (.array w.arrays.length))
    else none
  | .read r p i =>
    if w.holds r (.array p) then
      match w.arrays[p]? with
      | none => none
      | some es => es[i]?.map (w.hold r)
    else none
  | .write r p es =>
    if w.holds r (.array p) && es.all (w.holds r) then
      some { w with arrays := w.arrays.set p es }
    else none
  | .cacheSet r key v =>
    if w.holds r v then
      let (arrays, value) := deepClone bcFnCloner w.arrays v
      some { w with
        arrays := arrays
        cache := Function.update w.cache key (some ⟨value, w.arrays, v⟩) }
    else none
  | .cacheGet r key =>
    match w.cache key with
    | none => some (w.hold r .none)
    | some i =>
      let (arrays, value) := deepClone bcFnCloner w.arrays i.value
      some ({ w with arrays := arrays }.hold r value)
  | .cacheDrop key => some { w with cache := Function.update w.cache key none }
  | .queuePush r name v =>
    if w.holds r v then
      some { w with
        queues := Function.update w.queues name (w.queues name ++ [⟨v, w.arrays, v⟩]) }
    else none
  | .queuePop r name =>
    match w.queues name with
    | [] => some (w.hold r .none)
    | i :: rest => some ({ w with queues := Function.update w.queues name rest }.hold r i.value)
  | .send r c v =>
    if w.holds r v && !(w.channels c).closed then
      let (arrays, value) := deepClone bcFnCloner w.arrays v
      let chan := w.channels c
      some { w with
        arrays := arrays
        channels := Function.update w.channels c
          { chan with queue := chan.queue ++ [⟨value, w.arrays, v⟩] } }
    else none
  | .receive r c =>
    let chan := w.channels c
    match chan.queue with
    | [] => if chan.closed then some (w.hold r .none) else none
    | i :: rest =>
      some ({ w with
        channels := Function.update w.channels c
          { chan with queue := rest, recvGen := chan.recvGen + 1 } }.hold r i.value)
  | .close c =>
    some { w with channels := Function.update w.channels c { w.channels c with closed := true } }

def Step (w : World) (a : Action) (w' : World) : Prop := step bcFnCloner w a = some w'

end Step

/-- The item that an action reads, and the party that gets it. -/
def delivered (w : World) : Action → Option (Nat × Item)
  | .cacheGet r key => (w.cache key).map (r, ·)
  | .queuePop r name => (w.queues name).head?.map (r, ·)
  | .receive r c => (w.channels c).queue.head?.map (r, ·)
  | _ => none

/-- A value in one of the stores. -/
def World.Stores (w : World) (i : Item) : Prop :=
  (∃ key, w.cache key = some i) ∨ (∃ name, i ∈ w.queues name) ∨ ∃ c, i ∈ (w.channels c).queue

/-- No array is pushed to a queue. -/
def plain : Action → Bool
  | .queuePush _ _ v => v.ref.isNone
  | _ => true

/-! ## Owners -/

/-- Where an array belongs. -/
inductive Place where
  | party (r : Nat)
  | cache (key : String)
  | queue
  | sent (c n : Nat)
deriving DecidableEq

/-- Every array refers to arrays of its owner only. -/
structure Heap (owner : Nat → Place) (arrays : Arrays) : Prop where
  closed : Closed Value.ref owner arrays
  bounded : Bounded Value.ref arrays
  data : DataOnly arrays

/-- A value of an owner. -/
structure Owned (owner : Nat → Place) (arrays : Arrays) (o : Place) (v : Value) : Prop where
  data : v.isData = true
  ref : ∀ q, v.ref = some q → q < arrays.length ∧ owner q = o

/-- An item of an owner that still has the tree of the value that was stored. -/
structure Intact (owner : Nat → Place) (arrays : Arrays) (o : Place) (i : Item) : Prop where
  owned : Owned owner arrays o i.value
  shape : ∀ t, Shape Value.ref i.arrays i.stored t → Shape Value.ref arrays i.value t

structure Isolated (owner : Nat → Place) (w : World) : Prop where
  heap : Heap owner w.arrays
  held : ∀ r, ∀ v ∈ w.held r, Owned owner w.arrays (.party r) v
  cached : ∀ key i, w.cache key = some i → Intact owner w.arrays (.cache key) i
  queued : ∀ name, ∀ i ∈ w.queues name, i.value.ref = none ∧ Intact owner w.arrays .queue i
  sent : ∀ (c k : Nat) i, (w.channels c).queue[k]? = some i →
    Intact owner w.arrays (.sent c ((w.channels c).recvGen + k)) i

/-- The arrays from `n` on belong to `o`. -/
def extend (owner : Nat → Place) (n : Nat) (o : Place) (q : Nat) : Place :=
  if q < n then owner q else o

section Owners

variable {owner owner' : Nat → Place} {arrays arrays' : Arrays} {o : Place} {v : Value}

theorem extend_of_lt {n q : Nat} (h : q < n) : extend owner n o q = owner q := if_pos h

theorem extend_of_le {n q : Nat} (h : n ≤ q) : extend owner n o q = o := if_neg (Nat.not_lt.mpr h)

theorem Owned.of_atom (hdata : v.isData = true) (hv : v.ref = none) : Owned owner arrays o v :=
  ⟨hdata, fun _ hq => absurd (hv.symm.trans hq) nofun⟩

theorem Owned.move (h : Owned owner arrays o v) (hlen : arrays.length ≤ arrays'.length)
    (howner : ∀ q, q < arrays.length → owner' q = owner q) : Owned owner' arrays' o v where
  data := h.data
  ref q hq :=
    ⟨Nat.lt_of_lt_of_le (h.ref q hq).1 hlen, (howner q (h.ref q hq).1).trans (h.ref q hq).2⟩

/-- The items of an owner whose arrays stay. -/
theorem Intact.move {i : Item} (h : Intact owner arrays o i) (hheap : Heap owner arrays)
    (hlen : arrays.length ≤ arrays'.length)
    (howner : ∀ q, q < arrays.length → owner' q = owner q)
    (hsame : ∀ (q : Nat) es, owner q = o → arrays[q]? = some es → arrays'[q]? = some es) :
    Intact owner' arrays' o i where
  owned := h.owned.move hlen howner
  shape t ht := (h.shape t ht).frame hheap.closed (fun q hq => (h.owned.ref q hq).2) hsame

/-- New elements of one owner for an array of that owner. -/
theorem Heap.set {p : Nat} {es : List Value} (h : Heap owner arrays) (hp : owner p = o)
    (hes : ∀ e ∈ es, Owned owner arrays o e) : Heap owner (arrays.set p es) := by
  have hcell : ∀ (q : Nat) es', (arrays.set p es)[q]? = some es' →
      arrays[q]? = some es' ∨ (q = p ∧ es' = es) := by
    intro q es' hq
    rw [List.getElem?_set] at hq
    split at hq
    · rename_i hqp
      split at hq
      · exact .inr ⟨hqp.symm, (Option.some.inj hq).symm⟩
      · cases hq
    · exact .inl hq
  refine ⟨?_, ?_, ?_⟩
  · intro q es' hq e he q' hq'
    rcases hcell q es' hq with hq | ⟨rfl, rfl⟩
    · exact h.closed q es' hq e he q' hq'
    · exact ((hes e he).ref q' hq').2.trans hp.symm
  · intro q es' hq e he q' hq'
    rw [List.length_set]
    rcases hcell q es' hq with hq | ⟨rfl, rfl⟩
    · exact h.bounded q es' hq e he q' hq'
    · exact ((hes e he).ref q' hq').1
  · intro es' hmem e he
    obtain ⟨q, hq⟩ := List.mem_iff_getElem?.mp hmem
    rcases hcell q es' hq with hq | ⟨rfl, rfl⟩
    · exact h.data es' (List.mem_of_getElem? hq) e he
    · exact (hes e he).data

/-- More arrays, all of one owner, that refer to arrays of this owner. -/
theorem Heap.append {more : Arrays} (h : Heap owner arrays)
    (hmore : ∀ es ∈ more, ∀ e ∈ es, e.isData = true ∧ ∀ q, e.ref = some q →
      q < (arrays ++ more).length ∧ extend owner arrays.length o q = o) :
    Heap (extend owner arrays.length o) (arrays ++ more) := by
  refine ⟨?_, ?_, ?_⟩
  · intro p es hp e he q hq
    by_cases hlt : p < arrays.length
    · rw [List.getElem?_append_left hlt] at hp
      rw [extend_of_lt hlt, extend_of_lt (h.bounded p es hp e he q hq)]
      exact h.closed p es hp e he q hq
    · rw [List.getElem?_append_right (Nat.le_of_not_lt hlt)] at hp
      rw [extend_of_le (Nat.le_of_not_lt hlt)]
      exact ((hmore es (List.mem_of_getElem? hp) e he).2 q hq).2
  · intro p es hp e he q hq
    by_cases hlt : p < arrays.length
    · rw [List.getElem?_append_left hlt] at hp
      rw [List.length_append]
      exact Nat.lt_add_right _ (h.bounded p es hp e he q hq)
    · rw [List.getElem?_append_right (Nat.le_of_not_lt hlt)] at hp
      exact ((hmore es (List.mem_of_getElem? hp) e he).2 q hq).1
  · intro es hmem e he
    rcases List.mem_append.mp hmem with hmem | hmem
    · exact h.data es hmem e he
    · exact (hmore es hmem e he).1

/-- The arrays of a clone belong to whoever gets it. -/
theorem Heap.fresh (h : Heap owner arrays) (hf : Fresh arrays arrays' [v]) (o : Place) :
    Heap (extend owner arrays.length o) arrays' ∧
      Owned (extend owner arrays.length o) arrays' o v := by
  obtain ⟨more, rfl⟩ := hf.grows
  refine ⟨h.append ?_, ?_⟩
  · intro es hmem e he
    obtain ⟨k, hk⟩ := List.mem_iff_getElem?.mp hmem
    have hcell : (arrays ++ more)[arrays.length + k]? = some es := by
      rw [List.getElem?_append_right (Nat.le_add_right _ _), Nat.add_sub_cancel_left]
      exact hk
    obtain ⟨hdata, href⟩ := hf.cells _ es (Nat.le_add_right _ _) hcell e he
    exact ⟨hdata, fun q hq => ⟨(href q hq).2, extend_of_le (href q hq).1⟩⟩
  · obtain ⟨hdata, href⟩ := hf.roots v List.mem_cons_self
    exact ⟨hdata, fun q hq => ⟨(href q hq).2, extend_of_le (href q hq).1⟩⟩

end Owners

/-! ## One step -/

section Worlds

variable {owner owner' : Nat → Place} {w w' : World} {r : Nat} {v : Value} {i : Item}

theorem Isolated.hold (h : Isolated owner w) (hv : Owned owner w.arrays (.party r) v) :
    Isolated owner (w.hold r v) where
  heap := h.heap
  held := by
    refine (Function.forall_update_iff w.held
      (fun r' vs => ∀ v' ∈ vs, Owned owner w.arrays (.party r') v')).mpr ⟨?_, ?_⟩
    · exact List.forall_mem_cons.mpr ⟨hv, h.held r⟩
    · exact fun r' _ => h.held r'
  cached := h.cached
  queued := h.queued
  sent := h.sent

theorem Isolated.of_holds (h : Isolated owner w) (hv : w.holds r v = true) :
    Owned owner w.arrays (.party r) v := by
  rw [World.holds, Bool.and_eq_true, Bool.or_eq_true] at hv
  obtain ⟨hdata, hatom | hmem⟩ := hv
  · exact .of_atom hdata (Option.isNone_iff_eq_none.mp hatom)
  · exact h.held r v (of_decide_eq_true hmem)

/-- The arrays of one party change, and others are added. -/
theorem Isolated.setArrays {arrays : Arrays} (h : Isolated owner w) (hheap : Heap owner' arrays)
    (hlen : w.arrays.length ≤ arrays.length)
    (howner : ∀ q, q < w.arrays.length → owner' q = owner q)
    (hsame : ∀ (q : Nat) es, owner q ≠ .party r → w.arrays[q]? = some es → arrays[q]? = some es) :
    Isolated owner' { w with arrays := arrays } where
  heap := hheap
  held r' v hv := (h.held r' v hv).move hlen howner
  cached key i hi :=
    (h.cached key i hi).move h.heap hlen howner fun q es hq => hsame q es (by rw [hq]; nofun)
  queued name i hi :=
    ⟨(h.queued name i hi).1, (h.queued name i hi).2.move h.heap hlen howner
      fun q es hq => hsame q es (by rw [hq]; nofun)⟩
  sent c k i hi :=
    (h.sent c k i hi).move h.heap hlen howner fun q es hq => hsame q es (by rw [hq]; nofun)

/-- A clone of a value that belongs to `o'`, for `o`. -/
theorem Isolated.clone {bcFnCloner : Nat → Value} {o' : Place} (h : Isolated owner w)
    (hv : Owned owner w.arrays o' v) (o : Place) :
    Isolated (extend owner w.arrays.length o)
        { w with arrays := (deepClone bcFnCloner w.arrays v).1 } ∧
      Owned (extend owner w.arrays.length o) (deepClone bcFnCloner w.arrays v).1 o
        (deepClone bcFnCloner w.arrays v).2 ∧
      (∀ t, Shape Value.ref w.arrays v t →
        Shape Value.ref (deepClone bcFnCloner w.arrays v).1 (deepClone bcFnCloner w.arrays v).2 t) ∧
      ∀ (q : Nat) es, w.arrays[q]? = some es →
        (deepClone bcFnCloner w.arrays v).1[q]? = some es := by
  obtain ⟨hfresh, hshape⟩ := Clone.deepClone_spec _ h.heap.bounded
    h.heap.data hv.data fun q hq => (hv.ref q hq).1
  obtain ⟨hheap, howned⟩ := h.heap.fresh hfresh o
  have hsame : ∀ (q : Nat) es, w.arrays[q]? = some es →
      (deepClone bcFnCloner w.arrays v).1[q]? = some es := by
    intro q es hq
    obtain ⟨more, hmore⟩ := hfresh.grows
    rw [hmore, List.getElem?_append_left (List.getElem?_eq_some_iff.mp hq).1]
    exact hq
  refine ⟨?_, howned, hshape, hsame⟩
  exact h.setArrays (r := 0) hheap hfresh.length_le (fun q hq => extend_of_lt hq)
    fun q es _ => hsame q es

theorem Isolated.setCache {key : String} {entry : Option Item} (h : Isolated owner w)
    (hentry : ∀ i, entry = some i → Intact owner w.arrays (.cache key) i) :
    Isolated owner { w with cache := Function.update w.cache key entry } where
  heap := h.heap
  held := h.held
  cached := by
    refine (Function.forall_update_iff w.cache
      (fun key' entry => ∀ i, entry = some i → Intact owner w.arrays (.cache key') i)).mpr ?_
    exact ⟨hentry, fun key' _ => h.cached key'⟩
  queued := h.queued
  sent := h.sent

/-- Another content of a queue, of values that are no arrays. -/
theorem Isolated.setQueue {items : List Item} (h : Isolated owner w) (name : String)
    (hitems : ∀ i ∈ items, i.value.ref = none ∧ Intact owner w.arrays .queue i) :
    Isolated owner { w with queues := Function.update w.queues name items } where
  heap := h.heap
  held := h.held
  cached := h.cached
  queued := by
    refine (Function.forall_update_iff w.queues
      (fun _ items => ∀ i ∈ items, i.value.ref = none ∧ Intact owner w.arrays .queue i)).mpr ?_
    exact ⟨hitems, fun name' _ => h.queued name'⟩
  sent := h.sent

/-- Another content of a channel. -/
theorem Isolated.setChannel {c : Nat} {chan : Channel} (h : Isolated owner w)
    (hchan : ∀ (k : Nat) i, chan.queue[k]? = some i →
      Intact owner w.arrays (.sent c (chan.recvGen + k)) i) :
    Isolated owner { w with channels := Function.update w.channels c chan } where
  heap := h.heap
  held := h.held
  cached := h.cached
  queued := h.queued
  sent := by
    refine (Function.forall_update_iff w.channels
      (fun c' chan' => ∀ (k : Nat) i, chan'.queue[k]? = some i →
        Intact owner w.arrays (.sent c' (chan'.recvGen + k)) i)).mpr ?_
    exact ⟨hchan, fun c' _ => h.sent c'⟩

/-- The arrays of the first item of a channel go to the party that receives it. -/
def transfer (owner : Nat → Place) (o : Place) (r : Nat) (q : Nat) : Place :=
  if owner q = o then .party r else owner q

theorem transfer_of_eq {o : Place} {q : Nat} (h : owner q = o) : transfer owner o r q = .party r :=
  if_pos h

theorem transfer_of_ne {o : Place} {q : Nat} (h : owner q ≠ o) : transfer owner o r q = owner q :=
  if_neg h

theorem Owned.transfer {arrays : Arrays} {o o' : Place} (h : Owned owner arrays o v)
    (hne : o ≠ o') : Owned (transfer owner o' r) arrays o v where
  data := h.data
  ref q hq := by
    obtain ⟨hlt, howner⟩ := h.ref q hq
    exact ⟨hlt, (transfer_of_ne (howner ▸ hne)).trans howner⟩

theorem Intact.transfer {arrays : Arrays} {o o' : Place} (h : Intact owner arrays o i)
    (hne : o ≠ o') : Intact (transfer owner o' r) arrays o i :=
  ⟨h.owned.transfer hne, h.shape⟩

theorem Heap.transfer {arrays : Arrays} (h : Heap owner arrays) (o : Place) :
    Heap (transfer owner o r) arrays where
  closed p es hp e he q hq := by
    rw [Handover.transfer, h.closed p es hp e he q hq, Handover.transfer]
  bounded := h.bounded
  data := h.data

/-- The first item of a channel is received. -/
theorem Isolated.receive {c : Nat} {rest : List Item} (h : Isolated owner w)
    (hqueue : (w.channels c).queue = i :: rest) :
    Isolated (transfer owner (.sent c (w.channels c).recvGen) r)
      ({ w with
        channels := Function.update w.channels c
          { w.channels c with queue := rest, recvGen := (w.channels c).recvGen + 1 } }.hold r
        i.value) := by
  set o : Place := .sent c (w.channels c).recvGen with ho
  have hi : Intact owner w.arrays o i := h.sent c 0 i (by rw [hqueue]; rfl)
  have hrest : Isolated (transfer owner o r) { w with
      channels := Function.update w.channels c
        { w.channels c with queue := rest, recvGen := (w.channels c).recvGen + 1 } } := by
    refine ⟨h.heap.transfer o, ?_, ?_, ?_, ?_⟩
    · exact fun r' v hv => (h.held r' v hv).transfer nofun
    · exact fun key i hi => (h.cached key i hi).transfer nofun
    · exact fun name i hi => ⟨(h.queued name i hi).1, (h.queued name i hi).2.transfer nofun⟩
    · intro c' k i hi
      dsimp only at hi ⊢
      by_cases hc : c' = c
      · subst hc
        rw [Function.update_self] at hi ⊢
        have hnext := h.sent c' (k + 1) i (by rw [hqueue]; exact hi)
        rw [show (w.channels c').recvGen + (k + 1) = (w.channels c').recvGen + 1 + k by omega]
          at hnext
        refine hnext.transfer ?_
        rw [ho]
        intro heq
        injection heq
        omega
      · rw [Function.update_of_ne hc] at hi ⊢
        refine (h.sent c' k i hi).transfer ?_
        rw [ho]
        intro heq
        injection heq
        contradiction
  refine hrest.hold ⟨hi.owned.data, ?_⟩
  intro q hq
  exact ⟨(hi.owned.ref q hq).1, transfer_of_eq (hi.owned.ref q hq).2⟩

/-- What was stored is intact. -/
theorem Isolated.intact (h : Isolated owner w) (hi : w.Stores i) :
    ∃ o, (∀ r, o ≠ .party r) ∧ Intact owner w.arrays o i := by
  obtain ⟨key, hi⟩ | ⟨name, hi⟩ | ⟨c, hi⟩ := hi
  · exact ⟨.cache key, fun _ => nofun, h.cached key i hi⟩
  · exact ⟨.queue, fun _ => nofun, (h.queued name i hi).2⟩
  · obtain ⟨k, hk⟩ := List.mem_iff_getElem?.mp hi
    exact ⟨.sent c _, fun _ => nofun, h.sent c k i hk⟩

/-- An array that is no array of the party is not changed. -/
def Untouched (owner : Nat → Place) (a : Action) (w w' : World) : Prop :=
  ∀ (q : Nat) es, (∀ r, a.party = some r → owner q ≠ .party r) → w.arrays[q]? = some es →
    w'.arrays[q]? = some es

variable {bcFnCloner : Nat → Value} {a : Action}

theorem make_isolated {es : List Value} (h : Isolated owner w)
    (hstep : step bcFnCloner w (.make r es) = some w') :
    ∃ owner', Isolated owner' w' ∧ Untouched owner (.make r es) w w' := by
  rw [step] at hstep
  split at hstep
  · rename_i hes
    cases hstep
    have hes : ∀ e ∈ es, Owned owner w.arrays (.party r) e :=
      fun e he => h.of_holds (List.all_eq_true.mp hes e he)
    have hlen : w.arrays.length ≤ (w.arrays ++ [es]).length := by
      rw [List.length_append]
      exact Nat.le_add_right _ _
    have hsame : ∀ (q : Nat) es', w.arrays[q]? = some es' → (w.arrays ++ [es])[q]? = some es' := by
      intro q es' hq
      rw [List.getElem?_append_left (List.getElem?_eq_some_iff.mp hq).1]
      exact hq
    have hheap : Heap (extend owner w.arrays.length (.party r)) (w.arrays ++ [es]) := by
      refine h.heap.append ?_
      intro es' hes' e he
      obtain rfl := List.mem_singleton.mp hes'
      refine ⟨(hes e he).data, ?_⟩
      intro q hq
      obtain ⟨hlt, howner⟩ := (hes e he).ref q hq
      exact ⟨Nat.lt_of_lt_of_le hlt hlen, (extend_of_lt hlt).trans howner⟩
    refine ⟨extend owner w.arrays.length (.party r), ?_, fun q es' _ => hsame q es'⟩
    refine Isolated.hold (h.setArrays (r := r) hheap hlen (fun q hq => extend_of_lt hq)
      fun q es' _ => hsame q es') ⟨rfl, ?_⟩
    intro q hq
    cases hq
    exact ⟨by simp, extend_of_le (Nat.le_refl _)⟩
  · cases hstep

theorem read_isolated {p k : Nat} (h : Isolated owner w)
    (hstep : step bcFnCloner w (.read r p k) = some w') :
    ∃ owner', Isolated owner' w' ∧ Untouched owner (.read r p k) w w' := by
  rw [step] at hstep
  split at hstep
  · rename_i hp
    have hp := (h.of_holds hp).ref p rfl
    obtain ⟨es, hes⟩ : ∃ es, w.arrays[p]? = some es := ⟨_, List.getElem?_eq_getElem hp.1⟩
    rw [hes] at hstep
    obtain ⟨e, he, rfl⟩ := Option.map_eq_some_iff.mp hstep
    have hmem := List.mem_of_getElem? he
    have hdata := h.heap.data es (List.mem_of_getElem? hes) e hmem
    refine ⟨owner, h.hold ⟨hdata, ?_⟩, fun q es _ hq => hq⟩
    intro q hq
    exact ⟨h.heap.bounded p es hes e hmem q hq, (h.heap.closed p es hes e hmem q hq).trans hp.2⟩
  · cases hstep

theorem write_isolated {p : Nat} {es : List Value} (h : Isolated owner w)
    (hstep : step bcFnCloner w (.write r p es) = some w') :
    ∃ owner', Isolated owner' w' ∧ Untouched owner (.write r p es) w w' := by
  rw [step] at hstep
  split at hstep
  · rename_i hholds
    cases hstep
    rw [Bool.and_eq_true] at hholds
    have hp := (h.of_holds hholds.1).ref p rfl
    have hsame : ∀ (q : Nat) es', owner q ≠ .party r → w.arrays[q]? = some es' →
        (w.arrays.set p es)[q]? = some es' := by
      intro q es' hq hes'
      rw [List.getElem?_set_ne]
      · exact hes'
      · rintro rfl
        exact hq hp.2
    refine ⟨owner, ?_, fun q es' hq => hsame q es' (hq r rfl)⟩
    refine h.setArrays ?_ (Nat.le_of_eq List.length_set.symm) (fun _ _ => rfl) hsame
    exact h.heap.set hp.2 fun e he => h.of_holds (List.all_eq_true.mp hholds.2 e he)
  · cases hstep

theorem cacheSet_isolated {key : String} (h : Isolated owner w)
    (hstep : step bcFnCloner w (.cacheSet r key v) = some w') :
    ∃ owner', Isolated owner' w' ∧ Untouched owner (.cacheSet r key v) w w' := by
  rw [step] at hstep
  split at hstep
  · rename_i hv
    cases hstep
    obtain ⟨hclone, howned, hshape, hsame⟩ := h.clone (h.of_holds hv) (.cache key)
    refine ⟨_, hclone.setCache ?_, fun q es _ => hsame q es⟩
    intro i hi
    cases hi
    exact ⟨howned, hshape⟩
  · cases hstep

theorem cacheGet_isolated {key : String} (h : Isolated owner w)
    (hstep : step bcFnCloner w (.cacheGet r key) = some w') :
    ∃ owner', Isolated owner' w' ∧ Untouched owner (.cacheGet r key) w w' := by
  rw [step] at hstep
  split at hstep
  · cases hstep
    exact ⟨owner, h.hold (.of_atom rfl rfl), fun _ _ _ hq => hq⟩
  · rename_i i hi
    cases hstep
    obtain ⟨hclone, howned, -, hsame⟩ := h.clone (h.cached key i hi).owned (.party r)
    exact ⟨_, hclone.hold howned, fun q es _ => hsame q es⟩

theorem queuePush_isolated {name : String} (h : Isolated owner w)
    (hplain : plain (.queuePush r name v) = true)
    (hstep : step bcFnCloner w (.queuePush r name v) = some w') :
    ∃ owner', Isolated owner' w' ∧ Untouched owner (.queuePush r name v) w w' := by
  rw [step] at hstep
  split at hstep
  · rename_i hv
    cases hstep
    have hatom : v.ref = none := Option.isNone_iff_eq_none.mp hplain
    refine ⟨owner, h.setQueue name ?_, fun _ _ _ hq => hq⟩
    intro i hi
    rcases List.mem_append.mp hi with hi | hi
    · exact h.queued name i hi
    · obtain rfl := List.mem_singleton.mp hi
      exact ⟨hatom, .of_atom (h.of_holds hv).data hatom, fun t ht => ht⟩
  · cases hstep

theorem queuePop_isolated {name : String} (h : Isolated owner w)
    (hstep : step bcFnCloner w (.queuePop r name) = some w') :
    ∃ owner', Isolated owner' w' ∧ Untouched owner (.queuePop r name) w w' := by
  rw [step] at hstep
  split at hstep
  · cases hstep
    exact ⟨owner, h.hold (.of_atom rfl rfl), fun _ _ _ hq => hq⟩
  · rename_i i rest hqueue
    cases hstep
    have hall := h.queued name
    rw [hqueue] at hall
    obtain ⟨hatom, hi⟩ := hall i List.mem_cons_self
    have hrest := h.setQueue name fun j hj => hall j (List.mem_cons_of_mem _ hj)
    exact ⟨owner, hrest.hold (.of_atom hi.owned.data hatom), fun _ _ _ hq => hq⟩

theorem send_isolated {c : Nat} (h : Isolated owner w)
    (hstep : step bcFnCloner w (.send r c v) = some w') :
    ∃ owner', Isolated owner' w' ∧ Untouched owner (.send r c v) w w' := by
  rw [step] at hstep
  split at hstep
  · rename_i hv
    cases hstep
    rw [Bool.and_eq_true] at hv
    obtain ⟨hclone, howned, hshape, hsame⟩ := h.clone (h.of_holds hv.1)
      (.sent c ((w.channels c).recvGen + (w.channels c).queue.length))
    refine ⟨_, hclone.setChannel ?_, fun q es _ => hsame q es⟩
    intro k i hi
    rcases Nat.lt_or_ge k (w.channels c).queue.length with hk | hk
    · rw [List.getElem?_append_left hk] at hi
      exact hclone.sent c k i hi
    · rw [List.getElem?_append_right hk] at hi
      obtain rfl := List.mem_singleton.mp (List.mem_of_getElem? hi)
      have hlt := (List.getElem?_eq_some_iff.mp hi).1
      rw [List.length_singleton] at hlt
      obtain rfl : k = (w.channels c).queue.length := by omega
      exact ⟨howned, hshape⟩
  · cases hstep

theorem receive_isolated {c : Nat} (h : Isolated owner w)
    (hstep : step bcFnCloner w (.receive r c) = some w') :
    ∃ owner', Isolated owner' w' ∧ Untouched owner (.receive r c) w w' := by
  rw [step] at hstep
  split at hstep
  · split at hstep
    · cases hstep
      exact ⟨owner, h.hold (.of_atom rfl rfl), fun _ _ _ hq => hq⟩
    · cases hstep
  · rename_i i rest hqueue
    cases hstep
    exact ⟨_, h.receive hqueue, fun _ _ _ hq => hq⟩

/-- A step keeps the owners apart and changes arrays of its party only. -/
theorem step_isolated (h : Isolated owner w) (hstep : step bcFnCloner w a = some w')
    (hplain : plain a = true) : ∃ owner', Isolated owner' w' ∧ Untouched owner a w w' := by
  cases a with
  | make r es => exact make_isolated h hstep
  | read r p k => exact read_isolated h hstep
  | write r p es => exact write_isolated h hstep
  | cacheSet r key v => exact cacheSet_isolated h hstep
  | cacheGet r key => exact cacheGet_isolated h hstep
  | cacheDrop key =>
    cases hstep
    exact ⟨owner, h.setCache nofun, fun _ _ _ hq => hq⟩
  | queuePush r name v => exact queuePush_isolated h hplain hstep
  | queuePop r name => exact queuePop_isolated h hstep
  | send r c v => exact send_isolated h hstep
  | receive r c => exact receive_isolated h hstep
  | close c =>
    cases hstep
    exact ⟨owner, h.setChannel fun k i hi => h.sent c k i hi, fun _ _ _ hq => hq⟩

/-! ## What a party reads -/

/-- An action that reads an item gives a value with the tree of the stored value. -/
theorem Isolated.delivered (h : Isolated owner w) (hstep : step bcFnCloner w a = some w')
    (hi : delivered w a = some (r, i)) :
    ∃ v, (w'.held r).head? = some v ∧
      ∀ t, Shape Value.ref i.arrays i.stored t → Shape Value.ref w'.arrays v t := by
  have hhead : ∀ (w : World) v, ((w.hold r v).held r).head? = some v := by
    intro w v
    exact congrArg List.head? (Function.update_self r (v :: w.held r) w.held)
  cases a with
  | cacheGet r' key =>
    obtain ⟨i', hi', heq⟩ := Option.map_eq_some_iff.mp hi
    cases heq
    rw [step, hi'] at hstep
    cases hstep
    have hintact := h.cached key i hi'
    obtain ⟨-, -, hshape, -⟩ := h.clone hintact.owned (.party r)
    exact ⟨_, hhead _ _, fun t ht => hshape t (hintact.shape t ht)⟩
  | queuePop r' name =>
    obtain ⟨i', hi', heq⟩ := Option.map_eq_some_iff.mp hi
    cases heq
    obtain ⟨rest, hqueue⟩ := List.head?_eq_some_iff.mp hi'
    rw [step, hqueue] at hstep
    cases hstep
    refine ⟨_, hhead _ _, (h.queued name i ?_).2.shape⟩
    rw [hqueue]
    exact List.mem_cons_self
  | receive r' c =>
    obtain ⟨i', hi', heq⟩ := Option.map_eq_some_iff.mp hi
    cases heq
    obtain ⟨rest, hqueue⟩ := List.head?_eq_some_iff.mp hi'
    simp only [step, hqueue] at hstep
    cases hstep
    refine ⟨_, hhead _ _, (h.sent c 0 i ?_).shape⟩
    rw [hqueue]
    rfl
  | _ => cases hi

/-- A value of an owner whose arrays are not changed has the same trees. -/
theorem Owned.shape_iff {o : Place} (hv : Owned owner w.arrays o v) (h : Isolated owner w)
    (huntouched : Untouched owner a w w') (hne : ∀ r, a.party = some r → o ≠ .party r)
    (t : Unfolding Value) : Shape Value.ref w.arrays v t ↔ Shape Value.ref w'.arrays v t := by
  have hsame : ∀ (q : Nat) es, owner q = o → w.arrays[q]? = some es → w'.arrays[q]? = some es := by
    intro q es hq hes
    refine huntouched q es ?_ hes
    intro r hr
    rw [hq]
    exact hne r hr
  constructor
  · intro hs
    exact hs.frame h.heap.closed (fun q hq => (hv.ref q hq).2) hsame
  · intro hs
    exact hs.frame_back h.heap.closed h.heap.bounded hv.ref hsame

end Worlds

theorem start_isolated : Isolated (fun _ => .queue) World.start where
  heap :=
    { closed := by
        intro p es hp
        cases hp
      bounded := by
        intro p es hp
        cases hp
      data := fun _ hes => absurd hes List.not_mem_nil }
  held _ _ hv := absurd hv List.not_mem_nil
  cached _ _ hi := by cases hi
  queued _ _ hi := absurd hi List.not_mem_nil
  sent _ _ _ hi := by cases hi

section Runs

variable {bcFnCloner : Nat → Value} {w w' : World} {a : Action}

theorem run_isolated
    (hrun : RunWhere (Step bcFnCloner) (fun _ a => plain a = true) World.start w) :
    ∃ owner, Isolated owner w := by
  refine RunWhere.keeps (I := fun w => ∃ owner, Isolated owner w) ?_ hrun ⟨_, start_isolated⟩
  rintro w a w' hstep hplain ⟨owner, h⟩
  obtain ⟨owner', h', -⟩ := step_isolated h hstep hplain
  exact ⟨owner', h'⟩

/-- In a run that pushes no array to a queue: what a party reads from a store has the tree
of the value when it was stored, and no step of one party changes the tree of a value of
another party or of a value in a store. -/
theorem handed_over
    (hrun : RunWhere (Step bcFnCloner) (fun _ a => plain a = true) World.start w)
    (hstep : Step bcFnCloner w a w') (hplain : plain a = true) :
    (∀ r i, delivered w a = some (r, i) → ∃ v, (w'.held r).head? = some v ∧
      ∀ t, Shape Value.ref i.arrays i.stored t → Shape Value.ref w'.arrays v t) ∧
    (∀ r, a.party ≠ some r → ∀ v ∈ w.held r, ∀ t,
      Shape Value.ref w.arrays v t ↔ Shape Value.ref w'.arrays v t) ∧
    ∀ i, w.Stores i → ∀ t,
      Shape Value.ref w.arrays i.value t ↔ Shape Value.ref w'.arrays i.value t := by
  obtain ⟨owner, h⟩ := run_isolated hrun
  obtain ⟨-, -, huntouched⟩ := step_isolated h hstep hplain
  refine ⟨fun r i hi => h.delivered hstep hi, ?_, ?_⟩
  · intro r hr v hv t
    refine (h.held r v hv).shape_iff h huntouched ?_ t
    rintro r' hr' heq
    cases heq
    exact hr hr'
  · intro i hi t
    obtain ⟨o, ho, hintact⟩ := h.intact hi
    exact hintact.owned.shape_iff h huntouched (fun r' _ => ho r') t

end Runs

/-! ## An array in a queue -/

/-- The tree of an array with one element that is no array. -/
theorem shape_singleton {arrays : Arrays} {p : Nat} {v : Value} (hp : arrays[p]? = some [v])
    (hv : v.ref = none) : Shape Value.ref arrays (.array p) (.node [.atom v]) := by
  refine .node rfl hp rfl ?_
  intro i e t he ht
  obtain rfl := List.mem_singleton.mp (List.mem_of_getElem? he)
  obtain rfl := List.mem_singleton.mp (List.mem_of_getElem? ht)
  exact .atom hv

theorem elements_of_shape {arrays : Arrays} {p : Nat} {v : Value}
    (hs : Shape Value.ref arrays (.array p) (.node [.atom v])) : arrays[p]? = some [v] := by
  cases hs with
  | @node _ p' es _ hp hes hlen hts =>
    cases hp
    obtain ⟨e, rfl⟩ := List.length_eq_one_iff.mp hlen.symm
    have he := hts 0 e (.atom v) rfl rfl
    cases he
    exact hes

/-- A value is cached, its array is written, and another party reads the cache. -/
theorem handed_over_cached : ∃ (w w' : World) (i : Item) (v : Value),
    Step .bytecodeFn w (.cacheGet 1 "k") w' ∧ delivered w (.cacheGet 1 "k") = some (1, i) ∧
      w.arrays[0]? = some [.int 2] ∧ (w'.held 1).head? = some v ∧
      Shape Value.ref w'.arrays v (.node [.atom (.int 1)]) := by
  have hrun : (stepsWhere (step .bytecodeFn) (fun _ a => plain a) World.start
      [.make 0 [.int 1], .cacheSet 0 "k" (.array 0), .write 0 0 [.int 2]]).any (fun w =>
        w.arrays[0]? == some [.int 2] &&
        (delivered w (.cacheGet 1 "k") == some (1, ⟨.array 1, [[.int 1]], .array 0⟩) &&
        (step .bytecodeFn w (.cacheGet 1 "k")).isSome)) = true := by
    decide +kernel
  obtain ⟨w, hw, hend⟩ := (Option.any_eq_true _ _).mp hrun
  rw [Bool.and_eq_true, Bool.and_eq_true, beq_iff_eq, beq_iff_eq] at hend
  obtain ⟨harrays, hdelivered, hsome⟩ := hend
  obtain ⟨w', hw'⟩ := Option.isSome_iff_exists.mp hsome
  obtain ⟨v, hv, hshape⟩ :=
    (handed_over (runWhere_of_stepsWhere hw) hw' rfl).1 1 _ hdelivered
  exact ⟨w, w', _, v, hw', hdelivered, harrays, hv, hshape _ (shape_singleton rfl rfl)⟩

/-- A party pushes an array and writes into it: the party that pops it reads what was
written later. -/
theorem queue_shares : ∃ (w w' : World) (i : Item) (v : Value) (t : Unfolding Value),
    Run (Step .bytecodeFn) World.start w ∧ Step .bytecodeFn w (.queuePop 1 "q") w' ∧
      delivered w (.queuePop 1 "q") = some (1, i) ∧ (w'.held 1).head? = some v ∧
      Shape Value.ref i.arrays i.stored t ∧ ¬ Shape Value.ref w'.arrays v t := by
  have hrun : ([.make 0 [.int 1], .queuePush 0 "q" (.array 0), .write 0 0 [.int 2]].foldlM
      (step .bytecodeFn) World.start).any (fun w =>
        delivered w (.queuePop 1 "q") == some (1, ⟨.array 0, [[.int 1]], .array 0⟩) &&
        (step .bytecodeFn w (.queuePop 1 "q")).any (fun w' =>
          (w'.held 1).head? == some (.array 0) && w'.arrays[0]? == some [.int 2])) = true := by
    decide +kernel
  obtain ⟨w, hw, hend⟩ := (Option.any_eq_true _ _).mp hrun
  rw [Bool.and_eq_true, beq_iff_eq] at hend
  obtain ⟨hdelivered, hpop⟩ := hend
  obtain ⟨w', hw', hend⟩ := (Option.any_eq_true _ _).mp hpop
  rw [Bool.and_eq_true, beq_iff_eq, beq_iff_eq] at hend
  refine ⟨w, w', _, _, .node [.atom (.int 1)], run_of_foldlM hw, hw', hdelivered, hend.1,
    shape_singleton rfl rfl, ?_⟩
  intro hs
  exact absurd (hend.2.symm.trans (elements_of_shape hs)) (by decide)

end Handover

end Look
