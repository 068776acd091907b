/-
`redirect_allowed`, and the host that a URL leads to.

The check cuts the host at the first slash and the first colon.  A URL has a user before an `@`, and
its host ends at a query, a fragment or a backslash as well.
-/
import Look.Lib.Find
import Mathlib.Data.List.TakeWhile

namespace Look

namespace UrlSafe

abbrev Bytes := List UInt8

def slash : UInt8 := 0x2F
def colon : UInt8 := 0x3A
def atSign : UInt8 := 0x40

def https : Bytes := ascii "https://"
def github : Bytes := ascii "github.com"
def apiGithub : Bytes := ascii "api.github.com"
def dotGithub : Bytes := ascii ".github.com"
def dotGithubusercontent : Bytes := ascii ".githubusercontent.com"

/-- What the host has to end with, if it is not one of the two names. -/
def suffixed (host : Bytes) : Bool :=
  dotGithub.isSuffixOf host || dotGithubusercontent.isSuffixOf host

def okHost (host : Bytes) : Bool := host == github || host == apiGithub || suffixed host

/-- `redirect_allowed`, with the text of its error. -/
def redirectAllowed (next : Bytes) : Except Bytes Unit :=
  if ¬ https.isPrefixOf next then .error (ascii "unsafe redirect (https only): " ++ next)
  else
    let rest := next.drop 8
    let host := (rest.takeWhile (· ≠ slash)).takeWhile (· ≠ colon)
    if okHost host then .ok () else .error (ascii "redirect goes to an unexpected host: " ++ host)

/-! ## The host that is connected to -/

/-- What ends an authority. -/
def delims : Bytes := [slash, 0x3F, 0x23, 0x5C]

/-- A URL behind its scheme: the user up to the last `@`, the host, and what stands behind it. -/
structure Target where
  userinfo : Bytes
  host : Bytes
  rest : Bytes
deriving DecidableEq

/-- The host without its port: an address in brackets, or a name up to a colon. -/
def splitPort (s : Bytes) : Option (Bytes × Bytes) :=
  if s.head? = some 0x5B then
    match s.dropWhile (· ≠ 0x5D) with
    | [] => none
    | close :: port =>
      if port = [] ∨ port.head? = some colon then some (s.takeWhile (· ≠ 0x5D) ++ [close], port)
      else none
  else some (s.takeWhile (· ≠ colon), s.dropWhile (· ≠ colon))

/-- The parts of a URL; none where it has no host. -/
def target (url : Bytes) : Option Target :=
  if https.isPrefixOf url then
    let rest := url.drop 8
    let authority := rest.takeWhile (· ∉ delims)
    let userinfo := (authority.reverse.dropWhile (· ≠ atSign)).reverse
    let hostPort := (authority.reverse.takeWhile (· ≠ atSign)).reverse
    (splitPort hostPort).map fun (host, port) =>
      { userinfo := userinfo, host := host, rest := port ++ rest.dropWhile (· ∉ delims) }
  else none

def scheme (url : Bytes) : Bytes := url.takeWhile (· ≠ colon)

/-- One of the two names, or a name below one of the two domains. -/
def Allowed (host : Bytes) : Prop :=
  host = github ∨ host = apiGithub ∨
    ∃ label, label ≠ [] ∧ (host = label ++ dotGithub ∨ host = label ++ dotGithubusercontent)

/-- A URL that is accepted leads to an allowed host. -/
def Safe (url : Bytes) : Prop :=
  redirectAllowed url = .ok () →
    scheme url = ascii "https" ∧ ∀ t, target url = some t → Allowed t.host

/-! ## When that is so -/

/-- What the check reads of a text. -/
def cut (s : Bytes) : Bytes := s.takeWhile fun c => c ≠ slash && c ≠ colon

/-- A user with a colon hides the host, and so does what stands behind a query, a fragment or a
backslash: the host is then any host, and has to be an allowed one by itself.  An address in brackets
is read up to a colon.  Where the host is read, it must not be one of the endings alone. -/
def Reads (t : Target) : Prop :=
  if colon ∈ t.userinfo then okHost (cut t.userinfo) → Allowed t.host
  else if colon ∈ t.host then ¬ suffixed (cut t.host)
  else if t.rest.head?.any (· ∈ [0x3F, 0x23, 0x5C]) then suffixed (cut t.rest) → Allowed t.host
  else t.host ≠ dotGithub ∧ t.host ≠ dotGithubusercontent

section Suffix

variable {α : Type} {s x y : List α} {c : α}

/-- A suffix without a separator lies behind every separator. -/
theorem suffix_append_cons (h : c ∉ s) : s <:+ x ++ c :: y ↔ s <:+ y := by
  constructor
  · intro hs
    rcases List.suffix_or_suffix_of_suffix hs (List.suffix_append x (c :: y)) with hs | hc
    · rcases List.suffix_cons_iff.mp hs with rfl | hs
      · exact absurd List.mem_cons_self h
      · exact hs
    · exact absurd (hc.mem List.mem_cons_self) h
  · exact fun hs => hs.trans (List.suffix_append_of_suffix (List.suffix_cons c y))

end Suffix

section Cut

variable {s t : Bytes} {c : UInt8}

theorem suffixed_iff (host : Bytes) :
    suffixed host = true ↔ dotGithub <:+ host ∨ dotGithubusercontent <:+ host := by
  rw [suffixed, Bool.or_eq_true, List.isSuffixOf_iff_suffix, List.isSuffixOf_iff_suffix]

/-- No name of the check has a separator in it. -/
theorem notMem_names (h : c ∈ [atSign, 0x5B, 0x5D, 0x3F, 0x23, 0x5C]) :
    c ∉ github ∧ c ∉ apiGithub ∧ c ∉ dotGithub ∧ c ∉ dotGithubusercontent := by
  have hall : ∀ c ∈ [atSign, 0x5B, 0x5D, 0x3F, 0x23, 0x5C],
      c ∉ github ∧ c ∉ apiGithub ∧ c ∉ dotGithub ∧ c ∉ dotGithubusercontent := by decide +kernel
  exact hall c h

theorem suffixed_append_cons (h : c ∈ [atSign, 0x5B, 0x5D, 0x3F, 0x23, 0x5C]) :
    suffixed (s ++ c :: t) = suffixed t := by
  obtain ⟨-, -, hgit, huser⟩ := notMem_names h
  rw [Bool.eq_iff_iff, suffixed_iff, suffixed_iff, suffix_append_cons hgit,
    suffix_append_cons huser]

/-- With a separator in it, a host has to have one of the endings. -/
theorem okHost_of_mem (h : c ∈ [atSign, 0x5B, 0x5D, 0x3F, 0x23, 0x5C]) (hs : c ∈ s) :
    okHost s = suffixed s := by
  obtain ⟨hgit, hapi, -, -⟩ := notMem_names h
  have hgit' : (s == github) = false := by
    rw [beq_eq_false_iff_ne]
    rintro rfl
    exact hgit hs
  have hapi' : (s == apiGithub) = false := by
    rw [beq_eq_false_iff_ne]
    rintro rfl
    exact hapi hs
  rw [okHost, hgit', hapi', Bool.false_or, Bool.false_or]

theorem notMem_of_allowed (h : c ∈ [atSign, 0x5B, 0x5D, 0x3F, 0x23, 0x5C])
    (hs : Allowed (s ++ [c])) : False := by
  obtain ⟨hgit, hapi, -, -⟩ := notMem_names h
  have hend : suffixed (s ++ [c]) = false := by
    rw [suffixed_append_cons h]
    rfl
  rcases hs with hs | hs | ⟨label, -, hs⟩
  · exact hgit (hs ▸ List.mem_append_right s (List.mem_singleton_self c))
  · exact hapi (hs ▸ List.mem_append_right s (List.mem_singleton_self c))
  · have hsuf : suffixed (s ++ [c]) = true := by
      rw [suffixed_iff]
      exact hs.imp (fun heq => ⟨label, heq.symm⟩) fun heq => ⟨label, heq.symm⟩
    exact absurd hsuf (hend ▸ Bool.false_ne_true)

theorem not_allowed_dotGithub : ¬ Allowed dotGithub := by
  rintro (h | h | ⟨label, hne, h | h⟩)
  · exact absurd h (by decide)
  · exact absurd h (by decide)
  · exact hne (List.self_eq_append_left.mp h)
  · exact absurd (congrArg List.length h) (by rw [List.length_append]; change 11 ≠ _ + 22; omega)

theorem not_allowed_dotGithubusercontent : ¬ Allowed dotGithubusercontent := by
  rintro (h | h | ⟨label, hne, h | h⟩)
  · exact absurd h (by decide)
  · exact absurd h (by decide)
  · have hsuf := List.isSuffixOf_iff_suffix.mpr (⟨label, h.symm⟩ : dotGithub <:+ _)
    exact absurd hsuf (by decide)
  · exact hne (List.self_eq_append_left.mp h)

/-- A host that is read is allowed, unless it is an ending alone. -/
theorem allowed_iff_of_okHost (h : okHost s = true) :
    Allowed s ↔ s ≠ dotGithub ∧ s ≠ dotGithubusercontent := by
  constructor
  · intro hs
    constructor
    · rintro rfl
      exact not_allowed_dotGithub hs
    · rintro rfl
      exact not_allowed_dotGithubusercontent hs
  · rintro ⟨hgit, huser⟩
    rw [okHost, Bool.or_eq_true, Bool.or_eq_true, beq_iff_eq, beq_iff_eq, suffixed_iff] at h
    rcases h with (h | h) | ⟨label, hlabel⟩ | ⟨label, hlabel⟩
    · exact .inl h
    · exact .inr (.inl h)
    · refine .inr (.inr ⟨label, ?_, .inl hlabel.symm⟩)
      rintro rfl
      exact hgit hlabel.symm
    · refine .inr (.inr ⟨label, ?_, .inr hlabel.symm⟩)
      rintro rfl
      exact huser hlabel.symm

theorem cut_append_of_notMem (h : slash ∉ s) (h' : colon ∉ s) : cut (s ++ t) = s ++ cut t := by
  refine List.takeWhile_append_of_pos fun c hc => ?_
  rw [Bool.and_eq_true]
  exact ⟨decide_eq_true fun hs => h (hs ▸ hc), decide_eq_true fun hs => h' (hs ▸ hc)⟩

theorem cut_append_of_mem (h' : colon ∈ s) : cut (s ++ t) = cut s := by
  rw [cut, List.takeWhile_append, if_neg, cut]
  intro hlen
  have hself := (List.takeWhile_sublist _).eq_of_length hlen
  exact absurd (List.takeWhile_eq_self_iff.mp hself colon h') (by decide)

theorem cut_of_rest {q : Bytes} (h : c ∈ [0x3F, 0x23, 0x5C]) : cut (c :: q) = c :: cut q := by
  have hall : ∀ c ∈ ([0x3F, 0x23, 0x5C] : Bytes), (c ≠ slash && c ≠ colon) = true := by decide +kernel
  exact List.takeWhile_cons_of_pos (hall c h)

end Cut

/-! ## The parts of a URL -/

/-- The user, the host and what stands behind them are the URL, and each is what it is read as. -/
structure Target.Parts (t : Target) (s : Bytes) : Prop where
  whole : s = t.userinfo ++ (t.host ++ t.rest)
  userinfo_slash : slash ∉ t.userinfo
  userinfo_at : t.userinfo = [] ∨ ∃ p, t.userinfo = p ++ [atSign]
  host_slash : slash ∉ t.host
  host_colon : colon ∈ t.host → ∃ m, t.host = 0x5B :: m ++ [0x5D]
  rest : t.rest = [] ∨ ∃ c q, t.rest = c :: q ∧ (c = colon ∨ c ∈ delims)

/-- A text from the first character on that is not skipped. -/
theorem dropWhile_head {α : Type} (p : α → Bool) (s : List α) :
    s.dropWhile p = [] ∨ ∃ c q, s.dropWhile p = c :: q ∧ p c = false := by
  have hhead := List.head?_dropWhile_not p s
  cases h : s.dropWhile p with
  | nil => exact .inl rfl
  | cons c q =>
    rw [h] at hhead
    exact .inr ⟨c, q, rfl, hhead⟩

theorem splitPort_spec {s host port : Bytes} (h : splitPort s = some (host, port)) :
    s = host ++ port ∧ (colon ∈ host → ∃ m, host = 0x5B :: m ++ [0x5D]) ∧
      (port = [] ∨ ∃ q, port = colon :: q) := by
  rw [splitPort] at h
  split at h
  · rename_i hhead
    obtain ⟨q, rfl⟩ : ∃ q, s = 0x5B :: q := by
      cases s with
      | nil => cases hhead
      | cons c q => exact ⟨q, by rw [Option.some.inj hhead]⟩
    split at h
    · cases h
    · rename_i close port' hclose
      split at h
      · rename_i hport
        have hclose' : close = 0x5D := by
          rcases dropWhile_head (fun c : UInt8 => decide (c ≠ 0x5D)) (0x5B :: q) with hd | hd
          · rw [hd] at hclose
            cases hclose
          · obtain ⟨c, q', hd, hc⟩ := hd
            rw [hd] at hclose
            cases hclose
            simpa using hc
        have hwhole := List.takeWhile_append_dropWhile (p := fun c : UInt8 => decide (c ≠ 0x5D))
          (l := 0x5B :: q)
        cases h
        rw [hclose] at hwhole
        refine ⟨?_, fun _ => ⟨q.takeWhile (· ≠ 0x5D), ?_⟩, ?_⟩
        · rw [List.append_assoc]
          exact hwhole.symm
        · rw [hclose', List.takeWhile_cons_of_pos rfl]
        · rcases hport with hnil | hhead
          · exact .inl hnil
          · cases port with
            | nil => exact .inl rfl
            | cons c q' => exact .inr ⟨q', by rw [Option.some.inj hhead]⟩
      · cases h
  · cases h
    refine ⟨List.takeWhile_append_dropWhile.symm, fun hc => ?_, ?_⟩
    · exact absurd (List.mem_takeWhile_imp hc) (by decide)
    · rcases dropWhile_head (fun c => decide (c ≠ colon)) s with hd | ⟨c, q, hd, hc⟩
      · exact .inl hd
      · refine .inr ⟨q, ?_⟩
        obtain rfl : c = colon := by simpa using hc
        exact hd

theorem target_parts {url : Bytes} {t : Target} (h : target url = some t) :
    https.isPrefixOf url = true ∧ t.Parts (url.drop 8) := by
  rw [target] at h
  split at h
  · rename_i hhttps
    refine ⟨hhttps, ?_⟩
    obtain ⟨⟨host, port⟩, hsplit, rfl⟩ := Option.map_eq_some_iff.mp h
    obtain ⟨hwhole, hcolon, hport⟩ := splitPort_spec hsplit
    have hrest := List.takeWhile_append_dropWhile (p := fun c => decide (c ∉ delims))
      (l := url.drop 8)
    have hslash : slash ∉ (url.drop 8).takeWhile fun c => decide (c ∉ delims) := by
      intro hs
      exact absurd (List.mem_takeWhile_imp hs) (by decide)
    dsimp only at hwhole ⊢
    generalize (url.drop 8).takeWhile (fun c => decide (c ∉ delims)) = authority at *
    have hsides : authority = (authority.reverse.dropWhile (· ≠ atSign)).reverse ++
        (authority.reverse.takeWhile (· ≠ atSign)).reverse := by
      rw [← List.reverse_append, List.takeWhile_append_dropWhile, List.reverse_reverse]
    have hparts : authority =
        (authority.reverse.dropWhile (· ≠ atSign)).reverse ++ (host ++ port) := by
      rw [← hwhole]
      exact hsides
    refine ⟨?_, ?_, ?_, ?_, hcolon, ?_⟩
    · rw [← List.append_assoc host, ← List.append_assoc, ← hparts, hrest]
    · exact fun hs => hslash (hparts ▸ List.mem_append_left _ hs)
    · rcases dropWhile_head (fun c => decide (c ≠ atSign)) authority.reverse with hd | ⟨c, q, hd, hc⟩
      · exact .inl (by rw [hd]; rfl)
      · obtain rfl : c = atSign := by simpa using hc
        exact .inr ⟨q.reverse, by rw [hd, List.reverse_cons]⟩
    · exact fun hs => hslash
        (hparts ▸ List.mem_append_right _ (List.mem_append_left _ hs))
    · rcases hport with rfl | ⟨q, rfl⟩
      · rcases dropWhile_head (fun c => decide (c ∉ delims)) (url.drop 8) with hd | ⟨c, q, hd, hc⟩
        · exact .inl hd
        · exact .inr ⟨c, q, hd, .inr (by simpa using hc)⟩
      · exact .inr ⟨colon, _, rfl, .inl rfl⟩
  · cases h

/-! ## The check -/

/-- What the check decides on. -/
theorem redirectAllowed_ok {url : Bytes} :
    redirectAllowed url = .ok () ↔ https.isPrefixOf url = true ∧ okHost (cut (url.drop 8)) = true := by
  have hcut : ((url.drop 8).takeWhile (· ≠ slash)).takeWhile (· ≠ colon) = cut (url.drop 8) := by
    rw [List.takeWhile_takeWhile, cut]
    congr 1
    funext c
    rw [Bool.decide_and, Bool.and_comm, Bool.decide_eq_true, Bool.decide_eq_true]
  rw [redirectAllowed]
  dsimp only
  rw [hcut]
  by_cases hhttps : https.isPrefixOf url = true
  · rw [if_neg (not_not.mpr hhttps)]
    by_cases hok : okHost (cut (url.drop 8)) = true
    · rw [if_pos hok]
      exact iff_of_true rfl ⟨hhttps, hok⟩
    · rw [if_neg hok]
      exact iff_of_false nofun fun h => hok h.2
  · rw [if_pos hhttps]
    exact iff_of_false nofun fun h => hhttps h.1

theorem scheme_https {url : Bytes} (h : https.isPrefixOf url = true) : scheme url = ascii "https" := by
  obtain ⟨r, rfl⟩ := List.isPrefixOf_iff_prefix.mp h
  rfl

/-- A user without a colon does not change whether the host has one of the endings. -/
theorem Target.Parts.suffixed_userinfo {t : Target} {s : Bytes} (h : t.Parts s) (y : Bytes) :
    suffixed (t.userinfo ++ y) = suffixed y := by
  rcases h.userinfo_at with hnil | ⟨p, hp⟩
  · rw [hnil, List.nil_append]
  · rw [hp, List.append_assoc]
    exact suffixed_append_cons (by decide)

theorem okHost_of_suffixed {s : Bytes} (h : suffixed s = true) : okHost s = true := by
  rw [okHost, h, Bool.or_true]

theorem Target.Parts.okHost_host {t : Target} {s : Bytes} (h : t.Parts s)
    (hok : okHost (t.userinfo ++ t.host) = true) : okHost t.host = true := by
  rcases h.userinfo_at with hnil | ⟨p, hp⟩
  · rwa [hnil, List.nil_append] at hok
  · have hmem : atSign ∈ t.userinfo ++ t.host := by
      rw [hp]
      exact List.mem_append_left _ (List.mem_append_right p (List.mem_singleton_self atSign))
    rw [okHost_of_mem (by decide) hmem, h.suffixed_userinfo] at hok
    exact okHost_of_suffixed hok

/-- A host is allowed where the check passes, if and only if the host is read. -/
theorem Target.Parts.reads_iff {t : Target} {s : Bytes} (h : t.Parts s) :
    Reads t ↔ (okHost (cut s) = true → Allowed t.host) := by
  rw [Reads, h.whole]
  by_cases huser : colon ∈ t.userinfo
  · rw [if_pos huser, cut_append_of_mem huser]
  rw [if_neg huser, cut_append_of_notMem h.userinfo_slash huser]
  by_cases hhost : colon ∈ t.host
  · -- An address in brackets is never allowed.
    obtain ⟨m, hm⟩ := h.host_colon hhost
    have hnever : ¬ Allowed t.host := fun ha => notMem_of_allowed (c := 0x5D) (by decide) (hm ▸ ha)
    have hopen : cut t.host = 0x5B :: cut (m ++ [0x5D]) := by
      rw [hm]
      exact List.takeWhile_cons_of_pos rfl
    have hmem : (0x5B : UInt8) ∈ t.userinfo ++ cut t.host := by
      rw [hopen]
      exact List.mem_append_right _ List.mem_cons_self
    rw [if_pos hhost, cut_append_of_mem hhost, okHost_of_mem (by decide) hmem,
      h.suffixed_userinfo]
    exact ⟨fun hsuf hs => absurd hs hsuf, fun hs hsuf => hnever (hs hsuf)⟩
  rw [if_neg hhost, cut_append_of_notMem h.host_slash hhost]
  by_cases hrest : t.rest.head?.any (· ∈ [0x3F, 0x23, 0x5C]) = true
  · -- What stands behind the host is read instead of it.
    obtain ⟨c, q, hcons, hc⟩ : ∃ c q, t.rest = c :: q ∧ c ∈ [0x3F, 0x23, 0x5C] := by
      cases hcons : t.rest with
      | nil =>
        rw [hcons] at hrest
        cases hrest
      | cons c q =>
        rw [hcons] at hrest
        exact ⟨c, q, rfl, of_decide_eq_true hrest⟩
    have hsep : c ∈ [atSign, 0x5B, 0x5D, 0x3F, 0x23, 0x5C] :=
      List.mem_cons_of_mem _ (List.mem_cons_of_mem _ (List.mem_cons_of_mem _ hc))
    have hmem : c ∈ t.userinfo ++ (t.host ++ cut t.rest) := by
      rw [hcons, cut_of_rest hc]
      exact List.mem_append_right _ (List.mem_append_right _ List.mem_cons_self)
    have hend : suffixed (t.userinfo ++ (t.host ++ cut t.rest)) = suffixed (cut t.rest) := by
      have hzero : suffixed (cut t.rest) = suffixed (cut q) := by
        rw [hcons, cut_of_rest hc]
        exact suffixed_append_cons (s := []) hsep
      rw [hzero, hcons, cut_of_rest hc, ← List.append_assoc, suffixed_append_cons hsep]
    rw [if_pos hrest, okHost_of_mem hsep hmem, hend]
  · -- The host is read to its end.
    have hcut : cut t.rest = [] := by
      rcases h.rest with hnil | ⟨c, q, hcons, hc⟩
      · rw [hnil]
        rfl
      · have hstop : (c ≠ slash && c ≠ colon) = false := by
          have hall : ∀ c ∈ colon :: delims, c ∉ ([0x3F, 0x23, 0x5C] : Bytes) →
              (c ≠ slash && c ≠ colon) = false := by decide +kernel
          refine hall c (List.mem_cons.mpr hc) fun hmem => hrest ?_
          rw [hcons]
          exact decide_eq_true hmem
        rw [hcons]
        exact List.takeWhile_cons_of_neg (by rw [hstop]; exact Bool.false_ne_true)
    rw [if_neg hrest, hcut, List.append_nil]
    constructor
    · exact fun hbare hok => (allowed_iff_of_okHost (h.okHost_host hok)).mpr hbare
    · intro hallowed
      have hseen : suffixed t.host = true → Allowed t.host := fun hsuf =>
        hallowed (okHost_of_suffixed ((h.suffixed_userinfo t.host).trans hsuf))
      constructor
      · intro heq
        exact not_allowed_dotGithub (heq ▸ hseen (heq ▸ rfl))
      · intro heq
        exact not_allowed_dotGithubusercontent (heq ▸ hseen (heq ▸ rfl))

/-- A URL that is accepted leads to an allowed host exactly where its host is read. -/
theorem safe_iff (url : Bytes) : Safe url ↔ ∀ t, target url = some t → Reads t := by
  constructor
  · intro hsafe t ht
    obtain ⟨hhttps, hparts⟩ := target_parts ht
    rw [hparts.reads_iff]
    exact fun hok => (hsafe (redirectAllowed_ok.mpr ⟨hhttps, hok⟩)).2 t ht
  · intro hreads haccept
    obtain ⟨hhttps, hok⟩ := redirectAllowed_ok.mp haccept
    refine ⟨scheme_https hhttps, fun t ht => ?_⟩
    exact (target_parts ht).2.reads_iff.mp (hreads t ht) hok

/-- A query that ends like an allowed host. -/
theorem query_not_safe : ¬ Safe (ascii "https://evil.com?.github.com/") := by
  intro hsafe
  have hok : redirectAllowed (ascii "https://evil.com?.github.com/") = .ok () :=
    redirectAllowed_ok.mpr ⟨rfl, rfl⟩
  have ht : target (ascii "https://evil.com?.github.com/") =
      some ⟨[], ascii "evil.com", ascii "?.github.com/"⟩ := by decide +kernel
  rcases (hsafe hok).2 _ ht with h | h | ⟨label, -, h | h⟩
  · exact absurd h (by decide)
  · exact absurd h (by decide)
  · exact absurd (List.isSuffixOf_iff_suffix.mpr (⟨label, h.symm⟩ : dotGithub <:+ _)) (by decide)
  · exact absurd (List.isSuffixOf_iff_suffix.mpr (⟨label, h.symm⟩ : dotGithubusercontent <:+ _))
      (by decide)

end UrlSafe

end Look
