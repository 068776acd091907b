/-
The project root of `use "file"`, in the interpreter and in the compiler.

Both compare the text of the root with the text of the file.  `path_under_root` compares names.
-/
import Look.Lib.Find
import Look.Lib.NamePath

namespace Look

namespace UseFile

abbrev Bytes := List UInt8

def slash : UInt8 := 0x2F

/-! ## Paths as texts -/

/-- `base / p` of `std::filesystem`. -/
def join (base p : Bytes) : Bytes :=
  if p.head? = some slash then p
  else if base = [] ∨ base.getLast? = some slash then base ++ p
  else base ++ slash :: p

/-- `parent_path`. -/
def parentPath (p : Bytes) : Bytes :=
  let up := p.reverse.dropWhile (· ≠ slash)
  let dir := (up.dropWhile (· = slash)).reverse
  if dir = [] ∧ up ≠ [] then [slash] else dir

/-- `std::filesystem::absolute`: an empty path is an error. -/
def absolute (cwd : NamePath) (p : Bytes) : Option Bytes :=
  if p = [] then none else some (join cwd.text p)

/-- The file system.  `weakly_canonical` gives the normalised real path, or the text of an error. -/
structure Host where
  currentPath : NamePath
  realPath : Bytes → Except Bytes NamePath
  real : ∀ p, p ≠ [] → realPath (join currentPath.text p) = realPath p

variable (host : Host)

/-- An empty path stays empty. -/
def weaklyCanonical (p : Bytes) : Except Bytes Bytes :=
  if p = [] then .ok [] else (host.realPath p).map NamePath.text

def pathUnderRoot (root cand : Bytes) : Bool :=
  match (absolute host.currentPath root).map host.realPath,
    (absolute host.currentPath cand).map host.realPath with
  | some (.ok r), some (.ok c) => r.names.isPrefixOf c.names
  | _, _ => false

/-! ## The check of the interpreter -/

def interpRoot (mainScript : Bytes) : Bytes :=
  if mainScript ≠ [] then parentPath mainScript else host.currentPath.text

def interpTarget (currentFile path : Bytes) : Bytes :=
  join (if currentFile ≠ [] then parentPath currentFile else host.currentPath.text) path

def quoted (path : Bytes) : Bytes := ascii "use \"" ++ path ++ ascii "\": "

/-- `execute_statement` up to the check of the root: the file, or the error. -/
def executeUseFile (mainScript currentFile path : Bytes) : Except Bytes Bytes := do
  let absPath ← weaklyCanonical host (interpTarget host currentFile path)
  let rootStr ← weaklyCanonical host (interpRoot host mainScript)
  if absPath.take rootStr.length ≠ rootStr then
    throw (quoted path ++ ascii "file module cannot escape the project directory")
  else pure absPath

/-! ## The check of the compiler -/

def compileTarget (root : Bytes) (curDir : List Bytes) (path : Bytes) : Bytes :=
  join (curDir.getLast?.getD root) path

/-- `compile_stmt` up to the check of the root. -/
def compileUseFile (root : Bytes) (curDir : List Bytes) (path : Bytes) : Except Bytes Bytes :=
  if root = [] then
    .error (quoted path ++ ascii "file include compiles only with a base directory")
  else
    let paths := do
      let abs ← weaklyCanonical host (compileTarget root curDir path)
      let root ← weaklyCanonical host root
      pure (abs, root)
    match paths with
    | .error what => .error (quoted path ++ what)
    | .ok (abs, root) =>
      if abs.take root.length ≠ root then
        .error (quoted path ++ ascii "the file is outside the application directory")
      else .ok abs

/-! ## When the text says what the names say -/

variable {host}

/-- A file whose path goes on where the name of the root ends: in a sibling of the root. -/
def Sibling (host : Host) (root target : Bytes) : Prop :=
  root ≠ [] ∧ target ≠ [] ∧ ∃ r t, host.realPath root = .ok r ∧ host.realPath target = .ok t ∧
    Extends r.names t.names

/-- The check that both make. -/
def Accepts (host : Host) (root target : Bytes) : Prop :=
  ∃ r t, weaklyCanonical host root = .ok r ∧ weaklyCanonical host target = .ok t ∧ r <+: t

theorem absolute_realPath {p : Bytes} (h : p ≠ []) :
    (absolute host.currentPath p).map host.realPath = some (host.realPath p) := by
  rw [absolute, if_neg h, Option.map_some, host.real p h]

theorem weaklyCanonical_ok {p s : Bytes} (h : p ≠ []) :
    weaklyCanonical host p = .ok s ↔ ∃ r, host.realPath p = .ok r ∧ s = r.text := by
  rw [weaklyCanonical, if_neg h]
  cases host.realPath p with
  | error what => exact iff_of_false nofun nofun
  | ok r =>
    constructor
    · rintro ⟨⟩
      exact ⟨r, rfl, rfl⟩
    · rintro ⟨r', hr, rfl⟩
      cases hr
      rfl

theorem pathUnderRoot_iff {root target : Bytes} :
    pathUnderRoot host root target = true ↔
      root ≠ [] ∧ target ≠ [] ∧ ∃ r t, host.realPath root = .ok r ∧
        host.realPath target = .ok t ∧ t.Below r := by
  rw [pathUnderRoot]
  by_cases hroot : root = []
  · rw [hroot]
    exact iff_of_false Bool.false_ne_true fun h => h.1 rfl
  by_cases htarget : target = []
  · rw [htarget, absolute_realPath hroot]
    refine iff_of_false ?_ fun h => h.2.1 rfl
    cases host.realPath root <;> exact Bool.false_ne_true
  rw [absolute_realPath hroot, absolute_realPath htarget, and_iff_right hroot,
    and_iff_right htarget]
  cases host.realPath root with
  | error what => exact iff_of_false Bool.false_ne_true nofun
  | ok r =>
    cases host.realPath target with
    | error what => exact iff_of_false Bool.false_ne_true nofun
    | ok t =>
      dsimp only
      rw [List.isPrefixOf_iff_prefix]
      constructor
      · exact fun h => ⟨r, t, rfl, rfl, h⟩
      · rintro ⟨r', t', hr, ht, h⟩
        cases hr
        cases ht
        exact h

/-- What is accepted below a root is below it by its names, or in a sibling. -/
theorem accepts_iff {root target : Bytes} (hroot : root ≠ []) :
    Accepts host root target ↔
      pathUnderRoot host root target = true ∨ Sibling host root target := by
  rw [pathUnderRoot_iff, Sibling, and_iff_right hroot, and_iff_right hroot, ← and_or_left]
  constructor
  · rintro ⟨rs, ts, hr, ht, hpre⟩
    obtain ⟨r, hr', rfl⟩ := (weaklyCanonical_ok hroot).mp hr
    have htarget : target ≠ [] := by
      rintro rfl
      obtain rfl : [] = ts := Except.ok.inj ht
      exact r.text_ne_nil (List.prefix_nil.mp hpre)
    obtain ⟨t, ht', rfl⟩ := (weaklyCanonical_ok htarget).mp ht
    refine ⟨htarget, ?_⟩
    rcases NamePath.text_prefix_iff.mp hpre with h | h
    · exact .inl ⟨r, t, hr', ht', h⟩
    · exact .inr ⟨r, t, hr', ht', h⟩
  · rintro ⟨htarget, ⟨r, t, hr, ht, h⟩ | ⟨r, t, hr, ht, h⟩⟩
    · exact ⟨r.text, t.text, (weaklyCanonical_ok hroot).mpr ⟨r, hr, rfl⟩,
        (weaklyCanonical_ok htarget).mpr ⟨t, ht, rfl⟩, NamePath.text_prefix_iff.mpr (.inl h)⟩
    · exact ⟨r.text, t.text, (weaklyCanonical_ok hroot).mpr ⟨r, hr, rfl⟩,
        (weaklyCanonical_ok htarget).mpr ⟨t, ht, rfl⟩, NamePath.text_prefix_iff.mpr (.inr h)⟩

theorem sibling_not_under {root target : Bytes} (h : Sibling host root target) :
    pathUnderRoot host root target = false := by
  obtain ⟨-, -, r, t, hr, ht, hext⟩ := h
  rw [Bool.eq_false_iff]
  intro hunder
  obtain ⟨-, -, r', t', hr', ht', hbelow⟩ := pathUnderRoot_iff.mp hunder
  obtain rfl : r = r' := Except.ok.inj (hr.symm.trans hr')
  obtain rfl : t = t' := Except.ok.inj (ht.symm.trans ht')
  exact hext.not_prefix hbelow

/-- The check agrees with `path_under_root` outside of the siblings of the root. -/
theorem accepts_under_iff {root target : Bytes} (hroot : root ≠ []) :
    (Accepts host root target ↔ pathUnderRoot host root target = true) ↔
      ¬ Sibling host root target := by
  rw [accepts_iff hroot]
  constructor
  · intro h hsib
    have hunder := h.mp (.inr hsib)
    rw [sibling_not_under hsib] at hunder
    exact Bool.false_ne_true hunder
  · exact fun hsib => ⟨fun h => h.resolve_right hsib, .inl⟩

/-- A file is taken where its path begins with the root. -/
theorem checked_iff {r t e : Bytes} :
    (∃ s, (if t.take r.length ≠ r then (.error e : Except Bytes Bytes) else .ok t) = .ok s) ↔
      r <+: t := by
  rw [List.prefix_iff_eq_take]
  constructor
  · rintro ⟨s, hs⟩
    by_contra htake
    rw [if_pos (Ne.symm htake)] at hs
    cases hs
  · exact fun htake => ⟨t, if_neg (not_not.mpr htake.symm)⟩

theorem execute_accepts {mainScript currentFile path : Bytes} :
    (∃ t, executeUseFile host mainScript currentFile path = .ok t) ↔
      Accepts host (interpRoot host mainScript) (interpTarget host currentFile path) := by
  rw [executeUseFile, Accepts]
  cases weaklyCanonical host (interpTarget host currentFile path) with
  | error what => exact iff_of_false nofun nofun
  | ok t =>
    cases weaklyCanonical host (interpRoot host mainScript) with
    | error what => exact iff_of_false nofun nofun
    | ok r =>
      simp only [Except.ok.injEq, exists_and_left, exists_eq_left']
      exact checked_iff

theorem compile_accepts {root path : Bytes} {curDir : List Bytes} :
    (∃ t, compileUseFile host root curDir path = .ok t) ↔
      root ≠ [] ∧ Accepts host root (compileTarget root curDir path) := by
  rw [compileUseFile, Accepts]
  by_cases hroot : root = []
  · rw [if_pos hroot]
    exact iff_of_false nofun fun h => h.1 hroot
  rw [if_neg hroot, and_iff_right hroot]
  cases weaklyCanonical host (compileTarget root curDir path) with
  | error what => exact iff_of_false nofun nofun
  | ok t =>
    cases weaklyCanonical host root with
    | error what => exact iff_of_false nofun nofun
    | ok r =>
      simp only [Except.ok.injEq, exists_and_left, exists_eq_left']
      exact checked_iff

/-- With an empty root every file is accepted. -/
theorem accepts_nil {target : Bytes} :
    Accepts host [] target ↔ ∃ t, weaklyCanonical host target = .ok t := by
  constructor
  · rintro ⟨-, t, -, ht, -⟩
    exact ⟨t, ht⟩
  · rintro ⟨t, ht⟩
    exact ⟨[], t, if_pos rfl, ht, List.nil_prefix⟩

/-- A host without symbolic links. -/
def plain : Host where
  currentPath := .root
  realPath p := .ok ((p.splitOn slash).foldl NamePath.step .root)
  real := by
    intro p _
    rw [join]
    split
    · rfl
    · have hroot : NamePath.root.text = [slash] := rfl
      have hsplit : (slash :: p).splitOn slash = [] :: p.splitOn slash :=
        List.splitOn_append_cons_self_of_not_mem (List.not_mem_nil : slash ∉ ([] : Bytes)) p
      rw [hroot, if_pos (.inr rfl), List.singleton_append, hsplit]
      rfl

end UseFile

end Look
