import Mathlib.Data.List.Infix
import Mathlib.Data.List.TakeWhile

/-!
# POSIX paths

Paths as byte strings, what `std::filesystem::path` does with them and where they lead without
symbolic links.

* `segments_join`: the segments of a path in a directory come behind those of the directory.
* `locate`: the location of a path, name by name. `trail`: the locations on the way.
* `Place`: a location that is known only relative to a directory. `trail_at`: a path leads from
  every directory to the same place.
* `Place.Outside`: `comparable_of_not_outside` and `exists_not_comparable` say which places are in
  the directory or above it whatever the directory is.
-/

namespace Techuila
namespace Posix

abbrev Path := List UInt8

abbrev Name := List UInt8

/-- The names from the root down. -/
abbrev Location := List Name

/-- '/'. -/
def SEPARATOR : UInt8 := 47

/-- ".". -/
def DOT : Name := [46]

/-- "..". -/
def DOTDOT : Name := [46, 46]

/-- What a system call sees of a string. -/
def cString (path : Path) : Path := path.takeWhile (· ≠ 0)

def isAbsolute (path : Path) : Bool := path.head? = some SEPARATOR

/-- Whether `operator/` puts no separator behind the path. -/
def noFilename (path : Path) : Bool := path = [] || path.getLast? = some SEPARATOR

/-- `path / name`. -/
def join (path name : Path) : Path :=
  if isAbsolute name then name
  else if noFilename path then path ++ name
  else path ++ SEPARATOR :: name

/-- What is before the first separator, and the segments behind it. -/
def splitFirst : Path → Name × List Name
  | [] => ([], [])
  | c :: path =>
    let (name, names) := splitFirst path
    if c = SEPARATOR then ([], if name = [] then names else name :: names)
    else (c :: name, names)

/-- The names that separators part. Two separators in a row part nothing. -/
def segments (path : Path) : List Name :=
  let (name, names) := splitFirst path
  if name = [] then names else name :: names

/-! ## Segments -/

theorem splitFirst_append (path rest : Path) :
    splitFirst (path ++ SEPARATOR :: rest) =
      ((splitFirst path).1, (splitFirst path).2 ++ segments rest) := by
  induction path with
  | nil => simp [splitFirst, segments]
  | cons c path ih =>
    rw [List.cons_append, splitFirst, ih, splitFirst]
    by_cases hc : c = SEPARATOR
    · by_cases hn : (splitFirst path).1 = [] <;> simp [hc, hn]
    · simp [hc]

theorem segments_append (path rest : Path) :
    segments (path ++ SEPARATOR :: rest) = segments path ++ segments rest := by
  rw [segments, splitFirst_append]
  by_cases hn : (splitFirst path).1 = [] <;> simp [segments, hn]

theorem splitFirst_name {name : Name} (h : SEPARATOR ∉ name) : splitFirst name = (name, []) := by
  induction name with
  | nil => rfl
  | cons c name ih =>
    have hc : c ≠ SEPARATOR := fun e => h (e ▸ List.mem_cons_self)
    rw [splitFirst, ih fun hm => h (List.mem_cons_of_mem _ hm)]
    simp [hc]

theorem segments_name {name : Name} (hne : name ≠ []) (h : SEPARATOR ∉ name) :
    segments name = [name] := by
  rw [segments, splitFirst_name h]
  simp [hne]

theorem join_absolute {name : Path} (h : isAbsolute name = true) (path : Path) :
    join path name = name := if_pos h

theorem join_relative {name : Path} (h : isAbsolute name = false) (path : Path) :
    join path name = if noFilename path then path ++ name else path ++ SEPARATOR :: name :=
  if_neg (by simp [h])

theorem nil_join (name : Path) : join [] name = name := by
  unfold join
  split <;> rfl

/-- The segments of a path in a directory. -/
theorem segments_join {path name : Path} (h : isAbsolute name = false) :
    segments (join path name) = segments path ++ segments name := by
  rw [join_relative h]
  split
  · rename_i hp
    simp only [noFilename, Bool.or_eq_true, decide_eq_true_eq] at hp
    rcases hp with rfl | hp
    · rfl
    · obtain ⟨path, rfl⟩ := List.getLast?_eq_some_iff.mp hp
      rw [List.append_assoc, List.singleton_append, segments_append, segments_append]
      simp [segments, splitFirst]
  · exact segments_append _ _

theorem cString_of_not_mem {path : Path} (h : 0 ∉ path) : cString path = path :=
  List.takeWhile_eq_self_iff.mpr fun c hc => by
    have : c ≠ 0 := fun e => h (e ▸ hc)
    simpa using this

theorem cString_append {path : Path} (h : 0 ∉ path) (rest : Path) :
    cString (path ++ rest) = path ++ cString rest :=
  List.takeWhile_append_of_pos fun c hc => by
    have : c ≠ 0 := fun e => h (e ▸ hc)
    simpa using this

theorem cString_append_of_mem {path : Path} (h : 0 ∈ path) (rest : Path) :
    cString (path ++ rest) = cString path := by
  induction path with
  | nil => cases h
  | cons c path ih =>
    rw [List.cons_append, cString, cString, List.takeWhile_cons, List.takeWhile_cons]
    by_cases hc : c = 0
    · simp [hc]
    · simp only [ne_eq, hc, not_false_eq_true, decide_true, if_true]
      exact congrArg _ (ih ((List.mem_cons.mp h).resolve_left (Ne.symm hc)))

theorem isAbsolute_cString {name : Path} (h : isAbsolute name = false) :
    isAbsolute (cString name) = false := by
  cases name with
  | nil => rfl
  | cons c name =>
    rw [cString, List.takeWhile_cons]
    split
    · exact h
    · rfl

/-- A path in a directory as a system call sees it. -/
theorem cString_join {path name : Path} (hp : 0 ∉ path) (h : isAbsolute name = false) :
    cString (join path name) = join path (cString name) := by
  have hs := isAbsolute_cString h
  rw [join_relative h, join_relative hs]
  split
  · exact cString_append hp _
  · rw [cString_append hp, cString, List.takeWhile_cons_of_pos (by decide)]
    rfl

theorem cString_join_of_mem {path name : Path} (hp : 0 ∈ path) (h : isAbsolute name = false) :
    cString (join path name) = cString path := by
  rw [join_relative h]
  split <;> exact cString_append_of_mem hp _

theorem noFilename_join {path name : Path} (h : isAbsolute name = false) :
    noFilename (join path name) = noFilename name := by
  rw [join_relative h]
  cases name with
  | nil =>
    split
    · rename_i hp
      simpa [noFilename] using hp
    · simp [noFilename]
  | cons c name => split <;> simp [noFilename, List.getLast?_append, List.getLast?_cons_cons]

theorem isAbsolute_join {name : Path} (name' : Path) (h : isAbsolute name = false)
    (h' : isAbsolute name' = false) : isAbsolute (join name name') = false := by
  rw [join_relative h']
  cases name with
  | nil => simpa [noFilename] using h'
  | cons c name => split <;> exact h

/-- `operator/` is associative. -/
theorem join_assoc (path name name' : Path) :
    join (join path name) name' = join path (join name name') := by
  by_cases h' : isAbsolute name' = true
  · simp only [join, h', if_true]
  · rw [Bool.not_eq_true] at h'
    by_cases h : isAbsolute name = true
    · have hn : isAbsolute (join name name') = true := by
        rw [join_relative h']
        cases name with
        | nil => cases h
        | cons c name => split <;> exact h
      rw [join_absolute h, join_absolute hn]
    · rw [Bool.not_eq_true] at h
      rw [join_relative (isAbsolute_join name' h h'), join_relative h' (join path name),
        noFilename_join h, join_relative h, join_relative h']
      by_cases hp : noFilename path = true <;> by_cases hn : noFilename name = true <;>
        simp [hp, hn]

/-- Names joined one by one are one path in the directory. -/
theorem foldl_join {names : List Path} (h : names ≠ []) (path : Path) :
    names.foldl join path = join path (names.foldl join []) := by
  obtain ⟨name, names, rfl⟩ := List.exists_cons_of_ne_nil h
  have hall : ∀ (names : List Path) (name : Path),
      names.foldl join (join path name) = join path (names.foldl join name) := by
    intro names
    induction names with
    | nil => exact fun _ => rfl
    | cons n names ih =>
      intro name
      rw [List.foldl_cons, List.foldl_cons, join_assoc, ih]
  rw [List.foldl_cons, hall, List.foldl_cons, nil_join]

/-! ## Locations -/

/-- One step of a path. -/
def enter (loc : Location) (name : Name) : Location :=
  if name = DOT then loc else if name = DOTDOT then loc.dropLast else loc ++ [name]

/-- The location of a path, for a process whose working directory is `cwd`. -/
def locate (cwd : Location) (path : Path) : Location :=
  (segments (cString path)).foldl enter (if isAbsolute path then [] else cwd)

/-- The locations on the way along names. -/
def trailFrom (loc : Location) : List Name → List Location
  | [] => []
  | name :: names => enter loc name :: trailFrom (enter loc name) names

/-- The locations on the way of a path. -/
def trail (cwd : Location) (path : Path) : List Location :=
  trailFrom (if isAbsolute path then [] else cwd) (segments (cString path))

/-- The locations of a path's way, with the one that it starts from. -/
def way (cwd : Location) (path : Path) : List Location :=
  (if isAbsolute path then [] else cwd) :: trail cwd path

theorem foldl_mem_trailFrom (loc : Location) (names : List Name) :
    names.foldl enter loc ∈ loc :: trailFrom loc names := by
  induction names generalizing loc with
  | nil => exact List.mem_cons_self
  | cons name names ih =>
    rw [List.foldl_cons]
    exact List.mem_cons_of_mem _ (ih _)

theorem locate_mem_way (cwd : Location) (path : Path) : locate cwd path ∈ way cwd path :=
  foldl_mem_trailFrom _ _

theorem trailFrom_append (loc : Location) (names names' : List Name) :
    trailFrom loc (names ++ names') =
      trailFrom loc names ++ trailFrom (names.foldl enter loc) names' := by
  induction names generalizing loc with
  | nil => rfl
  | cons name names ih => rw [List.cons_append, trailFrom, ih, trailFrom, List.foldl_cons]; rfl

theorem isAbsolute_join_left {name : Path} (path : Path) (h : isAbsolute name = false) :
    isAbsolute (join path name) = isAbsolute path := by
  rw [join_relative h]
  cases path with
  | nil => exact h
  | cons c path => split <;> rfl

/-- The way of a path in a directory goes over the directory. -/
theorem trail_join {path name : Path} (hp : 0 ∉ path) (h : isAbsolute name = false)
    (cwd : Location) : trail cwd (join path name) =
      trail cwd path ++ trailFrom (locate cwd path) (segments (cString name)) := by
  have hs := isAbsolute_cString h
  rw [trail, cString_join hp h, segments_join hs, isAbsolute_join_left _ h, trailFrom_append,
    trail, locate, cString_of_not_mem hp]

theorem locate_join {path name : Path} (hp : 0 ∉ path) (h : isAbsolute name = false)
    (cwd : Location) : locate cwd (join path name) =
      (segments (cString name)).foldl enter (locate cwd path) := by
  have hs := isAbsolute_cString h
  rw [locate, cString_join hp h, segments_join hs, isAbsolute_join_left _ h, List.foldl_append,
    locate, cString_of_not_mem hp]

/-- A path with an end of string in it hides what is joined to it. -/
theorem trail_join_of_mem {path name : Path} (hp : 0 ∈ path) (h : isAbsolute name = false)
    (cwd : Location) : trail cwd (join path name) = trail cwd path ∧
      locate cwd (join path name) = locate cwd path := by
  rw [trail, locate, cString_join_of_mem hp h, isAbsolute_join_left _ h]
  exact ⟨rfl, rfl⟩

/-! ## Plain names -/

/-- A name that stands for itself in a path. -/
structure PlainName (name : Name) : Prop where
  ne_nil : name ≠ []
  separator : SEPARATOR ∉ name
  nul : 0 ∉ name
  dot : name ≠ DOT
  dotdot : name ≠ DOTDOT

theorem isAbsolute_of_not_mem {name : Name} (h : SEPARATOR ∉ name) : isAbsolute name = false := by
  cases name with
  | nil => rfl
  | cons c name =>
    have hc : c ≠ SEPARATOR := fun e => h (e ▸ List.mem_cons_self)
    simpa [isAbsolute] using hc

theorem PlainName.isAbsolute {name : Name} (h : PlainName name) : isAbsolute name = false :=
  isAbsolute_of_not_mem h.separator

theorem PlainName.noFilename {name : Name} (h : PlainName name) : noFilename name = false := by
  simp only [Posix.noFilename, h.ne_nil, decide_false, Bool.false_or, decide_eq_false_iff_not]
  exact fun hlast => h.separator (List.mem_of_getLast? hlast)

theorem PlainName.enter {name : Name} (h : PlainName name) (loc : Location) :
    enter loc name = loc ++ [name] := by
  rw [Posix.enter, if_neg h.dot, if_neg h.dotdot]

theorem foldl_enter_plain {names : List Name} (h : ∀ name ∈ names, PlainName name)
    (loc : Location) : names.foldl enter loc = loc ++ names := by
  induction names generalizing loc with
  | nil => rw [List.append_nil]; rfl
  | cons name names ih =>
    obtain ⟨hname, h⟩ := List.forall_mem_cons.mp h
    rw [List.foldl_cons, ih h, hname.enter, List.append_assoc]
    rfl

/-- The way along plain names goes down. -/
theorem mem_trailFrom_plain {names : List Name} (h : ∀ name ∈ names, PlainName name)
    {loc l : Location} (hl : l ∈ trailFrom loc names) : ∃ k, k <+: names ∧ l = loc ++ k := by
  induction names generalizing loc with
  | nil => cases hl
  | cons name names ih =>
    obtain ⟨hname, h⟩ := List.forall_mem_cons.mp h
    rw [trailFrom, hname.enter] at hl
    rcases List.mem_cons.mp hl with rfl | hl
    · exact ⟨[name], List.cons_prefix_cons.mpr ⟨rfl, List.nil_prefix⟩, rfl⟩
    · obtain ⟨k, hk, rfl⟩ := ih h hl
      exact ⟨name :: k, List.cons_prefix_cons.mpr ⟨rfl, hk⟩, by rw [List.append_assoc]; rfl⟩

theorem prefix_of_mem_trailFrom {names : List Name} (h : ∀ name ∈ names, PlainName name)
    {loc l : Location} (hl : l ∈ trailFrom loc names) : l <+: loc ++ names := by
  obtain ⟨k, hk, rfl⟩ := mem_trailFrom_plain h hl
  exact (List.prefix_append_right_inj loc).mpr hk

theorem mem_join {path name : Path} {c : UInt8} (h : c ∈ join path name) :
    c ∈ path ∨ c ∈ name ∨ c = SEPARATOR := by
  unfold join at h
  split at h
  · exact .inr (.inl h)
  · split at h
    · exact (List.mem_append.mp h).imp_right .inl
    · rcases List.mem_append.mp h with h | h
      · exact .inl h
      · exact .inr ((List.mem_cons.mp h).symm)

/-- The absolute path of a location. -/
def absolutePath (loc : Location) : Path := loc.foldl join [SEPARATOR]

theorem segments_foldl_join {names : List Name} (h : ∀ name ∈ names, PlainName name) {path : Path}
    (hp : 0 ∉ path) :
    0 ∉ names.foldl join path ∧ isAbsolute (names.foldl join path) = isAbsolute path ∧
      segments (names.foldl join path) = segments path ++ names := by
  induction names generalizing path with
  | nil => exact ⟨hp, rfl, (List.append_nil _).symm⟩
  | cons name names ih =>
    obtain ⟨hname, h⟩ := List.forall_mem_cons.mp h
    have hp' : 0 ∉ join path name := fun hm => (mem_join hm).elim hp fun hm =>
      hm.elim hname.nul (by decide)
    obtain ⟨h₁, h₂, h₃⟩ := ih h hp'
    rw [List.foldl_cons]
    refine ⟨h₁, h₂.trans (isAbsolute_join_left _ hname.isAbsolute), h₃.trans ?_⟩
    rw [segments_join hname.isAbsolute, segments_name hname.ne_nil hname.separator,
      List.append_assoc]
    rfl

theorem absolutePath_spec {loc : Location} (h : ∀ name ∈ loc, PlainName name) (cwd : Location) :
    0 ∉ absolutePath loc ∧ locate cwd (absolutePath loc) = loc ∧
      ∀ l ∈ trail cwd (absolutePath loc), l <+: loc := by
  obtain ⟨h₁, h₂, h₃⟩ := segments_foldl_join h (show 0 ∉ [SEPARATOR] by decide)
  have hsegments : segments (cString (absolutePath loc)) = loc := by
    rw [absolutePath, cString_of_not_mem h₁, h₃]
    rfl
  have habs : isAbsolute (absolutePath loc) = true := h₂
  refine ⟨h₁, ?_, fun l hl => ?_⟩
  · rw [locate, hsegments, habs, if_pos rfl, foldl_enter_plain h]
    rfl
  · rw [trail, hsegments, habs, if_pos rfl] at hl
    exact prefix_of_mem_trailFrom h hl

/-- The way and the location of plain names in a directory. -/
theorem trail_foldl_join {names : List Name} (h : ∀ name ∈ names, PlainName name) {path : Path}
    (hp : 0 ∉ path) (cwd : Location) :
    trail cwd (names.foldl join path) = trail cwd path ++ trailFrom (locate cwd path) names ∧
      locate cwd (names.foldl join path) = locate cwd path ++ names := by
  obtain ⟨h₁, h₂, h₃⟩ := segments_foldl_join h hp
  simp only [trail, locate, cString_of_not_mem h₁, cString_of_not_mem hp, h₂, h₃, trailFrom_append,
    List.foldl_append, foldl_enter_plain h, and_self]

/-- A path with an end of string in it hides the names that are joined to it. -/
theorem trail_foldl_join_of_mem {names : List Name} (h : ∀ name ∈ names, PlainName name)
    {path : Path} (hp : 0 ∈ path) (cwd : Location) :
    0 ∈ names.foldl join path ∧ trail cwd (names.foldl join path) = trail cwd path ∧
      locate cwd (names.foldl join path) = locate cwd path := by
  induction names generalizing path with
  | nil => exact ⟨hp, rfl, rfl⟩
  | cons name names ih =>
    obtain ⟨hname, h⟩ := List.forall_mem_cons.mp h
    obtain ⟨htrail, hlocate⟩ := trail_join_of_mem hp hname.isAbsolute cwd
    have hp' : 0 ∈ join path name := by
      rw [join_relative hname.isAbsolute]
      split <;> exact List.mem_append_left _ hp
    rw [← htrail, ← hlocate]
    exact ih h hp'

/-- Plain names leave a path with a name at its end. -/
theorem noFilename_foldl_join {names : List Name} (h : ∀ name ∈ names, PlainName name)
    {path : Path} (hp : noFilename path = false) : noFilename (names.foldl join path) = false := by
  induction names generalizing path with
  | nil => exact hp
  | cons name names ih =>
    obtain ⟨hname, h⟩ := List.forall_mem_cons.mp h
    refine ih h ?_
    rw [noFilename_join hname.isAbsolute]
    exact hname.noFilename

/-! ## Places relative to a directory -/

/-- A location given by how many directories it lies up (none: it is counted from the root) and by
the names down from there. -/
structure Place where
  up : Option Nat
  names : List Name

namespace Place

/-- The directory itself. -/
def here : Place := ⟨some 0, []⟩

def root : Place := ⟨none, []⟩

/-- The location of the place for the directory `dir`. -/
def «at» (dir : Location) (p : Place) : Location :=
  match p.up with
  | some up => dir.take (dir.length - up) ++ p.names
  | none => p.names

def enter (p : Place) (name : Name) : Place :=
  if name = DOT then p
  else if name = DOTDOT then
    if p.names = [] then ⟨p.up.map (· + 1), []⟩ else ⟨p.up, p.names.dropLast⟩
  else ⟨p.up, p.names ++ [name]⟩

theorem enter_at (dir : Location) (p : Place) (name : Name) :
    Posix.enter (p.at dir) name = (p.enter name).at dir := by
  obtain ⟨up, names⟩ := p
  unfold Posix.enter enter
  split
  · rfl
  · split
    · by_cases hn : names = []
      · subst hn
        cases up with
        | none => rfl
        | some up =>
          simp only [«at», List.append_nil, if_true, Option.map_some]
          rw [List.dropLast_eq_take, List.take_take, List.length_take]
          congr 1
          omega
      · rw [if_neg hn]
        cases up with
        | none => rfl
        | some up => exact List.dropLast_append_of_ne_nil hn
    · cases up with
      | none => rfl
      | some up => exact List.append_assoc ..

theorem foldl_enter_at (dir : Location) (names : List Name) (p : Place) :
    names.foldl Posix.enter (p.at dir) = (names.foldl enter p).at dir := by
  induction names generalizing p with
  | nil => rfl
  | cons name names ih => rw [List.foldl_cons, List.foldl_cons, enter_at, ih]

/-- The places on the way along names. -/
def trail (p : Place) : List Name → List Place
  | [] => []
  | name :: names => p.enter name :: trail (p.enter name) names

theorem trail_at (dir : Location) (names : List Name) (p : Place) :
    trailFrom (p.at dir) names = (p.trail names).map (·.at dir) := by
  induction names generalizing p with
  | nil => rfl
  | cons name names ih =>
    rw [trailFrom, enter_at, ih, trail, List.map_cons]

/-- Neither in the directory nor above it, for some directories at least. -/
def Outside (p : Place) : Prop := p.up ≠ some 0 ∧ p.names ≠ []

instance (p : Place) : Decidable p.Outside := inferInstanceAs (Decidable (_ ∧ _))

theorem comparable_of_not_outside {p : Place} (h : ¬ p.Outside) (dir : Location) :
    p.at dir <+: dir ∨ dir <+: p.at dir := by
  obtain ⟨up, names⟩ := p
  simp only [Outside, not_and_or, not_not] at h
  rcases h with rfl | rfl
  · right
    simp only [«at», Nat.sub_zero, List.take_length]
    exact List.prefix_append _ _
  · left
    cases up with
    | none => exact List.nil_prefix
    | some up =>
      simp only [«at», List.append_nil]
      exact List.take_prefix _ _

/-- From a deep directory with other names, a place outside is really outside. -/
theorem exists_not_comparable {p : Place} (h : p.Outside) :
    ∃ dir : Location, (∀ name ∈ dir, PlainName name) ∧ ¬ (p.at dir <+: dir ∨ dir <+: p.at dir) := by
  obtain ⟨up, names⟩ := p
  obtain ⟨hup, hnames⟩ := h
  obtain ⟨name, names, rfl⟩ := List.exists_cons_of_ne_nil hnames
  -- a plain name other than the first one of the place
  obtain ⟨x, hx, hne⟩ : ∃ x, PlainName x ∧ x ≠ name := by
    by_cases hn : name = [97]
    · exact ⟨[98], ⟨by decide, by decide, by decide, by decide, by decide⟩, by rw [hn]; decide⟩
    · exact ⟨[97], ⟨by decide, by decide, by decide, by decide, by decide⟩, Ne.symm hn⟩
  have hclash : ∀ pre rest, ¬ (pre ++ name :: names <+: pre ++ x :: rest ∨
      pre ++ x :: rest <+: pre ++ name :: names) := by
    rintro pre rest (h | h)
    · exact hne (List.cons_prefix_cons.mp ((List.prefix_append_right_inj pre).mp h)).1.symm
    · exact hne (List.cons_prefix_cons.mp ((List.prefix_append_right_inj pre).mp h)).1
  cases up with
  | none =>
    refine ⟨[x], List.forall_mem_singleton.mpr hx, ?_⟩
    exact hclash [] []
  | some up =>
    obtain ⟨k, rfl⟩ := Nat.exists_eq_succ_of_ne_zero fun h => hup (congrArg some h)
    refine ⟨List.replicate (k + 1) x, fun n hn => List.eq_of_mem_replicate hn ▸ hx, ?_⟩
    simp only [«at», List.length_replicate, Nat.sub_self, List.take_zero]
    exact hclash [] (List.replicate k x)

end Place

end Posix
end Techuila
