import Mathlib.Data.List.Dedup
import Techuila.Lib.PosixPath

/-!
# A file system without symbolic links

Directories and files by their location. A structure carries that the root is a directory and that
everything else lies in a directory.

* `put`: the one change that there is. `writeFile`, `createDirectories`: the operations on paths.
* `node_writeFile`, `node_createDirectories`: what they leave as it was.
* `lookup_plain`: a path of plain names finds the node of its location.
-/

namespace Techuila
namespace Posix

inductive Node
  | dir
  | file (content : List UInt8)
  deriving DecidableEq

/-- What is read through a stream. A directory can be opened, and nothing is read from it. -/
def Node.read : Node → List UInt8
  | .dir => []
  | .file content => content

/-- The node of a location, the latest first. -/
def nodeOf : List (Location × Node) → Location → Option Node
  | [], loc => if loc = [] then some .dir else none
  | e :: nodes, loc => if loc = e.1 then some e.2 else nodeOf nodes loc

structure FileSystem where
  nodes : List (Location × Node)
  root : nodeOf nodes [] = some .dir
  closed : ∀ loc name, nodeOf nodes (loc ++ [name]) ≠ none → nodeOf nodes loc = some .dir

namespace FileSystem

/-- The root alone. -/
def empty : FileSystem := ⟨[], rfl, by simp [nodeOf]⟩

def node (fs : FileSystem) (loc : Location) : Option Node := nodeOf fs.nodes loc

variable {fs : FileSystem} {loc : Location} {name : Name}

/-- A new node in a directory, or another content for a file. -/
def put (fs : FileSystem) (loc : Location) (name : Name) (n : Node) (h : fs.node loc = some .dir)
    (h' : fs.node (loc ++ [name]) ≠ some .dir) : FileSystem where
  nodes := (loc ++ [name], n) :: fs.nodes
  root := by
    rw [nodeOf, if_neg (by simp)]
    exact fs.root
  closed := by
    intro l m hm
    have hl : l ≠ loc ++ [name] ∨ fs.node (l ++ [m]) = none := by
      by_contra hne
      rw [not_or, not_not] at hne
      exact h' (hne.1 ▸ fs.closed l m hne.2)
    rw [nodeOf] at hm ⊢
    by_cases hlm : l ++ [m] = loc ++ [name]
    · obtain ⟨rfl, -⟩ := List.append_inj' hlm rfl
      rw [if_neg (by simp)]
      exact h
    · rw [if_neg hlm] at hm
      rw [if_neg (hl.resolve_right hm)]
      exact fs.closed l m hm

theorem node_put {n : Node} (h : fs.node loc = some .dir)
    (h' : fs.node (loc ++ [name]) ≠ some .dir) (l : Location) :
    (fs.put loc name n h h').node l = if l = loc ++ [name] then some n else fs.node l := rfl

/-- What has a node below it is a directory. -/
theorem dir_of_append {rest : List Name} (hne : rest ≠ []) (h : fs.node (loc ++ rest) ≠ none) :
    fs.node loc = some .dir := by
  induction rest generalizing loc with
  | nil => exact absurd rfl hne
  | cons name rest ih =>
    by_cases hr : rest = []
    · subst hr
      exact fs.closed loc name h
    · have hassoc : loc ++ name :: rest = loc ++ [name] ++ rest := by simp
      have hdir := ih hr (hassoc ▸ h)
      exact fs.closed loc name (by
        rw [show nodeOf fs.nodes (loc ++ [name]) = some .dir from hdir]
        exact Option.some_ne_none _)

/-! ## Paths -/

/-- The location behind names, where all on the way to it are directories. -/
def resolveFrom (fs : FileSystem) : Location → List Name → Option Location
  | loc, [] => some loc
  | loc, name :: names =>
    if fs.node loc = some .dir then resolveFrom fs (enter loc name) names else none

/-- The names of a path. A separator at the end counts as a name "." behind it. -/
def components (path : Path) : List Name :=
  segments (cString path) ++ if (cString path).getLast? = some SEPARATOR then [DOT] else []

def resolve (fs : FileSystem) (cwd : Location) (path : Path) : Option Location :=
  if cString path = [] then none
  else fs.resolveFrom (if isAbsolute path then [] else cwd) (components path)

/-- The node that a path leads to. -/
def lookup (fs : FileSystem) (cwd : Location) (path : Path) : Option Node :=
  (fs.resolve cwd path).bind fs.node

def «exists» (fs : FileSystem) (cwd : Location) (path : Path) : Bool := (fs.lookup cwd path).isSome

def readFile (fs : FileSystem) (cwd : Location) (path : Path) : Option (List UInt8) :=
  (fs.lookup cwd path).map Node.read

/-- A file written over what was there. `none` where it cannot be opened. -/
def writeFile (fs : FileSystem) (cwd : Location) (path : Path) (content : List UInt8) :
    Option FileSystem := do
  let loc ← fs.resolve cwd path
  let name ← loc.getLast?
  if h : fs.node loc.dropLast = some .dir ∧ fs.node (loc.dropLast ++ [name]) ≠ some .dir then
    some (fs.put loc.dropLast name (.file content) h.1 h.2)
  else none

/-- The directories along names, each created where it is missing. -/
def makeDirectories (fs : FileSystem) : Location → List Name → Bool × FileSystem
  | _, [] => (true, fs)
  | loc, name :: names =>
    match fs.node (enter loc name) with
    | some .dir => makeDirectories fs (enter loc name) names
    | some (.file _) => (false, fs)
    | none =>
      if h : enter loc name = loc ++ [name] ∧ fs.node loc = some .dir ∧
          fs.node (loc ++ [name]) ≠ some .dir then
        makeDirectories (fs.put loc name .dir h.2.1 h.2.2) (enter loc name) names
      else (false, fs)

/-- `create_directories`: whether it succeeds, and what it has created. -/
def createDirectories (fs : FileSystem) (cwd : Location) (path : Path) : Bool × FileSystem :=
  if cString path = [] then (false, fs)
  else fs.makeDirectories (if isAbsolute path then [] else cwd) (segments (cString path))

theorem nodeOf_filter {loc : Location} (hne : loc ≠ []) (nodes : List (Location × Node))
    (l : Location) : nodeOf (nodes.filter fun e => e.1 ≠ loc) l =
      if l = loc then none else nodeOf nodes l := by
  induction nodes with
  | nil =>
    by_cases hl : l = loc
    · simp [nodeOf, hl, hne]
    · simp [nodeOf, hl]
  | cons e nodes ih =>
    by_cases he : e.1 = loc
    · rw [List.filter_cons_of_neg (by simp [he]), ih, nodeOf, he]
      by_cases hl : l = loc <;> simp [hl]
    · rw [List.filter_cons_of_pos (by simp [he]), nodeOf, ih, nodeOf]
      by_cases hl : l = loc
      · simp [hl, Ne.symm he]
      · simp [hl]

/-- No node, where there is nothing below it. -/
def erase (fs : FileSystem) (loc : Location) (hne : loc ≠ [])
    (h : ∀ name, fs.node (loc ++ [name]) = none) : FileSystem where
  nodes := fs.nodes.filter fun e => e.1 ≠ loc
  root := by
    rw [nodeOf_filter hne, if_neg (Ne.symm hne)]
    exact fs.root
  closed := by
    intro l name hl
    rw [nodeOf_filter hne] at hl ⊢
    have hname : nodeOf fs.nodes (l ++ [name]) ≠ none := fun e => hl (by rw [e, ite_self])
    have hloc : l ≠ loc := fun e => hname (e ▸ h name)
    rw [if_neg hloc]
    exact fs.closed l name hname

theorem node_erase {loc : Location} (hne : loc ≠ []) (h : ∀ name, fs.node (loc ++ [name]) = none)
    (l : Location) : (fs.erase loc hne h).node l = if l = loc then none else fs.node l :=
  nodeOf_filter hne fs.nodes l

theorem mem_nodes {nodes : List (Location × Node)} {l : Location} {n : Node}
    (h : nodeOf nodes l = some n) : (l, n) ∈ nodes ∨ l = [] := by
  induction nodes with
  | nil =>
    unfold nodeOf at h
    split at h
    · exact .inr ‹_›
    · cases h
  | cons e nodes ih =>
    unfold nodeOf at h
    split at h
    · rename_i he
      cases h
      exact .inl (he ▸ List.mem_cons_self)
    · exact (ih h).imp_left (List.mem_cons_of_mem _)

theorem empty_of_nodes {loc : Location}
    (h : ∀ e ∈ fs.nodes, e.1.dropLast = loc → e.1 = []) (name : Name) :
    fs.node (loc ++ [name]) = none := by
  by_contra hne
  obtain ⟨n, hn⟩ := Option.ne_none_iff_exists'.mp hne
  have hm := (mem_nodes hn).resolve_right (by simp)
  have hnil : loc ++ [name] = [] := h _ hm (by rw [List.dropLast_concat])
  simp at hnil

/-- `remove`: a file, or a directory with nothing in it. `none` where nothing is removed. -/
def remove (fs : FileSystem) (cwd : Location) (path : Path) : Option FileSystem := do
  let loc ← fs.resolve cwd path
  let last ← (segments (cString path)).getLast?
  if h : loc ≠ [] ∧ ∀ e ∈ fs.nodes, e.1.dropLast = loc → e.1 = [] then
    if last = DOT ∨ last = DOTDOT ∨ fs.node loc = none then none
    else some (fs.erase loc h.1 (empty_of_nodes h.2))
  else none

/-- The names of the files in a directory, in no order that counts. -/
def regularFiles (fs : FileSystem) (loc : Location) : List Name :=
  (fs.nodes.filterMap fun e => if e.1.dropLast = loc then e.1.getLast? else none).dedup.filter
    fun name => match fs.node (loc ++ [name]) with
      | some (.file _) => true
      | _ => false

/-! ## What operations change -/

/-- The change that an operation makes: the nodes outside `P` stay, and directories stay. -/
structure Frame (fs fs' : FileSystem) (P : Location → Prop) : Prop where
  same : ∀ l, ¬ P l → fs'.node l = fs.node l
  dirs : ∀ l, fs.node l = some .dir → fs'.node l = some .dir

theorem Frame.refl (fs : FileSystem) (P : Location → Prop) : Frame fs fs P :=
  ⟨fun _ _ => rfl, fun _ h => h⟩

/-- Directories are created on the way, where there was nothing. -/
theorem node_makeDirectories (fs : FileSystem) (loc : Location) (names : List Name)
    (l : Location) : (fs.makeDirectories loc names).2.node l = fs.node l ∨
      (l ∈ trailFrom loc names ∧ fs.node l = none ∧
        (fs.makeDirectories loc names).2.node l = some .dir) := by
  induction names generalizing fs loc with
  | nil => exact .inl rfl
  | cons name names ih =>
    unfold makeDirectories
    split
    · exact (ih fs _).imp_right fun h => ⟨List.mem_cons_of_mem _ h.1, h.2⟩
    · exact .inl rfl
    · rename_i hnone
      split
      · rename_i h
        have hnext := h.1
        rcases ih (fs.put loc name .dir h.2.1 h.2.2) (enter loc name) with hs | ⟨hm, hn, hd⟩
        · rw [node_put] at hs
          by_cases hl : l = loc ++ [name]
          · rw [if_pos hl] at hs
            refine .inr ⟨?_, ?_, hs⟩
            · rw [hl, ← hnext]
              exact List.mem_cons_self
            · rw [hl, ← hnext]
              exact hnone
          · rw [if_neg hl] at hs
            exact .inl hs
        · rw [node_put] at hn
          split at hn
          · cases hn
          · exact .inr ⟨List.mem_cons_of_mem _ hm, hn, hd⟩
      · exact .inl rfl

theorem frame_makeDirectories (fs : FileSystem) (loc : Location) (names : List Name) :
    Frame fs (fs.makeDirectories loc names).2 (· ∈ trailFrom loc names) where
  same l hl := (fs.node_makeDirectories loc names l).resolve_right fun h => hl h.1
  dirs l hl := by
    rcases fs.node_makeDirectories loc names l with h | ⟨_, hnone, _⟩
    · rw [h, hl]
    · rw [hnone] at hl
      cases hl

/-- The way that was made ends in a directory. -/
theorem dir_makeDirectories {fs : FileSystem} {loc : Location} (hloc : fs.node loc = some .dir)
    {names : List Name} (hok : (fs.makeDirectories loc names).1 = true) :
    (fs.makeDirectories loc names).2.node (names.foldl enter loc) = some .dir := by
  induction names generalizing fs loc with
  | nil => exact hloc
  | cons name names ih =>
    rw [List.foldl_cons]
    unfold makeDirectories at hok ⊢
    split at hok
    · rename_i hdir
      exact ih hdir hok
    · cases hok
    · split at hok
      · rename_i h
        rw [dif_pos h]
        refine ih ?_ hok
        rw [node_put, h.1, if_pos rfl]
      · cases hok

theorem node_createDirectories (fs : FileSystem) (cwd : Location) (path : Path) (l : Location) :
    (fs.createDirectories cwd path).2.node l = fs.node l ∨
      (l ∈ trail cwd path ∧ fs.node l = none ∧
        (fs.createDirectories cwd path).2.node l = some .dir) := by
  unfold createDirectories
  split
  · exact .inl rfl
  · exact fs.node_makeDirectories _ _ l

theorem frame_createDirectories (fs : FileSystem) (cwd : Location) (path : Path) :
    Frame fs (fs.createDirectories cwd path).2 (· ∈ trail cwd path) := by
  unfold createDirectories
  split
  · exact .refl _ _
  · exact fs.frame_makeDirectories _ _

theorem dir_createDirectories {fs : FileSystem} {cwd : Location} (hcwd : fs.node cwd = some .dir)
    {path : Path} (hok : (fs.createDirectories cwd path).1 = true) :
    (fs.createDirectories cwd path).2.node (locate cwd path) = some .dir := by
  unfold createDirectories at hok ⊢
  split at hok
  · cases hok
  · rename_i hne
    rw [if_neg hne]
    refine dir_makeDirectories ?_ hok
    split
    · exact fs.root
    · exact hcwd

theorem resolveFrom_eq {fs : FileSystem} {loc l : Location} {names : List Name}
    (h : fs.resolveFrom loc names = some l) : l = names.foldl enter loc := by
  induction names generalizing loc with
  | nil =>
    cases h
    rfl
  | cons name names ih =>
    unfold resolveFrom at h
    split at h
    · exact ih h
    · cases h

theorem resolveFrom_append (fs : FileSystem) (loc : Location) (names names' : List Name) :
    fs.resolveFrom loc (names ++ names') =
      (fs.resolveFrom loc names).bind fun l => fs.resolveFrom l names' := by
  induction names generalizing loc with
  | nil => rfl
  | cons name names ih =>
    rw [List.cons_append, resolveFrom, resolveFrom]
    split
    · exact ih _
    · rfl

/-- A path that resolves leads to its location. -/
theorem resolve_eq {fs : FileSystem} {cwd l : Location} {path : Path}
    (h : fs.resolve cwd path = some l) : l = locate cwd path := by
  unfold resolve at h
  split at h
  · cases h
  · rw [resolveFrom_eq h, components, List.foldl_append, locate]
    by_cases hlast : (cString path).getLast? = some SEPARATOR
    · rw [if_pos hlast]
      rfl
    · rw [if_neg hlast]
      rfl

theorem lookup_eq {fs : FileSystem} {cwd : Location} {path : Path} {n : Node}
    (h : fs.lookup cwd path = some n) : fs.node (locate cwd path) = some n := by
  obtain ⟨l, hl, hn⟩ := Option.bind_eq_some_iff.mp h
  rw [← resolve_eq hl]
  exact hn

/-- A file is written at the location of its path and nowhere else, and not over a directory. -/
theorem node_writeFile {fs fs' : FileSystem} {cwd : Location} {path : Path} {content : List UInt8}
    (h : fs.writeFile cwd path content = some fs') :
    fs.node (locate cwd path) ≠ some .dir ∧
      ∀ l, fs'.node l = if l = locate cwd path then some (.file content) else fs.node l := by
  obtain ⟨loc, hloc, h⟩ := Option.bind_eq_some_iff.mp h
  obtain ⟨name, hname, h⟩ := Option.bind_eq_some_iff.mp h
  have hsplit : loc.dropLast ++ [name] = loc := by
    obtain ⟨front, rfl⟩ := List.getLast?_eq_some_iff.mp hname
    rw [List.dropLast_concat]
  split at h
  · rename_i hc
    cases h
    rw [← resolve_eq hloc]
    refine ⟨hsplit ▸ hc.2, fun l => ?_⟩
    rw [node_put, hsplit]
  · cases h

/-- What a path leads to is removed, and nothing else. -/
theorem node_remove {fs fs' : FileSystem} {cwd : Location} {path : Path}
    (h : fs.remove cwd path = some fs') (l : Location) :
    fs'.node l = if l = locate cwd path then none else fs.node l := by
  obtain ⟨loc, hloc, h⟩ := Option.bind_eq_some_iff.mp h
  obtain ⟨last, -, h⟩ := Option.bind_eq_some_iff.mp h
  split at h
  · rename_i hc
    split at h
    · cases h
    · cases h
      rw [node_erase, resolve_eq hloc]
  · cases h

/-! ## Plain paths -/

/-- Names that go down find the node of the location behind them. -/
theorem bind_resolveFrom_plain {names : List Name} (hplain : ∀ name ∈ names, PlainName name)
    (fs : FileSystem) (loc : Location) :
    (fs.resolveFrom loc names).bind fs.node = fs.node (loc ++ names) := by
  induction names generalizing loc with
  | nil => rw [List.append_nil]; rfl
  | cons name names ih =>
    obtain ⟨hname, hplain⟩ := List.forall_mem_cons.mp hplain
    have hassoc : loc ++ name :: names = loc ++ [name] ++ names := by simp
    unfold resolveFrom
    split
    · rw [hname.enter, ih hplain, hassoc]
    · rename_i hnot
      by_contra hne
      exact hnot (dir_of_append (List.cons_ne_nil name names) fun h => hne h.symm)

/-! ## Paths that can be followed -/

/-- A path stays where it leads to while directories stay. -/
theorem resolveFrom_frame {fs fs' : FileSystem}
    (hdirs : ∀ l, fs.node l = some .dir → fs'.node l = some .dir) {loc l : Location}
    {names : List Name} (h : fs.resolveFrom loc names = some l) :
    fs'.resolveFrom loc names = some l := by
  induction names generalizing loc with
  | nil => exact h
  | cons name names ih =>
    unfold resolveFrom at h ⊢
    split at h
    · rename_i hdir
      rw [if_pos (hdirs _ hdir)]
      exact ih h
    · cases h

theorem resolve_frame {fs fs' : FileSystem}
    (hdirs : ∀ l, fs.node l = some .dir → fs'.node l = some .dir) {cwd l : Location} {path : Path}
    (h : fs.resolve cwd path = some l) : fs'.resolve cwd path = some l := by
  unfold resolve at h ⊢
  split at h
  · cases h
  · rename_i hne
    rw [if_neg hne]
    exact resolveFrom_frame hdirs h

/-- What was written is read. -/
theorem readFile_writeFile {fs fs' : FileSystem} {cwd : Location} {path : Path}
    {content : List UInt8} (h : fs.writeFile cwd path content = some fs') :
    fs'.readFile cwd path = some content := by
  obtain ⟨hnot, hnode⟩ := node_writeFile h
  obtain ⟨loc, hloc, -⟩ := Option.bind_eq_some_iff.mp h
  have hdirs : ∀ l, fs.node l = some .dir → fs'.node l = some .dir := by
    intro l hl
    have hne : l ≠ locate cwd path := fun e => hnot (e ▸ hl)
    rw [hnode, if_neg hne, hl]
  rw [readFile, lookup, resolve_frame hdirs hloc, Option.bind_some, hnode, if_pos (resolve_eq hloc)]
  rfl

/-- On the way of a path that leads to a directory there are directories. -/
theorem dir_of_mem_trailFrom {fs : FileSystem} {loc l : Location} {names : List Name}
    (h : fs.resolveFrom loc names = some l) (hdir : fs.node l = some .dir) {l' : Location}
    (hl' : l' ∈ trailFrom loc names) : fs.node l' = some .dir := by
  induction names generalizing loc with
  | nil => cases hl'
  | cons name names ih =>
    unfold resolveFrom at h
    split at h
    · rcases List.mem_cons.mp hl' with rfl | hl'
      · cases names with
        | nil =>
          cases h
          exact hdir
        | cons name' names =>
          unfold resolveFrom at h
          split at h
          · assumption
          · cases h
      · exact ih h hl'
    · cases h

/-- The names of a path lead where the path leads. -/
theorem resolveFrom_segments {fs : FileSystem} {cwd loc : Location} {path : Path}
    (h : fs.resolve cwd path = some loc) :
    fs.resolveFrom (if isAbsolute path then [] else cwd) (segments (cString path)) = some loc := by
  unfold resolve at h
  split at h
  · cases h
  · rw [components, resolveFrom_append] at h
    obtain ⟨l, hl, h⟩ := Option.bind_eq_some_iff.mp h
    split at h
    · unfold resolveFrom at h
      split at h
      · cases h
        exact hl
      · cases h
    · cases h
      exact hl

theorem dir_of_mem_trail {fs : FileSystem} {cwd loc l : Location} {path : Path}
    (h : fs.resolve cwd path = some loc) (hdir : fs.node loc = some .dir)
    (hl : l ∈ trail cwd path) : fs.node l = some .dir :=
  dir_of_mem_trailFrom (resolveFrom_segments h) hdir hl

theorem resolveFrom_of_dirs {fs : FileSystem} {loc : Location} {names : List Name}
    (h : ∀ l ∈ loc :: trailFrom loc names, fs.node l = some .dir) :
    fs.resolveFrom loc names = some (names.foldl enter loc) := by
  induction names generalizing loc with
  | nil => rfl
  | cons name names ih =>
    obtain ⟨hloc, h⟩ := List.forall_mem_cons.mp h
    rw [resolveFrom, if_pos hloc, List.foldl_cons]
    exact ih h

/-- A path whose way has directories only can be followed. -/
theorem resolve_of_dirs {fs : FileSystem} {cwd : Location} {path : Path} (hne : cString path ≠ [])
    (h : ∀ l ∈ way cwd path, fs.node l = some .dir) :
    fs.resolve cwd path = some (locate cwd path) := by
  rw [resolve, if_neg hne, components, resolveFrom_append, resolveFrom_of_dirs h, Option.bind_some]
  change resolveFrom fs (locate cwd path) _ = _
  by_cases hlast : (cString path).getLast? = some SEPARATOR
  · rw [if_pos hlast, resolveFrom, if_pos (h _ (locate_mem_way cwd path))]
    rfl
  · rw [if_neg hlast]
    rfl

/-- A path in a directory goes on from where the directory's path leads. -/
theorem resolve_join {fs : FileSystem} {cwd loc : Location} {path name : Path} (hp : 0 ∉ path)
    (hrel : isAbsolute name = false) (h : fs.resolve cwd path = some loc)
    (hdir : fs.node loc = some .dir) :
    fs.resolve cwd (join path name) = fs.resolveFrom loc (components name) := by
  have hsegments := resolveFrom_segments h
  rw [cString_of_not_mem hp] at hsegments
  have hpath : path ≠ [] := by
    rintro rfl
    cases h
  have hs := isAbsolute_cString hrel
  have hcomponents : components (join path name) =
      segments path ++ (components name ++ if cString name = [] then [DOT] else []) := by
    unfold components
    rw [cString_join hp hrel, segments_join hs, List.append_assoc]
    by_cases hn : cString name = []
    · rw [hn, join_relative rfl, if_pos rfl]
      by_cases hf : noFilename path = true
      · simp only [noFilename, hpath, decide_false, Bool.false_or, decide_eq_true_eq] at hf
        simp [noFilename, hf, segments, splitFirst]
      · rw [if_neg hf]
        simp [segments, splitFirst, List.getLast?_append]
    · have hlast : (join path (cString name)).getLast? = (cString name).getLast? := by
        obtain ⟨c, rest, hc⟩ := List.exists_cons_of_ne_nil hn
        rw [join_relative hs, hc]
        split <;> simp [List.getLast?_append, List.getLast?_cons]
      rw [hlast, if_neg hn, List.append_nil]
  have hne : cString (join path name) ≠ [] := by
    rw [cString_join hp hrel, join_relative hs]
    split <;> simp [hpath]
  rw [resolve, if_neg hne, isAbsolute_join_left _ hrel, hcomponents, resolveFrom_append, hsegments,
    Option.bind_some, resolveFrom_append]
  by_cases hn : cString name = []
  · rw [if_pos hn, components, hn]
    simp [resolveFrom, segments, splitFirst, hdir, enter]
  · rw [if_neg hn]
    cases fs.resolveFrom loc (components name) <;> rfl

theorem components_foldl_join {names : List Name} (hne : names ≠ [])
    (hplain : ∀ name ∈ names, PlainName name) :
    isAbsolute (names.foldl join []) = false ∧ components (names.foldl join []) = names := by
  obtain ⟨h₀, habs, hsegments⟩ := @segments_foldl_join _ hplain [] (by simp)
  refine ⟨habs, ?_⟩
  obtain ⟨front, last, rfl⟩ := (List.eq_nil_or_concat names).resolve_left hne
  rw [List.concat_eq_append] at *
  have hlast : PlainName last := hplain last (by simp)
  have hsep : ((front ++ [last]).foldl join []).getLast? ≠ some SEPARATOR := by
    have hf := @noFilename_join (front.foldl join []) _ hlast.isAbsolute
    intro h
    rw [List.foldl_append, List.foldl_cons, List.foldl_nil] at h
    rw [noFilename, h] at hf
    simp only [decide_true, Bool.or_true, noFilename, hlast.ne_nil, decide_false, Bool.false_or]
      at hf
    exact hlast.separator (List.mem_of_getLast? (of_decide_eq_true hf.symm))
  rw [components, cString_of_not_mem h₀, if_neg hsep, hsegments]
  simp [segments, splitFirst]

/-- Plain names in a directory that its path leads to. -/
theorem lookup_foldl_join {fs : FileSystem} {cwd loc : Location} {path : Path} (hp : 0 ∉ path)
    (h : fs.resolve cwd path = some loc) (hdir : fs.node loc = some .dir) {names : List Name}
    (hplain : ∀ name ∈ names, PlainName name) :
    fs.lookup cwd (names.foldl join path) = fs.node (loc ++ names) := by
  by_cases hne : names = []
  · subst hne
    rw [List.append_nil, List.foldl_nil, lookup, h, Option.bind_some]
  · obtain ⟨hrel, hcomponents⟩ := components_foldl_join hne hplain
    rw [foldl_join hne, lookup, resolve_join hp hrel h hdir, hcomponents,
      bind_resolveFrom_plain hplain]

theorem resolveFrom_makeDirectories {fs : FileSystem} {loc : Location}
    (hloc : fs.node loc = some .dir) {names : List Name}
    (hok : (fs.makeDirectories loc names).1 = true) :
    (fs.makeDirectories loc names).2.resolveFrom loc names = some (names.foldl enter loc) := by
  induction names generalizing fs loc with
  | nil => rfl
  | cons name names ih =>
    have hdir := (fs.frame_makeDirectories loc (name :: names)).dirs loc hloc
    rw [resolveFrom, if_pos hdir, List.foldl_cons]
    unfold makeDirectories at hok ⊢
    split at hok
    · rename_i hnext
      exact ih hnext hok
    · cases hok
    · split at hok
      · rename_i h
        rw [dif_pos h]
        refine ih ?_ hok
        rw [node_put, h.1, if_pos rfl]
      · cases hok

/-- The directories that were created can be followed. -/
theorem resolve_createDirectories {fs : FileSystem} {cwd : Location}
    (hcwd : fs.node cwd = some .dir) {path : Path}
    (hok : (fs.createDirectories cwd path).1 = true) :
    (fs.createDirectories cwd path).2.resolve cwd path = some (locate cwd path) := by
  have hend := dir_createDirectories hcwd hok
  unfold createDirectories at hok hend ⊢
  split at hok
  · cases hok
  · rename_i hne
    rw [if_neg hne] at hend
    have hstart : fs.node (if isAbsolute path then [] else cwd) = some .dir := by
      split
      · exact fs.root
      · exact hcwd
    rw [resolve, if_neg hne, if_neg hne, components, resolveFrom_append,
      resolveFrom_makeDirectories hstart hok, Option.bind_some]
    change resolveFrom _ (locate cwd path) _ = _
    by_cases hlast : (cString path).getLast? = some SEPARATOR
    · rw [if_pos hlast, resolveFrom, if_pos hend]
      rfl
    · rw [if_neg hlast]
      rfl

/-- A plain name in a directory, whether the directory's path ends in a separator or not. -/
theorem resolve_join_plain (fs : FileSystem) (cwd : Location) {path name : Path} (hp : 0 ∉ path)
    (hname : PlainName name) : fs.resolve cwd (join path name) =
      (fs.resolveFrom (if isAbsolute path then [] else cwd) (segments path)).bind fun loc =>
        if fs.node loc = some .dir then some (loc ++ [name]) else none := by
  have hrel := hname.isAbsolute
  have hnul : 0 ∉ join path name := fun hm => (mem_join hm).elim hp fun hm =>
    hm.elim hname.nul (by decide)
  have hfile : noFilename (join path name) = false := by
    rw [noFilename_join hrel]
    exact hname.noFilename
  simp only [noFilename, Bool.or_eq_false_iff, decide_eq_false_iff_not] at hfile
  rw [resolve, components, cString_of_not_mem hnul, if_neg hfile.1, if_neg hfile.2, List.append_nil,
    isAbsolute_join_left _ hrel, segments_join hrel, segments_name hname.ne_nil hname.separator,
    resolveFrom_append]
  refine congrArg _ (funext fun loc => ?_)
  rw [resolveFrom, hname.enter]
  rfl

theorem mem_regularFiles {fs : FileSystem} {loc : Location} {name : Name} :
    name ∈ fs.regularFiles loc ↔ ∃ content, fs.node (loc ++ [name]) = some (.file content) := by
  rw [regularFiles, List.mem_filter, List.mem_dedup, List.mem_filterMap]
  constructor
  · rintro ⟨-, h⟩
    split at h
    · rename_i content hc
      exact ⟨content, hc⟩
    · cases h
  · rintro ⟨content, hc⟩
    refine ⟨⟨(loc ++ [name], .file content), (mem_nodes hc).resolve_right (by simp), ?_⟩, by rw [hc]⟩
    rw [List.dropLast_concat, if_pos rfl, List.getLast?_concat]

end FileSystem
end Posix
end Techuila
