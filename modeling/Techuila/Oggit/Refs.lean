import Techuila.Oggit.Repository

/-!
# Branches and HEAD (`13-developer-ecosystem/oggit/refs.cpp`)

Runs of the calls of a `RefStore` that all succeed, on names that are relative paths.

* `Effect`: what one call changes. `setBranch_effect`, `deleteBranch_effect`, `writeHead_effect`.
* `refs_run`: what runs keep, and what they leave at each branch and at HEAD.
* `refs_finite_map`: branches are a finite map; the listing has them all just when no name lies in
  a directory; HEAD names its branch just when no blank ends the name.
-/

namespace Techuila
namespace Oggit

open Techuila.Dist (Bytes ascii)
open Posix (Path Location Name FileSystem PlainName join locate trail way)

/-! ## The rest of `RefStore` -/

def SYMBOLIC_PREFIX : Bytes := ascii "ref: "

def branchExists (fs : FileSystem) (cwd : Location) (rootDirectory : Path) (name : Bytes) : Bool :=
  fs.exists cwd (branchPath rootDirectory name)

def deleteBranch (fs : FileSystem) (cwd : Location) (rootDirectory : Path) (name : Bytes) :
    Bool × FileSystem :=
  match fs.remove cwd (branchPath rootDirectory name) with
  | none => (false, fs)
  | some fs => (true, fs)

def setHeadToBranch (fs : FileSystem) (cwd : Location) (rootDirectory : Path)
    (branchName : Bytes) : Option Bool × FileSystem :=
  writeWholeFile fs cwd (headPath rootDirectory) (SYMBOLIC_PREFIX ++ branchName)

def setHeadDetached (fs : FileSystem) (cwd : Location) (rootDirectory : Path)
    (commit : ObjectId) : Option Bool × FileSystem :=
  writeWholeFile fs cwd (headPath rootDirectory) commit.toHex

def currentBranch (fs : FileSystem) (cwd : Location) (rootDirectory : Path) : Option Bytes :=
  (readWholeFile fs cwd (headPath rootDirectory)).bind fun content =>
    if SYMBOLIC_PREFIX <+: content then some (content.drop SYMBOLIC_PREFIX.length) else none

def resolveHead (fs : FileSystem) (cwd : Location) (rootDirectory : Path) : Option ObjectId :=
  (readWholeFile fs cwd (headPath rootDirectory)).bind fun content =>
    if SYMBOLIC_PREFIX <+: content then
      getBranch fs cwd rootDirectory (content.drop SYMBOLIC_PREFIX.length)
    else parseObjectId content

/-! ## Runs -/

inductive RefCall
  | setBranch (name : Bytes) (commit : ObjectId)
  | deleteBranch (name : Bytes)
  | setHeadToBranch (branchName : Bytes)
  | setHeadDetached (commit : ObjectId)

def RefCall.perform (cwd : Location) (rootDirectory : Path) (fs : FileSystem) :
    RefCall → Option Bool × FileSystem
  | .setBranch name commit => Oggit.setBranch fs cwd rootDirectory name commit
  | .deleteBranch name =>
    let (removed, fs) := Oggit.deleteBranch fs cwd rootDirectory name
    (some removed, fs)
  | .setHeadToBranch branchName => Oggit.setHeadToBranch fs cwd rootDirectory branchName
  | .setHeadDetached commit => Oggit.setHeadDetached fs cwd rootDirectory commit

/-- The files after calls that all return success. -/
def runRefs (cwd : Location) (rootDirectory : Path) : FileSystem → List RefCall → Option FileSystem
  | fs, [] => some fs
  | fs, call :: calls =>
    match call.perform cwd rootDirectory fs with
    | (some true, fs) => runRefs cwd rootDirectory fs calls
    | _ => none

/-- A relative path in its normal form. -/
def BranchName (name : Bytes) : Prop :=
  ∃ names ≠ [], (∀ n ∈ names, PlainName n) ∧ names.foldl join [] = name

def RefCall.Valid : RefCall → Prop
  | .setBranch name _ => BranchName name
  | .deleteBranch name => BranchName name
  | .setHeadToBranch branchName => BranchName branchName
  | .setHeadDetached _ => True

/-- What is set for a branch after a call. -/
def RefCall.nextCommit (name : Bytes) (commit : Option ObjectId) : RefCall → Option ObjectId
  | .setBranch name' commit' => if name' = name then some commit' else commit
  | .deleteBranch name' => if name' = name then none else commit
  | _ => commit

/-- The branch that HEAD was set to last. -/
def RefCall.nextHead (head : Option Bytes) : RefCall → Option Bytes
  | .setHeadToBranch branchName => some branchName
  | .setHeadDetached _ => none
  | _ => head

/-- The call creates no directory for a branch. -/
def RefCall.Flat : RefCall → Prop
  | .setBranch name _ => PlainName name
  | _ => True

/-! ## Where the files lie -/

/-- The location of the branches' directory. -/
def headsAt (cwd : Location) (rootDirectory : Path) : Location := locate cwd (headsPath rootDirectory)

/-- The location of HEAD. -/
def headAt (cwd : Location) (rootDirectory : Path) : Location :=
  locate cwd rootDirectory ++ [ascii "HEAD"]

/-- The directories of the refs are there, the way to them does not lead through a branch, and the
files in them have names that files can have. -/
structure RefsOpen (fs : FileSystem) (cwd : Location) (rootDirectory : Path) : Prop where
  nul : 0 ∉ rootDirectory
  dirs : ∀ l ∈ way cwd (headsPath rootDirectory), fs.node l = some .dir
  apart : ∀ l ∈ way cwd (headsPath rootDirectory), ∀ name, ¬ headsAt cwd rootDirectory ++ [name] <+: l
  real : ∀ name, fs.node (headsAt cwd rootDirectory ++ [name]) ≠ none → PlainName name

variable {fs fs' : FileSystem} {cwd : Location} {rootDirectory : Path}

theorem plain_head : PlainName (ascii "HEAD") :=
  ⟨by decide, by decide, by decide, by decide, by decide⟩

theorem headsAt_eq (h : 0 ∉ rootDirectory) :
    headsAt cwd rootDirectory = locate cwd rootDirectory ++ headsNames :=
  (Posix.trail_foldl_join plain_headsNames h cwd).2

theorem nul_headsPath (h : 0 ∉ rootDirectory) : 0 ∉ headsPath rootDirectory :=
  (Posix.segments_foldl_join plain_headsNames h).1

theorem RefsOpen.dir_heads (h : RefsOpen fs cwd rootDirectory) :
    fs.node (headsAt cwd rootDirectory) = some .dir :=
  h.dirs _ (Posix.locate_mem_way _ _)

theorem RefsOpen.resolve_heads (h : RefsOpen fs cwd rootDirectory) :
    fs.resolve cwd (headsPath rootDirectory) = some (headsAt cwd rootDirectory) := by
  refine FileSystem.resolve_of_dirs ?_ h.dirs
  have hheads : PlainName (ascii "heads") := plain_headsNames _ (by simp [headsNames])
  have hfile : Posix.noFilename (headsPath rootDirectory) = false := by
    rw [headsPath, Posix.noFilename_join hheads.isAbsolute]
    exact hheads.noFilename
  rw [Posix.cString_of_not_mem (nul_headsPath h.nul)]
  intro e
  rw [e] at hfile
  cases hfile

/-- A branch's file. -/
theorem branchPath_names {names : List Name} (hne : names ≠ []) :
    branchPath rootDirectory (names.foldl join []) = names.foldl join (headsPath rootDirectory) :=
  (Posix.foldl_join hne _).symm

theorem RefsOpen.lookup_branch (h : RefsOpen fs cwd rootDirectory) {names : List Name}
    (hne : names ≠ []) (hplain : ∀ n ∈ names, PlainName n) :
    fs.lookup cwd (branchPath rootDirectory (names.foldl join [])) =
      fs.node (headsAt cwd rootDirectory ++ names) := by
  rw [branchPath_names hne]
  exact FileSystem.lookup_foldl_join (nul_headsPath h.nul) h.resolve_heads h.dir_heads hplain

theorem locate_branchPath (h : 0 ∉ rootDirectory) {names : List Name} (hne : names ≠ [])
    (hplain : ∀ n ∈ names, PlainName n) :
    locate cwd (branchPath rootDirectory (names.foldl join [])) =
      headsAt cwd rootDirectory ++ names := by
  rw [branchPath_names hne]
  exact (Posix.trail_foldl_join hplain (nul_headsPath h) cwd).2

/-- The way to the repository is a part of the way to its branches. -/
theorem RefsOpen.dirs_root (h : RefsOpen fs cwd rootDirectory) {l : Location}
    (hl : l ∈ way cwd rootDirectory) : fs.node l = some .dir := by
  have htrail := (Posix.trail_foldl_join plain_headsNames h.nul cwd).1
  have habs := (Posix.segments_foldl_join plain_headsNames h.nul).2.1
  refine h.dirs l ?_
  change l ∈ (if Posix.isAbsolute (headsNames.foldl join rootDirectory) then [] else cwd) ::
    trail cwd (headsNames.foldl join rootDirectory)
  rw [htrail, habs, ← List.cons_append]
  exact List.mem_append_left _ hl

theorem locate_headPath (h : 0 ∉ rootDirectory) :
    locate cwd (headPath rootDirectory) = headAt cwd rootDirectory :=
  (Posix.trail_foldl_join (List.forall_mem_singleton.mpr plain_head) h cwd).2

theorem RefsOpen.lookup_head (h : RefsOpen fs cwd rootDirectory) :
    fs.lookup cwd (headPath rootDirectory) = fs.node (headAt cwd rootDirectory) := by
  have hroot : fs.resolveFrom (if Posix.isAbsolute rootDirectory then [] else cwd)
      (Posix.segments rootDirectory) = some (locate cwd rootDirectory) := by
    have hdirs : fs.resolveFrom (if Posix.isAbsolute rootDirectory then [] else cwd)
        (Posix.segments (Posix.cString rootDirectory)) = some (locate cwd rootDirectory) :=
      FileSystem.resolveFrom_of_dirs fun l hl => h.dirs_root hl
    rwa [Posix.cString_of_not_mem h.nul] at hdirs
  rw [FileSystem.lookup, headPath, FileSystem.resolve_join_plain fs cwd h.nul plain_head, hroot,
    Option.bind_some, if_pos (h.dirs_root (Posix.locate_mem_way _ _)), Option.bind_some]
  rfl

/-! ## What a call changes -/

/-- The node at `l` is new, with directories along `front` below the branches' directory, and
nothing else changes. -/
structure Effect (heads : Location) (fs fs' : FileSystem) (l : Location) (node : Option Posix.Node)
    (front : List Name) : Prop where
  here : fs'.node l = node
  there : ∀ l' ≠ l, fs'.node l' = fs.node l' ∨ (fs.node l' = none ∧ fs'.node l' = some .dir ∧
    ∃ k ≠ [], k <+: front ∧ l' = heads ++ k)

theorem node_writeWholeFile {path : Path} {content : Bytes}
    (h : writeWholeFile fs cwd path content = (some true, fs')) :
    fs.node (locate cwd path) ≠ some .dir ∧ parentPath path ≠ [] ∧
      fs'.node (locate cwd path) = some (.file (content ++ [10])) ∧
      ∀ l ≠ locate cwd path, fs'.node l = fs.node l ∨
        (l ∈ trail cwd (parentPath path) ∧ fs.node l = none ∧ fs'.node l = some .dir) := by
  unfold writeWholeFile at h
  have hcreate := fs.node_createDirectories cwd (parentPath path)
  cases hc : fs.createDirectories cwd (parentPath path) with
  | mk created fs₁ =>
    rw [hc] at h hcreate
    dsimp only at h hcreate
    split at h
    · cases h
    rename_i hcreated
    split at h
    · cases h
    rename_i hwrite
    cases h
    obtain ⟨hnot, hnode⟩ := FileSystem.node_writeFile hwrite
    refine ⟨fun hdir => ?_, fun hnil => ?_, by rw [hnode, if_pos rfl], fun l hl => ?_⟩
    · rcases hcreate (locate cwd path) with he | ⟨-, hnone, -⟩
      · exact hnot (he.trans hdir)
      · rw [hnone] at hdir
        cases hdir
    · rw [hnil] at hc
      cases hc
      exact hcreated rfl
    · rw [hnode, if_neg hl]
      exact hcreate l

/-- A branch's file is written, behind the directories that its name needs. -/
theorem setBranch_effect (h : RefsOpen fs cwd rootDirectory) {names : List Name} (hne : names ≠ [])
    (hplain : ∀ n ∈ names, PlainName n) {commit : ObjectId}
    (hok : setBranch fs cwd rootDirectory (names.foldl join []) commit = (some true, fs')) :
    fs.node (headsAt cwd rootDirectory ++ names) ≠ some .dir ∧
      Effect (headsAt cwd rootDirectory) fs fs' (headsAt cwd rootDirectory ++ names)
        (some (.file (commit.toHex ++ [10]))) names.dropLast := by
  obtain ⟨hnot, -, hhere, hthere⟩ := node_writeWholeFile hok
  rw [locate_branchPath h.nul hne hplain] at hnot hhere hthere
  refine ⟨hnot, hhere, fun l hl => (hthere l hl).imp_right fun ⟨htrail, hnone, hdir⟩ =>
    ⟨hnone, hdir, ?_⟩⟩
  obtain ⟨front, last, rfl⟩ := (List.eq_nil_or_concat names).resolve_left hne
  rw [List.concat_eq_append] at *
  obtain ⟨hfront, hlast⟩ := List.forall_mem_append.mp hplain
  have hparent : parentPath (branchPath rootDirectory ((front ++ [last]).foldl join [])) =
      front.foldl join (headsPath rootDirectory) := by
    rw [branchPath_names hne, List.foldl_append]
    refine parentPath_join (Posix.noFilename_foldl_join hfront ?_) (hlast last (by simp)).separator
    have hheads : PlainName (ascii "heads") := plain_headsNames _ (by simp [headsNames])
    rw [headsPath, Posix.noFilename_join hheads.isAbsolute]
    exact hheads.noFilename
  rw [hparent, (Posix.trail_foldl_join hfront (nul_headsPath h.nul) cwd).1, List.mem_append] at htrail
  rw [List.dropLast_concat]
  rcases htrail with htrail | htrail
  · have hdir := h.dirs l (List.mem_cons_of_mem _ htrail)
    rw [hnone] at hdir
    cases hdir
  · obtain ⟨k, hk, rfl⟩ := Posix.mem_trailFrom_plain hfront htrail
    refine ⟨k, ?_, hk, rfl⟩
    rintro rfl
    have hdir := h.dir_heads
    rw [List.append_nil] at hnone
    rw [headsAt, hnone] at hdir
    cases hdir

theorem deleteBranch_effect (h : RefsOpen fs cwd rootDirectory) {names : List Name}
    (hne : names ≠ []) (hplain : ∀ n ∈ names, PlainName n)
    (hok : deleteBranch fs cwd rootDirectory (names.foldl join []) = (true, fs')) :
    Effect (headsAt cwd rootDirectory) fs fs' (headsAt cwd rootDirectory ++ names) none [] := by
  unfold deleteBranch at hok
  split at hok
  · cases hok
  · rename_i hremove
    cases hok
    have hnode := FileSystem.node_remove hremove
    rw [locate_branchPath h.nul hne hplain] at hnode
    exact ⟨by rw [hnode, if_pos rfl], fun l hl => .inl (by rw [hnode, if_neg hl])⟩

theorem segments_separators {l : Path} (h : ∀ c ∈ l, c = Posix.SEPARATOR) :
    Posix.segments l = [] := by
  induction l with
  | nil => rfl
  | cons c l ih =>
    obtain ⟨rfl, hl⟩ := List.forall_mem_cons.mp h
    exact (Posix.segments_append [] l).trans (ih hl)

/-- The way to the parent of a name in a directory is the way to the directory. -/
theorem trail_parentPath {path : Path} {name : Bytes} (hp : 0 ∉ path) (hne : path ≠ [])
    (hname : PlainName name) (cwd : Location) :
    trail cwd (parentPath (join path name)) = trail cwd path := by
  by_cases hfile : Posix.noFilename path = true
  · simp only [Posix.noFilename, hne, decide_false, Bool.false_or, decide_eq_true_eq] at hfile
    obtain ⟨front, rfl⟩ := List.getLast?_eq_some_iff.mp hfile
    have hjoin : join (front ++ [Posix.SEPARATOR]) name = front ++ [Posix.SEPARATOR] ++ name := by
      rw [Posix.join_relative hname.isAbsolute, if_pos (by simp [Posix.noFilename])]
    have hdir : ((front ++ [Posix.SEPARATOR] ++ name).reverse.dropWhile
        (· ≠ Posix.SEPARATOR)).reverse = front ++ [Posix.SEPARATOR] := by
      rw [List.reverse_append, List.dropWhile_append_of_pos fun c hc => ?_, List.reverse_append,
        List.reverse_singleton, List.singleton_append, List.dropWhile_cons_of_neg (by simp)]
      · simp
      · have hc : c ≠ Posix.SEPARATOR := fun e => hname.separator (e ▸ List.mem_reverse.mp hc)
        simpa using hc
    -- the separators at the end are stripped, and they part nothing
    obtain ⟨seps, hseps, hsplit⟩ : ∃ seps : Path, (∀ c ∈ seps, c = Posix.SEPARATOR) ∧
        front ++ [Posix.SEPARATOR] = ((front ++ [Posix.SEPARATOR]).reverse.dropWhile
          (· = Posix.SEPARATOR)).reverse ++ seps := by
      refine ⟨((front ++ [Posix.SEPARATOR]).reverse.takeWhile (· = Posix.SEPARATOR)).reverse,
        fun c hc => ?_, ?_⟩
      · simpa using List.mem_takeWhile_imp (List.mem_reverse.mp hc)
      · rw [← List.reverse_append, List.takeWhile_append_dropWhile, List.reverse_reverse]
    rw [hjoin, parentPath, hdir]
    generalize ((front ++ [Posix.SEPARATOR]).reverse.dropWhile
      (· = Posix.SEPARATOR)).reverse = stripped at hsplit ⊢
    rw [hsplit] at hp ⊢
    by_cases hs : stripped = []
    · subst hs
      rw [List.nil_append] at hsplit hp ⊢
      have hfirst : Posix.isAbsolute seps = true := by
        obtain ⟨c, rest, rfl⟩ := List.exists_cons_of_ne_nil (hsplit ▸ hne)
        simp [Posix.isAbsolute, hseps c List.mem_cons_self]
      rw [if_neg (not_not.mpr rfl), if_neg (hsplit ▸ hne), trail, trail, hfirst,
        Posix.cString_of_not_mem hp, segments_separators hseps]
      rfl
    · obtain ⟨c, rest, rfl⟩ := List.exists_cons_of_ne_nil hs
      have hsegments : Posix.segments (c :: rest ++ seps) = Posix.segments (c :: rest) := by
        cases seps with
        | nil => rw [List.append_nil]
        | cons sep seps =>
          obtain ⟨rfl, hrest⟩ := List.forall_mem_cons.mp hseps
          rw [Posix.segments_append, segments_separators hrest, List.append_nil]
      rw [if_pos hs, trail, trail, Posix.cString_of_not_mem hp,
        Posix.cString_of_not_mem fun hm => hp (List.mem_append_left _ hm), hsegments]
      rfl
  · rw [parentPath_join (by simpa using hfile) hname.separator]

theorem writeHead_effect (h : RefsOpen fs cwd rootDirectory) {content : Bytes}
    (hok : writeWholeFile fs cwd (headPath rootDirectory) content = (some true, fs')) :
    fs.node (headAt cwd rootDirectory) ≠ some .dir ∧
      Effect (headsAt cwd rootDirectory) fs fs' (headAt cwd rootDirectory)
        (some (.file (content ++ [10]))) [] := by
  obtain ⟨hnot, hparent, hhere, hthere⟩ := node_writeWholeFile hok
  rw [locate_headPath h.nul] at hnot hhere hthere
  refine ⟨hnot, hhere, fun l hl => .inl ((hthere l hl).resolve_right fun ⟨htrail, hnone, _⟩ => ?_)⟩
  have hne : rootDirectory ≠ [] := by
    rintro rfl
    exact hparent (by decide)
  rw [headPath, trail_parentPath h.nul hne plain_head] at htrail
  have hdir := h.dirs_root (List.mem_cons_of_mem _ htrail)
  rw [hnone] at hdir
  cases hdir

/-! ## Steps and runs -/

/-- The commit that the node of a branch names. -/
def commitAt (fs : FileSystem) (l : Location) : Option ObjectId :=
  (fs.node l).bind fun node => parseObjectId (trim node.read)

/-- HEAD's file names the branch. -/
def HeadIs (fs : FileSystem) (cwd : Location) (rootDirectory : Path) (head : Option Bytes) : Prop :=
  ∀ name, head = some name →
    fs.node (headAt cwd rootDirectory) = some (.file (SYMBOLIC_PREFIX ++ name ++ [10]))

/-- There is no directory among the branches. -/
def FlatAt (fs : FileSystem) (cwd : Location) (rootDirectory : Path) : Prop :=
  ∀ name, fs.node (headsAt cwd rootDirectory ++ [name]) ≠ some .dir

theorem RefsOpen.getBranch_names (h : RefsOpen fs cwd rootDirectory) {names : List Name}
    (hne : names ≠ []) (hplain : ∀ n ∈ names, PlainName n) :
    getBranch fs cwd rootDirectory (names.foldl join []) =
      commitAt fs (headsAt cwd rootDirectory ++ names) := by
  rw [getBranch, readWholeFile, FileSystem.readFile, h.lookup_branch hne hplain, commitAt]
  cases fs.node (headsAt cwd rootDirectory ++ names) <;> rfl

theorem names_inj {names names' : List Name} (hne : names ≠ []) (hplain : ∀ n ∈ names, PlainName n)
    (hne' : names' ≠ []) (hplain' : ∀ n ∈ names', PlainName n)
    (h : names.foldl join [] = names'.foldl join []) : names = names' := by
  rw [← (FileSystem.components_foldl_join hne hplain).2, h,
    (FileSystem.components_foldl_join hne' hplain').2]

theorem headAt_ne (h : 0 ∉ rootDirectory) (names : List Name) :
    headAt cwd rootDirectory ≠ headsAt cwd rootDirectory ++ names := by
  rw [headsAt_eq h, headAt, List.append_assoc]
  intro e
  have hlength := congrArg List.length (List.append_cancel_left e)
  simp [headsNames] at hlength

section Effect

variable {l : Location} {node : Option Posix.Node} {front : List Name}

theorem Effect.opened (he : Effect (headsAt cwd rootDirectory) fs fs' l node front)
    (h : RefsOpen fs cwd rootDirectory) (hl : l ∉ way cwd (headsPath rootDirectory))
    (hreal : ∀ name, l = headsAt cwd rootDirectory ++ [name] → PlainName name)
    (hfront : ∀ n ∈ front, PlainName n) : RefsOpen fs' cwd rootDirectory where
  nul := h.nul
  dirs l' hl' := by
    have hdir := h.dirs l' hl'
    rcases he.there l' fun e => hl (e ▸ hl') with hs | ⟨hnone, -⟩
    · rw [hs, hdir]
    · rw [hnone] at hdir
      cases hdir
  apart := h.apart
  real name hname := by
    by_cases hn : headsAt cwd rootDirectory ++ [name] = l
    · exact hreal name hn.symm
    · rcases he.there _ hn with hs | ⟨-, -, k, -, hk, hnames⟩
      · exact h.real name (hs ▸ hname)
      · obtain rfl := List.append_cancel_left hnames
        exact hfront name (hk.subset List.mem_cons_self)

/-- A directory that is created names no commit, as nothing did before. -/
theorem Effect.commitAt (he : Effect (headsAt cwd rootDirectory) fs fs' l node front)
    {l' : Location} (hl : l' ≠ l) : commitAt fs' l' = commitAt fs l' := by
  unfold Oggit.commitAt
  rcases he.there l' hl with hs | ⟨hnone, hdir, -⟩
  · rw [hs]
  · rw [hnone, hdir]
    rfl

theorem Effect.headIs (he : Effect (headsAt cwd rootDirectory) fs fs' l node front)
    (hl : headAt cwd rootDirectory ≠ l) {head : Option Bytes}
    (h : HeadIs fs cwd rootDirectory head) : HeadIs fs' cwd rootDirectory head := by
  intro name hname
  rcases he.there _ hl with hs | ⟨hnone, -⟩
  · rw [hs, h name hname]
  · rw [h name hname] at hnone
    cases hnone

theorem Effect.flatAt (he : Effect (headsAt cwd rootDirectory) fs fs' l node [])
    (hnode : node ≠ some .dir) (h : FlatAt fs cwd rootDirectory) :
    FlatAt fs' cwd rootDirectory := by
  intro name
  by_cases hn : headsAt cwd rootDirectory ++ [name] = l
  · rw [hn, he.here]
    exact hnode
  · rcases he.there _ hn with hs | ⟨-, -, k, hk, hpre, -⟩
    · rw [hs]
      exact h name
    · exact absurd (List.prefix_nil.mp hpre) hk

end Effect

/-- What a call that succeeds does to the branches, to HEAD and to the directory. -/
structure Step (cwd : Location) (rootDirectory : Path) (fs fs' : FileSystem) (call : RefCall) :
    Prop where
  opened : RefsOpen fs' cwd rootDirectory
  commit : ∀ name, BranchName name → getBranch fs' cwd rootDirectory name =
    call.nextCommit name (getBranch fs cwd rootDirectory name)
  head : ∀ head, HeadIs fs cwd rootDirectory head → HeadIs fs' cwd rootDirectory (call.nextHead head)
  flat : FlatAt fs cwd rootDirectory → call.Flat → FlatAt fs' cwd rootDirectory

theorem not_mem_way (h : RefsOpen fs cwd rootDirectory) {l : Location}
    (hl : fs.node l ≠ some .dir) : l ∉ way cwd (headsPath rootDirectory) :=
  fun hm => hl (h.dirs l hm)

/-- A call on one branch does not change the others. -/
theorem getBranch_next (h : RefsOpen fs cwd rootDirectory) (h' : RefsOpen fs' cwd rootDirectory)
    {names : List Name} (hne : names ≠ []) (hplain : ∀ n ∈ names, PlainName n)
    {node : Option Posix.Node} {front : List Name}
    (he : Effect (headsAt cwd rootDirectory) fs fs' (headsAt cwd rootDirectory ++ names) node front)
    {name : Bytes} (hname : BranchName name) : getBranch fs' cwd rootDirectory name =
      if names.foldl join [] = name then node.bind fun n => parseObjectId (trim n.read)
      else getBranch fs cwd rootDirectory name := by
  obtain ⟨names', hne', hplain', rfl⟩ := hname
  rw [h'.getBranch_names hne' hplain', h.getBranch_names hne' hplain']
  by_cases hn : names = names'
  · subst hn
    rw [if_pos rfl, commitAt, he.here]
  · rw [if_neg fun e => hn (names_inj hne hplain hne' hplain' e)]
    exact he.commitAt fun e => hn (List.append_cancel_left e).symm

theorem step_setBranch (h : RefsOpen fs cwd rootDirectory) {name : Bytes} {commit : ObjectId}
    (hv : BranchName name)
    (hok : setBranch fs cwd rootDirectory name commit = (some true, fs')) :
    Step cwd rootDirectory fs fs' (.setBranch name commit) := by
  obtain ⟨names, hne, hplain, rfl⟩ := hv
  obtain ⟨hnot, he⟩ := setBranch_effect h hne hplain hok
  have h' : RefsOpen fs' cwd rootDirectory := by
    refine he.opened h (not_mem_way h hnot) (fun name hl => ?_) fun n hn =>
      hplain n (List.dropLast_subset _ hn)
    obtain rfl := List.append_cancel_left hl
    exact hplain name List.mem_cons_self
  refine ⟨h', fun name hname => ?_, fun head hhead => ?_, fun hflat hcall => ?_⟩
  · rw [getBranch_next h h' hne hplain he hname, Option.bind_some]
    change (if _ then parseObjectId (trim (commit.toHex ++ [10])) else _) = _
    rw [trim_line, parseObjectId_toHex]
    rfl
  · exact he.headIs (headAt_ne h.nul names) hhead
  · -- a name without directories is one name
    have hone : names = [names.foldl join []] := by
      exact names_inj hne hplain (by simp) (List.forall_mem_singleton.mpr hcall)
        (Posix.nil_join _).symm
    rw [hone] at he
    exact he.flatAt (by simp) hflat

theorem step_deleteBranch (h : RefsOpen fs cwd rootDirectory) {name : Bytes} (hv : BranchName name)
    (hok : deleteBranch fs cwd rootDirectory name = (true, fs')) :
    Step cwd rootDirectory fs fs' (.deleteBranch name) := by
  obtain ⟨names, hne, hplain, rfl⟩ := hv
  have he := deleteBranch_effect h hne hplain hok
  have hway : headsAt cwd rootDirectory ++ names ∉ way cwd (headsPath rootDirectory) := by
    obtain ⟨n, names, rfl⟩ := List.exists_cons_of_ne_nil hne
    intro hm
    exact h.apart _ hm n ⟨names, by simp⟩
  have h' : RefsOpen fs' cwd rootDirectory := by
    refine he.opened h hway (fun name hl => ?_) (List.forall_mem_nil _)
    obtain rfl := List.append_cancel_left hl
    exact hplain name List.mem_cons_self
  exact ⟨h', fun name hname => getBranch_next h h' hne hplain he hname,
    fun head hhead => he.headIs (headAt_ne h.nul names) hhead, fun hflat _ => he.flatAt (by simp) hflat⟩

/-- A call on HEAD does not change the branches. -/
theorem step_writeHead (h : RefsOpen fs cwd rootDirectory) {content : Bytes} {call : RefCall}
    (hcommit : ∀ name commit, call.nextCommit name commit = commit)
    (hhead : ∀ head name, call.nextHead head = some name → content = SYMBOLIC_PREFIX ++ name)
    (hok : writeWholeFile fs cwd (headPath rootDirectory) content = (some true, fs')) :
    Step cwd rootDirectory fs fs' call := by
  obtain ⟨hnot, he⟩ := writeHead_effect h hok
  have h' : RefsOpen fs' cwd rootDirectory :=
    he.opened h (not_mem_way h hnot) (fun name hl => absurd hl (headAt_ne h.nul _))
      (List.forall_mem_nil _)
  refine ⟨h', fun name hname => ?_, fun head _ name hname => ?_, fun hflat _ =>
    he.flatAt (by simp) hflat⟩
  · obtain ⟨names, hne, hplain, rfl⟩ := hname
    rw [hcommit, h'.getBranch_names hne hplain, h.getBranch_names hne hplain]
    exact he.commitAt (headAt_ne h.nul names).symm
  · rw [he.here, hhead head name hname]

theorem step_perform (h : RefsOpen fs cwd rootDirectory) {call : RefCall} (hv : call.Valid)
    (hok : call.perform cwd rootDirectory fs = (some true, fs')) :
    Step cwd rootDirectory fs fs' call := by
  cases call with
  | setBranch name commit => exact step_setBranch h hv hok
  | deleteBranch name =>
    refine step_deleteBranch h hv ?_
    rw [RefCall.perform, Prod.mk.injEq, Option.some_inj] at hok
    exact Prod.ext hok.1 hok.2
  | setHeadToBranch branchName =>
    refine step_writeHead h (fun _ _ => rfl) (fun head name hname => ?_) hok
    cases hname
    rfl
  | setHeadDetached commit =>
    exact step_writeHead h (fun _ _ => rfl) (fun head name hname => nomatch hname) hok

/-- What runs of calls that succeed leave at each branch and at HEAD. -/
theorem refs_run (h : RefsOpen fs cwd rootDirectory) {calls : List RefCall}
    (hv : ∀ call ∈ calls, call.Valid) (hrun : runRefs cwd rootDirectory fs calls = some fs') :
    RefsOpen fs' cwd rootDirectory ∧
      (∀ name, BranchName name → getBranch fs' cwd rootDirectory name =
        calls.foldl (RefCall.nextCommit name) (getBranch fs cwd rootDirectory name)) ∧
      (∀ head, HeadIs fs cwd rootDirectory head →
        HeadIs fs' cwd rootDirectory (calls.foldl RefCall.nextHead head)) ∧
      (FlatAt fs cwd rootDirectory → (∀ call ∈ calls, call.Flat) → FlatAt fs' cwd rootDirectory) := by
  induction calls generalizing fs with
  | nil =>
    cases hrun
    exact ⟨h, fun _ _ => rfl, fun _ hhead => hhead, fun hflat _ => hflat⟩
  | cons call calls ih =>
    obtain ⟨hcall, hv⟩ := List.forall_mem_cons.mp hv
    unfold runRefs at hrun
    split at hrun
    · rename_i fs₁ hok
      have hstep := step_perform h hcall hok
      obtain ⟨hopen, hcommit, hhead, hflat⟩ := ih hstep.opened hv hrun
      refine ⟨hopen, fun name hname => ?_, fun head hh => hhead _ (hstep.head head hh),
        fun hf hc => ?_⟩
      · rw [hcommit name hname, hstep.commit name hname, List.foldl_cons]
      · obtain ⟨hc₁, hc⟩ := List.forall_mem_cons.mp hc
        exact hflat (hstep.flat hf hc₁) hc
    · cases hrun

/-! ## HEAD's text -/

/-- No blank ends the name. -/
def Trimmed (name : Bytes) : Prop := ∀ c, name.getLast? = some c → isBlank c = false

theorem trimmed_trim (s : Bytes) : Trimmed (trim s) := by
  intro c hc
  rw [trim, List.getLast?_reverse] at hc
  have hhead := List.head?_dropWhile_not isBlank ((s.dropWhile isBlank).reverse)
  rw [hc] at hhead
  simpa using hhead

theorem trim_symbolic {name : Bytes} (hne : name ≠ []) (h : Trimmed name) :
    trim (SYMBOLIC_PREFIX ++ name ++ [10]) = SYMBOLIC_PREFIX ++ name := by
  have hfirst : (SYMBOLIC_PREFIX ++ name ++ [10]).dropWhile isBlank =
      SYMBOLIC_PREFIX ++ name ++ [10] := List.dropWhile_cons_of_neg (by decide)
  obtain ⟨front, c, rfl⟩ := (List.eq_nil_or_concat name).resolve_left hne
  have hc : isBlank c = false := h c (by rw [List.concat_eq_append, List.getLast?_concat])
  rw [trim, hfirst, List.concat_eq_append, List.reverse_append, List.reverse_singleton,
    List.singleton_append, List.dropWhile_cons_of_pos (by decide), ← List.append_assoc,
    List.reverse_append, List.reverse_singleton, List.singleton_append,
    List.dropWhile_cons_of_neg (by simp [hc]), ← List.reverse_concat, List.reverse_reverse]

theorem RefsOpen.read_head (h : RefsOpen fs cwd rootDirectory) {name : Bytes}
    (hhead : HeadIs fs cwd rootDirectory (some name)) :
    readWholeFile fs cwd (headPath rootDirectory) =
      some (trim (SYMBOLIC_PREFIX ++ name ++ [10])) := by
  rw [readWholeFile, FileSystem.readFile, h.lookup_head, hhead name rfl]
  rfl

/-- HEAD names the branch that it was set to just when no blank ends the name. -/
theorem currentBranch_iff (h : RefsOpen fs cwd rootDirectory) {name : Bytes} (hne : name ≠ [])
    (hhead : HeadIs fs cwd rootDirectory (some name)) :
    currentBranch fs cwd rootDirectory = some name ↔ Trimmed name := by
  rw [currentBranch, h.read_head hhead, Option.bind_some]
  constructor
  · intro he
    split at he
    · rename_i hpre
      obtain ⟨rest, hrest⟩ := hpre
      rw [← hrest, List.drop_left, Option.some_inj] at he
      subst he
      intro c hc
      refine trimmed_trim (SYMBOLIC_PREFIX ++ rest ++ [10]) c ?_
      rw [← hrest, List.getLast?_append, hc]
      rfl
    · cases he
  · intro ht
    rw [trim_symbolic hne ht, if_pos (List.prefix_append _ _), List.drop_left]

theorem resolveHead_eq (h : RefsOpen fs cwd rootDirectory) {name : Bytes} (hne : name ≠ [])
    (hhead : HeadIs fs cwd rootDirectory (some name)) (ht : Trimmed name) :
    resolveHead fs cwd rootDirectory = getBranch fs cwd rootDirectory name := by
  rw [resolveHead, h.read_head hhead, Option.bind_some, trim_symbolic hne ht,
    if_pos (List.prefix_append _ _), List.drop_left]

theorem BranchName.ne_nil {name : Bytes} (h : BranchName name) : name ≠ [] := by
  obtain ⟨names, hne, hplain, rfl⟩ := h
  intro e
  have hcomponents := (FileSystem.components_foldl_join hne hplain).2
  rw [e] at hcomponents
  exact hne hcomponents.symm

theorem mem_of_nextHead {calls : List RefCall} {name : Bytes}
    (h : calls.foldl RefCall.nextHead none = some name) : .setHeadToBranch name ∈ calls := by
  have hfold : ∀ (calls : List RefCall) (head : Option Bytes),
      calls.foldl RefCall.nextHead head = some name →
        .setHeadToBranch name ∈ calls ∨ head = some name := by
    intro calls
    induction calls with
    | nil => exact fun _ h => .inr h
    | cons call calls ih =>
      intro head h
      rcases ih _ h with hm | hn
      · exact .inl (List.mem_cons_of_mem _ hm)
      · cases call with
        | setHeadToBranch branchName =>
          cases hn
          exact .inl List.mem_cons_self
        | setHeadDetached commit => cases hn
        | setBranch branchName commit => exact .inr hn
        | deleteBranch branchName => exact .inr hn
  exact (hfold calls none h).resolve_right nofun

/-! ## The listing -/

theorem RefsOpen.listBranches_eq (h : RefsOpen fs cwd rootDirectory) :
    listBranches fs cwd rootDirectory =
      some (fs.regularFiles (headsAt cwd rootDirectory)) := by
  simp only [listBranches, h.resolve_heads, h.dir_heads]

theorem RefsOpen.branchExists_names (h : RefsOpen fs cwd rootDirectory) {names : List Name}
    (hne : names ≠ []) (hplain : ∀ n ∈ names, PlainName n) :
    branchExists fs cwd rootDirectory (names.foldl join []) = true ↔
      fs.node (headsAt cwd rootDirectory ++ names) ≠ none := by
  rw [branchExists, FileSystem.exists, h.lookup_branch hne hplain, Option.isSome_iff_ne_none]

/-- The listing has the names of all branches that exist just when they lie in no directories. -/
theorem listBranches_iff (h : RefsOpen fs cwd rootDirectory) :
    (∃ names, listBranches fs cwd rootDirectory = some names ∧ ∀ name, BranchName name →
      (name ∈ names ↔ branchExists fs cwd rootDirectory name = true)) ↔
        FlatAt fs cwd rootDirectory := by
  rw [h.listBranches_eq]
  constructor
  · rintro ⟨_, he, hall⟩ name hdir
    cases he
    have hplain : PlainName name := h.real name (by rw [hdir]; exact Option.some_ne_none _)
    have hnames := List.forall_mem_singleton.mpr hplain
    have hexists := (h.branchExists_names (by simp) hnames).mpr
      (by rw [hdir]; exact Option.some_ne_none _)
    have hbranch : [name].foldl join [] = name := Posix.nil_join name
    rw [hbranch] at hexists
    have hm := (hall name ⟨[name], by simp, hnames, hbranch⟩).mpr hexists
    obtain ⟨content, hfile⟩ := FileSystem.mem_regularFiles.mp hm
    rw [hdir] at hfile
    cases hfile
  · intro hflat
    refine ⟨_, rfl, fun name hname => ?_⟩
    obtain ⟨names, hne, hplain, rfl⟩ := hname
    rw [FileSystem.mem_regularFiles, h.branchExists_names hne hplain]
    constructor
    · rintro ⟨content, hfile⟩
      have hone := h.real _ (by rw [hfile]; exact Option.some_ne_none _)
      have hnames : names = [names.foldl join []] := names_inj hne hplain (by simp)
        (List.forall_mem_singleton.mpr hone) (Posix.nil_join _).symm
      rw [hnames, hfile]
      exact Option.some_ne_none _
    · intro hexists
      obtain ⟨n, rest, rfl⟩ := List.exists_cons_of_ne_nil hne
      cases rest with
      | nil =>
        rw [show [n].foldl join [] = n from Posix.nil_join n]
        obtain ⟨node, hnode⟩ := Option.ne_none_iff_exists'.mp hexists
        cases node with
        | dir => exact absurd hnode (hflat n)
        | file content => exact ⟨content, hnode⟩
      | cons m rest =>
        -- a branch in a directory makes its first name a directory
        refine absurd (FileSystem.dir_of_append (List.cons_ne_nil m rest) ?_) (hflat n)
        rwa [List.append_assoc]

/-! ## A repository's refs -/

/-- Where a repository can be opened: its path is a path, the way to it does not lead through one of
its branches, and the branches that are there have names that files can have. -/
structure RefsPlace (fs : FileSystem) (cwd : Location) (rootDirectory : Path) : Prop where
  nul : 0 ∉ rootDirectory
  cwdDir : fs.node cwd = some .dir
  apart : ∀ l ∈ way cwd (headsPath rootDirectory), ∀ name, ¬ headsAt cwd rootDirectory ++ [name] <+: l
  real : ∀ name, fs.node (headsAt cwd rootDirectory ++ [name]) ≠ none → PlainName name

theorem node_openRefs (hp : RefsPlace fs cwd rootDirectory)
    (h : openRefs fs cwd rootDirectory = (true, fs')) (name : Name) :
    fs'.node (headsAt cwd rootDirectory ++ [name]) =
      fs.node (headsAt cwd rootDirectory ++ [name]) := by
  have hnode := fs.node_createDirectories cwd (headsPath rootDirectory)
    (headsAt cwd rootDirectory ++ [name])
  unfold openRefs at h
  rw [h] at hnode
  refine hnode.resolve_right fun hm => ?_
  exact hp.apart _ (List.mem_cons_of_mem _ hm.1) name List.prefix_rfl

/-- The constructor makes the directories that the calls need. -/
theorem open_openRefs (hp : RefsPlace fs cwd rootDirectory)
    (h : openRefs fs cwd rootDirectory = (true, fs')) : RefsOpen fs' cwd rootDirectory := by
  have hreal : ∀ name, fs'.node (headsAt cwd rootDirectory ++ [name]) ≠ none → PlainName name :=
    fun name hname => hp.real name (node_openRefs hp h name ▸ hname)
  unfold openRefs at h
  have hok : (fs.createDirectories cwd (headsPath rootDirectory)).1 = true := by rw [h]
  have hresolve := FileSystem.resolve_createDirectories hp.cwdDir hok
  have hdir := FileSystem.dir_createDirectories hp.cwdDir hok
  have hframe := fs.frame_createDirectories cwd (headsPath rootDirectory)
  rw [h] at hresolve hdir hframe
  refine ⟨hp.nul, List.forall_mem_cons.mpr ⟨?_, fun l hl =>
    FileSystem.dir_of_mem_trail hresolve hdir hl⟩, hp.apart, hreal⟩
  split
  · exact fs'.root
  · exact hframe.dirs cwd hp.cwdDir

/-- After calls that succeed: each branch is what it was set to last; the listing has the branches
that exist just when there is no directory among them, as calls on single names keep it; and HEAD
names the branch that it was set to, and resolves to its commit, just when no blank ends the name. -/
theorem refs_finite_map {fs₀ : FileSystem} (hp : RefsPlace fs₀ cwd rootDirectory)
    (hopen : openRefs fs₀ cwd rootDirectory = (true, fs)) {calls : List RefCall}
    (hv : ∀ call ∈ calls, call.Valid) (hrun : runRefs cwd rootDirectory fs calls = some fs') :
    (∀ name, BranchName name → getBranch fs' cwd rootDirectory name =
      calls.foldl (RefCall.nextCommit name) (getBranch fs cwd rootDirectory name)) ∧
    ((∃ names, listBranches fs' cwd rootDirectory = some names ∧ ∀ name, BranchName name →
      (name ∈ names ↔ branchExists fs' cwd rootDirectory name = true)) ↔
        FlatAt fs' cwd rootDirectory) ∧
    (FlatAt fs₀ cwd rootDirectory → (∀ call ∈ calls, call.Flat) → FlatAt fs' cwd rootDirectory) ∧
    ∀ name, calls.foldl RefCall.nextHead none = some name →
      (currentBranch fs' cwd rootDirectory = some name ∧
        resolveHead fs' cwd rootDirectory = getBranch fs' cwd rootDirectory name ↔ Trimmed name) := by
  obtain ⟨hopen', hcommit, hhead, hflat⟩ := refs_run (open_openRefs hp hopen) hv hrun
  refine ⟨hcommit, listBranches_iff hopen', fun hf => hflat fun name hdir => ?_, fun name hname => ?_⟩
  · rw [node_openRefs hp hopen] at hdir
    exact hf name hdir
  · have hne : name ≠ [] := BranchName.ne_nil (hv _ (mem_of_nextHead hname))
    have hhere : HeadIs fs' cwd rootDirectory (some name) := hname ▸ hhead none nofun
    refine ⟨fun h => (currentBranch_iff hopen' hne hhere).mp h.1, fun ht =>
      ⟨(currentBranch_iff hopen' hne hhere).mpr ht, resolveHead_eq hopen' hne hhere ht⟩⟩

/-! ## An empty disk -/

theorem place_empty : RefsPlace .empty [] (ascii "r") where
  nul := by decide
  cwdDir := rfl
  apart := by
    intro l hl name hpre
    have hshort : ∀ l ∈ way [] (headsPath (ascii "r")),
        l.length ≤ (headsAt [] (ascii "r")).length := by decide
    have hlength := hpre.length_le
    rw [List.length_append] at hlength
    exact absurd (hshort l hl) (Nat.not_le.mpr hlength)
  real name h := absurd rfl (h : FileSystem.empty.node _ ≠ none)

theorem branchName_main : BranchName (ascii "main") :=
  ⟨[ascii "main"], by simp,
    List.forall_mem_singleton.mpr ⟨by decide, by decide, by decide, by decide, by decide⟩, by decide⟩

theorem branchName_nested : BranchName (ascii "feature/x") := by
  refine ⟨[ascii "feature", ascii "x"], by simp, ?_, by decide⟩
  simp only [List.forall_mem_cons, List.not_mem_nil, false_imp_iff, forall_true_iff, and_true]
  exact ⟨⟨by decide, by decide, by decide, by decide, by decide⟩,
    ⟨by decide, by decide, by decide, by decide, by decide⟩⟩

theorem refs_finite_map_main : ∃ fs fs', openRefs .empty [] (ascii "r") = (true, fs) ∧
    runRefs [] (ascii "r") fs
      [.setBranch (ascii "main") .zero, .setHeadToBranch (ascii "main")] = some fs' ∧
    getBranch fs' [] (ascii "r") (ascii "main") = some .zero ∧
    currentBranch fs' [] (ascii "r") = some (ascii "main") ∧
    resolveHead fs' [] (ascii "r") = getBranch fs' [] (ascii "r") (ascii "main") := by
  obtain ⟨fs, hopen⟩ : ∃ fs, openRefs .empty [] (ascii "r") = (true, fs) := ⟨_, rfl⟩
  obtain ⟨fs', hrun⟩ : ∃ fs', runRefs [] (ascii "r") fs
      [.setBranch (ascii "main") .zero, .setHeadToBranch (ascii "main")] = some fs' := by
    cases hopen
    exact ⟨_, rfl⟩
  obtain ⟨hcommit, -, -, hhead⟩ := refs_finite_map place_empty hopen
    (by simp [RefCall.Valid, branchName_main]) hrun
  refine ⟨fs, fs', hopen, hrun, hcommit _ branchName_main, (hhead _ rfl).mpr ?_⟩
  intro c hc
  cases hc
  decide

/-- A branch in a directory exists and is not listed. -/
theorem listBranches_nested : ¬ ∀ (fs₀ fs fs' : FileSystem) (cwd : Location) (rootDirectory : Path)
    (calls : List RefCall), RefsPlace fs₀ cwd rootDirectory →
    openRefs fs₀ cwd rootDirectory = (true, fs) → (∀ call ∈ calls, call.Valid) →
    runRefs cwd rootDirectory fs calls = some fs' →
    (∀ name, BranchName name → getBranch fs' cwd rootDirectory name =
      calls.foldl (RefCall.nextCommit name) (getBranch fs cwd rootDirectory name)) ∧
    (∃ names, listBranches fs' cwd rootDirectory = some names ∧ ∀ name, BranchName name →
      (name ∈ names ↔ branchExists fs' cwd rootDirectory name = true)) ∧
    ∀ name, calls.foldl RefCall.nextHead none = some name →
      currentBranch fs' cwd rootDirectory = some name ∧
        resolveHead fs' cwd rootDirectory = getBranch fs' cwd rootDirectory name := by
  intro h
  obtain ⟨-, ⟨names, hlist, hall⟩, -⟩ := h .empty _ _ [] (ascii "r")
    [.setBranch (ascii "feature/x") .zero] place_empty rfl
    (by simp [RefCall.Valid, branchName_nested]) rfl
  have hnil : names = [] := (Option.some_inj.mp hlist).symm
  have hm := (hall _ branchName_nested).mpr rfl
  rw [hnil] at hm
  cases hm

end Oggit
end Techuila
