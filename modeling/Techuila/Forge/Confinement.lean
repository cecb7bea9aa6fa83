import Techuila.Forge.Branches

/-!
# What the calls of the forge leave alone (`13-developer-ecosystem/forge/forge_server.cpp`)

Names go into paths as they are. A repository whose name is one plain name and a branch whose name is
a path of plain names stay within the repository's directory; other names get out.

* `Confined`: a call changes nodes in the directory of one repository and nothing else.
* `Unchanged`: what is observed of a repository through its name.
* `calls_confined`: calls on plain names. `setBranch_head`: a branch name that is the path of `HEAD`.
-/

namespace Techuila
namespace Forge

open Techuila.Dist (Bytes ascii)
open Posix (Path Name Location FileSystem PlainName join locate)
open Oggit (ObjectId ObjectType objectNames headsNames objectDirectory)

variable {server server' server'' : ForgeServer} {repoName : Bytes} {names : List Name}

/-- Directories come up in the repository where `dirs` says, and files are written where `written`
says. -/
structure Confined (server server' : ForgeServer) (repoName : Bytes)
    (dirs written : List Name → Prop) : Prop where
  cwd : server'.cwd = server.cwd
  forgeRoot : server'.forgeRoot = server.forgeRoot
  users : server'.userPasswordHashes = server.userPasswordHashes
  nodes : ∀ l, server'.fs.node l = server.fs.node l ∨
    ∃ names, l = server.base ++ repoName :: names ∧
      (dirs names ∧ server.fs.node l = none ∧ server'.fs.node l = some .dir ∨
        written names ∧ server.fs.node l ≠ some .dir ∧ ∃ bytes, server'.fs.node l = some (.file bytes))

variable {dirs written : List Name → Prop}

namespace Confined

theorem refl (server : ForgeServer) (repoName : Bytes) (dirs written : List Name → Prop) :
    Confined server server repoName dirs written :=
  ⟨rfl, rfl, rfl, fun _ => .inl rfl⟩

theorem base (h : Confined server server' repoName dirs written) : server'.base = server.base := by
  rw [ForgeServer.base, h.cwd, h.forgeRoot, ForgeServer.base]

theorem dir (h : Confined server server' repoName dirs written) {l : Location}
    (hl : server.fs.node l = some .dir) : server'.fs.node l = some .dir := by
  rcases h.nodes l with hsame | ⟨_, _, ⟨_, hnone, _⟩ | ⟨_, hne, _⟩⟩
  · exact hsame.trans hl
  · cases hnone.symm.trans hl
  · exact absurd hl hne

theorem opened (h : Confined server server' repoName dirs written) (hopened : server.Opened) :
    server'.Opened where
  nul := h.forgeRoot ▸ hopened.nul
  cwdDir := h.dir (h.cwd ▸ hopened.cwdDir)
  resolves := by
    rw [h.cwd, h.forgeRoot, h.base]
    exact FileSystem.resolve_frame (fun _ => h.dir) hopened.resolves
  dir := h.base ▸ h.dir hopened.dir

theorem trans (h : Confined server server' repoName dirs written)
    (h' : Confined server' server'' repoName dirs written) :
    Confined server server'' repoName dirs written := by
  refine ⟨h'.cwd.trans h.cwd, h'.forgeRoot.trans h.forgeRoot, h'.users.trans h.users, fun l => ?_⟩
  rcases h'.nodes l with hsame' | ⟨names, hl, hchange'⟩
  · rw [hsame']
    exact h.nodes l
  · rw [h.base] at hl
    rcases h.nodes l with hsame | ⟨_, _, hchange⟩
    · rw [← hsame]
      exact .inr ⟨names, hl, hchange'⟩
    · refine .inr ⟨names, hl, ?_⟩
      rcases hchange with ⟨_, hnone, hdir⟩ | ⟨_, hne, bytes, hfile⟩
      · rcases hchange' with ⟨_, hnone', _⟩ | ⟨_, hne', _⟩
        · cases hnone'.symm.trans hdir
        · exact absurd hdir hne'
      · rcases hchange' with ⟨_, hnone', _⟩ | ⟨hw', _, hfile'⟩
        · cases hnone'.symm.trans hfile
        · exact .inr ⟨hw', hne, hfile'⟩

end Confined

/-! ## The parts of a call -/

/-- Directories that are created in a repository. -/
theorem confined_create (h : server.Opened) (hr : PlainName repoName)
    (hplain : ∀ name ∈ names, PlainName name) (hdirs : ∀ k, k <+: names → dirs k) :
    Confined server { server with fs :=
      (server.fs.createDirectories server.cwd (names.foldl join (server.repoPath repoName))).2 }
      repoName dirs written := by
  refine ⟨rfl, rfl, rfl, fun l => ?_⟩
  refine (ForgeServer.node_create h (oneName_of_plain hr) hplain l).imp_right ?_
  rintro ⟨⟨k, hk, hl⟩, hnone, hnew⟩
  rw [repoNames_plain hr] at hl
  exact ⟨k, hl, .inl ⟨hdirs k hk, hnone, hnew⟩⟩

/-- A file that is written in a repository. -/
theorem confined_write (h : server.Opened) (hr : PlainName repoName)
    (hplain : ∀ name ∈ names, PlainName name) (hwritten : written names) {bytes : Bytes}
    {fs : FileSystem} (hwrite : server.fs.writeFile server.cwd
      (names.foldl join (server.repoPath repoName)) bytes = some fs) :
    Confined server { server with fs := fs } repoName dirs written := by
  obtain ⟨hnot, hnode⟩ := FileSystem.node_writeFile hwrite
  have hlocate := ForgeServer.locate_repo h (oneName_of_plain hr) hplain
  rw [if_neg hr.nul, repoNames_plain hr] at hlocate
  refine ⟨rfl, rfl, rfl, fun l => ?_⟩
  by_cases hl : l = locate server.cwd (names.foldl join (server.repoPath repoName))
  · refine .inr ⟨names, hl.trans hlocate, .inr ⟨hwritten, hl ▸ hnot, bytes, ?_⟩⟩
    exact (hnode l).trans (if_pos hl)
  · exact .inl ((hnode l).trans (if_neg hl))

theorem confined_withObjects {α : Type} {rest : ForgeServer → Option α × ForgeServer}
    (h : server.Opened) (hr : PlainName repoName) (hdirs : ∀ k, k <+: [ascii "objects"] → dirs k)
    (hrest : ∀ server' : ForgeServer, Confined server server' repoName dirs written →
      Confined server (rest server').2 repoName dirs written) :
    Confined server (server.withObjects repoName rest).2 repoName dirs written := by
  have hc := @confined_create _ _ _ _ written h hr plain_objects hdirs
  unfold ForgeServer.withObjects
  dsimp only
  split
  · exact hc
  · exact hrest _ hc

theorem confined_withRefs {α : Type} {rest : ForgeServer → Option α × ForgeServer}
    (h : server.Opened) (hr : PlainName repoName) (hdirs : ∀ k, k <+: headsNames → dirs k)
    (hrest : ∀ server' : ForgeServer, Confined server server' repoName dirs written →
      Confined server (rest server').2 repoName dirs written) :
    Confined server (server.withRefs repoName rest).2 repoName dirs written := by
  have hc := @confined_create _ _ _ _ written h hr Oggit.plain_headsNames hdirs
  unfold ForgeServer.withRefs
  dsimp only
  split
  · exact hc
  · exact hrest _ hc

theorem confined_writeObjectAt (h : server.Opened) (hr : PlainName repoName) (type : ObjectType)
    (content : Bytes) :
    Confined server { server with fs := (Oggit.writeObjectAt server.fs server.cwd
      (server.repoPath repoName) type content).2 } repoName (fun _ => True) fun _ => True := by
  obtain ⟨id, hid⟩ : ∃ id, Oggit.hashObject type content = id := ⟨_, rfl⟩
  have hc := @confined_create _ _ _ _ (fun _ => True) h hr
    (Oggit.plain_objectDirectory id) fun _ _ => trivial
  rw [Oggit.writeObjectAt_eq hid]
  split
  · exact hc
  · cases hwrite : (server.fs.createDirectories server.cwd
        ((objectDirectory id).foldl join (server.repoPath repoName))).2.writeFile server.cwd
        (Oggit.objectPath (server.repoPath repoName) id) _ with
    | none => exact hc
    | some fs => exact hc.trans (confined_write (hc.opened h) hr (Oggit.plain_objectNames id) trivial hwrite)

/-- The name of a branch from its path. -/
def branchName (names : List Name) : Bytes := names.foldl join []

theorem branchPath_branchName (hne : names ≠ []) (rootDirectory : Path) :
    Oggit.branchPath rootDirectory (branchName names) = (headsNames ++ names).foldl join rootDirectory := by
  rw [List.foldl_append]
  exact (Posix.foldl_join hne _).symm

theorem confined_setBranchAt (h : server.Opened) (hr : PlainName repoName) (hne : names ≠ [])
    (hplain : ∀ name ∈ names, PlainName name) (commit : ObjectId)
    (hdirs : ∀ k, k <+: headsNames ++ names.dropLast → dirs k) (hwritten : written (headsNames ++ names)) :
    Confined server { server with fs := (Oggit.setBranch server.fs server.cwd
      (server.repoPath repoName) (branchName names) commit).2 } repoName dirs written := by
  have hplain' : ∀ name ∈ headsNames ++ names.dropLast, PlainName name :=
    List.forall_mem_append.mpr ⟨Oggit.plain_headsNames, fun name hm =>
      hplain name (List.mem_of_mem_dropLast hm)⟩
  have hparent : Oggit.parentPath (Oggit.branchPath (server.repoPath repoName) (branchName names)) =
      (headsNames ++ names.dropLast).foldl join (server.repoPath repoName) := by
    have hsplit := List.dropLast_append_getLast hne
    rw [branchPath_branchName hne]
    nth_rewrite 1 [← hsplit]
    rw [← List.append_assoc, List.foldl_append, List.foldl_cons, List.foldl_nil]
    refine Oggit.parentPath_join ?_ (hplain _ (List.getLast_mem hne)).separator
    refine Posix.noFilename_foldl_join hplain' ?_
    rw [ForgeServer.repoPath, Posix.noFilename_join hr.isAbsolute]
    exact hr.noFilename
  have hc := @confined_create _ _ _ _ written h hr hplain' hdirs
  unfold Oggit.setBranch Oggit.writeWholeFile
  rw [hparent, branchPath_branchName hne]
  dsimp only
  split
  · exact hc
  · split
    · exact hc
    · rename_i fs hwrite
      exact hc.trans (confined_write (hc.opened h) hr
        (List.forall_mem_append.mpr ⟨Oggit.plain_headsNames, hplain⟩) hwritten hwrite)

/-! ## What is observed -/

/-- `RefStore::listBranches` of the repository names the branch. -/
def ForgeServer.Listed (server : ForgeServer) (repoName branch : Bytes) : Prop :=
  ∃ branches, Oggit.listBranches server.fs server.cwd (server.repoPath repoName) = some branches ∧
    branch ∈ branches

/-- What is observed of a repository stays, but for the branches in `but`. -/
structure Unchanged (server server' : ForgeServer) (repoName : Bytes) (but : List Name → Prop) :
    Prop where
  repositoryExists : server'.repositoryExists repoName = server.repositoryExists repoName
  objects : server'.objects repoName = server.objects repoName
  head : server'.fs.readFile server'.cwd (Oggit.headPath (server'.repoPath repoName)) =
    server.fs.readFile server.cwd (Oggit.headPath (server.repoPath repoName))
  branches : ∀ names, names ≠ [] → (∀ name ∈ names, PlainName name) → ¬ but names →
    server'.getBranch repoName (branchName names) = server.getBranch repoName (branchName names)
  listed : ∀ branch, ¬ but [branch] → (server'.Listed repoName branch ↔ server.Listed repoName branch)

/-- The users and their file stay. -/
structure SameUsers (server server' : ForgeServer) : Prop where
  users : server'.userPasswordHashes = server.userPasswordHashes
  file : server'.fs.readFile server'.cwd (userDbPath server'.forgeRoot) =
    server.fs.readFile server.cwd (userDbPath server.forgeRoot)

theorem lookup_plain (h : server.Opened) (hr : PlainName repoName)
    (hplain : ∀ name ∈ names, PlainName name) :
    server.fs.lookup server.cwd (names.foldl join (server.repoPath repoName)) =
      server.fs.node (server.base ++ repoName :: names) :=
  FileSystem.lookup_foldl_join h.nul_repos h.resolves h.dir (List.forall_mem_cons.mpr ⟨hr, hplain⟩)

/-- What a branch file with this node points at. -/
def branchOf (node : Option Posix.Node) : Option ObjectId :=
  ((node.map Posix.Node.read).map Oggit.trim).bind Oggit.parseObjectId

theorem getBranch_eq (h : server.Opened) (hr : PlainName repoName) (hne : names ≠ [])
    (hplain : ∀ name ∈ names, PlainName name) : server.getBranch repoName (branchName names) =
      branchOf (server.fs.node (server.base ++ repoName :: (headsNames ++ names))) := by
  rw [← lookup_plain h hr (List.forall_mem_append.mpr ⟨Oggit.plain_headsNames, hplain⟩),
    ← branchPath_branchName hne]
  rfl

/-- The branches that are listed are the files among the heads. -/
theorem listed_iff (h : server.Opened) (hr : PlainName repoName) (branch : Bytes) :
    server.Listed repoName branch ↔ ∃ bytes,
      server.fs.node (server.base ++ repoName :: (headsNames ++ [branch])) = some (.file bytes) := by
  have hlookup := lookup_plain h hr Oggit.plain_headsNames
  have hlocate := ForgeServer.locate_repo h (oneName_of_plain hr) Oggit.plain_headsNames
  rw [if_neg hr.nul, repoNames_plain hr] at hlocate
  have hassoc : server.base ++ repoName :: (headsNames ++ [branch]) =
      server.base ++ ([repoName] ++ headsNames) ++ [branch] := by simp
  rw [hassoc]
  constructor
  · rintro ⟨branches, hlist, hmem⟩
    unfold Oggit.listBranches at hlist
    split at hlist
    · cases hlist
      cases hmem
    · rename_i loc hloc
      split at hlist
      · cases hlist
        cases hmem
      · cases hlist
        rw [← hlocate]
        obtain rfl := FileSystem.resolve_eq hloc
        exact FileSystem.mem_regularFiles.mp hmem
      · cases hlist
  · rintro ⟨bytes, hfile⟩
    have hdir := FileSystem.dir_of_append (List.cons_ne_nil branch []) fun e => by
      cases e.symm.trans hfile
    have hdir : server.fs.lookup server.cwd (Oggit.headsPath (server.repoPath repoName)) = some .dir :=
      hlookup.trans hdir
    obtain ⟨loc, hloc, hnode⟩ := Option.bind_eq_some_iff.mp hdir
    obtain rfl : loc = server.base ++ ([repoName] ++ headsNames) :=
      (FileSystem.resolve_eq hloc).trans hlocate
    refine ⟨_, ?_, FileSystem.mem_regularFiles.mpr ⟨bytes, hfile⟩⟩
    rw [Oggit.listBranches, hloc]
    simp only [hnode]

/-! ## What a confined call leaves alone -/

theorem Confined.sameUsers (hc : Confined server server' repoName dirs written) (h : server.Opened) :
    SameUsers server server' := by
  have hrepos : PlainName (ascii "repos") := ⟨by decide, by decide, by decide, by decide, by decide⟩
  have husers : PlainName (ascii "users.db") := ⟨by decide, by decide, by decide, by decide, by decide⟩
  refine ⟨hc.users, ?_⟩
  have hresolves := h.resolves
  rw [reposPath, FileSystem.resolve_join_plain _ _ h.nul hrepos] at hresolves
  obtain ⟨root, hroot, hbase⟩ := Option.bind_eq_some_iff.mp hresolves
  split at hbase
  · rename_i hdir
    have hbase : root ++ [ascii "repos"] = server.base := Option.some_inj.mp hbase
    have hroot' := FileSystem.resolveFrom_frame (fun _ => hc.dir) hroot
    have hnode : server'.fs.node (root ++ [ascii "users.db"]) =
        server.fs.node (root ++ [ascii "users.db"]) := by
      refine (hc.nodes _).resolve_right ?_
      rintro ⟨names, hl, -⟩
      rw [← hbase, List.append_assoc] at hl
      have hhead := (List.cons_eq_cons.mp (List.append_cancel_left hl)).1
      exact absurd hhead (by decide)
    rw [hc.cwd, hc.forgeRoot, FileSystem.readFile, FileSystem.readFile, FileSystem.lookup,
      FileSystem.lookup, userDbPath, FileSystem.resolve_join_plain _ _ h.nul husers,
      FileSystem.resolve_join_plain _ _ h.nul husers, hroot, hroot', Option.bind_some,
      Option.bind_some, if_pos hdir, if_pos (hc.dir hdir), Option.bind_some, Option.bind_some, hnode]
  · cases hbase

/-- A repository whose nodes stay, but for directories and for branches in `but`, is unchanged. -/
theorem unchanged_of_nodes {but : List Name → Prop}
    (hc : Confined server server' repoName dirs written) (h : server.Opened) {name : Bytes}
    (hname : PlainName name)
    (hdir : server'.fs.node (server.base ++ [name]) = server.fs.node (server.base ++ [name]))
    (hobjects : ∀ id, server'.fs.node (server.base ++ name :: objectNames id) =
      server.fs.node (server.base ++ name :: objectNames id))
    (hhead : server'.fs.node (server.base ++ [name, ascii "HEAD"]) =
      server.fs.node (server.base ++ [name, ascii "HEAD"]))
    (hheads : ∀ names, ¬ but names →
      server'.fs.node (server.base ++ name :: (headsNames ++ names)) =
          server.fs.node (server.base ++ name :: (headsNames ++ names)) ∨
        server.fs.node (server.base ++ name :: (headsNames ++ names)) = none ∧
          server'.fs.node (server.base ++ name :: (headsNames ++ names)) = some .dir) :
    Unchanged server server' name but := by
  have h' := hc.opened h
  have hlookup : ∀ {names : List Name}, (∀ name ∈ names, PlainName name) →
      server'.fs.node (server.base ++ name :: names) = server.fs.node (server.base ++ name :: names) →
      server'.fs.lookup server'.cwd (names.foldl join (server'.repoPath name)) =
        server.fs.lookup server.cwd (names.foldl join (server.repoPath name)) := by
    intro names hplain hnode
    rw [lookup_plain h' hname hplain, lookup_plain h hname hplain, hc.base, hnode]
  have hplainHead : PlainName (ascii "HEAD") := ⟨by decide, by decide, by decide, by decide, by decide⟩
  refine ⟨?_, ?_, ?_, fun names hne hplain hbut => ?_, fun branch hbut => ?_⟩
  · exact congrArg Option.isSome (hlookup (List.forall_mem_nil _) hdir)
  · refine congrArg Oggit.ObjectStore.mk (funext fun id => ?_)
    exact congrArg (Option.map Posix.Node.read) (hlookup (Oggit.plain_objectNames id) (hobjects id))
  · exact congrArg (Option.map Posix.Node.read)
      (hlookup (List.forall_mem_singleton.mpr hplainHead) hhead)
  · rw [getBranch_eq h' hname hne hplain, getBranch_eq h hname hne hplain, hc.base]
    rcases hheads names hbut with hsame | ⟨hnone, hnew⟩
    · rw [hsame]
    · rw [hnone, hnew]
      rfl
  · rw [listed_iff h' hname, listed_iff h hname, hc.base]
    rcases hheads [branch] hbut with hsame | ⟨hnone, hnew⟩
    · rw [hsame]
    · rw [hnone, hnew]
      simp

/-- Other repositories are unchanged. -/
theorem Confined.unchanged_other (hc : Confined server server' repoName dirs written)
    (h : server.Opened) {name : Bytes} (hname : PlainName name) (hne : name ≠ repoName) :
    Unchanged server server' name fun _ => False := by
  have hsame : ∀ names, server'.fs.node (server.base ++ name :: names) =
      server.fs.node (server.base ++ name :: names) := by
    intro names
    refine (hc.nodes _).resolve_right ?_
    rintro ⟨names', hl, -⟩
    exact hne (List.cons_eq_cons.mp (List.append_cancel_left hl)).1
  exact unchanged_of_nodes hc h hname (hsame []) (fun id => hsame _) (hsame _) fun names _ =>
    .inl (hsame _)

/-- The repository itself is unchanged but for the branch that is set. -/
theorem Confined.unchanged_own (h : server.Opened) (hr : PlainName repoName)
    (hexists : server.fs.node (server.base ++ [repoName]) ≠ none)
    (hc : Confined server server' repoName
      (fun k => k <+: [ascii "objects"] ∨ k <+: headsNames ++ names.dropLast)
      (· = headsNames ++ names)) : Unchanged server server' repoName (· = names) := by
  have hnode : ∀ k, k ≠ headsNames ++ names →
      (server'.fs.node (server.base ++ repoName :: k) = server.fs.node (server.base ++ repoName :: k) ∨
        (k <+: [ascii "objects"] ∨ k <+: headsNames ++ names.dropLast) ∧
          server.fs.node (server.base ++ repoName :: k) = none ∧
          server'.fs.node (server.base ++ repoName :: k) = some .dir) := by
    intro k hk
    refine (hc.nodes _).imp_right ?_
    rintro ⟨k', hl, hd | ⟨hw, -⟩⟩
    · obtain rfl : k = k' := (List.cons_eq_cons.mp (List.append_cancel_left hl)).2
      exact hd
    · exact absurd ((List.cons_eq_cons.mp (List.append_cancel_left hl)).2.trans hw) hk
  have hhead : ∀ {n : Name} {k names : List Name}, n ≠ ascii "refs" →
      ¬ n :: k <+: headsNames ++ names ∧ n :: k ≠ headsNames ++ names := fun hn =>
    ⟨fun hk => hn (List.cons_prefix_cons.mp hk).1, fun e => hn (List.cons_eq_cons.mp e).1⟩
  refine unchanged_of_nodes hc h hr ?_ (fun id => ?_) ?_ fun k hk => ?_
  · exact (hnode [] (List.cons_ne_nil _ _).symm).resolve_right fun hd => hexists hd.2.1
  · refine (hnode _ (hhead (by decide)).2).resolve_right ?_
    rintro ⟨hd | hd, -⟩
    · exact absurd hd.length_le (by simp)
    · exact (hhead (by decide)).1 hd
  · refine (hnode _ (hhead (by decide)).2).resolve_right ?_
    rintro ⟨hd | hd, -⟩
    · exact absurd (List.cons_prefix_cons.mp hd).1 (by decide)
    · exact (hhead (by decide)).1 hd
  · exact (hnode _ fun e => hk (List.append_cancel_left e)).imp_right And.right

/-! ## The calls -/

theorem confined_createRepository (h : server.Opened) (hr : PlainName repoName)
    (username password : Bytes) :
    Confined server (server.createRepository username password repoName).2 repoName
      (fun _ => True) fun _ => True := by
  unfold ForgeServer.createRepository
  split
  · exact .refl ..
  · split
    · exact .refl ..
    · split
      · exact .refl ..
      · refine confined_withObjects h hr (fun _ _ => trivial) fun s₁ h₁ => h₁.trans ?_
        exact confined_withRefs (h₁.opened h) hr (fun _ _ => trivial) fun s₂ h₂ => h₂

theorem confined_pushObject (h : server.Opened) (hr : PlainName repoName)
    (username password : Bytes) (type : ObjectType) (content : Bytes) :
    Confined server (server.pushObject username password repoName type content).2 repoName
      (fun _ => True) fun _ => True := by
  unfold ForgeServer.pushObject
  split
  · exact .refl ..
  · split
    · exact .refl ..
    · refine confined_withObjects h hr (fun _ _ => trivial) fun s₁ h₁ => h₁.trans ?_
      exact confined_writeObjectAt (h₁.opened h) hr type content

theorem confined_setBranch (h : server.Opened) (hr : PlainName repoName) (hne : names ≠ [])
    (hplain : ∀ name ∈ names, PlainName name) (username password : Bytes) (commit : ObjectId) :
    Confined server (server.setBranch username password repoName (branchName names) commit).2 repoName
      (fun k => k <+: [ascii "objects"] ∨ k <+: headsNames ++ names.dropLast)
      (· = headsNames ++ names) := by
  unfold ForgeServer.setBranch
  split
  · exact .refl ..
  · split
    · exact .refl ..
    · split
      · exact .refl ..
      · refine confined_withObjects h hr (fun _ hk => .inl hk) fun s₁ h₁ => h₁.trans ?_
        split
        · exact .refl ..
        · refine confined_withRefs (h₁.opened h) hr
            (fun k hk => .inr (hk.trans (List.prefix_append _ _))) fun s₂ h₂ => h₂.trans ?_
          exact confined_setBranchAt (h₂.opened (h₁.opened h)) hr hne hplain commit
            (fun _ hk => .inr hk) rfl

/-- A repository with one object. -/
def pushedServer : ForgeServer := blobServer.run (blobCalls.take 3)

theorem opened_pushedServer : pushedServer.Opened :=
  ((sound_openForge fresh_blobServer open_blobServer).run fun call hcall =>
    safe_blobCalls call (List.mem_of_mem_take hcall)).opened

end Forge
end Techuila
