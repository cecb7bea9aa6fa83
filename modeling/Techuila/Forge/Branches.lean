import Techuila.Forge.Layout

/-!
# What the branches of the forge point at (`13-developer-ecosystem/forge/forge_server.cpp`)

`setBranch` asks for an object under the id and not for its type.

* `Sound`: every file behind `repos/` is an object that was pushed or a branch that points at one.
* `Sound.perform`: the calls keep it.
* `listBranches_pushed`: a branch that is listed points at an object that was pushed and reads back.
-/

namespace Techuila
namespace Forge

open Techuila.Dist (Bytes ascii)
open Posix (Path Name Location FileSystem PlainName join locate cString)
open Oggit (ObjectId ObjectType objectNames headsNames hashObject objectHeader)

/-- The names of a call have no '/' and no "..", and its content fits into memory. -/
def Call.Safe : Call → Prop
  | .registerUser _ _ => True
  | .createRepository _ _ repoName => SafeName repoName
  | .pushObject _ _ repoName _ content => SafeName repoName ∧ content.length < 2 ^ 64
  | .setBranch _ _ repoName branchName _ => SafeName repoName ∧ SafeName branchName

/-- The object was pushed to the repository behind `names`. -/
def Pushed (calls : List Call) (names : List Name) (type : ObjectType) (content : Bytes) : Prop :=
  content.length < 2 ^ 64 ∧ ∃ username password repoName, repoNames repoName = names ∧
    Call.pushObject username password repoName type content ∈ calls

/-- The file of an object that was pushed. -/
def ObjectFile (calls : List Call) (names : List Name) (bytes : Bytes) : Prop :=
  ∃ repo type content, names = repo ++ objectNames (hashObject type content) ∧
    bytes = objectHeader type content ++ content ∧ Pushed calls repo type content

/-- The file of a branch whose object has its file. -/
def BranchFile (calls : List Call) (fs : FileSystem) (base : Location) (names : List Name)
    (bytes : Bytes) : Prop :=
  ∃ repo branch type content, names = repo ++ (headsNames ++ [branch]) ∧ PlainName branch ∧
    bytes = (hashObject type content).toHex ++ [10] ∧ Pushed calls repo type content ∧
    fs.node (base ++ (repo ++ objectNames (hashObject type content))) =
      some (.file (objectHeader type content ++ content))

structure Sound (calls : List Call) (server : ForgeServer) : Prop where
  opened : server.Opened
  files : ∀ names bytes, server.fs.node (server.base ++ names) = some (.file bytes) →
    ObjectFile calls names bytes ∨ BranchFile calls server.fs server.base names bytes
  objects : ∀ repo id, server.fs.node (server.base ++ (repo ++ objectNames id)) ≠ some .dir

variable {calls : List Call} {server : ForgeServer} {repoName : Bytes}

theorem Pushed.mono {calls' : List Call} (h : calls ⊆ calls') {names : List Name}
    {type : ObjectType} {content : Bytes} (hp : Pushed calls names type content) :
    Pushed calls' names type content := by
  obtain ⟨hlen, username, password, repoName, hr, hmem⟩ := hp
  exact ⟨hlen, username, password, repoName, hr, h hmem⟩

theorem Sound.mono {calls' : List Call} (h : calls ⊆ calls') (hs : Sound calls server) :
    Sound calls' server where
  opened := hs.opened
  objects := hs.objects
  files names bytes hn := by
    rcases hs.files names bytes hn with ⟨repo, type, content, h₁, h₂, hp⟩ |
        ⟨repo, branch, type, content, h₁, h₂, h₃, hp, h₄⟩
    · exact .inl ⟨repo, type, content, h₁, h₂, hp.mono h⟩
    · exact .inr ⟨repo, branch, type, content, h₁, h₂, h₃, hp.mono h, h₄⟩

/-! ## Objects and branches lie apart -/

theorem objectNames_append_inj {repo repo' : List Name} {id id' : ObjectId}
    (h : repo ++ objectNames id = repo' ++ objectNames id') : repo = repo' ∧ id = id' :=
  (List.append_inj' h rfl).imp_right Oggit.objectNames_inj

theorem object_ne_branch (repo repo' : List Name) (id : ObjectId) (branch : Name) :
    repo ++ objectNames id ≠ repo' ++ (headsNames ++ [branch]) := by
  intro h
  have hnames := (List.append_inj' h rfl).2
  have hhead : ascii "objects" = ascii "refs" := (List.cons_eq_cons.mp hnames).1
  exact absurd hhead (by decide)

/-- No directory of a repository is where an object can be. -/
theorem directory_ne_object {k : List Name} (hlen : k.length ≤ 2)
    (hhead : ∀ name ∈ k.head?, name.length ≠ 2) (repoName : Bytes) (repo : List Name)
    (id : ObjectId) : repoNames repoName ++ k ≠ repo ++ objectNames id := by
  intro h
  have hl := congrArg List.length h
  have hr := length_repoNames repoName
  simp only [List.length_append, objectNames, List.length_cons, List.length_nil] at hl
  obtain rfl : repo = [] := List.eq_nil_of_length_eq_zero (by omega)
  obtain ⟨x, hx⟩ := List.length_eq_one_iff.mp (show (repoNames repoName).length = 1 by omega)
  rw [hx] at h
  have hk : k = [id.toHex.take 2, id.toHex.drop 2] := (List.cons_eq_cons.mp h).2
  refine hhead (id.toHex.take 2) (by rw [hk]; rfl) ?_
  rw [List.length_take, Oggit.length_toHex]
  rfl

/-! ## Directories come up -/

/-- What has a node keeps it. -/
def Kept (fs fs' : FileSystem) : Prop := ∀ l, fs.node l ≠ none → fs'.node l = fs.node l

theorem kept_createDirectories (fs : FileSystem) (cwd : Location) (path : Path) :
    Kept fs (fs.createDirectories cwd path).2 := fun l hl =>
  (fs.node_createDirectories cwd path l).resolve_right fun h => hl h.2.1

theorem Sound.create (h : Sound calls server) (hr : OneName repoName) {names : List Name}
    (hplain : ∀ name ∈ names, PlainName name) (hlen : names.length ≤ 2)
    (hhead : ∀ name ∈ names.head?, name.length ≠ 2) :
    Sound calls { server with fs :=
      (server.fs.createDirectories server.cwd (names.foldl join (server.repoPath repoName))).2 } := by
  have hcreate := ForgeServer.node_create h.opened hr hplain
  have hkept := kept_createDirectories server.fs server.cwd
    (names.foldl join (server.repoPath repoName))
  refine ⟨h.opened.frame fun l hl => (hkept l fun e => by cases e.symm.trans hl).trans hl,
    fun ns bytes hn => ?_, fun repo id hdir => ?_⟩
  · rcases hcreate (server.base ++ ns) with hsame | ⟨-, -, hnew⟩
    · refine (h.files ns bytes (hsame.symm.trans hn)).imp_right ?_
      rintro ⟨repo, branch, type, content, h₁, h₂, h₃, hp, h₄⟩
      exact ⟨repo, branch, type, content, h₁, h₂, h₃, hp,
        (hkept _ fun e => by cases e.symm.trans h₄).trans h₄⟩
    · cases hn.symm.trans hnew
  · rcases hcreate (server.base ++ (repo ++ objectNames id)) with hsame | ⟨⟨k, hk, hl⟩, -⟩
    · exact h.objects repo id (hsame.symm.trans hdir)
    · refine directory_ne_object (hk.length_le.trans hlen) ?_ repoName repo id
        (List.append_cancel_left hl).symm
      intro name hname
      obtain ⟨rest, rfl⟩ := hk
      cases k with
      | nil => cases hname
      | cons n k => exact hhead name hname

/-! ## Files are written -/

/-- A file written where it may lie. -/
theorem Sound.write (h : Sound calls server) {fs : FileSystem} {l₀ : Location} {bytes : Bytes}
    (hdir : server.fs.node l₀ ≠ some .dir)
    (hnode : ∀ l, fs.node l = if l = l₀ then some (.file bytes) else server.fs.node l)
    (hwritten : ∀ names, l₀ = server.base ++ names →
      ObjectFile calls names bytes ∨ BranchFile calls server.fs server.base names bytes)
    (users : Users) :
    Sound calls { server with fs := fs, userPasswordHashes := users } := by
  have hbranch : ∀ names bytes', BranchFile calls server.fs server.base names bytes' →
      BranchFile calls fs server.base names bytes' := by
    rintro names bytes' ⟨repo, branch, type, content, h₁, h₂, h₃, hp, h₄⟩
    by_cases hl : server.base ++ (repo ++ objectNames (hashObject type content)) = l₀
    · rcases hwritten _ hl.symm with ⟨repo', type', content', e, hb, hp'⟩ |
          ⟨_, _, _, _, e, -⟩
      · obtain ⟨rfl, hid⟩ := objectNames_append_inj e
        refine ⟨repo, branch, type', content', h₁, h₂, hid ▸ h₃, hp', ?_⟩
        rw [hnode, ← hid, if_pos hl, hb]
      · exact absurd e (object_ne_branch _ _ _ _)
    · exact ⟨repo, branch, type, content, h₁, h₂, h₃, hp, by rw [hnode, if_neg hl, h₄]⟩
  refine ⟨h.opened.frame fun l hl => ?_, fun names bytes' hn => ?_, fun repo id hd => ?_⟩
  · have hne : l ≠ l₀ := by
      rintro rfl
      exact hdir hl
    rw [hnode, if_neg hne, hl]
  · change fs.node (server.base ++ names) = _ at hn
    rw [hnode] at hn
    split at hn
    · rename_i hl
      cases hn
      exact (hwritten names hl.symm).imp_right (hbranch _ _)
    · exact (h.files names bytes' hn).imp_right (hbranch _ _)
  · change fs.node (server.base ++ (repo ++ objectNames id)) = _ at hd
    rw [hnode] at hd
    split at hd
    · cases hd
    · exact h.objects repo id hd

/-! ## The calls -/

theorem plain_objects : ∀ name ∈ [ascii "objects"], PlainName name := fun _ h =>
  Oggit.plain_objectNames .zero _ (List.mem_of_mem_take (i := 1) h)

theorem Sound.withObjects {α : Type} {rest : ForgeServer → Option α × ForgeServer}
    (h : Sound calls server) (hr : OneName repoName)
    (hrest : ∀ fs, Sound calls { server with fs := fs } →
      Sound calls (rest { server with fs := fs }).2) :
    Sound calls (server.withObjects repoName rest).2 := by
  have hs := h.create hr plain_objects (by decide) (by decide)
  unfold ForgeServer.withObjects
  dsimp only
  split
  · exact hs
  · exact hrest _ hs

theorem Sound.withRefs {α : Type} {rest : ForgeServer → Option α × ForgeServer}
    (h : Sound calls server) (hr : OneName repoName)
    (hrest : ∀ fs, Sound calls { server with fs := fs } → Kept server.fs fs →
      Sound calls (rest { server with fs := fs }).2) :
    Sound calls (server.withRefs repoName rest).2 := by
  have hs := h.create hr Oggit.plain_headsNames (by decide) (by decide)
  unfold ForgeServer.withRefs
  dsimp only
  split
  · exact hs
  · exact hrest _ hs (kept_createDirectories _ _ _)

theorem Sound.writeObjectAt (h : Sound calls server) (hr : OneName repoName) {type : ObjectType}
    {content : Bytes} (hp : Pushed calls (repoNames repoName) type content) :
    Sound calls { server with fs := (Oggit.writeObjectAt server.fs server.cwd
      (server.repoPath repoName) type content).2 } := by
  obtain ⟨id, hid⟩ : ∃ id, hashObject type content = id := ⟨_, rfl⟩
  have hplain := Oggit.plain_objectNames id
  have hdirs := Oggit.plain_objectDirectory id
  have hs := h.create hr hdirs (Nat.le_refl 2) fun name hname => by
    cases hname
    decide
  rw [Oggit.writeObjectAt_eq hid]
  split
  · exact hs
  · rename_i hok
    rw [Bool.not_eq_true, Bool.not_eq_false'] at hok
    have hdir := FileSystem.dir_createDirectories h.opened.cwdDir hok
    generalize (server.fs.createDirectories server.cwd
      ((Oggit.objectDirectory id).foldl join (server.repoPath repoName))).2 = fs at hs hdir ⊢
    cases hwrite : fs.writeFile server.cwd (Oggit.objectPath (server.repoPath repoName) id)
        (objectHeader type content ++ content) with
    | none => exact hs
    | some fs' =>
      obtain ⟨hnot, hnode⟩ := FileSystem.node_writeFile hwrite
      refine Sound.write hs hnot hnode (fun names hl => ?_) _
      have hlocate := ForgeServer.locate_repo h.opened hr hplain
      rw [ForgeServer.locate_repo h.opened hr hdirs] at hdir
      by_cases hnul : 0 ∈ repoName
      · rw [if_pos hnul] at hdir hlocate
        exact absurd (hlocate ▸ hdir) hnot
      · rw [if_neg hnul] at hlocate
        have hnames : repoNames repoName ++ objectNames id = names :=
          List.append_cancel_left (hlocate.symm.trans hl)
        exact .inl ⟨repoNames repoName, type, content, by rw [hid, hnames], rfl, hp⟩

theorem Sound.saveUsers (h : Sound calls server) (users : Users) :
    Sound calls (ForgeServer.saveUsers { server with userPasswordHashes := users }) := by
  have hplain : PlainName (ascii "users.db") := ⟨by decide, by decide, by decide, by decide, by decide⟩
  have hrepos : PlainName (ascii "repos") := ⟨by decide, by decide, by decide, by decide, by decide⟩
  have hlocate : ∀ name, PlainName name → locate server.cwd (join server.forgeRoot name) =
      locate server.cwd server.forgeRoot ++ [name] := fun name hname =>
    (Posix.trail_foldl_join (List.forall_mem_singleton.mpr hname) h.opened.nul server.cwd).2
  unfold ForgeServer.saveUsers
  cases hwrite : server.fs.writeFile server.cwd (userDbPath server.forgeRoot) (encodeUsers users) with
  | none => exact ⟨h.opened.frame fun _ hl => hl, h.files, h.objects⟩
  | some fs =>
    obtain ⟨hnot, hnode⟩ := FileSystem.node_writeFile hwrite
    refine h.write hnot hnode (fun names hl => ?_) users
    rw [userDbPath, hlocate _ hplain, ForgeServer.base, reposPath, hlocate _ hrepos,
      List.append_assoc] at hl
    have hhead := (List.cons_eq_cons.mp (List.append_cancel_left hl)).1
    exact absurd hhead (by decide)

/-- An object that exists was pushed. -/
theorem Sound.object_of_exists (h : Sound calls server) (hr : OneName repoName)
    (hnul : 0 ∉ repoName) {id : ObjectId} (hexists : (server.objects repoName).exists id = true) :
    ∃ type content, hashObject type content = id ∧ Pushed calls (repoNames repoName) type content ∧
      server.fs.node (server.base ++ (repoNames repoName ++ objectNames id)) =
        some (.file (objectHeader type content ++ content)) := by
  obtain ⟨bytes, hbytes⟩ := Option.isSome_iff_exists.mp hexists
  obtain ⟨n, hn, -⟩ := Option.map_eq_some_iff.mp hbytes
  have hnode := FileSystem.lookup_eq hn
  have hlocate := ForgeServer.locate_repo h.opened hr (Oggit.plain_objectNames id)
  rw [if_neg hnul] at hlocate
  have hnode : server.fs.node (server.base ++ (repoNames repoName ++ objectNames id)) = some n :=
    hlocate ▸ hnode
  cases n with
  | dir => exact absurd hnode (h.objects _ _)
  | file bytes =>
    rcases h.files _ _ hnode with ⟨repo, type, content, e, rfl, hp⟩ | ⟨_, _, _, _, e, -⟩
    · obtain ⟨rfl, hid⟩ := objectNames_append_inj e
      exact ⟨type, content, hid.symm, hp, hnode⟩
    · exact absurd e (object_ne_branch _ _ _ _)

theorem parentPath_branchPath {branchName : Bytes} (hb : OneName branchName)
    (rootDirectory : Path) :
    Oggit.parentPath (Oggit.branchPath rootDirectory branchName) = headsNames.foldl join rootDirectory := by
  have hheads : PlainName (ascii "heads") := Oggit.plain_headsNames _ (by simp [headsNames])
  refine Oggit.parentPath_join ?_ hb.separator
  rw [Oggit.headsPath, Posix.noFilename_join hheads.isAbsolute]
  exact hheads.noFilename

/-- The location of a branch, where neither name hides it. -/
theorem locate_branch (h : server.Opened) (hr : OneName repoName) {branchName : Bytes}
    (hb : OneName branchName) :
    locate server.cwd (Oggit.branchPath (server.repoPath repoName) branchName) =
      locate server.cwd (Oggit.headsPath (server.repoPath repoName)) ++
        if 0 ∈ repoName then [] else repoNames branchName := by
  by_cases hnul : 0 ∈ repoName
  · obtain ⟨hheads, -⟩ := Posix.trail_foldl_join_of_mem Oggit.plain_headsNames
      ((ForgeServer.nul_repoPath h hr).mpr hnul) server.cwd
    rw [if_pos hnul, List.append_nil]
    exact (Posix.trail_join_of_mem hheads hb.isAbsolute server.cwd).2
  · obtain ⟨hheads, -⟩ := Posix.segments_foldl_join Oggit.plain_headsNames
      (mt (ForgeServer.nul_repoPath h hr).mp hnul)
    rw [if_neg hnul, ← (hb.trailFrom _).1]
    exact Posix.locate_join hheads hb.isAbsolute server.cwd

theorem Sound.setBranchAt (h : Sound calls server) (hr : OneName repoName) {branchName : Bytes}
    (hb : OneName branchName) {commit : ObjectId}
    (hobject : 0 ∉ repoName → ∃ type content, hashObject type content = commit ∧
      Pushed calls (repoNames repoName) type content ∧
      server.fs.node (server.base ++ (repoNames repoName ++ objectNames commit)) =
        some (.file (objectHeader type content ++ content))) :
    Sound calls { server with fs := (Oggit.setBranch server.fs server.cwd
      (server.repoPath repoName) branchName commit).2 } := by
  have hs := h.create hr Oggit.plain_headsNames (Nat.le_refl 2) (by decide)
  have hkept := kept_createDirectories server.fs server.cwd
    (headsNames.foldl join (server.repoPath repoName))
  unfold Oggit.setBranch Oggit.writeWholeFile
  rw [parentPath_branchPath hb]
  dsimp only
  split
  · exact hs
  · rename_i hok
    rw [Bool.not_eq_true, Bool.not_eq_false'] at hok
    have hdir := FileSystem.dir_createDirectories h.opened.cwdDir hok
    generalize (server.fs.createDirectories server.cwd
      (headsNames.foldl join (server.repoPath repoName))).2 = fs at hs hdir hkept ⊢
    cases hwrite : fs.writeFile server.cwd
        (Oggit.branchPath (server.repoPath repoName) branchName) (commit.toHex ++ [10]) with
    | none => exact hs
    | some fs' =>
      obtain ⟨hnot, hnode⟩ := FileSystem.node_writeFile hwrite
      refine Sound.write hs hnot hnode (fun names hl => ?_) _
      have hlocate := locate_branch h.opened hr hb
      have hheads := ForgeServer.locate_repo h.opened hr Oggit.plain_headsNames
      have hdir : fs.node (locate server.cwd (Oggit.headsPath (server.repoPath repoName))) =
        some .dir := hdir
      by_cases hhidden : (if 0 ∈ repoName then [] else repoNames branchName) = []
      · rw [hhidden, List.append_nil] at hlocate
        exact absurd (hlocate ▸ hdir) hnot
      · have hnul : 0 ∉ repoName := fun hnul => hhidden (if_pos hnul)
        rw [if_neg hnul] at hhidden hlocate hheads
        obtain ⟨type, content, hid, hp, hfile⟩ := hobject hnul
        have hbranch : repoNames branchName = [cString branchName] := by
          unfold repoNames at hhidden ⊢
          split at hhidden
          · exact absurd rfl hhidden
          · rename_i hn
            exact if_neg hn
        have hplain : PlainName (cString branchName) :=
          plain_repoNames hb _ (hbranch ▸ List.mem_singleton_self _)
        have hnames : repoNames repoName ++ (headsNames ++ [cString branchName]) = names := by
          refine @List.append_cancel_left _ server.base _ _ (Eq.trans ?_ hl)
          rw [hlocate, hbranch]
          change _ = locate server.cwd (headsNames.foldl join (server.repoPath repoName)) ++ _
          rw [hheads, List.append_assoc, List.append_assoc]
        refine .inr ⟨repoNames repoName, cString branchName, type, content, hnames.symm, hplain,
          by rw [hid], hp, ?_⟩
        rw [hid]
        exact (hkept _ fun e => by cases e.symm.trans hfile).trans hfile

/-- A call keeps what was sound, and remembers what it pushes. -/
theorem Sound.perform {call : Call} (h : Sound calls server) (hsafe : call.Safe) :
    Sound (calls ++ [call]) (server.perform call) := by
  have h := h.mono (List.subset_append_left calls [call])
  cases call with
  | registerUser username password =>
    change Sound _ (server.registerUser username password).2
    unfold ForgeServer.registerUser
    split
    · exact h
    · split
      · exact h
      · exact h.saveUsers _
  | createRepository username password repoName =>
    change Sound _ (server.createRepository username password repoName).2
    unfold ForgeServer.createRepository
    split
    · exact h
    · split
      · exact h
      · split
        · exact h
        · refine h.withObjects hsafe.oneName fun fs hs => ?_
          exact hs.withRefs hsafe.oneName fun fs hs _ => hs
  | pushObject username password repoName type content =>
    change Sound _ (server.pushObject username password repoName type content).2
    unfold ForgeServer.pushObject
    split
    · exact h
    · split
      · exact h
      · refine h.withObjects hsafe.1.oneName fun fs hs => ?_
        exact hs.writeObjectAt hsafe.1.oneName ⟨hsafe.2, username, password, repoName, rfl, by simp⟩
  | setBranch username password repoName branchName commit =>
    change Sound _ (server.setBranch username password repoName branchName commit).2
    unfold ForgeServer.setBranch
    split
    · exact h
    · split
      · exact h
      · split
        · exact h
        · refine h.withObjects hsafe.1.oneName fun fs hs => ?_
          split
          · exact hs
          · rename_i hexists
            rw [Bool.not_eq_true, Bool.not_eq_false'] at hexists
            refine hs.withRefs hsafe.1.oneName fun fs' hs' hkept => ?_
            refine hs'.setBranchAt hsafe.1.oneName hsafe.2.oneName fun hnul => ?_
            obtain ⟨type, content, hid, hp, hfile⟩ := hs.object_of_exists hsafe.1.oneName hnul hexists
            exact ⟨type, content, hid, hp, (hkept _ fun e => by cases e.symm.trans hfile).trans hfile⟩

/-! ## Runs -/

/-- The constructor finds nothing behind `repos/`. -/
structure Fresh (fs : FileSystem) (cwd : Location) (forgeRoot : Path) : Prop where
  nul : 0 ∉ forgeRoot
  cwdDir : fs.node cwd = some .dir
  empty : ∀ name names, (fs.createDirectories cwd (reposPath forgeRoot)).2.node
    (locate cwd (reposPath forgeRoot) ++ name :: names) = none

theorem sound_openForge {fs : FileSystem} {cwd : Location} {forgeRoot : Path}
    (hfresh : Fresh fs cwd forgeRoot) (h : openForge fs cwd forgeRoot = some server) :
    Sound [] server := by
  obtain ⟨hopened, hfs, hbase⟩ := opened_openForge hfresh.nul hfresh.cwdDir h
  have hempty : ∀ name names, server.fs.node (server.base ++ name :: names) = none := by
    rw [hfs, hbase]
    exact hfresh.empty
  refine ⟨hopened, fun names bytes hn => ?_, fun repo id hn => ?_⟩
  · cases names with
    | nil =>
      rw [List.append_nil, hopened.dir] at hn
      cases hn
    | cons name names =>
      rw [hempty] at hn
      cases hn
  · cases repo with
    | nil => cases (hempty _ _).symm.trans hn
    | cons name repo => cases (hempty _ _).symm.trans hn

theorem Sound.run {calls' : List Call} (h : Sound calls server) (hsafe : ∀ call ∈ calls', call.Safe) :
    Sound (calls ++ calls') (server.run calls') := by
  induction calls' generalizing calls server with
  | nil =>
    rw [List.append_nil]
    exact h
  | cons call calls' ih =>
    obtain ⟨hcall, hsafe⟩ := List.forall_mem_cons.mp hsafe
    have hrun := ih (h.perform hcall) hsafe
    rwa [List.append_assoc] at hrun

/-- A repository that exists is a directory. -/
theorem Sound.dir_of_exists (h : Sound calls server) (hr : OneName repoName)
    (hexists : server.repositoryExists repoName = true) :
    server.fs.node (server.base ++ repoNames repoName) = some .dir := by
  obtain ⟨n, hn⟩ := Option.ne_none_iff_exists'.mp (ForgeServer.node_of_exists h.opened hr hexists)
  cases n with
  | dir => exact hn
  | file bytes =>
    have hlen := length_repoNames repoName
    rcases h.files _ _ hn with ⟨repo, type, content, e, -⟩ | ⟨repo, branch, type, content, e, -⟩ <;>
    · rw [e] at hlen
      simp only [objectNames, headsNames, List.length_append, List.length_cons, List.length_nil]
        at hlen
      omega

/-- The branch and the object behind a branch that is listed. -/
theorem Sound.listBranches (h : Sound calls server) (hr : OneName repoName) {branches : List Bytes}
    (hlist : (server.listBranches repoName).1 = some (.ok branches)) {branch : Bytes}
    (hmem : branch ∈ branches) :
    ∃ id type content, server.getBranch repoName branch = some id ∧
      (server.objects repoName).readObject id = .ok (type, content) ∧
      Pushed calls (repoNames repoName) type content := by
  unfold ForgeServer.listBranches at hlist
  split at hlist
  · cases hlist
  rename_i hexists
  rw [Bool.not_eq_true, Bool.not_eq_false'] at hexists
  have hdir := h.dir_of_exists hr hexists
  have hcreate := ForgeServer.node_create h.opened hr Oggit.plain_headsNames
  unfold ForgeServer.withRefs at hlist
  dsimp only at hlist
  split at hlist
  · cases hlist
  obtain ⟨listed, hlisted, e⟩ := Option.map_eq_some_iff.mp hlist
  cases e
  -- The file that was listed.
  unfold Oggit.listBranches at hlisted
  split at hlisted
  · cases hlisted
    cases hmem
  rename_i loc hloc
  split at hlisted
  · cases hlisted
    cases hmem
  · cases hlisted
    obtain ⟨bytes, hfile⟩ := FileSystem.mem_regularFiles.mp hmem
    have hheads := ForgeServer.locate_repo h.opened hr Oggit.plain_headsNames
    have hfile : server.fs.node (server.base ++ (repoNames repoName ++
        ((if 0 ∈ repoName then [] else headsNames) ++ [branch]))) = some (.file bytes) := by
      have hl : loc = server.base ++ (repoNames repoName ++ if 0 ∈ repoName then [] else headsNames) :=
        (FileSystem.resolve_eq hloc).trans hheads
      rw [hl, List.append_assoc, List.append_assoc] at hfile
      rcases hcreate (server.base ++ (repoNames repoName ++
        ((if 0 ∈ repoName then [] else headsNames) ++ [branch]))) with hsame | ⟨-, -, hnew⟩
      · exact hsame.symm.trans hfile
      · cases hnew.symm.trans hfile
    have hnul : 0 ∉ repoName := by
      intro hnul
      rw [if_pos hnul] at hfile
      have hlen := length_repoNames repoName
      rcases h.files _ _ hfile with ⟨_, _, _, e, -⟩ | ⟨_, _, _, _, e, -⟩ <;>
      · have hl := congrArg List.length e
        simp only [objectNames, headsNames, List.length_append, List.length_cons, List.length_nil]
          at hl
        omega
    rw [if_neg hnul] at hfile
    -- The branch reads as the id, and the id as the object.
    rcases h.files _ _ hfile with ⟨repo, type, content, e, -⟩ |
        ⟨repo, branch', type, content, e, hplain, hbytes, hp, hobject⟩
    · exact absurd e.symm (object_ne_branch _ _ _ _)
    obtain ⟨id, hid⟩ : ∃ id, hashObject type content = id := ⟨_, rfl⟩
    rw [hid] at hbytes hobject
    rw [hbytes] at hfile
    obtain ⟨rfl, hnames⟩ := List.append_inj' e rfl
    obtain rfl : branch = branch' := List.singleton_inj.mp (List.append_cancel_left hnames)
    have hlookup : ∀ {names : List Name}, (∀ name ∈ names, PlainName name) →
        server.fs.lookup server.cwd (names.foldl join (server.repoPath repoName)) =
          server.fs.node (server.base ++ (repoNames repoName ++ names)) :=
      ForgeServer.lookup_repo h.opened hr hnul hdir
    refine ⟨id, type, content, ?_, ?_, hp⟩
    · have hbranch := hlookup (List.forall_mem_append.mpr
        ⟨Oggit.plain_headsNames, List.forall_mem_singleton.mpr hplain⟩)
      have hread : server.fs.readFile server.cwd
          (Oggit.branchPath (server.repoPath repoName) branch) = some (id.toHex ++ [10]) :=
        congrArg (Option.map Posix.Node.read) (hbranch.trans hfile)
      unfold ForgeServer.getBranch Oggit.getBranch Oggit.readWholeFile
      rw [hread, Option.map_some, Oggit.trim_line, Option.bind_some, Oggit.parseObjectId_toHex]
    · refine Oggit.readObject_of_file hp.1 hid ?_
      exact congrArg (Option.map Posix.Node.read)
        ((hlookup (Oggit.plain_objectNames id)).trans hobject)
  · cases hlisted

/-- Every branch that is listed points at an object that was pushed to its repository and that reads
back as it was pushed, whatever its type. -/
theorem listBranches_pushed {fs : FileSystem} {cwd : Location} {forgeRoot : Path}
    (hfresh : Fresh fs cwd forgeRoot) (hopen : openForge fs cwd forgeRoot = some server)
    (hsafe : ∀ call ∈ calls, call.Safe) (hr : SafeName repoName) {branches : List Bytes}
    (hlist : ((server.run calls).listBranches repoName).1 = some (.ok branches)) :
    ∀ branch ∈ branches, ∃ id type content,
      (server.run calls).getBranch repoName branch = some id ∧
      ((server.run calls).objects repoName).readObject id = .ok (type, content) ∧
      ∃ username password repoName', repoNames repoName' = repoNames repoName ∧
        Call.pushObject username password repoName' type content ∈ calls := by
  intro branch hmem
  obtain ⟨id, type, content, hget, hread, -, hpushed⟩ :=
    ((sound_openForge hfresh hopen).run hsafe).listBranches hr.oneName hlist hmem
  exact ⟨id, type, content, hget, hread, hpushed⟩

/-! ### A branch that points at a blob -/

/-- A user pushes a blob to a repository and sets a branch to it. -/
def blobCalls : List Call :=
  [.registerUser (ascii "u") [], .createRepository (ascii "u") [] (ascii "r"),
    .pushObject (ascii "u") [] (ascii "r") .blob [],
    .setBranch (ascii "u") [] (ascii "r") (ascii "main") (hashObject .blob [])]

/-- A forge in an empty file system. -/
def blobServer : ForgeServer := ⟨(FileSystem.createDirectories .empty [] (ascii "repos")).2, [], [], .empty⟩

theorem fresh_blobServer : Fresh .empty [] [] where
  nul := by simp
  cwdDir := rfl
  empty _ _ := rfl

theorem open_blobServer : openForge .empty [] [] = some blobServer := by rfl

theorem safe_blobCalls : ∀ call ∈ blobCalls, call.Safe := by
  have hr : SafeName (ascii "r") := ⟨by decide, by decide⟩
  have hmain : SafeName (ascii "main") := ⟨by decide, by decide⟩
  intro call hcall
  simp only [blobCalls, List.mem_cons, List.not_mem_nil, or_false] at hcall
  rcases hcall with rfl | rfl | rfl | rfl
  · trivial
  · exact hr
  · exact ⟨hr, by decide⟩
  · exact ⟨hr, hmain⟩

theorem list_blobServer :
    ((blobServer.run blobCalls).listBranches (ascii "r")).1 = some (.ok [ascii "main"]) := by
  decide +kernel

theorem listBranches_pushed_blob : ∃ id type content,
    (blobServer.run blobCalls).getBranch (ascii "r") (ascii "main") = some id ∧
    ((blobServer.run blobCalls).objects (ascii "r")).readObject id = .ok (type, content) ∧
    ∃ username password repoName', repoNames repoName' = repoNames (ascii "r") ∧
      Call.pushObject username password repoName' type content ∈ blobCalls :=
  listBranches_pushed fresh_blobServer open_blobServer safe_blobCalls ⟨by decide, by decide⟩
    list_blobServer (ascii "main") (by decide)

/-- A branch that is listed need not point at a commit. -/
theorem listBranches_of_blob : ¬ ∀ (fs : FileSystem) (cwd : Location) (forgeRoot : Path)
    (server : ForgeServer) (calls : List Call) (repoName : Bytes) (branches : List Bytes),
    Fresh fs cwd forgeRoot → openForge fs cwd forgeRoot = some server →
    (∀ call ∈ calls, call.Safe) → SafeName repoName →
    ((server.run calls).listBranches repoName).1 = some (.ok branches) →
    ∀ branch ∈ branches, ∃ id content commit,
      (server.run calls).getBranch repoName branch = some id ∧
      ((server.run calls).objects repoName).readObject id = .ok (.commit, content) ∧
      Oggit.parseCommit content = some commit := by
  intro hall
  obtain ⟨id, content, commit, hget, hread, -⟩ := hall .empty [] [] blobServer blobCalls (ascii "r") _
    fresh_blobServer open_blobServer safe_blobCalls ⟨by decide, by decide⟩ list_blobServer
    (ascii "main") (by decide)
  have hblob : (((blobServer.run blobCalls).getBranch (ascii "r") (ascii "main")).map fun id =>
      ((blobServer.run blobCalls).objects (ascii "r")).readObject id) = some (.ok (.blob, [])) := by
    decide +kernel
  rw [hget, Option.map_some, hread] at hblob
  cases hblob

end Forge
end Techuila
