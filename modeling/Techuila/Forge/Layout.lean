import Techuila.Forge.Server

/-!
# Where the forge keeps what (`13-developer-ecosystem/forge/forge_server.cpp`)

* `OneName`: a name that leads nowhere but to one name. `repoNames`: the names behind `repos/` that
  it makes. `SafeName`: a name without '/' and "..".
* `node_create`: what `create_directories` in a repository changes.
* `lookup_repo`: the node that a path in a repository leads to.
-/

namespace Techuila
namespace Forge

open Techuila.Dist (Bytes ascii)
open Posix (Path Name Location FileSystem PlainName join locate trail trailFrom enter segments cString
  DOT DOTDOT)
open Oggit (ObjectId)

/-- A name without '/' that a system call does not take for "..". -/
structure OneName (name : Bytes) : Prop where
  separator : Posix.SEPARATOR ∉ name
  dotdot : cString name ≠ DOTDOT

/-- A name that has no '/' and no "..". -/
structure SafeName (name : Bytes) : Prop where
  separator : Posix.SEPARATOR ∉ name
  dotdot : ¬ DOTDOT <:+: name

theorem SafeName.oneName {name : Bytes} (h : SafeName name) : OneName name where
  separator := h.separator
  dotdot e := h.dotdot (e ▸ (List.takeWhile_prefix _).isInfix)

theorem oneName_of_plain {name : Bytes} (h : PlainName name) : OneName name where
  separator := h.separator
  dotdot := by
    rw [Posix.cString_of_not_mem h.nul]
    exact h.dotdot

/-- The names behind `repos/` of a repository's directory. -/
def repoNames (repoName : Bytes) : List Name :=
  if cString repoName = [] ∨ cString repoName = DOT then [] else [cString repoName]

theorem OneName.isAbsolute {name : Bytes} (h : OneName name) : Posix.isAbsolute name = false :=
  Posix.isAbsolute_of_not_mem h.separator

theorem mem_cString {name : Bytes} {c : UInt8} (h : c ∈ cString name) : c ∈ name ∧ c ≠ 0 := by
  refine ⟨(List.takeWhile_prefix _).subset h, ?_⟩
  have := List.mem_takeWhile_imp h
  simpa using this

/-- What a system call sees of such a name: nothing, ".", or a plain name. -/
theorem OneName.cases {name : Bytes} (h : OneName name) :
    cString name = [] ∨ cString name = DOT ∨ PlainName (cString name) := by
  by_cases hnil : cString name = []
  · exact .inl hnil
  by_cases hdot : cString name = DOT
  · exact .inr (.inl hdot)
  exact .inr (.inr ⟨hnil, fun hm => h.separator (mem_cString hm).1, fun hm => (mem_cString hm).2 rfl,
    hdot, h.dotdot⟩)

theorem length_repoNames (name : Bytes) : (repoNames name).length ≤ 1 := by
  unfold repoNames
  split <;> simp

theorem plain_repoNames {name : Bytes} (h : OneName name) : ∀ n ∈ repoNames name, PlainName n := by
  intro n hn
  unfold repoNames at hn
  split at hn
  · cases hn
  · rename_i hne
    rw [not_or] at hne
    obtain rfl := List.mem_singleton.mp hn
    exact (h.cases.resolve_left hne.1).resolve_left hne.2

theorem repoNames_plain {name : Bytes} (h : PlainName name) : repoNames name = [name] := by
  rw [repoNames, Posix.cString_of_not_mem h.nul, if_neg]
  exact fun hn => hn.elim h.ne_nil h.dot

/-- The way along one name. -/
theorem OneName.trailFrom {name : Bytes} (h : OneName name) (loc : Location) :
    (segments (cString name)).foldl enter loc = loc ++ repoNames name ∧
      ∀ l ∈ trailFrom loc (segments (cString name)), l = loc ∨ l = loc ++ repoNames name := by
  rcases h.cases with hnil | hdot | hplain
  · rw [repoNames, if_pos (.inl hnil), hnil, List.append_nil]
    exact ⟨rfl, fun l hl => by cases hl⟩
  · have hsegments : segments (cString name) = [DOT] := by rw [hdot]; rfl
    rw [repoNames, if_pos (.inr hdot), hsegments, List.append_nil]
    exact ⟨rfl, fun l hl => .inl (List.mem_singleton.mp hl)⟩
  · have hnot : ¬ (cString name = [] ∨ cString name = DOT) := fun hn =>
      hn.elim hplain.ne_nil hplain.dot
    rw [repoNames, if_neg hnot, Posix.segments_name hplain.ne_nil hplain.separator]
    refine ⟨hplain.enter loc, fun l hl => .inr ?_⟩
    rw [List.mem_singleton.mp hl, hplain.enter]

namespace ForgeServer

variable {server : ForgeServer} {repoName : Bytes} {names : List Name}

theorem Opened.nul_repos (h : server.Opened) : 0 ∉ reposPath server.forgeRoot := fun hm =>
  (Posix.mem_join hm).elim h.nul fun hm => hm.elim (by decide) (by decide)

/-- `create_directories` changes nothing on the way to `repos/`. -/
theorem Opened.dir_of_mem_trail (h : server.Opened) {l : Location}
    (hl : l ∈ trail server.cwd (reposPath server.forgeRoot)) : server.fs.node l = some .dir :=
  FileSystem.dir_of_mem_trail h.resolves h.dir hl

theorem trail_repoPath (h : server.Opened) (hr : OneName repoName) :
    locate server.cwd (server.repoPath repoName) = server.base ++ repoNames repoName ∧
      ∀ l ∈ trail server.cwd (server.repoPath repoName),
        server.fs.node l = some .dir ∨ l = server.base ++ repoNames repoName := by
  obtain ⟨hend, hway⟩ := hr.trailFrom server.base
  rw [repoPath, Posix.locate_join h.nul_repos hr.isAbsolute,
    Posix.trail_join h.nul_repos hr.isAbsolute]
  refine ⟨hend, fun l hl => ?_⟩
  rcases List.mem_append.mp hl with hl | hl
  · exact .inl (h.dir_of_mem_trail hl)
  · refine (hway l hl).imp_left fun e => ?_
    rw [e]
    exact h.dir

theorem nul_repoPath (h : server.Opened) (hr : OneName repoName) :
    0 ∈ server.repoPath repoName ↔ 0 ∈ repoName := by
  constructor
  · intro hm
    rcases Posix.mem_join hm with hm | hm | hm
    · exact absurd hm h.nul_repos
    · exact hm
    · cases hm
  · intro hm
    rw [repoPath, Posix.join_relative hr.isAbsolute]
    split
    · exact List.mem_append_right _ hm
    · exact List.mem_append_right _ (List.mem_cons_of_mem _ hm)

/-- The location of a path in a repository. An end of string in the name hides what follows it. -/
theorem locate_repo (h : server.Opened) (hr : OneName repoName)
    (hplain : ∀ name ∈ names, PlainName name) :
    locate server.cwd (names.foldl join (server.repoPath repoName)) =
      server.base ++ (repoNames repoName ++ if 0 ∈ repoName then [] else names) := by
  by_cases hnul : 0 ∈ repoName
  · rw [(Posix.trail_foldl_join_of_mem hplain ((nul_repoPath h hr).mpr hnul) _).2.2,
      (trail_repoPath h hr).1, if_pos hnul, List.append_nil]
  · rw [(Posix.trail_foldl_join hplain (mt (nul_repoPath h hr).mp hnul) _).2,
      (trail_repoPath h hr).1, if_neg hnul, List.append_assoc]

/-- What `create_directories` changes: directories in the repository come up. -/
theorem node_create (h : server.Opened) (hr : OneName repoName)
    (hplain : ∀ name ∈ names, PlainName name) (l : Location) :
    (server.fs.createDirectories server.cwd (names.foldl join (server.repoPath repoName))).2.node l =
        server.fs.node l ∨
      (∃ k, k <+: names ∧ l = server.base ++ (repoNames repoName ++ k)) ∧
        server.fs.node l = none ∧ (server.fs.createDirectories server.cwd
          (names.foldl join (server.repoPath repoName))).2.node l = some .dir := by
  refine (server.fs.node_createDirectories _ _ l).imp_right fun ⟨hl, hnone, hnew⟩ =>
    ⟨?_, hnone, hnew⟩
  have hrepo : ∀ l ∈ trail server.cwd (server.repoPath repoName), server.fs.node l = none →
      ∃ k, k <+: names ∧ l = server.base ++ (repoNames repoName ++ k) := by
    intro l hl hnone
    rcases (trail_repoPath h hr).2 l hl with hdir | rfl
    · rw [hdir] at hnone
      cases hnone
    · exact ⟨[], List.nil_prefix, by rw [List.append_nil]⟩
  by_cases hnul : 0 ∈ repoName
  · rw [(Posix.trail_foldl_join_of_mem hplain ((nul_repoPath h hr).mpr hnul) _).2.1] at hl
    exact hrepo l hl hnone
  · rw [(Posix.trail_foldl_join hplain (mt (nul_repoPath h hr).mp hnul) _).1] at hl
    rcases List.mem_append.mp hl with hl | hl
    · exact hrepo l hl hnone
    · obtain ⟨k, hk, rfl⟩ := Posix.mem_trailFrom_plain hplain hl
      exact ⟨k, hk, by rw [(trail_repoPath h hr).1, List.append_assoc]⟩

/-- A repository's path leads to its directory. -/
theorem resolve_repo (h : server.Opened) (hr : OneName repoName) (hnul : 0 ∉ repoName) :
    server.fs.resolve server.cwd (server.repoPath repoName) =
      some (server.base ++ repoNames repoName) := by
  have hc := Posix.cString_of_not_mem hnul
  have hlast : repoName.getLast? ≠ some Posix.SEPARATOR := fun hl =>
    hr.separator (List.mem_of_getLast? hl)
  rw [repoPath, FileSystem.resolve_join h.nul_repos hr.isAbsolute h.resolves h.dir,
    FileSystem.components, hc, if_neg hlast, List.append_nil]
  have hend := (hr.trailFrom server.base).1
  rw [hc] at hend
  rcases hr.cases with hnil | hdot | hplain
  · rw [repoNames, if_pos (.inl hnil), List.append_nil, ← hc, hnil]
    rfl
  · have hsegments : segments repoName = [DOT] := by rw [← hc, hdot]; rfl
    rw [repoNames, if_pos (.inr hdot), List.append_nil, hsegments, FileSystem.resolveFrom,
      if_pos h.dir]
    rfl
  · rw [hc] at hplain
    rw [Posix.segments_name hplain.ne_nil hplain.separator] at hend ⊢
    rw [FileSystem.resolveFrom, if_pos h.dir]
    exact congrArg some hend

/-- The node that a path in a repository leads to. -/
theorem lookup_repo (h : server.Opened) (hr : OneName repoName) (hnul : 0 ∉ repoName)
    (hdir : server.fs.node (server.base ++ repoNames repoName) = some .dir)
    (hplain : ∀ name ∈ names, PlainName name) :
    server.fs.lookup server.cwd (names.foldl join (server.repoPath repoName)) =
      server.fs.node (server.base ++ (repoNames repoName ++ names)) := by
  rw [FileSystem.lookup_foldl_join (mt (nul_repoPath h hr).mp hnul) (resolve_repo h hr hnul) hdir
    hplain, List.append_assoc]

/-- A repository that exists has a node at its location. -/
theorem node_of_exists (h : server.Opened) (hr : OneName repoName)
    (hexists : server.repositoryExists repoName = true) :
    server.fs.node (server.base ++ repoNames repoName) ≠ none := by
  obtain ⟨n, hn⟩ := Option.isSome_iff_exists.mp hexists
  have hnode := FileSystem.lookup_eq hn
  rw [(trail_repoPath h hr).1] at hnode
  rw [hnode]
  exact Option.some_ne_none n

end ForgeServer

end Forge
end Techuila
