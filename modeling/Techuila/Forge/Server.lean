import Techuila.Dist.Serialization
import Techuila.Oggit.Repository

/-!
# The forge server (`13-developer-ecosystem/forge/forge_server.cpp`)

Users with password hashes and named repositories under one root directory. A call that an exception
of `create_directories` leaves gives `none`.

* `ForgeServer`: the server with the files it works on. `Call`, `perform`: the calls that write.
* `Opened`: `repos/` is where its path leads to, as the constructor leaves it.
-/

namespace Techuila
namespace Forge

open Techuila.Dist (Bytes ascii Encoder Decoder)
open Posix (Path Location FileSystem join locate)
open Oggit (ObjectId ObjectType ObjectStore)

inductive ForgeError
  | invalidRequest
  | userAlreadyExists
  | authenticationFailed
  | repositoryAlreadyExists
  | repositoryNotFound
  | objectNotFound
  deriving DecidableEq, Repr

/-- `std::map<std::string, std::vector<uint8_t>>`. -/
abbrev Users := @SortedTable Bytes Bytes Preorder.toLT

def hashPassword (password : Bytes) : Bytes := Crypto.sha256 password

/-- The members of the server, and the files around it. -/
structure ForgeServer where
  fs : FileSystem
  cwd : Location
  forgeRoot : Path
  userPasswordHashes : Users

/-! ## Users on disk -/

/-- The loop of `loadUsers`. What was read before a failure stays. -/
def readUsers : Nat → Decoder → Users → Users
  | 0, _, users => users
  | count + 1, decoder, users =>
    match decoder.readString with
    | (none, _) => users
    | (some username, decoder) =>
      match decoder.readBytes with
      | (none, _) => users
      | (some hash, decoder) => readUsers count decoder (users.insert username hash)

def decodeUsers (bytes : Bytes) : Users :=
  if bytes = [] then {}
  else
    match Decoder.readU32 ⟨bytes, 0, false⟩ with
    | (none, _) => {}
    | (some count, decoder) => readUsers count.toNat decoder {}

def encodeUsers (users : Users) : Bytes :=
  (users.entries.foldl (fun encoder (username, hash) =>
    (encoder.writeString username).writeBytes hash)
    (({} : Encoder).writeU32 (UInt32.ofNat users.entries.length))).data

/-- `forgeRoot / "repos"`. -/
def reposPath (forgeRoot : Path) : Path := join forgeRoot (ascii "repos")

def userDbPath (forgeRoot : Path) : Path := join forgeRoot (ascii "users.db")

/-- The constructor. -/
def openForge (fs : FileSystem) (cwd : Location) (forgeRoot : Path) : Option ForgeServer :=
  let (created, fs) := fs.createDirectories cwd (reposPath forgeRoot)
  if !created then none
  else
    let users := match fs.readFile cwd (userDbPath forgeRoot) with
      | none => {}
      | some bytes => decodeUsers bytes
    some ⟨fs, cwd, forgeRoot, users⟩

/-- A call that writes. -/
inductive Call
  | registerUser (username password : Bytes)
  | createRepository (username password repoName : Bytes)
  | pushObject (username password repoName : Bytes) (type : ObjectType) (content : Bytes)
  | setBranch (username password repoName branchName : Bytes) (commit : ObjectId)
  deriving DecidableEq

namespace ForgeServer

def repoPath (server : ForgeServer) (repoName : Bytes) : Path :=
  join (reposPath server.forgeRoot) repoName

/-- `saveUsers`. A stream that does not open is not noticed. -/
def saveUsers (server : ForgeServer) : ForgeServer :=
  { server with fs := (server.fs.writeFile server.cwd (userDbPath server.forgeRoot)
      (encodeUsers server.userPasswordHashes)).getD server.fs }

/-! ## Operations -/

def registerUser (server : ForgeServer) (username password : Bytes) :
    Option (Except ForgeError Unit) × ForgeServer :=
  if username = [] then (some (.error .invalidRequest), server)
  else if (server.userPasswordHashes.find username).isSome then
    (some (.error .userAlreadyExists), server)
  else
    (some (.ok ()), { server with
      userPasswordHashes := server.userPasswordHashes.insert username (hashPassword password)
    }.saveUsers)

def authenticate (server : ForgeServer) (username password : Bytes) : Bool :=
  match server.userPasswordHashes.find username with
  | none => false
  | some hash => hash = hashPassword password

def repositoryExists (server : ForgeServer) (repoName : Bytes) : Bool :=
  server.fs.exists server.cwd (server.repoPath repoName)

/-- `oggit::ObjectStore store(repoPath(repoName))`, then the rest of the call. -/
def withObjects {α : Type} (server : ForgeServer) (repoName : Bytes)
    (rest : ForgeServer → Option α × ForgeServer) : Option α × ForgeServer :=
  let (opened, fs) := Oggit.openObjects server.fs server.cwd (server.repoPath repoName)
  if !opened then (none, { server with fs := fs }) else rest { server with fs := fs }

/-- `oggit::RefStore refs(repoPath(repoName))`, then the rest of the call. -/
def withRefs {α : Type} (server : ForgeServer) (repoName : Bytes)
    (rest : ForgeServer → Option α × ForgeServer) : Option α × ForgeServer :=
  let (opened, fs) := Oggit.openRefs server.fs server.cwd (server.repoPath repoName)
  if !opened then (none, { server with fs := fs }) else rest { server with fs := fs }

def createRepository (server : ForgeServer) (username password repoName : Bytes) :
    Option (Except ForgeError Unit) × ForgeServer :=
  if repoName = [] then (some (.error .invalidRequest), server)
  else if !server.authenticate username password then
    (some (.error .authenticationFailed), server)
  else if server.repositoryExists repoName then
    (some (.error .repositoryAlreadyExists), server)
  else
    server.withObjects repoName fun server => server.withRefs repoName fun server =>
      (some (.ok ()), server)

def pushObject (server : ForgeServer) (username password repoName : Bytes) (type : ObjectType)
    (content : Bytes) : Option (Except ForgeError ObjectId) × ForgeServer :=
  if !server.authenticate username password then (some (.error .authenticationFailed), server)
  else if !server.repositoryExists repoName then (some (.error .repositoryNotFound), server)
  else
    server.withObjects repoName fun server =>
      let written := Oggit.writeObjectAt server.fs server.cwd (server.repoPath repoName) type content
      (written.1.map .ok, { server with fs := written.2 })

/-- The files of a repository's object store. -/
def objects (server : ForgeServer) (repoName : Bytes) : ObjectStore :=
  .at server.fs server.cwd (server.repoPath repoName)

/-- `setBranch`. What `RefStore::setBranch` returns is dropped. -/
def setBranch (server : ForgeServer) (username password repoName branchName : Bytes)
    (commit : ObjectId) : Option (Except ForgeError Unit) × ForgeServer :=
  if branchName = [] then (some (.error .invalidRequest), server)
  else if !server.authenticate username password then
    (some (.error .authenticationFailed), server)
  else if !server.repositoryExists repoName then (some (.error .repositoryNotFound), server)
  else
    server.withObjects repoName fun server =>
      if !(server.objects repoName).exists commit then (some (.error .objectNotFound), server)
      else
        server.withRefs repoName fun server =>
          let written := Oggit.setBranch server.fs server.cwd (server.repoPath repoName) branchName
            commit
          (written.1.map fun _ => .ok (), { server with fs := written.2 })

def listBranches (server : ForgeServer) (repoName : Bytes) :
    Option (Except ForgeError (List Bytes)) × ForgeServer :=
  if !server.repositoryExists repoName then (some (.error .repositoryNotFound), server)
  else
    server.withRefs repoName fun server =>
      ((Oggit.listBranches server.fs server.cwd (server.repoPath repoName)).map .ok, server)

def getObject (server : ForgeServer) (repoName : Bytes) (id : ObjectId) :
    Option (Except ForgeError (ObjectType × Bytes)) × ForgeServer :=
  if !server.repositoryExists repoName then (some (.error .repositoryNotFound), server)
  else
    server.withObjects repoName fun server =>
      match (server.objects repoName).readObject id with
      | .error _ => (some (.error .objectNotFound), server)
      | .ok object => (some (.ok object), server)

/-- What a branch of a repository points at (`RefStore::getBranch`). -/
def getBranch (server : ForgeServer) (repoName branchName : Bytes) : Option ObjectId :=
  Oggit.getBranch server.fs server.cwd (server.repoPath repoName) branchName

/-! ## Runs -/

/-- The server after a call. -/
def perform (server : ForgeServer) : Call → ForgeServer
  | .registerUser username password => (server.registerUser username password).2
  | .createRepository username password repoName =>
    (server.createRepository username password repoName).2
  | .pushObject username password repoName type content =>
    (server.pushObject username password repoName type content).2
  | .setBranch username password repoName branchName commit =>
    (server.setBranch username password repoName branchName commit).2

def run (server : ForgeServer) (calls : List Call) : ForgeServer := calls.foldl perform server

/-- Where `repos/` lies. -/
def base (server : ForgeServer) : Location := locate server.cwd (reposPath server.forgeRoot)

/-- The path of `repos/` can be followed. -/
structure Opened (server : ForgeServer) : Prop where
  nul : 0 ∉ server.forgeRoot
  cwdDir : server.fs.node server.cwd = some .dir
  resolves : server.fs.resolve server.cwd (reposPath server.forgeRoot) = some server.base
  dir : server.fs.node server.base = some .dir

/-- Where directories stay, the server stays opened. -/
theorem Opened.frame {server : ForgeServer} (h : server.Opened) {fs : FileSystem} {users : Users}
    (hdirs : ∀ l, server.fs.node l = some .dir → fs.node l = some .dir) :
    ForgeServer.Opened { server with fs := fs, userPasswordHashes := users } :=
  ⟨h.nul, hdirs _ h.cwdDir, FileSystem.resolve_frame hdirs h.resolves, hdirs _ h.dir⟩

end ForgeServer

/-- The server that the constructor gives is opened. -/
theorem opened_openForge {fs : FileSystem} {cwd : Location} {forgeRoot : Path} {server : ForgeServer}
    (hnul : 0 ∉ forgeRoot) (hcwd : fs.node cwd = some .dir)
    (h : openForge fs cwd forgeRoot = some server) :
    server.Opened ∧ server.fs = (fs.createDirectories cwd (reposPath forgeRoot)).2 ∧
      server.base = locate cwd (reposPath forgeRoot) := by
  unfold openForge at h
  dsimp only at h
  split at h
  · cases h
  · rename_i hok
    rw [Bool.not_eq_true, Bool.not_eq_false'] at hok
    cases h
    exact ⟨⟨hnul, (fs.frame_createDirectories cwd _).dirs cwd hcwd,
      FileSystem.resolve_createDirectories hcwd hok, FileSystem.dir_createDirectories hcwd hok⟩,
      rfl, rfl⟩

end Forge
end Techuila
