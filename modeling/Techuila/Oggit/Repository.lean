import Techuila.Lib.FileSystem
import Techuila.Oggit.ObjectStore

/-!
# Repositories on disk (`13-developer-ecosystem/oggit/object_store.cpp`, `refs.cpp`)

The paths of a repository's files, and what the two classes do to them. `none` where the source lets
an exception of `create_directories` through.

* `ObjectStore.at`: the object store whose files lie under a root directory.
* `trim_line`: what `writeWholeFile` writes of an id is what `readWholeFile` reads.
-/

namespace Techuila
namespace Oggit

open Techuila.Dist (Bytes ascii)
open Posix (Path Location FileSystem join)

/-! ## Objects -/

/-- `pathFor`. -/
def objectPath (rootDirectory : Path) (id : ObjectId) : Path :=
  join (join (join rootDirectory (ascii "objects")) (id.toHex.take 2)) (id.toHex.drop 2)

/-- The object store over a root directory. -/
def ObjectStore.at (fs : FileSystem) (cwd : Location) (rootDirectory : Path) : ObjectStore :=
  ⟨fun id => fs.readFile cwd (objectPath rootDirectory id)⟩

/-- The constructor of `ObjectStore`. -/
def openObjects (fs : FileSystem) (cwd : Location) (rootDirectory : Path) : Bool × FileSystem :=
  fs.createDirectories cwd (join rootDirectory (ascii "objects"))

/-- The path without its last component. -/
def parentPath (path : Path) : Path :=
  let dir := (path.reverse.dropWhile (· ≠ Posix.SEPARATOR)).reverse
  let stripped := (dir.reverse.dropWhile (· = Posix.SEPARATOR)).reverse
  if stripped ≠ [] then stripped else if dir = [] then [] else [Posix.SEPARATOR]

/-- `ObjectStore::writeObject`. A stream that does not open is not noticed. -/
def writeObjectAt (fs : FileSystem) (cwd : Location) (rootDirectory : Path) (type : ObjectType)
    (content : Bytes) : Option ObjectId × FileSystem :=
  let id := hashObject type content
  let path := objectPath rootDirectory id
  let created := fs.createDirectories cwd (parentPath path)
  if !created.1 then (none, created.2)
  else (some id, (created.2.writeFile cwd path (objectHeader type content ++ content)).getD created.2)

/-! ## Refs -/

/-- A blank for `trim`. -/
def isBlank (c : UInt8) : Bool := c = 32 || c = 9 || c = 13 || c = 10

def trim (s : Bytes) : Bytes := ((s.dropWhile isBlank).reverse.dropWhile isBlank).reverse

def readWholeFile (fs : FileSystem) (cwd : Location) (path : Path) : Option Bytes :=
  (fs.readFile cwd path).map trim

/-- Whether the file was written, behind the parents that were created for it. -/
def writeWholeFile (fs : FileSystem) (cwd : Location) (path : Path) (content : Bytes) :
    Option Bool × FileSystem :=
  let (created, fs) := fs.createDirectories cwd (parentPath path)
  if !created then (none, fs)
  else
    match fs.writeFile cwd path (content ++ [10]) with
    | none => (some false, fs)
    | some fs => (some true, fs)

def headsPath (rootDirectory : Path) : Path :=
  join (join rootDirectory (ascii "refs")) (ascii "heads")

def branchPath (rootDirectory : Path) (name : Bytes) : Path := join (headsPath rootDirectory) name

def headPath (rootDirectory : Path) : Path := join rootDirectory (ascii "HEAD")

/-- The constructor of `RefStore`. -/
def openRefs (fs : FileSystem) (cwd : Location) (rootDirectory : Path) : Bool × FileSystem :=
  fs.createDirectories cwd (headsPath rootDirectory)

def setBranch (fs : FileSystem) (cwd : Location) (rootDirectory : Path) (name : Bytes)
    (commit : ObjectId) : Option Bool × FileSystem :=
  writeWholeFile fs cwd (branchPath rootDirectory name) commit.toHex

def getBranch (fs : FileSystem) (cwd : Location) (rootDirectory : Path) (name : Bytes) :
    Option ObjectId :=
  (readWholeFile fs cwd (branchPath rootDirectory name)).bind parseObjectId

/-- `RefStore::listBranches`: `none` where the directory cannot be iterated. -/
def listBranches (fs : FileSystem) (cwd : Location) (rootDirectory : Path) : Option (List Bytes) :=
  match fs.resolve cwd (headsPath rootDirectory) with
  | none => some []
  | some loc =>
    match fs.node loc with
    | none => some []
    | some .dir => some (fs.regularFiles loc)
    | some (.file _) => none

/-! ## Lemmas -/

/-- The parent of a name in a directory is the directory. -/
theorem parentPath_join {path : Path} {name : Bytes} (hp : Posix.noFilename path = false)
    (hs : Posix.SEPARATOR ∉ name) : parentPath (join path name) = path := by
  have hrel : Posix.isAbsolute name = false := by
    cases name with
    | nil => rfl
    | cons c name =>
      have hc : c ≠ Posix.SEPARATOR := fun e => hs (e ▸ List.mem_cons_self)
      simpa [Posix.isAbsolute] using hc
  have hdir : (name.reverse ++ Posix.SEPARATOR :: path.reverse).dropWhile
      (· ≠ Posix.SEPARATOR) = Posix.SEPARATOR :: path.reverse := by
    rw [List.dropWhile_append_of_pos fun c hc => ?_, List.dropWhile_cons_of_neg (by simp)]
    have hc : c ≠ Posix.SEPARATOR := fun e => hs (e ▸ List.mem_reverse.mp hc)
    simpa using hc
  simp only [Posix.noFilename, Bool.or_eq_false_iff, decide_eq_false_iff_not] at hp
  obtain ⟨hne, hlast⟩ := hp
  have hstrip : (Posix.SEPARATOR :: path.reverse).dropWhile (· = Posix.SEPARATOR) = path.reverse := by
    rw [List.dropWhile_cons_of_pos (by simp)]
    cases hr : path.reverse with
    | nil => rfl
    | cons c rest =>
      refine List.dropWhile_cons_of_neg ?_
      intro hc
      simp only [decide_eq_true_eq] at hc
      apply hlast
      rw [List.getLast?_eq_head?_reverse, hr, hc]
      rfl
  rw [Posix.join_relative hrel, if_neg (by simp [Posix.noFilename, hne, hlast]), parentPath]
  simp only [List.reverse_append, List.reverse_cons, List.reverse_nil, List.nil_append,
    List.append_assoc, List.singleton_append, hdir, List.reverse_reverse, hstrip]
  exact if_pos hne

/-- The names of an object's file in a repository. -/
def objectNames (id : ObjectId) : List Posix.Name :=
  [ascii "objects", id.toHex.take 2, id.toHex.drop 2]

/-- The names of the directory of the branches in a repository. -/
def headsNames : List Posix.Name := [ascii "refs", ascii "heads"]

theorem mem_hex {id : ObjectId} {c : UInt8} (h : c ∈ id.toHex) : c ∈ HEX_DIGITS := by
  obtain ⟨b, _, hc⟩ := List.mem_flatMap.mp h
  have hget : ∀ n : UInt8, HEX_DIGITS.getD (n &&& 0xF).toNat 0 ∈ HEX_DIGITS := by
    intro n
    have hlt : (n &&& 0xF).toNat < HEX_DIGITS.length := by
      rw [UInt8.toNat_and]
      exact Nat.lt_of_le_of_lt Nat.and_le_right (by decide)
    rw [List.getD_eq_getElem?_getD, List.getElem?_eq_getElem hlt, Option.getD_some]
    exact List.getElem_mem hlt
  simp only [hexPair, List.mem_cons, List.not_mem_nil, or_false] at hc
  rcases hc with rfl | rfl
  · exact hget _
  · exact hget _

theorem isBlank_hex {id : ObjectId} {c : UInt8} (h : c ∈ id.toHex) : isBlank c = false := by
  have hdigits : HEX_DIGITS.all (fun d => !isBlank d) = true := by decide
  exact (Bool.not_eq_true' _).mp (List.all_eq_true.mp hdigits c (mem_hex h))

theorem plain_headsNames : ∀ name ∈ headsNames, Posix.PlainName name := by
  intro name hname
  simp only [headsNames, List.mem_cons, List.not_mem_nil, or_false] at hname
  rcases hname with rfl | rfl <;> exact ⟨by decide, by decide, by decide, by decide, by decide⟩

theorem plain_objectNames (id : ObjectId) : ∀ name ∈ objectNames id, Posix.PlainName name := by
  have hlen := length_toHex id
  have hhex : ∀ hex : Bytes, hex ≠ [] → (∀ c ∈ hex, c ∈ id.toHex) → Posix.PlainName hex := by
    intro hex hne hex_sub
    have hnot : ∀ c : UInt8, c ∉ HEX_DIGITS → c ∉ hex := fun c hc hm => hc (mem_hex (hex_sub c hm))
    have hdot := hnot 46 (by decide)
    exact ⟨hne, hnot _ (by decide), hnot _ (by decide), fun e => hdot (e ▸ List.mem_cons_self),
      fun e => hdot (e ▸ List.mem_cons_self)⟩
  intro name hname
  simp only [objectNames, List.mem_cons, List.not_mem_nil, or_false] at hname
  rcases hname with rfl | rfl | rfl
  · exact ⟨by decide, by decide, by decide, by decide, by decide⟩
  · exact hhex _ (fun h => by simpa [hlen] using congrArg List.length h)
      fun c hc => List.mem_of_mem_take hc
  · exact hhex _ (fun h => by simpa [hlen] using congrArg List.length h)
      fun c hc => List.mem_of_mem_drop hc

/-- The names of the directory of an object's file. -/
def objectDirectory (id : ObjectId) : List Posix.Name := [ascii "objects", id.toHex.take 2]

theorem plain_objectDirectory (id : ObjectId) :
    ∀ name ∈ objectDirectory id, Posix.PlainName name := fun name hname =>
  plain_objectNames id name (List.mem_of_mem_take (i := 2) hname)

theorem parentPath_objectPath (rootDirectory : Path) (id : ObjectId) :
    parentPath (objectPath rootDirectory id) = (objectDirectory id).foldl join rootDirectory := by
  have hname : Posix.PlainName (id.toHex.take 2) := plain_objectDirectory id _ (by simp [objectDirectory])
  have hrest : Posix.PlainName (id.toHex.drop 2) := plain_objectNames id _ (by simp [objectNames])
  refine parentPath_join ?_ hrest.separator
  rw [Posix.noFilename_join hname.isAbsolute]
  exact hname.noFilename

theorem writeObjectAt_eq {type : ObjectType} {content : Bytes} {id : ObjectId}
    (hid : hashObject type content = id) (fs : FileSystem) (cwd : Location) (rootDirectory : Path) :
    writeObjectAt fs cwd rootDirectory type content =
      if !(fs.createDirectories cwd ((objectDirectory id).foldl join rootDirectory)).1 then
        (none, (fs.createDirectories cwd ((objectDirectory id).foldl join rootDirectory)).2)
      else (some id, ((fs.createDirectories cwd
        ((objectDirectory id).foldl join rootDirectory)).2.writeFile cwd (objectPath rootDirectory id)
          (objectHeader type content ++ content)).getD
            (fs.createDirectories cwd ((objectDirectory id).foldl join rootDirectory)).2) := by
  subst hid
  rw [writeObjectAt, parentPath_objectPath]

theorem objectNames_inj {id id' : ObjectId} (h : objectNames id = objectNames id') : id = id' := by
  simp only [objectNames, List.cons.injEq, and_true, true_and] at h
  apply toHex_inj
  rw [← List.take_append_drop 2 id.toHex, h.1, h.2, List.take_append_drop]

/-- A line with an id reads back as the id's hex form. -/
theorem trim_line (id : ObjectId) : trim (id.toHex ++ [10]) = id.toHex := by
  have hne : id.toHex ≠ [] := fun h => by
    have := length_toHex id
    rw [h] at this
    cases this
  have hhead : (id.toHex ++ [10]).dropWhile isBlank = id.toHex ++ [10] := by
    obtain ⟨c, rest, hc⟩ := List.exists_cons_of_ne_nil hne
    have hb := isBlank_hex (c := c) (hc ▸ List.mem_cons_self)
    rw [hc, List.cons_append]
    exact List.dropWhile_cons_of_neg (by simp [hb])
  have hlast : id.toHex.reverse.dropWhile isBlank = id.toHex.reverse := by
    obtain ⟨c, rest, hc⟩ := List.exists_cons_of_ne_nil (List.reverse_ne_nil_iff.mpr hne)
    have hb := isBlank_hex (c := c)
      (List.mem_reverse.mp (hc ▸ List.mem_cons_self))
    rw [hc]
    exact List.dropWhile_cons_of_neg (by simp [hb])
  rw [trim, hhead, List.reverse_append, List.reverse_singleton, List.singleton_append,
    List.dropWhile_cons_of_pos (by decide), hlast, List.reverse_reverse]

end Oggit
end Techuila
