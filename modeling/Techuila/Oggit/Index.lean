import Techuila.Oggit.Repository
import Techuila.Oggit.TreeBuilder

/-!
# The index (`13-developer-ecosystem/oggit/index.cpp`)

The staged files and the text file that keeps them, one line for each.

* `parseLine_line`: the line of a path reads back as the path, blanks and all.
* `reload_iff`: an index that is saved and opened again is the same just when every staged path is
  `Writable`, since no line has another one.
-/

namespace Techuila
namespace Oggit

open Techuila.Dist (Bytes ascii)
open Posix (Path Location FileSystem)

/-- '\n'. -/
def NEWLINE : UInt8 := 10

/-- ' '. -/
def SPACE : UInt8 := 32

/-- What `joinPath` makes of segments. -/
def joinSegments : List Bytes → Bytes
  | [] => []
  | [segment] => segment
  | segment :: segments => segment ++ SLASH :: joinSegments segments

def normalized (path : Bytes) : Bytes := joinSegments (splitPath path)

structure Index where
  indexPath : Path
  staged : Files

/-! ## The file -/

/-- The lines that `std::getline` reads, with the line that is being read. -/
def getLines (current : Bytes) : Bytes → List Bytes
  | [] => if current = [] then [] else [current]
  | c :: raw => if c = NEWLINE then current :: getLines [] raw else getLines (current ++ [c]) raw

/-- The rest of a line, after one separating blank. -/
def afterSpace (rest : Bytes) : Bytes := if rest.head? = some SPACE then rest.tail else rest

/-- What a line stages. `none` where it is skipped. -/
def parseLine (line : Bytes) : Option (Bytes × ObjectId) :=
  let line := line.dropWhile isSpace
  let hex := line.takeWhile (!isSpace ·)
  let path := afterSpace (line.dropWhile (!isSpace ·))
  if hex = [] then none
  else if path = [] then none
  else (parseObjectId hex).map fun id => (path, id)

/-- The constructor: `load`. -/
def openIndex (fs : FileSystem) (cwd : Location) (indexPath : Path) : Index where
  indexPath := indexPath
  staged :=
    match fs.readFile cwd indexPath with
    | none => .empty
    | some raw => SortedTable.ofEntries ((getLines [] raw).filterMap parseLine)

def Index.lines (index : Index) : Bytes :=
  index.staged.entries.flatMap fun (path, id) => id.toHex ++ SPACE :: (path ++ [NEWLINE])

/-- `Index::save`, and the files after it. -/
def Index.save (index : Index) (fs : FileSystem) (cwd : Location) : Bool × FileSystem :=
  match fs.writeFile cwd index.indexPath index.lines with
  | none => (false, fs)
  | some fs => (true, fs)

/-! ## The operations -/

def Index.addFile (index : Index) (store : ObjectStore) (path content : Bytes) :
    Index × ObjectStore :=
  let (id, store) := store.writeObject .blob content
  ({ index with staged := index.staged.insert (normalized path) id }, store)

def Index.removeFile (index : Index) (path : Bytes) : Bool × Index :=
  ((index.staged.find (normalized path)).isSome,
    { index with staged := index.staged.erase (normalized path) })

def Index.clear (index : Index) : Index := { index with staged := .empty }

def Index.writeTreeFromIndex (index : Index) (store : ObjectStore) : ObjectId × ObjectStore :=
  buildTreeFromPaths store index.staged

inductive IndexCall
  | addFile (path content : Bytes)
  | removeFile (path : Bytes)
  | clear

def Index.perform (state : Index × ObjectStore) : IndexCall → Index × ObjectStore
  | .addFile path content => state.1.addFile state.2 path content
  | .removeFile path => ((state.1.removeFile path).2, state.2)
  | .clear => (state.1.clear, state.2)

/-- The index and the store after some calls. -/
def Index.run (state : Index × ObjectStore) (calls : List IndexCall) : Index × ObjectStore :=
  calls.foldl Index.perform state

/-! ## Lines -/

theorem getLines_line {line : Bytes} (h : NEWLINE ∉ line) (current raw : Bytes) :
    getLines current (line ++ NEWLINE :: raw) = (current ++ line) :: getLines [] raw := by
  induction line generalizing current with
  | nil => rw [List.nil_append, getLines, if_pos rfl, List.append_nil]
  | cons c line ih =>
    have hc : c ≠ NEWLINE := fun e => h (e ▸ List.mem_cons_self)
    rw [List.cons_append, getLines, if_neg hc, ih fun hm => h (List.mem_cons_of_mem _ hm),
      List.append_assoc]
    rfl

/-- No line has another line in it. -/
theorem newline_of_mem_getLines {raw current line : Bytes} (hc : NEWLINE ∉ current)
    (h : line ∈ getLines current raw) : NEWLINE ∉ line := by
  induction raw generalizing current with
  | nil =>
    unfold getLines at h
    split at h
    · cases h
    · rwa [List.mem_singleton.mp h]
  | cons c raw ih =>
    unfold getLines at h
    split at h
    · rcases List.mem_cons.mp h with rfl | h
      · exact hc
      · exact ih List.not_mem_nil h
    · rename_i hne
      refine ih (fun hm => (List.mem_append.mp hm).elim hc fun hm => ?_) h
      exact hne (List.mem_singleton.mp hm).symm

theorem isSpace_hex {id : ObjectId} {c : UInt8} (h : c ∈ id.toHex) : isSpace c = false := by
  have hdigits : HEX_DIGITS.all (fun d => !isSpace d) = true := by decide
  exact (Bool.not_eq_true' _).mp (List.all_eq_true.mp hdigits c (mem_hex h))

/-- Whatever is in a path, its line reads back as the path. -/
theorem parseLine_line (id : ObjectId) {path : Bytes} (hne : path ≠ []) :
    parseLine (id.toHex ++ SPACE :: path) = some (path, id) := by
  have hlength := length_toHex id
  have hhex : id.toHex ≠ [] := List.ne_nil_of_length_pos (by rw [hlength]; decide)
  have hspace : ∀ c ∈ id.toHex, (!isSpace c) = true := fun c hc => by rw [isSpace_hex hc]; rfl
  have hstart : (id.toHex ++ SPACE :: path).dropWhile isSpace = id.toHex ++ SPACE :: path := by
    obtain ⟨c, rest, hc⟩ := List.exists_cons_of_ne_nil hhex
    have hb := isSpace_hex (c := c) (hc ▸ List.mem_cons_self)
    rw [hc, List.cons_append]
    exact List.dropWhile_cons_of_neg (by simp [hb])
  have htake : (id.toHex ++ SPACE :: path).takeWhile (!isSpace ·) = id.toHex := by
    rw [List.takeWhile_append_of_pos hspace, List.takeWhile_cons_of_neg (by decide),
      List.append_nil]
  have hdrop : (id.toHex ++ SPACE :: path).dropWhile (!isSpace ·) = SPACE :: path := by
    rw [List.dropWhile_append_of_pos hspace, List.dropWhile_cons_of_neg (by decide)]
  have hafter : afterSpace (SPACE :: path) = path := if_pos rfl
  simp only [parseLine, hstart, htake, hdrop, hafter, hhex, hne, if_false, parseObjectId_toHex,
    Option.map_some]

/-- A path that a line can stage. -/
def Writable (path : Bytes) : Prop := path ≠ [] ∧ NEWLINE ∉ path

theorem writable_of_parseLine {line path : Bytes} {id : ObjectId} (hl : NEWLINE ∉ line)
    (h : parseLine line = some (path, id)) : Writable path := by
  unfold parseLine at h
  dsimp only at h
  split at h
  · cases h
  split at h
  · cases h
  rename_i hne
  obtain ⟨id', _, he⟩ := Option.map_eq_some_iff.mp h
  cases he
  refine ⟨hne, fun hm => hl ?_⟩
  have hrest : NEWLINE ∈ (line.dropWhile isSpace).dropWhile (!isSpace ·) := by
    unfold afterSpace at hm
    split at hm
    · exact List.mem_of_mem_tail hm
    · exact hm
  exact (List.dropWhile_sublist _).subset ((List.dropWhile_sublist _).subset hrest)

/-! ## Saving and opening -/

theorem writable_openIndex {fs : FileSystem} {cwd : Location} {indexPath : Path} {path : Bytes}
    {id : ObjectId} (h : (openIndex fs cwd indexPath).staged.find path = some id) :
    Writable path := by
  unfold openIndex at h
  dsimp only at h
  split at h
  · cases h
  · obtain ⟨line, hline, hparse⟩ := List.mem_filterMap.mp (SortedTable.mem_of_find_ofEntries h)
    exact writable_of_parseLine (newline_of_mem_getLines List.not_mem_nil hline) hparse

/-- Writable paths come back from their lines. -/
theorem parse_lines {entries : List (Bytes × ObjectId)} (h : ∀ e ∈ entries, Writable e.1) :
    (getLines [] (entries.flatMap fun (path, id) =>
      id.toHex ++ SPACE :: (path ++ [NEWLINE]))).filterMap parseLine = entries := by
  induction entries with
  | nil => rfl
  | cons e entries ih =>
    obtain ⟨⟨hne, hnew⟩, h⟩ := List.forall_mem_cons.mp h
    have hline : NEWLINE ∉ e.2.toHex ++ SPACE :: e.1 := by
      intro hm
      rcases List.mem_append.mp hm with hm | hm
      · exact absurd (isSpace_hex hm) (by decide)
      · exact (List.mem_cons.mp hm).elim (by decide) hnew
    have hfirst : ∀ raw, e.2.toHex ++ SPACE :: (e.1 ++ [NEWLINE]) ++ raw =
        (e.2.toHex ++ SPACE :: e.1) ++ NEWLINE :: raw := fun raw => by simp
    rw [List.flatMap_cons, hfirst, getLines_line hline, List.nil_append, List.filterMap_cons,
      parseLine_line e.2 hne, ih h]

/-- An index that is saved is there again just when its paths are writable. -/
theorem reload_iff {index : Index} {fs fs' : FileSystem} {cwd : Location}
    (h : index.save fs cwd = (true, fs')) :
    openIndex fs' cwd index.indexPath = index ↔
      ∀ path id, index.staged.find path = some id → Writable path := by
  have hwrite : fs.writeFile cwd index.indexPath index.lines = some fs' := by
    unfold Index.save at h
    split at h
    · cases h
    · rename_i hw
      cases h
      exact hw
  constructor
  · intro he path id hf
    rw [← he] at hf
    exact writable_openIndex hf
  · intro hw
    have hparse := parse_lines fun e he =>
      hw e.1 e.2 (SortedTable.find_eq_some_iff.mpr he)
    obtain ⟨indexPath, staged⟩ := index
    simp only [openIndex, Posix.FileSystem.readFile_writeFile hwrite, Index.lines, hparse,
      SortedTable.ofEntries_entries]

/-! ## Runs -/

/-- The call stages no path that a line cannot stage. -/
def IndexCall.Writable : IndexCall → Prop
  | .addFile path _ => Oggit.Writable (normalized path)
  | .removeFile _ => True
  | .clear => True

theorem indexPath_run (state : Index × ObjectStore) (calls : List IndexCall) :
    (Index.run state calls).1.indexPath = state.1.indexPath := by
  induction calls generalizing state with
  | nil => rfl
  | cons call calls ih =>
    refine (ih _).trans ?_
    cases call <;> rfl

theorem writable_perform {state : Index × ObjectStore}
    (h : ∀ path id, state.1.staged.find path = some id → Writable path) {call : IndexCall}
    (hc : call.Writable) {path : Bytes} {id : ObjectId}
    (hf : (Index.perform state call).1.staged.find path = some id) : Writable path := by
  cases call with
  | addFile path' content =>
    rw [Index.perform, Index.addFile, SortedTable.find_insert] at hf
    split at hf
    · rename_i hp
      exact hp ▸ hc
    · exact h _ _ hf
  | removeFile path' =>
    rw [Index.perform, Index.removeFile, SortedTable.find_erase] at hf
    split at hf
    · cases hf
    · exact h _ _ hf
  | clear => cases hf

theorem writable_run {state : Index × ObjectStore}
    (h : ∀ path id, state.1.staged.find path = some id → Writable path) {calls : List IndexCall}
    (hc : ∀ call ∈ calls, call.Writable) {path : Bytes} {id : ObjectId}
    (hf : (Index.run state calls).1.staged.find path = some id) : Writable path := by
  induction calls generalizing state with
  | nil => exact h _ _ hf
  | cons call calls ih =>
    obtain ⟨hcall, hc⟩ := List.forall_mem_cons.mp hc
    exact ih (fun _ _ hf => writable_perform h hcall hf) hc hf

/-- An index that any calls lead to comes back from its file just when its paths are writable, and
the calls that stage writable paths only lead to no others. -/
theorem index_persistence (fs₀ : FileSystem) (cwd : Location) (indexPath : Path)
    (store : ObjectStore) (calls : List IndexCall) :
    (∀ fs fs', (Index.run (openIndex fs₀ cwd indexPath, store) calls).1.save fs cwd = (true, fs') →
      (openIndex fs' cwd indexPath = (Index.run (openIndex fs₀ cwd indexPath, store) calls).1 ↔
        ∀ path id, (Index.run (openIndex fs₀ cwd indexPath, store) calls).1.staged.find path =
          some id → Writable path)) ∧
    ((∀ call ∈ calls, call.Writable) →
      ∀ path id, (Index.run (openIndex fs₀ cwd indexPath, store) calls).1.staged.find path =
        some id → Writable path) := by
  refine ⟨fun fs fs' h => ?_, fun hc path id hf =>
    writable_run (fun _ _ hf => writable_openIndex hf) hc hf⟩
  have hiff := reload_iff h
  rwa [indexPath_run] at hiff

/-- A path with a line break comes back as two lines, neither of which is its own. -/
theorem index_lost : ¬ ∀ (fs₀ fs fs' : FileSystem) (cwd : Location) (indexPath : Path)
    (store : ObjectStore) (calls : List IndexCall),
    (Index.run (openIndex fs₀ cwd indexPath, store) calls).1.save fs cwd = (true, fs') →
      openIndex fs' cwd indexPath = (Index.run (openIndex fs₀ cwd indexPath, store) calls).1 := by
  intro h
  obtain ⟨index, hindex⟩ : ∃ index, (Index.run (openIndex .empty [] (ascii "index"), {})
    [.addFile (ascii "a" ++ NEWLINE :: ascii "b") []]).1 = index := ⟨_, rfl⟩
  have hpath : index.indexPath = ascii "index" := by rw [← hindex, indexPath_run]; rfl
  have hfind : ∃ id, index.staged.find (ascii "a" ++ NEWLINE :: ascii "b") = some id := by
    rw [← hindex]
    exact ⟨_, (SortedTable.find_insert ..).trans (if_pos rfl)⟩
  obtain ⟨id, hfind⟩ := hfind
  obtain ⟨fs', hsave⟩ : ∃ fs', index.save .empty [] = (true, fs') := by
    rw [Index.save, hpath]
    exact ⟨_, rfl⟩
  have hreload := h .empty .empty fs' [] (ascii "index") {} _ (by rw [hindex]; exact hsave)
  rw [hindex, ← hpath, reload_iff hsave] at hreload
  exact (hreload _ _ hfind).2 (by decide)

end Oggit
end Techuila
