import Mathlib.Data.List.Sort
import Mathlib.Data.List.TakeWhile
import Techuila.Crypto.Sha256
import Techuila.Lib.SortedTable
import Techuila.Storage.Wal

/-!
# The object store (`13-developer-ecosystem/oggit/object_store.cpp`)

* `ObjectId`: a SHA-256 digest. `parseObjectId_toHex`: its hex form reads back.
* `ObjectStore`: the bytes of the file at each id's path. `readObject_of_file`: a file with an
  object's bytes under the object's id reads as that object.
* `serializeTree`, `parseTree`, `serializeCommit`, `parseCommit`: the formats of trees and commits.
  `parseTree_serializeTree`: a tree reads back with its entries by name.
-/

namespace Techuila
namespace Oggit

open Techuila.Dist (Bytes ascii)
open Techuila.Storage (u32Bytes readU32 readU32_u32Bytes)

inductive ObjectType
  | blob
  | tree
  | commit
  deriving DecidableEq, Repr

def objectTypeName : ObjectType → Bytes
  | .blob => ascii "blob"
  | .tree => ascii "tree"
  | .commit => ascii "commit"

/-! ## Ids -/

abbrev ObjectId := { bytes : Bytes // bytes.length = 32 }

/-- `ObjectId{}`. -/
theorem length_zeros : (List.replicate 32 (0 : UInt8)).length = 32 := rfl

def ObjectId.zero : ObjectId := ⟨List.replicate 32 0, length_zeros⟩

def HEX_DIGITS : Bytes := ascii "0123456789abcdef"

def hexValue (c : UInt8) : Option UInt8 :=
  if 48 ≤ c ∧ c ≤ 57 then some (c - 48)
  else if 97 ≤ c ∧ c ≤ 102 then some (c - 97 + 10)
  else none

/-- The two digits of a byte. -/
def hexPair (b : UInt8) : Bytes :=
  [HEX_DIGITS.getD ((b >>> 4) &&& 0xF).toNat 0, HEX_DIGITS.getD (b &&& 0xF).toNat 0]

def ObjectId.toHex (id : ObjectId) : Bytes := id.val.flatMap hexPair

/-- The loop of `parseObjectId`: a byte for each two digits. -/
def parseHexPairs : Bytes → Option Bytes
  | hi :: lo :: hex => do
    let hi ← hexValue hi
    let lo ← hexValue lo
    let bytes ← parseHexPairs hex
    some ((hi <<< 4 ||| lo) :: bytes)
  | _ => some []

def parseObjectId (hex : Bytes) : Option ObjectId :=
  if hex.length ≠ 64 then none
  else (parseHexPairs hex).bind fun bytes => if h : bytes.length = 32 then some ⟨bytes, h⟩ else none

theorem hexValue_digit : ∀ b : UInt8,
    hexValue (HEX_DIGITS.getD ((b >>> 4) &&& 0xF).toNat 0) = some ((b >>> 4) &&& 0xF) ∧
      hexValue (HEX_DIGITS.getD (b &&& 0xF).toNat 0) = some (b &&& 0xF) ∧
      ((b >>> 4) &&& 0xF) <<< 4 ||| (b &&& 0xF) = b := by
  have h : ∀ n < 256,
      hexValue (HEX_DIGITS.getD (((.ofNat n : UInt8) >>> 4) &&& 0xF).toNat 0) =
          some (((.ofNat n : UInt8) >>> 4) &&& 0xF) ∧
        hexValue (HEX_DIGITS.getD ((.ofNat n : UInt8) &&& 0xF).toNat 0) =
          some ((.ofNat n : UInt8) &&& 0xF) ∧
        (((.ofNat n : UInt8) >>> 4) &&& 0xF) <<< 4 ||| ((.ofNat n : UInt8) &&& 0xF) = .ofNat n := by
    decide +kernel
  intro b
  simpa only [UInt8.ofNat_toNat] using h b.toNat b.toNat_lt

theorem parseHexPairs_hex (bytes : Bytes) : parseHexPairs (bytes.flatMap hexPair) = some bytes := by
  induction bytes with
  | nil => rfl
  | cons b bytes ih =>
    obtain ⟨hhi, hlo, hb⟩ := hexValue_digit b
    simp only [List.flatMap_cons, hexPair, List.cons_append, List.nil_append, parseHexPairs, hhi,
      hlo, ih, Option.bind_eq_bind, Option.bind_some, hb]

theorem length_hexPairs (bytes : Bytes) : (bytes.flatMap hexPair).length = 2 * bytes.length := by
  induction bytes with
  | nil => rfl
  | cons b bytes ih =>
    rw [List.flatMap_cons, List.length_append, ih, List.length_cons]
    simp only [hexPair, List.length_cons, List.length_nil]
    omega

theorem length_toHex (id : ObjectId) : id.toHex.length = 64 := by
  rw [ObjectId.toHex, length_hexPairs, id.2]

theorem parseObjectId_toHex (id : ObjectId) : parseObjectId id.toHex = some id := by
  unfold parseObjectId
  rw [if_neg (not_not.mpr (length_toHex id)), ObjectId.toHex, parseHexPairs_hex]
  exact dif_pos id.2

theorem toHex_inj {id id' : ObjectId} (h : id.toHex = id'.toHex) : id = id' :=
  Option.some_inj.mp (by rw [← parseObjectId_toHex, h, parseObjectId_toHex])

/-! ## Objects on disk -/

/-- `std::to_string` of a size. -/
def decimal (n : Nat) : Bytes := (Nat.toDigits 10 n).map fun c => UInt8.ofNat c.toNat

/-- The header of an object: `"<type> <size>\0"`. -/
def objectHeader (type : ObjectType) (content : Bytes) : Bytes :=
  objectTypeName type ++ ascii " " ++ decimal content.length ++ [0]

def hashObject (type : ObjectType) (content : Bytes) : ObjectId :=
  ⟨Crypto.sha256 (objectHeader type content ++ content), Crypto.length_sha256Finish _⟩

inductive StoreError
  | notFound
  | corruptObject
  | malformedHeader
  | ioError
  deriving DecidableEq, Repr

/-- The bytes before the first `b` and the bytes after it. -/
def splitFirst (b : UInt8) : Bytes → Option (Bytes × Bytes)
  | [] => none
  | c :: bytes => if c = b then some ([], bytes)
    else (splitFirst b bytes).map fun (before, after) => (c :: before, after)

def isDigit (c : UInt8) : Bool := 48 ≤ c ∧ c ≤ 57

/-- `std::isspace` in the C locale. -/
def isSpace (c : UInt8) : Bool := c = 32 ∨ (9 ≤ c ∧ c ≤ 13)

/-- The value of a string of digits. -/
def digitsValue (digits : Bytes) : Nat := digits.foldl (fun n c => n * 10 + (c - 48).toNat) 0

/-- Whether a number starts with a minus sign, and the number after its sign. -/
def takeSign : Bytes → Bool × Bytes
  | 45 :: s => (true, s)
  | 43 :: s => (false, s)
  | s => (false, s)

/-- `std::stoull`: blanks, a sign, then as many digits as there are. `none` where it throws. -/
def stoull (s : Bytes) : Option UInt64 :=
  let (negative, s) := takeSign (s.dropWhile isSpace)
  let digits := s.takeWhile isDigit
  if digits = [] then none
  else if digitsValue digits < 2 ^ 64 then
    some (if negative then 0 - UInt64.ofNat (digitsValue digits)
      else UInt64.ofNat (digitsValue digits))
  else none

def typeOfName (name : Bytes) : Option ObjectType :=
  if name = ascii "blob" then some .blob
  else if name = ascii "tree" then some .tree
  else if name = ascii "commit" then some .commit
  else none

/-- The object that a file under the name `id` holds. -/
def decodeObject (id : ObjectId) (raw : Bytes) : Except StoreError (ObjectType × Bytes) :=
  match splitFirst 32 raw with
  | none => .error .malformedHeader
  | some (typeName, raw) =>
    match splitFirst 0 raw with
    | none => .error .malformedHeader
    | some (sizeStr, content) =>
      match typeOfName typeName with
      | none => .error .malformedHeader
      | some type =>
        match stoull sizeStr with
        | none => .error .malformedHeader
        | some claimedSize =>
          if claimedSize.toNat ≠ content.length then .error .malformedHeader
          else if hashObject type content ≠ id then .error .corruptObject
          else .ok (type, content)

/-- The files under `objects/`, by the id that names their path. -/
structure ObjectStore where
  files : ObjectId → Option Bytes := fun _ => none

namespace ObjectStore

def writeObject (store : ObjectStore) (type : ObjectType) (content : Bytes) :
    ObjectId × ObjectStore :=
  let id := hashObject type content
  (id, ⟨Function.update store.files id (some (objectHeader type content ++ content))⟩)

def readObject (store : ObjectStore) (id : ObjectId) : Except StoreError (ObjectType × Bytes) :=
  match store.files id with
  | none => .error .notFound
  | some raw => decodeObject id raw

def «exists» (store : ObjectStore) (id : ObjectId) : Bool := (store.files id).isSome

end ObjectStore

/-! ## A written object reads back -/

theorem splitFirst_append {b : UInt8} {before : Bytes} (h : b ∉ before) (after : Bytes) :
    splitFirst b (before ++ b :: after) = some (before, after) := by
  induction before with
  | nil => exact if_pos rfl
  | cons c before ih =>
    have hne : c ≠ b := fun e => h (e ▸ List.mem_cons_self)
    rw [List.cons_append, splitFirst, if_neg hne, ih fun hb => h (List.mem_cons_of_mem _ hb)]
    rfl

theorem toNat_of_isDigit {c : Char} (h : c.isDigit = true) : 48 ≤ c.toNat ∧ c.toNat ≤ 57 := by
  simp only [Char.isDigit, Bool.and_eq_true, decide_eq_true_eq, UInt32.le_iff_toNat_le] at h
  exact h

theorem mem_decimal {n : Nat} {c : UInt8} (h : c ∈ decimal n) : isDigit c = true := by
  obtain ⟨ch, hch, rfl⟩ := List.mem_map.mp h
  obtain ⟨hl, hu⟩ := toNat_of_isDigit
    (Nat.isDigit_of_mem_toDigits (by decide) (by decide) hch)
  have e₄₈ : (48 : UInt8).toNat = 48 := rfl
  have e₅₇ : (57 : UInt8).toNat = 57 := rfl
  simp only [isDigit, decide_eq_true_eq, UInt8.le_iff_toNat_le, UInt8.toNat_ofNat', e₄₈, e₅₇]
  omega

theorem digitsValue_digits (l : List Char) (hl : ∀ c ∈ l, c.isDigit = true) (k : Nat) :
    (l.map fun c => UInt8.ofNat c.toNat).foldl (fun n c => n * 10 + (c - 48).toNat) k =
      Nat.ofDigitChars 10 l k := by
  induction l generalizing k with
  | nil => rfl
  | cons c l ih =>
    obtain ⟨hlo, hhi⟩ := toNat_of_isDigit (hl c List.mem_cons_self)
    have e₄₈ : (48 : UInt8).toNat = 48 := rfl
    have e₀ : '0'.toNat = 48 := rfl
    have hsub : (UInt8.ofNat c.toNat - 48).toNat = c.toNat - '0'.toNat := by
      rw [UInt8.toNat_sub, UInt8.toNat_ofNat', e₄₈, e₀]
      omega
    rw [List.map_cons, List.foldl_cons, ih fun c' hc' => hl c' (List.mem_cons_of_mem _ hc'), hsub,
      Nat.mul_comm]
    rfl

theorem digitsValue_decimal (n : Nat) : digitsValue (decimal n) = n :=
  (digitsValue_digits _ (fun _ hc =>
    Nat.isDigit_of_mem_toDigits (by decide) (by decide) hc) 0).trans Nat.ofDigitChars_ten_toDigits

theorem decimal_ne_nil (n : Nat) : decimal n ≠ [] := fun h =>
  Nat.toDigits_ne_nil (List.map_eq_nil_iff.mp h)

/-- A digit starts no blank and no sign. -/
theorem plain_of_isDigit {c : UInt8} (h : isDigit c = true) :
    isSpace c = false ∧ c ≠ 45 ∧ c ≠ 43 := by
  simp only [isDigit, decide_eq_true_eq, UInt8.le_iff_toNat_le] at h
  obtain ⟨hl, -⟩ := h
  have e₄₈ : (48 : UInt8).toNat = 48 := rfl
  have hne : ∀ k : UInt8, k.toNat < 48 → c ≠ k := by
    rintro k hk rfl
    omega
  refine ⟨?_, hne 45 (by decide), hne 43 (by decide)⟩
  simp only [isSpace, decide_eq_false_iff_not, not_or, not_and, UInt8.le_iff_toNat_le]
  exact ⟨hne 32 (by decide), fun _ h13 => by
    have e₁₃ : (13 : UInt8).toNat = 13 := rfl
    omega⟩

theorem stoull_decimal {n : Nat} (h : n < 2 ^ 64) : stoull (decimal n) = some (UInt64.ofNat n) := by
  have hdigits : ∀ c ∈ decimal n, isDigit c = true := fun c hc => mem_decimal hc
  have htake : (decimal n).takeWhile isDigit = decimal n := List.takeWhile_eq_self_iff.mpr hdigits
  have hne := decimal_ne_nil n
  have hv := digitsValue_decimal n
  generalize decimal n = l at *
  cases l with
  | nil => exact absurd rfl hne
  | cons c l =>
    have hc : isDigit c = true := hdigits c List.mem_cons_self
    obtain ⟨hspace, h₄₅, h₄₃⟩ := plain_of_isDigit hc
    have hsign : takeSign (c :: l) = (false, c :: l) := by
      unfold takeSign
      split
      · rename_i e
        exact absurd (List.cons_eq_cons.mp e).1 h₄₅
      · rename_i e
        exact absurd (List.cons_eq_cons.mp e).1 h₄₃
      · rfl
    simp only [stoull, List.dropWhile_cons_of_neg (show ¬ isSpace c = true by simp [hspace]),
      hsign, htake, if_neg hne, hv]
    rw [if_pos h]
    rfl

theorem readObject_of_file {store : ObjectStore} {id : ObjectId} {type : ObjectType}
    {content : Bytes} (hl : content.length < 2 ^ 64) (hid : hashObject type content = id)
    (hf : store.files id = some (objectHeader type content ++ content)) :
    store.readObject id = .ok (type, content) := by
  have hspace : (32 : UInt8) ∉ objectTypeName type := by cases type <;> decide
  have hname : typeOfName (objectTypeName type) = some type := by cases type <;> decide
  have hnul : (0 : UInt8) ∉ decimal content.length := fun h => absurd (mem_decimal h) (by decide)
  have hraw : objectHeader type content ++ content =
      objectTypeName type ++ 32 :: (decimal content.length ++ 0 :: content) := by
    simp [objectHeader, ascii]
  simp only [ObjectStore.readObject, hf, hraw, decodeObject, splitFirst_append hspace,
    splitFirst_append hnul, hname, stoull_decimal hl, UInt64.toNat_ofNat_of_lt' hl, ne_eq,
    not_true_eq_false, if_false, hid]

/-! ## Trees and commits -/

structure TreeEntry where
  name : Bytes
  id : ObjectId
  isDirectory : Bool
  deriving DecidableEq

structure Commit where
  tree : ObjectId
  parents : List ObjectId
  author : Bytes
  message : Bytes
  deriving DecidableEq

/-- `appendU32` of a size, which is cast to `uint32_t`. -/
def sizeU32 (n : Nat) : Bytes := u32Bytes (UInt32.ofNat n)

/-- What `appendBytes` appends. -/
def stringBytes (s : Bytes) : Bytes := sizeU32 s.length ++ s

def entryBytes (entry : TreeEntry) : Bytes :=
  stringBytes entry.name ++ [if entry.isDirectory then 1 else 0] ++ entry.id.val

/-- The entries by name. -/
def sortEntries (entries : List TreeEntry) : List TreeEntry :=
  entries.insertionSort fun a b => a.name ≤ b.name

def serializeTree (entries : List TreeEntry) : Bytes :=
  let sorted := sortEntries entries
  sizeU32 sorted.length ++ sorted.flatMap entryBytes

/-- The next `n` bytes, and the rest. -/
def take (n : Nat) (bytes : Bytes) : Option (Bytes × Bytes) :=
  if bytes.length < n then none else some (bytes.take n, bytes.drop n)

def readBytes (bytes : Bytes) : Option (Bytes × Bytes) := do
  let (length, bytes) ← readU32 bytes
  take length.toNat bytes

def readObjectId (bytes : Bytes) : Option (ObjectId × Bytes) := do
  let (id, bytes) ← take 32 bytes
  if h : id.length = 32 then some (⟨id, h⟩, bytes) else none

/-- One round of the loop of `parseTree`. -/
def readEntry (bytes : Bytes) : Option (TreeEntry × Bytes) := do
  let (name, bytes) ← readBytes bytes
  let (isDirectory, bytes) ← take 1 bytes
  let (id, bytes) ← readObjectId bytes
  some (⟨name, id, isDirectory.headD 0 != 0⟩, bytes)

/-- `n` times `read`, one after the other. -/
def readMany {α : Type} (read : Bytes → Option (α × Bytes)) : Nat → Bytes → Option (List α × Bytes)
  | 0, bytes => some ([], bytes)
  | n + 1, bytes => do
    let (a, bytes) ← read bytes
    let (as, bytes) ← readMany read n bytes
    some (a :: as, bytes)

def parseTree (content : Bytes) : Option (List TreeEntry) := do
  let (count, bytes) ← readU32 content
  let (entries, bytes) ← readMany readEntry count.toNat bytes
  if bytes = [] then some entries else none

def serializeCommit (commit : Commit) : Bytes :=
  commit.tree.val ++ sizeU32 commit.parents.length ++ commit.parents.flatMap (·.val) ++
    stringBytes commit.author ++ stringBytes commit.message

def parseCommit (content : Bytes) : Option Commit := do
  let (tree, bytes) ← readObjectId content
  let (parentCount, bytes) ← readU32 bytes
  let (parents, bytes) ← readMany readObjectId parentCount.toNat bytes
  let (author, bytes) ← readBytes bytes
  let (message, bytes) ← readBytes bytes
  if bytes = [] then some ⟨tree, parents, author, message⟩ else none

/-! ### What is written reads back -/

theorem take_append {n : Nat} {bs : Bytes} (h : bs.length = n) (rest : Bytes) :
    take n (bs ++ rest) = some (bs, rest) := by
  subst h
  rw [take, if_neg (by simp), List.take_left, List.drop_left]

theorem readU32_sizeU32 {n : Nat} (h : n < 2 ^ 32) (rest : Bytes) :
    ∃ v : UInt32, v.toNat = n ∧ readU32 (sizeU32 n ++ rest) = some (v, rest) :=
  ⟨_, UInt32.toNat_ofNat_of_lt' h, readU32_u32Bytes _ rest⟩

theorem readBytes_stringBytes {s : Bytes} (h : s.length < 2 ^ 32) (rest : Bytes) :
    readBytes (stringBytes s ++ rest) = some (s, rest) := by
  obtain ⟨v, hv, hr⟩ := readU32_sizeU32 h (s ++ rest)
  rw [readBytes, stringBytes, List.append_assoc, hr]
  simp only [Option.bind_eq_bind, Option.bind_some, hv]
  exact take_append rfl rest

theorem readObjectId_append (id : ObjectId) (rest : Bytes) :
    readObjectId (id.val ++ rest) = some (id, rest) := by
  rw [readObjectId, take_append id.2]
  exact dif_pos id.2

theorem readEntry_entryBytes {entry : TreeEntry} (h : entry.name.length < 2 ^ 32) (rest : Bytes) :
    readEntry (entryBytes entry ++ rest) = some (entry, rest) := by
  obtain ⟨name, id, isDirectory⟩ := entry
  simp only [readEntry, entryBytes, List.append_assoc, readBytes_stringBytes h,
    Option.bind_eq_bind, Option.bind_some, @take_append 1 [_] rfl,
    readObjectId_append]
  cases isDirectory <;> rfl

theorem readMany_flatMap {α : Type} {read : Bytes → Option (α × Bytes)} {write : α → Bytes}
    {as : List α} (h : ∀ a ∈ as, ∀ rest, read (write a ++ rest) = some (a, rest)) (rest : Bytes) :
    readMany read as.length (as.flatMap write ++ rest) = some (as, rest) := by
  induction as with
  | nil => rfl
  | cons a as ih =>
    rw [List.length_cons, readMany, List.flatMap_cons, List.append_assoc,
      h a List.mem_cons_self]
    simp only [Option.bind_eq_bind, Option.bind_some,
      ih fun a' ha' => h a' (List.mem_cons_of_mem _ ha')]

/-- A tree within the widths of the format reads back with its entries by name. -/
theorem parseTree_serializeTree {entries : List TreeEntry} (hcount : entries.length < 2 ^ 32)
    (hnames : ∀ e ∈ entries, e.name.length < 2 ^ 32) :
    parseTree (serializeTree entries) = some (sortEntries entries) := by
  have hperm := List.perm_insertionSort (fun a b : TreeEntry => a.name ≤ b.name) entries
  obtain ⟨v, hv, hr⟩ := readU32_sizeU32 (hperm.length_eq.symm ▸ hcount)
    ((sortEntries entries).flatMap entryBytes)
  have hmany := @readMany_flatMap _ _ _ (sortEntries entries) (fun e he rest =>
    readEntry_entryBytes (hnames e (hperm.mem_iff.mp he)) rest) []
  rw [List.append_nil] at hmany
  unfold sortEntries at hr hmany
  simp only [parseTree, serializeTree, sortEntries, hr, Option.bind_eq_bind, Option.bind_some, hv,
    hmany, if_true]

/-- A commit within the widths of the format reads back. -/
theorem parseCommit_serializeCommit {commit : Commit} (hparents : commit.parents.length < 2 ^ 32)
    (hauthor : commit.author.length < 2 ^ 32) (hmessage : commit.message.length < 2 ^ 32) :
    parseCommit (serializeCommit commit) = some commit := by
  obtain ⟨v, hv, hr⟩ := readU32_sizeU32 hparents (commit.parents.flatMap (·.val) ++
    (stringBytes commit.author ++ (stringBytes commit.message ++ [])))
  have hmany := @readMany_flatMap _ _ _ commit.parents (fun id _ rest => readObjectId_append id rest)
    (stringBytes commit.author ++ (stringBytes commit.message ++ []))
  have hbytes : serializeCommit commit = commit.tree.val ++ (sizeU32 commit.parents.length ++
      (commit.parents.flatMap (·.val) ++
        (stringBytes commit.author ++ (stringBytes commit.message ++ [])))) := by
    simp only [serializeCommit, List.append_assoc, List.append_nil]
  simp only [parseCommit, hbytes, readObjectId_append, hr, hv, hmany,
    readBytes_stringBytes hauthor, readBytes_stringBytes hmessage, Option.bind_eq_bind,
    Option.bind_some, if_true]

/-! ### What is read fits the format -/

theorem length_take {n : Nat} {bytes bs rest : Bytes} (h : take n bytes = some (bs, rest)) :
    bs.length = n := by
  unfold take at h
  split at h
  · cases h
  · cases h
    rw [List.length_take]
    omega

theorem length_readBytes {bytes bs rest : Bytes} (h : readBytes bytes = some (bs, rest)) :
    bs.length < 2 ^ 32 := by
  obtain ⟨⟨length, bytes'⟩, _, h⟩ := Option.bind_eq_some_iff.mp h
  rw [length_take h]
  exact length.toNat_lt

theorem length_readEntry {bytes rest : Bytes} {entry : TreeEntry}
    (h : readEntry bytes = some (entry, rest)) : entry.name.length < 2 ^ 32 := by
  obtain ⟨⟨name, bytes₁⟩, hname, h⟩ := Option.bind_eq_some_iff.mp h
  obtain ⟨⟨isDirectory, bytes₂⟩, _, h⟩ := Option.bind_eq_some_iff.mp h
  obtain ⟨⟨id, bytes₃⟩, _, h⟩ := Option.bind_eq_some_iff.mp h
  cases h
  exact length_readBytes hname

theorem forall_readMany {α : Type} {read : Bytes → Option (α × Bytes)} {P : α → Prop}
    (hread : ∀ bytes a rest, read bytes = some (a, rest) → P a) {n : Nat} {bytes rest : Bytes}
    {as : List α} (h : readMany read n bytes = some (as, rest)) : ∀ a ∈ as, P a := by
  induction n generalizing bytes as with
  | zero =>
    cases h
    exact List.forall_mem_nil _
  | succ n ih =>
    obtain ⟨⟨a, bytes₁⟩, ha, h⟩ := Option.bind_eq_some_iff.mp h
    obtain ⟨⟨as, bytes₂⟩, has, h⟩ := Option.bind_eq_some_iff.mp h
    cases h
    exact List.forall_mem_cons.mpr ⟨hread _ _ _ ha, ih has⟩

/-- The names of a tree that parses are within the width of the format. -/
theorem length_parseTree {content : Bytes} {entries : List TreeEntry}
    (h : parseTree content = some entries) : ∀ e ∈ entries, e.name.length < 2 ^ 32 := by
  obtain ⟨⟨count, bytes⟩, _, h⟩ := Option.bind_eq_some_iff.mp h
  obtain ⟨⟨entries', bytes'⟩, hmany, h⟩ := Option.bind_eq_some_iff.mp h
  dsimp only at h
  split at h
  · cases h
    exact forall_readMany (fun _ _ _ => length_readEntry) hmany
  · cases h

end Oggit
end Techuila
