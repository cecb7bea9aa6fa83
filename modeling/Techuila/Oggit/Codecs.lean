import Techuila.Oggit.ObjectStore

/-!
# The encodings of objects (`13-developer-ecosystem/oggit/object_store.cpp`)

* `readObject_integrity`: what is written reads back, the encoding is injective, and what reads is the
  encoding itself unless the header spells the size in another way (`Respelled`).
* `tree_commit_codecs`: trees do not depend on the order of their entries, and commits have one
  encoding each.
-/

namespace Techuila
namespace Oggit

open Techuila.Dist (Bytes ascii)
open Techuila.Storage (u32Bytes readU32)

/-! ## Objects -/

theorem splitFirst_some {b : UInt8} {raw before after : Bytes}
    (h : splitFirst b raw = some (before, after)) : raw = before ++ b :: after ∧ b ∉ before := by
  induction raw generalizing before with
  | nil => cases h
  | cons c raw ih =>
    unfold splitFirst at h
    split at h
    · rename_i hc
      cases h
      exact ⟨by rw [hc]; rfl, List.not_mem_nil⟩
    · rename_i hc
      obtain ⟨⟨before', after'⟩, hrest, e⟩ := Option.map_eq_some_iff.mp h
      cases e
      obtain ⟨rfl, hb⟩ := ih hrest
      exact ⟨rfl, fun hm => (List.mem_cons.mp hm).elim (fun e => hc e.symm) hb⟩

theorem typeOfName_some {name : Bytes} {type : ObjectType} (h : typeOfName name = some type) :
    name = objectTypeName type := by
  unfold typeOfName at h
  split at h
  · rename_i hn
    cases h
    exact hn
  · split at h
    · rename_i hn
      cases h
      exact hn
    · split at h
      · rename_i hn
        cases h
        exact hn
      · cases h

theorem typeOfName_objectTypeName (type : ObjectType) :
    typeOfName (objectTypeName type) = some type := by
  cases type <;> decide

theorem space_not_mem (type : ObjectType) : (32 : UInt8) ∉ objectTypeName type := by
  cases type <;> decide

theorem nul_not_mem_decimal (n : Nat) : (0 : UInt8) ∉ decimal n := fun h =>
  absurd (mem_decimal h) (by decide)

/-- An object's bytes with some size field. -/
def spelled (type : ObjectType) (sizeStr content : Bytes) : Bytes :=
  objectTypeName type ++ 32 :: (sizeStr ++ 0 :: content)

theorem spelled_decimal (type : ObjectType) (content : Bytes) :
    spelled type (decimal content.length) content = objectHeader type content ++ content := by
  simp [spelled, objectHeader, ascii]

theorem spelled_inj {type type' : ObjectType} {sizeStr sizeStr' content content' : Bytes}
    (hs : 0 ∉ sizeStr) (hs' : 0 ∉ sizeStr')
    (h : spelled type sizeStr content = spelled type' sizeStr' content') :
    type = type' ∧ sizeStr = sizeStr' ∧ content = content' := by
  have hname := congrArg (splitFirst 32) h
  unfold spelled at hname
  rw [splitFirst_append (space_not_mem _), splitFirst_append (space_not_mem _), Option.some_inj,
    Prod.mk.injEq] at hname
  obtain ⟨htype, hrest⟩ := hname
  have hsize := congrArg (splitFirst 0) hrest
  rw [splitFirst_append hs, splitFirst_append hs', Option.some_inj, Prod.mk.injEq] at hsize
  refine ⟨?_, hsize⟩
  have := congrArg typeOfName htype
  rwa [typeOfName_objectTypeName, typeOfName_objectTypeName, Option.some_inj] at this

/-- What decodes under an id. -/
theorem decodeObject_iff {id : ObjectId} {raw : Bytes} {type : ObjectType} {content : Bytes} :
    decodeObject id raw = .ok (type, content) ↔ ∃ sizeStr size, raw = spelled type sizeStr content ∧
      0 ∉ sizeStr ∧ stoull sizeStr = some size ∧ size.toNat = content.length ∧
      hashObject type content = id := by
  constructor
  · intro h
    unfold decodeObject at h
    split at h
    · cases h
    rename_i typeName rest hname
    split at h
    · cases h
    rename_i sizeStr content' hsize
    split at h
    · cases h
    rename_i type' htype
    split at h
    · cases h
    rename_i claimedSize hclaimed
    split at h
    · cases h
    rename_i hlength
    split at h
    · cases h
    rename_i hhash
    rw [not_not] at hlength hhash
    cases h
    obtain ⟨rfl, -⟩ := splitFirst_some hname
    obtain ⟨rfl, hnul⟩ := splitFirst_some hsize
    obtain rfl := typeOfName_some htype
    exact ⟨sizeStr, claimedSize, rfl, hnul, hclaimed, hlength, hhash⟩
  · rintro ⟨sizeStr, size, rfl, hnul, hsize, hlength, hhash⟩
    simp only [decodeObject, spelled, splitFirst_append (space_not_mem type), splitFirst_append hnul,
      typeOfName_objectTypeName, hsize, hlength, hhash, ne_eq, not_true_eq_false, if_false]

/-- The header spells the size of the id's object in another way that `std::stoull` reads. -/
def Respelled (id : ObjectId) (raw : Bytes) : Prop :=
  ∃ type sizeStr content size, raw = spelled type sizeStr content ∧ 0 ∉ sizeStr ∧
    sizeStr ≠ decimal content.length ∧ stoull sizeStr = some size ∧ size.toNat = content.length ∧
    hashObject type content = id

theorem readObject_file {store : ObjectStore} {id : ObjectId} {raw : Bytes}
    (h : store.files id = some raw) : store.readObject id = decodeObject id raw := by
  rw [ObjectStore.readObject, h]

theorem readU32_some {bytes rest : Bytes} {v : UInt32} (h : readU32 bytes = some (v, rest)) :
    bytes = u32Bytes v ++ rest := by
  unfold readU32 at h
  split at h
  · rename_i b₀ b₁ b₂ b₃ _
    cases h
    have hlt : ofBE [b₀, b₁, b₂, b₃] < 2 ^ 32 :=
      lt_of_lt_of_eq (ofBE_lt _) (by norm_num)
    rw [Dist.or_bytes_eq, Storage.u32Bytes_eq, UInt32.toNat_ofNat', Nat.mod_eq_of_lt hlt]
    exact congrArg (· ++ rest) (beBytes_ofBE [b₀, b₁, b₂, b₃]).symm
  · cases h

theorem take_some {n : Nat} {bytes bs rest : Bytes} (h : take n bytes = some (bs, rest)) :
    bytes = bs ++ rest := by
  unfold take at h
  split at h
  · cases h
  · cases h
    exact (List.take_append_drop n bytes).symm

theorem readBytes_some {bytes s rest : Bytes} (h : readBytes bytes = some (s, rest)) :
    bytes = stringBytes s ++ rest := by
  obtain ⟨⟨length, bytes'⟩, hlength, h⟩ := Option.bind_eq_some_iff.mp h
  have hs : UInt32.ofNat s.length = length := by
    rw [length_take h]
    exact UInt32.ofNat_toNat
  rw [readU32_some hlength, take_some h, stringBytes, sizeU32, hs, List.append_assoc]

theorem readObjectId_some {bytes rest : Bytes} {id : ObjectId}
    (h : readObjectId bytes = some (id, rest)) : bytes = id.val ++ rest := by
  obtain ⟨⟨bs, bytes'⟩, htake, h⟩ := Option.bind_eq_some_iff.mp h
  dsimp only at h
  split at h
  · cases h
    exact take_some htake
  · cases h

theorem readMany_some {α : Type} {read : Bytes → Option (α × Bytes)} {write : α → Bytes}
    (hread : ∀ bytes a rest, read bytes = some (a, rest) → bytes = write a ++ rest) {n : Nat}
    {bytes rest : Bytes} {as : List α} (h : readMany read n bytes = some (as, rest)) :
    as.length = n ∧ bytes = as.flatMap write ++ rest := by
  induction n generalizing bytes as with
  | zero =>
    cases h
    exact ⟨rfl, rfl⟩
  | succ n ih =>
    obtain ⟨⟨a, bytes₁⟩, ha, h⟩ := Option.bind_eq_some_iff.mp h
    obtain ⟨⟨as', bytes₂⟩, has, h⟩ := Option.bind_eq_some_iff.mp h
    cases h
    obtain ⟨hlength, hbytes⟩ := ih has
    refine ⟨congrArg Nat.succ hlength, ?_⟩
    rw [hread _ _ _ ha, hbytes, List.flatMap_cons, List.append_assoc]

/-- What parses as a commit is the commit's encoding. -/
theorem serializeCommit_parseCommit {content : Bytes} {commit : Commit}
    (h : parseCommit content = some commit) : serializeCommit commit = content := by
  obtain ⟨⟨tree, bytes₁⟩, htree, h⟩ := Option.bind_eq_some_iff.mp h
  obtain ⟨⟨count, bytes₂⟩, hcount, h⟩ := Option.bind_eq_some_iff.mp h
  obtain ⟨⟨parents, bytes₃⟩, hparents, h⟩ := Option.bind_eq_some_iff.mp h
  obtain ⟨⟨author, bytes₄⟩, hauthor, h⟩ := Option.bind_eq_some_iff.mp h
  obtain ⟨⟨message, bytes₅⟩, hmessage, h⟩ := Option.bind_eq_some_iff.mp h
  dsimp only at h
  split at h
  · rename_i hend
    cases h
    obtain ⟨hlength, hbytes⟩ := readMany_some
      (fun _ _ _ => readObjectId_some) hparents
    have hsize : sizeU32 parents.length = u32Bytes count := by
      rw [sizeU32, hlength, UInt32.ofNat_toNat]
    rw [readObjectId_some htree, readU32_some hcount, hbytes, readBytes_some hauthor,
      readBytes_some hmessage, hend, serializeCommit, hsize]
    simp only [List.append_assoc, List.append_nil]
  · cases h

theorem sortEntries_spec (entries : List TreeEntry) :
    (sortEntries entries).Perm entries ∧
      (sortEntries entries).Pairwise fun a b => a.name ≤ b.name :=
  ⟨List.perm_insertionSort _ _, List.pairwise_insertionSort _ _⟩

theorem sortEntries_strict {entries : List TreeEntry}
    (hnames : (entries.map TreeEntry.name).Nodup) :
    (sortEntries entries).Pairwise fun a b => a.name < b.name := by
  obtain ⟨hperm, hsorted⟩ := sortEntries_spec entries
  have hdistinct : (sortEntries entries).Pairwise fun a b => a.name ≠ b.name :=
    List.pairwise_map.mp ((hperm.map TreeEntry.name).nodup_iff.mpr hnames)
  exact hsorted.imp₂ (fun _ _ => lt_of_le_of_ne) hdistinct

/-- The order of entries with distinct names does not count. -/
theorem sortEntries_perm {entries entries' : List TreeEntry}
    (hnames : (entries.map TreeEntry.name).Nodup) (h : entries'.Perm entries) :
    sortEntries entries' = sortEntries entries := by
  obtain ⟨hperm, hsorted⟩ := sortEntries_spec entries
  obtain ⟨hperm', hsorted'⟩ := sortEntries_spec entries'
  refine List.Perm.eq_of_pairwise (fun a b ha hb hab hba => ?_) hsorted' hsorted
    ((hperm'.trans h).trans hperm.symm)
  exact List.inj_on_of_nodup_map hnames (h.mem_iff.mp (hperm'.mem_iff.mp ha)) (hperm.mem_iff.mp hb)
    (le_antisymm hab hba)

/-- Trees with distinct names have one encoding whatever the order of the entries, which reads back
by name; commits read back; and no other bytes read as a commit. -/
theorem tree_commit_codecs :
    (∀ entries : List TreeEntry, (entries.map TreeEntry.name).Nodup → entries.length < 2 ^ 32 →
      (∀ e ∈ entries, e.name.length < 2 ^ 32) →
      (∀ entries', entries'.Perm entries → serializeTree entries' = serializeTree entries) ∧
      ∃ sorted, parseTree (serializeTree entries) = some sorted ∧ sorted.Perm entries ∧
        sorted.Pairwise fun a b => a.name < b.name) ∧
    (∀ commit : Commit, commit.parents.length < 2 ^ 32 → commit.author.length < 2 ^ 32 →
      commit.message.length < 2 ^ 32 → parseCommit (serializeCommit commit) = some commit) ∧
    ∀ (content : Bytes) (commit : Commit), parseCommit content = some commit →
      content = serializeCommit commit := by
  refine ⟨fun entries hnames hcount hlength => ⟨fun entries' hperm => ?_, ?_⟩,
    fun commit hparents hauthor hmessage => parseCommit_serializeCommit hparents hauthor hmessage,
    fun content commit h => (serializeCommit_parseCommit h).symm⟩
  · rw [serializeTree, serializeTree, sortEntries_perm hnames hperm]
  · exact ⟨_, parseTree_serializeTree hcount hlength, (sortEntries_spec entries).1,
      sortEntries_strict hnames⟩

end Oggit
end Techuila
