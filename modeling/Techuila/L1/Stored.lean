import Techuila.L1.Chain

/-!
# What the storage of a chain holds

* `blockKey_inj`: the keys of blocks are distinct, and none is one of the other three keys.
* `readSnapshot_encode`: a snapshot of fewer than 2³² accounts reads back.
* `StoredChain`: linked blocks up to a height, with height and tip, and the snapshot of a ledger with
  the state root of the last block. The puts of the genesis block and of the next block establish it
  (`StoredChain.genesis`, `StoredChain.next`); opening reads it back (`open_stored`).
-/

namespace Techuila
namespace L1

open Techuila.Dist (Bytes Encoder Decoder ascii)
open Storage (KVStore Data Op)

/-! ## Keys -/

theorem digit_byte {c : Char} (h : c.isDigit = true) :
    Char.ofNat (UInt8.ofNat c.toNat).toNat = c := by
  obtain ⟨-, hle⟩ := Char.isDigit_iff_toNat.mp h
  have hle : c.toNat ≤ 57 := hle
  rw [UInt8.toNat_ofNat', Nat.mod_eq_of_lt (by omega), Char.ofNat_toNat]

theorem blockKey_eq (height : UInt64) : blockKey height =
    [98, 108, 111, 99, 107, 58] ++
      (Nat.toDigits 10 height.toNat).map fun c => UInt8.ofNat c.toNat := by
  have hstem : ascii "block:" = [98, 108, 111, 99, 107, 58] := by decide
  rw [← hstem, blockKey, ascii, String.toList_append, List.map_append]
  congr 2
  exact String.toList_ofList

theorem blockKey_inj {a b : UInt64} (h : blockKey a = blockKey b) : a = b := by
  rw [blockKey_eq, blockKey_eq] at h
  have hback : ∀ n : Nat, ((Nat.toDigits 10 n).map fun c => UInt8.ofNat c.toNat).map
      (fun b => Char.ofNat b.toNat) = Nat.toDigits 10 n := by
    intro n
    rw [List.map_map]
    refine (List.map_congr_left fun c hc => ?_).trans (List.map_id _)
    exact digit_byte (Nat.isDigit_of_mem_toDigits (by decide) (by decide) hc)
  have hd := congrArg (List.map fun b : UInt8 => Char.ofNat b.toNat) (List.append_cancel_left h)
  rw [hback, hback] at hd
  have hn := congrArg (Nat.ofDigitChars 10 · 0) hd
  simp only [Nat.ofDigitChars_ten_toDigits] at hn
  exact UInt64.toNat_inj.mp hn

theorem blockKey_ne_of_head {key : Bytes} (h : key.head? ≠ some 98) (height : UInt64) :
    blockKey height ≠ key := by
  rintro rfl
  rw [blockKey_eq] at h
  exact h rfl

theorem blockKey_ne_height (height : UInt64) : blockKey height ≠ heightKey :=
  blockKey_ne_of_head (by decide) height

theorem blockKey_ne_tip (height : UInt64) : blockKey height ≠ tipKey :=
  blockKey_ne_of_head (by decide) height

theorem blockKey_ne_snapshot (height : UInt64) : blockKey height ≠ snapshotKey :=
  blockKey_ne_of_head (by decide) height

theorem heightKey_ne_tip : heightKey ≠ tipKey := by decide
theorem heightKey_ne_snapshot : heightKey ≠ snapshotKey := by decide
theorem tipKey_ne_snapshot : tipKey ≠ snapshotKey := by decide

/-! ## Snapshots -/

/-- The bytes of a snapshot entry. -/
def entryBytes (e : Address × AccountState) : Bytes :=
  beBytes 4 e.1.val.length ++ (e.1.val ++ (beBytes 8 e.2.balance.toNat ++
    beBytes 8 e.2.nonce.toNat))

theorem length_entryBytes (e : Address × AccountState) : (entryBytes e).length = 40 := by
  simp only [entryBytes, List.length_append, length_beBytes, e.1.2]

theorem foldl_writeEntries (es : List (Address × AccountState)) (enc : Encoder) :
    (es.foldl (fun encoder e =>
      ((encoder.writeBytes e.1.val).writeU64 e.2.balance).writeU64 e.2.nonce) enc).buffer =
      enc.buffer ++ es.flatMap entryBytes := by
  induction es generalizing enc with
  | nil => simp
  | cons e es ih =>
    rw [List.foldl_cons, ih, Dist.writeU64_buffer, Dist.writeU64_buffer, Dist.writeBytes_buffer,
      List.flatMap_cons, entryBytes]
    simp only [List.append_assoc]

theorem encodeSnapshot_eq (ledger : Ledger) : encodeSnapshot ledger =
    beBytes 4 (UInt32.ofNat ledger.snapshot.length).toNat ++
      ledger.snapshot.flatMap entryBytes := by
  rw [encodeSnapshot, Encoder.data, foldl_writeEntries, Dist.writeU32_buffer]
  rfl

theorem length_encodeSnapshot (ledger : Ledger) :
    (encodeSnapshot ledger).length = 4 + 40 * ledger.snapshot.length := by
  have hlen : ∀ es : List (Address × AccountState),
      (es.flatMap entryBytes).length = 40 * es.length := by
    intro es
    induction es with
    | nil => rfl
    | cons e es ih =>
      rw [List.flatMap_cons, List.length_append, ih, length_entryBytes, List.length_cons]
      omega
  rw [encodeSnapshot_eq, List.length_append, length_beBytes, hlen]

theorem readEntries_at (es : List (Address × AccountState)) {pre : Bytes} {dec : Decoder}
    (h : Decoder.At pre (es.flatMap entryBytes) dec) : readEntries es.length dec = es := by
  induction es generalizing pre dec with
  | nil => rfl
  | cons e es ih =>
    have hl : e.1.val.length < 2 ^ 32 := by rw [e.1.2]; decide
    rw [List.flatMap_cons, entryBytes] at h
    simp only [List.append_assoc] at h
    obtain ⟨r₁, h₁⟩ := Decoder.readBytes_at hl h
    obtain ⟨r₂, h₂⟩ := Decoder.readU64_at h₁
    obtain ⟨r₃, h₃⟩ := Decoder.readU64_at h₂
    rw [List.length_cons, readEntries,
      show dec.readBytes = (some e.1.val, dec.readBytes.2) from Prod.ext r₁ rfl]
    dsimp only
    rw [show dec.readBytes.2.readU64 = (some e.2.balance, dec.readBytes.2.readU64.2) from
      Prod.ext r₂ rfl]
    dsimp only
    rw [show dec.readBytes.2.readU64.2.readU64 =
      (some e.2.nonce, dec.readBytes.2.readU64.2.readU64.2) from Prod.ext r₃ rfl]
    dsimp only
    rw [FixedBytes.ofVector_val, ih h₃]

theorem readSnapshot_encode {ledger : Ledger} (h : ledger.snapshot.length < 2 ^ 32) :
    readSnapshot (encodeSnapshot ledger) = ledger.snapshot := by
  have hn : (UInt32.ofNat ledger.snapshot.length).toNat = ledger.snapshot.length := by
    rw [UInt32.toNat_ofNat']
    exact Nat.mod_eq_of_lt h
  have hstart := Decoder.at_start (encodeSnapshot ledger)
  rw [encodeSnapshot_eq] at hstart ⊢
  obtain ⟨r, h'⟩ := Decoder.readU32_at hstart
  rw [readSnapshot, show Decoder.readU32 _ = (some _, _) from Prod.ext r rfl]
  exact (congrArg (readEntries · _) hn).trans (readEntries_at _ h')

/-! ## What is stored -/

/-- Blocks `0` to `height` can be read, and height and tip are those of the last one. -/
structure StoredBlocks (data : Data) (height : UInt64) (blocks : Nat → Block) : Prop where
  block : ∀ i ≤ height.toNat, data (blockKey (.ofNat i)) = some (serializeBlock (blocks i))
  count : ∀ i ≤ height.toNat, (blocks i).transactions.length < 2 ^ 32
  height_eq : data heightKey = some (({} : Encoder).writeU64 height).data
  tip_eq : data tipKey = some (blockHash (blocks height.toNat).header).val

/-- The snapshot is the one of a ledger; the empty ledger may have none. -/
def StoredLedger (data : Data) (ledger : Ledger) : Prop :=
  (data snapshotKey = some (encodeSnapshot ledger) ∧ ledger.snapshot.length < 2 ^ 32) ∨
    (data snapshotKey = none ∧ ledger = ⟨.empty⟩)

/-- Every record of these puts is shorter than 2³² bytes. -/
def Fits (puts : List Put) : Prop := ∀ p ∈ puts, (Op.put p.1 p.2).encode.length < 2 ^ 32

instance decidableFits (puts : List Put) : Decidable (Fits puts) :=
  inferInstanceAs (Decidable (∀ p ∈ puts, _))

theorem Fits.value {puts : List Put} (h : Fits puts) {key value : Bytes}
    (hp : (key, value) ∈ puts) : 9 + key.length + value.length < 2 ^ 32 := by
  have hlen : (Storage.encodePut key value).length < 2 ^ 32 := h (key, value) hp
  rwa [Storage.length_encodePut] at hlen

/-- The map after a put. -/
def putData (data : Data) (p : Put) : Data := Function.update data p.1 (some p.2)

theorem putData_of_ne {key : Bytes} {p : Put} (h : key ≠ p.1) (data : Data) :
    putData data p key = data key := Function.update_of_ne h _ _

theorem data_putAll (kv : KVStore) (puts : List Put) :
    (kv.putAll puts).data = puts.foldl putData kv.data := by
  induction puts generalizing kv with
  | nil => rfl
  | cons p puts ih => exact ih _

/-- The puts of a block, without its snapshot. -/
def blockPuts (block : Block) : List Put :=
  [persistBlock block, (heightKey, (({} : Encoder).writeU64 block.header.height).data),
    (tipKey, (blockHash block.header).val)]

theorem blockPuts_block (data : Data) (block : Block) (height : UInt64) :
    (blockPuts block).foldl putData data (blockKey height) =
      if height = block.header.height then some (serializeBlock block)
      else data (blockKey height) := by
  simp only [blockPuts, persistBlock, List.foldl_cons, List.foldl_nil, putData,
    Function.update_of_ne (blockKey_ne_tip height), Function.update_of_ne (blockKey_ne_height height)]
  by_cases h : height = block.header.height
  · rw [if_pos h, h, Function.update_self]
  · rw [if_neg h, Function.update_of_ne fun h' => h (blockKey_inj h')]

theorem blockPuts_snapshot (data : Data) (block : Block) :
    (blockPuts block).foldl putData data snapshotKey = data snapshotKey := by
  simp only [blockPuts, persistBlock, List.foldl_cons, List.foldl_nil, putData,
    Function.update_of_ne tipKey_ne_snapshot.symm, Function.update_of_ne heightKey_ne_snapshot.symm,
    Function.update_of_ne (blockKey_ne_snapshot _).symm]

/-- The puts of a block on top of the earlier ones. -/
theorem StoredBlocks.persist {data : Data} {blocks : Nat → Block} {block : Block}
    (hb : ∀ i < block.header.height.toNat,
      data (blockKey (.ofNat i)) = some (serializeBlock (blocks i)) ∧
        (blocks i).transactions.length < 2 ^ 32)
    (hf : Fits (blockPuts block)) :
    StoredBlocks ((blockPuts block).foldl putData data) block.header.height
      (Function.update blocks block.header.height.toNat block) where
  block i hi := by
    rw [blockPuts_block]
    rcases Nat.eq_or_lt_of_le hi with rfl | hi
    · rw [if_pos (UInt64.ofNat_toNat), Function.update_self]
    · have hne : UInt64.ofNat i ≠ block.header.height := by
        intro h
        have h' := congrArg UInt64.toNat h
        have := block.header.height.toNat_lt
        rw [UInt64.toNat_ofNat', Nat.mod_eq_of_lt (by omega)] at h'
        omega
      rw [if_neg hne, Function.update_of_ne hi.ne, (hb i hi).1]
  count i hi := by
    rcases Nat.eq_or_lt_of_le hi with rfl | hi
    · have hmem : (blockKey block.header.height, serializeBlock block) ∈ blockPuts block :=
        List.mem_cons_self
      have := hf.value hmem
      rw [length_serializeBlock] at this
      rw [Function.update_self]
      omega
    · rw [Function.update_of_ne hi.ne]
      exact (hb i hi).2
  height_eq := by
    simp only [blockPuts, List.foldl_cons, List.foldl_nil, putData,
      Function.update_of_ne heightKey_ne_tip, Function.update_self]
  tip_eq := by
    simp only [blockPuts, List.foldl_cons, List.foldl_nil, putData, Function.update_self]

/-- The put of the snapshot leaves the blocks alone. -/
theorem StoredBlocks.snapshot {data : Data} {height : UInt64} {blocks : Nat → Block}
    (h : StoredBlocks data height blocks) (bytes : Bytes) :
    StoredBlocks (putData data (snapshotKey, bytes)) height blocks where
  block i hi := by
    rw [putData, Function.update_of_ne (blockKey_ne_snapshot _), h.block i hi]
  count := h.count
  height_eq := by rw [putData, Function.update_of_ne heightKey_ne_snapshot, h.height_eq]
  tip_eq := by rw [putData, Function.update_of_ne tipKey_ne_snapshot, h.tip_eq]

theorem StoredLedger.persist (data : Data) {ledger : Ledger}
    (hf : Fits [(snapshotKey, encodeSnapshot ledger)]) :
    StoredLedger (putData data (snapshotKey, encodeSnapshot ledger)) ledger := by
  refine .inl ⟨Function.update_self .., ?_⟩
  have := hf.value List.mem_cons_self
  rw [length_encodeSnapshot] at this
  omega

theorem StoredLedger.of_eq {data data' : Data} {ledger : Ledger} (h : StoredLedger data ledger)
    (he : data' snapshotKey = data snapshotKey) : StoredLedger data' ledger := by
  rw [StoredLedger, he]
  exact h

/-! ## Stored chains -/

/-- Linked blocks, and a ledger with the state root of the last one. -/
structure StoredChain (data : Data) (height : UInt64) (blocks : Nat → Block) (ledger : Ledger) :
    Prop extends StoredBlocks data height blocks where
  ledger_eq : StoredLedger data ledger
  linked : ∀ i < height.toNat,
    (blocks (i + 1)).header.previousHash = blockHash (blocks i).header
  root : ledger.computeStateRoot = (blocks height.toNat).header.stateRoot

theorem height_succ (h : UInt64) : (h + 1).toNat = 0 ∨ (h + 1).toNat = h.toNat + 1 := by
  have := h.toNat_lt
  rw [UInt64.toNat_add, UInt64.toNat_one]
  omega

section
variable {data : Data} {height : UInt64} {blocks : Nat → Block} {ledger : Ledger}

/-- A last block on top of linked ones. -/
theorem StoredBlocks.chain {block : Block}
    (hs : StoredBlocks data block.header.height
      (Function.update blocks block.header.height.toNat block)) (hl : StoredLedger data ledger)
    (hlinked : ∀ i, i + 1 < block.header.height.toNat →
      (blocks (i + 1)).header.previousHash = blockHash (blocks i).header)
    (hprev : ∀ i, i + 1 = block.header.height.toNat →
      block.header.previousHash = blockHash (blocks i).header)
    (hroot : ledger.computeStateRoot = block.header.stateRoot) :
    StoredChain data block.header.height (Function.update blocks block.header.height.toNat block)
      ledger where
  toStoredBlocks := hs
  ledger_eq := hl
  linked i hi := by
    rw [Function.update_of_ne hi.ne]
    by_cases h : i + 1 = block.header.height.toNat
    · rw [h, Function.update_self]
      exact hprev i h
    · rw [Function.update_of_ne h]
      exact hlinked i (by omega)
  root := by rw [Function.update_self, hroot]

/-- The block on top of a stored chain, with a snapshot that goes with it. -/
theorem StoredChain.next {data' : Data} {ledger' : Ledger} {block : Block}
    (h : StoredChain data height blocks ledger) (hh : block.header.height = height + 1)
    (hp : block.header.previousHash = blockHash (blocks height.toNat).header)
    (hroot : ledger'.computeStateRoot = block.header.stateRoot)
    (hs : (∀ i < block.header.height.toNat,
        data (blockKey (.ofNat i)) = some (serializeBlock (blocks i)) ∧
          (blocks i).transactions.length < 2 ^ 32) →
      StoredBlocks data' block.header.height
        (Function.update blocks block.header.height.toNat block))
    (hl : StoredLedger data' ledger') :
    StoredChain data' (height + 1) (Function.update blocks (height + 1).toNat block) ledger' := by
  have hn := height_succ height
  rw [← hh] at hn ⊢
  refine StoredBlocks.chain (hs fun i hi => ?_) hl (fun i hi => ?_) (fun i hi => ?_) hroot
  · have hle : i ≤ height.toNat := by omega
    exact ⟨h.block i hle, h.count i hle⟩
  · exact h.linked i (by omega)
  · rw [hp, show i = height.toNat by omega]

end

theorem fits_genesisPuts : Fits Chain.genesisPuts := by decide +kernel

theorem Fits.of_append {puts puts' : List Put} (h : Fits (puts ++ puts')) :
    Fits puts ∧ Fits puts' :=
  ⟨fun p hp => h p (List.mem_append_left _ hp), fun p hp => h p (List.mem_append_right _ hp)⟩

theorem foldl_persist (data : Data) (block : Block) (ledger : Ledger) :
    (blockPuts block ++ [(snapshotKey, encodeSnapshot ledger)]).foldl putData data =
      putData ((blockPuts block).foldl putData data) (snapshotKey, encodeSnapshot ledger) := by
  rw [List.foldl_append]
  rfl

theorem Chain.genesisPuts_eq :
    genesisPuts = blockPuts L1.genesis ++ [(snapshotKey, encodeSnapshot {})] := rfl

theorem Chain.produceBlockPuts_eq (chain : Chain) : chain.produceBlockPuts =
    blockPuts chain.nextBlock ++ [(snapshotKey, encodeSnapshot chain.ledger)] := rfl

/-- All puts of the genesis block, on any store. -/
theorem StoredChain.genesis (data : Data) :
    StoredChain (Chain.genesisPuts.foldl putData data) 0 (fun _ => L1.genesis) {} := by
  have hf := fits_genesisPuts
  rw [Chain.genesisPuts_eq] at hf ⊢
  rw [foldl_persist]
  have hb := @StoredBlocks.persist data (fun _ => L1.genesis) L1.genesis
    (fun i hi => absurd hi (Nat.not_lt_zero i)) hf.of_append.1
  have h := (hb.snapshot _).chain (StoredLedger.persist _ hf.of_append.2)
    (fun i hi => absurd hi (Nat.not_lt_zero _)) (fun i hi => absurd hi (Nat.succ_ne_zero i)) rfl
  rwa [Function.update_eq_self] at h

/-- All puts of the block that is produced next. -/
theorem StoredChain.produce {chain : Chain} {blocks : Nat → Block} {ledger : Ledger}
    (h : StoredChain chain.kv.data chain.currentHeight blocks ledger)
    (ht : chain.currentTip = blockHash (blocks chain.currentHeight.toNat).header)
    (hf : Fits chain.produceBlockPuts) :
    StoredChain (chain.produceBlockPuts.foldl putData chain.kv.data) (chain.currentHeight + 1)
      (Function.update blocks (chain.currentHeight + 1).toNat chain.nextBlock) chain.ledger := by
  rw [Chain.produceBlockPuts_eq] at hf ⊢
  rw [foldl_persist]
  exact h.next rfl ht rfl (fun hb => (StoredBlocks.persist hb hf.of_append.1).snapshot _)
    (StoredLedger.persist _ hf.of_append.2)

/-- Opening a store in step with its log gives the chain that is stored. -/
theorem open_stored {kv : KVStore} (hs : kv.Synced) {height : UInt64} {blocks : Nat → Block}
    {ledger : Ledger} (hb : StoredChain kv.data height blocks ledger) :
    Chain.open kv.file = ⟨kv, ledger, [], height, blockHash (blocks height.toNat).header⟩ := by
  have hh : (Decoder.readU64 ⟨(({} : Encoder).writeU64 height).data, 0, false⟩).1 = some height := by
    have hat : Decoder.At [] (beBytes 8 height.toNat ++ [])
        ⟨(({} : Encoder).writeU64 height).data, 0, false⟩ := by
      rw [Encoder.data, Dist.writeU64_buffer]
      simp [Decoder.At]
    exact (Decoder.readU64_at hat).1
  have hload : ∀ bytes, Chain.load kv bytes = ⟨kv, (Chain.load kv bytes).ledger, [],
      (Decoder.readU64 ⟨bytes, 0, false⟩).1.getD 0,
      ((kv.get tipKey).bind (FixedBytes.ofVector 32)).getD ZERO_HASH32⟩ := fun _ => rfl
  have hledger : ∀ bytes, (Chain.load kv bytes).ledger = ledger := by
    intro bytes
    rw [Chain.load]
    dsimp only
    rw [KVStore.get]
    rcases hb.ledger_eq with ⟨h, hn⟩ | ⟨h, rfl⟩
    · rw [h]
      dsimp only
      rw [readSnapshot_encode hn, Ledger.loadSnapshot_snapshot]
    · rw [h]
      rfl
  rw [Chain.open, hs.open_eq]
  simp only [KVStore.get, hb.height_eq]
  rw [hload, hledger, hh, KVStore.get, hb.tip_eq]
  simp only [Option.bind_some, FixedBytes.ofVector_val, Option.getD_some]

/-- A storage without a chain. -/
def NoChain (data : Data) : Prop := data heightKey = none ∧ data snapshotKey = none

/-- Opening a store without a chain makes the genesis block. -/
theorem open_fresh {kv : KVStore} (hs : kv.Synced) (h : NoChain kv.data) :
    Chain.open kv.file =
      ⟨kv.putAll Chain.genesisPuts, {}, [], 0, blockHash L1.genesis.header⟩ := by
  rw [Chain.open, hs.open_eq]
  simp only [KVStore.get, h.1]

/-- The chain that the constructor makes on an empty storage. -/
theorem open_empty : Chain.open [] =
    ⟨(⟨[], fun _ => none⟩ : KVStore).putAll Chain.genesisPuts, {}, [], 0,
      blockHash genesis.header⟩ := by
  have hf : NoChain (KVStore.open []).data := by
    rw [KVStore.open_nil]
    exact ⟨rfl, rfl⟩
  rw [← KVStore.open_nil]
  exact open_fresh KVStore.synced_empty hf

/-- A transaction of nothing from the zero address to itself. -/
def zeroTx (nonce : UInt64) : Transaction :=
  ⟨⟨List.replicate 20 0, rfl⟩, ⟨List.replicate 20 0, rfl⟩, 0, nonce⟩

theorem StoredBlocks.getBlock {chain : Chain} {height : UInt64} {blocks : Nat → Block}
    (h : StoredBlocks chain.kv.data height blocks) {i : Nat} (hi : i ≤ height.toNat) :
    chain.getBlock (.ofNat i) = some (blocks i) := by
  rw [Chain.getBlock, KVStore.get, h.block i hi, Option.bind_some]
  exact parseBlock_serialize (h.count i hi)

end L1
end Techuila
