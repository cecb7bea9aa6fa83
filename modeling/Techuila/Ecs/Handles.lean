import Mathlib.Tactic.NormNum
import Techuila.Ecs.World
import Techuila.Lib.Purge

/-!
# Stale handles (`17-graphics/ecs/world.hpp`)

Only `getComponent` and `destroyEntity` ask whether their handle is alive.

* `World.Ok`: components are stored under the ids of living entities. `Harmless`: the calls that keep
  it so.
* `World.Same`: worlds that no call tells apart. A harmless call through a dead handle leaves one.
* `Recorded`: what is alive, as the calls say.
* `stale_handles_inert`: what runs of harmless calls are like.
-/

namespace Techuila
namespace Ecs

variable {τ : Type} [DecidableEq τ] {C : τ → Type}

namespace World

variable {w w' : World C}

omit [DecidableEq τ] in
theorem isAlive_iff {e : Entity} : w.isAlive e = true ↔
    w.generations[e.id.toNat]? = some e.generation ∧ w.alive[e.id.toNat]? = some true := by
  unfold isAlive
  rw [Bool.and_eq_true, decide_eq_true_eq, List.getD_eq_getElem?_getD]
  cases w.alive[e.id.toNat]? <;> simp

/-! ## Worlds that are the same to all calls -/

structure Same (w w' : World C) : Prop where
  generations : w.generations = w'.generations
  alive : w.alive = w'.alive
  freeIds : w.freeIds = w'.freeIds
  pools : ∀ type, w.pool type = w'.pool type

omit [DecidableEq τ] in
theorem Same.refl (w : World C) : Same w w := ⟨rfl, rfl, rfl, fun _ => rfl⟩

omit [DecidableEq τ] in
theorem Same.symm (h : Same w w') : Same w' w :=
  ⟨h.generations.symm, h.alive.symm, h.freeIds.symm, fun type => (h.pools type).symm⟩

omit [DecidableEq τ] in
theorem Same.trans {w'' : World C} (h : Same w w') (h' : Same w' w'') : Same w w'' :=
  ⟨h.generations.trans h'.generations, h.alive.trans h'.alive, h.freeIds.trans h'.freeIds,
    fun type => (h.pools type).trans (h'.pools type)⟩

omit [DecidableEq τ] in
theorem Same.isAlive (h : Same w w') (e : Entity) : w.isAlive e = w'.isAlive e := by
  rw [World.isAlive, World.isAlive, h.generations, h.alive]

theorem same_poolFor (w : World C) (type : τ) : Same (w.poolFor type).2 w :=
  have h := poolFor_tables w type
  ⟨h.1, h.2.1, h.2.2, pool_poolFor w type⟩

theorem Same.setPool (h : Same w w') (type : τ) (p : ComponentPool (C type)) :
    Same (w.setPool type p) (w'.setPool type p) where
  generations := h.generations
  alive := h.alive
  freeIds := h.freeIds
  pools type' := by
    by_cases ht : type' = type
    · subst ht
      rw [pool_setPool, pool_setPool]
    · rw [pool_setPool_ne w p ht, pool_setPool_ne w' p ht, h.pools]

/-- Both pools are looked up, and created where they are missing. -/
theorem Same.poolFor (h : Same w w') (type : τ) :
    (w.poolFor type).1 = (w'.poolFor type).1 ∧ Same (w.poolFor type).2 (w'.poolFor type).2 :=
  ⟨by rw [poolFor_fst, poolFor_fst, h.pools],
    ((same_poolFor w type).trans h).trans (same_poolFor w' type).symm⟩

omit [DecidableEq τ] in
theorem Same.viewIds (h : Same w w') (ids : List UInt32) : w.viewIds ids = w'.viewIds ids := by
  induction ids with
  | nil => rfl
  | cons id ids ih => simp only [World.viewIds, h.generations, ih, h.isAlive]

/-- No call tells such worlds apart. -/
theorem Same.perform (h : Same w w') (call : Call C) :
    Same (w.perform call).1 (w'.perform call).1 ∧ (w.perform call).2 = (w'.perform call).2 := by
  cases call with
  | createEntity =>
    have hpools := h.pools
    simp only [World.perform, createEntity, h.freeIds]
    split
    · rw [h.generations]
      exact ⟨⟨rfl, by simp [h.alive], rfl, hpools⟩, rfl⟩
    · rw [h.generations]
      exact ⟨⟨rfl, by simp [h.alive], rfl, hpools⟩, rfl⟩
  | destroyEntity e =>
    refine ⟨⟨?_, ?_, ?_, fun type => ?_⟩, rfl⟩
    · simp only [World.perform, destroyEntity, h.isAlive e]
      split
      · exact h.generations
      · exact congrArg (·.modify e.id.toNat (· + 1)) h.generations
    · simp only [World.perform, destroyEntity, h.isAlive e]
      split
      · exact h.alive
      · exact congrArg (·.set e.id.toNat false) h.alive
    · simp only [World.perform, destroyEntity, h.isAlive e]
      split
      · exact h.freeIds
      · exact congrArg (e.id :: ·) h.freeIds
    · rw [World.perform, World.perform, pool_destroyEntity, pool_destroyEntity, h.isAlive, h.pools]
  | addComponent type e component =>
    obtain ⟨hpool, hsame⟩ := h.poolFor type
    refine ⟨?_, rfl⟩
    simp only [World.perform, addComponent, hpool]
    exact hsame.setPool type _
  | getComponent type e =>
    obtain ⟨hpool, hsame⟩ := h.poolFor type
    simp only [World.perform, getComponent, h.isAlive e, hpool]
    split
    · exact ⟨h, rfl⟩
    · exact ⟨hsame, rfl⟩
  | hasComponent type e =>
    refine ⟨h, ?_⟩
    simp only [World.perform, hasComponent_eq, stored, h.pools]
  | removeComponent type e =>
    obtain ⟨hpool, hsame⟩ := h.poolFor type
    refine ⟨?_, rfl⟩
    simp only [World.perform, removeComponent, hpool]
    exact hsame.setPool type _
  | view type =>
    obtain ⟨hpool, hsame⟩ := h.poolFor type
    simp only [World.perform, view, hpool, hsame.viewIds]
    exact ⟨hsame, trivial⟩

end World

/-- The call adds or removes nothing through a handle that is dead, and there is an id for an entity
that is created. -/
def Harmless (w : World C) : Call C → Prop
  | .createEntity => w.freeIds ≠ [] ∨ w.generations.length < 2 ^ 32
  | .addComponent _ e _ => w.isAlive e = true
  | .removeComponent type e => w.isAlive e = true ∨ w.stored type e.id = none
  | _ => True

namespace World

variable {w w' : World C}

/-- A harmless call through a dead handle leaves the world as it was. -/
theorem same_perform_dead {call : Call C} (hc : Harmless w call) (hdead : w.live call = false) :
    Same (w.perform call).1 w := by
  cases call with
  | createEntity => cases hdead
  | destroyEntity e =>
    have he : w.isAlive e = false := hdead
    simp only [perform, destroyEntity, he, Bool.not_false, if_true]
    exact .refl w
  | addComponent type e component =>
    have he : w.isAlive e = false := hdead
    rw [Harmless, he] at hc
    cases hc
  | getComponent type e =>
    have he : w.isAlive e = false := hdead
    simp only [perform, getComponent, he, Bool.not_false, if_true]
    exact .refl w
  | hasComponent type e => exact .refl w
  | removeComponent type e =>
    have he : w.isAlive e = false := hdead
    have hnone : w.stored type e.id = none := by
      rcases hc with h | h
      · rw [he] at h
        cases h
      · exact h
    simp only [perform, removeComponent, poolFor_fst, Table.erase_eq_self hnone]
    refine ⟨(poolFor_tables w type).1, (poolFor_tables w type).2.1, (poolFor_tables w type).2.2,
      fun type' => ?_⟩
    by_cases ht : type' = type
    · subst ht
      rw [pool_setPool]
    · rw [pool_setPool_ne _ _ ht, pool_poolFor]
  | view type => cases hdead

/-! ## Where components are -/

/-- The tables have one size, free ids are dead, and components belong to the living. -/
structure Ok (w : World C) : Prop where
  sizes : w.alive.length = w.generations.length
  free : ∀ id ∈ w.freeIds, w.alive[id.toNat]? = some false
  nodup : w.freeIds.Nodup
  owned : ∀ type id, w.stored type id ≠ none → w.alive[id.toNat]? = some true
  keys : ∀ type, (w.pool type).Ok

omit [DecidableEq τ] in
theorem Ok.empty : Ok ({} : World C) :=
  ⟨rfl, fun _ h => absurd h List.not_mem_nil, List.nodup_nil, fun _ _ h => absurd rfl h,
    fun _ => Table.Ok.nil⟩

/-- What a creation does: an entity on a free id, or on the next one. -/
structure Created (w : World C) (e : Entity) (w' : World C) : Prop where
  fresh : w.generations[e.id.toNat]? = some e.generation ∧ w.alive[e.id.toNat]? = some false ∨
    w.generations[e.id.toNat]? = none ∧ w.alive[e.id.toNat]? = none ∧ e.generation = 0
  generations : ∀ id : UInt32, w'.generations[id.toNat]? =
    if id = e.id then some e.generation else w.generations[id.toNat]?
  alive : ∀ id : UInt32, w'.alive[id.toNat]? = if id = e.id then some true else w.alive[id.toNat]?
  pools : ∀ type, w'.pool type = w.pool type
  freeIds : ∀ id ∈ w'.freeIds, id ∈ w.freeIds ∧ id ≠ e.id
  nodup : w'.freeIds.Nodup
  sizes : w'.alive.length = w'.generations.length

omit [DecidableEq τ] in
theorem Ok.created (h : w.Ok) (hspace : w.freeIds ≠ [] ∨ w.generations.length < 2 ^ 32) :
    Created w w.createEntity.1 w.createEntity.2 := by
  have hids : ∀ id id' : UInt32, id.toNat = id'.toNat ↔ id = id' := fun _ _ => UInt32.toNat_inj
  unfold createEntity
  split
  · rename_i id freeIds hfree
    have hdead := h.free id (hfree ▸ List.mem_cons_self)
    obtain ⟨hlt, -⟩ := List.getElem?_eq_some_iff.mp hdead
    have hnodup := h.nodup
    rw [hfree, List.nodup_cons] at hnodup
    have hgen : w.generations[id.toNat]? = some (w.generations.getD id.toNat 0) := by
      rw [List.getD_eq_getElem?_getD, List.getElem?_eq_getElem (h.sizes ▸ hlt)]
      rfl
    refine ⟨.inl ⟨hgen, hdead⟩, fun id' => ?_, fun id' => ?_, fun _ => rfl, fun id' hm => ?_,
      hnodup.2, by simp [h.sizes]⟩
    · by_cases he : id' = id
      · rw [if_pos he, he]
        exact hgen
      · rw [if_neg he]
    · dsimp only
      rw [List.getElem?_set, if_pos hlt]
      simp only [hids, eq_comm]
    · exact ⟨hfree ▸ List.mem_cons_of_mem _ hm, fun e : id' = id => hnodup.1 (e ▸ hm)⟩
  · rename_i hfree
    have hlt := hspace.resolve_left fun hne => hne hfree
    have hid : (UInt32.ofNat w.generations.length).toNat = w.generations.length := by
      rw [UInt32.toNat_ofNat']
      exact Nat.mod_eq_of_lt hlt
    have hnext : ∀ {β : Type} (l : List β) (b : β), l.length = w.generations.length →
        ∀ id' : UInt32, (l ++ [b])[id'.toNat]? =
          if id' = UInt32.ofNat w.generations.length then some b else l[id'.toNat]? := by
      intro β l b hl id'
      by_cases he : id' = UInt32.ofNat w.generations.length
      · rw [if_pos he, he, hid, ← hl, List.getElem?_concat_length]
      · rw [if_neg he]
        have hne : id'.toNat ≠ l.length := fun e => he (UInt32.toNat_inj.mp (by rw [e, hl, hid]))
        by_cases hlt : id'.toNat < l.length
        · exact List.getElem?_append_left hlt
        · rw [List.getElem?_eq_none (by simp; omega), List.getElem?_eq_none (by omega)]
    have hzero : (w.generations ++ [0]).getD (UInt32.ofNat w.generations.length).toNat 0 = 0 := by
      rw [List.getD_eq_getElem?_getD, hnext _ _ rfl, if_pos rfl]
      rfl
    refine ⟨.inr ⟨?_, ?_, hzero⟩, fun id' => ?_, hnext _ _ h.sizes, fun _ => rfl,
      fun id' hm => ?_, h.nodup, by simp [h.sizes]⟩
    · dsimp only
      rw [hid, List.getElem?_eq_none (Nat.le_refl _)]
    · dsimp only
      rw [hid, List.getElem?_eq_none (by rw [h.sizes])]
    · dsimp only
      rw [hzero]
      exact hnext _ _ rfl id'
    · dsimp only at hm
      rw [hfree] at hm
      cases hm

/-- A destruction ends the generation and takes the components. -/
structure Destroyed (w : World C) (e : Entity) (w' : World C) : Prop where
  generations : ∀ id : UInt32, w'.generations[id.toNat]? =
    if id = e.id then some (e.generation + 1) else w.generations[id.toNat]?
  alive : ∀ id : UInt32, w'.alive[id.toNat]? = if id = e.id then some false else w.alive[id.toNat]?
  pools : ∀ type, w'.pool type = (w.pool type).erase e.id
  freeIds : w'.freeIds = e.id :: w.freeIds
  sizes : w'.alive.length = w.alive.length ∧ w'.generations.length = w.generations.length

omit [DecidableEq τ] in
theorem destroyed {e : Entity} (he : w.isAlive e = true) : Destroyed w e (w.destroyEntity e) := by
  have hids : ∀ id id' : UInt32, id.toNat = id'.toNat ↔ id = id' := fun _ _ => UInt32.toNat_inj
  obtain ⟨hgen, halive⟩ := isAlive_iff.mp he
  obtain ⟨hlt, -⟩ := List.getElem?_eq_some_iff.mp halive
  have hpools := w.pool_destroyEntity e
  simp only [he, if_true] at hpools
  refine ⟨fun id => ?_, fun id => ?_, hpools, ?_, ?_⟩
  · simp only [destroyEntity, he, Bool.not_true, Bool.false_eq_true, if_false]
    rw [List.getElem?_modify]
    by_cases hid : id = e.id
    · simp [hid, hgen]
    · have hne : ¬ e.id.toNat = id.toNat := fun h => hid ((hids _ _).mp h).symm
      simp [hid, hne]
  · simp only [destroyEntity, he, Bool.not_true, Bool.false_eq_true, if_false]
    rw [List.getElem?_set, if_pos hlt]
    simp only [hids, eq_comm]
  · simp only [destroyEntity, he, Bool.not_true, Bool.false_eq_true, if_false]
  · simp [destroyEntity, he]

omit [DecidableEq τ] in
theorem Ok.same (h : w.Ok) (hs : Same w w') : w'.Ok := by
  have hpools := hs.pools
  refine ⟨by rw [← hs.alive, ← hs.generations, h.sizes], ?_, hs.freeIds ▸ h.nodup, ?_,
    fun type => hpools type ▸ h.keys type⟩
  · rw [← hs.freeIds, ← hs.alive]
    exact h.free
  · intro type id hm
    rw [← hs.alive]
    rw [stored, ← hpools] at hm
    exact h.owned type id hm

theorem Ok.setPool (h : w.Ok) {type : τ} {p : ComponentPool (C type)} (hp : p.Ok)
    (hown : ∀ id, p.find id ≠ none → w.alive[id.toNat]? = some true) : (w.setPool type p).Ok where
  sizes := h.sizes
  free := h.free
  nodup := h.nodup
  owned type' id hm := by
    rw [stored] at hm
    by_cases ht : type' = type
    · subst ht
      rw [pool_setPool] at hm
      exact hown id hm
    · rw [pool_setPool_ne _ _ ht] at hm
      exact h.owned type' id hm
  keys type' := by
    by_cases ht : type' = type
    · subst ht
      rw [pool_setPool]
      exact hp
    · rw [pool_setPool_ne _ _ ht]
      exact h.keys type'

/-- Harmless calls keep components with the living. -/
theorem Ok.perform (h : w.Ok) {call : Call C} (hc : Harmless w call) : (w.perform call).1.Ok := by
  have hpoolFor : ∀ type, (w.poolFor type).2.Ok := fun type => h.same (same_poolFor w type).symm
  cases call with
  | createEntity =>
    have hcr := h.created hc
    refine ⟨hcr.sizes, fun id hm => ?_, hcr.nodup, fun type id hm => ?_, fun type => ?_⟩
    · obtain ⟨hm, hne⟩ := hcr.freeIds id hm
      exact (hcr.alive id).trans ((if_neg hne).trans (h.free id hm))
    · have hm : w.stored type id ≠ none := by
        rw [stored, ← hcr.pools]
        exact hm
      have hown := h.owned type id hm
      refine (hcr.alive id).trans ?_
      split
      · rfl
      · exact hown
    · exact (hcr.pools type).symm ▸ h.keys type
  | destroyEntity e =>
    by_cases he : w.isAlive e = true
    · have hd := destroyed he
      obtain ⟨-, halive⟩ := isAlive_iff.mp he
      refine ⟨hd.sizes.1.trans (h.sizes.trans hd.sizes.2.symm), fun id hm => ?_, ?_,
        fun type id hm => ?_, fun type => ?_⟩
      · refine (hd.alive id).trans ?_
        split
        · rfl
        · rename_i hne
          have hm : id ∈ e.id :: w.freeIds := hd.freeIds ▸ hm
          exact h.free id ((List.mem_cons.mp hm).resolve_left hne)
      · change (w.destroyEntity e).freeIds.Nodup
        rw [hd.freeIds, List.nodup_cons]
        refine ⟨fun hm => ?_, h.nodup⟩
        rw [h.free _ hm] at halive
        cases halive
      · have hm : (Table.erase (w.pool type) e.id).find id ≠ none := by
          rw [← hd.pools]
          exact hm
        rw [Table.find_erase] at hm
        split at hm
        · exact absurd rfl hm
        · rename_i hne
          exact (hd.alive id).trans ((if_neg hne).trans (h.owned type id hm))
      · exact (hd.pools type).symm ▸ (h.keys type).erase e.id
    · have hsame : w.destroyEntity e = w := by
        simp only [destroyEntity, he, Bool.not_false, if_true]
      change (w.destroyEntity e).Ok
      rw [hsame]
      exact h
  | addComponent type e component =>
    obtain ⟨-, halive⟩ := isAlive_iff.mp hc
    change ((w.poolFor type).2.setPool type ((w.poolFor type).1.insert e.id component)).Ok
    rw [poolFor_fst]
    refine (hpoolFor type).setPool ((h.keys type).insert e.id component) fun id hm => ?_
    rw [(poolFor_tables w type).2.1]
    rw [Table.find_insert] at hm
    split at hm
    · rename_i hid
      exact hid ▸ halive
    · exact h.owned type id hm
  | getComponent type e =>
    simp only [World.perform, getComponent]
    split
    · exact h
    · exact hpoolFor type
  | hasComponent type e => exact h
  | removeComponent type e =>
    change ((w.poolFor type).2.setPool type ((w.poolFor type).1.erase e.id)).Ok
    rw [poolFor_fst]
    refine (hpoolFor type).setPool ((h.keys type).erase e.id) fun id hm => ?_
    rw [(poolFor_tables w type).2.1]
    rw [Table.find_erase] at hm
    split at hm
    · exact absurd rfl hm
    · exact h.owned type id hm
  | view type => exact hpoolFor type

end World

/-! ## What the calls say -/

/-- The handles that are alive, all that were created, and how often each id was destroyed. -/
structure History where
  live : List Entity := []
  created : List Entity := []
  destroyed : UInt32 → Nat := fun _ => 0

def History.next (h : History) (w : World C) : Call C → History
  | .createEntity =>
    { h with live := w.createEntity.1 :: h.live, created := w.createEntity.1 :: h.created }
  | .destroyEntity e =>
    { h with
      live := h.live.filter (· ≠ e)
      destroyed := fun id =>
        h.destroyed id + if w.isAlive e = true ∧ id = e.id then 1 else 0 }
  | _ => h

/-- The history of some calls. -/
def historyOf (w : World C) (h : History) : List (Call C) → History
  | [] => h
  | call :: calls => historyOf (w.perform call).1 (h.next w call) calls

/-- The tables say what the history says. -/
structure Recorded (w : World C) (h : History) : Prop where
  live : ∀ e, e ∈ h.live ↔ w.isAlive e = true
  generation : ∀ (id : UInt32) g, w.generations[id.toNat]? = some g →
    g = UInt32.ofNat (h.destroyed id)
  unused : ∀ id : UInt32, w.generations[id.toNat]? = none → h.destroyed id = 0
  past : (∀ id, h.destroyed id < 2 ^ 32) → h.created.Nodup ∧ ∀ e ∈ h.created,
    w.generations[e.id.toNat]? ≠ none ∧ ∃ n ≤ h.destroyed e.id, e.generation = UInt32.ofNat n ∧
      (n = h.destroyed e.id → w.alive[e.id.toNat]? = some true)

namespace Recorded

variable {w w' : World C} {h : History}

omit [DecidableEq τ] in
theorem empty : Recorded ({} : World C) {} :=
  ⟨fun e => by simp [World.isAlive], fun id g hg => by simp at hg, fun _ _ => rfl,
    fun _ => ⟨List.nodup_nil, fun _ he => absurd he List.not_mem_nil⟩⟩

omit [DecidableEq τ] in
theorem tables (hr : Recorded w h) (hg : w'.generations = w.generations)
    (ha : w'.alive = w.alive) : Recorded w' h := by
  refine ⟨fun e => ?_, by rw [hg]; exact hr.generation, by rw [hg]; exact hr.unused,
    by rw [hg, ha]; exact hr.past⟩
  rw [hr.live, World.isAlive, World.isAlive, hg, ha]

theorem ofNat_inj {n m : Nat} (hn : n < 2 ^ 32) (hm : m < 2 ^ 32)
    (h : UInt32.ofNat n = UInt32.ofNat m) : n = m := by
  have hnat := congrArg UInt32.toNat h
  rwa [UInt32.toNat_ofNat', UInt32.toNat_ofNat', Nat.mod_eq_of_lt hn, Nat.mod_eq_of_lt hm] at hnat

omit [DecidableEq τ] in
/-- The handle that is created was not there before. -/
theorem create {e : Entity} (hr : Recorded w h) (hc : World.Created w e w') :
    Recorded w' { h with live := e :: h.live, created := e :: h.created } := by
  have hgen : e.generation = UInt32.ofNat (h.destroyed e.id) := by
    rcases hc.fresh with ⟨hg, -⟩ | ⟨hg, -, hz⟩
    · exact hr.generation _ _ hg
    · rw [hr.unused _ hg, hz]
      rfl
  have hdead : w.alive[e.id.toNat]? ≠ some true := by
    rcases hc.fresh with ⟨-, ha⟩ | ⟨-, ha, -⟩ <;> simp [ha]
  refine ⟨fun x => ?_, fun id g hg => ?_, fun id hg => ?_, fun hb => ?_⟩
  · rw [List.mem_cons, hr.live, World.isAlive_iff, World.isAlive_iff, hc.generations, hc.alive]
    by_cases hid : x.id = e.id
    · rw [if_pos hid, if_pos hid, hid, Option.some_inj]
      constructor
      · rintro (rfl | ⟨-, ha⟩)
        · exact ⟨rfl, rfl⟩
        · exact absurd ha hdead
      · rintro ⟨hx, -⟩
        refine .inl ?_
        cases x
        cases e
        cases hid
        cases hx
        rfl
    · rw [if_neg hid, if_neg hid]
      refine ⟨fun hx => hx.resolve_left fun he => hid (by rw [he]), .inr⟩
  · rw [hc.generations] at hg
    split at hg
    · rename_i hid
      cases hg
      rw [hid]
      exact hgen
    · exact hr.generation id g hg
  · rw [hc.generations] at hg
    split at hg
    · cases hg
    · exact hr.unused id hg
  · obtain ⟨hnodup, hpast⟩ := hr.past hb
    refine ⟨List.nodup_cons.mpr ⟨fun hm => ?_, hnodup⟩, List.forall_mem_cons.mpr ⟨?_, fun x hx => ?_⟩⟩
    · obtain ⟨-, n, hn, hxgen, halive⟩ := hpast e hm
      have hlt := hb e.id
      exact hdead (halive (ofNat_inj (Nat.lt_of_le_of_lt hn hlt) hlt (hxgen.symm.trans hgen)))
    · refine ⟨by rw [hc.generations, if_pos rfl]; simp, _, Nat.le_refl _, hgen, fun _ => ?_⟩
      rw [hc.alive, if_pos rfl]
    · obtain ⟨hused, n, hn, hxgen, halive⟩ := hpast x hx
      refine ⟨?_, n, hn, hxgen, fun he => ?_⟩
      · rw [hc.generations]
        split
        · simp
        · exact hused
      · rw [hc.alive]
        split
        · rfl
        · exact halive he

omit [DecidableEq τ] in
theorem destroy {e : Entity} (hr : Recorded w h) (he : w.isAlive e = true)
    (hd : World.Destroyed w e w') :
    Recorded w' { h with
      live := h.live.filter (· ≠ e)
      destroyed := fun id => h.destroyed id + if w.isAlive e = true ∧ id = e.id then 1 else 0 } := by
  obtain ⟨hgen, halive⟩ := World.isAlive_iff.mp he
  simp only [he, true_and]
  refine ⟨fun x => ?_, fun id g hg => ?_, fun id hg => ?_, fun hb => ?_⟩
  · rw [List.mem_filter, hr.live, World.isAlive_iff, World.isAlive_iff, hd.generations, hd.alive]
    by_cases hid : x.id = e.id
    · rw [if_pos hid, if_pos hid, hid, hgen, Option.some_inj]
      refine ⟨fun ⟨⟨hx, _⟩, hne⟩ => ?_, fun ⟨_, hf⟩ => by cases hf⟩
      have heq : x = e := by
        cases x
        cases e
        cases hid
        cases hx
        rfl
      simp [heq] at hne
    · rw [if_neg hid, if_neg hid]
      have hne : x ≠ e := fun h => hid (by rw [h])
      simp [hne]
  · dsimp only
    rw [hd.generations] at hg
    by_cases hid : id = e.id
    · rw [if_pos hid] at hg
      cases hg
      rw [if_pos hid, hid, hr.generation _ _ hgen, UInt32.ofNat_add]
      rfl
    · rw [if_neg hid] at hg ⊢
      exact hr.generation id g hg
  · dsimp only
    rw [hd.generations] at hg
    by_cases hid : id = e.id
    · rw [if_pos hid] at hg
      cases hg
    · rw [if_neg hid] at hg ⊢
      exact hr.unused id hg
  · have hb' : ∀ id, h.destroyed id < 2 ^ 32 := fun id =>
      Nat.lt_of_le_of_lt (Nat.le_add_right _ _) (hb id)
    obtain ⟨hnodup, hpast⟩ := hr.past hb'
    refine ⟨hnodup, fun x hx => ?_⟩
    obtain ⟨hused, n, hn, hxgen, hxalive⟩ := hpast x hx
    refine ⟨?_, n, Nat.le_trans hn (Nat.le_add_right _ _), hxgen, fun hlast => ?_⟩
    · rw [hd.generations]
      split
      · simp
      · exact hused
    · dsimp only at hlast
      by_cases hid : x.id = e.id
      · rw [if_pos hid] at hlast
        omega
      · rw [if_neg hid] at hlast
        rw [hd.alive, if_neg hid]
        exact hxalive hlast

theorem next (hr : Recorded w h) (hok : w.Ok) {call : Call C} (hc : Harmless w call) :
    Recorded (w.perform call).1 (h.next w call) := by
  cases call with
  | createEntity => exact hr.create (hok.created hc)
  | destroyEntity e =>
    by_cases he : w.isAlive e = true
    · exact hr.destroy he (World.destroyed he)
    · have hsame : w.destroyEntity e = w := by
        simp only [World.destroyEntity, he, Bool.not_false, if_true]
      have hnot : e ∉ h.live := fun hm => he ((hr.live e).mp hm)
      have hhistory : h.next w (.destroyEntity e) = h := by
        have hfilter : h.live.filter (· ≠ e) = h.live := List.filter_eq_self.mpr fun x hx => by
          have hne : x ≠ e := fun h => hnot (h ▸ hx)
          simpa using hne
        simp only [History.next, hfilter, he, Bool.false_eq_true, false_and, if_false, Nat.add_zero]
      rw [hhistory, World.perform, hsame]
      exact hr
  | addComponent type e component =>
    exact hr.tables (w.poolFor_tables type).1 (w.poolFor_tables type).2.1
  | getComponent type e =>
    simp only [World.perform, World.getComponent]
    split
    · exact hr
    · exact hr.tables (w.poolFor_tables type).1 (w.poolFor_tables type).2.1
  | hasComponent type e => exact hr
  | removeComponent type e =>
    exact hr.tables (w.poolFor_tables type).1 (w.poolFor_tables type).2.1
  | view type => exact hr.tables (w.poolFor_tables type).1 (w.poolFor_tables type).2.1

end Recorded

/-- Runs of harmless calls keep the tables in order and the history recorded. -/
theorem ok_run {w : World C} {h : History} (hok : w.Ok) (hr : Recorded w h) {calls : List (Call C)}
    (hc : Purge.Along World.perform Harmless w calls) :
    (Purge.run World.perform w calls).Ok ∧
      Recorded (Purge.run World.perform w calls) (historyOf w h calls) := by
  induction calls generalizing w h with
  | nil => exact ⟨hok, hr⟩
  | cons call calls ih => exact ih (hok.perform hc.1) (hr.next hok hc.1) hc.2

/-! ## The main result -/

namespace World

variable {w : World C}

omit [DecidableEq τ] in
theorem viewIds_spec (h : w.Ok) {ids : List UInt32}
    (hids : ∀ id ∈ ids, w.alive[id.toNat]? = some true) : ∃ entities,
      w.viewIds ids = some entities ∧ entities.map Entity.id = ids ∧
        ∀ e ∈ entities, w.isAlive e = true := by
  induction ids with
  | nil => exact ⟨[], rfl, rfl, fun _ he => absurd he List.not_mem_nil⟩
  | cons id ids ih =>
    obtain ⟨hid, hids⟩ := List.forall_mem_cons.mp hids
    obtain ⟨entities, hview, hmap, halive⟩ := ih hids
    obtain ⟨hlt, -⟩ := List.getElem?_eq_some_iff.mp hid
    obtain ⟨generation, hgen⟩ : ∃ generation, w.generations[id.toNat]? = some generation :=
      ⟨_, List.getElem?_eq_getElem (h.sizes ▸ hlt)⟩
    have he : w.isAlive ⟨id, generation⟩ = true := isAlive_iff.mpr ⟨hgen, hid⟩
    refine ⟨⟨id, generation⟩ :: entities, ?_,
      by rw [List.map_cons, hmap], List.forall_mem_cons.mpr ⟨he, halive⟩⟩
    simp only [viewIds, hgen, hview, Option.bind_eq_bind, Option.bind_some, he, if_true]

/-- The view of a type has its living owners, each once. -/
theorem view_spec (h : w.Ok) (type : τ) : ∃ entities, (w.view type).1 = some entities ∧
    entities.Nodup ∧ ∀ e, e ∈ entities ↔
      w.isAlive e = true ∧ (w.getComponent type e).1 ≠ none := by
  have hkey : ∀ id, id ∈ (w.pool type).map Prod.fst ↔ w.stored type id ≠ none := by
    intro id
    constructor
    · intro hm
      obtain ⟨⟨id, v⟩, he, rfl⟩ := List.mem_map.mp hm
      obtain ⟨v', hv⟩ := Table.find_isSome_of_mem he
      rw [stored, hv]
      exact Option.some_ne_none _
    · intro hs
      obtain ⟨v, hv⟩ := Option.ne_none_iff_exists'.mp hs
      exact List.mem_map.mpr ⟨_, Table.mem_of_find hv, rfl⟩
  have hview : (w.view type).1 = w.viewIds ((w.pool type).map Prod.fst) := by
    rw [view]
    dsimp only
    rw [poolFor_fst, (same_poolFor w type).viewIds]
  obtain ⟨entities, hentities, hmap, halive⟩ := viewIds_spec h fun id hm => h.owned type id ((hkey id).mp hm)
  refine ⟨entities, hview.trans hentities, .of_map Entity.id (hmap ▸ h.keys type), fun e => ?_⟩
  have hmem : e.id ∈ entities.map Entity.id ↔ w.stored type e.id ≠ none := by rw [hmap, hkey]
  rw [getComponent_fst]
  constructor
  · intro he
    have ha := halive e he
    exact ⟨ha, by rw [if_pos ha]; exact hmem.mp (List.mem_map_of_mem he)⟩
  · rintro ⟨ha, hs⟩
    rw [if_pos ha] at hs
    obtain ⟨e', he', hid⟩ := List.mem_map.mp (hmem.mpr hs)
    -- two living entities with one id have one generation
    have hgen := (isAlive_iff.mp (halive e' he')).1
    rw [hid, (isAlive_iff.mp ha).1, Option.some_inj] at hgen
    have heq : e' = e := by
      cases e'
      cases e
      cases hid
      cases hgen
      rfl
    exact heq ▸ he'

omit [DecidableEq τ] in
/-- An entity that was just created has no components. -/
theorem no_component (h : w.Ok) (hspace : w.freeIds ≠ [] ∨ w.generations.length < 2 ^ 32)
    (type : τ) : w.createEntity.2.stored type w.createEntity.1.id = none := by
  have hc := h.created hspace
  rw [stored, hc.pools]
  by_contra hs
  have hown := h.owned type _ hs
  rcases hc.fresh with ⟨-, ha⟩ | ⟨-, ha, -⟩ <;>
  · rw [ha] at hown
    cases hown

end World

/-- After harmless calls: what was called through dead handles did not show; the handles that are
alive are those that were created and not destroyed, and none was created twice; an entity that is
created has no components; the two ways to ask for a component agree where the handle is alive or
nothing is stored under its id; and a view has the living owners, each once. -/
theorem stale_handles_inert {calls : List (Call C)}
    (hc : Purge.Along World.perform Harmless {} calls) {w : World C}
    (hw : Purge.run World.perform {} calls = w) :
    Purge.results World.perform {} (Purge.kept World.perform World.live {} calls) =
      Purge.keptResults World.perform World.live {} calls ∧
    (∀ e, w.isAlive e = true ↔ e ∈ (historyOf {} {} calls).live) ∧
    ((∀ id, (historyOf {} {} calls).destroyed id < 2 ^ 32) →
      (historyOf {} {} calls).created.Nodup) ∧
    (∀ type, w.freeIds ≠ [] ∨ w.generations.length < 2 ^ 32 →
      w.createEntity.2.hasComponent type w.createEntity.1 = false ∧
        (w.createEntity.2.getComponent type w.createEntity.1).1 = none) ∧
    (∀ type e, (w.hasComponent type e = true ↔ (w.getComponent type e).1 ≠ none) ↔
      w.isAlive e = true ∨ w.stored type e.id = none) ∧
    ∀ type, ∃ entities, (w.view type).1 = some entities ∧ entities.Nodup ∧
      ∀ e, e ∈ entities ↔ w.isAlive e = true ∧ (w.getComponent type e).1 ≠ none := by
  obtain ⟨hok, hr⟩ := ok_run .empty .empty hc
  rw [hw] at hok hr
  refine ⟨?_, fun e => (hr.live e).symm, fun hb => (hr.past hb).1, fun type hspace => ?_,
    fun type e => ?_, World.view_spec hok⟩
  · exact Purge.results_kept (R := World.Same) (P := Harmless)
      (fun _ _ _ hs hcall hdead => (World.same_perform_dead hcall hdead).trans hs)
      (fun _ _ call hs => hs.perform call) (.refl _) hc
  · have hnone := World.no_component hok hspace type
    refine ⟨by rw [World.hasComponent_eq, hnone]; rfl, ?_⟩
    rw [World.getComponent_fst, hnone, ite_self]
  · rw [World.hasComponent_eq, World.getComponent_fst, Option.isSome_iff_ne_none]
    by_cases ha : w.isAlive e = true
    · simp [ha]
    · simp [ha]

/-- An entity, its component, and what a dead handle may ask. -/
def harmlessCalls : List (Call fun _ : Unit => Nat) :=
  [.createEntity, .addComponent () ⟨0, 0⟩ 7, .destroyEntity ⟨0, 0⟩, .createEntity,
    .getComponent () ⟨0, 0⟩, .hasComponent () ⟨0, 1⟩]

theorem stale_handles_inert_calls :
    Purge.results World.perform {} (Purge.kept World.perform World.live {} harmlessCalls) =
      Purge.keptResults World.perform World.live {} harmlessCalls :=
  have hc : Purge.Along World.perform Harmless {} harmlessCalls :=
    ⟨.inr (by decide), rfl, trivial, .inl (by decide), trivial, trivial, trivial⟩
  (stale_handles_inert hc rfl).1

/-- A component that is added through a dead handle is there when the id comes back. -/
theorem addComponent_dead : ¬ ∀ (calls : List (Call fun _ : Unit => Nat))
    (w : World fun _ : Unit => Nat), (∀ id, (historyOf {} {} calls).destroyed id < 2 ^ 32) →
    Purge.run World.perform {} calls = w →
    Purge.results World.perform {} (Purge.kept World.perform World.live {} calls) =
      Purge.keptResults World.perform World.live {} calls ∧
    (∀ type, w.createEntity.2.hasComponent type w.createEntity.1 = false) ∧
    (∀ type e, w.hasComponent type e = true ↔ (w.getComponent type e).1 ≠ none) ∧
    ∀ type, ∃ entities, (w.view type).1 = some entities ∧ entities.Nodup ∧
      ∀ e, e ∈ entities ↔ w.isAlive e = true ∧ (w.getComponent type e).1 ≠ none := by
  intro h
  have hbound : ∀ id, (historyOf ({} : World fun _ : Unit => Nat) {} [.createEntity,
      .destroyEntity ⟨0, 0⟩, .addComponent () ⟨0, 0⟩ 7]).destroyed id < 2 ^ 32 := by
    intro id
    simp only [historyOf, History.next]
    split <;> norm_num
  obtain ⟨-, hfresh, -⟩ := h _ _ hbound rfl
  exact absurd (hfresh ()) (by decide)

end Ecs
end Techuila
