import Techuila.Ecs.Handles

/-!
# Handles over runs (`World::createEntity`, `isAlive`, `destroyEntity`)

Runs that only create and destroy, from the empty world.

* `World.Freed`: each id that is dead waits in `freeIds`.
* `entity_handles`: handles are unique, liveness is what the calls say, `freeIds` is exact, and a
  destruction through a handle that is not alive does nothing.
-/

namespace Techuila
namespace Ecs

variable {τ : Type} [DecidableEq τ] {C : τ → Type}

/-- The calls that make and end entities. -/
def Call.lifecycle : Call C → Bool
  | .createEntity => true
  | .destroyEntity _ => true
  | _ => false

namespace World

variable {w : World C}

omit [DecidableEq τ] in
theorem destroyEntity_dead {e : Entity} (he : w.isAlive e = false) : w.destroyEntity e = w := by
  simp only [destroyEntity, he, Bool.not_false, if_true]

/-- Each id that is dead waits to be used again. -/
def Freed (w : World C) : Prop := ∀ id : UInt32, w.alive[id.toNat]? = some false → id ∈ w.freeIds

omit [DecidableEq τ] in
/-- A creation takes the first free id, if there is one. -/
theorem createEntity_freeIds (w : World C) :
    w.freeIds = w.createEntity.1.id :: w.createEntity.2.freeIds ∨
      w.freeIds = [] ∧ w.createEntity.2.freeIds = [] := by
  unfold createEntity
  split
  · rename_i id freeIds hfree
    exact .inl hfree
  · rename_i hfree
    exact .inr ⟨hfree, hfree⟩

omit [DecidableEq τ] in
theorem Freed.create (h : w.Freed) (hc : Created w w.createEntity.1 w.createEntity.2) :
    w.createEntity.2.Freed := by
  intro id hdead
  rw [hc.alive] at hdead
  split at hdead
  · cases hdead
  · rename_i hne
    have hmem := h id hdead
    rcases w.createEntity_freeIds with hfree | ⟨hfree, -⟩
    · rw [hfree] at hmem
      exact (List.mem_cons.mp hmem).resolve_left hne
    · rw [hfree] at hmem
      cases hmem

omit [DecidableEq τ] in
theorem Freed.destroy (h : w.Freed) {e : Entity} (hd : Destroyed w e (w.destroyEntity e)) :
    (w.destroyEntity e).Freed := by
  intro id hdead
  rw [hd.freeIds]
  rw [hd.alive] at hdead
  split at hdead
  · rename_i hid
    exact hid ▸ List.mem_cons_self
  · exact List.mem_cons_of_mem _ (h id hdead)

theorem Freed.perform (h : w.Freed) (hok : w.Ok) {call : Call C} (hl : call.lifecycle = true)
    (hc : Harmless w call) : (w.perform call).1.Freed := by
  cases call with
  | createEntity => exact h.create (hok.created hc)
  | destroyEntity e =>
    rw [World.perform]
    by_cases he : w.isAlive e = true
    · exact h.destroy (destroyed he)
    · rw [destroyEntity_dead (by simpa using he)]
      exact h
  | _ => cases hl

/-! ## The number of ids -/

omit [DecidableEq τ] in
theorem length_createEntity (w : World C) : w.createEntity.2.generations.length =
    if w.freeIds = [] then w.generations.length + 1 else w.generations.length := by
  unfold createEntity
  split
  · rename_i hfree
    rw [hfree, if_neg (List.cons_ne_nil _ _)]
  · rename_i hfree
    rw [if_pos hfree, List.length_append, List.length_singleton]

/-- Ids are not given up. -/
theorem length_perform {call : Call C} (hl : call.lifecycle = true) :
    w.generations.length ≤ (w.perform call).1.generations.length := by
  cases call with
  | createEntity =>
    rw [World.perform, length_createEntity]
    split <;> omega
  | destroyEntity e =>
    rw [World.perform, destroyEntity]
    split
    · exact Nat.le_refl _
    · exact Nat.le_of_eq (List.length_modify _ _ _).symm
  | _ => cases hl

theorem length_run {calls : List (Call C)} (hl : ∀ call ∈ calls, call.lifecycle = true) :
    w.generations.length ≤ (Purge.run World.perform w calls).generations.length := by
  induction calls generalizing w with
  | nil => exact Nat.le_refl _
  | cons call calls ih =>
    obtain ⟨hcall, hcalls⟩ := List.forall_mem_cons.mp hl
    exact (length_perform hcall).trans (ih hcalls)

/-- Where the last world has no more ids than there are, each creation found one. -/
theorem along_harmless {calls : List (Call C)} (hl : ∀ call ∈ calls, call.lifecycle = true)
    (hids : (Purge.run World.perform w calls).generations.length ≤ 2 ^ 32) :
    Purge.Along World.perform Harmless w calls := by
  induction calls generalizing w with
  | nil => trivial
  | cons call calls ih =>
    obtain ⟨hcall, hcalls⟩ := List.forall_mem_cons.mp hl
    refine ⟨?_, ih hcalls hids⟩
    cases call with
    | createEntity =>
      have hnext : w.createEntity.2.generations.length ≤ 2 ^ 32 :=
        (length_run (w := w.createEntity.2) hcalls).trans hids
      rw [length_createEntity] at hnext
      by_cases hfree : w.freeIds = []
      · rw [if_pos hfree] at hnext
        exact .inr hnext
      · exact .inl hfree
    | destroyEntity e => trivial
    | _ => cases hcall

theorem freed_run {calls : List (Call C)} (h : w.Freed) (hok : w.Ok)
    (hl : ∀ call ∈ calls, call.lifecycle = true) (hc : Purge.Along World.perform Harmless w calls) :
    (Purge.run World.perform w calls).Freed := by
  induction calls generalizing w with
  | nil => exact h
  | cons call calls ih =>
    obtain ⟨hcall, hcalls⟩ := List.forall_mem_cons.mp hl
    exact ih (h.perform hok hcall hc.1) (hok.perform hc.1) hcalls hc.2

omit [DecidableEq τ] in
/-- An id that is in the tables is dead when no handle of it is alive. -/
theorem Ok.dead_iff (h : w.Ok) (id : UInt32) : w.alive[id.toNat]? = some false ↔
    id.toNat < w.generations.length ∧ ∀ generation, w.isAlive ⟨id, generation⟩ = false := by
  constructor
  · intro hdead
    obtain ⟨hlt, -⟩ := List.getElem?_eq_some_iff.mp hdead
    refine ⟨h.sizes ▸ hlt, fun generation => ?_⟩
    by_contra halive
    rw [Bool.not_eq_false, isAlive_iff] at halive
    exact absurd (hdead.symm.trans halive.2) (by decide)
  · rintro ⟨hlt, hdead⟩
    have hgen := List.getElem?_eq_getElem hlt
    obtain ⟨b, hb⟩ : ∃ b, w.alive[id.toNat]? = some b :=
      ⟨_, List.getElem?_eq_getElem (h.sizes.symm ▸ hlt)⟩
    cases b with
    | false => exact hb
    | true =>
      have hlive := isAlive_iff (e := ⟨id, w.generations[id.toNat]⟩).mpr ⟨hgen, hb⟩
      rw [hdead] at hlive
      cases hlive

end World

/-- After creations and destructions through any handles, on at most `2 ^ 32` ids: no handle was
given twice, unless an id was destroyed `2 ^ 32` times; a handle is alive when it was created and not
destroyed since; `freeIds` has each id that is dead, once; and destroying what is not alive changes
nothing. -/
theorem entity_handles {calls : List (Call C)} (hl : ∀ call ∈ calls, call.lifecycle = true)
    {w : World C} (hw : Purge.run World.perform {} calls = w)
    (hids : w.generations.length ≤ 2 ^ 32) :
    ((∀ id, (historyOf {} {} calls).destroyed id < 2 ^ 32) →
      (historyOf {} {} calls).created.Nodup) ∧
    (∀ e, w.isAlive e = true ↔ e ∈ (historyOf {} {} calls).live) ∧
    w.freeIds.Nodup ∧
    (∀ id, id ∈ w.freeIds ↔
      id.toNat < w.generations.length ∧ ∀ generation, w.isAlive ⟨id, generation⟩ = false) ∧
    ∀ e, e ∉ (historyOf {} {} calls).live → w.destroyEntity e = w := by
  have hc := World.along_harmless hl (hw.symm ▸ hids)
  obtain ⟨hok, hr⟩ := ok_run .empty .empty hc
  have hfreed := World.freed_run (w := {}) (fun id h => by simp at h) .empty hl hc
  rw [hw] at hok hr hfreed
  refine ⟨fun hb => (hr.past hb).1, fun e => (hr.live e).symm, hok.nodup, fun id => ?_,
    fun e he => ?_⟩
  · rw [← hok.dead_iff]
    exact ⟨hok.free id, hfreed id⟩
  · refine World.destroyEntity_dead ?_
    rw [hr.live] at he
    simpa using he

/-- Two entities, the first of which ends, is destroyed again, and gives its id to a third. -/
def lifecycleCalls : List (Call fun _ : Unit => Nat) :=
  [.createEntity, .createEntity, .destroyEntity ⟨0, 0⟩, .destroyEntity ⟨0, 0⟩, .createEntity,
    .destroyEntity ⟨1, 0⟩]

theorem entity_handles_calls :
    (Purge.run World.perform {} lifecycleCalls).isAlive ⟨0, 1⟩ = true ∧
      (0 : UInt32) ∉ (Purge.run World.perform {} lifecycleCalls).freeIds ∧
      (Purge.run World.perform {} lifecycleCalls).freeIds.Nodup := by
  obtain ⟨-, hlive, hnodup, hfree, -⟩ :=
    entity_handles (show ∀ call ∈ lifecycleCalls, call.lifecycle = true by decide) rfl (by decide)
  have halive := (hlive ⟨0, 1⟩).mpr (by decide)
  exact ⟨halive, fun hm => absurd (((hfree 0).mp hm).2 1) (by rw [halive]; decide), hnodup⟩

end Ecs
end Techuila
