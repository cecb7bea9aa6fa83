import Techuila.Os.Preemption

/-!
# Undisturbed creations are safe (`22-os/scheduler/scheduler.cpp`)

* `Machine.Sound`: what holds of a machine in an undisturbed run.
* `Sound.later`, `Sound.write`: the steps that write to no slot, and those that write to one.
* `creation_safe`: the whole run. `creation_unsafe`: a tick before the frame is complete.
-/

namespace Techuila
namespace Os

/-- The call has not written to the table yet. -/
def CreateAt.early : CreateAt → Prop
  | .findSlot _ _ | .reclaim _ _ | .takePid _ | .writePid _ _ => True
  | _ => False

theorem CreateAt.early.commits {pc : CreateAt} (h : pc.early) : pc.commits = none := by
  cases pc <;> first | rfl | cases h

/-- Only what the scheduler does not look at differs. -/
structure Quiet (k k' : Kernel) : Prop where
  current : k'.currentTaskIndex = k.currentTaskIndex
  pid : ∀ i, (k'.tasks i).pid = (k.tasks i).pid
  state : ∀ i, (k'.tasks i).state = (k.tasks i).state
  savedEsp : ∀ i, (k'.tasks i).savedEsp = (k.tasks i).savedEsp

theorem Quiet.of_tasks {k k' : Kernel} (hcurrent : k'.currentTaskIndex = k.currentTaskIndex)
    (htasks : k'.tasks = k.tasks) : Quiet k k' :=
  ⟨hcurrent, fun i => by rw [htasks], fun i => by rw [htasks], fun i => by rw [htasks]⟩

theorem Quiet.setTask {k : Kernel} {slot : Slot} {f : Task → Task}
    (hf : ∀ task, (f task).pid = task.pid ∧ (f task).state = task.state ∧
      (f task).savedEsp = task.savedEsp) : Quiet k (k.setTask slot f) := by
  have htask : ∀ i, ((k.setTask slot f).tasks i).pid = (k.tasks i).pid ∧
      ((k.setTask slot f).tasks i).state = (k.tasks i).state ∧
      ((k.setTask slot f).tasks i).savedEsp = (k.tasks i).savedEsp := by
    intro i
    by_cases hi : i = slot
    · rw [hi, Kernel.setTask_same]
      exact hf _
    · rw [Kernel.setTask_of_ne hi]
      exact ⟨rfl, rfl, rfl⟩
  exact ⟨rfl, fun i => (htask i).1, fun i => (htask i).2.1, fun i => (htask i).2.2⟩

theorem Quiet.settled {k k' : Kernel} (h : Quiet k k') (hset : Settled k) : Settled k' where
  running i := by
    rw [h.state, h.current]
    exact hset.running i
  idle := by
    rw [h.state]
    exact hset.idle

theorem reclaimStatement_quiet (I : KernelImage) (k : Kernel) (slot : Slot) (part : ReclaimAt) :
    Quiet k (reclaimStatement I k slot part).1 := by
  cases part with
  | clearCode | clearStack | clearElf | clearCount | clearUser | setSpace =>
    dsimp only [reclaimStatement]
    exact .setTask fun _ => ⟨rfl, rfl, rfl⟩
  | _ => exact .of_tasks rfl rfl

/-- A statement before the pid is written leads to another such one, or out of the call. -/
theorem statement_early (I : KernelImage) (entry : Nat) (k : Kernel) {pc : CreateAt} (h : pc.early)
    (hpid : ∀ slot pid, pc ≠ .writePid slot pid) : Quiet k (statement I entry k pc).1 ∧
      ∀ pc', (statement I entry k pc).2 = .inl pc' → pc'.early := by
  cases pc with
  | findSlot wanted i =>
    dsimp only [statement]
    split_ifs with hi
    · exact ⟨.of_tasks rfl rfl, fun pc' he => Sum.inl.inj he ▸ trivial⟩
    · exact ⟨.of_tasks rfl rfl, fun pc' he => Sum.inl.inj he ▸ trivial⟩
    · exact ⟨.of_tasks rfl rfl, fun pc' he => Sum.inl.inj he ▸ trivial⟩
    · exact ⟨.of_tasks rfl rfl, fun pc' he => by cases he⟩
  | reclaim slot part =>
    have hquiet := reclaimStatement_quiet I k slot part
    dsimp only [statement]
    generalize reclaimStatement I k slot part = next at hquiet ⊢
    obtain ⟨k', _ | part'⟩ := next
    · exact ⟨hquiet, fun pc' he => Sum.inl.inj he ▸ trivial⟩
    · exact ⟨hquiet, fun pc' he => Sum.inl.inj he ▸ trivial⟩
  | takePid slot => exact ⟨.of_tasks rfl rfl, fun pc' he => Sum.inl.inj he ▸ trivial⟩
  | writePid slot pid => exact absurd rfl (hpid slot pid)
  | _ => cases h

theorem statement_current (I : KernelImage) (entry : Nat) (k : Kernel) (pc : CreateAt) :
    (statement I entry k pc).1.currentTaskIndex = k.currentTaskIndex := by
  cases pc with
  | findSlot | reclaim | takePid =>
    refine (statement_early I entry k ?_ fun _ _ he => by cases he).1.current
    trivial
  | place slot pid fields | fill slot pid fields => cases fields <;> rfl
  | _ => rfl

namespace Machine

theorem advance_current (I : KernelImage) (m : Machine) (c : Slot) (call : Creation) :
    (m.advance I c call).kernel.currentTaskIndex = m.kernel.currentTaskIndex := by
  have hcurrent := statement_current I call.entry m.kernel call.pc
  unfold advance
  split
  all_goals
    rename_i hs
    rw [hs] at hcurrent
    exact hcurrent

/-- A call that is about to return, or has returned. -/
def Landed (m : Machine) (r : Returned) : Prop :=
  r.serial ∈ m.dead ∨ (m.owner r.slot = r.serial ∧ (m.kernel.tasks r.slot).pid = r.pid ∧
    alive (m.kernel.tasks r.slot).state = true ∧ m.Settles r.slot)

/-- What a call in progress has done. -/
def Committing (I : KernelImage) (m : Machine) (call : Creation) : Prop :=
  match call.pc with
  | .writeReady slot pid => m.owner slot = call.serial ∧ (m.kernel.tasks slot).pid = pid ∧
      alive (m.kernel.tasks slot).state = false
  | .place slot pid _ => m.owner slot = call.serial ∧ (m.kernel.tasks slot).pid = pid ∧
      (m.kernel.tasks slot).state = .ready
  | .fill slot pid (_ :: _) => m.owner slot = call.serial ∧ (m.kernel.tasks slot).pid = pid ∧
      (m.kernel.tasks slot).state = .ready ∧ (m.kernel.tasks slot).savedEsp = initialFrame I slot
  | .fill slot pid [] => m.Landed ⟨call.serial, slot, pid⟩
  | _ => True

/-- What holds of a machine in an undisturbed run. -/
structure Sound (I : KernelImage) (m : Machine) : Prop where
  settled : Settled m.kernel
  calm : m.kernel.currentTaskIndex = none → ∀ c, m.calls c = none
  busy : ∀ c call, m.calls c = some call → runnable (m.kernel.tasks c).state = true
  unique : ∀ c c' call call' slot, m.calls c = some call → m.calls c' = some call' →
    call.pc.commits = some slot → call'.pc.commits = some slot → c = c'
  commits : ∀ c call, m.calls c = some call → m.Committing I call
  landed : ∀ r ∈ m.returned, m.Landed r
  framed : ∀ i, alive (m.kernel.tasks i).state = true → m.Settles i →
    m.frame i = some (m.owner i, (m.kernel.tasks i).savedEsp)

section
variable {I : KernelImage} {m m' : Machine}

theorem Sound.oneEach (h : Sound I m) : m.OneEach := by
  intro a ha b hb hslot hne
  rcases h.landed a ha with hdead | ⟨hown, -⟩
  · exact .inl hdead
  · rcases h.landed b hb with hdead | ⟨hown', -⟩
    · exact .inr hdead
    · exact absurd (hown.symm.trans (hslot ▸ hown')) hne

theorem Sound.started (h : Sound I m) : m.Started := by
  intro r hr
  refine (h.landed r hr).imp_right fun ⟨hown, hpid, halive, hsettles⟩ => ⟨hpid, halive, ?_⟩
  rw [h.framed r.slot halive hsettles, hown]

/-- A slot that a call takes is not one where another call has landed. -/
theorem Landed.of_slot {r : Returned} (h : m.Landed r) (hdead : ∀ x ∈ m.dead, x ∈ m'.dead)
    (howner : m'.owner r.slot = m.owner r.slot)
    (hpid : (m'.kernel.tasks r.slot).pid = (m.kernel.tasks r.slot).pid)
    (halive : alive (m.kernel.tasks r.slot).state = true →
      alive (m'.kernel.tasks r.slot).state = true ∨ m.owner r.slot ∈ m'.dead)
    (hsettles : m.Settles r.slot → m'.Settles r.slot) : m'.Landed r := by
  rcases h with h | ⟨hown, hp, ha, hs⟩
  · exact .inl (hdead _ h)
  · rcases halive ha with ha' | hd
    · exact .inr ⟨howner.trans hown, hpid.trans hp, ha', hsettles hs⟩
    · exact .inl (hown ▸ hd)


theorem Committing.early {call : Creation} (h : call.pc.early) : m.Committing I call := by
  obtain ⟨serial, entry, pc⟩ := call
  cases pc <;> trivial

/-- A call stays where it stands when nothing changes in the slot that it writes to. -/
theorem Committing.keep {call : Creation} (h : m.Committing I call)
    (hland : ∀ r, m.Landed r → m'.Landed r)
    (hsame : ∀ slot, call.pc.commits = some slot → m'.owner slot = m.owner slot ∧
      (m'.kernel.tasks slot).pid = (m.kernel.tasks slot).pid ∧
      (m'.kernel.tasks slot).state = (m.kernel.tasks slot).state ∧
      (m'.kernel.tasks slot).savedEsp = (m.kernel.tasks slot).savedEsp) : m'.Committing I call := by
  obtain ⟨serial, entry, pc⟩ := call
  cases pc with
  | writeReady slot pid =>
    obtain ⟨hown, hp, hdown⟩ := h
    obtain ⟨howner, hpid, hstate, -⟩ := hsame slot rfl
    exact ⟨howner.trans hown, hpid.trans hp, hstate ▸ hdown⟩
  | place slot pid fields =>
    obtain ⟨hown, hp, hready⟩ := h
    obtain ⟨howner, hpid, hstate, -⟩ := hsame slot rfl
    exact ⟨howner.trans hown, hpid.trans hp, hstate.trans hready⟩
  | fill slot pid fields =>
    cases fields with
    | nil => exact hland _ h
    | cons f fields =>
      obtain ⟨hown, hp, hready, hesp⟩ := h
      obtain ⟨howner, hpid, hstate, hesp'⟩ := hsame slot rfl
      exact ⟨howner.trans hown, hpid.trans hp, hstate.trans hready, hesp'.trans hesp⟩
  | _ => trivial

/-- A step that writes to no slot that a call is writing. -/
theorem Sound.later (h : Sound I m) (hsettled : Settled m'.kernel)
    (hcalm : m'.kernel.currentTaskIndex = none → ∀ c, m'.calls c = none)
    (hcalls : ∀ c call, m'.calls c = some call → m.calls c = some call ∨ call.pc.early)
    (hkeep : ∀ c call slot, m.calls c = some call → call.pc.commits = some slot →
      m'.calls c = some call)
    (hbusy : ∀ c call, m'.calls c = some call → runnable (m'.kernel.tasks c).state = true)
    (howner : m'.owner = m.owner) (hreturned : ∀ r ∈ m'.returned, m.Landed r)
    (hdead : ∀ x ∈ m.dead, x ∈ m'.dead)
    (hpid : ∀ i, (m'.kernel.tasks i).pid = (m.kernel.tasks i).pid)
    (hlive : ∀ i, alive (m.kernel.tasks i).state = true →
      alive (m'.kernel.tasks i).state = true ∨ m.owner i ∈ m'.dead)
    (hsame : ∀ i, ¬ m.Settles i → (m'.kernel.tasks i).state = (m.kernel.tasks i).state ∧
      (m'.kernel.tasks i).savedEsp = (m.kernel.tasks i).savedEsp)
    (hframe : ∀ i, m.Settles i → alive (m'.kernel.tasks i).state = true →
      alive (m.kernel.tasks i).state = true ∧
        (m.frame i = some (m.owner i, (m.kernel.tasks i).savedEsp) →
          m'.frame i = some (m.owner i, (m'.kernel.tasks i).savedEsp))) : Sound I m' := by
  have hsettles : ∀ i, m.Settles i → m'.Settles i := by
    intro i hi c call hcall hcommits
    rcases hcalls c call hcall with hold | hearly
    · exact hi c call hold hcommits
    · cases hearly.commits.symm.trans hcommits
  have hsettles' : ∀ i, m'.Settles i → m.Settles i := fun i hi c call hcall hcommits =>
    hi c call (hkeep c call i hcall hcommits) hcommits
  have hland : ∀ r, m.Landed r → m'.Landed r := fun r hr =>
    hr.of_slot hdead (congrFun howner _) (hpid _) (hlive _) (hsettles _)
  refine ⟨hsettled, hcalm, hbusy, fun c c' call call' slot hc hc' hs hs' => ?_,
    fun c call hcall => ?_, fun r hr => hland r (hreturned r hr),
    fun i halive hi => ?_⟩
  · have hold : ∀ c call, m'.calls c = some call → call.pc.commits = some slot →
        m.calls c = some call := by
      intro c call hcall hcommits
      refine (hcalls c call hcall).resolve_right fun hearly => ?_
      cases hearly.commits.symm.trans hcommits
    exact h.unique c c' call call' slot (hold c call hc hs) (hold c' call' hc' hs') hs hs'
  · rcases hcalls c call hcall with hold | hearly
    · refine (h.commits c call hold).keep hland fun slot hs => ?_
      exact ⟨congrFun howner slot, hpid slot, hsame slot fun hi => hi c call hold hs⟩
    · exact .early hearly
  · obtain ⟨hold, hframed⟩ := hframe i (hsettles' i hi) halive
    rw [howner]
    exact hframed (h.framed i hold (hsettles' i hi))

/-- A statement of a call that writes to a slot where no other call is writing, and where no task of a
call that has landed is alive. -/
theorem Sound.write (h : Sound I m) {c slot : Slot} {call call' : Creation}
    (hcall : m.calls c = some call)
    (hclear : ∀ r, m.Landed r → r.slot = slot → r.serial ∈ m.dead)
    (hothers : ∀ c' call', c' ≠ c → m.calls c' = some call' → call'.pc.commits ≠ some slot)
    (hcommits : ∀ s, call.pc.commits = some s → s = slot)
    (hcommits' : ∀ s, call'.pc.commits = some s → s = slot)
    (hcalls : m'.calls = Function.update m.calls c (some call'))
    (htasks : ∀ i, i ≠ slot → m'.kernel.tasks i = m.kernel.tasks i)
    (hcurrent : m'.kernel.currentTaskIndex = m.kernel.currentTaskIndex)
    (howner : ∀ i, i ≠ slot → m'.owner i = m.owner i)
    (hframe : ∀ i, i ≠ slot → m'.frame i = m.frame i)
    (hreturned : m'.returned = m.returned) (hdead : m'.dead = m.dead)
    (hsettled : Settled m'.kernel)
    (hrun : runnable (m.kernel.tasks slot).state = true →
      runnable (m'.kernel.tasks slot).state = true)
    (hcom : m'.Committing I call')
    (hslot : alive (m'.kernel.tasks slot).state = true → call'.pc.commits = some slot ∨
      m'.frame slot = some (m'.owner slot, (m'.kernel.tasks slot).savedEsp)) : Sound I m' := by
  have hself : m'.calls c = some call' := by rw [hcalls, Function.update_self]
  have hother : ∀ {c'}, c' ≠ c → m'.calls c' = m.calls c' := fun hne => by
    rw [hcalls, Function.update_of_ne hne]
  have hland : ∀ r, m.Landed r → m'.Landed r := by
    intro r hr
    by_cases hs : r.slot = slot
    · exact .inl (hdead ▸ hclear r hr hs)
    · refine hr.of_slot (fun x hx => hdead ▸ hx) (howner _ hs) (by rw [htasks _ hs])
        (fun ha => .inl (by rw [htasks _ hs]; exact ha)) fun hi c' call'' hc' hcs => ?_
      by_cases hne : c' = c
      · subst hne
        cases hself.symm.trans hc'
        exact hs (hcommits' _ hcs)
      · exact hi c' call'' (hother hne ▸ hc') hcs
  refine ⟨hsettled, fun hnone => ?_, fun c' call'' hc' => ?_, fun c₁ c₂ call₁ call₂ s h₁ h₂ hs₁ hs₂ => ?_,
    fun c' call'' hc' => ?_, fun r hr => hland r (h.landed r (hreturned ▸ hr)), fun i halive hi => ?_⟩
  · cases (h.calm (hcurrent ▸ hnone) c).symm.trans hcall
  · have hold : runnable (m.kernel.tasks c').state = true := by
      by_cases hne : c' = c
      · exact hne ▸ h.busy c call hcall
      · exact h.busy c' call'' (hother hne ▸ hc')
    by_cases hs : c' = slot
    · subst hs
      exact hrun hold
    · rw [htasks c' hs]
      exact hold
  · by_cases hne₁ : c₁ = c
    · by_cases hne₂ : c₂ = c
      · exact hne₁.trans hne₂.symm
      · subst hne₁
        cases hself.symm.trans h₁
        obtain rfl := hcommits' s hs₁
        exact absurd hs₂ (hothers c₂ call₂ hne₂ (hother hne₂ ▸ h₂))
    · by_cases hne₂ : c₂ = c
      · subst hne₂
        cases hself.symm.trans h₂
        obtain rfl := hcommits' s hs₂
        exact absurd hs₁ (hothers c₁ call₁ hne₁ (hother hne₁ ▸ h₁))
      · exact h.unique c₁ c₂ call₁ call₂ s (hother hne₁ ▸ h₁) (hother hne₂ ▸ h₂) hs₁ hs₂
  · by_cases hne : c' = c
    · subst hne
      cases hself.symm.trans hc'
      exact hcom
    · have hold : m.calls c' = some call'' := hother hne ▸ hc'
      refine (h.commits c' call'' hold).keep hland fun s hs => ?_
      have hne : s ≠ slot := fun he => hothers c' call'' hne hold (he ▸ hs)
      rw [htasks s hne]
      exact ⟨howner s hne, rfl, rfl, rfl⟩
  · by_cases hs : i = slot
    · subst hs
      exact (hslot halive).resolve_left fun hcs => hi c call' hself hcs
    · rw [htasks i hs] at halive ⊢
      rw [hframe i hs, howner i hs]
      refine h.framed i halive fun c' call'' hc' hcs => ?_
      by_cases hne : c' = c
      · subst hne
        cases hcall.symm.trans hc'
        exact hs (hcommits i hcs)
      · exact hi c' call'' ((hother hne).trans hc') hcs

/-- A call begins, ends, or goes on before it writes to the table. -/
theorem Sound.quiet (h : Sound I m) {c : Slot} (hcur : m.kernel.currentTaskIndex = some c)
    (hcall : ∀ call, m.calls c = some call → call.pc.commits = none) {k : Kernel}
    (hk : Quiet m.kernel k) {next : Option Creation} (hnext : ∀ call, next = some call → call.pc.early)
    (serial : Nat) {returned : List Returned} (hreturned : ∀ r ∈ returned, m.Landed r) :
    Sound I { m with
      kernel := k
      calls := Function.update m.calls c next
      nextSerial := serial
      returned := returned } := by
  have hcalls : ∀ c' call', Function.update m.calls c next c' = some call' →
      c' = c ∧ call'.pc.early ∨ m.calls c' = some call' := by
    intro c' call' hc'
    by_cases hne : c' = c
    · subst hne
      rw [Function.update_self] at hc'
      exact .inl ⟨rfl, hnext call' hc'⟩
    · rw [Function.update_of_ne hne] at hc'
      exact .inr hc'
  refine h.later (hk.settled h.settled) (fun hnone => ?_) (fun c' call' hc' => ?_)
    (fun c' call' slot hc' hcs => ?_) (fun c' call' hc' => ?_) rfl hreturned (fun x hx => hx) hk.pid
    (fun i ha => .inl ?_) (fun i _ => ⟨hk.state i, hk.savedEsp i⟩) (fun i _ ha => ⟨?_, fun hf => ?_⟩)
  · cases (hk.current.symm.trans hnone).symm.trans hcur
  · exact (hcalls c' call' hc').elim (fun hnew => .inr hnew.2) .inl
  · have hne : c' ≠ c := by
      rintro rfl
      cases (hcall call' hc').symm.trans hcs
    exact (Function.update_of_ne hne ..).trans hc'
  · rw [hk.state]
    rcases hcalls c' call' hc' with ⟨rfl, -⟩ | hold
    · rw [(h.settled.running c').mpr hcur]
      rfl
    · exact h.busy c' call' hold
  · rw [hk.state]
    exact ha
  · rw [← hk.state]
    exact ha
  · rw [hk.savedEsp]
    exact hf

/-- Where a call writes to a slot, no other one does, and none has landed there. -/
theorem Sound.committing (h : Sound I m) {c slot : Slot} {call : Creation}
    (hcall : m.calls c = some call) (hcommits : call.pc.commits = some slot) :
    (∀ r, m.Landed r → r.slot = slot → r.serial ∈ m.dead) ∧
      ∀ c' call', c' ≠ c → m.calls c' = some call' → call'.pc.commits ≠ some slot := by
  refine ⟨fun r hr hs => hr.resolve_right ?_, fun c' call' hne hc' hcs => ?_⟩
  · rintro ⟨-, -, -, hsettles⟩
    exact hsettles c call hcall (hs ▸ hcommits)
  · exact hne (h.unique c' c call' call slot hc' hcall hcs hcommits)

/-- The states of the table do not change. -/
theorem Sound.settled_of_state (h : Sound I m) {k : Kernel}
    (hcurrent : k.currentTaskIndex = m.kernel.currentTaskIndex)
    (hstate : ∀ i, (k.tasks i).state = (m.kernel.tasks i).state) : Settled k where
  running i := by
    rw [hstate, hcurrent]
    exact h.settled.running i
  idle := by
    rw [hstate]
    exact h.settled.idle

theorem setTask_state {k : Kernel} {slot : Slot} {f : Task → Task}
    (hf : ∀ task, (f task).state = task.state) (i : Slot) :
    ((k.setTask slot f).tasks i).state = (k.tasks i).state := by
  by_cases hi : i = slot
  · rw [hi, Kernel.setTask_same, hf]
  · rw [Kernel.setTask_of_ne hi]

/-- A pid is written. -/
theorem Sound.writePid (h : Sound I m) {c slot : Slot} {serial entry pid : Nat}
    (hcall : m.calls c = some ⟨serial, entry, .writePid slot pid⟩)
    (hdown : alive (m.kernel.tasks slot).state = false) (hsettles : m.Settles slot) :
    Sound I (m.advance I c ⟨serial, entry, .writePid slot pid⟩) := by
  obtain ⟨k, hk⟩ : ∃ k, k = m.kernel.setTask slot fun task => { task with pid := pid } := ⟨_, rfl⟩
  have htask : k.tasks slot = { m.kernel.tasks slot with pid := pid } := by
    rw [hk, Kernel.setTask_same]
  have hother : ∀ i, i ≠ slot → k.tasks i = m.kernel.tasks i := fun i hi => by
    rw [hk, Kernel.setTask_of_ne hi]
  have hstate : ∀ i, (k.tasks i).state = (m.kernel.tasks i).state := by
    rw [hk]
    exact setTask_state fun _ => rfl
  have hcurrent : k.currentTaskIndex = m.kernel.currentTaskIndex := by rw [hk]; rfl
  rw [show m.advance I c ⟨serial, entry, .writePid slot pid⟩ = { m with
      kernel := k
      owner := Function.update m.owner slot serial
      calls := Function.update m.calls c (some ⟨serial, entry, .writeReady slot pid⟩) } by
    rw [hk]
    rfl]
  have hcommits : ∀ s, (CreateAt.writeReady slot pid).commits = some s → s = slot := fun s hs =>
    (Option.some.inj hs).symm
  refine h.write hcall (fun r hr hs => hr.resolve_right ?_) (fun c' call' _ hc' => hsettles c' call' hc')
    (fun s hs => by cases hs) hcommits rfl hother hcurrent
    (fun i hi => Function.update_of_ne hi ..) (fun _ _ => rfl) rfl rfl
    (h.settled_of_state hcurrent hstate) (fun hr => ?_) ⟨Function.update_self .., ?_, ?_⟩
    (fun _ => .inl rfl)
  · rintro ⟨-, -, halive, -⟩
    rw [hs, hdown] at halive
    cases halive
  · exact (congrArg runnable (hstate slot)).trans hr
  · exact congrArg Task.pid htask
  · exact (congrArg alive (hstate slot)).trans hdown

/-- A task becomes ready. -/
theorem Sound.writeReady (h : Sound I m) {c slot : Slot} {serial entry pid : Nat}
    (hcall : m.calls c = some ⟨serial, entry, .writeReady slot pid⟩) :
    Sound I (m.advance I c ⟨serial, entry, .writeReady slot pid⟩) := by
  obtain ⟨hclear, hothers⟩ := h.committing hcall rfl
  obtain ⟨hown, hpid, hdown⟩ := h.commits c _ hcall
  have hnot : runnable (m.kernel.tasks slot).state = false := (Bool.or_eq_false_iff.mp hdown).1
  obtain ⟨k, hk⟩ : ∃ k, k = m.kernel.setTask slot fun task => { task with state := .ready } :=
    ⟨_, rfl⟩
  have htask : k.tasks slot = { m.kernel.tasks slot with state := .ready } := by
    rw [hk, Kernel.setTask_same]
  have hother : ∀ i, i ≠ slot → k.tasks i = m.kernel.tasks i := fun i hi => by
    rw [hk, Kernel.setTask_of_ne hi]
  have hcurrent : k.currentTaskIndex = m.kernel.currentTaskIndex := by rw [hk]; rfl
  have hsettled : Settled k := by
    refine ⟨fun i => ?_, ?_⟩
    · rw [hcurrent]
      by_cases hi : i = slot
      · rw [hi, htask]
        exact iff_of_false nofun (h.settled.not_current hnot)
      · rw [hother i hi]
        exact h.settled.running i
    · have hne : (0 : Slot) ≠ slot := by
        rintro rfl
        cases h.settled.idle.symm.trans hnot
      rw [hother 0 hne]
      exact h.settled.idle
  rw [show m.advance I c ⟨serial, entry, .writeReady slot pid⟩ = { m with
      kernel := k
      calls := Function.update m.calls c (some ⟨serial, entry, .place slot pid placedFields⟩) } by
    rw [hk]
    rfl]
  have hcommits : ∀ s, (CreateAt.writeReady slot pid).commits = some s → s = slot := fun s hs =>
    (Option.some.inj hs).symm
  have hcommits' : ∀ s, (CreateAt.place slot pid placedFields).commits = some s → s = slot :=
    hcommits
  refine h.write hcall hclear hothers hcommits hcommits' rfl hother hcurrent (fun _ _ => rfl)
    (fun _ _ => rfl) rfl rfl hsettled (fun _ => ?_) ⟨hown, ?_, ?_⟩ (fun _ => .inl rfl)
  · exact congrArg (fun task : Task => runnable task.state) htask
  · exact (congrArg Task.pid htask).trans hpid
  · exact congrArg Task.state htask

/-- A field of the frame is stored. -/
theorem Sound.storeFrame (h : Sound I m) {c slot : Slot} {call call' : Creation}
    (hcall : m.calls c = some call) (hcommits : call.pc.commits = some slot)
    (hcommits' : ∀ s, call'.pc.commits = some s → s = slot) {f : Nat × Nat}
    {frame : Slot → Option (Nat × Nat)} (hframe : ∀ i, i ≠ slot → frame i = m.frame i)
    (hkernel : m' = { m with
      frame := frame
      kernel := m.kernel.storeFrame I slot [f]
      calls := Function.update m.calls c (some call') })
    (hcom : m'.Committing I call')
    (hslot : call'.pc.commits = some slot ∨
      frame slot = some (m.owner slot, (m.kernel.tasks slot).savedEsp)) : Sound I m' := by
  subst hkernel
  obtain ⟨hclear, hothers⟩ := h.committing hcall hcommits
  exact h.write hcall hclear hothers (fun s hs => Option.some.inj (hs.symm.trans hcommits)) hcommits'
    rfl (fun _ _ => rfl) rfl (fun _ _ => rfl) hframe rfl rfl
    (h.settled_of_state rfl fun _ => rfl) (fun hr => hr) hcom (fun _ => hslot)

/-- The stack pointer is stored. -/
theorem Sound.placed (h : Sound I m) {c slot : Slot} {serial entry pid : Nat}
    (hcall : m.calls c = some ⟨serial, entry, .place slot pid []⟩) :
    Sound I (m.advance I c ⟨serial, entry, .place slot pid []⟩) := by
  obtain ⟨hclear, hothers⟩ := h.committing hcall rfl
  obtain ⟨hown, hpid, hready⟩ := h.commits c _ hcall
  obtain ⟨k, hk⟩ : ∃ k, k = m.kernel.setTask slot fun task =>
    { task with savedEsp := initialFrame I slot } := ⟨_, rfl⟩
  have htask : k.tasks slot = { m.kernel.tasks slot with savedEsp := initialFrame I slot } := by
    rw [hk, Kernel.setTask_same]
  have hother : ∀ i, i ≠ slot → k.tasks i = m.kernel.tasks i := fun i hi => by
    rw [hk, Kernel.setTask_of_ne hi]
  have hstate : ∀ i, (k.tasks i).state = (m.kernel.tasks i).state := by
    rw [hk]
    exact setTask_state fun _ => rfl
  have hcurrent : k.currentTaskIndex = m.kernel.currentTaskIndex := by rw [hk]; rfl
  have hcommits : ∀ s, (CreateAt.place slot pid []).commits = some s → s = slot := fun s hs =>
    (Option.some.inj hs).symm
  have hcommits' : ∀ s, (CreateAt.fill slot pid (preparedFields entry)).commits = some s → s = slot :=
    hcommits
  rw [show m.advance I c ⟨serial, entry, .place slot pid []⟩ = { m with
      kernel := k
      frame := Function.update m.frame slot none
      calls := Function.update m.calls c (some ⟨serial, entry, .fill slot pid (preparedFields entry)⟩) }
    by rw [hk]; rfl]
  refine h.write hcall hclear hothers hcommits hcommits' rfl hother hcurrent (fun _ _ => rfl)
    (fun i hi => Function.update_of_ne hi ..) rfl rfl (h.settled_of_state hcurrent hstate)
    (fun hr => ?_) ⟨hown, ?_, ?_, ?_⟩ (fun _ => .inl rfl)
  · exact (congrArg runnable (hstate slot)).trans hr
  · exact (congrArg Task.pid htask).trans hpid
  · exact (hstate slot).trans hready
  · exact congrArg Task.savedEsp htask

/-- The last field of the frame is stored. -/
theorem Sound.filled (h : Sound I m) {c slot : Slot} {serial entry pid : Nat} {f : Nat × Nat}
    (hcall : m.calls c = some ⟨serial, entry, .fill slot pid [f]⟩) :
    Sound I (m.advance I c ⟨serial, entry, .fill slot pid [f]⟩) := by
  obtain ⟨-, hothers⟩ := h.committing hcall rfl
  obtain ⟨hown, hpid, hready, hesp⟩ := h.commits c _ hcall
  have hframe : ∀ i, i ≠ slot →
      Function.update m.frame slot (some (serial, initialFrame I slot)) i = m.frame i := fun i hi =>
    Function.update_of_ne hi ..
  have hcommits' : ∀ s, (CreateAt.fill slot pid []).commits = some s → s = slot := fun s hs => by
    cases hs
  refine h.storeFrame hcall rfl hcommits' hframe rfl ?_ (.inr ?_)
  · refine .inr ⟨hown, hpid, ?_, fun c' call' hc' hcs => ?_⟩
    · exact congrArg alive hready
    · by_cases hne : c' = c
      · subst hne
        cases (Function.update_self ..).symm.trans hc'
        cases hcs
      · exact hothers c' call' hne ((Function.update_of_ne hne ..).symm.trans hc') hcs
  · rw [Function.update_self, hesp]
    exact congrArg (fun x => some (x, initialFrame I slot)) hown.symm

theorem record_early {call : Creation} (h : call.pc.early)
    (hpid : ∀ slot pid, call.pc ≠ .writePid slot pid) : m.record I call = m := by
  obtain ⟨serial, entry, pc⟩ := call
  cases pc with
  | writePid slot pid => exact absurd rfl (hpid slot pid)
  | findSlot | reclaim | takePid => rfl
  | _ => cases h

/-- A statement before the pid is written. -/
theorem Sound.early (h : Sound I m) {c : Slot} {call : Creation}
    (hcur : m.kernel.currentTaskIndex = some c) (hcall : m.calls c = some call)
    (hearly : call.pc.early) (hpid : ∀ slot pid, call.pc ≠ .writePid slot pid) :
    Sound I (m.advance I c call) := by
  obtain ⟨hquiet, hnext⟩ := statement_early I call.entry m.kernel hearly hpid
  have hbefore : ∀ call', m.calls c = some call' → call'.pc.commits = none := fun call' hc => by
    cases hcall.symm.trans hc
    exact hearly.commits
  unfold advance
  rw [record_early hearly hpid]
  split
  next k pc hs =>
    rw [hs] at hquiet hnext
    exact h.quiet hcur hbefore hquiet (fun call' he => Option.some.inj he ▸ hnext pc rfl) _ h.landed
  next k r hs =>
    rw [hs] at hquiet
    exact h.quiet hcur hbefore hquiet (fun call' he => by cases he) _ h.landed

/-- A call goes on in an undisturbed run. -/
theorem Sound.advance (h : Sound I m) {c : Slot} {call : Creation}
    (hcur : m.kernel.currentTaskIndex = some c) (hcall : m.calls c = some call)
    (hpid : ∀ slot pid, call.pc = .writePid slot pid →
      alive (m.kernel.tasks slot).state = false ∧ m.Settles slot) : Sound I (m.advance I c call) := by
  obtain ⟨serial, entry, pc⟩ := call
  cases pc with
  | writePid slot pid =>
    obtain ⟨hdown, hsettles⟩ := hpid slot pid rfl
    exact h.writePid hcall hdown hsettles
  | writeReady slot pid => exact h.writeReady hcall
  | place slot pid fields =>
    cases fields with
    | nil => exact h.placed hcall
    | cons f fields =>
      have hcommits : ∀ s, (CreateAt.place slot pid fields).commits = some s → s = slot :=
        fun s hs => (Option.some.inj hs).symm
      exact h.storeFrame hcall rfl hcommits (fun i hi => Function.update_of_ne hi ..) rfl
        (h.commits c _ hcall) (.inl rfl)
  | fill slot pid fields =>
    rcases fields with _ | ⟨f, _ | ⟨f', fields⟩⟩
    · refine h.quiet hcur (fun call' hc => ?_) (.of_tasks rfl rfl) (fun call' he => by cases he) _
        fun r hr => ?_
      · cases hcall.symm.trans hc
        rfl
      · rcases List.mem_cons.mp hr with rfl | hr
        · exact h.commits c _ hcall
        · exact h.landed r hr
    · exact h.filled hcall
    · have hcommits : ∀ s, (CreateAt.fill slot pid (f' :: fields)).commits = some s → s = slot :=
        fun s hs => (Option.some.inj hs).symm
      exact h.storeFrame hcall rfl hcommits (fun _ _ => rfl) rfl (h.commits c _ hcall) (.inl rfl)
  | findSlot | reclaim | takePid => exact h.early hcur hcall trivial fun _ _ he => by cases he

/-! ### The scheduler -/

/-- The slot that a call is writing neither runs nor waits. -/
theorem Sound.of_commits (h : Sound I m) {c slot : Slot} {call : Creation}
    (hcall : m.calls c = some call) (hcommits : call.pc.commits = some slot) :
    (m.kernel.tasks slot).state ≠ .running ∧ (m.kernel.tasks slot).state ≠ .blocked := by
  have hcom := h.commits c call hcall
  obtain ⟨serial, entry, pc⟩ := call
  cases pc with
  | writeReady s pid =>
    obtain ⟨-, -, hdown⟩ := hcom
    cases hcommits
    constructor
    all_goals
      intro he
      rw [he] at hdown
      cases hdown
  | place s pid fields =>
    obtain ⟨-, -, hready⟩ := hcom
    cases hcommits
    rw [hready]
    decide
  | fill s pid fields =>
    cases fields with
    | nil => cases hcommits
    | cons f fields =>
      obtain ⟨-, -, hready, -⟩ := hcom
      cases hcommits
      rw [hready]
      decide
  | _ => cases hcommits

theorem Sound.not_settles (h : Sound I m) {slot : Slot} (hs : ¬ m.Settles slot) :
    (m.kernel.tasks slot).state ≠ .running ∧ (m.kernel.tasks slot).state ≠ .blocked := by
  unfold Settles at hs
  push Not at hs
  obtain ⟨c, call, hcall, hcommits⟩ := hs
  exact h.of_commits hcall hcommits

theorem may_leaves {e : Event} (hmay : m.may e = true) {leave : Option ProcessState} {esp : Nat}
    (he : e.switches = some (leave, esp)) (hleave : leave ≠ none) :
    ∃ c, m.kernel.currentTaskIndex = some c ∧ c ≠ 0 ∧ m.calls c = none := by
  have hfree : m.free.isSome = true := by
    cases e with
    | timerTick | yield => cases he; exact absurd rfl hleave
    | exit | terminateCurrent | blockSelf => exact hmay
    | _ => cases he
  obtain ⟨c, hc⟩ := Option.isSome_iff_exists.mp hfree
  obtain ⟨hcur, hp⟩ := Option.filter_eq_some_iff.mp hc
  rw [Bool.and_eq_true, decide_eq_true_iff, Option.isNone_iff_eq_none] at hp
  exact ⟨c, hcur, hp.1, hp.2⟩

/-- What a call of the scheduler does to the tasks. -/
theorem Sound.taskStep (h : Sound I m) {e : Event} (hmay : m.may e = true) {r : Int} {k : Kernel}
    (hs : m.kernel.step I e = some (r, k)) : TaskStep I m.kernel k e r ∧ e.creates = false := by
  cases he : e.switches with
  | some p =>
    obtain ⟨leave, esp⟩ := p
    refine ⟨switches_taskStep h.settled he (fun hleave hcur => ?_) hs, ?_⟩
    · obtain ⟨c, hc, hne, -⟩ := may_leaves hmay he hleave
      exact hne (Option.some.inj (hc.symm.trans hcur))
    · cases e <;> first | rfl | cases he
  | none =>
    cases e with
    | unblock pid =>
      cases hs
      exact ⟨scheduler_unblock_taskStep pid, rfl⟩
    | timerTick | yield | exit | blockSelf | terminateCurrent => cases he
    | _ => cases hmay

/-- The tasks of a table where what is current stays, and nothing is left. -/
theorem Sound.rest (h : Sound I m) {k : Kernel}
    (hcurrent : k.currentTaskIndex = m.kernel.currentTaskIndex) (hsettled : Settled k)
    (htask : ∀ i, k.tasks i = m.kernel.tasks i ∨ (m.kernel.tasks i).state = .blocked ∧
      k.tasks i = { m.kernel.tasks i with state := .ready }) : Sound I { m with kernel := k } := by
  refine h.later hsettled (fun hnone => h.calm (hcurrent.symm.trans hnone)) (fun _ _ hc => .inl hc)
    (fun _ _ _ hc _ => hc) (fun c call hc => ?_) rfl h.landed (fun _ hx => hx) (fun i => ?_)
    (fun i ha => .inl ?_) (fun i hi => ?_) fun i _ ha => ?_
  · rcases htask c with hsame | ⟨-, hnew⟩
    · exact hsame ▸ h.busy c call hc
    · exact congrArg (fun task : Task => runnable task.state) hnew
  · rcases htask i with hsame | ⟨-, hnew⟩
    · exact congrArg Task.pid hsame
    · exact (congrArg Task.pid hnew :)
  · rcases htask i with hsame | ⟨-, hnew⟩
    · exact (congrArg (fun task : Task => alive task.state) hsame).trans ha
    · exact congrArg (fun task : Task => alive task.state) hnew
  · rcases htask i with hsame | ⟨hblocked, -⟩
    · exact ⟨congrArg Task.state hsame, congrArg Task.savedEsp hsame⟩
    · exact absurd hblocked (h.not_settles hi).2
  · rcases htask i with hsame | ⟨hblocked, hnew⟩
    · rw [hsame] at ha ⊢
      exact ⟨ha, fun hf => hf⟩
    · refine ⟨by rw [hblocked]; rfl, fun hf => ?_⟩
      rw [hf]
      exact (congrArg (fun task : Task => some (m.owner i, task.savedEsp)) hnew.symm :)

/-- The first switch. -/
theorem Sound.first (h : Sound I m) {k : Kernel} (hsettled : Settled k)
    (hnone : m.kernel.currentTaskIndex = none) (hcurrent : k.currentTaskIndex = some 0)
    (htasks : k.tasks = Function.update m.kernel.tasks 0 { m.kernel.tasks 0 with state := .running }) :
    Sound I { m with kernel := k } := by
  have hcalls : ∀ c call, m.calls c ≠ some call := fun c call hc => by
    cases (h.calm hnone c).symm.trans hc
  have htask : ∀ i, (k.tasks i).pid = (m.kernel.tasks i).pid ∧
      (k.tasks i).savedEsp = (m.kernel.tasks i).savedEsp ∧
      alive (k.tasks i).state = alive (m.kernel.tasks i).state := by
    intro i
    rw [htasks]
    by_cases hi : i = 0
    · rw [hi, Function.update_self]
      exact ⟨rfl, rfl, (alive_of_runnable h.settled.idle).symm⟩
    · rw [Function.update_of_ne hi]
      exact ⟨rfl, rfl, rfl⟩
  refine h.later hsettled (fun hn => ?_) (fun _ _ hc => .inl hc) (fun _ _ _ hc _ => hc)
    (fun c call hc => absurd hc (hcalls c call)) rfl h.landed (fun _ hx => hx) (fun i => (htask i).1)
    (fun i ha => .inl ((htask i).2.2.trans ha)) (fun i hi => absurd ?_ hi) fun i _ ha => ?_
  · cases hcurrent.symm.trans hn
  · exact fun c call hc => absurd hc (hcalls c call)
  · refine ⟨(htask i).2.2.symm.trans ha, fun hf => ?_⟩
    rw [hf]
    exact congrArg (fun esp => some (m.owner i, esp)) (htask i).2.1.symm

/-- The current task is left at a stack pointer, and perhaps another one goes on. -/
theorem Sound.leave (h : Sound I m) {c : Slot} (hcur : m.kernel.currentTaskIndex = some c)
    {leave : Option ProcessState} {esp : Nat} {k : Kernel} (hsettled : Settled k)
    (hcurrent : k.currentTaskIndex ≠ none)
    (hleave : leave ≠ none → m.calls c = none)
    (hpid : ∀ i, (k.tasks i).pid = (m.kernel.tasks i).pid)
    (hesp : (k.tasks c).savedEsp = esp)
    (halive : alive (k.tasks c).state = true ∨ leave = some .dead)
    (hrun : leave = none → runnable (k.tasks c).state = true)
    (hother : ∀ i, i ≠ c → k.tasks i = m.kernel.tasks i ∨ m.Settles i ∧
      runnable (m.kernel.tasks i).state = true ∧
      k.tasks i = { m.kernel.tasks i with state := .running }) :
    Sound I { m with
      kernel := k
      frame := Function.update m.frame c (some (m.owner c, esp))
      dead := if leave = some .dead then m.owner c :: m.dead else m.dead } := by
  have hrunning := (h.settled.running c).mpr hcur
  refine h.later hsettled (fun hn => absurd hn hcurrent) (fun _ _ hc => .inl hc)
    (fun _ _ _ hc _ => hc) (fun c' call hc => ?_) rfl h.landed (fun x hx => ?_) hpid
    (fun i ha => ?_) (fun i hi => ?_) fun i _ ha => ?_
  · by_cases hne : c' = c
    · subst hne
      refine hrun (not_not.mp fun hl => ?_)
      cases (hleave hl).symm.trans hc
    · rcases hother c' hne with hsame | ⟨-, -, hnew⟩
      · exact hsame ▸ h.busy c' call hc
      · exact congrArg (fun task : Task => runnable task.state) hnew
  · dsimp only
    split
    · exact List.mem_cons_of_mem _ hx
    · exact hx
  · by_cases hne : i = c
    · subst hne
      refine halive.imp_right fun hd => ?_
      rw [if_pos hd]
      exact List.mem_cons_self ..
    · rcases hother i hne with hsame | ⟨-, -, hnew⟩
      · exact .inl (hsame ▸ ha)
      · exact .inl (congrArg (fun task : Task => alive task.state) hnew)
  · have hne : i ≠ c := fun he => (h.not_settles hi).1 (he ▸ hrunning)
    rcases hother i hne with hsame | ⟨hs, -⟩
    · exact ⟨congrArg Task.state hsame, congrArg Task.savedEsp hsame⟩
    · exact absurd hs hi
  · by_cases hne : i = c
    · subst hne
      refine ⟨by rw [hrunning]; rfl, fun _ => ?_⟩
      rw [hesp]
      exact Function.update_self ..
    · have hframe : Function.update m.frame c (some (m.owner c, esp)) i = m.frame i :=
        Function.update_of_ne hne ..
      dsimp only at ha ⊢
      rw [hframe]
      rcases hother i hne with hsame | ⟨-, hr, hnew⟩
      · rw [hsame] at ha ⊢
        exact ⟨ha, fun hf => hf⟩
      · refine ⟨alive_of_runnable hr, fun hf => ?_⟩
        rw [hf]
        exact (congrArg (fun task : Task => some (m.owner i, task.savedEsp)) hnew.symm :)

theorem recordLeave_of_none {e : Event} (h : e.switches = none) : m.recordLeave e = m := by
  unfold recordLeave
  rw [h]

theorem recordLeave_of_some {e : Event} {leave : Option ProcessState} {esp : Nat}
    (h : e.switches = some (leave, esp)) {c : Slot} (hcur : m.kernel.currentTaskIndex = some c) :
    m.recordLeave e = { m with
      frame := Function.update m.frame c (some (m.owner c, esp))
      dead := if leave = some .dead then m.owner c :: m.dead else m.dead } := by
  unfold recordLeave
  rw [h, hcur]

/-- A call of the scheduler in an undisturbed run. -/
theorem Sound.scheduler (h : Sound I m) {e : Event} (hmay : m.may e = true)
    (hcalm : m.Undisturbed (.scheduler e)) {r : Int} {k : Kernel}
    (hs : m.kernel.step I e = some (r, k)) :
    Sound I { m.recordLeave e with kernel := k } ∧
      m.SwitchOk { m.recordLeave e with kernel := k } := by
  obtain ⟨hstep, hcreates⟩ := h.taskStep hmay hs
  have hsettled := hstep.settled h.settled
  cases hstep with
  | still htasks hcurrent _ hnone =>
    rw [recordLeave_of_none hnone]
    exact ⟨h.rest hcurrent hsettled fun i => .inl (congrFun htasks i),
      fun n hn hne => absurd (hcurrent.symm.trans hn) hne⟩
  | created _ _ _ _ _ _ _ _ _ hc => cases hcreates.symm.trans hc
  | woken slot hblocked htasks hcurrent _ hnone =>
    rw [recordLeave_of_none hnone]
    refine ⟨h.rest hcurrent hsettled fun i => ?_, fun n hn hne => absurd (hcurrent.symm.trans hn) hne⟩
    rw [htasks]
    by_cases hi : i = slot
    · rw [hi, Function.update_self]
      exact .inr ⟨hblocked, rfl⟩
    · exact .inl (Function.update_of_ne hi ..)
  | switched leave esp result he hleaves _ _ hres =>
    cases hres with
    | first hnone hcurrent htasks =>
      have hrecord : m.recordLeave e = m := by
        unfold recordLeave
        rw [he, hnone]
      rw [hrecord]
      refine ⟨h.first hsettled hnone hcurrent htasks, fun n hn _ => ?_⟩
      cases hcurrent.symm.trans hn
      refine h.framed 0 (alive_of_runnable h.settled.idle) fun c call hcall => ?_
      cases (h.calm hnone c).symm.trans hcall
    | stay c hcur hcurrent hleave htasks _ =>
      subst hleave
      rw [recordLeave_of_some he hcur]
      have hself : k.tasks c = { m.kernel.tasks c with savedEsp := esp } := by
        rw [htasks, Function.update_self]
      have hrunning := (h.settled.running c).mpr hcur
      have hother : ∀ i, i ≠ c → k.tasks i = m.kernel.tasks i := fun i hi => by
        rw [htasks, Function.update_of_ne hi]
      refine ⟨h.leave hcur hsettled ?_ (fun hn => absurd rfl hn) (fun i => ?_) ?_ ?_ (fun _ => ?_)
        fun i hi => .inl (hother i hi), fun n hn hne => ?_⟩
      · exact fun hn => by cases hcurrent.symm.trans hn
      · by_cases hi : i = c
        · rw [hi, hself]
        · rw [hother i hi]
      · rw [hself]
      · rw [hself]
        exact .inl (by rw [hrunning]; rfl)
      · rw [hself]
        exact (congrArg runnable hrunning :)
      · exact absurd (hcur.trans (hcurrent.symm.trans hn)) hne
    | switch c n hcur hcurrent hne hrun htasks hcloser =>
      rw [recordLeave_of_some he hcur]
      have hnext : pickNext m.kernel c = some n := by
        rw [pickNext_eq]
        exact RoundRobin.next_eq_of_dist_lt hrun hne hcloser
      have hn := hcalm (he ▸ Option.some_ne_none _) c n hcur hnext
      have hself : k.tasks c =
          { m.kernel.tasks c with state := leave.getD .ready, savedEsp := esp } := by
        rw [htasks, Function.update_of_ne hne.symm, Function.update_self]
      have htarget : k.tasks n = { m.kernel.tasks n with state := .running } := by
        rw [htasks, Function.update_self]
      have hother : ∀ i, i ≠ c → i ≠ n → k.tasks i = m.kernel.tasks i := fun i hi hi' => by
        rw [htasks, Function.update_of_ne hi', Function.update_of_ne hi]
      refine ⟨h.leave hcur hsettled ?_ (fun hl => ?_) (fun i => ?_) ?_ ?_ (fun hl => ?_)
        fun i hi => ?_, fun n' hn' _ => ?_⟩
      · exact fun hnone => by cases hcurrent.symm.trans hnone
      · obtain ⟨c', hcur', -, hfree⟩ := may_leaves hmay he hl
        exact Option.some.inj (hcur.symm.trans hcur') ▸ hfree
      · by_cases hi : i = n
        · rw [hi, htarget]
        · by_cases hi' : i = c
          · rw [hi', hself]
          · rw [hother i hi' hi]
      · rw [hself]
      · rw [hself]
        rcases hleaves with rfl | rfl | rfl
        · exact .inl rfl
        · exact .inr rfl
        · exact .inl rfl
      · rw [hself, hl]
        rfl
      · by_cases hi' : i = n
        · subst hi'
          exact .inr ⟨hn, hrun, htarget⟩
        · exact .inl (hother i hi hi')
      · cases hcurrent.symm.trans hn'
        exact h.framed n (alive_of_runnable hrun) hn

/-- A step of an undisturbed run. -/
theorem Sound.step (h : Sound I m) {event : MachineEvent} (hcalm : m.Undisturbed event)
    (hs : m.step I event = some m') : Sound I m' ∧ m.SwitchOk m' := by
  cases event with
  | call entry =>
    obtain ⟨c, hc, rfl⟩ := Option.map_eq_some_iff.mp hs
    obtain ⟨hcur, hp⟩ := Option.filter_eq_some_iff.mp hc
    rw [Bool.and_eq_true, Option.isNone_iff_eq_none] at hp
    have hearly : (CreateAt.findSlot .unused 0).early := trivial
    refine ⟨h.quiet hcur (fun call hcall => ?_) (.of_tasks rfl rfl)
      (fun call he => Option.some.inj he ▸ hearly) _ h.landed, fun n hn hne => absurd hn hne⟩
    cases hp.2.symm.trans hcall
  | statement =>
    obtain ⟨c, hcur, hs⟩ := Option.bind_eq_some_iff.mp hs
    obtain ⟨call, hcall, rfl⟩ := Option.map_eq_some_iff.mp hs
    refine ⟨h.advance hcur hcall fun slot pid he => hcalm c call slot pid hcur hcall he,
      fun n hn hne => absurd ?_ hne⟩
    exact (advance_current I m c call).symm.trans hn
  | scheduler e =>
    unfold Machine.step at hs
    dsimp only at hs
    split at hs
    · rename_i hmay
      obtain ⟨⟨r, k⟩, hk, rfl⟩ := Option.map_eq_some_iff.mp hs
      exact h.scheduler hmay hcalm hk
    · cases hs

/-- When interrupts are enabled. -/
theorem start_sound {k : Kernel} (hsettled : Settled k) : Sound I (start k) where
  settled := hsettled
  calm _ _ := rfl
  busy _ _ hcall := by cases hcall
  unique _ _ _ _ _ hcall := by cases hcall
  commits _ _ hcall := by cases hcall
  landed r hr := by
    obtain ⟨i, hi, rfl⟩ := List.mem_map.mp hr
    exact .inr ⟨rfl, rfl, (List.mem_filter.mp hi).2, fun _ _ hcall => by cases hcall⟩
  framed _ _ _ := rfl

theorem Reached.sound (h : Reached I Undisturbed m) : Sound I m := by
  induction h with
  | @start k history hrun hbefore hnone =>
    refine start_sound (hrun.settled fun s hs leave esp _ _ he => ?_)
    cases (hbefore s hs).symm.trans he
  | step _ hcalm hs ih => exact (ih.step hcalm hs).1

end

/-- Task creation is safe in undisturbed runs. -/
theorem creation_safe (I : KernelImage) : Safe I Undisturbed := fun _ h =>
  ⟨h.sound.oneEach, h.sound.started, fun _ _ hcalm hs => (h.sound.step hcalm hs).2⟩

/-- A run of any events. -/
theorem Reached.run {I : KernelImage} {events : List MachineEvent} {m m' : Machine}
    (h : Reached I (fun _ _ => True) m) (hrun : events.foldlM (Machine.step I) m = some m') :
    Reached I (fun _ _ => True) m' := by
  induction events generalizing m with
  | nil => exact Option.some.inj hrun ▸ h
  | cons event events ih =>
    obtain ⟨m₁, hs, hrest⟩ := Option.bind_eq_some_iff.mp hrun
    exact ih (h.step trivial hs) hrest

/-- A small kernel with one task. -/
def oneTask : Kernel := (scheduler_create_task smallImage (boot smallImage fun _ => 0) 0x108000).2

/-- Two ticks lead to the task, and its call to where the new task is ready. -/
def halfway : Option Machine :=
  List.foldlM (Machine.step smallImage) (start oneTask)
    ([.scheduler (.timerTick 0), .scheduler (.timerTick 0x110800), .call 0x108000] ++
      List.replicate 13 .statement)

/-- A tick when the new task is ready and its stack pointer is still 0. -/
theorem creation_unsafe : ¬ ∀ I, Safe I fun _ _ => True := by
  intro hsafe
  have hcreate : ∀ k : Kernel, k.step smallImage (.createTask 0x108000) =
      some ((scheduler_create_task smallImage k 0x108000).1,
        (scheduler_create_task smallImage k 0x108000).2) := fun _ => rfl
  have hrun := Run.step (e := .createTask 0x108000) (.boot (I := smallImage) fun _ => 0) trivial
    (hcreate _)
  have hstart : Reached smallImage (fun _ _ => True) (start oneTask) := by
    refine .start hrun (fun s hs => ?_) rfl
    rw [List.mem_singleton.mp hs]
    rfl
  have hbefore : halfway.map (fun m => (m.kernel.currentTaskIndex, m.frame 2, m.owner 2)) =
      some (some 1, some (2, 0), MAX_TASKS) := by decide
  have hafter : (halfway.bind fun m => m.step smallImage (.scheduler (.timerTick 0x111800))).map
      (fun m => m.kernel.currentTaskIndex) = some (some 2) := by decide
  obtain ⟨m, hm, hfacts⟩ := Option.map_eq_some_iff.mp hbefore
  rw [hm, Option.bind_some] at hafter
  obtain ⟨m', hm', hcurrent'⟩ := Option.map_eq_some_iff.mp hafter
  obtain ⟨hcurrent, hframe, howner⟩ : m.kernel.currentTaskIndex = some 1 ∧ m.frame 2 = some (2, 0) ∧
      m.owner 2 = MAX_TASKS := by
    rw [Prod.mk.injEq, Prod.mk.injEq] at hfacts
    exact hfacts
  obtain ⟨-, -, hswitch⟩ := hsafe smallImage m (hstart.run hm)
  have hok := hswitch _ m' trivial hm' 2 hcurrent' (by rw [hcurrent]; decide)
  rw [hframe, howner] at hok
  cases hok

end Machine

end Os
end Techuila
